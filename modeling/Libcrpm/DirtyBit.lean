import Libcrpm.Engine
import Libcrpm.Mpi

/-!
# The engine that reads soft dirty bits

`dirtybit_engine.h` and `dirtybit_engine.cpp` with `USE_HYBRID_MEMORY`, which
`USE_MPI_EXTENSION` implies.  The application works on pages in DRAM; the kernel marks
those it writes to.
-/

namespace Libcrpm

open Libcrpm.Persistence Libcrpm.Program

def kWordsPerPage : Nat := kPageSize / kWordSize

theorem kWordsPerPage_eq : kWordsPerPage = 512 := rfl

/-- `DirtyBitEngine` with the bits of the kernel for the pages of its working memory.
`pteBuffer` keeps the soft dirty bits that `read_page_map` has found. -/
structure DirtyBitEngine where
  metadata : MetadataV1
  nrPages : Nat
  workingMemory : MetadataV1.Data
  softDirty : Nat → Bool
  pteBuffer : Nat → Bool
  hasSnapshot : Bool

namespace DirtyBitEngine

open MetadataV1 (Data)

/-- The page of word `o`. -/
def pageOf (o : Nat) : Nat := o / kWordsPerPage

def metadataLens : Lens DirtyBitEngine MetadataV1 where
  get := metadata
  set m t := { t with metadata := m }
  get_set _ _ := rfl
  set_set _ _ _ := rfl
  set_get _ := rfl

def mem (t : DirtyBitEngine) : MetadataV1.Nvm := t.metadata.mem

def onNvm (f : MetadataV1.Nvm → MetadataV1.Nvm) (t : DirtyBitEngine) : DirtyBitEngine :=
  { t with metadata := t.metadata.onMem f }

def existSnapshot (t : DirtyBitEngine) : Bool :=
  t.metadata.attributes &&& kAttributeHasSnapshot ≠ 0

def storeWord (o : Nat) (value : Word) : Prog DirtyBitEngine Unit :=
  Prog.act fun t => { t with
    workingMemory := Function.update t.workingMemory o value
    softDirty := Function.update t.softDirty (pageOf o) true }

/-! ## Checkpoint -/

def readPageMap : Prog DirtyBitEngine Unit := Prog.act fun t => { t with pteBuffer := t.softDirty }

def resetPageMap : Prog DirtyBitEngine Unit :=
  Prog.act fun t => { t with softDirty := fun _ => false }

def copyDirtyPages (tid nrThreads : Nat) (copyPage : Nat → Prog DirtyBitEngine Unit) :
    Prog DirtyBitEngine Unit := do
  let count ← Prog.read nrPages
  Prog.forEach (indicesOf count tid nrThreads) fun page => do
    let dirty ← Prog.read fun t => t.pteBuffer page
    if dirty then copyPage page else pure ()
  Prog.act (onNvm Memory.fence)

/-- The stores of `NonTemporalCopy256` for a page from `src` to `dst`. -/
def pageStores (dst : Area) (src : Data) (page : Nat) :
    (l : MetadataV1.Loc) → Option (MetadataV1.Val l)
  | .data a o => if a = dst ∧ pageOf o = page then some (src o) else none
  | _ => none

def applyPage (page : Nat) : Prog DirtyBitEngine Unit :=
  Prog.act fun t => onNvm (fun m => m.ntStoreAll (pageStores .main t.workingMemory page)) t

def writeBackPage (page : Nat) : Prog DirtyBitEngine Unit :=
  Prog.act fun t => onNvm (fun m => m.ntStoreAll (pageStores .back (t.metadata.load .main) page)) t

def applyDramToNvm (tid nrThreads : Nat) : Prog DirtyBitEngine Unit :=
  copyDirtyPages tid nrThreads applyPage

def writeBackParallel (tid nrThreads : Nat) : Prog DirtyBitEngine Unit :=
  copyDirtyPages tid nrThreads writeBackPage

/-- The order of the steps of the threads of a rank in the parallel sections. -/
structure Schedules where
  nrThreads : Nat
  apply : List Nat
  writeBack : List Nat

def persistSection (order : Schedules) : Prog DirtyBitEngine Unit := do
  readPageMap
  Prog.par order.nrThreads order.apply fun i => applyDramToNvm i order.nrThreads

def writeBackSection (order : Schedules) : Prog DirtyBitEngine Unit :=
  Prog.par order.nrThreads order.writeBack fun i => writeBackParallel i order.nrThreads

/-- What the leader does once the back copy is named again. -/
def finishCheckpoint : Prog DirtyBitEngine Unit := do
  resetPageMap
  let hasSnapshot ← Prog.read hasSnapshot
  if hasSnapshot then pure () else
    (MetadataV1.setAttributes kAttributeHasSnapshot).zoom metadataLens
    Prog.act fun t => { t with hasSnapshot := true }

/-! ## Opening -/

/-- The words that `NonTemporalCopyWithWriteElimination` stores to working memory. -/
def reloads (t : DirtyBitEngine) (o : Nat) : Bool :=
  o * kWordSize < MetadataV1.reachedBytes t.metadata.capacity &&
    MetadataV1.cacheLineDiffers t.workingMemory (t.metadata.load .main) o

def prepareWorkingMemory : Prog DirtyBitEngine Unit :=
  Prog.act fun t => { t with
    workingMemory := fun o => if t.reloads o then t.metadata.load .main o else t.workingMemory o
    softDirty := fun page => t.softDirty page ||
      (List.range kWordsPerPage).any fun k => t.reloads (page * kWordsPerPage + k) }

def construct (nrPages : Nat) (metadata : MetadataV1) : DirtyBitEngine where
  metadata := metadata
  nrPages := nrPages
  workingMemory := fun _ => 0#64
  softDirty := fun _ => false
  pteBuffer := fun _ => false
  hasSnapshot := false

/-- The rest of `OpenForMPI` after `recover_data`. -/
def prepare : Prog DirtyBitEngine Unit := do
  Prog.act fun t => { t with hasSnapshot := t.existSnapshot }
  prepareWorkingMemory
  resetPageMap

def mpiEngine : MpiEngine DirtyBitEngine where
  metadata := metadataLens
  content := workingMemory
  construct := construct
  prepare := prepare
  StoreCall := Nat × Word
  Valid n call := call.1 < poolWords n
  store call := storeWord call.1 call.2
  Order := Schedules
  Ordered order := 0 < order.nrThreads
  persist := persistSection
  updateCopies := writeBackSection
  finish := finishCheckpoint

end DirtyBitEngine

end Libcrpm
