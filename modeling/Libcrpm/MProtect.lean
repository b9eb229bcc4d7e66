import Libcrpm.Engine
import Libcrpm.Metadata

/-!
# The engine that tracks pages by write protection

`mprotect_engine.h` and `mprotect_engine.cpp`.  The first store to a protected region
raises a fault, whose handler records the region in the bucket of the thread.
-/

namespace Libcrpm

open Libcrpm.Persistence Libcrpm.Program

/-- `MProtectEngine` with the protection of its regions. -/
structure MProtectEngine where
  metadata : MetadataV1
  nrRegions : Nat
  regionDirty : AtomicBitSet
  writable : Nat → Bool
  flushRegions : Nat → List Nat
  flushMode : FlushMode
  hasSnapshot : Bool

namespace MProtectEngine

open MetadataV1 (Data)

def regionOf (o : Nat) : Nat := o / kWordsPerRegion

theorem shiftRight_kRegionShift (o : Nat) : (o * kWordSize) >>> kRegionShift = regionOf o := by
  rw [Nat.shiftRight_eq_div_pow, regionOf, kWordsPerRegion_eq]
  simp only [kWordSize, kRegionShift]
  omega

def metadataLens : Lens MProtectEngine MetadataV1 where
  get := metadata
  set m t := { t with metadata := m }
  get_set _ _ := rfl
  set_set _ _ _ := rfl
  set_get _ := rfl

def onMetadata {α : Type} (p : Prog MetadataV1 α) : Prog MProtectEngine α := p.zoom metadataLens

def mem (t : MProtectEngine) : MetadataV1.Nvm := t.metadata.mem

def onNvm (f : MetadataV1.Nvm → MetadataV1.Nvm) (t : MProtectEngine) : MProtectEngine :=
  { t with metadata := t.metadata.onMem f }

def existSnapshot (t : MProtectEngine) : Bool :=
  t.metadata.attributes &&& kAttributeHasSnapshot ≠ 0

/-! ## Stores -/

def protectRegions (region count : Nat) (writable : Bool) : Prog MProtectEngine Unit :=
  Prog.act fun t => { t with
    writable := fun r => if region ≤ r ∧ r < region + count then writable else t.writable r }

/-- Append a region to the bucket of thread `tid`, unless it is full. -/
def listRegion (tid region : Nat) (t : MProtectEngine) : MProtectEngine :=
  if (t.flushRegions tid).length ≠ kMaxFlushRegions then
    { t with
      flushRegions := Function.update t.flushRegions tid (t.flushRegions tid ++ [region]) }
  else t

def sigfaultHandler (tid addr : Nat) : Prog MProtectEngine Unit := do
  Prog.act fun t => { t with regionDirty := t.regionDirty.set (addr >>> kRegionShift) }
  protectRegions (addr >>> kRegionShift) 1 true
  Prog.act (listRegion tid (addr >>> kRegionShift))

def faultOn (tid o : Nat) : Prog MProtectEngine Unit := do
  let writable ← Prog.read fun t => t.writable (regionOf o)
  if writable then pure () else sigfaultHandler tid (o * kWordSize)

def storeWord (tid o : Nat) (value : Word) : Prog MProtectEngine Unit := do
  faultOn tid o
  Prog.act (onNvm fun m => m.store (.data .main o) value)

/-! ## Checkpoint -/

def determineFlushMode (t : MProtectEngine) : FlushMode :=
  if (List.range kMaxThreads).all fun id => (t.flushRegions id).length = 0 then .noAction
  else if (List.range kMaxThreads).any fun id => (t.flushRegions id).length = kMaxFlushRegions then
    .wbinvd
  else .useFlushBlocks

def forBuckets (tid nrThreads : Nat) (body : Nat → Prog MProtectEngine Unit) :
    Prog MProtectEngine Unit :=
  Prog.forEach (bucketsOf tid nrThreads) fun id => do
    let bucket ← Prog.read fun t => t.flushRegions id
    Prog.forEach bucket body

def regionLines (region : Nat) : MetadataV1.Loc → Bool
  | .data .main o => regionOf o = region
  | _ => false

def flushRegion (region : Nat) : Prog MProtectEngine Unit :=
  Prog.act (onNvm fun m => m.flushAll (regionLines region))

def flushParallel (tid nrThreads : Nat) : Prog MProtectEngine Unit := do
  let mode ← Prog.read flushMode
  if mode = .wbinvd then
    if tid = 0 then Prog.act (onNvm fun m => m.flushAll fun _ => true)
  else forBuckets tid nrThreads flushRegion
  Prog.act (onNvm Memory.fence)

/-- `NonTemporalCopy256` of a region of main memory to its back copy. -/
def writeBackRegion (region : Nat) : Prog MProtectEngine Unit :=
  Prog.act (onNvm fun m => MetadataV1.ntCopy m .back .main fun o => regionOf o = region)

def writeBackDirty (region : Nat) : Prog MProtectEngine Unit := do
  let dirty ← Prog.read fun t => t.regionDirty.test region
  if dirty then writeBackRegion region else pure ()

def writeBackParallel (tid nrThreads : Nat) : Prog MProtectEngine Unit := do
  let mode ← Prog.read flushMode
  let count ← Prog.read nrRegions
  if mode = .wbinvd then Prog.forEach (indicesOf count tid nrThreads) writeBackDirty
  else forBuckets tid nrThreads writeBackRegion
  Prog.act (onNvm Memory.fence)

def clearDirtyWord (region : Nat) : Prog MProtectEngine Unit :=
  Prog.act fun t => { t with regionDirty := t.regionDirty.clearAll region }

def clearDirtyBitsParallel (tid nrThreads : Nat) : Prog MProtectEngine Unit := do
  let mode ← Prog.read flushMode
  let count ← Prog.read nrRegions
  if mode = .wbinvd then
    Prog.forEach (indicesOf ((count + 63) / AtomicBitSet.kBitWidth) tid nrThreads) fun w =>
      clearDirtyWord (w * AtomicBitSet.kBitWidth)
  else forBuckets tid nrThreads clearDirtyWord

/-- The order of the steps of the threads in the parallel sections of a checkpoint. -/
structure Schedules where
  flush : List Nat
  writeBack : List Nat
  clear : List Nat

/-- The leader's choice, and the section that makes main memory durable. -/
def flushSection (nrThreads : Nat) (order : Schedules) : Prog MProtectEngine Unit :=
  Prog.par nrThreads order.flush fun i => flushParallel i nrThreads

def protectAll : Prog MProtectEngine Unit := do
  let count ← Prog.read nrRegions
  protectRegions 0 count false

def writeBackSection (nrThreads : Nat) (order : Schedules) : Prog MProtectEngine Unit := do
  Prog.par nrThreads order.writeBack fun i => writeBackParallel i nrThreads
  Prog.par nrThreads order.clear fun i => clearDirtyBitsParallel i nrThreads

/-- What the leader does once the back copy is named again. -/
def finishCheckpoint : Prog MProtectEngine Unit := do
  Prog.act fun t => { t with flushRegions := fun _ => [] }
  let hasSnapshot ← Prog.read hasSnapshot
  if hasSnapshot then pure () else
    onMetadata (MetadataV1.setAttributes kAttributeHasSnapshot)
    Prog.act fun t => { t with hasSnapshot := true }

/-- `checkpoint` up to where main memory is named and the name is durable. -/
def publishMain (nrThreads : Nat) (order : Schedules) : Prog MProtectEngine FlushMode := do
  Prog.act fun t => { t with flushMode := determineFlushMode t }
  let mode ← Prog.read flushMode
  if mode = .noAction then pure mode else
    flushSection nrThreads order
    onMetadata (MetadataV1.setConsistentData .main)
    pure mode

def updateCopies (nrThreads : Nat) (order : Schedules) : Prog MProtectEngine Unit := do
  protectAll
  writeBackSection nrThreads order

/-- The rest of `checkpoint`. -/
def updateBack (nrThreads : Nat) (order : Schedules) : Prog MProtectEngine Unit := do
  updateCopies nrThreads order
  onMetadata (MetadataV1.setConsistentData .back)
  finishCheckpoint

def checkpoint (nrThreads : Nat) (order : Schedules) : Prog MProtectEngine Unit := do
  let mode ← publishMain nrThreads order
  if mode = .noAction then pure () else updateBack nrThreads order

/-! ## Opening -/

def construct (nrRegions : Nat) (metadata : MetadataV1) : MProtectEngine where
  metadata := metadata
  nrRegions := nrRegions
  regionDirty := AtomicBitSet.allocate
  writable := fun _ => false
  flushRegions := fun _ => []
  flushMode := .noAction
  hasSnapshot := false

def openNew (nrRegions : Nat) : MProtectEngine :=
  construct nrRegions (MetadataV1.create (nrRegions * kRegionSize))

def openExisting : Prog MProtectEngine Unit := do
  onMetadata MetadataV1.recoverData
  Prog.act fun t => { t with hasSnapshot := t.existSnapshot }

end MProtectEngine

end Libcrpm
