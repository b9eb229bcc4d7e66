import Libcrpm.FlushSections
import Libcrpm.Program.Machine
import Libcrpm.UndoLog

/-!
# The LMC engine

`engines/lmc_engine.cpp`: before the first store to a block in an epoch its content is copied to the
shadow state, and the tag of the block is set to the epoch.  `recover` copies the blocks with the
tag of the epoch back, and a checkpoint begins the next epoch.  `hook_routine` is taken apart into
the steps that threads interleave.
-/

namespace Libcrpm

open Libcrpm.Persistence Libcrpm.Program

namespace LmcEngine

/-- `attributes`, `current_epoch` and `tagmap` of the header, and the words of the two states. -/
inductive Loc where
  | attributes
  | currentEpoch
  | tagmap (blockId : Nat)
  | working (o : Nat)
  | shadow (o : Nat)
deriving DecidableEq, Repr

def kMaxEpoch : Nat := 255

def kTagmapOffset : Nat := 60

def headerLine : Loc → Option Nat
  | .attributes | .currentEpoch => some 0
  | .tagmap b => some ((kTagmapOffset + b) / kCacheLineSize)
  | .working _ | .shadow _ => none

def lineOf (l : Loc) : Loc → Bool := fun l' => headerLine l' = headerLine l

def tagmapLines (nrBlocks : Nat) (l : Loc) : Bool :=
  match headerLine l with
  | some line => line * kCacheLineSize < kTagmapOffset + nrBlocks
  | none => false

/-- Where a thread is in `hook_routine`, with `block_id` and the words it has copied. -/
inductive HookPc where
  /-- Outside of the engine. -/
  | app
  | acquire (blockId : Nat)
  | test (blockId : Nat)
  /-- `ReleaseLock` of a block that has the tag of the epoch. -/
  | giveUp (blockId : Nat)
  | copy (blockId copied : Nat)
  | fenceCopy (blockId : Nat)
  | setTag (blockId : Nat)
  | flushTag (blockId : Nat)
  | fenceTag (blockId : Nat)
  | release (blockId : Nat)
  | record (blockId : Nat)
deriving DecidableEq

end LmcEngine

/-- `LmcEngine`, its threads, and the blocks that the calls of a thread have returned for. -/
structure LmcEngine where
  nrBlocks : Nat
  mem : SharedMemory LmcEngine.Loc Nat
  segmentLocks : Nat → Bool
  flushBlocks : Nat → List Nat
  flushMode : FlushMode
  hasSnapshot : Bool
  pc : Nat → LmcEngine.HookPc
  hooked : Nat → List Nat

namespace LmcEngine

def onMem (f : SharedMemory Loc Nat → SharedMemory Loc Nat) (s : LmcEngine) : LmcEngine :=
  { s with mem := f s.mem }

def goto (s : LmcEngine) (tid : Nat) (pc : HookPc) : LmcEngine :=
  { s with pc := Function.update s.pc tid pc }

def ret (s : LmcEngine) (tid blockId : Nat) : LmcEngine :=
  { s with
    pc := Function.update s.pc tid .app
    hooked := Function.update s.hooked tid (blockId :: s.hooked tid) }

/-! ## Hooks -/

def lockOf (blockId : Nat) : Nat := UndoLogEngine.lockOf blockId

def setLock (s : LmcEngine) (blockId : Nat) (held : Bool) : LmcEngine :=
  { s with segmentLocks := Function.update s.segmentLocks (lockOf blockId) held }

def epoch (s : LmcEngine) : Nat := s.mem.load .currentEpoch

def tag (s : LmcEngine) (blockId : Nat) : Nat := s.mem.load (.tagmap blockId)

def recordBlock (s : LmcEngine) (tid blockId : Nat) : LmcEngine :=
  { s with flushBlocks := FlushLists.append s.flushBlocks tid blockId }

def saveWord (tid o : Nat) (m : SharedMemory Loc Nat) : SharedMemory Loc Nat :=
  m.ntStore tid (.shadow o) (m.load (.working o))

def hookStep (s : LmcEngine) (tid : Nat) : Option LmcEngine :=
  match s.pc tid with
  | .app => none
  | .acquire blockId =>
      if s.segmentLocks (lockOf blockId) then none
      else some ((s.setLock blockId true).goto tid (.test blockId))
  | .test blockId =>
      some (s.goto tid (if s.tag blockId = s.epoch then .giveUp blockId else .copy blockId 0))
  | .giveUp blockId => some ((s.setLock blockId false).ret tid blockId)
  | .copy blockId copied =>
      some (if copied < kWordsPerBlock then
        (s.onMem (saveWord tid (blockId * kWordsPerBlock + copied))).goto tid
          (.copy blockId (copied + 1))
        else s.goto tid (.fenceCopy blockId))
  | .fenceCopy blockId => some ((s.onMem fun m => m.fence tid).goto tid (.setTag blockId))
  | .setTag blockId =>
      some ((s.onMem fun m => m.store (.tagmap blockId) s.epoch).goto tid (.flushTag blockId))
  | .flushTag blockId =>
      some ((s.onMem fun m => m.flushAll tid (lineOf (.tagmap blockId))).goto tid
        (.fenceTag blockId))
  | .fenceTag blockId => some ((s.onMem fun m => m.fence tid).goto tid (.release blockId))
  | .release blockId => some ((s.setLock blockId false).goto tid (.record blockId))
  | .record blockId => some ((s.recordBlock tid blockId).ret tid blockId)

inductive Label where
  /-- A thread outside of the engine calls `hook_routine`. -/
  | call (tid addr : Nat)
  | hook (tid : Nat)
  /-- A thread outside of the engine stores to word `o` of the working state. -/
  | store (tid o value : Nat)
deriving DecidableEq

def Label.tid : Label → Nat
  | .call tid _ | .hook tid | .store tid _ _ => tid

def step : Label → LmcEngine → Option LmcEngine
  | .call tid addr, s =>
      if s.pc tid = .app ∧ addr < s.nrBlocks <<< kBlockShift then
        some (s.goto tid (.acquire (addr >>> kBlockShift)))
      else none
  | .hook tid, s => s.hookStep tid
  | .store tid o value, s =>
      if s.pc tid = .app ∧ o / kWordsPerBlock ∈ s.hooked tid then
        some (s.onMem fun m => m.store (.working o) value)
      else none

def threads (s : LmcEngine) : Machine LmcEngine Label := ⟨s, step⟩

/-! ## Checkpoint -/

def blockLines (block : Nat) : Loc → Bool
  | .working o => o / kWordsPerBlock = block
  | _ => false

def flushView (s : LmcEngine) : FlushState Loc := ⟨s.mem, s.flushBlocks, s.flushMode⟩

def setFlushed (f : FlushState Loc) (s : LmcEngine) : LmcEngine :=
  { s with mem := f.mem, flushBlocks := f.flushBlocks, flushMode := f.flushMode }

def flushParallel (tid nrThreads : Nat) : Prog LmcEngine Unit :=
  (FlushState.flushParallel blockLines tid nrThreads).through flushView setFlushed

def setTag (blockId value : Nat) : Prog LmcEngine Unit :=
  Prog.act (onMem fun m => m.store (.tagmap blockId) value)

/-- `header->current_epoch = value; Flush(&header->current_epoch); StoreFence();` -/
def setEpoch (value : Nat) : Prog LmcEngine Unit := do
  Prog.act (onMem fun m => m.store .currentEpoch value)
  Prog.act (onMem fun m => m.flushAll 0 (lineOf .currentEpoch))
  Prog.act (onMem fun m => m.fence 0)

def advanceCurrentEpoch : Prog LmcEngine Unit := do
  let epoch ← Prog.read epoch
  if epoch = kMaxEpoch then
    let nrBlocks ← Prog.read nrBlocks
    Prog.forEach (List.range nrBlocks) fun i => setTag i 0
    Prog.act (onMem fun m => m.flushAll 0 (tagmapLines nrBlocks))
    Prog.act (onMem fun m => m.fence 0)
    setEpoch 1
  else setEpoch (epoch + 1)

/-- What the leader does behind the flushing section. -/
def finishCheckpoint : Prog LmcEngine Unit := do
  let hasSnapshot ← Prog.read hasSnapshot
  if hasSnapshot then pure () else
    Prog.act (onMem fun m => m.ntStore 0 .attributes kAttributeHasSnapshot)
    Prog.act (onMem fun m => m.fence 0)
    Prog.act fun s => { s with hasSnapshot := true }
  advanceCurrentEpoch
  Prog.act fun s => { s with flushBlocks := fun _ => [] }

/-- `checkpoint` called by `nrThreads` threads, until all calls have returned; the schedule orders the
steps of the threads in the flushing section.  The barriers and the latch are taken to work, as they
do when the number of threads is the same in all checkpoints and no thread calls again before all
have returned. -/
def checkpoint (nrThreads : Nat) (schedule : List Nat) : Prog LmcEngine Unit := do
  Prog.act fun s => { s with flushMode := FlushLists.determineFlushMode s.flushBlocks }
  let mode ← Prog.read flushMode
  if mode = .noAction then pure () else
    Prog.par nrThreads schedule fun i => flushParallel i nrThreads
    finishCheckpoint

/-- The threads hook a block again before they store to it in the next epoch. -/
def nextEpoch (s : LmcEngine) : LmcEngine := { s with hooked := fun _ => [] }

/-! ## Opening -/

def copyBack (blockId : Nat) : Prog LmcEngine Unit :=
  Prog.forEach (List.range kWordsPerBlock) fun i => Prog.act (onMem fun m =>
    m.ntStore 0 (.working (blockId * kWordsPerBlock + i))
      (m.load (.shadow (blockId * kWordsPerBlock + i))))

def recoverBlock (blockId : Nat) : Prog LmcEngine Unit := do
  let tagged ← Prog.read fun s => decide (s.tag blockId = s.epoch)
  if tagged then copyBack blockId else pure ()

def recover : Prog LmcEngine Unit := do
  let nrBlocks ← Prog.read nrBlocks
  Prog.forEach (List.range nrBlocks) recoverBlock
  Prog.act (onMem fun m => m.fence 0)
  advanceCurrentEpoch

def existSnapshot (s : LmcEngine) : Bool :=
  s.mem.load .attributes &&& kAttributeHasSnapshot ≠ 0

def construct (nrBlocks : Nat) (img : Loc → Nat) : LmcEngine where
  nrBlocks := nrBlocks
  mem := .ofImage img
  segmentLocks _ := false
  flushBlocks _ := []
  flushMode := .noAction
  hasSnapshot := false
  pc _ := .app
  hooked _ := []

/-- `nr_blocks` of a new pool of `option.capacity` bytes. -/
def nrBlocksFor (optionCapacity : Nat) : Nat := UndoLogEngine.nrBlocksFor optionCapacity

def newImage : Loc → Nat
  | .currentEpoch => 1
  | _ => 0

def openNew (optionCapacity : Nat) : LmcEngine := construct (nrBlocksFor optionCapacity) newImage

def mounted (optionCapacity : Nat) (img : Loc → Nat) : LmcEngine :=
  construct (nrBlocksFor optionCapacity) img

def openExisting : Prog LmcEngine Unit := do
  recover
  let snapshot ← Prog.read existSnapshot
  Prog.act fun s => { s with hasSnapshot := snapshot }

/-! ## Small lemmas -/

section Fields

variable (s : LmcEngine) (tid blockId : Nat) (pc : HookPc)

@[simp] theorem goto_pc_self : (s.goto tid pc).pc tid = pc := Function.update_self ..

@[simp] theorem lineOf_self (l : Loc) : lineOf l l = true := decide_eq_true rfl

theorem tagmapLines_tagmap {b nrBlocks : Nat} (h : b < nrBlocks) :
    tagmapLines nrBlocks (.tagmap b) = true := by
  have hline : (kTagmapOffset + b) / kCacheLineSize * kCacheLineSize ≤ kTagmapOffset + b :=
    Nat.div_mul_le_self _ _
  exact decide_eq_true (Nat.lt_of_le_of_lt hline (Nat.add_lt_add_left h _))

end Fields

end LmcEngine

end Libcrpm
