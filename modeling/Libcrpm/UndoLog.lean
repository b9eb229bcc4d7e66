import Libcrpm.Engine

/-!
# The undo log engine

`engines/undolog_engine.cpp`: before the first store to a block in an epoch its content is
appended to a log, which `recover` plays back.  Addresses are byte offsets from the start of
the data area; words of the log are counted from `log_offset`.
-/

namespace Libcrpm

open Libcrpm.Persistence Libcrpm.Program

namespace UndoLogEngine

inductive Loc where
  | attributes
  | logHead
  | data (o : Nat)
  | log (o : Nat)
deriving DecidableEq, Repr

abbrev File := Memory Loc fun _ => Nat

end UndoLogEngine

/-- `UndoLogEngine`, with `log_capacity` from the header of its file. -/
structure UndoLogEngine where
  nrBlocks : Nat
  logCapacity : Nat
  mem : UndoLogEngine.File
  blockDirty : AtomicBitSet
  segmentLocks : Nat → Bool
  logHead : Nat
  flushBlocks : Nat → List Nat
  flushMode : FlushMode
  hasSnapshot : Bool

namespace UndoLogEngine

def kLogEntryMagic : Nat := 0x7a7a2020
/-- `sizeof(LogEntry)`: `magic`, `offset`, `size` and five words of padding. -/
def kLogEntrySize : Nat := 64

def logSize : Nat := kLogEntrySize + roundUp kBlockSize kCacheLineSize

theorem logSize_eq : logSize = 320 := rfl

def onMem (f : File → File) (t : UndoLogEngine) : UndoLogEngine := { t with mem := f t.mem }

/-! ## Hooks -/

def lockOf (blockId : Nat) : Nat := blockId &&& (kSegmentLocks - 1)

def acquireLock (blockId : Nat) : Prog UndoLogEngine Unit :=
  Prog.await (fun t => !t.segmentLocks (lockOf blockId)) fun t =>
    { t with segmentLocks := Function.update t.segmentLocks (lockOf blockId) true }

def releaseLock (blockId : Nat) : Prog UndoLogEngine Unit :=
  Prog.act fun t =>
    { t with segmentLocks := Function.update t.segmentLocks (lockOf blockId) false }

/-- The line of the entry whose first word is `w`. -/
def entryLine (w : Nat) : Loc → Bool
  | .log o => w ≤ o && o < w + kWordsPerCacheLine
  | _ => false

def payloadOf (w blockId : Nat) (m : File) : (l : Loc) → Option Nat
  | .log o =>
      if w + kWordsPerCacheLine ≤ o ∧ o < w + kWordsPerCacheLine + kWordsPerBlock then
        some (m.load (.data (blockId * kWordsPerBlock + (o - (w + kWordsPerCacheLine)))))
      else none
  | _ => none

def writeEntry (lastLogHead blockId : Nat) : Prog UndoLogEngine Unit := do
  let w := lastLogHead / kWordSize
  Prog.act (onMem fun m => m.store (.log w) kLogEntryMagic)
  Prog.act (onMem fun m => m.store (.log (w + 1)) (blockId <<< kBlockShift))
  Prog.act (onMem fun m => m.store (.log (w + 2)) kBlockSize)
  Prog.act (onMem fun m => m.flushAll (entryLine w))
  Prog.act (onMem fun m => m.ntStoreAll (payloadOf w blockId m))
  Prog.act (onMem Memory.fence)

/-- Spin until the entries before this one are published or a later one is; publish it in
the first case. -/
def publish (lastLogHead : Nat) : Prog UndoLogEngine Unit := do
  let swapped ← Prog.step
    (fun t => t.mem.load .logHead = lastLogHead || lastLogHead + logSize ≤ t.mem.load .logHead)
    (fun t => if t.mem.load .logHead = lastLogHead then
      onMem (fun m => m.store .logHead (lastLogHead + logSize)) t else t)
    fun t => pure (t.mem.load .logHead = lastLogHead : Bool)
  if swapped then
    Prog.act (onMem fun m => m.flushAll fun l => l = .logHead)
    Prog.act (onMem Memory.fence)

/-- Append to the flush list of the thread unless it is full. -/
def recordBlock (tid blockId : Nat) : Prog UndoLogEngine Unit :=
  Prog.act fun t =>
    if (t.flushBlocks tid).length ≠ kMaxFlushBlocks then
      { t with flushBlocks :=
          Function.update t.flushBlocks tid (t.flushBlocks tid ++ [blockId]) }
    else t

/-- `hook_routine`, from the reservation of the entry on. -/
def logBlock (tid blockId lastLogHead : Nat) : Prog UndoLogEngine Unit := do
  let capacity ← Prog.read logCapacity
  if capacity ≤ lastLogHead + logSize then .exit else
    writeEntry lastLogHead blockId
    publish lastLogHead
    Prog.act fun t => { t with blockDirty := t.blockDirty.set blockId }
    releaseLock blockId
    recordBlock tid blockId

def hookRoutine (tid addr : Nat) : Prog UndoLogEngine Unit := do
  let blockId := addr >>> kBlockShift
  let dirty ← Prog.read fun t => t.blockDirty.test blockId
  if dirty then pure () else
    acquireLock blockId
    let dirty ← Prog.read fun t => t.blockDirty.test blockId
    if dirty then releaseLock blockId else
      let lastLogHead ← Prog.fetch logHead fun t => { t with logHead := t.logHead + logSize }
      logBlock tid blockId lastLogHead

/-! ## Checkpoint -/

def determineFlushMode (t : UndoLogEngine) : FlushMode :=
  if (List.range kMaxThreads).all fun id => (t.flushBlocks id).length = 0 then .noAction
  else if (List.range kMaxThreads).any fun id => (t.flushBlocks id).length = kMaxFlushBlocks then
    .wbinvd
  else .useFlushBlocks

def blockLines (block : Nat) : Loc → Bool
  | .data o => o / kWordsPerBlock = block
  | _ => false

def flushBucket (id : Nat) : Prog UndoLogEngine Unit := do
  let bucket ← Prog.read fun t => t.flushBlocks id
  Prog.forEach bucket fun block => Prog.act (onMem fun m => m.flushAll (blockLines block))

def flushParallel (tid nrThreads : Nat) : Prog UndoLogEngine Unit := do
  let mode ← Prog.read flushMode
  if mode = .wbinvd then
    if tid = 0 then Prog.act (onMem fun m => m.flushAll fun _ => true)
  else Prog.forEach (bucketsOf tid nrThreads) flushBucket
  Prog.act (onMem Memory.fence)

def clearWord (id : Nat) : Prog UndoLogEngine Unit :=
  Prog.act fun t => { t with blockDirty := t.blockDirty.clearAll id }

def emptyBucket (id : Nat) : Prog UndoLogEngine Unit :=
  Prog.act fun t => { t with flushBlocks := Function.update t.flushBlocks id [] }

def clearBucket (id : Nat) : Prog UndoLogEngine Unit := do
  let bucket ← Prog.read fun t => t.flushBlocks id
  Prog.forEach bucket clearWord
  emptyBucket id

def nrWords (t : UndoLogEngine) : Nat :=
  (t.nrBlocks + (AtomicBitSet.kBitWidth - 1)) / AtomicBitSet.kBitWidth

def clearDirtyBitsParallel (tid nrThreads : Nat) : Prog UndoLogEngine Unit := do
  let mode ← Prog.read flushMode
  if mode = .wbinvd then
    let count ← Prog.read nrWords
    Prog.forEach (indicesOf count tid nrThreads) fun w => clearWord (w * AtomicBitSet.kBitWidth)
    Prog.forEach (bucketsOf tid nrThreads) emptyBucket
  else Prog.forEach (bucketsOf tid nrThreads) clearBucket

/-- What the leader does behind the parallel sections. -/
def finishCheckpoint : Prog UndoLogEngine Unit := do
  let hasSnapshot ← Prog.read hasSnapshot
  if hasSnapshot then pure () else
    Prog.act (onMem fun m => m.ntStore .attributes kAttributeHasSnapshot)
    Prog.act fun t => { t with hasSnapshot := true }
  Prog.act (onMem fun m => m.ntStore .logHead 0)
  Prog.act (onMem Memory.fence)
  Prog.act fun t => { t with logHead := 0 }

/-- `checkpoint` called by `nrThreads` threads, until all calls have returned; the schedules order
the steps of the threads in the two parallel sections.  The leader does not wait for the others to
clear, but they touch nothing that it writes.  The barriers and the latch are taken to work, as they
do for a fixed number of threads. -/
def checkpoint (nrThreads : Nat) (flushSchedule clearSchedule : List Nat) :
    Prog UndoLogEngine Unit := do
  Prog.act fun t => { t with flushMode := determineFlushMode t }
  let mode ← Prog.read flushMode
  if mode = .noAction then pure () else
    Prog.par nrThreads flushSchedule fun i => flushParallel i nrThreads
    Prog.par nrThreads clearSchedule fun i => clearDirtyBitsParallel i nrThreads
    finishCheckpoint

/-! ## Opening -/

/-- The data of the entry whose first word is `w`, copied back to `offset`. -/
def replayOf (w offset size : Nat) (m : File) : (l : Loc) → Option Nat
  | .data o =>
      if offset / kWordSize ≤ o ∧ o < offset / kWordSize + size / kWordSize then
        some (m.load (.log (w + kWordsPerCacheLine + (o - offset / kWordSize))))
      else none
  | _ => none

/-- The loop of `recover`; `fuel` bounds the number of entries left. -/
def recoverLoop : Nat → Nat → Prog UndoLogEngine Unit
  | 0, _ => pure ()
  | fuel + 1, cursor => do
      let head ← Prog.read fun t => t.mem.load .logHead
      if head ≤ cursor then pure () else
        let w := cursor / kWordSize
        let magic ← Prog.read fun t => t.mem.load (.log w)
        if magic ≠ kLogEntryMagic then .exit else
          let offset ← Prog.read fun t => t.mem.load (.log (w + 1))
          let size ← Prog.read fun t => t.mem.load (.log (w + 2))
          Prog.act (onMem fun m => m.ntStoreAll (replayOf w offset size m))
          recoverLoop fuel (cursor + roundUp (kLogEntrySize + size) kCacheLineSize)

/-- `recover`: each round moves the cursor by at least an entry header. -/
def recover : Prog UndoLogEngine Unit := do
  let head ← Prog.read fun t => t.mem.load .logHead
  recoverLoop (head / kLogEntrySize + 1) 0
  Prog.act (onMem Memory.fence)
  Prog.act (onMem fun m => m.ntStore .logHead 0)
  Prog.act (onMem Memory.fence)

def existSnapshot (t : UndoLogEngine) : Bool :=
  t.mem.load .attributes &&& kAttributeHasSnapshot ≠ 0

def construct (nrBlocks logCapacity : Nat) (mem : File) : UndoLogEngine where
  nrBlocks := nrBlocks
  logCapacity := logCapacity
  mem := mem
  blockDirty := AtomicBitSet.allocate
  segmentLocks := fun _ => false
  logHead := 0
  flushBlocks := fun _ => []
  flushMode := .noAction
  hasSnapshot := false

def nrBlocksFor (optionCapacity : Nat) : Nat :=
  let capacity := max optionCapacity kMinContainerSize
  if capacity &&& (kBlockSize - 1) ≠ 0 then (capacity >>> kBlockShift) + 1
  else capacity >>> kBlockShift

/-- `Open` of a new file, whose header reserves as many bytes for the log as for the data. -/
def openNew (optionCapacity : Nat) : UndoLogEngine :=
  construct (nrBlocksFor optionCapacity) (nrBlocksFor optionCapacity <<< kBlockShift)
    (Memory.ofImage fun _ => 0)

def openExisting : Prog UndoLogEngine Unit := do
  recover
  let snapshot ← Prog.read existSnapshot
  Prog.act fun t => { t with hasSnapshot := snapshot }

end UndoLogEngine

end Libcrpm
