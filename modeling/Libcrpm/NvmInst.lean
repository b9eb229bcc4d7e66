import Libcrpm.Engine

/-!
# The NVM engine

`engines/nvm_inst_engine.cpp`: the hooks that run before and after each store, the
copy-on-write of a segment with the allocation of back segments, and the checkpoint.
Addresses are byte offsets from the start of main memory.
-/

namespace Libcrpm

open Libcrpm.Persistence Libcrpm.Program CheckpointImage

inductive CleanerState where
  | started | running | idle
deriving DecidableEq, Repr

/-- `NvmInstEngine` and the address buffers of its hooks.  A segment lock records the
thread that holds it. -/
structure NvmInst where
  image : CheckpointImage
  segmentDirty : AtomicBitSet
  blockDirty : AtomicBitSet
  flushBlocks : Nat → List Nat
  addressBuffer : Nat → List Nat
  segmentLocks : Nat → Option Nat
  backMemoryLock : Bool
  nextBackId : Nat
  skipCopyOnWrite : Bool
  checkpointInProgress : Bool
  cleanerState : CleanerState
  flushMode : FlushMode
  hasSnapshot : Bool

namespace NvmInst

def kAddressListCapacity : Nat := 256
def kNumBufferedAddresses : Nat := 120

def imageLens : Lens NvmInst CheckpointImage where
  get t := t.image
  set i t := { t with image := i }
  get_set _ _ := rfl
  set_set _ _ _ := rfl
  set_get _ := rfl

def onImage {α : Type} (p : Prog CheckpointImage α) : Prog NvmInst α := p.zoom imageLens

def onNvm (f : Nvm → Nvm) (t : NvmInst) : NvmInst := { t with image := onMem f t.image }

def nrSegments (t : NvmInst) : Nat := t.image.nrMain
def capacity (t : NvmInst) : Nat := t.nrSegments * kSegmentSize

/-! ## Locks -/

def lockOf (s : Nat) : Nat := s &&& (kSegmentLocks - 1)

def acquireSegmentLock (tid s : Nat) : Prog NvmInst Unit :=
  Prog.await (fun t => (t.segmentLocks (lockOf s)).isNone) fun t =>
    { t with segmentLocks := Function.update t.segmentLocks (lockOf s) (some tid) }

def tryAcquireSegmentLock (tid s : Nat) : Prog NvmInst Bool :=
  Prog.fetch (fun t => (t.segmentLocks (lockOf s)).isNone) fun t =>
    if (t.segmentLocks (lockOf s)).isNone then
      { t with segmentLocks := Function.update t.segmentLocks (lockOf s) (some tid) }
    else t

def releaseSegmentLock (s : Nat) : Prog NvmInst Unit :=
  Prog.act fun t => { t with segmentLocks := Function.update t.segmentLocks (lockOf s) none }

def acquireBackMemoryLock : Prog NvmInst Unit :=
  Prog.await (fun t => !t.backMemoryLock) fun t => { t with backMemoryLock := true }

def releaseBackMemoryLock : Prog NvmInst Unit :=
  Prog.act fun t => { t with backMemoryLock := false }

/-! ## Back segments -/

def advanceNextBackSegment : Prog NvmInst Unit :=
  Prog.act fun t => { t with nextBackId := (t.nextBackId + 1) % t.image.nrBack }

def takeBackSegment (mainId backId : Nat) : Prog NvmInst Unit := do
  onImage (bindBackSegment mainId backId)
  advanceNextBackSegment

/-- The loop of `allocate_back_segment`; its bound is the number of rounds left. -/
def allocateLoop (tid mainId : Nat) : Nat → Prog NvmInst Unit
  | 0 => pure ()
  | rounds + 1 => do
      let backId ← Prog.read nextBackId
      let old ← Prog.read fun t => t.image.getBackToMain backId
      match old with
      | none =>
          takeBackSegment mainId backId
          releaseBackMemoryLock
      | some oldMain =>
          let inProgress ← Prog.read checkpointInProgress
          if inProgress then
            let dirty ← Prog.read fun t => t.segmentDirty.test oldMain
            if dirty then
              advanceNextBackSegment
              allocateLoop tid mainId rounds
            else
              takeBackSegment mainId backId
              releaseBackMemoryLock
          else
            let acquired ← tryAcquireSegmentLock tid oldMain
            if acquired then
              let dirty ← Prog.read fun t => t.segmentDirty.test oldMain
              if dirty then
                releaseSegmentLock oldMain
                advanceNextBackSegment
                allocateLoop tid mainId rounds
              else
                takeBackSegment mainId backId
                releaseSegmentLock oldMain
                releaseBackMemoryLock
            else
              advanceNextBackSegment
              allocateLoop tid mainId rounds

def allocateBackSegment (tid mainId : Nat) : Prog NvmInst Unit := do
  acquireBackMemoryLock
  let rounds ← Prog.read fun t => t.image.nrBack
  allocateLoop tid mainId rounds

def findBackSegment (tid s : Nat) : Prog NvmInst (Nat × Bool) := do
  let back ← Prog.read fun t => t.image.getMainToBack s
  match back with
  | some b => pure (b, false)
  | none =>
      allocateBackSegment tid s
      let bound ← Prog.read fun t => t.image.getMainToBack s
      match bound with
      | some b => pure (b, true)
      | none => .exit

/-! ## Copy-on-write of a segment -/

def copySegment (s b : Nat) : Prog NvmInst Unit :=
  Prog.act (onNvm fun m => ntCopy m .back b .main s wholeSegment)

def copyBlock (s b index : Nat) : Prog NvmInst Unit :=
  Prog.act (onNvm fun m => ntCopy m .back b .main s (wholeBlock index))

def copyBlocks (s b : Nat) (indices : List Nat) : Prog NvmInst Unit :=
  Prog.forEach indices (copyBlock s b)

/-- Append to `address_list`, which is copied whenever it is full. -/
def pushAddresses (s b : Nat) : List Nat → List Nat → Prog NvmInst (List Nat)
  | [], list => pure list
  | index :: rest, list =>
      if (list ++ [index]).length = kAddressListCapacity then do
        copyBlocks s b (list ++ [index])
        pushAddresses s b rest []
      else pushAddresses s b rest (list ++ [index])

/-- Copy the dirty blocks of a segment, scanning the given words of its bitmap. -/
def copyDirtyBlocks (s b : Nat) : List Nat → List Nat → Prog NvmInst Unit
  | [], list => copyBlocks s b list
  | w :: rest, list => do
      let bitset ← Prog.read fun t =>
        t.blockDirty.testAll (startBlock s + w * AtomicBitSet.kBitWidth)
      let list ← pushAddresses s b
        ((AtomicBitSet.setBits bitset).map (w * AtomicBitSet.kBitWidth + ·)) list
      copyDirtyBlocks s b rest list

def setSegmentDirty (s : Nat) : Prog NvmInst Unit :=
  Prog.act fun t => { t with segmentDirty := t.segmentDirty.set s }

def clearBlockDirty (s : Nat) : Prog NvmInst Unit :=
  Prog.act fun t => { t with
    blockDirty := t.blockDirty.clearRegion (startBlock s) (stopBlock s) }

def copyToBack (s b : Nat) (created : Bool) (state : SegmentState) : Prog NvmInst Unit :=
  if created then
    if state ≠ .initial then copySegment s b else pure ()
  else copyDirtyBlocks s b (List.range kWordsPerBitmap) []

/-- The part of `lazy_write_back` after the back segment was found. -/
def finishWriteBack (s b : Nat) (created : Bool) (state : SegmentState)
    (onDemand : Bool) : Prog NvmInst Bool := do
  copyToBack s b created state
  Prog.act (onNvm Memory.fence)
  onImage (setSegmentStateAtomic s .back)
  clearBlockDirty s
  if onDemand then setSegmentDirty s
  releaseSegmentLock s
  pure true

def lazyWriteBack (tid s : Nat) (onDemand : Bool) : Prog NvmInst Bool := do
  acquireSegmentLock tid s
  let state ← Prog.read fun t => t.image.getSegmentState s
  let back ← Prog.read fun t => t.image.getMainToBack s
  match back with
  | some b =>
      if state ≠ .main then
        if onDemand then setSegmentDirty s
        releaseSegmentLock s
        pure false
      else finishWriteBack s b false state onDemand
  | none =>
      if onDemand then
        let (b, created) ← findBackSegment tid s
        finishWriteBack s b created state onDemand
      else
        releaseSegmentLock s
        pure false

/-! ## Hooks -/

/-- `hook_routine`: record the block of an address once per epoch. -/
def hookRoutine (tid addr : Nat) : Prog NvmInst Unit := do
  let dirty ← Prog.read fun t => t.blockDirty.test (addr >>> kBlockShift)
  if dirty then pure () else
    Prog.act fun t => { t with blockDirty := t.blockDirty.set (addr >>> kBlockShift) }
    Prog.act fun t =>
      if (t.flushBlocks tid).length ≠ kMaxFlushBlocks then
        { t with flushBlocks :=
            Function.update t.flushBlocks tid (t.flushBlocks tid ++ [addr >>> kBlockShift]) }
      else t

def hookRoutineRange (tid addr len : Nat) : Prog NvmInst Unit :=
  Prog.forEach (blockAddresses addr len) (hookRoutine tid)

def hookSegment (tid s : Nat) : Prog NvmInst Unit := do
  let dirty ← Prog.read fun t => t.segmentDirty.test s
  if dirty then pure () else
    let skip ← Prog.read skipCopyOnWrite
    if skip then setSegmentDirty s
    else
      let _ ← lazyWriteBack tid s true
      pure ()

def hookCopyOnWriteRoutine (tid addr : Nat) : Prog NvmInst Unit :=
  hookSegment tid (addr >>> kSegmentShift)

/-- The segments `hook_copy_on_write_routine` with a length visits. -/
def segmentRange (addr len : Nat) : List Nat :=
  let start := addr >>> kSegmentShift
  (List.range (((addr + len + (kSegmentSize - 1)) >>> kSegmentShift) - start)).map (start + ·)

def hookCopyOnWriteRange (tid addr len : Nat) : Prog NvmInst Unit :=
  Prog.forEach (segmentRange addr len) (hookSegment tid)

def addressBufferClear (tid owner : Nat) : Prog NvmInst Unit := do
  let addresses ← Prog.read fun t => t.addressBuffer owner
  let limit ← Prog.read capacity
  Prog.forEach addresses fun addr => if addr < limit then hookRoutine tid addr else pure ()
  Prog.act fun t => { t with addressBuffer := Function.update t.addressBuffer owner [] }

def addressBufferClearAll (tid : Nat) : Prog NvmInst Unit :=
  Prog.forEach (List.range kMaxThreads) (addressBufferClear tid)

def hookRtStore (tid addr : Nat) : Prog NvmInst Unit := do
  let limit ← Prog.read capacity
  if addr < limit then hookCopyOnWriteRoutine tid addr
  Prog.act fun t => { t with
    addressBuffer := Function.update t.addressBuffer tid (t.addressBuffer tid ++ [addr]) }
  let length ← Prog.read fun t => (t.addressBuffer tid).length
  if length = kNumBufferedAddresses then addressBufferClear tid tid

def hookRtRangeStore (tid addr len : Nat) : Prog NvmInst Unit :=
  if addr % kBlockSize + len ≤ kBlockSize then hookRtStore tid addr
  else do
    let limit ← Prog.read capacity
    if addr < limit then
      hookCopyOnWriteRange tid addr len
      hookRoutineRange tid addr len

def storeWord (w : WordStore) : Prog NvmInst Unit :=
  Prog.act (onNvm fun m => m.store (.word .main w.segment w.offset) w.value)

def hookedStore (tid addr len : Nat) (words : List WordStore) : Prog NvmInst Unit := do
  hookRtRangeStore tid addr len
  Prog.forEach words storeWord

/-! ## Checkpoint -/

def determineFlushMode (t : NvmInst) : FlushMode :=
  if (List.range kMaxThreads).all fun id => (t.flushBlocks id).length = 0 then .noAction
  else if (List.range kMaxThreads).any fun id => kMaxFlushBlocks ≤ (t.flushBlocks id).length then
    .wbinvd
  else .useFlushBlocks

def blockLines (block : Nat) : Loc → Bool
  | .word .main s o => blockOf s o = block && o < kWordsPerSegment
  | _ => false

def flushBucket (id : Nat) : Prog NvmInst Unit := do
  let bucket ← Prog.read fun t => t.flushBlocks id
  Prog.forEach bucket fun block => Prog.act (onNvm fun m => m.flushAll (blockLines block))

def flushParallel (tid nrThreads : Nat) : Prog NvmInst Unit := do
  let mode ← Prog.read flushMode
  if mode = .wbinvd then
    if tid = 0 then Prog.act (onNvm fun m => m.flushAll fun _ => true)
  else Prog.forEach (bucketsOf tid nrThreads) flushBucket
  Prog.act (onNvm Memory.fence)

def writeBackBlock (tid block : Nat) : Prog NvmInst Unit := do
  let (b, created) ← findBackSegment tid (block / kBlocksPerSegment)
  if created then copySegment (block / kBlocksPerSegment) b
  else copyBlock (block / kBlocksPerSegment) b (block % kBlocksPerSegment)

def writeBackBucket (tid id : Nat) : Prog NvmInst Unit := do
  let bucket ← Prog.read fun t => t.flushBlocks id
  Prog.forEach bucket (writeBackBlock tid)

/-- `write_back_parallel` in the only mode that calls it. -/
def writeBackParallel (tid nrThreads : Nat) : Prog NvmInst Unit := do
  Prog.forEach (bucketsOf tid nrThreads) (writeBackBucket tid)
  Prog.act (onNvm Memory.fence)

/-- The segments of the blocks in the flush lists, in the order of `commit_layout_state`. -/
def listedBlocks (t : NvmInst) : List Nat := (List.range kMaxThreads).flatMap t.flushBlocks

/-- The segments that `commit_layout_state` finds in word `w` of the dirty bitmap. -/
def dirtySegmentsOf (t : NvmInst) (w : Nat) : List Nat :=
  (AtomicBitSet.setBits (t.segmentDirty.testAll (w * AtomicBitSet.kBitWidth))).map
    (w * AtomicBitSet.kBitWidth + ·)

def dirtySegments (t : NvmInst) : List Nat :=
  (List.range ((t.nrSegments + (AtomicBitSet.kBitWidth - 1)) / AtomicBitSet.kBitWidth)).flatMap
    t.dirtySegmentsOf

/-- The segments whose state `commit_layout_state` sets. -/
def layoutSegments (t : NvmInst) : List Nat :=
  if t.flushMode = .wbinvd then t.dirtySegments else t.listedBlocks.map segmentOf

def commitLayoutState (state : SegmentState) : Prog NvmInst Unit := do
  let segments ← Prog.read layoutSegments
  onImage (commitBatch segments state)

def clearDirtyBits (t : NvmInst) : NvmInst :=
  t.listedBlocks.foldl (fun t block => { t with
    blockDirty := t.blockDirty.clearAll block
    segmentDirty := t.segmentDirty.clearAll (segmentOf block) }) t

def recordSnapshot : Prog NvmInst Unit := do
  let hasSnapshot ← Prog.read hasSnapshot
  if hasSnapshot then pure () else
    onImage (setAttributes kAttributeHasSnapshot)
    Prog.act fun t => { t with hasSnapshot := true }

def beginCheckpoint (tid : Nat) : Prog NvmInst FlushMode := do
  addressBufferClearAll tid
  let threadBusy ← Prog.read fun t => decide (t.cleanerState ≠ .idle)
  Prog.act fun t => { t with flushMode := determineFlushMode t }
  let mode ← Prog.read flushMode
  if mode = .noAction then pure mode else
    Prog.act fun t => { t with checkpointInProgress := true, skipCopyOnWrite := false }
    if mode = .wbinvd || threadBusy then pure mode else
      Prog.act fun t => { t with skipCopyOnWrite := decide (t.image.nrMain = t.image.nrBack) }
      pure mode

/-- `checkpoint` in `FMODE_USE_FLUSH_BLOCKS`, from the first commit on. -/
def commitFlushBlocks (nrThreads : Nat) (schedule : List Nat) : Prog NvmInst Unit := do
  commitLayoutState .main
  Prog.par nrThreads schedule fun i => writeBackParallel i nrThreads
  commitLayoutState .back
  recordSnapshot
  Prog.act clearDirtyBits
  Prog.act fun t => { t with flushBlocks := fun _ => [], checkpointInProgress := false }

/-- `checkpoint` in `FMODE_WBINVD`, from the commit on. -/
def commitWbinvd : Prog NvmInst Unit := do
  commitLayoutState .main
  Prog.act fun t => { t with segmentDirty := t.segmentDirty.clearRegion 0 t.nrSegments }
  recordSnapshot
  Prog.act fun t => { t with
    cleanerState := .started, flushBlocks := fun _ => [], checkpointInProgress := false }

/-- `checkpoint` called by `nrThreads` threads, of which `tid` becomes the leader.  The
schedules order the steps of the threads in the two parallel sections.  The barriers and the
latch between them are taken to work, as they do for a fixed number of threads. -/
def checkpoint (tid nrThreads : Nat) (flushSchedule writeBackSchedule : List Nat) :
    Prog NvmInst Unit := do
  let mode ← beginCheckpoint tid
  if mode = .noAction then pure () else
    Prog.par nrThreads flushSchedule fun i => flushParallel i nrThreads
    if mode = .useFlushBlocks then commitFlushBlocks nrThreads writeBackSchedule
    else commitWbinvd

/-! ## Opening -/

def construct (image : CheckpointImage) : NvmInst where
  image := image
  segmentDirty := AtomicBitSet.allocate
  blockDirty := AtomicBitSet.allocate
  flushBlocks := fun _ => []
  addressBuffer := fun _ => []
  segmentLocks := fun _ => none
  backMemoryLock := false
  nextBackId := 0
  skipCopyOnWrite := false
  checkpointInProgress := false
  cleanerState := .idle
  flushMode := .noAction
  hasSnapshot := false

def existSnapshot (t : NvmInst) : Bool := t.image.getAttributes &&& kAttributeHasSnapshot ≠ 0

def openNew (nrMain nrBack : Nat) : NvmInst := construct (CheckpointImage.create nrMain nrBack)

def openExisting : Prog NvmInst Unit := do
  onImage (recovery .back)
  Prog.act fun t => { t with hasSnapshot := t.existSnapshot }

end NvmInst

end Libcrpm
