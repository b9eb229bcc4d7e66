import Libcrpm.Engine

/-!
# The hybrid engine

`engines/hybrid_inst_engine.cpp` as built with `USE_SYNCHRONOUS_CHECKPOINT`: the
application works in DRAM, and a checkpoint writes the dirty blocks to the copy that the
parity of the round selects.  Addresses are byte offsets in working memory.
-/

namespace Libcrpm

open Libcrpm.Persistence Libcrpm.Program CheckpointImage

/-- `HybridInstEngine` and the address buffers of its hooks.  The dirty bits exist twice
and `epoch` selects those of the round that is running. -/
structure HybridInst where
  image : CheckpointImage
  work : Nat → Nat → Word
  segmentDirty : Nat → AtomicBitSet
  blockDirty : Nat → AtomicBitSet
  flushBlocks : Nat → List Nat
  addressBuffer : Nat → List Nat
  backMemoryLock : Bool
  nextBackSegment : Nat
  epoch : Nat
  flushMode : FlushMode
  prevFlushMode : FlushMode
  hasSnapshot : Bool

namespace HybridInst

def kNumBufferedAddresses : Nat := 504

def imageLens : Lens HybridInst CheckpointImage where
  get t := t.image
  set i t := { t with image := i }
  get_set _ _ := rfl
  set_set _ _ _ := rfl
  set_get _ := rfl

def onImage {α : Type} (p : Prog CheckpointImage α) : Prog HybridInst α := p.zoom imageLens

def onNvm (f : Nvm → Nvm) (t : HybridInst) : HybridInst := { t with image := onMem f t.image }

def nrSegments (t : HybridInst) : Nat := t.image.nrMain
def capacity (t : HybridInst) : Nat := t.nrSegments * kSegmentSize

/-! ## Hooks -/

def setBlockDirty (block : Nat) : Prog HybridInst Unit :=
  Prog.act fun t => { t with
    blockDirty := Function.update t.blockDirty t.epoch ((t.blockDirty t.epoch).set block) }

def setSegmentDirty (s : Nat) : Prog HybridInst Unit :=
  Prog.act fun t => { t with
    segmentDirty := Function.update t.segmentDirty t.epoch ((t.segmentDirty t.epoch).set s) }

def pushFlushBlock (tid block : Nat) : Prog HybridInst Unit :=
  Prog.act fun t =>
    if (t.flushBlocks tid).length ≠ kMaxFlushBlocks then
      { t with flushBlocks := Function.update t.flushBlocks tid (t.flushBlocks tid ++ [block]) }
    else t

def markSegment (s : Nat) : Prog HybridInst Unit := do
  let dirty ← Prog.read fun t => (t.segmentDirty t.epoch).test s
  if dirty then pure () else setSegmentDirty s

def hookRoutine (tid addr : Nat) : Prog HybridInst Unit := do
  let dirty ← Prog.read fun t => (t.blockDirty t.epoch).test (addr >>> kBlockShift)
  if dirty then pure () else
    setBlockDirty (addr >>> kBlockShift)
    pushFlushBlock tid (addr >>> kBlockShift)
    markSegment (addr >>> kSegmentShift)

def hookBlocks (tid : Nat) : List Nat → Option Nat → Prog HybridInst Unit
  | [], _ => pure ()
  | addr :: rest, last => do
      let dirty ← Prog.read fun t => (t.blockDirty t.epoch).test (addr >>> kBlockShift)
      if dirty then hookBlocks tid rest last
      else
        setBlockDirty (addr >>> kBlockShift)
        pushFlushBlock tid (addr >>> kBlockShift)
        if last = some (addr >>> kSegmentShift) then hookBlocks tid rest last
        else
          markSegment (addr >>> kSegmentShift)
          hookBlocks tid rest (some (addr >>> kSegmentShift))

def hookRoutineRange (tid addr len : Nat) : Prog HybridInst Unit :=
  hookBlocks tid (blockAddresses addr len) none

def addressBufferClear (tid owner : Nat) : Prog HybridInst Unit := do
  let addresses ← Prog.read fun t => t.addressBuffer owner
  let limit ← Prog.read capacity
  Prog.forEach addresses fun addr => if addr < limit then hookRoutine tid addr else pure ()
  Prog.act fun t => { t with addressBuffer := Function.update t.addressBuffer owner [] }

def addressBufferClearAll (tid : Nat) : Prog HybridInst Unit :=
  Prog.forEach (List.range kMaxThreads) (addressBufferClear tid)

def hookRtStore (tid addr : Nat) : Prog HybridInst Unit := do
  Prog.act fun t => { t with
    addressBuffer := Function.update t.addressBuffer tid (t.addressBuffer tid ++ [addr]) }
  let length ← Prog.read fun t => (t.addressBuffer tid).length
  if length = kNumBufferedAddresses then addressBufferClear tid tid

def hookRtRangeStore (tid addr len : Nat) : Prog HybridInst Unit :=
  if addr % kBlockSize + len ≤ kBlockSize then hookRtStore tid addr
  else do
    let limit ← Prog.read capacity
    if addr < limit then hookRoutineRange tid addr len

def writeWord (w : WordStore) (t : HybridInst) : HybridInst :=
  { t with
    work := Function.update t.work w.segment
      (Function.update (t.work w.segment) w.offset w.value) }

def storeWord (w : WordStore) : Prog HybridInst Unit := Prog.act (writeWord w)

def hookedStore (tid addr len : Nat) (words : List WordStore) : Prog HybridInst Unit := do
  hookRtRangeStore tid addr len
  Prog.forEach words storeWord

/-! ## Back segments -/

def advanceNextBackSegment : Prog HybridInst Unit :=
  Prog.act fun t => { t with nextBackSegment := (t.nextBackSegment + 1) % t.image.nrBack }

def takeBackSegment (s b : Nat) : Prog HybridInst Unit := do
  onImage (bindBackSegment s b)
  advanceNextBackSegment
  Prog.act fun t => { t with backMemoryLock := false }

/-- The loop of `allocate_back_segment`; its bound is the number of rounds left. -/
def allocateLoop (s : Nat) : Nat → Prog HybridInst Unit
  | 0 => pure ()
  | rounds + 1 => do
      let b ← Prog.read nextBackSegment
      let owner ← Prog.read fun t => t.image.getBackToMain b
      match owner with
      | none => takeBackSegment s b
      | some o =>
          let dirty ← Prog.read fun t => (t.segmentDirty t.epoch).test o
          if dirty then
            advanceNextBackSegment
            allocateLoop s rounds
          else takeBackSegment s b

def allocateBackSegment (s : Nat) : Prog HybridInst Unit := do
  Prog.await (fun t => !t.backMemoryLock) fun t => { t with backMemoryLock := true }
  let rounds ← Prog.read fun t => t.image.nrBack
  allocateLoop s rounds

def findBackSegment (s : Nat) : Prog HybridInst (Nat × Bool) := do
  let back ← Prog.read fun t => t.image.getMainToBack s
  match back with
  | some b => pure (b, false)
  | none =>
      allocateBackSegment s
      let bound ← Prog.read fun t => t.image.getMainToBack s
      match bound with
      | some b => pure (b, true)
      | none => .exit

/-! ## Copies from working memory -/

def copyWork (work : Nat → Word) (area : Area) (d : Nat) (sel : Nat → Bool) (m : Nvm) : Nvm :=
  m.ntStoreAll fun l => match l with
    | .word a n o => if a = area ∧ n = d ∧ sel o then some (work o) else none
    | _ => none

def workLineDiffers (work : Nat → Word) (area : Area) (d : Nat) (m : Nvm) (o : Nat) : Bool :=
  (List.range kWordsPerCacheLine).any fun k =>
    let w := o / kWordsPerCacheLine * kWordsPerCacheLine + k
    (m.load (.word area d w) : Word) != work w

def copyWorkWithWriteElimination (work : Nat → Word) (area : Area) (d : Nat) (sel : Nat → Bool)
    (m : Nvm) : Nvm :=
  copyWork work area d (fun o => sel o && workLineDiffers work area d m o) m

def copyBlock (area : Area) (d s index : Nat) : Prog HybridInst Unit :=
  Prog.act fun t => onNvm (copyWork (t.work s) area d (wholeBlock index)) t

def syncBlock (area : Area) (d s index : Nat) : Prog HybridInst Unit :=
  Prog.act fun t =>
    onNvm (copyWorkWithWriteElimination (t.work s) area d (wholeBlock index)) t

def copySegment (area : Area) (d s : Nat) : Prog HybridInst Unit :=
  Prog.act fun t => onNvm (copyWork (t.work s) area d wholeSegment) t

def scanBlocks (bits : HybridInst → Nat → BitVec 64) (body : Nat → Prog HybridInst Unit) :
    Prog HybridInst Unit :=
  Prog.forEach (List.range kWordsPerBitmap) fun w => do
    let bitset ← Prog.read fun t => bits t w
    Prog.forEach (AtomicBitSet.setBits bitset) fun k => body (w * AtomicBitSet.kBitWidth + k)

/-- The dirty blocks of segment `s` in this round. -/
def dirtyBits (s : Nat) (t : HybridInst) (w : Nat) : BitVec 64 :=
  (t.blockDirty t.epoch).testAll (startBlock s + w * AtomicBitSet.kBitWidth)

/-- The blocks of segment `s` that were dirty in the last round and are not in this one. -/
def staleBits (s : Nat) (t : HybridInst) (w : Nat) : BitVec 64 :=
  (t.blockDirty (1 - t.epoch)).testAll (startBlock s + w * AtomicBitSet.kBitWidth) &&&
    ~~~ (t.blockDirty t.epoch).testAll (startBlock s + w * AtomicBitSet.kBitWidth)

/-- The copy that the parity of a round selects. -/
def targetArea (epoch : Nat) : Area := if epoch ≠ 0 then .back else .main

/-- One round of the loop of `apply_nvm_to_nvm_parallel`. -/
def applyNvmToNvmSegment (s : Nat) : Prog HybridInst Unit := do
  let dirty ← Prog.read fun t => (t.segmentDirty (1 - t.epoch)).test s
  if !dirty then pure () else
    let back ← Prog.read fun t => t.image.getMainToBack s
    match back with
    | none => pure ()
    | some b =>
        let epoch ← Prog.read epoch
        scanBlocks (staleBits s) fun index =>
          if epoch ≠ 0 then syncBlock .back b s index else syncBlock .main s s index

def applyNvmToNvmParallel (tid nrThreads : Nat) : Prog HybridInst Unit := do
  let count ← Prog.read nrSegments
  Prog.forEach (indicesOf count tid nrThreads) applyNvmToNvmSegment

def applyDramToBackSegment (s : Nat) : Prog HybridInst Unit := do
  let dirty ← Prog.read fun t => (t.segmentDirty t.epoch).test s
  if !dirty then pure () else
    let (b, created) ← findBackSegment s
    let state ← Prog.read fun t => t.image.getSegmentState s
    if created && state != .initial then copySegment .back b s
    else scanBlocks (dirtyBits s) (copyBlock .back b s)

/-- `apply_dram_to_back_parallel` for one block of a flush list. -/
def applyDramToBackBlock (block : Nat) : Prog HybridInst Unit := do
  let (b, created) ← findBackSegment (block / kBlocksPerSegment)
  let state ← Prog.read fun t => t.image.getSegmentState (block / kBlocksPerSegment)
  if created && state != .initial then copySegment .back b (block / kBlocksPerSegment)
  else copyBlock .back b (block / kBlocksPerSegment) (block % kBlocksPerSegment)

def forEachFlushBlock (body : Nat → Prog HybridInst Unit) (id : Nat) : Prog HybridInst Unit := do
  let bucket ← Prog.read fun t => t.flushBlocks id
  Prog.forEach bucket body

def applyDramToBackParallel (tid nrThreads : Nat) : Prog HybridInst Unit := do
  let mode ← Prog.read flushMode
  let count ← Prog.read nrSegments
  if mode = .wbinvd then Prog.forEach (indicesOf count tid nrThreads) applyDramToBackSegment
  else if tid = 0 then
    Prog.forEach (List.range kMaxThreads) (forEachFlushBlock applyDramToBackBlock)
  Prog.act (onNvm Memory.fence)

/-- What `apply_dram_to_main_parallel` does before it overwrites a segment whose
committed copy is the main one: the copy goes from the new back segment to main memory. -/
def saveMain (s : Nat) : Prog HybridInst Unit := do
  let state ← Prog.read fun t => t.image.getSegmentState s
  if state = .main then
    let (b, created) ← findBackSegment s
    if created then
      Prog.act (onNvm fun m => ntCopy m .main s .back b wholeSegment)
      onImage (setSegmentStateAtomic s .back)

def applyDramToMainSegment (s : Nat) : Prog HybridInst Unit := do
  let dirty ← Prog.read fun t => (t.segmentDirty t.epoch).test s
  if !dirty then pure () else
    saveMain s
    scanBlocks (dirtyBits s) (copyBlock .main s s)

def applyDramToMainBlock (block : Nat) : Prog HybridInst Unit := do
  saveMain (block / kBlocksPerSegment)
  copyBlock .main (block / kBlocksPerSegment) (block / kBlocksPerSegment)
    (block % kBlocksPerSegment)

def applyDramToMainParallel (tid nrThreads : Nat) : Prog HybridInst Unit := do
  let mode ← Prog.read flushMode
  let count ← Prog.read nrSegments
  if mode = .wbinvd then Prog.forEach (indicesOf count tid nrThreads) applyDramToMainSegment
  else Prog.forEach (bucketsOf tid nrThreads) (forEachFlushBlock applyDramToMainBlock)
  Prog.act (onNvm Memory.fence)

/-! ## Checkpoint -/

/-- The running total of the source only grows, so it reaches the limit in some round of
the loop if and only if it does at the end. -/
def determineFlushMode (t : HybridInst) : FlushMode :=
  if (List.range kMaxThreads).all fun id => (t.flushBlocks id).length = 0 then .noAction
  else if kMaxFlushBlocks ≤ ((List.range kMaxThreads).map fun id => (t.flushBlocks id).length).sum
  then .wbinvd
  else .useFlushBlocks

/-- What the leader does before the parallel section. -/
def beginCheckpoint (tid : Nat) : Prog HybridInst FlushMode := do
  addressBufferClearAll tid
  Prog.act fun t => { t with prevFlushMode := t.flushMode, flushMode := determineFlushMode t }
  Prog.read flushMode

def applyFirst (tid nrThreads : Nat) : Prog HybridInst Unit := do
  let prev ← Prog.read prevFlushMode
  if prev = .wbinvd then applyNvmToNvmParallel tid nrThreads
  let epoch ← Prog.read epoch
  if epoch ≠ 0 then applyDramToBackParallel tid nrThreads
  else applyDramToMainParallel tid nrThreads

def applySecond (tid nrThreads : Nat) : Prog HybridInst Unit := do
  let epoch ← Prog.read epoch
  if epoch ≠ 0 then applyDramToMainParallel tid nrThreads
  else applyDramToBackParallel tid nrThreads

/-- The segments that `commit_layout_state` finds in word `w` of the two bitmaps. -/
def dirtySegmentsOf (t : HybridInst) (w : Nat) : List Nat :=
  (AtomicBitSet.setBits ((t.segmentDirty t.epoch).testAll (w * AtomicBitSet.kBitWidth) |||
    (t.segmentDirty (1 - t.epoch)).testAll (w * AtomicBitSet.kBitWidth))).map
    (w * AtomicBitSet.kBitWidth + ·)

def layoutSegments (t : HybridInst) : List Nat :=
  (List.range ((t.nrSegments + (AtomicBitSet.kBitWidth - 1)) / AtomicBitSet.kBitWidth)).flatMap
    t.dirtySegmentsOf

/-- The state that names the copy a round has written. -/
def targetState (epoch : Nat) : SegmentState := if epoch ≠ 0 then .back else .main

def commitLayoutState : Prog HybridInst Unit := do
  let state ← Prog.read fun t => targetState t.epoch
  let segments ← Prog.read layoutSegments
  onImage (commitBatch segments state)

/-- One round of the loop of `clear_dirty_bits_last_epoch`. -/
def clearSegment (t : HybridInst) (s : Nat) : HybridInst :=
  if (t.segmentDirty (1 - t.epoch)).test s then
    { t with
      blockDirty := Function.update t.blockDirty (1 - t.epoch)
        ((t.blockDirty (1 - t.epoch)).clearRegion (startBlock s) (stopBlock s))
      segmentDirty := Function.update t.segmentDirty (1 - t.epoch)
        ((t.segmentDirty (1 - t.epoch)).clear s) }
  else t

def clearDirtyBitsLastEpoch (t : HybridInst) : HybridInst :=
  (List.range t.nrSegments).foldl clearSegment t

/-- What the leader does once the round is complete. -/
def finishRound : Prog HybridInst Unit := do
  Prog.act clearDirtyBitsLastEpoch
  let hasSnapshot ← Prog.read hasSnapshot
  if hasSnapshot then pure () else
    onImage (setAttributes kAttributeHasSnapshot)
    Prog.act fun t => { t with hasSnapshot := true }
  Prog.act fun t => { t with flushBlocks := fun _ => [] }
  Prog.act fun t => { t with epoch := 1 - t.epoch }

/-- `checkpoint` called by `nrThreads` threads; `tid` is the thread that leads.  The
schedules order the steps of the threads in the two parallel sections.  The barriers and the
latch between them are taken to work, as they do for a fixed number of threads. -/
def checkpoint (tid nrThreads : Nat) (firstSchedule secondSchedule : List Nat) :
    Prog HybridInst Unit := do
  let mode ← beginCheckpoint tid
  if mode = .noAction then pure () else
    Prog.par nrThreads firstSchedule fun i => applyFirst i nrThreads
    commitLayoutState
    if mode = .wbinvd then finishRound
    else
      Prog.par nrThreads secondSchedule fun i => applySecond i nrThreads
      finishRound

/-! ## Opening -/

def construct (mode : FlushMode) (image : CheckpointImage) : HybridInst where
  image := image
  work := fun _ _ => 0#64
  segmentDirty := fun _ => AtomicBitSet.allocate
  blockDirty := fun _ => AtomicBitSet.allocate
  flushBlocks := fun _ => []
  addressBuffer := fun _ => []
  backMemoryLock := false
  nextBackSegment := 0
  epoch := 1
  flushMode := mode
  prevFlushMode := mode
  hasSnapshot := false

def existSnapshot (t : HybridInst) : Bool := t.image.getAttributes &&& kAttributeHasSnapshot ≠ 0

def prepareSegment (s : Nat) : Prog HybridInst Unit := do
  let state ← Prog.read fun t => t.image.getSegmentState s
  if state ≠ .initial then
    Prog.act fun t => { t with
      work := Function.update t.work s fun o => t.image.mem.load (.word .main s o) }

def prepareWorkingMemory : Prog HybridInst Unit := do
  let count ← Prog.read nrSegments
  Prog.forEach (List.range count) prepareSegment

def openNew (mode : FlushMode) (nrMain nrBack : Nat) : HybridInst :=
  construct mode (CheckpointImage.create nrMain nrBack)

def openExisting : Prog HybridInst Unit := do
  onImage (recovery .main)
  prepareWorkingMemory
  Prog.act fun t => { t with hasSnapshot := t.existSnapshot }

end HybridInst

end Libcrpm
