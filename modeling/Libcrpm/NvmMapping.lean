import Libcrpm.BackMapping
import Libcrpm.NvmHooks
import Libcrpm.Program.Machine

/-!
# Back segments of the NVM engine under concurrent writers

Application threads that hook stores or call `lazy_write_back`, the cleaner thread and
`checkpoint`, as a machine that interleaves their atomic steps.  Copies of data and the
persistence of the image play no part; a barrier or a latch lets its threads go at once.
-/

namespace Libcrpm.NvmMapping

open Libcrpm.Program CheckpointImage NvmInst

/-- A file that `Open` has mapped, with as many application threads, of which `nrCallers`
take part in each checkpoint.  Each back segment has one owner, as in a new file. -/
structure Pool where
  nrSegments : Nat
  nrBack : Nat
  nrThreads : Nat
  nrCallers : Nat
  image : NvmImage
  segmentState : Nat → SegmentState
  owned : ∀ b < nrBack, ∃ m < nrSegments, image (.backToMain b) = some m
  inj : InjOwners nrBack image

/-! ## Where a thread is -/

/-- A call of the hook of a store. -/
structure HookCall where
  addr : Nat
  len : Nat
deriving DecidableEq, Repr

namespace HookCall

/-- The call is for one block and leaves its address in a buffer. -/
def small (call : HookCall) : Bool := call.addr % kBlockSize + call.len ≤ kBlockSize

def segments (call : HookCall) : List Nat := hookedSegments call.addr call.len

def blocks (call : HookCall) : List Nat :=
  (blockAddresses call.addr call.len).map (· >>> kBlockShift)

end HookCall

/-- What follows a call of `lazy_write_back`; `segments` are those that the hook has not
come to. -/
inductive Next where
  | idle
  | hook (segments : List Nat) (call : HookCall)
  | cleaner
deriving DecidableEq, Repr

/-- The arguments of `lazy_write_back`. -/
structure WriteBack where
  segment : Nat
  onDemand : Bool
  next : Next
deriving DecidableEq, Repr

inductive LazyPc where
  | acquire
  | readState
  | readBack (state : SegmentState)
  /-- At the test of `find_back_segment`. -/
  | find
  /-- Behind the copies. -/
  | setState
  | clearBlocks
  | setDirty
  | release
deriving DecidableEq, Repr

/-- Who calls `allocate_back_segment`, and for what. -/
inductive Caller where
  | lazy (w : WriteBack)
  | writeBack (block id : Nat) (rest : List Nat)
deriving DecidableEq, Repr

def Caller.segment : Caller → Nat
  | .lazy w => w.segment
  | .writeBack block _ _ => block / kBlocksPerSegment

/-- The places in `allocate_back_segment` and behind it.  `victim` is the owner whose lock
the thread has taken. -/
inductive AllocPc where
  | acquire
  | probe (loopCount : Nat)
  /-- The next back segment has an owner. -/
  | owner (old loopCount : Nat)
  | tryLock (old loopCount : Nat)
  | testLocked (old loopCount : Nat)
  | unlock (old loopCount : Nat)
  /-- At the test without a lock. -/
  | testFree (old loopCount : Nat)
  | skip (loopCount : Nat)
  /-- Before the three writes of `bind_back_segment`. -/
  | unbind (b : Nat) (victim : Option Nat)
  | storeOwner (b : Nat) (victim : Option Nat)
  | storeMain (b : Nat) (victim : Option Nat)
  | advance (victim : Option Nat)
  | releaseVictim (old : Nat)
  | release
  /-- Back in `find_back_segment`. -/
  | reread
deriving DecidableEq, Repr

/-- The places of the leader before the others write back. -/
inductive LeadPc where
  | drain (blocks : List Nat)
  | busy
  | choose (threadBusy : Bool)
  | mutex
  | commit
deriving DecidableEq, Repr

inductive Pc where
  | idle
  /-- The loop of `hook_copy_on_write_routine`. -/
  | hook (segments : List Nat) (call : HookCall)
  /-- Before the dirty bit is set with `skip_copy_on_write`. -/
  | mark (segment : Nat) (segments : List Nat) (call : HookCall)
  /-- In `hook_routine` for each block; `buffered` are the addresses of the thread's buffer. -/
  | record (blocks : List Nat) (buffered : Bool)
  | lazy (place : LazyPc) (w : WriteBack)
  | alloc (place : AllocPc) (caller : Caller)
  /-- The cleaner waits for its condition variable, or is at the head of its loop. -/
  | asleep (segment : Nat)
  | scan (segment : Nat)
  /-- In `checkpoint`, before the first barrier. -/
  | arrived (id : Nat)
  | lead (place : LeadPc)
  /-- In `write_back_parallel`. -/
  | writeBack (id : Nat) (blocks : List Nat)
  | written (id : Nat)
deriving DecidableEq, Repr

namespace Pc

def hasArrived : Pc → Bool
  | .arrived _ => true
  | _ => false

def leads : Pc → Bool
  | .lead _ => true
  | _ => false

/-- In the parallel section of a checkpoint. -/
def writes : Pc → Bool
  | .writeBack .. | .written _ | .alloc _ (.writeBack ..) => true
  | _ => false

def hasWritten : Pc → Bool
  | .written _ => true
  | _ => false

/-- Between the writes of `bind_back_segment`. -/
def midBind : Pc → Bool
  | .alloc (.storeOwner ..) _ | .alloc (.storeMain ..) _ => true
  | _ => false

end Pc

/-! ## The engine -/

structure State where
  mapping : BackMapping Nat Nat
  nextBackId : Nat
  segmentState : Nat → SegmentState
  segmentDirty : AtomicBitSet
  blockDirty : AtomicBitSet
  flushBlocks : Nat → List Nat
  addressBuffer : Nat → List Nat
  /-- The locks with the threads that hold them. -/
  segmentLocks : Nat → Option Nat
  backMemoryLock : Option Nat
  cleanerMutex : Option Nat
  cleanerState : CleanerState
  checkpointInProgress : Bool
  skipCopyOnWrite : Bool
  flushMode : FlushMode
  nextThreadId : Nat
  pc : Nat → Pc
  /-- `exit` was called. -/
  exited : Bool

namespace State

variable (pool : Pool)

def goto (tid : Nat) (pc : Pc) (s : State) : State := { s with pc := Function.update s.pc tid pc }

def setDirty (m : Nat) (s : State) : State := { s with segmentDirty := s.segmentDirty.set m }

def lock (l : Nat) (holder : Option Nat) (s : State) : State :=
  { s with segmentLocks := Function.update s.segmentLocks l holder }

/-- Record a block in the flush list of a thread. -/
def record (tid block : Nat) (s : State) : State :=
  if s.blockDirty.test block then s
  else if (s.flushBlocks tid).length ≠ kMaxFlushBlocks then
    { s with
      blockDirty := s.blockDirty.set block
      flushBlocks := Function.update s.flushBlocks tid (s.flushBlocks tid ++ [block]) }
  else { s with blockDirty := s.blockDirty.set block }

/-- The cleaner is the thread behind the application threads. -/
def init : State where
  mapping := ⟨openMainToBack pool.image pool.nrBack,
    fun b => if b < pool.nrBack then pool.image (.backToMain b) else none⟩
  nextBackId := 0
  segmentState := pool.segmentState
  segmentDirty := AtomicBitSet.allocate
  blockDirty := AtomicBitSet.allocate
  flushBlocks := fun _ => []
  addressBuffer := fun _ => []
  segmentLocks := fun _ => none
  backMemoryLock := none
  cleanerMutex := none
  cleanerState := .idle
  checkpointInProgress := false
  skipCopyOnWrite := false
  flushMode := .noAction
  nextThreadId := 0
  pc tid := if tid = pool.nrThreads then .asleep 0 else .idle
  exited := false

/-! ## `lazy_write_back` and `allocate_back_segment` -/

/-- Behind the last step of `lazy_write_back`. -/
def returned (tid : Nat) (w : WriteBack) (s : State) : State :=
  match w.next with
  | .idle => s.goto tid .idle
  | .hook segments call => s.goto tid (.hook segments call)
  | .cleaner =>
      if w.segment + 1 = pool.nrSegments then
        { s with cleanerState := .idle }.goto tid (.scan (w.segment + 1))
      else s.goto tid (.scan (w.segment + 1))

def lazyStep (tid : Nat) (w : WriteBack) (s : State) : LazyPc → Option State
  | .acquire =>
      match s.segmentLocks (lockOf w.segment) with
      | some _ => none
      | none => some ((s.lock (lockOf w.segment) (some tid)).goto tid (.lazy .readState w))
  | .readState => some (s.goto tid (.lazy (.readBack (s.segmentState w.segment)) w))
  | .readBack state =>
      match s.mapping.mainToBack w.segment with
      | some _ =>
          if state ≠ .main then
            if w.onDemand then some (s.goto tid (.lazy .setDirty w))
            else some (s.goto tid (.lazy .release w))
          else some (s.goto tid (.lazy .setState w))
      | none =>
          if w.onDemand then some (s.goto tid (.lazy .find w))
          else some (s.goto tid (.lazy .release w))
  | .find =>
      match s.mapping.mainToBack w.segment with
      | some _ => some (s.goto tid (.lazy .setState w))
      | none => some (s.goto tid (.alloc .acquire (.lazy w)))
  | .setState =>
      some ({ s with segmentState := Function.update s.segmentState w.segment .back }.goto tid
        (.lazy .clearBlocks w))
  | .clearBlocks =>
      some ({ s with blockDirty :=
          s.blockDirty.clearRegion (startBlock w.segment) (stopBlock w.segment) }.goto tid
        (.lazy (if w.onDemand then .setDirty else .release) w))
  | .setDirty => some ((s.setDirty w.segment).goto tid (.lazy .release w))
  | .release => some ((s.lock (lockOf w.segment) none).returned pool tid w)

def allocStep (tid : Nat) (caller : Caller) (s : State) : AllocPc → Option State
  | .acquire =>
      match s.backMemoryLock with
      | some _ => none
      | none => some ({ s with backMemoryLock := some tid }.goto tid (.alloc (.probe 0) caller))
  | .probe loopCount =>
      if loopCount < pool.nrBack then
        match s.mapping.backToMain s.nextBackId with
        | none => some (s.goto tid (.alloc (.unbind s.nextBackId none) caller))
        | some old => some (s.goto tid (.alloc (.owner old loopCount) caller))
      -- the lock is not released
      else some (s.goto tid (.alloc .reread caller))
  | .owner old loopCount =>
      if s.checkpointInProgress then some (s.goto tid (.alloc (.testFree old loopCount) caller))
      else some (s.goto tid (.alloc (.tryLock old loopCount) caller))
  | .tryLock old loopCount =>
      match s.segmentLocks (lockOf old) with
      | some _ => some (s.goto tid (.alloc (.skip loopCount) caller))
      | none =>
          some ((s.lock (lockOf old) (some tid)).goto tid (.alloc (.testLocked old loopCount) caller))
  | .testLocked old loopCount =>
      if s.segmentDirty.test old then some (s.goto tid (.alloc (.unlock old loopCount) caller))
      else some (s.goto tid (.alloc (.unbind s.nextBackId (some old)) caller))
  | .unlock old loopCount =>
      some ((s.lock (lockOf old) none).goto tid (.alloc (.skip loopCount) caller))
  | .testFree old loopCount =>
      if s.segmentDirty.test old then some (s.goto tid (.alloc (.skip loopCount) caller))
      else some (s.goto tid (.alloc (.unbind s.nextBackId none) caller))
  | .skip loopCount =>
      some ({ s with nextBackId := (s.nextBackId + 1) % pool.nrBack }.goto tid
        (.alloc (.probe (loopCount + 1)) caller))
  | .unbind b victim =>
      some ({ s with mapping := s.mapping.unbindOwner b }.goto tid
        (.alloc (.storeOwner b victim) caller))
  | .storeOwner b victim =>
      some ({ s with mapping := s.mapping.storeOwner caller.segment b }.goto tid
        (.alloc (.storeMain b victim) caller))
  | .storeMain b victim =>
      some ({ s with mapping := s.mapping.storeMain caller.segment b }.goto tid
        (.alloc (.advance victim) caller))
  | .advance victim =>
      some ({ s with nextBackId := (s.nextBackId + 1) % pool.nrBack }.goto tid
        (.alloc (match victim with | some old => .releaseVictim old | none => .release) caller))
  | .releaseVictim old => some ((s.lock (lockOf old) none).goto tid (.alloc .release caller))
  | .release => some ({ s with backMemoryLock := none }.goto tid (.alloc .reread caller))
  | .reread =>
      match s.mapping.mainToBack caller.segment, caller with
      | some _, .lazy w => some (s.goto tid (.lazy .setState w))
      | some _, .writeBack _ id rest => some (s.goto tid (.writeBack id rest))
      | none, _ => some { s with exited := true }

/-! ## `checkpoint` -/

def listedBlocks (s : State) : List Nat := (List.range kMaxThreads).flatMap s.flushBlocks

def determineFlushMode (s : State) : FlushMode :=
  if (List.range kMaxThreads).all fun id => (s.flushBlocks id).length = 0 then .noAction
  else if (List.range kMaxThreads).any fun id => kMaxFlushBlocks ≤ (s.flushBlocks id).length then
    .wbinvd
  else .useFlushBlocks

def commitLayoutState (state : SegmentState) (s : State) : State :=
  { s with segmentState := fun m =>
      if s.flushMode = .wbinvd then if s.segmentDirty.test m then state else s.segmentState m
      else if m ∈ s.listedBlocks.map segmentOf then state else s.segmentState m }

def clearDirtyBits (s : State) : State :=
  s.listedBlocks.foldl (fun s block => { s with
    blockDirty := s.blockDirty.clearAll block
    segmentDirty := s.segmentDirty.clearAll (segmentOf block) }) s

/-- A latch lets the threads at `pc` go on. -/
def letGo (go : Pc → Pc) (s : State) : State := { s with pc := fun i => go (s.pc i) }

def leave : Pc → Pc
  | .arrived _ | .lead _ | .written _ => .idle
  | pc => pc

def enterWriteBack (nrCallers : Nat) (lists : Nat → List Nat) : Pc → Pc
  | .arrived id => .writeBack id ((bucketsOf id nrCallers).flatMap lists)
  | .lead _ => .writeBack 0 ((bucketsOf 0 nrCallers).flatMap lists)
  | pc => pc

/-- What the leader does before it lets the others return. -/
def endRound (tid : Nat) (s : State) : State :=
  { s with
    flushBlocks := fun _ => []
    checkpointInProgress := false
    nextThreadId := 0
    cleanerMutex := if s.cleanerMutex = some tid then none else s.cleanerMutex }

def leadStep (tid : Nat) (s : State) : LeadPc → Option State
  | .drain [] => some ({ s with addressBuffer := fun _ => [] }.goto tid (.lead .busy))
  | .drain (block :: blocks) => some ((s.record tid block).goto tid (.lead (.drain blocks)))
  | .busy => some (s.goto tid (.lead (.choose (s.cleanerState ≠ .idle))))
  | .choose threadBusy =>
      let mode := s.determineFlushMode
      if mode = .noAction then
        some ({ s with flushMode := mode, nextThreadId := 0 }.letGo leave)
      else if mode = .wbinvd ∨ threadBusy then
        some ({ s with flushMode := mode, checkpointInProgress := true, skipCopyOnWrite := false }.goto
          tid (.lead .mutex))
      else
        some ({ s with
            flushMode := mode
            checkpointInProgress := true
            skipCopyOnWrite := pool.nrSegments = pool.nrBack }.goto tid (.lead .commit))
  | .mutex =>
      match s.cleanerMutex with
      | some _ => none
      | none => some ({ s with cleanerMutex := some tid }.goto tid (.lead .commit))
  | .commit =>
      if s.flushMode = .wbinvd then
        let s := s.commitLayoutState .main
        some (({ s with
            segmentDirty := s.segmentDirty.clearRegion 0 pool.nrSegments
            cleanerState := .started }.endRound tid).letGo leave)
      else some ((s.commitLayoutState .main).letGo (enterWriteBack pool.nrCallers s.flushBlocks))

def allThreads (p : Pc → Bool) (s : State) : Bool :=
  (List.range pool.nrThreads).all fun i => p (s.pc i)

def countThreads (p : Pc → Bool) (s : State) : Nat :=
  ((List.range pool.nrThreads).filter fun i => p (s.pc i)).length

def bufferedAddresses (s : State) : List Nat := (List.range kMaxThreads).flatMap s.addressBuffer

/-! ## Steps -/

def advance (tid : Nat) (s : State) : Option State :=
  match s.pc tid with
  | .idle => none
  | .hook [] call =>
      if call.small then
        let buffer := s.addressBuffer tid ++ [call.addr]
        if buffer.length = kNumBufferedAddresses then
          some ({ s with addressBuffer := Function.update s.addressBuffer tid buffer }.goto tid
            (.record (buffer.map (· >>> kBlockShift)) true))
        else some ({ s with addressBuffer := Function.update s.addressBuffer tid buffer }.goto tid .idle)
      else some (s.goto tid (.record call.blocks false))
  | .hook (m :: segments) call =>
      if s.segmentDirty.test m then some (s.goto tid (.hook segments call))
      else if s.skipCopyOnWrite then some (s.goto tid (.mark m segments call))
      else some (s.goto tid (.lazy .acquire ⟨m, true, .hook segments call⟩))
  | .mark m segments call => some ((s.setDirty m).goto tid (.hook segments call))
  | .record [] true =>
      some ({ s with addressBuffer := Function.update s.addressBuffer tid [] }.goto tid .idle)
  | .record [] false => some (s.goto tid .idle)
  | .record (block :: blocks) buffered => some ((s.record tid block).goto tid (.record blocks buffered))
  | .lazy place w => s.lazyStep pool tid w place
  | .alloc place caller => s.allocStep pool tid caller place
  | .asleep m =>
      match s.cleanerMutex with
      | some _ => none
      | none => some ({ s with cleanerMutex := some tid }.goto tid (.scan m))
  | .scan m =>
      match s.cleanerState with
      | .started => some ({ s with cleanerState := .running }.goto tid (.scan 0))
      | .running =>
          if s.checkpointInProgress then
            some ({ s with cleanerMutex := none }.goto tid (.asleep m))
          else some (s.goto tid (.lazy .acquire ⟨m, false, .cleaner⟩))
      | .idle => some ({ s with cleanerMutex := none }.goto tid (.asleep m))
  | .arrived id =>
      if id = 0 ∧ s.countThreads pool Pc.hasArrived = pool.nrCallers then
        some (s.goto tid (.lead (.drain (s.bufferedAddresses.map (· >>> kBlockShift)))))
      else none
  | .lead place => s.leadStep pool tid place
  | .writeBack id [] => some (s.goto tid (.written id))
  | .writeBack id (block :: blocks) =>
      match s.mapping.mainToBack (block / kBlocksPerSegment) with
      | some _ => some (s.goto tid (.writeBack id blocks))
      | none => some (s.goto tid (.alloc .acquire (.writeBack block id blocks)))
  | .written id =>
      if id = 0 ∧ s.allThreads pool (fun pc => !pc.writes || pc.hasWritten) then
        some ((((s.commitLayoutState .back).clearDirtyBits).endRound tid).letGo leave)
      else none

end State

inductive Label where
  | advance (tid : Nat)
  | hook (tid : Nat) (call : HookCall)
  | lazyWriteBack (tid m : Nat) (onDemand : Bool)
  | checkpoint (tid : Nat)
deriving DecidableEq, Repr

def State.call (pool : Pool) (s : State) : Label → Option State
  | .advance _ => none
  | .hook tid call =>
      if 0 < call.len ∧ call.addr + call.len ≤ pool.nrSegments * kSegmentSize then
        some (s.goto tid (.hook call.segments call))
      else none
  | .lazyWriteBack tid m onDemand =>
      if m < pool.nrSegments then some (s.goto tid (.lazy .acquire ⟨m, onDemand, .idle⟩)) else none
  | .checkpoint tid =>
      if s.nextThreadId < pool.nrCallers then
        some ({ s with nextThreadId := s.nextThreadId + 1 }.goto tid (.arrived s.nextThreadId))
      else none

def Label.tid : Label → Nat
  | .advance tid | .hook tid _ | .lazyWriteBack tid _ _ | .checkpoint tid => tid

def State.step (pool : Pool) (label : Label) (s : State) : Option State :=
  if s.exited then none
  else match label with
    | .advance tid => if tid ≤ pool.nrThreads then s.advance pool tid else none
    | label =>
        if label.tid < pool.nrThreads ∧ s.pc label.tid = .idle then s.call pool label else none

def machine (pool : Pool) : Machine State Label where
  init := .init pool
  step label s := s.step pool label

/-! ## What the mapping should keep -/

/-- No `bind_back_segment` is half done. -/
def State.Settled (pool : Pool) (s : State) : Prop :=
  ∀ tid ≤ pool.nrThreads, (s.pc tid).midBind = false

instance (pool : Pool) (s : State) : Decidable (s.Settled pool) :=
  inferInstanceAs (Decidable (∀ tid ≤ pool.nrThreads, (s.pc tid).midBind = false))

/-- The maps have each other, each back segment has exactly one owner, and a dirty segment has
a back segment. -/
structure State.Sound (pool : Pool) (s : State) : Prop where
  inverse : s.mapping.Inverse
  owned : ∀ b < pool.nrBack, ∃ m < pool.nrSegments, ∀ m', s.mapping.mainToBack m' = some b ↔ m' = m
  bound : ∀ m, s.segmentDirty.test m = true → s.mapping.mainToBack m ≠ none

/-- `Open` finds a pool if the program stops here. -/
structure State.Reopens (pool : Pool) (s : State) : Prop where
  owned : ∀ b < pool.nrBack, ∃ m < pool.nrSegments, s.mapping.backToMain b = some m
  injective : ∀ b b' m, s.mapping.backToMain b = some m → s.mapping.backToMain b' = some m → b = b'

/-- In every run the maps are sound, and no step takes the back segment of a dirty segment. -/
def MappingKept (calls : Pool → Prop) : Prop :=
  ∀ pool, calls pool → ∀ s, (machine pool).Reaches (fun _ _ => True) s →
    (s.Settled pool → s.Sound pool) ∧ s.Reopens pool ∧
    ∀ label t, s.step pool label = some t → ∀ m b, s.segmentDirty.test m = true →
      s.mapping.mainToBack m = some b → t.mapping.mainToBack m = some b

/-- All application threads take part in each checkpoint. -/
def Collective (pool : Pool) : Prop := pool.nrCallers = pool.nrThreads

end Libcrpm.NvmMapping
