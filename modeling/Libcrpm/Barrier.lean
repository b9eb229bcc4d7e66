import Libcrpm.Engine
import Libcrpm.Program.Machine

/-!
# The barrier and the latch of a checkpoint

`Barrier` of `internal/common.h` and its use in `NvmInstEngine::checkpoint`, as a machine
that interleaves the atomic steps of all calls.  A call is known by its round and by the
id that it drew from `next_thread_id`.
-/

namespace Libcrpm

open Libcrpm.Program

/-- The senses are 0 and 1 in the source. -/
structure Barrier where
  counter : Nat
  flag : Bool
  localSense : Nat → Bool

namespace Barrier

def new : Barrier := ⟨0, false, fun _ => false⟩

def flipSense (tid : Nat) (b : Barrier) : Barrier :=
  { b with localSense := Function.update b.localSense tid (!b.localSense tid) }

def arrive (b : Barrier) : Barrier := { b with counter := b.counter + 1 }

def resetCounter (b : Barrier) : Barrier := { b with counter := 0 }

def storeFlag (sense : Bool) (b : Barrier) : Barrier := { b with flag := sense }

def latchAdd (tid : Nat) (b : Barrier) : Barrier := b.storeFlag (!b.localSense tid)

def released (tid : Nat) (b : Barrier) : Bool := b.flag == b.localSense tid

theorem released_iff {b : Barrier} {tid : Nat} :
    b.released tid = true ↔ b.localSense tid = b.flag := by
  rw [released, beq_iff_eq, eq_comm]

end Barrier

namespace CheckpointSync

/-- What the leader does before a `latch_add`. -/
inductive Work where
  | determineMode | commit | finish
deriving DecidableEq, Repr

inductive Test where
  | noAction | useFlushBlocks
deriving DecidableEq, Repr

inductive Op where
  | barrier
  | latch (work : Work)
  | test (test : Test)
deriving DecidableEq, Repr

def Test.next (mode : FlushMode) : Test → List Op
  | .noAction => if mode = .noAction then [] else [.barrier, .test .useFlushBlocks]
  | .useFlushBlocks =>
      if mode = .useFlushBlocks then [.latch .commit, .barrier, .latch .finish]
      else [.latch .finish]

/-- The use that `checkpoint` makes of the barrier and the latch. -/
def checkpointOps : List Op := [.barrier, .barrier, .latch .determineMode, .test .noAction]

/-- How far a call is in its first operation. -/
inductive Stage where
  | start
  /-- In `barrier`, before `fetch_add`. -/
  | flipped
  /-- The last one to arrive, before `counter.store(0)`. -/
  | last
  /-- Before `flag.store`. -/
  | reset
  | spin
  /-- The leader, before `latch_add`. -/
  | worked
  /-- The leader, before `latch_wait`. -/
  | added
deriving DecidableEq, Repr

/-- A call of `checkpoint`; `use` counts the barriers and latches it has left. -/
structure Call where
  ops : List Op
  stage : Stage
  use : Nat
deriving DecidableEq, Repr

def Call.new : Call := ⟨checkpointOps, .start, 0⟩

/-- What happened, with the round, the number of the use and the thread id. -/
inductive Event where
  | entered (round use tid : Nat)
  | leftBarrier (round use tid : Nat)
  | added (round use : Nat)
  | leftLatch (round use tid : Nat)
deriving DecidableEq, Repr

structure State where
  nextThreadId : Nat
  barrier : Barrier
  latch : Barrier
  flushMode : FlushMode
  /-- The round that was entered last. -/
  round : Nat
  /-- `nr_threads` of each round. -/
  width : Nat → Nat
  calls : Nat → Nat → Option Call
  log : List Event

namespace State

def init : State where
  nextThreadId := 0
  barrier := .new
  latch := .new
  flushMode := .noAction
  round := 0
  width := fun _ => 0
  calls := fun _ _ => none
  log := []

def setCall (round tid : Nat) (call : Option Call) (s : State) : State :=
  { s with calls := Function.update s.calls round (Function.update (s.calls round) tid call) }

def record (e : Event) (s : State) : State := { s with log := e :: s.log }

/-- The round that the next call to enter belongs to. -/
def entryRound (s : State) : Nat := if s.nextThreadId = 0 then s.round + 1 else s.round

/-- `next_thread_id.fetch_add(1)` by a call with `nrThreads`.  A round is entered by as many
calls as its first one says, and they all say the same. -/
def enter (nrThreads : Nat) (s : State) : Option State :=
  if 0 < nrThreads ∧ (s.nextThreadId = 0 ∨
      (s.nextThreadId < nrThreads ∧ s.width s.round = nrThreads)) then
    some (({ s with
      nextThreadId := s.nextThreadId + 1
      round := s.entryRound
      width := Function.update s.width s.entryRound nrThreads }).setCall
        s.entryRound s.nextThreadId (some .new))
  else none

/-- The work of the leader; `determine_flush_mode` may choose any mode. -/
def work (mode : FlushMode) : Work → State → State
  | .determineMode, s =>
      { s with
        flushMode := mode
        nextThreadId := if mode = .noAction then 0 else s.nextThreadId }
  | .commit, s => s
  | .finish, s => { s with nextThreadId := 0 }

def leave (round tid : Nat) (call : Call) (s : State) : State :=
  s.setCall round tid (some ⟨call.ops.tail, .start, call.use + 1⟩)

def stepBarrier (round tid : Nat) (call : Call) (s : State) : Option State :=
  match call.stage with
  | .start => some <|
      { s with barrier := s.barrier.flipSense tid }.setCall round tid
        (some { call with stage := .flipped })
  | .flipped => some <|
      ({ s with barrier := s.barrier.arrive }.setCall round tid (some { call with
        stage := if s.barrier.counter + 1 = s.width round then .last else .spin })).record
          (.entered round call.use tid)
  | .last => some <|
      { s with barrier := s.barrier.resetCounter }.setCall round tid
        (some { call with stage := .reset })
  | .reset => some <|
      ({ s with barrier := s.barrier.storeFlag (s.barrier.localSense tid) }.leave
        round tid call).record (.leftBarrier round call.use tid)
  | _ =>
      if s.barrier.released tid then
        some ((s.leave round tid call).record (.leftBarrier round call.use tid))
      else none

/-- The next atomic step of a call at a latch: the leader works and calls `latch_add`, and
all of them call `latch_wait`. -/
def stepLatch (round tid : Nat) (w : Work) (mode : FlushMode) (call : Call) (s : State) :
    Option State :=
  match call.stage with
  | .start =>
      if tid = 0 then
        some ((s.work mode w).setCall round tid (some { call with stage := .worked }))
      else some <|
        { s with latch := s.latch.flipSense tid }.setCall round tid
          (some { call with stage := .spin })
  | .worked => some <|
      ({ s with latch := s.latch.latchAdd tid }.setCall round tid
        (some { call with stage := .added })).record (.added round call.use)
  | .added => some <|
      { s with latch := s.latch.flipSense tid }.setCall round tid
        (some { call with stage := .spin })
  | _ =>
      if s.latch.released tid then
        some ((s.leave round tid call).record (.leftLatch round call.use tid))
      else none

/-- The next atomic step of one call; `mode` is what `determine_flush_mode` chooses if that
is the step. -/
def advance (round tid : Nat) (mode : FlushMode) (s : State) : Option State :=
  match s.calls round tid with
  | none => none
  | some call =>
      match call.ops with
      | [] => some (s.setCall round tid none)
      | .barrier :: _ => s.stepBarrier round tid call
      | .latch w :: _ => s.stepLatch round tid w mode call
      | .test t :: _ => some (s.setCall round tid (some { call with ops := t.next s.flushMode }))

end State

inductive Label where
  | enter (nrThreads : Nat)
  | advance (round tid : Nat) (mode : FlushMode)
deriving DecidableEq, Repr

def machine : Machine State Label where
  init := .init
  step
    | .enter nrThreads, s => s.enter nrThreads
    | .advance round tid mode, s => s.advance round tid mode

/-! ## Safety -/

/-- The call spins and the flag does not have its sense. -/
def State.Spins (s : State) (tid : Nat) (call : Call) : Prop :=
  call.stage = .spin ∧
    match call.ops.head? with
    | some .barrier => s.barrier.released tid = false
    | some (.latch _) => s.latch.released tid = false
    | _ => False

def State.Entered (s : State) (round : Nat) : Prop :=
  round < s.round ∨
    (round = s.round ∧ (s.nextThreadId = 0 ∨ s.nextThreadId = s.width round))

/-- All threads of the round have entered and those that remain all spin. -/
def State.Stuck (s : State) (round : Nat) : Prop :=
  s.Entered round ∧
    (∃ tid call, s.calls round tid = some call) ∧
    ∀ tid call, s.calls round tid = some call → s.Spins tid call

structure State.Safe (s : State) : Prop where
  barrier : ∀ round use tid, .leftBarrier round use tid ∈ s.log →
    ∀ tid' < s.width round, .entered round use tid' ∈ s.log
  latch : ∀ round use tid, .leftLatch round use tid ∈ s.log → .added round use ∈ s.log
  progress : ∀ round, ¬ s.Stuck round

def SyncSafe (admits : Nat → State → Prop) (s : State) : Prop :=
  machine.Reaches (fun label t => ∀ nrThreads, label = .enter nrThreads → admits nrThreads t) s →
    s.Safe

end CheckpointSync

end Libcrpm
