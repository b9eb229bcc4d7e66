import Libcrpm.HybridRuns
import Libcrpm.MpiCommit
import Libcrpm.Program.Job

/-!
# The hybrid engine in an MPI job

`OpenForMPI` and `checkpoint_for_mpi` of `hybrid_inst_engine.cpp`.  Every rank has a pool
of its own, with as many back segments as segments.  The ranks meet once in each round, when
the epoch of the round is durable, and once when they open their pools, to agree on the least
epoch.
-/

namespace Libcrpm.HybridInst

open Libcrpm.Persistence Libcrpm.Program CheckpointImage

/-- A rank with its engine.  For the properties below `entered` records working memory as
it was when the rank called `checkpoint_for_mpi`, and `left` counts the calls that have
returned, both since the job was started. -/
structure MpiRank where
  engine : HybridInst
  opened : Bool
  entered : List Content
  left : Nat

/-- The ranks share what each of them contributes to `MPI_Allreduce`. -/
abbrev MpiJob := Job MpiRank (Nat → Option Nat)

def engineLens : Lens MpiRank HybridInst where
  get := MpiRank.engine
  set x s := { s with engine := x }
  get_set _ _ := rfl
  set_set _ _ _ := rfl
  set_get _ := rfl

def onEngine {α : Type} (p : Prog HybridInst α) : Prog MpiRank α := p.zoom engineLens

/-! ## Opening -/

def allreduceMin (n i value : Nat) : Prog MpiJob Nat := do
  Prog.act fun J => { J with shared := Function.update J.shared i (some value) }
  .step (fun J => (List.range n).all fun j => (J.shared j).isSome) id fun J =>
    pure (((List.range n).map fun j => (J.shared j).getD value).foldl min value)

/-- What a rank does once it knows the least epoch. -/
def recoverRank (myEpoch minEpoch : Nat) : Prog MpiRank Unit := do
  if minEpoch ≠ myEpoch then onEngine (onImage (resetCommittedEpoch minEpoch))
  onEngine openExisting
  Prog.act fun s => { s with opened := true }

def openForMpi (n i : Nat) : Prog MpiJob Unit := do
  let myEpoch ← Job.onRank i (onEngine (Prog.read fun t => t.image.committedEpoch))
  let minEpoch ← allreduceMin n i myEpoch
  if 2 ≤ myEpoch - minEpoch then .exit else Job.onRank i (recoverRank myEpoch minEpoch)

/-! ## Checkpoint -/

/-- The section before the commit, in thread `tid`. -/
def applyForMpi (tid nrThreads : Nat) : Prog HybridInst Unit := do
  applyNvmToNvmParallel tid nrThreads
  let epoch ← Prog.read epoch
  if epoch ≠ 0 then applyDramToBackParallel tid nrThreads
  else applyDramToMainParallel tid nrThreads

/-- `commit_layout_state_for_mpi` up to the barrier of the commit; the result is `bi_epoch`. -/
def publishLayoutState : Prog HybridInst Nat := do
  let state ← Prog.read fun t => targetState t.epoch
  let segments ← Prog.read layoutSegments
  onImage (publishBatch segments state)

def commitLayoutStateForMpi (n i : Nat) : Prog MpiJob Unit := do
  let bi ← Job.onRank i (onEngine publishLayoutState)
  Job.barrier n i
  Job.onRank i (onEngine (onImage (Prog.act (copyDirtyLines bi))))

/-- A call of `checkpoint_for_mpi`: the thread that leads, the number of threads and the
order of their steps.  The barriers and the latch of a rank are taken to work, as they do if
the number is the same in all its calls. -/
structure RoundCall where
  leader : Nat
  nrThreads : Nat
  schedule : List Nat

structure RoundCall.Valid (call : RoundCall) : Prop where
  leader : call.leader < kMaxThreads
  threads : 0 < call.nrThreads

def RoundCall.apply (call : RoundCall) : Prog HybridInst Unit :=
  Prog.par call.nrThreads call.schedule fun j => applyForMpi j call.nrThreads

def checkpointForMpi (n i : Nat) (call : RoundCall) : Prog MpiJob Unit := do
  let mode ← Job.onRank i (onEngine (beginCheckpoint call.leader))
  if mode = .noAction then pure () else
    Job.onRank i (onEngine call.apply)
    commitLayoutStateForMpi n i
    Job.onRank i (onEngine finishRound)

/-! ## Rounds that can be taken back -/

/-- Some block may have changed since the last round. -/
def hasWork (t : HybridInst) : Bool :=
  (List.range kMaxThreads).any fun id =>
    !(t.flushBlocks id).isEmpty || (t.addressBuffer id).any fun addr => decide (addr < t.capacity)

/-- The next round finds the segment dirty. -/
def touches (t : HybridInst) (s : Nat) : Bool :=
  (t.segmentDirty t.epoch).test s || (List.range kMaxThreads).any fun id =>
    (t.addressBuffer id).any fun addr => decide (addr < t.capacity ∧ addr >>> kSegmentShift = s)

/-- The next round has something to write, else the rank would not wait for the others,
and for no segment it writes the copy that the last round has committed. -/
def regular (t : HybridInst) : Bool :=
  t.hasWork && (List.range t.nrSegments).all fun s =>
    !t.touches s || t.image.getSegmentState s != targetState t.epoch

/-! ## Jobs -/

inductive MpiCall where
  | store (call : StoreCall)
  | checkpoint (call : RoundCall)

def MpiCall.Valid (segments : Nat) : MpiCall → Prop
  | .store call => call.Valid segments
  | .checkpoint call => call.Valid

/-- A rank calls `checkpoint_for_mpi` in a regular state only. -/
def runCall (n i : Nat) : MpiCall → Prog MpiJob Unit
  | .store call => Job.onRank i (onEngine call.prog)
  | .checkpoint call => do
      Prog.await (fun J => (J.rank i).engine.regular) id
      Job.onRank i (Prog.act fun s => { s with entered := s.entered ++ [s.engine.work] })
      checkpointForMpi n i call
      Job.onRank i (Prog.act fun s => { s with left := s.left + 1 })

def runCalls (n i : Nat) (calls : List MpiCall) : Prog MpiJob Unit :=
  Prog.forEach calls (runCall n i)

def session (n i : Nat) (calls : List MpiCall) : Prog MpiJob Unit := do
  openForMpi n i
  runCalls n i calls

/-- The job whose ranks have created their pools, rank `i` one of `segments i` segments and
as many back segments. -/
def createdJob (segments : Nat → Nat) (modes : Nat → FlushMode) : MpiJob where
  rank i := ⟨openNew (modes i) (segments i) (segments i), true, [], 0⟩
  arrived _ := 0
  shared _ := none

/-- The job that was started again on existing pools with a back segment for each segment. -/
def startedJob (segments : Nat → Nat) (modes : Nat → FlushMode) (imgs : Nat → NvmImage) :
    MpiJob where
  rank i := ⟨construct (modes i) (openImage (segments i) (segments i) (imgs i)), false, [], 0⟩
  arrived _ := 0
  shared _ := none

/-- Working memory at the `r`-th round since the start of the job, which began with `X`. -/
def roundContent (X : Content) (entered : List Content) : Nat → Content
  | 0 => X
  | r + 1 => entered.getD r X

/-- Working memory at the last round. -/
def lastContent (X : Content) (entered : List Content) : Content :=
  roundContent X entered entered.length

/-- `X` is what the ranks held in one round: all of them have entered it, and none has
returned from a later one. -/
def IsRound (n : Nat) (J : MpiJob) (base X : Nat → Content) : Prop :=
  ∃ r, ∀ i < n, (J.rank i).left ≤ r ∧ r ≤ (J.rank i).entered.length ∧
    X i = roundContent (base i) (J.rank i).entered r

/-- What the ranks of a job leave on the media that has ended in an orderly way, and their
working memory at the last round. -/
inductive Closed (n : Nat) (segments : Nat → Nat) : (Nat → NvmImage) → (Nat → Content) → Prop
  | created {J : MpiJob} (modes : Nat → FlushMode) (calls : Nat → List MpiCall)
      (hvalid : ∀ i, ∀ c ∈ calls i, c.Valid (segments i)) (schedule : List Nat)
      (hret : (Prog.par n schedule fun i => runCalls n i (calls i)).run
        (createdJob segments modes) = some ((), J)) :
      Closed n segments (fun i => (J.rank i).engine.image.mem.shutdown)
        fun i => lastContent (fun _ _ => 0#64) (J.rank i).entered
  | reopened {J : MpiJob} {imgs : Nat → NvmImage} {base : Nat → Content}
      (hclosed : Closed n segments imgs base) (modes : Nat → FlushMode)
      (calls : Nat → List MpiCall) (hvalid : ∀ i, ∀ c ∈ calls i, c.Valid (segments i))
      (schedule : List Nat)
      (hret : (Prog.par n schedule fun i => session n i (calls i)).run
        (startedJob segments modes imgs) = some ((), J)) :
      Closed n segments (fun i => (J.rank i).engine.image.mem.shutdown)
        fun i => lastContent (base i) (J.rank i).entered

/-- The machines of all ranks stop after all have opened their pools.  On the media a
segment is `SS_Initial` in both arrays or in none. -/
def CrashTo (n : Nat) (segments : Nat → Nat) (J : MpiJob) (imgs : Nat → NvmImage) : Prop :=
  ∀ i < n, (J.rank i).opened = true ∧ (J.rank i).engine.image.mem.CrashTo (imgs i) ∧
    Agrees (segments i) (imgs i)

/-- What is left on the media when a job crashes, and what the ranks held in the rounds
that may be recovered. -/
inductive Crashed (n : Nat) (segments : Nat → Nat) :
    (Nat → NvmImage) → ((Nat → Content) → Prop) → Prop
  | created {J : MpiJob} {imgs : Nat → NvmImage} (modes : Nat → FlushMode)
      (calls : Nat → List MpiCall) (hvalid : ∀ i, ∀ c ∈ calls i, c.Valid (segments i))
      (schedule : List Nat)
      (hmid : (Prog.par n schedule fun i => runCalls n i (calls i)).Mid
        (createdJob segments modes) J)
      (hcrash : CrashTo n segments J imgs) :
      Crashed n segments imgs (IsRound n J fun _ _ _ => 0#64)
  | started {J : MpiJob} {imgs imgs' : Nat → NvmImage} {base : Nat → Content}
      (hclosed : Closed n segments imgs base) (modes : Nat → FlushMode)
      (calls : Nat → List MpiCall) (hvalid : ∀ i, ∀ c ∈ calls i, c.Valid (segments i))
      (schedule : List Nat)
      (hmid : (Prog.par n schedule fun i => session n i (calls i)).Mid
        (startedJob segments modes imgs) J)
      (hcrash : CrashTo n segments J imgs') :
      Crashed n segments imgs' (IsRound n J base)

end Libcrpm.HybridInst
