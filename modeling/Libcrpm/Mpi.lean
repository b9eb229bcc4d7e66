import Libcrpm.Metadata
import Libcrpm.Program.Job

/-!
# Engines of an MPI job

`OpenForMPI` and `checkpoint_for_mpi` of the engines that use `MetadataV1`.  The engines
differ in how they track pages only, which `MpiEngine` leaves open; what is left is the
order of the collectives, the stores to the flag and the copies.  Every rank has a pool of
its own.
-/

namespace Libcrpm

open Libcrpm.Persistence Libcrpm.Program
open MetadataV1 (Data PoolImage)

/-- What an engine does between the collectives. -/
structure MpiEngine (E : Type) where
  metadata : Lens E MetadataV1
  /-- The data the application works on. -/
  content : E → Data
  /-- The engine on a pool of some pages, before recovery. -/
  construct : Nat → MetadataV1 → E
  /-- The rest of `OpenForMPI` after `recover_data`. -/
  prepare : Prog E Unit
  StoreCall : Type
  Valid : Nat → StoreCall → Prop
  store : StoreCall → Prog E Unit
  /-- The number of threads of a rank and the order of their steps. -/
  Order : Type
  Ordered : Order → Prop
  persist : Order → Prog E Unit
  updateCopies : Order → Prog E Unit
  finish : Prog E Unit

/-- A rank with its engine.  `entered` records, for the properties below, the data with
which it has called `checkpoint_for_mpi` since the job was started. -/
structure Rank (E : Type) where
  engine : E
  opened : Bool
  entered : List Data

abbrev MpiJob (E : Type) := Job (Rank E) (Option ConsistentData)

namespace MpiEngine

variable {E : Type} {α : Type} (e : MpiEngine E)

def engineLens : Lens (Rank E) E where
  get := Rank.engine
  set x s := { s with engine := x }
  get_set _ _ := rfl
  set_set _ _ _ := rfl
  set_get _ := rfl

def onEngine (p : Prog E α) : Prog (Rank E) α := p.zoom engineLens

def mem (x : E) : MetadataV1.Nvm := (e.metadata.get x).mem

def setConsistentData (flag : ConsistentData) : Prog (Rank E) Unit :=
  onEngine ((MetadataV1.setConsistentData flag).zoom e.metadata)

/-! ## Opening -/

/-- `MPI_Bcast` of the flag of rank 0. -/
def bcastConsistentData (i : Nat) : Prog (MpiJob E) ConsistentData :=
  if i = 0 then do
    let flag ← Job.onRank 0 (Prog.read fun s => (e.metadata.get s.engine).consistentData)
    Prog.act fun J => { J with shared := some flag }
    pure flag
  else .step (fun J => J.shared.isSome) id fun J => pure (J.shared.getD .back)

/-- What a rank does once it has the flag of rank 0. -/
def recoverRank (flag : ConsistentData) : Prog (Rank E) Unit := do
  e.setConsistentData flag
  onEngine (MetadataV1.recoverData.zoom e.metadata)
  onEngine e.prepare
  Prog.act fun s => { s with opened := true }

def openForMpi (i : Nat) : Prog (MpiJob E) Unit := do
  let flag ← e.bcastConsistentData i
  Job.onRank i (e.recoverRank flag)

/-! ## Checkpoint -/

def checkpointForMpi (n i : Nat) (order : e.Order) : Prog (MpiJob E) Unit := do
  Job.onRank i (Prog.act fun s => { s with entered := s.entered ++ [e.content s.engine] })
  Job.onRank i (onEngine (e.persist order))
  Job.barrier n i
  Job.onRank i (e.setConsistentData .main)
  Job.barrier n i
  Job.onRank i (onEngine (e.updateCopies order))
  Job.barrier n i
  Job.onRank i (e.setConsistentData .back)
  Job.barrier n i
  Job.onRank i (onEngine e.finish)

/-! ## Jobs -/

inductive Call where
  | store (call : e.StoreCall)
  | checkpoint (order : e.Order)

def Call.Valid {e : MpiEngine E} (pages : Nat) : Call e → Prop
  | .store call => e.Valid pages call
  | .checkpoint order => e.Ordered order

def runCall (n i : Nat) : e.Call → Prog (MpiJob E) Unit
  | .store call => Job.onRank i (onEngine (e.store call))
  | .checkpoint order => e.checkpointForMpi n i order

def runCalls (n i : Nat) (calls : List e.Call) : Prog (MpiJob E) Unit :=
  Prog.forEach calls (e.runCall n i)

def session (n i : Nat) (calls : List e.Call) : Prog (MpiJob E) Unit := do
  e.openForMpi i
  e.runCalls n i calls

/-- The job whose ranks have created their pools, rank `i` one of `pages i` pages. -/
def createdJob (pages : Nat → Nat) : MpiJob E where
  rank i := ⟨e.construct (pages i) (MetadataV1.create (pages i * kRegionSize)), true, []⟩
  arrived _ := 0
  shared := none

/-- The job that was started again on existing pools. -/
def startedJob (pages : Nat → Nat) (imgs : Nat → PoolImage) : MpiJob E where
  rank i := ⟨e.construct (pages i) (mounted (pages i) (imgs i)), false, []⟩
  arrived _ := 0
  shared := none

/-- `X` is the data of a round that all ranks have entered, one of `rounds` or a later one. -/
def IsRound (n : Nat) (J : MpiJob E) (rounds : (Nat → Data) → Prop) (X : Nat → Data) : Prop :=
  rounds X ∨ ∃ r : Nat, ∀ i < n, (J.rank i).entered[r]? = some (X i)

def CrashTo (n : Nat) (J : MpiJob E) (imgs : Nat → PoolImage) : Prop :=
  ∀ i < n, (e.mem (J.rank i).engine).CrashTo (imgs i)

/-- Which crashes of a job that was started on some images a run may have. -/
abbrev AdmitsCrash (E : Type) := (Nat → PoolImage) → MpiJob E → (Nat → PoolImage) → Prop

/-- What whole-job crashes have left on the media of `n` ranks, and the rounds so far. -/
inductive Run (n : Nat) (pages : Nat → Nat) (admits : AdmitsCrash E) :
    (Nat → PoolImage) → ((Nat → Data) → Prop) → Prop
  | created {J : MpiJob E} {imgs : Nat → PoolImage} (calls : Nat → List e.Call)
      (hvalid : ∀ i, ∀ c ∈ calls i, c.Valid (pages i)) (schedule : List Nat)
      (hmid : (Prog.par n schedule fun i => e.runCalls n i (calls i)).Mid (e.createdJob pages) J)
      (hcrash : e.CrashTo n J imgs) :
      Run n pages admits imgs (IsRound n J fun X => X = fun _ _ => 0#64)
  | started {J : MpiJob E} {imgs imgs' : Nat → PoolImage} {rounds : (Nat → Data) → Prop}
      (hrun : Run n pages admits imgs rounds) (calls : Nat → List e.Call)
      (hvalid : ∀ i, ∀ c ∈ calls i, c.Valid (pages i)) (schedule : List Nat)
      (hmid : (Prog.par n schedule fun i => e.session n i (calls i)).Mid
        (e.startedJob pages imgs) J)
      (hadmits : admits imgs J imgs') (hcrash : e.CrashTo n J imgs') :
      Run n pages admits imgs' (IsRound n J rounds)

/-- Rank `i` holds `X`. -/
def HoldsData (pages : Nat) (s : Rank E) (X : Data) : Prop :=
  ∀ o < poolWords pages, e.content s.engine o = X o ∧
    (e.metadata.get s.engine).load .main o = X o ∧ (e.metadata.get s.engine).load .back o = X o

/-- Whenever `OpenForMPI` completes on all ranks, they hold the data of the same round. -/
def Agrees (n : Nat) (pages : Nat → Nat) (admits : AdmitsCrash E) : Prop :=
  ∀ imgs rounds, e.Run n pages admits imgs rounds → ∀ schedule J,
    (Prog.par n schedule e.openForMpi).run (e.startedJob pages imgs) = some ((), J) →
      ∃ X, rounds X ∧ ∀ i < n, e.HoldsData (pages i) (J.rank i) (X i)

/-- A crash does not fall into an `OpenForMPI` that recovers from main memory, when the
copies that the flag of rank 0 names are not those it named before: a rank has left
`OpenForMPI` and its main copy has changed, or the back copy of a rank is incomplete. -/
def InStep (n : Nat) (pages : Nat → Nat) : AdmitsCrash E := fun imgs J imgs' =>
  imgs 0 .consistentData = .main → (∃ i < n, (J.rank i).opened = false) →
    match imgs' 0 .consistentData with
    | .main => ∀ i < n, (J.rank i).opened = true →
        ∀ o < poolWords (pages i), imgs' i (.data .main o) = imgs i (.data .main o)
    | .back => ∀ i < n, (J.rank i).opened = false →
        ∀ o < poolWords (pages i), imgs' i (.data .back o) = imgs' i (.data .main o)

end MpiEngine

end Libcrpm
