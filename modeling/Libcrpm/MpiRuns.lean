import Libcrpm.MProtectMpi
import Libcrpm.DirtyBitMpi

/-!
# Jobs of ranks with either engine

All ranks hold the data of one round after `OpenForMPI`, unless a crash falls into an earlier
one that had begun to move the flags.
-/

namespace Libcrpm.MpiEngine

open Libcrpm.Persistence Libcrpm.Program
open MetadataV1 (Data PoolImage)

/-- Which crashes the jobs of an engine may have. -/
abbrev JobCrashes := (E : Type) → Nat → (Nat → Nat) → AdmitsCrash E

/-- With either engine, after an `OpenForMPI` of `n` ranks with pools of less than 2 GiB all of
them hold the data of the same round. -/
def RanksAgree (n : Nat) (pages : Nat → Nat) (admits : JobCrashes) : Prop :=
  (∀ i < n, pages i * kRegionSize < 2 ^ 31) →
    MProtectEngine.mpiEngine.Agrees n pages (admits _ n pages) ∧
      DirtyBitEngine.mpiEngine.Agrees n pages (admits _ n pages)

theorem ranksAgree_of_inStep (n : Nat) (pages : Nat → Nat) :
    RanksAgree n pages fun _ => InStep := fun hlen =>
  ⟨agrees_of_lawful MProtectEngine.lawful hlen, agrees_of_lawful DirtyBitEngine.lawful hlen⟩

/-! ## Two ranks that open their pools again -/

/-- Pools of the smallest size. -/
def smallestPools : Nat → Nat := fun _ => 4096

def oneThread : MProtectEngine.Schedules :=
  ⟨List.replicate 300 0, List.replicate 300 0, List.replicate 300 0⟩

def storeAndCheckpoint : List MProtectEngine.mpiEngine.Call :=
  [.store ⟨0, 0, 1#64⟩, .checkpoint oneThread]

/-- Both ranks have named their main copies. -/
def published : MpiJob MProtectEngine :=
  (Prog.par 2 (List.replicate 540 [0, 1]).flatten fun i =>
    MProtectEngine.mpiEngine.runCalls 2 i storeAndCheckpoint).after 540
      (MProtectEngine.mpiEngine.createdJob smallestPools)

/-- What is left on the media when all machines stop. -/
def leftBy (J : MpiJob MProtectEngine) (i : Nat) : PoolImage := (J.rank i).engine.mem.shutdown

theorem crashTo_leftBy (J : MpiJob MProtectEngine) :
    MProtectEngine.mpiEngine.CrashTo 2 J (leftBy J) := fun _ _ => Memory.crashTo_shutdown _

/-- Rank 0 has left `OpenForMPI` and rank 1 has not set its flag. -/
def reopened : MpiJob MProtectEngine :=
  (Prog.par 2 (List.replicate 40 0) fun i =>
    MProtectEngine.mpiEngine.session 2 i []).after 40
      (MProtectEngine.mpiEngine.startedJob smallestPools (leftBy published))

/-- First rank 0 and then rank 1. -/
def inTurn : List Nat := List.replicate 40 0 ++ List.replicate 40 1

theorem entered_published : (published.rank 1).entered.map (fun X => X 0) = [1#64] := by
  decide +kernel

theorem entered_reopened : (reopened.rank 0).entered.map (fun X => X 0) = [] := by
  decide +kernel

theorem contents_of_inTurn : ((Prog.par 2 inTurn MProtectEngine.mpiEngine.openForMpi).run
    (MProtectEngine.mpiEngine.startedJob smallestPools (leftBy reopened))).map (fun r =>
      ((r.2.rank 0).engine.content 0, (r.2.rank 1).engine.content 0)) = some (1#64, 0#64) := by
  decide +kernel

/-- Rank 0 holds the round that rank 1 has lost. -/
theorem not_ranksAgree : ¬ ∀ n pages, RanksAgree n pages fun _ _ _ _ _ _ => True := by
  intro hagree
  have hcreated : MProtectEngine.mpiEngine.Run 2 smallestPools (fun _ _ _ => True)
      (leftBy published) (IsRound 2 published fun X => X = fun _ _ => 0#64) := by
    refine .created (fun _ => storeAndCheckpoint) (fun i call hcall => ?_) _ (Prog.mid_after 540 _ _)
      (crashTo_leftBy published)
    rcases List.mem_pair.mp hcall with rfl | rfl
    · exact ⟨by decide, show 0 < poolWords 4096 by decide⟩
    · trivial
  have hstarted := hcreated.started (J := reopened) (fun _ => []) (fun _ _ hcall => by cases hcall)
    (List.replicate 40 0) (Prog.mid_after 40 _ _) trivial (crashTo_leftBy reopened)
  have hlen : ∀ i < 2, smallestPools i * kRegionSize < 2 ^ 31 := fun _ _ => by
    rw [smallestPools, kRegionSize_eq]
    decide
  obtain ⟨⟨⟨⟩, J⟩, hrun, hcontents⟩ := Option.map_eq_some_iff.mp contents_of_inTurn
  obtain ⟨hfirst, hsecond⟩ := Prod.mk.inj hcontents
  obtain ⟨X, hround, hholds⟩ := (hagree 2 smallestPools hlen).1 _ _ hstarted inTurn J hrun
  have hX0 : X 0 0 = 1#64 := ((hholds 0 (by decide) 0 (by decide)).1.symm.trans hfirst)
  have hX1 : X 1 0 = 0#64 := ((hholds 1 (by decide) 0 (by decide)).1.symm.trans hsecond)
  rcases hround with (hzero | ⟨r, hr⟩) | ⟨r, hr⟩
  · rw [hzero] at hX0
    exact absurd hX0 (by decide)
  · have hone : (List.map (fun X => X 0) (published.rank 1).entered)[r]? = some (X 1 0) := by
      rw [List.getElem?_map, hr 1 (by decide)]
      rfl
    rw [entered_published, hX1] at hone
    cases r with
    | zero => exact absurd hone (by decide)
    | succ r => cases hone
  · have hnone : (List.map (fun X => X 0) (reopened.rank 0).entered)[r]? = some (X 0 0) := by
      rw [List.getElem?_map]
      have hentered : (reopened.rank 0).entered[r]? = some (X 0) := hr 0 (by decide)
      rw [hentered]
      rfl
    rw [entered_reopened] at hnone
    cases hnone

end Libcrpm.MpiEngine
