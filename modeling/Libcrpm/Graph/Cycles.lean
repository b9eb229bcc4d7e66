import Mathlib.Data.Fintype.EquivFin
import Mathlib.Logic.Relation
import Mathlib.Order.RelClasses

/-!
# Chains in a finite graph

From a node of a finite graph all chains end if and only if they meet no cycle.
-/

namespace Libcrpm.Graph

open Relation

variable {N : Type} {r : N → N → Prop} {x y : N}

/-- A node on a cycle that can be reached from `x`. -/
def MeetsCycle (r : N → N → Prop) (x : N) : Prop :=
  ∃ y, ReflTransGen r x y ∧ TransGen r y y

theorem MeetsCycle.of_step (h : MeetsCycle r y) (hstep : r x y) : MeetsCycle r x :=
  h.imp fun _ hy => ⟨ReflTransGen.head hstep hy.1, hy.2⟩

theorem MeetsCycle.step (h : MeetsCycle r x) : ∃ y, r x y ∧ MeetsCycle r y := by
  obtain ⟨z, hreach, hcycle⟩ := h
  rcases ReflTransGen.cases_head hreach with rfl | ⟨y, hstep, hrest⟩
  · obtain ⟨y, hstep, hback⟩ := TransGen.head'_iff.mp hcycle
    exact ⟨y, hstep, x, hback, hcycle⟩
  · exact ⟨y, hstep, z, hrest, hcycle⟩

theorem not_meetsCycle_of_acc (h : Acc (flip r) x) : ¬ MeetsCycle r x := by
  induction h with
  | intro x _ ih =>
      intro hmeets
      obtain ⟨y, hstep, hy⟩ := hmeets.step
      exact ih y hstep hy

theorem acc_of_not_meetsCycle [Fintype N] (h : ¬ MeetsCycle r x) : Acc (flip r) x := by
  let below : N → N → Prop := fun z y => TransGen r y z ∧ ReflTransGen r x y
  have htrans : IsTrans N below := ⟨fun _ _ _ hab hbc => ⟨hbc.1.trans hab.1, hbc.2⟩⟩
  have hirrefl : Std.Irrefl below := ⟨fun y hy => h ⟨y, hy.2, hy.1⟩⟩
  have hwf : WellFounded below := Finite.wellFounded_of_trans_of_irrefl below
  have hall : ∀ y, ReflTransGen r x y → Acc (flip r) y := by
    intro y
    induction y using hwf.induction with
    | h y ih =>
        intro hy
        exact ⟨y, fun z hz => ih z ⟨.single hz, hy⟩ (hy.tail hz)⟩
  exact hall x .refl

theorem acc_iff_not_meetsCycle [Fintype N] : Acc (flip r) x ↔ ¬ MeetsCycle r x :=
  ⟨not_meetsCycle_of_acc, acc_of_not_meetsCycle⟩

theorem last_visit (h : ReflTransGen r x y) (hne : y ≠ x) :
    ∃ z, r x z ∧ z ≠ x ∧ ReflTransGen (fun a b => r a b ∧ b ≠ x) z y := by
  induction h with
  | refl => exact absurd rfl hne
  | @tail b c _ hstep ih =>
      by_cases hb : b = x
      · subst hb
        exact ⟨c, hstep, hne, .refl⟩
      · obtain ⟨z, hz, hzne, hpath⟩ := ih hb
        exact ⟨z, hz, hzne, hpath.tail ⟨hstep, hne⟩⟩

end Libcrpm.Graph
