import Mathlib.Order.Basic
import Mathlib.Data.List.Basic

/-!
# Saturation

Passes over a work list that add to a state, repeated until a flag says that nothing was added.
-/

namespace Libcrpm.Graph

section Passes

variable {α σ : Type} [PartialOrder σ] {step : σ × Bool → α → σ × Bool}

/-- A step only adds to the state, and raises the flag exactly if it did. -/
def Grows (step : σ × Bool → α → σ × Bool) : Prop :=
  ∀ s x, s.1 ≤ (step s x).1 ∧ ((step s x).2 = true ↔ s.2 = true ∨ (step s x).1 ≠ s.1)

theorem Grows.foldl (h : Grows step) (xs : List α) (s : σ × Bool) :
    s.1 ≤ (xs.foldl step s).1 ∧
      ((xs.foldl step s).2 = true ↔ s.2 = true ∨ (xs.foldl step s).1 ≠ s.1) := by
  induction xs generalizing s with
  | nil => exact ⟨le_rfl, by simp⟩
  | cons x xs ih =>
      obtain ⟨hle, hflag⟩ := h s x
      obtain ⟨hle', hflag'⟩ := ih (step s x)
      refine ⟨hle.trans hle', ?_⟩
      rw [List.foldl_cons, hflag', hflag, or_assoc]
      apply or_congr_right
      constructor
      · rintro (hne | hne) heq
        · exact hne (le_antisymm (heq ▸ hle') hle)
        · exact hne (le_antisymm (heq ▸ hle) hle')
      · intro hne
        by_contra hboth
        push Not at hboth
        exact hne (hboth.2.trans hboth.1)

theorem Grows.fixed (h : Grows step) {s : σ × Bool} {x : α} (hflag : (step s x).2 = false) :
    step s x = s := by
  have hiff := (h s x).2
  rw [hflag] at hiff
  have hnot : ¬ (s.2 = true ∨ (step s x).1 ≠ s.1) := fun hor => by simpa using hiff.mpr hor
  push Not at hnot
  exact Prod.ext hnot.2 (hflag.trans (Bool.eq_false_iff.mpr hnot.1).symm)

theorem Grows.foldl_fixed (h : Grows step) {xs : List α} {s : σ × Bool}
    (hflag : (xs.foldl step s).2 = false) : ∀ x ∈ xs, step s x = s := by
  induction xs with
  | nil => simp
  | cons x xs ih =>
      have hiff := (h.foldl xs (step s x)).2
      rw [List.foldl_cons] at hflag
      rw [hflag] at hiff
      have hdown : (step s x).2 = false := by
        cases hstep : (step s x).2 with
        | false => rfl
        | true => simpa using hiff.mpr (Or.inl hstep)
      have hsame := h.fixed hdown
      rw [hsame] at hflag
      intro y hy
      rcases List.mem_cons.mp hy with rfl | hrest
      · exact hsame
      · exact ih hflag y hrest

end Passes

section Loop

variable {σ : Type} {pass : σ → σ × Bool} {Inv : σ → Prop} {s : σ}

def saturate (pass : σ → σ × Bool) : Nat → σ → Option σ
  | 0, _ => none
  | fuel + 1, s => if (pass s).2 then saturate pass fuel (pass s).1 else some (pass s).1

theorem saturate_ends (measure : σ → Nat) (hinv : ∀ s, Inv s → Inv (pass s).1)
    (hless : ∀ s, Inv s → (pass s).2 = true → measure (pass s).1 < measure s) (h : Inv s) :
    ∃ fuel r, saturate pass fuel s = some r := by
  induction hn : measure s using Nat.strongRecOn generalizing s with
  | ind n ih =>
      cases hflag : (pass s).2 with
      | false => exact ⟨1, (pass s).1, by rw [saturate, hflag, if_neg Bool.false_ne_true]⟩
      | true =>
          obtain ⟨fuel, r, hrun⟩ := ih _ (hn ▸ hless s h hflag) (hinv s h) rfl
          exact ⟨fuel + 1, r, by rw [saturate, hflag, if_pos rfl, hrun]⟩

theorem saturate_done {fuel : Nat} {r : σ} (hinv : ∀ s, Inv s → Inv (pass s).1) (h : Inv s)
    (hrun : saturate pass fuel s = some r) : ∃ t, Inv t ∧ pass t = (r, false) := by
  induction fuel generalizing s with
  | zero => simp [saturate] at hrun
  | succ fuel ih =>
      rw [saturate] at hrun
      cases hflag : (pass s).2 with
      | false =>
          rw [hflag, if_neg Bool.false_ne_true] at hrun
          exact ⟨s, h, Prod.ext (Option.some.inj hrun) hflag⟩
      | true =>
          rw [hflag, if_pos rfl] at hrun
          exact ih (hinv s h) hrun

end Loop

end Libcrpm.Graph
