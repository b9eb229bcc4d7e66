import Mathlib.Data.List.Induction

/-!
# Histories

What holds of a list of events because of the last event of a kind, and between two of them.
-/

namespace Libcrpm.Program

variable {α : Type} {starts stops : α → Prop} {l : List α} {a b x : α}

/-- Something started it, and nothing has stopped it since. -/
def Since (starts stops : α → Prop) (l : List α) : Prop :=
  ∃ before x after, l = before ++ x :: after ∧ starts x ∧ ∀ y ∈ after, ¬ stops y

theorem not_since_nil : ¬ Since starts stops [] := by
  rintro ⟨before, x, after, hl, -⟩
  simp at hl

theorem since_snoc : Since starts stops (l ++ [x]) ↔ starts x ∨ Since starts stops l ∧ ¬ stops x := by
  constructor
  · rintro ⟨before, y, after, hl, hstart, hkept⟩
    rcases List.eq_nil_or_concat after with rfl | ⟨init, last, rfl⟩
    · have hlast := (List.append_inj' hl rfl).2
      rw [List.head_eq_of_cons_eq hlast]
      exact Or.inl hstart
    · rw [List.concat_eq_append, ← List.cons_append, ← List.append_assoc] at hl
      obtain ⟨hinit, hlast⟩ := List.append_inj' hl rfl
      rw [List.head_eq_of_cons_eq hlast]
      refine Or.inr ⟨⟨before, y, init, hinit, hstart, fun z hz => hkept z ?_⟩, hkept last ?_⟩
      · simp [hz]
      · simp
  · rintro (hstart | ⟨⟨before, y, after, rfl, hstart, hkept⟩, hx⟩)
    · exact ⟨l, x, [], rfl, hstart, by simp⟩
    · refine ⟨before, y, after ++ [x], by simp, hstart, fun z hz => ?_⟩
      rcases List.mem_append.mp hz with hold | hlast
      · exact hkept z hold
      · rwa [List.mem_singleton.mp hlast]

/-- Between any two `a` there is a `b`. -/
def Separated (a b : α) (l : List α) : Prop :=
  ∀ before mid after, l = before ++ a :: (mid ++ a :: after) → b ∈ mid

theorem separated_nil : Separated a b [] := by
  intro before mid after hl
  simp at hl

theorem Separated.snoc (h : Separated a b l) (hne : a ≠ b)
    (hx : x = a → a ∈ l → Since (· = b) (· = a) l) : Separated a b (l ++ [x]) := by
  intro before mid after hl
  rcases List.eq_nil_or_concat after with rfl | ⟨init, last, rfl⟩
  · have hassoc : before ++ a :: (mid ++ [a]) = (before ++ a :: mid) ++ [a] := by simp
    rw [hassoc] at hl
    obtain ⟨rfl, hlast⟩ := List.append_inj' hl rfl
    obtain ⟨first, y, rest, hsplit, rfl, hkept⟩ := hx (List.head_eq_of_cons_eq hlast) (by simp)
    rcases List.append_eq_append_iff.mp hsplit with ⟨gap, hfirst, hrest⟩ | ⟨gap, hbefore, hrest⟩
    · cases gap with
      | nil => exact absurd (List.head_eq_of_cons_eq hrest) hne
      | cons z gap =>
          rw [List.cons_append, List.cons.injEq] at hrest
          rw [hrest.2]
          simp
    · cases gap with
      | nil => exact absurd (List.head_eq_of_cons_eq hrest).symm hne
      | cons z gap =>
          rw [List.cons_append, List.cons.injEq] at hrest
          exact absurd rfl (hkept a (by rw [hrest.2]; simp))
  · have hassoc : before ++ a :: (mid ++ a :: init.concat last) =
        (before ++ a :: (mid ++ a :: init)) ++ [last] := by simp
    rw [hassoc] at hl
    exact h before mid init (List.append_inj' hl rfl).1

end Libcrpm.Program
