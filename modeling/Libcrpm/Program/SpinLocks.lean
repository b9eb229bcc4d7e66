import Mathlib.Logic.Function.Basic

/-!
# Spin locks

Threads take the lock of an item and give it back; several items may share a lock.  `locked` says
which item a thread at a program counter has locked.
-/

namespace Libcrpm.Program

variable {Pc Item Lock : Type} {lockOf : Item → Lock} {locked : Pc → Option Item}
  {locks : Lock → Bool} {pc : Nat → Pc} {t : Nat} {p : Pc} {b : Item}

/-- The locks that threads hold are taken, and each by one thread. -/
structure LocksInv (lockOf : Item → Lock) (locked : Pc → Option Item) (locks : Lock → Bool)
    (pc : Nat → Pc) : Prop where
  held : ∀ t b, locked (pc t) = some b → locks (lockOf b) = true
  exclusive : ∀ t t' b b', locked (pc t) = some b → locked (pc t') = some b' →
    lockOf b = lockOf b' → t = t'

theorem locksInv_of_none (h : ∀ t, locked (pc t) = none) : LocksInv lockOf locked locks pc := by
  constructor
  · intro t b hlocked
    rw [h t] at hlocked
    cases hlocked
  · intro t t' b b' hlocked
    rw [h t] at hlocked
    cases hlocked

theorem LocksInv.update (h : LocksInv lockOf locked locks pc) (hp : locked p = locked (pc t)) :
    LocksInv lockOf locked locks (Function.update pc t p) := by
  have hsame : ∀ t', locked (Function.update pc t p t') = locked (pc t') := by
    intro t'
    by_cases ht : t' = t
    · rw [ht, Function.update_self, hp]
    · rw [Function.update_of_ne ht]
  refine ⟨fun t' b hlocked => ?_, fun t₁ t₂ b₁ b₂ h₁ h₂ => ?_⟩
  · rw [hsame] at hlocked
    exact h.held t' b hlocked
  · rw [hsame] at h₁ h₂
    exact h.exclusive t₁ t₂ b₁ b₂ h₁ h₂

theorem LocksInv.acquire [DecidableEq Lock] (h : LocksInv lockOf locked locks pc)
    (hfree : locks (lockOf b) = false) (hp : locked p = some b) :
    LocksInv lockOf locked (Function.update locks (lockOf b) true) (Function.update pc t p) := by
  -- Nobody else holds the lock that was free.
  have hother : ∀ t' b', locked (pc t') = some b' → lockOf b ≠ lockOf b' := by
    intro t' b' hlocked heq
    have hheld := h.held t' b' hlocked
    rw [← heq, hfree] at hheld
    cases hheld
  have hself : ∀ {b'}, locked (Function.update pc t p t) = some b' → b = b' := by
    intro b' hlocked
    rw [Function.update_self, hp] at hlocked
    exact Option.some.inj hlocked
  constructor
  · intro t' b' hlocked
    by_cases ht : t' = t
    · subst ht
      rw [← hself hlocked, Function.update_self]
    · rw [Function.update_of_ne ht] at hlocked
      rw [Function.update_of_ne (hother t' b' hlocked).symm]
      exact h.held t' b' hlocked
  · intro t₁ t₂ b₁ b₂ h₁ h₂ heq
    by_cases ht₁ : t₁ = t
    · subst ht₁
      by_contra hne
      rw [Function.update_of_ne (Ne.symm hne)] at h₂
      exact hother t₂ b₂ h₂ (hself h₁ ▸ heq)
    · by_cases ht₂ : t₂ = t
      · subst ht₂
        rw [Function.update_of_ne ht₁] at h₁
        exact absurd (hself h₂ ▸ heq.symm) (hother t₁ b₁ h₁)
      · rw [Function.update_of_ne ht₁] at h₁
        rw [Function.update_of_ne ht₂] at h₂
        exact h.exclusive t₁ t₂ b₁ b₂ h₁ h₂ heq

theorem LocksInv.release [DecidableEq Lock] (h : LocksInv lockOf locked locks pc)
    (hb : locked (pc t) = some b) (hp : locked p = none) :
    LocksInv lockOf locked (Function.update locks (lockOf b) false) (Function.update pc t p) := by
  have hother : ∀ {t' b'}, locked (Function.update pc t p t') = some b' →
      t' ≠ t ∧ locked (pc t') = some b' := by
    intro t' b' hlocked
    by_cases ht : t' = t
    · rw [ht, Function.update_self, hp] at hlocked
      cases hlocked
    · rw [Function.update_of_ne ht] at hlocked
      exact ⟨ht, hlocked⟩
  constructor
  · intro t' b' hlocked
    obtain ⟨hne, hold⟩ := hother hlocked
    have hlock : lockOf b' ≠ lockOf b := fun heq => hne (h.exclusive t' t b' b hold hb heq)
    rw [Function.update_of_ne hlock]
    exact h.held t' b' hold
  · intro t₁ t₂ b₁ b₂ h₁ h₂
    exact h.exclusive t₁ t₂ b₁ b₂ (hother h₁).2 (hother h₂).2

end Libcrpm.Program
