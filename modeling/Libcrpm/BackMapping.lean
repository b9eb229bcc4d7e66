import Mathlib.Logic.Function.Basic

/-!
# Two maps that are inverse to each other

Partial maps between owners and what they own, as `main_to_back` and `back_to_main` are, and
the three writes by which `bind_back_segment` changes them.
-/

namespace Libcrpm

structure BackMapping (α β : Type) where
  mainToBack : α → Option β
  backToMain : β → Option α

namespace BackMapping

variable {α β : Type} (k : BackMapping α β)

/-- The old owner of `b` loses it. -/
def unbindOwner [DecidableEq α] (b : β) : BackMapping α β :=
  match k.backToMain b with
  | some old => { k with mainToBack := Function.update k.mainToBack old none }
  | none => k

def storeOwner [DecidableEq β] (m : α) (b : β) : BackMapping α β :=
  { k with backToMain := Function.update k.backToMain b (some m) }

def storeMain [DecidableEq α] (m : α) (b : β) : BackMapping α β :=
  { k with mainToBack := Function.update k.mainToBack m (some b) }

/-- Each has the other. -/
def Inverse : Prop := ∀ m b, k.mainToBack m = some b ↔ k.backToMain b = some m

/-- The maps are inverse but for `b`, which nobody has. -/
def InverseExcept (b : β) : Prop :=
  ∀ m b', k.mainToBack m = some b' ↔ b' ≠ b ∧ k.backToMain b' = some m

variable {k} {m m' : α} {b b' : β}

theorem Inverse.injective (h : k.Inverse) (hm : k.mainToBack m = some b)
    (hm' : k.mainToBack m' = some b) : m = m' :=
  Option.some.inj (((h m b).mp hm).symm.trans ((h m' b).mp hm'))

@[simp] theorem mainToBack_storeOwner [DecidableEq β] :
    (k.storeOwner m b).mainToBack = k.mainToBack := rfl

@[simp] theorem backToMain_storeOwner_self [DecidableEq β] :
    (k.storeOwner m b).backToMain b = some m := Function.update_self _ _ _

theorem backToMain_storeOwner_of_ne [DecidableEq β] (h : b' ≠ b) :
    (k.storeOwner m b).backToMain b' = k.backToMain b' := Function.update_of_ne h _ _

theorem InverseExcept.storeOwner [DecidableEq β] (h : k.InverseExcept b) (m : α) :
    (k.storeOwner m b).InverseExcept b := by
  intro m' b'
  rw [mainToBack_storeOwner, h m' b']
  exact and_congr_right fun hne => by rw [backToMain_storeOwner_of_ne hne]

theorem InverseExcept.injective {b₀ : β} (h : k.InverseExcept b₀)
    (hgone : ∀ old, k.backToMain b₀ = some old → k.mainToBack old = none)
    (hb : k.backToMain b = some m) (hb' : k.backToMain b' = some m) : b = b' := by
  have hbound : ∀ {b}, k.backToMain b = some m → b ≠ b₀ → k.mainToBack m = some b := fun hb hne =>
    (h m _).mpr ⟨hne, hb⟩
  by_cases hne : b = b₀
  · by_contra hdiffer
    have hsome := hbound hb' fun heq => hdiffer (hne.trans heq.symm)
    rw [hgone m (hne ▸ hb)] at hsome
    cases hsome
  · have hsome := hbound hb hne
    by_cases hne' : b' = b₀
    · rw [hgone m (hne' ▸ hb')] at hsome
      cases hsome
    · exact Option.some.inj (hsome.symm.trans (hbound hb' hne'))

variable [DecidableEq α]

@[simp] theorem backToMain_unbindOwner : (k.unbindOwner b).backToMain = k.backToMain := by
  unfold unbindOwner
  cases k.backToMain b <;> rfl

@[simp] theorem backToMain_storeMain : (k.storeMain m b).backToMain = k.backToMain := rfl

@[simp] theorem mainToBack_storeMain_self : (k.storeMain m b).mainToBack m = some b :=
  Function.update_self _ _ _

theorem mainToBack_storeMain_of_ne (h : m' ≠ m) :
    (k.storeMain m b).mainToBack m' = k.mainToBack m' := Function.update_of_ne h _ _

theorem mainToBack_unbindOwner_of_ne (h : k.backToMain b ≠ some m) :
    (k.unbindOwner b).mainToBack m = k.mainToBack m := by
  unfold unbindOwner
  cases hold : k.backToMain b with
  | none => rfl
  | some old =>
      refine Function.update_of_ne ?_ _ _
      rintro rfl
      exact h hold

theorem mainToBack_unbindOwner_self (h : k.backToMain b = some m) :
    (k.unbindOwner b).mainToBack m = none := by
  unfold unbindOwner
  rw [h]
  exact Function.update_self _ _ _

theorem mainToBack_unbindOwner_of_none (h : k.mainToBack m = none) :
    (k.unbindOwner b).mainToBack m = none := by
  unfold unbindOwner
  cases k.backToMain b with
  | none => exact h
  | some old =>
      by_cases hm : m = old
      · subst hm
        exact Function.update_self _ _ _
      · exact (Function.update_of_ne hm _ _).trans h

/-! ## Binding -/

theorem Inverse.unbindOwner (h : k.Inverse) (b : β) : (k.unbindOwner b).InverseExcept b := by
  intro m b'
  rw [backToMain_unbindOwner]
  by_cases hm : k.backToMain b = some m
  · rw [mainToBack_unbindOwner_self hm]
    refine iff_of_false (by simp) ?_
    rintro ⟨hne, hb'⟩
    have hback := (h m b).mpr hm
    rw [(h m b').mpr hb'] at hback
    exact hne (Option.some.inj hback)
  · rw [mainToBack_unbindOwner_of_ne hm, h m b']
    refine ⟨fun hb' => ⟨?_, hb'⟩, fun hb' => hb'.2⟩
    rintro rfl
    exact hm hb'

/-- The last write completes the maps if the new owner had nothing. -/
theorem InverseExcept.storeMain (h : k.InverseExcept b) (hb : k.backToMain b = some m)
    (hm : k.mainToBack m = none) : (k.storeMain m b).Inverse := by
  intro m' b'
  rw [backToMain_storeMain]
  by_cases hm' : m' = m
  · subst hm'
    rw [mainToBack_storeMain_self]
    constructor
    · intro heq
      exact Option.some.inj heq ▸ hb
    · intro hb'
      by_contra hne
      have hbound := (h m' b').mpr ⟨fun heq => hne (by rw [heq]), hb'⟩
      rw [hm] at hbound
      cases hbound
  · rw [mainToBack_storeMain_of_ne hm', h m' b']
    refine ⟨fun hb' => hb'.2, fun hb' => ⟨?_, hb'⟩⟩
    rintro rfl
    exact hm' (Option.some.inj (hb'.symm.trans hb))

end BackMapping

end Libcrpm
