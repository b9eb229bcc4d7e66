import Mathlib.Logic.Basic

/-!
# Machines and their runs

A machine takes labelled steps from an initial state.  A run may be restricted by a
condition on each step and the state before it.
-/

namespace Libcrpm.Program

structure Machine (σ ℓ : Type) where
  init : σ
  /-- `none` if the step cannot be taken. -/
  step : ℓ → σ → Option σ

namespace Machine

variable {σ ℓ : Type} {m : Machine σ ℓ} {admits : ℓ → σ → Prop}

/-- The states of the runs whose steps are all admitted. -/
inductive Reaches (m : Machine σ ℓ) (admits : ℓ → σ → Prop) : σ → Prop
  | init : Reaches m admits m.init
  | step {s t : σ} (hs : Reaches m admits s) (l : ℓ) (hadmits : admits l s)
      (hstep : m.step l s = some t) : Reaches m admits t

/-- What holds initially and is kept by each admitted step holds in every run. -/
theorem Reaches.invariant {I : σ → Prop} (hinit : I m.init)
    (hstep : ∀ s l t, I s → admits l s → m.step l s = some t → I t) {s : σ}
    (h : m.Reaches admits s) : I s := by
  induction h with
  | init => exact hinit
  | step _ l hadmits htaken ih => exact hstep _ l _ ih hadmits htaken

theorem Reaches.weaken {admits' : ℓ → σ → Prop} {s : σ} (h : m.Reaches admits s)
    (hweaker : ∀ l s, admits l s → admits' l s) : m.Reaches admits' s := by
  induction h with
  | init => exact .init
  | step _ l hadmits htaken ih => exact ih.step l (hweaker _ _ hadmits) htaken

def exec (m : Machine σ ℓ) : List ℓ → σ → Option σ
  | [], s => some s
  | l :: rest, s => (m.step l s).bind (m.exec rest)

theorem Reaches.exec_of_admits {labels : List ℓ} {s t : σ} (hs : m.Reaches admits s)
    (hadmits : ∀ l ∈ labels, ∀ u, admits l u) (h : m.exec labels s = some t) :
    m.Reaches admits t := by
  induction labels generalizing s with
  | nil =>
      obtain rfl : s = t := Option.some.inj h
      exact hs
  | cons l rest ih =>
      obtain ⟨u, hu, hrest⟩ := Option.bind_eq_some_iff.mp h
      exact ih (hs.step l (hadmits l List.mem_cons_self s) hu)
        (fun l' hl' => hadmits l' (List.mem_cons_of_mem _ hl')) hrest

theorem Reaches.exec {labels : List ℓ} {s t : σ} (hs : m.Reaches (fun _ _ => True) s)
    (h : m.exec labels s = some t) : m.Reaches (fun _ _ => True) t :=
  hs.exec_of_admits (fun _ _ _ => trivial) h

end Machine

end Libcrpm.Program
