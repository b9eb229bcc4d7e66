import Libcrpm.ControlFlow

/-!
# Executions of a function

The instructions an execution comes to, one after the other, with the values that the
operands have at each of them.
-/

namespace Libcrpm

open Relation

/-- An execution of `length` instructions; `value t` are the values when it comes to the
`t`-th of them. -/
structure Execution {B : Type} (f : ControlFlow B) (V W : Type) where
  length : Nat
  inst : Nat → Inst B
  value : Nat → V → W
  first : inst 0 = f.first
  step : ∀ t, t + 1 < length → f.Step (inst t) (inst (t + 1))

namespace Execution

variable {B V W : Type} {f : ControlFlow B} (e : Execution f V W)

/-- No checkpoint is taken from the `s`-th instruction on until the `t`-th is reached. -/
def SameInterval (checkpointCalls : List (Inst B)) (s t : Nat) : Prop :=
  s ≤ t ∧ ∀ k, s ≤ k → k < t → e.inst k ∉ checkpointCalls

theorem sameInterval_self (checkpointCalls : List (Inst B)) (t : Nat) :
    e.SameInterval checkpointCalls t t :=
  ⟨Nat.le_refl t, fun _ hle hlt => absurd hlt (Nat.not_lt.mpr hle)⟩

end Execution

end Libcrpm
