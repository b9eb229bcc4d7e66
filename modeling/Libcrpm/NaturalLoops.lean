import Libcrpm.ControlFlow
import Mathlib.Data.List.Basic

/-!
# Loops of a function

What `llvm::LoopInfo` promises of a loop and its preheader, and what the end of the preheader
dominates.
-/

namespace Libcrpm

open Relation

namespace ControlFlow

variable {B : Type} (f : ControlFlow B)

def terminator (b : B) : Inst B := ⟨b, f.size b - 1⟩

def isTerminator (x : Inst B) : Bool := x.pos + 1 = f.size x.parent

/-- The first instruction of `b` at `pos` or behind that `accepts` takes. -/
def findFrom (accepts : Inst B → Bool) (b : B) (pos : Nat) : Option (Inst B) :=
  ((List.range' pos (f.size b - pos)).map (Inst.mk b)).find? accepts

variable {f}

theorem findFrom_eq_some {accepts : Inst B → Bool} {b : B} {pos : Nat} {x : Inst B}
    (h : f.findFrom accepts b pos = some x) :
    x.parent = b ∧ pos ≤ x.pos ∧ x.pos < f.size b ∧ accepts x = true ∧
      ∀ p, pos ≤ p → p < x.pos → accepts ⟨b, p⟩ = false := by
  unfold findFrom at h
  rw [List.find?_map, Option.map_eq_some_iff] at h
  obtain ⟨p, hp, rfl⟩ := h
  rw [List.find?_range'_eq_some] at hp
  obtain ⟨haccepts, hmem, hbefore⟩ := hp
  have hrange := List.mem_range'_1.mp hmem
  refine ⟨rfl, hrange.1, by simp only; omega, haccepts, fun q hq hlt => ?_⟩
  simpa using hbefore q hq hlt

theorem reachable_top {x : Inst B} (h : f.Reachable x) : f.Reachable ⟨x.parent, 0⟩ := by
  induction h with
  | refl => exact .refl
  | tail hsteps hstep ih =>
      cases hstep with
      | next _ => exact ih
      | jump hend hpred => exact hsteps.tail (.jump hend hpred)

theorem reachable_of_top {b : B} {p : Nat} (h : f.Reachable ⟨b, 0⟩) (hp : p < f.size b) :
    f.Reachable ⟨b, p⟩ := by
  induction p with
  | zero => exact h
  | succ p ih => exact (ih (Nat.lt_of_succ_lt hp)).tail (.next hp)

end ControlFlow

open ControlFlow

/-- `llvm::Loop`.  Its blocks can be reached, an execution gets into them through the header
only, and `getLoopPreheader` is the one block outside that leads to the header. -/
structure NaturalLoop {B : Type} (f : ControlFlow B) where
  header : B
  basicBlocks : List B
  preHeader : Option B
  entry_out : f.entry ∉ basicBlocks
  reachable : ∀ b ∈ basicBlocks, f.Reachable ⟨b, 0⟩
  entered : ∀ b ∈ basicBlocks, ∀ p ∈ f.predecessors b, f.Reachable ⟨p, 0⟩ → p ∉ basicBlocks →
    b = header
  preHeader_out : ∀ p, preHeader = some p → p ∉ basicBlocks
  preHeader_only : ∀ p, preHeader = some p → ∀ q ∈ f.predecessors header, q ∉ basicBlocks → q = p

namespace NaturalLoop

variable {B : Type} {f : ControlFlow B} (loop : NaturalLoop f) {preHeader : B}

theorem step_into (hpre : loop.preHeader = some preHeader) {y z : Inst B} (hstep : f.Step y z)
    (hy : f.Reachable y) (hout : y.parent ∉ loop.basicBlocks) (hin : z.parent ∈ loop.basicBlocks) :
    y = f.terminator preHeader := by
  cases hstep with
  | next _ => exact absurd hin hout
  | @jump b b' pos hend hpred =>
      obtain rfl := loop.entered b' hin b hpred (reachable_top hy) hout
      obtain rfl := loop.preHeader_only preHeader hpre b hpred hout
      rw [terminator, ← hend, Nat.add_sub_cancel]

/-- An execution comes to a loop from the end of its preheader. -/
theorem from_preHeader (hpre : loop.preHeader = some preHeader) {x : Inst B} (hx : f.Reachable x)
    (hin : x.parent ∈ loop.basicBlocks) : f.Reachable (f.terminator preHeader) ∧
      ReflTransGen (fun y z => f.Step y z ∧ z.parent ∈ loop.basicBlocks)
        (f.terminator preHeader) x := by
  induction hx with
  | refl => exact absurd hin loop.entry_out
  | @tail y z hy hstep ih =>
      by_cases hout : y.parent ∈ loop.basicBlocks
      · obtain ⟨hreach, hsteps⟩ := ih hout
        exact ⟨hreach, hsteps.tail ⟨hstep, hin⟩⟩
      · have heq := loop.step_into hpre hstep hy hout hin
        subst heq
        exact ⟨hy, .single ⟨hstep, hin⟩⟩

theorem preHeader_dominates (hpre : loop.preHeader = some preHeader) {x : Inst B}
    (hin : x.parent ∈ loop.basicBlocks) : f.Dominates (f.terminator preHeader) x := by
  by_cases hfirst : f.terminator preHeader = f.first
  · exact Or.inl hfirst
  refine Or.inr fun hsteps => ?_
  have hout : x.parent ∉ loop.basicBlocks := by
    clear hin
    induction hsteps with
    | refl => exact loop.entry_out
    | @tail y z hy hstep ih =>
        intro hz
        have heq := loop.step_into hpre hstep.1 (reachable_of_avoiding .refl hy) ih hz
        rcases ReflTransGen.cases_tail hy with hsame | ⟨_, _, hlast⟩
        · exact hfirst (heq.symm.trans hsame)
        · exact hlast.2 heq
  exact hout hin

theorem dominates_preHeader (hpre : loop.preHeader = some preHeader) {d x : Inst B}
    (hdom : f.Dominates d x) (hx : f.Reachable x) (hin : x.parent ∈ loop.basicBlocks)
    (hout : d.parent ∉ loop.basicBlocks) : f.Dominates d (f.terminator preHeader) := by
  rcases hdom with hfirst | hdom
  · exact Or.inl hfirst
  refine Or.inr fun hsteps => hdom (hsteps.trans ?_)
  refine ReflTransGen.mono ?_ _ _ (loop.from_preHeader hpre hx hin).2
  rintro y z ⟨hstep, hz⟩
  refine ⟨hstep, ?_⟩
  rintro rfl
  exact hout hz

end NaturalLoop

end Libcrpm
