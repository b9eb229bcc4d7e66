import Libcrpm.Graph.Saturation
import Libcrpm.PointerState
import Libcrpm.Registry
import Mathlib.Data.Fin.VecNotation
import Mathlib.Tactic.FinCases

/-!
# Calls that may take a checkpoint

`FunctionContext::findCheckpointCalls` and `findIncomingArguments` of the instrumentation pass,
and the loop of `ModuleContext::checkCheckpointCalls` over the sets they fill.
-/

namespace Libcrpm

open Relation

def checkpointFuncs : List String :=
  ["_ZN5crpm10MemoryPool10checkpointEm", "crpm_checkpoint", "crpm_mpi_checkpoint"]

/-- A module in which every instruction knows its function. -/
structure LinkedModule (F V : Type) extends ModuleContext F V where
  getFunction_of_mem : ∀ f, ∀ v ∈ (function f).body, getFunction v = f

namespace LinkedModule

-- The sets of instructions are sets of pointers, which the order of `V` stands for.
variable {F V : Type} [DecidableEq F] [LinearOrder V] (m : LinkedModule F V)

def calledFunction (inst : V) : Option F :=
  match m.kind inst with
  | .call callee _ => callee
  | _ => none

def isCheckpointFunc (f : F) : Bool := (m.function f).name ∈ checkpointFuncs

/-- What `findCheckpointCalls` does for one instruction. -/
def checkpointCallsOfInst (calls : Finset V) (inst : V) : Finset V :=
  match m.calledFunction inst with
  | some callee => if m.isCheckpointFunc callee then insert inst calls else calls
  | none => calls

def findCheckpointCalls (f : F) : Finset V :=
  if m.isInstrumented f then (m.function f).body.foldl m.checkpointCallsOfInst ∅ else ∅

def incomingCalls (callee : F) : Finset V :=
  (m.functions.flatMap fun f =>
    (m.function f).body.filter fun inst => m.calledFunction inst = some callee).toFinset

/-- The body of the inner loop, with `CheckpointCalls` of all functions and `Success`. -/
def visitCall (s : (F → Finset V) × Bool) (call : V) : (F → Finset V) × Bool :=
  let foreignFunc := m.getFunction call
  if m.isInstrumented foreignFunc ∧ call ∉ s.1 foreignFunc then
    (Function.update s.1 foreignFunc (insert call (s.1 foreignFunc)), true)
  else s

def visitFunction (s : (F → Finset V) × Bool) (f : F) : (F → Finset V) × Bool :=
  if s.1 f = ∅ then s else (inOrder (m.incomingCalls f)).foldl m.visitCall s

def visitFunctions (calls : F → Finset V) : (F → Finset V) × Bool :=
  m.functions.foldl m.visitFunction (calls, false)

def checkCheckpointCalls (fuel : Nat) : Option (F → Finset V) :=
  Graph.saturate m.visitFunctions fuel m.findCheckpointCalls

/-! ## Reachable checkpoints -/

def DirectCall (f g : F) : Prop :=
  m.isInstrumented f = true ∧ m.isInstrumented g = true ∧
    ∃ call ∈ (m.function f).body, m.calledFunction call = some g

def CallsCheckpoint (f : F) : Prop :=
  ∃ call ∈ (m.function f).body, ∃ g, m.calledFunction call = some g ∧ m.isCheckpointFunc g = true

/-- A call of a checkpoint function can be reached from the function. -/
def ReachesCheckpoint (f : F) : Prop := ∃ g, ReflTransGen m.DirectCall f g ∧ m.CallsCheckpoint g

def MayCheckpoint (callee : F) : Prop :=
  m.isCheckpointFunc callee = true ∨ m.isInstrumented callee = true ∧ m.ReachesCheckpoint callee

/-! ## The tables -/

variable {m} {f callee : F} {call : V}

omit [LinearOrder V] in
theorem mem_functions : f ∈ m.functions ↔ m.isInstrumented f = true := by
  rw [ModuleContext.functions, List.mem_filter, and_iff_right_iff_imp]
  intro hinst
  simp only [ModuleContext.isInstrumented, Bool.and_eq_true, decide_eq_true_eq] at hinst
  exact hinst.1.1.1

omit [DecidableEq F] in
theorem mem_foldl_checkpointCallsOfInst {insts : List V} {calls : Finset V} :
    call ∈ insts.foldl m.checkpointCallsOfInst calls ↔ call ∈ calls ∨
      call ∈ insts ∧ ∃ g, m.calledFunction call = some g ∧ m.isCheckpointFunc g = true := by
  induction insts generalizing calls with
  | nil => simp
  | cons inst insts ih =>
      have hinst : call ∈ m.checkpointCallsOfInst calls inst ↔ call ∈ calls ∨ call = inst ∧
          ∃ g, m.calledFunction call = some g ∧ m.isCheckpointFunc g = true := by
        unfold checkpointCallsOfInst
        cases hcallee : m.calledFunction inst with
        | none =>
            refine ⟨Or.inl, ?_⟩
            rintro (hold | ⟨rfl, g, hg, -⟩)
            · exact hold
            · rw [hcallee] at hg
              cases hg
        | some g =>
            dsimp only
            split
            · rename_i hcheckpoint
              rw [Finset.mem_insert, or_comm]
              refine or_congr_right ⟨?_, fun h => h.1⟩
              rintro rfl
              exact ⟨rfl, g, hcallee, hcheckpoint⟩
            · rename_i hnot
              refine ⟨Or.inl, ?_⟩
              rintro (hold | ⟨rfl, g', hg', hcheckpoint⟩)
              · exact hold
              · rw [hcallee] at hg'
                obtain rfl := Option.some.inj hg'
                exact absurd hcheckpoint hnot
      rw [List.foldl_cons, ih, hinst, List.mem_cons, or_assoc, ← or_and_right]

theorem mem_findCheckpointCalls : call ∈ m.findCheckpointCalls f ↔ m.isInstrumented f = true ∧
    call ∈ (m.function f).body ∧
      ∃ g, m.calledFunction call = some g ∧ m.isCheckpointFunc g = true := by
  rw [findCheckpointCalls]
  split
  · rename_i hinst
    rw [mem_foldl_checkpointCallsOfInst]
    simp [hinst]
  · rename_i hinst
    simp [hinst]

theorem mem_incomingCalls : call ∈ m.incomingCalls callee ↔ ∃ f, m.isInstrumented f = true ∧
    call ∈ (m.function f).body ∧ m.calledFunction call = some callee := by
  simp only [incomingCalls, List.mem_toFinset, List.mem_flatMap, mem_functions, List.mem_filter,
    decide_eq_true_eq]

/-! ## One pass -/

theorem mem_visitCall {s : (F → Finset V) × Bool} {inst : V} :
    inst ∈ (m.visitCall s call).1 f ↔ inst ∈ s.1 f ∨
      m.isInstrumented f = true ∧ f = m.getFunction call ∧ inst = call := by
  by_cases hnew : m.isInstrumented (m.getFunction call) = true ∧ call ∉ s.1 (m.getFunction call)
  · simp only [visitCall, if_pos hnew]
    by_cases hf : f = m.getFunction call
    · subst hf
      rw [Function.update_self, Finset.mem_insert, or_comm]
      simp [hnew.1]
    · rw [Function.update_of_ne hf]
      simp [hf]
  · simp only [visitCall, if_neg hnew]
    refine ⟨Or.inl, ?_⟩
    rintro (hold | ⟨hinst, rfl, rfl⟩)
    · exact hold
    · by_contra hnot
      exact hnew ⟨hinst, hnot⟩

theorem visitCall_grows : Graph.Grows m.visitCall := by
  intro s call
  refine ⟨fun f inst hold => mem_visitCall.mpr (Or.inl hold), ?_⟩
  by_cases hnew : m.isInstrumented (m.getFunction call) = true ∧ call ∉ s.1 (m.getFunction call)
  · have hflag : (m.visitCall s call).2 = true := by simp only [visitCall, if_pos hnew]
    refine iff_of_true hflag (Or.inr fun heq => hnew.2 ?_)
    rw [← heq]
    exact mem_visitCall.mpr (Or.inr ⟨hnew.1, rfl, rfl⟩)
  · have hsame : m.visitCall s call = s := by simp only [visitCall, if_neg hnew]
    rw [hsame]
    simp

theorem visitFunction_grows : Graph.Grows m.visitFunction := by
  intro s f
  unfold visitFunction
  split
  · exact ⟨le_rfl, by simp⟩
  · exact visitCall_grows.foldl _ s

/-- Every recorded call is one that may take a checkpoint, and those that do so directly are
recorded. -/
structure Justified (m : LinkedModule F V) (calls : F → Finset V) : Prop where
  direct : m.findCheckpointCalls ≤ calls
  instrumented : ∀ f, ∀ call ∈ calls f, m.isInstrumented f = true
  body : ∀ f, ∀ call ∈ calls f, call ∈ (m.function f).body
  reaches : ∀ f, ∀ call ∈ calls f, ∃ g, m.calledFunction call = some g ∧ m.MayCheckpoint g

theorem justified_findCheckpointCalls (m : LinkedModule F V) :
    Justified m m.findCheckpointCalls := by
  refine ⟨le_rfl, ?_, ?_, ?_⟩
  · intro f call hcall
    exact (mem_findCheckpointCalls.mp hcall).1
  · intro f call hcall
    exact (mem_findCheckpointCalls.mp hcall).2.1
  · intro f call hcall
    obtain ⟨g, hg, hcheckpoint⟩ := (mem_findCheckpointCalls.mp hcall).2.2
    exact ⟨g, hg, Or.inl hcheckpoint⟩

variable {calls : F → Finset V}

theorem Justified.reachesCheckpoint (h : Justified m calls) (hcall : call ∈ calls f) :
    m.ReachesCheckpoint f := by
  obtain ⟨g, hg, hmay⟩ := h.reaches f call hcall
  have hbody := h.body f call hcall
  rcases hmay with hcheckpoint | ⟨hinst, target, hchain, htarget⟩
  · exact ⟨f, .refl, call, hbody, g, hg, hcheckpoint⟩
  · have hdirect : m.DirectCall f g := ⟨h.instrumented f call hcall, hinst, call, hbody, hg⟩
    exact ⟨target, .head hdirect hchain, htarget⟩

theorem Justified.visitCall {flag : Bool} (h : Justified m calls)
    (hcallee : m.MayCheckpoint callee) (hcall : call ∈ m.incomingCalls callee) :
    Justified m (m.visitCall (calls, flag) call).1 := by
  obtain ⟨g, hinst, hbody, hcalled⟩ := mem_incomingCalls.mp hcall
  have hparent := m.getFunction_of_mem g call hbody
  have hcases : ∀ f, ∀ c ∈ (m.visitCall (calls, flag) call).1 f, c ∈ calls f ∨ f = g ∧ c = call := by
    intro f c hc
    exact (mem_visitCall.mp hc).imp id fun hnew => ⟨hnew.2.1.trans hparent, hnew.2.2⟩
  refine ⟨h.direct.trans (visitCall_grows (calls, flag) call).1, ?_, ?_, ?_⟩
  · intro f c hc
    rcases hcases f c hc with hold | ⟨rfl, rfl⟩
    · exact h.instrumented f c hold
    · exact hinst
  · intro f c hc
    rcases hcases f c hc with hold | ⟨rfl, rfl⟩
    · exact h.body f c hold
    · exact hbody
  · intro f c hc
    rcases hcases f c hc with hold | ⟨rfl, rfl⟩
    · exact h.reaches f c hold
    · exact ⟨callee, hcalled, hcallee⟩

theorem Justified.visitFunction {flag : Bool} (h : Justified m calls)
    (hinst : m.isInstrumented f = true) : Justified m (m.visitFunction (calls, flag) f).1 := by
  unfold LinkedModule.visitFunction
  split
  · exact h
  · rename_i hsome
    obtain ⟨call, hcall⟩ := Finset.nonempty_iff_ne_empty.mpr hsome
    have hmay : m.MayCheckpoint f := Or.inr ⟨hinst, h.reachesCheckpoint hcall⟩
    refine List.foldlRecOn (motive := fun s : (F → Finset V) × Bool => Justified m s.1) _ _ h
      fun s hs c hc => ?_
    exact Justified.visitCall hs hmay (mem_inOrder.mp hc)

theorem Justified.visitFunctions (h : Justified m calls) :
    Justified m (m.visitFunctions calls).1 := by
  refine List.foldlRecOn (motive := fun s : (F → Finset V) × Bool => Justified m s.1) _ _ h
    fun s hs f hf => ?_
  exact Justified.visitFunction hs (mem_functions.mp hf)

/-! ## The loop -/

/-- The flag tells whether the pass has recorded a call. -/
theorem visitFunctions_flag (m : LinkedModule F V) (calls : F → Finset V) :
    calls ≤ (m.visitFunctions calls).1 ∧
      ((m.visitFunctions calls).2 = true ↔ (m.visitFunctions calls).1 ≠ calls) := by
  obtain ⟨hle, hflag⟩ := (visitFunction_grows (m := m)).foldl m.functions (calls, false)
  exact ⟨hle, hflag.trans (by simp [visitFunctions])⟩

/-- The call instructions that are not recorded yet. -/
def missing (m : LinkedModule F V) (calls : F → Finset V) : Finset V :=
  (m.functions.flatMap fun f => (m.function f).body).toFinset.filter
    fun call => call ∉ calls (m.getFunction call)

theorem Justified.missing_lt (h : Justified m calls) (hflag : (m.visitFunctions calls).2 = true) :
    (m.missing (m.visitFunctions calls).1).card < (m.missing calls).card := by
  obtain ⟨hle, hiff⟩ := m.visitFunctions_flag calls
  have hne := hiff.mp hflag
  obtain ⟨f, hf⟩ : ∃ f, ¬ (m.visitFunctions calls).1 f ⊆ calls f := by
    by_contra hall
    push Not at hall
    exact hne (le_antisymm hall hle)
  obtain ⟨call, hnew, hold⟩ := Finset.not_subset.mp hf
  have hnext := h.visitFunctions
  have hbody := hnext.body f call hnew
  have hparent := m.getFunction_of_mem f call hbody
  apply Finset.card_lt_card
  refine (Finset.ssubset_iff_of_subset ?_).mpr ⟨call, ?_, ?_⟩
  · apply Finset.monotone_filter_right
    intro inst _ hmiss hin
    exact hmiss (hle _ hin)
  · rw [missing, Finset.mem_filter, List.mem_toFinset, List.mem_flatMap, hparent]
    exact ⟨⟨f, mem_functions.mpr (hnext.instrumented f call hnew), hbody⟩, hold⟩
  · rw [missing, Finset.mem_filter, hparent]
    exact fun hmiss => hmiss.2 hnew

/-- The calls of every function with a recorded call are recorded. -/
def Closed (m : LinkedModule F V) (calls : F → Finset V) : Prop :=
  ∀ f, m.isInstrumented f = true → calls f ≠ ∅ →
    ∀ call ∈ m.incomingCalls f, call ∈ calls (m.getFunction call)

/-- A pass that leaves the flag down has found the sets closed. -/
theorem closed_of_visitFunctions (hflag : (m.visitFunctions calls).2 = false) :
    (m.visitFunctions calls).1 = calls ∧ Closed m calls := by
  have hsame := visitFunction_grows.foldl_fixed hflag
  have hkept : (m.visitFunctions calls).1 = calls := by
    by_contra hne
    rw [(m.visitFunctions_flag calls).2.mpr hne] at hflag
    exact absurd hflag.symm Bool.false_ne_true
  refine ⟨hkept, fun f hinst hsome call hcall => ?_⟩
  have hvisit := hsame f (mem_functions.mpr hinst)
  rw [visitFunction, if_neg hsome] at hvisit
  have hdown : ((inOrder (m.incomingCalls f)).foldl m.visitCall (calls, false)).2 = false := by
    rw [hvisit]
  have hfixed := visitCall_grows.foldl_fixed hdown call (mem_inOrder.mpr hcall)
  obtain ⟨g, hg, hbody, -⟩ := mem_incomingCalls.mp hcall
  have hparent := m.getFunction_of_mem g call hbody
  have hin : call ∈ (m.visitCall (calls, false) call).1 (m.getFunction call) :=
    mem_visitCall.mpr (Or.inr ⟨hparent ▸ hg, rfl, rfl⟩)
  rwa [hfixed] at hin

theorem Closed.nonempty (hclosed : Closed m calls) (h : Justified m calls)
    (hinst : m.isInstrumented f = true) (hreach : m.ReachesCheckpoint f) : (calls f).Nonempty := by
  obtain ⟨target, hchain, call, hbody, g, hcalled, hcheckpoint⟩ := hreach
  induction hchain using ReflTransGen.head_induction_on with
  | refl =>
      have hdirect := mem_findCheckpointCalls.mpr ⟨hinst, hbody, g, hcalled, hcheckpoint⟩
      exact ⟨call, h.direct target hdirect⟩
  | head hdirect _ ih =>
      obtain ⟨hcaller, hcallee, inner, hinner, hinnerCalled⟩ := hdirect
      have hsome := Finset.nonempty_iff_ne_empty.mp (ih hcallee)
      have hin := hclosed _ hcallee hsome inner
        (mem_incomingCalls.mpr ⟨_, hcaller, hinner, hinnerCalled⟩)
      rw [m.getFunction_of_mem _ inner hinner] at hin
      exact ⟨inner, hin⟩

theorem Closed.mem_iff (hclosed : Closed m calls) (h : Justified m calls)
    (hinst : m.isInstrumented f = true) (hbody : call ∈ (m.function f).body)
    (hcalled : m.calledFunction call = some callee) :
    call ∈ calls f ↔ m.MayCheckpoint callee := by
  constructor
  · intro hcall
    obtain ⟨g, hg, hmay⟩ := h.reaches f call hcall
    rw [hcalled] at hg
    rwa [Option.some.inj hg]
  · rintro (hcheckpoint | ⟨hcallee, hreach⟩)
    · exact h.direct f (mem_findCheckpointCalls.mpr ⟨hinst, hbody, callee, hcalled, hcheckpoint⟩)
    · have hsome := Finset.nonempty_iff_ne_empty.mp (hclosed.nonempty h hcallee hreach)
      have hin := hclosed callee hcallee hsome call
        (mem_incomingCalls.mpr ⟨f, hinst, hbody, hcalled⟩)
      rwa [m.getFunction_of_mem f call hbody] at hin

/-- The loop ends, and then a direct call of an instrumented function is recorded if and only if
its callee is a checkpoint function or reaches one. -/
theorem checkCheckpointCalls_closure (m : LinkedModule F V) :
    (∃ fuel calls, m.checkCheckpointCalls fuel = some calls) ∧
    ∀ fuel calls, m.checkCheckpointCalls fuel = some calls →
      ∀ f call callee, m.isInstrumented f = true → call ∈ (m.function f).body →
        m.calledFunction call = some callee →
        (call ∈ calls f ↔ m.isCheckpointFunc callee = true ∨ m.isInstrumented callee = true ∧
          ∃ g, ReflTransGen m.DirectCall callee g ∧ m.CallsCheckpoint g) := by
  have hstart := justified_findCheckpointCalls m
  have hkeep : ∀ calls, Justified m calls → Justified m (m.visitFunctions calls).1 :=
    fun _ h => h.visitFunctions
  constructor
  · exact Graph.saturate_ends (fun calls => (m.missing calls).card) hkeep
      (fun _ h hflag => h.missing_lt hflag) hstart
  · intro fuel calls hrun f call callee hinst hbody hcalled
    obtain ⟨before, hbefore, hpass⟩ := Graph.saturate_done hkeep hstart hrun
    obtain ⟨hsame, hclosed⟩ := closed_of_visitFunctions (show (m.visitFunctions before).2 = false by
      rw [hpass])
    rw [hpass] at hsame
    obtain rfl : calls = before := hsame
    exact hclosed.mem_iff hbefore hinst hbody hcalled

/-- `main() { step(); }` and `step() { step(); crpm_checkpoint(); }`. -/
def recursiveCalls : LinkedModule (Fin 4) (Fin 4) where
  functionList := [0, 1, 2, 3]
  function := ![⟨"main", false, false, true, [], [0, 3], []⟩,
    ⟨"step", false, false, true, [], [1, 2], []⟩,
    ⟨"crpm_checkpoint", true, false, true, [], [], []⟩,
    ⟨"report", true, false, true, [], [], []⟩]
  kind v := .call (some (![1, 1, 2, 3] v)) []
  getFunction := ![0, 1, 1, 0]
  args_kind f v hv := by fin_cases f <;> simp at hv
  operand_parent _ _ _ _ _ h u hu := by
    cases h
    simp at hu
  getFunction_of_mem f v hv := by
    fin_cases f <;> fin_cases v <;> simp at hv <;> rfl

theorem checkCheckpointCalls_recursiveCalls : ∃ fuel calls,
    recursiveCalls.checkCheckpointCalls fuel = some calls ∧ 0 ∈ calls 0 := by
  obtain ⟨⟨fuel, calls, hrun⟩, hmem⟩ := checkCheckpointCalls_closure recursiveCalls
  have hcheckpoint : recursiveCalls.CallsCheckpoint 1 := ⟨2, by decide, 2, rfl, by decide⟩
  refine ⟨fuel, calls, hrun, ?_⟩
  exact (hmem fuel calls hrun 0 0 1 (by decide) (by decide) rfl).mpr
    (Or.inr ⟨by decide, 1, .refl, hcheckpoint⟩)

end LinkedModule

end Libcrpm
