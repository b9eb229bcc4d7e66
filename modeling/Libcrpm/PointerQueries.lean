import Libcrpm.PointerState
import Libcrpm.Graph.Cycles
import Mathlib.Data.Fin.VecNotation
import Mathlib.Data.Fintype.Prod
import Mathlib.Tactic.FinCases

/-!
# When `getMemoryPointerState` returns

`discoverDependency` goes from a value to what it is computed from.  A question is a function
and a value in it: an argument leads to the operands of the recorded calls, a call to what
the called function returns.
-/

namespace Libcrpm.ModuleContext

open Relation Libcrpm.Graph

variable {F V : Type} (m : ModuleContext F V)

/-! ## One search -/

def Flow (v u : V) : Prop := u ∈ (m.kind v).sources

/-- A round of the loop in `discoverDependency` that takes a cast or an address computation
off. -/
def Strips (v u : V) : Prop := m.kind v = .castInst u ∨ m.kind v = .getElementPtr u

/-- Operands lead from `v` to casts and address computations that lead back to themselves. -/
def MeetsStrippedCycle (v : V) : Prop := ∃ u, ReflTransGen m.Flow v u ∧ TransGen m.Strips u u

variable {m}

theorem Strips.flow {v u : V} (h : m.Strips v u) : m.Flow v u := by
  rcases h with h | h <;> simp [Flow, h, ValueKind.sources]

theorem Strips.not_phi {v u : V} (h : m.Strips v u) : (m.kind v).isPhi = false := by
  rcases h with h | h <;> rw [h] <;> rfl

variable [DecidableEq V]

/-- A path in which no node of `seen` comes after the start. -/
def Unseen (m : ModuleContext F V) (seen : Finset V) : V → V → Prop :=
  ReflTransGen fun a b => m.Flow a b ∧ b ∉ seen

omit [DecidableEq V] in
theorem Unseen.through {seen : Finset V} {v u r : V} (h : m.Unseen seen v r) (hne : v ≠ r)
    (hsources : (m.kind v).sources = [u]) : u ∉ seen ∧ m.Unseen seen u r := by
  rcases ReflTransGen.cases_head h with rfl | ⟨w, ⟨hflow, hnot⟩, hrest⟩
  · exact absurd rfl hne
  · rw [Flow, hsources, List.mem_singleton] at hflow
    subst hflow
    exact ⟨hnot, hrest⟩

theorem Unseen.through_phi {seen : Finset V} {v r : V} (h : m.Unseen seen v r) (hne : r ≠ v) :
    ∃ u, m.Flow v u ∧ u ∉ insert v seen ∧ m.Unseen (insert v seen) u r := by
  obtain ⟨u, ⟨hflow, hnot⟩, hune, hrest⟩ := last_visit h hne
  refine ⟨u, hflow, by simp [hune, hnot], ?_⟩
  exact ReflTransGen.mono (fun a b hab => ⟨hab.1.1, by simp [hab.1.2, hab.2]⟩) _ _ hrest

omit [DecidableEq V] in
/-- A search can go round a cycle of casts and address computations, which are never seen. -/
theorem unseen_of_cycle {seen : Finset V} (hseen : ∀ w ∈ seen, (m.kind w).isPhi = true) {v u : V}
    (hsteps : ReflTransGen m.Strips v u) (hcycle : TransGen m.Strips u u) : m.Unseen seen v u := by
  induction hsteps using ReflTransGen.head_induction_on with
  | refl => exact .refl
  | @head v w hstep hsteps ih =>
      obtain ⟨x, hnext⟩ : ∃ x, m.Strips w x := by
        rcases ReflTransGen.cases_head hsteps with rfl | ⟨x, hnext, _⟩
        · obtain ⟨x, hnext, _⟩ := TransGen.head'_iff.mp hcycle
          exact ⟨x, hnext⟩
        · exact ⟨x, hnext⟩
      refine ReflTransGen.head ⟨hstep.flow, fun hin => ?_⟩ ih
      have hphi := hseen w hin
      rw [hnext.not_phi] at hphi
      cases hphi

theorem discoverDependency_strips {depth : Nat} {seen : Finset V} {v u : V} (hv : v ∉ seen)
    (h : m.Strips v u) :
    m.discoverDependency (depth + 1) seen v = m.discoverDependency depth seen u := by
  rcases h with h | h
  · exact discoverDependency_cast hv h
  · exact discoverDependency_gep hv h

/-- No depth suffices on the way to such a cycle. -/
theorem discoverDependency_of_cycle (depth : Nat) {seen : Finset V} {v u : V}
    (hseen : ∀ w ∈ seen, (m.kind w).isPhi = true) (hv : v ∉ seen) (hpath : m.Unseen seen v u)
    (hcycle : TransGen m.Strips u u) : m.discoverDependency depth seen v = none := by
  induction depth generalizing seen v with
  | zero => rfl
  | succ depth ih =>
      obtain ⟨next, hnext, hback⟩ := TransGen.head'_iff.mp hcycle
      by_cases heq : v = u
      · subst heq
        rw [discoverDependency_strips hv hnext]
        refine ih hseen (fun hin => ?_) (unseen_of_cycle hseen hback hcycle)
        obtain ⟨x, hx⟩ : ∃ x, m.Strips next x := by
          rcases ReflTransGen.cases_head hback with rfl | ⟨x, hx, _⟩
          · exact ⟨next, hnext⟩
          · exact ⟨x, hx⟩
        have hphi := hseen next hin
        rw [hx.not_phi] at hphi
        cases hphi
      · cases hkind : m.kind v with
        | castInst operand =>
            obtain ⟨hnot, hrest⟩ := hpath.through heq (by rw [hkind]; rfl)
            rw [discoverDependency_cast hv hkind]
            exact ih hseen hnot hrest
        | getElementPtr pointer =>
            obtain ⟨hnot, hrest⟩ := hpath.through heq (by rw [hkind]; rfl)
            rw [discoverDependency_gep hv hkind]
            exact ih hseen hnot hrest
        | phiNode incoming =>
            obtain ⟨w, hflow, hnot, hrest⟩ := hpath.through_phi (Ne.symm heq)
            have hseen' : ∀ x ∈ insert v seen, (m.kind x).isPhi = true :=
              (Finset.forall_mem_insert _ _ _).mpr ⟨by rw [hkind]; rfl, hseen⟩
            have hnone := ih hseen' hnot hrest
            rw [Flow, hkind] at hflow
            rw [discoverDependency_phi hv hkind]
            cases hoperands : discoverOperands (m.discoverDependency depth (insert v seen))
                incoming with
            | none => rfl
            | some result =>
                obtain ⟨sink, hsink, -⟩ := discoverOperands_spec hoperands w hflow
                rw [hnone] at hsink
                cases hsink
        | _ =>
            rcases ReflTransGen.cases_head hpath with heq' | ⟨w, ⟨hflow, _⟩, _⟩
            · exact absurd heq' heq
            · rw [Flow, hkind] at hflow
              cases hflow

omit [DecidableEq V] in
theorem exists_common_depth {α : Type} {P : Nat → α → Prop}
    (hmono : ∀ depth depth' a, depth ≤ depth' → P depth a → P depth' a) {l : List α}
    (h : ∀ a ∈ l, ∃ depth, P depth a) : ∃ depth, ∀ a ∈ l, P depth a := by
  induction l with
  | nil => exact ⟨0, by simp⟩
  | cons a rest ih =>
      obtain ⟨depth, hdepth⟩ := h a List.mem_cons_self
      obtain ⟨depth', hrest⟩ := ih fun a' ha' => h a' (List.mem_cons_of_mem _ ha')
      refine ⟨max depth depth', fun a' ha' => ?_⟩
      rcases List.mem_cons.mp ha' with rfl | hin
      · exact hmono _ _ _ (Nat.le_max_left _ _) hdepth
      · exact hmono _ _ _ (Nat.le_max_right _ _) (hrest a' hin)

theorem exists_discoverDependency [Fintype V] {v : V} (h : ¬ m.MeetsStrippedCycle v)
    (seen : Finset V) : ∃ depth sink, m.discoverDependency depth seen v = some sink := by
  induction hcard : (Finset.univ \ seen).card using Nat.strong_induction_on generalizing v seen with
  | _ n ihseen =>
  have hacc : Acc (flip m.Strips) v := by
    refine acc_of_not_meetsCycle fun hmeets => ?_
    obtain ⟨u, hsteps, hcycle⟩ := hmeets
    exact h ⟨u, ReflTransGen.mono (fun _ _ => Strips.flow) _ _ hsteps, hcycle⟩
  induction hacc with
  | intro v _ ihstrips =>
      by_cases hv : v ∈ seen
      · exact ⟨1, none, by rw [discoverDependency, if_pos hv]⟩
      have hflow : ∀ u, m.Flow v u → ¬ m.MeetsStrippedCycle u := by
        rintro u hu ⟨w, hw, hcycle⟩
        exact h ⟨w, ReflTransGen.head hu hw, hcycle⟩
      have hstrip : ∀ u, m.Strips v u →
          ∃ depth sink, m.discoverDependency depth seen v = some sink := by
        intro u hu
        obtain ⟨depth, sink, hsink⟩ := ihstrips u hu (hflow u hu.flow)
        exact ⟨depth + 1, sink, by rw [discoverDependency_strips hv hu, hsink]⟩
      cases hkind : m.kind v with
      | castInst operand => exact hstrip operand (Or.inl hkind)
      | getElementPtr pointer => exact hstrip pointer (Or.inr hkind)
      | phiNode incoming =>
          have hless : (Finset.univ \ insert v seen).card < n := by
            rw [← hcard]
            refine Finset.card_lt_card ?_
            rw [Finset.ssubset_iff_of_subset
              (Finset.sdiff_subset_sdiff subset_rfl (Finset.subset_insert _ _))]
            exact ⟨v, by simp [hv], by simp⟩
          obtain ⟨depth, hdepth⟩ := exists_common_depth (l := incoming)
            (P := fun depth u => ∃ sink,
              m.discoverDependency depth (insert v seen) u = some sink)
            (fun _ _ _ hle hdone => hdone.imp fun _ => discoverDependency_mono hle)
            (fun u hu => ihseen _ hless (hflow u (by rw [Flow, hkind]; exact hu)) _ rfl)
          obtain ⟨result, hresult⟩ := discoverOperands_isSome hdepth
          refine ⟨depth + 1, ?_⟩
          rw [discoverDependency_phi hv hkind, hresult]
          simp only
          split
          · exact ⟨_, rfl⟩
          · exact ⟨_, rfl⟩
      | _ => exact ⟨1, some v, discoverDependency_self hv (by rw [hkind]; rfl) (by rw [hkind]; rfl)⟩

/-! ## The questions -/

variable [DecidableEq F]

variable (m) in
/-- The operands that the loop over the recorded calls asks about. -/
def askedValues (f : F) : List V → List V
  | [] => []
  | value :: rest =>
      match m.kind value with
      | .allocaInst | .globalVariable => askedValues f rest
      | kind =>
          if !kind.isInstruction then []
          else if !m.isInstrumented (m.getFunction value) || m.getFunction value = f then []
          else value :: askedValues f rest

variable (m) in
/-- The questions that the state of a sink needs. -/
def questionsOf (f : F) (sink : V) : List (F × V) :=
  match m.kind sink with
  | .argument =>
      if !m.isStaticFunction f then []
      else (m.askedValues f (m.incomingValues f sink)).map fun u => (m.getFunction u, u)
  | .call (some callee) _ =>
      if (m.function callee).name ∈ stdAllocFuncs then []
      else if (m.function callee).name ∈ persistentAllocFuncs then []
      else if !m.isInstrumented callee then []
      else (m.function callee).returnValues.map fun v => (callee, v)
  | _ => []

variable (m) in
/-- The answer to `q` needs the one to `q'`. -/
def Asks (q q' : F × V) : Prop := ∃ depth sink,
  m.discoverDependency depth ∅ q.2 = some (some sink) ∧ q' ∈ m.questionsOf q.1 sink

variable (m) in
def Answers (q : F × V) : Prop := ∃ depth state, m.getMemoryPointerState depth q.1 q.2 = some state

omit [DecidableEq V] in
theorem isSome_stateOfArgument {ask : F → V → Option PointerState} {f : F} {values : List V}
    (states : List PointerState) : (m.stateOfArgument ask f values states).isSome ↔
      ∀ u ∈ m.askedValues f values, (ask (m.getFunction u) u).isSome := by
  induction values generalizing states with
  | nil => simp [stateOfArgument, askedValues]
  | cons value rest ih =>
      rw [stateOfArgument, askedValues]
      cases m.kind value with
      | allocaInst => exact ih _
      | globalVariable => exact ih _
      | constant => simp [ValueKind.isInstruction]
      | argument => simp [ValueKind.isInstruction]
      | _ =>
          simp only [ValueKind.isInstruction, Bool.not_true, Bool.false_eq_true, if_false]
          split
          · simp
          · cases hask : ask (m.getFunction value) value with
            | none => simp [hask]
            | some state => simpa [hask] using ih (state :: states)

omit [DecidableEq V] [DecidableEq F] in
theorem isSome_stateOfReturns {ask : V → Option PointerState} {values : List V}
    (states : List PointerState) :
    (stateOfReturns ask values states).isSome ↔ ∀ v ∈ values, (ask v).isSome := by
  induction values generalizing states with
  | nil => simp [stateOfReturns]
  | cons value rest ih =>
      rw [stateOfReturns]
      cases hask : ask value with
      | none => simp [hask]
      | some state => simpa [hask] using ih (state :: states)

theorem isSome_stateOfSink {ask : F → V → Option PointerState} {f : F} {sink : V} :
    (m.stateOfSink ask f sink).isSome ↔ ∀ q ∈ m.questionsOf f sink, (ask q.1 q.2).isSome := by
  rw [questionsOf, stateOfSink]
  cases m.kind sink with
  | argument =>
      simp only
      split
      · simp
      · rw [isSome_stateOfArgument]
        simp
  | call callee args =>
      cases callee with
      | none => simp
      | some callee =>
          simp only
          split
          · simp
          · split
            · simp
            · split
              · simp
              · rw [isSome_stateOfReturns]
                simp
  | _ => simp

theorem isSome_getMemoryPointerState (depth : Nat) (q : F × V) :
    (m.getMemoryPointerState (depth + 1) q.1 q.2).isSome ↔
      ∃ sink, m.discoverDependency depth ∅ q.2 = some sink ∧
        ∀ w, sink = some w → ∀ q' ∈ m.questionsOf q.1 w,
          (m.getMemoryPointerState depth q'.1 q'.2).isSome := by
  rw [getMemoryPointerState]
  cases m.discoverDependency depth ∅ q.2 with
  | none => simp
  | some sink =>
      cases sink with
      | none => simp
      | some w => simp [isSome_stateOfSink]

theorem getMemoryPointerState_mono {depth depth' : Nat} (hle : depth ≤ depth') {q : F × V}
    (h : (m.getMemoryPointerState depth q.1 q.2).isSome) :
    (m.getMemoryPointerState depth' q.1 q.2).isSome := by
  induction depth generalizing depth' q with
  | zero => simp [getMemoryPointerState] at h
  | succ depth ih =>
      obtain ⟨depth', rfl⟩ : ∃ k, depth' = k + 1 := ⟨depth' - 1, by omega⟩
      rw [isSome_getMemoryPointerState] at h ⊢
      obtain ⟨sink, hsink, hquestions⟩ := h
      exact ⟨sink, discoverDependency_mono (by omega) hsink,
        fun w hw q' hq' => ih (by omega) (hquestions w hw q' hq')⟩

theorem answers_iff {q : F × V} : m.Answers q ↔
    ∃ depth, (m.getMemoryPointerState depth q.1 q.2).isSome := by
  simp only [Answers, Option.isSome_iff_exists]

theorem answers_of_asks {q q' : F × V} (h : m.Answers q) (hasks : m.Asks q q') : m.Answers q' := by
  obtain ⟨depth, hdepth⟩ := answers_iff.mp h
  obtain ⟨depth', w, hw, hq'⟩ := hasks
  cases depth with
  | zero => simp [getMemoryPointerState] at hdepth
  | succ depth =>
      rw [isSome_getMemoryPointerState] at hdepth
      obtain ⟨sink, hsink, hquestions⟩ := hdepth
      exact answers_iff.mpr ⟨depth, hquestions w (discoverDependency_unique hsink hw) q' hq'⟩

theorem acc_of_answers {q : F × V} (h : m.Answers q) : Acc (flip m.Asks) q := by
  obtain ⟨depth, hdepth⟩ := answers_iff.mp h
  clear h
  induction depth generalizing q with
  | zero => simp [getMemoryPointerState] at hdepth
  | succ depth ih =>
      rw [isSome_getMemoryPointerState] at hdepth
      obtain ⟨sink, hsink, hquestions⟩ := hdepth
      refine ⟨q, fun q' hasks => ?_⟩
      obtain ⟨depth', w, hw, hq'⟩ := hasks
      exact ih (hquestions w (discoverDependency_unique hsink hw) q' hq')

theorem not_meetsStrippedCycle_of_answers {q : F × V} (h : m.Answers q) :
    ¬ m.MeetsStrippedCycle q.2 := by
  rintro ⟨u, hpath, hcycle⟩
  obtain ⟨depth, hdepth⟩ := answers_iff.mp h
  cases depth with
  | zero => simp [getMemoryPointerState] at hdepth
  | succ depth =>
      rw [isSome_getMemoryPointerState] at hdepth
      obtain ⟨sink, hsink, -⟩ := hdepth
      have hunseen : m.Unseen ∅ q.2 u :=
        ReflTransGen.mono (fun _ b hab => ⟨hab, Finset.notMem_empty b⟩) _ _ hpath
      rw [discoverDependency_of_cycle depth (by simp) (Finset.notMem_empty _) hunseen hcycle] at hsink
      cases hsink

theorem answers_of_acc [Fintype V] {q : F × V} (h : Acc (flip m.Asks) q)
    (hends : ∀ q', ReflTransGen m.Asks q q' → ¬ m.MeetsStrippedCycle q'.2) : m.Answers q := by
  induction h with
  | intro q _ ih =>
      obtain ⟨depth, sink, hsink⟩ := exists_discoverDependency (hends q .refl) ∅
      obtain ⟨depth', hdepth'⟩ : ∃ depth', ∀ w, sink = some w → ∀ q' ∈ m.questionsOf q.1 w,
          (m.getMemoryPointerState depth' q'.1 q'.2).isSome := by
        cases sink with
        | none => exact ⟨0, by simp⟩
        | some w =>
            obtain ⟨depth', hall⟩ := exists_common_depth (l := m.questionsOf q.1 w)
              (P := fun depth q' => (m.getMemoryPointerState depth q'.1 q'.2).isSome)
              (fun _ _ _ hle => getMemoryPointerState_mono hle) fun q' hq' => by
                have hasks : m.Asks q q' := ⟨depth, w, hsink, hq'⟩
                exact answers_iff.mp (ih q' hasks fun q'' hq'' => hends q'' (.head hasks hq''))
            refine ⟨depth', fun w' hw' => ?_⟩
            obtain rfl := Option.some.inj hw'
            exact hall
      refine answers_iff.mpr ⟨max depth depth' + 1, (isSome_getMemoryPointerState _ q).mpr
        ⟨sink, discoverDependency_mono (Nat.le_max_left _ _) hsink, fun w hw q' hq' => ?_⟩⟩
      exact getMemoryPointerState_mono (Nat.le_max_right _ _) (hdepth' w hw q' hq')

theorem answers_of_reaches {q q' : F × V} (h : m.Answers q) (hreaches : ReflTransGen m.Asks q q') :
    m.Answers q' := by
  induction hreaches with
  | refl => exact h
  | tail _ hasks ih => exact answers_of_asks ih hasks

/-- `getMemoryPointerState` returns exactly when no chain of questions comes back to one that
has been asked before, or to a value whose operands are casts and address computations that
lead back to themselves. -/
theorem answers_iff_not_meetsCycle [Fintype F] [Fintype V] (m : ModuleContext F V) (f : F)
    (source : V) : m.Answers (f, source) ↔ ¬ MeetsCycle m.Asks (f, source) ∧
      ∀ q, ReflTransGen m.Asks (f, source) q → ¬ m.MeetsStrippedCycle q.2 := by
  constructor
  · intro h
    exact ⟨acc_iff_not_meetsCycle.mp (acc_of_answers h),
      fun q hq => not_meetsStrippedCycle_of_answers (answers_of_reaches h hq)⟩
  · rintro ⟨hcycle, hends⟩
    exact answers_of_acc (acc_iff_not_meetsCycle.mpr hcycle) hends

/-! ## Two functions that call each other -/

/-- `static f(x) { g(x + 1); }` and `static g(y) { f(y + 1); }`: the values are `x`, `x + 1`,
`y`, `y + 1` and the two calls. -/
def mutualCalls : ModuleContext Bool (Fin 6) where
  functionList := [false, true]
  function f := if f then ⟨"g", false, false, false, [2], [3, 5], []⟩
    else ⟨"f", false, false, false, [0], [1, 4], []⟩
  kind := ![.argument, .getElementPtr 0, .argument, .getElementPtr 2, .call (some true) [1],
    .call (some false) [3]]
  getFunction := ![false, false, true, true, false, true]
  args_kind f v hv := by
    cases f <;> simp at hv <;> subst hv <;> rfl
  operand_parent f v hv callee args h u hu hinst := by
    cases f <;> simp at hv <;> rcases hv with rfl | rfl <;> cases h <;> simp at hu <;> subst hu <;> rfl

/-- `%p = getelementptr %q` and `%q = getelementptr %p`, which LLVM accepts where no execution
comes. -/
def unreachableCycle : ModuleContext Unit (Fin 2) where
  functionList := [()]
  function _ := ⟨"f", false, false, true, [], [0, 1], []⟩
  kind := ![.getElementPtr 1, .getElementPtr 0]
  getFunction _ := ()
  args_kind _ _ hv := by simp at hv
  operand_parent _ v hv callee args h := by fin_cases v <;> cases h

/-- The state of `x + 1` is never found, and neither is that of `%p`. -/
theorem not_answers : ¬ mutualCalls.Answers (false, 1) ∧ ¬ unreachableCycle.Answers ((), 0) := by
  constructor
  · intro h
    have hf : mutualCalls.Asks (false, 1) (true, 3) := ⟨2, 0, by decide, by decide⟩
    have hg : mutualCalls.Asks (true, 3) (false, 1) := ⟨2, 2, by decide, by decide⟩
    exact not_meetsCycle_of_acc (acc_of_answers h)
      ⟨(false, 1), .refl, (TransGen.single hf).tail hg⟩
  · intro h
    have hp : unreachableCycle.Strips 0 1 := Or.inr rfl
    have hq : unreachableCycle.Strips 1 0 := Or.inr rfl
    exact not_meetsStrippedCycle_of_answers h ⟨0, .refl, (TransGen.single hp).tail hq⟩

end Libcrpm.ModuleContext
