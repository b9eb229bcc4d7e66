import Libcrpm.ExternalCalls
import Libcrpm.PointerQueries

/-!
# What a pointer holds in an execution

Executions of a module as far as pointers are concerned: where the addresses that the
values hold were obtained.  Control flow and memory are left open, so that a load may
give any address.
-/

namespace Libcrpm

open Relation

/-- Whether an address comes from a persistent allocation. -/
inductive Origin where
  | persistent | other
deriving DecidableEq

/-- A call that runs.  `callSite` is the instruction that waits for its result. -/
structure Frame (F V : Type) where
  function : F
  callSite : Option V
  value : V → Option Origin

namespace ModuleContext

variable {F V : Type} [DecidableEq F] [DecidableEq V] (m : ModuleContext F V)

def valueIn (frame : Frame F V) (v : V) : Option Origin :=
  match m.kind v with
  | .globalVariable | .constant => some .other
  | _ => frame.value v

def enter (callee : F) (callSite : Option V) (operands : List (Option Origin)) : Frame F V where
  function := callee
  callSite := callSite
  value v := (((m.function callee).args.zip operands).find? fun entry => entry.1 = v).bind Prod.snd

def IsStdAlloc (f : F) : Prop := (m.function f).name ∈ stdAllocFuncs

def IsPersistentAlloc (f : F) : Prop := (m.function f).name ∈ persistentAllocFuncs

/-- The result of an instruction that does not enter a function of the module. -/
inductive Computes (frame : Frame F V) : V → Origin → Prop
  | allocaInst {v : V} (h : m.kind v = .allocaInst) : Computes frame v .other
  | castInst {v operand : V} {o : Origin} (h : m.kind v = .castInst operand)
      (hvalue : m.valueIn frame operand = some o) : Computes frame v o
  | getElementPtr {v pointer : V} {o : Origin} (h : m.kind v = .getElementPtr pointer)
      (hvalue : m.valueIn frame pointer = some o) : Computes frame v o
  | phiNode {v u : V} {incoming : List V} {o : Origin} (h : m.kind v = .phiNode incoming)
      (hmem : u ∈ incoming) (hvalue : m.valueIn frame u = some o) : Computes frame v o
  | otherInst {v : V} (o : Origin) (h : m.kind v = .otherInst) : Computes frame v o
  | stdAlloc {v : V} {callee : F} {args : List V} (h : m.kind v = .call (some callee) args)
      (hname : m.IsStdAlloc callee) : Computes frame v .other
  | persistentAlloc {v : V} {callee : F} {args : List V} (h : m.kind v = .call (some callee) args)
      (hname : m.IsPersistentAlloc callee) (hstd : ¬ m.IsStdAlloc callee) :
      Computes frame v .persistent
  | external {v : V} {callee : F} {args : List V} (o : Origin)
      (h : m.kind v = .call (some callee) args) (hstd : ¬ m.IsStdAlloc callee)
      (hdecl : (m.function callee).isDeclaration = true) : Computes frame v o
  | externalIndirect {v : V} {args : List V} (o : Origin) (h : m.kind v = .call none args) :
      Computes frame v o

/-- One step of an execution; the innermost call comes first.  `admits` tells which functions
may be entered otherwise than by a direct call in an instrumented function. -/
inductive Step (admits : F → Prop) : List (Frame F V) → List (Frame F V) → Prop
  | compute {frame : Frame F V} {rest : List (Frame F V)} {v : V} {o : Origin}
      (hmem : v ∈ (m.function frame.function).body) (h : m.Computes frame v o) :
      Step admits (frame :: rest)
        ({ frame with value := Function.update frame.value v (some o) } :: rest)
  | call {frame : Frame F V} {rest : List (Frame F V)} {v : V} {callee : F} {args : List V}
      (hmem : v ∈ (m.function frame.function).body) (h : m.kind v = .call (some callee) args)
      (hstd : ¬ m.IsStdAlloc callee) (hpersistent : ¬ m.IsPersistentAlloc callee)
      (hadmits : m.isInstrumented frame.function = true ∨ admits callee) :
      Step admits (frame :: rest)
        (m.enter callee (some v) (args.map (m.valueIn frame)) :: frame :: rest)
  | callIndirect {frame : Frame F V} {rest : List (Frame F V)} {v : V} {callee : F} {args : List V}
      (hmem : v ∈ (m.function frame.function).body) (h : m.kind v = .call none args)
      (hadmits : admits callee) :
      Step admits (frame :: rest)
        (m.enter callee (some v) (args.map (m.valueIn frame)) :: frame :: rest)
  | enter {rest : List (Frame F V)} {callee : F} (operands : List (Option Origin))
      (hadmits : admits callee) : Step admits rest (m.enter callee none operands :: rest)
  | ret {frame below : Frame F V} {rest : List (Frame F V)} {v r : V} {o : Origin}
      (hsite : frame.callSite = some v) (hmem : r ∈ (m.function frame.function).returnValues)
      (hvalue : m.valueIn frame r = some o) :
      Step admits (frame :: below :: rest)
        ({ below with value := Function.update below.value v (some o) } :: rest)
  | leave {frame : Frame F V} {rest : List (Frame F V)} : Step admits (frame :: rest) rest

/-- The calls that run at some moment of an execution. -/
def Running (admits : F → Prop) (stack : List (Frame F V)) : Prop :=
  ReflTransGen (m.Step admits) [] stack

/-- No hook that goes names an address from a persistent allocation. -/
structure KeepsPersistentHooks {B : Type} (frame : Frame F V) (hooks kept : Hooks B V) : Prop where
  memoryStore : ∀ hook ∈ hooks.memoryStore, hook ∉ kept.memoryStore →
    m.valueIn frame hook.pointer ≠ some .persistent
  memoryBulkStore : ∀ hook ∈ hooks.memoryBulkStore, hook ∉ kept.memoryBulkStore →
    m.valueIn frame hook.2.1 ≠ some .persistent
  protectedExternalCalls : ∀ call ∈ hooks.protectedExternalCalls,
    call ∉ kept.protectedExternalCalls → m.valueIn frame call.1 ≠ some .persistent

/-- What is found volatile never holds an address from a persistent allocation, and the
hooks that are removed for it are none of stores to a pool. -/
def TransientSound (admits : F → Prop) : Prop :=
  ∀ stack, m.Running admits stack → ∀ frame ∈ stack, m.isInstrumented frame.function = true →
    ∀ depth,
      (∀ v, m.getMemoryPointerState depth frame.function v = some .volatile →
        m.valueIn frame v ≠ some .persistent) ∧
      ∀ (B : Type) (hooks : Hooks B V), m.KeepsPersistentHooks frame hooks
        (hooks.performTransientElimination fun v =>
          m.getMemoryPointerState depth frame.function v = some .volatile)

/-! ## Where a value comes from -/

/-- The values at the ends of all chains of operands. -/
def RootOf (v r : V) : Prop := ReflTransGen m.Flow v r ∧ (m.kind r).sources = [] ∧ (m.kind r).isPhi = false

section Roots

variable {m}

/-- The search from `v` has found `r`, or a phi node that stands for several roots. -/
def FindsRoot (m : ModuleContext F V) (r : V) (found : Option V) : Prop :=
  ∃ sink, found = some sink ∧ (sink = r ∨ (m.kind sink).isPhi = true)

omit [DecidableEq F] in
theorem discoverDependency_root {depth : Nat} {seen : Finset V} {v r : V} {found : Option V}
    (hv : v ∉ seen) (hpath : m.Unseen seen v r) (hroot : (m.kind r).sources = [])
    (hphi : (m.kind r).isPhi = false) (h : m.discoverDependency depth seen v = some found) :
    m.FindsRoot r found := by
  induction depth generalizing seen v found with
  | zero => cases h
  | succ depth ih =>
      cases hkind : m.kind v with
      | castInst operand =>
          have hne : v ≠ r := by
            rintro rfl
            rw [hkind] at hroot
            cases hroot
          obtain ⟨hnot, hrest⟩ := hpath.through hne (by rw [hkind]; rfl)
          rw [discoverDependency_cast hv hkind] at h
          exact ih hnot hrest h
      | getElementPtr pointer =>
          have hne : v ≠ r := by
            rintro rfl
            rw [hkind] at hroot
            cases hroot
          obtain ⟨hnot, hrest⟩ := hpath.through hne (by rw [hkind]; rfl)
          rw [discoverDependency_gep hv hkind] at h
          exact ih hnot hrest h
      | phiNode incoming =>
          have hne : r ≠ v := by
            rintro rfl
            rw [hkind] at hphi
            cases hphi
          obtain ⟨u, hflow, hnot, hrest⟩ := hpath.through_phi hne
          rw [Flow, hkind] at hflow
          rw [discoverDependency_phi hv hkind] at h
          cases hoperands : discoverOperands (m.discoverDependency depth (insert v seen))
              incoming with
          | none => simp [hoperands] at h
          | some result =>
              obtain ⟨found', hfound', hin⟩ := discoverOperands_spec hoperands u hflow
              obtain ⟨sink, rfl, hcase⟩ := ih hnot hrest hfound'
              have hmem : sink ∈ result.dedup := List.mem_dedup.mpr (hin sink rfl)
              simp only [hoperands] at h
              split at h
              · rename_i only hlist
                rw [hlist, List.mem_singleton] at hmem
                exact ⟨only, (Option.some.inj h).symm, hmem ▸ hcase⟩
              · exact ⟨v, (Option.some.inj h).symm, Or.inr (by rw [hkind]; rfl)⟩
      | _ =>
          rw [discoverDependency_self hv (by rw [hkind]; rfl) (by rw [hkind]; rfl)] at h
          refine ⟨v, (Option.some.inj h).symm, Or.inl ?_⟩
          rcases ReflTransGen.cases_head hpath with rfl | ⟨w, ⟨hflow, _⟩, _⟩
          · rfl
          · rw [Flow, hkind] at hflow
            cases hflow

theorem volatile_root {depth : Nat} {f : F} {v r : V} (hr : m.RootOf v r)
    (h : m.getMemoryPointerState depth f v = some .volatile) :
    m.getMemoryPointerState depth f r = some .volatile := by
  obtain ⟨hpath, hsources, hphi⟩ := hr
  cases depth with
  | zero => cases h
  | succ depth =>
      have hunseen : m.Unseen ∅ v r :=
        ReflTransGen.mono (fun a b hab => ⟨hab, Finset.notMem_empty b⟩) _ _ hpath
      rw [getMemoryPointerState] at h
      cases hfound : m.discoverDependency depth ∅ v with
      | none => simp [hfound] at h
      | some found =>
      obtain ⟨sink, rfl, hcase⟩ :=
        discoverDependency_root (Finset.notMem_empty v) hunseen hsources hphi hfound
      simp only [hfound] at h
      obtain ⟨depth, rfl⟩ : ∃ k, depth = k + 1 := by
        cases depth with
        | zero => cases hfound
        | succ depth => exact ⟨depth, rfl⟩
      rw [getMemoryPointerState, discoverDependency_self (Finset.notMem_empty r) hsources hphi]
      rcases hcase with rfl | hsinkPhi
      · exact h
      · simp only [stateOfSink] at h
        cases hkind : m.kind sink with
        | phiNode incoming =>
            rw [hkind] at h
            cases h
        | _ =>
            rw [hkind] at hsinkPhi
            cases hsinkPhi

/-! ## Answers that follow -/

theorem volatile_of_combine {states : List PointerState} (h : combine states = .volatile) :
    ∀ state ∈ states, state = .volatile := by
  intro state hin
  unfold combine at h
  split at h
  · rename_i hnone
    cases state with
    | volatile => rfl
    | persistent => exact absurd hin hnone.1
    | unknown => exact absurd hin hnone.2
  · split at h <;> cases h

omit [DecidableEq F] [DecidableEq V] in
theorem volatile_of_returns {ask : V → Option PointerState} {values : List V}
    {states : List PointerState} (h : stateOfReturns ask values states = some .volatile) :
    (∀ v ∈ values, ask v = some .volatile) ∧ ∀ state ∈ states, state = .volatile := by
  induction values generalizing states with
  | nil => exact ⟨by simp, volatile_of_combine (Option.some.inj h)⟩
  | cons value rest ih =>
      rw [stateOfReturns] at h
      obtain ⟨state, hask, hrest⟩ := Option.bind_eq_some_iff.mp h
      obtain ⟨hvalues, hstates⟩ := ih hrest
      have hstate := hstates state List.mem_cons_self
      subst hstate
      exact ⟨List.forall_mem_cons.mpr ⟨hask, hvalues⟩,
        fun s hs => hstates s (List.mem_cons_of_mem _ hs)⟩

/-- The operand is volatile itself or has been asked about. -/
def OperandVolatile (m : ModuleContext F V) (ask : F → V → Option PointerState) (u : V) : Prop :=
  m.kind u = .allocaInst ∨ m.kind u = .globalVariable ∨
    (m.kind u).isInstruction = true ∧ ask (m.getFunction u) u = some .volatile

omit [DecidableEq V] in
theorem volatile_of_argument {ask : F → V → Option PointerState} {f : F} {values : List V}
    {states : List PointerState} (h : m.stateOfArgument ask f values states = some .volatile) :
    (∀ u ∈ values, m.OperandVolatile ask u) ∧ ∀ state ∈ states, state = .volatile := by
  induction values generalizing states with
  | nil => exact ⟨by simp, volatile_of_combine (Option.some.inj h)⟩
  | cons value rest ih =>
      have hfree : m.OperandVolatile ask value →
          m.stateOfArgument ask f rest (.volatile :: states) = some .volatile →
          (∀ u ∈ value :: rest, m.OperandVolatile ask u) ∧ ∀ state ∈ states, state = .volatile := by
        intro hvalue hrest
        obtain ⟨hvalues, hstates⟩ := ih hrest
        exact ⟨List.forall_mem_cons.mpr ⟨hvalue, hvalues⟩,
          fun s hs => hstates s (List.mem_cons_of_mem _ hs)⟩
      rw [stateOfArgument] at h
      cases hkind : m.kind value with
      | allocaInst =>
          rw [hkind] at h
          exact hfree (Or.inl hkind) h
      | globalVariable =>
          rw [hkind] at h
          exact hfree (Or.inr (Or.inl hkind)) h
      | constant => simp [hkind, ValueKind.isInstruction] at h
      | argument => simp [hkind, ValueKind.isInstruction] at h
      | _ =>
          rw [hkind] at h
          simp only [ValueKind.isInstruction, Bool.not_true, Bool.false_eq_true, if_false] at h
          split at h
          · cases h
          · obtain ⟨state, hask, hrest⟩ := Option.bind_eq_some_iff.mp h
            have hstate := (ih hrest).2 state List.mem_cons_self
            subst hstate
            exact hfree (Or.inr (Or.inr ⟨by rw [hkind]; rfl, hask⟩)) hrest

/-! ## What holds in all calls that run -/

/-- A root of the value is never found volatile. -/
def Justified (m : ModuleContext F V) (f : F) (v : V) : Prop :=
  ∃ r, m.RootOf v r ∧ ∀ depth, m.getMemoryPointerState depth f r ≠ some .volatile

def FrameSound (m : ModuleContext F V) (frame : Frame F V) : Prop :=
  m.isInstrumented frame.function = true →
    ∀ v, m.valueIn frame v = some .persistent → m.Justified frame.function v

/-- The instruction that waits is a call of the function, or an indirect one. -/
def WaitsFor (m : ModuleContext F V) (above below : Frame F V) : Prop :=
  ∀ v, above.callSite = some v → v ∈ (m.function below.function).body ∧
    ((∃ args, m.kind v = .call none args) ∨ ∃ args, m.kind v = .call (some above.function) args ∧
      ¬ m.IsStdAlloc above.function ∧ ¬ m.IsPersistentAlloc above.function)

structure StackSound (m : ModuleContext F V) (stack : List (Frame F V)) : Prop where
  frames : ∀ frame ∈ stack, m.FrameSound frame
  waits : stack.IsChain m.WaitsFor

theorem Justified.flow {f : F} {v u : V} (h : m.Justified f u) (hflow : m.Flow v u) :
    m.Justified f v := by
  obtain ⟨r, hroot, hstate⟩ := h
  exact ⟨r, ⟨ReflTransGen.head hflow hroot.1, hroot.2⟩, hstate⟩

theorem justified_self {f : F} {v : V} (hsources : (m.kind v).sources = [])
    (hphi : (m.kind v).isPhi = false)
    (hstate : ∀ depth, m.stateOfSink (m.getMemoryPointerState depth) f v ≠ some .volatile) :
    m.Justified f v := by
  refine ⟨v, ⟨.refl, hsources, hphi⟩, fun depth h => ?_⟩
  match depth with
  | 0 => cases h
  | 1 => cases h
  | depth + 2 =>
      rw [getMemoryPointerState, discoverDependency_self (Finset.notMem_empty v) hsources hphi] at h
      exact hstate (depth + 1) h

/-! ## Steps -/

theorem justified_of_computes {frame : Frame F V} {v : V} (hframe : m.FrameSound frame)
    (hinst : m.isInstrumented frame.function = true) (h : m.Computes frame v .persistent) :
    m.Justified frame.function v := by
  cases h with
  | castInst hkind hvalue => exact (hframe hinst _ hvalue).flow (by simp [Flow, hkind, ValueKind.sources])
  | getElementPtr hkind hvalue =>
      exact (hframe hinst _ hvalue).flow (by simp [Flow, hkind, ValueKind.sources])
  | phiNode hkind hmem hvalue =>
      exact (hframe hinst _ hvalue).flow (by simpa [Flow, hkind, ValueKind.sources] using hmem)
  | otherInst _ hkind =>
      refine justified_self (by rw [hkind]; rfl) (by rw [hkind]; rfl) fun depth => ?_
      simp [stateOfSink, hkind]
  | persistentAlloc hkind hname hstd =>
      refine justified_self (by rw [hkind]; rfl) (by rw [hkind]; rfl) fun depth => ?_
      rw [IsStdAlloc] at hstd
      rw [IsPersistentAlloc] at hname
      simp [stateOfSink, hkind, hstd, hname]
  | @external callee _ _ hkind hstd hdecl =>
      refine justified_self (by rw [hkind]; rfl) (by rw [hkind]; rfl) fun depth => ?_
      have hskip : m.isInstrumented callee = false := by
        rw [isInstrumented, hdecl]
        simp
      rw [IsStdAlloc] at hstd
      simp only [stateOfSink, hkind, hskip, if_neg hstd]
      split <;> simp
  | externalIndirect _ hkind =>
      refine justified_self (by rw [hkind]; rfl) (by rw [hkind]; rfl) fun depth => ?_
      simp [stateOfSink, hkind]

theorem FrameSound.assign {frame : Frame F V} (h : m.FrameSound frame) {v : V} {o : Origin}
    (hv : m.isInstrumented frame.function = true → o = .persistent →
      m.Justified frame.function v) :
    m.FrameSound { frame with value := Function.update frame.value v (some o) } := by
  intro hinst u hu
  by_cases huv : u = v
  · subst huv
    refine hv hinst ?_
    cases hkind : m.kind u with
    | globalVariable => simp [valueIn, hkind] at hu
    | constant => simp [valueIn, hkind] at hu
    | _ => simpa [valueIn, hkind] using hu
  · refine h hinst u ?_
    rw [← hu, valueIn, valueIn]
    simp only [Function.update_of_ne huv]

omit [DecidableEq F] in
theorem mem_zip_of_enter {callee : F} {callSite : Option V} {operands : List (Option Origin)}
    {v : V} (h : (m.enter callee callSite operands).value v = some .persistent) :
    (v, some Origin.persistent) ∈ (m.function callee).args.zip operands := by
  simp only [enter] at h
  obtain ⟨entry, hfind, hsnd⟩ := Option.bind_eq_some_iff.mp h
  have hkey : entry.1 = v := by simpa using List.find?_some hfind
  have hmem := List.mem_of_find?_eq_some hfind
  rwa [← hkey, ← hsnd]

omit [DecidableEq F] [DecidableEq V] in
theorem value_of_valueIn {frame : Frame F V} {v : V} (h : m.valueIn frame v = some .persistent) :
    frame.value v = some .persistent ∧ m.kind v ≠ .globalVariable ∧ m.kind v ≠ .constant := by
  rw [valueIn] at h
  split at h
  · cases h
  · cases h
  · rename_i hglobal hconstant
    exact ⟨h, hglobal, hconstant⟩

/-- Nothing is known of the arguments of a function that is not static. -/
theorem frameSound_enter_of_external {callee : F} {callSite : Option V}
    {operands : List (Option Origin)} (hstatic : m.isStaticFunction callee = false) :
    m.FrameSound (m.enter callee callSite operands) := by
  intro _ v hv
  have hin := List.of_mem_zip (mem_zip_of_enter (value_of_valueIn hv).1)
  have hkind := m.args_kind callee v hin.1
  refine justified_self (by rw [hkind]; rfl) (by rw [hkind]; rfl) fun depth => ?_
  simp [stateOfSink, hkind, enter, hstatic]

theorem mem_incomingValues {f callee : F} {v arg u : V} {args : List V}
    (hinst : m.isInstrumented f = true) (hmem : v ∈ (m.function f).body)
    (hcall : m.kind v = .call (some callee) args)
    (hpair : (arg, u) ∈ (m.function callee).args.zip args) : u ∈ m.incomingValues callee arg := by
  have hlist : f ∈ m.functionList := by
    simp only [isInstrumented, Bool.and_eq_true, decide_eq_true_eq] at hinst
    exact hinst.1.1.1
  have hentry : (arg, u) ∈ m.incomingArguments callee := by
    refine List.mem_flatMap.mpr ⟨f, List.mem_filter.mpr ⟨hlist, hinst⟩, ?_⟩
    refine List.mem_flatMap.mpr ⟨v, hmem, ?_⟩
    rw [incomingOfInst, hcall]
    simpa using hpair
  exact List.mem_map.mpr ⟨(arg, u), List.mem_filter.mpr ⟨hentry, by simp⟩, rfl⟩

theorem frameSound_enter_of_call {frame : Frame F V} {v : V} {callee : F} {args : List V}
    {callSite : Option V} (hframe : m.FrameSound frame)
    (hinst : m.isInstrumented frame.function = true)
    (hmem : v ∈ (m.function frame.function).body) (hcall : m.kind v = .call (some callee) args) :
    m.FrameSound (m.enter callee callSite (args.map (m.valueIn frame))) := by
  intro _ arg harg
  have hzip := mem_zip_of_enter (value_of_valueIn harg).1
  rw [List.zip_map_right, List.mem_map] at hzip
  obtain ⟨⟨arg', u⟩, hpair, heq⟩ := hzip
  simp only [Prod.map, id_eq, Prod.mk.injEq] at heq
  obtain ⟨rfl, hu⟩ := heq
  have hkind := m.args_kind callee arg' (List.of_mem_zip hpair).1
  change m.Justified callee arg'
  refine justified_self (by rw [hkind]; rfl) (by rw [hkind]; rfl) fun depth h => ?_
  simp only [stateOfSink, hkind] at h
  cases hstatic : m.isStaticFunction callee with
  | false => simp [hstatic] at h
  | true =>
      rw [hstatic] at h
      obtain ⟨hoperands, -⟩ := volatile_of_argument h
      have hoperand := hoperands u (mem_incomingValues hinst hmem hcall hpair)
      obtain ⟨r, hroot, hnever⟩ := hframe hinst u hu
      rcases hoperand with halloca | hglobal | ⟨hinstr, hask⟩
      · have hvolatile : m.getMemoryPointerState 2 frame.function u = some .volatile := by
          rw [getMemoryPointerState, discoverDependency_self (Finset.notMem_empty u)
            (by rw [halloca]; rfl) (by rw [halloca]; rfl)]
          simp [stateOfSink, halloca]
        exact hnever 2 (volatile_root hroot hvolatile)
      · exact (value_of_valueIn hu).2.1 hglobal
      · rw [m.operand_parent _ v hmem _ _ hcall u (List.of_mem_zip hpair).2 hinstr] at hask
        exact hnever depth (volatile_root hroot hask)

theorem justified_of_ret {frame below : Frame F V} {v r : V} (hframe : m.FrameSound frame)
    (hwaits : m.WaitsFor frame below) (hsite : frame.callSite = some v)
    (hmem : r ∈ (m.function frame.function).returnValues)
    (hvalue : m.valueIn frame r = some .persistent) : m.Justified below.function v := by
  obtain ⟨-, ⟨args, hkind⟩ | ⟨args, hkind, hstd, hpersistent⟩⟩ := hwaits v hsite
  · refine justified_self (by rw [hkind]; rfl) (by rw [hkind]; rfl) fun depth => ?_
    simp [stateOfSink, hkind]
  · rw [IsStdAlloc] at hstd
    rw [IsPersistentAlloc] at hpersistent
    refine justified_self (by rw [hkind]; rfl) (by rw [hkind]; rfl) fun depth h => ?_
    simp only [stateOfSink, hkind, if_neg hstd, if_neg hpersistent] at h
    cases hinst : m.isInstrumented frame.function with
    | false => simp [hinst] at h
    | true =>
        simp only [hinst, Bool.not_true, Bool.false_eq_true, if_false] at h
        obtain ⟨root, hroot, hnever⟩ := hframe hinst r hvalue
        exact hnever depth (volatile_root hroot ((volatile_of_returns h).1 r hmem))

/-- The functions that are not static may be entered from anywhere. -/
def EntersExternal (m : ModuleContext F V) (f : F) : Prop := m.isStaticFunction f = false

theorem StackSound.push {frame : Frame F V} {rest : List (Frame F V)} (h : m.StackSound rest)
    (hframe : m.FrameSound frame) (hwaits : ∀ below ∈ rest.head?, m.WaitsFor frame below) :
    m.StackSound (frame :: rest) where
  frames := List.forall_mem_cons.mpr ⟨hframe, h.frames⟩
  waits := List.isChain_cons.mpr ⟨hwaits, h.waits⟩

theorem StackSound.pop {frame : Frame F V} {rest : List (Frame F V)}
    (h : m.StackSound (frame :: rest)) : m.FrameSound frame ∧ m.StackSound rest :=
  ⟨h.frames frame List.mem_cons_self, fun f hf => h.frames f (List.mem_cons_of_mem _ hf),
    (List.isChain_cons.mp h.waits).2⟩

theorem StackSound.assign {frame : Frame F V} {rest : List (Frame F V)}
    (h : m.StackSound (frame :: rest)) {v : V} {o : Origin}
    (hv : m.isInstrumented frame.function = true → o = .persistent →
      m.Justified frame.function v) :
    m.StackSound ({ frame with value := Function.update frame.value v (some o) } :: rest) :=
  h.pop.2.push (h.pop.1.assign hv) (List.isChain_cons.mp h.waits).1

theorem stackSound_step {stack stack' : List (Frame F V)} (h : m.StackSound stack)
    (hstep : m.Step m.EntersExternal stack stack') : m.StackSound stack' := by
  cases hstep with
  | compute _ hcomputes =>
      refine h.assign fun hinst ho => ?_
      subst ho
      exact justified_of_computes h.pop.1 hinst hcomputes
  | @call frame rest v callee args hmem hkind hstd hpersistent hadmits =>
      refine h.push ?_ fun below hbelow u hu => ?_
      · by_cases hstatic : m.isStaticFunction callee = false
        · exact frameSound_enter_of_external hstatic
        · exact frameSound_enter_of_call h.pop.1 (hadmits.resolve_right hstatic) hmem hkind
      · obtain rfl : frame = below := by simpa using hbelow
        obtain rfl : v = u := by simpa [enter] using hu
        exact ⟨hmem, Or.inr ⟨args, hkind, hstd, hpersistent⟩⟩
  | @callIndirect frame rest v callee args hmem hkind hadmits =>
      refine h.push (frameSound_enter_of_external hadmits) fun below hbelow u hu => ?_
      obtain rfl : frame = below := by simpa using hbelow
      obtain rfl : v = u := by simpa [enter] using hu
      exact ⟨hmem, Or.inl ⟨args, hkind⟩⟩
  | enter operands hadmits =>
      refine h.push (frameSound_enter_of_external hadmits) fun below _ u hu => ?_
      simp [ModuleContext.enter] at hu
  | ret hsite hmem hvalue =>
      obtain ⟨hframe, hrest⟩ := h.pop
      refine hrest.assign fun _ ho => ?_
      subst ho
      exact justified_of_ret hframe ((List.isChain_cons.mp h.waits).1 _ rfl) hsite hmem hvalue
  | leave => exact h.pop.2

theorem stackSound_of_running {stack : List (Frame F V)} (h : m.Running m.EntersExternal stack) :
    m.StackSound stack := by
  induction h with
  | refl => exact ⟨by simp, .nil⟩
  | tail _ hstep ih => exact stackSound_step ih hstep

/-- Transient elimination is sound in every execution in which static functions are entered by
direct calls in instrumented functions only. -/
theorem transientSound_of_entersExternal (m : ModuleContext F V) :
    m.TransientSound m.EntersExternal := by
  intro stack hrunning frame hframe hinst depth
  have hnever : ∀ v, m.getMemoryPointerState depth frame.function v = some .volatile →
      m.valueIn frame v ≠ some .persistent := by
    intro v hvolatile hvalue
    obtain ⟨r, hroot, hstate⟩ := (stackSound_of_running hrunning).frames frame hframe hinst v hvalue
    exact hstate depth (volatile_root hroot hvolatile)
  refine ⟨hnever, fun B hooks => ⟨fun hook hmem hgone => hnever _ ?_,
    fun hook hmem hgone => hnever _ ?_, fun call hmem hgone => hnever _ ?_⟩⟩
  all_goals
    by_contra hkept
    exact hgone (List.mem_filter.mpr ⟨hmem, by simpa using hkept⟩)

end Roots

/-! ## A static function that is called through a pointer -/

/-- `static f(x)` and `main() { fp(crpm_malloc(n)); }`, where `fp` is the address of `f`; the
values are `x`, the result of the allocation and the call. -/
def indirectCall : ModuleContext (Fin 3) (Fin 3) where
  functionList := [0, 1, 2]
  function := ![⟨"main", false, false, true, [], [1, 2], []⟩,
    ⟨"f", false, false, false, [0], [], []⟩, ⟨"crpm_malloc", true, false, true, [], [], []⟩]
  kind := ![.argument, .call (some 2) [], .call none [1]]
  getFunction := ![1, 0, 0]
  args_kind f v hv := by
    fin_cases f <;> simp at hv
    subst hv
    rfl
  operand_parent f v hv callee args h u hu hinst := by
    fin_cases f <;> simp at hv
    rcases hv with rfl | rfl <;> cases h <;> simp at hu
    subst hu
    rfl

theorem not_transientSound : ¬ indirectCall.TransientSound fun _ => True := by
  intro hsound
  have hmain : indirectCall.Running (fun _ => True) [indirectCall.enter 0 none []] :=
    .single (.enter [] trivial)
  have halloc := hmain.tail (.compute (v := 1) (o := .persistent) (by decide)
    (.persistentAlloc rfl (by rw [IsPersistentAlloc]; decide) (by rw [IsStdAlloc]; decide)))
  have hcall := halloc.tail (@Step.callIndirect _ _ _ _ indirectCall _ _ _ 2 1 _ (by decide) rfl trivial)
  exact (hsound _ hcall _ List.mem_cons_self (by decide) 2).1 0 rfl rfl

end ModuleContext

end Libcrpm
