import Mathlib.Data.Finset.Insert
import Mathlib.Data.List.Dedup
import Mathlib.Logic.Relation

/-!
# Where a pointer may come from

`FunctionContext::discoverDependency` and `getMemoryPointerState` of the instrumentation
pass, with the tables that `ModuleContext::findFunctions` and `findIncomingArguments` fill.
-/

namespace Libcrpm

open Relation

/-- What the analysis distinguishes of an `llvm::Value`. -/
inductive ValueKind (F V : Type) where
  | allocaInst
  | globalVariable
  | constant
  | argument
  | castInst (operand : V)
  | getElementPtr (pointer : V)
  | phiNode (incoming : List V)
  | call (calledFunction : Option F) (args : List V)
  | otherInst

namespace ValueKind

variable {F V : Type}

def isInstruction : ValueKind F V → Bool
  | .globalVariable | .constant | .argument => false
  | _ => true

def isPhi : ValueKind F V → Bool
  | .phiNode _ => true
  | _ => false

/-- The values that a value is computed from without a load or a call. -/
def sources : ValueKind F V → List V
  | .castInst operand => [operand]
  | .getElementPtr pointer => [pointer]
  | .phiNode incoming => incoming
  | _ => []

end ValueKind

/-- `body` lists the instructions; `isStdVector` tells whether the name is one of a member
function of `std::vector`. -/
structure Function (V : Type) where
  name : String
  isDeclaration : Bool
  isStdVector : Bool
  externalLinkage : Bool
  args : List V
  body : List V
  returnValues : List V

def stdAllocFuncs : List String :=
  ["malloc", "calloc", "realloc", "posix_memalign", "aligned_alloc", "pvalloc", "_Znam", "_Znvm",
    "_Znwm"]

def persistentAllocFuncs : List String := ["crpm_malloc", "_ZN5crpm10MemoryPool7pmallocEm"]

structure ModuleContext (F V : Type) where
  functionList : List F
  function : F → Function V
  kind : V → ValueKind F V
  getFunction : V → F
  args_kind : ∀ f, ∀ v ∈ (function f).args, kind v = .argument
  operand_parent : ∀ f, ∀ v ∈ (function f).body, ∀ callee args, kind v = .call callee args →
    ∀ u ∈ args, (kind u).isInstruction = true → getFunction u = f

inductive PointerState where
  | volatile | persistent | unknown
deriving DecidableEq, Repr

namespace ModuleContext

variable {F V : Type} [DecidableEq F] [DecidableEq V] (m : ModuleContext F V)

def isInstrumented (f : F) : Bool :=
  f ∈ m.functionList && !(m.function f).isDeclaration &&
    !(m.function f).name.startsWith "__crpm_hook_rt_" && !(m.function f).isStdVector

def functions : List F := m.functionList.filter m.isInstrumented

def isStaticFunction (f : F) : Bool := m.isInstrumented f && !(m.function f).externalLinkage

/-- What one instruction adds to `IncomingArguments` of `callee`. -/
def incomingOfInst (callee : F) (inst : V) : List (V × V) :=
  match m.kind inst with
  | .call (some f) args => if f = callee then (m.function callee).args.zip args else []
  | _ => []

/-- `findIncomingArguments` of all functions, for an instrumented `callee`. -/
def incomingArguments (callee : F) : List (V × V) :=
  m.functions.flatMap fun f => (m.function f).body.flatMap (m.incomingOfInst callee)

def incomingValues (callee : F) (arg : V) : List V :=
  ((m.incomingArguments callee).filter fun entry => entry.1 = arg).map Prod.snd

/-- The sinks that the loop over the operands of a phi node collects. -/
def discoverOperands (discover : V → Option (Option V)) : List V → Option (List V)
  | [] => some []
  | source :: rest =>
      match discover source with
      | none => none
      | some sink => (discoverOperands discover rest).map fun sinks => sink.toList ++ sinks

/-- A phi node is followed through all its operands, unless it has been seen on the way.  The
outer `none` means that `depth` rounds and nested calls do not suffice. -/
def discoverDependency : Nat → Finset V → V → Option (Option V)
  | 0, _, _ => none
  | depth + 1, seenValues, source =>
      if source ∈ seenValues then some none
      else
        match m.kind source with
        | .castInst operand => discoverDependency depth seenValues operand
        | .getElementPtr pointer => discoverDependency depth seenValues pointer
        | .phiNode incoming =>
            match discoverOperands (discoverDependency depth (insert source seenValues)) incoming with
            | none => none
            | some result =>
                match result.dedup with
                | [sink] => some (some sink)
                | _ => some (some source)
        | _ => some (some source)

section Discover

variable {m} {depth : Nat} {seen : Finset V} {v : V}

omit [DecidableEq V] in
theorem discoverOperands_spec {discover : V → Option (Option V)} {operands result : List V}
    (h : discoverOperands discover operands = some result) :
    ∀ u ∈ operands, ∃ sink, discover u = some sink ∧ ∀ w, sink = some w → w ∈ result := by
  induction operands generalizing result with
  | nil => simp
  | cons source rest ih =>
      rw [discoverOperands] at h
      cases hsource : discover source with
      | none => simp [hsource] at h
      | some sink =>
          simp only [hsource, Option.map_eq_some_iff] at h
          obtain ⟨sinks, hsinks, rfl⟩ := h
          intro u hu
          rcases List.mem_cons.mp hu with rfl | hlater
          · exact ⟨sink, hsource, fun w hw => List.mem_append_left _ (by simp [hw])⟩
          · obtain ⟨sink', hsink', hmem⟩ := ih hsinks u hlater
            exact ⟨sink', hsink', fun w hw => List.mem_append_right _ (hmem w hw)⟩

omit [DecidableEq V] in
theorem discoverOperands_congr {discover discover' : V → Option (Option V)}
    {operands result : List V} (h : discoverOperands discover operands = some result)
    (hsame : ∀ u ∈ operands, ∀ sink, discover u = some sink → discover' u = some sink) :
    discoverOperands discover' operands = some result := by
  induction operands generalizing result with
  | nil => exact h
  | cons source rest ih =>
      rw [discoverOperands] at h ⊢
      cases hsource : discover source with
      | none => simp [hsource] at h
      | some sink =>
          simp only [hsource, Option.map_eq_some_iff] at h
          obtain ⟨sinks, hsinks, rfl⟩ := h
          have hrest := ih hsinks fun u hu => hsame u (List.mem_cons_of_mem _ hu)
          rw [hsame source List.mem_cons_self sink hsource, hrest]
          rfl

omit [DecidableEq V] in
theorem discoverOperands_isSome {discover : V → Option (Option V)} {operands : List V}
    (h : ∀ u ∈ operands, ∃ sink, discover u = some sink) :
    ∃ result, discoverOperands discover operands = some result := by
  induction operands with
  | nil => exact ⟨[], rfl⟩
  | cons source rest ih =>
      obtain ⟨sink, hsink⟩ := h source List.mem_cons_self
      obtain ⟨result, hresult⟩ := ih fun u hu => h u (List.mem_cons_of_mem _ hu)
      exact ⟨sink.toList ++ result, by rw [discoverOperands, hsink, hresult]; rfl⟩

omit [DecidableEq F]

theorem discoverDependency_cast {operand : V} (hv : v ∉ seen) (h : m.kind v = .castInst operand) :
    m.discoverDependency (depth + 1) seen v = m.discoverDependency depth seen operand := by
  rw [discoverDependency, if_neg hv, h]

theorem discoverDependency_gep {pointer : V} (hv : v ∉ seen)
    (h : m.kind v = .getElementPtr pointer) :
    m.discoverDependency (depth + 1) seen v = m.discoverDependency depth seen pointer := by
  rw [discoverDependency, if_neg hv, h]

theorem discoverDependency_phi {incoming : List V} (hv : v ∉ seen)
    (h : m.kind v = .phiNode incoming) : m.discoverDependency (depth + 1) seen v =
      match discoverOperands (m.discoverDependency depth (insert v seen)) incoming with
      | none => none
      | some result =>
          match result.dedup with
          | [sink] => some (some sink)
          | _ => some (some v) := by
  rw [discoverDependency, if_neg hv, h]

theorem discoverDependency_self (hv : v ∉ seen) (h : (m.kind v).sources = [])
    (hphi : (m.kind v).isPhi = false) :
    m.discoverDependency (depth + 1) seen v = some (some v) := by
  rw [discoverDependency, if_neg hv]
  cases hkind : m.kind v with
  | castInst operand => simp [hkind, ValueKind.sources] at h
  | getElementPtr pointer => simp [hkind, ValueKind.sources] at h
  | phiNode incoming => simp [hkind, ValueKind.isPhi] at hphi
  | _ => rfl

theorem discoverDependency_mono {depth' : Nat} (hle : depth ≤ depth') {sink : Option V}
    (h : m.discoverDependency depth seen v = some sink) :
    m.discoverDependency depth' seen v = some sink := by
  induction depth generalizing depth' seen v sink with
  | zero => cases h
  | succ depth ih =>
      obtain ⟨depth', rfl⟩ : ∃ k, depth' = k + 1 := ⟨depth' - 1, by omega⟩
      have hle' : depth ≤ depth' := by omega
      rw [discoverDependency] at h ⊢
      split at h
      · rename_i hseen
        rw [if_pos hseen]
        exact h
      · rename_i hseen
        rw [if_neg hseen]
        cases hkind : m.kind v with
        | castInst operand =>
            rw [hkind] at h
            exact ih hle' h
        | getElementPtr pointer =>
            rw [hkind] at h
            exact ih hle' h
        | phiNode incoming =>
            rw [hkind] at h
            simp only at h ⊢
            cases hoperands : discoverOperands (m.discoverDependency depth (insert v seen))
                incoming with
            | none => simp [hoperands] at h
            | some result =>
                rw [discoverOperands_congr hoperands fun u _ sink hu => ih hle' hu]
                rw [hoperands] at h
                exact h
        | _ =>
            rw [hkind] at h
            exact h

theorem discoverDependency_unique {depth' : Nat} {sink sink' : Option V}
    (h : m.discoverDependency depth seen v = some sink)
    (h' : m.discoverDependency depth' seen v = some sink') : sink = sink' := by
  have hmax := discoverDependency_mono (Nat.le_max_left depth depth') h
  have hmax' := discoverDependency_mono (Nat.le_max_right depth depth') h'
  exact Option.some.inj (hmax.symm.trans hmax')

end Discover

/-- The state for the states that were found. -/
def combine (states : List PointerState) : PointerState :=
  if .persistent ∉ states ∧ .unknown ∉ states then .volatile
  else if .volatile ∉ states ∧ .unknown ∉ states then .persistent
  else .unknown

def stateOfArgument (ask : F → V → Option PointerState) (f : F) :
    List V → List PointerState → Option PointerState
  | [], states => some (combine states)
  | value :: rest, states =>
      match m.kind value with
      | .allocaInst | .globalVariable => stateOfArgument ask f rest (.volatile :: states)
      | kind =>
          if !kind.isInstruction then some .unknown
          else if !m.isInstrumented (m.getFunction value) || m.getFunction value = f then
            some .unknown
          else do
            let state ← ask (m.getFunction value) value
            stateOfArgument ask f rest (state :: states)

def stateOfReturns (ask : V → Option PointerState) : List V → List PointerState →
    Option PointerState
  | [], states => some (combine states)
  | value :: rest, states => do
      let state ← ask value
      stateOfReturns ask rest (state :: states)

/-- The state of what `discoverDependency` has found. -/
def stateOfSink (ask : F → V → Option PointerState) (f : F) (sink : V) : Option PointerState :=
  match m.kind sink with
  | .allocaInst | .globalVariable => some .volatile
  | .argument =>
      if !m.isStaticFunction f then some .unknown
      else m.stateOfArgument ask f (m.incomingValues f sink) []
  | .call none _ => some .unknown
  | .call (some callee) _ =>
      if (m.function callee).name ∈ stdAllocFuncs then some .volatile
      else if (m.function callee).name ∈ persistentAllocFuncs then some .persistent
      else if !m.isInstrumented callee then some .unknown
      else stateOfReturns (ask callee) (m.function callee).returnValues []
  | _ => some .unknown

/-- `none` when `depth` nested calls, or as many rounds of one search, do not suffice. -/
def getMemoryPointerState : Nat → F → V → Option PointerState
  | 0, _, _ => none
  | depth + 1, f, source =>
      match m.discoverDependency depth ∅ source with
      | none => none
      | some none => some .unknown
      | some (some sink) => m.stateOfSink (getMemoryPointerState depth) f sink

end ModuleContext

end Libcrpm
