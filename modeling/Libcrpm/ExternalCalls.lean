import Libcrpm.Execution
import Libcrpm.Instrumentation

/-!
# Calls of external functions that write to a buffer

`ProtectedExternalCalls` has one entry for each buffer operand.
-/

namespace Libcrpm

/-- A call of an external function, with its buffer and the length it may write. -/
structure ExternalCall (B V : Type) where
  inst : Inst B
  callee : ExternalFunc
  args : List V
  buffer : V
  length : Length V
  buffer_eq : args[callee.argument]? = some buffer
  length_eq : Hooks.externalLength callee args = some length

def ExternalCall.entry {B V : Type} (call : ExternalCall B V) :
    V × Inst B × ExternalFunc × List V :=
  (call.buffer, call.inst, call.callee, call.args)

namespace FunctionBody

variable {B V : Type} [DecidableEq V] (f : FunctionBody B V)

def externalCallAt (b : B) (pos : Nat) : Instruction V → Option (V × Inst B × ExternalFunc × List V)
  | .call (some callee) args => (args[callee.argument]?).map fun arg => (arg, ⟨b, pos⟩, callee, args)
  | _ => none

def allCallsFrom (b : B) : Nat → List (Instruction V) → List (V × Inst B × ExternalFunc × List V)
  | _, [] => []
  | pos, inst :: rest => (externalCallAt b pos inst).toList ++ allCallsFrom b (pos + 1) rest

def allCalls : List (V × Inst B × ExternalFunc × List V) :=
  f.blocks.flatMap fun b => allCallsFrom b 0 (f.body b)

def Calls (call : ExternalCall B V) : Prop :=
  call.inst.parent ∈ f.blocks ∧
    (f.body call.inst.parent)[call.inst.pos]? = some (.call (some call.callee) call.args)

/-- A later call has the same buffer operand. -/
def Displaced (call : ExternalCall B V) : Prop :=
  ∃ before after, f.allCalls = before ++ call.entry :: after ∧
    ∃ later ∈ after, later.1 = call.buffer

end FunctionBody

namespace Hooks

variable {B V : Type}

def performTransientElimination (isVolatile : V → Bool) (hooks : Hooks B V) : Hooks B V where
  memoryStore := hooks.memoryStore.filter fun hook => !isVolatile hook.pointer
  memoryBulkStore := hooks.memoryBulkStore.filter fun hook => !isVolatile hook.2.1
  protectedExternalCalls := hooks.protectedExternalCalls.filter fun call => !isVolatile call.1

end Hooks

/-! ## A map that keeps the last entry of each key -/

section LastOfKey

variable {K α : Type} [DecidableEq K] {key : α → K}

def assignAll (key : α → K) (l : List α) (entries : List α) : List α :=
  l.foldl (fun entries a => entries.filter (fun e => key e ≠ key a) ++ [a]) entries

theorem assignAll_append (l l' entries : List α) :
    assignAll key (l ++ l') entries = assignAll key l' (assignAll key l entries) :=
  List.foldl_append

theorem mem_assignAll {l : List α} {a : α} : a ∈ assignAll key l [] ↔
    ∃ before after, l = before ++ a :: after ∧ ∀ later ∈ after, key later ≠ key a := by
  induction l using List.reverseRecOn generalizing a with
  | nil => simp [assignAll]
  | append_singleton l last ih =>
      rw [assignAll_append]
      simp only [assignAll, List.foldl_cons, List.foldl_nil, List.mem_append, List.mem_filter,
        List.mem_singleton, decide_eq_true_eq]
      constructor
      · rintro (⟨hmem, hne⟩ | rfl)
        · obtain ⟨before, after, rfl, hlater⟩ := ih.mp hmem
          refine ⟨before, after ++ [last], by simp, fun later hin => ?_⟩
          rcases List.mem_append.mp hin with hold | hnew
          · exact hlater later hold
          · rw [List.mem_singleton.mp hnew]
            exact Ne.symm hne
        · exact ⟨l, [], rfl, by simp⟩
      · rintro ⟨before, after, heq, hlater⟩
        rcases List.eq_nil_or_concat after with rfl | ⟨init, final, rfl⟩
        · right
          exact (List.concat_inj.mp (by simpa using heq)).2.symm
        · rw [List.concat_eq_append, ← List.cons_append, ← List.append_assoc] at heq
          obtain ⟨hl, hfinal⟩ := List.append_inj' heq rfl
          rw [List.cons.injEq] at hfinal
          refine Or.inl ⟨ih.mpr ⟨before, init, hl, fun later hin => hlater later (by simp [hin])⟩, ?_⟩
          rw [hfinal.1]
          exact Ne.symm (hlater final (by simp))

end LastOfKey

/-! ## The entries of `ProtectedExternalCalls` -/

section Entries

open FunctionBody

variable {B V : Type} [DecidableEq V] {f : FunctionBody B V} {new : Inst B → Nat}

theorem externalCallsFrom_eq (b : B) (pos : Nat) (l : List (Instruction V))
    (calls : List (V × Inst B × ExternalFunc × List V)) :
    externalCallsFrom b pos l calls = assignAll Prod.fst (allCallsFrom b pos l) calls := by
  induction l generalizing pos calls with
  | nil => rfl
  | cons inst rest ih =>
      rw [allCallsFrom, assignAll_append, ← ih]
      cases inst with
      | call callee args =>
          cases callee with
          | none => rfl
          | some callee =>
              cases harg : args[callee.argument]? with
              | none => simp [externalCallsFrom, externalCallAt, harg, assignAll]
              | some arg => simp [externalCallsFrom, externalCallAt, harg, assignAll]
      | _ => rfl

theorem protectedExternalCalls_eq :
    (f.findMemoryStore new).protectedExternalCalls = assignAll Prod.fst f.allCalls [] := by
  have hfold : ∀ (blocks : List B) (calls : List (V × Inst B × ExternalFunc × List V)),
      blocks.foldl (fun calls b => externalCallsFrom b 0 (f.body b) calls) calls =
        assignAll Prod.fst (blocks.flatMap fun b => allCallsFrom b 0 (f.body b)) calls := by
    intro blocks
    induction blocks with
    | nil => exact fun _ => rfl
    | cons b rest ih =>
        intro calls
        rw [List.foldl_cons, ih, List.flatMap_cons, assignAll_append, externalCallsFrom_eq]
  exact hfold f.blocks []

omit [DecidableEq V] in
theorem mem_allCallsFrom {b : B} {pos j : Nat} {l : List (Instruction V)} {inst : Instruction V}
    {entry : V × Inst B × ExternalFunc × List V} (hinst : l[j]? = some inst)
    (hentry : externalCallAt b (pos + j) inst = some entry) : entry ∈ allCallsFrom b pos l := by
  induction l generalizing pos j with
  | nil => simp at hinst
  | cons head rest ih =>
      rw [allCallsFrom, List.mem_append]
      cases j with
      | zero =>
          obtain rfl : head = inst := by simpa using hinst
          left
          rw [Nat.add_zero] at hentry
          simp [hentry]
      | succ j =>
          have hnext : pos + (j + 1) = pos + 1 + j := by omega
          rw [hnext] at hentry
          exact Or.inr (ih (by simpa using hinst) hentry)

omit [DecidableEq V] in
theorem FunctionBody.Calls.mem_allCalls {call : ExternalCall B V} (h : f.Calls call) :
    call.entry ∈ f.allCalls := by
  refine List.mem_flatMap.mpr ⟨call.inst.parent, h.1, mem_allCallsFrom h.2 ?_⟩
  simp [externalCallAt, call.buffer_eq, ExternalCall.entry]

omit [DecidableEq V] in
theorem mem_allCallsFrom_inst {b : B} {pos : Nat} {l : List (Instruction V)}
    {entry : V × Inst B × ExternalFunc × List V} (h : entry ∈ allCallsFrom b pos l) :
    entry.2.1.parent = b ∧ pos ≤ entry.2.1.pos ∧
      entry.2.2.2[entry.2.2.1.argument]? = some entry.1 := by
  induction l generalizing pos with
  | nil => simp [allCallsFrom] at h
  | cons head rest ih =>
      rw [allCallsFrom, List.mem_append] at h
      rcases h with hhead | hrest
      · cases head with
        | call callee args =>
            cases callee with
            | none => simp [externalCallAt] at hhead
            | some callee =>
                simp only [externalCallAt, Option.mem_toList, Option.map_eq_some_iff] at hhead
                obtain ⟨arg, harg, rfl⟩ := hhead
                exact ⟨rfl, Nat.le_refl _, harg⟩
        | _ => simp [externalCallAt] at hhead
      · obtain ⟨hparent, hpos, harg⟩ := ih hrest
        exact ⟨hparent, by omega, harg⟩

omit [DecidableEq V] in
theorem nodup_allCallsFrom (b : B) (pos : Nat) (l : List (Instruction V)) :
    (allCallsFrom b pos l).Nodup := by
  induction l generalizing pos with
  | nil => exact List.nodup_nil
  | cons head rest ih =>
      rw [allCallsFrom, List.nodup_append]
      refine ⟨?_, ih (pos + 1), ?_⟩
      · cases externalCallAt b pos head with
        | none => exact List.nodup_nil
        | some entry => exact List.nodup_singleton entry
      · rintro entry hhead entry' hrest rfl
        have hpos := (mem_allCallsFrom_inst hrest).2.1
        cases head with
        | call callee args =>
            cases callee with
            | none => simp [externalCallAt] at hhead
            | some callee =>
                simp only [externalCallAt, Option.mem_toList, Option.map_eq_some_iff] at hhead
                obtain ⟨arg, -, rfl⟩ := hhead
                simp only at hpos
                omega
        | _ => simp [externalCallAt] at hhead

omit [DecidableEq V] in
theorem nodup_allCalls : f.allCalls.Nodup := by
  refine List.nodup_flatMap.mpr ⟨fun b _ => nodup_allCallsFrom b 0 (f.body b), ?_⟩
  refine f.nodup.imp fun {b b'} hne => ?_
  intro entry hin hin'
  exact hne ((mem_allCallsFrom_inst hin).1.symm.trans (mem_allCallsFrom_inst hin').1)

theorem mem_protectedExternalCalls_iff {call : ExternalCall B V} (h : f.Calls call) :
    call.entry ∈ (f.findMemoryStore new).protectedExternalCalls ↔ ¬ f.Displaced call := by
  rw [protectedExternalCalls_eq, mem_assignAll]
  constructor
  · rintro ⟨before, after, heq, hlast⟩ ⟨before', after', heq', later, hlater, hkey⟩
    have hnodup := nodup_allCalls (f := f)
    rw [heq, List.nodup_middle, List.nodup_cons, List.mem_append, not_or] at hnodup
    have hsame := (List.append_cons_inj_of_notMem hnodup.1.1 hnodup.1.2).mp (heq.symm.trans heq')
    rw [← hsame.2.2] at hlater
    exact hlast later hlater hkey
  · intro hkept
    obtain ⟨before, after, heq⟩ := List.append_of_mem h.mem_allCalls
    exact ⟨before, after, heq, fun later hin hkey => hkept ⟨before, after, heq, later, hin, hkey⟩⟩

end Entries

/-! ## Protection in every execution -/

section Protection

variable {B V : Type} [DecidableEq B] [DecidableEq V] (f : FunctionBody B V) (cfg : ControlFlow B)
  (new : Inst B → Nat) (isVolatile : V → Bool)

/-- The calls that `transform` inserts before an instruction, when the hooks of volatile
pointers are gone. -/
def FunctionBody.inserted (x : Inst B) : List (RtCall V) :=
  ((f.findMemoryStore new).performTransientElimination isVolatile).transform x

/-- The call has a range hook on its buffer with its length. -/
def FunctionBody.HooksCall (call : ExternalCall B V) : Prop :=
  RtCall.rangeStore call.buffer call.length ∈ f.inserted new isVolatile call.inst

/-- Before every call of an external function that an execution comes to, a range hook on its
buffer with its length has run in the same checkpoint interval.  `admits` restricts the
calls that executions come to. -/
def FunctionBody.ProtectsCalls (admits : ExternalCall B V → Prop) : Prop :=
  ∀ (typeSize : Nat → Nat) (checkpointCalls : List (Inst B)) (e : Execution cfg V Nat),
    ∀ t < e.length, ∀ call : ExternalCall B V, f.Calls call → e.inst t = call.inst →
    isVolatile call.buffer = false → admits call →
    ∃ s, e.SameInterval checkpointCalls s t ∧ ∃ pointer length,
      RtCall.rangeStore pointer length ∈ f.inserted new isVolatile (e.inst s) ∧
      e.value s pointer = e.value t call.buffer ∧
      length.eval typeSize (e.value s) = call.length.eval typeSize (e.value t)

variable {f cfg new isVolatile} {call : ExternalCall B V}

theorem hooksCall_of_entry (hvolatile : isVolatile call.buffer = false)
    (h : call.entry ∈ (f.findMemoryStore new).protectedExternalCalls) :
    f.HooksCall new isVolatile call := by
  refine List.mem_append_right _ (List.mem_filterMap.mpr ⟨call.entry, ?_, ?_⟩)
  · refine List.mem_filter.mpr ⟨List.mem_filter.mpr ⟨h, ?_⟩, by simp [ExternalCall.entry]⟩
    simp [ExternalCall.entry, hvolatile]
  · simp [ExternalCall.entry, call.length_eq]

theorem entry_of_hooksCall (hcall : f.Calls call) (h : f.HooksCall new isVolatile call) :
    call.entry ∈ (f.findMemoryStore new).protectedExternalCalls := by
  have hbody := hcall.2
  rcases List.mem_append.mp h with hstores | hcalls
  · rcases List.mem_append.mp hstores with hstore | hbulk
    · obtain ⟨hook, -, hne⟩ := List.mem_map.mp hstore
      cases hne
    · -- a bulk store stands at a memory intrinsic
      obtain ⟨hook, hmem, -⟩ := List.mem_map.mp hbulk
      rw [List.mem_filter, decide_eq_true_eq] at hmem
      obtain ⟨b, -, hin⟩ := List.mem_flatMap.mp (List.mem_of_mem_filter hmem.1)
      obtain ⟨j, hpos, hinst⟩ := mem_bulkStoresFrom hin
      rw [← hmem.2, hpos, Nat.zero_add, hinst] at hbody
      cases hbody
  · obtain ⟨entry, hmem, -⟩ := List.mem_filterMap.mp hcalls
    rw [List.mem_filter, decide_eq_true_eq] at hmem
    obtain ⟨hin, hinst⟩ := hmem
    have hentry := List.mem_of_mem_filter hin
    have hsame := mem_protectedExternalCalls hentry
    rw [hinst, hbody, Option.some.injEq, Instruction.call.injEq, Option.some.injEq] at hsame
    -- the operand that keys the entry is the buffer
    have hall : entry ∈ f.allCalls := by
      rw [protectedExternalCalls_eq] at hentry
      obtain ⟨before, after, heq, -⟩ := mem_assignAll.mp hentry
      rw [heq]
      simp
    obtain ⟨b, -, hfrom⟩ := List.mem_flatMap.mp hall
    have harg := (mem_allCallsFrom_inst hfrom).2.2
    rw [← hsame.1, ← hsame.2, call.buffer_eq, Option.some.injEq] at harg
    have heq : call.entry = entry :=
      Prod.ext harg (Prod.ext hinst.symm (Prod.ext hsame.1 hsame.2))
    exact heq ▸ hentry

/-- A call has a hook of its own exactly when no later call has its buffer operand, and every
execution that comes to such a call has run a hook for it. -/
theorem protectsCalls_of_kept (f : FunctionBody B V) (cfg : ControlFlow B) (new : Inst B → Nat)
    (isVolatile : V → Bool) :
    (∀ call : ExternalCall B V, f.Calls call → isVolatile call.buffer = false →
      (f.HooksCall new isVolatile call ↔ ¬ f.Displaced call)) ∧
    f.ProtectsCalls cfg new isVolatile fun call => ¬ f.Displaced call := by
  have hown : ∀ call : ExternalCall B V, f.Calls call → isVolatile call.buffer = false →
      (f.HooksCall new isVolatile call ↔ ¬ f.Displaced call) := by
    intro call hcall hvolatile
    rw [← mem_protectedExternalCalls_iff hcall]
    exact ⟨entry_of_hooksCall hcall, hooksCall_of_entry hvolatile⟩
  refine ⟨hown, ?_⟩
  intro typeSize checkpointCalls e t _ call hcall hinst hvolatile hkept
  refine ⟨t, e.sameInterval_self checkpointCalls t, call.buffer, call.length, ?_, rfl, rfl⟩
  rw [hinst]
  exact (hown call hcall hvolatile).mpr hkept

end Protection

/-! ## Two calls on one buffer -/

/-- `read(fd, buf, n)` twice; the operands `0`, `1` and `2` are the descriptor, the buffer and
the length. -/
def twoReads : FunctionBody Unit Nat where
  blocks := [()]
  body _ := [.call (some .read) [0, 1, 2], .call (some .read) [0, 1, 2]]
  nodup := List.nodup_singleton ()

def twoReadsFlow : ControlFlow Unit where
  entry := ()
  predecessors _ := []
  size _ := 2

def firstRead : ExternalCall Unit Nat where
  inst := ⟨(), 0⟩
  callee := .read
  args := [0, 1, 2]
  buffer := 1
  length := .value 2
  buffer_eq := rfl
  length_eq := rfl

/-- The first instruction only. -/
def firstReadOnly : Execution twoReadsFlow Nat Nat where
  length := 1
  inst _ := ⟨(), 0⟩
  value _ v := v
  first := rfl
  step t h := absurd h (by omega)

theorem not_protectsCalls :
    ¬ twoReads.ProtectsCalls twoReadsFlow Inst.pos (fun _ => false) fun _ => True := by
  intro hprotects
  obtain ⟨s, -, pointer, length, hin, -⟩ := hprotects id [] firstReadOnly 0 (by decide) firstRead
    ⟨by decide, rfl⟩ rfl rfl trivial
  have hnone : twoReads.inserted Inst.pos (fun _ => false) ⟨(), 0⟩ = [] := rfl
  have hinserted : RtCall.rangeStore pointer length ∈
      twoReads.inserted Inst.pos (fun _ => false) ⟨(), 0⟩ := hin
  rw [hnone] at hinserted
  cases hinserted

end Libcrpm
