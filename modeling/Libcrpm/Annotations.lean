import Libcrpm.SsaExecution

/-!
# Hooks under a manual annotation

`FunctionContext::performManualInstrumentElimination` takes a hook away when a call of
`AnnotateCheckpointRegion` dominates it and seems to name the same object.
-/

namespace Libcrpm

/-- `AnnotateCheckpointRegion(addr, length)`. -/
structure AnnotateCall (B V : Type) where
  inst : Inst B
  addr : V
  length : V

namespace FunctionContext

variable {B V : Type} [DecidableEq B] [Fintype B] [DecidableEq V] (ctx : FunctionContext B)
  (info : ValueInfo B V) (enableMTUnsafeOptimization : Bool)
  (manualInstrumentCalls : List (AnnotateCall B V))

/-- The annotated pointers that are loaded and seem not to be stored in this function. -/
def extraAnnotatePtr : List V :=
  if enableMTUnsafeOptimization then
    (manualInstrumentCalls.filter fun call =>
      (info.loadOf (info.getUncastPointer call.addr)).isSome &&
        !info.hasPotentialStore ctx (info.getUncastPointer call.addr)).map AnnotateCall.addr
  else []

def annotates (call : AnnotateCall B V) (pointer : V) (insertionPt : Inst B) : Bool :=
  ctx.dt.dominates call.inst insertionPt && !ctx.maySplitByCheckpoint call.inst insertionPt &&
  match info.getUnaryPointer pointer false with
  | none => false
  | some storePtr =>
      info.isMustAlias call.addr storePtr ||
      enableMTUnsafeOptimization &&
      match info.getLoadPointer call.addr true, info.getLoadPointer storePtr true with
      | some annotateLPtr, some storeLPtr => info.isMustAlias annotateLPtr storeLPtr &&
          call.addr ∈ ctx.extraAnnotatePtr info enableMTUnsafeOptimization manualInstrumentCalls
      | _, _ => false

def performManualInstrumentElimination
    (stores : List (MemoryStoreHook B V) × List (MemoryBulkStoreHook B V)) :
    List (MemoryStoreHook B V) × List (MemoryBulkStoreHook B V) :=
  (stores.1.filter fun entry => !manualInstrumentCalls.any fun call =>
      ctx.annotates info enableMTUnsafeOptimization manualInstrumentCalls call entry.pointer
        entry.insertionPt,
    stores.2.filter fun entry => !manualInstrumentCalls.any fun call =>
      ctx.annotates info enableMTUnsafeOptimization manualInstrumentCalls call entry.pointer
        entry.insertionPt)

end FunctionContext

def Hook.In {B V : Type} (stores : List (FunctionContext.MemoryStoreHook B V) ×
    List (FunctionContext.MemoryBulkStoreHook B V)) : Hook B V → Prop
  | .store entry => entry ∈ stores.1
  | .bulk entry => entry ∈ stores.2

def AnnotateCall.Usable {B V : Type} (f : ControlFlow B) (info : ValueInfo B V)
    (call : AnnotateCall B V) : Prop :=
  info.Available f call.addr call.inst ∧ info.Available f call.length call.inst

namespace FunctionContext

section Coverage

variable {B V : Type} [DecidableEq B] [Fintype B] [DecidableEq V] (ctx : FunctionContext B)
  (info : ValueInfo B V) (enableMTUnsafeOptimization : Bool)
  (manualInstrumentCalls : List (AnnotateCall B V))

/-- What a hook that goes would have reported is in the range of an annotation made before in
the same interval, in the executions that `admits` allows. -/
def AnnotationsCover (admits : Hook B V → SsaExecution ctx.function info → Nat → Prop) : Prop :=
  (∀ call ∈ manualInstrumentCalls, call.Usable ctx.function info) →
  ∀ stores (hook : Hook B V), hook.In stores → hook.Usable ctx.function info →
    ¬ hook.In (ctx.performManualInstrumentElimination info enableMTUnsafeOptimization
      manualInstrumentCalls stores) →
    ∀ (e : SsaExecution ctx.function info) t, t < e.length → e.inst t = hook.insertionPt →
      admits hook e t → ∃ call ∈ manualInstrumentCalls, ∃ s < t, e.inst s = call.inst ∧
        e.SameInterval ctx.checkpointCalls s t ∧ ∀ address, e.Reports hook t address →
          e.value s call.addr ≤ address ∧ address < e.value s call.addr + e.value s call.length

/-- The hook and the call name one object, and what the hook reports lies in its annotated
part. -/
structure Reaches (e : SsaExecution ctx.function info) (hook : Hook B V) (t : Nat)
    (call : AnnotateCall B V) : Prop where
  annotates : ctx.annotates info enableMTUnsafeOptimization manualInstrumentCalls call hook.pointer
    hook.insertionPt = true
  clear : ctx.Clear call.inst hook.insertionPt
  base : hook.LoadsPointer ∨ info.isMustAlias call.addr
      ((info.getUnaryPointer hook.pointer false).getD hook.pointer) = false →
    e.base hook t = e.value t call.addr
  fits : e.start hook t < e.stop hook t → 0 ≤ e.offset hook t ∧
    e.offset hook t + (e.stop hook t - e.start hook t) ≤ e.value t call.length

variable {ctx info enableMTUnsafeOptimization manualInstrumentCalls}

theorem annotates_spec {call : AnnotateCall B V} {pointer : V} {insertionPt : Inst B}
    (h : ctx.annotates info enableMTUnsafeOptimization manualInstrumentCalls call pointer
      insertionPt = true) :
    ctx.dt.dominates call.inst insertionPt = true ∧
      ctx.maySplitByCheckpoint call.inst insertionPt = false := by
  simp only [annotates, Bool.and_eq_true, Bool.not_eq_true'] at h
  exact h.1

omit [DecidableEq V] in
theorem sameInterval_of_maySplit {e : SsaExecution ctx.function info} {a : Inst B} {s t : Nat}
    (hlast : e.LastBefore a s t) (ht : t < e.length)
    (hdom : ctx.function.StrictlyDominates a (e.inst t)) (hclear : ctx.Clear a (e.inst t))
    (hsplit : ctx.maySplitByCheckpoint a (e.inst t) = false) :
    e.SameInterval ctx.checkpointCalls s t := by
  refine ⟨Nat.le_of_lt hlast.lt, fun k hk hkt hmem => ?_⟩
  have hne : s ≠ k := by
    rintro rfl
    rw [maySplit_of_mem (Or.inl (hlast.inst ▸ hmem))] at hsplit
    exact absurd hsplit (by decide)
  have hlt : s < k := Nat.lt_of_le_of_ne hk hne
  have hbefore := e.steps_avoiding_of_lt hlt (hkt.trans ht) fun j hj hjk =>
    hlast.last j hj (Nat.lt_of_le_of_lt hjk hkt)
  have hafter := e.steps_avoiding_of_lt hkt ht fun j hj hjt => by
    rcases Nat.lt_or_eq_of_le hjt with hearlier | rfl
    · exact hlast.last j (hlt.trans hj) hearlier
    · exact hdom.1.symm
  rw [hlast.inst] at hbefore
  have hreach : ctx.function.Reachable a := hlast.inst ▸ e.reachable (hlast.lt.trans ht)
  have hsplits : ctx.Splits a (e.inst t) := ⟨_, hmem, hreach, hbefore, hafter⟩
  rw [splits_found_of_clear hdom.2 hclear hsplits] at hsplit
  exact absurd hsplit (by decide)

theorem base_eq_addr {e : SsaExecution ctx.function info} {hook : Hook B V} {t : Nat}
    {call : AnnotateCall B V} (ht : t < e.length) (hinst : e.inst t = hook.insertionPt)
    (husable : hook.Usable ctx.function info)
    (haddr : info.Available ctx.function call.addr (e.inst t))
    (h : ctx.Reaches info enableMTUnsafeOptimization manualInstrumentCalls e hook t call) :
    e.base hook t = e.value t call.addr := by
  by_cases hloads : hook.LoadsPointer ∨ info.isMustAlias call.addr
      ((info.getUnaryPointer hook.pointer false).getD hook.pointer) = false
  · exact h.base hloads
  · obtain ⟨hloads, halias⟩ := not_or.mp hloads
    obtain ⟨hbase, havailable⟩ := SsaExecution.base_eq ht hinst husable hloads
    rw [Bool.not_eq_false] at halias
    rw [hbase]
    exact (e.mustAlias t _ _ ht halias haddr havailable).symm

/-- The annotations cover what goes where one of them reaches over the hook. -/
theorem annotationsCover_of_reaches (ctx : FunctionContext B) (info : ValueInfo B V)
    (enableMTUnsafeOptimization : Bool) (manualInstrumentCalls : List (AnnotateCall B V)) :
    ctx.AnnotationsCover info enableMTUnsafeOptimization manualInstrumentCalls fun hook e t =>
      ∃ call ∈ manualInstrumentCalls,
        ctx.Reaches info enableMTUnsafeOptimization manualInstrumentCalls e hook t call := by
  intro hcalls stores hook _ husable _ e t ht hinst hadmits
  obtain ⟨call, hmem, hreaches⟩ := hadmits
  obtain ⟨hdominates, hsplit⟩ := annotates_spec hreaches.annotates
  have hdom : ctx.function.StrictlyDominates call.inst (e.inst t) := by
    rw [hinst]
    exact (ctx.dt.spec _ _).mp hdominates (hinst ▸ e.reachable ht)
  obtain ⟨s, hlast⟩ := Execution.exists_lastBefore hdom ht
  obtain ⟨haddr, hlength⟩ := hcalls call hmem
  rw [← hinst] at hsplit
  refine ⟨call, hmem, s, hlast.lt, hlast.inst,
    sameInterval_of_maySplit hlast ht hdom (hinst ▸ hreaches.clear) hsplit, ?_⟩
  rintro address ⟨-, -, hlow, hhigh⟩
  have havailable : info.Available ctx.function call.addr (e.inst t) := fun d hdef =>
    Execution.dominates_trans ht (haddr d hdef) hdom
  have hbase := base_eq_addr ht hinst husable havailable hreaches
  have hstart := SsaExecution.start_eq ht hinst husable
  obtain ⟨hnonneg, hfits⟩ := hreaches.fits (Int.lt_of_le_of_lt hlow hhigh)
  rw [← SsaExecution.value_of_available hlast ht hdom haddr,
    ← SsaExecution.value_of_available hlast ht hdom hlength]
  omega

end Coverage

end FunctionContext

/-! ## A store behind the annotated part -/

def threeInsts : ControlFlow Unit where
  entry := ()
  predecessors _ := []
  size _ := 3

theorem threeInsts_first : ⟨(), 0⟩ = threeInsts.first := rfl

/-- `AnnotateCheckpointRegion(p, 8); p[2] = x;`: the values are `p`, `8`, `2` and `p + 2`. -/
def thirdElement : ValueInfo Unit Nat where
  castOperand _ := none
  gepOf v := if v = 3 then some ⟨true, 0, [.element 2 8]⟩ else none
  loadOf _ := none
  definition v := if v = 3 then some ⟨(), 1⟩ else none
  storeInsts := [(⟨(), 2⟩, 3)]
  isMustAlias v u := v = u
  isNoAlias v u := v ≠ u

theorem thirdElement_available {v : Nat} (hv : v ≠ 3) (x : Inst Unit) :
    thirdElement.Available threeInsts v x := by
  intro d hdef
  simp [thirdElement, hv] at hdef

noncomputable def thirdElementContext : FunctionContext Unit where
  function := threeInsts
  dt := .ofFunction threeInsts
  checkpointCalls := []

theorem thirdElement_ssa : thirdElement.SsaForm threeInsts where
  cast _ _ h := by cases h
  gep v gep h := by
    obtain rfl : v = 3 := by
      by_contra hne
      simp [thirdElement, hne] at h
    obtain rfl : ⟨true, 0, [.element 2 8]⟩ = gep := Option.some.inj h
    refine ⟨⟨(), 1⟩, rfl, thirdElement_available (by decide) _, fun index hmem => ?_⟩
    obtain rfl : index = 2 := by simpa [GetElementPtr.indexValues] using hmem
    exact thirdElement_available (by decide) _
  kinds _ _ _ := rfl

def thirdElementExecution : SsaExecution threeInsts thirdElement where
  length := 3
  inst t := ⟨(), t⟩
  value t v :=
    if v = 3 then if t = 2 then 4112 else 0
    else if v = 0 then 4096
    else if v = 1 then 8 else 2
  first := threeInsts_first
  step t ht := .next ht
  ssa := thirdElement_ssa
  loaded _ _ := 0
  kept t v ht hdef := by
    by_cases hv : v = 3
    · subst hv
      have hne : t ≠ 1 := by
        rintro rfl
        exact hdef rfl
      have ht' : t = 0 := by omega
      subst ht'
      rfl
    · simp [hv]
  cast _ _ _ _ _ h := by cases h
  gep t v gep ht hdef h := by
    obtain rfl : v = 3 := by
      by_contra hne
      simp [thirdElement, hne] at h
    obtain rfl : ⟨true, 0, [.element 2 8]⟩ = gep := Option.some.inj h
    obtain rfl : 1 = t := congrArg Inst.pos (Option.some.inj hdef)
    rfl
  load _ _ _ _ _ h := by cases h
  mustAlias t v u _ h _ _ := by
    obtain rfl : v = u := of_decide_eq_true h
    rfl

/-- The hook of `p[2]` goes, although only the first eight bytes are annotated. -/
theorem not_annotationsCover : ¬ thirdElementContext.AnnotationsCover thirdElement false
    [⟨⟨(), 0⟩, 0, 1⟩] fun _ _ _ => True := by
  intro hcovers
  have hcalls : ∀ call ∈ [(⟨⟨(), 0⟩, 0, 1⟩ : AnnotateCall Unit Nat)],
      call.Usable threeInsts thirdElement := by
    intro call hmem
    obtain rfl := List.mem_singleton.mp hmem
    exact ⟨thirdElement_available (by decide) _, thirdElement_available (by decide) _⟩
  have hafter : ∀ {v : Nat}, v = 3 → thirdElement.Available threeInsts v ⟨(), 2⟩ := by
    rintro v rfl d hdef
    obtain rfl : ⟨(), 1⟩ = d := Option.some.inj hdef
    exact ⟨by decide, ControlFlow.dominates_of_pos_lt rfl (by decide)⟩
  have hdom : thirdElementContext.dt.dominates ⟨(), 0⟩ ⟨(), 2⟩ = true :=
    (thirdElementContext.dt.spec _ _).mpr fun _ => ⟨by decide, Or.inl rfl⟩
  have hgone : ¬ Hook.In (thirdElementContext.performManualInstrumentElimination thirdElement false
      [⟨⟨(), 0⟩, 0, 1⟩] ([⟨0, ⟨(), 2⟩, 3, false⟩], [])) (.store ⟨0, ⟨(), 2⟩, 3, false⟩) := by
    intro hin
    have hkept := (List.mem_filter.mp hin).2
    have hannotates : thirdElementContext.annotates thirdElement false [⟨⟨(), 0⟩, 0, 1⟩]
        ⟨⟨(), 0⟩, 0, 1⟩ 3 ⟨(), 2⟩ = true := by
      simp only [FunctionContext.annotates, hdom]
      rfl
    simp [hannotates] at hkept
  obtain ⟨call, hmem, s, -, -, -, hcover⟩ := hcovers hcalls ([⟨0, ⟨(), 2⟩, 3, false⟩], [])
    (.store ⟨0, ⟨(), 2⟩, 3, false⟩) (List.mem_singleton_self _) (hafter rfl) hgone
    thirdElementExecution 2 (by decide) rfl trivial
  obtain rfl := List.mem_singleton.mp hmem
  have hlt : (4112 : Int) < 4096 + 8 := (hcover 4112 ⟨by decide, rfl, by decide, by decide⟩).2
  exact absurd hlt (by decide)

end Libcrpm
