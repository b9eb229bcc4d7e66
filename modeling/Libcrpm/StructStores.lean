import Libcrpm.Annotations

/-!
# One hook for the fields of a struct

`FunctionContext::performStructStoreCombination` replaces the hooks of several fields of a
struct by one for the whole struct, right behind the definition of its pointer.
-/

namespace Libcrpm

/-- What types and blocks tell the pass: the size of the struct a value points to, the number
of phi nodes at the beginning of a block and the constants. -/
structure StructInfo (B V : Type) where
  isArgument : V → Bool
  structSize : V → Option Nat
  phis : B → Nat
  constantInt : Nat → V

namespace FunctionContext

variable {B V : Type} [DecidableEq V] (ctx : FunctionContext B) (info : ValueInfo B V)
  (structs : StructInfo B V)

/-- The struct pointer that a hook counts for. -/
def structPointer (entry : MemoryStoreHook B V) : Option V :=
  match info.getUnaryPointer entry.pointer true with
  | none => none
  | some pointer =>
      if (info.definition pointer).isSome || structs.isArgument pointer then
        match structs.structSize pointer with
        | some size => if size > 1024 then none else some pointer
        | none => none
      else none

def appliedCounter (memoryStore : List (MemoryStoreHook B V)) (pointer : V) : Nat :=
  memoryStore.countP fun entry => structPointer info structs entry = some pointer

/-- The hooks that go, with their struct pointers. -/
def combined (memoryStore : List (MemoryStoreHook B V)) (entry : MemoryStoreHook B V) : Option V :=
  match info.getUnaryPointer entry.pointer true with
  | none => none
  | some pointer =>
      if appliedCounter info structs memoryStore pointer > 1 then some pointer else none

def structInsertionPt (pointer : V) : Option (Inst B) :=
  match info.definition pointer with
  | some ⟨parent, pos⟩ =>
      let next := if pos < structs.phis parent then structs.phis parent else pos + 1
      if next < ctx.function.size parent then some ⟨parent, next⟩ else none
  | none =>
      if structs.phis ctx.function.entry < ctx.function.size ctx.function.entry then
        some ⟨ctx.function.entry, structs.phis ctx.function.entry⟩
      else none

def structHook (pointer : V) (insertionPt : Inst B) : MemoryBulkStoreHook B V :=
  let lengthValue := structs.constantInt ((structs.structSize pointer).getD 0)
  ⟨insertionPt, pointer, lengthValue, false, lengthValue, false⟩

/-- The hooks of the applied pointers; the flag tells whether each has a place. -/
def insertStructHooks (memoryBulkStore : List (MemoryBulkStoreHook B V)) :
    List V → List (MemoryBulkStoreHook B V) × Bool
  | [] => (memoryBulkStore, true)
  | pointer :: rest =>
      match ctx.structInsertionPt info structs pointer with
      | none => (memoryBulkStore, false)
      | some insertionPt =>
          insertStructHooks (memoryBulkStore ++ [structHook structs pointer insertionPt]) rest

def performStructStoreCombination
    (stores : List (MemoryStoreHook B V) × List (MemoryBulkStoreHook B V)) :
    List (MemoryStoreHook B V) × List (MemoryBulkStoreHook B V) :=
  if ctx.checkpointCalls.isEmpty then
    let appliedPointers := (stores.1.filterMap (combined info structs stores.1)).dedup
    match ctx.insertStructHooks info structs stores.2 appliedPointers with
    | (memoryBulkStore, false) => (stores.1, memoryBulkStore)
    | (memoryBulkStore, true) =>
        (stores.1.filter fun entry => (combined info structs stores.1 entry).isNone, memoryBulkStore)
  else stores

omit [DecidableEq V] in
theorem subset_insertStructHooks (memoryBulkStore : List (MemoryBulkStoreHook B V))
    (pointers : List V) :
    memoryBulkStore ⊆ (ctx.insertStructHooks info structs memoryBulkStore pointers).1 := by
  induction pointers generalizing memoryBulkStore with
  | nil => exact List.Subset.refl _
  | cons pointer rest ih =>
      unfold insertStructHooks
      cases ctx.structInsertionPt info structs pointer with
      | none => exact List.Subset.refl _
      | some insertionPt => exact fun _ hmem => ih _ (List.mem_append_left _ hmem)

variable {ctx info structs}

omit [DecidableEq V] in
theorem mem_insertStructHooks {memoryBulkStore : List (MemoryBulkStoreHook B V)}
    {pointers : List V}
    (h : (ctx.insertStructHooks info structs memoryBulkStore pointers).2 = true) {pointer : V}
    (hmem : pointer ∈ pointers) : ∃ insertionPt,
      ctx.structInsertionPt info structs pointer = some insertionPt ∧
      structHook structs pointer insertionPt ∈
        (ctx.insertStructHooks info structs memoryBulkStore pointers).1 := by
  induction pointers generalizing memoryBulkStore with
  | nil => cases hmem
  | cons first rest ih =>
      unfold insertStructHooks at h ⊢
      cases hpt : ctx.structInsertionPt info structs first with
      | none =>
          rw [hpt] at h
          cases h
      | some insertionPt =>
          rw [hpt] at h
          rcases List.mem_cons.mp hmem with rfl | hlater
          · exact ⟨insertionPt, hpt, subset_insertStructHooks ctx info structs _ _
              (List.mem_append_right _ (List.mem_singleton_self _))⟩
          · exact ih h hlater

/-! ## Where the hook of a struct is called -/

omit [DecidableEq V] in
theorem exists_at_structInsertionPt {e : SsaExecution ctx.function info} {pointer : V}
    {insertionPt : Inst B} {t : Nat}
    (hpt : ctx.structInsertionPt info structs pointer = some insertionPt) (ht : t < e.length)
    (hphis : structs.phis (e.inst t).parent ≤ (e.inst t).pos)
    (hpointer : info.Available ctx.function pointer (e.inst t)) :
    ∃ u ≤ t, e.inst u = insertionPt ∧ e.value u pointer = e.value t pointer := by
  unfold structInsertionPt at hpt
  cases hdef : info.definition pointer with
  | none =>
      simp only [hdef] at hpt
      split at hpt
      · rename_i hsize
        obtain rfl := Option.some.inj hpt
        have hentry : e.inst 0 = ⟨ctx.function.entry, 0⟩ := e.first
        have hle : structs.phis ctx.function.entry ≤ t := by
          by_contra hlt
          have hinst := Execution.inst_add hentry t (by omega) (by omega)
          rw [Nat.zero_add] at hinst
          rw [hinst] at hphis
          simp only at hphis
          omega
        have hinst := Execution.inst_add hentry (structs.phis ctx.function.entry) (by omega) (by omega)
        rw [Nat.zero_add] at hinst
        refine ⟨_, hle, hinst, (SsaExecution.value_kept hle ht fun k _ _ hk => ?_).symm⟩
        rw [hdef] at hk
        cases hk
      · cases hpt
  | some d =>
      obtain ⟨parent, pos⟩ := d
      simp only [hdef] at hpt
      generalize hnext : (if pos < structs.phis parent then structs.phis parent else pos + 1) =
        next at hpt
      split at hpt
      · rename_i hsize
        obtain rfl := Option.some.inj hpt
        obtain ⟨s, hlast⟩ := Execution.exists_lastBefore (hpointer _ hdef) ht
        have hlt := hlast.lt
        have hpos : pos < next := by
          split at hnext <;> omega
        -- until the place of the hook the execution is among the phi nodes
        have hle : s + (next - pos) ≤ t := by
          by_contra hearly
          obtain ⟨i, rfl⟩ := Nat.exists_eq_add_of_le (Nat.le_of_lt hlt)
          rw [Execution.inst_add hlast.inst i ht (by omega)] at hphis
          simp only at hphis
          split at hnext <;> omega
        have hinst := Execution.inst_add hlast.inst (next - pos) (by omega) (by omega)
        rw [show pos + (next - pos) = next by omega] at hinst
        refine ⟨_, hle, hinst, (SsaExecution.value_kept hle ht fun k hk hkt hagain => ?_).symm⟩
        exact hlast.last k (by omega) hkt (Option.some.inj (hagain.symm.trans hdef))
      · cases hpt

variable (ctx info structs) in
/-- Every address that was hooked is hooked again, in the executions that `admits` allows. -/
def CombinationCovers
    (admits : List (MemoryStoreHook B V) × List (MemoryBulkStoreHook B V) →
      SsaExecution ctx.function info → Prop) : Prop :=
  ∀ stores, (∀ hook : Hook B V, hook.In stores → hook.Usable ctx.function info ∧
      structs.phis hook.insertionPt.parent ≤ hook.insertionPt.pos) →
    ∀ e : SsaExecution ctx.function info, (∀ t n, e.value t (structs.constantInt n) = n) →
      admits stores e → ∀ hook : Hook B V, hook.In stores → ∀ t address,
      e.Reports hook t address → ∃ hook' : Hook B V,
        hook'.In (ctx.performStructStoreCombination info structs stores) ∧
        ∃ u, e.Reports hook' u address

variable (ctx info structs) in
/-- The hooks that go report addresses in their struct. -/
def StaysInside (stores : List (MemoryStoreHook B V) × List (MemoryBulkStoreHook B V))
    (e : SsaExecution ctx.function info) : Prop :=
  ∀ entry ∈ stores.1, entry ∉ (ctx.performStructStoreCombination info structs stores).1 →
    ∀ pointer size, combined info structs stores.1 entry = some pointer →
    structs.structSize pointer = some size → ∀ t < e.length, e.inst t = entry.insertionPt →
    0 ≤ e.offset (.store entry) t ∧ e.offset (.store entry) t < size

theorem combined_spec {memoryStore : List (MemoryStoreHook B V)} {entry : MemoryStoreHook B V}
    {pointer : V} (h : combined info structs memoryStore entry = some pointer) :
    info.getUnaryPointer entry.pointer true = some pointer ∧
      ∃ size, structs.structSize pointer = some size := by
  unfold combined at h
  cases hunary : info.getUnaryPointer entry.pointer true with
  | none => simp [hunary] at h
  | some base =>
      simp only [hunary] at h
      split at h
      · rename_i hcount
        obtain rfl : base = pointer := Option.some.inj h
        refine ⟨rfl, ?_⟩
        obtain ⟨other, _, hother⟩ := List.countP_pos_iff.mp (Nat.lt_of_succ_lt hcount)
        have hcounts := of_decide_eq_true hother
        unfold structPointer at hcounts
        cases hbase : info.getUnaryPointer other.pointer true with
        | none => simp [hbase] at hcounts
        | some base' =>
            simp only [hbase] at hcounts
            split at hcounts
            · cases hsize : structs.structSize base' with
              | none => simp [hsize] at hcounts
              | some size =>
                  simp only [hsize] at hcounts
                  split at hcounts
                  · cases hcounts
                  · obtain rfl : base' = base := Option.some.inj hcounts
                    exact ⟨size, hsize⟩
            · cases hcounts
      · cases h

omit [DecidableEq V] in
theorem getUnaryPointer_of_true {v base : V} (h : info.getUnaryPointer v true = some base) :
    info.getUnaryPointer v false = some base := by
  unfold ValueInfo.getUnaryPointer at h ⊢
  cases hgep : info.gepOf (info.getUncastPointer v) with
  | none => simp [hgep] at h
  | some gep => simpa [hgep] using h

omit [DecidableEq V] in
theorem reports_structHook {e : SsaExecution ctx.function info} {pointer : V} {size : Nat}
    {insertionPt : Inst B} {u : Nat} {address : Int}
    (hconst : ∀ t n, e.value t (structs.constantInt n) = n)
    (hsize : structs.structSize pointer = some size) (hu : u < e.length)
    (hinst : e.inst u = insertionPt) :
    e.Reports (.bulk (structHook structs pointer insertionPt)) u address ↔
      e.value u pointer ≤ address ∧ address < e.value u pointer + size := by
  have hstart : e.start (.bulk (structHook structs pointer insertionPt)) u = e.value u pointer := by
    unfold SsaExecution.start structHook
    rfl
  have hstop : e.stop (.bulk (structHook structs pointer insertionPt)) u =
      e.value u pointer + size := by
    rw [← hstart, ← hconst u size]
    unfold SsaExecution.stop structHook
    rw [hsize, Option.getD_some]
  unfold SsaExecution.Reports
  rw [hstart, hstop]
  exact ⟨fun h => h.2.2, fun h => ⟨hu, hinst, h⟩⟩

theorem exists_structHook {e : SsaExecution ctx.function info}
    {memoryStore : List (MemoryStoreHook B V)} {entry : MemoryStoreHook B V} {pointer : V}
    {size : Nat} {insertionPt : Inst B} {t : Nat}
    (hconst : ∀ t n, e.value t (structs.constantInt n) = n)
    (hcombined : combined info structs memoryStore entry = some pointer)
    (hsize : structs.structSize pointer = some size)
    (hpt : ctx.structInsertionPt info structs pointer = some insertionPt)
    (husable : (Hook.store entry).Usable ctx.function info)
    (hphis : structs.phis entry.insertionPt.parent ≤ entry.insertionPt.pos)
    (ht : t < e.length) (hinst : e.inst t = entry.insertionPt)
    (hinside : 0 ≤ e.offset (.store entry) t ∧ e.offset (.store entry) t < size) :
    ∃ u ≤ t, e.Reports (.bulk (structHook structs pointer insertionPt)) u
      (e.start (.store entry) t) := by
  have hunary := getUnaryPointer_of_true (combined_spec hcombined).1
  change e.inst t = (Hook.store entry).insertionPt at hinst
  obtain ⟨hbase, havailable⟩ := SsaExecution.base_eq ht hinst husable (fun h => h)
  have hstart := SsaExecution.start_eq ht hinst husable
  change info.getUnaryPointer (Hook.store entry).pointer false = some pointer at hunary
  rw [hunary, Option.getD_some] at hbase havailable
  rw [show entry.insertionPt = e.inst t from hinst.symm] at hphis
  obtain ⟨u, hle, hu, hvalue⟩ := exists_at_structInsertionPt hpt ht hphis havailable
  refine ⟨u, hle, ?_⟩
  rw [reports_structHook hconst hsize (Nat.lt_of_le_of_lt hle ht) hu, hvalue, hstart, hbase]
  omega

/-- A hook stays or the hook of its struct takes its place. -/
theorem performStructStoreCombination_spec
    (stores : List (MemoryStoreHook B V) × List (MemoryBulkStoreHook B V)) {hook : Hook B V}
    (hmem : hook.In stores) :
    hook.In (ctx.performStructStoreCombination info structs stores) ∨
      ∃ entry pointer insertionPt, hook = .store entry ∧
        combined info structs stores.1 entry = some pointer ∧
        ctx.structInsertionPt info structs pointer = some insertionPt ∧
        (Hook.bulk (structHook structs pointer insertionPt)).In
          (ctx.performStructStoreCombination info structs stores) := by
  unfold performStructStoreCombination
  cases ctx.checkpointCalls.isEmpty with
  | false => exact Or.inl hmem
  | true =>
      have hsub := subset_insertStructHooks ctx info structs stores.2
        (stores.1.filterMap (combined info structs stores.1)).dedup
      have hplaces : (ctx.insertStructHooks info structs stores.2
            (stores.1.filterMap (combined info structs stores.1)).dedup).2 = true →
          ∀ pointer ∈ (stores.1.filterMap (combined info structs stores.1)).dedup, _ :=
        fun hall pointer hmem => mem_insertStructHooks hall hmem
      simp only [if_true]
      generalize ctx.insertStructHooks info structs stores.2
        (stores.1.filterMap (combined info structs stores.1)).dedup = inserted at hsub hplaces
      obtain ⟨memoryBulkStore, all⟩ := inserted
      cases hook with
      | bulk entry =>
          cases all with
          | false => exact Or.inl (hsub hmem)
          | true => exact Or.inl (hsub hmem)
      | store entry =>
          cases all with
          | false => exact Or.inl hmem
          | true =>
              cases hcombined : combined info structs stores.1 entry with
              | none => exact Or.inl (List.mem_filter.mpr ⟨hmem, by simp [hcombined]⟩)
              | some pointer =>
                  have happlied : pointer ∈
                      (stores.1.filterMap (combined info structs stores.1)).dedup :=
                    List.mem_dedup.mpr (List.mem_filterMap.mpr ⟨entry, hmem, hcombined⟩)
                  obtain ⟨insertionPt, hpt, hinserted⟩ := hplaces rfl pointer happlied
                  exact Or.inr ⟨entry, pointer, insertionPt, rfl, hcombined, hpt, hinserted⟩

/-- Combination covers what it takes away where the fields lie inside their struct. -/
theorem combinationCovers_of_staysInside (ctx : FunctionContext B) (info : ValueInfo B V)
    (structs : StructInfo B V) :
    ctx.CombinationCovers info structs (ctx.StaysInside info structs) := by
  intro stores hstores e hconst hinside hook hmem t address hreports
  by_cases hstays : hook.In (ctx.performStructStoreCombination info structs stores)
  · exact ⟨hook, hstays, t, hreports⟩
  · obtain ⟨entry, pointer, insertionPt, rfl, hcombined, hpt, hin⟩ :=
      (performStructStoreCombination_spec stores hmem).resolve_left hstays
    obtain ⟨-, size, hsize⟩ := combined_spec hcombined
    obtain ⟨husable, hphis⟩ := hstores _ hmem
    obtain ⟨ht, hinst, hlow, hhigh⟩ := hreports
    have hhigh' : address < e.start (.store entry) t + 1 := hhigh
    obtain rfl : address = e.start (.store entry) t :=
      Int.le_antisymm (Int.le_of_lt_add_one hhigh') hlow
    obtain ⟨u, -, hagain⟩ := exists_structHook hconst hcombined hsize hpt husable hphis ht hinst
      (hinside entry hmem hstays pointer size hcombined hsize t ht hinst)
    exact ⟨_, hin, u, hagain⟩

end FunctionContext

/-! ## Fields of the second element -/

def fourInsts : ControlFlow Unit where
  entry := ()
  predecessors _ := []
  size _ := 4

theorem fourInsts_first : ⟨(), 0⟩ = fourInsts.first := rfl

/-- `p[1].x = a; p[1].y = b;` for a struct of two fields: the values are `p`, the addresses of
the fields and the constants. -/
def secondElement : ValueInfo Unit Nat where
  castOperand _ := none
  gepOf v :=
    if v = 1 then some ⟨true, 0, [.element 4 16, .field 0]⟩
    else if v = 2 then some ⟨true, 0, [.element 4 16, .field 8]⟩
    else none
  loadOf _ := none
  definition v := if v = 1 then some ⟨(), 0⟩ else if v = 2 then some ⟨(), 2⟩ else none
  storeInsts := [(⟨(), 1⟩, 1), (⟨(), 3⟩, 2)]
  isMustAlias v u := v = u
  isNoAlias v u := v ≠ u

def twoFields : StructInfo Unit Nat where
  isArgument v := v = 0
  structSize v := if v = 0 then some 16 else none
  phis _ := 0
  constantInt n := n + 3

noncomputable def secondElementContext : FunctionContext Unit where
  function := fourInsts
  dt := .ofFunction fourInsts
  checkpointCalls := []

theorem secondElement_gep {v : Nat} {gep : GetElementPtr Nat}
    (h : secondElement.gepOf v = some gep) :
    v = 1 ∧ gep = ⟨true, 0, [.element 4 16, .field 0]⟩ ∨
      v = 2 ∧ gep = ⟨true, 0, [.element 4 16, .field 8]⟩ := by
  by_cases h1 : v = 1
  · subst h1
    exact Or.inl ⟨rfl, (Option.some.inj h).symm⟩
  · by_cases h2 : v = 2
    · subst h2
      exact Or.inr ⟨rfl, (Option.some.inj h).symm⟩
    · simp [secondElement, h1, h2] at h

theorem secondElement_available {v : Nat} (h : secondElement.definition v = none) (x : Inst Unit) :
    secondElement.Available fourInsts v x := by
  intro d hdef
  rw [h] at hdef
  cases hdef

theorem secondElement_ssa : secondElement.SsaForm fourInsts where
  cast _ _ h := by cases h
  gep v gep h := by
    rcases secondElement_gep h with ⟨rfl, rfl⟩ | ⟨rfl, rfl⟩
    · refine ⟨⟨(), 0⟩, rfl, secondElement_available rfl _, fun index hmem => ?_⟩
      obtain rfl : index = 4 := by simpa [GetElementPtr.indexValues] using hmem
      exact secondElement_available rfl _
    · refine ⟨⟨(), 2⟩, rfl, secondElement_available rfl _, fun index hmem => ?_⟩
      obtain rfl : index = 4 := by simpa [GetElementPtr.indexValues] using hmem
      exact secondElement_available rfl _
  kinds _ _ _ := rfl

def secondElementExecution : SsaExecution fourInsts secondElement where
  length := 4
  inst t := ⟨(), t⟩
  value t v :=
    if v = 0 then 4096
    else if v = 1 then if t = 0 then 0 else 4112
    else if v = 2 then if t < 3 then 0 else 4120
    else v - 3
  first := fourInsts_first
  step t ht := .next ht
  ssa := secondElement_ssa
  loaded _ _ := 0
  kept t v ht hdef := by
    by_cases h1 : v = 1
    · subst h1
      have hne : t ≠ 0 := by
        rintro rfl
        exact hdef rfl
      simp [hne]
    · by_cases h2 : v = 2
      · subst h2
        have hne : t ≠ 2 := by
          rintro rfl
          exact hdef rfl
        have hearly : t + 1 < 3 := by omega
        simp [hearly, Nat.lt_of_succ_lt hearly]
      · simp [h1, h2]
  cast _ _ _ _ _ h := by cases h
  gep t v gep ht hdef h := by
    rcases secondElement_gep h with ⟨rfl, rfl⟩ | ⟨rfl, rfl⟩
    · obtain rfl : 0 = t := congrArg Inst.pos (Option.some.inj hdef)
      rfl
    · obtain rfl : 2 = t := congrArg Inst.pos (Option.some.inj hdef)
      rfl
  load _ _ _ _ _ h := by cases h
  mustAlias t v u _ h _ _ := by
    obtain rfl : v = u := of_decide_eq_true h
    rfl

/-- The hook of the struct at `p` reports nothing of `p[1]`. -/
theorem not_combinationCovers :
    ¬ secondElementContext.CombinationCovers secondElement twoFields fun _ _ => True := by
  intro hcovers
  have hstores : ∀ hook : Hook Unit Nat,
      hook.In ([⟨0, ⟨(), 1⟩, 1, false⟩, ⟨1, ⟨(), 3⟩, 2, false⟩], []) →
      hook.Usable fourInsts secondElement ∧ 0 ≤ hook.insertionPt.pos := by
    intro hook hmem
    refine ⟨?_, Nat.zero_le _⟩
    cases hook with
    | bulk entry => cases hmem
    | store entry =>
        rcases List.mem_pair.mp hmem with rfl | rfl
        · intro d hdef
          obtain rfl : ⟨(), 0⟩ = d := Option.some.inj hdef
          exact ⟨by decide, ControlFlow.dominates_of_pos_lt rfl (by decide)⟩
        · intro d hdef
          obtain rfl : ⟨(), 2⟩ = d := Option.some.inj hdef
          exact ⟨by decide, ControlFlow.dominates_of_pos_lt rfl (by decide)⟩
  have hconst : ∀ t n, secondElementExecution.value t (twoFields.constantInt n) = n := by
    intro t n
    simp [secondElementExecution, twoFields]
  obtain ⟨hook, hin, u, hreports⟩ := hcovers
    ([⟨0, ⟨(), 1⟩, 1, false⟩, ⟨1, ⟨(), 3⟩, 2, false⟩], []) hstores secondElementExecution hconst
    trivial (.store ⟨0, ⟨(), 1⟩, 1, false⟩) List.mem_cons_self 1 4112
    ⟨by decide, rfl, by decide, by decide⟩
  have hafter : secondElementContext.performStructStoreCombination secondElement twoFields
      ([⟨0, ⟨(), 1⟩, 1, false⟩, ⟨1, ⟨(), 3⟩, 2, false⟩], []) =
      ([], [FunctionContext.structHook twoFields 0 ⟨(), 0⟩]) := rfl
  rw [hafter] at hin
  cases hook with
  | store entry => cases hin
  | bulk entry =>
      obtain rfl := List.mem_singleton.mp hin
      have hlt : (4112 : Int) < 4096 + 16 := hreports.2.2.2
      exact absurd hlt (by decide)

end Libcrpm
