import Libcrpm.HookPlaces

/-!
# Hooks that go or move

What the passes of `performAllOptimizations` leave of the hooks: in every round each hook has
one that dominates it, and no checkpoint comes between the two unless
`maySplitByCheckpoint` has missed one.
-/

namespace Libcrpm

open Relation ControlFlow

namespace FunctionContext

variable {B V : Type} {ctx : FunctionContext B} [DecidableEq B] [Fintype B] {ir : IrInfo B V}
  {loops : List (SortedLoop ctx.function ir)}

/-! ## Redundant stores -/

variable (ctx ir) in
/-- Of two hooks of the set that the pass compares, the second has no call before it that the
search misses. -/
def ComparedClear (lhs rhs : MemoryStoreHook B V) : Prop :=
  ctx.dt.dominates lhs.insertionPt rhs.insertionPt = true →
    ir.isMustAlias lhs.pointer rhs.pointer = true → ctx.Clear lhs.insertionPt rhs.insertionPt

variable (ctx ir) in
/-- `kept` stands for `entry`, by hooks of the set that alias one another. -/
structure KeptFor (memoryStore : List (MemoryStoreHook B V)) (kept entry : MemoryStoreHook B V) :
    Prop where
  aliases : TransGen (fun v u => ir.isMustAlias v u = true) kept.pointer entry.pointer
  dominates : ctx.function.Dominates kept.insertionPt entry.insertionPt
  same_side : memoryStore.Pairwise (ctx.ComparedClear ir) →
    ¬ ctx.Splits kept.insertionPt entry.insertionPt

theorem redundantStores_subset (isMustAlias : V → V → Bool) (lhs : MemoryStoreHook B V)
    (rest : List (MemoryStoreHook B V)) :
    ctx.redundantStores isMustAlias (lhs :: rest) ⊆ rest := by
  induction rest generalizing lhs with
  | nil => exact List.Subset.refl _
  | cons next rest ih =>
      rw [redundantStores]
      refine List.append_subset.mpr ⟨List.filter_sublist.subset, fun entry hmem => ?_⟩
      exact List.mem_cons_of_mem _ (ih next hmem)

theorem exists_keptFor {memoryStore : List (MemoryStoreHook B V)} (hnodup : memoryStore.Nodup)
    {entry : MemoryStoreHook B V} (h : entry ∈ ctx.redundantStores ir.isMustAlias memoryStore) :
    ∃ kept ∈ memoryStore, kept ∉ ctx.redundantStores ir.isMustAlias memoryStore ∧
      ctx.KeptFor ir memoryStore kept entry := by
  induction memoryStore with
  | nil => cases h
  | cons lhs rest ih =>
      obtain ⟨hnew, hrest⟩ := List.nodup_cons.mp hnodup
      have hlhs : lhs ∉ ctx.redundantStores ir.isMustAlias (lhs :: rest) :=
        fun hmem => hnew (redundantStores_subset _ lhs rest hmem)
      -- what the first hook removes, directly or behind a hook that has already stood for it
      have hfirst : ∀ rhs ∈ rest, ctx.dt.dominates lhs.insertionPt rhs.insertionPt = true →
          ir.isMustAlias lhs.pointer rhs.pointer = true →
          ctx.maySplitByCheckpoint lhs.insertionPt rhs.insertionPt = false →
          ctx.KeptFor ir (lhs :: rest) lhs rhs := by
        intro rhs hrhs hdom halias hsplit
        refine ⟨.single halias, dominates_of_dt hdom, fun hclear => ?_⟩
        exact not_splits_of_maySplit (dominates_of_dt hdom)
          ((List.pairwise_cons.mp hclear).1 rhs hrhs hdom halias) hsplit
      rw [redundantStores, List.mem_append] at h
      rcases h with hhere | hlater
      · simp only [List.mem_filter, Bool.and_eq_true, Bool.not_eq_true'] at hhere
        obtain ⟨hmem, ⟨hdom, halias⟩, hsplit⟩ := hhere
        exact ⟨lhs, List.mem_cons_self, hlhs, hfirst entry hmem hdom halias hsplit⟩
      · obtain ⟨kept, hkept, hstays, hfor⟩ := ih hrest hlater
        by_cases hgoes : ctx.dt.dominates lhs.insertionPt kept.insertionPt = true ∧
            ir.isMustAlias lhs.pointer kept.pointer = true ∧
            ctx.maySplitByCheckpoint lhs.insertionPt kept.insertionPt = false
        · obtain ⟨hdom, halias, hsplit⟩ := hgoes
          have hnext := hfirst kept hkept hdom halias hsplit
          refine ⟨lhs, List.mem_cons_self, hlhs, hfor.aliases.head halias,
            hnext.dominates.trans hfor.dominates, fun hclear => ?_⟩
          exact not_splits_trans hfor.dominates (hnext.same_side hclear)
            (not_call_of_maySplit hsplit).2 (hfor.same_side (List.pairwise_cons.mp hclear).2)
        · refine ⟨kept, List.mem_cons_of_mem _ hkept, fun hmem => ?_, hfor.aliases,
            hfor.dominates, fun hclear => hfor.same_side (List.pairwise_cons.mp hclear).2⟩
          rw [redundantStores, List.mem_append] at hmem
          refine hmem.elim (fun hhere => hgoes ?_) hstays
          simp only [List.mem_filter, Bool.and_eq_true, Bool.not_eq_true'] at hhere
          exact ⟨hhere.2.1.1, hhere.2.1.2, hhere.2.2⟩

/-! ## Aggregation -/

section Aggregation

variable [DecidableEq V] {allowAggregating loadsPointer : LoopContext B V → V → Bool}

variable (ctx ir) in
/-- `bulk` is the hook at the end of the preheader that stands for `entry` in the loop. -/
structure AggregatedTo (loadsPointer : LoopContext B V → V → Bool)
    (loop : SortedLoop ctx.function ir) (entry : MemoryStoreHook B V)
    (bulk : MemoryBulkStoreHook B V) : Prop where
  inside : entry.insertionPt.parent ∈ loop.basicBlocks
  insertionPt : ∃ preHeader, loop.preHeader = some preHeader ∧
    bulk.insertionPt = ctx.function.terminator preHeader
  pointer : bulk.pointer = ir.getUncastPointer entry.pointer
  range : bulk.useStartStopIndex = true ∧
    loop.indVar = some (bulk.lengthOrStartIndex, bulk.stopIndex)
  copyLoad : bulk.copyLoad = loadsPointer loop.context entry.pointer
  dominates : ctx.function.Dominates bulk.insertionPt entry.insertionPt
  same_side : ctx.Clear bulk.insertionPt entry.insertionPt →
    ¬ ctx.Splits bulk.insertionPt entry.insertionPt

theorem aggregate_removed (stores : List (MemoryStoreHook B V) × List (MemoryBulkStoreHook B V))
    (loop : SortedLoop ctx.function ir) {entry : MemoryStoreHook B V} (hmem : entry ∈ stores.1)
    (hgone : entry ∉ (ctx.aggregate allowAggregating ir.getUncastPointer loadsPointer stores
      loop.context).1) :
    ∃ bulk ∈ (ctx.aggregate allowAggregating ir.getUncastPointer loadsPointer stores
      loop.context).2, ctx.AggregatedTo ir loadsPointer loop entry bulk := by
  unfold aggregate at hgone ⊢
  split at hgone
  · rename_i pt initialVal finalVal hpt hbounds
    have hhoisted : entry ∈ ctx.aggregated allowAggregating loop.context pt stores.1 := by
      by_contra hkept
      exact hgone (List.mem_filter.mpr ⟨hmem, by simpa using hkept⟩)
    refine ⟨_, List.mem_append_right _ (List.mem_map_of_mem hhoisted), ?_⟩
    obtain ⟨b, hb, hin⟩ := List.mem_flatMap.mp hhoisted
    simp only [List.mem_filter, Bool.and_eq_true, Bool.not_eq_true', decide_eq_true_eq] at hin
    obtain ⟨-, ⟨rfl, hsplit⟩, -⟩ := hin
    have hdom := dominates_of_insertionPt hpt hb
    exact {
      inside := hb
      insertionPt := SortedLoop.insertionPt_spec hpt
      pointer := rfl
      range := ⟨rfl, (Option.filter_eq_some_iff.mp hbounds).1⟩
      copyLoad := rfl
      dominates := hdom
      same_side := fun hclear => not_splits_of_maySplit hdom hclear hsplit }
  · exact absurd hmem hgone

theorem aggregate_subset (getUncastPointer : V → V)
    (stores : List (MemoryStoreHook B V) × List (MemoryBulkStoreHook B V))
    (loop : LoopContext B V) : stores.2 ⊆
      (ctx.aggregate allowAggregating getUncastPointer loadsPointer stores loop).2 := by
  unfold aggregate
  split
  · exact List.subset_append_left _ _
  · exact List.Subset.refl _

theorem aggregate_sublist (getUncastPointer : V → V)
    (stores : List (MemoryStoreHook B V) × List (MemoryBulkStoreHook B V))
    (loop : LoopContext B V) :
    (ctx.aggregate allowAggregating getUncastPointer loadsPointer stores loop).1.Sublist
      stores.1 := by
  unfold aggregate
  split
  · exact List.filter_sublist
  · exact List.Sublist.refl _

theorem performLoopAggregation_subset (getUncastPointer : V → V)
    (sortedLoops : List (LoopContext B V))
    (stores : List (MemoryStoreHook B V) × List (MemoryBulkStoreHook B V)) : stores.2 ⊆
      (ctx.performLoopAggregation allowAggregating getUncastPointer loadsPointer sortedLoops
        stores).2 := by
  unfold performLoopAggregation
  induction sortedLoops generalizing stores with
  | nil => exact List.Subset.refl _
  | cons loop rest ih =>
      exact List.Subset.trans (aggregate_subset getUncastPointer stores loop) (ih _)

theorem performLoopAggregation_sublist (getUncastPointer : V → V)
    (sortedLoops : List (LoopContext B V))
    (stores : List (MemoryStoreHook B V) × List (MemoryBulkStoreHook B V)) :
    (ctx.performLoopAggregation allowAggregating getUncastPointer loadsPointer sortedLoops
      stores).1.Sublist stores.1 := by
  unfold performLoopAggregation
  induction sortedLoops generalizing stores with
  | nil => exact List.Sublist.refl _
  | cons loop rest ih => exact (ih _).trans (aggregate_sublist getUncastPointer stores loop)

theorem performLoopAggregation_removed (loops : List (SortedLoop ctx.function ir))
    (stores : List (MemoryStoreHook B V) × List (MemoryBulkStoreHook B V))
    {entry : MemoryStoreHook B V} (hmem : entry ∈ stores.1)
    (hgone : entry ∉ (ctx.performLoopAggregation allowAggregating ir.getUncastPointer loadsPointer
      (loops.map fun loop => loop.context) stores).1) :
    ∃ bulk ∈ (ctx.performLoopAggregation allowAggregating ir.getUncastPointer loadsPointer
        (loops.map fun loop => loop.context) stores).2,
      ∃ loop ∈ loops, ctx.AggregatedTo ir loadsPointer loop entry bulk := by
  induction loops generalizing stores with
  | nil => exact absurd hmem hgone
  | cons loop rest ih =>
      by_cases hkept : entry ∈ (ctx.aggregate allowAggregating ir.getUncastPointer loadsPointer
          stores loop.context).1
      · obtain ⟨bulk, hbulk, loop', hloop', hto⟩ := ih _ hkept hgone
        exact ⟨bulk, hbulk, loop', List.mem_cons_of_mem _ hloop', hto⟩
      · obtain ⟨bulk, hbulk, hto⟩ := aggregate_removed stores loop hmem hkept
        refine ⟨bulk, ?_, loop, List.mem_cons_self, hto⟩
        exact performLoopAggregation_subset ir.getUncastPointer
          (rest.map fun loop => loop.context) _ hbulk

end Aggregation

/-! ## All rounds -/

section Rounds

variable [DecidableEq V]

variable (ctx ir loops) in
/-- What `MemoryStore` and `MemoryBulkStore` can be between the passes, in any round.  A set of
pointers is sorted; `eliminated` is for the passes that erase hooks of `MemoryStore` or only look
at `MemoryBulkStore`. -/
inductive BetweenPasses : List (MemoryStoreHook B V) × List (MemoryBulkStoreHook B V) → Prop
  | findMemoryStore {stores : List (MemoryStoreHook B V) × List (MemoryBulkStoreHook B V)}
      (hsorted : stores.1.Pairwise fun lhs rhs => lhs.address < rhs.address)
      (hfound : ∀ entry ∈ stores.1, (entry.insertionPt, entry.pointer) ∈ ir.storeInsts ∧
        entry.copyGep = false) : BetweenPasses stores
  | insertionPtPromotion {stores : List (MemoryStoreHook B V) × List (MemoryBulkStoreHook B V)}
      (h : BetweenPasses stores) :
      BetweenPasses
        (ctx.performInsertionPtPromotion (ir.newInsertionPt ctx.function) stores.1, stores.2)
  | loopHoisting {stores : List (MemoryStoreHook B V) × List (MemoryBulkStoreHook B V)}
      (h : BetweenPasses stores) :
      BetweenPasses (ctx.performLoopHoisting ir.hoistable ir.getUncastPointer
        (loops.map fun loop => loop.context) stores.1, stores.2)
  | redundantStoreElimination
      {stores : List (MemoryStoreHook B V) × List (MemoryBulkStoreHook B V)}
      (h : BetweenPasses stores) :
      BetweenPasses (ctx.performRedundantStoreElimination ir.isMustAlias stores.1, stores.2)
  | loopAggregation {stores : List (MemoryStoreHook B V) × List (MemoryBulkStoreHook B V)}
      (allowAggregating loadsPointer : LoopContext B V → V → Bool) (h : BetweenPasses stores) :
      BetweenPasses (ctx.performLoopAggregation allowAggregating ir.getUncastPointer loadsPointer
        (loops.map fun loop => loop.context) stores)
  | eliminated {stores stores' : List (MemoryStoreHook B V) × List (MemoryBulkStoreHook B V)}
      (h : BetweenPasses stores) (herased : stores'.1.Sublist stores.1) : BetweenPasses stores'

/-- The invariant of the rounds. -/
structure SetOfPlaced (f : ControlFlow B) (ir : IrInfo B V)
    (memoryStore : List (MemoryStoreHook B V)) : Prop where
  sorted : memoryStore.Pairwise fun lhs rhs => lhs.address < rhs.address
  placed : ∀ entry ∈ memoryStore, Placed f ir entry

omit [DecidableEq B] [Fintype B] [DecidableEq V] in
theorem SetOfPlaced.sublist {memoryStore memoryStore' : List (MemoryStoreHook B V)}
    (h : SetOfPlaced ctx.function ir memoryStore) (hsub : memoryStore'.Sublist memoryStore) :
    SetOfPlaced ctx.function ir memoryStore' :=
  ⟨h.sorted.sublist hsub, fun entry hmem => h.placed entry (hsub.subset hmem)⟩

omit [DecidableEq B] [Fintype B] [DecidableEq V] in
theorem SetOfPlaced.map {memoryStore : List (MemoryStoreHook B V)}
    (h : SetOfPlaced ctx.function ir memoryStore) {move : MemoryStoreHook B V → MemoryStoreHook B V}
    (hmove : ∀ entry, Placed ctx.function ir entry →
      Placed ctx.function ir (move entry) ∧ (move entry).address = entry.address) :
    SetOfPlaced ctx.function ir (memoryStore.map move) := by
  refine ⟨List.pairwise_map.mpr ?_, fun moved hmem => ?_⟩
  · refine h.sorted.imp_of_mem fun hlhs hrhs hlt => ?_
    rwa [(hmove _ (h.placed _ hlhs)).2, (hmove _ (h.placed _ hrhs)).2]
  · obtain ⟨entry, hentry, rfl⟩ := List.mem_map.mp hmem
    exact (hmove entry (h.placed entry hentry)).1

theorem BetweenPasses.setOfPlaced (hverified : ir.Verified ctx.function)
    {stores : List (MemoryStoreHook B V) × List (MemoryBulkStoreHook B V)}
    (h : ctx.BetweenPasses ir loops stores) : SetOfPlaced ctx.function ir stores.1 := by
  induction h with
  | findMemoryStore hsorted hfound =>
      refine ⟨hsorted, fun entry hmem => ?_⟩
      obtain ⟨hstore, -⟩ := hfound entry hmem
      exact ⟨hverified.store_plain _ hstore, fun _ => hverified.store_use _ hstore⟩
  | insertionPtPromotion _ ih =>
      exact ih.map fun entry hplaced =>
        ⟨(moves_promote hverified hplaced).placed, (moves_promote hverified hplaced).address⟩
  | loopHoisting _ ih =>
      simp only [performLoopHoisting_eq_map]
      exact ih.map fun entry hplaced => placed_hoistAll hverified loops hplaced
  | redundantStoreElimination _ ih => exact ih.sublist List.filter_sublist
  | loopAggregation _ _ _ ih => exact ih.sublist (performLoopAggregation_sublist _ _ _)
  | eliminated _ herased ih => exact ih.sublist herased

variable (ctx ir loops) in
/-- What the passes do to the hooks of a function: no hook goes or moves across a checkpoint that
the search between the compared places does not miss. -/
structure KeepsHooksOf (stores : List (MemoryStoreHook B V) × List (MemoryBulkStoreHook B V)) :
    Prop where
  redundantStoreElimination : ∀ entry ∈ stores.1,
    entry ∉ ctx.performRedundantStoreElimination ir.isMustAlias stores.1 →
    ∃ kept ∈ ctx.performRedundantStoreElimination ir.isMustAlias stores.1,
      ctx.KeptFor ir stores.1 kept entry
  insertionPtPromotion : List.Forall₂ (fun entry entry' => entry'.pointer = entry.pointer ∧
      ctx.function.Dominates entry'.insertionPt entry.insertionPt ∧
      (ctx.Clear entry'.insertionPt entry.insertionPt →
        ¬ ctx.Splits entry'.insertionPt entry.insertionPt)) stores.1
    (ctx.performInsertionPtPromotion (ir.newInsertionPt ctx.function) stores.1)
  loopHoisting : List.Forall₂ (fun entry entry' =>
      (∃ n, entry'.pointer = ir.getUncastPointer^[n] entry.pointer) ∧
      ctx.function.Dominates entry'.insertionPt entry.insertionPt ∧
      ((ctx.placesOf loops entry).IsChain (fun old new => ctx.Clear new old) →
        ¬ ctx.Splits entry'.insertionPt entry.insertionPt)) stores.1
    (ctx.performLoopHoisting ir.hoistable ir.getUncastPointer (loops.map fun loop => loop.context)
      stores.1)
  loopAggregation : ∀ allowAggregating loadsPointer, ∀ entry ∈ stores.1,
    entry ∉ (ctx.performLoopAggregation allowAggregating ir.getUncastPointer loadsPointer
      (loops.map fun loop => loop.context) stores).1 →
    ∃ bulk ∈ (ctx.performLoopAggregation allowAggregating ir.getUncastPointer loadsPointer
        (loops.map fun loop => loop.context) stores).2,
      ∃ loop ∈ loops, ctx.AggregatedTo ir loadsPointer loop entry bulk

variable (ctx) in
/-- In every round of `performAllOptimizations` the passes keep the hooks. -/
def KeepsHooks : Prop :=
  ∀ (V : Type) [DecidableEq V] (ir : IrInfo B V) (loops : List (SortedLoop ctx.function ir)),
    ir.Verified ctx.function → ∀ stores, ctx.BetweenPasses ir loops stores →
      ctx.KeepsHooksOf ir loops stores

omit [DecidableEq V] in
theorem promote_pointer (newInsertionPt : V → Option (Inst B)) (entry : MemoryStoreHook B V) :
    (ctx.promote newInsertionPt entry).pointer = entry.pointer := by
  unfold promote
  split
  · rfl
  · split
    · rfl
    · split <;> rfl

theorem keepsHooks : ctx.KeepsHooks := by
  intro V _ ir loops hverified stores hbetween
  have hset := hbetween.setOfPlaced hverified
  constructor
  case redundantStoreElimination =>
    intro entry hmem hgone
    have hnodup : stores.1.Nodup := by
      refine hset.sorted.imp fun hlt heq => ?_
      rw [heq] at hlt
      exact Nat.lt_irrefl _ hlt
    have hbuffer : entry ∈ ctx.redundantStores ir.isMustAlias stores.1 := by
      by_contra hkept
      exact hgone (List.mem_filter.mpr ⟨hmem, by simpa using hkept⟩)
    obtain ⟨kept, hkept, hstays, hfor⟩ := exists_keptFor hnodup hbuffer
    exact ⟨kept, List.mem_filter.mpr ⟨hkept, by simpa using hstays⟩, hfor⟩
  case insertionPtPromotion =>
    rw [performInsertionPtPromotion, List.forall₂_map_right_iff, List.forall₂_same]
    intro entry hmem
    have hmove := moves_promote hverified (hset.placed entry hmem)
    exact ⟨promote_pointer _ entry, hmove.dominates, hmove.not_splits⟩
  case loopHoisting =>
    rw [performLoopHoisting_eq_map, List.forall₂_map_right_iff, List.forall₂_same]
    intro entry hmem
    have hplaced := hset.placed entry hmem
    exact ⟨pointer_hoistAll hverified loops hplaced, dominates_hoistAll hverified loops hplaced,
      not_splits_hoistAll hverified loops hplaced⟩
  case loopAggregation =>
    intro allowAggregating loadsPointer entry hmem hgone
    exact performLoopAggregation_removed loops stores hmem hgone

end Rounds

/-- `maySplitByCheckpoint` is right exactly where no call stands before `stop` in its own
block, unless something else makes it true, and there the optimisations keep the hooks on
their side of the checkpoints. -/
theorem maySplitByCheckpoint_sound_iff (ctx : FunctionContext B) :
    (∀ start stop, ctx.function.Dominates start stop →
      ((ctx.Splits start stop → ctx.maySplitByCheckpoint start stop = true) ↔
        ctx.Clear start stop)) ∧ ctx.KeepsHooks :=
  ⟨fun _ _ hdom => splits_found_iff_clear hdom, keepsHooks⟩

end FunctionContext

/-! ## A store in a loop -/

inductive StoreLoopBlock
  | preheader | body | exit
  deriving DecidableEq

instance : Fintype StoreLoopBlock where
  elems := {.preheader, .body, .exit}
  complete b := by cases b <;> decide

/-- `p = ...; do { *p = x; } while (...); crpm_checkpoint();` -/
def storeLoop : ControlFlow StoreLoopBlock where
  entry := .preheader
  predecessors
    | .preheader => []
    | .body => [.preheader, .body]
    | .exit => [.body]
  size _ := 2

noncomputable def storeLoopContext : FunctionContext StoreLoopBlock where
  function := storeLoop
  dt := .ofFunction storeLoop
  checkpointCalls := [⟨.exit, 0⟩]

def storeLoopInfo : IrInfo StoreLoopBlock Nat where
  castOperand _ := none
  gepOf _ := none
  loadOf _ := none
  definition v := if v = 0 then some ⟨.preheader, 0⟩ else none
  storeInsts := [(⟨.body, 0⟩, 0)]
  isMustAlias v u := v = u
  isNoAlias v u := v ≠ u
  isArgument _ := false
  isConstant _ := false
  isPhi _ := false
  isDebug _ := false

theorem storeLoop_verified : storeLoopInfo.Verified storeLoop where
  phis_first _ _ _ _ h := by cases h
  terminator_plain _ := ⟨Nat.lt_succ_self 1, rfl, rfl⟩
  argument _ h := by cases h
  constant _ h := by cases h
  cast _ _ h := by cases h
  store_plain store hmem := by
    obtain rfl := List.mem_singleton.mp hmem
    exact ⟨by decide, rfl, rfl⟩
  store_use store hmem _ d hdef := by
    obtain rfl := List.mem_singleton.mp hmem
    obtain rfl : (⟨.preheader, 0⟩ : Inst StoreLoopBlock) = d := Option.some.inj hdef
    exact ⟨by decide, Or.inl rfl⟩

def storeLoopOnly : SortedLoop storeLoopContext.function storeLoopInfo where
  header := .body
  basicBlocks := [.body]
  preHeader := some .preheader
  entry_out := by decide
  reachable b hb := by
    obtain rfl := List.mem_singleton.mp hb
    exact (ReflTransGen.single (.next (by decide))).tail (.jump rfl (by decide))
  entered _ hb _ _ _ _ := List.mem_singleton.mp hb
  preHeader_out := by decide
  preHeader_only := by decide
  indVar := none
  branch p hp v hdef := by
    simp only [storeLoopInfo] at hdef
    split at hdef
    · cases hp
      cases hdef
    · cases hdef

theorem storeLoop_maySplit :
    storeLoopContext.maySplitByCheckpoint ⟨.preheader, 1⟩ ⟨.body, 0⟩ = false := by
  simp [FunctionContext.maySplitByCheckpoint, storeLoopContext, storeLoop, Graph.search,
    FunctionContext.hasCheckpointCall]

theorem storeLoop_hoist : storeLoopContext.hoist storeLoopInfo.hoistable
    storeLoopInfo.getUncastPointer storeLoopOnly.context ⟨7, ⟨.body, 0⟩, 0, false⟩ =
    ⟨7, ⟨.preheader, 1⟩, 0, false⟩ := by
  have hpt : storeLoopOnly.context.insertionPt = some ⟨.preheader, 1⟩ := by decide
  have hhoistable : storeLoopInfo.hoistable storeLoopOnly.context 0 = some false := by decide
  have hblocks : storeLoopOnly.context.basicBlocks = [.body] := rfl
  have huncast : storeLoopInfo.getUncastPointer 0 = 0 := rfl
  simp [FunctionContext.hoist, hpt, hblocks, storeLoop_maySplit, hhoistable, huncast]

/-- The hook of the store moves to the end of the block before the loop, and the checkpoint
behind the loop stays behind it. -/
theorem maySplitByCheckpoint_sound_storeLoop :
    storeLoopContext.performLoopHoisting storeLoopInfo.hoistable storeLoopInfo.getUncastPointer
      [storeLoopOnly.context] [⟨7, ⟨.body, 0⟩, 0, false⟩] = [⟨7, ⟨.preheader, 1⟩, 0, false⟩] ∧
    storeLoop.Dominates ⟨.preheader, 1⟩ ⟨.body, 0⟩ ∧
    ¬ storeLoopContext.Splits ⟨.preheader, 1⟩ ⟨.body, 0⟩ := by
  have hmoved : storeLoopContext.performLoopHoisting storeLoopInfo.hoistable
      storeLoopInfo.getUncastPointer [storeLoopOnly.context] [⟨7, ⟨.body, 0⟩, 0, false⟩] =
      [⟨7, ⟨.preheader, 1⟩, 0, false⟩] := by
    rw [FunctionContext.performLoopHoisting, List.foldl_cons, List.map_singleton, storeLoop_hoist]
    rfl
  have hbetween : storeLoopContext.BetweenPasses storeLoopInfo [storeLoopOnly]
      ([⟨7, ⟨.body, 0⟩, 0, false⟩], []) :=
    .findMemoryStore (by simp) (by simp [storeLoopInfo])
  have hkeeps := ((FunctionContext.maySplitByCheckpoint_sound_iff storeLoopContext).2 Nat
    storeLoopInfo [storeLoopOnly] storeLoop_verified _ hbetween).loopHoisting
  simp only [List.map_cons, List.map_nil, hmoved, List.forall₂_cons] at hkeeps
  obtain ⟨⟨-, hdom, hside⟩, -⟩ := hkeeps
  refine ⟨hmoved, hdom, hside ?_⟩
  rw [FunctionContext.placesOf_cons, storeLoop_hoist]
  refine List.isChain_cons_cons.mpr ⟨Or.inr (Or.inl ?_), .singleton _⟩
  intro call hmem hparent
  obtain rfl := List.mem_singleton.mp hmem
  cases hparent

end Libcrpm
