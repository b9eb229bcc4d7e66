import Libcrpm.ControlFlow
import Libcrpm.Graph.BackwardSearch

/-!
# Hooks and checkpoints in the instrumentation pass

`FunctionContext::maySplitByCheckpoint` and the optimisations that remove or move a hook
where it returns false.  What LLVM knows of values and loops comes in as parameters.
-/

namespace Libcrpm

open Relation Libcrpm.Graph

/-- `llvm::DominatorTree`: anything dominates what no execution comes to, and nothing
dominates itself. -/
structure DominatorTree {B : Type} (f : ControlFlow B) where
  dominates : Inst B → Inst B → Bool
  spec : ∀ a b, dominates a b = true ↔ (f.Reachable b → a ≠ b ∧ f.Dominates a b)

theorem looked_at {B : Type} {f : ControlFlow B} {start stop x : Inst B}
    (hvalid : start.pos < f.size start.parent) (hblock : start.parent ≠ stop.parent)
    (h : ReflTransGen (f.StepAvoiding start) x stop) :
    x.parent = stop.parent ∧ x.pos ≤ stop.pos ∨
      ∃ b, Visits f.predecessors start.parent stop.parent b ∧ b ≠ start.parent ∧
        x.parent ∈ f.predecessors b := by
  induction h using ReflTransGen.head_induction_on with
  | refl => exact Or.inl ⟨rfl, Nat.le_refl _⟩
  | @head x y hstep hsteps ih =>
      cases hstep.1 with
      | next _ =>
          rcases ih with ⟨hparent, hpos⟩ | hvisits
          · exact Or.inl ⟨hparent, Nat.le_of_lt hpos⟩
          · exact Or.inr hvisits
      | @jump b b' _ _ hpred =>
          have hne : b' ≠ start.parent := by
            intro heq
            have hbehind := ControlFlow.behind_top hstep.2 heq
            exact hblock (ControlFlow.before_steps hvalid ⟨heq, hbehind⟩ hsteps).1.symm
          rcases ih with ⟨hparent, _⟩ | ⟨c, hc, hcne, hcpred⟩
          · refine Or.inr ⟨b', ?_, hne, hpred⟩
            rw [show b' = stop.parent from hparent]
            exact .stop
          · exact Or.inr ⟨b', hc.pred hcne hcpred, hne, hpred⟩

structure FunctionContext (B : Type) where
  function : ControlFlow B
  dt : DominatorTree function
  checkpointCalls : List (Inst B)

namespace FunctionContext

variable {B V : Type} [DecidableEq B] (ctx : FunctionContext B)

def hasCheckpointCall (b : B) : Bool := ctx.checkpointCalls.any fun call => call.parent = b

theorem hasCheckpointCall_iff {b : B} :
    ctx.hasCheckpointCall b = true ↔ ∃ call ∈ ctx.checkpointCalls, call.parent = b := by
  simp [hasCheckpointCall]

variable [Fintype B]

def maySplitByCheckpoint (start stop : Inst B) : Bool :=
  if ctx.checkpointCalls.isEmpty then false
  else if ctx.checkpointCalls.any fun call => call = start || call = stop then true
  else if start.parent = stop.parent then
    ctx.checkpointCalls.any fun call =>
      call.parent = start.parent && (ctx.dt.dominates start call && !ctx.dt.dominates stop call)
  else
    search ctx.function.predecessors start.parent ctx.hasCheckpointCall ∅ [stop.parent]

/-! ## The optimisations -/

/-- A hook is kept in a set of pointers; `address` is its own one. -/
structure MemoryStoreHook (B V : Type) where
  address : Nat
  insertionPt : Inst B
  pointer : V
  copyGep : Bool
deriving DecidableEq

structure MemoryBulkStoreHook (B V : Type) where
  insertionPt : Inst B
  pointer : V
  lengthOrStartIndex : V
  useStartStopIndex : Bool
  stopIndex : V
  copyLoad : Bool

/-- `insertionPt` is the terminator of the preheader, if there is one. -/
structure LoopContext (B V : Type) where
  insertionPt : Option (Inst B)
  basicBlocks : List B
  indVar : Option (V × V)

/-- The hooks that an earlier one in the set makes redundant. -/
def redundantStores (isMustAlias : V → V → Bool) :
    List (MemoryStoreHook B V) → List (MemoryStoreHook B V)
  | [] => []
  | lhs :: rest =>
      (rest.filter fun rhs => ctx.dt.dominates lhs.insertionPt rhs.insertionPt &&
        isMustAlias lhs.pointer rhs.pointer &&
        !ctx.maySplitByCheckpoint lhs.insertionPt rhs.insertionPt) ++
      redundantStores isMustAlias rest

def performRedundantStoreElimination [DecidableEq V] (isMustAlias : V → V → Bool)
    (memoryStore : List (MemoryStoreHook B V)) : List (MemoryStoreHook B V) :=
  let buffer := ctx.redundantStores isMustAlias memoryStore
  memoryStore.filter fun entry => entry ∉ buffer

/-- `newInsertionPt` names the first place behind the definition of a pointer. -/
def promote (newInsertionPt : V → Option (Inst B)) (entry : MemoryStoreHook B V) :
    MemoryStoreHook B V :=
  match newInsertionPt entry.pointer with
  | none => entry
  | some pt =>
      if entry.copyGep then entry
      else if ctx.maySplitByCheckpoint pt entry.insertionPt then entry
      else { entry with insertionPt := pt }

def performInsertionPtPromotion (newInsertionPt : V → Option (Inst B))
    (memoryStore : List (MemoryStoreHook B V)) : List (MemoryStoreHook B V) :=
  memoryStore.map (ctx.promote newInsertionPt)

/-- `hoistable` tells whether a pointer allows its hook to leave the loop, and if so whether
its address computation has to be copied. -/
def hoist (hoistable : LoopContext B V → V → Option Bool) (getUncastPointer : V → V)
    (loop : LoopContext B V) (entry : MemoryStoreHook B V) : MemoryStoreHook B V :=
  match loop.insertionPt with
  | none => entry
  | some pt =>
      if entry.insertionPt.parent ∉ loop.basicBlocks then entry
      else if ctx.maySplitByCheckpoint pt entry.insertionPt then entry
      else match hoistable loop entry.pointer with
        | none => entry
        | some copyGep => { entry with
            pointer := getUncastPointer entry.pointer
            insertionPt := pt
            copyGep := entry.copyGep || copyGep }

def performLoopHoisting (hoistable : LoopContext B V → V → Option Bool)
    (getUncastPointer : V → V) (sortedLoops : List (LoopContext B V))
    (memoryStore : List (MemoryStoreHook B V)) : List (MemoryStoreHook B V) :=
  sortedLoops.foldl (fun store loop => store.map (ctx.hoist hoistable getUncastPointer loop))
    memoryStore

/-- The hooks of a loop that one hook for the whole range replaces. -/
def aggregated (allowAggregating : LoopContext B V → V → Bool) (loop : LoopContext B V)
    (pt : Inst B) (memoryStore : List (MemoryStoreHook B V)) : List (MemoryStoreHook B V) :=
  loop.basicBlocks.flatMap fun b => memoryStore.filter fun entry =>
    entry.insertionPt.parent = b && !ctx.maySplitByCheckpoint pt entry.insertionPt &&
      allowAggregating loop entry.pointer

def aggregate [DecidableEq V] (allowAggregating : LoopContext B V → V → Bool)
    (getUncastPointer : V → V) (loadsPointer : LoopContext B V → V → Bool)
    (stores : List (MemoryStoreHook B V) × List (MemoryBulkStoreHook B V))
    (loop : LoopContext B V) : List (MemoryStoreHook B V) × List (MemoryBulkStoreHook B V) :=
  match loop.insertionPt, loop.indVar with
  | some pt, some (initialVal, finalVal) =>
      let hoisting := ctx.aggregated allowAggregating loop pt stores.1
      (stores.1.filter fun entry => entry ∉ hoisting,
        stores.2 ++ hoisting.map fun entry =>
          ⟨pt, getUncastPointer entry.pointer, initialVal, true, finalVal,
            loadsPointer loop entry.pointer⟩)
  | _, _ => stores

def performLoopAggregation [DecidableEq V] (allowAggregating : LoopContext B V → V → Bool)
    (getUncastPointer : V → V) (loadsPointer : LoopContext B V → V → Bool)
    (sortedLoops : List (LoopContext B V))
    (stores : List (MemoryStoreHook B V) × List (MemoryBulkStoreHook B V)) :
    List (MemoryStoreHook B V) × List (MemoryBulkStoreHook B V) :=
  sortedLoops.foldl (ctx.aggregate allowAggregating getUncastPointer loadsPointer) stores

/-! ## What lies between two instructions -/

/-- Some execution takes a checkpoint between `start` and `stop`. -/
def Splits (start stop : Inst B) : Prop :=
  ∃ call ∈ ctx.checkpointCalls, ctx.function.Between start call stop

/-- The calls that stand before `stop` in its own block are the ones the search between two
blocks does not look at. -/
def Clear (start stop : Inst B) : Prop :=
  start.parent = stop.parent ∨
    (∀ call ∈ ctx.checkpointCalls, call.parent = stop.parent → stop.pos ≤ call.pos) ∨
    start ∈ ctx.checkpointCalls ∨ stop ∈ ctx.checkpointCalls ∨
    Finds ctx.function.predecessors start.parent stop.parent ctx.hasCheckpointCall ∨
    ¬ ctx.function.Reachable stop

variable {ctx}

theorem maySplit_of_mem {start stop : Inst B}
    (h : start ∈ ctx.checkpointCalls ∨ stop ∈ ctx.checkpointCalls) :
    ctx.maySplitByCheckpoint start stop = true := by
  have hany : ctx.checkpointCalls.any (fun call => call = start || call = stop) = true := by
    rw [List.any_eq_true]
    rcases h with h | h
    · exact ⟨start, h, by simp⟩
    · exact ⟨stop, h, by simp⟩
  have hempty : ctx.checkpointCalls.isEmpty = false := by
    rw [List.isEmpty_eq_false_iff_exists_mem]
    exact h.elim (fun h => ⟨_, h⟩) fun h => ⟨_, h⟩
  rw [maySplitByCheckpoint, hempty, hany]
  rfl

theorem maySplit_other_block {start stop : Inst B} (hblock : start.parent ≠ stop.parent)
    (hstart : start ∉ ctx.checkpointCalls) (hstop : stop ∉ ctx.checkpointCalls) :
    ctx.maySplitByCheckpoint start stop = true ↔
      Finds ctx.function.predecessors start.parent stop.parent ctx.hasCheckpointCall := by
  have hany : ctx.checkpointCalls.any (fun call => call = start || call = stop) = false := by
    rw [List.any_eq_false]
    intro call hcall
    have hne : call ≠ start ∧ call ≠ stop := ⟨by rintro rfl; contradiction, by rintro rfl; contradiction⟩
    simp [hne.1, hne.2]
  rw [← search_eq_true_iff, maySplitByCheckpoint, hany, if_neg hblock]
  cases hcalls : ctx.checkpointCalls with
  | nil =>
      rw [search_eq_true_iff]
      refine iff_of_false (by simp) ?_
      rintro ⟨b, _, _, p, _, hhit⟩
      simp [hasCheckpointCall, hcalls] at hhit
  | cons call rest => simp

theorem Splits.maySplit_same_block {start stop : Inst B} (h : ctx.Splits start stop)
    (hdom : ctx.function.Dominates start stop) (hblock : start.parent = stop.parent) :
    ctx.maySplitByCheckpoint start stop = true := by
  obtain ⟨call, hmem, hbetween⟩ := h
  have hpos : start.pos < stop.pos := by
    refine Nat.lt_of_le_of_ne (hdom.pos_le hbetween.reachable hblock) fun heq => ?_
    obtain ⟨_, _, hlast⟩ := TransGen.tail'_iff.mp hbetween.after
    refine hlast.2 ?_
    cases start
    cases stop
    simp_all
  obtain ⟨hparent, hlow, hhigh⟩ := hbetween.same_block hblock.symm hpos
  have hstart : ctx.dt.dominates start call = true := by
    refine (ctx.dt.spec start call).mpr fun _ => ⟨?_, ?_⟩
    · rintro rfl
      exact absurd hlow (Nat.lt_irrefl _)
    · exact ControlFlow.dominates_of_pos_lt hparent.symm hlow
  have hstop : ctx.dt.dominates stop call = false := by
    refine Bool.eq_false_iff.mpr fun htrue => ?_
    obtain ⟨_, hstopDom⟩ := (ctx.dt.spec stop call).mp htrue hbetween.reachable_call
    have hle := hstopDom.pos_le hbetween.reachable_stop (hblock.symm.trans hparent.symm)
    omega
  have hempty : ctx.checkpointCalls.isEmpty = false :=
    List.isEmpty_eq_false_iff_exists_mem.mpr ⟨call, hmem⟩
  rw [maySplitByCheckpoint, hempty, if_pos hblock]
  split
  · contradiction
  · split
    · rfl
    · exact List.any_eq_true.mpr ⟨call, hmem, by simp [hparent, hstart, hstop]⟩

omit [Fintype B] in
theorem Splits.finds {start stop : Inst B} (h : ctx.Splits start stop)
    (hblock : start.parent ≠ stop.parent) :
    (∃ call ∈ ctx.checkpointCalls, call.parent = stop.parent ∧ call.pos ≤ stop.pos) ∨
      Finds ctx.function.predecessors start.parent stop.parent ctx.hasCheckpointCall := by
  obtain ⟨call, hmem, hbetween⟩ := h
  rcases looked_at hbetween.pos_lt hblock hbetween.after.to_reflTransGen with hstop | hvisits
  · exact Or.inl ⟨call, hmem, hstop⟩
  · obtain ⟨b, hb, hne, hpred⟩ := hvisits
    exact Or.inr ⟨b, hb, hne, call.parent, hpred, ctx.hasCheckpointCall_iff.mpr ⟨call, hmem, rfl⟩⟩

theorem splits_found_of_clear {start stop : Inst B} (hdom : ctx.function.Dominates start stop)
    (hclear : ctx.Clear start stop) (hsplits : ctx.Splits start stop) :
    ctx.maySplitByCheckpoint start stop = true := by
  by_cases hblock : start.parent = stop.parent
  · exact hsplits.maySplit_same_block hdom hblock
  by_cases hcalls : start ∈ ctx.checkpointCalls ∨ stop ∈ ctx.checkpointCalls
  · exact maySplit_of_mem hcalls
  obtain ⟨hstart, hstop⟩ := not_or.mp hcalls
  rw [maySplit_other_block hblock hstart hstop]
  rcases hclear with h | hbegin | h | h | hfinds | hunreachable
  · exact absurd h hblock
  · rcases hsplits.finds hblock with ⟨call, hmem, hparent, hle⟩ | hfinds
    · have hpos := hbegin call hmem hparent
      have hsame : call = stop := by
        cases call
        cases stop
        simp_all
        omega
      exact absurd (hsame ▸ hmem) hstop
    · exact hfinds
  · exact absurd h hstart
  · exact absurd h hstop
  · exact hfinds
  · obtain ⟨_, _, hbetween⟩ := hsplits
    exact absurd hbetween.reachable_stop hunreachable

/-- The search between two blocks misses exactly the calls before `stop` in its own block. -/
theorem splits_found_iff_clear {start stop : Inst B} (hdom : ctx.function.Dominates start stop) :
    (ctx.Splits start stop → ctx.maySplitByCheckpoint start stop = true) ↔
      ctx.Clear start stop := by
  refine ⟨fun hfound => ?_, splits_found_of_clear hdom⟩
  by_cases hblock : start.parent = stop.parent
  · exact Or.inl hblock
  by_cases hstop : stop ∈ ctx.checkpointCalls
  · exact Or.inr (Or.inr (Or.inr (Or.inl hstop)))
  by_cases hstart : start ∈ ctx.checkpointCalls
  · exact Or.inr (Or.inr (Or.inl hstart))
  by_cases hreach : ctx.function.Reachable stop
  · rw [maySplit_other_block hblock hstart hstop] at hfound
    by_cases hbegin : ∀ call ∈ ctx.checkpointCalls, call.parent = stop.parent → stop.pos ≤ call.pos
    · exact Or.inr (Or.inl hbegin)
    · push Not at hbegin
      obtain ⟨call, hmem, hparent, hlt⟩ := hbegin
      have hfinds := hfound
        ⟨call, hmem, ControlFlow.between_of_dominates hdom hreach hblock hparent hlt⟩
      exact Or.inr (Or.inr (Or.inr (Or.inr (Or.inl hfinds))))
  · exact Or.inr (Or.inr (Or.inr (Or.inr (Or.inr hreach))))

end FunctionContext

/-! ## A function with a checkpoint at the beginning of its second block -/

open Classical in
/-- The dominator tree of any function. -/
noncomputable def DominatorTree.ofFunction {B : Type} (f : ControlFlow B) : DominatorTree f where
  dominates a b := decide (f.Reachable b → a ≠ b ∧ f.Dominates a b)
  spec _ _ := decide_eq_true_iff

def twoBlocks : ControlFlow Bool where
  entry := false
  predecessors b := if b then [false] else []
  size _ := 2

/-- `store p; br B` and `B: crpm_checkpoint(); store p`. -/
noncomputable def twoStores : FunctionContext Bool where
  function := twoBlocks
  dt := .ofFunction twoBlocks
  checkpointCalls := [⟨true, 0⟩]

theorem twoStores_between : twoBlocks.Between ⟨false, 0⟩ ⟨true, 0⟩ ⟨true, 1⟩ where
  reachable := .refl
  before := (TransGen.single ⟨.next (by decide), by decide⟩).tail
    ⟨.jump (by decide) (by decide), by decide⟩
  after := .single ⟨.next (by decide), by decide⟩

/-- The hook of the second store is redundant, although a checkpoint comes between. -/
theorem not_maySplitByCheckpoint_sound : twoBlocks.Dominates ⟨false, 0⟩ ⟨true, 1⟩ ∧
    twoStores.Splits ⟨false, 0⟩ ⟨true, 1⟩ ∧
    twoStores.maySplitByCheckpoint ⟨false, 0⟩ ⟨true, 1⟩ = false := by
  refine ⟨Or.inl rfl, ⟨_, List.mem_singleton_self _, twoStores_between⟩, ?_⟩
  rw [Bool.eq_false_iff, Ne, FunctionContext.maySplit_other_block (by decide) (by decide) (by decide)]
  rintro ⟨b, hb, hne, p, hp, hhit⟩
  cases b with
  | false => exact hne rfl
  | true =>
      obtain rfl : p = false := by simpa [twoStores, twoBlocks] using hp
      simp [FunctionContext.hasCheckpointCall, twoStores] at hhit

end Libcrpm
