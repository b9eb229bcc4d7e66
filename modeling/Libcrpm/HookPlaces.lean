import Libcrpm.NaturalLoops
import Libcrpm.SsaExecution

/-!
# Where hooks can stand

What `performInsertionPtPromotion` and `performLoopHoisting` look at in a function that the
LLVM verifier has accepted, and where they put a hook: the new place dominates the old one.
-/

namespace Libcrpm

open Relation ControlFlow

/-! ## What the passes look at -/

/-- `isConstant` covers the global variables. -/
structure IrInfo (B V : Type) extends ValueInfo B V where
  isArgument : V → Bool
  isConstant : V → Bool
  isPhi : Inst B → Bool
  isDebug : Inst B → Bool

namespace IrInfo

variable {B V : Type} (ir : IrInfo B V) (f : ControlFlow B)

def getFirstNonPHIOrDbg (b : B) : Option (Inst B) :=
  f.findFrom (fun x => !ir.isPhi x && !ir.isDebug x) b 0

def getNextNonDebugInstruction (x : Inst B) : Option (Inst B) :=
  f.findFrom (fun y => !ir.isDebug y) x.parent (x.pos + 1)

/-- Where `performInsertionPtPromotion` puts the hook of a pointer. -/
def newInsertionPt (pointer : V) : Option (Inst B) :=
  match ir.definition pointer with
  | none => none
  | some d => if ir.isPhi d then ir.getFirstNonPHIOrDbg f d.parent else
      ir.getNextNonDebugInstruction f d

section Loops

variable [DecidableEq B]

def isPointerOutOfLoop (basicBlocks : List B) (pointer : V) : Bool :=
  ir.isConstant pointer || ir.isArgument pointer ||
    (ir.definition pointer).any fun d => d.parent ∉ basicBlocks

def allowHoistingGetElemPtr (basicBlocks : List B) (gep : GetElementPtr V) : Bool :=
  ir.isPointerOutOfLoop basicBlocks gep.pointerOperand &&
    gep.indices.all fun index =>
      match index with
      | .element index _ => ir.isPointerOutOfLoop basicBlocks index
      | .field _ => true

/-- Whether `performLoopHoisting` takes the hook of a pointer out of the loop, and if so
whether the address computation is copied. -/
def hoistable (loop : FunctionContext.LoopContext B V) (pointer : V) : Option Bool :=
  if ir.isArgument pointer then some false
  else if (ir.definition pointer).isSome then
    if ir.isPointerOutOfLoop loop.basicBlocks (ir.getUncastPointer pointer) then some false
    else match ir.gepOf (ir.getUncastPointer pointer) with
      | some gep => if ir.allowHoistingGetElemPtr loop.basicBlocks gep then some true else none
      | none => none
  else none

end Loops

/-- An instruction of the function that a hook can stand before. -/
def Plain (x : Inst B) : Prop :=
  x.pos < f.size x.parent ∧ ir.isPhi x = false ∧ ir.isDebug x = false

/-- What the LLVM verifier checks: phi nodes come first in a block and a terminator last, only
instructions are defined somewhere, and a reachable use is dominated by its definition. -/
structure Verified : Prop where
  phis_first : ∀ x y, x.parent = y.parent → x.pos ≤ y.pos → ir.isPhi y = true → ir.isPhi x = true
  terminator_plain : ∀ b, ir.Plain f (f.terminator b)
  argument : ∀ v, ir.isArgument v = true → ir.definition v = none
  constant : ∀ v, ir.isConstant v = true → ir.definition v = none
  cast : ∀ v operand, ir.castOperand v = some operand → ∃ d, ir.definition v = some d ∧
    (f.Reachable d → ir.Available f operand d)
  store_plain : ∀ store ∈ ir.storeInsts, ir.Plain f store.1
  store_use : ∀ store ∈ ir.storeInsts, f.Reachable store.1 → ir.Available f store.2 store.1

end IrInfo

namespace IrInfo

variable {B V : Type} {ir : IrInfo B V} {f : ControlFlow B}

theorem Verified.available_uncast (h : ir.Verified f) {v : V} {x : Inst B} (hx : f.Reachable x)
    (hv : ir.Available f v x) : ir.Available f (ir.getUncastPointer v) x := by
  unfold ValueInfo.getUncastPointer
  cases hcast : ir.castOperand v with
  | none => exact hv
  | some operand =>
      obtain ⟨d, hdef, huse⟩ := h.cast v operand hcast
      have hdom := hv d hdef
      have hd : f.Reachable d := (hdom.2.steps hx).1
      exact fun d' hdef' => (huse hd d' hdef').trans hdom hd

theorem Verified.uncast_argument (h : ir.Verified f) {v : V} (hv : ir.isArgument v = true) :
    ir.getUncastPointer v = v := by
  unfold ValueInfo.getUncastPointer
  cases hcast : ir.castOperand v with
  | none => rfl
  | some operand =>
      obtain ⟨d, hdef, -⟩ := h.cast v operand hcast
      rw [h.argument v hv] at hdef
      cases hdef

theorem newInsertionPt_spec (h : ir.Verified f) {v : V} {pt : Inst B}
    (hpt : ir.newInsertionPt f v = some pt) : ∃ d, ir.definition v = some d ∧
      pt.parent = d.parent ∧ d.pos < pt.pos ∧ ir.Plain f pt ∧
      ∀ x, ir.Plain f x → x.parent = d.parent → d.pos < x.pos → pt.pos ≤ x.pos := by
  unfold newInsertionPt at hpt
  cases hdef : ir.definition v with
  | none =>
      rw [hdef] at hpt
      cases hpt
  | some d =>
      simp only [hdef] at hpt
      refine ⟨d, rfl, ?_⟩
      split at hpt
      · rename_i hphi
        obtain ⟨hparent, -, hsize, haccepts, hnone⟩ := findFrom_eq_some hpt
        simp only [Bool.and_eq_true, Bool.not_eq_true'] at haccepts
        have hbehind : d.pos < pt.pos := by
          refine Nat.lt_of_not_le fun hle => ?_
          have hptphi := h.phis_first pt d hparent hle hphi
          rw [haccepts.1] at hptphi
          cases hptphi
        refine ⟨hparent, hbehind, ⟨hparent ▸ hsize, haccepts⟩, fun x hx hblock _ => ?_⟩
        refine Nat.le_of_not_lt fun hlt => ?_
        have hskipped := hnone x.pos (Nat.zero_le _) hlt
        rw [← hblock] at hskipped
        simp [hx.2.1, hx.2.2] at hskipped
      · rename_i hphi
        obtain ⟨hparent, hbehind, hsize, haccepts, hnone⟩ := findFrom_eq_some hpt
        have hnotphi : ir.isPhi pt = false := Bool.eq_false_iff.mpr fun hptphi =>
          hphi (h.phis_first d pt hparent.symm (Nat.le_of_lt hbehind) hptphi)
        refine ⟨hparent, hbehind, ⟨hparent ▸ hsize, hnotphi, by simpa using haccepts⟩,
          fun x hx hblock hlow => ?_⟩
        refine Nat.le_of_not_lt fun hlt => ?_
        have hskipped := hnone x.pos hlow hlt
        rw [← hblock] at hskipped
        simp [hx.2.2] at hskipped

end IrInfo

/-- A loop as `findLoops` records it; the terminator of a preheader is a plain branch. -/
structure SortedLoop {B V : Type} (f : ControlFlow B) (ir : IrInfo B V) extends NaturalLoop f where
  indVar : Option (V × V)
  branch : ∀ p, preHeader = some p → ∀ v, ir.definition v ≠ some (f.terminator p)

namespace SortedLoop

variable {B V : Type} {f : ControlFlow B} {ir : IrInfo B V} (loop : SortedLoop f ir)

def insertionPt : Option (Inst B) :=
  match loop.preHeader with
  | none => none
  | some preHeader =>
      match ir.getFirstNonPHIOrDbg f preHeader with
      | none => none
      | some first =>
          f.findFrom (fun x => !ir.isDebug x && f.isTerminator x) preHeader first.pos

def context [DecidableEq B] : FunctionContext.LoopContext B V where
  insertionPt := loop.insertionPt
  basicBlocks := loop.basicBlocks
  indVar := loop.indVar.filter fun bounds =>
    ir.isPointerOutOfLoop loop.basicBlocks bounds.1 && ir.isPointerOutOfLoop loop.basicBlocks bounds.2

variable {loop}

theorem insertionPt_spec {pt : Inst B} (h : loop.insertionPt = some pt) :
    ∃ preHeader, loop.preHeader = some preHeader ∧ pt = f.terminator preHeader := by
  unfold insertionPt at h
  cases hpre : loop.preHeader with
  | none =>
      rw [hpre] at h
      cases h
  | some preHeader =>
      refine ⟨preHeader, rfl, ?_⟩
      simp only [hpre] at h
      cases hfirst : ir.getFirstNonPHIOrDbg f preHeader with
      | none =>
          rw [hfirst] at h
          cases h
      | some first =>
          rw [hfirst] at h
          obtain ⟨hparent, -, -, haccepts, -⟩ := findFrom_eq_some h
          rw [Bool.and_eq_true, isTerminator, decide_eq_true_iff] at haccepts
          cases pt
          simp only at hparent haccepts
          subst hparent
          rw [terminator, ← haccepts.2, Nat.add_sub_cancel]

end SortedLoop

/-! ## Between two places -/

namespace FunctionContext

variable {B V : Type} {ctx : FunctionContext B}

theorem not_splits_self (pt : Inst B) : ¬ ctx.Splits pt pt := by
  rintro ⟨call, _, hbetween⟩
  exact hbetween.start_ne_stop rfl

theorem not_splits_trans {a b x : Inst B} (hdom : ctx.function.Dominates b x)
    (hab : ¬ ctx.Splits a b) (hb : b ∉ ctx.checkpointCalls) (hbx : ¬ ctx.Splits b x) :
    ¬ ctx.Splits a x := by
  rintro ⟨call, hmem, hbetween⟩
  rcases hbetween.split hdom with hbefore | rfl | hafter
  · exact hab ⟨call, hmem, hbefore⟩
  · exact hb hmem
  · exact hbx ⟨call, hmem, hafter⟩

theorem dominates_of_dt {a b : Inst B} (h : ctx.dt.dominates a b = true) :
    ctx.function.Dominates a b := by
  by_cases hb : ctx.function.Reachable b
  · exact ((ctx.dt.spec a b).mp h hb).2
  · exact Or.inr fun hsteps => hb (reachable_of_avoiding .refl hsteps)

variable [DecidableEq B] [Fintype B]

theorem not_splits_of_maySplit {new old : Inst B} (hdom : ctx.function.Dominates new old)
    (hclear : ctx.Clear new old) (h : ctx.maySplitByCheckpoint new old = false) :
    ¬ ctx.Splits new old := by
  intro hsplits
  rw [splits_found_of_clear hdom hclear hsplits] at h
  cases h

theorem not_call_of_maySplit {new old : Inst B} (h : ctx.maySplitByCheckpoint new old = false) :
    new ∉ ctx.checkpointCalls ∧ old ∉ ctx.checkpointCalls := by
  refine ⟨fun hmem => ?_, fun hmem => ?_⟩
  · rw [maySplit_of_mem (Or.inl hmem)] at h
    cases h
  · rw [maySplit_of_mem (Or.inr hmem)] at h
    cases h

variable {ir : IrInfo B V}

/-! ## One hook -/

/-- What holds of a hook of `MemoryStore` before and after every pass. -/
structure Placed (f : ControlFlow B) (ir : IrInfo B V) (entry : MemoryStoreHook B V) : Prop where
  plain : ir.Plain f entry.insertionPt
  available : entry.copyGep = false → f.Reachable entry.insertionPt →
    ir.Available f entry.pointer entry.insertionPt

variable (ctx ir) in
/-- A pass may put `entry'` where `entry` was. -/
structure Moves (entry entry' : MemoryStoreHook B V) : Prop where
  address : entry'.address = entry.address
  pointer : entry'.pointer = entry.pointer ∨ entry'.pointer = ir.getUncastPointer entry.pointer
  placed : Placed ctx.function ir entry'
  dominates : ctx.function.Dominates entry'.insertionPt entry.insertionPt
  compared : entry'.insertionPt = entry.insertionPt ∨
    ctx.maySplitByCheckpoint entry'.insertionPt entry.insertionPt = false

theorem Moves.refl {entry : MemoryStoreHook B V} (h : Placed ctx.function ir entry) :
    ctx.Moves ir entry entry :=
  ⟨rfl, Or.inl rfl, h, dominates_self _, Or.inl rfl⟩

theorem Moves.not_splits {entry entry' : MemoryStoreHook B V} (h : ctx.Moves ir entry entry')
    (hclear : ctx.Clear entry'.insertionPt entry.insertionPt) :
    ¬ ctx.Splits entry'.insertionPt entry.insertionPt := by
  rcases h.compared with heq | hsplit
  · rw [heq]
    exact not_splits_self _
  · exact not_splits_of_maySplit h.dominates hclear hsplit

theorem moves_promote (hverified : ir.Verified ctx.function) {entry : MemoryStoreHook B V}
    (hplaced : Placed ctx.function ir entry) :
    ctx.Moves ir entry (ctx.promote (ir.newInsertionPt ctx.function) entry) := by
  unfold promote
  split
  · exact .refl hplaced
  · rename_i pt hpt
    split
    · exact .refl hplaced
    · rename_i hcopy
      split
      · exact .refl hplaced
      · rename_i hsplit
        obtain ⟨d, hdef, hparent, hbehind, hplain, hnone⟩ := IrInfo.newInsertionPt_spec hverified hpt
        have hdom : ctx.function.StrictlyDominates d pt := by
          refine ⟨?_, dominates_of_pos_lt hparent.symm hbehind⟩
          rintro rfl
          exact Nat.lt_irrefl _ hbehind
        refine ⟨rfl, Or.inl rfl, ⟨hplain, fun _ _ d' hdef' => ?_⟩, ?_, Or.inr (by simpa using hsplit)⟩
        · rwa [Option.some.inj (hdef'.symm.trans hdef)]
        · by_cases hreach : ctx.function.Reachable entry.insertionPt
          · have hused := hplaced.available (by simpa using hcopy) hreach d hdef
            exact dominates_of_behind hused hreach hparent hbehind hplain.1
              fun hblock hlow => hnone _ hplaced.plain hblock hlow
          · exact Or.inr fun hsteps => hreach (reachable_of_avoiding .refl hsteps)

omit [DecidableEq B] [Fintype B] in
theorem dominates_of_insertionPt {loop : SortedLoop ctx.function ir} {pt x : Inst B}
    (hpt : loop.insertionPt = some pt) (hx : x.parent ∈ loop.basicBlocks) :
    ctx.function.Dominates pt x := by
  obtain ⟨preHeader, hpre, rfl⟩ := SortedLoop.insertionPt_spec hpt
  exact loop.preHeader_dominates hpre hx

omit [Fintype B] in
theorem available_of_hoistable (hverified : ir.Verified ctx.function)
    {loop : SortedLoop ctx.function ir} {pt x : Inst B} {pointer : V}
    (hpt : loop.insertionPt = some pt) (hin : x.parent ∈ loop.basicBlocks)
    (hx : ctx.function.Reachable x) (hused : ir.Available ctx.function pointer x)
    (h : ir.hoistable loop.context pointer = some false) :
    ir.Available ctx.function (ir.getUncastPointer pointer) pt := by
  obtain ⟨preHeader, hpre, rfl⟩ := SortedLoop.insertionPt_spec hpt
  intro d hdef
  unfold IrInfo.hoistable at h
  split at h
  · rename_i hargument
    rw [hverified.uncast_argument hargument, hverified.argument _ hargument] at hdef
    cases hdef
  · split at h
    · split at h
      · rename_i hout
        unfold IrInfo.isPointerOutOfLoop at hout
        simp only [hdef, Option.any_some, Bool.or_eq_true, decide_eq_true_eq] at hout
        rcases hout with (hconstant | hargument) | hout
        · rw [hverified.constant _ hconstant] at hdef
          cases hdef
        · rw [hverified.argument _ hargument] at hdef
          cases hdef
        · have hdom := hverified.available_uncast hx hused d hdef
          refine ⟨?_, loop.dominates_preHeader hpre hdom.2 hx hin hout⟩
          rintro rfl
          exact loop.branch preHeader hpre _ hdef
      · split at h
        · split at h <;> cases h
        · cases h
    · cases h

theorem moves_hoist (hverified : ir.Verified ctx.function) (loop : SortedLoop ctx.function ir)
    {entry : MemoryStoreHook B V} (hplaced : Placed ctx.function ir entry) :
    ctx.Moves ir entry (ctx.hoist ir.hoistable ir.getUncastPointer loop.context entry) := by
  unfold hoist
  split
  · exact .refl hplaced
  · rename_i pt hpt
    split
    · exact .refl hplaced
    · rename_i hin
      rw [not_not] at hin
      split
      · exact .refl hplaced
      · rename_i hsplit
        split
        · exact .refl hplaced
        · rename_i copyGep hhoistable
          have hx : ctx.function.Reachable entry.insertionPt :=
            reachable_of_top (loop.reachable _ hin) hplaced.plain.1
          refine ⟨rfl, Or.inr rfl, ⟨?_, fun hcopy _ => ?_⟩,
            dominates_of_insertionPt hpt hin, Or.inr (by simpa using hsplit)⟩
          · obtain ⟨preHeader, -, rfl⟩ := SortedLoop.insertionPt_spec hpt
            exact hverified.terminator_plain preHeader
          · simp only [Bool.or_eq_false_iff] at hcopy
            obtain ⟨hentry, rfl⟩ := hcopy
            exact available_of_hoistable hverified hpt hin hx (hplaced.available hentry hx)
              hhoistable

/-! ## Out of several loops -/

variable (ctx) in
/-- The hook as `performLoopHoisting` leaves it. -/
def hoistAll (loops : List (SortedLoop ctx.function ir)) (entry : MemoryStoreHook B V) :
    MemoryStoreHook B V :=
  loops.foldl (fun moved loop => ctx.hoist ir.hoistable ir.getUncastPointer loop.context moved) entry

variable (ctx) in
/-- The places a hook has on its way out of the loops, its own one first. -/
def placesOf (loops : List (SortedLoop ctx.function ir)) (entry : MemoryStoreHook B V) :
    List (Inst B) :=
  (loops.scanl (fun moved loop => ctx.hoist ir.hoistable ir.getUncastPointer loop.context moved)
    entry).map MemoryStoreHook.insertionPt

/-- Hoisting treats each hook on its own, one loop after the other. -/
theorem performLoopHoisting_eq_map (loops : List (SortedLoop ctx.function ir))
    (memoryStore : List (MemoryStoreHook B V)) :
    ctx.performLoopHoisting ir.hoistable ir.getUncastPointer (loops.map fun loop => loop.context)
      memoryStore = memoryStore.map (ctx.hoistAll loops) := by
  unfold performLoopHoisting hoistAll
  induction loops generalizing memoryStore with
  | nil => simp
  | cons loop rest ih =>
      rw [List.map_cons, List.foldl_cons, ih, List.map_map]
      rfl

theorem placed_hoistAll (hverified : ir.Verified ctx.function)
    (loops : List (SortedLoop ctx.function ir)) {entry : MemoryStoreHook B V}
    (hplaced : Placed ctx.function ir entry) :
    Placed ctx.function ir (ctx.hoistAll loops entry) ∧
      (ctx.hoistAll loops entry).address = entry.address := by
  induction loops generalizing entry with
  | nil => exact ⟨hplaced, rfl⟩
  | cons loop rest ih =>
      have hmove := moves_hoist hverified loop hplaced
      obtain ⟨hrest, haddress⟩ := ih hmove.placed
      exact ⟨hrest, haddress.trans hmove.address⟩

theorem pointer_hoistAll (hverified : ir.Verified ctx.function)
    (loops : List (SortedLoop ctx.function ir)) {entry : MemoryStoreHook B V}
    (hplaced : Placed ctx.function ir entry) :
    ∃ n, (ctx.hoistAll loops entry).pointer = ir.getUncastPointer^[n] entry.pointer := by
  induction loops generalizing entry with
  | nil => exact ⟨0, rfl⟩
  | cons loop rest ih =>
      have hmove := moves_hoist hverified loop hplaced
      obtain ⟨n, hn⟩ := ih hmove.placed
      rcases hmove.pointer with heq | heq
      · exact ⟨n, hn.trans (by rw [heq])⟩
      · exact ⟨n + 1, hn.trans (by rw [heq, Function.iterate_succ_apply])⟩

theorem dominates_hoistAll (hverified : ir.Verified ctx.function)
    (loops : List (SortedLoop ctx.function ir)) {entry : MemoryStoreHook B V}
    (hplaced : Placed ctx.function ir entry) :
    ctx.function.Dominates (ctx.hoistAll loops entry).insertionPt entry.insertionPt := by
  induction loops generalizing entry with
  | nil => exact dominates_self _
  | cons loop rest ih =>
      have hmove := moves_hoist hverified loop hplaced
      exact (ih hmove.placed).trans hmove.dominates

theorem placesOf_cons (loop : SortedLoop ctx.function ir) (rest : List (SortedLoop ctx.function ir))
    (entry : MemoryStoreHook B V) : ctx.placesOf (loop :: rest) entry = entry.insertionPt ::
      ctx.placesOf rest (ctx.hoist ir.hoistable ir.getUncastPointer loop.context entry) := by
  rw [placesOf, List.scanl_cons, List.map_cons, placesOf]

theorem placesOf_head (loops : List (SortedLoop ctx.function ir)) (entry : MemoryStoreHook B V) :
    ∃ later, ctx.placesOf loops entry = entry.insertionPt :: later := by
  cases loops with
  | nil => exact ⟨[], rfl⟩
  | cons loop rest => exact ⟨_, placesOf_cons loop rest entry⟩

theorem not_splits_hoistAll (hverified : ir.Verified ctx.function)
    (loops : List (SortedLoop ctx.function ir)) {entry : MemoryStoreHook B V}
    (hplaced : Placed ctx.function ir entry)
    (hclear : (ctx.placesOf loops entry).IsChain fun old new => ctx.Clear new old) :
    ¬ ctx.Splits (ctx.hoistAll loops entry).insertionPt entry.insertionPt := by
  induction loops generalizing entry with
  | nil => exact not_splits_self _
  | cons loop rest ih =>
      have hmove := moves_hoist hverified loop hplaced
      obtain ⟨later, hlater⟩ := placesOf_head rest
        (ctx.hoist ir.hoistable ir.getUncastPointer loop.context entry)
      rw [placesOf_cons, hlater, List.isChain_cons_cons, ← hlater] at hclear
      have hrest := ih hmove.placed hclear.2
      rw [show ctx.hoistAll (loop :: rest) entry = ctx.hoistAll rest
        (ctx.hoist ir.hoistable ir.getUncastPointer loop.context entry) from rfl]
      rcases hmove.compared with heq | hsplit
      · rwa [heq] at hrest
      · exact not_splits_trans hmove.dominates hrest (not_call_of_maySplit hsplit).1
          (hmove.not_splits hclear.1)

end FunctionContext

end Libcrpm
