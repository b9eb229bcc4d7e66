import Libcrpm.Values
import Mathlib.Algebra.Order.Group.Unbundled.Int
import Mathlib.Data.Int.Cast.Lemmas
import Mathlib.Tactic.Ring

/-!
# One hook for all stores of a loop

`FunctionContext::findLoops`, `findInductionVariable` and `allowAggregatingGetElemPtr`, and
the range that `transform` computes for what `performLoopAggregation` leaves.
-/

namespace Libcrpm

/-! ## Induction variables -/

inductive Direction where
  | increasing | decreasing | unknown
deriving DecidableEq

structure LoopBounds (V : Type) where
  initialIVValue : V
  finalIVValue : V
  direction : Direction

structure IndVarContext (V : Type) where
  indVar : V
  initialVal : V
  finalVal : V

structure PhiNode (B V : Type) where
  value : V
  incoming : List (B × V)

/-- The comparison a branch depends on. -/
structure CmpInst (V : Type) where
  isEq : Bool
  lhs : V
  rhs : V

/-- What the recognisers look at in a loop; `exitConditions` has an entry for each exiting
block. -/
structure LoopText (B V : Type) where
  basicBlocks : List B
  bounds : Option (LoopBounds V)
  inductionVariable : V
  headerPhis : List (PhiNode B V)
  addOperands : V → Option (V × V)
  exitConditions : List (Option (CmpInst V))
  isPointerOutOfLoop : V → Bool

namespace LoopText

variable {B V : Type} [DecidableEq B] [DecidableEq V] (loop : LoopText B V)

/-- The values a phi node has before the loop and after an iteration. -/
def startAndLatch (phi : PhiNode B V) : Option (V × V) :=
  match phi.incoming with
  | [(block₀, value₀), (block₁, value₁)] =>
      if block₀ ∈ loop.basicBlocks ∧ block₁ ∉ loop.basicBlocks then some (value₁, value₀)
      else if block₁ ∈ loop.basicBlocks ∧ block₀ ∉ loop.basicBlocks then some (value₀, value₁)
      else none
  | _ => none

def recognise (phi : PhiNode B V) : Option (IndVarContext V) :=
  match loop.startAndLatch phi with
  | none => none
  | some (start, latch) =>
      match loop.addOperands latch, loop.exitConditions with
      | some (operand, step), [some condition] =>
          if operand = phi.value ∧ loop.isPointerOutOfLoop step ∧ condition.isEq ∧
              condition.lhs = latch ∧ loop.isPointerOutOfLoop condition.rhs then
            some ⟨phi.value, start, condition.rhs⟩
          else none
      | _, _ => none

def findInductionVariable : Option (IndVarContext V) := loop.headerPhis.findSome? loop.recognise

/-- The induction variable that `findLoops` stores; the bounds of a decreasing loop are
swapped. -/
def findLoops : Option (IndVarContext V) :=
  match loop.bounds with
  | some bounds =>
      match bounds.direction with
      | .increasing => some ⟨loop.inductionVariable, bounds.initialIVValue, bounds.finalIVValue⟩
      | .decreasing => some ⟨loop.inductionVariable, bounds.finalIVValue, bounds.initialIVValue⟩
      | .unknown => none
  | none => loop.findInductionVariable

/-! ## Addresses -/

/-- `enableMTUnsafeOptimization` allows pointers that are loaded again in the loop. -/
def allowAggregatingGetElemPtr (ctx : FunctionContext B) (info : ValueInfo B V)
    (enableMTUnsafeOptimization : Bool) (indVar : V) (gep : GetElementPtr V) : Bool :=
  match gep.isInBounds, gep.indices with
  | true, [.element index _] =>
      if !info.isMustAlias index indVar then false
      else if loop.isPointerOutOfLoop gep.pointerOperand then true
      else if enableMTUnsafeOptimization then
        match info.loadOf gep.pointerOperand with
        | some source => loop.isPointerOutOfLoop source &&
            !loop.basicBlocks.any (info.hasPotentialStoreIn ctx gep.pointerOperand)
        | none => false
      else false
  | _, _ => false

end LoopText

/-! ## Runs of a loop -/

/-- How the induction variable runs: as `LoopBounds` documents it, or in a loop that
`findInductionVariable` has recognised, whose variable has `w` bits.  `tested` tells in which
iterations the exiting block is reached, `exitsOnEqual` on which side of its branch the loop
is left. -/
inductive LoopRun where
  | increasing (initial step final : Int) (hstep : 0 < step)
  | decreasing (initial step final : Int) (hstep : step < 0)
  | equality (w : Nat) (start step final : BitVec w) (exitsOnEqual : Bool) (tested : Nat → Bool)

namespace LoopRun

def register {w : Nat} (start step : BitVec w) : Nat → BitVec w
  | 0 => start
  | j + 1 => register start step j + step

def indVar : LoopRun → Nat → Int
  | .increasing initial step _ _, j | .decreasing initial step _ _, j => initial + j * step
  | .equality _ start step _ _ _, j => (register start step j).toInt

def ComesTo : LoopRun → Nat → Prop
  | .increasing initial step final _, j => initial + j * step < final
  | .decreasing initial step final _, j => final < initial + j * step
  | .equality _ start step final exitsOnEqual tested, j =>
      ∀ i < j, ¬ (tested i = true ∧ (register start step (i + 1) = final ↔ exitsOnEqual = true))

/-- The run is one of the loop, where operands from outside have the given values. -/
def Follows {B V : Type} [DecidableEq B] [DecidableEq V] (loop : LoopText B V) (value : V → Int) :
    LoopRun → Prop
  | .increasing initial _ final _ => ∃ bounds, loop.bounds = some bounds ∧
      bounds.direction = .increasing ∧ value bounds.initialIVValue = initial ∧
      value bounds.finalIVValue = final
  | .decreasing initial _ final _ => ∃ bounds, loop.bounds = some bounds ∧
      bounds.direction = .decreasing ∧ value bounds.initialIVValue = initial ∧
      value bounds.finalIVValue = final
  | .equality _ start step final _ _ => loop.bounds = none ∧ ∃ found phi initialVal latch stepVal,
      loop.findInductionVariable = some found ∧ loop.recognise phi = some found ∧
      loop.startAndLatch phi = some (initialVal, latch) ∧
      loop.addOperands latch = some (phi.value, stepVal) ∧ value stepVal = step.toInt ∧
      value found.initialVal = start.toInt ∧ value found.finalVal = final.toInt

/-- The values between which the variable runs, the lower one first, as the code takes them. -/
def lower : LoopRun → Int
  | .increasing initial _ _ _ => initial
  | .decreasing _ _ final _ => final
  | .equality _ start _ _ _ _ => start.toInt

def upper : LoopRun → Int
  | .increasing _ _ final _ => final
  | .decreasing initial _ _ _ => initial
  | .equality _ _ _ final _ _ => final.toInt

theorem Follows.found {B V : Type} [DecidableEq B] [DecidableEq V] {loop : LoopText B V}
    {value : V → Int} {run : LoopRun} (h : run.Follows loop value) :
    ∃ found, loop.findLoops = some found ∧ value found.initialVal = run.lower ∧
      value found.finalVal = run.upper := by
  cases run with
  | increasing initial step final hstep =>
      obtain ⟨bounds, hbounds, hdirection, hinitial, hfinal⟩ := h
      refine ⟨⟨loop.inductionVariable, bounds.initialIVValue, bounds.finalIVValue⟩, ?_, hinitial,
        hfinal⟩
      simp [LoopText.findLoops, hbounds, hdirection]
  | decreasing initial step final hstep =>
      obtain ⟨bounds, hbounds, hdirection, hinitial, hfinal⟩ := h
      refine ⟨⟨loop.inductionVariable, bounds.finalIVValue, bounds.initialIVValue⟩, ?_, hfinal,
        hinitial⟩
      simp [LoopText.findLoops, hbounds, hdirection]
  | equality w start step final exitsOnEqual tested =>
      obtain ⟨hbounds, found, _, _, _, _, hfound, _, _, _, _, hinitial, hfinal⟩ := h
      refine ⟨found, ?_, hinitial, hfinal⟩
      simp [LoopText.findLoops, hbounds, hfound]

/-! ## The iterations -/

/-- The test is made in every iteration, and the loop is left when it succeeds. -/
def LeavesOnEqual : LoopRun → Prop
  | .equality _ _ _ _ exitsOnEqual tested => exitsOnEqual = true ∧ ∀ i, tested i = true
  | _ => True

/-- No addition that the loop comes to overflows. -/
def NoWrap : LoopRun → Prop
  | .equality w start step final exitsOnEqual tested => ∀ j,
      (LoopRun.equality w start step final exitsOnEqual tested).ComesTo j →
      (register start step (j + 1)).toInt = start.toInt + (j + 1 : Nat) * step.toInt
  | _ => True

/-- The iterations stay between the bounds as the code takes them. -/
def RunsUp : LoopRun → Prop
  | .increasing _ _ _ _ => True
  | .decreasing initial _ final _ => initial ≤ final
  | .equality _ start step final _ _ => start.toInt < final.toInt ∧
      (step.toInt = 0 ∨ 0 < step.toInt ∧ step.toInt ∣ final.toInt - start.toInt)

theorem register_eq {w : Nat} (start step : BitVec w) (j : Nat) :
    register start step j = BitVec.ofInt w (start.toInt + j * step.toInt) := by
  induction j with
  | zero => simp [register]
  | succ j ih =>
      have hsum : start.toInt + ((j + 1 : Nat) : Int) * step.toInt =
          start.toInt + j * step.toInt + step.toInt := by
        push_cast
        ring
      rw [register, ih, hsum, BitVec.ofInt_add (start.toInt + j * step.toInt), BitVec.ofInt_toInt]

/-- Between two registers nothing wraps around. -/
theorem toInt_register {w : Nat} {start step : BitVec w} {j : Nat} (final : BitVec w)
    (hlow : start.toInt ≤ start.toInt + j * step.toInt)
    (hhigh : start.toInt + j * step.toInt ≤ final.toInt) :
    (register start step j).toInt = start.toInt + j * step.toInt := by
  have hstart := BitVec.le_two_mul_toInt (x := start)
  have hfinal := BitVec.two_mul_toInt_lt (x := final)
  rw [register_eq, BitVec.toInt_ofInt]
  refine Int.bmod_eq_of_le_mul_two ?_ ?_
  · push_cast
    omega
  · push_cast
    omega

/-- The loop has been left when the variable comes to the final value. -/
theorem lt_of_comesTo {w : Nat} {start step final : BitVec w} {tested : Nat → Bool} {j n : Nat}
    (htested : ∀ i, tested i = true)
    (hcomes : (LoopRun.equality w start step final true tested).ComesTo j)
    (hn : start.toInt + (n + 1 : Nat) * step.toInt = final.toInt) (hstep : 0 ≤ step.toInt) :
    j ≤ n := by
  refine Nat.le_of_not_lt fun hlt => hcomes n hlt ⟨htested n, ?_⟩
  have hlow : start.toInt ≤ start.toInt + (n + 1 : Nat) * step.toInt :=
    Int.le_add_of_nonneg_right (Int.mul_nonneg (Int.natCast_nonneg _) hstep)
  have hexact := toInt_register final hlow (Int.le_of_eq hn)
  exact iff_of_true (BitVec.eq_of_toInt_eq (hexact.trans hn)) rfl

theorem between_of_runsUp {run : LoopRun} (hup : run.RunsUp) (hleaves : run.LeavesOnEqual)
    {j : Nat} (hcomes : run.ComesTo j) : run.lower ≤ run.indVar j ∧ run.indVar j < run.upper := by
  cases run with
  | increasing initial step final hstep =>
      have hnonneg : 0 ≤ (j : Int) * step :=
        Int.mul_nonneg (Int.natCast_nonneg j) (Int.le_of_lt hstep)
      exact ⟨Int.le_add_of_nonneg_right hnonneg, hcomes⟩
  | decreasing initial step final hstep =>
      -- a decreasing loop comes to nothing when it starts below its final value
      have hle : initial ≤ final := hup
      have hlt : final < initial + j * step := hcomes
      have hnonpos : (j : Int) * step ≤ 0 :=
        Int.mul_nonpos_of_nonneg_of_nonpos (Int.natCast_nonneg j) (Int.le_of_lt hstep)
      omega
  | equality w start step final exitsOnEqual tested =>
      obtain ⟨rfl, htested⟩ := hleaves
      obtain ⟨hlt, hstep⟩ := hup
      rcases hstep with hzero | ⟨hpos, hdvd⟩
      · have hexact : (register start step j).toInt = start.toInt + j * step.toInt :=
          toInt_register final (by rw [hzero]; omega) (by rw [hzero]; omega)
        rw [hzero, Int.mul_zero, Int.add_zero] at hexact
        exact ⟨Int.le_of_eq hexact.symm, Int.lt_of_le_of_lt (Int.le_of_eq hexact) hlt⟩
      · obtain ⟨k, hk⟩ := hdvd
        have hkpos : 0 < k := Int.pos_of_mul_pos_right (by omega) hpos
        obtain ⟨n, rfl⟩ : ∃ n : Nat, k = ((n + 1 : Nat) : Int) :=
          ⟨(k - 1).toNat, by omega⟩
        have hn : start.toInt + (n + 1 : Nat) * step.toInt = final.toInt := by
          rw [Int.mul_comm] at hk
          omega
        have hj := lt_of_comesTo htested hcomes hn (Int.le_of_lt hpos)
        have hmul : (j : Int) * step.toInt ≤ n * step.toInt :=
          Int.mul_le_mul_of_nonneg_right (by omega) (Int.le_of_lt hpos)
        have hsucc : ((n + 1 : Nat) : Int) * step.toInt = n * step.toInt + step.toInt := by
          push_cast
          ring
        have hnonneg : 0 ≤ (j : Int) * step.toInt :=
          Int.mul_nonneg (Int.natCast_nonneg j) (Int.le_of_lt hpos)
        have hexact : (register start step j).toInt = start.toInt + j * step.toInt :=
          toInt_register final (by omega) (by omega)
        change start.toInt ≤ (register start step j).toInt ∧
          (register start step j).toInt < final.toInt
        omega

theorem comesTo_succ {w : Nat} {start step final : BitVec w} {tested : Nat → Bool} {j : Nat}
    (hcomes : (LoopRun.equality w start step final true tested).ComesTo j)
    (hexact : (register start step (j + 1)).toInt = start.toInt + (j + 1 : Nat) * step.toInt)
    (hmiss : start.toInt + (j + 1 : Nat) * step.toInt ≠ final.toInt) :
    (LoopRun.equality w start step final true tested).ComesTo (j + 1) := by
  intro i hi
  rcases Nat.lt_succ_iff_lt_or_eq.mp hi with hlt | rfl
  · exact hcomes i hlt
  · rintro ⟨-, hequal⟩
    rw [hequal.mpr rfl] at hexact
    exact hmiss hexact.symm

theorem runsUp_of_between {run : LoopRun} (hleaves : run.LeavesOnEqual) (hwrap : run.NoWrap)
    (hbetween : ∀ j, run.ComesTo j → run.lower ≤ run.indVar j ∧ run.indVar j < run.upper) :
    run.RunsUp := by
  cases run with
  | increasing initial step final hstep => trivial
  | decreasing initial step final hstep =>
      refine Int.not_lt.mp fun hlt => ?_
      have hfirst : (LoopRun.decreasing initial step final hstep).ComesTo 0 := by
        change final < initial + ((0 : Nat) : Int) * step
        simpa using hlt
      have habove := (hbetween 0 hfirst).2
      change initial + ((0 : Nat) : Int) * step < initial at habove
      simp at habove
  | equality w start step final exitsOnEqual tested =>
      obtain ⟨rfl, htested⟩ := hleaves
      have hzero : (LoopRun.equality w start step final true tested).ComesTo 0 :=
        fun i hi => absurd hi (Nat.not_lt_zero i)
      have hlt : start.toInt < final.toInt := (hbetween 0 hzero).2
      refine ⟨hlt, ?_⟩
      by_contra hno
      push Not at hno
      obtain ⟨hne, hmiss⟩ := hno
      -- without meeting the final value the loop goes on for ever
      have hnever : ∀ j : Nat, start.toInt + (j + 1 : Nat) * step.toInt ≠ final.toInt := by
        intro j heq
        have hprod : ((j + 1 : Nat) : Int) * step.toInt = final.toInt - start.toInt := by omega
        have hpos : 0 < step.toInt := by
          refine Int.not_le.mp fun hle => ?_
          have hnonpos := Int.mul_nonpos_of_nonneg_of_nonpos (Int.natCast_nonneg (j + 1)) hle
          omega
        exact hmiss hpos ⟨((j + 1 : Nat) : Int), by rw [Int.mul_comm]; omega⟩
      have hall : ∀ j, (LoopRun.equality w start step final true tested).ComesTo j := by
        intro j
        induction j with
        | zero => exact hzero
        | succ j ih => exact comesTo_succ ih (hwrap j ih) (hnever j)
      have hrange : ∀ j : Nat, start.toInt ≤ start.toInt + (j + 1 : Nat) * step.toInt ∧
          start.toInt + (j + 1 : Nat) * step.toInt < final.toInt := by
        intro j
        have h := hbetween (j + 1) (hall (j + 1))
        change start.toInt ≤ (register start step (j + 1)).toInt ∧
          (register start step (j + 1)).toInt < final.toInt at h
        rwa [hwrap j (hall j)] at h
      have hone := (hrange 0).1
      have hpos : 0 < step.toInt := by
        simp at hone
        omega
      obtain ⟨-, hfar⟩ := hrange (final.toInt - start.toInt).toNat
      have hgrows : (((final.toInt - start.toInt).toNat + 1 : Nat) : Int) * 1 ≤
          (((final.toInt - start.toInt).toNat + 1 : Nat) : Int) * step.toInt :=
        Int.mul_le_mul_of_nonneg_left hpos (Int.natCast_nonneg _)
      omega

end LoopRun

/-! ## The range of the hook -/

section Ranges

variable {B V : Type} [DecidableEq B] [DecidableEq V]

def aggregatedHook (found : IndVarContext V) (insertionPt : Inst B) (pointer : V) (copyLoad : Bool) :
    FunctionContext.MemoryBulkStoreHook B V :=
  ⟨insertionPt, pointer, found.initialVal, true, found.finalVal, copyLoad⟩

/-- The loop as `performLoopAggregation` uses it. -/
def LoopText.context (loop : LoopText B V) (insertionPt : Option (Inst B)) :
    FunctionContext.LoopContext B V where
  insertionPt := insertionPt
  basicBlocks := loop.basicBlocks
  indVar :=
    match loop.findLoops with
    | some found =>
        if loop.isPointerOutOfLoop found.initialVal && loop.isPointerOutOfLoop found.finalVal then
          some (found.initialVal, found.finalVal)
        else none
    | none => none

/-- The first address of the range that `transform` passes and the one behind it, where the
pointer operand is `base` at the preheader and elements have `size` bytes. -/
def rangeOf (value : V → Int) (size : Nat) (base : Int)
    (hook : FunctionContext.MemoryBulkStoreHook B V) : Int × Int :=
  (base + value hook.lengthOrStartIndex * size, base + value hook.stopIndex * size)

/-- An execution of a loop with stores to elements of an array.  A pointer operand from outside
does not change; one that is loaded in the loop has its value in each iteration. -/
structure LoopExecution (loop : LoopText B V) (gep : GetElementPtr V) where
  run : LoopRun
  value : V → Int
  follows : run.Follows loop value
  base : Nat → Int
  preheaderBase : Int
  base_eq : loop.isPointerOutOfLoop gep.pointerOperand = true → ∀ j, base j = preheaderBase

namespace LoopExecution

variable {loop : LoopText B V} {gep : GetElementPtr V} (e : LoopExecution loop gep)

def size (_ : LoopExecution loop gep) : Nat :=
  match gep.indices with
  | [.element _ size] => size
  | _ => 0

def address (j : Nat) : Int := e.base j + e.run.indVar j * e.size

/-- The range of the hook contains the start address of every store. -/
def Covered (hook : FunctionContext.MemoryBulkStoreHook B V) : Prop :=
  ∀ j, e.run.ComesTo j → (rangeOf e.value e.size e.preheaderBase hook).1 ≤ e.address j ∧
    e.address j < (rangeOf e.value e.size e.preheaderBase hook).2

/-- Every iteration uses the pointer that is loaded at the preheader. -/
def KeepsBase : Prop := ∀ j, e.run.ComesTo j → e.base j = e.preheaderBase

/-- The loop stores something only if its variable runs up. -/
def Regular : Prop := e.run.RunsUp ∧ (e.run.ComesTo 0 → 0 < e.size)

variable {e} {hook : FunctionContext.MemoryBulkStoreHook B V}

theorem between_iff (hbase : e.KeepsBase) (hsize : 0 < e.size)
    (hlower : e.value hook.lengthOrStartIndex = e.run.lower)
    (hupper : e.value hook.stopIndex = e.run.upper) {j : Nat} (hcomes : e.run.ComesTo j) :
    (rangeOf e.value e.size e.preheaderBase hook).1 ≤ e.address j ∧
      e.address j < (rangeOf e.value e.size e.preheaderBase hook).2 ↔
    e.run.lower ≤ e.run.indVar j ∧ e.run.indVar j < e.run.upper := by
  have hpos : (0 : Int) < e.size := Int.natCast_pos.mpr hsize
  simp only [rangeOf, address, hbase j hcomes, hlower, hupper, Int.add_le_add_iff_left,
    Int.add_lt_add_iff_left]
  exact and_congr (Int.mul_le_mul_right hpos) (Int.mul_lt_mul_right hpos)

theorem comesTo_zero {j : Nat} (run : LoopRun) (h : run.ComesTo j) : run.ComesTo 0 := by
  cases run with
  | increasing initial step final hstep =>
      have hnonneg := Int.mul_nonneg (Int.natCast_nonneg j) (Int.le_of_lt hstep)
      change initial + j * step < final at h
      change initial + ((0 : Nat) : Int) * step < final
      simp only [Int.natCast_zero, Int.zero_mul]
      omega
  | decreasing initial step final hstep =>
      have hnonpos := Int.mul_nonpos_of_nonneg_of_nonpos (Int.natCast_nonneg j) (Int.le_of_lt hstep)
      change final < initial + j * step at h
      change final < initial + ((0 : Nat) : Int) * step
      simp only [Int.natCast_zero, Int.zero_mul]
      omega
  | equality w start step final exitsOnEqual tested => exact fun i hi => absurd hi (Nat.not_lt_zero i)

theorem covered_of_regular (hbase : e.KeepsBase) (hleaves : e.run.LeavesOnEqual)
    (hlower : e.value hook.lengthOrStartIndex = e.run.lower)
    (hupper : e.value hook.stopIndex = e.run.upper) (h : e.Regular) : e.Covered hook := by
  intro j hcomes
  rw [between_iff hbase (h.2 (comesTo_zero _ hcomes)) hlower hupper hcomes]
  exact LoopRun.between_of_runsUp h.1 hleaves hcomes

theorem regular_of_covered (hbase : e.KeepsBase) (hleaves : e.run.LeavesOnEqual)
    (hwrap : e.run.NoWrap) (hlower : e.value hook.lengthOrStartIndex = e.run.lower)
    (hupper : e.value hook.stopIndex = e.run.upper) (h : e.Covered hook) : e.Regular := by
  have hsize : e.run.ComesTo 0 → 0 < e.size := by
    intro hcomes
    refine Nat.pos_of_ne_zero fun hzero => ?_
    have hcovered := h 0 hcomes
    simp only [rangeOf, address, hzero, hbase 0 hcomes] at hcovered
    omega
  refine ⟨LoopRun.runsUp_of_between hleaves hwrap fun j hcomes => ?_, hsize⟩
  rw [← between_iff hbase (hsize (comesTo_zero _ hcomes)) hlower hupper hcomes]
  exact h j hcomes

end LoopExecution

/-! ## The hooks that are replaced -/

variable [Fintype B] (ctx : FunctionContext B) (info : ValueInfo B V)
  (enableMTUnsafeOptimization : Bool) (loop : LoopText B V)

def accepts (_ : FunctionContext.LoopContext B V) (pointer : V) : Bool :=
  match loop.findLoops, info.gepOf (info.getUncastPointer pointer) with
  | some found, some gep =>
      loop.allowAggregatingGetElemPtr ctx info enableMTUnsafeOptimization found.indVar gep
  | _, _ => false

/-- `LoadCopy`: the pointer operand is loaded again at the preheader. -/
def loadsPointer (_ : FunctionContext.LoopContext B V) (pointer : V) : Bool :=
  match info.gepOf (info.getUncastPointer pointer) with
  | some gep => !loop.isPointerOutOfLoop gep.pointerOperand
  | none => false

/-- `performLoopAggregation` for one loop. -/
def aggregateLoop (insertionPt : Option (Inst B))
    (stores : List (FunctionContext.MemoryStoreHook B V) ×
      List (FunctionContext.MemoryBulkStoreHook B V)) :
    List (FunctionContext.MemoryStoreHook B V) × List (FunctionContext.MemoryBulkStoreHook B V) :=
  ctx.aggregate (accepts ctx info enableMTUnsafeOptimization loop) info.getUncastPointer
    (loadsPointer info loop) stores (loop.context insertionPt)

/-- For every hook that goes there is one with a range that contains the start address of every
store, in the executions that `admits` allows. -/
def AggregationCovers (admits : ∀ gep, LoopExecution loop gep → Prop) : Prop :=
  ∀ insertionPt stores, ∀ entry ∈ stores.1,
    entry ∉ (aggregateLoop ctx info enableMTUnsafeOptimization loop insertionPt stores).1 →
    ∃ gep, info.gepOf (info.getUncastPointer entry.pointer) = some gep ∧
      ∃ hook ∈ (aggregateLoop ctx info enableMTUnsafeOptimization loop insertionPt stores).2,
        hook.useStartStopIndex = true ∧ hook.pointer = info.getUncastPointer entry.pointer ∧
        ∀ e : LoopExecution loop gep, admits gep e → e.Covered hook

variable {ctx info enableMTUnsafeOptimization loop}

omit [Fintype B] in
theorem context_indVar {insertionPt : Option (Inst B)} {initialVal finalVal : V}
    (h : (loop.context insertionPt).indVar = some (initialVal, finalVal)) :
    ∃ found, loop.findLoops = some found ∧ found.initialVal = initialVal ∧
      found.finalVal = finalVal := by
  simp only [LoopText.context] at h
  split at h
  · rename_i found hfound
    split at h
    · rw [Option.some.injEq, Prod.mk.injEq] at h
      exact ⟨found, hfound, h.1, h.2⟩
    · cases h
  · cases h

theorem aggregateLoop_removed {insertionPt : Option (Inst B)}
    {stores : List (FunctionContext.MemoryStoreHook B V) ×
      List (FunctionContext.MemoryBulkStoreHook B V)}
    {entry : FunctionContext.MemoryStoreHook B V} (hmem : entry ∈ stores.1)
    (hgone : entry ∉ (aggregateLoop ctx info enableMTUnsafeOptimization loop insertionPt stores).1) :
    ∃ gep found pt, info.gepOf (info.getUncastPointer entry.pointer) = some gep ∧
      loop.findLoops = some found ∧
      aggregatedHook found pt (info.getUncastPointer entry.pointer)
        (loadsPointer info loop (loop.context insertionPt) entry.pointer) ∈ (aggregateLoop ctx info enableMTUnsafeOptimization loop insertionPt stores).2 := by
  unfold aggregateLoop FunctionContext.aggregate at hgone ⊢
  split at hgone
  · rename_i pt initialVal finalVal hpt hindVar
    obtain ⟨found, hfound, rfl, rfl⟩ := context_indVar hindVar
    have hhoisted : entry ∈
        ctx.aggregated (accepts ctx info enableMTUnsafeOptimization loop) (loop.context insertionPt) pt stores.1 := by
      by_contra hkept
      exact hgone (List.mem_filter.mpr ⟨hmem, by simpa using hkept⟩)
    obtain ⟨b, _, hin⟩ := List.mem_flatMap.mp hhoisted
    simp only [List.mem_filter, Bool.and_eq_true] at hin
    have haccepted := hin.2.2
    cases hgep : info.gepOf (info.getUncastPointer entry.pointer) with
    | none => simp [accepts, hfound, hgep] at haccepted
    | some gep =>
        exact ⟨gep, found, pt, rfl, hfound,
          List.mem_append_right _ (List.mem_map.mpr ⟨entry, hhoisted, rfl⟩)⟩
  · exact absurd hmem hgone

/-- The aggregated hook covers the loop when the loop is left on equality and keeps the base of
its addresses, if and only if its variable runs up from the first bound to the second. -/
theorem aggregationCovers_of_regular (ctx : FunctionContext B) (info : ValueInfo B V)
    (enableMTUnsafeOptimization : Bool) (loop : LoopText B V) :
    AggregationCovers ctx info enableMTUnsafeOptimization loop (fun _ e => e.KeepsBase ∧ e.run.LeavesOnEqual ∧ e.Regular) ∧
    ∀ gep (e : LoopExecution loop gep), e.KeepsBase → e.run.LeavesOnEqual → e.run.NoWrap →
      ∀ found, loop.findLoops = some found → ∀ (pt : Inst B) pointer copyLoad,
        (e.Covered (aggregatedHook found pt pointer copyLoad) ↔ e.Regular) := by
  have hbounds : ∀ gep (e : LoopExecution loop gep) found, loop.findLoops = some found →
      e.value found.initialVal = e.run.lower ∧ e.value found.finalVal = e.run.upper := by
    intro gep e found hfound
    obtain ⟨found', hfound', hlower, hupper⟩ := e.follows.found
    obtain rfl : found = found' := Option.some.inj (hfound.symm.trans hfound')
    exact ⟨hlower, hupper⟩
  constructor
  · intro insertionPt stores entry hmem hgone
    obtain ⟨gep, found, pt, hgep, hfound, hhook⟩ := aggregateLoop_removed hmem hgone
    refine ⟨gep, hgep, _, hhook, rfl, rfl, ?_⟩
    rintro e ⟨hbase, hleaves, hregular⟩
    obtain ⟨hlower, hupper⟩ := hbounds gep e found hfound
    exact LoopExecution.covered_of_regular hbase hleaves hlower hupper hregular
  · intro gep e hbase hleaves hwrap found hfound pt pointer copyLoad
    obtain ⟨hlower, hupper⟩ := hbounds gep e found hfound
    exact ⟨LoopExecution.regular_of_covered hbase hleaves hwrap hlower hupper,
      LoopExecution.covered_of_regular hbase hleaves hlower hupper⟩

end Ranges

/-! ## A loop that counts down -/

/-- `for (i = 9; i > 0; --i) a[i] = x;`: the operands are `i`, its bounds, `a` and `a + i`. -/
def countDown : LoopText Bool Nat where
  basicBlocks := [true]
  bounds := some ⟨1, 2, .decreasing⟩
  inductionVariable := 0
  headerPhis := []
  addOperands _ := none
  exitConditions := []
  isPointerOutOfLoop v := v ≠ 0 && v ≠ 4

def countDownInfo : ValueInfo Bool Nat where
  castOperand _ := none
  gepOf v := if v = 4 then some ⟨true, 3, [.element 0 8]⟩ else none
  loadOf _ := none
  definition _ := none
  storeInsts := [(⟨true, 0⟩, 4)]
  isMustAlias v u := v = u
  isNoAlias v u := v ≠ u

noncomputable def countDownContext : FunctionContext Bool where
  function := twoBlocks
  dt := .ofFunction twoBlocks
  checkpointCalls := []

/-- The array begins at `0` and has elements of eight bytes. -/
def countDownExecution : LoopExecution countDown ⟨true, 3, [.element 0 8]⟩ where
  run := .decreasing 9 (-1) 0 (by decide)
  value v := if v = 1 then 9 else 0
  follows := ⟨_, rfl, rfl, rfl, rfl⟩
  base _ := 0
  preheaderBase := 0
  base_eq _ _ := rfl

/-- The store to `a[9]` is not covered. -/
theorem not_aggregationCovers :
    ¬ AggregationCovers countDownContext countDownInfo true countDown fun _ _ => True := by
  intro hcovers
  obtain ⟨gep, hgep, hook, hhook, -, -, hcovered⟩ := hcovers (some ⟨false, 1⟩)
    ([⟨0, ⟨true, 0⟩, 4, false⟩], []) ⟨0, ⟨true, 0⟩, 4, false⟩ (by decide) (by decide)
  obtain rfl : (⟨true, 3, [.element 0 8]⟩ : GetElementPtr Nat) = gep :=
    Option.some.inj hgep
  have hstores : (aggregateLoop countDownContext countDownInfo true countDown (some ⟨false, 1⟩)
      ([⟨0, ⟨true, 0⟩, 4, false⟩], [])).2 = [aggregatedHook ⟨0, 2, 1⟩ ⟨false, 1⟩ 4 false] := rfl
  rw [hstores, List.mem_singleton] at hhook
  subst hhook
  have hcomes : countDownExecution.run.ComesTo 0 := by
    change (0 : Int) < 9 + ((0 : Nat) : Int) * (-1)
    decide
  have hlt := (hcovered countDownExecution trivial 0 hcomes).2
  exact absurd hlt (by decide)

end Libcrpm
