import Libcrpm.Execution
import Libcrpm.Values

/-!
# Values in an execution

A value has what its defining instruction computed when the execution was there last, and
from there on the operands of that instruction are not defined again.
-/

namespace Libcrpm

open Relation

namespace Execution

variable {B V W : Type} {f : ControlFlow B} (e : Execution f V W)

theorem steps_avoiding {a : Inst B} {s t : Nat} (hle : s ≤ t) (ht : t < e.length)
    (h : ∀ k, s < k → k ≤ t → e.inst k ≠ a) :
    ReflTransGen (f.StepAvoiding a) (e.inst s) (e.inst t) := by
  induction t, hle using Nat.le_induction with
  | base => exact .refl
  | succ t hle ih =>
      have hsteps := ih (Nat.lt_of_succ_lt ht) fun k hlt hk => h k hlt (Nat.le_succ_of_le hk)
      exact hsteps.tail ⟨e.step t ht, h (t + 1) (Nat.lt_succ_of_le hle) (Nat.le_refl _)⟩

theorem steps_avoiding_of_lt {a : Inst B} {s t : Nat} (hlt : s < t) (ht : t < e.length)
    (h : ∀ k, s < k → k ≤ t → e.inst k ≠ a) :
    TransGen (f.StepAvoiding a) (e.inst s) (e.inst t) := by
  obtain ⟨t, rfl⟩ : ∃ u, t = u + 1 := ⟨t - 1, by omega⟩
  have hsteps := e.steps_avoiding (Nat.le_of_lt_succ hlt) (Nat.lt_of_succ_lt ht) fun k hk hkt =>
    h k hk (Nat.le_succ_of_le hkt)
  exact .tail' hsteps ⟨e.step t ht, h (t + 1) hlt (Nat.le_refl _)⟩

theorem reachable {t : Nat} (ht : t < e.length) : f.Reachable (e.inst t) := by
  induction t with
  | zero => exact e.first ▸ .refl
  | succ t ih => exact (ih (Nat.lt_of_succ_lt ht)).tail (e.step t ht)

theorem inst_add {e : Execution f V W} {b : B} {s p : Nat}
    (hinst : e.inst s = ⟨b, p⟩) (i : Nat) (ht : s + i < e.length) (hsize : p + i < f.size b) :
    e.inst (s + i) = ⟨b, p + i⟩ := by
  induction i with
  | zero => exact hinst
  | succ i ih =>
      have hhere := ih (by omega) (by omega)
      have hstep := e.step (s + i) ht
      rw [hhere] at hstep
      generalize hnext : e.inst (s + i + 1) = y at hstep
      cases hstep with
      | next _ => rfl
      | jump hlast _ => omega

/-- The last time before `t` that the execution is at `a`. -/
structure LastBefore (a : Inst B) (s t : Nat) : Prop where
  lt : s < t
  inst : e.inst s = a
  last : ∀ k, s < k → k < t → e.inst k ≠ a

variable {e}

theorem exists_before {a : Inst B} {t : Nat} (h : f.StrictlyDominates a (e.inst t))
    (ht : t < e.length) : ∃ s < t, e.inst s = a := by
  by_contra hnever
  push Not at hnever
  have havoid : ReflTransGen (f.StepAvoiding a) (e.inst 0) (e.inst t) := by
    refine e.steps_avoiding (Nat.zero_le t) ht fun k _ hk => ?_
    rcases Nat.lt_or_eq_of_le hk with hlt | rfl
    · exact hnever k hlt
    · exact h.1.symm
  rcases h.2 with rfl | hdom
  · rcases Nat.eq_zero_or_pos t with rfl | hpos
    · exact h.1 e.first.symm
    · exact hnever 0 hpos e.first
  · exact hdom (e.first ▸ havoid)

theorem exists_lastBefore {a : Inst B} {t : Nat} (h : f.StrictlyDominates a (e.inst t))
    (ht : t < e.length) : ∃ s, e.LastBefore a s t := by
  classical
  obtain ⟨s, hs, hinst⟩ := exists_before h ht
  have hle : s ≤ t - 1 := Nat.le_pred_of_lt hs
  have hlast := Nat.findGreatest_spec (P := fun k => e.inst k = a) hle hinst
  have hbound := Nat.findGreatest_le (P := fun k => e.inst k = a) (t - 1)
  refine ⟨Nat.findGreatest (fun k => e.inst k = a) (t - 1), by omega, hlast, fun k hlt hk => ?_⟩
  exact Nat.findGreatest_is_greatest hlt (Nat.le_pred_of_lt hk)

theorem not_dominated_back {a b : Inst B} {t : Nat} (ht : t < e.length) (hinst : e.inst t = b)
    (hab : f.StrictlyDominates a b) : ¬ f.StrictlyDominates b a := by
  induction t using Nat.strong_induction_on generalizing a b with
  | _ t ih =>
      subst hinst
      intro hba
      obtain ⟨s, hs, rfl⟩ := exists_before hab ht
      exact ih s hs (hs.trans ht) rfl hba hab

theorem dominates_trans {a b : Inst B} {t : Nat} (ht : t < e.length)
    (hab : f.StrictlyDominates a b) (hb : f.StrictlyDominates b (e.inst t)) :
    f.StrictlyDominates a (e.inst t) := by
  refine ⟨?_, hab.2.trans hb.2⟩
  rintro rfl
  exact not_dominated_back ht rfl hb hab

theorem LastBefore.not_again {a d : Inst B} {s t : Nat} (h : e.LastBefore a s t)
    (ht : t < e.length) (hda : f.StrictlyDominates d a) (ha : f.StrictlyDominates a (e.inst t)) :
    ∀ k, s ≤ k → k < t → e.inst k ≠ d := by
  classical
  intro k hk hkt hagain
  have hs : s < e.length := h.lt.trans ht
  obtain ⟨first, hfirst, hnone⟩ : ∃ j, e.inst j = d ∧ ∀ i < j, e.inst i ≠ d := by
    have hexists : ∃ j, e.inst j = d := ⟨k, hagain⟩
    exact ⟨Nat.find hexists, Nat.find_spec hexists, fun i hi => Nat.find_min hexists hi⟩
  have hlt : s < k := by
    refine Nat.lt_of_le_of_ne hk ?_
    rintro rfl
    exact hda.1 (hagain.symm.trans h.inst)
  have hle : first ≤ k := Nat.le_of_not_lt fun hlater => hnone k hlater hagain
  -- the first arrival at `d` comes before `a` has been reached
  have hbefore : ∀ j ≤ first, e.inst j ≠ a := by
    rintro j hj rfl
    obtain ⟨i, hi, hinst⟩ := exists_before hda (by omega)
    exact hnone i (by omega) hinst
  have hto : ReflTransGen (f.StepAvoiding a) (e.inst 0) (e.inst first) :=
    e.steps_avoiding (Nat.zero_le first) (by omega) fun j _ hj => hbefore j hj
  have hfrom : ReflTransGen (f.StepAvoiding a) (e.inst k) (e.inst t) := by
    refine e.steps_avoiding (Nat.le_of_lt hkt) ht fun j hj hjt => ?_
    rcases Nat.lt_or_eq_of_le hjt with hearlier | rfl
    · exact h.last j (hlt.trans hj) hearlier
    · exact ha.1.symm
  rw [hfirst, ← hagain, e.first] at hto
  rcases ha.2 with hentry | hdom
  · exact hbefore 0 (Nat.zero_le first) (e.first.trans hentry.symm)
  · exact hdom (hto.trans hfrom)

end Execution

/-! ## SSA form -/

/-- The values an address computation uses. -/
def GetElementPtr.indexValues {V : Type} (gep : GetElementPtr V) : List V :=
  gep.indices.filterMap fun index =>
    match index with
    | .element index _ => some index
    | .field _ => none

theorem GetElementPtr.offset_congr {V : Type} {gep : GetElementPtr V} {value value' : V → Int}
    (h : ∀ v ∈ gep.indexValues, value v = value' v) : gep.offset value = gep.offset value' := by
  unfold GetElementPtr.offset
  congr 1
  refine List.map_congr_left fun index hmem => ?_
  cases index with
  | element v size =>
      have heq := h v (List.mem_filterMap.mpr ⟨_, hmem, rfl⟩)
      simp only [heq]
  | field offset => rfl

namespace ValueInfo

variable {B V : Type} (info : ValueInfo B V) (f : ControlFlow B)

/-- A value may be used at an instruction that its definition dominates. -/
def Available (v : V) (x : Inst B) : Prop :=
  ∀ d, info.definition v = some d → f.StrictlyDominates d x

structure SsaForm : Prop where
  cast : ∀ v operand, info.castOperand v = some operand →
    ∃ d, info.definition v = some d ∧ info.Available f operand d
  gep : ∀ v gep, info.gepOf v = some gep → ∃ d, info.definition v = some d ∧
    info.Available f gep.pointerOperand d ∧ ∀ index ∈ gep.indexValues, info.Available f index d
  kinds : ∀ v gep, info.gepOf v = some gep → info.castOperand v = none

/-- What `getUnaryPointer` leaves out of an address. -/
def pointerOffset (value : V → Int) (pointer : V) : Int :=
  match info.gepOf (info.getUncastPointer pointer) with
  | some gep => gep.offset value
  | none => 0

end ValueInfo

/-- An execution of a function in SSA form.  A cast to a pointer keeps the address; `loaded t`
is the memory that loads see when the execution comes to its `t`-th instruction. -/
structure SsaExecution {B : Type} (f : ControlFlow B) {V : Type} (info : ValueInfo B V) extends
    Execution f V Int where
  ssa : info.SsaForm f
  loaded : Nat → Int → Int
  kept : ∀ t v, t + 1 < length → info.definition v ≠ some (inst t) → value (t + 1) v = value t v
  cast : ∀ t v operand, t + 1 < length → info.definition v = some (inst t) →
    info.castOperand v = some operand → value (t + 1) v = value t operand
  gep : ∀ t v gep, t + 1 < length → info.definition v = some (inst t) →
    info.gepOf v = some gep → value (t + 1) v = value t gep.pointerOperand + gep.offset (value t)
  load : ∀ t v source, t + 1 < length → info.definition v = some (inst t) →
    info.loadOf v = some source → value (t + 1) v = loaded t (value t source)
  mustAlias : ∀ t v u, t < length → info.isMustAlias v u = true →
    info.Available f v (inst t) → info.Available f u (inst t) → value t v = value t u

namespace SsaExecution

variable {B V : Type} {f : ControlFlow B} {info : ValueInfo B V} {e : SsaExecution f info}

theorem value_kept {s t : Nat} {v : V} (hle : s ≤ t) (ht : t < e.length)
    (h : ∀ k, s ≤ k → k < t → info.definition v ≠ some (e.inst k)) :
    e.value t v = e.value s v := by
  induction t, hle using Nat.le_induction with
  | base => rfl
  | succ t hle ih =>
      rw [e.kept t v ht (h t hle (Nat.lt_succ_self t))]
      exact ih (Nat.lt_of_succ_lt ht) fun k hk hlt => h k hk (Nat.lt_succ_of_lt hlt)

theorem value_of_available {a : Inst B} {s t : Nat} {v : V} (h : e.LastBefore a s t)
    (ht : t < e.length) (ha : f.StrictlyDominates a (e.inst t)) (hv : info.Available f v a) :
    e.value t v = e.value s v := by
  refine value_kept (Nat.le_of_lt h.lt) ht fun k hk hkt hdef => ?_
  exact h.not_again ht (hv _ hdef) ha k hk hkt rfl

theorem exists_computed {t : Nat} {v : V} {d : Inst B} (ht : t < e.length)
    (hdef : info.definition v = some d) (hv : info.Available f v (e.inst t)) :
    ∃ s, e.LastBefore d s t ∧ e.value t v = e.value (s + 1) v := by
  obtain ⟨s, hlast⟩ := Execution.exists_lastBefore (hv d hdef) ht
  refine ⟨s, hlast, value_kept hlast.lt ht fun k hk hkt hagain => ?_⟩
  have hinst : e.inst k = d := Option.some.inj (hagain.symm.trans hdef)
  exact hlast.last k hk hkt hinst

theorem available_operand {t : Nat} {v operand : V} {d : Inst B} (ht : t < e.length)
    (hdef : info.definition v = some d) (hv : info.Available f v (e.inst t))
    (h : info.Available f operand d) : info.Available f operand (e.inst t) :=
  fun d' hdef' => Execution.dominates_trans ht (h d' hdef') (hv d hdef)

theorem available_uncast {t : Nat} {v : V} (ht : t < e.length)
    (hv : info.Available f v (e.inst t)) :
    info.Available f (info.getUncastPointer v) (e.inst t) := by
  unfold ValueInfo.getUncastPointer
  cases hcast : info.castOperand v with
  | none => exact hv
  | some operand =>
      obtain ⟨d, hdef, hoperand⟩ := e.ssa.cast v operand hcast
      exact available_operand ht hdef hv hoperand

theorem value_uncast {t : Nat} {v : V} (ht : t < e.length)
    (hv : info.Available f v (e.inst t)) : e.value t (info.getUncastPointer v) = e.value t v := by
  unfold ValueInfo.getUncastPointer
  cases hcast : info.castOperand v with
  | none => rfl
  | some operand =>
      obtain ⟨d, hdef, hoperand⟩ := e.ssa.cast v operand hcast
      obtain ⟨s, hlast, hcomputed⟩ := exists_computed ht hdef hv
      have hs : s + 1 < e.length := Nat.lt_of_le_of_lt hlast.lt ht
      calc e.value t operand = e.value s operand :=
            value_of_available hlast ht (hv d hdef) hoperand
        _ = e.value (s + 1) v := (e.cast s v operand hs (hlast.inst ▸ hdef) hcast).symm
        _ = e.value t v := hcomputed.symm

theorem available_pointerOperand {t : Nat} {v : V} {gep : GetElementPtr V} (ht : t < e.length)
    (hv : info.Available f v (e.inst t)) (hgep : info.gepOf v = some gep) :
    info.Available f gep.pointerOperand (e.inst t) := by
  obtain ⟨d, hdef, hpointer, _⟩ := e.ssa.gep v gep hgep
  exact available_operand ht hdef hv hpointer

theorem value_gep {t : Nat} {v : V} {gep : GetElementPtr V} (ht : t < e.length)
    (hv : info.Available f v (e.inst t)) (hgep : info.gepOf v = some gep) :
    e.value t v = e.value t gep.pointerOperand + gep.offset (e.value t) := by
  obtain ⟨d, hdef, hpointer, hindices⟩ := e.ssa.gep v gep hgep
  obtain ⟨s, hlast, hcomputed⟩ := exists_computed ht hdef hv
  have hs : s + 1 < e.length := Nat.lt_of_le_of_lt hlast.lt ht
  have hoffset : gep.offset (e.value t) = gep.offset (e.value s) :=
    gep.offset_congr fun index hmem => value_of_available hlast ht (hv d hdef) (hindices index hmem)
  rw [hcomputed, e.gep s v gep hs (hlast.inst ▸ hdef) hgep, hoffset,
    value_of_available hlast ht (hv d hdef) hpointer]

theorem value_unary {t : Nat} {v base : V} (ht : t < e.length)
    (hv : info.Available f v (e.inst t)) (hbase : info.getUnaryPointer v false = some base) :
    info.Available f base (e.inst t) ∧
      e.value t v = e.value t base + info.pointerOffset (e.value t) v := by
  have huncast := available_uncast ht hv
  unfold ValueInfo.getUnaryPointer at hbase
  unfold ValueInfo.pointerOffset
  cases hgep : info.gepOf (info.getUncastPointer v) with
  | none =>
      rw [hgep] at hbase
      obtain rfl : info.getUncastPointer v = base := Option.some.inj hbase
      exact ⟨huncast, by rw [value_uncast ht hv, Int.add_zero]⟩
  | some gep =>
      rw [hgep] at hbase
      obtain rfl : gep.pointerOperand = base := Option.some.inj hbase
      refine ⟨available_pointerOperand ht huncast hgep, ?_⟩
      rw [← value_uncast ht hv, value_gep ht huncast hgep]

end SsaExecution

/-! ## What hooks report -/

/-- A hook of one of the two sets. -/
inductive Hook (B V : Type) where
  | store (entry : FunctionContext.MemoryStoreHook B V)
  | bulk (entry : FunctionContext.MemoryBulkStoreHook B V)

namespace Hook

variable {B V : Type}

def insertionPt : Hook B V → Inst B
  | .store entry => entry.insertionPt
  | .bulk entry => entry.insertionPt

def pointer : Hook B V → V
  | .store entry => entry.pointer
  | .bulk entry => entry.pointer

/-- The range is rebuilt from a pointer that is loaded again. -/
def LoadsPointer : Hook B V → Prop
  | .store _ => False
  | .bulk entry => entry.useStartStopIndex = true ∧ entry.copyLoad = true

/-- The operands of the code that `transform` inserts may be used there. -/
def Usable (f : ControlFlow B) (info : ValueInfo B V) : Hook B V → Prop
  | .store entry =>
      if entry.copyGep then
        ∃ gep, info.gepOf entry.pointer = some gep ∧
          info.Available f gep.pointerOperand entry.insertionPt ∧
          ∀ index ∈ gep.indexValues, info.Available f index entry.insertionPt
      else info.Available f entry.pointer entry.insertionPt
  | .bulk entry =>
      info.Available f entry.lengthOrStartIndex entry.insertionPt ∧
      if entry.useStartStopIndex then
        ∃ gep, info.gepOf entry.pointer = some gep ∧
          info.Available f entry.stopIndex entry.insertionPt ∧
          if entry.copyLoad then
            ∃ source, info.loadOf gep.pointerOperand = some source ∧
              info.Available f source entry.insertionPt
          else info.Available f gep.pointerOperand entry.insertionPt
      else info.Available f entry.pointer entry.insertionPt

end Hook

namespace GetElementPtr

variable {V : Type} (gep : GetElementPtr V)

/-- The size of what the pointer operand points to. -/
def pointeeSize : Nat :=
  match gep.indices with
  | .element _ size :: _ => size
  | _ => 0

end GetElementPtr

namespace SsaExecution

variable {B V : Type} {f : ControlFlow B} {info : ValueInfo B V} (e : SsaExecution f info)

/-- The pointer operand as the code at the insertion point has it. -/
def indexedPointer (copyLoad : Bool) (gep : GetElementPtr V) (t : Nat) : Int :=
  match copyLoad, info.loadOf gep.pointerOperand with
  | true, some source => e.loaded t (e.value t source)
  | _, _ => e.value t gep.pointerOperand

def start (hook : Hook B V) (t : Nat) : Int :=
  match hook, info.gepOf hook.pointer with
  | .store ⟨_, _, _, true⟩, some gep => e.value t gep.pointerOperand + gep.offset (e.value t)
  | .bulk ⟨_, _, startIndex, true, _, copyLoad⟩, some gep =>
      e.indexedPointer copyLoad gep t + e.value t startIndex * gep.pointeeSize
  | _, _ => e.value t hook.pointer

def stop (hook : Hook B V) (t : Nat) : Int :=
  match hook, info.gepOf hook.pointer with
  | .store _, _ => e.start hook t + 1
  | .bulk ⟨_, _, _, true, stopIndex, copyLoad⟩, some gep =>
      e.indexedPointer copyLoad gep t + e.value t stopIndex * gep.pointeeSize
  | .bulk ⟨_, _, length, _, _, _⟩, _ => e.start hook t + e.value t length

/-- The hook is called when the execution comes to its insertion point. -/
def Reports (hook : Hook B V) (t : Nat) (address : Int) : Prop :=
  t < e.length ∧ e.inst t = hook.insertionPt ∧ e.start hook t ≤ address ∧ address < e.stop hook t

/-- The pointer that `getUnaryPointer` finds, or what is loaded in its place. -/
def base (hook : Hook B V) (t : Nat) : Int :=
  match hook, info.gepOf hook.pointer with
  | .bulk ⟨_, _, _, true, _, copyLoad⟩, some gep => e.indexedPointer copyLoad gep t
  | _, _ => e.value t ((info.getUnaryPointer hook.pointer false).getD hook.pointer)

def offset (hook : Hook B V) (t : Nat) : Int :=
  match hook, info.gepOf hook.pointer with
  | .bulk ⟨_, _, startIndex, true, _, _⟩, some gep => e.value t startIndex * gep.pointeeSize
  | _, _ => info.pointerOffset (e.value t) hook.pointer

variable {e}

theorem getUnaryPointer_of_gep {v : V} {gep : GetElementPtr V} (ssa : info.SsaForm f)
    (hgep : info.gepOf v = some gep) :
    info.getUnaryPointer v false = some gep.pointerOperand ∧
      ∀ value, info.pointerOffset value v = gep.offset value := by
  have huncast : info.getUncastPointer v = v := by
    rw [ValueInfo.getUncastPointer, ssa.kinds v gep hgep, Option.getD_none]
  simp only [ValueInfo.getUnaryPointer, ValueInfo.pointerOffset, huncast, hgep, implies_true,
    and_self]

theorem available_of_gep {v : V} {gep : GetElementPtr V} {x : Inst B} (ssa : info.SsaForm f)
    (hgep : info.gepOf v = some gep) (h : info.Available f gep.pointerOperand x) :
    info.Available f ((info.getUnaryPointer v false).getD v) x := by
  rw [(getUnaryPointer_of_gep ssa hgep).1]
  exact h

theorem exists_getUnaryPointer (info : ValueInfo B V) (v : V) :
    ∃ base, info.getUnaryPointer v false = some base := by
  unfold ValueInfo.getUnaryPointer
  cases info.gepOf (info.getUncastPointer v) with
  | none => exact ⟨_, rfl⟩
  | some gep => exact ⟨_, rfl⟩

theorem value_eq_base {t : Nat} {v : V} (ht : t < e.length)
    (hv : info.Available f v (e.inst t)) :
    e.value t v = e.value t ((info.getUnaryPointer v false).getD v) +
      info.pointerOffset (e.value t) v := by
  obtain ⟨base, hbase⟩ := exists_getUnaryPointer info v
  rw [hbase, Option.getD_some]
  exact (value_unary ht hv hbase).2

theorem start_eq {hook : Hook B V} {t : Nat} (ht : t < e.length)
    (hinst : e.inst t = hook.insertionPt) (husable : hook.Usable f info) :
    e.start hook t = e.base hook t + e.offset hook t := by
  cases hook with
  | store entry =>
      obtain ⟨address, insertionPt, pointer, copyGep⟩ := entry
      change e.inst t = insertionPt at hinst
      subst hinst
      cases copyGep with
      | false =>
          have hpointer : info.Available f pointer (e.inst t) := by simpa [Hook.Usable] using husable
          exact value_eq_base ht hpointer
      | true =>
          obtain ⟨gep, hgep, -⟩ : ∃ gep, info.gepOf pointer = some gep ∧ _ := by
            simpa [Hook.Usable] using husable
          obtain ⟨hunary, hoffset⟩ := getUnaryPointer_of_gep e.ssa hgep
          simp only [start, base, offset, Hook.pointer, hgep, hunary, hoffset, Option.getD_some]
  | bulk entry =>
      obtain ⟨insertionPt, pointer, lengthOrStartIndex, useStartStopIndex, stopIndex, copyLoad⟩ := entry
      change e.inst t = insertionPt at hinst
      subst hinst
      cases useStartStopIndex with
      | false =>
          have hpointer : info.Available f pointer (e.inst t) := by
            have h := husable.2
            simpa using h
          exact value_eq_base ht hpointer
      | true =>
          obtain ⟨gep, hgep, -⟩ : ∃ gep, info.gepOf pointer = some gep ∧ _ := by
            have h := husable.2
            simpa using h
          simp only [start, base, offset, Hook.pointer, hgep]

theorem base_eq {hook : Hook B V} {t : Nat} (ht : t < e.length)
    (hinst : e.inst t = hook.insertionPt) (husable : hook.Usable f info)
    (hloads : ¬ hook.LoadsPointer) :
    e.base hook t = e.value t ((info.getUnaryPointer hook.pointer false).getD hook.pointer) ∧
      info.Available f ((info.getUnaryPointer hook.pointer false).getD hook.pointer)
        (e.inst t) := by
  have hunary : ∀ v, info.Available f v (e.inst t) →
      info.Available f ((info.getUnaryPointer v false).getD v) (e.inst t) := by
    intro v hv
    obtain ⟨base, hbase⟩ := exists_getUnaryPointer info v
    rw [hbase]
    exact (value_unary ht hv hbase).1
  cases hook with
  | store entry =>
      obtain ⟨address, insertionPt, pointer, copyGep⟩ := entry
      change e.inst t = insertionPt at hinst
      subst hinst
      refine ⟨rfl, ?_⟩
      cases copyGep with
      | false => exact hunary pointer (by simpa [Hook.Usable] using husable)
      | true =>
          obtain ⟨gep, hgep, hpointer, -⟩ : ∃ gep, info.gepOf pointer = some gep ∧
              info.Available f gep.pointerOperand (e.inst t) ∧ _ := by
            simpa [Hook.Usable] using husable
          exact available_of_gep e.ssa hgep hpointer
  | bulk entry =>
      obtain ⟨insertionPt, pointer, lengthOrStartIndex, useStartStopIndex, stopIndex, copyLoad⟩ := entry
      change e.inst t = insertionPt at hinst
      subst hinst
      have huse := husable.2
      cases useStartStopIndex with
      | false => exact ⟨rfl, hunary pointer (by simpa using huse)⟩
      | true =>
          obtain rfl : copyLoad = false := by
            simpa [Hook.LoadsPointer] using hloads
          obtain ⟨gep, hgep, -, hpointer⟩ : ∃ gep, info.gepOf pointer = some gep ∧ _ ∧
              info.Available f gep.pointerOperand (e.inst t) := by
            simpa using huse
          obtain ⟨hgepUnary, -⟩ := getUnaryPointer_of_gep e.ssa hgep
          refine ⟨?_, available_of_gep e.ssa hgep hpointer⟩
          simp only [base, Hook.pointer, hgep, hgepUnary, Option.getD_some, indexedPointer]

end SsaExecution

end Libcrpm
