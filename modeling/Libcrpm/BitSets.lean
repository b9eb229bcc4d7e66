import Libcrpm.Common
import Libcrpm.Program.History

/-!
# The bit set as a set

A run of `AtomicBitSet` from `allocate(nr_bits)` against the set of the indices that were set and
not cleared since.  `clear_region` zeroes the words from that of its start up to that of its end.
-/

namespace Libcrpm

namespace AtomicBitSet

/-- The words that `allocate` asks for. -/
def nrWords (nrBits : Nat) : Nat := nrBits / kBitWidth + if nrBits % kBitWidth ≠ 0 then 1 else 0

theorem word_lt_nrWords {idx nrBits : Nat} (h : idx < nrBits) :
    idx >>> kBitShift < nrWords nrBits := by
  rw [word_eq]
  unfold nrWords kBitWidth
  split <;> omega

theorem word_le_nrWords {idx nrBits : Nat} (h : idx ≤ nrBits) :
    idx >>> kBitShift ≤ nrWords nrBits := by
  rw [word_eq]
  unfold nrWords kBitWidth
  split <;> omega

inductive BitOp where
  | set (idx : Nat)
  | clear (idx : Nat)
  | clearRegion (start stop : Nat)
deriving DecidableEq

namespace BitOp

def Valid (nrBits : Nat) : BitOp → Prop
  | set idx => idx < nrBits
  | clear idx => idx < nrBits
  | clearRegion start stop => start ≤ stop ∧ stop ≤ nrBits

def apply (b : AtomicBitSet) : BitOp → AtomicBitSet
  | set idx => b.set idx
  | clear idx => b.clear idx
  | clearRegion start stop => b.clearRegion start stop

def Removes : BitOp → Nat → Prop
  | set _, _ => False
  | clear idx, i => i = idx
  | clearRegion start stop, i => start ≤ i ∧ i < stop

theorem apply_frame {op : BitOp} {nrBits word : Nat} (b : AtomicBitSet) (hvalid : op.Valid nrBits)
    (hword : nrWords nrBits ≤ word) : (op.apply b).buf word = b.buf word := by
  cases op with
  | set idx =>
      have hlt := word_lt_nrWords hvalid
      apply Function.update_of_ne
      omega
  | clear idx =>
      have hlt := word_lt_nrWords hvalid
      apply Function.update_of_ne
      omega
  | clearRegion start stop =>
      have hle := word_le_nrWords hvalid.2
      apply if_neg
      omega

end BitOp

def run (ops : List BitOp) : AtomicBitSet := ops.foldl BitOp.apply allocate

/-- The index was set, and not removed since. -/
def Held (ops : List BitOp) (i : Nat) : Prop :=
  Program.Since (· = .set i) (·.Removes i) ops

theorem run_snoc (ops : List BitOp) (op : BitOp) : run (ops ++ [op]) = op.apply (run ops) := by
  unfold run
  rw [List.foldl_append]
  rfl

theorem not_held_nil (i : Nat) : ¬ Held [] i := Program.not_since_nil

theorem held_snoc {ops : List BitOp} {op : BitOp} {i : Nat} :
    Held (ops ++ [op]) i ↔ op = .set i ∨ Held ops i ∧ ¬ op.Removes i := Program.since_snoc

/-! ## Whole words -/

/-- No bit is set that `clear_region` gets wrong: one before `start` in a word it zeroes, or one
before `stop` in the word it leaves. -/
structure CleanEdges (b : AtomicBitSet) (start stop : Nat) : Prop where
  first : start / 64 < stop / 64 → ∀ i, start / 64 * 64 ≤ i → i < start → b.test i = false
  last : ∀ i, start ≤ i → stop / 64 * 64 ≤ i → i < stop → b.test i = false

theorem CleanEdges.of_dvd {b : AtomicBitSet} {start stop : Nat} (hstart : 64 ∣ start)
    (hstop : 64 ∣ stop) : CleanEdges b start stop := by
  constructor
  · intro _ i hword hlt
    omega
  · intro i _ hword hlt
    omega

theorem clearRegion_exact_iff {b : AtomicBitSet} {start stop nrBits : Nat} (hle : start ≤ stop)
    (hstop : stop ≤ nrBits) :
    (∀ i < nrBits, (b.clearRegion start stop).test i = true ↔
      b.test i = true ∧ ¬ (start ≤ i ∧ i < stop)) ↔ CleanEdges b start stop := by
  constructor
  · intro hexact
    constructor
    · intro hlt i hword hi
      by_contra hset
      have hset : b.test i = true := by simpa using hset
      have hkept := (hexact i (by omega)).mpr ⟨hset, by omega⟩
      rw [test_clearRegion, decide_eq_true (by omega)] at hkept
      simp at hkept
    · intro i hstart hword hi
      by_contra hset
      have hset : b.test i = true := by simpa using hset
      have hgone := mt (hexact i (by omega)).mp (fun h => h.2 ⟨hstart, hi⟩)
      rw [test_clearRegion, decide_eq_false (by omega), hset] at hgone
      simp at hgone
  · intro hclean i _
    rw [test_clearRegion, Bool.and_eq_true, Bool.not_eq_true', decide_eq_false_iff_not, and_comm,
      and_congr_right_iff]
    intro hset
    constructor
    · rintro hword ⟨hstart, hi⟩
      have hclear := hclean.last i hstart (by omega) hi
      rw [hset] at hclear
      simp at hclear
    · rintro hregion ⟨hword, hi⟩
      have hclear := hclean.first (by omega) i (by omega) (by omega)
      rw [hset] at hclear
      simp at hclear

/-! ## Runs -/

def Agrees (nrBits : Nat) (ops : List BitOp) : Prop :=
  ∀ i < nrBits, (run ops).test i = true ↔ Held ops i

/-- The bit set is the set after each of the operations. -/
def Implements (nrBits : Nat) (ops : List BitOp) : Prop :=
  ∀ before, before <+: ops → Agrees nrBits before

def CleanRun (ops : List BitOp) : Prop :=
  ∀ before start stop, before ++ [.clearRegion start stop] <+: ops →
    CleanEdges (run before) start stop

theorem agrees_nil (nrBits : Nat) : Agrees nrBits [] := by
  intro i _
  have htest : (run []).test i = false := test_allocate i
  rw [htest]
  exact iff_of_false (by simp) (not_held_nil i)

theorem Agrees.snoc_iff {nrBits : Nat} {ops : List BitOp} {op : BitOp} (h : Agrees nrBits ops)
    (hvalid : op.Valid nrBits) : Agrees nrBits (ops ++ [op]) ↔
      ∀ start stop, op = .clearRegion start stop → CleanEdges (run ops) start stop := by
  unfold Agrees
  rw [run_snoc]
  cases op with
  | set idx =>
      refine iff_of_true (fun i hi => ?_) (fun _ _ hop => by cases hop)
      rw [held_snoc, BitOp.apply, test_set, Bool.or_eq_true, decide_eq_true_eq, h i hi,
        BitOp.set.injEq, eq_comm]
      simp only [BitOp.Removes, not_false_eq_true, and_true]
  | clear idx =>
      refine iff_of_true (fun i hi => ?_) (fun _ _ hop => by cases hop)
      rw [held_snoc, BitOp.apply, test_clear, Bool.and_eq_true, h i hi, Bool.not_eq_true',
        decide_eq_false_iff_not, and_comm]
      simp only [BitOp.Removes, reduceCtorEq, false_or]
  | clearRegion start stop =>
      have hheld : ∀ i < nrBits, Held (ops ++ [.clearRegion start stop]) i ↔
          (run ops).test i = true ∧ ¬ (start ≤ i ∧ i < stop) := by
        intro i hi
        rw [held_snoc, h i hi]
        simp only [BitOp.Removes, reduceCtorEq, false_or]
      have hexact := clearRegion_exact_iff (b := run ops) hvalid.1 hvalid.2
      constructor
      · intro hagrees start' stop' hop
        cases hop
        exact hexact.mp fun i hi => (hagrees i hi).trans (hheld i hi)
      · intro hclean i hi
        exact (hexact.mpr (hclean start stop rfl) i hi).trans (hheld i hi).symm

theorem CleanRun.agrees {nrBits : Nat} {ops : List BitOp} (hclean : CleanRun ops)
    (hvalid : ∀ op ∈ ops, op.Valid nrBits) : Agrees nrBits ops := by
  induction ops using List.reverseRecOn with
  | nil => exact agrees_nil nrBits
  | append_singleton ops op ih =>
      have hagrees := ih (fun before start stop hpre => hclean before start stop
        (hpre.trans (List.prefix_append ops [op]))) (fun o ho => hvalid o (by simp [ho]))
      apply (hagrees.snoc_iff (hvalid op (by simp))).mpr
      rintro start stop rfl
      exact hclean ops start stop (List.prefix_refl _)

/-- The bit set implements the set exactly if no clearing of a region meets a bit of the index
range that whole words get wrong. -/
theorem implements_iff {nrBits : Nat} {ops : List BitOp} (hvalid : ∀ op ∈ ops, op.Valid nrBits) :
    Implements nrBits ops ↔ CleanRun ops := by
  constructor
  · intro h before start stop hpre
    have hagrees := h before ((List.prefix_append before _).trans hpre)
    have hop := hvalid (.clearRegion start stop) (hpre.subset (by simp))
    exact (hagrees.snoc_iff hop).mp (h _ hpre) start stop rfl
  · intro hclean before hpre
    apply CleanRun.agrees
    · intro before' start stop hpre'
      exact hclean before' start stop (hpre'.trans hpre)
    · intro op ho
      exact hvalid op (hpre.subset ho)

theorem CleanRun.of_dvd {ops : List BitOp}
    (h : ∀ start stop, .clearRegion start stop ∈ ops → 64 ∣ start ∧ 64 ∣ stop) : CleanRun ops := by
  intro before start stop hpre
  obtain ⟨hstart, hstop⟩ := h start stop (hpre.subset (by simp))
  exact CleanEdges.of_dvd hstart hstop

/-- Of 100 bits, a clearing of the first word. -/
theorem implements_iff_word :
    Implements 100 [.set 3, .set 70, .clear 70, .clearRegion 0 64, .set 99] := by
  have hvalid : ∀ op ∈ ([.set 3, .set 70, .clear 70, .clearRegion 0 64, .set 99] : List BitOp),
      op.Valid 100 := by
    simp [BitOp.Valid]
  refine (implements_iff hvalid).mpr (CleanRun.of_dvd fun start stop hop => ?_)
  obtain ⟨rfl, rfl⟩ : start = 0 ∧ stop = 64 := by simpa using hop
  exact ⟨⟨0, rfl⟩, ⟨1, rfl⟩⟩

/-- `clear_region(0, 1)` on one bit, as `clear_region(0, nr_segments)` on a pool of one segment. -/
theorem not_implements_segment : ¬ Implements 1 [.set 0, .clearRegion 0 1] := by
  intro h
  have hagrees := h _ (List.prefix_refl _) 0 (by decide)
  have htest : (run [.set 0, .clearRegion 0 1]).test 0 = true := by decide
  have hheld := held_snoc.mp (show Held ([.set 0] ++ [.clearRegion 0 1]) 0 from hagrees.mp htest)
  simp [BitOp.Removes] at hheld

end AtomicBitSet

end Libcrpm
