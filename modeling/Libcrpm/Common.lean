import Mathlib.Algebra.Ring.Nat
import Mathlib.Logic.Function.Basic
import Mathlib.Data.List.Basic

/-!
# Geometry of a pool and the dirty bitmaps

The constants of `internal/common.h`, and its `AtomicBitSet` with the 64-bit words
it really stores: `clear_all` and `clear_region` work on whole words.
-/

namespace Libcrpm

/-! ## Constants -/

def kCacheLineShift : Nat := 6
def kCacheLineSize : Nat := 1 <<< kCacheLineShift

def kBlockShift : Nat := 8
def kBlockSize : Nat := 1 <<< kBlockShift

def kSegmentShift : Nat := 21
def kSegmentSize : Nat := 1 <<< kSegmentShift

def kMaxFlushBlocks : Nat := (32 <<< 20) >>> kBlockShift
def kBlocksPerSegment : Nat := kSegmentSize / kBlockSize

def kMaxThreads : Nat := 256
def kSegmentLocks : Nat := 1024
def kAttributeHasSnapshot : Nat := 0x10

def kPageShift : Nat := 12
def kPageSize : Nat := 1 <<< kPageShift
def kHugePageSize : Nat := 1 <<< 21
def kMinContainerSize : Nat := 16 <<< 20

def roundUp (a b : Nat) : Nat := if a % b ≠ 0 then a - a % b + b else a

theorem le_roundUp (a : Nat) {b : Nat} (hb : 0 < b) : a ≤ roundUp a b := by
  have hmod := Nat.mod_lt a hb
  unfold roundUp
  split <;> omega

theorem roundUp_lt (a : Nat) {b : Nat} (hb : 0 < b) : roundUp a b < a + b := by
  have hle := Nat.mod_le a b
  unfold roundUp
  split <;> omega

theorem dvd_roundUp (a b : Nat) : b ∣ roundUp a b := by
  unfold roundUp
  split
  · exact Nat.dvd_add (Nat.dvd_sub_mod a) (Nat.dvd_refl b)
  · rename_i hmod
    exact Nat.dvd_of_mod_eq_zero (by omega)

/-- Bytes of one machine word, the unit in which stores are atomic. -/
def kWordSize : Nat := 8
def kWordsPerCacheLine : Nat := kCacheLineSize / kWordSize
def kWordsPerBlock : Nat := kBlockSize / kWordSize
def kWordsPerSegment : Nat := kSegmentSize / kWordSize

theorem kBlockSize_eq : kBlockSize = 256 := rfl
theorem kSegmentSize_eq : kSegmentSize = 2097152 := rfl
theorem kPageSize_eq : kPageSize = 4096 := rfl
theorem kBlocksPerSegment_eq : kBlocksPerSegment = 8192 := rfl
theorem kWordsPerCacheLine_eq : kWordsPerCacheLine = 8 := rfl
theorem kWordsPerBlock_eq : kWordsPerBlock = 32 := rfl
theorem kWordsPerSegment_eq : kWordsPerSegment = 262144 := rfl

def blockOf (s o : Nat) : Nat := s * kBlocksPerSegment + o / kWordsPerBlock

/-- The segment of a block: `block_id >> (kSegmentShift - kBlockShift)`. -/
def segmentOf (block : Nat) : Nat := block >>> (kSegmentShift - kBlockShift)

theorem segmentOf_eq (block : Nat) : segmentOf block = block / kBlocksPerSegment := by
  rw [segmentOf, Nat.shiftRight_eq_div_pow]
  rfl

@[simp] theorem segmentOf_blockOf {s o : Nat} (ho : o < kWordsPerSegment) :
    segmentOf (blockOf s o) = s := by
  rw [kWordsPerSegment_eq] at ho
  rw [segmentOf_eq, blockOf, kBlocksPerSegment_eq, kWordsPerBlock_eq]
  omega

theorem blockOf_eq_iff {s o block : Nat} (ho : o < kWordsPerSegment) :
    blockOf s o = block ↔
      segmentOf block = s ∧ o / kWordsPerBlock = block % kBlocksPerSegment := by
  rw [kWordsPerSegment_eq] at ho
  rw [segmentOf_eq, blockOf, kBlocksPerSegment_eq, kWordsPerBlock_eq]
  omega

/-- Byte offset of word `o` of segment `s` from the start of main memory. -/
def offsetOf (s o : Nat) : Nat := s * kSegmentSize + o * kWordSize

/-! ## AtomicBitSet -/

/-- `AtomicBitSet`: the bits are packed into 64-bit words. -/
structure AtomicBitSet where
  buf : Nat → BitVec 64

namespace AtomicBitSet

def kBitShift : Nat := 6
def kBitWidth : Nat := 64
def kBitMask : Nat := 63

def allocate : AtomicBitSet := ⟨fun _ => 0#64⟩

def bitAt (idx : Nat) : BitVec 64 := 1#64 <<< (idx &&& kBitMask)

def set (b : AtomicBitSet) (idx : Nat) : AtomicBitSet :=
  ⟨Function.update b.buf (idx >>> kBitShift) (b.buf (idx >>> kBitShift) ||| bitAt idx)⟩

def test (b : AtomicBitSet) (idx : Nat) : Bool :=
  (b.buf (idx >>> kBitShift) &&& bitAt idx) != 0#64

def clear (b : AtomicBitSet) (idx : Nat) : AtomicBitSet :=
  ⟨Function.update b.buf (idx >>> kBitShift) (b.buf (idx >>> kBitShift) &&& ~~~ bitAt idx)⟩

def testAll (b : AtomicBitSet) (idx : Nat) : BitVec 64 := b.buf (idx >>> kBitShift)

def clearAll (b : AtomicBitSet) (idx : Nat) : AtomicBitSet :=
  ⟨Function.update b.buf (idx >>> kBitShift) 0#64⟩

/-- Zero the words from that of `start` up to, not including, that of `stop`. -/
def clearRegion (b : AtomicBitSet) (start stop : Nat) : AtomicBitSet :=
  ⟨fun off => if start >>> kBitShift ≤ off ∧ off < stop >>> kBitShift then 0#64 else b.buf off⟩

/-- The indices a scan `while (bitset) { i = ctz(bitset); bitset ^= bitset & -bitset; }`
over one word visits. -/
def setBits (w : BitVec 64) : List Nat := (List.range kBitWidth).filter w.getLsbD

theorem word_eq (idx : Nat) : idx >>> kBitShift = idx / 64 := by
  rw [Nat.shiftRight_eq_div_pow]
  rfl

theorem mask_eq (idx : Nat) : idx &&& kBitMask = idx % 64 :=
  Nat.and_two_pow_sub_one_eq_mod idx 6

theorem getLsbD_bitAt (idx i : Nat) (hi : i < 64) :
    (bitAt idx).getLsbD i = decide (i = idx % 64) := by
  have hone : ∀ k : Nat, (1#64).getLsbD k = decide (k = 0) := by
    intro k
    rw [BitVec.getLsbD_one]
    simp
  rw [bitAt, mask_eq, BitVec.getLsbD_shiftLeft, hone]
  simp only [hi, decide_true, Bool.true_and]
  by_cases h : i < idx % 64
  · simp [h]; omega
  · simp [h]; omega

theorem and_bitAt_ne_zero (w : BitVec 64) (idx : Nat) :
    ((w &&& bitAt idx) != 0#64) = w.getLsbD (idx % 64) := by
  have hlt : idx % 64 < 64 := Nat.mod_lt _ (by decide)
  by_cases hbit : w.getLsbD (idx % 64) = true
  · rw [hbit, bne_iff_ne]
    intro hzero
    have hget := congrArg (fun v => BitVec.getLsbD v (idx % 64)) hzero
    rw [BitVec.getLsbD_and, getLsbD_bitAt idx _ hlt] at hget
    simp [hbit] at hget
  · have hfalse : w.getLsbD (idx % 64) = false := by simpa using hbit
    have hzero : w &&& bitAt idx = 0#64 := by
      apply BitVec.eq_of_getLsbD_eq
      intro i hi
      rw [BitVec.getLsbD_and, getLsbD_bitAt idx i hi]
      by_cases h : i = idx % 64
      · subst h; simp [hfalse]
      · simp [h]
    rw [hfalse, hzero]
    rfl

theorem test_eq (b : AtomicBitSet) (idx : Nat) :
    b.test idx = (b.buf (idx / 64)).getLsbD (idx % 64) := by
  rw [test, and_bitAt_ne_zero, word_eq]

@[simp] theorem test_allocate (idx : Nat) : allocate.test idx = false := by
  simp [test_eq, allocate]

theorem test_set (b : AtomicBitSet) (i j : Nat) :
    (b.set i).test j = (decide (j = i) || b.test j) := by
  have hlt : j % 64 < 64 := Nat.mod_lt _ (by decide)
  rw [test_eq, test_eq, set, word_eq]
  by_cases hw : j / 64 = i / 64
  · rw [hw]
    simp only [Function.update_self, BitVec.getLsbD_or, getLsbD_bitAt i _ hlt]
    rw [Bool.or_comm]
    congr 1
    rw [decide_eq_decide]
    omega
  · have hne : j ≠ i := by rintro rfl; exact hw rfl
    simp [Function.update_of_ne hw, hne]

theorem test_clear (b : AtomicBitSet) (i j : Nat) :
    (b.clear i).test j = (!decide (j = i) && b.test j) := by
  have hlt : j % 64 < 64 := Nat.mod_lt _ (by decide)
  rw [test_eq, test_eq, clear, word_eq]
  by_cases hw : j / 64 = i / 64
  · rw [hw]
    simp only [Function.update_self, BitVec.getLsbD_and, BitVec.getLsbD_not,
      getLsbD_bitAt i _ hlt, hlt, decide_true, Bool.true_and]
    rw [Bool.and_comm]
    congr 2
    rw [decide_eq_decide]
    omega
  · have hne : j ≠ i := by rintro rfl; exact hw rfl
    simp [Function.update_of_ne hw, hne]

theorem test_clearAll (b : AtomicBitSet) (i j : Nat) :
    (b.clearAll i).test j = (!decide (j / 64 = i / 64) && b.test j) := by
  rw [test_eq, test_eq, clearAll, word_eq]
  by_cases hw : j / 64 = i / 64
  · rw [hw]
    simp
  · simp [hw]

theorem test_clearRegion (b : AtomicBitSet) (start stop j : Nat) :
    (b.clearRegion start stop).test j =
      (!decide (start / 64 ≤ j / 64 ∧ j / 64 < stop / 64) && b.test j) := by
  rw [test_eq, test_eq, clearRegion, word_eq, word_eq]
  by_cases h : start / 64 ≤ j / 64 ∧ j / 64 < stop / 64
  · simp [h]
  · simp [h]

theorem mem_setBits {w : BitVec 64} {k : Nat} :
    k ∈ setBits w ↔ k < 64 ∧ w.getLsbD k = true := by
  rw [setBits, List.mem_filter, List.mem_range]
  rfl

theorem getLsbD_testAll (b : AtomicBitSet) (word : Nat) {i : Nat} (hi : i < 64) :
    (b.testAll (word * 64)).getLsbD i = b.test (word * 64 + i) := by
  rw [testAll, word_eq, test_eq]
  have hdiv : (word * 64 + i) / 64 = word := by omega
  have hdiv' : word * 64 / 64 = word := by omega
  have hmod : (word * 64 + i) % 64 = i := by omega
  rw [hdiv, hdiv', hmod]

theorem mem_setBits_testAll (b : AtomicBitSet) (word i : Nat) (hi : i < 64) :
    i ∈ setBits (b.testAll (word * 64)) ↔ b.test (word * 64 + i) = true := by
  rw [mem_setBits, getLsbD_testAll b word hi]
  exact and_iff_right hi

end AtomicBitSet

end Libcrpm
