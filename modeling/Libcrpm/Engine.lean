import Libcrpm.Recovery

/-!
# What the engines share

The flush modes, the addresses a hook for a range visits, the buckets of a thread and
the stores of the application, as `nvm_inst_engine.cpp` and `hybrid_inst_engine.cpp`
have them.
-/

namespace Libcrpm

inductive FlushMode where
  | noAction | wbinvd | useFlushBlocks
deriving DecidableEq, Repr

def startBlock (s : Nat) : Nat := s * kBlocksPerSegment
def stopBlock (s : Nat) : Nat := startBlock s + kBlocksPerSegment

/-- The words that hold the bits of the blocks of one segment. -/
def kWordsPerBitmap : Nat := kBlocksPerSegment / AtomicBitSet.kBitWidth

/-- The addresses at which `hook_routine` with a length calls `hook_routine`. -/
def blockAddresses (addr len : Nat) : List Nat :=
  let start := addr / kBlockSize * kBlockSize
  (List.range ((addr + len - start + (kBlockSize - 1)) / kBlockSize)).map
    fun k => start + k * kBlockSize

def Covers (addr len block : Nat) : Prop :=
  addr >>> kBlockShift ≤ block ∧ block * kBlockSize < addr + len

theorem segmentOf_block (addr : Nat) :
    segmentOf (addr >>> kBlockShift) = addr >>> kSegmentShift := by
  rw [segmentOf, ← Nat.shiftRight_add]
  rfl

theorem shiftRight_kSegmentShift_lt {addr n : Nat} (h : addr < n * kSegmentSize) :
    addr >>> kSegmentShift < n := by
  rw [Nat.shiftRight_eq_div_pow]
  exact Nat.div_lt_of_lt_mul (by rw [Nat.mul_comm]; exact h)

theorem mem_blockAddresses {addr len a : Nat} (h : a ∈ blockAddresses addr len) :
    a < addr + len ∧ addr / kBlockSize * kBlockSize ≤ a := by
  simp only [blockAddresses, List.mem_map, List.mem_range, kBlockSize_eq] at h
  rw [kBlockSize_eq]
  omega

theorem blockAddresses_covers {addr len block : Nat} (h : Covers addr len block) :
    ∃ a ∈ blockAddresses addr len, a >>> kBlockShift = block := by
  obtain ⟨hlow, hhigh⟩ := h
  rw [Nat.shiftRight_eq_div_pow] at hlow
  simp only [kBlockShift] at hlow
  refine ⟨block * kBlockSize, ?_, ?_⟩
  · simp only [blockAddresses, List.mem_map, List.mem_range, kBlockSize_eq] at hhigh ⊢
    exact ⟨block - addr / 256, by omega, by omega⟩
  · rw [Nat.shiftRight_eq_div_pow, kBlockSize_eq, kBlockShift]
    omega

theorem covers_of_mem_blockAddresses {addr len a : Nat} (h : a ∈ blockAddresses addr len) :
    Covers addr len (a >>> kBlockShift) := by
  rw [Covers, Nat.shiftRight_eq_div_pow, Nat.shiftRight_eq_div_pow]
  simp only [blockAddresses, List.mem_map, List.mem_range, kBlockSize_eq] at h
  rw [kBlockSize_eq, kBlockShift]
  omega

theorem covers_self {addr len : Nat} (hpos : 0 < len) : Covers addr len (addr >>> kBlockShift) := by
  rw [Covers, Nat.shiftRight_eq_div_pow, kBlockSize_eq, kBlockShift]
  omega

theorem covers_small {addr len block : Nat} (hsmall : addr % kBlockSize + len ≤ kBlockSize)
    (h : Covers addr len block) : block = addr >>> kBlockShift := by
  obtain ⟨hlow, hhigh⟩ := h
  rw [Nat.shiftRight_eq_div_pow] at hlow ⊢
  rw [kBlockSize_eq] at hsmall hhigh
  simp only [kBlockShift] at hlow ⊢
  omega

/-- The indices below `count` that thread `tid` of `nrThreads` handles. -/
def indicesOf (count tid nrThreads : Nat) : List Nat :=
  (List.range count).filter fun id => tid ≤ id && (id - tid) % nrThreads = 0

def bucketsOf (tid nrThreads : Nat) : List Nat := indicesOf kMaxThreads tid nrThreads

theorem mem_indicesOf_mod {count tid nrThreads id : Nat} (h : id ∈ indicesOf count tid nrThreads)
    (htid : tid < nrThreads) : id % nrThreads = tid := by
  simp only [indicesOf, List.mem_filter, Bool.and_eq_true, decide_eq_true_eq] at h
  obtain ⟨-, hle, hmod⟩ := h
  obtain ⟨k, hk⟩ := Nat.dvd_of_mod_eq_zero hmod
  have hid : id = tid + nrThreads * k := by omega
  rw [hid, Nat.add_mul_mod_self_left, Nat.mod_eq_of_lt htid]

theorem mem_indicesOf (nrThreads : Nat) {count id : Nat} (hid : id < count) :
    id ∈ indicesOf count (id % nrThreads) nrThreads := by
  have hle : id % nrThreads ≤ id := Nat.mod_le _ _
  have hmod : (id - id % nrThreads) % nrThreads = 0 := by
    have hdiv := Nat.div_add_mod id nrThreads
    have heq : id - id % nrThreads = nrThreads * (id / nrThreads) := by omega
    rw [heq, Nat.mul_mod_right]
  simp [indicesOf, hid, hle, hmod]

theorem lt_of_mem_indicesOf {count tid nrThreads id : Nat}
    (h : id ∈ indicesOf count tid nrThreads) : id < count := by
  simp only [indicesOf, List.mem_filter, List.mem_range] at h
  exact h.1

theorem mem_bucketsOf (nrThreads : Nat) {id : Nat} (hid : id < kMaxThreads) :
    id ∈ bucketsOf (id % nrThreads) nrThreads :=
  mem_indicesOf nrThreads hid

/-- A store of the application to one word of main memory. -/
structure WordStore where
  segment : Nat
  offset : Nat
  value : Word

def WordStore.block (w : WordStore) : Nat := blockOf w.segment w.offset

def WordStore.Within (addr len : Nat) (w : WordStore) : Prop :=
  w.offset < kWordsPerSegment ∧ offsetOf w.segment w.offset < addr + len ∧
    addr < offsetOf w.segment w.offset + kWordSize

theorem WordStore.Within.covers {addr len : Nat} {w : WordStore} (h : w.Within addr len) :
    Covers addr len w.block := by
  obtain ⟨ho, hhigh, hlow⟩ := h
  rw [Covers, Nat.shiftRight_eq_div_pow, WordStore.block, blockOf]
  simp only [offsetOf, kSegmentSize_eq, kWordSize, kWordsPerSegment_eq] at ho hhigh hlow
  simp only [kBlockShift, kBlockSize_eq, kBlocksPerSegment_eq, kWordsPerBlock_eq]
  omega

end Libcrpm
