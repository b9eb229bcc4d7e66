import Libcrpm.Metadata

/-!
# The distance of the two copies

The capacities that `MProtectEngine::Open`, `MProtectEngine::OpenForMPI` and
`DirtyBitEngine::Open` pass to `MetadataV1` and keep for themselves, in 64-bit arithmetic.
-/

namespace Libcrpm.Displacement

def kRegionMask : Nat := kRegionSize - 1

/-- The user address space of the platform. -/
def kAddressSpace : Nat := 2 ^ 47

inductive Path where
  | mprotect | mprotectForMpi | dirtyBit
deriving DecidableEq, Repr

/-- A `pptr` at byte `field` of the header to byte `target` of the file: it keeps 48 bits of
the distance. -/
def toPptrOff (target field : Nat) : Nat := (target - field) % 2 ^ 48

structure Header where
  capacity : Nat
  mainData : Nat
  backData : Nat

/-- The offsets of `main_data` and `back_data` in the header. -/
def kMainDataField : Nat := 24
def kBackDataField : Nat := 32

def getLayoutSize (capacity : Nat) : Nat := (kHugePageSize + 2 * capacity) % 2 ^ 64

/-- `MetadataV1::Open` with `create`. -/
def metadataOpen (capacity : Nat) : Option Header :=
  if capacity = 0 then none
  else some {
    capacity := capacity
    mainData := toPptrOff kHugePageSize kMainDataField
    backData := toPptrOff (kHugePageSize + capacity) kBackDataField }

/-- The fields of an engine; `nr_pages` of the engine with dirty bits is `nrRegions`. -/
structure Engine where
  capacity : Nat
  nrRegions : Nat

structure Pool where
  header : Header
  engine : Engine

/-- Bytes of the table of an engine: a bit or a page table entry for each region. -/
def tableSize : Path → Nat → Nat
  | .mprotect, nrRegions => (nrRegions + 63) / 64 * 8
  | .mprotectForMpi, nrRegions => (nrRegions + 63) / 64 * 8
  | .dirtyBit, nrRegions => nrRegions * 8

section Environment

-- Whether the process gets that many bytes of address space.
variable (available : Nat → Bool)

def createWith (path : Path) (layoutCapacity : Nat) (engine : Engine) : Option Pool :=
  if available (getLayoutSize layoutCapacity) then
    match metadataOpen layoutCapacity with
    | none => none
    | some header =>
        if available (tableSize path engine.nrRegions) then some ⟨header, engine⟩ else none
  else none

/-- `nr_regions` and the capacity of so many regions. -/
def nrRegionsOf (capacity : Nat) : Nat :=
  if capacity &&& kRegionMask ≠ 0 then (capacity >>> kRegionShift) + 1
  else capacity >>> kRegionShift

def roundedCapacity (capacity : Nat) : Nat :=
  if capacity &&& kRegionMask ≠ 0 then (nrRegionsOf capacity <<< kRegionShift) % 2 ^ 64
  else capacity

def requested (optionCapacity : BitVec 64) : Nat := max optionCapacity.toNat kMinContainerSize

/-- The branch of `Open` and `OpenForMPI` that creates a pool.  Only `OpenForMPI` hands the
capacity on as it was requested. -/
def create (path : Path) (optionCapacity : BitVec 64) : Option Pool :=
  let capacity := requested optionCapacity
  let nrRegions := nrRegionsOf capacity
  match path with
  | .mprotect | .dirtyBit =>
      createWith available path (roundedCapacity capacity) ⟨roundedCapacity capacity, nrRegions⟩
  | .mprotectForMpi =>
      createWith available path capacity ⟨(nrRegions <<< kRegionShift) % 2 ^ 64, nrRegions⟩

/-- The branch that opens an existing pool, on its header. -/
def reopen (path : Path) (header : Header) : Option Engine :=
  if header.capacity &&& kRegionMask ≠ 0 then none
  else if available (tableSize path (header.capacity >>> kRegionShift)) then
    some ⟨header.capacity, header.capacity >>> kRegionShift⟩
  else none

end Environment

/-! ## The addresses of the two copies -/

/-- Where `write_back_parallel` copies a region to, in a file mapped at `base`. -/
def writeBackAddress (base : Nat) (header : Header) (engine : Engine) (region : Nat) : Nat :=
  (base + kMainDataField + header.mainData) + (region <<< kRegionShift) + engine.capacity

def recoverAddress (base : Nat) (header : Header) (region : Nat) : Nat :=
  (base + kBackDataField + header.backData) + (region <<< kRegionShift)

/-- Recovery reads what the engine has written back. -/
def CopiesAgree (header : Header) (engine : Engine) : Prop :=
  ∀ region < engine.nrRegions,
    (∀ base, writeBackAddress base header engine region = recoverAddress base header region) ∧
    region <<< kRegionShift + kRegionSize ≤ header.capacity

/-- The pool can be reopened, and the copies agree before and after. -/
def Agrees (available : Nat → Bool) (path : Path) (pool : Pool) : Prop :=
  CopiesAgree pool.header pool.engine ∧
    ∃ engine, reopen available path pool.header = some engine ∧ CopiesAgree pool.header engine

/-! ## Rounding -/

variable {available : Nat → Bool} {path : Path} {optionCapacity : BitVec 64} {pool : Pool}
  {capacity : Nat}

theorem and_kRegionMask (n : Nat) : n &&& kRegionMask = n % kRegionSize :=
  Nat.and_two_pow_sub_one_eq_mod n 12

theorem dvd_iff_mask (n : Nat) : kRegionSize ∣ n ↔ n &&& kRegionMask = 0 := by
  rw [and_kRegionMask, Nat.dvd_iff_mod_eq_zero]

theorem nrRegionsOf_eq (capacity : Nat) : nrRegionsOf capacity = (capacity + 4095) / 4096 := by
  rw [nrRegionsOf, and_kRegionMask, Nat.shiftRight_eq_div_pow, kRegionSize_eq]
  simp only [kRegionShift]
  split <;> omega

theorem shiftLeft_kRegionShift (n : Nat) : n <<< kRegionShift = n * 4096 := Nat.shiftLeft_eq ..

theorem shiftLeft_nrRegionsOf (h : kRegionSize ∣ requested optionCapacity) :
    (nrRegionsOf (requested optionCapacity) <<< kRegionShift) % 2 ^ 64 =
      requested optionCapacity := by
  have hlt : requested optionCapacity < 2 ^ 64 := by
    have hcapacity := optionCapacity.isLt
    rw [requested, kMinContainerSize]
    omega
  rw [nrRegionsOf_eq, shiftLeft_kRegionShift]
  rw [kRegionSize_eq] at h
  omega

theorem roundedCapacity_eq (h : nrRegionsOf capacity ≤ 2 ^ 50) :
    roundedCapacity capacity = nrRegionsOf capacity * 4096 := by
  unfold roundedCapacity
  rw [shiftLeft_kRegionShift]
  split
  · omega
  · rename_i hmask
    rw [and_kRegionMask, kRegionSize_eq] at hmask
    rw [nrRegionsOf_eq] at h ⊢
    omega

theorem nrRegions_le {nrRegions : Nat} (hspace : ∀ n, available n = true → n ≤ kAddressSpace)
    (htable : available (tableSize path nrRegions) = true) : nrRegions ≤ 2 ^ 50 := by
  have hsize := hspace _ htable
  rw [kAddressSpace] at hsize
  cases path <;> simp only [tableSize] at hsize <;> omega

/-! ## Agreement -/

theorem createWith_eq {layoutCapacity : Nat} {engine : Engine}
    (h : createWith available path layoutCapacity engine = some pool) :
    pool.engine = engine ∧ available (tableSize path engine.nrRegions) = true ∧
      available (getLayoutSize layoutCapacity) = true ∧
      metadataOpen layoutCapacity = some pool.header := by
  unfold createWith at h
  split at h
  · rename_i hfile
    cases hmetadata : metadataOpen layoutCapacity with
    | none =>
        rw [hmetadata] at h
        cases h
    | some header =>
        simp only [hmetadata] at h
        split at h
        · rename_i htable
          obtain rfl := Option.some.inj h
          exact ⟨rfl, htable, hfile, rfl⟩
        · cases h
  · cases h

theorem copiesAgree_of_capacity {header : Header} {nrRegions : Nat}
    (hheader : metadataOpen (nrRegions * 4096) = some header) (hfit : nrRegions * 4096 < 2 ^ 47) :
    CopiesAgree header ⟨nrRegions * 4096, nrRegions⟩ ∧ header.capacity = nrRegions * 4096 := by
  unfold metadataOpen at hheader
  split at hheader
  · cases hheader
  obtain rfl := Option.some.inj hheader
  refine ⟨fun region hregion => ⟨fun base => ?_, ?_⟩, rfl⟩
  · simp only [writeBackAddress, recoverAddress, toPptrOff, kHugePageSize, kMainDataField,
      kBackDataField]
    omega
  · simp only [shiftLeft_kRegionShift, kRegionSize_eq] at hregion ⊢
    omega

theorem agrees_of_same {nrRegions : Nat} (hspace : ∀ n, available n = true → n ≤ kAddressSpace)
    (h : createWith available path (nrRegions * 4096) ⟨nrRegions * 4096, nrRegions⟩ = some pool) :
    Agrees available path pool := by
  obtain ⟨hengine, htable, hfile, hheader⟩ := createWith_eq h
  have hfit : nrRegions * 4096 < 2 ^ 47 := by
    have hle : nrRegions ≤ 2 ^ 50 := nrRegions_le hspace htable
    have hsize := hspace _ hfile
    simp only [getLayoutSize, kHugePageSize, kAddressSpace] at hsize
    omega
  obtain ⟨hagree, hcapacity⟩ := copiesAgree_of_capacity hheader hfit
  refine ⟨hengine ▸ hagree, ⟨nrRegions * 4096, nrRegions⟩, ?_, hagree⟩
  have hcount : (nrRegions * 4096) >>> kRegionShift = nrRegions := by
    rw [Nat.shiftRight_eq_div_pow]
    exact Nat.mul_div_cancel nrRegions (by decide)
  have hmask : nrRegions * 4096 &&& kRegionMask = 0 :=
    (dvd_iff_mask _).mp ⟨nrRegions, Nat.mul_comm ..⟩
  rw [reopen, hcapacity, hcount, if_neg (by simp [hmask]), if_pos htable]

/-- A pool whose header keeps a capacity that is no number of regions is not reopened. -/
theorem not_agrees_of_unaligned {layoutCapacity : Nat} {engine : Engine}
    (hunaligned : ¬ kRegionSize ∣ layoutCapacity)
    (h : createWith available path layoutCapacity engine = some pool) :
    ¬ Agrees available path pool := by
  rintro ⟨-, engine', hreopen, -⟩
  obtain ⟨-, -, -, hheader⟩ := createWith_eq h
  have hcapacity : pool.header.capacity = layoutCapacity := by
    unfold metadataOpen at hheader
    split at hheader
    · cases hheader
    · rw [← Option.some.inj hheader]
  rw [dvd_iff_mask] at hunaligned
  rw [reopen, hcapacity, if_pos hunaligned] at hreopen
  cases hreopen

theorem requested_eq_mul (h : kRegionSize ∣ requested optionCapacity) :
    requested optionCapacity = nrRegionsOf (requested optionCapacity) * 4096 := by
  rw [kRegionSize_eq] at h
  rw [nrRegionsOf_eq]
  omega

/-- The copies of a pool agree exactly if it was not created by `OpenForMPI`, or with a
capacity that is a number of regions. -/
theorem agrees_iff (hspace : ∀ n, available n = true → n ≤ kAddressSpace)
    (h : create available path optionCapacity = some pool) :
    Agrees available path pool ↔
      path ≠ .mprotectForMpi ∨ kRegionSize ∣ requested optionCapacity := by
  have hrounded : ∀ p, path = p → p ≠ .mprotectForMpi → createWith available p
      (roundedCapacity (requested optionCapacity))
      ⟨roundedCapacity (requested optionCapacity), nrRegionsOf (requested optionCapacity)⟩ =
        some pool → Agrees available path pool := by
    rintro p rfl - hcreate
    have hle := nrRegions_le hspace (createWith_eq hcreate).2.1
    rw [roundedCapacity_eq hle] at hcreate
    exact agrees_of_same hspace hcreate
  cases path with
  | mprotect => exact iff_of_true (hrounded _ rfl (by simp) h) (Or.inl (by simp))
  | dirtyBit => exact iff_of_true (hrounded _ rfl (by simp) h) (Or.inl (by simp))
  | mprotectForMpi =>
      simp only [create] at h
      by_cases haligned : kRegionSize ∣ requested optionCapacity
      · refine iff_of_true ?_ (Or.inr haligned)
        have hmul := requested_eq_mul haligned
        rw [shiftLeft_nrRegionsOf haligned] at h
        generalize nrRegionsOf (requested optionCapacity) = nrRegions at h hmul
        rw [hmul] at h
        exact agrees_of_same hspace h
      · exact iff_of_false (not_agrees_of_unaligned haligned h) (by simp [haligned])

/-- Any amount that the address space holds. -/
def inAddressSpace (n : Nat) : Bool := n ≤ kAddressSpace

theorem le_of_inAddressSpace (n : Nat) (h : inAddressSpace n = true) : n ≤ kAddressSpace :=
  of_decide_eq_true h

theorem agrees_iff_mprotect :
    ∃ pool, create inAddressSpace .mprotect 20000001 = some pool ∧
      Agrees inAddressSpace .mprotect pool := by
  obtain ⟨pool, hpool⟩ : ∃ pool, create inAddressSpace .mprotect 20000001 = some pool := ⟨_, rfl⟩
  exact ⟨pool, hpool, (agrees_iff le_of_inAddressSpace hpool).mpr (Or.inl (by decide))⟩

/-- `OpenForMPI` with one byte more than the smallest capacity. -/
theorem not_agrees : ¬ ∀ (available : Nat → Bool) (path : Path) (optionCapacity : BitVec 64)
    (pool : Pool), (∀ n, available n = true → n ≤ kAddressSpace) →
    create available path optionCapacity = some pool → Agrees available path pool := by
  intro hall
  obtain ⟨pool, hpool⟩ : ∃ pool, create inAddressSpace .mprotectForMpi 16777217 = some pool :=
    ⟨_, rfl⟩
  refine not_agrees_of_unaligned ?_ hpool (hall _ _ _ _ le_of_inAddressSpace hpool)
  decide

end Libcrpm.Displacement
