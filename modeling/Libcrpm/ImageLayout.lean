import Libcrpm.Common

/-!
# The layout of a checkpoint image

The offset arithmetic of `CheckpointImage::Open`, `CalculateHeaderSize` and
`CalculateFileSize`, and the indices that the loops of `Open` use.  Sizes are taken to fit in
64 bits; `nr_back_segments`, the truncated product of `nr_segments` and
`shadow_capacity_factor`, may be any number.
-/

namespace Libcrpm.ImageLayout

def kParitySize : Nat := 16 <<< 10
def kMetadataV2Magic : Nat := 0x6f6f0202
def kNullSegmentIndex : Nat := 2 ^ 64 - 1

def kHeaderSize : Nat := 40

def calculateHeaderSize (nrMain nrBack : Nat) : Nat :=
  let headerSize := roundUp kHeaderSize kCacheLineSize + roundUp nrMain kCacheLineSize * 2 +
    roundUp (8 * nrBack) kCacheLineSize
  roundUp headerSize kHugePageSize * 2

def calculateFileSize (nrMain nrBack : Nat) : Nat :=
  calculateHeaderSize nrMain nrBack + (nrMain + nrBack) * kSegmentSize +
    (nrMain + nrBack) * kParitySize

/-! ## Open -/

structure Addresses where
  header : Nat
  segmentState0 : Nat
  segmentState1 : Nat
  backToMain : Nat
  headerShadow : Nat
  mainMemory : Nat
  backMemory : Nat
  parityMemory : Nat
deriving DecidableEq, Repr

/-- The offset arithmetic, the same in both branches of `Open`. -/
def addressesOf (addr nrMain nrBack : Nat) : Addresses :=
  let offset0 := roundUp kHeaderSize kCacheLineSize
  let offset1 := offset0 + roundUp nrMain kCacheLineSize
  let offset2 := offset1 + roundUp nrMain kCacheLineSize
  let headerSize := roundUp (offset2 + roundUp (8 * nrBack) kCacheLineSize) kHugePageSize
  let main := headerSize * 2
  let back := main + nrMain * kSegmentSize
  { header := addr
    segmentState0 := addr + offset0
    segmentState1 := addr + offset1
    backToMain := addr + offset2
    headerShadow := addr + headerSize
    mainMemory := addr + main
    backMemory := addr + back
    parityMemory := addr + (back + nrBack * kSegmentSize) }

/-- What `Open` reads of the file. -/
structure File where
  magic : Nat
  nrMainSegments : Nat
  nrBackSegments : Nat
  backToMain : Nat → Nat

/-- The arrays that the loops index, and the `int` that one of them counts with. -/
inductive Table where
  | backToMain | segmentStateDirty | mainToBack | counter
deriving DecidableEq, Repr

structure Opened where
  addresses : Addresses
  mainToBack : Nat → Nat
  /-- The indices used, in order. -/
  accesses : List (Table × Nat)

/-- The loops that both branches of `Open` end with, after `accesses`. -/
def fillTables (addresses : Addresses) (accesses : List (Table × Nat)) (file : File) : Opened where
  addresses := addresses
  mainToBack := (List.range file.nrBackSegments).foldl (fun table i =>
    if file.backToMain i ≠ kNullSegmentIndex then Function.update table (file.backToMain i) i
    else table) fun _ => kNullSegmentIndex
  accesses := accesses ++
    (List.range file.nrMainSegments).flatMap (fun i => [(.segmentStateDirty, i), (.mainToBack, i)]) ++
    (List.range file.nrBackSegments).flatMap fun i =>
      (.backToMain, i) :: if file.backToMain i ≠ kNullSegmentIndex then
        [(.mainToBack, file.backToMain i)] else []

def newFile (nrMain nrBack : Nat) : File := ⟨kMetadataV2Magic, nrMain, nrBack, id⟩

/-- `Open` with `initialize`, of a mapping at `addr`.  Its first loop counts with an `int`. -/
def openNew (addr nrMain nrBack : Nat) : Opened :=
  fillTables (addressesOf addr nrMain nrBack)
    ((List.range nrBack).flatMap fun i => [(.backToMain, i), (.counter, i + 1)])
    (newFile nrMain nrBack)

def openExisting (addr : Nat) (file : File) : Option Opened :=
  if file.magic ≠ kMetadataV2Magic then none
  else some (fillTables (addressesOf addr file.nrMainSegments file.nrBackSegments) [] file)

/-- `nr_segments` of `create_checkpoint_image`. -/
def nrSegmentsOf (userCapacity : Nat) : Nat := userCapacity >>> kSegmentShift

/-! ## What the layout has to be -/

/-- The bytes from `start` up to, not including, `stop`. -/
structure Region where
  start : Nat
  stop : Nat

/-- The parts of the file, in the order of their addresses. -/
def regions (a : Addresses) (nrMain nrBack : Nat) : List Region :=
  [⟨a.header, a.header + kHeaderSize⟩,
    ⟨a.segmentState0, a.segmentState0 + nrMain⟩,
    ⟨a.segmentState1, a.segmentState1 + nrMain⟩,
    ⟨a.backToMain, a.backToMain + 8 * nrBack⟩,
    ⟨a.headerShadow, a.headerShadow + (a.headerShadow - a.header)⟩,
    ⟨a.mainMemory, a.mainMemory + nrMain * kSegmentSize⟩,
    ⟨a.backMemory, a.backMemory + nrBack * kSegmentSize⟩,
    ⟨a.parityMemory, a.parityMemory + (nrMain + nrBack) * kParitySize⟩]

/-- The length of an array; a counter has to stay in the range of an `int`. -/
def Table.length (nrMain nrBack : Nat) : Table → Nat
  | .backToMain => nrBack
  | .segmentStateDirty => nrMain
  | .mainToBack => nrMain
  | .counter => 2 ^ 31

def InBounds (nrMain nrBack : Nat) (accesses : List (Table × Nat)) : Prop :=
  ∀ access ∈ accesses, access.2 < access.1.length nrMain nrBack

/-- The files that `bind_back_segment` makes of a new one. -/
inductive Reaches (nrMain nrBack : Nat) : File → Prop
  | new : Reaches nrMain nrBack (newFile nrMain nrBack)
  | bind {file : File} {mainId backId : Nat} (h : Reaches nrMain nrBack file)
      (hmain : mainId < nrMain) (hback : backId < nrBack) : Reaches nrMain nrBack
        { file with backToMain := Function.update file.backToMain backId mainId }

structure Sound (addr nrMain nrBack : Nat) : Prop where
  same : ∀ file, Reaches nrMain nrBack file → ∃ opened, openExisting addr file = some opened ∧
    opened.addresses = (openNew addr nrMain nrBack).addresses
  disjoint : (regions (openNew addr nrMain nrBack).addresses nrMain nrBack).Pairwise
    fun r r' => r.stop ≤ r'.start
  inside : ∀ r ∈ regions (openNew addr nrMain nrBack).addresses nrMain nrBack,
    addr ≤ r.start ∧ r.stop ≤ addr + calculateFileSize nrMain nrBack
  newInBounds : InBounds nrMain nrBack (openNew addr nrMain nrBack).accesses
  laterInBounds : ∀ file opened, Reaches nrMain nrBack file →
    openExisting addr file = some opened → InBounds nrMain nrBack opened.accesses

/-! ## The addresses -/

variable {addr nrMain nrBack : Nat} {file : File}

theorem Reaches.header (h : Reaches nrMain nrBack file) : file.magic = kMetadataV2Magic ∧
    file.nrMainSegments = nrMain ∧ file.nrBackSegments = nrBack := by
  induction h with
  | new => exact ⟨rfl, rfl, rfl⟩
  | bind _ _ _ ih => exact ih

theorem Reaches.openExisting (addr : Nat) (h : Reaches nrMain nrBack file) :
    openExisting addr file = some (fillTables (addressesOf addr nrMain nrBack) [] file) := by
  obtain ⟨hmagic, rfl, rfl⟩ := h.header
  rw [ImageLayout.openExisting, if_neg (by simp [hmagic])]

theorem tables_le (nrMain nrBack : Nat) :
    64 + nrMain ≤ 64 + roundUp nrMain kCacheLineSize ∧
    64 + roundUp nrMain kCacheLineSize + roundUp nrMain kCacheLineSize + 8 * nrBack ≤
      roundUp (64 + roundUp nrMain kCacheLineSize + roundUp nrMain kCacheLineSize +
        roundUp (8 * nrBack) kCacheLineSize) kHugePageSize := by
  have hmain := le_roundUp nrMain (b := kCacheLineSize) (by decide)
  have hback := le_roundUp (8 * nrBack) (b := kCacheLineSize) (by decide)
  have hheader := le_roundUp (64 + roundUp nrMain kCacheLineSize + roundUp nrMain kCacheLineSize +
    roundUp (8 * nrBack) kCacheLineSize) (b := kHugePageSize) (by decide)
  exact ⟨by omega, by omega⟩

theorem roundUp_kHeaderSize : roundUp kHeaderSize kCacheLineSize = 64 := by decide

/-- `CalculateHeaderSize` is what `Open` puts before main memory. -/
theorem calculateHeaderSize_eq (nrMain nrBack : Nat) : calculateHeaderSize nrMain nrBack =
    roundUp (64 + roundUp nrMain kCacheLineSize + roundUp nrMain kCacheLineSize +
      roundUp (8 * nrBack) kCacheLineSize) kHugePageSize * 2 := by
  rw [calculateHeaderSize, roundUp_kHeaderSize]
  congr 2
  omega

theorem regions_disjoint (addr nrMain nrBack : Nat) :
    (regions (addressesOf addr nrMain nrBack) nrMain nrBack).Pairwise
      fun r r' => r.stop ≤ r'.start := by
  obtain ⟨hstate, hheader⟩ := tables_le nrMain nrBack
  have hsize : kHeaderSize = 40 := rfl
  simp only [regions, addressesOf, roundUp_kHeaderSize]
  simp only [hsize, List.pairwise_cons, List.mem_cons, List.not_mem_nil, or_false,
    forall_eq_or_imp, forall_eq, List.Pairwise.nil, false_implies, implies_true, and_true]
  omega

theorem regions_inside (addr nrMain nrBack : Nat) :
    ∀ r ∈ regions (addressesOf addr nrMain nrBack) nrMain nrBack,
      addr ≤ r.start ∧ r.stop ≤ addr + calculateFileSize nrMain nrBack := by
  obtain ⟨hstate, hheader⟩ := tables_le nrMain nrBack
  have hsize : kHeaderSize = 40 := rfl
  simp only [regions, addressesOf, roundUp_kHeaderSize]
  simp only [hsize, calculateFileSize, calculateHeaderSize_eq, Nat.add_mul, List.mem_cons,
    List.not_mem_nil, or_false, forall_eq_or_imp, forall_eq]
  omega

/-! ## The indices -/

theorem inBounds_append {l l' : List (Table × Nat)} :
    InBounds nrMain nrBack (l ++ l') ↔ InBounds nrMain nrBack l ∧ InBounds nrMain nrBack l' := by
  simp [InBounds, or_imp, forall_and]

theorem fillTables_inBounds (a : Addresses) {accesses : List (Table × Nat)}
    (h : InBounds nrMain nrBack accesses) (hfile : Reaches nrMain nrBack file)
    (howners : ∀ b < nrBack, file.backToMain b < nrMain) :
    InBounds nrMain nrBack (fillTables a accesses file).accesses := by
  obtain ⟨-, hmain, hback⟩ := hfile.header
  rw [fillTables, hmain, hback, inBounds_append, inBounds_append]
  refine ⟨⟨h, fun access hin => ?_⟩, fun access hin => ?_⟩
  · obtain ⟨i, hi, hin⟩ := List.mem_flatMap.mp hin
    rw [List.mem_range] at hi
    rcases List.mem_pair.mp hin with rfl | rfl
    · exact hi
    · exact hi
  · obtain ⟨i, hi, hin⟩ := List.mem_flatMap.mp hin
    rw [List.mem_range] at hi
    rcases List.mem_cons.mp hin with rfl | hin
    · exact hi
    · split at hin
      · obtain rfl := List.mem_singleton.mp hin
        exact howners i hi
      · cases hin

theorem Reaches.owner_lt (h : Reaches nrMain nrBack file) (hle : nrBack ≤ nrMain) :
    ∀ b < nrBack, file.backToMain b < nrMain := by
  induction h with
  | new => exact fun b hb => Nat.lt_of_lt_of_le hb hle
  | bind h hmain hback ih =>
      intro b hb
      simp only [Function.update_apply]
      split
      · exact hmain
      · exact ih b hb

theorem openNew_inBounds (addr : Nat) (hle : nrBack ≤ nrMain) (hint : nrBack < 2 ^ 31) :
    InBounds nrMain nrBack (openNew addr nrMain nrBack).accesses := by
  refine fillTables_inBounds _ (fun access hin => ?_) .new (Reaches.new.owner_lt hle)
  obtain ⟨i, hi, hin⟩ := List.mem_flatMap.mp hin
  rw [List.mem_range] at hi
  rcases List.mem_pair.mp hin with rfl | rfl
  · exact hi
  · exact Nat.lt_of_le_of_lt hi hint

/-- An access of the first `Open` to `main_to_back` is out of bounds if there are more back
segments than segments, and its counter overflows from `2 ^ 31` back segments on. -/
theorem of_openNew_inBounds (h : InBounds nrMain nrBack (openNew addr nrMain nrBack).accesses) :
    nrBack ≤ nrMain ∧ nrBack < 2 ^ 31 := by
  rw [openNew, fillTables, inBounds_append, inBounds_append] at h
  have hint : nrBack < 2 ^ 31 := by
    by_contra hge
    have hlast : 2 ^ 31 - 1 < nrBack := by omega
    refine Nat.lt_irrefl (2 ^ 31) (h.1.1 (.counter, 2 ^ 31 - 1 + 1) ?_)
    exact List.mem_flatMap.mpr ⟨2 ^ 31 - 1, List.mem_range.mpr hlast, by simp⟩
  refine ⟨?_, hint⟩
  by_contra hlt
  have hin : nrMain < nrBack := Nat.not_le.mp hlt
  have hnotNull : (newFile nrMain nrBack).backToMain nrMain ≠ kNullSegmentIndex := by
    have hid : (newFile nrMain nrBack).backToMain nrMain = nrMain := rfl
    rw [hid, kNullSegmentIndex]
    omega
  refine Nat.lt_irrefl nrMain (h.2 (.mainToBack, nrMain) ?_)
  refine List.mem_flatMap.mpr ⟨nrMain, List.mem_range.mpr hin, List.mem_cons_of_mem _ ?_⟩
  rw [if_pos hnotNull]
  exact List.mem_singleton.mpr rfl

/-- The layout of a pool of `userCapacity` bytes is sound exactly if it has no more back
segments than segments, and fewer than an `int` counts. -/
theorem sound_iff (addr userCapacity nrBack : Nat) :
    Sound addr (nrSegmentsOf userCapacity) nrBack ↔
      nrBack ≤ nrSegmentsOf userCapacity ∧ nrBack < 2 ^ 31 := by
  constructor
  · exact fun h => of_openNew_inBounds h.newInBounds
  · rintro ⟨hle, hint⟩
    refine ⟨fun file h => ⟨_, h.openExisting addr, rfl⟩, regions_disjoint addr _ _,
      regions_inside addr _ _, openNew_inBounds addr hle hint, fun file opened h hopened => ?_⟩
    obtain rfl := Option.some.inj ((h.openExisting addr).symm.trans hopened)
    exact fillTables_inBounds _ (by simp [InBounds]) h (h.owner_lt hle)

/-- A factor of two makes twice as many back segments as segments. -/
theorem not_sound : ¬ ∀ addr userCapacity nrBack : Nat,
    Sound addr (nrSegmentsOf userCapacity) nrBack := by
  intro hall
  have hle := (of_openNew_inBounds (hall 0x100000000 kMinContainerSize 16).newInBounds).1
  exact absurd hle (by decide)

end Libcrpm.ImageLayout
