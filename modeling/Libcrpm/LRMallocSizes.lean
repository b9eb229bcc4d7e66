import Libcrpm.LRMallocProgress

/-!
# Sizes

A block that `pmalloc` returns is large enough and lies in the pool, unless the size is one that
wraps in 64 bits.
-/

namespace Libcrpm.LRMalloc

open Libcrpm.Memory Libcrpm.Program SizeClass

variable {P : Pool} {s t : LRMalloc} {live : Live} {g : Layout} {w : World}

/-- The memory from `p` on lies in the pool, behind the metadata. -/
structure InPool (P : Pool) (p size : Nat) : Prop where
  first : P.firstSb ≤ p
  last : p + size ≤ P.limit

theorem Inv.live_in_pool (h : Inv P s live g) {p size : Nat} (hp : live p = some size) :
    InPool P p size := by
  by_cases hsize : kMaxSize < size
  · obtain ⟨hstart, hok⟩ := h.live.large p size hp hsize
    have hpos := nrSuperBlocks_pos hsize
    have hround := le_roundUp size (b := kSuperBlockSize) (by decide)
    have hmul := nrSuperBlocks_mul size
    have hlast := @Inv.below _ _ _ _ h (lookupDesc P p + (nrSuperBlocks size - 1))
      (by rw [hok.owner _ (by omega) (by omega)]; simp)
    rw [lookupSb_eq] at hstart hlast
    rw [kSuperBlockSize_eq] at hround hmul
    exact ⟨by omega, by omega⟩
  · obtain ⟨k, howner, hk, hblock, -⟩ := h.live_small hp (show size ≤ kMaxSize by omega)
    have hend := block_end_le (h.bin howner) hk
    have hle := le_blockSize_lookup (show size ≤ kMaxSize by omega)
    have hlast := @Inv.below _ _ _ _ h (lookupDesc P p) (by rw [howner]; simp)
    rw [blockAddress, lookupSb_eq] at hblock
    rw [lookupSb_eq] at hlast
    rw [kSuperBlockSize_eq] at hend
    exact ⟨by omega, by omega⟩

/-- What the caller of `pmalloc` relies on: null or a block of at least `size` bytes in the pool,
and a bulk tail that does not move backwards. -/
def Sound (P : Pool) (s : LRMalloc) (tid size : Nat) : Prop :=
  ∀ fuel r t, pmalloc P fuel s tid size = some (r, t) →
    (∀ p, r = some p → InPool P p size) ∧ s.bulkTail ≤ t.bulkTail

theorem Inv.size_sound_iff (h : Inv P s live g) (tid : Nat) {size : Nat} (hlt : size < 2 ^ 64) :
    Sound P s tid size ↔ NoWrap s size := by
  constructor
  · intro hsound
    by_contra hwrap
    obtain ⟨rounds, p, t, hrounds, heq, hlarge⟩ := h.pmalloc_wraps tid hlt hwrap
    have hcall := heq 1
    rw [if_neg (by omega)] at hcall
    have hin := (hsound 1 (some p) t hcall).1 p rfl
    have hlast := hin.last
    omega
  · intro hwrap fuel r t hcall
    rcases h.pmalloc hwrap hcall with ⟨rfl, rfl⟩ | ⟨p, g', rfl, halloc⟩
    · exact ⟨by simp, Nat.le_refl _⟩
    · refine ⟨fun p' hp' => ?_, halloc.tail⟩
      obtain rfl := Option.some.inj hp'
      exact halloc.inv.live_in_pool (Function.update_self ..)

/-! ## Arrays -/

/-- `pnew_array`, up to the constructors; `sizeofT` is the size of the elements. -/
def pnewArray (P : Pool) (fuel : Nat) (s : LRMalloc) (tid sizeofT count : Nat) :
    Option (Option Nat × LRMalloc) :=
  pmalloc P fuel s tid (count * sizeofT % 2 ^ 64)

/-- Null, or room for all elements. -/
def ArraySound (P : Pool) (s : LRMalloc) (tid sizeofT count : Nat) : Prop :=
  ∀ fuel r t, pnewArray P fuel s tid sizeofT count = some (r, t) →
    ∀ p, r = some p → InPool P p (count * sizeofT)

/-- The product does not wrap and is not a size that wraps; or it wraps to a size for which there
is no memory. -/
def ArrayFits (P : Pool) (s : LRMalloc) (tid sizeofT count : Nat) : Prop :=
  NoWrap s (count * sizeofT % 2 ^ 64) ∧
    (count * sizeofT < 2 ^ 64 ∨ ¬ Obtainable P s tid (count * sizeofT % 2 ^ 64))

theorem Inv.obtainable_of_pmalloc {tid size fuel : Nat} {p : Nat} (h : Inv P s live g)
    (hwrap : NoWrap s size) (hcall : LRMalloc.pmalloc P fuel s tid size = some (some p, t)) :
    Obtainable P s tid size := by
  by_cases hsize : kMaxSize < size
  · by_contra hnot
    rw [Obtainable, if_pos hsize] at hnot
    rw [h.pmallocLarge_full tid hsize hwrap hnot] at hcall
    split at hcall
    · simp at hcall
    · simp at hcall
  · exact (h.pmallocSmall_returns_iff tid (by omega)).mp ⟨fuel, some p, t, hcall⟩

theorem Inv.arraySound_iff (h : Inv P s live g) (tid sizeofT count : Nat) :
    ArraySound P s tid sizeofT count ↔ ArrayFits P s tid sizeofT count := by
  have hlt : count * sizeofT % 2 ^ 64 < 2 ^ 64 := Nat.mod_lt _ (by omega)
  have hle := Nat.mod_le (count * sizeofT) (2 ^ 64)
  have hpool : P.limit < 2 ^ 63 := P.fits
  constructor
  · intro hsound
    have hwrap : NoWrap s (count * sizeofT % 2 ^ 64) := by
      by_contra hwrap
      obtain ⟨rounds, p, t, hrounds, heq, hlarge⟩ := h.pmalloc_wraps tid hlt hwrap
      have hcall := heq 1
      rw [if_neg (by omega)] at hcall
      have hlast := (hsound 1 (some p) t hcall p rfl).last
      omega
    refine ⟨hwrap, ?_⟩
    by_contra hnot
    rw [not_or, not_not] at hnot
    obtain ⟨hprod, hobtain⟩ := hnot
    obtain ⟨fuel, r, t, hcall, hiff⟩ := (h.call_ends_iff hlt).mpr (Or.inl hobtain)
    cases r with
    | none => exact hiff.mp rfl hobtain
    | some p =>
        have hlast := (hsound fuel (some p) t hcall p rfl).last
        omega
  · rintro ⟨hwrap, hfits⟩ fuel r t hcall p rfl
    rcases hfits with hprod | hobtain
    · rw [pnewArray, Nat.mod_eq_of_lt hprod] at hcall
      rw [Nat.mod_eq_of_lt hprod] at hwrap
      exact (((h.size_sound_iff tid hprod).mpr hwrap) fuel _ t hcall).1 p rfl
    · exact absurd (h.obtainable_of_pmalloc hwrap hcall) hobtain

/-- In every state of a run in which no size wraps, `pmalloc` is sound for the sizes that do not
wrap and for no others, and `pnew_array` for the counts that `ArrayFits` describes. -/
theorem sound_of_reaches {start : LRMalloc} (hstart : setupMetadata P = some start)
    (hw : (machine P start).Reaches Fits w) (tid : Nat) :
    (∀ size < 2 ^ 64, Sound P w.alloc tid size ↔ NoWrap w.alloc size) ∧
      ∀ sizeofT count, ArraySound P w.alloc tid sizeofT count ↔
        ArrayFits P w.alloc tid sizeofT count := by
  obtain ⟨g, h⟩ := reaches_inv hstart hw
  exact ⟨fun size hlt => h.size_sound_iff tid hlt, h.arraySound_iff tid⟩

theorem sound_of_reaches_new : ∃ start, setupMetadata smallPool = some start ∧
    Sound smallPool start 0 100000 ∧ ArraySound smallPool start 0 8 100 := by
  have hstart := setupMetadata_eq smallPool_room
  have htail : lookupSb smallPool 32 = 2 ^ 40 + 16384 + 32 * 65536 := by
    rw [lookupSb_eq, smallPool_firstSb]
  obtain ⟨hsound, harray⟩ := sound_of_reaches hstart .init 0
  refine ⟨_, hstart, (hsound 100000 (by omega)).mpr fun _ => ?_,
    (harray 8 100).mpr ⟨fun hlarge => ?_, Or.inl (by omega)⟩⟩
  · have hround : roundUp 100000 kSuperBlockSize = 131072 := by decide
    simp only [machine, fillSbList_eq, hround, htail]
    omega
  · rw [kMaxSize_eq] at hlarge
    omega

/-- The largest size is answered with one superblock. -/
theorem not_sound_max : ∃ start, setupMetadata smallPool = some start ∧
    ∃ p t, pmalloc smallPool 1 start 0 (2 ^ 64 - 1) = some (some p, t) ∧
      ¬ InPool smallPool p (2 ^ 64 - 1) := by
  have hstart := setupMetadata_eq smallPool_room
  obtain ⟨g, h, -⟩ := setup_inv hstart
  have hwrap : ¬ NoWrap (fillSbList smallPool
      { blank smallPool with bulkTail := lookupSb smallPool 32 } (lookupSb smallPool 1) 31)
      (2 ^ 64 - 1) := by
    rw [NoWrap, Classical.not_imp]
    have hround : roundUp (2 ^ 64 - 1) kSuperBlockSize = 2 ^ 64 := by decide
    exact ⟨by decide, by rw [hround]; omega⟩
  obtain ⟨rounds, p, t, hrounds, heq, hlarge⟩ := h.pmalloc_wraps 0 (by omega) hwrap
  have hcall := heq 1
  rw [if_neg (by omega)] at hcall
  refine ⟨_, hstart, p, t, hcall, fun hin => ?_⟩
  have hlast := hin.last
  omega

end Libcrpm.LRMalloc
