import Libcrpm.LRMallocConservation
import Libcrpm.LRMallocSizes

/-!
# Live allocations are apart

The bytes of what the application holds lie in the superblocks that the allocator gives out, and no
byte belongs to two allocations.
-/

namespace Libcrpm.LRMalloc

open Libcrpm.Memory Libcrpm.Program SizeClass

variable {P : Pool} {s t : LRMalloc} {live : Live} {g : Layout} {w : World}

/-- The memory from `p` on lies above the reserved superblock and below `address_limit`. -/
structure InArea (P : Pool) (p size : Nat) : Prop where
  first : lookupSb P 1 ≤ p
  last : p + size ≤ P.limit

def Overlap (p size q size' : Nat) : Prop := ∃ a, (p ≤ a ∧ a < p + size) ∧ q ≤ a ∧ a < q + size'

/-- What is live lies in the area, and no two live allocations share a byte. -/
structure Apart (P : Pool) (live : Live) : Prop where
  area : ∀ p size, live p = some size → InArea P p size
  disjoint : ∀ p q size size', live p = some size → live q = some size' → p ≠ q →
    ¬ Overlap p size q size'

/-- A pointer that is returned is not live, and its bytes are in the area and in no live
allocation. -/
def Fresh (P : Pool) (s : LRMalloc) (live : Live) (tid size : Nat) : Prop :=
  ∀ fuel p t, pmalloc P fuel s tid size = some (some p, t) → InArea P p size ∧ live p = none ∧
    ∀ q size', live q = some size' → ¬ Overlap p size q size'

/-! ## The invariant keeps allocations apart -/

theorem Inv.owner_ne_reserved (h : Inv P s live g) {p size : Nat} (hp : live p = some size) :
    g.owner (lookupDesc P p) ≠ .reserved := by
  by_cases hsize : kMaxSize < size
  · rw [h.large_start hp hsize]
    simp
  · rw [h.live.small p size hp (by omega)]
    simp

theorem Inv.live_inArea (h : Inv P s live g) {p size : Nat} (hp : live p = some size) :
    InArea P p size := by
  refine ⟨?_, (h.live_in_pool hp).last⟩
  have hreserved : lookupDesc P p ≠ 0 :=
    fun hzero => h.owner_ne_reserved hp ((h.tail.reserved _).mpr hzero)
  rw [lookupDesc, Nat.shiftRight_eq_div_pow, kSuperBlockShift] at hreserved
  rw [lookupSb_eq]
  omega

theorem Inv.live_unique (h : Inv P s live g) {p q size size' a : Nat} (hp : live p = some size)
    (hq : live q = some size') (hle : p ≤ a) (hlt : a < p + size) (hle' : q ≤ a)
    (hlt' : a < q + size') : p = q := by
  by_cases hsize : kMaxSize < size
  · have howner := h.live_large hp hsize hle hlt
    by_cases hsize' : kMaxSize < size'
    · have howner' := h.live_large hq hsize' hle' hlt'
      rw [howner, Owner.large.injEq] at howner'
      rw [(h.live.large p size hp hsize).1, (h.live.large q size' hq hsize').1, howner']
    · obtain ⟨k', howner', -, -, hdesc'⟩ := h.live_small hq (show size' ≤ kMaxSize by omega)
      have hbound' := le_blockSize_lookup (show size' ≤ kMaxSize by omega)
      rw [← hdesc' a hle' (by omega), howner] at howner'
      simp at howner'
  · obtain ⟨k, howner, -, hblock, hdesc⟩ := h.live_small hp (show size ≤ kMaxSize by omega)
    have hbound := le_blockSize_lookup (show size ≤ kMaxSize by omega)
    have hsame := hdesc a hle (by omega)
    by_cases hsize' : kMaxSize < size'
    · have howner' := h.live_large hq hsize' hle' hlt'
      rw [hsame, howner] at howner'
      simp at howner'
    · obtain ⟨k', howner', -, hblock', hdesc'⟩ := h.live_small hq (show size' ≤ kMaxSize by omega)
      have hbound' := le_blockSize_lookup (show size' ≤ kMaxSize by omega)
      have hsame' := hdesc' a hle' (by omega)
      -- The byte is in one superblock, which has one class.
      rw [← hsame', hsame] at hblock' howner'
      rw [howner, Owner.small.injEq] at howner'
      rw [← howner'] at hblock' hbound'
      have hfirst : blockAddress P (lookupDesc P p) (lookup size) k ≤ a := by omega
      have hfirst' : blockAddress P (lookupDesc P p) (lookup size) k' ≤ a := by omega
      have hkk : k = k' := block_unique hfirst (by omega) hfirst' (by omega)
      rw [hblock, hblock', hkk]

theorem Inv.apart (h : Inv P s live g) : Apart P live where
  area _ _ hp := h.live_inArea hp
  disjoint p q size size' hp hq hne := by
    rintro ⟨a, ⟨hle, hlt⟩, hle', hlt'⟩
    exact hne (h.live_unique hp hq hle hlt hle' hlt')

theorem Inv.fresh (h : Inv P s live g) (tid : Nat) {size : Nat} (hwrap : NoWrap s size) :
    Fresh P s live tid size := by
  intro fuel p t hcall
  rcases h.pmalloc hwrap hcall with ⟨hnone, -⟩ | ⟨p', g', hsome, halloc⟩
  · simp at hnone
  · obtain rfl := Option.some.inj hsome
    have hafter := halloc.inv.apart
    have hp : Function.update live p (some size) p = some size := Function.update_self ..
    refine ⟨hafter.area p size hp, halloc.fresh, fun q size' hq => ?_⟩
    have hne : q ≠ p := by
      rintro rfl
      rw [halloc.fresh] at hq
      simp at hq
    exact hafter.disjoint p q size size' hp (by rwa [Function.update_of_ne hne]) hne.symm

/-! ## Runs -/

/-- No call asks for more than `get_capacity()`. -/
def Within (P : Pool) : Call → World → Prop
  | .malloc _ size _, _ => size ≤ P.capacity
  | _, _ => True

theorem Inv.noWrap (h : Inv P s live g) {size : Nat} (hsize : size ≤ P.capacity) :
    NoWrap s size := by
  intro _
  have hlimit := h.tail.limit
  have hpool : P.limit < 2 ^ 63 := P.fits
  have hcapacity := P.fits
  have hup := roundUp_lt size (b := kSuperBlockSize) (by decide)
  obtain ⟨k, hk⟩ := dvd_roundUp size kSuperBlockSize
  rw [kSuperBlockSize_eq] at hup hk ⊢
  omega

theorem Inv.fits (h : Inv P w.alloc w.live g) {l : Call} (hwithin : Within P l w) : Fits l w := by
  cases l with
  | malloc tid size fuel => exact h.noWrap hwithin
  | free tid ptr => exact trivial
  | store => exact trivial

/-- In every run live allocations are apart, and what a call returns is apart from them. -/
theorem apart_of_reaches {start : LRMalloc} (hstart : setupMetadata P = some start)
    (hw : (machine P start).Reaches (Within P) w) : Apart P w.live ∧
      ∀ tid size, size ≤ P.capacity → Fresh P w.alloc w.live tid size := by
  have hinv : ∃ g, Inv P w.alloc w.live g := by
    refine hw.invariant (I := fun w => ∃ g, Inv P w.alloc w.live g) ?_ ?_
    · obtain ⟨g, h, -⟩ := setup_inv hstart
      exact ⟨g, h⟩
    · rintro w l w' ⟨g, h⟩ hwithin hstep
      obtain ⟨g', h', -⟩ := step_inv h (h.fits hwithin) hstep
      exact ⟨g', h'⟩
  obtain ⟨g, h⟩ := hinv
  exact ⟨h.apart, fun tid size hsize => h.fresh tid (h.noWrap hsize)⟩

theorem apart_of_reaches_malloc : ∃ start w p, setupMetadata bigPool = some start ∧
    (machine bigPool start).Reaches (Within bigPool) w ∧ w.live p = some 100000 ∧
    Apart bigPool w.live ∧ Fresh bigPool w.alloc w.live 1 100000 := by
  obtain ⟨start, p, w, g, hstart, -, hstep, hp, -⟩ :=
    bigPool_malloc (show kMaxSize < 100000 by decide) (by decide)
  have hsize : 100000 ≤ bigPool.capacity := by decide
  have hw : (machine bigPool start).Reaches (Within bigPool) w :=
    .step .init (.malloc 0 100000 1) hsize hstep
  obtain ⟨hapart, hfresh⟩ := apart_of_reaches hstart hw
  exact ⟨start, w, p, hstart, hw, hp, hapart, hfresh 1 100000 hsize⟩

end Libcrpm.LRMalloc
