import Libcrpm.LRMallocFill

/-!
# Calls of the allocator

What `pmalloc` and `pfree` do to the memory, and when `pmalloc` returns.
-/

namespace Libcrpm.LRMalloc

open Libcrpm.Memory SizeClass

variable {P : Pool} {s t : LRMalloc} {live : Live} {g : Layout}

/-! ## Large allocations -/

/-- The first superblocks on the stack are neighbours, as many as the allocation needs. -/
def StackServes (s : LRMalloc) (size : Nat) : Prop :=
  ∃ start last, s.availSb.ptr = some start ∧
    walkStack s.descriptors (nrSuperBlocks size - 1) start = some last

/-- No sum wraps: neither the rounded size nor the new bulk tail. -/
def NoWrap (s : LRMalloc) (size : Nat) : Prop :=
  kMaxSize < size → s.bulkTail + roundUp size kSuperBlockSize < 2 ^ 64

theorem roundUp_div (size : Nat) :
    roundUp size kSuperBlockSize / kSuperBlockSize - 1 = nrSuperBlocks size - 1 := rfl

theorem allocLargeSb_of_stack {size start last : Nat} (hptr : s.availSb.ptr = some start)
    (hwalk : walkStack s.descriptors (nrSuperBlocks size - 1) start = some last) (fuel : Nat) :
    allocLargeSb P fuel s (roundUp size kSuperBlockSize) =
      some (some (lookupSb P start),
        { s with availSb := ⟨(s.descriptors last).nextFree, s.availSb.stamp + 1⟩ }) := by
  have hexchange : s.availSb.compareExchange (some start) (s.descriptors last).nextFree
      s.availSb.stamp (s.availSb.stamp + 1) =
      ⟨true, ⟨(s.descriptors last).nextFree, s.availSb.stamp + 1⟩, some start, s.availSb.stamp⟩ := by
    rw [← hptr, StampedPtr.compareExchange_self]
  simp only [allocLargeSb, hptr, roundUp_div, hwalk, hexchange, if_true]

theorem allocLargeSb_of_not {size : Nat} (hserves : ¬ StackServes s size) (fuel : Nat) :
    allocLargeSb P fuel s (roundUp size kSuperBlockSize) =
      allocLargeBulk P fuel s (roundUp size kSuperBlockSize) := by
  rw [allocLargeSb]
  cases hptr : s.availSb.ptr with
  | none => rfl
  | some start =>
      cases hwalk : walkStack s.descriptors (nrSuperBlocks size - 1) start with
      | none => simp only [roundUp_div, hwalk]
      | some last => exact absurd ⟨start, last, hptr, hwalk⟩ hserves

theorem allocLargeBulk_ok {size a : Nat} (hbulk : bulkAllocate P s kPageSize size = (.ok a, t))
    (fuel : Nat) : allocLargeBulk P fuel s size = if fuel < 1 then none else some (some a, t) := by
  cases fuel with
  | zero => rfl
  | succ fuel => simp only [allocLargeBulk, hbulk, if_neg (show ¬ fuel + 1 < 1 by omega)]

theorem allocLargeBulk_full {n size : Nat} (htail : s.bulkTail = lookupSb P n)
    (hfull : ¬ BulkRoom P s size) (hwrap : s.bulkTail + size < 2 ^ 64) (fuel : Nat) :
    allocLargeBulk P fuel s size = if fuel < 1 then none else some (none, s) := by
  cases fuel with
  | zero => rfl
  | succ fuel =>
      simp only [allocLargeBulk, bulkAllocate_full htail hfull hwrap,
        if_neg (show ¬ fuel + 1 < 1 by omega)]

/-- Memory for a large allocation can be had. -/
def LargeObtainable (P : Pool) (s : LRMalloc) (size : Nat) : Prop :=
  StackServes s size ∨ BulkRoom P s (roundUp size kSuperBlockSize)

theorem Inv.allocLargeSb {size : Nat} (h : Inv P s live g) (hsize : kMaxSize < size)
    (hobtain : LargeObtainable P s size) :
    ∃ rounds q t g', rounds ≤ 1 ∧ (∀ fuel,
      LRMalloc.allocLargeSb P fuel s (roundUp size kSuperBlockSize) =
        if fuel < rounds then none else some (some (lookupSb P q), t)) ∧
      Taken P s t live g g' q (nrSuperBlocks size) := by
  have hpos := nrSuperBlocks_pos hsize
  have hcount : nrSuperBlocks size - 1 + 1 = nrSuperBlocks size := by omega
  by_cases hserves : StackServes s size
  · obtain ⟨start, last, hptr, hwalk⟩ := hserves
    obtain ⟨rfl, hnext⟩ := walkStack_eq hwalk
    have hchain := h.stack.chain
    rw [hptr] at hchain
    obtain ⟨rest, hstack, hrest⟩ := stack_of_neighbours hchain hnext
    obtain ⟨g', htaken⟩ := h.takeStack hstack hrest (s.availSb.stamp + 1)
    rw [hcount] at htaken
    exact ⟨0, start, _, g', by omega, allocLargeSb_of_stack hptr hwalk, htaken⟩
  · have hroom := hobtain.resolve_left hserves
    obtain ⟨n, htail, -⟩ := h.tail.unused
    rw [← nrSuperBlocks_mul] at hroom
    obtain ⟨g', htaken⟩ := h.takeBulk htail hroom
    refine ⟨1, n, _, g', by omega, fun fuel => ?_, htaken⟩
    rw [allocLargeSb_of_not hserves, ← nrSuperBlocks_mul]
    exact allocLargeBulk_ok (bulkAllocate_room htail hroom) fuel

theorem Inv.allocLargeSb_full {size : Nat} (h : Inv P s live g)
    (hobtain : ¬ LargeObtainable P s size)
    (hwrap : s.bulkTail + roundUp size kSuperBlockSize < 2 ^ 64) (fuel : Nat) :
    LRMalloc.allocLargeSb P fuel s (roundUp size kSuperBlockSize) =
      if fuel < 1 then none else some (none, s) := by
  obtain ⟨hserves, hfull⟩ := not_or.mp hobtain
  obtain ⟨n, htail, -⟩ := h.tail.unused
  rw [allocLargeSb_of_not hserves]
  exact allocLargeBulk_full htail hfull hwrap fuel

/-! ## pmalloc -/

/-- What a call of `pmalloc` that returns a pointer leaves. -/
structure Allocated (P : Pool) (s t : LRMalloc) (live : Live) (g g' : Layout) (p size : Nat) :
    Prop where
  fresh : live p = none
  inv : Inv P t (Function.update live p (some size)) g'
  whole : Whole g → Whole g'
  tail : s.bulkTail ≤ t.bulkTail

def largeDescriptor (d : Descriptor) (roundedSize ptr : Nat) : Descriptor :=
  { d with
    heap := some 0
    blockSize := roundedSize % 2 ^ 32
    maxCount := 1
    superblock := some ptr
    anchor := ⟨0, 0, .sbFull⟩ }

theorem pmalloc_of_large {size rounds q : Nat} (tid : Nat) (hsize : kMaxSize < size)
    (heq : ∀ fuel, allocLargeSb P fuel s (roundUp size kSuperBlockSize % 2 ^ 64) =
      if fuel < rounds then none else some (some (lookupSb P q), t)) (fuel : Nat) :
    LRMalloc.pmalloc P fuel s tid size = if fuel < rounds then none else
      some (some (lookupSb P q), t.setDescriptor q (largeDescriptor (t.descriptors q)
        (roundUp size kSuperBlockSize % 2 ^ 64) (lookupSb P q))) := by
  have hcall := heq fuel
  rw [LRMalloc.pmalloc, if_pos hsize]
  by_cases hfuel : fuel < rounds
  · rw [if_pos hfuel] at hcall ⊢
    simp only [hcall]
  · rw [if_neg hfuel] at hcall ⊢
    simp only [hcall, lookupDesc_lookupSb, largeDescriptor]

theorem NoWrap.mod_eq {size : Nat} (h : NoWrap s size) (hsize : kMaxSize < size) :
    roundUp size kSuperBlockSize % 2 ^ 64 = roundUp size kSuperBlockSize :=
  Nat.mod_eq_of_lt (by have hsum := h hsize; omega)

theorem pmalloc_of_stack {size start last : Nat} (tid : Nat) (hsize : kMaxSize < size)
    (hwrap : NoWrap s size) (hptr : s.availSb.ptr = some start)
    (hwalk : walkStack s.descriptors (nrSuperBlocks size - 1) start = some last) (fuel : Nat) :
    LRMalloc.pmalloc P fuel s tid size = some (some (lookupSb P start), setDescriptor
      { s with availSb := ⟨(s.descriptors last).nextFree, s.availSb.stamp + 1⟩ } start
      (largeDescriptor (s.descriptors start) (roundUp size kSuperBlockSize) (lookupSb P start))) := by
  have hcall := allocLargeSb_of_stack (P := P) hptr hwalk fuel
  simp only [LRMalloc.pmalloc, if_pos hsize, hwrap.mod_eq hsize, hcall, lookupDesc_lookupSb,
    largeDescriptor]

theorem Inv.pmallocLarge {size : Nat} (tid : Nat) (h : Inv P s live g) (hsize : kMaxSize < size)
    (hwrap : NoWrap s size) (hobtain : LargeObtainable P s size) :
    ∃ rounds p t g', rounds ≤ 1 ∧ (∀ fuel, LRMalloc.pmalloc P fuel s tid size =
      if fuel < rounds then none else some (some p, t)) ∧ Allocated P s t live g g' p size := by
  obtain ⟨rounds, q, t, g₁, hrounds, heq, htaken⟩ := h.allocLargeSb hsize hobtain
  have hpos := nrSuperBlocks_pos hsize
  have hblockSize : roundUp size kSuperBlockSize % 2 ^ 64 % 2 ^ 32 =
      roundUp size kSuperBlockSize % 2 ^ 32 := by rw [hwrap.mod_eq hsize]
  have hlarge := htaken.inv.allocLarge hsize htaken.held htaken.clean
    (d := largeDescriptor (t.descriptors q) (roundUp size kSuperBlockSize % 2 ^ 64) (lookupSb P q))
    rfl rfl hblockSize
  refine ⟨rounds, lookupSb P q, _, _, hrounds, pmalloc_of_large tid hsize fun fuel => ?_, ?_,
    hlarge, fun hwhole => ?_, htaken.tail⟩
  · rw [hwrap.mod_eq hsize, heq]
  · exact htaken.inv.not_live (htaken.held q (Nat.le_refl _) (by omega))
  · exact (htaken.whole hwhole).whole (fun _ => rfl) (by simp) (by simp)

theorem Inv.pmallocLarge_full {size : Nat} (tid : Nat) (h : Inv P s live g) (hsize : kMaxSize < size)
    (hwrap : NoWrap s size) (hobtain : ¬ LargeObtainable P s size) (fuel : Nat) :
    LRMalloc.pmalloc P fuel s tid size = if fuel < 1 then none else some (none, s) := by
  have hfull := h.allocLargeSb_full hobtain (hwrap hsize) fuel
  rw [← hwrap.mod_eq hsize] at hfull
  rw [LRMalloc.pmalloc, if_pos hsize]
  simp only [hfull]
  by_cases hfuel : fuel < 1
  · simp only [if_pos hfuel]
  · simp only [if_neg hfuel]

theorem Inv.bin_blockNum (h : Inv P s live g) {tid c : Nat} (hzero : (s.caches tid c).blockNum = 0) :
    g.cached tid c = [] := by
  rw [h.caches.blockNum] at hzero
  exact List.length_eq_zero_iff.mp hzero

theorem Inv.pmallocSmall {tid size fuel : Nat} {r : Option Nat} (h : Inv P s live g)
    (hsize : size ≤ kMaxSize) (hcall : LRMalloc.pmalloc P fuel s tid size = some (r, t)) :
    ∃ p g', r = some p ∧ Allocated P s t live g g' p size := by
  simp only [LRMalloc.pmalloc, if_neg (show ¬ kMaxSize < size by omega)] at hcall
  split at hcall
  · rename_i hzero
    obtain ⟨u, hfill, hpop⟩ := Option.map_eq_some_iff.mp hcall
    obtain ⟨g₁, h₁, hwhole, htail, hpos⟩ :=
      h.fillCache (bin_lookup hsize) (h.bin_blockNum hzero) hfill
    obtain ⟨x, g', hx, hnone, howner, h'⟩ := h₁.popBlock hsize hpos
    rw [hx] at hpop
    obtain ⟨rfl, rfl⟩ := Prod.mk.inj hpop
    refine ⟨x, g', rfl, hnone, h', fun hw sb => ?_, htail⟩
    rw [howner]
    exact hwhole hw sb
  · rename_i hne
    obtain ⟨x, g', hx, hnone, howner, h'⟩ := h.popBlock hsize (Nat.pos_of_ne_zero hne)
    rw [hx] at hcall
    obtain ⟨rfl, rfl⟩ := Prod.mk.inj (Option.some.inj hcall)
    refine ⟨x, g', rfl, hnone, h', fun hw sb => ?_, Nat.le_refl _⟩
    rw [howner]
    exact hw sb

theorem Inv.pmalloc {tid size fuel : Nat} {r : Option Nat} (h : Inv P s live g)
    (hwrap : NoWrap s size) (hcall : LRMalloc.pmalloc P fuel s tid size = some (r, t)) :
    (r = none ∧ t = s) ∨ ∃ p g', r = some p ∧ Allocated P s t live g g' p size := by
  by_cases hsize : kMaxSize < size
  · by_cases hobtain : LargeObtainable P s size
    · obtain ⟨rounds, p, u, g', -, heq, halloc⟩ := h.pmallocLarge tid hsize hwrap hobtain
      rw [heq] at hcall
      split at hcall
      · simp at hcall
      · obtain ⟨rfl, rfl⟩ := Prod.mk.inj (Option.some.inj hcall)
        exact Or.inr ⟨p, g', rfl, halloc⟩
    · rw [h.pmallocLarge_full tid hsize hwrap hobtain] at hcall
      split at hcall
      · simp at hcall
      · obtain ⟨rfl, rfl⟩ := Prod.mk.inj (Option.some.inj hcall)
        exact Or.inl ⟨rfl, rfl⟩
  · exact Or.inr (h.pmallocSmall (by omega) hcall)

/-! ## Sizes that wrap -/

theorem Inv.stackServes_le {size : Nat} (h : Inv P s live g) (hsize : kMaxSize < size)
    (hserves : StackServes s size) : roundUp size kSuperBlockSize ≤ s.bulkTail := by
  obtain ⟨start, last, hptr, hwalk⟩ := hserves
  obtain ⟨rfl, hnext⟩ := walkStack_eq hwalk
  have hchain := h.stack.chain
  rw [hptr] at hchain
  obtain ⟨rest, hstack, -⟩ := stack_of_neighbours hchain hnext
  obtain ⟨n, htail, hunused⟩ := h.tail.unused
  have hpos := nrSuperBlocks_pos hsize
  have hlast : g.owner (start + (nrSuperBlocks size - 1)) = .stack := by
    refine (h.stack.mem _).mp ?_
    rw [hstack]
    exact List.mem_append_left _ (List.mem_range'_1.mpr ⟨by omega, by omega⟩)
  have hlt : start + (nrSuperBlocks size - 1) < n := by
    by_contra hge
    rw [(hunused _).mpr (by omega)] at hlast
    simp at hlast
  rw [htail, lookupSb_eq, ← nrSuperBlocks_mul, kSuperBlockSize_eq]
  omega

theorem Inv.not_obtainable {size : Nat} (h : Inv P s live g) (hwrap : ¬ NoWrap s size) :
    kMaxSize < size ∧ ¬ LargeObtainable P s size := by
  rw [NoWrap, Classical.not_imp] at hwrap
  obtain ⟨hsize, hsum⟩ := hwrap
  have hlimit := h.tail.limit
  have hpool : P.limit < 2 ^ 63 := P.fits
  refine ⟨hsize, ?_⟩
  rintro (hserves | hroom)
  · have hle := h.stackServes_le hsize hserves
    omega
  · rw [BulkRoom] at hroom
    omega

/-- The rounded size is zero, or the new tail lies below the old one: the call succeeds, and the
block is too small. -/
theorem Inv.pmalloc_wraps {size : Nat} (tid : Nat) (h : Inv P s live g) (hlt : size < 2 ^ 64)
    (hwrap : ¬ NoWrap s size) : ∃ rounds p t, rounds ≤ 1 ∧
      (∀ fuel, LRMalloc.pmalloc P fuel s tid size =
        if fuel < rounds then none else some (some p, t)) ∧ P.limit < p + size := by
  obtain ⟨hsize, hobtain⟩ := h.not_obtainable hwrap
  obtain ⟨n, htail, -⟩ := h.tail.unused
  have hlimit := h.tail.limit
  have hpool : P.limit < 2 ^ 63 := P.fits
  have hsum : 2 ^ 64 ≤ s.bulkTail + roundUp size kSuperBlockSize := by
    rw [NoWrap, Classical.not_imp] at hwrap
    omega
  have hup := roundUp_lt size (b := kSuperBlockSize) (by decide)
  by_cases hround : roundUp size kSuperBlockSize < 2 ^ 64
  · have hmod : roundUp size kSuperBlockSize % 2 ^ 64 = roundUp size kSuperBlockSize :=
      Nat.mod_eq_of_lt hround
    have hnew : (s.bulkTail + roundUp size kSuperBlockSize) % 2 ^ 64 =
        s.bulkTail + roundUp size kSuperBlockSize - 2 ^ 64 := by omega
    have hbulk : bulkAllocate P s kPageSize (roundUp size kSuperBlockSize) = (.ok (lookupSb P n),
        { s with bulkTail := s.bulkTail + roundUp size kSuperBlockSize - 2 ^ 64 }) := by
      rw [bulkAllocate_eq htail, ← htail, hnew, if_neg (by omega)]
    have hcall : ∀ fuel, LRMalloc.allocLargeSb P fuel s (roundUp size kSuperBlockSize % 2 ^ 64) =
        if fuel < 1 then none else some (some (lookupSb P n),
          { s with bulkTail := s.bulkTail + roundUp size kSuperBlockSize - 2 ^ 64 }) := by
      intro fuel
      rw [hmod, allocLargeSb_of_not (not_or.mp hobtain).1]
      exact allocLargeBulk_ok hbulk fuel
    refine ⟨1, lookupSb P n, _, Nat.le_refl _, pmalloc_of_large tid hsize hcall, ?_⟩
    rw [kSuperBlockSize_eq] at hup hsum
    omega
  · have hzero : roundUp size kSuperBlockSize % 2 ^ 64 = 0 := by
      obtain ⟨k, hk⟩ := dvd_roundUp size kSuperBlockSize
      rw [kSuperBlockSize_eq] at hup hk hround ⊢
      omega
    have hlarge : P.limit < size := by
      rw [kSuperBlockSize_eq] at hup hround
      omega
    suffices hsome : ∃ rounds q u, rounds ≤ 1 ∧ ∀ fuel, LRMalloc.allocLargeSb P fuel s
        (roundUp size kSuperBlockSize % 2 ^ 64) =
        if fuel < rounds then none else some (some (lookupSb P q), u) by
      obtain ⟨rounds, q, u, hrounds, hcall⟩ := hsome
      exact ⟨rounds, _, _, hrounds, pmalloc_of_large tid hsize hcall, by omega⟩
    rw [hzero]
    cases hptr : s.availSb.ptr with
    | none =>
        have hbulk : bulkAllocate P s kPageSize 0 = (.ok (lookupSb P n), s) := by
          rw [bulkAllocate_eq htail, ← htail, Nat.add_zero, Nat.mod_eq_of_lt (by omega),
            if_neg (by omega)]
        refine ⟨1, n, s, Nat.le_refl _, fun fuel => ?_⟩
        simp only [LRMalloc.allocLargeSb, hptr]
        exact allocLargeBulk_ok hbulk fuel
    | some start =>
        have hexchange : s.availSb.compareExchange (some start) (s.descriptors start).nextFree
            s.availSb.stamp (s.availSb.stamp + 1) = ⟨true,
              ⟨(s.descriptors start).nextFree, s.availSb.stamp + 1⟩, some start, s.availSb.stamp⟩ := by
          rw [← hptr, StampedPtr.compareExchange_self]
        refine ⟨0, start, { s with
          availSb := ⟨(s.descriptors start).nextFree, s.availSb.stamp + 1⟩ }, by omega, fun fuel => ?_⟩
        simp only [LRMalloc.allocLargeSb, hptr, Nat.zero_div, Nat.zero_sub, walkStack, hexchange,
          if_true, Nat.not_lt_zero, if_false]

/-! ## When pmalloc returns -/

/-- The code can get at memory for the size. -/
def Obtainable (P : Pool) (s : LRMalloc) (tid size : Nat) : Prop :=
  if kMaxSize < size then LargeObtainable P s size
  else (s.caches tid (lookup size)).blockNum ≠ 0 ∨ Refillable P s (lookup size)

theorem Inv.pmallocSmall_returns_iff (tid : Nat) {size : Nat} (h : Inv P s live g)
    (hsize : size ≤ kMaxSize) :
    (∃ fuel r t, LRMalloc.pmalloc P fuel s tid size = some (r, t)) ↔ Obtainable P s tid size := by
  have hnot : ¬ kMaxSize < size := by omega
  rw [Obtainable, if_neg hnot]
  by_cases hzero : (s.caches tid (lookup size)).blockNum = 0
  · have hiff := h.fillCache_returns_iff (bin_lookup hsize) (h.bin_blockNum hzero)
    constructor
    · rintro ⟨fuel, r, t, hcall⟩
      simp only [LRMalloc.pmalloc, if_neg hnot, if_pos hzero] at hcall
      obtain ⟨u, hfill, -⟩ := Option.map_eq_some_iff.mp hcall
      exact Or.inr (hiff.mp ⟨fuel, u, hfill⟩)
    · intro hobtain
      obtain ⟨fuel, u, hfill⟩ := hiff.mpr (hobtain.resolve_left fun hne => hne hzero)
      refine ⟨fuel, (LRMalloc.popBlock u tid (lookup size)).1, (LRMalloc.popBlock u tid (lookup size)).2, ?_⟩
      simp only [LRMalloc.pmalloc, if_neg hnot, if_pos hzero, hfill, Option.map_some]
  · refine iff_of_true ⟨0, (LRMalloc.popBlock s tid (lookup size)).1,
      (LRMalloc.popBlock s tid (lookup size)).2, ?_⟩ (Or.inl hzero)
    simp only [LRMalloc.pmalloc, if_neg hnot, if_neg hzero]

/-- The call ends, with a null pointer if and only if no memory can be had, exactly when there is
some or the size is a large one that does not wrap. -/
theorem Inv.call_ends_iff {tid size : Nat} (h : Inv P s live g) (hlt : size < 2 ^ 64) :
    (∃ fuel r t, LRMalloc.pmalloc P fuel s tid size = some (r, t) ∧
      (r = none ↔ ¬ Obtainable P s tid size)) ↔
    Obtainable P s tid size ∨ kMaxSize < size ∧ NoWrap s size := by
  by_cases hsize : kMaxSize < size
  · by_cases hwrap : NoWrap s size
    · refine iff_of_true ?_ (Or.inr ⟨hsize, hwrap⟩)
      rw [Obtainable, if_pos hsize]
      by_cases hobtain : LargeObtainable P s size
      · obtain ⟨rounds, p, t, g', -, heq, -⟩ := h.pmallocLarge tid hsize hwrap hobtain
        refine ⟨rounds, some p, t, ?_, by simp [hobtain]⟩
        rw [heq, if_neg (by omega)]
      · refine ⟨1, none, s, ?_, by simp [hobtain]⟩
        rw [h.pmallocLarge_full tid hsize hwrap hobtain, if_neg (by omega)]
    · obtain ⟨-, hobtain⟩ := h.not_obtainable hwrap
      rw [Obtainable, if_pos hsize]
      refine iff_of_false ?_ ?_
      · rintro ⟨fuel, r, t, hcall, hnone⟩
        obtain rfl := hnone.mpr hobtain
        obtain ⟨rounds, p, u, -, heq, -⟩ := h.pmalloc_wraps tid hlt hwrap
        rw [heq] at hcall
        split at hcall
        · simp at hcall
        · simp at hcall
      · rintro (hyes | ⟨-, hyes⟩)
        · exact hobtain hyes
        · exact hwrap hyes
  · have hiff := h.pmallocSmall_returns_iff tid (show size ≤ kMaxSize by omega)
    constructor
    · rintro ⟨fuel, r, t, hcall, -⟩
      exact Or.inl (hiff.mp ⟨fuel, r, t, hcall⟩)
    · rintro (hobtain | ⟨hlarge, -⟩)
      · obtain ⟨fuel, r, t, hcall⟩ := hiff.mpr hobtain
        obtain ⟨p, -, rfl, -⟩ := h.pmallocSmall (by omega) hcall
        exact ⟨fuel, some p, t, hcall, by simp [hobtain]⟩
      · exact absurd hlarge hsize

/-! ## pfree -/

/-- All superblocks of the allocation come back. -/
def Restored (live : Live) (p : Nat) : Prop :=
  ∀ size, live p = some size → roundUp size kSuperBlockSize < 2 ^ 32

theorem Inv.freeSmall {p size : Nat} (tid : Nat) (h : Inv P s live g) (hp : live p = some size)
    (hsize : size ≤ kMaxSize) : ∃ g', Inv P (LRMalloc.pfree P s tid (some p))
      (Function.update live p none) g' ∧ (Whole g → Whole g') := by
  have howner := h.live.small p size hp hsize
  have hsmall := h.classes.small _ _ howner
  have hpos := hsmall.bin.pos
  have hfree : LRMalloc.pfree P s tid (some p) = LRMalloc.pushBlock
      (if (getEntry (lookup size)).cacheBlockNum ≤ (s.caches tid (lookup size)).blockNum then
        LRMalloc.flushCache P s tid (lookup size) else s) tid (lookup size) p := by
    simp only [LRMalloc.pfree, hsmall.heap]
    split
    · simp_all
    · rename_i heq
      obtain heq := Option.some.inj heq
      omega
    · rename_i c hne heq
      obtain rfl := Option.some.inj heq
      rfl
  rw [hfree]
  split
  · obtain ⟨g₁, h₁, hwhole⟩ := h.flushCache tid (lookup size)
    obtain ⟨g', howner', h'⟩ := h₁.pushBlock tid hp hsize
    refine ⟨g', h', fun hw sb => ?_⟩
    rw [howner']
    exact hwhole hw sb
  · obtain ⟨g', howner', h'⟩ := h.pushBlock tid hp hsize
    refine ⟨g', h', fun hw sb => ?_⟩
    rw [howner']
    exact hw sb

theorem Inv.pfree {p size : Nat} (tid : Nat) (h : Inv P s live g) (hp : live p = some size) :
    ∃ g', Inv P (LRMalloc.pfree P s tid (some p)) (Function.update live p none) g' ∧
      (Restored live p → Whole g → Whole g') := by
  by_cases hsize : kMaxSize < size
  · obtain ⟨g', h', howner⟩ := h.freeLarge tid hp hsize
    refine ⟨g', h', fun hrestored hwhole sb => ?_⟩
    have hpos := nrSuperBlocks_pos hsize
    rw [howner, nrReturned_eq (hrestored size hp)]
    simp only [LRMalloc.reown]
    split
    · simp
    · rw [if_neg (by omega)]
      exact hwhole sb
  · obtain ⟨g', h', hwhole⟩ := h.freeSmall tid hp (by omega)
    exact ⟨g', h', fun _ => hwhole⟩

end Libcrpm.LRMalloc
