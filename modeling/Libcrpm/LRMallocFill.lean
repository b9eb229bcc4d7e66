import Libcrpm.LRMallocLarge

/-!
# Taking superblocks and filling caches

Which superblocks a call takes, and when `alloc_small_sb` and `fill_cache` return.
-/

namespace Libcrpm.LRMalloc

open Libcrpm.Memory SizeClass

variable {P : Pool} {s t : LRMalloc} {live : Live} {g : Layout}

/-! ## Superblocks -/

/-- The bulk area has `size` more bytes. -/
def BulkRoom (P : Pool) (s : LRMalloc) (size : Nat) : Prop := s.bulkTail + size ≤ P.limit

instance (P : Pool) (s : LRMalloc) (size : Nat) : Decidable (BulkRoom P s size) :=
  inferInstanceAs (Decidable (s.bulkTail + size ≤ P.limit))

theorem bulkAllocate_room {n count : Nat} (htail : s.bulkTail = lookupSb P n)
    (hroom : BulkRoom P s (count * kSuperBlockSize)) :
    bulkAllocate P s kPageSize (count * kSuperBlockSize) =
      (.ok (lookupSb P n), { s with bulkTail := lookupSb P (n + count) }) := by
  have hlimit : P.limit < 2 ^ 63 := P.fits
  have hnew := lookupSb_add P n count
  rw [BulkRoom, htail, hnew] at hroom
  rw [bulkAllocate_eq htail, hnew, Nat.mod_eq_of_lt (by omega), if_neg (by omega)]

theorem bulkAllocate_full {n size : Nat} (htail : s.bulkTail = lookupSb P n)
    (hfull : ¬ BulkRoom P s size) (hwrap : s.bulkTail + size < 2 ^ 64) :
    bulkAllocate P s kPageSize size = (.noMemory, s) := by
  rw [BulkRoom] at hfull
  rw [bulkAllocate_eq htail, ← htail, Nat.mod_eq_of_lt hwrap, if_pos (by omega)]

/-- All superblocks in the hands of a call or lost lie in one range. -/
def WholeBut (g : Layout) (start count : Nat) : Prop :=
  ∀ sb, ¬ (start ≤ sb ∧ sb < start + count) → g.owner sb ≠ .held ∧ g.owner sb ≠ .lost

theorem Whole.reown {g' : Layout} {start count : Nat} {o : Owner} (h : Whole g)
    (howner : ∀ sb, g'.owner sb = reown g.owner start count o sb) : WholeBut g' start count := by
  intro sb hout
  rw [howner, reown_of_not hout]
  exact h sb

theorem WholeBut.whole {g' : Layout} {start count : Nat} {o : Owner} (h : WholeBut g start count)
    (howner : ∀ sb, g'.owner sb = reown g.owner start count o sb) (ho : o ≠ .held)
    (ho' : o ≠ .lost) : Whole g' := by
  intro sb
  rw [howner]
  by_cases hin : start ≤ sb ∧ sb < start + count
  · rw [reown_of_mem hin.1 hin.2]
    exact ⟨ho, ho'⟩
  · rw [reown_of_not hin]
    exact h sb hin

def popped (s : LRMalloc) (desc : Nat) : LRMalloc :=
  { s with availSb := ⟨(s.descriptors desc).nextFree, s.availSb.stamp + 1⟩ }

theorem allocSmallLoop_of_stack {desc : Nat} (h : s.availSb.ptr = some desc) (size fuel : Nat) :
    allocSmallLoop P size (fuel + 1) s (some desc) s.availSb.stamp =
      some (lookupSb P desc, popped s desc) := by
  have hexchange : s.availSb.compareExchange (some desc) (s.descriptors desc).nextFree
      s.availSb.stamp (s.availSb.stamp + 1) =
      ⟨true, ⟨(s.descriptors desc).nextFree, s.availSb.stamp + 1⟩, some desc, s.availSb.stamp⟩ := by
    rw [← h, StampedPtr.compareExchange_self]
  rw [allocSmallLoop]
  simp only [hexchange, if_true, popped]

theorem allocSmallSb_of_stack {desc : Nat} (h : s.availSb.ptr = some desc) (fuel : Nat) :
    allocSmallSb P fuel s =
      if fuel < 1 then none else some (lookupSb P desc, popped s desc) := by
  rw [allocSmallSb, h]
  cases fuel with
  | zero => rfl
  | succ fuel => rw [allocSmallLoop_of_stack h, if_neg (by omega)]

/-- The stamp from before the own superblocks were pushed does not fit any more. -/
theorem allocSmallLoop_stale {desc : Nat} {stamp : BitVec 8}
    (h : s.availSb = ⟨some desc, stamp + 1⟩) (size fuel : Nat) :
    allocSmallLoop P size (fuel + 1) s (some desc) stamp =
      allocSmallLoop P size fuel s (some desc) (stamp + 1) := by
  have hne : stamp + 1 ≠ stamp := by
    intro heq
    simp at heq
  have hfail : s.availSb.compareExchange (some desc) (s.descriptors desc).nextFree stamp
      (stamp + 1) = ⟨false, s.availSb, some desc, stamp + 1⟩ := by
    rw [h, StampedPtr.compareExchange, if_neg fun hboth => hne hboth.2]
  rw [allocSmallLoop]
  simp only [hfail, Bool.false_eq_true, if_false]

theorem refillStack_room {n count : Nat} (htail : s.bulkTail = lookupSb P n)
    (hroom : BulkRoom P s (count * kSuperBlockSize)) :
    refillStack P s (count * kSuperBlockSize) = (some n,
      fillSbList P { s with bulkTail := lookupSb P (n + count) } (lookupSb P n) count) := by
  simp only [refillStack, bulkAllocate_room htail hroom,
    Nat.mul_div_cancel count (show 0 < kSuperBlockSize by decide), lookupDesc_lookupSb]

theorem allocSmallLoop_of_bulk {n count : Nat} (htail : s.bulkTail = lookupSb P n)
    (hroom : BulkRoom P s (count * kSuperBlockSize)) (fuel : Nat) :
    allocSmallLoop P (count * kSuperBlockSize) fuel s none s.availSb.stamp =
      if fuel < 3 then none else some (lookupSb P n,
        popped (fillSbList P { s with bulkTail := lookupSb P (n + count) } (lookupSb P n) count) n) := by
  have hstamp : (fillSbList P { s with bulkTail := lookupSb P (n + count) } (lookupSb P n)
      count).availSb = ⟨some n, s.availSb.stamp + 1⟩ := by
    rw [fillSbList_eq]
  cases fuel with
  | zero => rfl
  | succ fuel =>
      rw [allocSmallLoop, refillStack_room htail hroom]
      cases fuel with
      | zero => rfl
      | succ fuel =>
          simp only [allocSmallLoop_stale hstamp]
          cases fuel with
          | zero => rfl
          | succ fuel =>
              have hpop := allocSmallLoop_of_stack (P := P) (congrArg StampedPtr.ptr hstamp)
                (count * kSuperBlockSize) fuel
              rw [hstamp] at hpop
              rw [hpop, if_neg (by omega)]

/-- Nothing is on the stack, and the bulk area has not enough: the loop has no exit. -/
theorem allocSmallLoop_exhausted {n size : Nat} (htail : s.bulkTail = lookupSb P n)
    (hfull : ¬ BulkRoom P s size) (hwrap : s.bulkTail + size < 2 ^ 64) (stamp : BitVec 8)
    (fuel : Nat) : allocSmallLoop P size fuel s none stamp = none := by
  have hrefill : refillStack P s size = (none, s) := by
    simp only [refillStack, bulkAllocate_full htail hfull hwrap]
  induction fuel with
  | zero => rfl
  | succ fuel ih =>
      rw [allocSmallLoop, hrefill]
      exact ih

/-! ## A superblock for a class -/

theorem Inv.stack_head {desc : Nat} (h : Inv P s live g) (hptr : s.availSb.ptr = some desc) :
    ∃ rest, g.stack = List.range' desc 1 ++ rest ∧
      Segment (fun sb => (s.descriptors sb).nextFree) (s.descriptors (desc + 0)).nextFree rest none := by
  have hchain := h.stack.chain
  rw [hptr] at hchain
  obtain ⟨rest, hstack, hrest⟩ := hchain.uncons
  exact ⟨rest, hstack, hrest⟩

/-- What a call that takes superblocks for itself leaves. -/
structure Taken (P : Pool) (s t : LRMalloc) (live : Live) (g g' : Layout) (start count : Nat) :
    Prop where
  inv : Inv P t live g'
  held : ∀ sb, start ≤ sb → sb < start + count → g'.owner sb = .held
  clean : ∀ sb c, start ≤ sb → sb < start + count → (t.descriptors sb).heap = some c → c = 0
  whole : Whole g → WholeBut g' start count
  caches : t.caches = s.caches
  cached : g'.cached = g.cached
  tail : s.bulkTail ≤ t.bulkTail

theorem Inv.heap_eq_zero (h : Inv P s live g) {sb c : Nat} (hheap : (s.descriptors sb).heap = some c)
    (hsmall : g.owner sb ≠ .small c) (hheld : g.owner sb ≠ .held) : c = 0 :=
  (h.classes.heap sb c hheap).resolve_right fun hor => hor.elim hsmall hheld

theorem Inv.takeStack {start rounds : Nat} {rest : List Nat} (h : Inv P s live g)
    (hstack : g.stack = List.range' start (rounds + 1) ++ rest)
    (hrest : Segment (fun sb => (s.descriptors sb).nextFree)
      (s.descriptors (start + rounds)).nextFree rest none) (stamp : BitVec 8) :
    ∃ g', Taken P s
      { s with availSb := ⟨(s.descriptors (start + rounds)).nextFree, stamp⟩ } live g g' start
      (rounds + 1) := by
  refine ⟨_, h.pop hstack hrest stamp, fun sb hle hlt => reown_of_mem hle hlt,
    fun sb c hle hlt hheap => ?_, fun hwhole => hwhole.reown fun _ => rfl, rfl, rfl, Nat.le_refl _⟩
  have hin : g.owner sb = .stack := by
    refine (h.stack.mem sb).mp ?_
    rw [hstack]
    exact List.mem_append_left _ (List.mem_range'_1.mpr ⟨hle, hlt⟩)
  exact h.heap_eq_zero hheap (by simp [hin]) (by simp [hin])

/-- Superblocks behind the bulk tail are taken. -/
theorem Inv.takeBulk {n count : Nat} (h : Inv P s live g) (htail : s.bulkTail = lookupSb P n)
    (hroom : BulkRoom P s (count * kSuperBlockSize)) :
    ∃ g', Taken P s { s with bulkTail := lookupSb P (n + count) } live g g' n count := by
  have hnew := lookupSb_add P n count
  rw [BulkRoom, htail, hnew] at hroom
  obtain ⟨n', hn', hunused⟩ := h.tail.unused
  obtain rfl : n = n' := lookupSb_inj (htail ▸ hn')
  refine ⟨_, h.bulk htail hroom, fun sb hle hlt => reown_of_mem hle hlt,
    fun sb c hle hlt hheap => ?_, fun hwhole => hwhole.reown fun _ => rfl, rfl, rfl, ?_⟩
  · have hin := (hunused sb).mpr hle
    exact h.heap_eq_zero hheap (by simp [hin]) (by simp [hin])
  · change s.bulkTail ≤ lookupSb P (n + count)
    omega

theorem Inv.takeSmall_of_stack {desc : Nat} (h : Inv P s live g)
    (hptr : s.availSb.ptr = some desc) : ∃ g', Taken P s (popped s desc) live g g' desc 1 := by
  obtain ⟨rest, hstack, hrest⟩ := h.stack_head hptr
  exact h.takeStack hstack hrest _

theorem Inv.takeSmall_of_bulk {n count : Nat} (h : Inv P s live g)
    (htail : s.bulkTail = lookupSb P n) (hpos : 0 < count)
    (hroom : BulkRoom P s (count * kSuperBlockSize)) : ∃ g', Taken P s
      (popped (fillSbList P { s with bulkTail := lookupSb P (n + count) } (lookupSb P n) count) n)
      live g g' n 1 := by
  obtain ⟨g₁, hbulk⟩ := h.takeBulk htail hroom
  have hcount : count - 1 + 1 = count := by omega
  have hheld : ∀ sb, n ≤ sb → sb < n + (count - 1 + 1) → g₁.owner sb = .held := by
    rw [hcount]
    exact hbulk.held
  have hfill := hbulk.inv.fill hheld
  rw [hcount] at hfill
  have hptr : (fillSbList P { s with bulkTail := lookupSb P (n + count) } (lookupSb P n)
      count).availSb.ptr = some n := by
    rw [fillSbList_eq]
  obtain ⟨g', hpop⟩ := hfill.takeSmall_of_stack hptr
  refine ⟨g', hpop.inv, hpop.held, hpop.clean, fun hwhole => hpop.whole ?_, ?_, hpop.cached.trans
    hbulk.cached, ?_⟩
  · exact (hbulk.whole hwhole).whole (fun _ => rfl) (by simp) (by simp)
  · rw [hpop.caches, fillSbList_eq]
  · refine hbulk.tail.trans ?_
    rw [popped, fillSbList_eq]

theorem kMinAllocateSuperBlockSize_mul : kMinAllocateSuperBlockSize = 32 * kSuperBlockSize := rfl

theorem Inv.allocSmallSb (h : Inv P s live g)
    (hroom : s.availSb.ptr ≠ none ∨ BulkRoom P s kMinAllocateSuperBlockSize) :
    ∃ rounds sb t g', rounds ≤ 3 ∧ (∀ fuel, LRMalloc.allocSmallSb P fuel s =
      if fuel < rounds then none else some (lookupSb P sb, t)) ∧ Taken P s t live g g' sb 1 := by
  cases hptr : s.availSb.ptr with
  | some desc =>
      obtain ⟨g', htaken⟩ := h.takeSmall_of_stack hptr
      exact ⟨1, desc, _, g', by omega, allocSmallSb_of_stack hptr, htaken⟩
  | none =>
      obtain ⟨n, htail, -⟩ := h.tail.unused
      have hbulk := hroom.resolve_left fun hne => hne hptr
      rw [kMinAllocateSuperBlockSize_mul] at hbulk
      obtain ⟨g', htaken⟩ := h.takeSmall_of_bulk htail (by omega) hbulk
      refine ⟨3, n, _, g', by omega, fun fuel => ?_, htaken⟩
      rw [LRMalloc.allocSmallSb, hptr, kMinAllocateSuperBlockSize_mul]
      exact allocSmallLoop_of_bulk htail hbulk fuel

theorem Inv.allocSmallSb_exhausted (h : Inv P s live g) (hempty : s.availSb.ptr = none)
    (hfull : ¬ BulkRoom P s kMinAllocateSuperBlockSize) (fuel : Nat) :
    LRMalloc.allocSmallSb P fuel s = none := by
  obtain ⟨n, htail, -⟩ := h.tail.unused
  have hlimit := h.tail.limit
  have hpool : P.limit < 2 ^ 63 := P.fits
  rw [LRMalloc.allocSmallSb, hempty]
  refine allocSmallLoop_exhausted htail hfull ?_ _ fuel
  rw [kMinAllocateSuperBlockSize_eq]
  omega

/-! ## Filling a cache -/

theorem Inv.partialList_ptr (h : Inv P s live g) (c : Nat) :
    (s.partialList c).ptr = none ∧ g.partials c = [] ∨
      ∃ sb rest, (s.partialList c).ptr = some sb ∧ g.partials c = sb :: rest := by
  have hchain := h.classes.chain c
  cases hptr : (s.partialList c).ptr with
  | none =>
      rw [hptr] at hchain
      exact Or.inl ⟨rfl, hchain.eq_nil⟩
  | some sb =>
      rw [hptr] at hchain
      obtain ⟨rest, hlist, -⟩ := hchain.uncons
      exact Or.inr ⟨sb, rest, rfl, hlist⟩

def unlisted (s : LRMalloc) (sb c : Nat) : LRMalloc :=
  { s with
    partialList := Function.update s.partialList c
      ⟨(s.descriptors sb).nextPartial, (s.partialList c).stamp + 1⟩ }

theorem heapPopPartial_eq {sb c : Nat} (h : (s.partialList c).ptr = some sb) :
    heapPopPartial s c = (some sb, unlisted s sb c) := by
  simp only [heapPopPartial, h, unlisted]

theorem Inv.retireEmpty {sb c : Nat} {rest : List Nat} (h : Inv P s live g)
    (hpartials : g.partials c = sb :: rest)
    (hstate : (s.descriptors sb).anchor.state = .sbEmpty) :
    ∃ g', Inv P (retireSmallSb P (unlisted s sb c) (lookupSb P sb)) live g' ∧
      g'.partials c = rest ∧ g'.cached = g.cached ∧ (Whole g → Whole g') := by
  have hpop := h.popEmpty hpartials hstate ((s.partialList c).stamp + 1)
  have hheld : ∀ sb', sb ≤ sb' → sb' < sb + (1 - 1 + 1) →
      Function.update g.owner sb .held sb' = .held := by
    intro sb' hle hlt
    obtain rfl : sb = sb' := by omega
    exact Function.update_self ..
  rw [retireSmallSb_eq]
  refine ⟨_, hpop.fill hheld, Function.update_self .., rfl,
    fun hwhole => hwhole.set sb (o := .stack) (by simp) (by simp) ?_ fun sb' hne => ?_⟩
  · exact reown_of_mem (Nat.le_refl _) (by omega)
  · refine (reown_of_not (by omega)).trans ?_
    exact Function.update_of_ne hne _ _

theorem Inv.mallocFromPartial {tid c n : Nat} (fuel : Nat) (h : Inv P s live g)
    (hempty : g.cached tid c = [])
    (hcall : LRMalloc.mallocFromPartial P fuel s tid c = some (n, t)) :
    ∃ g', Inv P t live g' ∧ (Whole g → Whole g') ∧ t.bulkTail = s.bulkTail ∧
      (t.caches tid c).blockNum = n ∧
      (n = 0 → g'.cached tid c = [] ∧
        (g.partials c ≠ [] ∨ s.availSb.ptr ≠ none → t.availSb.ptr ≠ none)) := by
  induction fuel generalizing s g with
  | zero => simp [LRMalloc.mallocFromPartial] at hcall
  | succ fuel ih =>
      rw [LRMalloc.mallocFromPartial] at hcall
      rcases h.partialList_ptr c with ⟨hptr, hnil⟩ | ⟨sb, rest, hptr, hpartials⟩
      · simp only [heapPopPartial, hptr, Option.some.injEq, Prod.mk.injEq] at hcall
        obtain ⟨rfl, rfl⟩ := hcall
        refine ⟨g, h, fun hwhole => hwhole, rfl, ?_, fun _ => ⟨hempty, ?_⟩⟩
        · rw [h.caches.blockNum, hempty, List.length_nil]
        · rintro (hne | hne)
          · exact absurd hnil hne
          · exact hne
      · have hsb := ((h.classes.mem c sb).mp (by simp [hpartials])).1
        have hsmall := h.classes.small sb c hsb
        simp only [heapPopPartial_eq hptr, unlisted, hsmall.superblock, Option.getD_some] at hcall
        split at hcall
        · rename_i hstate
          obtain ⟨g₁, h₁, hrest, hcached, hwhole₁⟩ := h.retireEmpty hpartials hstate
          rw [← hcached] at hempty
          obtain ⟨g', h', hwhole', htail, hnum, hzero⟩ := ih h₁ hempty hcall
          refine ⟨g', h', fun hwhole => hwhole' (hwhole₁ hwhole), ?_, hnum, fun hn => ?_⟩
          · rw [htail, retireSmallSb_eq, fillSbList_eq, unlisted]
          · obtain ⟨hcached', hstack⟩ := hzero hn
            refine ⟨hcached', fun _ => hstack (Or.inr ?_)⟩
            rw [retireSmallSb_eq, fillSbList_eq]
            simp
        · rename_i hstate
          obtain ⟨hpos, htake⟩ := h.takePartial hpartials hempty hstate ((s.partialList c).stamp + 1)
          simp only [hsmall.superblock, Option.getD_some] at htake
          obtain ⟨hn, ht⟩ := Prod.mk.inj (Option.some.inj hcall)
          subst ht
          refine ⟨_, htake, fun hwhole => hwhole, rfl, ?_, fun hzero => by omega⟩
          simpa [setBin, TCacheBin.pushList] using hn

theorem Inv.mallocFromPartial_returns {tid c : Nat} {fuel : Nat} (h : Inv P s live g)
    (hempty : g.cached tid c = []) (hfuel : (g.partials c).length < fuel) :
    ∃ n t, LRMalloc.mallocFromPartial P fuel s tid c = some (n, t) := by
  induction fuel generalizing s g with
  | zero => omega
  | succ fuel ih =>
      rw [LRMalloc.mallocFromPartial]
      rcases h.partialList_ptr c with ⟨hptr, -⟩ | ⟨sb, rest, hptr, hpartials⟩
      · exact ⟨0, s, by simp only [heapPopPartial, hptr]⟩
      · have hsb := ((h.classes.mem c sb).mp (by simp [hpartials])).1
        have hsmall := h.classes.small sb c hsb
        simp only [heapPopPartial_eq hptr]
        split
        · rename_i hstate
          obtain ⟨g₁, h₁, hrest, hcached, -⟩ := h.retireEmpty hpartials hstate
          simp only [unlisted, hsmall.superblock, Option.getD_some]
          rw [← hcached] at hempty
          refine ih h₁ hempty ?_
          rw [hpartials, List.length_cons] at hfuel
          rw [hrest]
          omega
        · exact ⟨_, _, rfl⟩

theorem Inv.mallocFromNewSb {tid c : Nat} (h : Inv P s live g) (hc : Bin c)
    (hempty : g.cached tid c = [])
    (hroom : s.availSb.ptr ≠ none ∨ BulkRoom P s kMinAllocateSuperBlockSize) :
    ∃ rounds t g', rounds ≤ 3 ∧ (∀ fuel, LRMalloc.mallocFromNewSb P fuel s tid c =
      if fuel < rounds then none else some ((getEntry c).blockNum, t)) ∧ Inv P t live g' ∧
      (Whole g → Whole g') ∧ s.bulkTail ≤ t.bulkTail ∧ 0 < (t.caches tid c).blockNum := by
  obtain ⟨rounds, sb, t, g₁, hrounds, heq, htaken⟩ := h.allocSmallSb hroom
  have hheld := htaken.held sb (Nat.le_refl _) (by omega)
  rw [← htaken.cached] at hempty
  have hnew := htaken.inv.newSb tid hc hheld hempty rfl
  refine ⟨rounds, _, _, hrounds, fun fuel => ?_, hnew, fun hwhole => ?_, htaken.tail, ?_⟩
  · rw [LRMalloc.mallocFromNewSb, heq]
    by_cases hfuel : fuel < rounds
    · simp only [if_pos hfuel]
    · simp only [if_neg hfuel, lookupDesc_lookupSb]
      rfl
  · refine (htaken.whole hwhole).whole (o := .small c) (fun sb' => ?_) (by simp) (by simp)
    by_cases heq : sb' = sb
    · rw [heq, reown_of_mem (Nat.le_refl _) (by omega)]
      exact Function.update_self ..
    · rw [reown_of_not (by omega)]
      exact Function.update_of_ne heq _ _
  · have hnum := hc.blockNum
    simp only [Function.update_self]
    omega

/-- `fill_cache` has something to fill the cache with. -/
def Refillable (P : Pool) (s : LRMalloc) (c : Nat) : Prop :=
  (s.partialList c).ptr ≠ none ∨ s.availSb.ptr ≠ none ∨ BulkRoom P s kMinAllocateSuperBlockSize

theorem Inv.fillCache {tid c fuel : Nat} (h : Inv P s live g) (hc : Bin c)
    (hempty : g.cached tid c = []) (hcall : LRMalloc.fillCache P fuel s tid c = some t) :
    ∃ g', Inv P t live g' ∧ (Whole g → Whole g') ∧ s.bulkTail ≤ t.bulkTail ∧
      0 < (t.caches tid c).blockNum := by
  rw [LRMalloc.fillCache] at hcall
  cases hgot : LRMalloc.mallocFromPartial P fuel s tid c with
  | none => simp [hgot] at hcall
  | some result =>
      obtain ⟨n, u⟩ := result
      obtain ⟨g₁, h₁, hwhole₁, htail₁, hnum, hzero⟩ := h.mallocFromPartial fuel hempty hgot
      simp only [hgot] at hcall
      split at hcall
      · rename_i hn
        obtain ⟨hempty₁, -⟩ := hzero hn
        by_cases hroom : u.availSb.ptr ≠ none ∨ BulkRoom P u kMinAllocateSuperBlockSize
        · obtain ⟨rounds, v, g', -, heq, h', hwhole', htail', hpos⟩ :=
            h₁.mallocFromNewSb hc hempty₁ hroom
          rw [heq] at hcall
          split at hcall
          · simp at hcall
          · obtain rfl : v = t := by simpa using hcall
            exact ⟨g', h', fun hwhole => hwhole' (hwhole₁ hwhole), by omega, hpos⟩
        · rw [not_or, not_not] at hroom
          rw [LRMalloc.mallocFromNewSb, h₁.allocSmallSb_exhausted hroom.1 hroom.2] at hcall
          simp at hcall
      · rename_i hn
        obtain rfl : u = t := by simpa using hcall
        exact ⟨g₁, h₁, hwhole₁, by omega, by omega⟩

/-- `fill_cache` returns exactly when it finds something. -/
theorem Inv.fillCache_returns_iff {tid c : Nat} (h : Inv P s live g) (hc : Bin c)
    (hempty : g.cached tid c = []) :
    (∃ fuel t, LRMalloc.fillCache P fuel s tid c = some t) ↔ Refillable P s c := by
  constructor
  · rintro ⟨fuel, t, hcall⟩
    by_contra hnot
    simp only [Refillable, not_or, not_not] at hnot
    obtain ⟨hptr, havail, hfull⟩ := hnot
    rw [LRMalloc.fillCache] at hcall
    cases fuel with
    | zero => simp [LRMalloc.mallocFromPartial] at hcall
    | succ fuel =>
        simp only [LRMalloc.mallocFromPartial, heapPopPartial, hptr, if_true,
          LRMalloc.mallocFromNewSb, h.allocSmallSb_exhausted havail hfull] at hcall
        simp at hcall
  · intro hrefill
    obtain ⟨n, u, hgot⟩ := h.mallocFromPartial_returns hempty
      (show (g.partials c).length < (g.partials c).length + 3 by omega)
    obtain ⟨g₁, h₁, -, htail₁, -, hzero⟩ := h.mallocFromPartial _ hempty hgot
    refine ⟨(g.partials c).length + 3, ?_⟩
    simp only [LRMalloc.fillCache, hgot]
    split
    · rename_i hn
      obtain ⟨hempty₁, hstack⟩ := hzero hn
      have hroom : u.availSb.ptr ≠ none ∨ BulkRoom P u kMinAllocateSuperBlockSize := by
        rcases hrefill with hptr | havail | hroom
        · refine Or.inl (hstack (Or.inl ?_))
          rcases h.partialList_ptr c with ⟨hnone, -⟩ | ⟨sb, rest, -, hpartials⟩
          · exact absurd hnone hptr
          · simp [hpartials]
        · exact Or.inl (hstack (Or.inr havail))
        · right
          rwa [BulkRoom, htail₁]
      obtain ⟨rounds, v, g', hrounds, heq, -⟩ := h₁.mallocFromNewSb hc hempty₁ hroom
      rw [heq, if_neg (by omega)]
      exact ⟨v, rfl⟩
    · exact ⟨u, rfl⟩

end Libcrpm.LRMalloc
