import Libcrpm.LRMallocLayout

/-!
# Superblocks on the stack

Pushing and popping superblocks, and taking new ones from the bulk area.
-/

namespace Libcrpm.LRMalloc

open Libcrpm.Memory SizeClass

variable {P : Pool} {s t : LRMalloc} {live : Live} {g : Layout}

/-- Give a range of superblocks to another owner. -/
def reown (owner : Nat → Owner) (start count : Nat) (o : Owner) (sb : Nat) : Owner :=
  if start ≤ sb ∧ sb < start + count then o else owner sb

theorem reown_eq_iff {owner : Nat → Owner} {start count sb : Nat} {o v w : Owner}
    (h : ∀ sb, start ≤ sb → sb < start + count → owner sb = w) (hw : w ≠ v) (ho : o ≠ v) :
    reown owner start count o sb = v ↔ owner sb = v := by
  rw [reown]
  split
  · rename_i hin
    rw [h sb hin.1 hin.2]
    exact iff_of_false ho hw
  · rfl

theorem reown_self {owner : Nat → Owner} {start count sb : Nat} {o : Owner} :
    reown owner start count o sb = o ↔ start ≤ sb ∧ sb < start + count ∨ owner sb = o := by
  rw [reown]
  split
  · rename_i hin
    exact iff_of_true rfl (Or.inl hin)
  · rename_i hout
    exact ⟨Or.inr, fun h => h.resolve_left hout⟩

theorem Inv.reown {start count : Nat} {w : Owner} (h : Inv P s live g) (o : Owner)
    (ds' : Nat → Descriptor) (hw : ∀ sb, start ≤ sb → sb < start + count → g.owner sb = w)
    (hwsmall : ∀ c, w ≠ .small c) (hosmall : ∀ c, o ≠ .small c)
    (hwlarge : ∀ q, w ≠ .large q) (holarge : ∀ q, o ≠ .large q)
    (hds : ∀ sb, ¬ (start ≤ sb ∧ sb < start + count) → ds' sb = s.descriptors sb)
    (hheap : ∀ sb c, start ≤ sb → sb < start + count → (ds' sb).heap = some c →
      c = 0 ∨ o = .held) :
    ClassOk P ds' s.partialList s.link (reown g.owner start count o) g.partials g.free ∧
      PlaceOk P (reown g.owner start count o) g.free g.place ∧
      LiveOk P live ds' (reown g.owner start count o) g.place := by
  have hsmall : ∀ sb c, LRMalloc.reown g.owner start count o sb = .small c ↔
      g.owner sb = .small c := fun sb c => reown_eq_iff hw (hwsmall c) (hosmall c)
  have hlarge : ∀ sb q, LRMalloc.reown g.owner start count o sb = .large q ↔
      g.owner sb = .large q := fun sb q => reown_eq_iff hw (hwlarge q) (holarge q)
  refine ⟨h.classes.congr (fun sb c hsb => hds sb fun hin => ?_) (fun sb c hsb => ?_)
    (fun _ _ _ => rfl) hsmall, h.places.congr hsmall,
    h.live.congr (fun sb hsb => hds sb fun hin => ?_) hsmall hlarge⟩
  · exact hwsmall c (by rw [← hw sb hin.1 hin.2, hsb])
  · by_cases hin : start ≤ sb ∧ sb < start + count
    · refine (hheap sb c hin.1 hin.2 hsb).imp_right fun ho => Or.inr ?_
      rw [LRMalloc.reown, if_pos hin, ho]
    · rw [hds sb hin] at hsb
      refine (h.classes.heap sb c hsb).imp_right (Or.imp (hsmall sb c).mpr fun hheld => ?_)
      rw [LRMalloc.reown, if_neg hin, hheld]
  · exact hwlarge sb (by rw [← hw sb hin.1 hin.2, hsb])

/-! ## Pushing -/

/-- The descriptors after `fill_sb_list`. -/
def linkedDescriptors (ds : Nat → Descriptor) (head : Option Nat) (start last sb : Nat) :
    Descriptor :=
  if start ≤ sb ∧ sb < last then { Descriptor.new with nextFree := some (sb + 1) }
  else if sb = last then { Descriptor.new with nextFree := head }
  else ds sb

theorem linkedDescriptors_of_not {ds : Nat → Descriptor} {head : Option Nat} {start last sb : Nat}
    (hle : start ≤ last) (h : ¬ (start ≤ sb ∧ sb ≤ last)) :
    linkedDescriptors ds head start last sb = ds sb := by
  unfold linkedDescriptors
  rw [if_neg (by omega), if_neg (by omega)]

theorem linkDescriptors_eq {ds : Nat → Descriptor} {desc : Nat} (h : ds desc = .new)
    (rounds : Nat) : linkDescriptors ds desc rounds =
      (linkedDescriptors (Function.update ds (desc + rounds) .new) none desc (desc + rounds),
        desc + rounds) := by
  induction rounds generalizing ds desc with
  | zero =>
      rw [linkDescriptors]
      refine Prod.ext (funext fun sb => ?_) rfl
      simp only [linkedDescriptors, Nat.add_zero]
      rw [if_neg (by omega)]
      split
      · rename_i heq
        rw [heq, h]
        rfl
      · rename_i hne
        rw [Function.update_of_ne hne]
  | succ rounds ih =>
      rw [linkDescriptors, ih (Function.update_self ..)]
      refine Prod.ext (funext fun sb => ?_) (by simp only; omega)
      have hlast : desc + 1 + rounds = desc + (rounds + 1) := by omega
      simp only [linkedDescriptors, hlast, h]
      by_cases hfirst : sb = desc
      · subst hfirst
        rw [if_neg (by omega), if_neg (by omega), if_pos (by omega), Function.update_of_ne (by omega),
          Function.update_of_ne (by omega), Function.update_self]
      · by_cases hin : desc ≤ sb ∧ sb < desc + (rounds + 1)
        · rw [if_pos hin, if_pos (by omega)]
        · rw [if_neg hin, if_neg (by omega)]
          split
          · rfl
          · rename_i hne
            rw [Function.update_of_ne hne, Function.update_of_ne hne,
              Function.update_of_ne (by omega), Function.update_of_ne hfirst]

theorem fillSbList_eq (P : Pool) (s : LRMalloc) (start count : Nat) :
    fillSbList P s (lookupSb P start) count = { s with
      descriptors := linkedDescriptors s.descriptors s.availSb.ptr start (start + (count - 1))
      availSb := ⟨some start, s.availSb.stamp + 1⟩ } := by
  have hnew : Function.update s.descriptors start .new start = .new := Function.update_self ..
  have hlink := linkDescriptors_eq hnew (count - 1)
  simp only [fillSbList, lookupDesc_lookupSb, hlink]
  congr 1
  funext sb
  simp only [linkedDescriptors, Function.update_apply]
  by_cases hlast : sb = start + (count - 1)
  · subst hlast
    simp
  · by_cases hin : start ≤ sb ∧ sb < start + (count - 1)
    · simp [hlast, hin]
    · have hne : sb ≠ start := by omega
      simp [hlast, hin, hne]

theorem retireSmallSb_eq (P : Pool) (s : LRMalloc) (sb : Nat) :
    retireSmallSb P s sb = fillSbList P s sb 1 := by
  simp [retireSmallSb, fillSbList, linkDescriptors]

theorem Inv.fill {start count : Nat} (h : Inv P s live g)
    (hheld : ∀ sb, start ≤ sb → sb < start + (count - 1 + 1) → g.owner sb = .held) :
    Inv P (fillSbList P s (lookupSb P start) count) live { g with
      owner := LRMalloc.reown g.owner start (count - 1 + 1) .stack
      stack := List.range' start (count - 1 + 1) ++ g.stack } := by
  rw [fillSbList_eq]
  obtain ⟨hclasses, hplaces, hlive⟩ := h.reown .stack
    (linkedDescriptors s.descriptors s.availSb.ptr start (start + (count - 1))) hheld (by simp)
    (by simp) (by simp) (by simp)
    (fun sb hout => linkedDescriptors_of_not (by omega) (by omega))
    (fun sb c hle hlt hheap => by
      rw [linkedDescriptors] at hheap
      split at hheap
      · simp [Descriptor.new] at hheap
      · rw [if_pos (by omega)] at hheap
        simp [Descriptor.new] at hheap)
  refine ⟨?_, ⟨?_, ?_, ?_⟩, hclasses, h.caches, hplaces, hlive⟩
  · exact h.tail.congr (fun sb => reown_eq_iff hheld (by simp) (by simp))
      fun sb => reown_eq_iff hheld (by simp) (by simp)
  · have hnew : Segment (fun sb => (linkedDescriptors s.descriptors s.availSb.ptr start
        (start + (count - 1)) sb).nextFree) (some start) (List.range' start (count - 1 + 1))
        s.availSb.ptr := by
      have hrange := segment_range' (fun sb => (linkedDescriptors s.descriptors s.availSb.ptr start
          (start + (count - 1)) sb).nextFree)
        fun sb (hle : start ≤ sb) (hlt : sb < start + (count - 1)) => by
          simp only [linkedDescriptors, if_pos (And.intro hle hlt)]
      simpa [linkedDescriptors] using hrange
    refine segment_append.mpr ⟨_, hnew, h.stack.chain.congr fun sb hsb => ?_⟩
    have hstack := (h.stack.mem sb).mp hsb
    have hout : ¬ (start ≤ sb ∧ sb < start + (count - 1 + 1)) := fun hin => by
      rw [hheld sb hin.1 hin.2] at hstack
      simp at hstack
    exact congrArg Descriptor.nextFree (linkedDescriptors_of_not (by omega) (by omega))
  · refine List.nodup_append.mpr ⟨List.nodup_range', h.stack.nodup, fun sb hsb sb' hsb' heq => ?_⟩
    subst heq
    have hin := List.mem_range'_1.mp hsb
    have hstack := (h.stack.mem sb).mp hsb'
    rw [hheld sb hin.1 hin.2] at hstack
    simp at hstack
  · intro sb
    rw [List.mem_append, List.mem_range'_1, h.stack.mem, reown_self]

/-! ## Popping -/

theorem walkStack_eq {ds : Nat → Descriptor} {rounds desc last : Nat}
    (h : walkStack ds rounds desc = some last) : last = desc + rounds ∧
      ∀ sb, desc ≤ sb → sb < desc + rounds → (ds sb).nextFree = some (sb + 1) := by
  induction rounds generalizing desc with
  | zero =>
      obtain rfl := Option.some.inj h
      exact ⟨rfl, fun sb hle hlt => absurd hlt (by omega)⟩
  | succ rounds ih =>
      rw [walkStack] at h
      split at h
      · rename_i hnext
        obtain ⟨hlast, hall⟩ := ih h
        refine ⟨by omega, fun sb hle hlt => ?_⟩
        by_cases heq : sb = desc
        · rw [heq, hnext]
        · exact hall sb (by omega) (by omega)
      · simp at h

theorem stack_of_neighbours {next : Nat → Option Nat} {start rounds : Nat} {stack : List Nat}
    (h : Segment next (some start) stack none)
    (hnext : ∀ sb, start ≤ sb → sb < start + rounds → next sb = some (sb + 1)) :
    ∃ rest, stack = List.range' start (rounds + 1) ++ rest ∧
      Segment next (next (start + rounds)) rest none := by
  induction rounds generalizing start stack with
  | zero =>
      obtain ⟨rest, rfl, hrest⟩ := h.uncons
      exact ⟨rest, rfl, hrest⟩
  | succ rounds ih =>
      obtain ⟨tail, rfl, htail⟩ := h.uncons
      rw [hnext start (Nat.le_refl _) (by omega)] at htail
      obtain ⟨rest, rfl, hrest⟩ := ih htail fun sb hle hlt => hnext sb (by omega) (by omega)
      have hlast : start + 1 + rounds = start + (rounds + 1) := by omega
      rw [hlast] at hrest
      exact ⟨rest, by rw [List.range'_succ (n := rounds + 1)]; rfl, hrest⟩

theorem Inv.pop {start rounds : Nat} {rest : List Nat} (h : Inv P s live g)
    (hstack : g.stack = List.range' start (rounds + 1) ++ rest)
    (hrest : Segment (fun sb => (s.descriptors sb).nextFree)
      (s.descriptors (start + rounds)).nextFree rest none) (stamp : BitVec 8) :
    Inv P { s with availSb := ⟨(s.descriptors (start + rounds)).nextFree, stamp⟩ } live { g with
      owner := LRMalloc.reown g.owner start (rounds + 1) .held
      stack := rest } := by
  have hin : ∀ sb, start ≤ sb → sb < start + (rounds + 1) → g.owner sb = .stack := by
    intro sb hle hlt
    refine (h.stack.mem sb).mp ?_
    rw [hstack]
    exact List.mem_append_left _ (List.mem_range'_1.mpr ⟨hle, hlt⟩)
  have hnodup := h.stack.nodup
  rw [hstack, List.nodup_append] at hnodup
  obtain ⟨hclasses, hplaces, hlive⟩ := h.reown .held s.descriptors hin (by simp) (by simp) (by simp)
    (by simp) (fun _ _ => rfl) (fun _ _ _ _ _ => Or.inr rfl)
  refine ⟨?_, ⟨hrest, hnodup.2.1, fun sb => ?_⟩, hclasses, h.caches, hplaces, hlive⟩
  · exact h.tail.congr (fun sb => reown_eq_iff hin (by simp) (by simp))
      fun sb => reown_eq_iff hin (by simp) (by simp)
  · have hmem := h.stack.mem sb
    rw [hstack, List.mem_append, List.mem_range'_1] at hmem
    have hdisjoint := hnodup.2.2
    simp only [LRMalloc.reown]
    split
    · rename_i hinside
      refine iff_of_false (fun hsb => ?_) (by simp)
      exact hdisjoint sb (List.mem_range'_1.mpr hinside) sb hsb rfl
    · rename_i houtside
      rw [← hmem]
      exact ⟨Or.inr, fun hsb => hsb.resolve_left houtside⟩

/-! ## The bulk area -/

theorem firstSb_aligned (P : Pool) : P.firstSb % 4096 = 0 := by
  have hbase := P.aligned
  obtain ⟨a, ha⟩ := dvd_roundUp kMetadataSize kPageSize
  obtain ⟨b, hb⟩ := dvd_roundUp (P.capacity / kSuperBlockSize * kDescriptorSize) kPageSize
  rw [Pool.firstSb, ha, hb]
  rw [kPageSize_eq] at hbase ⊢
  omega

theorem bulkAllocate_eq {n : Nat} (htail : s.bulkTail = lookupSb P n) (size : Nat) :
    bulkAllocate P s kPageSize size =
      if P.limit < (lookupSb P n + size) % 2 ^ 64 then (.noMemory, s)
      else (.ok (lookupSb P n), { s with bulkTail := (lookupSb P n + size) % 2 ^ 64 }) := by
  have hmask : lookupSb P n &&& (kPageSize - 1) = 0 := by
    have haligned := firstSb_aligned P
    rw [kPageSize_eq, Nat.and_two_pow_sub_one_eq_mod _ 12, lookupSb_eq]
    omega
  have hvalid : ¬ (BitVec.ofNat 64 kPageSize &&& (~~~BitVec.ofNat 64 kPageSize + 1) ≠
      BitVec.ofNat 64 kPageSize ∨ kPageSize < 8) := by decide
  simp only [bulkAllocate, if_neg hvalid, htail, hmask, ne_eq, not_true_eq_false, if_false]

theorem Inv.bulk {n count : Nat} (h : Inv P s live g) (htail : s.bulkTail = lookupSb P n)
    (hfits : lookupSb P (n + count) ≤ P.limit) :
    Inv P { s with bulkTail := lookupSb P (n + count) } live { g with
      owner := LRMalloc.reown g.owner n count .held } := by
  obtain ⟨n', hn', hunused⟩ := h.tail.unused
  obtain rfl : n = n' := lookupSb_inj (htail ▸ hn')
  have hin : ∀ sb, n ≤ sb → sb < n + count → g.owner sb = .unused :=
    fun sb hle _ => (hunused sb).mpr hle
  obtain ⟨hclasses, hplaces, hlive⟩ := h.reown .held s.descriptors hin (by simp) (by simp) (by simp)
    (by simp) (fun _ _ => rfl) (fun _ _ _ _ _ => Or.inr rfl)
  refine ⟨⟨⟨n + count, rfl, fun sb => ?_⟩, hfits, fun sb => ?_⟩, ?_, hclasses, h.caches, hplaces,
    hlive⟩
  · have hsb := hunused sb
    simp only [LRMalloc.reown]
    split
    · exact iff_of_false (by simp) (by omega)
    · rw [hsb]
      omega
  · exact (reown_eq_iff hin (by simp) (by simp)).trans (h.tail.reserved sb)
  · exact h.stack.congr (fun _ _ => rfl) fun sb => reown_eq_iff hin (by simp) (by simp)

end Libcrpm.LRMalloc
