import Libcrpm.LRMallocClasses

/-!
# Flushing a cache

The blocks at the top of a cache go back to their superblock, for as long as they belong to the
same one.
-/

namespace Libcrpm.LRMalloc

open Libcrpm.Memory SizeClass

variable {P : Pool} {s t : LRMalloc} {live : Live} {g : Layout}

/-! ## The blocks that are returned -/

theorem lookupDesc_of_range {x sb : Nat} (hle : lookupSb P sb ≤ x)
    (hlt : x < lookupSb P sb + kSuperBlockSize) : lookupDesc P x = sb := by
  have hadd := lookupDesc_add P sb (show x - lookupSb P sb < kSuperBlockSize by omega)
  rwa [Nat.add_sub_cancel' hle] at hadd

/-- The inner loop of `flush_cache` stops at a block before which all lie in one superblock. -/
theorem sameSuperblock_eq {link : Nat → Option Nat} {sb head : Nat} (count : Nat) {l : List Nat}
    {stop : Option Nat} (h : Segment link (link head) l stop) (hhead : lookupDesc P head = sb) :
    ∃ init tail rest, head :: l = init ++ tail :: rest ∧
      sameSuperblock link (lookupSb P sb) kSuperBlockSize l.length head count =
        (tail, count + init.length) ∧ ∀ x ∈ init ++ [tail], lookupDesc P x = sb := by
  induction l generalizing head count with
  | nil => exact ⟨[], head, [], rfl, rfl, by simpa using hhead⟩
  | cons y l ih =>
      obtain ⟨hlink, hrest⟩ := h
      rw [List.length_cons, sameSuperblock, hlink]
      simp only []
      split
      · exact ⟨[], head, y :: l, rfl, rfl, by simpa using hhead⟩
      · rename_i hin
        have hy : lookupDesc P y = sb := lookupDesc_of_range (by omega) (by omega)
        obtain ⟨init, tail, rest, heq, hresult, hall⟩ := ih (count + 1) hrest hy
        refine ⟨head :: init, tail, rest, by rw [heq]; rfl, ?_, ?_⟩
        · rw [hresult, List.length_cons]
          congr 1
          omega
        · intro x hx
          rcases List.mem_cons.mp hx with rfl | hx
          · exact hhead
          · exact hall x hx

theorem AnchorOk.nil_of_full {link : Nat → Option Nat} {sb c : Nat} {anchor : Anchor}
    {free : List Nat} (h : AnchorOk P link sb c anchor free) (hstate : anchor.state = .sbFull) :
    free = [] := by
  cases h with
  | full => rfl
  | part => simp at hstate
  | empty => simp at hstate

theorem AnchorOk.flush {link : Nat → Option Nat} {sb c idx head tail : Nat} {old : Anchor}
    {free init : List Nat} {mid : Option Nat} (hc : Bin c) (h : AnchorOk P link sb c old free)
    (hrun : Segment link (some head) (init ++ [tail]) mid) (hhead : head = blockAddress P sb c idx)
    (hidx : idx < (getEntry c).blockNum) (hnodup : (init ++ [tail] ++ free).Nodup)
    (hlen : (init ++ [tail] ++ free).length ≤ (getEntry c).blockNum) :
    AnchorOk P (Function.update link tail (some (blockAddress P sb c old.avail))) sb c
      (flushAnchor old idx (1 + init.length) (getEntry c).blockNum) (init ++ [tail] ++ free) := by
  have hblockNum := hc.blockNum_le
  have hbits : ∀ n, n ≤ (getEntry c).blockNum → bits31 n = n :=
    fun n hn => Nat.mod_eq_of_lt (by omega)
  rw [List.append_assoc, List.nodup_append] at hnodup
  obtain ⟨-, htail, hdisjoint⟩ := hnodup
  have hinit : tail ∉ init := fun hin => hdisjoint tail hin tail (by simp) rfl
  have hfree : tail ∉ free := (List.nodup_cons.mp htail).1
  simp only [List.length_append, List.length_singleton] at hlen
  rw [hhead] at hrun
  cases h with
  | full =>
      have hchain := hrun.relink hinit (some (blockAddress P sb c (getEntry c).blockNum))
      rw [List.length_nil, Nat.add_zero] at hlen
      rw [List.append_nil, flushAnchor]
      simp only [Nat.zero_add, if_true]
      split
      · rename_i hall
        rw [hbits idx hidx.le, hbits _ (Nat.sub_le _ _)]
        exact .empty hchain (by rw [List.length_append, List.length_singleton]; omega)
      · rename_i hne
        have hlength : 1 + init.length = (init ++ [tail]).length := by
          rw [List.length_append, List.length_singleton]
          omega
        rw [hbits idx hidx.le, hbits _ (by omega), hlength]
        exact .part hchain (by simp) (by omega)
  | @part avail _ _ hold hpos hlt =>
      have hchain := hrun.splice hinit hold hfree
      have hlength : free.length + (1 + init.length) = (init ++ [tail] ++ free).length := by
        simp only [List.length_append, List.length_singleton]
        omega
      rw [flushAnchor]
      simp only [reduceCtorEq, if_false]
      split
      · rename_i hall
        rw [hbits idx hidx.le, hbits _ (Nat.sub_le _ _)]
        exact .empty hchain (by rw [← hlength, hall])
      · rename_i hne
        rw [hbits idx hidx.le, hbits _ (by omega), hlength]
        exact .part hchain (by rw [← hlength]; omega) (by rw [← hlength]; omega)
  | empty _ hall => omega

/-- No superblock is in the hands of a call, and none is lost. -/
def Whole (g : Layout) : Prop := ∀ sb, g.owner sb ≠ .held ∧ g.owner sb ≠ .lost

section

variable {tid c sb tail : Nat} {init rest : List Nat} {link' : Nat → Option Nat}

/-- The cache without the blocks at its top. -/
theorem Inv.cutCache (h : Inv P s live g) (place' : Nat → Option Place)
    (hcached : g.cached tid c = init ++ tail :: rest)
    (hlink : ∀ x, x ≠ tail → link' x = s.link x)
    (hrun : ∀ x ∈ init ++ [tail], ∀ tid c, place' x ≠ some (.cached tid c))
    (hother : ∀ x, x ∉ init ++ [tail] → place' x = g.place x) :
    CachesOk link' (Function.update s.caches tid (Function.update (s.caches tid) c
        ⟨s.link tail, (s.caches tid c).blockNum - (1 + init.length)⟩))
      (setCached g.cached tid c rest) place' := by
  have hnodup := h.caches.nodup tid c
  have hmem := h.caches.mem tid c
  obtain ⟨stop, hchain⟩ := h.caches.chain tid c
  rw [hcached] at hnodup hchain hmem
  obtain ⟨mid, -, -, hrest⟩ := segment_append.mp hchain
  rw [List.nodup_append] at hnodup
  obtain ⟨-, hcons, hdisjoint⟩ := hnodup
  obtain ⟨htail, hrestnodup⟩ := List.nodup_cons.mp hcons
  have hrunmem : ∀ x ∈ init ++ [tail], g.place x = some (.cached tid c) := by
    intro x hx
    refine (hmem x).mp ?_
    simp only [List.mem_append, List.mem_cons, List.not_mem_nil, or_false] at hx ⊢
    tauto
  refine h.caches.set (fun tid' c' hne x hx => hlink x ?_)
    ⟨stop, hrest.congr fun x hx => hlink x ?_⟩ ?_ hrestnodup (fun x => ?_)
    fun tid' c' x hne => ?_
  · rintro rfl
    have hplace := (h.caches.mem tid' c' x).mp hx
    rw [hrunmem x (by simp)] at hplace
    simp only [Option.some.injEq, Place.cached.injEq] at hplace
    exact hne ⟨hplace.1.symm, hplace.2.symm⟩
  · rintro rfl
    exact htail hx
  · simp only [h.caches.blockNum, hcached, List.length_append, List.length_cons]
    omega
  · by_cases hx : x ∈ init ++ [tail]
    · refine iff_of_false (fun hin => ?_) (hrun x hx tid c)
      rcases List.mem_append.mp hx with hinit | hlast
      · exact hdisjoint x hinit x (List.mem_cons_of_mem _ hin) rfl
      · exact htail (List.mem_singleton.mp hlast ▸ hin)
    · rw [hother x hx, ← hmem]
      simp only [List.mem_append, List.mem_singleton, not_or] at hx
      simp [hx.1, hx.2]
  · by_cases hx : x ∈ init ++ [tail]
    · refine iff_of_false (hrun x hx tid' c') ?_
      rw [hrunmem x hx]
      simp only [Option.some.injEq, Place.cached.injEq, not_and]
      exact fun htid hc => hne ⟨htid.symm, hc.symm⟩
    · rw [hother x hx]

/-! ## One round -/

/-- The blocks at the top of a cache that lie in one superblock. -/
structure CachedRun (P : Pool) (g : Layout) (tid c sb : Nat) (init : List Nat) (tail : Nat)
    (rest : List Nat) : Prop where
  owner : g.owner sb = .small c
  cached : g.cached tid c = init ++ tail :: rest
  desc : ∀ x ∈ init ++ [tail], lookupDesc P x = sb

namespace CachedRun

variable (h : Inv P s live g) (hrun : CachedRun P g tid c sb init tail rest)
include h hrun

theorem place {x : Nat} (hx : x ∈ init ++ [tail]) : g.place x = some (.cached tid c) := by
  refine (h.caches.mem tid c x).mp ?_
  rw [hrun.cached]
  simp only [List.mem_append, List.mem_cons, List.not_mem_nil, or_false] at hx ⊢
  tauto

theorem nodup : (init ++ [tail] ++ g.free sb).Nodup := by
  have hcached := h.caches.nodup tid c
  rw [hrun.cached, List.append_cons] at hcached
  refine List.nodup_append.mpr ⟨(List.nodup_append.mp hcached).1, h.places.nodup sb, ?_⟩
  rintro x hx y hy rfl
  have hplace := hrun.place h hx
  rw [((h.places.mem sb x).mp hy).1] at hplace
  simp at hplace

theorem subset : ∀ x ∈ init ++ [tail] ++ g.free sb, x ∈ blocksOf P sb c := by
  intro x hx
  rcases List.mem_append.mp hx with hin | hfree
  · exact h.mem_blocksOf hrun.owner (hrun.place h hin) (hrun.desc x hin)
  · exact h.free_subset hrun.owner x hfree

theorem length_le : (init ++ [tail] ++ g.free sb).length ≤ (getEntry c).blockNum :=
  length_le_blockNum (hrun.nodup h) (hrun.subset h)

theorem tail_ne {sb' x : Nat} (hx : x ∈ g.free sb') : x ≠ tail := by
  rintro rfl
  have hplace := hrun.place h (x := x) (by simp)
  rw [((h.places.mem sb' x).mp hx).1] at hplace
  simp at hplace

theorem place_iff {v : Option Place} {x : Nat} {pl : Place} (hv : v ≠ some pl)
    (hpl : pl ≠ .cached tid c) :
    (if x ∈ init ++ [tail] then v else g.place x) = some pl ↔ g.place x = some pl := by
  split
  · rename_i hin
    rw [hrun.place h hin]
    exact iff_of_false hv fun heq => hpl (Option.some.inj heq).symm
  · rfl

end CachedRun

theorem PlaceOk.giveBack (h : Inv P s live g) (hrun : CachedRun P g tid c sb init tail rest) :
    PlaceOk P g.owner (Function.update g.free sb (init ++ [tail] ++ g.free sb))
      (fun x => if x ∈ init ++ [tail] then some .free else g.place x) := by
  refine h.places.set (fun _ _ => h.bin) (h.bin hrun.owner) (fun c' hc' => ?_) (fun _ _ => rfl)
    (fun x hx => if_neg fun hin => hx (hrun.desc x hin))
    (fun sb' hne => Function.update_of_ne hne _ _) (fun x hx => ?_) (fun x tid' c' hx hpl => ?_)
    (fun x => ?_) ?_
  · rw [hrun.owner, Owner.small.injEq] at hc'
    exact hc'.symm
  · split
    · rename_i hin
      exact iff_of_true (by simp) ⟨hrun.owner, hrun.subset h x (List.mem_append_left _ hin)⟩
    · refine ⟨fun hne => ⟨hrun.owner, ?_⟩, fun hblock => h.place_of_mem hrun.owner hblock.2⟩
      obtain ⟨pl, hpl⟩ := Option.ne_none_iff_exists'.mp hne
      exact h.mem_blocksOf hrun.owner hpl hx
  · split at hpl
    · simp at hpl
    · rw [← hx]
      exact h.places.cached x tid' c' hpl
  · rw [Function.update_self, List.mem_append, h.places.mem]
    split
    · rename_i hin
      simp [hin, hrun.desc x hin]
    · rename_i hnot
      simp only [hnot, false_or]
  · rw [Function.update_self]
    exact hrun.nodup h

theorem Inv.giveBack (h : Inv P s live g) (hrun : CachedRun P g tid c sb init tail rest)
    {anchor : Anchor} {link' : Nat → Option Nat} (hlink : ∀ x, x ≠ tail → link' x = s.link x)
    (hanchor : AnchorOk P link' sb c anchor (init ++ [tail] ++ g.free sb))
    {d : Descriptor} (np : Option Nat)
    (hd : d = { s.descriptors sb with anchor := anchor, nextPartial := np })
    (head : StampedPtr) (l : List Nat)
    (hchain : Segment (fun sb' => (Function.update s.descriptors sb d sb').nextPartial) head.ptr l
      none) (hnodup : l.Nodup) (hother : ∀ sb', sb' ≠ sb → (sb' ∈ l ↔ sb' ∈ g.partials c))
    (hself : sb ∈ l) (hfull : anchor.state ≠ .sbFull) :
    Inv P { s with
        descriptors := Function.update s.descriptors sb d
        partialList := Function.update s.partialList c head
        link := link'
        caches := Function.update s.caches tid (Function.update (s.caches tid) c
          ⟨s.link tail, (s.caches tid c).blockNum - (1 + init.length)⟩) } live
      { g with
        partials := Function.update g.partials c l
        cached := setCached g.cached tid c rest
        free := Function.update g.free sb (init ++ [tail] ++ g.free sb)
        place := fun x => if x ∈ init ++ [tail] then some .free else g.place x } := by
  have hsmall := h.classes.small sb c hrun.owner
  have hclasses : ClassOk P (Function.update s.descriptors sb d)
      (Function.update s.partialList c head) link' g.owner (Function.update g.partials c l)
      (Function.update g.free sb (init ++ [tail] ++ g.free sb)) := by
    have hone : ∀ c', g.owner sb = .small c' → c' = c := by
      intro c' hc'
      rw [hrun.owner, Owner.small.injEq] at hc'
      exact hc'.symm
    refine h.classes.set hone hone (fun sb' hne => Function.update_of_ne hne _ _)
      (fun _ _ => rfl) (fun sb' hne => Function.update_of_ne hne _ _)
      (fun sb' _ x hx => hlink x (hrun.tail_ne h hx)) (fun _ => ?_) (fun c' hc' => ?_) hchain
      hnodup hother ?_
    · rw [Function.update_self, Function.update_self, hd]
      exact ⟨hsmall.bin, hsmall.superblock, hsmall.heap, hsmall.blockSize, hsmall.maxCount, hanchor⟩
    · rw [Function.update_self, hd] at hc'
      exact h.classes.heap sb c' hc'
    · rw [Function.update_self, hd]
      exact iff_of_true hself ⟨hrun.owner, hfull⟩
  have hcaches := h.cutCache (fun x => if x ∈ init ++ [tail] then some .free else g.place x)
    hrun.cached hlink (fun x hx tid' c' => by simp [hx]) fun x hx => if_neg hx
  obtain ⟨htail, hstack, hlive⟩ := h.change (Function.update s.descriptors sb d)
    (fun x => if x ∈ init ++ [tail] then some .free else g.place x) hrun.owner (.small c) (.small c)
    (fun sb' hne => Function.update_of_ne hne _ _)
    (fun x => hrun.place_iff h (by simp) (by simp)) (fun _ _ _ => rfl)
  rw [← hrun.owner, Function.update_eq_self] at htail hstack hlive
  exact ⟨htail, hstack, hclasses, hcaches, PlaceOk.giveBack h hrun, hlive⟩

theorem Inv.surrender (h : Inv P s live g) (hrun : CachedRun P g tid c sb init tail rest)
    (hfull : (s.descriptors sb).anchor.state = .sbFull)
    (hall : 1 + init.length = (getEntry c).blockNum)
    {link' : Nat → Option Nat} (hlink : ∀ x, x ≠ tail → link' x = s.link x) (anchor : Anchor) :
    Inv P { s with
        descriptors := Function.update s.descriptors sb { s.descriptors sb with anchor := anchor }
        link := link'
        caches := Function.update s.caches tid (Function.update (s.caches tid) c
          ⟨s.link tail, (s.caches tid c).blockNum - (1 + init.length)⟩) } live
      { g with
        owner := Function.update g.owner sb .held
        cached := setCached g.cached tid c rest
        place := fun x => if x ∈ init ++ [tail] then none else g.place x } := by
  have hsmall := h.classes.small sb c hrun.owner
  have hle := hrun.length_le h
  have hfree : g.free sb = [] := by
    simp only [List.length_append, List.length_singleton] at hle
    exact List.length_eq_zero_iff.mp (by omega)
  have hmem : ∀ x, x ∈ blocksOf P sb c → x ∈ init ++ [tail] := by
    intro x hx
    have hnodup := hrun.nodup h
    have hsub := hrun.subset h
    rw [hfree, List.append_nil] at hnodup hsub
    refine mem_of_all_blocks hnodup hsub ?_ hx
    rw [List.length_append, List.length_singleton]
    omega
  have hgone : ∀ x, lookupDesc P x = sb →
      (if x ∈ init ++ [tail] then none else g.place x) = none := by
    intro x hx
    split
    · rfl
    · rename_i hnot
      by_contra hne
      obtain ⟨pl, hpl⟩ := Option.ne_none_iff_exists'.mp hne
      exact hnot (hmem x (h.mem_blocksOf hrun.owner hpl hx))
  have hownerne : ∀ sb', sb' ≠ sb → Function.update g.owner sb .held sb' = g.owner sb' :=
    fun sb' hne => Function.update_of_ne hne _ _
  have hnot : sb ∉ g.partials c := fun hin => ((h.classes.mem c sb).mp hin).2 hfull
  have hclasses : ClassOk P
      (Function.update s.descriptors sb { s.descriptors sb with anchor := anchor })
      (Function.update s.partialList c (s.partialList c)) link'
      (Function.update g.owner sb .held) (Function.update g.partials c (g.partials c)) g.free := by
    refine h.classes.set (fun c' hc' => ?_) (by simp) (fun sb' hne => Function.update_of_ne hne _ _)
      hownerne (fun _ _ => rfl) (fun sb' _ x hx => hlink x (hrun.tail_ne h hx)) (by simp)
      (fun _ _ => Or.inr (Or.inr (Function.update_self ..))) ?_ (h.classes.nodup c)
      (fun _ _ => Iff.rfl) ?_
    · rw [hrun.owner, Owner.small.injEq] at hc'
      exact hc'.symm
    · refine (h.classes.chain c).congr fun sb' hsb' => ?_
      rw [Function.update_of_ne]
      rintro rfl
      exact hnot hsb'
    · simp [hnot]
  have hplaces : PlaceOk P (Function.update g.owner sb .held) g.free
      (fun x => if x ∈ init ++ [tail] then none else g.place x) := by
    refine h.places.set (fun _ _ => h.bin) hsmall.bin (by simp) hownerne
      (fun x hx => if_neg fun hin => hx (hrun.desc x hin)) (fun _ _ => rfl) (fun x hx => ?_)
      (fun x tid' c' hx hpl => ?_) (fun x => ?_) (h.places.nodup sb)
    · rw [hgone x hx]
      simp
    · rw [hgone x hx] at hpl
      simp at hpl
    · rw [hfree]
      refine iff_of_false (by simp) ?_
      rintro ⟨hpl, hdesc⟩
      rw [hgone x hdesc] at hpl
      simp at hpl
  have hcaches := h.cutCache (fun x => if x ∈ init ++ [tail] then none else g.place x)
    hrun.cached hlink (fun x hx tid' c' => by simp [hx]) fun x hx => if_neg hx
  obtain ⟨htail, hstack, hlive⟩ := h.change
    (Function.update s.descriptors sb { s.descriptors sb with anchor := anchor })
    (fun x => if x ∈ init ++ [tail] then none else g.place x) hrun.owner (.small c) .held
    (fun sb' hne => Function.update_of_ne hne _ _) (fun x => hrun.place_iff h (by simp) (by simp))
    (fun x hx hdesc => by
      have hin := hmem x (h.mem_blocksOf hrun.owner hx hdesc)
      rw [hrun.place h hin] at hx
      simp at hx)
  rw [Function.update_eq_self, Function.update_eq_self] at hclasses
  exact ⟨htail, hstack, hclasses, hcaches, hplaces, hlive⟩

end

/-! ## The loop -/

def returned (P : Pool) (s : LRMalloc) (tid c sb tail count : Nat) (anchor : Anchor) : LRMalloc :=
  { s with
    descriptors := Function.update s.descriptors sb { s.descriptors sb with anchor := anchor }
    link := Function.update s.link tail (some (blockAddress P sb c (s.descriptors sb).anchor.avail))
    caches := Function.update s.caches tid (Function.update (s.caches tid) c
      ⟨s.link tail, (s.caches tid c).blockNum - count⟩) }

theorem Inv.flushRun_eq {tid c : Nat} (h : Inv P s live g) (hnum : 0 < (s.caches tid c).blockNum) :
    ∃ sb idx init tail rest anchor, CachedRun P g tid c sb init tail rest ∧
      idx < (getEntry c).blockNum ∧
      Segment s.link (some (blockAddress P sb c idx)) (init ++ [tail]) (s.link tail) ∧
      anchor = flushAnchor (s.descriptors sb).anchor idx (1 + init.length) (getEntry c).blockNum ∧
      LRMalloc.flushRun P s tid c =
        if (s.descriptors sb).anchor.state = .sbFull then
          if anchor.state = .sbEmpty then
            retireSmallSb P (returned P s tid c sb tail (1 + init.length) anchor) (lookupSb P sb)
          else heapPushPartial (returned P s tid c sb tail (1 + init.length) anchor) sb
        else returned P s tid c sb tail (1 + init.length) anchor := by
  obtain ⟨head, others, stop, hblock, hcached, hrest⟩ := h.cached_head hnum
  have hplace : g.place head = some (.cached tid c) := by
    rw [← h.caches.mem, hcached]
    exact List.mem_cons_self
  have howner := h.places.cached head tid c hplace
  have hsmall := h.classes.small _ c howner
  obtain ⟨c', idx, howner', hidx, hhead⟩ := h.small hplace
  rw [howner, Owner.small.injEq] at howner'
  subst howner'
  obtain ⟨init, tail, rest, heq, hresult, hall⟩ := sameSuperblock_eq 1 hrest rfl
  have hlen : (s.caches tid c).blockNum - 1 = others.length := by
    rw [h.caches.blockNum, hcached, List.length_cons, Nat.add_sub_cancel]
  have hindex : (head - lookupSb P (lookupDesc P head)) % 2 ^ 32 / (getEntry c).blockSize = idx := by
    have hend := block_end_le hsmall.bin hidx
    have hsize := hsmall.bin.blockSize
    have hoffset : head - lookupSb P (lookupDesc P head) = idx * (getEntry c).blockSize := by
      rw [blockAddress] at hhead
      omega
    rw [kSuperBlockSize_eq] at hend
    rw [hoffset, Nat.mod_eq_of_lt (by omega), Nat.mul_div_cancel _ (by omega)]
  have hchain : Segment s.link (some head) (init ++ tail :: rest) stop := by
    rw [← heq]
    exact ⟨rfl, hrest⟩
  rw [List.append_cons, segment_append] at hchain
  obtain ⟨mid, hrun, -⟩ := hchain
  obtain ⟨-, -, -, hmid⟩ := segment_append.mp hrun
  obtain rfl : s.link tail = mid := hmid
  refine ⟨lookupDesc P head, idx, init, tail, rest, _, ⟨howner, hcached.trans heq, hall⟩, hidx,
    by rwa [← hhead], rfl, ?_⟩
  simp only [LRMalloc.flushRun, hblock, hsmall.superblock, Option.getD_some, hsmall.bin.sbSize,
    hlen, hresult, hindex, hsmall.maxCount, returned]
  rfl

theorem flushAnchor_ne_full (old : Anchor) (idx count maxCount : Nat) :
    (flushAnchor old idx count maxCount).state ≠ .sbFull := by
  unfold flushAnchor
  split
  · simp
  · simp only []
    split
    · simp
    · assumption

theorem Whole.set {g g' : Layout} (sb : Nat) (h : Whole g) {o : Owner} (ho : o ≠ .held)
    (ho' : o ≠ .lost) (hsb : g'.owner sb = o) (hother : ∀ sb', sb' ≠ sb → g'.owner sb' = g.owner sb') :
    Whole g' := by
  intro sb'
  by_cases heq : sb' = sb
  · rw [heq, hsb]
    exact ⟨ho, ho'⟩
  · rw [hother sb' heq]
    exact h sb'

theorem Inv.flushRun {tid c : Nat} (h : Inv P s live g) (hnum : 0 < (s.caches tid c).blockNum) :
    ∃ g', Inv P (LRMalloc.flushRun P s tid c) live g' ∧
      ((LRMalloc.flushRun P s tid c).caches tid c).blockNum < (s.caches tid c).blockNum ∧
      (Whole g → Whole g') := by
  obtain ⟨sb, idx, init, tail, rest, anchor, hrun, hidx, hchain, hdef, heq⟩ := h.flushRun_eq hnum
  have hsmall := h.classes.small sb c hrun.owner
  have hanchor := hsmall.anchor.flush hsmall.bin hchain rfl hidx (hrun.nodup h) (hrun.length_le h)
  rw [← hdef] at hanchor
  have hlink : ∀ x, x ≠ tail → Function.update s.link tail
      (some (blockAddress P sb c (s.descriptors sb).anchor.avail)) x = s.link x :=
    fun x hx => Function.update_of_ne hx _ _
  have hless : ((returned P s tid c sb tail (1 + init.length) anchor).caches tid c).blockNum <
      (s.caches tid c).blockNum := by
    simp only [returned, Function.update_self]
    omega
  have hnotfull : anchor.state ≠ .sbFull := hdef ▸ flushAnchor_ne_full _ _ _ _
  rw [heq]
  split
  · rename_i hfull
    split
    · rename_i hempty
      have hfree := hsmall.anchor.nil_of_full hfull
      have hall := hanchor.length_of_empty hempty
      rw [hfree, List.append_nil, List.length_append, List.length_singleton] at hall
      have hheld := h.surrender hrun hfull (by omega) hlink anchor
      rw [retireSmallSb_eq]
      have hone : ∀ sb', sb ≤ sb' → sb' < sb + (1 - 1 + 1) →
          Function.update g.owner sb .held sb' = .held := by
        intro sb' hle hlt
        obtain rfl : sb = sb' := by omega
        exact Function.update_self ..
      refine ⟨_, hheld.fill hone, ?_, fun hwhole => hwhole.set sb (o := .stack) (by simp) (by simp) ?_ ?_⟩
      · rw [fillSbList_eq]
        exact hless
      · exact reown_self.mpr (Or.inl ⟨Nat.le_refl _, by omega⟩)
      · intro sb' hne
        simp only [LRMalloc.reown]
        rw [if_neg (by omega), Function.update_of_ne hne]
    · have hnot : sb ∉ g.partials c := fun hin => ((h.classes.mem c sb).mp hin).2 hfull
      have hgive := h.giveBack hrun hlink hanchor (s.partialList c).ptr rfl
        ⟨some sb, (s.partialList c).stamp + 1⟩ (sb :: g.partials c)
        ⟨rfl, by
          simp only [Function.update_self]
          refine (h.classes.chain c).congr fun sb' hsb' => ?_
          rw [Function.update_of_ne]
          rintro rfl
          exact hnot hsb'⟩
        (List.nodup_cons.mpr ⟨hnot, h.classes.nodup c⟩) (fun sb' hne => by simp [hne])
        (List.mem_cons_self) hnotfull
      have hstate : heapPushPartial (returned P s tid c sb tail (1 + init.length) anchor) sb =
          { s with
            descriptors := Function.update s.descriptors sb { s.descriptors sb with
              anchor := anchor, nextPartial := (s.partialList c).ptr }
            partialList := Function.update s.partialList c
              ⟨some sb, (s.partialList c).stamp + 1⟩
            link := Function.update s.link tail
              (some (blockAddress P sb c (s.descriptors sb).anchor.avail))
            caches := Function.update s.caches tid (Function.update (s.caches tid) c
              ⟨s.link tail, (s.caches tid c).blockNum - (1 + init.length)⟩) } := by
        simp [heapPushPartial, returned, hsmall.heap]
      rw [hstate]
      exact ⟨_, hgive, hless, fun hwhole => hwhole⟩
  · rename_i hlisted
    have hin : sb ∈ g.partials c := (h.classes.mem c sb).mpr ⟨hrun.owner, hlisted⟩
    have hgive := h.giveBack hrun hlink hanchor (d := { s.descriptors sb with anchor := anchor })
      (s.descriptors sb).nextPartial rfl (s.partialList c) (g.partials c)
      ((h.classes.chain c).congr fun sb' _ => by
        by_cases heq : sb' = sb
        · rw [heq, Function.update_self]
        · rw [Function.update_of_ne heq])
      (h.classes.nodup c) (fun _ _ => Iff.rfl) hin hnotfull
    rw [Function.update_eq_self, Function.update_eq_self] at hgive
    exact ⟨_, hgive, hless, fun hwhole => hwhole⟩

theorem Inv.flushLoop {tid c : Nat} (rounds : Nat) (h : Inv P s live g)
    (hrounds : (s.caches tid c).blockNum ≤ rounds) :
    ∃ g', Inv P (LRMalloc.flushLoop P rounds s tid c) live g' ∧
      ((LRMalloc.flushLoop P rounds s tid c).caches tid c).blockNum = 0 ∧ (Whole g → Whole g') := by
  induction rounds generalizing s g with
  | zero => exact ⟨g, h, Nat.le_zero.mp hrounds, fun hwhole => hwhole⟩
  | succ rounds ih =>
      rw [LRMalloc.flushLoop]
      split
      · rename_i hnum
        obtain ⟨g', h', hless, hwhole'⟩ := h.flushRun hnum
        obtain ⟨g'', h'', hzero, hwhole''⟩ := ih h' (by omega)
        exact ⟨g'', h'', hzero, fun hwhole => hwhole'' (hwhole' hwhole)⟩
      · rename_i hnum
        exact ⟨g, h, by omega, fun hwhole => hwhole⟩

theorem Inv.flushCache (tid c : Nat) (h : Inv P s live g) :
    ∃ g', Inv P (LRMalloc.flushCache P s tid c) live g' ∧ (Whole g → Whole g') := by
  obtain ⟨g', h', -, hwhole⟩ := h.flushLoop _ (Nat.le_refl (s.caches tid c).blockNum)
  exact ⟨g', h', hwhole⟩

end Libcrpm.LRMalloc
