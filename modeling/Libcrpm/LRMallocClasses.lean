import Libcrpm.LRMallocBlocks

/-!
# The superblocks of a size class

A class gets a superblock, takes the free blocks of one, gets blocks back and gives a superblock
up.  Each step changes the descriptor of one superblock and the places of its blocks.
-/

namespace Libcrpm.LRMalloc

open Libcrpm.Memory SizeClass

variable {P : Pool} {s t : LRMalloc} {live : Live} {g : Layout}

/-! ## The blocks of a superblock -/

def blocksOf (P : Pool) (sb c : Nat) : List Nat :=
  (List.range (getEntry c).blockNum).map (blockAddress P sb c)

@[simp] theorem length_blocksOf (P : Pool) (sb c : Nat) :
    (blocksOf P sb c).length = (getEntry c).blockNum := by simp [blocksOf]

theorem mem_blocksOf {sb c x : Nat} :
    x ∈ blocksOf P sb c ↔ ∃ k, k < (getEntry c).blockNum ∧ x = blockAddress P sb c k := by
  simp [blocksOf, eq_comm]

theorem nodup_blocksOf {sb c : Nat} (hbin : Bin c) : (blocksOf P sb c).Nodup :=
  List.nodup_range.map fun _ _ heq => blockAddress_inj hbin heq

theorem lookupDesc_of_mem {sb c x : Nat} (hbin : Bin c) (h : x ∈ blocksOf P sb c) :
    lookupDesc P x = sb := by
  obtain ⟨k, hk, rfl⟩ := mem_blocksOf.mp h
  exact lookupDesc_blockAddress P sb hbin hk

theorem length_le_blockNum {sb c : Nat} {l : List Nat} (hnodup : l.Nodup)
    (hsub : ∀ x ∈ l, x ∈ blocksOf P sb c) : l.length ≤ (getEntry c).blockNum := by
  have hle := (List.subperm_of_subset hnodup hsub).length_le
  rwa [length_blocksOf] at hle

theorem mem_of_all_blocks {sb c : Nat} {l : List Nat} (hnodup : l.Nodup)
    (hsub : ∀ x ∈ l, x ∈ blocksOf P sb c) (hlen : l.length = (getEntry c).blockNum) {x : Nat}
    (hx : x ∈ blocksOf P sb c) : x ∈ l := by
  have hperm := (List.subperm_of_subset hnodup hsub).perm_of_length_le (by simp [hlen])
  exact hperm.mem_iff.mpr hx

theorem Inv.mem_blocksOf (h : Inv P s live g) {sb c x : Nat} {pl : Place}
    (hsb : g.owner sb = .small c) (hx : g.place x = some pl) (hdesc : lookupDesc P x = sb) :
    x ∈ blocksOf P sb c := by
  obtain ⟨c', k, howner, hk, hblock⟩ := h.small hx
  rw [hdesc, hsb] at howner
  obtain rfl : c = c' := by simpa using howner
  exact LRMalloc.mem_blocksOf.mpr ⟨k, hk, by rwa [hdesc] at hblock⟩

theorem Inv.place_of_mem (h : Inv P s live g) {sb c x : Nat} (hsb : g.owner sb = .small c)
    (hx : x ∈ blocksOf P sb c) : g.place x ≠ none := by
  obtain ⟨k, hk, rfl⟩ := LRMalloc.mem_blocksOf.mp hx
  exact (h.places.block _).mpr ⟨sb, c, k, hsb, hk, rfl⟩

/-! ## Changing one superblock -/

section

variable {ds ds' : Nat → Descriptor} {heads : Nat → StampedPtr}
  {link link' : Nat → Option Nat} {owner owner' : Nat → Owner}
  {partials free free' : Nat → List Nat} {place place' : Nat → Option Place}

theorem ClassOk.set (h : ClassOk P ds heads link owner partials free) {sb c : Nat}
    (hc : ∀ c', owner sb = .small c' → c' = c) (hc' : ∀ c', owner' sb = .small c' → c' = c)
    (hds : ∀ sb', sb' ≠ sb → ds' sb' = ds sb')
    (howner : ∀ sb', sb' ≠ sb → owner' sb' = owner sb')
    (hfree : ∀ sb', sb' ≠ sb → free' sb' = free sb')
    (hlink : ∀ sb', sb' ≠ sb → ∀ x ∈ free sb', link' x = link x)
    (hsmall : owner' sb = .small c → SmallOk P (ds' sb) link' sb c (free' sb))
    (hheap : ∀ c', (ds' sb).heap = some c' → c' = 0 ∨ owner' sb = .small c' ∨ owner' sb = .held)
    {head : StampedPtr} {l : List Nat}
    (hchain : Segment (fun sb => (ds' sb).nextPartial) head.ptr l none) (hnodup : l.Nodup)
    (hother : ∀ sb', sb' ≠ sb → (sb' ∈ l ↔ sb' ∈ partials c))
    (hself : sb ∈ l ↔ owner' sb = .small c ∧ (ds' sb).anchor.state ≠ .sbFull) :
    ClassOk P ds' (Function.update heads c head) link' owner' (Function.update partials c l)
      free' where
  small sb' c' hsb' := by
    by_cases heq : sb' = sb
    · subst heq
      obtain rfl := hc' c' hsb'
      exact hsmall hsb'
    · rw [hds sb' heq, hfree sb' heq]
      exact (h.small sb' c' (howner sb' heq ▸ hsb')).congr (hlink sb' heq)
  heap sb' c' hsb' := by
    by_cases heq : sb' = sb
    · subst heq
      exact hheap c' hsb'
    · rw [hds sb' heq] at hsb'
      rw [howner sb' heq]
      exact h.heap sb' c' hsb'
  chain c' := by
    by_cases heq : c' = c
    · subst heq
      simpa using hchain
    · rw [Function.update_of_ne heq, Function.update_of_ne heq]
      refine (h.chain c').congr fun sb' hsb' => ?_
      rw [hds sb']
      rintro rfl
      exact heq (hc c' ((h.mem c' sb').mp hsb').1)
  nodup c' := by
    by_cases heq : c' = c
    · subst heq
      simpa using hnodup
    · rw [Function.update_of_ne heq]
      exact h.nodup c'
  mem c' sb' := by
    by_cases hsb' : sb' = sb
    · subst hsb'
      by_cases heq : c' = c
      · subst heq
        simpa using hself
      · rw [Function.update_of_ne heq, h.mem]
        exact iff_of_false (fun hin => heq (hc c' hin.1)) fun hin => heq (hc' c' hin.1)
    · rw [hds sb' hsb', howner sb' hsb', ← h.mem]
      by_cases heq : c' = c
      · subst heq
        simpa using hother sb' hsb'
      · rw [Function.update_of_ne heq]

theorem PlaceOk.set (h : PlaceOk P owner free place) (hbin : ∀ sb c, owner sb = .small c → Bin c)
    {sb c : Nat} (hc : Bin c) (hc' : ∀ c', owner' sb = .small c' → c' = c)
    (howner : ∀ sb', sb' ≠ sb → owner' sb' = owner sb')
    (hplace : ∀ x, lookupDesc P x ≠ sb → place' x = place x)
    (hfree : ∀ sb', sb' ≠ sb → free' sb' = free sb')
    (hblock : ∀ x, lookupDesc P x = sb →
      (place' x ≠ none ↔ owner' sb = .small c ∧ x ∈ blocksOf P sb c))
    (hcached : ∀ x tid c', lookupDesc P x = sb → place' x = some (.cached tid c') →
      owner' sb = .small c')
    (hmem : ∀ x, x ∈ free' sb ↔ place' x = some .free ∧ lookupDesc P x = sb)
    (hnodup : (free' sb).Nodup) : PlaceOk P owner' free' place' where
  block x := by
    by_cases hx : lookupDesc P x = sb
    · rw [hblock x hx]
      constructor
      · rintro ⟨hsb, hin⟩
        obtain ⟨k, hk, rfl⟩ := mem_blocksOf.mp hin
        exact ⟨sb, c, k, hsb, hk, rfl⟩
      · rintro ⟨sb', c', k, hsb', hk, rfl⟩
        by_cases heq : sb' = sb
        · subst heq
          obtain rfl := hc' c' hsb'
          exact ⟨hsb', mem_blocksOf.mpr ⟨k, hk, rfl⟩⟩
        · rw [lookupDesc_blockAddress P sb' (hbin sb' c' (howner sb' heq ▸ hsb')) hk] at hx
          exact absurd hx heq
    · rw [hplace x hx, h.block]
      constructor
      · rintro ⟨sb', c', k, hsb', hk, rfl⟩
        rw [lookupDesc_blockAddress P sb' (hbin sb' c' hsb') hk] at hx
        exact ⟨sb', c', k, by rwa [howner sb' hx], hk, rfl⟩
      · rintro ⟨sb', c', k, hsb', hk, rfl⟩
        by_cases heq : sb' = sb
        · subst heq
          obtain rfl := hc' c' hsb'
          exact absurd (lookupDesc_blockAddress P sb' hc hk) hx
        · exact ⟨sb', c', k, howner sb' heq ▸ hsb', hk, rfl⟩
  cached x tid c' hx := by
    by_cases hdesc : lookupDesc P x = sb
    · rw [hdesc]
      exact hcached x tid c' hdesc hx
    · rw [howner _ hdesc]
      exact h.cached x tid c' (hplace x hdesc ▸ hx)
  mem sb' x := by
    by_cases heq : sb' = sb
    · subst heq
      exact hmem x
    · rw [hfree sb' heq, h.mem]
      refine and_congr_left fun hdesc => ?_
      rw [hplace x (hdesc ▸ heq)]
  nodup sb' := by
    by_cases heq : sb' = sb
    · subst heq
      exact hnodup
    · rw [hfree sb' heq]
      exact h.nodup sb'

end

/-- The owner of a superblock that belongs to a class or is about to. -/
inductive Owner.InClass : Owner → Prop
  | small (c : Nat) : InClass (.small c)
  | held : InClass .held

theorem update_owner_iff {owner : Nat → Owner} {sb sb' : Nat} {o v : Owner} (h : owner sb ≠ v)
    (ho : o ≠ v) : Function.update owner sb o sb' = v ↔ owner sb' = v := by
  rw [Function.update_apply]
  split
  · rename_i heq
    rw [heq]
    exact iff_of_false ho h
  · rfl

theorem Inv.change {sb : Nat} {w o : Owner} (h : Inv P s live g) (ds' : Nat → Descriptor)
    (place' : Nat → Option Place) (hw : g.owner sb = w) (hold : w.InClass) (hnew : o.InClass)
    (hds : ∀ sb', sb' ≠ sb → ds' sb' = s.descriptors sb')
    (hplace : ∀ x, place' x = some .live ↔ g.place x = some .live)
    (hlive : ∀ x, g.place x = some .live → lookupDesc P x = sb → o = w) :
    TailOk P s.bulkTail (Function.update g.owner sb o) ∧
      StackOk ds' s.availSb.ptr (Function.update g.owner sb o) g.stack ∧
      LiveOk P live ds' (Function.update g.owner sb o) place' := by
  subst hw
  have hsame : ∀ sb' v, ¬ v.InClass → (Function.update g.owner sb o sb' = v ↔ g.owner sb' = v) :=
    fun sb' v hv => update_owner_iff (fun heq => hv (heq ▸ hold)) fun heq => hv (heq ▸ hnew)
  have hdsne : ∀ sb' v, ¬ v.InClass → g.owner sb' = v → ds' sb' = s.descriptors sb' := by
    rintro sb' v hv rfl
    refine hds sb' ?_
    rintro rfl
    exact hv hold
  refine ⟨h.tail.congr (fun sb' => hsame sb' .unused nofun) fun sb' => hsame sb' .reserved nofun,
    ?_, ?_⟩
  · refine h.stack.congr (fun sb' hsb' => ?_) fun sb' => hsame sb' .stack nofun
    rw [hdsne sb' .stack nofun hsb']
  · refine h.live.set hplace (fun sb' hsb' => hdsne sb' (.large sb') nofun hsb')
      (fun x c hx hc => ?_) fun sb' q => hsame sb' (.large q) nofun
    by_cases heq : lookupDesc P x = sb
    · rw [heq, Function.update_self, hlive x hx heq, ← heq, hc]
    · rw [Function.update_of_ne heq, hc]

/-! ## A new superblock -/

theorem linkBlocks_of_ne {link : Nat → Option Nat} {a size idx x : Nat}
    (h : ∀ k < idx, x ≠ a + k * size) : linkBlocks link a size idx x = link x := by
  induction idx with
  | zero => rfl
  | succ idx ih =>
      rw [linkBlocks, Function.update_of_ne (h idx (by omega))]
      exact ih fun k hk => h k (by omega)

theorem linkBlocks_apply {link : Nat → Option Nat} {a size idx k : Nat} (hsize : 0 < size)
    (hk : k < idx) : linkBlocks link a size idx (a + k * size) = some (a + (k + 1) * size) := by
  induction idx with
  | zero => omega
  | succ idx ih =>
      rw [linkBlocks]
      by_cases heq : k = idx
      · rw [heq, Function.update_self]
      · have hne : a + k * size ≠ a + idx * size := by
          intro hsame
          exact heq (Nat.eq_of_mul_eq_mul_right hsize (Nat.add_left_cancel hsame))
        rw [Function.update_of_ne hne]
        exact ih (by omega)

theorem segment_map_range {next : Nat → Option Nat} {f : Nat → Nat} {n : Nat}
    (h : ∀ k, k + 1 < n → next (f k) = some (f (k + 1))) (hn : 0 < n) :
    Segment next (some (f 0)) ((List.range n).map f) (next (f (n - 1))) := by
  induction n with
  | zero => omega
  | succ n ih =>
      rw [List.range_succ, List.map_append, segment_append]
      cases n with
      | zero => exact ⟨some (f 0), rfl, rfl, rfl⟩
      | succ n =>
          have hlast := h n (by omega)
          exact ⟨_, ih (fun k hk => h k (by omega)) (by omega), hlast, rfl⟩

theorem Inv.newSb {sb c : Nat} (tid : Nat) (h : Inv P s live g) (hc : Bin c)
    (hheld : g.owner sb = .held) (hempty : g.cached tid c = []) {d : Descriptor}
    (hd : d = { Descriptor.new with
      heap := some c
      blockSize := (getEntry c).blockSize
      maxCount := (getEntry c).blockNum
      superblock := some (lookupSb P sb)
      anchor := ⟨bits31 (getEntry c).blockNum, 0, .sbFull⟩ }) :
    Inv P { s with
        descriptors := Function.update s.descriptors sb d
        link := linkBlocks s.link (lookupSb P sb) (getEntry c).blockSize ((getEntry c).blockNum - 1)
        caches := Function.update s.caches tid (Function.update (s.caches tid) c
          ⟨some (lookupSb P sb), (getEntry c).blockNum⟩) } live
      { g with
        owner := Function.update g.owner sb (.small c)
        cached := setCached g.cached tid c (blocksOf P sb c)
        place := fun x => if x ∈ blocksOf P sb c then some (.cached tid c) else g.place x } := by
  have hblockNum : bits31 (getEntry c).blockNum = (getEntry c).blockNum := by
    have hle := hc.blockNum_le
    exact Nat.mod_eq_of_lt (by omega)
  have hnone : ∀ x, lookupDesc P x = sb → g.place x = none := by
    intro x hx
    by_contra hne
    obtain ⟨pl, hpl⟩ := Option.ne_none_iff_exists'.mp hne
    obtain ⟨c', -, howner, -⟩ := h.small hpl
    rw [hx, hheld] at howner
    simp at howner
  have hout : ∀ x, x ∈ blocksOf P sb c → g.place x = none :=
    fun x hx => hnone x (lookupDesc_of_mem hc hx)
  have hlink : ∀ x, g.place x ≠ none → linkBlocks s.link (lookupSb P sb) (getEntry c).blockSize
      ((getEntry c).blockNum - 1) x = s.link x := by
    intro x hx
    refine linkBlocks_of_ne fun k hk heq => hx (hout x ?_)
    exact LRMalloc.mem_blocksOf.mpr ⟨k, by omega, heq⟩
  have hother : ∀ x pl, pl ≠ .cached tid c → ((if x ∈ blocksOf P sb c then
      some (Place.cached tid c) else g.place x) = some pl ↔ g.place x = some pl) := by
    intro x pl hpl
    split
    · rename_i hin
      rw [hout x hin]
      exact iff_of_false (fun heq => hpl (Option.some.inj heq).symm) (by simp)
    · rfl
  have hownerne : ∀ sb', sb' ≠ sb → Function.update g.owner sb (.small c) sb' = g.owner sb' :=
    fun sb' hne => Function.update_of_ne hne _ _
  have hclasses : ClassOk P (Function.update s.descriptors sb d)
      (Function.update s.partialList c (s.partialList c))
      (linkBlocks s.link (lookupSb P sb) (getEntry c).blockSize ((getEntry c).blockNum - 1))
      (Function.update g.owner sb (.small c)) (Function.update g.partials c (g.partials c))
      g.free := by
    have hnot : sb ∉ g.partials c := by
      rw [h.classes.mem, hheld]
      simp
    refine h.classes.set (by simp [hheld]) (by simp) (fun sb' hne => Function.update_of_ne hne _ _)
      hownerne (fun _ _ => rfl)
      (fun sb' _ x hx => hlink x (by simp [((h.places.mem sb' x).mp hx).1])) ?_ ?_ ?_
      (h.classes.nodup c) (fun _ _ => Iff.rfl) ?_
    · intro _
      have hfree : g.free sb = [] := by
        refine List.eq_nil_iff_forall_not_mem.mpr fun x hx => ?_
        obtain ⟨hfree, hdesc⟩ := (h.places.mem sb x).mp hx
        rw [hnone x hdesc] at hfree
        simp at hfree
      rw [Function.update_self, hfree, hd, hblockNum]
      exact ⟨hc, rfl, rfl, rfl, rfl, .full⟩
    · intro c' hc'
      rw [Function.update_self, hd] at hc'
      obtain rfl : c = c' := by simpa using hc'
      exact Or.inr (Or.inl (Function.update_self ..))
    · refine (h.classes.chain c).congr fun sb' hsb' => ?_
      rw [Function.update_of_ne]
      rintro rfl
      exact hnot hsb'
    · rw [Function.update_self, Function.update_self, hd]
      simp [hnot]
  have hcaches : CachesOk
      (linkBlocks s.link (lookupSb P sb) (getEntry c).blockSize ((getEntry c).blockNum - 1))
      (Function.update s.caches tid (Function.update (s.caches tid) c
        ⟨some (lookupSb P sb), (getEntry c).blockNum⟩))
      (setCached g.cached tid c (blocksOf P sb c))
      (fun x => if x ∈ blocksOf P sb c then some (.cached tid c) else g.place x) := by
    have hnum := hc.blockNum
    have hsize := hc.blockSize
    have hstep : ∀ k, k + 1 < (getEntry c).blockNum → linkBlocks s.link (lookupSb P sb)
        (getEntry c).blockSize ((getEntry c).blockNum - 1) (blockAddress P sb c k) =
        some (blockAddress P sb c (k + 1)) :=
      fun k hk => linkBlocks_apply (by omega) (by omega)
    have hchain := segment_map_range hstep (by omega)
    rw [blockAddress_zero] at hchain
    refine h.caches.set (fun tid' c' _ x hx => hlink x (by simp [(h.caches.mem tid' c' x).mp hx]))
      ⟨_, hchain⟩ (length_blocksOf P sb c).symm (nodup_blocksOf hc) (fun x => ?_)
      fun tid' c' x hne => hother x _ (by simpa using fun heq hc => hne ⟨heq, hc⟩)
    split
    · rename_i hin
      simp [hin]
    · rename_i hnot
      rw [← h.caches.mem, hempty]
      simp [hnot]
  have hplaces : PlaceOk P (Function.update g.owner sb (.small c)) g.free
      (fun x => if x ∈ blocksOf P sb c then some (.cached tid c) else g.place x) := by
    refine h.places.set (fun _ _ => h.bin) hc (by simp) hownerne (fun x hx => ?_)
      (fun _ _ => rfl) (fun x hx => ?_) (fun x tid' c' hx hpl => ?_) (fun x => ?_)
      (h.places.nodup sb)
    · exact if_neg fun hin => hx (lookupDesc_of_mem hc hin)
    · rw [Function.update_self]
      by_cases hin : x ∈ blocksOf P sb c
      · simp [hin]
      · simp [hin, hnone x hx]
    · rw [Function.update_self]
      split at hpl
      · simp only [Option.some.injEq, Place.cached.injEq] at hpl
        rw [hpl.2]
      · rw [hnone x hx] at hpl
        simp at hpl
    · rw [h.places.mem, hother x _ (by simp)]
  obtain ⟨htail, hstack, hlive⟩ := h.change _ _ hheld .held (.small c)
    (fun sb' hne => Function.update_of_ne hne d s.descriptors)
    (fun x => hother x .live (by simp))
    (fun x hx hdesc => by rw [hnone x hdesc] at hx; simp at hx)
  rw [Function.update_eq_self, Function.update_eq_self] at hclasses
  exact ⟨htail, hstack, hclasses, hcaches, hplaces, hlive⟩

/-! ## Partial superblocks -/

theorem AnchorOk.length_of_empty {link : Nat → Option Nat} {sb c : Nat} {anchor : Anchor}
    {free : List Nat} (h : AnchorOk P link sb c anchor free) (hstate : anchor.state = .sbEmpty) :
    free.length = (getEntry c).blockNum := by
  cases h with
  | full => simp at hstate
  | part => simp at hstate
  | empty _ hall => exact hall

theorem AnchorOk.of_partial {link : Nat → Option Nat} {sb c : Nat} {anchor : Anchor}
    {free : List Nat} (h : AnchorOk P link sb c anchor free) (hfull : anchor.state ≠ .sbFull)
    (hempty : anchor.state ≠ .sbEmpty) : anchor.count = free.length ∧ 0 < free.length ∧
      ∃ stop, Segment link (some (blockAddress P sb c anchor.avail)) free stop := by
  cases h with
  | full => simp at hfull
  | part hchain hpos _ => exact ⟨rfl, hpos, _, hchain⟩
  | empty => simp at hempty

theorem Inv.free_subset (h : Inv P s live g) {sb c : Nat} (hsb : g.owner sb = .small c) :
    ∀ x ∈ g.free sb, x ∈ blocksOf P sb c := by
  intro x hx
  obtain ⟨hplace, hdesc⟩ := (h.places.mem sb x).mp hx
  exact h.mem_blocksOf hsb hplace hdesc

theorem Inv.popEmpty {sb c : Nat} {rest : List Nat} (h : Inv P s live g)
    (hpartials : g.partials c = sb :: rest)
    (hstate : (s.descriptors sb).anchor.state = .sbEmpty) (stamp : BitVec 8) :
    Inv P { s with partialList :=
        Function.update s.partialList c ⟨(s.descriptors sb).nextPartial, stamp⟩ } live
      { g with
        owner := Function.update g.owner sb .held
        partials := Function.update g.partials c rest
        free := Function.update g.free sb []
        place := fun x => if x ∈ g.free sb then none else g.place x } := by
  have hsb : g.owner sb = .small c := ((h.classes.mem c sb).mp (by simp [hpartials])).1
  have hsmall := h.classes.small sb c hsb
  have hsub := h.free_subset hsb
  have hall : ∀ x, x ∈ blocksOf P sb c → x ∈ g.free sb := fun x hx =>
    mem_of_all_blocks (h.places.nodup sb) hsub (hsmall.anchor.length_of_empty hstate) hx
  have hother : ∀ x pl, pl ≠ .free → ((if x ∈ g.free sb then none else g.place x) = some pl ↔
      g.place x = some pl) := by
    intro x pl hpl
    split
    · rename_i hin
      rw [((h.places.mem sb x).mp hin).1]
      exact iff_of_false (by simp) fun heq => hpl (Option.some.inj heq).symm
    · rfl
  have hownerne : ∀ sb', sb' ≠ sb → Function.update g.owner sb .held sb' = g.owner sb' :=
    fun sb' hne => Function.update_of_ne hne _ _
  have hfreene : ∀ sb', sb' ≠ sb → Function.update g.free sb [] sb' = g.free sb' :=
    fun sb' hne => Function.update_of_ne hne _ _
  have hchain := h.classes.chain c
  have hnodup := h.classes.nodup c
  rw [hpartials, List.nodup_cons] at hnodup
  rw [hpartials] at hchain
  have hclasses : ClassOk P s.descriptors
      (Function.update s.partialList c ⟨(s.descriptors sb).nextPartial, stamp⟩) s.link
      (Function.update g.owner sb .held) (Function.update g.partials c rest)
      (Function.update g.free sb []) := by
    refine h.classes.set (by simp [hsb]) (by simp) (fun _ _ => rfl) hownerne hfreene
      (fun _ _ _ _ => rfl) (by simp) (fun _ _ => Or.inr (Or.inr (Function.update_self ..)))
      hchain.2 hnodup.2 (fun sb' hne => ?_) ?_
    · simp [hpartials, hne]
    · simp [hnodup.1]
  have hplaces : PlaceOk P (Function.update g.owner sb .held) (Function.update g.free sb [])
      (fun x => if x ∈ g.free sb then none else g.place x) := by
    refine h.places.set (fun _ _ => h.bin) hsmall.bin (by simp) hownerne (fun x hx => ?_) hfreene
      (fun x hx => ?_) (fun x tid' c' hx hpl => ?_) (fun x => ?_) (by simp)
    · exact if_neg fun hin => hx ((h.places.mem sb x).mp hin).2
    · rw [Function.update_self]
      refine iff_of_false (fun hne => ?_) (by simp)
      split at hne
      · exact hne rfl
      · rename_i hnot
        obtain ⟨pl, hpl⟩ := Option.ne_none_iff_exists'.mp hne
        exact hnot (hall x (h.mem_blocksOf hsb hpl hx))
    · rw [hother x _ (by simp)] at hpl
      have hin := hall x (h.mem_blocksOf hsb hpl hx)
      rw [((h.places.mem sb x).mp hin).1] at hpl
      simp at hpl
    · rw [Function.update_self]
      refine iff_of_false (by simp) ?_
      rintro ⟨hpl, hdesc⟩
      split at hpl
      · simp at hpl
      · rename_i hnot
        exact hnot ((h.places.mem sb x).mpr ⟨hpl, hdesc⟩)
  obtain ⟨htail, hstack, hlive⟩ := h.change s.descriptors _ hsb (.small c) .held
    (fun _ _ => rfl) (fun x => hother x .live (by simp))
    (fun x hx hdesc => by
      have hin := hall x (h.mem_blocksOf hsb hx hdesc)
      rw [((h.places.mem sb x).mp hin).1] at hx
      simp at hx)
  refine ⟨htail, hstack, hclasses, ?_, hplaces, hlive⟩
  exact ⟨h.caches.chain, h.caches.blockNum, h.caches.nodup,
    fun tid' c' x => (h.caches.mem tid' c' x).trans (hother x _ (by simp)).symm⟩

theorem Inv.takePartial {sb c tid : Nat} {rest : List Nat} (h : Inv P s live g)
    (hpartials : g.partials c = sb :: rest) (hempty : g.cached tid c = [])
    (hstate : (s.descriptors sb).anchor.state ≠ .sbEmpty) (stamp : BitVec 8) :
    0 < (s.descriptors sb).anchor.count ∧
    Inv P { s with
        partialList := Function.update s.partialList c ⟨(s.descriptors sb).nextPartial, stamp⟩
        descriptors := Function.update s.descriptors sb { s.descriptors sb with
          anchor := ⟨bits31 (s.descriptors sb).maxCount, 0, .sbFull⟩ }
        caches := Function.update s.caches tid (Function.update (s.caches tid) c
          ⟨some ((s.descriptors sb).superblock.getD 0 +
            (s.descriptors sb).anchor.avail * (s.descriptors sb).blockSize),
            (s.descriptors sb).anchor.count⟩) } live
      { g with
        partials := Function.update g.partials c rest
        cached := setCached g.cached tid c (g.free sb)
        free := Function.update g.free sb []
        place := fun x => if x ∈ g.free sb then some (.cached tid c) else g.place x } := by
  obtain ⟨hsb, hfull⟩ := (h.classes.mem c sb).mp (by simp [hpartials])
  have hsmall := h.classes.small sb c hsb
  have hchain := h.classes.chain c
  have hnodup := h.classes.nodup c
  rw [hpartials, List.nodup_cons] at hnodup
  rw [hpartials] at hchain
  obtain ⟨hcount, hpos, stop, hfree⟩ := hsmall.anchor.of_partial hfull hstate
  have hblockNum : bits31 (getEntry c).blockNum = (getEntry c).blockNum := by
    have hle := hsmall.bin.blockNum_le
    exact Nat.mod_eq_of_lt (by omega)
  have hother : ∀ x pl, pl ≠ .free → pl ≠ .cached tid c →
      ((if x ∈ g.free sb then some (Place.cached tid c) else g.place x) = some pl ↔
        g.place x = some pl) := by
    intro x pl hpl hpl'
    split
    · rename_i hin
      rw [((h.places.mem sb x).mp hin).1]
      exact iff_of_false (fun heq => hpl' (Option.some.inj heq).symm)
        fun heq => hpl (Option.some.inj heq).symm
    · rfl
  have hfreene : ∀ sb', sb' ≠ sb → Function.update g.free sb [] sb' = g.free sb' :=
    fun sb' hne => Function.update_of_ne hne _ _
  have hdsne : ∀ sb', sb' ≠ sb → Function.update s.descriptors sb { s.descriptors sb with
      anchor := ⟨bits31 (s.descriptors sb).maxCount, 0, .sbFull⟩ } sb' = s.descriptors sb' :=
    fun sb' hne => Function.update_of_ne hne _ _
  have hclasses : ClassOk P (Function.update s.descriptors sb { s.descriptors sb with
        anchor := ⟨bits31 (s.descriptors sb).maxCount, 0, .sbFull⟩ })
      (Function.update s.partialList c ⟨(s.descriptors sb).nextPartial, stamp⟩) s.link
      g.owner (Function.update g.partials c rest) (Function.update g.free sb []) := by
    refine h.classes.set (by simp [hsb]) (by simp [hsb]) hdsne (fun _ _ => rfl) hfreene
      (fun _ _ _ _ => rfl) (fun _ => ?_) (fun c' hc' => ?_) ?_ hnodup.2 (fun sb' hne => ?_) ?_
    · rw [Function.update_self, Function.update_self, hsmall.maxCount, hblockNum]
      exact ⟨hsmall.bin, hsmall.superblock, hsmall.heap, hsmall.blockSize, hsmall.maxCount, .full⟩
    · rw [Function.update_self] at hc'
      exact h.classes.heap sb c' hc'
    · refine hchain.2.congr fun sb' hsb' => ?_
      rw [hdsne sb']
      rintro rfl
      exact hnodup.1 hsb'
    · simp [hpartials, hne]
    · rw [Function.update_self]
      simp [hnodup.1]
  have hhead : some ((s.descriptors sb).superblock.getD 0 + (s.descriptors sb).anchor.avail *
      (s.descriptors sb).blockSize) = some (blockAddress P sb c (s.descriptors sb).anchor.avail) := by
    rw [hsmall.superblock, hsmall.blockSize]
    rfl
  have hcaches : CachesOk s.link (Function.update s.caches tid (Function.update (s.caches tid) c
      ⟨some ((s.descriptors sb).superblock.getD 0 + (s.descriptors sb).anchor.avail *
        (s.descriptors sb).blockSize), (s.descriptors sb).anchor.count⟩))
      (setCached g.cached tid c (g.free sb))
      (fun x => if x ∈ g.free sb then some (.cached tid c) else g.place x) := by
    rw [hhead]
    refine h.caches.set (fun _ _ _ _ _ => rfl) ⟨stop, hfree⟩ hcount (h.places.nodup sb) (fun x => ?_)
      fun tid' c' x hne => hother x _ (by simp) (by simpa using fun heq hc => hne ⟨heq, hc⟩)
    split
    · rename_i hin
      simp [hin]
    · rename_i hnot
      rw [← h.caches.mem, hempty]
      simp [hnot]
  have hplaces : PlaceOk P g.owner (Function.update g.free sb [])
      (fun x => if x ∈ g.free sb then some (.cached tid c) else g.place x) := by
    refine h.places.set (fun _ _ => h.bin) hsmall.bin (by simp [hsb]) (fun _ _ => rfl)
      (fun x hx => ?_) hfreene (fun x hx => ?_) (fun x tid' c' hx hpl => ?_) (fun x => ?_) (by simp)
    · exact if_neg fun hin => hx ((h.places.mem sb x).mp hin).2
    · by_cases hin : x ∈ g.free sb
      · simp [hin, hsb, h.free_subset hsb x hin]
      · rw [if_neg hin]
        constructor
        · intro hne
          obtain ⟨pl, hpl⟩ := Option.ne_none_iff_exists'.mp hne
          exact ⟨hsb, h.mem_blocksOf hsb hpl hx⟩
        · exact fun hblock => h.place_of_mem hsb hblock.2
    · split at hpl
      · simp only [Option.some.injEq, Place.cached.injEq] at hpl
        rw [hsb, hpl.2]
      · rw [← hx]
        exact h.places.cached x tid' c' hpl
    · rw [Function.update_self]
      refine iff_of_false (by simp) ?_
      rintro ⟨hpl, hdesc⟩
      split at hpl
      · simp at hpl
      · rename_i hnot
        exact hnot ((h.places.mem sb x).mpr ⟨hpl, hdesc⟩)
  obtain ⟨htail, hstack, hlive⟩ := h.change _ _ hsb (.small c) (.small c) hdsne
    (fun x => hother x .live (by simp) (by simp)) (fun _ _ _ => rfl)
  rw [← hsb, Function.update_eq_self] at htail hstack hlive
  exact ⟨hcount ▸ hpos, htail, hstack, hclasses, hcaches, hplaces, hlive⟩

end Libcrpm.LRMalloc
