import Libcrpm.LRMallocStack

/-!
# Blocks between caches, superblocks and the application
-/

namespace Libcrpm.LRMalloc

open Libcrpm.Memory SizeClass

variable {P : Pool} {s t : LRMalloc} {live : Live} {g : Layout}

/-! ## Where a block is -/

theorem PlaceOk.small {owner : Nat → Owner} {free : Nat → List Nat} {place : Nat → Option Place}
    (h : PlaceOk P owner free place) (hbin : ∀ sb c, owner sb = .small c → Bin c) {x : Nat}
    {pl : Place} (hx : place x = some pl) : ∃ c k, owner (lookupDesc P x) = .small c ∧
      k < (getEntry c).blockNum ∧ x = blockAddress P (lookupDesc P x) c k := by
  obtain ⟨sb, c, k, howner, hk, rfl⟩ := (h.block x).mp (by simp [hx])
  have hdesc := lookupDesc_blockAddress P sb (hbin sb c howner) hk
  exact ⟨c, k, by rw [hdesc, howner], hk, by rw [hdesc]⟩

theorem Inv.bin (h : Inv P s live g) {sb c : Nat} (hsb : g.owner sb = .small c) : Bin c :=
  (h.classes.small sb c hsb).bin

theorem Inv.small (h : Inv P s live g) {x : Nat} {pl : Place} (hx : g.place x = some pl) :
    ∃ c k, g.owner (lookupDesc P x) = .small c ∧ k < (getEntry c).blockNum ∧
      x = blockAddress P (lookupDesc P x) c k :=
  h.places.small (fun _ _ => h.bin) hx

theorem Inv.below (h : Inv P s live g) {sb : Nat} (hne : g.owner sb ≠ .unused) :
    lookupSb P (sb + 1) ≤ P.limit := by
  obtain ⟨n, htail, hunused⟩ := h.tail.unused
  have hlimit := h.tail.limit
  have hlt : sb < n := by
    by_contra hge
    exact hne ((hunused sb).mpr (by omega))
  exact (lookupSb_le P hlt).trans (htail ▸ hlimit)

theorem Inv.not_large (h : Inv P s live g) {x size : Nat} {pl : Place}
    (hx : g.place x = some pl) (hlive : live x = some size) : size ≤ kMaxSize := by
  by_contra hlt
  obtain ⟨c, k, howner, -, -⟩ := h.small hx
  obtain ⟨-, hok⟩ := h.live.large x size hlive (by omega)
  have hpos := nrSuperBlocks_pos (show kMaxSize < size by omega)
  have hlarge := hok.owner _ (Nat.le_refl _) (by omega)
  rw [howner] at hlarge
  simp at hlarge

theorem Inv.not_start (h : Inv P s live g) {x sb q : Nat} {pl : Place}
    (hx : g.place x = some pl) (hq : g.owner sb = .large q) : lookupSb P q ≠ x := by
  rintro rfl
  obtain ⟨size, hlive, hlt, -, -⟩ := h.live.owner sb q hq
  have hle := h.not_large hx hlive
  omega

theorem block_unique {sb c k k' a : Nat} (hle : blockAddress P sb c k ≤ a)
    (hlt : a < blockAddress P sb c k + (getEntry c).blockSize)
    (hle' : blockAddress P sb c k' ≤ a)
    (hlt' : a < blockAddress P sb c k' + (getEntry c).blockSize) : k = k' := by
  rw [blockAddress] at hle hlt hle' hlt'
  rcases Nat.lt_trichotomy k k' with hless | heq | hmore
  · have hmul := Nat.mul_le_mul_right (getEntry c).blockSize hless
    rw [Nat.succ_mul] at hmul
    omega
  · exact heq
  · have hmul := Nat.mul_le_mul_right (getEntry c).blockSize hmore
    rw [Nat.succ_mul] at hmul
    omega

theorem Inv.live_small (h : Inv P s live g) {p size : Nat} (hp : live p = some size)
    (hsize : size ≤ kMaxSize) : ∃ k, g.owner (lookupDesc P p) = .small (lookup size) ∧
      k < (getEntry (lookup size)).blockNum ∧
      p = blockAddress P (lookupDesc P p) (lookup size) k ∧
      ∀ a, p ≤ a → a < p + (getEntry (lookup size)).blockSize → lookupDesc P a = lookupDesc P p := by
  have hlive := (h.live.place p).mpr ⟨size, hp, hsize⟩
  have hclass := h.live.small p size hp hsize
  obtain ⟨c, k, howner, hk, hblock⟩ := h.small hlive
  obtain rfl : c = lookup size := by
    rw [howner] at hclass
    simpa using hclass
  refine ⟨k, hclass, hk, hblock, fun a hle hlt => ?_⟩
  have hend := block_end_le (h.bin howner) hk
  rw [blockAddress] at hblock
  have hoffset : a = lookupSb P (lookupDesc P p) + (a - lookupSb P (lookupDesc P p)) := by omega
  rw [hoffset]
  exact lookupDesc_add P _ (by omega)

theorem Inv.live_large (h : Inv P s live g) {p size a : Nat} (hp : live p = some size)
    (hsize : kMaxSize < size) (hle : p ≤ a) (hlt : a < p + size) :
    g.owner (lookupDesc P a) = .large (lookupDesc P p) := by
  obtain ⟨hstart, hok⟩ := h.live.large p size hp hsize
  have hround := le_roundUp size (b := kSuperBlockSize) (by decide)
  have hmul := nrSuperBlocks_mul size
  have hdesc : lookupDesc P a = (a - P.firstSb) / 65536 := by
    rw [lookupDesc, Nat.shiftRight_eq_div_pow]
    rfl
  rw [lookupSb_eq] at hstart
  rw [kSuperBlockSize_eq] at hround hmul
  exact hok.owner (lookupDesc P a) (by rw [hdesc]; omega) (by rw [hdesc]; omega)

theorem Inv.store_place (h : Inv P s live g) {p size a : Nat} (hp : live p = some size)
    (hle : p ≤ a) (hlt : a < p + size) : g.place a = none ∨ g.place a = some .live := by
  cases hplace : g.place a with
  | none => exact Or.inl rfl
  | some pl =>
      refine Or.inr ?_
      obtain ⟨c, k, howner, hk, hblock⟩ := h.small hplace
      by_cases hsize : size ≤ kMaxSize
      · -- Both are blocks of one superblock, and the store stays inside of the block at `p`.
        obtain ⟨k', howner', hk', hblock', hdesc⟩ := h.live_small hp hsize
        have hbound := le_blockSize_lookup hsize
        have hsame := hdesc a hle (by omega)
        rw [hsame, howner'] at howner
        obtain rfl : lookup size = c := by simpa using howner
        have hpos := (h.bin howner').blockSize
        rw [hsame] at hblock
        have hkk : k = k' := block_unique (P := P) (a := a) (Nat.le_of_eq hblock.symm) (by omega)
          (by omega) (by omega)
        have hap : a = p := by rw [hblock, hkk, ← hblock']
        rw [← hplace, hap]
        exact (h.live.place p).mpr ⟨size, hp, hsize⟩
      · have hlarge := h.live_large hp (show kMaxSize < size by omega) hle hlt
        rw [howner] at hlarge
        simp at hlarge

/-! ## Caches -/

theorem update_eq_some_iff {x : Nat} {f : Nat → Option Place} {v : Place} (y : Nat) (pl : Place)
    (h : pl ≠ v) : Function.update f x (some v) y = some pl ↔ f y = some pl ∧ y ≠ x := by
  rw [Function.update_apply]
  split
  · rename_i heq
    simp [heq, h.symm]
  · rename_i hne
    simp [hne]

theorem update_ne_none_iff {x : Nat} {f : Nat → Option Place} {v v' : Place} (h : f x = some v')
    (y : Nat) : Function.update f x (some v) y ≠ none ↔ f y ≠ none := by
  rw [Function.update_apply]
  split
  · rename_i heq
    simp [heq, h]
  · rfl

section

variable {link link' : Nat → Option Nat} {caches : Nat → Nat → TCacheBin}
  {cached : Nat → Nat → List Nat} {place place' : Nat → Option Place}

def setCached (cached : Nat → Nat → List Nat) (tid c : Nat) (l : List Nat) : Nat → Nat → List Nat :=
  Function.update cached tid (Function.update (cached tid) c l)

theorem update_bin_of_ne {α : Type} (f : Nat → Nat → α) {tid c tid' c' : Nat} (v : α)
    (h : ¬ (tid' = tid ∧ c' = c)) :
    Function.update f tid (Function.update (f tid) c v) tid' c' = f tid' c' := by
  by_cases htid : tid' = tid
  · subst htid
    rw [Function.update_self, Function.update_of_ne fun hc => h ⟨rfl, hc⟩]
  · rw [Function.update_of_ne htid]

theorem CachesOk.set (h : CachesOk link caches cached place) {tid c : Nat} {bin : TCacheBin}
    {l : List Nat} (hlink : ∀ tid' c', ¬ (tid' = tid ∧ c' = c) → ∀ x ∈ cached tid' c',
      link' x = link x)
    (hchain : ∃ stop, Segment link' bin.block l stop) (hnum : bin.blockNum = l.length)
    (hnodup : l.Nodup) (hmem : ∀ x, x ∈ l ↔ place' x = some (.cached tid c))
    (hother : ∀ tid' c' x, ¬ (tid' = tid ∧ c' = c) →
      (place' x = some (.cached tid' c') ↔ place x = some (.cached tid' c'))) :
    CachesOk link' (Function.update caches tid (Function.update (caches tid) c bin))
      (setCached cached tid c l) place' := by
  have hcases : ∀ (Q : TCacheBin → List Nat → Nat → Nat → Prop), Q bin l tid c →
      (∀ tid' c', ¬ (tid' = tid ∧ c' = c) → Q (caches tid' c') (cached tid' c') tid' c') →
      ∀ tid' c', Q (Function.update caches tid (Function.update (caches tid) c bin) tid' c')
        (setCached cached tid c l tid' c') tid' c' := by
    intro Q hthis hrest tid' c'
    by_cases heq : tid' = tid ∧ c' = c
    · obtain ⟨rfl, rfl⟩ := heq
      simpa [setCached] using hthis
    · rw [setCached, update_bin_of_ne _ _ heq, update_bin_of_ne _ _ heq]
      exact hrest tid' c' heq
  refine ⟨hcases (fun bin l _ _ => ∃ stop, Segment link' bin.block l stop) hchain ?_,
    hcases (fun bin l _ _ => bin.blockNum = l.length) hnum fun tid' c' _ => h.blockNum tid' c',
    hcases (fun _ l _ _ => l.Nodup) hnodup fun tid' c' _ => h.nodup tid' c',
    hcases (fun _ l tid c => ∀ x, x ∈ l ↔ place' x = some (.cached tid c)) hmem ?_⟩
  · intro tid' c' hne
    obtain ⟨stop, hold⟩ := h.chain tid' c'
    exact ⟨stop, hold.congr (hlink tid' c' hne)⟩
  · intro tid' c' hne x
    rw [h.mem, hother tid' c' x hne]

end

/-! ## Calls that the cache serves -/

theorem Inv.cached_head (h : Inv P s live g) {tid c : Nat}
    (hnum : 0 < (s.caches tid c).blockNum) : ∃ x rest stop, (s.caches tid c).block = some x ∧
      g.cached tid c = x :: rest ∧ Segment s.link (s.link x) rest stop := by
  obtain ⟨stop, hchain⟩ := h.caches.chain tid c
  rw [h.caches.blockNum] at hnum
  cases hl : g.cached tid c with
  | nil =>
      rw [hl] at hnum
      simp at hnum
  | cons x rest =>
      rw [hl] at hchain
      exact ⟨x, rest, stop, hchain.1, rfl, hchain.2⟩

theorem Inv.popBlock (h : Inv P s live g) {tid size : Nat} (hsize : size ≤ kMaxSize)
    (hnum : 0 < (s.caches tid (lookup size)).blockNum) : ∃ x g',
      LRMalloc.popBlock s tid (lookup size) = (some x,
        s.setBin tid (lookup size) ⟨s.link x, (s.caches tid (lookup size)).blockNum - 1⟩) ∧
      live x = none ∧ g'.owner = g.owner ∧
      Inv P (s.setBin tid (lookup size) ⟨s.link x, (s.caches tid (lookup size)).blockNum - 1⟩)
        (Function.update live x (some size)) g' := by
  obtain ⟨x, rest, stop, hblock, hcached, hrest⟩ := h.cached_head hnum
  have hplace : g.place x = some (.cached tid (lookup size)) :=
    (h.caches.mem _ _ x).mp (by simp [hcached])
  have howner := h.places.cached x tid _ hplace
  have hfree : live x = none := by
    by_contra hne
    obtain ⟨size', hlive⟩ := Option.ne_none_iff_exists'.mp hne
    have hle := h.not_large hplace hlive
    rw [(h.live.place x).mpr ⟨size', hlive, hle⟩] at hplace
    simp at hplace
  have hnodup := h.caches.nodup tid (lookup size)
  rw [hcached, List.nodup_cons] at hnodup
  have hother := update_eq_some_iff (x := x) (f := g.place) (v := Place.live)
  refine ⟨x, { g with
    cached := setCached g.cached tid (lookup size) rest
    place := Function.update g.place x (some .live) }, ?_, hfree, rfl, ?_⟩
  · simp only [LRMalloc.popBlock, hblock]
  refine ⟨h.tail, h.stack, h.classes, ?_, ?_, ?_⟩
  · refine h.caches.set (fun _ _ _ _ _ => rfl) ⟨stop, hrest⟩ ?_ hnodup.2 ?_ ?_
    · simp [h.caches.blockNum, hcached]
    · intro y
      have hmem := h.caches.mem tid (lookup size) y
      rw [hcached, List.mem_cons] at hmem
      rw [hother y _ (by simp), ← hmem]
      constructor
      · exact fun hin => ⟨Or.inr hin, fun heq => hnodup.1 (heq ▸ hin)⟩
      · exact fun hin => hin.1.resolve_left hin.2
    · intro tid' c' y hne
      rw [hother y _ (by simp)]
      refine ⟨fun hy => hy.1, fun hy => ⟨hy, ?_⟩⟩
      rintro rfl
      rw [hplace] at hy
      simp only [Option.some.injEq, Place.cached.injEq] at hy
      exact hne ⟨hy.1.symm, hy.2.symm⟩
  · refine ⟨fun y => ?_, fun y tid' c' hy => ?_, fun sb y => ?_, h.places.nodup⟩
    · rw [← h.places.block]
      exact update_ne_none_iff hplace y
    · exact h.places.cached y tid' c' ((hother y _ (by simp)).mp hy).1
    · rw [h.places.mem, hother y _ (by simp)]
      refine and_congr_left fun _ => ⟨fun hy => ⟨hy, ?_⟩, fun hy => hy.1⟩
      rintro rfl
      rw [hplace] at hy
      simp at hy
  · refine ⟨fun y => ?_, fun y size' hy hle => ?_, fun p size' hp hlt => ?_, fun sb q hsb => ?_⟩
    · simp only [Function.update_apply]
      split
      · simp [hsize]
      · exact h.live.place y
    · rw [Function.update_apply] at hy
      split at hy
      · rename_i heq
        obtain rfl := Option.some.inj hy
        rw [heq, howner]
      · exact h.live.small y size' hy hle
    · rw [Function.update_apply] at hp
      split at hp
      · obtain rfl := Option.some.inj hp
        omega
      · exact h.live.large p size' hp hlt
    · obtain ⟨size', hlive, hrest⟩ := h.live.owner sb q hsb
      refine ⟨size', ?_, hrest⟩
      rwa [Function.update_of_ne (h.not_start hplace hsb)]

theorem Inv.pushBlock (h : Inv P s live g) {x size : Nat} (tid : Nat) (hx : live x = some size)
    (hsize : size ≤ kMaxSize) : ∃ g', g'.owner = g.owner ∧
      Inv P (LRMalloc.pushBlock s tid (lookup size) x) (Function.update live x none) g' := by
  have hplace : g.place x = some .live := (h.live.place x).mpr ⟨size, hx, hsize⟩
  have hnot : ∀ tid' c', x ∉ g.cached tid' c' := by
    intro tid' c' hin
    rw [h.caches.mem, hplace] at hin
    simp at hin
  have hother := update_eq_some_iff (x := x) (f := g.place) (v := Place.cached tid (lookup size))
  have hlink : ∀ y, y ≠ x → Function.update s.link x (s.caches tid (lookup size)).block y =
      s.link y := fun y hne => Function.update_of_ne hne _ _
  refine ⟨{ g with
    cached := setCached g.cached tid (lookup size) (x :: g.cached tid (lookup size))
    place := Function.update g.place x (some (.cached tid (lookup size))) }, rfl, h.tail, h.stack,
    ?_, ?_, ?_, ?_⟩
  · refine h.classes.congr (fun _ _ _ => rfl) h.classes.heap (fun sb y hy => hlink y ?_)
      fun _ _ => Iff.rfl
    rintro rfl
    rw [h.places.mem, hplace] at hy
    simp at hy
  · obtain ⟨stop, hchain⟩ := h.caches.chain tid (lookup size)
    refine h.caches.set (fun tid' c' _ y hy => hlink y fun heq => hnot tid' c' (heq ▸ hy))
      ⟨stop, hchain.push (hnot tid (lookup size))⟩ ?_
      (List.nodup_cons.mpr ⟨hnot _ _, h.caches.nodup _ _⟩) ?_ ?_
    · rw [List.length_cons, ← h.caches.blockNum]
    · intro y
      simp only [List.mem_cons, h.caches.mem, Function.update_apply]
      split
      · rename_i heq
        simp [heq]
      · rename_i hne
        simp [hne]
    · intro tid' c' y hne
      rw [hother y _ (by simpa using fun heq hc => hne ⟨heq, hc⟩)]
      refine ⟨fun hy => hy.1, fun hy => ⟨hy, ?_⟩⟩
      rintro rfl
      rw [hplace] at hy
      simp at hy
  · refine ⟨fun y => ?_, fun y tid' c' hy => ?_, fun sb y => ?_, h.places.nodup⟩
    · rw [← h.places.block]
      exact update_ne_none_iff hplace y
    · simp only [Function.update_apply] at hy
      split at hy
      · rename_i heq
        simp only [Option.some.injEq, Place.cached.injEq] at hy
        rw [heq, ← hy.2]
        exact h.live.small x size hx hsize
      · exact h.places.cached y tid' c' hy
    · rw [h.places.mem, hother y _ (by simp)]
      refine and_congr_left fun _ => ⟨fun hy => ⟨hy, ?_⟩, fun hy => hy.1⟩
      rintro rfl
      rw [hplace] at hy
      simp at hy
  · refine ⟨fun y => ?_, fun y size' hy hle => ?_, fun p size' hp hlt => ?_, fun sb q hsb => ?_⟩
    · rw [hother y _ (by simp), Function.update_apply, h.live.place]
      split
      · rename_i heq
        simp [heq]
      · rename_i hne
        simp [hne]
    · rw [Function.update_apply] at hy
      split at hy
      · simp at hy
      · exact h.live.small y size' hy hle
    · rw [Function.update_apply] at hp
      split at hp
      · simp at hp
      · exact h.live.large p size' hp hlt
    · obtain ⟨size', hlive, hrest⟩ := h.live.owner sb q hsb
      refine ⟨size', ?_, hrest⟩
      rwa [Function.update_of_ne (h.not_start hplace hsb)]

theorem Inv.store (h : Inv P s live g) {p size a : Nat} (hp : live p = some size)
    (hle : p ≤ a) (hlt : a < p + size) (v : Option Nat) : Inv P (s.setLink a v) live g := by
  have hplace := h.store_place hp hle hlt
  have hlink : ∀ y pl, pl ≠ .live → g.place y = some pl → Function.update s.link a v y = s.link y := by
    intro y pl hpl hy
    refine Function.update_of_ne ?_ _ _
    rintro rfl
    rcases hplace with hnone | hlive
    · rw [hnone] at hy
      simp at hy
    · rw [hlive, Option.some.injEq] at hy
      exact hpl hy.symm
  refine ⟨h.tail, h.stack, ?_, ?_, h.places, h.live⟩
  · exact h.classes.congr (fun _ _ _ => rfl) h.classes.heap
      (fun sb y hy => hlink y .free (by simp) ((h.places.mem sb y).mp hy).1) fun _ _ => Iff.rfl
  · exact h.caches.congr fun tid c y hy => hlink y (.cached tid c) (by simp)
      ((h.caches.mem tid c y).mp hy)

end Libcrpm.LRMalloc
