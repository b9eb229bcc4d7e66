import Libcrpm.LRMallocFlush

/-!
# Large allocations

A large allocation takes neighbouring superblocks.  Its descriptor keeps the rounded size in 32
bits, and this decides how many of the superblocks come back.
-/

namespace Libcrpm.LRMalloc

open Libcrpm.Memory SizeClass

variable {P : Pool} {s t : LRMalloc} {live : Live} {g : Layout}

theorem reown_of_not {owner : Nat → Owner} {start count sb : Nat} {o : Owner}
    (h : ¬ (start ≤ sb ∧ sb < start + count)) : reown owner start count o sb = owner sb := if_neg h

theorem reown_of_mem {owner : Nat → Owner} {start count sb : Nat} {o : Owner} (hle : start ≤ sb)
    (hlt : sb < start + count) : reown owner start count o sb = o := if_pos ⟨hle, hlt⟩

theorem Inv.not_live (h : Inv P s live g) {q : Nat} (hq : g.owner q = .held) :
    live (lookupSb P q) = none := by
  by_contra hne
  obtain ⟨size, hlive⟩ := Option.ne_none_iff_exists'.mp hne
  by_cases hsize : size ≤ kMaxSize
  · have howner := h.live.small _ size hlive hsize
    rw [lookupDesc_lookupSb, hq] at howner
    simp at howner
  · obtain ⟨-, hok⟩ := h.live.large _ size hlive (by omega)
    have hpos := nrSuperBlocks_pos (show kMaxSize < size by omega)
    have howner := hok.owner _ (Nat.le_refl _) (by omega)
    rw [lookupDesc_lookupSb, hq] at howner
    simp at howner

theorem Inv.no_block (h : Inv P s live g) {q : Nat} (hq : ∀ c, g.owner q ≠ .small c) :
    g.place (lookupSb P q) = none := by
  by_contra hne
  obtain ⟨pl, hpl⟩ := Option.ne_none_iff_exists'.mp hne
  obtain ⟨c, -, howner, -⟩ := h.small hpl
  rw [lookupDesc_lookupSb] at howner
  exact hq c howner

theorem Inv.large_start (h : Inv P s live g) {p size : Nat} (hp : live p = some size)
    (hsize : kMaxSize < size) : g.owner (lookupDesc P p) = .large (lookupDesc P p) := by
  obtain ⟨-, hok⟩ := h.live.large p size hp hsize
  have hpos := nrSuperBlocks_pos hsize
  exact hok.owner _ (Nat.le_refl _) (by omega)

theorem Inv.allocLarge {q size : Nat} (h : Inv P s live g) (hsize : kMaxSize < size)
    (hheld : ∀ sb, q ≤ sb → sb < q + nrSuperBlocks size → g.owner sb = .held)
    (hclean : ∀ sb c, q ≤ sb → sb < q + nrSuperBlocks size →
      (s.descriptors sb).heap = some c → c = 0) {d : Descriptor}
    (hsuperblock : d.superblock = some (lookupSb P q)) (hheap : d.heap = some 0)
    (hblockSize : d.blockSize = roundUp size kSuperBlockSize % 2 ^ 32) :
    Inv P (s.setDescriptor q d) (Function.update live (lookupSb P q) (some size)) { g with
      owner := LRMalloc.reown g.owner q (nrSuperBlocks size) (.large q) } := by
  have hpos := nrSuperBlocks_pos hsize
  have hq := hheld q (Nat.le_refl _) (by omega)
  have hblock := h.no_block (q := q) (by simp [hq])
  have hsame : ∀ sb v, v ≠ .held → v ≠ .large q →
      (LRMalloc.reown g.owner q (nrSuperBlocks size) (.large q) sb = v ↔ g.owner sb = v) :=
    fun sb v hv hv' => reown_eq_iff hheld hv.symm hv'.symm
  have hds : ∀ sb, g.owner sb ≠ .held → Function.update s.descriptors q d sb = s.descriptors sb := by
    intro sb hsb
    refine Function.update_of_ne ?_ _ _
    rintro rfl
    exact hsb hq
  have hclasses : ClassOk P (Function.update s.descriptors q d) s.partialList s.link
      (LRMalloc.reown g.owner q (nrSuperBlocks size) (.large q)) g.partials g.free := by
    refine h.classes.congr (fun sb c hsb => hds sb (by simp [hsb])) (fun sb c hc => ?_)
      (fun _ _ _ => rfl) fun sb c => hsame sb (.small c) nofun nofun
    by_cases heq : sb = q
    · rw [heq, Function.update_self, hheap, Option.some.injEq] at hc
      exact Or.inl hc.symm
    · rw [Function.update_of_ne heq] at hc
      by_cases hin : q ≤ sb ∧ sb < q + nrSuperBlocks size
      · exact Or.inl (hclean sb c hin.1 hin.2 hc)
      · rw [reown_of_not hin]
        exact h.classes.heap sb c hc
  have hlive : LiveOk P (Function.update live (lookupSb P q) (some size))
      (Function.update s.descriptors q d)
      (LRMalloc.reown g.owner q (nrSuperBlocks size) (.large q)) g.place := by
    refine ⟨fun x => ?_, fun x size' hx hle => ?_, fun p size' hp hlt => ?_, fun sb q' hsb => ?_⟩
    · by_cases heq : x = lookupSb P q
      · rw [heq, hblock, Function.update_self]
        refine iff_of_false (by simp) ?_
        rintro ⟨size', hsome, hle⟩
        obtain rfl := Option.some.inj hsome
        omega
      · rw [Function.update_of_ne heq]
        exact h.live.place x
    · by_cases heq : x = lookupSb P q
      · rw [heq, Function.update_self, Option.some.injEq] at hx
        omega
      · rw [Function.update_of_ne heq] at hx
        exact (hsame _ (.small _) nofun nofun).mpr (h.live.small x size' hx hle)
    · by_cases heq : p = lookupSb P q
      · rw [heq, Function.update_self, Option.some.injEq] at hp
        subst hp
        rw [heq, lookupDesc_lookupSb, Function.update_self]
        exact ⟨rfl, hsuperblock, hheap, hblockSize, fun sb hle hlt => reown_of_mem hle hlt⟩
      · rw [Function.update_of_ne heq] at hp
        obtain ⟨hstart, hok⟩ := h.live.large p size' hp hlt
        have howner := h.large_start hp hlt
        have hne : lookupDesc P p ≠ q := by
          rintro hpq
          rw [hpq, hq] at howner
          simp at howner
        refine ⟨hstart, ?_⟩
        rw [Function.update_of_ne hne]
        exact ⟨hok.superblock, hok.heap, hok.blockSize, fun sb hle hlt =>
          (hsame sb (.large _) nofun (by simpa using hne)).mpr (hok.owner sb hle hlt)⟩
    · by_cases hin : q ≤ sb ∧ sb < q + nrSuperBlocks size
      · rw [reown_of_mem hin.1 hin.2, Owner.large.injEq] at hsb
        subst hsb
        exact ⟨size, Function.update_self .., hsize, hin⟩
      · rw [reown_of_not hin] at hsb
        obtain ⟨size', hold, hlt, hrest⟩ := h.live.owner sb q' hsb
        refine ⟨size', ?_, hlt, hrest⟩
        rw [Function.update_of_ne, hold]
        intro heq
        obtain rfl := lookupSb_inj heq
        have hnone := h.not_live hq
        rw [hnone] at hold
        simp at hold
  exact ⟨h.tail.congr (fun sb => hsame sb .unused nofun nofun)
      fun sb => hsame sb .reserved nofun nofun,
    h.stack.congr (fun sb hsb => congrArg Descriptor.nextFree (hds sb (by simp [hsb])))
      fun sb => hsame sb .stack nofun nofun,
    hclasses, h.caches, h.places.congr fun sb c => hsame sb (.small c) nofun nofun, hlive⟩

theorem Inv.dropLarge {p size : Nat} (h : Inv P s live g) (hp : live p = some size)
    (hsize : kMaxSize < size) :
    Inv P s (Function.update live p none) { g with
      owner := LRMalloc.reown g.owner (lookupDesc P p) (nrSuperBlocks size) .lost } := by
  obtain ⟨hstart, hok⟩ := h.live.large p size hp hsize
  have hlarge := hok.owner
  have hsame : ∀ sb v, v ≠ .lost → v ≠ .large (lookupDesc P p) →
      (LRMalloc.reown g.owner (lookupDesc P p) (nrSuperBlocks size) .lost sb = v ↔
        g.owner sb = v) :=
    fun sb v hv hv' => reown_eq_iff hlarge hv'.symm hv.symm
  have hblock := h.no_block (q := lookupDesc P p) (by simp [h.large_start hp hsize])
  rw [← hstart] at hblock
  have hclasses : ClassOk P s.descriptors s.partialList s.link
      (LRMalloc.reown g.owner (lookupDesc P p) (nrSuperBlocks size) .lost) g.partials g.free := by
    refine h.classes.congr (fun _ _ _ => rfl) (fun sb c hc => ?_) (fun _ _ _ => rfl)
      fun sb c => hsame sb (.small c) nofun nofun
    refine (h.classes.heap sb c hc).imp_right (Or.imp (fun hsmall => ?_) fun hheld => ?_)
    · exact (hsame sb (.small c) nofun nofun).mpr hsmall
    · exact (hsame sb .held nofun nofun).mpr hheld
  have hlive : LiveOk P (Function.update live p none) s.descriptors
      (LRMalloc.reown g.owner (lookupDesc P p) (nrSuperBlocks size) .lost) g.place := by
    refine ⟨fun x => ?_, fun x size' hx hle => ?_, fun p' size' hp' hlt => ?_, fun sb q hsb => ?_⟩
    · by_cases heq : x = p
      · rw [heq, hblock, Function.update_self]
        simp
      · rw [Function.update_of_ne heq]
        exact h.live.place x
    · by_cases heq : x = p
      · rw [heq, Function.update_self] at hx
        simp at hx
      · rw [Function.update_of_ne heq] at hx
        exact (hsame _ (.small _) nofun nofun).mpr (h.live.small x size' hx hle)
    · by_cases heq : p' = p
      · rw [heq, Function.update_self] at hp'
        simp at hp'
      · rw [Function.update_of_ne heq] at hp'
        obtain ⟨hstart', hok'⟩ := h.live.large p' size' hp' hlt
        have hne : lookupDesc P p' ≠ lookupDesc P p := by
          intro hsb
          rw [hstart', hsb, ← hstart] at heq
          exact heq rfl
        exact ⟨hstart', hok'.superblock, hok'.heap, hok'.blockSize, fun sb hle hlt =>
          (hsame sb (.large _) nofun (by simpa using hne)).mpr (hok'.owner sb hle hlt)⟩
    · by_cases hin : lookupDesc P p ≤ sb ∧ sb < lookupDesc P p + nrSuperBlocks size
      · rw [reown_of_mem hin.1 hin.2] at hsb
        simp at hsb
      · rw [reown_of_not hin] at hsb
        obtain ⟨size', hold, hlt, hrest⟩ := h.live.owner sb q hsb
        refine ⟨size', ?_, hlt, hrest⟩
        rw [Function.update_of_ne, hold]
        rintro rfl
        obtain rfl : size = size' := by
          rw [hp] at hold
          exact Option.some.inj hold
        rw [lookupDesc_lookupSb] at hin
        exact hin hrest
  exact ⟨h.tail.congr (fun sb => hsame sb .unused nofun nofun)
      fun sb => hsame sb .reserved nofun nofun,
    h.stack.congr (fun _ _ => rfl) fun sb => hsame sb .stack nofun nofun,
    hclasses, h.caches, h.places.congr fun sb c => hsame sb (.small c) nofun nofun, hlive⟩

/-- The superblocks that `pfree` of a large allocation returns. -/
def nrReturned (size : Nat) : Nat := roundUp size kSuperBlockSize % 2 ^ 32 / kSuperBlockSize

theorem nrReturned_le (size : Nat) : nrReturned size ≤ nrSuperBlocks size :=
  Nat.div_le_div_right (Nat.mod_le _ _)

theorem nrReturned_eq {size : Nat} (h : roundUp size kSuperBlockSize < 2 ^ 32) :
    nrReturned size = nrSuperBlocks size := by
  rw [nrReturned, Nat.mod_eq_of_lt h, nrSuperBlocks]

theorem Inv.freeLarge {p size : Nat} (tid : Nat) (h : Inv P s live g) (hp : live p = some size)
    (hsize : kMaxSize < size) : ∃ g', Inv P (LRMalloc.pfree P s tid (some p))
      (Function.update live p none) g' ∧
      ∀ sb, g'.owner sb = LRMalloc.reown
        (LRMalloc.reown g.owner (lookupDesc P p) (nrSuperBlocks size) .lost)
        (lookupDesc P p) (nrReturned size - 1 + 1) .stack sb := by
  obtain ⟨-, hok⟩ := h.live.large p size hp hsize
  have hpos := nrSuperBlocks_pos hsize
  have hle := nrReturned_le size
  have hfree : LRMalloc.pfree P s tid (some p) =
      fillSbList P s (lookupSb P (lookupDesc P p)) (nrReturned size) := by
    simp only [LRMalloc.pfree, hok.heap, hok.superblock, Option.getD_some, hok.blockSize]
    rfl
  have hdrop := h.dropLarge hp hsize
  have hlost : ∀ sb, lookupDesc P p ≤ sb → sb < lookupDesc P p + (nrReturned size - 1 + 1) →
      LRMalloc.reown g.owner (lookupDesc P p) (nrSuperBlocks size) .lost sb = .lost :=
    fun sb hle hlt => reown_of_mem hle (by omega)
  obtain ⟨hclasses, hplaces, hlive⟩ := hdrop.reown .held s.descriptors hlost (by simp) (by simp)
    (by simp) (by simp) (fun _ _ => rfl) (fun _ _ _ _ _ => Or.inr rfl)
  have hheld : Inv P s (Function.update live p none) { g with
      owner := LRMalloc.reown
        (LRMalloc.reown g.owner (lookupDesc P p) (nrSuperBlocks size) .lost)
        (lookupDesc P p) (nrReturned size - 1 + 1) .held } :=
    ⟨hdrop.tail.congr (fun sb => reown_eq_iff hlost (by simp) (by simp))
        fun sb => reown_eq_iff hlost (by simp) (by simp),
      hdrop.stack.congr (fun _ _ => rfl) fun sb => reown_eq_iff hlost (by simp) (by simp),
      hclasses, hdrop.caches, hplaces, hlive⟩
  rw [hfree]
  refine ⟨_, hheld.fill fun sb hle hlt => reown_of_mem hle hlt, fun sb => ?_⟩
  simp only [LRMalloc.reown]
  split
  · rfl
  · rfl

end Libcrpm.LRMalloc
