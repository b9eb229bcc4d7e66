import Libcrpm.LRMallocRuns

/-!
# Nothing is lost

Every superblock and every block is in exactly one place, for as long as no allocation of 4 GiB
or more is freed.
-/

namespace Libcrpm.LRMalloc

open Libcrpm.Memory Libcrpm.Program SizeClass

variable {P : Pool} {s t : LRMalloc} {live : Live} {g : Layout} {w : World}

/-! ## Where superblocks and blocks are -/

/-- What a superblock is used for. -/
inductive Use where
  | stack | large (start : Nat) | sizeClass (c : Nat)

def OnStack (s : LRMalloc) (sb : Nat) : Prop :=
  ∃ l, Segment (fun sb => (s.descriptors sb).nextFree) s.availSb.ptr l none ∧ sb ∈ l

def OfClass (s : LRMalloc) (sb c : Nat) : Prop := (s.descriptors sb).heap = some c ∧ c ≠ 0

def Uses (P : Pool) (w : World) (sb : Nat) : Use → Prop
  | .stack => OnStack w.alloc sb
  | .large q => ∃ size, w.live (lookupSb P q) = some size ∧ kMaxSize < size ∧ q ≤ sb ∧
      sb < q + nrSuperBlocks size
  | .sizeClass c => OfClass w.alloc sb c

inductive Spot where
  | live | cache (tid c : Nat) | freeChain

def cacheChain (s : LRMalloc) (tid c : Nat) : List Nat :=
  follow s.link (s.caches tid c).blockNum (s.caches tid c).block

/-- The free blocks of a superblock, one more than its anchor counts when all are free. -/
def freeChain (s : LRMalloc) (sb : Nat) : List Nat :=
  let d := s.descriptors sb
  let count := match d.anchor.state with
    | .sbPartial => d.anchor.count
    | .sbEmpty => d.anchor.count + 1
    | _ => 0
  follow s.link count (some (d.superblock.getD 0 + d.anchor.avail * d.blockSize))

def Lies (w : World) (sb x : Nat) : Spot → Prop
  | .live => w.live x ≠ none
  | .cache tid c => x ∈ cacheChain w.alloc tid c
  | .freeChain => x ∈ freeChain w.alloc sb

structure Conserved (P : Pool) (w : World) : Prop where
  superblock : ∀ sb, 0 < sb → lookupSb P sb < w.alloc.bulkTail → ∃! u, Uses P w sb u
  block : ∀ sb c k, OfClass w.alloc sb c → k < (getEntry c).blockNum →
    ∃! spot, Lies w sb (blockAddress P sb c k) spot
  count : ∀ sb c, OfClass w.alloc sb c → (w.alloc.descriptors sb).anchor.state = .sbPartial →
    (freeChain w.alloc sb).length = (w.alloc.descriptors sb).anchor.count
  stack : ∃ l, Segment (fun sb => (w.alloc.descriptors sb).nextFree) w.alloc.availSb.ptr l none ∧
    l.Nodup
  cache : ∀ tid c, (cacheChain w.alloc tid c).Nodup
  free : ∀ sb c, OfClass w.alloc sb c → (freeChain w.alloc sb).Nodup

/-! ## What the invariant says about them -/

def Use.owner : Use → Owner
  | .stack => .stack
  | .large q => .large q
  | .sizeClass c => .small c

theorem Use.owner_inj {u u' : Use} (h : u.owner = u'.owner) : u = u' := by
  cases u <;> cases u' <;> simp_all [Use.owner]

def Spot.place : Spot → Place
  | .live => .live
  | .cache tid c => .cached tid c
  | .freeChain => .free

theorem Spot.place_inj {spot spot' : Spot} (h : spot.place = spot'.place) : spot = spot' := by
  cases spot <;> cases spot' <;> simp_all [Spot.place]

theorem Inv.onStack_iff (h : Inv P s live g) {sb : Nat} : OnStack s sb ↔ g.owner sb = .stack := by
  rw [← h.stack.mem]
  constructor
  · rintro ⟨l, hl, hmem⟩
    rwa [← hl.unique h.stack.chain]
  · exact fun hmem => ⟨g.stack, h.stack.chain, hmem⟩

theorem Inv.uses_large_iff (h : Inv P w.alloc w.live g) {sb q : Nat} :
    Uses P w sb (.large q) ↔ g.owner sb = .large q := by
  constructor
  · rintro ⟨size, hlive, hsize, hle, hlt⟩
    obtain ⟨-, hok⟩ := h.live.large _ size hlive hsize
    rw [lookupDesc_lookupSb] at hok
    exact hok.owner sb hle hlt
  · intro howner
    obtain ⟨size, hlive, hsize, hle, hlt⟩ := h.live.owner sb q howner
    exact ⟨size, hlive, hsize, hle, hlt⟩

theorem Inv.ofClass_iff (h : Inv P s live g) {sb c : Nat} (hheld : g.owner sb ≠ .held) :
    OfClass s sb c ↔ g.owner sb = .small c := by
  constructor
  · rintro ⟨hheap, hne⟩
    exact ((h.classes.heap sb c hheap).resolve_left hne).resolve_right hheld
  · intro howner
    have hsmall := h.classes.small sb c howner
    exact ⟨hsmall.heap, by have hpos := hsmall.bin.pos; omega⟩

theorem Inv.uses_iff (h : Inv P w.alloc w.live g) {sb : Nat} (hheld : g.owner sb ≠ .held) (u : Use) :
    Uses P w sb u ↔ g.owner sb = u.owner := by
  cases u with
  | stack => exact h.onStack_iff
  | large q => exact h.uses_large_iff
  | sizeClass c => exact h.ofClass_iff hheld

theorem Inv.cacheChain_eq (h : Inv P s live g) (tid c : Nat) : cacheChain s tid c = g.cached tid c := by
  obtain ⟨stop, hchain⟩ := h.caches.chain tid c
  rw [cacheChain, h.caches.blockNum]
  exact hchain.follow_eq

theorem Inv.freeChain_eq (h : Inv P s live g) {sb c : Nat} (hsb : g.owner sb = .small c) :
    freeChain s sb = g.free sb := by
  have hsmall := h.classes.small sb c hsb
  have hanchor := hsmall.anchor
  have hnum := hsmall.bin.blockNum
  simp only [freeChain, hsmall.superblock, Option.getD_some, hsmall.blockSize]
  generalize (s.descriptors sb).anchor = anchor, g.free sb = free at hanchor
  cases hanchor with
  | full => rfl
  | part hchain => exact hchain.follow_eq
  | empty hchain hall =>
      have hcount : (getEntry c).blockNum - 1 + 1 = free.length := by omega
      simp only [hcount]
      exact hchain.follow_eq

theorem Inv.count_eq (h : Inv P s live g) {sb c : Nat} (hsb : g.owner sb = .small c)
    (hstate : (s.descriptors sb).anchor.state = .sbPartial) :
    (s.descriptors sb).anchor.count = (g.free sb).length :=
  ((h.classes.small sb c hsb).anchor.of_partial (by simp [hstate]) (by simp [hstate])).1

theorem Inv.lies_iff (h : Inv P w.alloc w.live g) {sb c k : Nat} (hsb : g.owner sb = .small c)
    (hk : k < (getEntry c).blockNum) (spot : Spot) :
    Lies w sb (blockAddress P sb c k) spot ↔
      g.place (blockAddress P sb c k) = some spot.place := by
  have hbin := h.bin hsb
  have hplace : g.place (blockAddress P sb c k) ≠ none := (h.places.block _).mpr ⟨sb, c, k, hsb, hk, rfl⟩
  obtain ⟨pl, hpl⟩ := Option.ne_none_iff_exists'.mp hplace
  cases spot with
  | live =>
      constructor
      · intro hne
        obtain ⟨size, hlive⟩ := Option.ne_none_iff_exists'.mp hne
        exact (h.live.place _).mpr ⟨size, hlive, h.not_large hpl hlive⟩
      · intro hlive
        obtain ⟨size, hsize, -⟩ := (h.live.place _).mp hlive
        simp [Lies, hsize]
  | cache tid c' =>
      rw [Lies, h.cacheChain_eq]
      exact h.caches.mem tid c' _
  | freeChain =>
      rw [Lies, h.freeChain_eq hsb, h.places.mem]
      exact and_iff_left (lookupDesc_blockAddress P sb hbin hk)

theorem Inv.conserved (h : Inv P w.alloc w.live g) (hwhole : Whole g) : Conserved P w := by
  have hclass : ∀ sb c, OfClass w.alloc sb c ↔ g.owner sb = .small c :=
    fun sb c => h.ofClass_iff (hwhole sb).1
  refine ⟨fun sb hpos hlt => ?_, fun sb c k hsb hk => ?_, fun sb c hsb hstate => ?_,
    ⟨g.stack, h.stack.chain, h.stack.nodup⟩, fun tid c => ?_, fun sb c hsb => ?_⟩
  · have hiff := h.uses_iff (hwhole sb).1
    have hused : ∃ u : Use, g.owner sb = u.owner := by
      cases howner : g.owner sb with
      | reserved => exact absurd ((h.tail.reserved sb).mp howner) (by omega)
      | stack => exact ⟨.stack, rfl⟩
      | large q => exact ⟨.large q, rfl⟩
      | small c => exact ⟨.sizeClass c, rfl⟩
      | held => exact absurd howner (hwhole sb).1
      | lost => exact absurd howner (hwhole sb).2
      | unused =>
          obtain ⟨n, htail, hunused⟩ := h.tail.unused
          have hle := (hunused sb).mp howner
          rw [htail, lookupSb_eq, lookupSb_eq] at hlt
          omega
    obtain ⟨u, hu⟩ := hused
    exact ⟨u, (hiff u).mpr hu, fun u' hu' => Use.owner_inj (((hiff u').mp hu').symm.trans hu)⟩
  · have howner := (hclass sb c).mp hsb
    have hiff := h.lies_iff howner hk
    have hplace : g.place (blockAddress P sb c k) ≠ none :=
      (h.places.block _).mpr ⟨sb, c, k, howner, hk, rfl⟩
    have hspot : ∃ spot : Spot, g.place (blockAddress P sb c k) = some spot.place := by
      obtain ⟨pl, hpl⟩ := Option.ne_none_iff_exists'.mp hplace
      cases pl with
      | live => exact ⟨.live, hpl⟩
      | cached tid c' => exact ⟨.cache tid c', hpl⟩
      | free => exact ⟨.freeChain, hpl⟩
    obtain ⟨spot, hspot⟩ := hspot
    refine ⟨spot, (hiff spot).mpr hspot, fun spot' hspot' => Spot.place_inj ?_⟩
    exact Option.some.inj (((hiff spot').mp hspot').symm.trans hspot)
  · have howner := (hclass sb c).mp hsb
    rw [h.freeChain_eq howner, h.count_eq howner hstate]
  · rw [h.cacheChain_eq]
    exact h.caches.nodup tid c
  · rw [h.freeChain_eq ((hclass sb c).mp hsb)]
    exact h.places.nodup sb

theorem Inv.not_conserved (h : Inv P w.alloc w.live g) {sb : Nat} (hlost : g.owner sb = .lost) :
    ¬ Conserved P w := by
  intro hconserved
  have hpos : 0 < sb := by
    by_contra hzero
    rw [(h.tail.reserved sb).mpr (by omega)] at hlost
    simp at hlost
  have hlt : lookupSb P sb < w.alloc.bulkTail := by
    obtain ⟨n, htail, hunused⟩ := h.tail.unused
    have hn : sb < n := by
      by_contra hge
      rw [(hunused sb).mpr (by omega)] at hlost
      simp at hlost
    rw [htail, lookupSb_eq, lookupSb_eq]
    omega
  obtain ⟨u, hu, -⟩ := hconserved.superblock sb hpos hlt
  have howner := (h.uses_iff (by simp [hlost]) u).mp hu
  rw [hlost] at howner
  cases u <;> simp [Use.owner] at howner

/-! ## Large allocations come back -/

/-- Freeing a large allocation puts all its superblocks onto the stack exactly if its rounded size
fits into the 32 bits of the descriptor. -/
theorem Inv.restored_iff {p size : Nat} (tid : Nat) (h : Inv P s live g) (hp : live p = some size)
    (hsize : kMaxSize < size) : Restored live p ↔
      ∀ sb, lookupDesc P p ≤ sb → sb < lookupDesc P p + nrSuperBlocks size →
        OnStack (LRMalloc.pfree P s tid (some p)) sb := by
  obtain ⟨g', h', howner⟩ := h.freeLarge tid hp hsize
  have hpos := nrSuperBlocks_pos hsize
  constructor
  · intro hrestored sb hle hlt
    rw [h'.onStack_iff, howner, nrReturned_eq (hrestored size hp)]
    exact reown_of_mem hle (by omega)
  · intro hall size' hsize'
    obtain rfl : size = size' := by
      rw [hp] at hsize'
      exact Option.some.inj hsize'
    by_contra hlarge
    have hmul := nrSuperBlocks_mul size
    have hreturned : nrReturned size ≤ 65535 := by
      rw [nrReturned, kSuperBlockSize_eq]
      omega
    rw [kSuperBlockSize_eq] at hmul hlarge
    have hlast := hall (lookupDesc P p + (nrSuperBlocks size - 1)) (by omega) (by omega)
    rw [h'.onStack_iff, howner, reown_of_not (by omega), reown_of_mem (by omega) (by omega)] at hlast
    simp at hlast

/-- Nothing is lost in a run that frees no allocation of 4 GiB or more, and then the superblocks of
a large allocation come back exactly if it is none of these. -/
theorem conserved_of_reaches {start : LRMalloc} (hstart : setupMetadata P = some start)
    (hw : (machine P start).Reaches Keeps w) : Conserved P w ∧
      ∀ tid p size, w.live p = some size → kMaxSize < size → (Restored w.live p ↔
        ∀ sb, lookupDesc P p ≤ sb → sb < lookupDesc P p + nrSuperBlocks size →
          OnStack (pfree P w.alloc tid (some p)) sb) := by
  obtain ⟨g, h, hwhole⟩ := reaches_whole hstart hw
  exact ⟨h.conserved hwhole, fun tid p size hp hsize => h.restored_iff tid hp hsize⟩

/-! ## A pool of 8 GiB -/

theorem bigPool_aligned : 2 ^ 40 % kPageSize = 0 := by decide
theorem bigPool_fits : 2 ^ 40 + 2 ^ 33 < 2 ^ 63 := by decide

def bigPool : Pool := ⟨2 ^ 40, 2 ^ 33, bigPool_aligned, bigPool_fits⟩

theorem bigPool_firstSb : bigPool.firstSb = 2 ^ 40 + 8400896 := by decide

theorem bigPool_malloc {size : Nat} (hsize : kMaxSize < size) (hle : size ≤ 2 ^ 32) :
    ∃ start p w g, setupMetadata bigPool = some start ∧ NoWrap start size ∧
      (machine bigPool start).step (.malloc 0 size 1) ⟨start, fun _ => none⟩ = some w ∧
      w.live p = some size ∧ Inv bigPool w.alloc w.live g := by
  have hlimit : bigPool.limit = 2 ^ 40 + 2 ^ 33 := rfl
  have hfirst := bigPool_firstSb
  have hup := roundUp_lt size (b := kSuperBlockSize) (by decide)
  rw [kSuperBlockSize_eq] at hup
  have hnew : lookupSb bigPool 32 ≤ bigPool.limit := by
    rw [lookupSb_eq]
    omega
  obtain ⟨start, hstart, htail⟩ := setup_room hnew
  rw [lookupSb_eq] at htail
  obtain ⟨g, h, -⟩ := setup_inv hstart
  have hwrap : NoWrap start size := by
    intro _
    rw [kSuperBlockSize_eq]
    omega
  have hroom : BulkRoom bigPool start (roundUp size kSuperBlockSize) := by
    rw [BulkRoom, kSuperBlockSize_eq]
    omega
  obtain ⟨rounds, p, t, g', hrounds, heq, halloc⟩ := h.pmallocLarge 0 hsize hwrap (Or.inr hroom)
  have hcall := heq 1
  rw [if_neg (by omega)] at hcall
  have hp : Function.update (fun _ => none) p (some size) p = some size := Function.update_self ..
  exact ⟨start, p, ⟨t, Function.update (fun _ => none) p (some size)⟩, g', hstart, hwrap,
    step_malloc (by omega) hcall, hp, halloc.inv⟩

theorem conserved_of_reaches_large : ∃ start w p, setupMetadata bigPool = some start ∧
    (machine bigPool start).Reaches Keeps w ∧ w.live p = some 100000 ∧ Conserved bigPool w ∧
    ∀ sb, lookupDesc bigPool p ≤ sb → sb < lookupDesc bigPool p + nrSuperBlocks 100000 →
      OnStack (pfree bigPool w.alloc 0 (some p)) sb := by
  obtain ⟨start, p, w, g, hstart, hwrap, hstep, hp, -⟩ :=
    bigPool_malloc (show kMaxSize < 100000 by decide) (by decide)
  have hw : (machine bigPool start).Reaches Keeps w := .step .init (.malloc 0 100000 1) hwrap hstep
  obtain ⟨hconserved, hfree⟩ := conserved_of_reaches hstart hw
  refine ⟨start, w, p, hstart, hw, hp, hconserved, (hfree 0 p 100000 hp (by decide)).mp ?_⟩
  intro size hsize
  obtain rfl : 100000 = size := Option.some.inj (hp.symm.trans hsize)
  decide

/-- An allocation of 4 GiB is made and freed: all its superblocks but the first are lost. -/
theorem not_conserved_of_free : ∃ start p w, setupMetadata bigPool = some start ∧
    (machine bigPool start).exec [.malloc 0 (2 ^ 32) 1, .free 0 (some p)]
      ⟨start, fun _ => none⟩ = some w ∧ ¬ Conserved bigPool w := by
  obtain ⟨start, p, w, g, hstart, -, hstep, hp, h⟩ :=
    bigPool_malloc (show kMaxSize < 2 ^ 32 by decide) (Nat.le_refl _)
  obtain ⟨g', h', howner⟩ := h.freeLarge 0 hp (by decide)
  have hfree : (machine bigPool start).step (.free 0 (some p)) w =
      some ⟨pfree bigPool w.alloc 0 (some p), Function.update w.live p none⟩ := by
    simp only [machine, World.step, hp, Option.isSome_some, if_true]
  have hlost : g'.owner (lookupDesc bigPool p + 1) = .lost := by
    have hreturned : nrReturned (2 ^ 32) = 0 := by decide
    have hcount : 1 < nrSuperBlocks (2 ^ 32) := by decide
    rw [howner, hreturned, reown_of_not (by omega), reown_of_mem (by omega) (by omega)]
  refine ⟨start, p, ⟨pfree bigPool w.alloc 0 (some p), Function.update w.live p none⟩, hstart, ?_,
    Inv.not_conserved (w := ⟨_, _⟩) h' hlost⟩
  rw [Machine.exec, hstep, Option.bind_some, Machine.exec, hfree, Option.bind_some, Machine.exec]

end Libcrpm.LRMalloc
