import Libcrpm.LRMallocSafety

/-!
# Opening the pool again

A snapshot has what lies in the pool: the thread caches are lost, and the blocks in them stay
taken.  The pool may be mapped elsewhere.  Self-relative pointers keep their distance, so every
address moves with the pool.
-/

namespace Libcrpm

namespace Pool

/-- The address in `Q` of what was at `a` in `P`, in 64 bits. -/
def relocate (P Q : Pool) (a : Nat) : Nat := (a + Q.base + 2 ^ 64 - P.base) % 2 ^ 64

variable {P Q : Pool} {a b : Nat}

theorem relocate_lt (P Q : Pool) (a : Nat) : P.relocate Q a < 2 ^ 64 := Nat.mod_lt _ (by omega)

theorem relocate_relocate (P Q : Pool) (h : a < 2 ^ 64) : Q.relocate P (P.relocate Q a) = a := by
  have hfits := P.fits
  have hfits' := Q.fits
  unfold relocate
  omega

theorem relocate_self (P : Pool) (h : a < 2 ^ 64) : P.relocate P a = a := by
  have hfits := P.fits
  unfold relocate
  omega

theorem relocate_eq_iff (ha : a < 2 ^ 64) (hb : b < 2 ^ 64) :
    Q.relocate P a = b ↔ a = P.relocate Q b := by
  constructor
  · rintro rfl
    exact (relocate_relocate Q P ha).symm
  · rintro rfl
    exact relocate_relocate P Q hb

theorem relocate_of_mem (hle : P.base ≤ a) (hlt : a ≤ P.limit) (hcap : Q.capacity = P.capacity) :
    P.relocate Q a + P.base = a + Q.base := by
  have hfits := P.fits
  have hfits' := Q.fits
  unfold limit at hlt
  unfold relocate
  omega

theorem firstSb_relocate (hcap : Q.capacity = P.capacity) :
    Q.firstSb + P.base = P.firstSb + Q.base := by
  unfold firstSb
  rw [hcap]
  omega

end Pool

namespace LRMalloc

open Libcrpm.Memory Libcrpm.Program SizeClass

/-- `Open` of a pool that has a snapshot. -/
def reopen (P Q : Pool) (s : LRMalloc) : LRMalloc where
  availSb := s.availSb
  partialList := s.partialList
  descriptors sb := { s.descriptors sb with
    superblock := (s.descriptors sb).superblock.map (P.relocate Q) }
  bulkTail := P.relocate Q s.bulkTail
  caches _ _ := .empty
  link a := (s.link (Q.relocate P a)).map (P.relocate Q)

/-- What is live keeps its place in the pool. -/
def Live.relocate (P Q : Pool) (live : Live) : Live :=
  fun a => if a < 2 ^ 64 then live (Q.relocate P a) else none

variable {P Q : Pool} {s t : LRMalloc} {live : Live} {g : Layout}

theorem firstSb_ge (P : Pool) : P.base ≤ P.firstSb := Nat.le_add_right _ _

theorem relocate_blockAddress (hcap : Q.capacity = P.capacity) {sb c k : Nat}
    (hlt : blockAddress P sb c k ≤ P.limit) :
    P.relocate Q (blockAddress P sb c k) = blockAddress Q sb c k := by
  have hfirst := firstSb_ge P
  have hshift := Pool.firstSb_relocate hcap
  have hge : P.base ≤ blockAddress P sb c k := by
    rw [blockAddress, lookupSb_eq]
    omega
  have hmoved := Pool.relocate_of_mem hge hlt hcap
  simp only [blockAddress, lookupSb_eq] at hmoved ⊢
  omega

theorem relocate_lookupSb (hcap : Q.capacity = P.capacity) {sb : Nat}
    (hlt : lookupSb P sb ≤ P.limit) : P.relocate Q (lookupSb P sb) = lookupSb Q sb := by
  rw [← blockAddress_zero P sb 0] at hlt ⊢
  rw [relocate_blockAddress hcap hlt, blockAddress_zero]

/-! ## Losing the caches -/

/-- A block that was in a cache counts as live: nobody will hand it out. -/
def Layout.kept (g : Layout) (live : Live) : Live :=
  fun x => match g.place x with
    | some (.cached _ c) => some (getEntry c).blockSize
    | _ => live x

def Layout.uncached (g : Layout) : Layout where
  owner := g.owner
  stack := g.stack
  partials := g.partials
  cached _ _ := []
  free := g.free
  place x := match g.place x with
    | some (.cached _ _) => some .live
    | pl => pl

theorem kept_of_cached {x tid c : Nat} (h : g.place x = some (.cached tid c)) :
    g.kept live x = some (getEntry c).blockSize := by
  rw [Layout.kept, h]

theorem kept_of_not {x : Nat} (h : ∀ tid c, g.place x ≠ some (.cached tid c)) :
    g.kept live x = live x := by
  rw [Layout.kept]
  split
  · rename_i tid c hx
    exact absurd hx (h tid c)
  · rfl

theorem uncached_of_cached {x tid c : Nat} (h : g.place x = some (.cached tid c)) :
    g.uncached.place x = some .live := by
  simp only [Layout.uncached, h]

theorem uncached_of_not {x : Nat} (h : ∀ tid c, g.place x ≠ some (.cached tid c)) :
    g.uncached.place x = g.place x := by
  simp only [Layout.uncached]

theorem Inv.cached_small (h : Inv P s live g) {x tid c : Nat}
    (hx : g.place x = some (.cached tid c)) : live x = none ∧ Bin c := by
  have hbin := h.bin (h.places.cached x tid c hx)
  refine ⟨?_, hbin⟩
  by_contra hne
  obtain ⟨size, hlive⟩ := Option.ne_none_iff_exists'.mp hne
  have hplace := (h.live.place x).mpr ⟨size, hlive, h.not_large hx hlive⟩
  rw [hx] at hplace
  simp at hplace

theorem Inv.kept_live (h : Inv P s live g) {x size : Nat} (hx : live x = some size) :
    g.kept live x = some size := by
  rw [kept_of_not, hx]
  intro tid c hplace
  rw [(h.cached_small hplace).1] at hx
  simp at hx

theorem uncached_iff {x : Nat} {pl : Place} (hpl : pl ≠ .live) :
    g.uncached.place x = some pl ↔ g.place x = some pl ∧ ∀ tid c, pl ≠ .cached tid c := by
  by_cases hcached : ∃ tid c, g.place x = some (.cached tid c)
  · obtain ⟨tid, c, hx⟩ := hcached
    rw [uncached_of_cached hx, hx]
    refine iff_of_false (fun heq => hpl (Option.some.inj heq).symm) ?_
    rintro ⟨heq, hnot⟩
    exact hnot tid c (Option.some.inj heq).symm
  · have hnot : ∀ tid c, g.place x ≠ some (.cached tid c) := fun tid c hx => hcached ⟨tid, c, hx⟩
    rw [uncached_of_not hnot]
    refine ⟨fun hx => ⟨hx, ?_⟩, And.left⟩
    rintro tid c rfl
    exact hnot tid c hx

/-- Without the caches the allocator is as it would be if the application held their blocks. -/
theorem Inv.uncached (h : Inv P s live g) :
    Inv P { s with caches := fun _ _ => .empty } (g.kept live) g.uncached where
  tail := h.tail
  stack := h.stack
  classes := h.classes
  caches := by
    refine ⟨fun _ _ => ⟨none, rfl⟩, fun _ _ => rfl, fun _ _ => List.nodup_nil, fun tid c x => ?_⟩
    refine iff_of_false List.not_mem_nil fun hx => ?_
    exact ((uncached_iff (by simp)).mp hx).2 tid c rfl
  places := by
    refine ⟨fun x => ?_, fun x tid c hx => ?_, fun sb x => ?_, h.places.nodup⟩
    · refine Iff.trans ?_ (h.places.block x)
      by_cases hcached : ∃ tid c, g.place x = some (.cached tid c)
      · obtain ⟨tid, c, hx⟩ := hcached
        rw [uncached_of_cached hx, hx]
        exact iff_of_true (by simp) (by simp)
      · rw [uncached_of_not fun tid c hx => hcached ⟨tid, c, hx⟩]
    · exact absurd rfl (((uncached_iff (by simp)).mp hx).2 tid c)
    · refine (h.places.mem sb x).trans (and_congr_left' ?_)
      rw [uncached_iff (by simp)]
      simp
  live := by
    refine ⟨fun x => ?_, fun x size hx hsize => ?_, fun p size hp hsize => ?_, fun sb q hq => ?_⟩
    · by_cases hcached : ∃ tid c, g.place x = some (.cached tid c)
      · obtain ⟨tid, c, hx⟩ := hcached
        rw [uncached_of_cached hx, kept_of_cached hx]
        exact iff_of_true rfl ⟨_, rfl, blockSize_le (h.cached_small hx).2⟩
      · have hnot : ∀ tid c, g.place x ≠ some (.cached tid c) :=
          fun tid c hx => hcached ⟨tid, c, hx⟩
        rw [uncached_of_not hnot, kept_of_not hnot]
        exact h.live.place x
    · by_cases hcached : ∃ tid c, g.place x = some (.cached tid c)
      · obtain ⟨tid, c, hplace⟩ := hcached
        rw [kept_of_cached hplace, Option.some.injEq] at hx
        rw [← hx, lookup_blockSize (h.cached_small hplace).2]
        exact h.places.cached x tid c hplace
      · rw [kept_of_not fun tid c hplace => hcached ⟨tid, c, hplace⟩] at hx
        exact h.live.small x size hx hsize
    · by_cases hcached : ∃ tid c, g.place p = some (.cached tid c)
      · obtain ⟨tid, c, hplace⟩ := hcached
        rw [kept_of_cached hplace, Option.some.injEq] at hp
        have hle := blockSize_le (h.cached_small hplace).2
        omega
      · rw [kept_of_not fun tid c hplace => hcached ⟨tid, c, hplace⟩] at hp
        exact h.live.large p size hp hsize
    · obtain ⟨size, hsize, hrest⟩ := h.live.owner sb q hq
      exact ⟨size, h.kept_live hsize, hrest⟩

/-! ## Moving the pool -/

def Layout.relocate (P Q : Pool) (g : Layout) : Layout where
  owner := g.owner
  stack := g.stack
  partials := g.partials
  cached _ _ := []
  free sb := (g.free sb).map (P.relocate Q)
  place a := if a < 2 ^ 64 then g.place (Q.relocate P a) else none

theorem Inv.block_le (h : Inv P s live g) {sb c k : Nat} (hsb : g.owner sb = .small c)
    (hk : k < (getEntry c).blockNum) : blockAddress P sb c k ≤ P.limit := by
  have hend := block_end_le (h.bin hsb) hk
  have hbelow := @Inv.below _ _ _ _ h sb (by rw [hsb]; simp)
  rw [lookupSb_eq] at hbelow
  rw [kSuperBlockSize_eq] at hend
  rw [blockAddress, lookupSb_eq]
  omega

theorem Inv.place_le (h : Inv P s live g) {x : Nat} {pl : Place} (hx : g.place x = some pl) :
    x ≤ P.limit := by
  obtain ⟨c, k, howner, hk, hblock⟩ := h.small hx
  rw [hblock]
  exact h.block_le howner hk

theorem Pool.limit_lt (P : Pool) : P.limit < 2 ^ 63 := P.fits

section

variable (hcap : Q.capacity = P.capacity) (h : Inv P s live g)

include hcap h

theorem Inv.relocate_block {x sb c k : Nat} (hx : x < 2 ^ 64) (hsb : g.owner sb = .small c)
    (hk : k < (getEntry c).blockNum) :
    Q.relocate P x = blockAddress P sb c k ↔ x = blockAddress Q sb c k := by
  have hle := h.block_le hsb hk
  have hlimit := Pool.limit_lt P
  rw [Pool.relocate_eq_iff hx (by omega), relocate_blockAddress hcap hle]

theorem Inv.relocate_desc {x : Nat} {pl : Place} (hx : x < 2 ^ 64)
    (hplace : g.place (Q.relocate P x) = some pl) :
    lookupDesc Q x = lookupDesc P (Q.relocate P x) := by
  obtain ⟨c, k, howner, hk, hblock⟩ := h.small hplace
  have hnew := (h.relocate_block hcap hx howner hk).mp hblock
  exact (congrArg (lookupDesc Q) hnew).trans (lookupDesc_blockAddress Q _ (h.bin howner) hk)

theorem Inv.relocate_anchor {sb c : Nat} (hsb : g.owner sb = .small c) :
    AnchorOk Q (reopen P Q s).link sb c (s.descriptors sb).anchor
      ((g.free sb).map (P.relocate Q)) := by
  have hlimit := Pool.limit_lt P
  have hfree : ∀ x ∈ g.free sb, x ≤ P.limit :=
    fun x hx => h.place_le ((h.places.mem sb x).mp hx).1
  have hlink : ∀ x ∈ g.free sb,
      (reopen P Q s).link (P.relocate Q x) = (s.link x).map (P.relocate Q) := by
    intro x hx
    have hle := hfree x hx
    simp only [reopen]
    rw [Pool.relocate_relocate P Q (by omega)]
  -- The chain starts at a block of the superblock.
  have hchain : ∀ {avail : Nat} {stop : Option Nat}, g.free sb ≠ [] →
      Segment s.link (some (blockAddress P sb c avail)) (g.free sb) stop →
      Segment (reopen P Q s).link (some (blockAddress Q sb c avail))
        ((g.free sb).map (P.relocate Q)) (stop.map (P.relocate Q)) := by
    intro avail stop hne hseg
    have hmoved := hseg.map (P.relocate Q) hlink
    obtain ⟨x, rest, hcons⟩ := List.exists_cons_of_ne_nil hne
    have hhead := hcons ▸ hseg
    have hx : blockAddress P sb c avail = x := Option.some.inj hhead.1
    have hle := hfree x (by simp [hcons])
    rw [← hx] at hle
    rwa [Option.map_some, relocate_blockAddress hcap hle] at hmoved
  have hanchor := (h.classes.small sb c hsb).anchor
  generalize (s.descriptors sb).anchor = anchor at hanchor
  generalize hl : g.free sb = free at hanchor hchain
  have hlen : (free.map (P.relocate Q)).length = free.length := List.length_map ..
  cases hanchor with
  | full => exact .full
  | part hseg hpos hlt =>
      have hne : free ≠ [] := List.ne_nil_of_length_pos hpos
      have hpart := AnchorOk.part (hchain hne hseg) (hlen ▸ hpos) (hlen ▸ hlt)
      rwa [hlen] at hpart
  | empty hseg hall =>
      have hnum := (h.bin hsb).blockNum
      have hne : free ≠ [] := List.ne_nil_of_length_pos (by omega)
      exact AnchorOk.empty (hchain hne hseg) (hlen.trans hall)

theorem Inv.relocate_live : LiveOk Q (Live.relocate P Q live) (reopen P Q s).descriptors g.owner
    (g.relocate P Q).place := by
  have hlimit := Pool.limit_lt P
  have hlarge : ∀ p size, live p = some size → kMaxSize < size →
      p = lookupSb P (lookupDesc P p) ∧ p ≤ P.limit ∧
        P.relocate Q p = lookupSb Q (lookupDesc P p) := by
    intro p size hp hsize
    obtain ⟨hstart, -⟩ := h.live.large p size hp hsize
    have hbelow := @Inv.below _ _ _ _ h (lookupDesc P p) (by rw [h.large_start hp hsize]; simp)
    have hle := (lookupSb_le P (Nat.le_succ (lookupDesc P p))).trans hbelow
    exact ⟨hstart, hstart ▸ hle, (congrArg _ hstart).trans (relocate_lookupSb hcap hle)⟩
  refine ⟨fun x => ?_, fun x size hx hsize => ?_, fun p size hp hsize => ?_, fun sb q hq => ?_⟩
  · simp only [Layout.relocate, Live.relocate]
    split
    · exact h.live.place _
    · simp
  · simp only [Live.relocate] at hx
    split at hx
    · rename_i hlt
      have hplace := (h.live.place _).mpr ⟨size, hx, hsize⟩
      rw [h.relocate_desc hcap hlt hplace]
      exact h.live.small _ size hx hsize
    · simp at hx
  · simp only [Live.relocate] at hp
    split at hp
    · rename_i hlt
      obtain ⟨hstart, hle, hmoved⟩ := hlarge _ size hp hsize
      obtain ⟨-, hok⟩ := h.live.large _ size hp hsize
      rw [Pool.relocate_relocate Q P hlt] at hmoved
      rw [hmoved, lookupDesc_lookupSb]
      refine ⟨rfl, ?_, hok.heap, hok.blockSize, hok.owner⟩
      simp only [reopen, hok.superblock, Option.map_some]
      rw [relocate_lookupSb hcap (by rwa [← hstart])]
    · simp at hp
  · obtain ⟨size, hsize, hlt, hrest⟩ := h.live.owner sb q hq
    obtain ⟨-, hle, hmoved⟩ := hlarge _ size hsize hlt
    rw [lookupDesc_lookupSb] at hmoved
    refine ⟨size, ?_, hlt, hrest⟩
    rw [Live.relocate, ← hmoved, if_pos (Pool.relocate_lt P Q _), Pool.relocate_relocate P Q (by omega),
      hsize]

theorem Inv.relocate (hempty : ∀ tid c, g.cached tid c = []) :
    Inv Q (reopen P Q s) (Live.relocate P Q live) (g.relocate P Q) where
  tail := by
    obtain ⟨n, htail, hunused⟩ := h.tail.unused
    have hlimit := h.tail.limit
    have hshift := Pool.firstSb_relocate hcap
    have hmoved := relocate_lookupSb hcap (htail ▸ hlimit)
    rw [← htail] at hmoved
    refine ⟨⟨n, hmoved, hunused⟩, ?_, h.tail.reserved⟩
    have hnew : lookupSb Q n ≤ Q.limit := by
      rw [htail, lookupSb_eq] at hlimit
      unfold Pool.limit at hlimit ⊢
      rw [lookupSb_eq, hcap]
      omega
    exact hmoved.trans_le hnew
  stack := ⟨h.stack.chain, h.stack.nodup, h.stack.mem⟩
  classes := by
    refine ⟨fun sb c hsb => ?_, h.classes.heap, h.classes.chain, h.classes.nodup, h.classes.mem⟩
    have hsmall := h.classes.small sb c hsb
    have howner : g.owner sb ≠ .unused := by
      rw [show g.owner sb = .small c from hsb]
      simp
    have hle := (lookupSb_le P (Nat.le_succ sb)).trans (h.below howner)
    refine ⟨hsmall.bin, ?_, hsmall.heap, hsmall.blockSize, hsmall.maxCount,
      h.relocate_anchor hcap hsb⟩
    simp only [reopen, hsmall.superblock, Option.map_some, relocate_lookupSb hcap hle]
  caches := by
    refine ⟨fun _ _ => ⟨none, rfl⟩, fun _ _ => rfl, fun _ _ => List.nodup_nil, fun tid c x => ?_⟩
    refine iff_of_false List.not_mem_nil fun hx => ?_
    simp only [Layout.relocate] at hx
    split at hx
    · have hmem := (h.caches.mem tid c _).mpr hx
      rw [hempty] at hmem
      exact absurd hmem List.not_mem_nil
    · simp at hx
  places := by
    have hlimit := Pool.limit_lt P
    refine ⟨fun x => ?_, fun x tid c hx => ?_, fun sb x => ?_, fun sb => ?_⟩
    · simp only [Layout.relocate]
      split
      · rename_i hlt
        rw [h.places.block]
        refine exists_congr fun sb => exists_congr fun c => exists_congr fun k => ?_
        refine and_congr_right fun hsb => and_congr_right fun hk => ?_
        exact h.relocate_block hcap hlt hsb hk
      · rename_i hge
        refine iff_of_false (by simp) ?_
        rintro ⟨sb, c, k, hsb, hk, rfl⟩
        rw [← relocate_blockAddress hcap (h.block_le hsb hk)] at hge
        exact hge (Pool.relocate_lt P Q _)
    · simp only [Layout.relocate] at hx
      split at hx
      · have hmem := (h.caches.mem tid c _).mpr hx
        rw [hempty] at hmem
        exact absurd hmem List.not_mem_nil
      · simp at hx
    · simp only [Layout.relocate, List.mem_map]
      constructor
      · rintro ⟨y, hy, rfl⟩
        obtain ⟨hplace, hdesc⟩ := (h.places.mem sb y).mp hy
        have hle := h.place_le hplace
        have hback := Pool.relocate_relocate P Q (show y < 2 ^ 64 by omega)
        rw [if_pos (Pool.relocate_lt P Q y), hback]
        refine ⟨hplace, ?_⟩
        rw [h.relocate_desc hcap (Pool.relocate_lt P Q y) (hback.symm ▸ hplace), hback, hdesc]
      · rintro ⟨hplace, hdesc⟩
        split at hplace
        · rename_i hlt
          rw [h.relocate_desc hcap hlt hplace] at hdesc
          exact ⟨_, (h.places.mem sb _).mpr ⟨hplace, hdesc⟩, Pool.relocate_relocate Q P hlt⟩
        · simp at hplace
    · refine List.Nodup.map_on (fun x hx y hy heq => ?_) (h.places.nodup sb)
      have hx' := h.place_le ((h.places.mem sb x).mp hx).1
      have hy' := h.place_le ((h.places.mem sb y).mp hy).1
      rw [← Pool.relocate_relocate P Q (show x < 2 ^ 64 by omega), heq,
        Pool.relocate_relocate P Q (by omega)]
  live := h.relocate_live hcap

end

theorem Layout.uncached_cached (g : Layout) (tid c : Nat) : g.uncached.cached tid c = [] := rfl

/-- The allocator after `Open`: what was live stays live, and the blocks of the lost caches are not
handed out. -/
theorem Inv.reopen (h : Inv P s live g) (hcap : Q.capacity = P.capacity) : ∃ live' g',
    Inv Q (reopen P Q s) live' g' ∧
      ∀ p size, Live.relocate P Q live p = some size → live' p = some size := by
  have hmoved := h.uncached.relocate hcap g.uncached_cached
  refine ⟨Live.relocate P Q (g.kept live), g.uncached.relocate P Q, hmoved, fun p size hp => ?_⟩
  simp only [Live.relocate] at hp ⊢
  split
  · rename_i hlt
    rw [if_pos hlt] at hp
    exact h.kept_live hp
  · rename_i hge
    rw [if_neg hge] at hp
    exact hp

/-! ## Runs over several openings -/

structure Session where
  pool : Pool
  world : World

/-- `snapshot` is what the last checkpoint has saved. -/
structure Openings where
  now : Session
  snapshot : Option Session

/-- A crash or a shutdown comes with the `reopen` that follows it. -/
inductive Event where
  | call (l : Call)
  | checkpoint
  | reopen (Q : Pool)

def Session.reopen (old : Session) (Q : Pool) : Session where
  pool := Q
  world := ⟨LRMalloc.reopen old.pool Q old.world.alloc, Live.relocate old.pool Q old.world.live⟩

def Openings.step : Event → Openings → Option Openings
  | .call l, s => (s.now.world.step s.now.pool l).map fun w => { s with now.world := w }
  | .checkpoint, s => some { s with snapshot := some s.now }
  | .reopen Q, s =>
      match s.snapshot with
      | none => none
      | some old =>
          if Q.capacity = old.pool.capacity then some { s with now := old.reopen Q } else none

def openings (P : Pool) (start : LRMalloc) : Machine Openings Event :=
  ⟨⟨⟨P, ⟨start, fun _ => none⟩⟩, none⟩, Openings.step⟩

/-- No call asks for a size that wraps. -/
def Event.Fits : Event → Openings → Prop
  | .call l, s => LRMalloc.Fits l s.now.world
  | _, _ => True

/-- The invariant holds if some more blocks are taken to be live. -/
def Session.Kept (σ : Session) : Prop := ∃ live g, Inv σ.pool σ.world.alloc live g ∧
  ∀ p size, σ.world.live p = some size → live p = some size

theorem step_of_more {l : Call} {w w' : World} {live : Live} (hstep : w.step P l = some w')
    (hmore : ∀ p size, w.live p = some size → live p = some size) : ∃ live',
      World.step P l ⟨w.alloc, live⟩ = some ⟨w'.alloc, live'⟩ ∧
        ∀ p size, w'.live p = some size → live' p = some size := by
  have hupdate : ∀ q v p size, Function.update w.live q v p = some size →
      Function.update live q v p = some size := by
    intro q v p size hp
    by_cases hpq : p = q
    · rw [hpq, Function.update_self] at hp ⊢
      exact hp
    · rw [Function.update_of_ne hpq] at hp ⊢
      exact hmore p size hp
  have hsome : ∀ p, (w.live p).isSome → (live p).isSome := by
    intro p hp
    obtain ⟨size, hsize⟩ := Option.isSome_iff_exists.mp hp
    rw [hmore p size hsize]
    rfl
  cases l with
  | malloc tid size fuel =>
      rw [World.step] at hstep ⊢
      split at hstep
      · rename_i hlt
        obtain ⟨⟨r, t⟩, hcall, rfl⟩ := Option.map_eq_some_iff.mp hstep
        refine ⟨World.give live size r, by rw [if_pos hlt, hcall, Option.map_some], ?_⟩
        cases r with
        | none => exact hmore
        | some p => exact hupdate p (some size)
      · simp at hstep
  | free tid ptr =>
      cases ptr with
      | none =>
          obtain rfl := Option.some.inj hstep
          exact ⟨live, rfl, hmore⟩
      | some p =>
          rw [World.step] at hstep ⊢
          split at hstep
          · rename_i hlive
            obtain rfl := Option.some.inj hstep
            exact ⟨Function.update live p none, if_pos (hsome p hlive), hupdate p none⟩
          · simp at hstep
  | store p a v =>
      rw [World.step] at hstep ⊢
      split at hstep
      · rename_i hin
        obtain rfl := Option.some.inj hstep
        refine ⟨live, if_pos ?_, hmore⟩
        cases hlive : w.live p with
        | none => simp [hlive] at hin
        | some size =>
            change Option.any _ (live p) = true
            rwa [hmore p size hlive, ← hlive]
      · simp at hstep

theorem Session.Kept.call {σ : Session} {l : Call} {w : World} (h : σ.Kept)
    (hfits : LRMalloc.Fits l σ.world) (hstep : σ.world.step σ.pool l = some w) :
    Session.Kept { σ with world := w } := by
  obtain ⟨live, g, hinv, hmore⟩ := h
  obtain ⟨live', hstep', hmore'⟩ := step_of_more hstep hmore
  have hfits' : LRMalloc.Fits l ⟨σ.world.alloc, live⟩ := by
    cases l with
    | malloc tid size fuel => exact hfits
    | free tid ptr => exact trivial
    | store => exact trivial
  obtain ⟨g', hinv', -⟩ := step_inv (w := ⟨σ.world.alloc, live⟩) hinv hfits' hstep'
  exact ⟨live', g', hinv', hmore'⟩

theorem Session.Kept.reopen {σ : Session} (h : σ.Kept) (hcap : Q.capacity = σ.pool.capacity) :
    (σ.reopen Q).Kept := by
  obtain ⟨live, g, hinv, hmore⟩ := h
  obtain ⟨live', g', hinv', hmore'⟩ := hinv.reopen hcap
  refine ⟨live', g', hinv', fun p size hp => hmore' p size ?_⟩
  simp only [Session.reopen, Live.relocate] at hp ⊢
  split
  · rename_i hlt
    rw [if_pos hlt] at hp
    exact hmore _ size hp
  · rename_i hge
    rw [if_neg hge] at hp
    exact hp

theorem kept_of_reaches {start : LRMalloc} {σ : Openings} (hstart : setupMetadata P = some start)
    (hσ : (openings P start).Reaches Event.Fits σ) :
    σ.now.Kept ∧ ∀ old ∈ σ.snapshot, old.Kept := by
  refine hσ.invariant (I := fun σ => σ.now.Kept ∧ ∀ old ∈ σ.snapshot, old.Kept) ?_ ?_
  · obtain ⟨g, h, -⟩ := setup_inv hstart
    exact ⟨⟨_, g, h, fun _ _ hp => hp⟩, by simp [openings]⟩
  · rintro σ e τ ⟨hnow, hsaved⟩ hfits hstep
    cases e with
    | call l =>
        obtain ⟨w, hcall, rfl⟩ := Option.map_eq_some_iff.mp hstep
        exact ⟨hnow.call hfits hcall, hsaved⟩
    | checkpoint =>
        obtain rfl := Option.some.inj hstep
        refine ⟨hnow, ?_⟩
        rintro old ⟨⟩
        exact hnow
    | reopen Q =>
        simp only [openings, Openings.step] at hstep
        split at hstep
        · simp at hstep
        · rename_i old hold
          split at hstep
          · rename_i hcap
            obtain rfl := Option.some.inj hstep
            exact ⟨(hsaved old hold).reopen hcap, hsaved⟩
          · simp at hstep

/-- No block that was live at the last checkpoint and was not freed since is handed out, whatever
the caches held then and wherever the pool is mapped now. -/
theorem apart_of_reopened {start : LRMalloc} {σ : Openings} (hstart : setupMetadata P = some start)
    (hσ : (openings P start).Reaches Event.Fits σ) : Apart σ.now.pool σ.now.world.live ∧
      ∀ tid size, NoWrap σ.now.world.alloc size →
        Fresh σ.now.pool σ.now.world.alloc σ.now.world.live tid size := by
  obtain ⟨⟨live, g, h, hmore⟩, -⟩ := kept_of_reaches hstart hσ
  have hapart := h.apart
  refine ⟨⟨fun p size hp => hapart.area p size (hmore p size hp), ?_⟩, ?_⟩
  · intro p q size size' hp hq
    exact hapart.disjoint p q size size' (hmore p size hp) (hmore q size' hq)
  · intro tid size hwrap fuel p t hcall
    obtain ⟨harea, hnone, hothers⟩ := h.fresh tid hwrap fuel p t hcall
    refine ⟨harea, ?_, fun q size' hq => hothers q size' (hmore q size' hq)⟩
    by_contra hne
    obtain ⟨size', hlive⟩ := Option.ne_none_iff_exists'.mp hne
    rw [hmore p size' hlive] at hnone
    simp at hnone

/-! ## Examples of runs -/

/-- A large allocation from the bulk area, when the stack is empty; sizes wrap as they do. -/
theorem pmalloc_of_bulk {n size : Nat} (tid newTail : Nat) (hsize : kMaxSize < size)
    (hnone : s.availSb.ptr = none) (htail : s.bulkTail = lookupSb P n)
    (hnew : (lookupSb P n + roundUp size kSuperBlockSize % 2 ^ 64) % 2 ^ 64 = newTail)
    (hroom : newTail ≤ P.limit) : ∃ t, pmalloc P 1 s tid size = some (some (lookupSb P n), t) ∧
      t.availSb.ptr = none ∧ t.bulkTail = newTail := by
  have hbulk : bulkAllocate P s kPageSize (roundUp size kSuperBlockSize % 2 ^ 64) =
      (.ok (lookupSb P n), { s with bulkTail := newTail }) := by
    rw [bulkAllocate_eq htail, hnew, if_neg (by omega)]
  have hcall : ∀ fuel, allocLargeSb P fuel s (roundUp size kSuperBlockSize % 2 ^ 64) =
      if fuel < 1 then none else some (some (lookupSb P n), { s with bulkTail := newTail }) := by
    intro fuel
    simp only [allocLargeSb, hnone]
    exact allocLargeBulk_ok hbulk fuel
  have hresult := pmalloc_of_large tid hsize hcall 1
  rw [if_neg (by omega)] at hresult
  exact ⟨_, hresult, hnone, rfl⟩

theorem smallPool_filled : ∃ start t, setupMetadata smallPool = some start ∧
    NoWrap start (31 * 65536) ∧
    World.step smallPool (.malloc 0 (31 * 65536) 1) ⟨start, fun _ => none⟩ =
      some ⟨t, Function.update (fun _ => none) (lookupSb smallPool 1) (some (31 * 65536))⟩ ∧
    t.availSb.ptr = none ∧ t.bulkTail = lookupSb smallPool 32 := by
  obtain ⟨start, hstart, hptr, hwalk, hlast, htail, -, -⟩ := smallPool_start
  have hfirst := smallPool_firstSb
  have hround : roundUp (31 * 65536) kSuperBlockSize = 31 * 65536 := by decide
  have hwrap : NoWrap start (31 * 65536) := by
    intro _
    rw [hround, htail]
    omega
  have hfill := pmalloc_of_stack (P := smallPool) 0 (show kMaxSize < 31 * 65536 by decide) hwrap
    hptr hwalk 1
  obtain ⟨t, ht, hnone, htail'⟩ : ∃ t, pmalloc smallPool 1 start 0 (31 * 65536) =
      some (some (lookupSb smallPool 1), t) ∧ t.availSb.ptr = none ∧ t.bulkTail = start.bulkTail :=
    ⟨_, hfill, hlast, rfl⟩
  have hstep := step_malloc (w := ⟨start, fun _ => none⟩) (show 31 * 65536 < 2 ^ 64 by omega) ht
  refine ⟨start, t, hstart, hwrap, hstep, hnone, ?_⟩
  rw [htail', htail, lookupSb_eq, hfirst]

theorem movedPool_aligned : 2 ^ 41 % kPageSize = 0 := by decide
theorem movedPool_fits : 2 ^ 41 + 2 ^ 22 < 2 ^ 63 := by decide

def movedPool : Pool := ⟨2 ^ 41, 2 ^ 22, movedPool_aligned, movedPool_fits⟩

theorem movedPool_firstSb : movedPool.firstSb = 2 ^ 41 + 16384 := by decide

/-- What is allocated behind the opening at another address keeps away from what was live before. -/
theorem apart_of_reopened_moved : ∃ start σ, setupMetadata smallPool = some start ∧
    (openings smallPool start).Reaches Event.Fits σ ∧ σ.now.pool = movedPool ∧
    σ.now.world.live (lookupSb movedPool 1) = some (31 * 65536) ∧
    σ.now.world.live (lookupSb movedPool 32) = some 100000 ∧ Apart movedPool σ.now.world.live := by
  obtain ⟨start, t, hstart, hwrap, hstep, hnone, htail⟩ := smallPool_filled
  obtain ⟨live, hlive⟩ : ∃ live : Live, live = Function.update (fun _ => none)
    (lookupSb smallPool 1) (some (31 * 65536)) := ⟨_, rfl⟩
  rw [← hlive] at hstep
  have hcap : movedPool.capacity = smallPool.capacity := rfl
  have hroom := smallPool_room
  have hfirst := movedPool_firstSb
  have hlimit : movedPool.limit = 2 ^ 41 + 2 ^ 22 := rfl
  have hreopened : (LRMalloc.reopen smallPool movedPool t).bulkTail = lookupSb movedPool 32 := by
    change smallPool.relocate movedPool t.bulkTail = _
    rw [htail, relocate_lookupSb hcap hroom]
  have hnext : roundUp 100000 kSuperBlockSize % 2 ^ 64 = 131072 := by decide
  obtain ⟨u, hu, -, -⟩ := pmalloc_of_bulk (P := movedPool) 0 (lookupSb movedPool 34)
    (show kMaxSize < 100000 by decide) (s := LRMalloc.reopen smallPool movedPool t) hnone hreopened
    (by rw [hnext, lookupSb_eq, lookupSb_eq, hfirst]; omega)
    (by rw [lookupSb_eq, hfirst, hlimit]; omega)
  have hstep' := step_malloc (w := ⟨LRMalloc.reopen smallPool movedPool t,
    Live.relocate smallPool movedPool live⟩) (show 100000 < 2 ^ 64 by omega) hu
  obtain ⟨final, hfinal⟩ : ∃ final : Live, final = Function.update
    (Live.relocate smallPool movedPool live) (lookupSb movedPool 32) (some 100000) := ⟨_, rfl⟩
  rw [← hfinal] at hstep'
  have hcall : (openings smallPool start).Reaches Event.Fits ⟨⟨smallPool, ⟨t, live⟩⟩, none⟩ := by
    refine .step .init (.call (.malloc 0 (31 * 65536) 1)) hwrap ?_
    exact Option.map_eq_some_iff.mpr ⟨_, hstep, rfl⟩
  have hsaved : (openings smallPool start).Reaches Event.Fits
      ⟨⟨smallPool, ⟨t, live⟩⟩, some ⟨smallPool, ⟨t, live⟩⟩⟩ := .step hcall .checkpoint trivial rfl
  have hopened : (openings smallPool start).Reaches Event.Fits
      ⟨Session.reopen ⟨smallPool, ⟨t, live⟩⟩ movedPool, some ⟨smallPool, ⟨t, live⟩⟩⟩ := by
    refine .step hsaved (.reopen movedPool) trivial ?_
    simp only [openings, Openings.step, hcap, if_true]
  have hwrap' : NoWrap (LRMalloc.reopen smallPool movedPool t) 100000 := by
    intro _
    rw [hreopened, lookupSb_eq, hfirst]
    have hround : roundUp 100000 kSuperBlockSize = 131072 := by decide
    omega
  have hagain : (openings smallPool start).Reaches Event.Fits
      ⟨⟨movedPool, ⟨u, final⟩⟩, some ⟨smallPool, ⟨t, live⟩⟩⟩ := by
    refine .step hopened (.call (.malloc 0 100000 1)) hwrap' ?_
    exact Option.map_eq_some_iff.mpr ⟨_, hstep', rfl⟩
  refine ⟨start, _, hstart, hagain, rfl, ?_, ?_, (apart_of_reopened hstart hagain).1⟩
  · change final (lookupSb movedPool 1) = _
    have hne : lookupSb movedPool 1 ≠ lookupSb movedPool 32 := fun heq => by
      have hinj := lookupSb_inj heq
      omega
    have hlt : lookupSb movedPool 1 < 2 ^ 64 := by
      rw [lookupSb_eq, hfirst]
      omega
    have hback : movedPool.relocate smallPool (lookupSb movedPool 1) = lookupSb smallPool 1 :=
      relocate_lookupSb hcap.symm (by rw [lookupSb_eq, hfirst, hlimit]; omega)
    rw [hfinal, Function.update_of_ne hne, Live.relocate, if_pos hlt, hback, hlive,
      Function.update_self]
  · change final (lookupSb movedPool 32) = _
    rw [hfinal, Function.update_self]

/-- A size that wraps moves the bulk tail back over a block that was live at the checkpoint. -/
theorem not_fresh_of_reopened : ∃ start σ, setupMetadata smallPool = some start ∧
    (openings smallPool start).exec [.call (.malloc 0 (31 * 65536) 1), .checkpoint,
      .reopen smallPool, .call (.malloc 0 (2 ^ 64 - 2 ^ 17) 1)] (openings smallPool start).init =
        some σ ∧
    ¬ Fresh smallPool σ.now.world.alloc σ.now.world.live 0 100000 := by
  obtain ⟨start, t, hstart, -, hw, hnone, htail⟩ := smallPool_filled
  have hlimit : smallPool.limit = 2 ^ 40 + 2 ^ 22 := rfl
  have hfirst := smallPool_firstSb
  obtain ⟨live, hlive⟩ : ∃ live : Live, live = Function.update (fun _ => none)
    (lookupSb smallPool 1) (some (31 * 65536)) := ⟨_, rfl⟩
  rw [← hlive] at hw
  have hreopened : (LRMalloc.reopen smallPool smallPool t).bulkTail = lookupSb smallPool 32 := by
    change smallPool.relocate smallPool t.bulkTail = _
    rw [htail, relocate_lookupSb rfl smallPool_room]
  -- The size wraps: the new tail lies two superblocks below the old one.
  have hwrapped : roundUp (2 ^ 64 - 2 ^ 17) kSuperBlockSize % 2 ^ 64 = 2 ^ 64 - 2 ^ 17 := by decide
  obtain ⟨u, hu, hnone', hback⟩ := pmalloc_of_bulk (P := smallPool) 0 (lookupSb smallPool 30)
    (show kMaxSize < 2 ^ 64 - 2 ^ 17 by decide) (s := LRMalloc.reopen smallPool smallPool t) hnone
    hreopened (by rw [hwrapped, lookupSb_eq, lookupSb_eq, hfirst]; omega)
    (by rw [lookupSb_eq, hfirst, hlimit]; omega)
  have hw' := step_malloc (w := ⟨LRMalloc.reopen smallPool smallPool t,
    Live.relocate smallPool smallPool live⟩) (show 2 ^ 64 - 2 ^ 17 < 2 ^ 64 by omega) hu
  obtain ⟨final, hfinal⟩ : ∃ final : Live, final = Function.update
    (Live.relocate smallPool smallPool live) (lookupSb smallPool 32) (some (2 ^ 64 - 2 ^ 17)) :=
    ⟨_, rfl⟩
  rw [← hfinal] at hw'
  -- What is allocated next lies in the block that was live.
  have hnext : roundUp 100000 kSuperBlockSize % 2 ^ 64 = 131072 := by decide
  obtain ⟨v, hv, -, -⟩ := pmalloc_of_bulk (P := smallPool) 0 (lookupSb smallPool 32)
    (show kMaxSize < 100000 by decide) hnone' hback
    (by rw [hnext, lookupSb_eq, lookupSb_eq, hfirst]; omega)
    (by rw [lookupSb_eq, hfirst, hlimit]; omega)
  have hsaved : final (lookupSb smallPool 1) = some (31 * 65536) := by
    have hne : lookupSb smallPool 1 ≠ lookupSb smallPool 32 := fun heq => by
      have hinj := lookupSb_inj heq
      omega
    have hlt : lookupSb smallPool 1 < 2 ^ 64 := by
      rw [lookupSb_eq, hfirst]
      omega
    rw [hfinal, Function.update_of_ne hne, Live.relocate, if_pos hlt, Pool.relocate_self smallPool hlt,
      hlive, Function.update_self]
  refine ⟨start, ⟨⟨smallPool, ⟨u, final⟩⟩, some ⟨smallPool, ⟨t, live⟩⟩⟩, hstart, ?_, ?_⟩
  · simp only [Machine.exec, openings, Openings.step, hw, hw', Session.reopen, Option.map_some,
      Option.bind_some, if_true]
  · intro hfresh
    obtain ⟨-, -, hothers⟩ := hfresh 1 _ v hv
    refine hothers (lookupSb smallPool 1) (31 * 65536) hsaved ⟨lookupSb smallPool 30, ?_⟩
    rw [lookupSb_eq, lookupSb_eq]
    omega

end LRMalloc

end Libcrpm
