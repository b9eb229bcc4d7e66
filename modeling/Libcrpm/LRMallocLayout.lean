import Libcrpm.LRMalloc
import Libcrpm.Memory.LinkedList

/-!
# Who owns the memory of the allocator

Every superblock has an owner, and every block of a size class has a place.  The invariant ties
both to the descriptors, the stack, the partial lists and the thread caches.
-/

namespace Libcrpm.LRMalloc

open Libcrpm.Memory SizeClass

/-! ## Addresses -/

theorem lookupSb_eq (P : Pool) (sb : Nat) : lookupSb P sb = P.firstSb + sb * 65536 := by
  rw [lookupSb, Nat.shiftLeft_eq]
  rfl

theorem lookupDesc_add (P : Pool) (sb : Nat) {offset : Nat} (h : offset < kSuperBlockSize) :
    lookupDesc P (lookupSb P sb + offset) = sb := by
  rw [kSuperBlockSize_eq] at h
  rw [lookupDesc, lookupSb_eq, Nat.shiftRight_eq_div_pow, kSuperBlockShift]
  omega

@[simp] theorem lookupDesc_lookupSb (P : Pool) (sb : Nat) : lookupDesc P (lookupSb P sb) = sb := by
  have hadd := lookupDesc_add P sb (show 0 < kSuperBlockSize by decide)
  rwa [Nat.add_zero] at hadd

theorem lookupSb_inj {P : Pool} {sb sb' : Nat} (h : lookupSb P sb = lookupSb P sb') : sb = sb' := by
  rw [lookupSb_eq, lookupSb_eq] at h
  omega

theorem lookupSb_le (P : Pool) {sb sb' : Nat} (h : sb ≤ sb') : lookupSb P sb ≤ lookupSb P sb' := by
  rw [lookupSb_eq, lookupSb_eq]
  omega

theorem lookupSb_add (P : Pool) (sb count : Nat) :
    lookupSb P sb + count * kSuperBlockSize = lookupSb P (sb + count) := by
  rw [lookupSb_eq, lookupSb_eq, kSuperBlockSize_eq]
  omega

def blockAddress (P : Pool) (sb c k : Nat) : Nat := lookupSb P sb + k * (getEntry c).blockSize

theorem block_end_le {c k : Nat} (hbin : Bin c) (hk : k < (getEntry c).blockNum) :
    k * (getEntry c).blockSize + (getEntry c).blockSize ≤ kSuperBlockSize := by
  have hle : (k + 1) * (getEntry c).blockSize ≤ (getEntry c).blockNum * (getEntry c).blockSize :=
    Nat.mul_le_mul_right _ hk
  rw [Nat.add_mul, Nat.one_mul] at hle
  exact hle.trans hbin.fits

theorem lookupDesc_blockAddress (P : Pool) (sb : Nat) {c k : Nat} (hbin : Bin c)
    (hk : k < (getEntry c).blockNum) : lookupDesc P (blockAddress P sb c k) = sb := by
  have hend := block_end_le hbin hk
  have hsize := hbin.blockSize
  exact lookupDesc_add P sb (by omega)

theorem blockAddress_inj {P : Pool} {sb c k k' : Nat} (hbin : Bin c)
    (h : blockAddress P sb c k = blockAddress P sb c k') : k = k' := by
  have hsize := hbin.blockSize
  exact Nat.eq_of_mul_eq_mul_right (by omega) (Nat.add_left_cancel h)

@[simp] theorem blockAddress_zero (P : Pool) (sb c : Nat) : blockAddress P sb c 0 = lookupSb P sb := by
  simp [blockAddress]

/-! ## Owners and places -/

/-- The pointers that the application holds, with the sizes it asked for. -/
abbrev Live := Nat → Option Nat

/-- The superblocks that a large allocation takes. -/
def nrSuperBlocks (size : Nat) : Nat := roundUp size kSuperBlockSize / kSuperBlockSize

theorem nrSuperBlocks_pos {size : Nat} (h : kMaxSize < size) : 0 < nrSuperBlocks size := by
  have hle := le_roundUp size (b := kSuperBlockSize) (by decide)
  have hdvd := dvd_roundUp size kSuperBlockSize
  rw [kMaxSize_eq] at h
  exact Nat.div_pos (Nat.le_of_dvd (by omega) hdvd) (by decide)

theorem nrSuperBlocks_mul (size : Nat) :
    nrSuperBlocks size * kSuperBlockSize = roundUp size kSuperBlockSize :=
  Nat.div_mul_cancel (dvd_roundUp size kSuperBlockSize)

/-- `held` is a superblock in the hands of the running call, and `lost` one that nobody has. -/
inductive Owner where
  | reserved | stack | large (start : Nat) | small (c : Nat) | held | lost | unused
deriving DecidableEq

inductive Place where
  | live | cached (tid c : Nat) | free
deriving DecidableEq

/-- What the lists in memory stand for. -/
structure Layout where
  owner : Nat → Owner
  stack : List Nat
  partials : Nat → List Nat
  cached : Nat → Nat → List Nat
  free : Nat → List Nat
  place : Nat → Option Place

/-- Superblocks from `0` to the bulk tail have been handed out by `bulk_allocate`. -/
structure TailOk (P : Pool) (bulkTail : Nat) (owner : Nat → Owner) : Prop where
  unused : ∃ n, bulkTail = lookupSb P n ∧ ∀ sb, owner sb = .unused ↔ n ≤ sb
  limit : bulkTail ≤ P.limit
  reserved : ∀ sb, owner sb = .reserved ↔ sb = 0

structure StackOk (ds : Nat → Descriptor) (head : Option Nat) (owner : Nat → Owner)
    (stack : List Nat) : Prop where
  chain : Segment (fun sb => (ds sb).nextFree) head stack none
  nodup : stack.Nodup
  mem : ∀ sb, sb ∈ stack ↔ owner sb = .stack

/-- The anchor of a superblock of class `c` and its free blocks. -/
inductive AnchorOk (P : Pool) (link : Nat → Option Nat) (sb c : Nat) : Anchor → List Nat → Prop
  | full : AnchorOk P link sb c ⟨(getEntry c).blockNum, 0, .sbFull⟩ []
  | part {avail : Nat} {free : List Nat} {stop : Option Nat}
      (hchain : Segment link (some (blockAddress P sb c avail)) free stop)
      (hpos : 0 < free.length) (hlt : free.length < (getEntry c).blockNum) :
      AnchorOk P link sb c ⟨avail, free.length, .sbPartial⟩ free
  | empty {avail : Nat} {free : List Nat} {stop : Option Nat}
      (hchain : Segment link (some (blockAddress P sb c avail)) free stop)
      (hall : free.length = (getEntry c).blockNum) :
      AnchorOk P link sb c ⟨avail, (getEntry c).blockNum - 1, .sbEmpty⟩ free

structure SmallOk (P : Pool) (d : Descriptor) (link : Nat → Option Nat) (sb c : Nat)
    (free : List Nat) : Prop where
  bin : Bin c
  superblock : d.superblock = some (lookupSb P sb)
  heap : d.heap = some c
  blockSize : d.blockSize = (getEntry c).blockSize
  maxCount : d.maxCount = (getEntry c).blockNum
  anchor : AnchorOk P link sb c d.anchor free

structure ClassOk (P : Pool) (ds : Nat → Descriptor) (partialList : Nat → StampedPtr)
    (link : Nat → Option Nat) (owner : Nat → Owner) (partials free : Nat → List Nat) : Prop where
  small : ∀ sb c, owner sb = .small c → SmallOk P (ds sb) link sb c (free sb)
  heap : ∀ sb c, (ds sb).heap = some c → c = 0 ∨ owner sb = .small c ∨ owner sb = .held
  chain : ∀ c, Segment (fun sb => (ds sb).nextPartial) (partialList c).ptr (partials c) none
  nodup : ∀ c, (partials c).Nodup
  mem : ∀ c sb, sb ∈ partials c ↔ owner sb = .small c ∧ (ds sb).anchor.state ≠ .sbFull

structure CachesOk (link : Nat → Option Nat) (caches : Nat → Nat → TCacheBin)
    (cached : Nat → Nat → List Nat) (place : Nat → Option Place) : Prop where
  chain : ∀ tid c, ∃ stop, Segment link (caches tid c).block (cached tid c) stop
  blockNum : ∀ tid c, (caches tid c).blockNum = (cached tid c).length
  nodup : ∀ tid c, (cached tid c).Nodup
  mem : ∀ tid c x, x ∈ cached tid c ↔ place x = some (.cached tid c)

structure PlaceOk (P : Pool) (owner : Nat → Owner) (free : Nat → List Nat)
    (place : Nat → Option Place) : Prop where
  block : ∀ x, place x ≠ none ↔ ∃ sb c k, owner sb = .small c ∧ k < (getEntry c).blockNum ∧
    x = blockAddress P sb c k
  cached : ∀ x tid c, place x = some (.cached tid c) → owner (lookupDesc P x) = .small c
  mem : ∀ sb x, x ∈ free sb ↔ place x = some .free ∧ lookupDesc P x = sb
  nodup : ∀ sb, (free sb).Nodup

/-- The descriptor of a live large allocation. -/
structure LargeOk (P : Pool) (d : Descriptor) (owner : Nat → Owner) (q size : Nat) : Prop where
  superblock : d.superblock = some (lookupSb P q)
  heap : d.heap = some 0
  blockSize : d.blockSize = roundUp size kSuperBlockSize % 2 ^ 32
  owner : ∀ sb, q ≤ sb → sb < q + nrSuperBlocks size → owner sb = .large q

structure LiveOk (P : Pool) (live : Live) (ds : Nat → Descriptor) (owner : Nat → Owner)
    (place : Nat → Option Place) : Prop where
  place : ∀ x, place x = some .live ↔ ∃ size, live x = some size ∧ size ≤ kMaxSize
  small : ∀ x size, live x = some size → size ≤ kMaxSize →
    owner (lookupDesc P x) = .small (lookup size)
  large : ∀ p size, live p = some size → kMaxSize < size →
    p = lookupSb P (lookupDesc P p) ∧ LargeOk P (ds (lookupDesc P p)) owner (lookupDesc P p) size
  owner : ∀ sb q, owner sb = .large q → ∃ size, live (lookupSb P q) = some size ∧
    kMaxSize < size ∧ q ≤ sb ∧ sb < q + nrSuperBlocks size

structure Inv (P : Pool) (s : LRMalloc) (live : Live) (g : Layout) : Prop where
  tail : TailOk P s.bulkTail g.owner
  stack : StackOk s.descriptors s.availSb.ptr g.owner g.stack
  classes : ClassOk P s.descriptors s.partialList s.link g.owner g.partials g.free
  caches : CachesOk s.link s.caches g.cached g.place
  places : PlaceOk P g.owner g.free g.place
  live : LiveOk P live s.descriptors g.owner g.place

/-! ## Frames -/

theorem TailOk.congr {P : Pool} {bulkTail : Nat} {owner owner' : Nat → Owner}
    (h : TailOk P bulkTail owner) (hunused : ∀ sb, owner' sb = .unused ↔ owner sb = .unused)
    (hreserved : ∀ sb, owner' sb = .reserved ↔ owner sb = .reserved) :
    TailOk P bulkTail owner' := by
  obtain ⟨n, hn, hun⟩ := h.unused
  exact ⟨⟨n, hn, fun sb => (hunused sb).trans (hun sb)⟩, h.limit,
    fun sb => (hreserved sb).trans (h.reserved sb)⟩

theorem StackOk.congr {ds ds' : Nat → Descriptor} {head : Option Nat}
    {owner owner' : Nat → Owner} {stack : List Nat} (h : StackOk ds head owner stack)
    (hds : ∀ sb, owner sb = .stack → (ds' sb).nextFree = (ds sb).nextFree)
    (howner : ∀ sb, owner' sb = .stack ↔ owner sb = .stack) : StackOk ds' head owner' stack :=
  ⟨h.chain.congr fun sb hsb => hds sb ((h.mem sb).mp hsb), h.nodup,
    fun sb => (h.mem sb).trans (howner sb).symm⟩

theorem AnchorOk.congr {P : Pool} {link link' : Nat → Option Nat} {sb c : Nat} {anchor : Anchor}
    {free : List Nat} (h : AnchorOk P link sb c anchor free) (hlink : ∀ x ∈ free, link' x = link x) :
    AnchorOk P link' sb c anchor free := by
  cases h with
  | full => exact .full
  | part hchain hpos hlt => exact .part (hchain.congr hlink) hpos hlt
  | empty hchain hall => exact .empty (hchain.congr hlink) hall

theorem SmallOk.congr {P : Pool} {d : Descriptor} {link link' : Nat → Option Nat} {sb c : Nat}
    {free : List Nat} (h : SmallOk P d link sb c free) (hlink : ∀ x ∈ free, link' x = link x) :
    SmallOk P d link' sb c free :=
  { h with anchor := h.anchor.congr hlink }

section

variable {P : Pool} {ds ds' : Nat → Descriptor} {heads : Nat → StampedPtr}
  {link link' : Nat → Option Nat} {owner owner' : Nat → Owner} {partials free : Nat → List Nat}
  {place : Nat → Option Place}
  {caches : Nat → Nat → TCacheBin} {cached : Nat → Nat → List Nat} {live : Live}

theorem ClassOk.congr (h : ClassOk P ds heads link owner partials free)
    (hds : ∀ sb c, owner sb = .small c → ds' sb = ds sb)
    (hheap : ∀ sb c, (ds' sb).heap = some c → c = 0 ∨ owner' sb = .small c ∨ owner' sb = .held)
    (hlink : ∀ sb, ∀ x ∈ free sb, link' x = link x)
    (howner : ∀ sb c, owner' sb = .small c ↔ owner sb = .small c) :
    ClassOk P ds' heads link' owner' partials free where
  small sb c hsb := by
    have hold := (howner sb c).mp hsb
    rw [hds sb c hold]
    exact (h.small sb c hold).congr (hlink sb)
  heap := hheap
  chain c := (h.chain c).congr fun sb hsb => by
    rw [hds sb c ((h.mem c sb).mp hsb).1]
  nodup := h.nodup
  mem c sb := by
    rw [h.mem, howner]
    refine and_congr_right fun hsb => ?_
    rw [hds sb c hsb]

theorem CachesOk.congr (h : CachesOk link caches cached place)
    (hlink : ∀ tid c, ∀ x ∈ cached tid c, link' x = link x) :
    CachesOk link' caches cached place where
  chain tid c := (h.chain tid c).imp fun _ hchain => hchain.congr (hlink tid c)
  blockNum := h.blockNum
  nodup := h.nodup
  mem := h.mem

theorem PlaceOk.congr (h : PlaceOk P owner free place)
    (howner : ∀ sb c, owner' sb = .small c ↔ owner sb = .small c) :
    PlaceOk P owner' free place where
  block x := by simp only [h.block, howner]
  cached x tid c hx := (howner _ c).mpr (h.cached x tid c hx)
  mem := h.mem
  nodup := h.nodup

theorem LiveOk.set {place' : Nat → Option Place} (h : LiveOk P live ds owner place)
    (hplace : ∀ x, place' x = some .live ↔ place x = some .live)
    (hds : ∀ sb, owner sb = .large sb → ds' sb = ds sb)
    (hsmall : ∀ x c, place x = some .live → owner (lookupDesc P x) = .small c →
      owner' (lookupDesc P x) = .small c)
    (hlarge : ∀ sb q, owner' sb = .large q ↔ owner sb = .large q) :
    LiveOk P live ds' owner' place' where
  place x := (hplace x).trans (h.place x)
  small x size hx hle := hsmall x _ ((h.place x).mpr ⟨size, hx, hle⟩) (h.small x size hx hle)
  large p size hp hlt := by
    obtain ⟨hstart, hok⟩ := h.large p size hp hlt
    have hpos := nrSuperBlocks_pos hlt
    refine ⟨hstart, ?_⟩
    rw [hds _ (hok.owner _ (Nat.le_refl _) (by omega))]
    exact ⟨hok.superblock, hok.heap, hok.blockSize,
      fun sb hle hlt => (hlarge sb _).mpr (hok.owner sb hle hlt)⟩
  owner sb q hsb := h.owner sb q ((hlarge sb q).mp hsb)

theorem LiveOk.congr (h : LiveOk P live ds owner place)
    (hds : ∀ sb, owner sb = .large sb → ds' sb = ds sb)
    (hsmall : ∀ sb c, owner' sb = .small c ↔ owner sb = .small c)
    (hlarge : ∀ sb q, owner' sb = .large q ↔ owner sb = .large q) :
    LiveOk P live ds' owner' place :=
  h.set (fun _ => Iff.rfl) hds (fun _ c _ hc => (hsmall _ c).mpr hc) hlarge

end

end Libcrpm.LRMalloc
