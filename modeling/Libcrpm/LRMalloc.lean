import Libcrpm.SizeClass
import Libcrpm.StampedPtr

/-!
# The allocator

`lrmalloc_allocator.h` and `lrmalloc_allocator.cpp`, one call at a time.  Nothing comes between
the load of a word and the exchange that follows it, so an exchange that expects what was just
loaded succeeds; only `alloc_small_sb` may come with a stamp from before.  Loops whose end the
code does not bound have a fuel argument and yield `none` when it is used up.

Descriptors are given by their index, which is that of their superblock, and blocks by their
address.  A call that would dereference a null pointer leaves the state as it is.
-/

namespace Libcrpm

def kMinAllocateSuperBlockSize : Nat := 2 <<< 20
def kDescriptorSize : Nat := kCacheLineSize
/-- `sizeof(Metadata)`: the header, the heaps and the roots. -/
def kMetadataSize : Nat := 64 + kMaxSizeClasses * kCacheLineSize + 1024 * 8

theorem kMinAllocateSuperBlockSize_eq : kMinAllocateSuperBlockSize = 2097152 := rfl

/-- The memory of the pool: `engine->get_address()` and `engine->get_capacity()`.  It is mapped
in user space, the lower half of the addresses. -/
structure Pool where
  base : Nat
  capacity : Nat
  aligned : base % kPageSize = 0
  fits : base + capacity < 2 ^ 63

namespace Pool

def firstSb (P : Pool) : Nat :=
  P.base + (roundUp kMetadataSize kPageSize +
    roundUp (P.capacity / kSuperBlockSize * kDescriptorSize) kPageSize)

def limit (P : Pool) : Nat := P.base + P.capacity

end Pool

inductive SuperBlockState where
  | sbInvalid | sbEmpty | sbPartial | sbFull
deriving DecidableEq, Repr

def bits31 (n : Nat) : Nat := n % 2 ^ 31

structure Anchor where
  avail : Nat
  count : Nat
  state : SuperBlockState
deriving DecidableEq

structure Descriptor where
  nextFree : Option Nat
  nextPartial : Option Nat
  anchor : Anchor
  superblock : Option Nat
  heap : Option Nat
  blockSize : Nat
  maxCount : Nat
deriving DecidableEq

def Descriptor.new : Descriptor where
  nextFree := none
  nextPartial := none
  anchor := ⟨0, 0, .sbInvalid⟩
  superblock := none
  heap := none
  blockSize := 0
  maxCount := 0

/-- `LRMallocAllocator`; `link` is the `pptr` at the start of a block. -/
structure LRMalloc where
  availSb : StampedPtr
  partialList : Nat → StampedPtr
  descriptors : Nat → Descriptor
  bulkTail : Nat
  caches : Nat → Nat → TCacheBin
  link : Nat → Option Nat

namespace LRMalloc

def lookupDesc (P : Pool) (sb : Nat) : Nat := (sb - P.firstSb) >>> kSuperBlockShift
def lookupSb (P : Pool) (desc : Nat) : Nat := P.firstSb + desc <<< kSuperBlockShift

def setDescriptor (s : LRMalloc) (desc : Nat) (d : Descriptor) : LRMalloc :=
  { s with descriptors := Function.update s.descriptors desc d }

def setBin (s : LRMalloc) (tid c : Nat) (bin : TCacheBin) : LRMalloc :=
  { s with caches := Function.update s.caches tid (Function.update (s.caches tid) c bin) }

def setLink (s : LRMalloc) (block : Nat) (next : Option Nat) : LRMalloc :=
  { s with link := Function.update s.link block next }

/-! ## Bulk allocation -/

inductive BulkResult where
  | ok (address : Nat)
  | invalid
  | noMemory

def bulkAllocate (P : Pool) (s : LRMalloc) (alignment size : Nat) : BulkResult × LRMalloc :=
  let a := BitVec.ofNat 64 alignment
  if a &&& (~~~a + 1) ≠ a ∨ alignment < 8 then (.invalid, s)
  else
    let adjust := s.bulkTail &&& (alignment - 1)
    let res := if adjust ≠ 0 then s.bulkTail + (alignment - adjust) else s.bulkTail
    let newTail := (res + size) % 2 ^ 64
    if P.limit < newTail then (.noMemory, s)
    else (.ok res, { s with bulkTail := newTail })

/-! ## The stack of superblocks -/

/-- The loop of `fill_sb_list` over the descriptors behind `desc`, and the last of them. -/
def linkDescriptors (ds : Nat → Descriptor) (desc : Nat) : Nat → (Nat → Descriptor) × Nat
  | 0 => (ds, desc)
  | rounds + 1 =>
      let ds := Function.update ds desc { ds desc with nextFree := some (desc + 1) }
      linkDescriptors (Function.update ds (desc + 1) .new) (desc + 1) rounds

def fillSbList (P : Pool) (s : LRMalloc) (sb count : Nat) : LRMalloc :=
  let start := lookupDesc P sb
  let (ds, desc) := linkDescriptors (Function.update s.descriptors start .new) start (count - 1)
  { s with
    descriptors := Function.update ds desc { ds desc with nextFree := s.availSb.ptr }
    availSb := ⟨some start, s.availSb.stamp + 1⟩ }

def retireLargeSb (P : Pool) (s : LRMalloc) (sb size : Nat) : LRMalloc :=
  fillSbList P s sb (size / kSuperBlockSize)

def retireSmallSb (P : Pool) (s : LRMalloc) (sb : Nat) : LRMalloc :=
  let desc := lookupDesc P sb
  { s with
    descriptors := Function.update s.descriptors desc { Descriptor.new with nextFree := s.availSb.ptr }
    availSb := ⟨some desc, s.availSb.stamp + 1⟩ }

/-- `alloc_small_sb` when `old_desc` is null; the new value of that variable. -/
def refillStack (P : Pool) (s : LRMalloc) (size : Nat) : Option Nat × LRMalloc :=
  match bulkAllocate P s kPageSize size with
  | (.ok sbBase, t) => (some (lookupDesc P sbBase), fillSbList P t sbBase (size / kSuperBlockSize))
  | (_, t) => (none, t)

/-- The loop of `alloc_small_sb`, with its variables `old_desc` and `old_stamp`; an empty stack
is refilled with `size` bytes. -/
def allocSmallLoop (P : Pool) (size : Nat) :
    Nat → LRMalloc → Option Nat → BitVec 8 → Option (Nat × LRMalloc)
  | 0, _, _, _ => none
  | fuel + 1, s, some oldDesc, oldStamp =>
      let newDesc := (s.descriptors oldDesc).nextFree
      let exchange := s.availSb.compareExchange (some oldDesc) newDesc oldStamp (oldStamp + 1)
      if exchange.success then some (lookupSb P oldDesc, { s with availSb := exchange.value })
      else allocSmallLoop P size fuel s exchange.expected exchange.stamp
  | fuel + 1, s, none, oldStamp =>
      let refill := refillStack P s size
      allocSmallLoop P size fuel refill.2 refill.1 oldStamp

def allocSmallSb (P : Pool) (fuel : Nat) (s : LRMalloc) : Option (Nat × LRMalloc) :=
  allocSmallLoop P kMinAllocateSuperBlockSize fuel s s.availSb.ptr s.availSb.stamp

/-- Check that the next `rounds` descriptors of the stack are neighbours; the last of them. -/
def walkStack (ds : Nat → Descriptor) : Nat → Nat → Option Nat
  | 0, desc => some desc
  | rounds + 1, desc =>
      if (ds desc).nextFree = some (desc + 1) then walkStack ds rounds (desc + 1) else none

/-- The loop at the end of `alloc_large_sb`. -/
def allocLargeBulk (P : Pool) : Nat → LRMalloc → Nat → Option (Option Nat × LRMalloc)
  | 0, _, _ => none
  | fuel + 1, s, size =>
      match bulkAllocate P s kPageSize size with
      | (.ok sbAddr, t) => some (some sbAddr, t)
      | (.noMemory, t) => some (none, t)
      | (.invalid, t) => allocLargeBulk P fuel t size

def allocLargeSb (P : Pool) (fuel : Nat) (s : LRMalloc) (size : Nat) :
    Option (Option Nat × LRMalloc) :=
  match s.availSb.ptr with
  | none => allocLargeBulk P fuel s size
  | some start =>
      match walkStack s.descriptors (size / kSuperBlockSize - 1) start with
      | none => allocLargeBulk P fuel s size
      | some desc =>
          let exchange := s.availSb.compareExchange (some start) (s.descriptors desc).nextFree
            s.availSb.stamp (s.availSb.stamp + 1)
          if exchange.success then some (some (lookupSb P start), { s with availSb := exchange.value })
          else allocLargeBulk P fuel s size

/-! ## Partial superblocks -/

def heapPushPartial (s : LRMalloc) (desc : Nat) : LRMalloc :=
  match (s.descriptors desc).heap with
  | none => s
  | some heap =>
      let old := s.partialList heap
      { s with
        descriptors := Function.update s.descriptors desc
          { s.descriptors desc with nextPartial := old.ptr }
        partialList := Function.update s.partialList heap ⟨some desc, old.stamp + 1⟩ }

def heapPopPartial (s : LRMalloc) (heap : Nat) : Option Nat × LRMalloc :=
  let old := s.partialList heap
  match old.ptr with
  | none => (none, s)
  | some desc => (some desc, { s with
      partialList := Function.update s.partialList heap
        ⟨(s.descriptors desc).nextPartial, old.stamp + 1⟩ })

/-! ## Thread caches -/

def mallocFromPartial (P : Pool) : Nat → LRMalloc → Nat → Nat → Option (Nat × LRMalloc)
  | 0, _, _, _ => none
  | fuel + 1, s, tid, c =>
      match heapPopPartial s c with
      | (none, t) => some (0, t)
      | (some desc, t) =>
          let d := t.descriptors desc
          let superblock := d.superblock.getD 0
          if d.anchor.state = .sbEmpty then
            mallocFromPartial P fuel (retireSmallSb P t superblock) tid c
          else
            let block := superblock + d.anchor.avail * d.blockSize
            let anchor : Anchor := ⟨bits31 d.maxCount, 0, .sbFull⟩
            let t := t.setDescriptor desc { d with anchor := anchor }
            some (d.anchor.count,
              t.setBin tid c ((t.caches tid c).pushList (some block) d.anchor.count))

/-- The loop of `malloc_from_new_sb` that links the blocks of a superblock. -/
def linkBlocks (link : Nat → Option Nat) (superblock blockSize : Nat) : Nat → Nat → Option Nat
  | 0 => link
  | idx + 1 => Function.update (linkBlocks link superblock blockSize idx)
      (superblock + idx * blockSize) (some (superblock + (idx + 1) * blockSize))

def mallocFromNewSb (P : Pool) (fuel : Nat) (s : LRMalloc) (tid c : Nat) :
    Option (Nat × LRMalloc) :=
  let entry := SizeClass.getEntry c
  match allocSmallSb P fuel s with
  | none => none
  | some (superblock, t) =>
      let d : Descriptor := { Descriptor.new with
        heap := some c
        blockSize := entry.blockSize
        maxCount := entry.blockNum
        superblock := some superblock
        anchor := ⟨bits31 entry.blockNum, 0, .sbFull⟩ }
      let t := t.setDescriptor (lookupDesc P superblock) d
      let t := { t with link := linkBlocks t.link superblock entry.blockSize (entry.blockNum - 1) }
      some (entry.blockNum,
        t.setBin tid c ((t.caches tid c).pushList (some superblock) entry.blockNum))

def fillCache (P : Pool) (fuel : Nat) (s : LRMalloc) (tid c : Nat) : Option LRMalloc :=
  match mallocFromPartial P fuel s tid c with
  | none => none
  | some (blockNum, t) =>
      if blockNum = 0 then (mallocFromNewSb P fuel t tid c).map Prod.snd else some t

/-- The inner loop of `flush_cache`: follow the cache for as long as it stays in one superblock.
The last block and the number of blocks. -/
def sameSuperblock (link : Nat → Option Nat) (superblock sbSize : Nat) :
    Nat → Nat → Nat → Nat × Nat
  | 0, tail, count => (tail, count)
  | rest + 1, tail, count =>
      match link tail with
      | none => (tail, count)
      | some ptr =>
          if ptr < superblock ∨ superblock + sbSize ≤ ptr then (tail, count)
          else sameSuperblock link superblock sbSize rest ptr (count + 1)

/-- The anchor after `blockCount` blocks, the first of them with index `idx`, were returned. -/
def flushAnchor (old : Anchor) (idx blockCount maxCount : Nat) : Anchor :=
  if old.count + blockCount = maxCount then ⟨bits31 idx, bits31 (maxCount - 1), .sbEmpty⟩
  else ⟨bits31 idx, bits31 (old.count + blockCount),
    if old.state = .sbFull then .sbPartial else old.state⟩

/-- One round of `flush_cache`. -/
def flushRun (P : Pool) (s : LRMalloc) (tid c : Nat) : LRMalloc :=
  let entry := SizeClass.getEntry c
  let bin := s.caches tid c
  match bin.block with
  | none => s
  | some head =>
      let desc := lookupDesc P head
      let d := s.descriptors desc
      let superblock := d.superblock.getD 0
      let (tail, blockCount) :=
        sameSuperblock s.link superblock entry.sbSize (bin.blockNum - 1) head 1
      let s := s.setBin tid c (bin.popList (s.link tail) blockCount)
      let idx := (head - superblock) % 2 ^ 32 / entry.blockSize
      let s := s.setLink tail (some (superblock + d.anchor.avail * entry.blockSize))
      let anchor := flushAnchor d.anchor idx blockCount d.maxCount
      let s := s.setDescriptor desc { d with anchor := anchor }
      if d.anchor.state = .sbFull then
        if anchor.state = .sbEmpty then retireSmallSb P s superblock else heapPushPartial s desc
      else s

/-- `flush_cache`.  Every round returns at least one block. -/
def flushLoop (P : Pool) : Nat → LRMalloc → Nat → Nat → LRMalloc
  | 0, s, _, _ => s
  | rounds + 1, s, tid, c =>
      if 0 < (s.caches tid c).blockNum then flushLoop P rounds (flushRun P s tid c) tid c else s

def flushCache (P : Pool) (s : LRMalloc) (tid c : Nat) : LRMalloc :=
  flushLoop P (s.caches tid c).blockNum s tid c

def pushBlock (s : LRMalloc) (tid c block : Nat) : LRMalloc :=
  let bin := s.caches tid c
  (s.setLink block bin.block).setBin tid c ⟨some block, bin.blockNum + 1⟩

def popBlock (s : LRMalloc) (tid c : Nat) : Option Nat × LRMalloc :=
  let bin := s.caches tid c
  match bin.block with
  | none => (none, s)
  | some block => (some block, s.setBin tid c ⟨s.link block, bin.blockNum - 1⟩)

/-! ## Calls -/

/-- `pmalloc`, the rounding of large sizes in 64 bits. -/
def pmalloc (P : Pool) (fuel : Nat) (s : LRMalloc) (tid size : Nat) :
    Option (Option Nat × LRMalloc) :=
  if kMaxSize < size then
    let roundedSize := roundUp size kSuperBlockSize % 2 ^ 64
    match allocLargeSb P fuel s roundedSize with
    | none => none
    | some (none, t) => some (none, t)
    | some (some ptr, t) =>
        let desc := lookupDesc P ptr
        some (some ptr, t.setDescriptor desc { t.descriptors desc with
          heap := some 0
          blockSize := roundedSize % 2 ^ 32
          maxCount := 1
          superblock := some ptr
          anchor := ⟨0, 0, .sbFull⟩ })
  else
    let c := SizeClass.lookup size
    if (s.caches tid c).blockNum = 0 then
      (fillCache P fuel s tid c).map fun t => popBlock t tid c
    else some (popBlock s tid c)

def pfree (P : Pool) (s : LRMalloc) (tid : Nat) : Option Nat → LRMalloc
  | none => s
  | some ptr =>
      let d := s.descriptors (lookupDesc P ptr)
      match d.heap with
      | none => s
      | some 0 => retireLargeSb P s (d.superblock.getD 0) d.blockSize
      | some c =>
          let entry := SizeClass.getEntry c
          let s := if entry.cacheBlockNum ≤ (s.caches tid c).blockNum then flushCache P s tid c else s
          pushBlock s tid c ptr

/-! ## Opening -/

/-- Nothing was allocated yet. -/
def blank (P : Pool) : LRMalloc where
  availSb := ⟨none, 0⟩
  partialList _ := ⟨none, 0⟩
  descriptors _ := .new
  bulkTail := P.firstSb
  caches _ _ := .empty
  link _ := none

/-- The first superblock of the `size` bytes stays unused. -/
def fillFirst (P : Pool) (s : LRMalloc) (size : Nat) : Option LRMalloc :=
  match bulkAllocate P s kPageSize size with
  | (.ok newSb, t) => some (fillSbList P t (newSb + kSuperBlockSize) (size / kSuperBlockSize - 1))
  | _ => none

/-- `setup_metadata` of a new pool; `none` if not even the first superblocks fit. -/
def setupMetadata (P : Pool) : Option LRMalloc := fillFirst P (blank P) kMinAllocateSuperBlockSize

end LRMalloc

end Libcrpm
