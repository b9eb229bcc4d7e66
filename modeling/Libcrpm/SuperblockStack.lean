import Libcrpm.LRMalloc
import Libcrpm.Memory.LinkedList
import Libcrpm.Program.History
import Libcrpm.Program.Machine

/-!
# The stack of superblocks between threads

`alloc_small_sb`, `alloc_large_sb`, `fill_sb_list` and `retire_small_sb` of the allocator, taken
apart into the loads, stores and exchanges that threads interleave.  Superblocks and their
descriptors are counted from `first_sb`.
-/

namespace Libcrpm

open Program

inductive SbEvent where
  | pushed (sb : Nat)
  | handed (sb : Nat)
deriving DecidableEq

def SbEvent.sb : SbEvent → Nat
  | .pushed sb | .handed sb => sb

/-- Who has a superblock. -/
inductive SbOwner where
  | unused | stack | program
  | thread (tid : Nat)
deriving DecidableEq

/-- Who has called for a push; `alloc_small_sb` keeps its `old_stamp` meanwhile. -/
inductive PushCaller where
  | retireSmallSb | retireLargeSb
  | allocSmallSb (oldStamp : BitVec 8)
deriving DecidableEq

/-- The superblocks that are pushed together. -/
structure Push where
  start : Nat
  count : Nat
  caller : PushCaller
deriving DecidableEq

namespace Push

def last (p : Push) : Nat := p.start + (p.count - 1)

def nodes (p : Push) : List Nat := List.range' p.start (p.count - 1 + 1)

end Push

/-- Where a thread is, with its local variables. -/
inductive SbPc where
  | idle
  /-- The top of the loop of `alloc_small_sb`. -/
  | smallTop (oldDesc : Option Nat) (oldStamp : BitVec 8)
  | smallExchange (oldDesc : Nat) (newDesc : Option Nat) (oldStamp : BitVec 8)
  /-- The loop over the chain in `alloc_large_sb`. -/
  | largeWalk (descStart desc i count : Nat) (oldStamp : BitVec 8)
  | largeExchange (descStart : Nat) (desc : Option Nat) (count : Nat) (oldStamp : BitVec 8)
  | largeBulk (count : Nat)
  /-- Before `new(desc) Descriptor()` of the superblock number `i` to push. -/
  | construct (p : Push) (i : Nat)
  | link (p : Push) (i : Nat)
  | loadHead (p : Push)
  | storeNext (p : Push) (oldHead : Option Nat) (oldStamp : BitVec 8)
  | pushExchange (p : Push) (oldHead : Option Nat) (oldStamp : BitVec 8)
deriving DecidableEq

namespace SbPc

/-- After the push. -/
def afterPush (p : Push) : SbPc :=
  match p.caller with
  | .allocSmallSb oldStamp => .smallTop (some p.start) oldStamp
  | _ => .idle

/-- After a failed exchange that found `head` and `stamp`: only `retire_small_sb` loads again. -/
def retryPush (p : Push) (head : Option Nat) (stamp : BitVec 8) : SbPc :=
  match p.caller with
  | .retireSmallSb => .loadHead p
  | _ => .storeNext p head stamp

end SbPc

/-- `avail_sb`, the `next_free` of the descriptors, `bulk_tail` in superblocks, and the threads.
The rest is only there to state what happens: the number of exchanges, that number when a thread
last read the stamp for its `alloc`, who has a superblock, and what was pushed and handed out. -/
structure SuperblockStack where
  availSb : StampedPtr
  nextFree : Nat → Option Nat
  bulkTail : Nat
  pc : Nat → SbPc
  version : Nat
  loaded : Nat → Nat
  owner : Nat → SbOwner
  history : List SbEvent

namespace SuperblockStack

/-- The superblocks that `alloc_small_sb` asks `bulk_allocate` for. -/
def bulkCount : Nat := kMinAllocateSuperBlockSize / kSuperBlockSize

def goto (s : SuperblockStack) (tid : Nat) (pc : SbPc) : SuperblockStack :=
  { s with pc := Function.update s.pc tid pc }

def setNextFree (s : SuperblockStack) (desc : Nat) (next : Option Nat) : SuperblockStack :=
  { s with nextFree := Function.update s.nextFree desc next }

def give (s : SuperblockStack) (nodes : List Nat) (owner : SbOwner) : SuperblockStack :=
  { s with owner := fun sb => if sb ∈ nodes then owner else s.owner sb }

def recordLoad (s : SuperblockStack) (tid : Nat) : SuperblockStack :=
  { s with loaded := Function.update s.loaded tid s.version }

def exchange (s : SuperblockStack) (value : StampedPtr) (events : List SbEvent) : SuperblockStack :=
  { s with availSb := value, version := s.version + 1, history := s.history ++ events }

/-! ## Calls -/

def allocSmallSb (s : SuperblockStack) (tid : Nat) : SuperblockStack :=
  (s.recordLoad tid).goto tid (.smallTop s.availSb.ptr s.availSb.stamp)

def allocLargeSb (s : SuperblockStack) (tid count : Nat) : SuperblockStack :=
  (s.recordLoad tid).goto tid
    (match s.availSb.ptr with
      | some descStart => .largeWalk descStart descStart 1 count s.availSb.stamp
      | none => .largeBulk count)

def fillSbList (s : SuperblockStack) (tid start count : Nat) (caller : PushCaller) :
    SuperblockStack :=
  (s.give (Push.nodes ⟨start, count, caller⟩) (.thread tid)).goto tid
    (.construct ⟨start, count, caller⟩ 0)

def retireSmallSb (s : SuperblockStack) (tid sb : Nat) : SuperblockStack :=
  s.fillSbList tid sb 1 .retireSmallSb

def retireLargeSb (s : SuperblockStack) (tid sb count : Nat) : SuperblockStack :=
  s.fillSbList tid sb count .retireLargeSb

/-! ## Exchanges -/

def exchangeSmall (s : SuperblockStack) (tid oldDesc : Nat) (newDesc : Option Nat)
    (oldStamp : BitVec 8) : SuperblockStack :=
  let r := s.availSb.compareExchange (some oldDesc) newDesc oldStamp (oldStamp + 1)
  if r.success then
    ((s.exchange r.value [.handed oldDesc]).give [oldDesc] .program).goto tid .idle
  else
    -- A null pointer leaves the stamp of the load before.
    (if r.expected = none then s else s.recordLoad tid).goto tid (.smallTop r.expected r.stamp)

def exchangeLarge (s : SuperblockStack) (tid descStart : Nat) (desc : Option Nat) (count : Nat)
    (oldStamp : BitVec 8) : SuperblockStack :=
  let r := s.availSb.compareExchange (some descStart) desc oldStamp (oldStamp + 1)
  let nodes := List.range' descStart count
  if r.success then
    ((s.exchange r.value (nodes.map SbEvent.handed)).give nodes .program).goto tid .idle
  else s.goto tid (.largeBulk count)

def exchangePush (s : SuperblockStack) (tid : Nat) (p : Push) (oldHead : Option Nat)
    (oldStamp : BitVec 8) : SuperblockStack :=
  let r := s.availSb.compareExchange oldHead (some p.start) oldStamp (oldStamp + 1)
  if r.success then
    ((s.exchange r.value (p.nodes.map SbEvent.pushed)).give p.nodes .stack).goto tid (.afterPush p)
  else s.goto tid (.retryPush p r.expected r.stamp)

/-! ## Steps -/

def advance (s : SuperblockStack) (tid : Nat) : Option SuperblockStack :=
  match s.pc tid with
  | .smallTop (some oldDesc) oldStamp =>
      some (s.goto tid (.smallExchange oldDesc (s.nextFree oldDesc) oldStamp))
  | .smallExchange oldDesc newDesc oldStamp => some (s.exchangeSmall tid oldDesc newDesc oldStamp)
  | .largeWalk descStart desc i count oldStamp =>
      some (s.goto tid
        (if i < count then
          if s.nextFree desc ≠ some (desc + 1) then .largeBulk count
          else .largeWalk descStart (desc + 1) (i + 1) count oldStamp
        else .largeExchange descStart (s.nextFree desc) count oldStamp))
  | .largeExchange descStart desc count oldStamp =>
      some (s.exchangeLarge tid descStart desc count oldStamp)
  | .construct p i =>
      some ((s.setNextFree (p.start + i) none).goto tid
        (if i + 1 < p.count then .link p i else .loadHead p))
  | .link p i =>
      some ((s.setNextFree (p.start + i) (some (p.start + i + 1))).goto tid (.construct p (i + 1)))
  | .loadHead p => some (s.goto tid (.storeNext p s.availSb.ptr s.availSb.stamp))
  | .storeNext p oldHead oldStamp =>
      some ((s.setNextFree p.last oldHead).goto tid (.pushExchange p oldHead oldStamp))
  | .pushExchange p oldHead oldStamp => some (s.exchangePush tid p oldHead oldStamp)
  | .smallTop none _ | .largeBulk _ | .idle => none

/-- A weak exchange that fails on the expected word. -/
def failSpuriously (s : SuperblockStack) (tid : Nat) : Option SuperblockStack :=
  match s.pc tid with
  | .pushExchange p oldHead oldStamp =>
      if s.availSb = ⟨oldHead, oldStamp⟩ then some (s.goto tid (.retryPush p oldHead oldStamp))
      else none
  | _ => none

/-- What `bulk_allocate` returns: `0`, `-ENOMEM`, or `-EAGAIN` when another thread was faster. -/
inductive BulkCode where
  | ok | noMemory | again

def bulkAllocate (limit : Nat) (s : SuperblockStack) (tid : Nat) (code : BulkCode) :
    Option SuperblockStack :=
  match s.pc tid, code with
  | .smallTop none oldStamp, .ok =>
      if s.bulkTail + bulkCount ≤ limit then
        some ({ s with bulkTail := s.bulkTail + bulkCount }.fillSbList tid s.bulkTail bulkCount
          (.allocSmallSb oldStamp))
      else none
  | .smallTop none _, _ => some s
  | .largeBulk count, .ok =>
      let nodes := List.range' s.bulkTail count
      if s.bulkTail + count ≤ limit then
        some (({ s with
          bulkTail := s.bulkTail + count
          history := s.history ++ nodes.map SbEvent.handed }.give nodes .program).goto tid .idle)
      else none
  | .largeBulk count, .noMemory =>
      if s.bulkTail + count ≤ limit then none else some (s.goto tid .idle)
  | .largeBulk _, .again => some s
  | _, _ => none

inductive SbLabel where
  | allocSmallSb (tid : Nat)
  | allocLargeSb (tid count : Nat)
  | retireSmallSb (tid sb : Nat)
  | retireLargeSb (tid sb count : Nat)
  | advance (tid : Nat)
  | failSpuriously (tid : Nat)
  | bulkAllocate (tid : Nat) (code : BulkCode)

/-- Only the program's superblocks are retired, and sizes are at least one superblock. -/
def step (limit : Nat) : SbLabel → SuperblockStack → Option SuperblockStack
  | .allocSmallSb tid, s => if s.pc tid = .idle then some (s.allocSmallSb tid) else none
  | .allocLargeSb tid count, s =>
      if s.pc tid = .idle ∧ 0 < count then some (s.allocLargeSb tid count) else none
  | .retireSmallSb tid sb, s =>
      if s.pc tid = .idle ∧ s.owner sb = .program then some (s.retireSmallSb tid sb) else none
  | .retireLargeSb tid sb count, s =>
      if s.pc tid = .idle ∧ ∀ x ∈ Push.nodes ⟨sb, count, .retireLargeSb⟩, s.owner x = .program then
        some (s.retireLargeSb tid sb count)
      else none
  | .advance tid, s => s.advance tid
  | .failSpuriously tid, s => s.failSpuriously tid
  | .bulkAllocate tid code, s => bulkAllocate limit s tid code

/-- After `setup_metadata`, which does not use the first superblock. -/
def setup : SuperblockStack where
  availSb := ⟨some 1, 1#8⟩
  nextFree sb := if 1 ≤ sb ∧ sb + 1 < bulkCount then some (sb + 1) else none
  bulkTail := bulkCount
  pc _ := .idle
  version := 1
  loaded _ := 0
  owner sb := if sb ∈ List.range' 1 (bulkCount - 1) then .stack else .unused
  history := (List.range' 1 (bulkCount - 1)).map SbEvent.pushed

def machine (limit : Nat) : Machine SuperblockStack SbLabel where
  init := setup
  step := step limit

/-! ## What is to hold -/

/-- Between two times that a superblock is handed out it is pushed. -/
def HandedOnce (history : List SbEvent) : Prop :=
  ∀ sb, Separated (.handed sb) (.pushed sb) history

/-- The superblock was pushed, and not handed out since. -/
def Available (history : List SbEvent) (sb : Nat) : Prop :=
  Since (· = .pushed sb) (· = .handed sb) history

/-- What is available can be found from `avail_sb`. -/
def NoneLost (s : SuperblockStack) : Prop :=
  ∃ l, Memory.Segment s.nextFree s.availSb.ptr l none ∧ ∀ sb, Available s.history sb → sb ∈ l

/-- An exchange that takes superblocks from the stack succeeds less than 256 exchanges after the
load of its stamp. -/
def Timely : SbLabel → SuperblockStack → Prop
  | .advance tid, s =>
      match s.pc tid with
      | .smallExchange oldDesc _ oldStamp =>
          s.availSb = ⟨some oldDesc, oldStamp⟩ → s.version < s.loaded tid + 256
      | .largeExchange descStart _ _ oldStamp =>
          s.availSb = ⟨some descStart, oldStamp⟩ → s.version < s.loaded tid + 256
      | _ => True
  | _, _ => True

end SuperblockStack

end Libcrpm
