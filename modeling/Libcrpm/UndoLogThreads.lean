import Libcrpm.FlushSections
import Libcrpm.Program.Machine
import Libcrpm.UndoLog

/-!
# Threads over the undo log

`hook_routine` taken apart into the steps that threads interleave.  A flush only counts for the
fence of its own thread.  Between their hooks the threads store to blocks they have hooked, and
all of them wait while some run `checkpoint`.
-/

namespace Libcrpm.UndoLogEngine

open Libcrpm.Persistence Libcrpm.Program

/-- Where a thread is in `hook_routine`, with `block_id`, `last_log_head` and the words of the
payload it has copied. -/
inductive HookPc where
  /-- Outside of the engine. -/
  | app
  | test (blockId : Nat)
  | acquire (blockId : Nat)
  | retest (blockId : Nat)
  /-- `ReleaseLock` of a block that another thread has logged meanwhile. -/
  | giveUp (blockId : Nat)
  | reserve (blockId : Nat)
  | capacity (blockId lastLogHead : Nat)
  /-- In `exit`, while the other threads may still run. -/
  | exited (blockId : Nat)
  | magic (blockId lastLogHead : Nat)
  | offset (blockId lastLogHead : Nat)
  | size (blockId lastLogHead : Nat)
  | flushEntry (blockId lastLogHead : Nat)
  | payload (blockId lastLogHead copied : Nat)
  | fenceEntry (blockId lastLogHead : Nat)
  /-- The condition of the loop around the exchange. -/
  | publish (blockId lastLogHead : Nat)
  | exchange (blockId lastLogHead : Nat)
  | flushHead (blockId lastLogHead : Nat)
  | fenceHead (blockId lastLogHead : Nat)
  | setDirty (blockId : Nat)
  | release (blockId : Nat)
  | record (blockId : Nat)
deriving DecidableEq

/-- The engine, the threads, and the blocks that the calls of a thread have returned for. -/
structure Threads where
  nrBlocks : Nat
  logCapacity : Nat
  mem : SharedMemory Loc Nat
  blockDirty : AtomicBitSet
  segmentLocks : Nat → Bool
  logHead : Nat
  flushBlocks : Nat → List Nat
  flushMode : FlushMode
  hasSnapshot : Bool
  pc : Nat → HookPc
  hooked : Nat → List Nat

namespace Threads

def goto (s : Threads) (tid : Nat) (pc : HookPc) : Threads :=
  { s with pc := Function.update s.pc tid pc }

def ret (s : Threads) (tid blockId : Nat) : Threads :=
  { s with
    pc := Function.update s.pc tid .app
    hooked := Function.update s.hooked tid (blockId :: s.hooked tid) }

def onMem (f : SharedMemory Loc Nat → SharedMemory Loc Nat) (s : Threads) :
    Threads :=
  { s with mem := f s.mem }

def setLock (s : Threads) (blockId : Nat) (held : Bool) : Threads :=
  { s with segmentLocks := Function.update s.segmentLocks (lockOf blockId) held }

def head (s : Threads) : Nat := s.mem.load .logHead

def entryWord (lastLogHead i : Nat) : Loc := .log (lastLogHead / kWordSize + i)

def entryLine (lastLogHead : Nat) : Loc → Bool
  | .log o => lastLogHead / kWordSize ≤ o && o < lastLogHead / kWordSize + kWordsPerCacheLine
  | _ => false

def recordBlock (s : Threads) (tid blockId : Nat) : Threads :=
  { s with flushBlocks := FlushLists.append s.flushBlocks tid blockId }

def copyWord (s : Threads) (tid blockId lastLogHead i : Nat) : Threads :=
  s.onMem fun m => m.ntStore tid (entryWord lastLogHead (kWordsPerCacheLine + i))
    (m.load (.data (blockId * kWordsPerBlock + i)))

def hookStep (s : Threads) (tid : Nat) : Option Threads :=
  match s.pc tid with
  | .app | .exited _ => none
  | .test blockId =>
      some (if s.blockDirty.test blockId then s.ret tid blockId else s.goto tid (.acquire blockId))
  | .acquire blockId =>
      if s.segmentLocks (lockOf blockId) then none
      else some ((s.setLock blockId true).goto tid (.retest blockId))
  | .retest blockId =>
      some (s.goto tid (if s.blockDirty.test blockId then .giveUp blockId else .reserve blockId))
  | .giveUp blockId => some ((s.setLock blockId false).ret tid blockId)
  | .reserve blockId =>
      some ({ s with logHead := s.logHead + logSize }.goto tid (.capacity blockId s.logHead))
  | .capacity blockId lastLogHead =>
      some (s.goto tid
        (if s.logCapacity ≤ lastLogHead + logSize then .exited blockId
        else .magic blockId lastLogHead))
  | .magic blockId lastLogHead =>
      some ((s.onMem fun m => m.store (entryWord lastLogHead 0) kLogEntryMagic).goto tid
        (.offset blockId lastLogHead))
  | .offset blockId lastLogHead =>
      some ((s.onMem fun m => m.store (entryWord lastLogHead 1) (blockId <<< kBlockShift)).goto tid
        (.size blockId lastLogHead))
  | .size blockId lastLogHead =>
      some ((s.onMem fun m => m.store (entryWord lastLogHead 2) kBlockSize).goto tid
        (.flushEntry blockId lastLogHead))
  | .flushEntry blockId lastLogHead =>
      some ((s.onMem fun m => m.flushAll tid (entryLine lastLogHead)).goto tid
        (.payload blockId lastLogHead 0))
  | .payload blockId lastLogHead copied =>
      some (if copied < kWordsPerBlock then
        (s.copyWord tid blockId lastLogHead copied).goto tid
          (.payload blockId lastLogHead (copied + 1))
        else s.goto tid (.fenceEntry blockId lastLogHead))
  | .fenceEntry blockId lastLogHead =>
      some ((s.onMem fun m => m.fence tid).goto tid (.publish blockId lastLogHead))
  | .publish blockId lastLogHead =>
      some (s.goto tid
        (if s.head < lastLogHead + logSize then .exchange blockId lastLogHead
        else .setDirty blockId))
  | .exchange blockId lastLogHead =>
      some (if s.head = lastLogHead then
        (s.onMem fun m => m.store .logHead (lastLogHead + logSize)).goto tid
          (.flushHead blockId lastLogHead)
        else s.goto tid (.publish blockId lastLogHead))
  | .flushHead blockId lastLogHead =>
      some ((s.onMem fun m => m.flushAll tid fun l => l = .logHead).goto tid
        (.fenceHead blockId lastLogHead))
  | .fenceHead blockId _ => some ((s.onMem fun m => m.fence tid).goto tid (.setDirty blockId))
  | .setDirty blockId =>
      some ({ s with blockDirty := s.blockDirty.set blockId }.goto tid (.release blockId))
  | .release blockId => some ((s.setLock blockId false).goto tid (.record blockId))
  | .record blockId => some ((s.recordBlock tid blockId).ret tid blockId)

inductive Label where
  /-- A thread outside of the engine calls `hook_routine`. -/
  | call (tid addr : Nat)
  | hook (tid : Nat)
  /-- A thread outside of the engine stores to word `o` of the data area. -/
  | store (tid o value : Nat)
deriving DecidableEq

def step : Label → Threads → Option Threads
  | .call tid addr, s =>
      if s.pc tid = .app ∧ addr < s.nrBlocks <<< kBlockShift then
        some (s.goto tid (.test (addr >>> kBlockShift)))
      else none
  | .hook tid, s => s.hookStep tid
  | .store tid o value, s =>
      if s.pc tid = .app ∧ o / kWordsPerBlock ∈ s.hooked tid then
        some (s.onMem fun m => m.store (.data o) value)
      else none

/-- An epoch that begins in `s`. -/
def epoch (s : Threads) : Machine Threads Label := ⟨s, step⟩

/-- Where an epoch begins: the log is empty, no block is dirty, and the data area durably
contains `X`. -/
structure Fresh (X : Nat → Nat) (s : Threads) : Prop where
  logHead : s.logHead = 0
  published : (s.mem .logHead).Durably (· = 0)
  data : ∀ o, (s.mem (.data o)).Durably (· = X o)
  clean : ∀ blockId, s.blockDirty.test blockId = false
  idle : ∀ tid, s.pc tid = .app
  unhooked : ∀ tid, s.hooked tid = []

def opened (t : UndoLogEngine) : Threads where
  nrBlocks := t.nrBlocks
  logCapacity := t.logCapacity
  mem := .ofImage t.mem.load
  blockDirty := t.blockDirty
  segmentLocks := t.segmentLocks
  logHead := t.logHead
  flushBlocks := t.flushBlocks
  flushMode := t.flushMode
  hasSnapshot := t.hasSnapshot
  pc _ := .app
  hooked _ := []

theorem fresh_opened (nrBlocks logCapacity : Nat) {mem : File} (snapshot : Bool)
    (h : mem.load .logHead = 0) :
    Fresh (fun o => mem.load (.data o))
      (opened { construct nrBlocks logCapacity mem with hasSnapshot := snapshot }) where
  logHead := rfl
  published := SharedCell.durably_settled h
  data _ := SharedCell.durably_settled rfl
  clean := AtomicBitSet.test_allocate
  idle _ := rfl
  unhooked _ := rfl

/-! ## Checkpoint -/

def flushView (s : Threads) : FlushState Loc := ⟨s.mem, s.flushBlocks, s.flushMode⟩

def setFlushed (f : FlushState Loc) (s : Threads) : Threads :=
  { s with mem := f.mem, flushBlocks := f.flushBlocks, flushMode := f.flushMode }

def flushParallel (tid nrThreads : Nat) : Prog Threads Unit :=
  (FlushState.flushParallel blockLines tid nrThreads).through flushView setFlushed

/-- What `clear_dirty_bits_parallel` uses of the engine: neither the file nor the head of the log. -/
def clearView (s : Threads) : UndoLogEngine :=
  { construct s.nrBlocks s.logCapacity (Memory.ofImage fun _ => 0) with
    blockDirty := s.blockDirty
    flushBlocks := s.flushBlocks
    flushMode := s.flushMode }

def setBlocks (t : UndoLogEngine) (s : Threads) : Threads :=
  { s with blockDirty := t.blockDirty, flushBlocks := t.flushBlocks }

def clearDirtyBitsParallel (tid nrThreads : Nat) : Prog Threads Unit :=
  (UndoLogEngine.clearDirtyBitsParallel tid nrThreads).through clearView setBlocks

/-- What the leader does behind `clear_dirty_bits_parallel`. -/
def finishCheckpoint : Prog Threads Unit := do
  let hasSnapshot ← Prog.read hasSnapshot
  if hasSnapshot then pure () else
    Prog.act (onMem fun m => m.ntStore 0 .attributes kAttributeHasSnapshot)
    Prog.act fun s => { s with hasSnapshot := true }
  Prog.act (onMem fun m => m.ntStore 0 .logHead 0)
  Prog.act (onMem fun m => m.fence 0)
  Prog.act fun s => { s with logHead := 0 }

/-- A thread behind the barrier of `flush_parallel`.  The leader does not wait for the others to
leave `clear_dirty_bits_parallel`. -/
def endCheckpoint (tid nrThreads : Nat) : Prog Threads Unit := do
  clearDirtyBitsParallel tid nrThreads
  if tid = 0 then finishCheckpoint

/-- `checkpoint` called by `nrThreads` threads, until all calls have returned; the schedules order
the steps of the threads.  The barriers and the latch are taken to work, as they do when the number
of threads is the same in all checkpoints and no thread calls again before all have returned. -/
def checkpoint (nrThreads : Nat) (flushSchedule endSchedule : List Nat) : Prog Threads Unit := do
  Prog.act fun s => { s with flushMode := FlushLists.determineFlushMode s.flushBlocks }
  let mode ← Prog.read flushMode
  if mode = .noAction then pure () else
    Prog.par nrThreads flushSchedule fun i => flushParallel i nrThreads
    Prog.par nrThreads endSchedule fun i => endCheckpoint i nrThreads

/-- The threads hook a block again before they store to it in the next epoch. -/
def nextEpoch (s : Threads) : Threads := { s with hooked := fun _ => [] }

/-! ## Small lemmas -/

section Fields

variable (s : Threads) (tid blockId : Nat) (pc : HookPc)
  (f : SharedMemory Loc Nat → SharedMemory Loc Nat)

@[simp] theorem goto_pc_self : (s.goto tid pc).pc tid = pc := Function.update_self ..
@[simp] theorem ret_pc_self : (s.ret tid blockId).pc tid = .app := Function.update_self ..

theorem goto_pc_of_ne {t : Nat} (h : t ≠ tid) : (s.goto tid pc).pc t = s.pc t :=
  Function.update_of_ne h _ _

theorem ret_pc_of_ne {t : Nat} (h : t ≠ tid) : (s.ret tid blockId).pc t = s.pc t :=
  Function.update_of_ne h _ _

end Fields

end Threads

end Libcrpm.UndoLogEngine
