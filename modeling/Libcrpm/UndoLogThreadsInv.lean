import Libcrpm.Program.SpinLocks
import Libcrpm.UndoLogThreads

/-!
# What the threads know of the log

Entry `k` of the log belongs to the `k`-th block that a thread has reserved an entry for.  Entries
are durable before the head covers them, and the head that covers the entry of a block is durable
before the block is marked dirty.  No block has two entries, as the lock of a block is held from
the test of its bit until the bit is set.
-/

namespace Libcrpm.UndoLogEngine

open Libcrpm.Persistence Libcrpm.Program

namespace HookPc

def locked : HookPc → Option Nat
  | .app | .test _ | .acquire _ | .record _ => none
  | .retest b | .giveUp b | .reserve b | .capacity b _ | .exited b | .magic b _ | .offset b _
  | .size b _ | .flushEntry b _ | .payload b _ _ | .fenceEntry b _ | .publish b _ | .exchange b _
  | .flushHead b _ | .fenceHead b _ | .setDirty b | .release b => some b

def block : HookPc → Option Nat
  | .app => none
  | .test b | .acquire b | .retest b | .giveUp b | .reserve b | .capacity b _ | .exited b
  | .magic b _ | .offset b _ | .size b _ | .flushEntry b _ | .payload b _ _ | .fenceEntry b _
  | .publish b _ | .exchange b _ | .flushHead b _ | .fenceHead b _ | .setDirty b | .release b
  | .record b => some b

/-- The block that the thread has reserved an entry for and not marked dirty yet. -/
def logging : HookPc → Option Nat
  | .capacity b _ | .exited b | .magic b _ | .offset b _ | .size b _ | .flushEntry b _
  | .payload b _ _ | .fenceEntry b _ | .publish b _ | .exchange b _ | .flushHead b _
  | .fenceHead b _ | .setDirty b => some b
  | _ => none

/-- The block and the offset of the entry that the thread has not published yet. -/
def entry : HookPc → Option (Nat × Nat)
  | .capacity b last | .magic b last | .offset b last | .size b last | .flushEntry b last
  | .payload b last _ | .fenceEntry b last | .publish b last | .exchange b last => some (b, last)
  | _ => none

variable {pc : HookPc} {b last : Nat}

theorem locked_of_logging (h : pc.logging = some b) : pc.locked = some b := by
  cases pc <;> first | exact h | cases h

/-- A thread at `q` may go to `p` without any lock or bit being written. -/
structure Moves (q p : HookPc) : Prop where
  locked : p.locked = q.locked
  logging : ∀ b, q.logging = some b → p.logging = some b

theorem logging_of_entry (h : pc.entry = some (b, last)) : pc.logging = some b := by
  cases pc <;> cases h <;> rfl

end HookPc

namespace Threads

/-- The words of the entry of a block in a data area that contains `X`; the padding is free. -/
def entryValue (X : Nat → Nat) (b : Nat) : Nat → Option Nat
  | 0 => some kLogEntryMagic
  | 1 => some (b <<< kBlockShift)
  | 2 => some kBlockSize
  | i =>
      if kWordsPerCacheLine ≤ i ∧ i < kWordsPerCacheLine + kWordsPerBlock then
        some (X (b * kWordsPerBlock + (i - kWordsPerCacheLine)))
      else none

/-- The first `n` words of the entry of `b` at `last` meet `P`. -/
def Words (P : Loc → Nat → Prop) (X : Nat → Nat) (b last n : Nat) : Prop :=
  ∀ i < n, ∀ v, entryValue X b i = some v → P (entryWord last i) v

def entryWords : Nat := kWordsPerCacheLine + kWordsPerBlock

theorem entryWords_eq : entryWords = 40 := rfl

theorem kWordSize_eq : kWordSize = 8 := rfl

theorem entryWord_eq (k i : Nat) : entryWord (logSize * k) i = .log (40 * k + i) := by
  have hdiv : logSize * k / kWordSize = 40 * k := by
    rw [logSize_eq, kWordSize_eq]
    omega
  rw [entryWord, hdiv]

theorem entryWord_ne {k k' i i' : Nat} (hi : i < entryWords) (hi' : i' < entryWords)
    (hk : k ≠ k') : entryWord (logSize * k) i ≠ entryWord (logSize * k') i' := by
  rw [entryWords_eq] at hi hi'
  rw [entryWord_eq, entryWord_eq]
  intro h
  have hword : 40 * k + i = 40 * k' + i' := Loc.log.inj h
  omega

/-! ## The invariant -/

section Invariant

variable (X : Nat → Nat) (slots : List Nat) (m : SharedMemory Loc Nat)

/-- A crash leaves a head that covers the entry of `b`. -/
def Logged (b : Nat) : Prop :=
  ∃ k : Nat, slots[k]? = some b ∧ (m .logHead).Durably (logSize * (k + 1) ≤ ·)

/-- `last` is the entry of `b`, and the head does not cover it yet. -/
def Slot (b last : Nat) : Prop :=
  ∃ k : Nat, last = logSize * k ∧ slots[k]? = some b ∧ m.load .logHead ≤ last

def DurableWord (l : Loc) (v : Nat) : Prop := (m l).Durably (· = v)

def PendingWord (tid : Nat) (l : Loc) (v : Nat) : Prop := (m l).Pending tid (· = v)

def LoadedWord (l : Loc) (v : Nat) : Prop := m.load l = v

structure LogInv (logHead : Nat) : Prop where
  nodup : slots.Nodup
  reserved : logHead = logSize * slots.length
  head : ∃ n ≤ slots.length, m.load .logHead = logSize * n
  grows : (m .logHead).Grows
  whole : (m .logHead).Durably (logSize ∣ ·)
  written : ∀ k b, slots[k]? = some b → logSize * (k + 1) ≤ m.load .logHead →
    Words (DurableWord m) X b (logSize * k) entryWords
  data : ∀ o, (m (.data o)).Durably (· = X o) ∨ Logged slots m (o / kWordsPerBlock)

structure BlocksInv (dirty : AtomicBitSet) (pc : Nat → HookPc) (hooked : Nat → List Nat) :
    Prop where
  listed : ∀ b ∈ slots, dirty.test b = true ∨ ∃ t, (pc t).logging = some b
  dirty : ∀ b, dirty.test b = true → Logged slots m b
  hooked : ∀ t, ∀ b ∈ hooked t, Logged slots m b

def At (dirty : AtomicBitSet) (tid : Nat) : HookPc → Prop
  | .app | .test _ | .acquire _ | .retest _ | .exited _ => True
  | .giveUp b | .setDirty b | .release b | .record b => Logged slots m b
  | .reserve b => dirty.test b = false
  | .capacity b last | .magic b last => Slot slots m b last
  | .offset b last => Slot slots m b last ∧ Words (LoadedWord m) X b last 1
  | .size b last => Slot slots m b last ∧ Words (LoadedWord m) X b last 2
  | .flushEntry b last => Slot slots m b last ∧ Words (LoadedWord m) X b last 3
  | .payload b last copied =>
      Slot slots m b last ∧ Words (PendingWord m tid) X b last (kWordsPerCacheLine + copied)
  | .fenceEntry b last => Slot slots m b last ∧ Words (PendingWord m tid) X b last entryWords
  | .publish b last | .exchange b last =>
      Slot slots m b last ∧ Words (DurableWord m) X b last entryWords
  | .flushHead b last =>
      (∃ k : Nat, last = logSize * k ∧ slots[k]? = some b) ∧ last + logSize ≤ m.load .logHead
  | .fenceHead b last =>
      (∃ k : Nat, last = logSize * k ∧ slots[k]? = some b) ∧
        (m .logHead).Pending tid (last + logSize ≤ ·)

end Invariant

structure Inv (X : Nat → Nat) (slots : List Nat) (s : Threads) : Prop where
  log : LogInv X slots s.mem s.logHead
  locks : LocksInv lockOf HookPc.locked s.segmentLocks s.pc
  blocks : BlocksInv slots s.mem s.blockDirty s.pc s.hooked
  at_pc : ∀ t, At X slots s.mem s.blockDirty t (s.pc t)

theorem Fresh.inv {X : Nat → Nat} {s : Threads} (h : Fresh X s) : Inv X [] s where
  log := by
    have hload : s.mem.load .logHead = 0 := h.published.load
    refine ⟨List.nodup_nil, h.logHead, ⟨0, Nat.le_refl _, hload⟩, h.published.grows, ?_, ?_, ?_⟩
    · exact h.published.mono fun v hv => hv ▸ Nat.dvd_zero _
    · intro k b hslot
      simp at hslot
    · exact fun o => Or.inl (h.data o)
  locks := locksInv_of_none fun t => by rw [h.idle t]; rfl
  blocks := by
    refine ⟨?_, ?_, ?_⟩
    · intro b hin
      cases hin
    · intro b hdirty
      rw [h.clean b] at hdirty
      cases hdirty
    · intro t b hin
      rw [h.unhooked t] at hin
      cases hin
  at_pc t := by
    rw [h.idle t]
    trivial

/-! ## What a thread still knows when another one has taken a step -/

variable {X : Nat → Nat} {slots slots' : List Nat} {m m' : SharedMemory Loc Nat}
  {dirty dirty' : AtomicBitSet} {t : Nat} {p : HookPc} {b last n : Nat}

/-- What the steps of the other threads leave to a thread at `p`. -/
structure Keeps (slots slots' : List Nat) (m m' : SharedMemory Loc Nat)
    (dirty dirty' : AtomicBitSet) (p : HookPc) : Prop where
  kept : ∀ (k b : Nat), slots[k]? = some b → slots'[k]? = some b
  entry : ∀ b last, p.entry = some (b, last) → Slot slots m b last → Slot slots' m' b last ∧
    ∀ i < entryWords, (m (entryWord last i)).DrainsTo (m' (entryWord last i))
  head : (m .logHead).Raises (m' .logHead)
  clean : ∀ b, p.locked = some b → dirty.test b = false → dirty'.test b = false

theorem Words.imp {P P' : Loc → Nat → Prop} (h : Words P X b last n)
    (himp : ∀ i < n, ∀ v, P (entryWord last i) v → P' (entryWord last i) v) :
    Words P' X b last n :=
  fun i hi v hv => himp i hi v (h i hi v hv)

theorem Words.mono {P : Loc → Nat → Prop} {n' : Nat} (h : Words P X b last n') (hle : n ≤ n') :
    Words P X b last n :=
  fun i hi v hv => h i (Nat.lt_of_lt_of_le hi hle) v hv

theorem Logged.keeps (h : Logged slots m b)
    (hslots : ∀ (k b : Nat), slots[k]? = some b → slots'[k]? = some b)
    (hhead : (m .logHead).Raises (m' .logHead)) : Logged slots' m' b := by
  obtain ⟨k, hslot, hdurable⟩ := h
  exact ⟨k, hslots k b hslot, hhead.durably _ hdurable⟩

theorem entryValue_of_le {i : Nat} (h : 3 ≤ i) : entryValue X b i =
    if kWordsPerCacheLine ≤ i ∧ i < entryWords then
      some (X (b * kWordsPerBlock + (i - kWordsPerCacheLine)))
    else none := by
  match i with
  | 0 | 1 | 2 => omega
  | _ + 3 => rfl

theorem entryValue_none {i : Nat} (h : entryWords ≤ i) : entryValue X b i = none := by
  rw [entryValue_of_le (Nat.le_trans (by decide) h), if_neg]
  omega

theorem entryValue_padding {i : Nat} (h : 3 ≤ i) (hi : i < kWordsPerCacheLine) :
    entryValue X b i = none := by
  rw [entryValue_of_le h, if_neg]
  omega

theorem entryValue_payload {i : Nat} (h : i < kWordsPerBlock) :
    entryValue X b (kWordsPerCacheLine + i) = some (X (b * kWordsPerBlock + i)) := by
  have hle : 3 ≤ kWordsPerCacheLine + i := Nat.le_add_right_of_le (by decide)
  rw [entryValue_of_le hle, if_pos ⟨Nat.le_add_right _ _, Nat.add_lt_add_left h _⟩,
    Nat.add_sub_cancel_left]

theorem At.keeps (h : At X slots m dirty t p) (hk : Keeps slots slots' m m' dirty dirty' p) :
    At X slots' m' dirty' t p := by
  have hloaded : ∀ b last n, p.entry = some (b, last) → n ≤ entryWords →
      Slot slots m b last ∧ Words (LoadedWord m) X b last n →
      Slot slots' m' b last ∧ Words (LoadedWord m') X b last n := by
    rintro b last n hp hn ⟨hslot, hwords⟩
    obtain ⟨hslot', hdrains⟩ := hk.entry b last hp hslot
    refine ⟨hslot', hwords.imp fun i hi v hv => ?_⟩
    exact (hdrains i (Nat.lt_of_lt_of_le hi hn)).load.trans hv
  have hpending : ∀ b last n, p.entry = some (b, last) →
      Slot slots m b last ∧ Words (PendingWord m t) X b last n →
      Slot slots' m' b last ∧ Words (PendingWord m' t) X b last n := by
    rintro b last n hp ⟨hslot, hwords⟩
    obtain ⟨hslot', hdrains⟩ := hk.entry b last hp hslot
    refine ⟨hslot', fun i hi v hv => ?_⟩
    have hlt : i < entryWords := by
      by_contra hle
      rw [entryValue_none (Nat.not_lt.mp hle)] at hv
      cases hv
    exact (hdrains i hlt).pending t _ (hwords i hi v hv)
  have hdurable : ∀ b last, p.entry = some (b, last) →
      Slot slots m b last ∧ Words (DurableWord m) X b last entryWords →
      Slot slots' m' b last ∧ Words (DurableWord m') X b last entryWords := by
    rintro b last hp ⟨hslot, hwords⟩
    obtain ⟨hslot', hdrains⟩ := hk.entry b last hp hslot
    exact ⟨hslot', hwords.imp fun i hi v hv => (hdrains i hi).durably _ hv⟩
  cases p with
  | app => trivial
  | test => trivial
  | acquire => trivial
  | retest => trivial
  | exited => trivial
  | giveUp b => exact Logged.keeps h hk.kept hk.head
  | setDirty b => exact Logged.keeps h hk.kept hk.head
  | release b => exact Logged.keeps h hk.kept hk.head
  | record b => exact Logged.keeps h hk.kept hk.head
  | reserve b => exact hk.clean b rfl h
  | capacity b last => exact (hk.entry b last rfl h).1
  | magic b last => exact (hk.entry b last rfl h).1
  | offset b last => exact hloaded b last 1 rfl (by decide) h
  | size b last => exact hloaded b last 2 rfl (by decide) h
  | flushEntry b last => exact hloaded b last 3 rfl (by decide) h
  | payload b last copied => exact hpending b last _ rfl h
  | fenceEntry b last => exact hpending b last _ rfl h
  | publish b last => exact hdurable b last rfl h
  | exchange b last => exact hdurable b last rfl h
  | flushHead b last =>
      obtain ⟨⟨k, hlast, hslot⟩, hle⟩ := h
      exact ⟨⟨k, hlast, hk.kept k b hslot⟩, Nat.le_trans hle hk.head.load⟩
  | fenceHead b last =>
      obtain ⟨⟨k, hlast, hslot⟩, hpend⟩ := h
      exact ⟨⟨k, hlast, hk.kept k b hslot⟩, hk.head.pending t _ hpend⟩

end Threads

end Libcrpm.UndoLogEngine
