import Libcrpm.UndoLogThreadsInv
import Mathlib.Data.List.Nodup

/-!
# The steps of the threads keep the log sound

One lemma for each kind of step: those that only move the thread, flushes and fences, stores to an
entry, the reservation, the exchange of the head, the bit of the block, and the stores of the
application.
-/

namespace Libcrpm.UndoLogEngine.Threads

open Libcrpm.Persistence Libcrpm.Program

variable {X : Nat → Nat} {slots slots' : List Nat} {m m' : SharedMemory Loc Nat}
  {dirty dirty' : AtomicBitSet} {locks : Nat → Bool} {pc : Nat → HookPc}
  {hooked : Nat → List Nat} {logHead t t' b last : Nat} {p q : HookPc} {s s' : Threads}

/-! ## The parts of the invariant -/

theorem BlocksInv.update (h : BlocksInv slots m dirty pc hooked)
    (hp : ∀ b ∈ slots, (pc t).logging = some b → p.logging = some b ∨ dirty.test b = true) :
    BlocksInv slots m dirty (Function.update pc t p) hooked where
  listed b hin := by
    rcases h.listed b hin with hdirty | ⟨t', hlogging⟩
    · exact Or.inl hdirty
    · by_cases ht : t' = t
      · rcases hp b hin (ht ▸ hlogging) with hlogging' | hdirty
        · exact Or.inr ⟨t, by rw [Function.update_self, hlogging']⟩
        · exact Or.inl hdirty
      · exact Or.inr ⟨t', by rw [Function.update_of_ne ht, hlogging]⟩
  dirty := h.dirty
  hooked := h.hooked

theorem BlocksInv.raise (h : BlocksInv slots m dirty pc hooked)
    (hhead : (m .logHead).Raises (m' .logHead)) : BlocksInv slots m' dirty pc hooked where
  listed := h.listed
  dirty b hb := (h.dirty b hb).keeps (fun _ _ => id) hhead
  hooked t b hb := (h.hooked t b hb).keeps (fun _ _ => id) hhead

theorem LogInv.drain (h : LogInv X slots m logHead) (hm : m.Drains m') (hgrows : (m' .logHead).Grows) :
    LogInv X slots m' logHead where
  nodup := h.nodup
  reserved := h.reserved
  head := by
    obtain ⟨n, hle, hhead⟩ := h.head
    exact ⟨n, hle, (hm .logHead).load.trans hhead⟩
  grows := hgrows
  whole := (hm .logHead).durably _ h.whole
  written k b hslot hle := by
    have hload : m'.load .logHead = m.load .logHead := (hm .logHead).load
    rw [hload] at hle
    exact (h.written k b hslot hle).imp fun i _ v hv => (hm _).durably _ hv
  data o := (h.data o).imp ((hm _).durably _) fun hlogged =>
    hlogged.keeps (fun _ _ => id) (hm _).raises

theorem at_update (hown : At X slots m dirty t p)
    (hothers : ∀ t' ≠ t, At X slots m dirty t' (pc t')) (t' : Nat) :
    At X slots m dirty t' (Function.update pc t p t') := by
  by_cases ht : t' = t
  · subst ht
    rw [Function.update_self]
    exact hown
  · rw [Function.update_of_ne ht]
    exact hothers t' ht

/-! ## Steps that only move the thread -/

theorem Inv.goto (h : Inv X slots s) (hpc : s.pc t = q) (hmoves : q.Moves p)
    (hat : At X slots s.mem s.blockDirty t p) : Inv X slots (s.goto t p) where
  log := h.log
  locks := h.locks.update (hpc ▸ hmoves.locked)
  blocks := h.blocks.update fun b _ hb => Or.inl (hmoves.logging b (hpc ▸ hb))
  at_pc := at_update hat fun t' _ => h.at_pc t'

theorem Inv.ret (h : Inv X slots s) (hlocked : (s.pc t).locked = none)
    (hlogged : Logged slots s.mem b) : Inv X slots (s.ret t b) where
  log := h.log
  locks := h.locks.update hlocked.symm
  blocks := by
    have hnone : ∀ b' ∈ slots, (s.pc t).logging = some b' →
        HookPc.logging .app = some b' ∨ s.blockDirty.test b' = true := by
      intro b' _ hlogging
      rw [HookPc.locked_of_logging hlogging] at hlocked
      cases hlocked
    refine ⟨(h.blocks.update hnone).listed, h.blocks.dirty, fun t' b' hin => ?_⟩
    have hcases : b' = b ∨ b' ∈ s.hooked t' := by
      by_cases ht : t' = t
      · subst ht
        have hmem : b' ∈ b :: s.hooked t' := by
          rwa [← Function.update_self (f := s.hooked) t' (b :: s.hooked t')]
        exact List.mem_cons.mp hmem
      · right
        rwa [← Function.update_of_ne ht (b :: s.hooked t) s.hooked]
    rcases hcases with rfl | hold
    · exact hlogged
    · exact h.blocks.hooked t' b' hold
  at_pc := at_update trivial fun t' _ => h.at_pc t'

theorem Inv.acquire (h : Inv X slots s) (hpc : s.pc t = .acquire b)
    (hfree : s.segmentLocks (lockOf b) = false) :
    Inv X slots ((s.setLock b true).goto t (.retest b)) where
  log := h.log
  locks := h.locks.acquire hfree rfl
  blocks := h.blocks.update fun b' _ hb => by
    rw [hpc] at hb
    cases hb
  at_pc := at_update trivial fun t' _ => h.at_pc t'

theorem Inv.release (h : Inv X slots s) (hb : (s.pc t).locked = some b)
    (hlogging : (s.pc t).logging = none) (hlogged : Logged slots s.mem b) :
    Inv X slots ((s.setLock b false).goto t (.record b)) where
  log := h.log
  locks := h.locks.release hb rfl
  blocks := h.blocks.update fun b' _ hb' => by
    rw [hlogging] at hb'
    cases hb'
  at_pc := at_update hlogged fun t' _ => h.at_pc t'

/-! ## Flushes and fences -/

theorem Slot.of_load (h : Slot slots m b last) (hload : m'.load .logHead = m.load .logHead) :
    Slot slots m' b last := by
  obtain ⟨k, hlast, hslot, hle⟩ := h
  exact ⟨k, hlast, hslot, hload ▸ hle⟩

theorem Keeps.of_drains (hm : m.Drains m') : Keeps slots slots m m' dirty dirty p where
  kept _ _ := id
  entry _ _ _ hslot := ⟨hslot.of_load (hm .logHead).load, fun _ _ => hm _⟩
  head := (hm .logHead).raises
  clean _ _ := id

theorem Inv.drain (h : Inv X slots s) (hm : s.mem.Drains m') (hgrows : (m' .logHead).Grows)
    (hpc : s.pc t = q) (hmoves : q.Moves p) (hat : At X slots m' s.blockDirty t p) :
    Inv X slots ((s.onMem fun _ => m').goto t p) where
  log := h.log.drain hm hgrows
  locks := h.locks.update (hpc ▸ hmoves.locked)
  blocks := (h.blocks.raise (hm .logHead).raises).update fun b _ hb =>
    Or.inl (hmoves.logging b (hpc ▸ hb))
  at_pc := at_update hat fun t' _ => (h.at_pc t').keeps (.of_drains hm)

/-! ## The entry of a block -/

theorem Inv.entry_ne (h : Inv X slots s) {k k' b' : Nat} (ht : t' ≠ t)
    (hentry : (s.pc t).entry = some (b, logSize * k)) (hslot : slots[k]? = some b)
    (hentry' : (s.pc t').entry = some (b', logSize * k')) (hslot' : slots[k']? = some b') :
    k' ≠ k := by
  rintro rfl
  obtain rfl : b' = b := Option.some.inj (hslot'.symm.trans hslot)
  have hlocked := HookPc.locked_of_logging (HookPc.logging_of_entry hentry)
  have hlocked' := HookPc.locked_of_logging (HookPc.logging_of_entry hentry')
  exact ht (h.locks.exclusive t' t b' b' hlocked' hlocked rfl)

theorem entryWord_ne_logHead (last i : Nat) : entryWord last i ≠ .logHead := by simp [entryWord]

theorem entryWord_ne_data (last i o : Nat) : entryWord last i ≠ .data o := by simp [entryWord]

theorem LogInv.writeEntry (h : LogInv X slots m logHead) {k i : Nat} (hi : i < entryWords)
    (hle : m.load .logHead ≤ logSize * k)
    (hother : ∀ l, l ≠ entryWord (logSize * k) i → m' l = m l) : LogInv X slots m' logHead := by
  have hhead : m' .logHead = m .logHead := hother _ (entryWord_ne_logHead _ _).symm
  have hload : m'.load .logHead = m.load .logHead := congrArg SharedCell.load hhead
  refine ⟨h.nodup, h.reserved, hload ▸ h.head, hhead ▸ h.grows, hhead ▸ h.whole, ?_, ?_⟩
  · intro k' b' hslot hcovered
    rw [hload] at hcovered
    refine (h.written k' b' hslot hcovered).imp fun i' hi' v hv => ?_
    have hne : k' ≠ k := by
      rintro rfl
      rw [logSize_eq] at hcovered hle
      omega
    unfold DurableWord
    rw [hother _ (entryWord_ne hi' hi hne)]
    exact hv
  · intro o
    rw [hother _ (entryWord_ne_data _ _ _).symm]
    exact (h.data o).imp id fun hlogged =>
      hlogged.keeps (fun _ _ => id) (hhead ▸ SharedCell.Raises.refl _)

theorem Inv.writeEntry (h : Inv X slots s) {i : Nat} (hpc : s.pc t = q)
    (hentry : q.entry = some (b, last)) (hslot : Slot slots s.mem b last) (hi : i < entryWords)
    (hother : ∀ l, l ≠ entryWord last i → m' l = s.mem l) (hmoves : q.Moves p)
    (hat : At X slots m' s.blockDirty t p) :
    Inv X slots ((s.onMem fun _ => m').goto t p) := by
  obtain ⟨k, rfl, hblock, hle⟩ := hslot
  have hhead : m' .logHead = s.mem .logHead := hother _ (entryWord_ne_logHead _ _).symm
  have hload : m'.load .logHead = s.mem.load .logHead := congrArg SharedCell.load hhead
  have hraises : (s.mem .logHead).Raises (m' .logHead) := hhead ▸ .refl _
  refine ⟨h.log.writeEntry hi hle hother, h.locks.update (hpc ▸ hmoves.locked),
    (h.blocks.raise hraises).update fun b _ hb => Or.inl (hmoves.logging b (hpc ▸ hb)), ?_⟩
  refine at_update hat fun t' ht => (h.at_pc t').keeps ⟨fun _ _ => id, ?_, hraises, fun _ _ => id⟩
  intro b' last' hentry' hslot'
  obtain ⟨k', rfl, hblock', -⟩ := id hslot'
  have hne := h.entry_ne ht (hpc ▸ hentry) hblock hentry' hblock'
  refine ⟨hslot'.of_load hload, fun i' hi' => ?_⟩
  have hcell : m' (entryWord (logSize * k') i') = s.mem (entryWord (logSize * k') i') :=
    hother _ (entryWord_ne hi' hi hne)
  exact hcell.symm ▸ .refl _

/-! ## The reservation of an entry -/

theorem Inv.reserve (h : Inv X slots s) (hpc : s.pc t = .reserve b) :
    Inv X (slots ++ [b])
      ({ s with logHead := s.logHead + logSize }.goto t (.capacity b s.logHead)) := by
  have hclean : s.blockDirty.test b = false := by
    have hat := h.at_pc t
    rwa [hpc] at hat
  -- The lock of the block keeps the other threads from reserving an entry for it.
  have hnew : b ∉ slots := by
    intro hin
    rcases h.blocks.listed b hin with hdirty | ⟨t', hlogging⟩
    · rw [hclean] at hdirty
      cases hdirty
    · have hlocked : (s.pc t).locked = some b := by
        rw [hpc]
        rfl
      obtain rfl := h.locks.exclusive t' t b b (HookPc.locked_of_logging hlogging) hlocked rfl
      rw [hpc] at hlogging
      cases hlogging
  have hkept : ∀ (k b' : Nat), slots[k]? = some b' → (slots ++ [b])[k]? = some b' := by
    intro k b' hslot
    rw [List.getElem?_append_left (List.getElem?_eq_some_iff.mp hslot).1, hslot]
  have hlast : (slots ++ [b])[slots.length]? = some b := by simp
  obtain ⟨n, hn, hhead⟩ := h.log.head
  refine ⟨⟨?_, ?_, ⟨n, ?_, hhead⟩, h.log.grows, h.log.whole, ?_, ?_⟩, ?_, ⟨?_, ?_, ?_⟩, ?_⟩
  · refine List.nodup_append.mpr ⟨h.log.nodup, List.pairwise_singleton _ b, ?_⟩
    rintro a hin _ hb rfl
    exact hnew (List.mem_singleton.mp hb ▸ hin)
  · calc s.logHead + logSize = logSize * slots.length + logSize := by rw [h.log.reserved]
      _ = logSize * (slots ++ [b]).length := by rw [List.length_append]; rfl
  · rw [List.length_append]
    exact Nat.le_add_right_of_le hn
  · intro k b' hslot hcovered
    have hlt : k < n := by
      have hle : logSize * (k + 1) ≤ logSize * n := hhead ▸ hcovered
      rw [logSize_eq] at hle
      omega
    rw [List.getElem?_append_left (Nat.lt_of_lt_of_le hlt hn)] at hslot
    exact h.log.written k b' hslot hcovered
  · exact fun o => (h.log.data o).imp id fun hlogged => hlogged.keeps hkept (.refl _)
  · refine h.locks.update ?_
    rw [hpc]
    rfl
  · intro b' hin
    rcases List.mem_append.mp hin with hold | hb
    · refine (h.blocks.update (p := .capacity b s.logHead) fun b'' _ hlogging => ?_).listed b' hold
      rw [hpc] at hlogging
      cases hlogging
    · obtain rfl := List.mem_singleton.mp hb
      refine Or.inr ⟨t, ?_⟩
      rw [goto_pc_self]
      rfl
  · exact fun b' hdirty => (h.blocks.dirty b' hdirty).keeps hkept (.refl _)
  · exact fun t' b' hin => (h.blocks.hooked t' b' hin).keeps hkept (.refl _)
  · refine at_update ⟨slots.length, h.log.reserved, hlast, ?_⟩ fun t' _ => ?_
    · calc s.mem.load .logHead = logSize * n := hhead
        _ ≤ logSize * slots.length := Nat.mul_le_mul_left _ hn
        _ = s.logHead := h.log.reserved.symm
    · refine (h.at_pc t').keeps ⟨hkept, ?_, .refl _, fun _ _ => id⟩
      rintro b' last' - ⟨k, rfl, hslot, hle⟩
      exact ⟨⟨k, rfl, hkept k b' hslot, hle⟩, fun _ _ => .refl _⟩

/-! ## The head -/

theorem Inv.exchange (h : Inv X slots s) (hpc : s.pc t = .exchange b last)
    (hhead : s.head = last) :
    Inv X slots ((s.onMem fun m => m.store .logHead (last + logSize)).goto t
      (.flushHead b last)) := by
  obtain ⟨⟨k, rfl, hslot, -⟩, hwords⟩ :
      Slot slots s.mem b last ∧ Words (DurableWord s.mem) X b last entryWords := by
    have hat := h.at_pc t
    rwa [hpc] at hat
  let m' := s.mem.store .logHead (logSize * k + logSize)
  have hcell : m' .logHead = (s.mem .logHead).store (logSize * k + logSize) :=
    SharedMemory.store_self _ _ _
  have hother : ∀ l, l ≠ .logHead → m' l = s.mem l :=
    fun l hl => SharedMemory.store_of_ne _ _ hl
  have hbelow : (s.mem .logHead).load ≤ logSize * k + logSize := by
    have hload : (s.mem .logHead).load = logSize * k := hhead
    omega
  have hraises : (s.mem .logHead).Raises (m' .logHead) := hcell ▸ SharedCell.raises_store hbelow
  have hload : SharedMemory.load m' .logHead = logSize * k + logSize := by
    rw [SharedMemory.load, hcell, SharedCell.load_store]
  have hdurable : ∀ {b' last'}, Words (DurableWord s.mem) X b' last' entryWords →
      Words (DurableWord m') X b' last' entryWords := by
    intro b' last' hw
    refine hw.imp fun i _ v hv => ?_
    unfold DurableWord
    rw [hother _ (entryWord_ne_logHead _ _)]
    exact hv
  have hlt : k < slots.length := (List.getElem?_eq_some_iff.mp hslot).1
  have hgrows : (m' .logHead).Grows := hcell ▸ h.log.grows.store hbelow
  have hwhole : (m' .logHead).Durably (logSize ∣ ·) := by
    rw [hcell]
    exact h.log.whole.store ⟨k + 1, (Nat.mul_succ _ _).symm⟩
  refine ⟨⟨h.log.nodup, h.log.reserved, ⟨k + 1, hlt, ?_⟩, hgrows, hwhole, ?_, ?_⟩, ?_, ?_, ?_⟩
  · exact hload.trans (Nat.mul_succ _ _).symm
  · intro k' b' hslot' hcovered
    apply hdurable
    have hle : logSize * (k' + 1) ≤ logSize * k + logSize := hload ▸ hcovered
    rw [logSize_eq] at hle
    by_cases hk : k' = k
    · subst hk
      obtain rfl : b' = b := Option.some.inj (hslot'.symm.trans hslot)
      exact hwords
    · refine h.log.written k' b' hslot' ?_
      rw [show s.mem.load .logHead = logSize * k from hhead, logSize_eq]
      omega
  · intro o
    have hdata : m' (.data o) = s.mem (.data o) := hother _ (by simp)
    exact (h.log.data o).imp (hdata ▸ id) fun hlogged => hlogged.keeps (fun _ _ => id) hraises
  · exact h.locks.update (hpc ▸ rfl)
  · refine (h.blocks.raise hraises).update fun b' _ hlogging => Or.inl ?_
    rwa [hpc] at hlogging
  · refine at_update ⟨⟨k, rfl, hslot⟩, Nat.le_of_eq hload.symm⟩ fun t' ht => ?_
    refine (h.at_pc t').keeps ⟨fun _ _ => id, ?_, hraises, fun _ _ => id⟩
    rintro b' last' hentry' ⟨k', rfl, hslot', hle⟩
    have hne : k' ≠ k := by
      refine h.entry_ne ht ?_ hslot hentry' hslot'
      rw [hpc]
      rfl
    refine ⟨⟨k', rfl, hslot', ?_⟩, fun i _ => ?_⟩
    · have hold : logSize * k ≤ logSize * k' := hhead ▸ hle
      refine Nat.le_trans (Nat.le_of_eq hload) ?_
      rw [logSize_eq] at hold ⊢
      omega
    · have hword : m' (entryWord (logSize * k') i) = s.mem (entryWord (logSize * k') i) :=
        hother _ (entryWord_ne_logHead _ _)
      exact hword.symm ▸ .refl _

/-! ## The bit of the block -/

theorem Inv.setDirty (h : Inv X slots s) (hpc : s.pc t = .setDirty b) :
    Inv X slots ({ s with blockDirty := s.blockDirty.set b }.goto t (.release b)) := by
  have hlogged : Logged slots s.mem b := by
    have hat := h.at_pc t
    rwa [hpc] at hat
  have hlocked : (s.pc t).locked = some b := by
    rw [hpc]
    rfl
  have hset : ∀ b', (s.blockDirty.set b).test b' = true ↔ b' = b ∨ s.blockDirty.test b' = true := by
    intro b'
    rw [AtomicBitSet.test_set, Bool.or_eq_true, decide_eq_true_iff]
  refine ⟨h.log, h.locks.update ?_, ⟨?_, ?_, h.blocks.hooked⟩, ?_⟩
  · rw [hlocked]
    rfl
  · have hupdate : BlocksInv slots s.mem (s.blockDirty.set b) s.pc s.hooked := by
      refine ⟨fun b' hin => ?_, fun b' hdirty => ?_, h.blocks.hooked⟩
      · exact (h.blocks.listed b' hin).imp (fun hdirty => (hset b').mpr (Or.inr hdirty)) id
      · rcases (hset b').mp hdirty with rfl | hold
        · exact hlogged
        · exact h.blocks.dirty b' hold
    refine (hupdate.update fun b' _ hlogging => Or.inr ?_).listed
    obtain rfl : b = b' := by
      rw [hpc] at hlogging
      exact Option.some.inj hlogging
    exact (hset b).mpr (Or.inl rfl)
  · intro b' hdirty
    rcases (hset b').mp hdirty with rfl | hold
    · exact hlogged
    · exact h.blocks.dirty b' hold
  · refine at_update hlogged fun t' ht => (h.at_pc t').keeps ⟨fun _ _ => id, ?_, .refl _, ?_⟩
    · exact fun _ _ _ hslot => ⟨hslot, fun _ _ => .refl _⟩
    · intro b' hlocked' hclean
      refine Bool.eq_false_iff.mpr fun hdirty => ?_
      rcases (hset b').mp hdirty with rfl | hold
      · exact ht (h.locks.exclusive t' t b' b' hlocked' hlocked rfl)
      · rw [hclean] at hold
        cases hold

/-! ## Stores of the application -/

theorem Inv.store (h : Inv X slots s) {o : Nat} (value : Nat)
    (hlogged : Logged slots s.mem (o / kWordsPerBlock)) :
    Inv X slots (s.onMem fun m => m.store (.data o) value) := by
  let m' := s.mem.store (.data o) value
  have hother : ∀ l, l ≠ .data o → m' l = s.mem l :=
    fun l hl => SharedMemory.store_of_ne _ _ hl
  have hhead : m' .logHead = s.mem .logHead := hother _ (by simp)
  have hraises : (s.mem .logHead).Raises (m' .logHead) := hhead ▸ .refl _
  have hload : SharedMemory.load m' .logHead = s.mem.load .logHead :=
    congrArg SharedCell.load hhead
  refine ⟨⟨h.log.nodup, h.log.reserved, hload ▸ h.log.head, hhead ▸ h.log.grows,
    hhead ▸ h.log.whole, ?_, ?_⟩, h.locks, h.blocks.raise hraises, fun t => ?_⟩
  · intro k b hslot hcovered
    refine (h.log.written k b hslot (hload ▸ hcovered)).imp fun i _ v hv => ?_
    have hword : m' (entryWord (logSize * k) i) = s.mem (entryWord (logSize * k) i) :=
      hother _ (entryWord_ne_data _ _ _)
    exact (congrArg (fun c => SharedCell.Durably c (· = v)) hword).mpr hv
  · intro o'
    by_cases ho : o' = o
    · subst ho
      exact Or.inr (hlogged.keeps (fun _ _ => id) hraises)
    · have hdata : m' (.data o') = s.mem (.data o') := hother _ (by simpa using ho)
      exact (h.log.data o').imp (hdata ▸ id) fun hl => hl.keeps (fun _ _ => id) hraises
  · refine (h.at_pc t).keeps ⟨fun _ _ => id, fun b last _ hslot => ⟨hslot.of_load hload, ?_⟩,
      hraises, fun _ _ => id⟩
    intro i _
    have hword : m' (entryWord last i) = s.mem (entryWord last i) :=
      hother _ (entryWord_ne_data _ _ _)
    exact hword.symm ▸ .refl _

/-! ## Every step -/

theorem Words.write {P P' : Loc → Nat → Prop} {k n : Nat} (hn : n < entryWords)
    (h : Words P X b (logSize * k) n)
    (himp : ∀ l v, l ≠ entryWord (logSize * k) n → P l v → P' l v)
    (hnew : ∀ v, entryValue X b n = some v → P' (entryWord (logSize * k) n) v) :
    Words P' X b (logSize * k) (n + 1) := by
  intro i hi v hv
  by_cases heq : i = n
  · subst heq
    exact hnew v hv
  · refine himp _ v ?_ (h i (by omega) v hv)
    rw [entryWord_eq, entryWord_eq]
    intro hloc
    have hword : 40 * k + i = 40 * k + n := Loc.log.inj hloc
    omega

theorem words_zero {P : Loc → Nat → Prop} : Words P X b last 0 := by
  intro i hi
  omega

theorem Words.store {i v : Nat} (hi : i < entryWords) (hslot : Slot slots m b last)
    (h : Words (LoadedWord m) X b last i) (hv : entryValue X b i = some v) :
    Slot slots (m.store (entryWord last i) v) b last ∧
      Words (LoadedWord (m.store (entryWord last i) v)) X b last (i + 1) := by
  have hload : (m.store (entryWord last i) v).load .logHead = m.load .logHead :=
    congrArg SharedCell.load (SharedMemory.store_of_ne m v (entryWord_ne_logHead last i).symm)
  refine ⟨hslot.of_load hload, ?_⟩
  obtain ⟨k, rfl, -⟩ := hslot
  refine h.write hi (fun l v' hne hl => ?_) fun v' hv' => ?_
  · unfold LoadedWord SharedMemory.load
    rw [SharedMemory.store_of_ne _ _ hne]
    exact hl
  · obtain rfl := Option.some.inj (hv.symm.trans hv')
    unfold LoadedWord SharedMemory.load
    rw [SharedMemory.store_self]
    exact SharedCell.load_store _ _

theorem Words.ntStore {i v : Nat} (hi : i < entryWords) (hslot : Slot slots m b last)
    (h : Words (PendingWord m t) X b last i) (hv : entryValue X b i = some v) :
    Slot slots (m.ntStore t (entryWord last i) v) b last ∧
      Words (PendingWord (m.ntStore t (entryWord last i) v) t) X b last (i + 1) := by
  have hload : (m.ntStore t (entryWord last i) v).load .logHead = m.load .logHead :=
    congrArg SharedCell.load (SharedMemory.ntStore_of_ne m t v (entryWord_ne_logHead last i).symm)
  refine ⟨hslot.of_load hload, ?_⟩
  obtain ⟨k, rfl, -⟩ := hslot
  refine h.write hi (fun l v' hne hl => ?_) fun v' hv' => ?_
  · unfold PendingWord
    rw [SharedMemory.ntStore_of_ne _ _ _ hne]
    exact hl
  · obtain rfl := Option.some.inj (hv.symm.trans hv')
    unfold PendingWord
    rw [SharedMemory.ntStore_self]
    exact SharedCell.pending_ntStore _ t rfl

/-- Nobody has written to a block whose entry is not covered yet. -/
theorem Inv.load_data (h : Inv X slots s) (hslot : Slot slots s.mem b last) {o : Nat}
    (ho : o / kWordsPerBlock = b) : s.mem.load (.data o) = X o := by
  rcases h.log.data o with hdurable | ⟨k', hslot', hcovered⟩
  · exact hdurable.load
  · obtain ⟨k, rfl, hblock, hle⟩ := hslot
    rw [ho] at hslot'
    obtain ⟨hlt, hget⟩ := List.getElem?_eq_some_iff.mp hblock
    obtain ⟨hlt', hget'⟩ := List.getElem?_eq_some_iff.mp hslot'
    obtain rfl : k = k' := (List.Nodup.getElem_inj_iff h.log.nodup).mp (hget.trans hget'.symm)
    have hcover : logSize * (k + 1) ≤ s.mem.load .logHead := hcovered.load
    rw [logSize_eq] at hcover hle
    omega

end Libcrpm.UndoLogEngine.Threads
