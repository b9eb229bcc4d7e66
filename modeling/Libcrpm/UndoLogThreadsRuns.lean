import Libcrpm.UndoLogThreadsSteps

/-!
# Crashes between two checkpoints of the undo log engine

Whatever the threads have done, a crash leaves a log from which `recover` restores the data area
as it was when the epoch began, however often it is interrupted itself.
-/

namespace Libcrpm.UndoLogEngine

open Libcrpm.Persistence Libcrpm.Program

namespace Threads

variable {X : Nat → Nat} {slots : List Nat} {t b last : Nat} {s s' : Threads}

/-! ## Runs of the threads -/

theorem grows_flushAll {m : SharedMemory Loc Nat} (h : (m .logHead).Grows) (t : Nat)
    (sel : Loc → Bool) : (m.flushAll t sel .logHead).Grows := by
  unfold SharedMemory.flushAll
  split
  · exact h.flush t
  · exact h

theorem words_flush {m : SharedMemory Loc Nat}
    (h : Words (LoadedWord m) X b last 3) :
    Words (PendingWord (m.flushAll t (entryLine last)) t) X b last kWordsPerCacheLine := by
  intro i hi v hv
  have hline : entryLine last (entryWord last i) = true := by
    simp only [entryLine, entryWord, Bool.and_eq_true, decide_eq_true_iff]
    omega
  have hthree : i < 3 := by
    by_contra hge
    rw [entryValue_padding (Nat.not_lt.mp hge) hi] at hv
    cases hv
  unfold PendingWord
  rw [SharedMemory.flushAll_of m t hline]
  exact SharedCell.pending_flush t (h i hthree v hv)

theorem Inv.giveUp (h : Inv X slots s) (hpc : s.pc t = .giveUp b) :
    Inv X slots ((s.setLock b false).ret t b) := by
  have hat := h.at_pc t
  rw [hpc] at hat
  have hrelease := h.release (t := t) (b := b) (hpc ▸ rfl) (hpc ▸ rfl) hat
  have hret := hrelease.ret (t := t) (b := b) (by rw [goto_pc_self]; rfl) hat
  have hsame : ((s.setLock b false).goto t (.record b)).ret t b = (s.setLock b false).ret t b := by
    simp only [Threads.ret, Threads.goto, Function.update_idem]
  exact hsame ▸ hret

theorem Inv.flushEntry (h : Inv X slots s) (hpc : s.pc t = .flushEntry b last) :
    Inv X slots ((s.onMem fun m => m.flushAll t (entryLine last)).goto t (.payload b last 0)) := by
  have hat := h.at_pc t
  rw [hpc] at hat
  have hdrains := SharedMemory.drains_flushAll s.mem t (entryLine last)
  exact h.drain hdrains (grows_flushAll h.log.grows _ _) hpc ⟨rfl, fun _ => id⟩
    ⟨hat.1.of_load (hdrains .logHead).load, words_flush hat.2⟩

theorem Inv.copyWord (h : Inv X slots s) {copied : Nat} (hpc : s.pc t = .payload b last copied)
    (hlt : copied < kWordsPerBlock) :
    Inv X slots ((s.copyWord t b last copied).goto t (.payload b last (copied + 1))) := by
  have hat := h.at_pc t
  rw [hpc] at hat
  have hi : kWordsPerCacheLine + copied < entryWords := Nat.add_lt_add_left hlt _
  have hword : s.mem.load (.data (b * kWordsPerBlock + copied)) =
      X (b * kWordsPerBlock + copied) := by
    refine h.load_data hat.1 ?_
    rw [kWordsPerBlock_eq] at hlt ⊢
    omega
  have hvalue : entryValue X b (kWordsPerCacheLine + copied) =
      some (s.mem.load (.data (b * kWordsPerBlock + copied))) := by
    rw [hword, entryValue_payload hlt]
  exact h.writeEntry hpc rfl hat.1 hi (fun l hl => SharedMemory.ntStore_of_ne _ _ _ hl)
    ⟨rfl, fun _ => id⟩ (hat.2.ntStore hi hat.1 hvalue)

theorem Inv.fenceEntry (h : Inv X slots s) (hpc : s.pc t = .fenceEntry b last) :
    Inv X slots ((s.onMem fun m => m.fence t).goto t (.publish b last)) := by
  have hat := h.at_pc t
  rw [hpc] at hat
  exact h.drain (SharedMemory.drains_fence s.mem t) (h.log.grows.fence t) hpc ⟨rfl, fun _ => id⟩
    ⟨hat.1, hat.2.imp fun _ _ _ hv => hv.fence⟩

theorem Inv.head_lt (h : Inv X slots s) (hpc : s.pc t = .publish b last) :
    s.head < last + logSize := by
  have hat := h.at_pc t
  rw [hpc] at hat
  obtain ⟨k, -, -, hle⟩ := hat.1
  exact Nat.lt_of_le_of_lt hle (by rw [logSize_eq]; omega)

theorem Inv.flushHead (h : Inv X slots s) (hpc : s.pc t = .flushHead b last) :
    Inv X slots ((s.onMem fun m => m.flushAll t fun l => l = .logHead).goto t
      (.fenceHead b last)) := by
  have hat := h.at_pc t
  rw [hpc] at hat
  have hcell : s.mem.flushAll t (fun l => l = .logHead) .logHead = (s.mem .logHead).flush t :=
    SharedMemory.flushAll_of _ _ rfl
  refine h.drain (SharedMemory.drains_flushAll s.mem t _) (grows_flushAll h.log.grows _ _) hpc
    ⟨rfl, fun _ => id⟩ ⟨hat.1, ?_⟩
  rw [hcell]
  exact SharedCell.pending_flush t hat.2

theorem Inv.fenceHead (h : Inv X slots s) (hpc : s.pc t = .fenceHead b last) :
    Inv X slots ((s.onMem fun m => m.fence t).goto t (.setDirty b)) := by
  have hat := h.at_pc t
  rw [hpc] at hat
  obtain ⟨⟨k, rfl, hslot⟩, hpending⟩ := hat
  exact h.drain (SharedMemory.drains_fence s.mem t) (h.log.grows.fence t) hpc ⟨rfl, fun _ => id⟩
    ⟨k, hslot, hpending.fence⟩

/-! ### All of them -/

theorem Inv.hookStep (h : Inv X slots s) (hstep : s.hookStep t = some s') :
    ∃ slots', Inv X slots' s' := by
  have hat := h.at_pc t
  unfold Threads.hookStep at hstep
  cases hpc : s.pc t with
  | app =>
      rw [hpc] at hstep
      cases hstep
  | exited b =>
      rw [hpc] at hstep
      cases hstep
  | test b =>
      rw [hpc] at hstep
      obtain rfl := Option.some.inj hstep
      split
      · exact ⟨slots, h.ret (hpc ▸ rfl) (h.blocks.dirty b ‹_›)⟩
      · exact ⟨slots, h.goto hpc ⟨rfl, fun _ => id⟩ trivial⟩
  | acquire b =>
      rw [hpc] at hstep
      dsimp only at hstep
      split at hstep
      · cases hstep
      · rename_i hfree
        obtain rfl := Option.some.inj hstep
        exact ⟨slots, h.acquire hpc (Bool.eq_false_iff.mpr hfree)⟩
  | retest b =>
      rw [hpc] at hstep
      obtain rfl := Option.some.inj hstep
      refine ⟨slots, ?_⟩
      split
      · rename_i hdirty
        exact h.goto hpc ⟨rfl, fun _ => id⟩ (h.blocks.dirty b hdirty)
      · rename_i hclean
        exact h.goto hpc ⟨rfl, fun _ => id⟩ (Bool.eq_false_iff.mpr hclean)
  | giveUp b =>
      rw [hpc] at hstep
      obtain rfl := Option.some.inj hstep
      exact ⟨slots, h.giveUp hpc⟩
  | reserve b =>
      rw [hpc] at hstep
      obtain rfl := Option.some.inj hstep
      exact ⟨_, h.reserve hpc⟩
  | capacity b last =>
      rw [hpc] at hstep hat
      obtain rfl := Option.some.inj hstep
      refine ⟨slots, ?_⟩
      split
      · exact h.goto hpc ⟨rfl, fun _ => id⟩ trivial
      · exact h.goto hpc ⟨rfl, fun _ => id⟩ hat
  | magic b last =>
      rw [hpc] at hstep hat
      obtain rfl := Option.some.inj hstep
      exact ⟨slots, h.writeEntry hpc rfl hat (i := 0) (by decide)
        (fun l hl => SharedMemory.store_of_ne _ _ hl) ⟨rfl, fun _ => id⟩
        (words_zero.store (by decide) hat rfl)⟩
  | offset b last =>
      rw [hpc] at hstep hat
      obtain rfl := Option.some.inj hstep
      exact ⟨slots, h.writeEntry hpc rfl hat.1 (i := 1) (by decide)
        (fun l hl => SharedMemory.store_of_ne _ _ hl) ⟨rfl, fun _ => id⟩
        (hat.2.store (by decide) hat.1 rfl)⟩
  | size b last =>
      rw [hpc] at hstep hat
      obtain rfl := Option.some.inj hstep
      exact ⟨slots, h.writeEntry hpc rfl hat.1 (i := 2) (by decide)
        (fun l hl => SharedMemory.store_of_ne _ _ hl) ⟨rfl, fun _ => id⟩
        (hat.2.store (by decide) hat.1 rfl)⟩
  | flushEntry b last =>
      rw [hpc] at hstep
      obtain rfl := Option.some.inj hstep
      exact ⟨slots, h.flushEntry hpc⟩
  | payload b last copied =>
      rw [hpc] at hstep hat
      obtain rfl := Option.some.inj hstep
      refine ⟨slots, ?_⟩
      split
      · exact h.copyWord hpc ‹_›
      · rename_i hge
        refine h.goto hpc ⟨rfl, fun _ => id⟩ ⟨hat.1, hat.2.mono ?_⟩
        rw [entryWords]
        omega
  | fenceEntry b last =>
      rw [hpc] at hstep
      obtain rfl := Option.some.inj hstep
      exact ⟨slots, h.fenceEntry hpc⟩
  | publish b last =>
      rw [hpc] at hstep hat
      obtain rfl := Option.some.inj hstep
      refine ⟨slots, ?_⟩
      split
      · exact h.goto hpc ⟨rfl, fun _ => id⟩ hat
      · exact absurd (h.head_lt hpc) ‹_›
  | exchange b last =>
      rw [hpc] at hstep hat
      obtain rfl := Option.some.inj hstep
      refine ⟨slots, ?_⟩
      split
      · exact h.exchange hpc ‹_›
      · exact h.goto hpc ⟨rfl, fun _ => id⟩ hat
  | flushHead b last =>
      rw [hpc] at hstep
      obtain rfl := Option.some.inj hstep
      exact ⟨slots, h.flushHead hpc⟩
  | fenceHead b last =>
      rw [hpc] at hstep
      obtain rfl := Option.some.inj hstep
      exact ⟨slots, h.fenceHead hpc⟩
  | setDirty b =>
      rw [hpc] at hstep
      obtain rfl := Option.some.inj hstep
      exact ⟨slots, h.setDirty hpc⟩
  | release b =>
      rw [hpc] at hstep hat
      obtain rfl := Option.some.inj hstep
      exact ⟨slots, h.release (hpc ▸ rfl) (hpc ▸ rfl) hat⟩
  | record b =>
      rw [hpc] at hstep hat
      obtain rfl := Option.some.inj hstep
      have hrecord : Inv X slots (s.recordBlock t b) := ⟨h.log, h.locks, h.blocks, h.at_pc⟩
      exact ⟨slots, hrecord.ret (hpc ▸ rfl) hat⟩

theorem Inv.step (h : Inv X slots s) {l : Label} (hstep : step l s = some s') :
    ∃ slots', Inv X slots' s' := by
  cases l with
  | hook t => exact h.hookStep hstep
  | call t addr =>
      rw [Threads.step] at hstep
      split at hstep
      · rename_i hcall
        obtain rfl := Option.some.inj hstep
        exact ⟨slots, h.goto hcall.1 ⟨rfl, fun _ => id⟩ trivial⟩
      · cases hstep
  | store t o value =>
      rw [Threads.step] at hstep
      split at hstep
      · rename_i hstore
        obtain rfl := Option.some.inj hstep
        exact ⟨slots, h.store value (h.blocks.hooked t _ hstore.2)⟩
      · cases hstep

theorem inv_of_reaches {s₀ : Threads} (hfresh : Fresh X s₀)
    (h : (epoch s₀).Reaches (fun _ _ => True) s) : ∃ slots, Inv X slots s := by
  refine h.invariant (I := fun s => ∃ slots, Inv X slots s) ⟨[], hfresh.inv⟩ ?_
  rintro s l s' ⟨slots, hinv⟩ - hstep
  exact hinv.step hstep

end Threads

/-! ## What a crash leaves -/

/-- A log that restores `X`: the entries that the head covers are whole, and every word that does
not contain its value in `X` belongs to the block of one of them. -/
def LogImage (X : Nat → Nat) (img : Image Loc fun _ => Nat) : Prop :=
  ∃ blocks : List Nat, img .logHead = logSize * blocks.length ∧
    (∀ k b, blocks[k]? = some b →
      Threads.Words (fun l v => img l = v) X b (logSize * k) Threads.entryWords) ∧
    ∀ o, img (.data o) = X o ∨ o / kWordsPerBlock ∈ blocks

theorem Threads.Inv.logImage {X : Nat → Nat} {slots : List Nat} {s : Threads}
    {img : Image Loc fun _ => Nat} (h : Inv X slots s) (hcrash : s.mem.CrashTo img) :
    LogImage X img := by
  obtain ⟨n, hn⟩ : logSize ∣ img .logHead := h.log.whole.may (hcrash .logHead)
  have hle : logSize * n ≤ s.mem.load .logHead := hn ▸ h.log.grows.may_le (hcrash .logHead)
  obtain ⟨n', hn', hhead⟩ := h.log.head
  have hshort : n ≤ n' := by
    rw [hhead, logSize_eq] at hle
    omega
  refine ⟨slots.take n, ?_, fun k b hslot => ?_, fun o => ?_⟩
  · rw [List.length_take_of_le (Nat.le_trans hshort hn'), hn]
  · obtain ⟨hk, hslot'⟩ : k < n ∧ slots[k]? = some b := by
      rw [List.getElem?_take] at hslot
      split at hslot
      · exact ⟨‹_›, hslot⟩
      · cases hslot
    have hcovered : logSize * (k + 1) ≤ s.mem.load .logHead :=
      Nat.le_trans (Nat.mul_le_mul_left _ hk) hle
    exact (h.log.written k b hslot' hcovered).imp fun i _ v hv => hv.may (hcrash _)
  · rcases h.log.data o with hdurable | ⟨k, hslot, hcovered⟩
    · exact Or.inl (hdurable.may (hcrash _))
    · right
      have hk : logSize * (k + 1) ≤ logSize * n := hn ▸ hcovered.may (hcrash .logHead)
      rw [logSize_eq] at hk
      refine List.mem_of_getElem? (i := k) ?_
      rw [List.getElem?_take, if_pos (by omega), hslot]

/-! ## Recovery -/

section Recover

variable {X : Nat → Nat} {img : Image Loc fun _ => Nat} {blocks : List Nat} {t : UndoLogEngine}

/-- What the entries put back. -/
def restored (X : Nat → Nat) : Loc → Option Nat
  | .data o => some (X o)
  | _ => none

/-- Recovery has only written what `X` contains since the medium was mapped. -/
def Replaying (X : Nat → Nat) (img : Image Loc fun _ => Nat) (t : UndoLogEngine) : Prop :=
  Memory.Fills (restored X) (Memory.ofImage img) t.mem

theorem Replaying.load (h : Replaying X img t) {l : Loc} (hl : restored X l = none) :
    t.mem.load l = img l := h.cur hl

theorem shiftLeft_kBlockShift (b : Nat) : b <<< kBlockShift / kWordSize = b * kWordsPerBlock := by
  have hshift : b <<< kBlockShift = b * 256 := Nat.shiftLeft_eq ..
  rw [hshift, Threads.kWordSize_eq, kWordsPerBlock_eq]
  omega

theorem replayOf_data {m : File} {k b : Nat}
    (hwords : Threads.Words (fun l v => m.load l = v) X b (logSize * k) Threads.entryWords) (o : Nat) :
    replayOf (logSize * k / kWordSize) (b <<< kBlockShift) kBlockSize m (.data o) =
      if o / kWordsPerBlock = b then some (X o) else none := by
  have hsize : kBlockSize / kWordSize = kWordsPerBlock := rfl
  rw [replayOf, shiftLeft_kBlockShift, hsize]
  by_cases ho : o / kWordsPerBlock = b
  · have hlt : o - b * kWordsPerBlock < kWordsPerBlock := by
      rw [kWordsPerBlock_eq] at ho ⊢
      omega
    have hin : b * kWordsPerBlock ≤ o := by
      rw [kWordsPerBlock_eq] at ho ⊢
      omega
    have hvalue := hwords _ (Nat.add_lt_add_left hlt _) _ (Threads.entryValue_payload hlt)
    rw [Nat.add_sub_cancel' hin] at hvalue
    rw [if_pos ho, if_pos ⟨hin, by omega⟩, Nat.add_assoc]
    exact congrArg some hvalue
  · rw [if_neg ho, if_neg]
    rw [kWordsPerBlock_eq] at ho ⊢
    omega

theorem wp_recoverLoop {img : Image Loc fun _ => Nat}
    (hhead : img .logHead = logSize * blocks.length)
    (hentries : ∀ k b, blocks[k]? = some b →
      Threads.Words (fun l v => img l = v) X b (logSize * k) Threads.entryWords)
    {fuel k : Nat} (hfuel : blocks.length - k < fuel) (hk : k ≤ blocks.length)
    (ht : Replaying X img t)
    (hdone : ∀ o, o / kWordsPerBlock ∈ blocks.take k → t.mem.Secured (.data o) (X o)) :
    Prog.wp (Replaying X img) (recoverLoop fuel (logSize * k))
        (fun _ u => Replaying X img u ∧
          ∀ o, o / kWordsPerBlock ∈ blocks → u.mem.Secured (.data o) (X o)) t ∧
      ∃ u, (recoverLoop fuel (logSize * k)).run t = some ((), u) := by
  induction fuel generalizing k t with
  | zero => omega
  | succ fuel ih =>
      have hload : t.mem.load .logHead = logSize * blocks.length := (ht.load rfl).trans hhead
      rw [recoverLoop, Prog.wp_bind, Prog.wp_read, Prog.run_bind, Prog.run_read]
      simp only [Option.bind_some]
      by_cases hend : k = blocks.length
      · subst hend
        rw [if_pos (Nat.le_of_eq hload)]
        rw [List.take_length] at hdone
        exact ⟨⟨ht, Prog.wp_pure.mpr ⟨ht, hdone⟩⟩, t, rfl⟩
      · have hlt : k < blocks.length := by omega
        have hslot : blocks[k]? = some blocks[k] := List.getElem?_eq_getElem hlt
        have hentry : Threads.Words (fun l v => t.mem.load l = v) X blocks[k] (logSize * k)
            Threads.entryWords :=
          (hentries k _ hslot).imp fun i _ v hv => (ht.load rfl).trans hv
        have hmore : ¬ t.mem.load .logHead ≤ logSize * k := by
          rw [hload, logSize_eq]
          omega
        have hmagic : t.mem.load (.log (logSize * k / kWordSize)) = kLogEntryMagic :=
          hentry 0 (by decide) _ rfl
        have hoffset : t.mem.load (.log (logSize * k / kWordSize + 1)) = blocks[k] <<< kBlockShift :=
          hentry 1 (by decide) _ rfl
        have hsize : t.mem.load (.log (logSize * k / kWordSize + 2)) = kBlockSize :=
          hentry 2 (by decide) _ rfl
        rw [if_neg hmore]
        simp only [Prog.wp_bind, Prog.wp_read, Prog.run_bind, Prog.run_read, Option.bind_some]
        rw [if_neg (not_not.mpr hmagic)]
        simp only [Prog.wp_bind, Prog.wp_read, Prog.wp_act, Prog.run_bind, Prog.run_read,
          Prog.run_act, Option.bind_some, hoffset, hsize]
        let u := onMem (fun m => m.ntStoreAll
          (replayOf (logSize * k / kWordSize) (blocks[k] <<< kBlockShift) kBlockSize m)) t
        have hfills : t.mem.Fills (restored X) u.mem := by
          refine Memory.fills_ntStoreAll (fun l v hv => ?_) t.mem
          cases l with
          | data o =>
              rw [replayOf_data hentry o] at hv
              split at hv
              · exact hv
              · cases hv
          | _ => cases hv
        have hu : Replaying X img u := Memory.Fills.trans ht hfills
        have hnext : logSize * k + roundUp (kLogEntrySize + kBlockSize) kCacheLineSize =
            logSize * (k + 1) := (Nat.mul_succ _ _).symm
        have hdone' : ∀ o, o / kWordsPerBlock ∈ blocks.take (k + 1) →
            u.mem.Secured (.data o) (X o) := by
          intro o hin
          rw [List.take_add_one, hslot, List.mem_append] at hin
          rcases hin with hold | hnew
          · exact hfills.secured (fun w hw => (Option.some.inj hw).symm) (hdone o hold)
          · have hb : o / kWordsPerBlock = blocks[k] := by simpa using hnew
            left
            refine Memory.queued_ntStoreAll t.mem ?_
            rw [replayOf_data hentry o, if_pos hb]
        obtain ⟨hwp, hrun⟩ := ih (k := k + 1) (by omega) hlt hu hdone'
        rw [hnext]
        exact ⟨⟨ht, ht, ht, ht, hu, hwp⟩, hrun⟩

/-- What a crash of a recovery leaves still restores `X`. -/
theorem Replaying.logImage (hhead : img .logHead = logSize * blocks.length)
    (hentries : ∀ k b, blocks[k]? = some b →
      Threads.Words (fun l v => img l = v) X b (logSize * k) Threads.entryWords)
    (hdata : ∀ o, img (.data o) = X o ∨ o / kWordsPerBlock ∈ blocks) (h : Replaying X img t)
    {img' : Image Loc fun _ => Nat} (hcrash : t.mem.CrashTo img') : LogImage X img' := by
  have hkeep : ∀ l, restored X l = none → img' l = img l := fun l hl =>
    Cell.may_durable.mp (((h l).1 hl).may _ (hcrash l))
  refine ⟨blocks, (hkeep _ rfl).trans hhead, fun k b hslot => ?_, fun o => ?_⟩
  · exact (hentries k b hslot).imp fun i _ v hv => (hkeep _ rfl).trans hv
  · rcases hdata o with heq | hin
    · have honly : (Memory.ofImage img (.data o)).Only (X o) := fun w hw =>
        (Cell.may_durable.mp hw).trans heq
      exact Or.inl (((h (.data o)).2 (X o) rfl).only honly _ (hcrash _))
    · exact Or.inr hin

theorem logImage_of_empty (hhead : img .logHead = 0) (hdata : ∀ o, img (.data o) = X o) :
    LogImage X img :=
  ⟨[], hhead, fun k b hslot => by simp at hslot, fun o => Or.inl (hdata o)⟩

theorem LogImage.remounted (h : LogImage X img) {img' : Image Loc fun _ => Nat}
    (hcrash : (Memory.ofImage img).CrashTo img') : LogImage X img' := by
  have hsame : img' = img := funext fun l => Cell.may_durable.mp (hcrash l)
  exact hsame ▸ h

/-- What the medium contains after a recovery. -/
def recovered (X : Nat → Nat) (img : Image Loc fun _ => Nat) : Image Loc fun _ => Nat
  | .logHead => 0
  | .data o => X o
  | l => img l

theorem recover_spec (himage : LogImage X img) (ht : t.mem = Memory.ofImage img) :
    Prog.wp (fun u => ∀ img', u.mem.CrashTo img' → LogImage X img') recover
        (fun _ u => ∀ l, (u.mem l).Only (recovered X img l)) t ∧
      ∃ u, recover.run t = some ((), u) := by
  obtain ⟨blocks, hhead, hentries, hdata⟩ := id himage
  have hmounted : Replaying X img t := by
    rw [Replaying, ht]
    exact Memory.Fills.refl _
  have hload : t.mem.load .logHead = logSize * blocks.length := (hmounted.load rfl).trans hhead
  have hfuel : blocks.length - 0 < t.mem.load .logHead / kLogEntrySize + 1 := by
    have hsize : kLogEntrySize = 64 := rfl
    rw [hload, logSize_eq, hsize]
    omega
  obtain ⟨hwp, v, hv⟩ := wp_recoverLoop hhead hentries hfuel (Nat.zero_le _) hmounted (by simp)
  have hcrash : ∀ u, Replaying X img u → ∀ img', u.mem.CrashTo img' → LogImage X img' :=
    fun u hu img' hc => hu.logImage hhead hentries hdata hc
  refine ⟨?_, ?_⟩
  · simp only [recover, Prog.wp_bind, Prog.wp_read, Prog.wp_act]
    refine ⟨hcrash t hmounted, ?_⟩
    refine Prog.wp_mono (Prog.wp_weaken hcrash hwp) fun _ u hu => ?_
    obtain ⟨hreplaying, hsecured⟩ := hu
    have hfenced : Replaying X img (onMem Memory.fence u) :=
      Memory.Fills.trans hreplaying (Memory.fills_fence _)
    have honly : ∀ o, (u.mem.fence (.data o)).Only (X o) := by
      intro o
      rcases hdata o with heq | hin
      · have hbase : (Memory.ofImage img (.data o)).Only (X o) := fun w hw =>
          (Cell.may_durable.mp hw).trans heq
        exact ((hfenced (.data o)).2 (X o) rfl).only hbase
      · exact (hsecured o hin).fence
    have hkeep : ∀ l, restored X l = none → (u.mem.fence l).Only (img l) := fun l hl w hw =>
      Cell.may_durable.mp (((hfenced l).1 hl).may _ hw)
    have hother : ∀ l, l ≠ .logHead →
        (u.mem.fence.ntStore .logHead 0).fence l = (u.mem.fence l).fence := by
      intro l hl
      rw [Memory.fence, Memory.ntStore_of_ne _ _ hl]
    -- The head is either the one that was there or zero; the data is in place already.
    have hreset : ∀ img', (u.mem.fence.ntStore .logHead 0).CrashTo img' → LogImage X img' := by
      intro img' hc
      have hcell : ∀ l, l ≠ .logHead → (u.mem.fence l).May (img' l) := by
        intro l hl
        rw [← Memory.ntStore_of_ne u.mem.fence 0 hl]
        exact hc l
      have hlast := hc .logHead
      rw [Memory.ntStore_self] at hlast
      rcases Cell.may_ntStore.mp hlast with hzero | hold
      · exact logImage_of_empty hzero fun o => honly o _ (hcell _ (by simp))
      · refine hcrash _ hfenced img' fun l => ?_
        by_cases hl : l = .logHead
        · exact hl ▸ hold
        · exact hcell l hl
    refine ⟨hcrash _ hfenced, hreset, fun img' hc => hreset img' ((Memory.drains_fence _).crashTo hc),
      fun l => ?_⟩
    by_cases hl : l = .logHead
    · subst hl
      have hcell : (u.mem.fence.ntStore .logHead 0).fence .logHead =
          ((u.mem.fence .logHead).ntStore 0).fence := by
        rw [Memory.fence, Memory.ntStore_self]
      have honly : ((u.mem.fence.ntStore .logHead 0).fence .logHead).Only 0 := by
        rw [hcell]
        exact (Cell.pending_ntStore _ 0).settled_fence.only
      exact honly
    · intro w hw
      have hold : (u.mem.fence l).May w := Cell.May.of_fence ((hother l hl) ▸ hw)
      cases l with
      | logHead => exact absurd rfl hl
      | attributes => exact hkeep _ rfl w hold
      | log o => exact hkeep _ rfl w hold
      | data o => exact honly o w hold
  · refine ⟨onMem Memory.fence (onMem (fun m => m.ntStore .logHead 0) (onMem Memory.fence v)), ?_⟩
    have hloop : (recoverLoop (t.mem.load .logHead / kLogEntrySize + 1) 0).run t = some ((), v) := hv
    simp only [recover, Prog.run_bind, Prog.run_read, Option.bind_some, hloop, Prog.run_act]

end Recover

/-! ## An epoch that ends in a crash -/

/-- What crashes leave: the first one stops the threads, the others stop a recovery. -/
inductive Stopped (s₀ : Threads) : Image Loc (fun _ => Nat) → Prop
  | crash {s : Threads} {img : Image Loc fun _ => Nat}
      (hrun : (Threads.epoch s₀).Reaches (fun _ _ => True) s) (hcrash : s.mem.CrashTo img) :
      Stopped s₀ img
  | recoverCrash {img img' : Image Loc fun _ => Nat} {u : UndoLogEngine} (h : Stopped s₀ img)
      (hmid : recover.Mid (construct s₀.nrBlocks s₀.logCapacity (Memory.ofImage img)) u)
      (hcrash : u.mem.CrashTo img') : Stopped s₀ img'

theorem Stopped.logImage {X : Nat → Nat} {s₀ : Threads} {img : Image Loc fun _ => Nat}
    (hfresh : Threads.Fresh X s₀) (h : Stopped s₀ img) : LogImage X img := by
  induction h with
  | crash hrun hcrash =>
      obtain ⟨slots, hinv⟩ := Threads.inv_of_reaches hfresh hrun
      exact hinv.logImage hcrash
  | recoverCrash _ hmid hcrash ih =>
      exact Prog.mid_of_wp (recover_spec ih rfl).1 (fun _ hc => ih.remounted hc) hmid _ hcrash

/-- However the hooks and the stores of the threads interleave, and wherever the machine and its
recoveries stop, the next recovery returns and the data area is what it was when the epoch began. -/
theorem epoch_restored {X : Nat → Nat} {s₀ : Threads} {img : Image Loc fun _ => Nat}
    (hfresh : Threads.Fresh X s₀) (h : Stopped s₀ img) :
    ∃ u, recover.run (construct s₀.nrBlocks s₀.logCapacity (Memory.ofImage img)) = some ((), u) ∧
      ∀ o, (u.mem (.data o)).Only (X o) := by
  obtain ⟨hwp, u, hu⟩ := recover_spec (h.logImage hfresh) (t := construct _ _ (Memory.ofImage img)) rfl
  exact ⟨u, hu, fun o => Prog.run_of_wp hwp hu (.data o)⟩

/-- Threads 0 and 1 log blocks 0 and 1 side by side and store to their first words. -/
def twoStores (value : Nat) : List Threads.Label :=
  [.call 0 0, .call 1 256] ++ (List.replicate 50 [.hook 0, .hook 1]).flatten ++
    [.store 0 0 value, .store 1 32 (value + 1)]

def afterStores (value : Nat) (s : Threads) : Option Threads :=
  (Threads.epoch s).exec (twoStores value) s

/-- The machine stops with both blocks changed on the medium, and again when the recovery has
restored the first of them. -/
def halfRecovered (s : Threads) : Image Loc fun _ => Nat :=
  (recover.after 8 (construct (openNew 0).nrBlocks (openNew 0).logCapacity
    (Memory.ofImage s.mem.load))).mem.shutdown

theorem halfRecovered_values :
    (afterStores 5 (.opened (openNew 0))).map (fun s =>
      ((s.mem.load (.data 0), s.mem.load (.data 32), s.mem.load .logHead),
        halfRecovered s (.data 0), halfRecovered s (.data 32), halfRecovered s .logHead)) =
      some ((5, 6, 640), 0, 6, 640) := by
  decide +kernel

theorem epoch_restored_twoStores :
    ∃ s : Threads, (s.mem.load (.data 0), s.mem.load (.data 32), s.mem.load .logHead) = (5, 6, 640) ∧
      (halfRecovered s (.data 0), halfRecovered s (.data 32), halfRecovered s .logHead) =
        (0, 6, 640) ∧
      ∃ u, recover.run (construct (openNew 0).nrBlocks (openNew 0).logCapacity
          (Memory.ofImage (halfRecovered s))) = some ((), u) ∧ ∀ o, (u.mem (.data o)).Only 0 := by
  obtain ⟨s, hs, hvalues⟩ := Option.map_eq_some_iff.mp halfRecovered_values
  obtain ⟨hcrashed, hhalf⟩ := Prod.mk.inj hvalues
  have hrun := Machine.Reaches.exec .init hs
  have hstopped := Stopped.recoverCrash (.crash hrun (SharedMemory.crashTo_load _))
    (Prog.mid_after 8 recover _) (Memory.crashTo_shutdown _)
  exact ⟨s, hcrashed, hhalf, epoch_restored (Threads.fresh_opened _ _ false rfl) hstopped⟩

end Libcrpm.UndoLogEngine
