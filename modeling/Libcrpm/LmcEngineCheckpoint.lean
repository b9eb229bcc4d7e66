import Libcrpm.LmcEngineEpoch

/-!
# Checkpoints and recoveries of the LMC engine

Both make the working state durable and then end the epoch.  A checkpoint flushes the blocks on the
flush lists, and `recover` copies the blocks with the tag of the epoch back.
-/

namespace Libcrpm.LmcEngine

open Libcrpm.Persistence Libcrpm.Program

variable {X Y : Nat → Nat} {e v n : Nat} {committed : Bool} {P : Nat → Prop} {s t u : LmcEngine}
  {m m' : SharedMemory Loc Nat} {b o : Nat} {img : Loc → Nat}

/-! ## A checkpoint -/

def content (s : LmcEngine) : Nat → Nat := fun o => s.mem.load (.working o)

def Idle (s : LmcEngine) : Prop := ∀ t, s.pc t = .app

/-- Whether a crash leaves a checkpoint of the epoch `e` or an earlier one. -/
def Commits (committed : Bool) (e : Nat) (img : Loc → Nat) : Bool :=
  committed || img .currentEpoch ≠ e

theorem Ends.weaken (h : Ends X Y e Flag n img) : Ends X Y e (FlagIf committed) n img :=
  ⟨⟨h.restores.pos, h.restores.le, fun _ => h.restores.attributes, h.restores.bounded,
    h.restores.data⟩, h.whole⟩

theorem Ends.commits (h : Ends X Y e (FlagIf committed) n img) (hepoch : img .currentEpoch = e) :
    Ends X Y e (FlagIf (Commits committed e img)) n img := by
  have hsame : Commits committed e img = committed := by simp [Commits, hepoch]
  rw [hsame]
  exact h

/-- Until the epoch ends a word that is not as it was has the tag of the epoch. -/
theorem Inv.outcome_eq (h : Inv X e committed s) (hc : s.mem.CrashTo img)
    (ho : o / kWordsPerBlock < s.nrBlocks) : outcome X s.content img o = X o := by
  have hepoch : img .currentEpoch = e := h.epoch.may (hc _)
  rw [outcome, hepoch]
  split
  · rfl
  · rename_i htag
    have hkept : Kept X s.mem (o / kWordsPerBlock) := by
      refine (h.blocks _ ho).kept.resolve_right fun htagged => htag ?_
      exact Nat.le_antisymm ((h.blocks _ ho).bounded.may (hc _)) (htagged.may (hc _))
    exact (hkept o rfl).load

theorem Inv.ends (h : Inv X e committed s) (hc : s.mem.CrashTo img) :
    Ends X s.content e (FlagIf (Commits committed e img)) s.nrBlocks img := by
  have hepoch : img .currentEpoch = e := h.epoch.may (hc _)
  have hrestores := h.restores hc
  refine Ends.commits ⟨⟨hrestores.pos, hrestores.le, hrestores.attributes, hrestores.bounded,
    fun o ho => ?_⟩, fun _ o ho => ?_⟩ hepoch
  · rw [h.outcome_eq hc ho]
    exact hrestores.data o ho
  · rw [h.outcome_eq hc ho, if_pos hepoch]

theorem Inv.settled (h : Inv X e committed s) (hidle : Idle s) (hb : b < s.nrBlocks) :
    Clean e s.mem b ∨
      Tagged e s.mem b ∧ (FlushLists.Listed s.flushBlocks b ∨ FlushLists.Full s.flushBlocks) := by
  cases h.status b hb with
  | clean hclean => exact Or.inl hclean
  | tagging t htagging =>
      rw [hidle t] at htagging
      cases htagging
  | unlisted _ t hpc =>
      rw [hidle t] at hpc
      cases hpc
  | listed htagged hlist => exact Or.inr ⟨htagged, hlist⟩

theorem Inv.kept_content (h : Inv X e committed s) (hb : b < s.nrBlocks)
    (hclean : Clean e s.mem b) : Kept s.content s.mem b := by
  intro o ho
  have hdurable := (h.blocks b hb).kept_of_clean hclean o ho
  exact hdurable.mono fun v hv => hv.trans hdurable.load.symm

/-- The flushing section makes the working state durable. -/
theorem Inv.ending (h : Inv X e committed s) (hidle : Idle s) {nrThreads : Nat}
    (hpos : 0 < nrThreads) (hmode : s.flushMode = FlushLists.determineFlushMode s.flushBlocks)
    (hflushed : ∀ i < nrThreads,
      FlushState.Flushed .working s.content i nrThreads s.flushView t.flushView) :
    Ending X s.content e (FlagIf committed) s.nrBlocks t.mem := by
  have hdrains : s.mem.Drains t.mem := (hflushed 0 hpos).flushes.drains
  refine ⟨h.pos, h.le, (hdrains _).durably _ h.epoch,
    (hdrains _).durably _ h.flagIf,
    fun b hb => (hdrains _).durably _ (h.blocks b hb).bounded, fun b hb => ?_, fun b hb o ho => ?_⟩
  · exact (h.blocks b hb).shadowed.imp ((hdrains _).durably _) fun hs o ho =>
      (hdrains _).durably _ (hs o ho)
  · refine FlushState.durable_of_flushed hpos hmode hflushed ?_
    rcases h.settled hidle (b := o / kWordsPerBlock) (ho ▸ hb) with hclean | ⟨-, hlist⟩
    · exact Or.inl (h.kept_content (ho ▸ hb) hclean o rfl)
    · exact Or.inr hlist

theorem Inv.apart (h : Inv X e committed s) (hidle : Idle s) (hdrains : s.mem.Drains m) :
    Apart X s.content e s.nrBlocks m := by
  intro b hb
  rcases h.settled hidle hb with hclean | ⟨htagged, -⟩
  · exact Or.inr fun o ho => ((h.blocks b hb).kept_of_clean hclean o ho).load.symm
  · exact Or.inl ((hdrains _).durably _ htagged)

theorem wp_finishCheckpoint (h : Ending X Y e (FlagIf committed) s.nrBlocks s.mem)
    (hapart : Apart X Y e s.nrBlocks s.mem)
    (hsnapshot : s.hasSnapshot = true → (s.mem .attributes).Durably Flag) :
    Prog.wp (fun u : LmcEngine => ∀ img, u.mem.CrashTo img →
        Ends X Y e (FlagIf (Commits committed e img)) s.nrBlocks img) finishCheckpoint
      (fun _ u => ∃ m v, u = { s with mem := m, hasSnapshot := true, flushBlocks := fun _ => [] } ∧
        Begun Y v Flag s.nrBlocks m) s := by
  -- From the end of the epoch on.
  have hrest : ∀ m : SharedMemory Loc Nat, Ending X Y e Flag s.nrBlocks m →
      Apart X Y e s.nrBlocks m →
      Prog.wp (fun u : LmcEngine => ∀ img, u.mem.CrashTo img →
        Ends X Y e (FlagIf (Commits committed e img)) s.nrBlocks img)
        (do
          advanceCurrentEpoch
          Prog.act fun s => { s with flushBlocks := fun _ => [] })
        (fun _ u => ∃ m v,
          u = { s with mem := m, hasSnapshot := true, flushBlocks := fun _ => [] } ∧
          Begun Y v Flag s.nrBlocks m) { s with mem := m, hasSnapshot := true } := by
    intro m hm hm'
    rw [Prog.wp_bind]
    have hadvance := wp_advanceCurrentEpoch (s := { s with hasSnapshot := true }) hm fun _ => hm'
    refine Prog.wp_mono (Prog.wp_crash (fun img hc => (hm.ends (fun _ => hm') hc).weaken)
      (Prog.wp_weaken (fun u hu img hc => (hu img hc).weaken) hadvance)) ?_
    rintro _ _ ⟨hcrash, m', v, rfl, hbegun⟩
    exact Prog.wp_act.mpr ⟨hcrash, m', v, rfl, hbegun⟩
  have hends : ∀ m : SharedMemory Loc Nat, Ending X Y e (FlagIf committed) s.nrBlocks m →
      Apart X Y e s.nrBlocks m → ∀ img, m.CrashTo img →
      Ends X Y e (FlagIf (Commits committed e img)) s.nrBlocks img :=
    fun m hm hm' img hc => (hm.ends (fun _ => hm') hc).commits (hm.epoch.may (hc _))
  rw [finishCheckpoint, Prog.wp_bind, Prog.wp_read]
  refine ⟨hends _ h hapart, ?_⟩
  by_cases hflag : s.hasSnapshot = true
  · have hs : s = { s with mem := s.mem, hasSnapshot := true } := by rw [← hflag]
    rw [if_pos hflag, hs]
    exact hrest s.mem ⟨h.pos, h.le, h.epoch, hsnapshot hflag, h.bounded, h.shadowed,
      h.kept⟩ hapart
  · let m₁ := s.mem.ntStore 0 .attributes kAttributeHasSnapshot
    have hother : ∀ l, l ≠ .attributes → m₁ l = s.mem l :=
      fun l hl => SharedMemory.ntStore_of_ne _ _ _ hl
    have hdurable : ∀ {l : Loc} {p : Nat → Prop}, l ≠ .attributes → (s.mem l).Durably p →
        (m₁ l).Durably p := by
      intro l p hl hp
      rw [hother l hl]
      exact hp
    have hstored : (m₁ .attributes) =
        (s.mem .attributes).ntStore 0 kAttributeHasSnapshot := SharedMemory.ntStore_self _ _ _ _
    have hset : Flag kAttributeHasSnapshot := by
      unfold Flag
      decide
    have h₁ : Ending X Y e (FlagIf committed) s.nrBlocks m₁ := by
      refine ⟨h.pos, h.le, hdurable (by simp) h.epoch, ?_,
        fun b hb => hdurable (by simp) (h.bounded b hb), fun b hb => ?_,
        fun b hb o ho => hdurable (by simp) (h.kept b hb o ho)⟩
      · rw [hstored]
        exact (h.attributes.store fun _ => hset).flush 0
      · exact (h.shadowed b hb).imp (hdurable (by simp)) fun hs o ho => hdurable (by simp) (hs o ho)
    have hapart₁ : Apart X Y e s.nrBlocks m₁ := fun b hb => (hapart b hb).imp (hdurable (by simp)) id
    have hdrains := SharedMemory.drains_fence m₁ 0
    have h₂ := h₁.drains hdrains
    have hapart₂ : Apart X Y e s.nrBlocks (m₁.fence 0) :=
      fun b hb => (hapart₁ b hb).imp ((hdrains _).durably _) id
    have hflag₂ : (m₁.fence 0 .attributes).Durably Flag := by
      have hpending := SharedCell.pending_ntStore (s.mem .attributes) 0 hset
      rw [← hstored] at hpending
      exact hpending.fence
    rw [if_neg hflag]
    simp only [Prog.wp_bind, Prog.wp_act]
    refine ⟨hends _ h₁ hapart₁, hends _ h₂ hapart₂, hends _ h₂ hapart₂, ?_⟩
    have hfinal := hrest (m₁.fence 0) ⟨h.pos, h.le, h₂.epoch, hflag₂, h₂.bounded,
      h₂.shadowed, h₂.kept⟩ hapart₂
    simp only [Prog.wp_bind, Prog.wp_act] at hfinal
    exact hfinal

/-- A checkpoint that finds all lists empty has nothing to do. -/
theorem Inv.fresh_of_noAction (h : Inv X e committed s) (hidle : Idle s)
    (hmode : FlushLists.determineFlushMode s.flushBlocks = .noAction) :
    Fresh s.content e committed s.nextEpoch := by
  have hclean : ∀ b < s.nrBlocks, Clean e s.mem b := by
    intro b hb
    refine (h.settled hidle hb).resolve_right fun htagged => ?_
    rcases htagged.2 with hlisted | hfull
    · exact FlushLists.not_listed_of_noAction hmode b hlisted
    · exact FlushLists.not_full_of_mode (hmode.trans_ne (by decide)) hfull
  exact ⟨h.pos, h.le, h.epoch, h.flag, hclean, fun b hb => h.kept_content hb (hclean b hb), hidle,
    fun _ => rfl⟩

theorem Inv.wp_checkpoint (h : Inv X e committed s) (hidle : Idle s) {nrThreads : Nat}
    (hpos : 0 < nrThreads) (schedule : List Nat) :
    Prog.wp (fun u : LmcEngine => ∀ img, u.mem.CrashTo img →
        Ends X s.content e (FlagIf (Commits committed e img)) s.nrBlocks img) (checkpoint nrThreads schedule)
      (fun _ u => u.nrBlocks = s.nrBlocks ∧
        ∃ v, Fresh s.content v
          (committed || FlushLists.determineFlushMode s.flushBlocks ≠ .noAction) u.nextEpoch) s := by
  let a : LmcEngine := { s with flushMode := FlushLists.determineFlushMode s.flushBlocks }
  have ha : Inv X e committed a :=
    ⟨h.pos, h.le, h.epoch, h.flag, h.blocks, h.status, h.locks, h.inPool, h.hooked, h.at_pc⟩
  have hcrash : ∀ img, s.mem.CrashTo img →
      Ends X s.content e (FlagIf (Commits committed e img)) s.nrBlocks img := fun img hc => h.ends hc
  simp only [checkpoint, Prog.wp_bind, Prog.wp_act, Prog.wp_read]
  refine ⟨hcrash, hcrash, ?_⟩
  split
  · rename_i hmode
    have hmode' : FlushLists.determineFlushMode s.flushBlocks = .noAction := hmode
    have hsame : (committed || decide (FlushLists.determineFlushMode s.flushBlocks ≠ .noAction)) =
        committed := by simp [hmode']
    rw [hsame]
    exact Prog.wp_pure.mpr ⟨rfl, e, ha.fresh_of_noAction hidle hmode'⟩
  · rename_i hmode
    have hmode' : FlushLists.determineFlushMode s.flushBlocks ≠ .noAction := hmode
    have hsame : (committed || decide (FlushLists.determineFlushMode s.flushBlocks ≠ .noAction)) =
        true := by simp [hmode']
    rw [hsame, Prog.wp_bind]
    have hcontent : FlushState.Contains .working s.content a.flushView := fun _ => rfl
    have hlines : ∀ o, blockLines (o / kWordsPerBlock) (.working o) = true :=
      fun _ => decide_eq_true rfl
    have hflush := FlushState.wp_flushSection hlines flushView
      (fun a b => setFlushed a b) (fun _ _ => rfl) (fun _ _ _ => rfl) (fun _ => rfl) (s := a)
      (C := fun u => ∀ img, u.mem.CrashTo img →
        Ends X s.content e (FlagIf (Commits committed e img)) s.nrBlocks img)
      (fun b c hb hdrains img hc => hb img (hdrains.crashTo hc)) hcrash hcontent nrThreads schedule
    refine Prog.wp_mono hflush fun _ w hw => ?_
    have hending := ha.ending hidle hpos rfl fun i hi => (hw i hi).1
    have hdrains : s.mem.Drains w.mem := (hw 0 hpos).1.flushes.drains
    obtain ⟨m, rfl⟩ : ∃ m, w = { a with mem := m } := by
      obtain ⟨⟨m, hview, -⟩, hw⟩ := (hw 0 hpos).imp FlushState.Flushed.flushes id
      rw [hview] at hw
      exact ⟨m, hw⟩
    have hfinish := wp_finishCheckpoint (s := { a with mem := m }) hending
      (ha.apart hidle hdrains) fun hflag => (hdrains _).durably _ (h.flag (Or.inr hflag))
    refine Prog.wp_mono hfinish ?_
    rintro _ _ ⟨m', v, rfl, hbegun⟩
    exact ⟨rfl, v, hbegun.pos, hbegun.le, hbegun.epoch, fun _ => hbegun.attributes, hbegun.clean,
      hbegun.kept, hidle, fun _ => rfl⟩

/-! ## Recovery -/

/-- The header and the shadow state are as they were mapped, and the blocks without the tag of the
epoch contain `X`. -/
structure Recovering (X : Nat → Nat) (n : Nat) (img : Loc → Nat) (m : SharedMemory Loc Nat) :
    Prop where
  other : ∀ l, (∀ o, l ≠ .working o) → (m l).Durably (· = img l)
  kept : ∀ o, o / kWordsPerBlock < n →
    img (.tagmap (o / kWordsPerBlock)) ≠ img .currentEpoch → (m (.working o)).Durably (· = X o)

def Written (X : Nat → Nat) (m : SharedMemory Loc Nat) (o : Nat) : Prop :=
  (m (.working o)).Pending 0 (· = X o)

theorem Recovering.restores (h : Recovering X n img m) (himage : Restores X P n img)
    {img' : Loc → Nat} (hc : m.CrashTo img') : Restores X P n img' := by
  have hsame : ∀ l, (∀ o, l ≠ .working o) → img' l = img l := fun l hl => (h.other l hl).may (hc l)
  have hepoch := hsame .currentEpoch (by simp)
  refine ⟨hepoch ▸ himage.pos, hepoch ▸ himage.le,
    hsame .attributes (by simp) ▸ himage.attributes, fun b hb => ?_, fun o ho => ?_⟩
  · rw [hepoch, hsame (.tagmap b) (by simp)]
    exact himage.bounded b hb
  · have hdata := himage.data o ho
    rw [surviving] at hdata ⊢
    rw [hepoch, hsame (.tagmap _) (by simp)]
    split
    · rename_i htag
      rw [if_pos htag] at hdata
      exact (hsame (.shadow o) (by simp)).trans hdata
    · rename_i htag
      exact (h.kept o ho htag).may (hc _)

theorem Recovering.write (h : Recovering X n img m) (o : Nat) :
    Recovering X n img (m.ntStore 0 (.working o) (X o)) where
  other l hl := by
    rw [SharedMemory.ntStore_of_ne _ _ _ (hl o)]
    exact h.other l hl
  kept o' ho' htag := by
    by_cases heq : o' = o
    · subst heq
      rw [SharedMemory.ntStore_self]
      exact ((h.kept o' ho' htag).store rfl).flush 0
    · rw [SharedMemory.ntStore_of_ne _ _ _ fun hloc => heq (Loc.working.inj hloc)]
      exact h.kept o' ho' htag

theorem written_ntStore {o' : Nat} (h : o' = o ∨ Written X m o') :
    Written X (m.ntStore 0 (.working o) (X o)) o' := by
  unfold Written
  by_cases heq : o' = o
  · subst heq
    rw [SharedMemory.ntStore_self]
    exact SharedCell.pending_ntStore _ 0 rfl
  · rw [SharedMemory.ntStore_of_ne _ _ _ fun hloc => heq (Loc.working.inj hloc)]
    exact h.resolve_left heq

/-- What is known of the file in the loop of `recover`, where the words in `done` are copied back. -/
def Copying (X : Nat → Nat) (n : Nat) (img : Loc → Nat) (s : LmcEngine) (done : Nat → Prop)
    (u : LmcEngine) : Prop :=
  ∃ m, u = { s with mem := m } ∧ Recovering X n img m ∧ ∀ o, done o → Written X m o

theorem wp_copyBack (himage : Restores X P n img) (hb : b < n)
    (htag : img (.tagmap b) = img .currentEpoch) {done : Nat → Prop}
    (h : Copying X n img s done u) :
    Prog.wp (fun u : LmcEngine => ∀ img', u.mem.CrashTo img' → Restores X P n img')
      (copyBack b) (fun _ => Copying X n img s fun o => done o ∨ o / kWordsPerBlock = b) u := by
  refine Prog.wp_forEach
    (fun l => Copying X n img s fun o => done o ∨ ∃ i ∈ l, b * kWordsPerBlock + i = o) ?_ ?_ ?_
  · obtain ⟨m, rfl, hm, hdone⟩ := h
    refine ⟨m, rfl, hm, fun o ho => hdone o (ho.resolve_right ?_)⟩
    rintro ⟨i, hi, -⟩
    cases hi
  · rintro l i rest w hl ⟨m, rfl, hm, hdone⟩
    have hi : i < kWordsPerBlock := List.mem_range.mp (by rw [hl]; simp)
    let o := b * kWordsPerBlock + i
    have hvalue : m.load (.shadow o) = X o := by
      have hdata := himage.data o (by rw [div_word hi]; exact hb)
      rw [surviving, div_word hi, if_pos htag] at hdata
      exact ((hm.other (.shadow o) (by simp)).load).trans hdata
    rw [Prog.wp_act]
    have hwrite := hm.write o
    rw [← hvalue] at hwrite
    refine ⟨fun img' hc => hwrite.restores himage hc, _, rfl, hwrite, fun o' ho' => ?_⟩
    have hwritten : Written X (m.ntStore 0 (.working o) (X o)) o' := by
      refine written_ntStore ?_
      rcases ho' with ho' | ⟨j, hj, rfl⟩
      · exact Or.inr (hdone o' (Or.inl ho'))
      · rcases List.mem_append.mp hj with hold | hnew
        · exact Or.inr (hdone _ (Or.inr ⟨j, hold, rfl⟩))
        · exact Or.inl (by rw [List.mem_singleton.mp hnew])
    rwa [← hvalue] at hwritten
  · rintro w ⟨m, rfl, hm, hdone⟩
    refine ⟨m, rfl, hm, fun o ho => hdone o (ho.imp id fun hblock => ?_)⟩
    obtain ⟨i, hi, hword⟩ := word_of_block hblock
    exact ⟨i, List.mem_range.mpr hi, hword⟩

def TaggedIn (img : Loc → Nat) (l : List Nat) (o : Nat) : Prop :=
  o / kWordsPerBlock ∈ l ∧ img (.tagmap (o / kWordsPerBlock)) = img .currentEpoch

theorem wp_recoverBlocks (himage : Restores X P n img)
    (h : Recovering X n img s.mem) :
    Prog.wp (fun u : LmcEngine => ∀ img', u.mem.CrashTo img' → Restores X P n img')
      (Prog.forEach (List.range n) recoverBlock)
      (fun _ => Copying X n img s (TaggedIn img (List.range n))) s := by
  refine Prog.wp_forEach (fun l => Copying X n img s (TaggedIn img l)) ?_ ?_ fun _ => id
  · exact ⟨s.mem, rfl, h, fun o ho => absurd ho.1 (List.not_mem_nil)⟩
  · intro l b rest w hl hw
    have hb : b < n := List.mem_range.mp (by rw [hl]; simp)
    obtain ⟨m, rfl, hm, hdone⟩ := id hw
    have hloaded : (LmcEngine.tag { s with mem := m } b = LmcEngine.epoch { s with mem := m }) ↔
        img (.tagmap b) = img .currentEpoch := by
      have htag : LmcEngine.tag { s with mem := m } b = img (.tagmap b) :=
        (hm.other (.tagmap b) (by simp)).load
      have hepoch : LmcEngine.epoch { s with mem := m } = img .currentEpoch :=
        (hm.other .currentEpoch (by simp)).load
      rw [htag, hepoch]
    rw [recoverBlock, Prog.wp_bind, Prog.wp_read]
    refine ⟨fun img' hc => hm.restores himage hc, ?_⟩
    have hsplit : ∀ o, TaggedIn img (l ++ [b]) o → TaggedIn img l o ∨ o / kWordsPerBlock = b := by
      rintro o ⟨hin, htag⟩
      rcases List.mem_append.mp hin with hold | hnew
      · exact Or.inl ⟨hold, htag⟩
      · exact Or.inr (List.mem_singleton.mp hnew)
    split
    · rename_i htag
      have hcopy := wp_copyBack himage hb (hloaded.mp (of_decide_eq_true htag)) hw
      refine Prog.wp_mono hcopy ?_
      rintro _ _ ⟨m', rfl, hm', hdone'⟩
      exact ⟨m', rfl, hm', fun o ho => hdone' o (hsplit o ho)⟩
    · rename_i htag
      refine Prog.wp_pure.mpr ⟨m, rfl, hm, fun o ho => hdone o ?_⟩
      refine (hsplit o ho).resolve_right fun hblock => htag (decide_eq_true (hloaded.mpr ?_))
      exact hblock ▸ ho.2

theorem Recovering.ending (h : Recovering X n img m) (himage : Restores X P n img)
    (hwritten : ∀ o, TaggedIn img (List.range n) o → Written X m o) :
    Ending X X (img .currentEpoch) P n (m.fence 0) := by
  have hother : ∀ l, (∀ o, l ≠ .working o) → (m.fence 0 l).Durably (· = img l) :=
    fun l hl => (h.other l hl).fence 0
  refine ⟨himage.pos, himage.le, hother _ (by simp), ?_, fun b hb => ?_, fun b hb => ?_,
    fun b hb o ho => ?_⟩
  · exact (hother .attributes (by simp)).mono fun v hv => hv ▸ himage.attributes
  · exact (hother (.tagmap b) (by simp)).mono fun v hv => hv ▸ himage.bounded b hb
  · by_cases htag : img (.tagmap b) = img .currentEpoch
    · refine Or.inr fun o ho => (hother (.shadow o) (by simp)).mono fun v hv => hv.trans ?_
      have hdata := himage.data o (ho ▸ hb)
      rwa [surviving, ho, if_pos htag] at hdata
    · refine Or.inl ((hother (.tagmap b) (by simp)).mono fun v hv => ?_)
      rw [hv]
      exact Nat.lt_of_le_of_ne (himage.bounded b hb) htag
  · by_cases htag : img (.tagmap (o / kWordsPerBlock)) = img .currentEpoch
    · exact SharedCell.Pending.fence (hwritten o ⟨List.mem_range.mpr (ho ▸ hb), htag⟩)
    · exact (h.kept o (ho ▸ hb) htag).fence 0

theorem outcome_self (X : Nat → Nat) (img : Loc → Nat) : outcome X X img = X :=
  funext fun _ => ite_self _

theorem recovering_mounted (himage : Restores X P n img) :
    Recovering X n img (.ofImage img) where
  other _ _ := SharedCell.durably_settled rfl
  kept o ho htag := by
    have hdata := himage.data o ho
    rw [surviving, if_neg htag] at hdata
    exact SharedCell.durably_settled hdata

theorem wp_recover (himage : Restores X P s.nrBlocks img) (hs : s.mem = .ofImage img) :
    Prog.wp (fun u : LmcEngine => ∀ img', u.mem.CrashTo img' → Restores X P s.nrBlocks img')
      recover
      (fun _ u => ∃ m v, u = { s with mem := m } ∧ Begun X v P s.nrBlocks m) s := by
  have hmounted : Recovering X s.nrBlocks img s.mem := hs ▸ recovering_mounted himage
  simp only [recover, Prog.wp_bind, Prog.wp_read, Prog.wp_act]
  refine ⟨fun img' hc => hmounted.restores himage hc, ?_⟩
  refine Prog.wp_mono (wp_recoverBlocks himage hmounted) ?_
  rintro _ _ ⟨m, rfl, hm, hwritten⟩
  have hending := hm.ending himage hwritten
  have hends : ∀ {img' : Loc → Nat}, Ends X X (img .currentEpoch) P s.nrBlocks img' →
      Restores X P s.nrBlocks img' := by
    intro img' h
    have hrestores := h.restores
    rwa [outcome_self] at hrestores
  have hapart : img .currentEpoch ≠ kMaxEpoch →
      Apart X X (img .currentEpoch) s.nrBlocks (m.fence 0) := fun _ _ _ => Or.inr fun _ _ => rfl
  refine ⟨fun img' hc => hends (hending.ends hapart hc), ?_⟩
  exact Prog.wp_weaken (fun u hu img' hc => hends (hu img' hc))
    (wp_advanceCurrentEpoch (s := s) hending hapart)

theorem total_recover : recover.Total := by
  have hcopy : ∀ b, (copyBack b).Total := fun b => Prog.total_forEach fun i _ => Prog.total_act _
  have hepoch : ∀ v, (setEpoch v).Total := fun v =>
    Prog.total_bind (Prog.total_act _) fun _ => Prog.total_bind (Prog.total_act _) fun _ =>
      Prog.total_act _
  refine Prog.total_bind (Prog.total_read _) fun nrBlocks => ?_
  refine Prog.total_bind (Prog.total_forEach fun b _ => ?_) fun _ => ?_
  · refine Prog.total_bind (Prog.total_read _) fun tagged => ?_
    split
    · exact hcopy b
    · trivial
  · refine Prog.total_bind (Prog.total_act _) fun _ => ?_
    refine Prog.total_bind (Prog.total_read _) fun epoch => ?_
    split
    · refine Prog.total_bind (Prog.total_read _) fun nrBlocks => ?_
      refine Prog.total_bind (Prog.total_forEach fun i _ => Prog.total_act _) fun _ => ?_
      refine Prog.total_bind (Prog.total_act _) fun _ => ?_
      exact Prog.total_bind (Prog.total_act _) fun _ => hepoch 1
    · exact hepoch _

theorem Restores.weaken {Q : Nat → Prop} (h : Restores X P n img) (hQ : Q (img .attributes)) :
    Restores X Q n img :=
  ⟨h.pos, h.le, hQ, h.bounded, h.data⟩

theorem openExisting_spec {optionCapacity : Nat}
    (himage : Restores X (FlagIf committed) (nrBlocksFor optionCapacity) img) :
    ∃ u v, openExisting.run (mounted optionCapacity img) = some ((), u) ∧
      u.nrBlocks = nrBlocksFor optionCapacity ∧ Fresh X v committed u ∧
      (committed = true → u.hasSnapshot = true) := by
  have hsame := himage.weaken (Q := (· = img .attributes)) rfl
  obtain ⟨⟨⟩, w, hw⟩ := total_recover.run_isSome (mounted optionCapacity img)
  obtain ⟨m, v, rfl, hbegun⟩ :=
    Prog.run_of_wp (wp_recover (s := mounted optionCapacity img) hsame rfl) hw
  have hload : m.load .attributes = img .attributes := hbegun.attributes.load
  refine ⟨{ mounted optionCapacity img with
    mem := m, hasSnapshot := existSnapshot { mounted optionCapacity img with mem := m } }, v, ?_, rfl,
    ⟨hbegun.pos, hbegun.le, hbegun.epoch, fun hflag => ?_, hbegun.clean, hbegun.kept, fun _ => rfl,
      fun _ => rfl⟩, fun hcommitted => ?_⟩
  · simp only [openExisting, Prog.run_bind, hw, Option.bind_some, Prog.run_read, Prog.run_act]
  · refine hbegun.attributes.mono fun value hvalue => ?_
    rw [hvalue]
    rcases hflag with hcommitted | hexist
    · exact himage.attributes hcommitted
    · have hflag : m.load .attributes &&& kAttributeHasSnapshot ≠ 0 := of_decide_eq_true hexist
      rwa [hload] at hflag
  · have hflag : m.load .attributes &&& kAttributeHasSnapshot ≠ 0 := by
      rw [hload]
      exact himage.attributes hcommitted
    exact decide_eq_true hflag

end Libcrpm.LmcEngine
