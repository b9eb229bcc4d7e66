import Libcrpm.LmcEngineInv

/-!
# The steps of the threads keep the tags sound

One lemma for each kind of step: those that only move the thread or its caches, the copy of a word,
the store of the tag, the fence behind it, the lock, the flush list, and the stores of the
application.
-/

namespace Libcrpm.LmcEngine

open Libcrpm.Persistence Libcrpm.Program

variable {X : Nat → Nat} {e : Nat} {committed : Bool} {s s' : LmcEngine}
  {m m' : SharedMemory Loc Nat} {b t n o : Nat} {p q : HookPc} {lists : Nat → List Nat}

theorem HookPc.block_of_locked (h : p.locked = some b) : p.block = some b := by
  cases p <;> first | exact h | cases h

/-! ## Flushes, fences, and steps that only move the thread -/

theorem Inv.drain (h : Inv X e committed s) (hm : s.mem.Drains m') (hpc : s.pc t = q)
    (hmoves : q.Moves p) (hat : At X e m' t p) :
    Inv X e committed ((s.onMem fun _ => m').goto t p) := by
  refine h.of_step (t := t) (p := p) ⟨rfl, rfl, rfl, fun b hb => ?_, hm _, hm _,
    fun b => (hm _).raises, fun b _ => .of_drains hm b⟩ (fun b hb => ?_) (fun b hb => ?_)
    (h.locks.update (hpc ▸ hmoves.locked)) (fun t' b hb => ?_) hat
  · exact h.inPool t b (hpc ▸ hmoves.block b hb)
  · refine (h.blocks b hb).leaves (.of_drains hm b) fun hkept => Or.inl fun o ho => ?_
    exact (hm _).durably _ (hkept o ho)
  · exact (h.status b hb).update ((hm _).durably _) (hm _).raises id
      (fun hb' => hmoves.tagging b (hpc ▸ hb')) (fun hb' => hmoves.unlisted b (hpc ▸ hb'))
  · exact (h.hooked t' b hb).raise (hm _).raises

theorem Inv.goto (h : Inv X e committed s) (hpc : s.pc t = q) (hmoves : q.Moves p)
    (hat : At X e s.mem t p) : Inv X e committed (s.goto t p) :=
  h.drain (.refl _) hpc hmoves hat

theorem Inv.fenceTag (h : Inv X e committed s) (hpc : s.pc t = .fenceTag b) :
    Inv X e committed ((s.onMem fun m => m.fence t).goto t (.release b)) := by
  have hm := SharedMemory.drains_fence s.mem t
  have htagged : Tagged e (s.mem.fence t) b := by
    have hat := h.at_pc t
    rw [hpc] at hat
    exact SharedCell.Pending.fence hat
  refine h.of_step (t := t) (p := .release b) ⟨rfl, rfl, rfl, fun b' hb' => ?_, hm _, hm _,
    fun b => (hm _).raises, fun b _ => .of_drains hm b⟩ (fun b' hb' => ?_) (fun b' hb' => ?_)
    (h.locks.update (hpc ▸ rfl)) (fun t' b' hb' => (h.hooked t' b' hb').raise (hm _).raises) htagged
  · exact h.inPool t b' (hpc ▸ hb')
  · refine (h.blocks b' hb').leaves (.of_drains hm b') fun hkept => Or.inl fun o ho => ?_
    exact (hm _).durably _ (hkept o ho)
  · by_cases hb : b' = b
    · subst hb
      exact .unlisted htagged t (by rw [goto_pc_self]; rfl)
    · have hne : some b ≠ some b' := fun heq => hb (Option.some.inj heq).symm
      refine (h.status b' hb').update ((hm _).durably _) (hm _).raises id (fun hb'' => ?_)
        (fun hb'' => ?_)
      · rw [hpc] at hb''
        exact absurd hb'' hne
      · rw [hpc] at hb''
        cases hb''

/-! ## The copy and the tag -/

theorem stepOf_write (h : Inv X e committed s) (hpc : s.pc t = q) (hlocked : q.locked = some b)
    (hblock : p.block = some b) (hepoch : m' .currentEpoch = s.mem .currentEpoch)
    (hattributes : m' .attributes = s.mem .attributes)
    (htag : (s.mem (.tagmap b)).Raises (m' (.tagmap b)))
    (htags : ∀ b' ≠ b, m' (.tagmap b') = s.mem (.tagmap b'))
    (hshadow : ∀ o, o / kWordsPerBlock ≠ b → m' (.shadow o) = s.mem (.shadow o)) :
    StepOf e t p s ((s.onMem fun _ => m').goto t p) where
  nrBlocks := rfl
  hasSnapshot := rfl
  pc := rfl
  block b' hb' := by
    obtain rfl := Option.some.inj (hblock.symm.trans hb')
    exact h.inPool t b (HookPc.block_of_locked (hpc ▸ hlocked))
  epoch := hepoch ▸ .refl _
  attributes := hattributes ▸ .refl _
  tags b' := by
    by_cases hb : b' = b
    · subst hb
      exact htag
    · exact htags b' hb ▸ .refl _
  others b' hb' := by
    have hb : b' ≠ b := by
      rintro rfl
      exact hb' (hpc ▸ hlocked)
    exact .of_eq (htags b' hb) fun o ho => hshadow o (ho ▸ hb)

theorem Inv.copy (h : Inv X e committed s) (hpc : s.pc t = .copy b n) (hn : n < kWordsPerBlock) :
    Inv X e committed
      ((s.onMem (saveWord t (b * kWordsPerBlock + n))).goto t (.copy b (n + 1))) := by
  obtain ⟨-, hclean, hcopied⟩ : At X e s.mem t (.copy b n) := hpc ▸ h.at_pc t
  have hb : b < s.nrBlocks := h.inPool t b (by rw [hpc]; rfl)
  let o := b * kWordsPerBlock + n
  let m' := saveWord t o s.mem
  have hother : ∀ l, l ≠ .shadow o → m' l = s.mem l :=
    fun l hl => SharedMemory.ntStore_of_ne _ _ _ hl
  have htag : ∀ b', m' (.tagmap b') = s.mem (.tagmap b') := fun _ => hother _ (by simp)
  have hclean' : ∀ b', Clean e s.mem b' → Clean e m' b' := by
    intro b' hc
    unfold Clean
    rw [htag]
    exact hc
  -- The working state still contains `X`.
  have hload : s.mem.load (.working o) = X o :=
    ((h.blocks b hb).kept_of_clean hclean o (div_word hn)).load
  have hstep : StepOf e t (.copy b (n + 1)) s
      ((s.onMem (saveWord t o)).goto t (.copy b (n + 1))) := by
    refine stepOf_write h hpc rfl rfl (hother _ (by simp)) (hother _ (by simp)) (htag b ▸ .refl _)
      (fun b' _ => htag b') fun o' ho' => hother _ fun heq => ho' ?_
    rw [Loc.shadow.inj heq]
    exact div_word hn
  refine h.of_step hstep (fun b' hb' => ?_) (fun b' hb' => ?_)
    (h.locks.update (hpc ▸ rfl)) (fun t' b' hb' => (h.hooked t' b' hb').raise (hstep.tags b'))
    ⟨hn, hclean' b hclean, fun i hi => ?_⟩
  · have hkept : Kept X s.mem b' → Kept X m' b' := by
      intro hk o' ho'
      have hword : m' (.working o') = s.mem (.working o') := hother _ (by simp)
      rw [hword]
      exact hk o' ho'
    by_cases heq : b' = b
    · subst heq
      exact ⟨(hclean' b' hclean).mono fun _ => Nat.le_of_lt,
        Or.inl (hkept ((h.blocks b' hb').kept_of_clean hclean)), Or.inl (hclean' b' hclean)⟩
    · refine (h.blocks b' hb').leaves (hstep.others b' fun hlocked => ?_) fun hk => Or.inl (hkept hk)
      rw [hpc] at hlocked
      exact heq (Option.some.inj hlocked).symm
  · exact (h.status b' hb').update (hclean' b') (hstep.tags b') id
      (fun hb'' => by rw [hpc] at hb''; cases hb'') (fun hb'' => by rw [hpc] at hb''; cases hb'')
  · by_cases hi' : i = n
    · subst hi'
      have hcell : m' (.shadow o) = (s.mem (.shadow o)).ntStore t (s.mem.load (.working o)) :=
        SharedMemory.ntStore_self _ _ _ _
      have hpending : (m' (.shadow o)).Pending t (· = X o) := by
        rw [hcell]
        exact SharedCell.pending_ntStore _ t hload
      exact hpending
    · have hword : m' (.shadow (b * kWordsPerBlock + i)) =
          s.mem (.shadow (b * kWordsPerBlock + i)) :=
        hother _ fun heq => hi' (Nat.add_left_cancel (Loc.shadow.inj heq))
      have hold := hcopied i (by omega)
      rwa [← hword] at hold

theorem Inv.setTag (h : Inv X e committed s) (hpc : s.pc t = .setTag b) :
    Inv X e committed
      ((s.onMem fun m => m.store (.tagmap b) s.epoch).goto t (.flushTag b)) := by
  obtain ⟨hclean, hshadowed⟩ : At X e s.mem t (.setTag b) := hpc ▸ h.at_pc t
  have hepoch : s.epoch = e := h.epoch.load
  rw [hepoch]
  let m' := s.mem.store (.tagmap b) e
  have hother : ∀ l, l ≠ .tagmap b → m' l = s.mem l := fun l hl => SharedMemory.store_of_ne _ _ hl
  have hcell : m' (.tagmap b) = (s.mem (.tagmap b)).store e := SharedMemory.store_self _ _ _
  have hload : SharedMemory.load m' (.tagmap b) = e := by
    rw [SharedMemory.load, hcell, SharedCell.load_store]
  have hraises : (s.mem (.tagmap b)).Raises (m' (.tagmap b)) := by
    rw [hcell]
    exact SharedCell.raises_store (Nat.le_of_lt hclean.load)
  have hstep : StepOf e t (.flushTag b) s ((s.onMem fun _ => m').goto t (.flushTag b)) :=
    stepOf_write h hpc rfl rfl (hother _ (by simp)) (hother _ (by simp)) hraises
      (fun b' hb' => hother _ fun heq => hb' (Loc.tagmap.inj heq)) fun o ho => hother _ (by simp)
  refine h.of_step hstep (fun b' hb' => ?_) (fun b' hb' => ?_)
    (h.locks.update (hpc ▸ rfl)) (fun t' b' hb' => (h.hooked t' b' hb').raise (hstep.tags b'))
    (Nat.le_of_eq hload.symm)
  · have hkept : Kept X s.mem b' → Kept X m' b' := by
      intro hk o' ho'
      have hword : m' (.working o') = s.mem (.working o') := hother _ (by simp)
      rw [hword]
      exact hk o' ho'
    by_cases heq : b' = b
    · subst heq
      have hbounded : (m' (.tagmap b')).Durably (· ≤ e) := by
        rw [hcell]
        exact SharedCell.Durably.store (hclean.mono fun _ => Nat.le_of_lt) (Nat.le_refl e)
      have hshadowed' : Shadowed X m' b' := by
        intro o' ho'
        have hword : m' (.shadow o') = s.mem (.shadow o') := hother _ (by simp)
        rw [hword]
        exact hshadowed o' ho'
      exact ⟨hbounded, Or.inl (hkept ((h.blocks b' hb').kept_of_clean hclean)), Or.inr hshadowed'⟩
    · refine (h.blocks b' hb').leaves (hstep.others b' fun hlocked => ?_) fun hk => Or.inl (hkept hk)
      rw [hpc] at hlocked
      exact heq (Option.some.inj hlocked).symm
  · by_cases heq : b' = b
    · subst heq
      exact .tagging t (by rw [goto_pc_self]; rfl)
    · exact (h.status b' hb').update
        (hstep.others b' fun hlocked => by
          rw [hpc] at hlocked; exact heq (Option.some.inj hlocked).symm).clean
        (hstep.tags b') id
        (fun hb'' => by rw [hpc] at hb''; cases hb'') (fun hb'' => by rw [hpc] at hb''; cases hb'')

/-! ## Locks and flush lists -/

theorem stepOf_same (hmem : s'.mem = s.mem) (hblocks : s'.nrBlocks = s.nrBlocks)
    (hsnapshot : s'.hasSnapshot = s.hasSnapshot) (hpc : s'.pc = Function.update s.pc t p)
    (hblock : ∀ b, p.block = some b → b < s.nrBlocks) : StepOf e t p s s' where
  nrBlocks := hblocks
  hasSnapshot := hsnapshot
  pc := hpc
  block := hblock
  epoch := hmem ▸ .refl _
  attributes := hmem ▸ .refl _
  tags _ := hmem ▸ .refl _
  others _ _ := .of_eq (hmem ▸ rfl) fun _ _ => hmem ▸ rfl

theorem Inv.acquire (h : Inv X e committed s) (hpc : s.pc t = .acquire b)
    (hfree : s.segmentLocks (lockOf b) = false) :
    Inv X e committed ((s.setLock b true).goto t (.test b)) := by
  refine h.of_step (stepOf_same rfl rfl rfl rfl fun b' hb' => h.inPool t b' (hpc ▸ hb'))
    h.blocks (fun b' hb' => ?_) (h.locks.acquire hfree rfl) h.hooked trivial
  exact (h.status b' hb').update id (.refl _) id (fun hb'' => by rw [hpc] at hb''; cases hb'')
    (fun hb'' => by rw [hpc] at hb''; cases hb'')

theorem Inv.release (h : Inv X e committed s) (hpc : s.pc t = .release b) :
    Inv X e committed ((s.setLock b false).goto t (.record b)) := by
  have htagged : Tagged e s.mem b := by
    have hat := h.at_pc t
    rwa [hpc] at hat
  refine h.of_step (stepOf_same rfl rfl rfl rfl fun b' hb' => h.inPool t b' (hpc ▸ hb'))
    h.blocks (fun b' hb' => ?_) (h.locks.release (by rw [hpc]; rfl) rfl) h.hooked htagged
  exact (h.status b' hb').update id (.refl _) id (fun hb'' => by rw [hpc] at hb''; cases hb'')
    (fun hb'' => by rwa [hpc] at hb'')

theorem Inv.ret (h : Inv X e committed s) (htagged : Tagged e s.mem b) {locks : Nat → Bool}
    (hlocks : LocksInv lockOf HookPc.locked locks (Function.update s.pc t .app))
    (hstatus : ∀ b' < s.nrBlocks, Status e s.mem b' lists (Function.update s.pc t .app)) :
    Inv X e committed ({ s with segmentLocks := locks, flushBlocks := lists }.ret t b) := by
  refine h.of_step (t := t) (p := .app) (stepOf_same rfl rfl rfl rfl (by rintro _ ⟨⟩)) h.blocks
    hstatus hlocks (fun t' b' hb' => ?_) trivial
  have hcases : b' = b ∨ b' ∈ s.hooked t' := by
    by_cases ht : t' = t
    · subst ht
      have hmem : b' ∈ b :: s.hooked t' := by
        rwa [← Function.update_self (f := s.hooked) t' (b :: s.hooked t')]
      exact List.mem_cons.mp hmem
    · right
      rwa [← Function.update_of_ne ht (b :: s.hooked t) s.hooked]
  rcases hcases with rfl | hold
  · exact htagged
  · exact h.hooked t' b' hold

theorem Inv.giveUp (h : Inv X e committed s) (hpc : s.pc t = .giveUp b) :
    Inv X e committed ((s.setLock b false).ret t b) := by
  have htagged : Tagged e s.mem b := by
    have hat := h.at_pc t
    rwa [hpc] at hat
  refine h.ret htagged (h.locks.release (by rw [hpc]; rfl) rfl) fun b' hb' => ?_
  exact (h.status b' hb').update id (.refl _) id (fun hb'' => by rw [hpc] at hb''; cases hb'')
    (fun hb'' => by rw [hpc] at hb''; cases hb'')

theorem Inv.record (h : Inv X e committed s) (ht : t < kMaxThreads) (hpc : s.pc t = .record b) :
    Inv X e committed ((s.recordBlock t b).ret t b) := by
  have htagged : Tagged e s.mem b := by
    have hat := h.at_pc t
    rwa [hpc] at hat
  refine h.ret htagged (h.locks.update (hpc ▸ rfl)) fun b' hb' => ?_
  by_cases heq : b' = b
  · subst heq
    exact .listed htagged (FlushLists.listed_append ht s.flushBlocks b')
  · refine (h.status b' hb').update id (.refl _) (Or.imp .append .append) (fun hb'' => ?_)
      fun hb'' => ?_
    · rw [hpc] at hb''
      cases hb''
    · rw [hpc] at hb''
      exact absurd (Option.some.inj hb'').symm heq

/-! ## Stores of the application -/

theorem Inv.store (h : Inv X e committed s) (value : Nat)
    (htagged : Tagged e s.mem (o / kWordsPerBlock)) :
    Inv X e committed (s.onMem fun m => m.store (.working o) value) := by
  let m' := s.mem.store (.working o) value
  have hother : ∀ l, l ≠ .working o → m' l = s.mem l := fun l hl => SharedMemory.store_of_ne _ _ hl
  have hleaves : ∀ b, Leaves e s.mem m' b :=
    fun b => .of_eq (hother _ (by simp)) fun o' _ => hother _ (by simp)
  have hepoch : m' .currentEpoch = s.mem .currentEpoch := hother _ (by simp)
  have hattributes : m' .attributes = s.mem .attributes := hother _ (by simp)
  refine ⟨h.pos, h.le, ?_, fun hflag => ?_, fun b hb => ?_, fun b hb => ?_, h.locks, h.inPool,
    fun t b hb => (h.hooked t b hb).raise (hleaves b).tag, fun t => ?_⟩
  · exact (congrArg (fun c => SharedCell.Durably c (· = e)) hepoch).mpr h.epoch
  · exact (congrArg (fun c => SharedCell.Durably c Flag) hattributes).mpr (h.flag hflag)
  · refine (h.blocks b hb).leaves (hleaves b) fun hkept => ?_
    by_cases hb' : o / kWordsPerBlock = b
    · exact Or.inr (hb' ▸ htagged)
    · refine Or.inl fun o' ho' => ?_
      have hword : m' (.working o') = s.mem (.working o') :=
        hother _ fun heq => hb' (Loc.working.inj heq ▸ ho')
      exact (congrArg (fun c => SharedCell.Durably c (· = X o')) hword).mpr (hkept o' ho')
  · have hupdate := (h.status b hb).update (t := 0) (p := s.pc 0) (hleaves b).clean (hleaves b).tag
      id id id
    rwa [Function.update_eq_self] at hupdate
  · exact (h.at_pc t).leaves (fun b => (hleaves b).tag) fun b _ => hleaves b

/-! ## Every step -/

theorem Inv.test (h : Inv X e committed s) (hpc : s.pc t = .test b) :
    Inv X e committed
      (s.goto t (if s.tag b = s.epoch then .giveUp b else .copy b 0)) := by
  have hb : b < s.nrBlocks := h.inPool t b (by rw [hpc]; rfl)
  have hepoch : s.epoch = e := h.epoch.load
  -- No thread is setting the tag.
  have hcases : Clean e s.mem b ∨ Tagged e s.mem b := by
    cases h.status b hb with
    | clean hclean => exact Or.inl hclean
    | tagging t' htagging =>
        have hlocked : (s.pc t).locked = some b := by
          rw [hpc]
          rfl
        obtain rfl := h.locks.exclusive t' t b b (HookPc.locked_of_tagging htagging) hlocked rfl
        rw [hpc] at htagging
        cases htagging
    | unlisted htagged => exact Or.inr htagged
    | listed htagged => exact Or.inr htagged
  rw [hepoch]
  split
  · rename_i heq
    have htagged : Tagged e s.mem b :=
      hcases.resolve_left fun hclean => hclean.not_le (Nat.le_of_eq heq.symm)
    exact h.goto hpc ⟨rfl, fun _ => id, fun _ => id, fun _ => id⟩ htagged
  · rename_i hne
    have hclean : Clean e s.mem b := by
      refine hcases.resolve_right fun htagged => hne ?_
      exact Nat.le_antisymm (h.blocks b hb).bounded.load htagged.load
    refine h.goto hpc ⟨rfl, fun _ => id, fun _ => id, fun _ => id⟩ ⟨Nat.zero_le _, hclean, ?_⟩
    intro i hi
    omega

theorem Inv.hookStep (h : Inv X e committed s) (ht : t < kMaxThreads)
    (hstep : s.hookStep t = some s') : Inv X e committed s' := by
  have hat := h.at_pc t
  unfold LmcEngine.hookStep at hstep
  cases hpc : s.pc t with
  | app =>
      rw [hpc] at hstep
      cases hstep
  | acquire b =>
      rw [hpc] at hstep
      dsimp only at hstep
      split at hstep
      · cases hstep
      · rename_i hfree
        obtain rfl := Option.some.inj hstep
        exact h.acquire hpc (Bool.eq_false_iff.mpr hfree)
  | test b =>
      rw [hpc] at hstep
      obtain rfl := Option.some.inj hstep
      exact h.test hpc
  | giveUp b =>
      rw [hpc] at hstep
      obtain rfl := Option.some.inj hstep
      exact h.giveUp hpc
  | copy b copied =>
      rw [hpc] at hstep hat
      obtain rfl := Option.some.inj hstep
      split
      · exact h.copy hpc ‹_›
      · rename_i hge
        obtain ⟨hle, hclean, hcopied⟩ := hat
        obtain rfl : copied = kWordsPerBlock := Nat.le_antisymm hle (Nat.not_lt.mp hge)
        exact h.goto hpc ⟨rfl, fun _ => id, fun _ => id, fun _ => id⟩ ⟨hclean, hcopied⟩
  | fenceCopy b =>
      rw [hpc] at hstep hat
      obtain rfl := Option.some.inj hstep
      have hdrains := SharedMemory.drains_fence s.mem t
      exact h.drain hdrains hpc ⟨rfl, fun _ => id, fun _ => id, fun _ => id⟩
        ⟨(hdrains _).durably _ hat.1, hat.2.fence⟩
  | setTag b =>
      rw [hpc] at hstep
      obtain rfl := Option.some.inj hstep
      exact h.setTag hpc
  | flushTag b =>
      rw [hpc] at hstep hat
      obtain rfl := Option.some.inj hstep
      have hcell : s.mem.flushAll t (lineOf (.tagmap b)) (.tagmap b) =
          (s.mem (.tagmap b)).flush t :=
        SharedMemory.flushAll_of _ _ (lineOf_self _)
      refine h.drain (SharedMemory.drains_flushAll _ _ _) hpc
        ⟨rfl, fun _ => id, fun _ => id, fun _ => id⟩ ?_
      change SharedCell.Pending _ t (e ≤ ·)
      rw [hcell]
      exact SharedCell.pending_flush t hat
  | fenceTag b =>
      rw [hpc] at hstep
      obtain rfl := Option.some.inj hstep
      exact h.fenceTag hpc
  | release b =>
      rw [hpc] at hstep
      obtain rfl := Option.some.inj hstep
      exact h.release hpc
  | record b =>
      rw [hpc] at hstep
      obtain rfl := Option.some.inj hstep
      exact h.record ht hpc

theorem Inv.step (h : Inv X e committed s) {l : Label} (hl : l.tid < kMaxThreads)
    (hstep : step l s = some s') : Inv X e committed s' := by
  cases l with
  | hook t => exact h.hookStep hl hstep
  | call t addr =>
      rw [LmcEngine.step] at hstep
      split at hstep
      · rename_i hcall
        obtain rfl := Option.some.inj hstep
        have hblock : addr >>> kBlockShift < s.nrBlocks := by
          have hlt : addr < s.nrBlocks * 2 ^ kBlockShift := Nat.shiftLeft_eq .. ▸ hcall.2
          rw [Nat.shiftRight_eq_div_pow]
          exact Nat.div_lt_of_lt_mul (by rwa [Nat.mul_comm])
        refine h.of_step (t := t) (p := .acquire (addr >>> kBlockShift))
          (stepOf_same rfl rfl rfl rfl fun b hb => ?_) h.blocks (fun b hb => ?_)
          (h.locks.update (hcall.1 ▸ rfl)) h.hooked trivial
        · obtain rfl := Option.some.inj hb
          exact hblock
        · exact (h.status b hb).update id (.refl _) id
            (fun hb' => by rw [hcall.1] at hb'; cases hb')
            (fun hb' => by rw [hcall.1] at hb'; cases hb')
      · cases hstep
  | store t o value =>
      rw [LmcEngine.step] at hstep
      split at hstep
      · rename_i hstore
        obtain rfl := Option.some.inj hstep
        exact h.store value (h.hooked t _ hstore.2)
      · cases hstep

def Admitted (l : Label) (_ : LmcEngine) : Prop := l.tid < kMaxThreads

theorem Inv.reaches {s₀ : LmcEngine} (hs₀ : Inv X e committed s₀)
    (h : (threads s₀).Reaches Admitted s) : Inv X e committed s :=
  h.invariant hs₀ fun _ _ _ hs hl hstep => hs.step hl hstep

end Libcrpm.LmcEngine
