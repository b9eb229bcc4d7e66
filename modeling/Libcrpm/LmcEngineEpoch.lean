import Libcrpm.LmcEngineSteps

/-!
# The end of an epoch of the LMC engine

`advance_current_epoch` ends an epoch with the data `X` and begins one with `Y`: at the end of
`checkpoint` the working state is `Y`, at the end of `recover` it is `X` again.  The store to
`current_epoch` decides between the two, unless the tags have to be reset first.
-/

namespace Libcrpm.LmcEngine

open Libcrpm.Persistence Libcrpm.Program

/-! ## What a crash leaves -/

/-- The word that `recover` leaves. -/
def surviving (img : Loc → Nat) (o : Nat) : Nat :=
  if img (.tagmap (o / kWordsPerBlock)) = img .currentEpoch then img (.shadow o)
  else img (.working o)

/-- A block with the tag of the epoch contains `X`, and any other one `Y`. -/
def outcome (X Y : Nat → Nat) (img : Loc → Nat) (o : Nat) : Nat :=
  if img (.tagmap (o / kWordsPerBlock)) = img .currentEpoch then X o else Y o

/-- The flag is set if some checkpoint has taken effect. -/
def FlagIf (committed : Bool) (attributes : Nat) : Prop := committed = true → Flag attributes

/-- A file that `recover` restores `X` from, with attributes that meet `P`. -/
structure Restores (X : Nat → Nat) (P : Nat → Prop) (nrBlocks : Nat) (img : Loc → Nat) : Prop where
  pos : 0 < img .currentEpoch
  le : img .currentEpoch ≤ kMaxEpoch
  attributes : P (img .attributes)
  bounded : ∀ b < nrBlocks, img (.tagmap b) ≤ img .currentEpoch
  data : ∀ o, o / kWordsPerBlock < nrBlocks → surviving img o = X o

/-- What a crash leaves while the epoch `e` ends. -/
structure Ends (X Y : Nat → Nat) (e : Nat) (P : Nat → Prop) (nrBlocks : Nat) (img : Loc → Nat) :
    Prop where
  restores : Restores (outcome X Y img) P nrBlocks img
  whole : e ≠ kMaxEpoch → ∀ o, o / kWordsPerBlock < nrBlocks →
    outcome X Y img o = if img .currentEpoch = e then X o else Y o

variable {X Y : Nat → Nat} {e v n : Nat} {committed : Bool} {P : Nat → Prop} {s : LmcEngine}
  {m m' : SharedMemory Loc Nat} {b t : Nat} {img : Loc → Nat}

theorem Inv.flagIf (h : Inv X e committed s) : (s.mem .attributes).Durably (FlagIf committed) := by
  cases committed with
  | false => exact fun _ _ _ hno => absurd hno Bool.false_ne_true
  | true => exact (h.flag (Or.inl rfl)).mono fun _ hflag _ => hflag

theorem Inv.restores (h : Inv X e committed s) (hc : s.mem.CrashTo img) :
    Restores X (FlagIf committed) s.nrBlocks img := by
  have hepoch : img .currentEpoch = e := h.epoch.may (hc _)
  refine ⟨hepoch ▸ h.pos, hepoch ▸ h.le, h.flagIf.may (hc _),
    fun b hb => hepoch ▸ (h.blocks b hb).bounded.may (hc _), fun o ho => ?_⟩
  have hblock := h.blocks _ ho
  rw [surviving, hepoch]
  split
  · rename_i htag
    have hshadowed : Shadowed X s.mem (o / kWordsPerBlock) := by
      refine hblock.shadowed.resolve_left fun hclean => ?_
      exact absurd htag (Nat.ne_of_lt (hclean.may (hc _)))
    exact (hshadowed o rfl).may (hc _)
  · rename_i htag
    have hkept : Kept X s.mem (o / kWordsPerBlock) := by
      refine hblock.kept.resolve_right fun htagged => htag ?_
      exact Nat.le_antisymm (hblock.bounded.may (hc _)) (htagged.may (hc _))
    exact (hkept o rfl).may (hc _)

/-! ## The file while an epoch ends -/

/-- The working state durably contains `Y`, and the shadows of the blocks with the tag of the epoch
contain `X`. -/
structure Ending (X Y : Nat → Nat) (e : Nat) (P : Nat → Prop) (n : Nat)
    (m : SharedMemory Loc Nat) : Prop where
  pos : 0 < e
  le : e ≤ kMaxEpoch
  epoch : (m .currentEpoch).Durably (· = e)
  attributes : (m .attributes).Durably P
  bounded : ∀ b < n, (m (.tagmap b)).Durably (· ≤ e)
  shadowed : ∀ b < n, Clean e m b ∨ Shadowed X m b
  kept : ∀ b < n, Kept Y m b

/-- All threads are outside of the engine: a block has the tag of the epoch, or it is as it was
when the epoch began. -/
def Apart (X Y : Nat → Nat) (e n : Nat) (m : SharedMemory Loc Nat) : Prop :=
  ∀ b < n, Tagged e m b ∨ ∀ o, o / kWordsPerBlock = b → X o = Y o

/-- The file at the beginning of an epoch. -/
structure Begun (Y : Nat → Nat) (e : Nat) (P : Nat → Prop) (n : Nat) (m : SharedMemory Loc Nat) :
    Prop where
  pos : 0 < e
  le : e ≤ kMaxEpoch
  epoch : (m .currentEpoch).Durably (· = e)
  attributes : (m .attributes).Durably P
  clean : ∀ b < n, Clean e m b
  kept : ∀ b < n, Kept Y m b

theorem Ending.restores (h : Ending X Y e P n m) (hc : m.CrashTo img) :
    Restores (outcome X Y img) P n img := by
  have hepoch : img .currentEpoch = e := h.epoch.may (hc _)
  refine ⟨hepoch ▸ h.pos, hepoch ▸ h.le, h.attributes.may (hc _),
    fun b hb => hepoch ▸ (h.bounded b hb).may (hc _), fun o ho => ?_⟩
  rw [surviving, outcome, hepoch]
  split
  · rename_i htag
    have hshadowed : Shadowed X m (o / kWordsPerBlock) := by
      refine (h.shadowed _ ho).resolve_left fun hclean => ?_
      exact absurd htag (Nat.ne_of_lt (hclean.may (hc _)))
    exact (hshadowed o rfl).may (hc _)
  · exact (h.kept _ ho o rfl).may (hc _)

theorem Ending.ends (h : Ending X Y e P n m) (hapart : e ≠ kMaxEpoch → Apart X Y e n m)
    (hc : m.CrashTo img) : Ends X Y e P n img := by
  refine ⟨h.restores hc, fun he o ho => ?_⟩
  have hepoch : img .currentEpoch = e := h.epoch.may (hc _)
  rw [outcome, if_pos hepoch]
  split
  · rfl
  · rename_i htag
    rcases hapart he _ ho with htagged | hsame
    · refine absurd ?_ htag
      rw [hepoch]
      exact Nat.le_antisymm ((h.bounded _ ho).may (hc _)) (htagged.may (hc _))
    · exact (hsame o rfl).symm

theorem Ending.drains (h : Ending X Y e P n m) (hm : m.Drains m') :
    Ending X Y e P n m' where
  pos := h.pos
  le := h.le
  epoch := (hm _).durably _ h.epoch
  attributes := (hm _).durably _ h.attributes
  bounded b hb := (hm _).durably _ (h.bounded b hb)
  shadowed b hb := (h.shadowed b hb).imp ((hm _).durably _) fun hs o ho => (hm _).durably _ (hs o ho)
  kept b hb o ho := (hm _).durably _ (h.kept b hb o ho)

/-! ## The store to `current_epoch` -/

/-- A crash behind the store leaves the old epoch or the new one. -/
theorem Ending.ends_store (h : Ending X Y e P n m)
    (hold : ∀ img, m.CrashTo img → Ends X Y e P n img) (hpos : 0 < v) (hv : v ≤ kMaxEpoch)
    (hne : v ≠ e) (hclean : ∀ b < n, Clean v m b)
    (hc : SharedMemory.CrashTo (m.store .currentEpoch v) img) : Ends X Y e P n img := by
  have hother : ∀ l, l ≠ .currentEpoch → (m l).May (img l) := by
    intro l hl
    rw [← SharedMemory.store_of_ne m v hl]
    exact hc l
  by_cases hepoch : img .currentEpoch = v
  · have hlt : ∀ b < n, img (.tagmap b) < v := fun b hb => (hclean b hb).may (hother _ (by simp))
    have hY : ∀ o, o / kWordsPerBlock < n → outcome X Y img o = Y o := by
      intro o ho
      rw [outcome, hepoch, if_neg (Nat.ne_of_lt (hlt _ ho))]
    refine ⟨⟨hepoch ▸ hpos, hepoch ▸ hv, h.attributes.may (hother _ (by simp)),
      fun b hb => hepoch ▸ Nat.le_of_lt (hlt b hb), fun o ho => ?_⟩, fun _ o ho => ?_⟩
    · rw [hY o ho, surviving, hepoch, if_neg (Nat.ne_of_lt (hlt _ ho))]
      exact (h.kept _ ho o rfl).may (hother _ (by simp))
    · rw [hY o ho, hepoch, if_neg hne]
  · refine hold img fun l => ?_
    by_cases hl : l = .currentEpoch
    · subst hl
      have hlast := hc .currentEpoch
      rw [SharedMemory.store_self] at hlast
      exact hlast.of_store hepoch
    · exact hother l hl

theorem Ending.begun (h : Ending X Y e P n m) (hpos : 0 < v) (hv : v ≤ kMaxEpoch)
    (hclean : ∀ b < n, Clean v m b) :
    Begun Y v P n
      (((SharedMemory.store m .currentEpoch v).flushAll 0 (lineOf .currentEpoch)).fence 0) := by
  let m₁ := m.store .currentEpoch v
  let m₂ := m₁.flushAll 0 (lineOf .currentEpoch)
  have hdrains : m₁.Drains (m₂.fence 0) :=
    (SharedMemory.drains_flushAll _ _ _).trans (SharedMemory.drains_fence _ _)
  have hother : ∀ l, l ≠ .currentEpoch → ∀ p, (m l).Durably p → (m₂.fence 0 l).Durably p := by
    intro l hl p hp
    refine (hdrains l).durably p ?_
    have hcell : m₁ l = m l := SharedMemory.store_of_ne _ _ hl
    rw [hcell]
    exact hp
  refine ⟨hpos, hv, ?_, hother .attributes (by simp) _ h.attributes,
    fun b hb => hother (.tagmap b) (by simp) _ (hclean b hb),
    fun b hb o ho => hother (.working o) (by simp) _ (h.kept b hb o ho)⟩
  have hcell : m₂ .currentEpoch = ((m .currentEpoch).store v).flush 0 := by
    have hstored : m₁ .currentEpoch = (m .currentEpoch).store v := SharedMemory.store_self _ _ _
    have hflushed : m₂ .currentEpoch = (m₁ .currentEpoch).flush 0 :=
      SharedMemory.flushAll_of _ _ (lineOf_self _)
    rw [hflushed, hstored]
  have hpending : (m₂ .currentEpoch).Pending 0 (· = v) := by
    rw [hcell]
    exact SharedCell.pending_flush 0 (SharedCell.load_store _ _)
  exact hpending.fence

theorem wp_setEpoch (h : Ending X Y e P n m)
    (hold : ∀ img, m.CrashTo img → Ends X Y e P n img) (hpos : 0 < v) (hv : v ≤ kMaxEpoch)
    (hne : v ≠ e) (hclean : ∀ b < n, Clean v m b) :
    Prog.wp (fun u : LmcEngine => ∀ img, u.mem.CrashTo img → Ends X Y e P n img)
      (setEpoch v) (fun _ u => ∃ m', u = { s with mem := m' } ∧ Begun Y v P n m')
      { s with mem := m } := by
  have hstored : ∀ img, SharedMemory.CrashTo (m.store .currentEpoch v) img →
      Ends X Y e P n img :=
    fun img hc => h.ends_store hold hpos hv hne hclean hc
  have hflush := SharedMemory.drains_flushAll (m.store .currentEpoch v) 0 (lineOf .currentEpoch)
  have hfence := hflush.trans (SharedMemory.drains_fence _ 0)
  simp only [setEpoch, Prog.wp_bind, Prog.wp_act]
  exact ⟨hstored, fun img hc => hstored img (hflush.crashTo hc),
    fun img hc => hstored img (hfence.crashTo hc), _, rfl, h.begun hpos hv hclean⟩

/-! ## The reset of the tags -/

theorem Ending.setTag (h : Ending X Y e P n m) (b : Nat) :
    Ending X Y e P n (m.store (.tagmap b) 0) := by
  have hother : ∀ l, l ≠ .tagmap b → m.store (.tagmap b) 0 l = m l :=
    fun l hl => SharedMemory.store_of_ne _ _ hl
  have hself : m.store (.tagmap b) 0 (.tagmap b) = (m (.tagmap b)).store 0 :=
    SharedMemory.store_self _ _ _
  have hdurable : ∀ {l : Loc} {p : Nat → Prop}, l ≠ .tagmap b → (m l).Durably p →
      (m.store (.tagmap b) 0 l).Durably p := by
    intro l p hl hp
    rw [hother l hl]
    exact hp
  have htag : ∀ {b' : Nat} {p : Nat → Prop}, p 0 → (m (.tagmap b')).Durably p →
      (m.store (.tagmap b) 0 (.tagmap b')).Durably p := by
    intro b' p hzero hp
    by_cases hb : b' = b
    · subst hb
      rw [hself]
      exact hp.store hzero
    · exact hdurable (fun heq => hb (Loc.tagmap.inj heq)) hp
  refine ⟨h.pos, h.le, hdurable (by simp) h.epoch, hdurable (by simp) h.attributes,
    fun b' hb' => htag (Nat.zero_le e) (h.bounded b' hb'), fun b' hb' => ?_,
    fun b' hb' o ho => hdurable (by simp) (h.kept b' hb' o ho)⟩
  exact (h.shadowed b' hb').imp (htag h.pos) fun hs o ho => hdurable (by simp) (hs o ho)

theorem load_resetTag {x : Nat} (h : b ≠ x → m.load (.tagmap b) = 0) :
    SharedMemory.load (m.store (.tagmap x) 0) (.tagmap b) = 0 := by
  unfold SharedMemory.load
  by_cases hbx : b = x
  · subst hbx
    rw [SharedMemory.store_self]
    exact SharedCell.load_store _ _
  · rw [SharedMemory.store_of_ne _ _ fun heq => hbx (Loc.tagmap.inj heq)]
    exact h hbx

theorem wp_resetTags (h : Ending X Y kMaxEpoch P n m) :
    Prog.wp (fun u : LmcEngine => ∀ img, u.mem.CrashTo img → Ends X Y kMaxEpoch P n img)
      (Prog.forEach (List.range n) fun i => setTag i 0)
      (fun _ u => ∃ m', u = { s with mem := m' } ∧ Ending X Y kMaxEpoch P n m' ∧
        ∀ b < n, m'.load (.tagmap b) = 0) { s with mem := m } := by
  refine Prog.wp_forEach (fun done u => ∃ m', u = { s with mem := m' } ∧
      Ending X Y kMaxEpoch P n m' ∧ ∀ b ∈ done, m'.load (.tagmap b) = 0)
    ⟨m, rfl, h, by simp⟩ ?_ ?_
  · rintro done x rest u - ⟨m', rfl, hm', hdone⟩
    have hset := hm'.setTag x
    rw [setTag, Prog.wp_act]
    refine ⟨fun img hc => hset.ends (fun hno => absurd rfl hno) hc, _, rfl, hset, ?_⟩
    intro b hb
    refine load_resetTag fun hbx => hdone b ((List.mem_append.mp hb).resolve_right fun hin => ?_)
    exact hbx (List.mem_singleton.mp hin)
  · rintro u ⟨m', rfl, hm', hdone⟩
    exact ⟨m', rfl, hm', fun b hb => hdone b (List.mem_range.mpr hb)⟩

theorem wp_advanceCurrentEpoch (h : Ending X Y e P s.nrBlocks m)
    (hapart : e ≠ kMaxEpoch → Apart X Y e s.nrBlocks m) :
    Prog.wp (fun u : LmcEngine => ∀ img, u.mem.CrashTo img → Ends X Y e P s.nrBlocks img)
      advanceCurrentEpoch
      (fun _ u => ∃ m' v, u = { s with mem := m' } ∧ Begun Y v P s.nrBlocks m')
      { s with mem := m } := by
  have hends : ∀ img, m.CrashTo img → Ends X Y e P s.nrBlocks img :=
    fun img hc => h.ends hapart hc
  have hepoch : LmcEngine.epoch { s with mem := m } = e := h.epoch.load
  rw [advanceCurrentEpoch, Prog.wp_bind, Prog.wp_read, hepoch]
  refine ⟨hends, ?_⟩
  split
  · rename_i heq
    subst heq
    simp only [Prog.wp_bind, Prog.wp_read, Prog.wp_act]
    refine ⟨hends, Prog.wp_mono (wp_resetTags h) ?_⟩
    rintro _ _ ⟨m', rfl, hm', hzero⟩
    have hflushed := hm'.drains (SharedMemory.drains_flushAll m' 0 (tagmapLines s.nrBlocks))
    have hfenced := hflushed.drains (SharedMemory.drains_fence _ 0)
    have hvacuous : ∀ {m : SharedMemory Loc Nat}, kMaxEpoch ≠ kMaxEpoch →
        Apart X Y kMaxEpoch s.nrBlocks m := fun hno => absurd rfl hno
    have hclean : ∀ b < s.nrBlocks,
        Clean 1 ((m'.flushAll 0 (tagmapLines s.nrBlocks)).fence 0) b := by
      intro b hb
      have hcell : m'.flushAll 0 (tagmapLines s.nrBlocks) (.tagmap b) = (m' (.tagmap b)).flush 0 :=
        SharedMemory.flushAll_of _ _ (tagmapLines_tagmap hb)
      have hload : (m' (.tagmap b)).load < 1 := by
        have hzero' : (m' (.tagmap b)).load = 0 := hzero b hb
        omega
      have hpending := SharedCell.pending_flush (c := m' (.tagmap b)) (p := (· < 1)) 0 hload
      rw [← hcell] at hpending
      exact hpending.fence
    refine ⟨fun img hc => hflushed.ends hvacuous hc, fun img hc => hfenced.ends hvacuous hc,
      Prog.wp_mono (wp_setEpoch (s := s) hfenced (fun img hc => hfenced.ends hvacuous hc)
        Nat.zero_lt_one (by decide) (by decide) hclean) ?_⟩
    rintro _ _ ⟨m'', rfl, hbegun⟩
    exact ⟨m'', 1, rfl, hbegun⟩
  · rename_i hne
    refine Prog.wp_mono (wp_setEpoch (s := s) h hends (Nat.zero_lt_succ e)
      (Nat.lt_of_le_of_ne h.le hne) (Nat.succ_ne_self e) fun b hb => ?_) ?_
    · exact (h.bounded b hb).mono fun _ => Nat.lt_succ_of_le
    · rintro _ _ ⟨m'', rfl, hbegun⟩
      exact ⟨m'', e + 1, rfl, hbegun⟩

end Libcrpm.LmcEngine
