import Libcrpm.MProtect

/-!
# The parallel sections of a checkpoint

What the threads of `flush_parallel`, `write_back_parallel` and
`clear_dirty_bits_parallel` do, whatever the order of their steps is.
-/

namespace Libcrpm.MProtectEngine

open Libcrpm.Persistence Libcrpm.Program
open MetadataV1 (Data Flagged Intact into)

variable {X Y : Data} {s t u v : MProtectEngine}

@[simp] theorem mem_onNvm (f : MetadataV1.Nvm → MetadataV1.Nvm) (t : MProtectEngine) :
    (onNvm f t).mem = f t.mem := rfl

/-- The stores a section may make. -/
abbrev Fill := (l : MetadataV1.Loc) → Option (MetadataV1.Val l)

def noFill : Fill := fun _ => none

/-- `u` arises from `t` by flushes, fences and the non-temporal stores in `f`. -/
def Works (f : Fill) (t u : MProtectEngine) : Prop :=
  ∃ m, Memory.Fills f t.mem m ∧ u = onNvm (fun _ => m) t

section Works

variable {f : Fill}

theorem Works.refl (t : MProtectEngine) : Works f t t := ⟨t.mem, .refl _, rfl⟩

theorem Works.trans (h : Works f s t) (h' : Works f t u) : Works f s u := by
  obtain ⟨m, hm, rfl⟩ := h
  obtain ⟨m', hm', rfl⟩ := h'
  exact ⟨m', hm.trans hm', rfl⟩

theorem works_onNvm {g : MetadataV1.Nvm → MetadataV1.Nvm} (h : Memory.Fills f t.mem (g t.mem)) :
    Works f t (onNvm g t) :=
  ⟨g t.mem, h, rfl⟩

theorem Works.fills (h : Works f t u) : Memory.Fills f t.mem u.mem := by
  obtain ⟨m, hm, rfl⟩ := h
  exact hm

theorem Works.flushRegions (h : Works f t u) : u.flushRegions = t.flushRegions := by
  obtain ⟨m, -, rfl⟩ := h
  rfl

theorem Works.flushMode (h : Works f t u) : u.flushMode = t.flushMode := by
  obtain ⟨m, -, rfl⟩ := h
  rfl

theorem Works.nrRegions (h : Works f t u) : u.nrRegions = t.nrRegions := by
  obtain ⟨m, -, rfl⟩ := h
  rfl

theorem Works.regionDirty (h : Works f t u) : u.regionDirty = t.regionDirty := by
  obtain ⟨m, -, rfl⟩ := h
  rfl

theorem Works.drains (h : Works noFill t u) : t.mem.Drains u.mem :=
  fun l => (h.fills l).1 rfl

theorem Works.load_main (h : Works (into .back Y) t u) (o : Nat) :
    u.mem.load (.data .main o) = t.mem.load (.data .main o) :=
  h.fills.cur (MetadataV1.into_of_ne (by decide) o)

theorem rg_forBuckets {D : Nat → MProtectEngine → Prop}
    (hstable : ∀ r a b, D r a → Works f a b → D r b) {body : Nat → Prog MProtectEngine Unit}
    (hbody : ∀ r a, Works f s a →
      (body r).rg (Works f) (Works f) (fun _ b => Works f a b ∧ D r b) a)
    (hs : Works f s t) (tid nrThreads : Nat) :
    (forBuckets tid nrThreads body).rg (Works f) (Works f)
      (fun _ v => Works f t v ∧
        ∀ id ∈ bucketsOf tid nrThreads, ∀ r ∈ s.flushRegions id, D r v) t := by
  refine Prog.rg_forEach_each .refl (fun _ _ _ => .trans) (i := s) ?_ ?_ hs
  · intro id a b hd hab r hr
    exact hstable r a b (hd r hr) hab
  · intro id _ a ha
    refine Prog.rg_bind .refl (Prog.rg_read fun b hb => ⟨.refl b, fun c hc => ?_⟩)
    have hlist : b.flushRegions id = s.flushRegions id := congrFun (ha.trans hb).flushRegions id
    rw [hlist]
    have hac := hb.trans hc
    refine Prog.rg_mono (Prog.rg_forEach_each .refl (fun _ _ _ => .trans) (i := s) hstable
      (fun r _ d hd => hbody r d hd) (ha.trans hac)) fun _ w hw => ?_
    exact ⟨hac.trans hw.1, hw.2⟩

end Works

/-! ## Main memory becomes durable -/

def Flushes (s : MProtectEngine) (tid nrThreads o : Nat) : Prop :=
  Memory.Secured s.mem (.data .main o) (s.mem.load (.data .main o)) ∨
    if s.flushMode = .wbinvd then tid = 0
    else ∃ id ∈ bucketsOf tid nrThreads, regionOf o ∈ s.flushRegions id

theorem Works.secured (h : Works noFill t u) {l : MetadataV1.Loc} {x : MetadataV1.Val l}
    (hs : Memory.Secured t.mem l x) : Memory.Secured u.mem l x :=
  h.drains.secured hs

theorem Works.load_drains (h : Works noFill t u) (l : MetadataV1.Loc) : u.mem.load l = t.mem.load l :=
  (h.drains l).cur

theorem rg_flushRegion (hs : Works noFill s t) (region : Nat) :
    (flushRegion region).rg (Works noFill) (Works noFill) (fun _ v => Works noFill t v ∧
      ∀ o, regionOf o = region →
        Memory.Secured v.mem (.data .main o) (s.mem.load (.data .main o))) t := by
  refine Prog.rg_act fun a ha => ?_
  have hflush : Works noFill a (onNvm (fun m => m.flushAll (regionLines region)) a) :=
    works_onNvm (Memory.drains_flushAll _ _).fills
  refine ⟨hflush, fun b hb => ⟨(ha.trans hflush).trans hb, fun o ho => hb.secured ?_⟩⟩
  rw [← (hs.trans ha).load_drains]
  exact Memory.secured_flushAll a.mem (by simp [regionLines, ho])

theorem rg_flushParallel (tid nrThreads : Nat) :
    (flushParallel tid nrThreads).rg (Works noFill) (Works noFill) (fun _ v => Works noFill s v ∧
      ∀ o, Flushes s tid nrThreads o →
        (v.mem (.data .main o)).Only (s.mem.load (.data .main o))) s := by
  refine Prog.rg_bind .refl (Prog.rg_read fun a ha => ⟨.refl a, fun b hb => ?_⟩)
  rw [ha.flushMode]
  have hab := ha.trans hb
  have hfence : ∀ c, Works noFill s c → (∀ o, Flushes s tid nrThreads o →
        Memory.Secured c.mem (.data .main o) (s.mem.load (.data .main o))) →
      (Prog.act (onNvm Memory.fence)).rg (Works noFill) (Works noFill) (fun _ v =>
        Works noFill s v ∧ ∀ o, Flushes s tid nrThreads o →
          (v.mem (.data .main o)).Only (s.mem.load (.data .main o))) c := by
    intro c hc hsec
    refine Prog.rg_act fun d hd => ?_
    have hstep : Works noFill d (onNvm Memory.fence d) := works_onNvm (Memory.fills_fence _)
    refine ⟨hstep, fun e he => ⟨(hc.trans hd).trans (hstep.trans he), fun o ho => ?_⟩⟩
    exact (he.drains _).only (hd.secured (hsec o ho)).fence
  by_cases hmode : s.flushMode = .wbinvd
  · rw [if_pos hmode]
    by_cases htid : tid = 0
    · rw [if_pos htid]
      refine Prog.rg_bind .refl (Prog.rg_act fun c hc => ?_)
      have hstep : Works noFill c (onNvm (fun m => m.flushAll fun _ => true) c) :=
        works_onNvm (Memory.drains_flushAll _ _).fills
      refine ⟨hstep, fun d hd => hfence d ((hab.trans hc).trans (hstep.trans hd)) fun o _ => ?_⟩
      rw [← (hab.trans hc).load_drains]
      have hall : Memory.Secured (c.mem.flushAll fun _ => true) (.data .main o)
          (c.mem.load (.data .main o)) :=
        Memory.secured_flushAll c.mem rfl
      exact hd.secured hall
    · rw [if_neg htid]
      refine hfence b hab fun o ho => ?_
      rcases ho with ho | ho
      · exact hab.secured ho
      · rw [if_pos hmode] at ho
        exact absurd ho htid
  · rw [if_neg hmode]
    refine Prog.rg_bind .refl (Prog.rg_mono (rg_forBuckets (s := s)
      (D := fun region v => ∀ o, regionOf o = region →
        Memory.Secured v.mem (.data .main o) (s.mem.load (.data .main o)))
      (fun _ _ _ hd hw o ho => hw.secured (hd o ho))
      (fun region c hc => rg_flushRegion hc region) hab tid nrThreads) ?_)
    intro _ c hc
    refine hfence c (hab.trans hc.1) fun o ho => ?_
    rcases ho with ho | ho
    · exact (hab.trans hc.1).secured ho
    · rw [if_neg hmode] at ho
      obtain ⟨id, hid, hin⟩ := ho
      exact hc.2 id hid _ hin o rfl

/-- The word is durable at the next fence, or some thread flushes it. -/
def Listed (s : MProtectEngine) (region : Nat) : Prop :=
  s.flushMode = .wbinvd ∨ ∃ id < kMaxThreads, region ∈ s.flushRegions id

theorem wp_flushSection {C : MProtectEngine → Prop} (hC : ∀ a b, C a → Works noFill a b → C b)
    (hs : C s) {nrThreads : Nat} (hpos : 0 < nrThreads) (order : Schedules) :
    Prog.wp C (flushSection nrThreads order) (fun _ v => Works noFill s v ∧
      ∀ o, Memory.Secured s.mem (.data .main o) (s.mem.load (.data .main o)) ∨
          Listed s (regionOf o) →
        (v.mem (.data .main o)).Only (s.mem.load (.data .main o))) s := by
  refine Prog.wp_mono (Prog.wp_par_same .refl (fun _ _ _ => .trans) hC hs
    fun i _ => rg_flushParallel i nrThreads) fun _ v hv => ⟨(hv 0 hpos).1, fun o ho => ?_⟩
  rcases ho with ho | hmode | ⟨id, hid, hin⟩
  · exact (hv 0 hpos).2 o (Or.inl ho)
  · refine (hv 0 hpos).2 o (Or.inr ?_)
    rw [if_pos hmode]
  · by_cases hmode : s.flushMode = .wbinvd
    · refine (hv 0 hpos).2 o (Or.inr ?_)
      rw [if_pos hmode]
    · refine (hv (id % nrThreads) (Nat.mod_lt _ hpos)).2 o (Or.inr ?_)
      rw [if_neg hmode]
      exact ⟨id, mem_bucketsOf nrThreads hid, hin⟩

/-! ## The back copy catches up -/

def content (t : MProtectEngine) : Data := fun o => t.mem.load (.data .main o)

def backFill (s : MProtectEngine) : Fill := into .back s.content

theorem Works.back (h : Works (backFill s) t u) {o : Nat}
    (hs : Memory.Secured t.mem (.data .back o) (s.content o)) :
    Memory.Secured u.mem (.data .back o) (s.content o) := by
  refine h.fills.secured (fun w hw => ?_) hs
  exact (Option.some.inj ((MetadataV1.into_self o).symm.trans hw)).symm

/-- The word of the back copy is up to date, or thread `tid` copies it. -/
def Copies (s : MProtectEngine) (tid nrThreads o : Nat) : Prop :=
  Memory.Secured s.mem (.data .back o) (s.content o) ∨
    if s.flushMode = .wbinvd then
      regionOf o ∈ indicesOf s.nrRegions tid nrThreads ∧ s.regionDirty.test (regionOf o) = true
    else ∃ id ∈ bucketsOf tid nrThreads, regionOf o ∈ s.flushRegions id

theorem rg_writeBackRegion (hs : Works (backFill s) s t) (region : Nat) :
    (writeBackRegion region).rg (Works (backFill s)) (Works (backFill s)) (fun _ v =>
      Works (backFill s) t v ∧ ∀ o, regionOf o = region →
        Memory.Secured v.mem (.data .back o) (s.content o)) t := by
  refine Prog.rg_act fun a ha => ?_
  have hload : ∀ o, a.mem.load (.data .main o) = s.content o := (hs.trans ha).load_main
  have hcopy : Works (backFill s) a
      (onNvm (fun m => MetadataV1.ntCopy m .back .main fun o => regionOf o = region) a) :=
    works_onNvm (MetadataV1.fills_ntCopy fun o _ => hload o)
  refine ⟨hcopy, fun b hb => ⟨(ha.trans hcopy).trans hb, fun o ho => hb.back (Or.inl ?_)⟩⟩
  have hqueued : Memory.Queued
      (MetadataV1.ntCopy a.mem .back .main fun o => regionOf o = region) (.data .back o)
      (a.mem.load (.data .main o)) :=
    MetadataV1.queued_ntCopy a.mem (by simp [ho])
  rwa [hload o] at hqueued

theorem rg_writeBackDirty (hs : Works (backFill s) s t) (region : Nat) :
    (writeBackDirty region).rg (Works (backFill s)) (Works (backFill s)) (fun _ v =>
      Works (backFill s) t v ∧ (s.regionDirty.test region = true → ∀ o, regionOf o = region →
        Memory.Secured v.mem (.data .back o) (s.content o))) t := by
  refine Prog.rg_bind .refl (Prog.rg_read fun a ha => ⟨.refl a, fun b hb => ?_⟩)
  rw [(hs.trans ha).regionDirty]
  have htb := ha.trans hb
  by_cases hdirty : s.regionDirty.test region = true
  · rw [if_pos hdirty]
    refine Prog.rg_mono (rg_writeBackRegion (hs.trans htb) region) fun _ v hv => ?_
    exact ⟨htb.trans hv.1, fun _ => hv.2⟩
  · rw [if_neg hdirty]
    exact fun c hc => ⟨htb.trans hc, fun hd => absurd hd hdirty⟩

theorem rg_writeBackParallel (tid nrThreads : Nat) :
    (writeBackParallel tid nrThreads).rg (Works (backFill s)) (Works (backFill s)) (fun _ v =>
      Works (backFill s) s v ∧ ∀ o, Copies s tid nrThreads o →
        (v.mem (.data .back o)).Only (s.content o)) s := by
  refine Prog.rg_bind .refl (Prog.rg_read fun a ha => ⟨.refl a, fun b hb => ?_⟩)
  refine Prog.rg_bind .refl (Prog.rg_read fun c hc => ⟨.refl c, fun d hd => ?_⟩)
  have hsc := (ha.trans hb).trans hc
  rw [ha.flushMode, hsc.nrRegions]
  have hfence : ∀ e, Works (backFill s) s e → (∀ o, Copies s tid nrThreads o →
        Memory.Secured e.mem (.data .back o) (s.content o)) →
      (Prog.act (onNvm Memory.fence)).rg (Works (backFill s)) (Works (backFill s)) (fun _ v =>
        Works (backFill s) s v ∧ ∀ o, Copies s tid nrThreads o →
          (v.mem (.data .back o)).Only (s.content o)) e := by
    intro e he hsec
    refine Prog.rg_act fun g hg => ?_
    have hstep : Works (backFill s) g (onNvm Memory.fence g) := works_onNvm (Memory.fills_fence _)
    refine ⟨hstep, fun h hh => ⟨(he.trans hg).trans (hstep.trans hh), fun o ho => ?_⟩⟩
    refine hh.fills.only (fun w hw => ?_) (hg.back (hsec o ho)).fence
    exact (Option.some.inj ((MetadataV1.into_self o).symm.trans hw)).symm
  by_cases hmode : s.flushMode = .wbinvd
  · rw [if_pos hmode]
    refine Prog.rg_bind .refl (Prog.rg_mono (Prog.rg_forEach_each .refl (fun _ _ _ => .trans)
      (i := s) (D := fun region v => s.regionDirty.test region = true → ∀ o, regionOf o = region →
        Memory.Secured v.mem (.data .back o) (s.content o))
      (fun _ _ _ he hw hdirty o ho => hw.back (he hdirty o ho))
      (fun region _ e he => rg_writeBackDirty he region) (hsc.trans hd)) ?_)
    intro _ e he
    refine hfence e ((hsc.trans hd).trans he.1) fun o ho => ?_
    rcases ho with ho | ho
    · exact ((hsc.trans hd).trans he.1).back ho
    · rw [if_pos hmode] at ho
      exact he.2 _ ho.1 ho.2 o rfl
  · rw [if_neg hmode]
    refine Prog.rg_bind .refl (Prog.rg_mono (rg_forBuckets (s := s)
      (D := fun region v => ∀ o, regionOf o = region →
        Memory.Secured v.mem (.data .back o) (s.content o))
      (fun _ _ _ he hw o ho => hw.back (he o ho))
      (fun region e he => rg_writeBackRegion he region) (hsc.trans hd) tid nrThreads) ?_)
    intro _ e he
    refine hfence e ((hsc.trans hd).trans he.1) fun o ho => ?_
    rcases ho with ho | ho
    · exact ((hsc.trans hd).trans he.1).back ho
    · rw [if_neg hmode] at ho
      obtain ⟨id, hid, hin⟩ := ho
      exact he.2 id hid _ hin o rfl

/-- Only dirty bits differ. -/
def Clears (t u : MProtectEngine) : Prop := ∃ d, u = { t with regionDirty := d }

theorem Clears.refl (t : MProtectEngine) : Clears t t := ⟨t.regionDirty, rfl⟩

theorem Clears.trans (h : Clears s t) (h' : Clears t u) : Clears s u := by
  obtain ⟨d, rfl⟩ := h
  obtain ⟨d', rfl⟩ := h'
  exact ⟨d', rfl⟩

theorem within_clearDirtyWord (region : Nat) : (clearDirtyWord region).Within Clears :=
  Prog.within_act.mpr fun t => ⟨t.regionDirty.clearAll region, rfl⟩

theorem within_clearDirtyBitsParallel (tid nrThreads : Nat) :
    (clearDirtyBitsParallel tid nrThreads).Within Clears := by
  refine Prog.within_bind (Prog.within_read .refl _) fun mode => ?_
  refine Prog.within_bind (Prog.within_read .refl _) fun count => ?_
  split
  · exact Prog.within_forEach fun w _ => within_clearDirtyWord _
  · refine Prog.within_forEach fun id _ => ?_
    exact Prog.within_bind (Prog.within_read .refl _) fun bucket =>
      Prog.within_forEach fun region _ => within_clearDirtyWord region

/-- The word of the back copy is up to date, or its region is copied. -/
def Behind (s : MProtectEngine) (region : Nat) : Prop :=
  region < s.nrRegions ∧ s.regionDirty.test region = true ∧ Listed s region

theorem wp_writeBackSection {C : MProtectEngine → Prop}
    (hC : ∀ a b, C a → Works (backFill s) a b → C b) (hclear : ∀ a b, C a → Clears a b → C b)
    (hs : C s) {nrThreads : Nat} (hpos : 0 < nrThreads) (order : Schedules) :
    Prog.wp C (writeBackSection nrThreads order) (fun _ v => ∃ u, Works (backFill s) s u ∧
      Clears u v ∧ ∀ o, Memory.Secured s.mem (.data .back o) (s.content o) ∨
          Behind s (regionOf o) → (u.mem (.data .back o)).Only (s.content o)) s := by
  have hcopies : Prog.wp C (Prog.par nrThreads order.writeBack fun i => writeBackParallel i nrThreads)
      (fun _ v => Works (backFill s) s v ∧
        ∀ o, Memory.Secured s.mem (.data .back o) (s.content o) ∨ Behind s (regionOf o) →
          (v.mem (.data .back o)).Only (s.content o)) s := by
    refine Prog.wp_mono (Prog.wp_par_same .refl (fun _ _ _ => .trans) hC hs
      fun i _ => rg_writeBackParallel i nrThreads) fun _ v hv => ⟨(hv 0 hpos).1, fun o ho => ?_⟩
    rcases ho with ho | ⟨hlt, hdirty, hlisted⟩
    · exact (hv 0 hpos).2 o (Or.inl ho)
    · by_cases hmode : s.flushMode = .wbinvd
      · refine (hv (regionOf o % nrThreads) (Nat.mod_lt _ hpos)).2 o (Or.inr ?_)
        rw [if_pos hmode]
        exact ⟨mem_indicesOf nrThreads hlt, hdirty⟩
      · obtain ⟨id, hid, hin⟩ := hlisted.resolve_left hmode
        refine (hv (id % nrThreads) (Nat.mod_lt _ hpos)).2 o (Or.inr ?_)
        rw [if_neg hmode]
        exact ⟨id, mem_bucketsOf nrThreads hid, hin⟩
  rw [writeBackSection, Prog.wp_bind]
  refine Prog.wp_mono (Prog.wp_crash hs hcopies) fun _ u hu => ?_
  have hwithin : (Prog.par nrThreads order.clear fun i =>
      clearDirtyBitsParallel i nrThreads).Within Clears :=
    Prog.within_par .refl fun i _ => within_clearDirtyBitsParallel i nrThreads
  refine Prog.wp_mono (Prog.wp_of_within .refl (fun _ _ _ => .trans) hclear hwithin hu.1)
    fun _ v hv => ⟨u, hu.2.1, hv, hu.2.2⟩

end Libcrpm.MProtectEngine
