import Libcrpm.HybridMpi

/-!
# A round of one rank

The engine of a rank in `checkpoint_for_mpi`.  Up to the barrier the last round can still
be recovered under its epoch, whatever the epoch on the medium is; at the barrier the
round is complete under the next epoch.
-/

namespace Libcrpm.HybridInst

open Libcrpm.Persistence Libcrpm.Program CheckpointImage

variable {n e : Nat} {X Y : Content} {c : Nat → SegmentState} {stale : Nat → Prop}
  {s₀ t u v w x : HybridInst} {mode : FlushMode} {i : CheckpointImage} {img : NvmImage}

/-! ## What a crash leaves -/

/-- Under the epoch `e` the image holds `X`. -/
def HoldsUnder (n : Nat) (X : Content) (e : Nat) (img : NvmImage) : Prop :=
  ∃ c, Holds n n X (withEpoch e img) c

/-- A crash leaves the round with the epoch `e`. -/
def Last (n : Nat) (X : Content) (e : Nat) (t : HybridInst) : Prop :=
  ∀ img, t.image.mem.CrashTo img → HoldsUnder n X e img ∧ img .committedEpoch = e

/-- A crash leaves the round with the epoch `e`, and the next one if its epoch is durable. -/
def Between (n : Nat) (X Y : Content) (e : Nat) (t : HybridInst) : Prop :=
  ∀ img, t.image.mem.CrashTo img → HoldsUnder n X e img ∧
    (img .committedEpoch = e ∨
      (img .committedEpoch = nextEpoch e ∧ HoldsUnder n Y (nextEpoch e) img))

/-- A crash leaves both rounds, and the epoch of the next one. -/
def Next (n : Nat) (X Y : Content) (e : Nat) (t : HybridInst) : Prop :=
  ∀ img, t.image.mem.CrashTo img → HoldsUnder n X e img ∧
    img .committedEpoch = nextEpoch e ∧ HoldsUnder n Y (nextEpoch e) img

theorem Last.between (h : Last n X e t) : Between n X Y e t :=
  fun img hc => ⟨(h img hc).1, Or.inl (h img hc).2⟩

theorem Next.between (h : Next n X Y e t) : Between n X Y e t :=
  fun img hc => ⟨(h img hc).1, Or.inr (h img hc).2⟩

theorem Next.last (h : Next n X Y e t) : Last n Y (nextEpoch e) t :=
  fun img hc => ⟨(h img hc).2.2, (h img hc).2.1⟩

theorem NamedCopies.holdsUnder (h : NamedCopies n n X c i)
    (hdata : ∀ l, IsData l → (i.mem l).May (img l))
    (hcom : CheckpointImage.Committed n (withEpoch e img) e c) : HoldsUnder n X e img := by
  refine ⟨c, h.holds (fun l hl => ?_) hcom⟩
  rw [withEpoch_of_isData e img hl]
  exact hdata l hl

theorem Named.last (h : Named n n X e c t.image) : Last n X e t := by
  intro img hc
  have hcom := h.current.committed_withEpoch (fun _ _ => .refl _) hc
  rw [h.nrMain] at hcom
  exact ⟨h.toNamedCopies.holdsUnder (fun l _ => hc l) hcom, (h.current.committed hc).1⟩

theorem Quiet.last (h : Quiet n n X e c stale t) : Last n X e t := h.steady.named.last

/-! ## Regular states -/

theorem touches_eq_true {s : Nat} : t.touches s = true ↔ TouchedSegment t s := by
  simp only [touches, TouchedSegment, DirtySegment, Buffered, Bool.or_eq_true, List.any_eq_true,
    List.mem_range, decide_eq_true_eq]
  refine or_congr_right ⟨?_, ?_⟩
  · rintro ⟨id, hid, addr, hin, hlt, hseg⟩
    exact ⟨addr, ⟨⟨id, hid, hin⟩, hlt⟩, hseg⟩
  · rintro ⟨addr, ⟨⟨id, hid, hin⟩, hlt⟩, hseg⟩
    exact ⟨id, hid, addr, hin, hlt, hseg⟩

theorem Quiet.touched_of_hasWork (h : Quiet n n X e c stale t) (hwork : t.hasWork = true) :
    ∃ block, Touched t block := by
  simp only [hasWork, List.any_eq_true, List.mem_range, Bool.or_eq_true, Bool.not_eq_true',
    List.isEmpty_eq_false_iff_exists_mem, decide_eq_true_eq] at hwork
  obtain ⟨id, hid, ⟨block, hin⟩ | ⟨addr, hin, hlt⟩⟩ := hwork
  · exact ⟨block, Or.inl (h.lists.dirty block (mem_listedBlocks.mpr ⟨id, hid, hin⟩))⟩
  · exact ⟨_, Or.inr ⟨addr, ⟨⟨id, hid, hin⟩, hlt⟩, rfl⟩⟩

theorem Quiet.gap (h : Quiet n n X e c stale t) (hregular : t.regular = true) (s : Nat)
    (hs : TouchedSegment t s) : c s ≠ stateOf (targetArea t.epoch) := by
  have hlt : s < t.nrSegments := by
    rw [nrSegments, h.steady.nrMain]
    exact h.touchedSegment_lt hs
  simp only [regular, Bool.and_eq_true, List.all_eq_true, List.mem_range] at hregular
  have hgap := hregular.2 s hlt
  rw [touches_eq_true.mpr hs] at hgap
  rw [← targetState_eq, ← h.steady.arrays.getSegmentState hlt]
  simpa using hgap

theorem Begun.active (hb : Begun n n X e c stale t mode u) (h : Quiet n n X e c stale t)
    (hregular : t.regular = true) : mode ≠ .noAction := by
  intro hmode
  simp only [regular, Bool.and_eq_true] at hregular
  obtain ⟨block, htouched⟩ := h.touched_of_hasWork hregular.1
  exact hb.empty hmode block ((hb.touched block).mpr htouched)

/-! ## The section before the commit -/

/-- The blocks that the section before the commit brings up to date. -/
def ChosenForMpi (t : HybridInst) (block : Nat) : Prop :=
  DirtyBlock t t.epoch block ∨ StaleBlock t block

theorem rg_applyForMpi (hstart : Startable s₀) (tid nrThreads : Nat) :
    (applyForMpi tid nrThreads).rg (ApplyStep s₀ (targetArea s₀.epoch) (ChosenForMpi s₀))
      (ApplyStep s₀ (targetArea s₀.epoch) (ChosenForMpi s₀))
      (fun _ v => ApplyStep s₀ (targetArea s₀.epoch) (ChosenForMpi s₀) s₀ v ∧ ∀ block,
        (StaleBlock s₀ block ∧ segmentOf block ∈ indicesOf s₀.nrSegments tid nrThreads) ∨
        Mine s₀ (targetArea s₀.epoch) tid nrThreads block →
          Done s₀ (targetArea s₀.epoch) (ChosenForMpi s₀) Filled block v) s₀ := by
  refine Prog.rg_bind .refl (Prog.rg_mono (rg_applyNvmToNvmParallel hstart (.refl s₀) rfl
    (fun _ => Or.inr) tid nrThreads) fun _ a ⟨ha, hsync⟩ => ?_)
  refine Prog.rg_bind .refl (Prog.rg_read fun b hb => ⟨.refl b, fun d hd => ?_⟩)
  have hbd := hb.trans hd
  rw [(ha.trans hb).epoch, ← applyDramTo_targetArea]
  have hqueued : ∀ block, (StaleBlock s₀ block ∧
      segmentOf block ∈ indicesOf s₀.nrSegments tid nrThreads) →
        Done s₀ (targetArea s₀.epoch) (ChosenForMpi s₀) Queued block d :=
    fun block hin => (hsync block hin.2 hin.1).queued hbd
  exact Prog.rg_mono (rg_applyDramTo hstart (ha.trans hbd) (fun _ => Or.inl) hqueued tid nrThreads)
    fun _ v ⟨hv, hall⟩ => ⟨(ha.trans hbd).trans hv, hall⟩

theorem wp_applyForMpi {C : HybridInst → Prop} (hstart : Startable s₀)
    (hC : ∀ a b, C a → ApplyStep s₀ (targetArea s₀.epoch) (ChosenForMpi s₀) a b → C b)
    (hs : C s₀) {nrThreads : Nat} (hpos : 0 < nrThreads) (schedule : List Nat) :
    Prog.wp C (Prog.par nrThreads schedule fun j => applyForMpi j nrThreads)
      (fun _ v => ApplyStep s₀ (targetArea s₀.epoch) (ChosenForMpi s₀) s₀ v ∧ ∀ block,
        ChosenForMpi s₀ block →
          Done s₀ (targetArea s₀.epoch) (ChosenForMpi s₀) Filled block v) s₀ := by
  refine Prog.wp_mono (Prog.wp_par_same .refl (fun _ _ _ => .trans) hC hs
    fun j _ => rg_applyForMpi hstart j nrThreads) fun _ v hv => ⟨(hv 0 hpos).1, ?_⟩
  rintro block (hdirty | hstale)
  · obtain ⟨tid, htid, hmine⟩ := exists_mine hstart hpos hdirty
    exact (hv tid htid).2 block (Or.inr hmine)
  · refine (hv (segmentOf block % nrThreads) (Nat.mod_lt _ hpos)).2 block
      (Or.inl ⟨hstale, mem_indicesOf nrThreads ?_⟩)
    exact hstart.range _ _ (hstart.marked _ _ hstale.1)

/-- The target copy before the commit, when the round has started in `u`. -/
structure Applied (n : Nat) (X : Content) (e : Nat) (c : Nat → SegmentState)
    (u v : HybridInst) : Prop where
  carried : Carried u v
  mainToBack : v.image.mainToBack = u.image.mainToBack
  refilled : Refilled n n X u.work e c (targetArea u.epoch) v.image
  named : Named n n X e c v.image

def BoundAll (n : Nat) (t : HybridInst) : Prop := ∀ s < n, t.image.mainToBack s ≠ none

theorem BoundAll.congr (h : BoundAll n t) (heq : u.image.mainToBack = t.image.mainToBack) :
    BoundAll n u := by
  intro s hs
  rw [heq]
  exact h s hs

section Apply

variable (hb : Begun n n X e c stale t mode u) (hbound : BoundAll n t)
  (hgap : ∀ s, TouchedSegment t s → c s ≠ stateOf (targetArea t.epoch))

include hb

include hbound in
theorem Begun.mpiStartable : Startable u := by
  refine hb.startable fun s hs => hbound s ?_
  rw [← hb.segments s, ← hb.last s] at hs
  exact hs.elim (hb.quiet.range _ s) (hb.quiet.range _ s)

include hgap in
/-- What the section fills is not what the committed states name. -/
theorem Begun.chosenForMpi_ne {block : Nat} (hin : ChosenForMpi u block) :
    c (segmentOf block) ≠ stateOf (targetArea u.epoch) := by
  rcases hin with hdirty | ⟨hstale, -⟩
  · rw [hb.epoch]
    exact hgap _ ((hb.segments _).mp (hb.quiet.marked _ _ hdirty))
  · rw [hb.quiet.lastNamed _ (hb.quiet.marked _ _ hstale)]
    exact fun heq => targetArea_ne hb.quiet.parity (stateOf_inj heq).symm

include hbound hgap in
theorem Begun.wp_apply {call : RoundCall} (hvalid : call.Valid) :
    Prog.wp (Last n X e) call.apply (fun _ v => Applied n X e c u v) u := by
  have hne := targetArea_ne hb.quiet.parity
  have hsteady := hb.quiet.steady
  refine Prog.wp_mono (Prog.wp_weaken (fun v hv => Named.last hv.2) (Prog.wp_crash ?_
    (wp_applyForMpi (C := fun v => v.image.mainToBack = u.image.mainToBack ∧ Named n n X e c v.image)
      (hb.mpiStartable hbound) ?_ ?_ hvalid.threads call.schedule)))
    fun _ v ⟨⟨hmain, hnamed⟩, hstep, hfilled⟩ => ?_
  · exact ⟨rfl, hsteady.named⟩
  · rintro a b ⟨hmain, hnamed⟩ hab
    refine ⟨hab.mainToBack.trans hmain, ?_⟩
    have hm : RefillMem (targetArea u.epoch) (home a.image (targetArea u.epoch)) u.work
        (ChosenForMpi u) a.image.mem b.image.mem := by
      rw [home_congr hmain]
      exact hab.mem
    rw [hab.frame]
    exact hnamed.refill hm fun block hin => hb.chosenForMpi_ne hgap hin
  · exact ⟨rfl, hsteady.named⟩
  · refine ⟨hstep.carried, hmain, ?_, hnamed⟩
    have hrefilled := hsteady.refilled hne hstep.mem (fun block hin => (hfilled block hin).2)
      (fun block hin => ?_) fun s hs o ho hno => ?_
    · rw [hstep.frame]
      exact hrefilled
    · by_cases hdirty : DirtyBlock u u.epoch block
      · exact Or.inl hdirty
      · exact Or.inr ⟨hb.quiet.staleDirty block hin, hdirty⟩
    · exact hb.quiet.work s hs o ho fun ht => hno (Or.inl (hb.touched_iff.mp ht))

end Apply

/-! ## The commit up to the barrier -/

/-- The round in `w` is published: a crash leaves both rounds. -/
structure Announced (n : Nat) (X : Content) (e : Nat) (c : Nat → SegmentState)
    (u w : HybridInst) : Prop where
  applied : ∃ v j, Applied n X e c u v ∧ Carried v w ∧ Keeps v.image j ∧
    Arrays j e c (roundStates c u) ∧
    CheckpointImage.Published j e c (roundStates c u) w.image
  next : Next n X u.work e w

theorem Applied.under {j : CheckpointImage} (h : Applied n X e c u v) (hk : Keeps v.image j)
    (hc : j.mem.CrashTo img)
    (hold : CheckpointImage.Committed v.image.nrMain (withEpoch e img) e c) :
    HoldsUnder n X e img := by
  rw [h.refilled.nrMain] at hold
  exact h.named.toNamedCopies.holdsUnder (hk.data_may hc) hold

section Commit

variable (hb : Begun n n X e c stale t mode u) (hbound : BoundAll n t)

include hb

theorem Begun.mem_layoutSegments {s : Nat} : s ∈ layoutSegments u ↔
    DirtySegment u u.epoch s ∨ DirtySegment u (1 - u.epoch) s :=
  mem_layoutSegments_of_range hb.quiet.steady.nrMain hb.quiet.range

theorem Begun.layoutSegments_lt {s : Nat} (hs : s ∈ layoutSegments u) : s < n :=
  (hb.mem_layoutSegments.mp hs).elim (hb.quiet.range _ s) (hb.quiet.range _ s)

theorem Begun.dirty_layout (block : Nat) (hd : DirtyBlock u u.epoch block) :
    segmentOf block ∈ layoutSegments u :=
  hb.mem_layoutSegments.mpr (Or.inl (hb.quiet.marked _ _ hd))

theorem Begun.same (s : Nat) (hs : s < n) (o : Nat) (ho : o < kWordsPerSegment)
    (hno : ¬ DirtyBlock u u.epoch (blockOf s o)) : u.work s o = X s o :=
  hb.quiet.work s hs o ho fun ht => hno (hb.touched_iff.mp ht)

theorem Applied.layoutSegments_eq (h : Applied n X e c u v) :
    layoutSegments v = layoutSegments u := by
  have hcarried := h.carried
  have hn : v.nrSegments = u.nrSegments :=
    h.refilled.nrMain.trans hb.quiet.steady.nrMain.symm
  have hwords : v.dirtySegmentsOf = u.dirtySegmentsOf := by
    funext w
    rw [dirtySegmentsOf, dirtySegmentsOf, hcarried.segmentDirty, hcarried.epoch]
  rw [layoutSegments, layoutSegments, hn, hwords]

include hbound

theorem Applied.bound (h : Applied n X e c u v) (s : Nat) (hs : s ∈ layoutSegments u) :
    v.image.mainToBack s ≠ none := by
  rw [h.mainToBack, hb.image]
  exact hbound s (hb.layoutSegments_lt hs)

theorem Applied.namedCopies (h : Applied n X e c u v) :
    NamedCopies n n u.work (roundStates c u) v.image := by
  rw [roundStates, targetState_eq]
  exact h.refilled.namedCopies (h.bound hb hbound) hb.dirty_layout hb.same

theorem Applied.underNext {j : CheckpointImage} (h : Applied n X e c u v) (hk : Keeps v.image j)
    (hc : j.mem.CrashTo img)
    (hnew : CheckpointImage.Committed v.image.nrMain img (nextEpoch e) (roundStates c u)) :
    img .committedEpoch = nextEpoch e ∧ HoldsUnder n u.work (nextEpoch e) img := by
  rw [h.refilled.nrMain] at hnew
  have hself : withEpoch (nextEpoch e) img = img := by
    rw [← hnew.1]
    exact withEpoch_self img
  refine ⟨hnew.1, (h.namedCopies hb hbound).holdsUnder (hk.data_may hc) ?_⟩
  rw [hself]
  exact hnew

theorem Applied.wp_publishLayoutState (h : Applied n X e c u v) :
    Prog.wp (Between n X u.work e) publishLayoutState
      (fun bi w => bi = nextEpoch e % 2 ∧ Announced n X e c u w) v := by
  have hlast : Last n X e v := h.named.last
  have hlt : ∀ s ∈ layoutSegments u, s < v.image.nrMain := by
    intro s hs
    rw [h.refilled.nrMain]
    exact hb.layoutSegments_lt hs
  have hprog : publishBatch (layoutSegments v) (targetState v.epoch) =
      publishBatch (layoutSegments u) (targetState u.epoch) := by
    rw [h.layoutSegments_eq hb, h.carried.epoch]
  simp only [publishLayoutState, Prog.wp_bind, Prog.wp_read]
  refine ⟨hlast.between, hlast.between, wp_onImage ?_⟩
  rw [hprog]
  refine Prog.wp_mono (Prog.wp_weaken (fun j hj img hc => ?_)
    (wp_publishBatch h.refilled.arrays hlt (targetState u.epoch))) ?_
  · refine ⟨h.under hj.keeps hc (hj.old img hc), (hj.new img hc).imp_right fun hnew => ?_⟩
    exact h.underNext hb hbound hj.keeps hc hnew
  · rintro bi w ⟨hbi, j, hk, harr, hw⟩
    refine ⟨hbi, ⟨v, j, h, carried_image v w, hk, harr, hw⟩, fun img hc => ?_⟩
    have hkeeps := hk.trans hw.keeps
    exact ⟨h.under hkeeps hc (hk.nrMain ▸ hw.old img hc),
      h.underNext hb hbound hkeeps hc (hk.nrMain ▸ hw.new img hc)⟩

/-! ## The commit after the barrier -/

theorem Announced.wp_copyDirtyLines (h : Announced n X e c u w) :
    Prog.wp (Last n u.work (nextEpoch e))
      (onImage (Prog.act (copyDirtyLines (nextEpoch e % 2))))
      (fun _ x => Committed n n e c True (DirtyBlock u u.epoch) u x) w := by
  obtain ⟨v, j, hv, hcarried, hk, harr, hw⟩ := h.applied
  obtain ⟨hcopied, hnew⟩ := hw.copied harr
  have hkeeps := hk.trans hcopied
  have harea : setAll c (layoutSegments u) (stateOf (targetArea u.epoch)) = roundStates c u := by
    rw [roundStates, targetState_eq]
  have hsteady := hv.refilled.steady (hv.bound hb hbound) hb.dirty_layout hb.same hkeeps
    (harea.symm ▸ hnew)
  rw [harea] at hsteady
  refine wp_onImage (Prog.wp_act.mpr ⟨?_, ?_⟩)
  · exact hsteady.named.last (t := { w with image := _ })
  · refine ⟨(hv.carried.trans hcarried).trans (carried_image w _),
      hkeeps.mainToBack.trans hv.mainToBack, ?_, fun _ => hsteady⟩
    exact hsteady.toSound

end Commit

/-! ## The end of a round -/

section Finish

variable (hb : Begun n n X e c stale t mode u)

include hb

/-- The engine between two rounds: what the round has written is stale in the other copy. -/
theorem Flipped.mpiQuiet (hx : Flipped u x)
    (hi : Steady n n u.work (nextEpoch e) (roundStates c u) (targetArea u.epoch)
      (DirtyBlock u u.epoch) x.image) :
    Quiet n n t.work (nextEpoch e) (roundStates c u) (DirtyBlock u u.epoch) x := by
  have hflip := hb.flip_flip
  have hne := hb.epoch_ne_flip
  refine ⟨?_, ?_, fun s hs o ho _ => ?_, ⟨fun _ block hd => ?_, fun block hin => ?_⟩,
    fun epoch block hd => ?_, fun epoch s hd => ?_, fun block hst => ?_, fun s hd => ?_⟩
  · rw [hx.epoch, hflip, ← hb.work]
    exact hi
  · rw [hx.epoch]
    rcases hb.quiet.parity with hp | hp <;> simp [hp]
  · rw [hx.work, hb.work]
  · rw [hx.epoch] at hd
    exact absurd hd (hx.clean block)
  · simp [listedBlocks, hx.flushBlocks] at hin
  · by_cases hother : epoch = 1 - u.epoch
    · exact absurd (hother ▸ hd) (hx.clean block)
    · rw [hx.blocks _ hother] at hd
      rw [hx.segments _ hother]
      exact hb.quiet.marked _ _ hd
  · by_cases hother : epoch = 1 - u.epoch
    · exact absurd (hother ▸ hd) (hx.cleanSegment s)
    · rw [hx.segments _ hother] at hd
      exact hb.quiet.range _ _ hd
  · rw [hx.epoch, hflip, hx.blocks _ hne]
    exact hst
  · rw [hx.epoch, hflip, hx.segments _ hne] at hd
    rw [hx.epoch, hflip, ← targetState_eq, roundStates, setAll, if_pos]
    exact hb.mem_layoutSegments.mpr (Or.inl hd)

/-- The end of a round: working memory is durable as it was when the round started. -/
structure RoundDone (n e : Nat) (t x : HybridInst) : Prop where
  quiet : ∃ c stale, Quiet n n t.work (nextEpoch e) c stale x
  mainToBack : x.image.mainToBack = t.image.mainToBack

theorem Committed.wp_finishForMpi
    (h : Committed n n e c True (DirtyBlock u u.epoch) u v) :
    Prog.wp (Last n u.work (nextEpoch e)) finishRound (fun _ x => RoundDone n e t x) v := by
  have hcleared := cleared_clearDirtyBitsLastEpoch v
  have himage : (clearDirtyBitsLastEpoch v).image = v.image := hcleared.image
  have hsteady := h.steady trivial
  have hlast : ∀ {w : HybridInst}, Unchanged v.image w.image → Last n u.work (nextEpoch e) w :=
    fun hi => ((hsteady.unchanged hi).named).last
  have hdone : ∀ (flag : Bool) {i : CheckpointImage}, Unchanged v.image i →
      RoundDone n e t { clearDirtyBitsLastEpoch v with
        image := i, hasSnapshot := flag, flushBlocks := fun _ => [],
        epoch := 1 - (clearDirtyBitsLastEpoch v).epoch } := by
    intro flag i hi
    have hx := h.flipped hb hcleared flag hi.nrMain
    refine ⟨⟨_, _, hx.mpiQuiet hb (hsteady.unchanged hi)⟩, ?_⟩
    exact hi.mainToBack.trans (h.mainToBack.trans (congrArg CheckpointImage.mainToBack hb.image))
  have hcur : Unchanged v.image (clearDirtyBitsLastEpoch v).image := himage ▸ .refl _
  simp only [finishRound, Prog.wp_bind, Prog.wp_act, Prog.wp_read]
  refine ⟨hlast hcur, hlast hcur, ?_⟩
  split
  · simp only [Prog.wp_bind, Prog.wp_act]
    refine ⟨hlast hcur, hlast hcur, hdone _ hcur⟩
  · simp only [Prog.wp_bind]
    refine wp_setAttributes kAttributeHasSnapshot (fun i hi => hlast (himage ▸ hi)) fun i hi => ?_
    rw [himage] at hi
    simp only [Prog.wp_act]
    exact ⟨hlast hi, hlast hi, hlast hi, hdone true hi⟩

end Finish

end Libcrpm.HybridInst
