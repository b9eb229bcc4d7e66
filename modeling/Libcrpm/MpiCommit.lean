import Libcrpm.Recovery

/-!
# The commit of one rank

`commit_segment_state_update_for_mpi` waits for the other ranks between the store to the
epoch and the copy to the array left behind.  Until then the last epoch and its array can
be taken back with `reset_committed_epoch`.
-/

namespace Libcrpm.CheckpointImage

open Libcrpm.Persistence Libcrpm.Program

variable {n nb e : Nat} {c b : Nat → SegmentState} {i p t : CheckpointImage} {img : NvmImage}

/-- `commit_segment_state_update_for_mpi` up to the barrier; the result is `bi_epoch`. -/
def publishSegmentStates : Prog CheckpointImage Nat := do
  let next ← Prog.read fun i => nextEpoch i.committedEpoch
  Prog.act fun i => flush (dirtyLines i (next % 2)) i
  Prog.act storeFence
  Prog.act (storeEpoch next)
  Prog.act storeFence
  pure (next % 2)

/-- A batch that sets one state, from `begin` to the barrier of its commit. -/
def publishBatch (segments : List Nat) (state : SegmentState) : Prog CheckpointImage Nat := do
  beginSegmentStateUpdate
  Prog.forEach segments fun s => setSegmentState s state
  publishSegmentStates

/-! ## Taking back an epoch -/

/-- The medium once its epoch is `e`. -/
def withEpoch (e : Nat) (img : NvmImage) : NvmImage
  | .committedEpoch => e
  | l => img l

@[simp] theorem withEpoch_committedEpoch (e : Nat) (img : NvmImage) :
    withEpoch e img .committedEpoch = e := rfl

theorem withEpoch_of_ne (e : Nat) (img : NvmImage) {l : Loc} (hl : l ≠ .committedEpoch) :
    withEpoch e img l = img l := by
  cases l with
  | committedEpoch => exact absurd rfl hl
  | _ => rfl

theorem withEpoch_of_isData (e : Nat) (img : NvmImage) {l : Loc} (hl : IsData l) :
    withEpoch e img l = img l := by
  apply withEpoch_of_ne
  rintro rfl
  exact hl

theorem withEpoch_self (img : NvmImage) : withEpoch (img .committedEpoch) img = img := by
  funext l
  cases l with
  | _ => rfl

/-- The array of the epoch `e` is durable and drains only. -/
theorem Current.committed_withEpoch (h : Current p e c)
    (hd : ∀ s < p.nrMain,
      (p.mem (.segmentState (e % 2) s)).DrainsTo (t.mem (.segmentState (e % 2) s)))
    (hc : t.mem.CrashTo img) : Committed p.nrMain (withEpoch e img) e c := by
  refine ⟨rfl, fun s hs => ?_⟩
  have hsettled := (hd s hs).settled (h.stateSettled s hs)
  calc withEpoch e img (.segmentState (e % 2) s)
      = img (.segmentState (e % 2) s) := rfl
    _ = t.mem.load (.segmentState (e % 2) s) := hsettled.eq (hc _)
    _ = p.mem.load (.segmentState (e % 2) s) := (hd s hs).cur
    _ = c s := h.state s hs

/-! ## The commit up to the barrier -/

/-- A crash before the barrier leaves the old states under the old epoch, and under the
next one those of the batch. -/
structure Publishing (i : CheckpointImage) (e : Nat) (c b : Nat → SegmentState)
    (t : CheckpointImage) : Prop where
  keeps : Keeps i t
  old : ∀ img, t.mem.CrashTo img → Committed i.nrMain (withEpoch e img) e c
  new : ∀ img, t.mem.CrashTo img → img .committedEpoch = e ∨ Committed i.nrMain img (nextEpoch e) b

/-- At the barrier the next epoch is durable. -/
structure Published (i : CheckpointImage) (e : Nat) (c b : Nat → SegmentState)
    (t : CheckpointImage) : Prop where
  keeps : Keeps i t
  old : ∀ img, t.mem.CrashTo img → Committed i.nrMain (withEpoch e img) e c
  new : ∀ img, t.mem.CrashTo img → Committed i.nrMain img (nextEpoch e) b
  prepared : ∃ p, Prepared i e c b p ∧ t = storeFence (storeEpoch (nextEpoch e) p)

theorem Staging.publishing (h : Staging i e c t) : Publishing i e c b t where
  keeps := h.keeps
  old img hc := by
    have hcom := h.current.committed_withEpoch (fun _ _ => .refl _) hc
    rwa [h.keeps.nrMain] at hcom
  new _ hc := Or.inl (h.committed hc).1

theorem Publishing.trans {u : CheckpointImage} (h : Publishing t e c b u) (hk : Keeps i t) :
    Publishing i e c b u where
  keeps := hk.trans h.keeps
  old img hc := hk.nrMain ▸ h.old img hc
  new img hc := hk.nrMain ▸ h.new img hc

theorem drains_storeEpoch (e : Nat) (t : CheckpointImage) {l : Loc} (hl : l ≠ .committedEpoch) :
    (t.mem l).DrainsTo ((storeEpoch e t).mem l) := by
  rw [storeEpoch_of_ne e t hl]
  exact .refl _

theorem Prepared.publishing_storeEpoch (h : Prepared i e c b p) :
    Publishing i e c b (storeEpoch (nextEpoch e) p) where
  keeps := h.keeps.trans (keeps_storeEpoch _ _)
  old img hc := by
    have hcom := h.current.committed_withEpoch
      (fun s _ => drains_storeEpoch (nextEpoch e) p (by simp)) hc
    rwa [h.keeps.nrMain] at hcom
  new img hc := ((committing_storeEpoch h).crash img hc).imp And.left NewImage.committed

theorem Prepared.published (h : Prepared i e c b p) :
    Published i e c b (storeFence (storeEpoch (nextEpoch e) p)) where
  keeps := (h.keeps.trans (keeps_storeEpoch _ _)).trans (keeps_storeFence _)
  old img hc := by
    have hcom := h.current.committed_withEpoch
      (fun s _ => drains_storeEpoch_fence (nextEpoch e) (by simp)) hc
    rwa [h.keeps.nrMain] at hcom
  new img hc := by
    have hepoch : img .committedEpoch = nextEpoch e :=
      ((settled_storeEpoch_fence _ p).eq (hc _)).trans (load_storeEpoch_fence _ p)
    exact (newImage_of_prepared h hc (fun l hl _ => drains_storeEpoch_fence _ hl) hepoch).committed
  prepared := ⟨p, h, rfl⟩

theorem Published.publishing (h : Published i e c b t) : Publishing i e c b t :=
  ⟨h.keeps, h.old, fun img hc => Or.inr (h.new img hc)⟩

theorem wp_publishSegmentStates (h : Staged i e c b) :
    Prog.wp (Publishing i e c b) publishSegmentStates
      (fun bi t => bi = nextEpoch e % 2 ∧ Published i e c b t) i := by
  have hprep := prepared h
  have hepoch : nextEpoch i.committedEpoch = nextEpoch e := by rw [committedEpoch, h.epoch]
  have hdrains : i.mem.Drains (flush (dirtyLines i (nextEpoch e % 2)) i).mem :=
    Memory.drains_flushAll _ _
  have hflush : Staging i e c (flush (dirtyLines i (nextEpoch e % 2)) i) :=
    ⟨h.toCurrent.of_drains rfl (hdrains _) fun _ _ => hdrains _, keeps_flush _ _⟩
  have hstart : Staging i e c i := ⟨h.toCurrent, .refl i⟩
  simp only [publishSegmentStates, Prog.wp_bind, Prog.wp_read, Prog.wp_act, hepoch,
    ← nextEpoch_mod] at hprep ⊢
  exact ⟨hstart.publishing, hflush.publishing, hprep.toStaging.publishing,
    hprep.publishing_storeEpoch, hprep.published.publishing,
    Prog.wp_pure.mpr ⟨rfl, hprep.published⟩⟩

theorem wp_publishBatch (h : Arrays i e c c) {segments : List Nat}
    (hs : ∀ s ∈ segments, s < i.nrMain) (state : SegmentState) :
    Prog.wp (Publishing i e c (setAll c segments state)) (publishBatch segments state)
      (fun bi t => bi = nextEpoch e % 2 ∧ ∃ j, Keeps i j ∧
        Arrays j e c (setAll c segments state) ∧ Published j e c (setAll c segments state) t) i := by
  have hflag := arrays_update h true
  have hkeep : Keeps i { i with segmentStateUpdate := true } :=
    keeps_of_eq rfl rfl rfl fun _ _ => rfl
  simp only [publishBatch, Prog.wp_bind, wp_beginSegmentStateUpdate]
  refine ⟨(Staging.mk hflag.toCurrent hkeep).publishing, ?_⟩
  refine Prog.wp_mono (Prog.wp_weaken (fun _ ht => ht.publishing)
    (wp_setSegmentStates hkeep hflag rfl hs state)) ?_
  rintro _ j ⟨hk, hj, -⟩
  refine Prog.wp_mono (Prog.wp_weaken (fun _ hu => hu.trans hk)
    (wp_publishSegmentStates hj.toStaged)) fun bi t ht => ⟨ht.1, j, hk, hj, ht.2⟩

/-! ## The commit after the barrier -/

theorem Published.copied (h : Published i e c b t) (harr : Arrays i e c b) :
    Keeps i (copyDirtyLines (nextEpoch e % 2) t) ∧
      Arrays (copyDirtyLines (nextEpoch e % 2) t) (nextEpoch e) b b := by
  refine ⟨h.keeps.trans (keeps_copyDirtyLines _ t), ?_⟩
  obtain ⟨p, hp, rfl⟩ := h.prepared
  exact arrays_committedImage harr hp

/-! ## Mounting an image again -/

/-- A mapped image that a load reads as `img`, with nothing on the way to the medium. -/
structure Mounted (n nb : Nat) (img : NvmImage) (i : CheckpointImage) : Prop where
  nrMain : i.nrMain = n
  nrBack : i.nrBack = nb
  mainToBack : i.mainToBack = openMainToBack img nb
  load : ∀ l, i.mem.load l = img l
  settled : ∀ l, (i.mem l).Settled

theorem mounted_openImage (n nb : Nat) (img : NvmImage) : Mounted n nb img (openImage n nb img) :=
  ⟨rfl, rfl, rfl, fun _ => rfl, fun _ => rfl⟩

theorem Mounted.reset (h : Mounted n nb img i) (e : Nat) :
    Mounted n nb (withEpoch e img) (storeFence (storeEpoch e i)) where
  nrMain := h.nrMain
  nrBack := h.nrBack
  mainToBack := h.mainToBack
  load l := by
    by_cases hl : l = .committedEpoch
    · subst hl
      exact load_storeEpoch_fence e i
    · rw [withEpoch_of_ne e img hl, ← h.load l]
      exact (drains_storeEpoch_fence e hl).cur
  settled l := by
    by_cases hl : l = .committedEpoch
    · subst hl
      exact settled_storeEpoch_fence e i
    · exact (drains_storeEpoch_fence e hl).settled (h.settled l)

theorem Mounted.copied (h : Mounted n nb img i) (c : Nat → SegmentState) :
    Copied n nb img c [] i where
  nrMain := h.nrMain
  nrBack := h.nrBack
  mainToBack := h.mainToBack
  attributes := h.load _
  attributesSettled := h.settled _
  bound _ := h.load _
  boundSettled _ := h.settled _
  pending _ _ _ := (h.settled _).pending
  main _ s o _ := by
    rw [h.load]
    cases hb : openMainToBack img nb s with
    | none => simp [recoveredMain, hb]
    | some b => simp
  back _ b _ s _ o _ := by
    rw [h.load]
    simp

theorem Mounted.recovering (h : Mounted n nb img i) (toState : SegmentState)
    (hc : Committed n img e c) :
    Recovering n nb img toState e c [] { i with segmentStateUpdate := true } where
  toCopied := (h.copied c).keeps (keeps_of_eq rfl rfl rfl fun _ _ => rfl)
  staged := {
    epoch := (h.load _).trans hc.1
    epochSettled := h.settled _
    state := fun s hs => (h.load _).trans (hc.2 s (h.nrMain ▸ hs))
    stateSettled := fun s _ => h.settled _
    other := fun s _ => by
      have hno : ¬ Handled img toState c [] s := by simp [Handled]
      rw [recoveryBatch, if_neg hno, otherState, hc.1]
      exact h.load _
    draining := fun s _ => Or.inr (h.settled _).pending }
  update := rfl
  flagged s hs := by simp [Handled] at hs

theorem Mounted.recovered (h : Mounted n nb img i) (toState : SegmentState)
    (hrange : OwnersInRange n nb img) (hc : Committed n img e c) :
    ∃ t, (recovery toState).run i = some ((), t) ∧ Recovered n nb img toState e c t := by
  obtain ⟨t, ht⟩ := recovery_returns toState i
  have hrec := Prog.run_of_wp (wp_recovery_of toState hrange (h.recovering toState hc)) ht
  exact ⟨t, ht, hrec⟩

end Libcrpm.CheckpointImage
