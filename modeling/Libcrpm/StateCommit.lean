import Libcrpm.Checkpoint

/-!
# The segment-state commit

What a crash can leave of the two state arrays while segment states are written and
committed.  `Staged` describes an image with an open batch; a commit moves it from one
committed assignment of states to the next, and nothing in between is visible.
`Arrays` adds what keeps the array left behind up to date.
-/

namespace Libcrpm.CheckpointImage

open Libcrpm.Persistence Libcrpm.Program

theorem nextEpoch_mod (e : Nat) : nextEpoch e % 2 = 1 - e % 2 := by
  unfold nextEpoch
  omega

theorem nextEpoch_ne (e : Nat) : nextEpoch e ≠ e := by
  unfold nextEpoch
  omega

/-! ## Frames -/

/-- The locations a state commit does not write. -/
def IsData : Loc → Prop
  | .committedEpoch => False
  | .segmentState _ _ => False
  | _ => True

@[simp] theorem isData_attributes : IsData .attributes := trivial
@[simp] theorem isData_backToMain (b : Nat) : IsData (.backToMain b) := trivial
@[simp] theorem isData_word (area : Area) (s o : Nat) : IsData (.word area s o) := trivial

/-- `t` has the bindings and data of `i`, up to what flushes and fences do to them. -/
structure Keeps (i t : CheckpointImage) : Prop where
  nrMain : t.nrMain = i.nrMain
  nrBack : t.nrBack = i.nrBack
  mainToBack : t.mainToBack = i.mainToBack
  data : ∀ l, IsData l → (i.mem l).DrainsTo (t.mem l)

theorem Keeps.refl (i : CheckpointImage) : Keeps i i := ⟨rfl, rfl, rfl, fun _ _ => .refl _⟩

theorem Keeps.trans {i t u : CheckpointImage} (h : Keeps i t) (h' : Keeps t u) : Keeps i u where
  nrMain := h'.nrMain.trans h.nrMain
  nrBack := h'.nrBack.trans h.nrBack
  mainToBack := h'.mainToBack.trans h.mainToBack
  data l hl := (h.data l hl).trans (h'.data l hl)

theorem Keeps.load {i t : CheckpointImage} (h : Keeps i t) {l : Loc} (hl : IsData l) :
    t.mem.load l = i.mem.load l :=
  (h.data l hl).cur

theorem keeps_of_eq {i t : CheckpointImage} (hm : t.nrMain = i.nrMain) (hb : t.nrBack = i.nrBack)
    (hbind : t.mainToBack = i.mainToBack) (hd : ∀ l, IsData l → t.mem l = i.mem l) :
    Keeps i t :=
  ⟨hm, hb, hbind, fun l hl => hd l hl ▸ .refl _⟩

theorem keeps_of_drains {i : CheckpointImage} {f : Nvm → Nvm} (h : i.mem.Drains (f i.mem)) :
    Keeps i (onMem f i) :=
  ⟨rfl, rfl, rfl, fun l _ => h l⟩

theorem keeps_flush (sel : Loc → Bool) (i : CheckpointImage) : Keeps i (flush sel i) :=
  keeps_of_drains (f := fun m => m.flushAll sel) (Memory.drains_flushAll _ _)

theorem keeps_storeFence (i : CheckpointImage) : Keeps i (storeFence i) :=
  keeps_of_drains (f := Memory.fence) (Memory.drains_fence _)

/-! ## The arrays of a running image -/

/-- The medium holds the committed states `c` under epoch `e`. -/
def Committed (n : Nat) (img : NvmImage) (e : Nat) (c : Nat → SegmentState) : Prop :=
  img .committedEpoch = e ∧ ∀ s < n, img (.segmentState (e % 2) s) = c s

/-- The epoch and the current array are durable. -/
structure Current (i : CheckpointImage) (e : Nat) (c : Nat → SegmentState) : Prop where
  epoch : i.mem.load .committedEpoch = e
  epochSettled : (i.mem .committedEpoch).Settled
  state : ∀ s < i.nrMain, i.mem.load (.segmentState (e % 2) s) = c s
  stateSettled : ∀ s < i.nrMain, (i.mem (.segmentState (e % 2) s)).Settled

/-- The other array holds the batch `b`; a record that the next commit will not flush
is already on its way to the medium. -/
structure Staged (i : CheckpointImage) (e : Nat) (c b : Nat → SegmentState) : Prop
    extends Current i e c where
  other : ∀ s < i.nrMain, i.mem.load (.segmentState (1 - e % 2) s) = b s
  draining : ∀ s < i.nrMain, i.segmentStateDirty (s / kRecordsPerCacheLine) = true ∨
    (i.mem (.segmentState (1 - e % 2) s)).Pending

/-- The arrays differ only where the next commit copies the line. -/
structure Arrays (i : CheckpointImage) (e : Nat) (c b : Nat → SegmentState) : Prop
    extends Staged i e c b where
  inStep : ∀ s < i.nrMain, i.segmentStateDirty (s / kRecordsPerCacheLine) = true ∨ b s = c s

theorem Current.committed {i : CheckpointImage} {e : Nat} {c : Nat → SegmentState}
    (h : Current i e c) {img : NvmImage} (hc : i.mem.CrashTo img) :
    Committed i.nrMain img e c := by
  refine ⟨?_, fun s hs => ?_⟩
  · exact (h.epochSettled.eq (hc .committedEpoch)).trans h.epoch
  · exact ((h.stateSettled s hs).eq (hc _)).trans (h.state s hs)

theorem Current.of_drains {i t : CheckpointImage} {e : Nat} {c : Nat → SegmentState}
    (h : Current i e c) (hn : t.nrMain = i.nrMain)
    (hepoch : (i.mem .committedEpoch).DrainsTo (t.mem .committedEpoch))
    (hstate : ∀ s < i.nrMain,
      (i.mem (.segmentState (e % 2) s)).DrainsTo (t.mem (.segmentState (e % 2) s))) :
    Current t e c where
  epoch := hepoch.cur.trans h.epoch
  epochSettled := hepoch.settled h.epochSettled
  state s hs := (hstate s (hn ▸ hs)).cur.trans (h.state s (hn ▸ hs))
  stateSettled s hs := (hstate s (hn ▸ hs)).settled (h.stateSettled s (hn ▸ hs))

theorem Current.of_eq {i t : CheckpointImage} {e : Nat} {c : Nat → SegmentState}
    (h : Current i e c) (hn : t.nrMain = i.nrMain)
    (hepoch : t.mem .committedEpoch = i.mem .committedEpoch)
    (hstate : ∀ s < i.nrMain,
      t.mem (.segmentState (e % 2) s) = i.mem (.segmentState (e % 2) s)) : Current t e c :=
  h.of_drains hn (hepoch ▸ .refl _) fun s hs => hstate s hs ▸ .refl _

theorem Staged.of_drains {i t : CheckpointImage} {e : Nat} {c b : Nat → SegmentState}
    (h : Staged i e c b) (hn : t.nrMain = i.nrMain)
    (hm : ∀ l, ¬ IsData l → (i.mem l).DrainsTo (t.mem l))
    (hd : t.segmentStateDirty = i.segmentStateDirty) : Staged t e c b where
  toCurrent := h.toCurrent.of_drains hn (hm _ id) fun s _ => hm _ id
  other s hs := (hm _ id).cur.trans (h.other s (hn ▸ hs))
  draining s hs := by
    rw [hd]
    exact (h.draining s (hn ▸ hs)).imp_right (hm _ id).pending

theorem Arrays.of_drains {i t : CheckpointImage} {e : Nat} {c b : Nat → SegmentState}
    (h : Arrays i e c b) (hn : t.nrMain = i.nrMain)
    (hm : ∀ l, ¬ IsData l → (i.mem l).DrainsTo (t.mem l))
    (hd : t.segmentStateDirty = i.segmentStateDirty) : Arrays t e c b where
  toStaged := h.toStaged.of_drains hn hm hd
  inStep s hs := by
    rw [hd]
    exact h.inStep s (hn ▸ hs)

theorem Staged.of_eq {i t : CheckpointImage} {e : Nat} {c b : Nat → SegmentState}
    (h : Staged i e c b) (hn : t.nrMain = i.nrMain)
    (hm : ∀ l, ¬ IsData l → t.mem l = i.mem l)
    (hd : t.segmentStateDirty = i.segmentStateDirty) : Staged t e c b :=
  h.of_drains hn (fun l hl => hm l hl ▸ .refl _) hd

theorem Arrays.of_eq {i t : CheckpointImage} {e : Nat} {c b : Nat → SegmentState}
    (h : Arrays i e c b) (hn : t.nrMain = i.nrMain)
    (hm : ∀ l, ¬ IsData l → t.mem l = i.mem l)
    (hd : t.segmentStateDirty = i.segmentStateDirty) : Arrays t e c b :=
  h.of_drains hn (fun l hl => hm l hl ▸ .refl _) hd

theorem Staged.congr {i : CheckpointImage} {e : Nat} {c b b' : Nat → SegmentState}
    (h : Staged i e c b) (hb : ∀ s < i.nrMain, b' s = b s) : Staged i e c b' where
  toCurrent := h.toCurrent
  other s hs := (h.other s hs).trans (hb s hs).symm
  draining := h.draining

theorem Arrays.congr {i : CheckpointImage} {e : Nat} {c c' b b' : Nat → SegmentState}
    (h : Arrays i e c b) (hc : ∀ s < i.nrMain, c' s = c s) (hb : ∀ s < i.nrMain, b' s = b s) :
    Arrays i e c' b' where
  epoch := h.epoch
  epochSettled := h.epochSettled
  state s hs := (h.state s hs).trans (hc s hs).symm
  stateSettled := h.stateSettled
  other s hs := (h.other s hs).trans (hb s hs).symm
  draining := h.draining
  inStep s hs := by
    rw [hc s hs, hb s hs]
    exact h.inStep s hs

theorem Current.biEpoch {i : CheckpointImage} {e : Nat} {c : Nat → SegmentState}
    (h : Current i e c) : i.biEpoch = e % 2 := by
  rw [CheckpointImage.biEpoch, committedEpoch, h.epoch]

theorem Current.getSegmentState {i : CheckpointImage} {e : Nat} {c : Nat → SegmentState}
    (h : Current i e c) {s : Nat} (hs : s < i.nrMain) : i.getSegmentState s = c s := by
  rw [CheckpointImage.getSegmentState, h.biEpoch, h.state s hs]

theorem Committed.self {n : Nat} {img : NvmImage} {e : Nat} {c : Nat → SegmentState}
    (h : Committed n img e c) : Committed n img (img .committedEpoch) c := by
  rwa [h.1]

theorem Arrays.self {t : CheckpointImage} {e : Nat} {c b : Nat → SegmentState}
    (h : Arrays t e c b) : Arrays t t.committedEpoch c b := by
  rwa [committedEpoch, h.epoch]

theorem ne_other (e s s' : Nat) :
    Loc.segmentState (e % 2) s ≠ Loc.segmentState (1 - e % 2) s' := by
  intro h
  injection h with hbi
  omega

/-! ## Writing a batch -/

theorem mem_writeRecord (bi s : Nat) (state : SegmentState) (i : CheckpointImage) :
    (writeRecord bi s state i).mem = i.mem.store (.segmentState bi s) state := rfl

theorem writeRecord_of_ne {bi s : Nat} (state : SegmentState) (i : CheckpointImage) {l : Loc}
    (hl : l ≠ .segmentState bi s) : (writeRecord bi s state i).mem l = i.mem l :=
  Memory.store_of_ne _ _ hl

theorem keeps_writeRecord (bi s : Nat) (state : SegmentState) (i : CheckpointImage) :
    Keeps i (writeRecord bi s state i) := by
  refine keeps_of_eq rfl rfl rfl fun l hl => writeRecord_of_ne state i ?_
  rintro rfl
  exact hl

theorem staged_writeRecord {i : CheckpointImage} {e : Nat} {c b : Nat → SegmentState}
    (h : Staged i e c b) (s : Nat) (state : SegmentState) :
    Staged (writeRecord (1 - e % 2) s state i) e c (Function.update b s state) where
  toCurrent := h.toCurrent.of_eq rfl (writeRecord_of_ne state i (by simp))
    fun s' _ => writeRecord_of_ne state i (ne_other e s' s)
  other s' hs' := by
    by_cases hss : s' = s
    · subst hss
      simp [mem_writeRecord, Memory.load, Memory.store_self]
    · rw [Function.update_of_ne hss, ← h.other s' hs', Memory.load, Memory.load, mem_writeRecord,
        Memory.store_of_ne _ _ (by simpa using hss)]
  draining s' hs' := by
    by_cases hline : s' / kRecordsPerCacheLine = s / kRecordsPerCacheLine
    · left
      simp [writeRecord, hline]
    · have hss : Loc.segmentState (1 - e % 2) s' ≠ .segmentState (1 - e % 2) s := by
        intro h
        injection h with _ hss
        exact hline (by rw [hss])
      rw [writeRecord_of_ne state i hss]
      exact (h.draining s' hs').imp_left fun hflag => by
        simp [writeRecord, Function.update_of_ne hline, hflag]

theorem wp_beginSegmentStateUpdate {C : CheckpointImage → Prop}
    {Q : Unit → CheckpointImage → Prop} {i : CheckpointImage} :
    Prog.wp C beginSegmentStateUpdate Q i ↔
      C { i with segmentStateUpdate := true } ∧ Q () { i with segmentStateUpdate := true } := by
  simp [beginSegmentStateUpdate]

theorem arrays_update {i : CheckpointImage} {e : Nat} {c b : Nat → SegmentState}
    (h : Arrays i e c b) (u : Bool) : Arrays { i with segmentStateUpdate := u } e c b :=
  h.of_eq rfl (fun _ _ => rfl) rfl

structure Staging (i : CheckpointImage) (e : Nat) (c : Nat → SegmentState)
    (t : CheckpointImage) : Prop where
  current : Current t e c
  keeps : Keeps i t

theorem Staging.committed {i t : CheckpointImage} {e : Nat} {c : Nat → SegmentState}
    (h : Staging i e c t) {img : NvmImage} (hc : t.mem.CrashTo img) :
    Committed i.nrMain img e c := by
  have hcom := h.current.committed hc
  rwa [h.keeps.nrMain] at hcom

/-- How far a call of `setSegmentState` moves a batch. -/
structure Written (i : CheckpointImage) (b : Nat → SegmentState) (s : Nat)
    (state : SegmentState) (t : CheckpointImage) : Prop where
  update : t.segmentStateUpdate = true
  flags : ∀ line, i.segmentStateDirty line = true → t.segmentStateDirty line = true
  flagged : t.segmentStateDirty (s / kRecordsPerCacheLine) = true ∨ b s = state

theorem wp_setSegmentState_staged {i₀ i : CheckpointImage} {e : Nat}
    {c b : Nat → SegmentState} (hk : Keeps i₀ i) (h : Staged i e c b)
    (hu : i.segmentStateUpdate = true) {s : Nat} (hs : s < i.nrMain) (state : SegmentState) :
    Prog.wp (Staging i₀ e c) (setSegmentState s state)
      (fun _ t => Keeps i₀ t ∧ Staged t e c (Function.update b s state) ∧
        t.nrMain = i.nrMain ∧ Written i b s state t) i := by
  have hstay : Staging i₀ e c i := ⟨h.toCurrent, hk⟩
  simp only [setSegmentState, Prog.wp_bind, Prog.wp_read, hu, if_true]
  refine ⟨hstay, hstay, hstay, ?_⟩
  rw [h.biEpoch, h.other s hs]
  split
  · rename_i heq
    rw [← heq, Function.update_eq_self]
    exact Prog.wp_pure.mpr ⟨hk, h, rfl, hu, fun _ => id, Or.inr rfl⟩
  · rw [Prog.wp_act]
    have hkw := hk.trans (keeps_writeRecord (1 - e % 2) s state i)
    have ha := staged_writeRecord h s state
    refine ⟨⟨ha.toCurrent, hkw⟩, hkw, ha, rfl, hu, fun line hline => ?_, Or.inl ?_⟩
    · simp only [writeRecord, Function.update_apply]
      split
      · rfl
      · exact hline
    · simp [writeRecord]

theorem Written.arrays {i t : CheckpointImage} {e : Nat} {c b : Nat → SegmentState} {s : Nat}
    {state : SegmentState} (hw : Written i b s state t) (h : Arrays i e c b)
    (hn : t.nrMain = i.nrMain) (ht : Staged t e c (Function.update b s state)) :
    Arrays t e c (Function.update b s state) := by
  refine ⟨ht, fun s' hs' => ?_⟩
  have hstep := (h.inStep s' (hn ▸ hs')).imp_left (hw.flags _)
  by_cases hss : s' = s
  · subst hss
    rw [Function.update_self]
    rcases hw.flagged with hflag | heq
    · exact Or.inl hflag
    · exact heq ▸ hstep
  · rw [Function.update_of_ne hss]
    exact hstep

theorem wp_setSegmentState {i₀ i : CheckpointImage} {e : Nat} {c b : Nat → SegmentState}
    (hk : Keeps i₀ i) (h : Arrays i e c b) (hu : i.segmentStateUpdate = true) {s : Nat}
    (hs : s < i.nrMain) (state : SegmentState) :
    Prog.wp (Staging i₀ e c) (setSegmentState s state)
      (fun _ t => Keeps i₀ t ∧ Arrays t e c (Function.update b s state) ∧
        t.segmentStateUpdate = true) i := by
  refine Prog.wp_mono (wp_setSegmentState_staged hk h.toStaged hu hs state) ?_
  intro _ t ⟨hkt, ht, hn, hw⟩
  exact ⟨hkt, hw.arrays h hn ht, hw.update⟩

def setAll (b : Nat → SegmentState) (segments : List Nat) (state : SegmentState) :
    Nat → SegmentState :=
  fun s => if s ∈ segments then state else b s

@[simp] theorem setAll_nil (b : Nat → SegmentState) (state : SegmentState) :
    setAll b [] state = b := by
  funext s
  simp [setAll]

theorem setAll_append_singleton (b : Nat → SegmentState) (segments : List Nat) (s : Nat)
    (state : SegmentState) :
    setAll b (segments ++ [s]) state = Function.update (setAll b segments state) s state := by
  funext s'
  by_cases h : s' = s
  · simp [setAll, h]
  · simp [setAll, h]

theorem wp_setSegmentStates {i₀ i : CheckpointImage} {e : Nat} {c b : Nat → SegmentState}
    (hk : Keeps i₀ i) (h : Arrays i e c b) (hu : i.segmentStateUpdate = true)
    {segments : List Nat} (hs : ∀ s ∈ segments, s < i₀.nrMain) (state : SegmentState) :
    Prog.wp (Staging i₀ e c) (Prog.forEach segments fun s => setSegmentState s state)
      (fun _ t => Keeps i₀ t ∧ Arrays t e c (setAll b segments state) ∧
        t.segmentStateUpdate = true) i := by
  refine Prog.wp_forEach (fun done t => Keeps i₀ t ∧ Arrays t e c (setAll b done state) ∧
    t.segmentStateUpdate = true) ⟨hk, by simpa using h, hu⟩ ?_ fun t ht => ht
  intro done s rest t hl ⟨hkt, hat, hut⟩
  have hlt : s < t.nrMain := by
    rw [hkt.nrMain]
    exact hs s (by simp [hl])
  rw [setAll_append_singleton]
  exact wp_setSegmentState hkt hat hut hlt state

/-! ## Committing a batch -/

/-- The medium after the commit: the batch under the next epoch, and every data
location that the fence of the commit drained. -/
structure NewImage (i : CheckpointImage) (e : Nat) (b : Nat → SegmentState) (img : NvmImage) :
    Prop where
  committed : Committed i.nrMain img (nextEpoch e) b
  drained : ∀ l, IsData l → (i.mem l).Pending → img l = i.mem.load l

/-- A crash inside a commit shows the old states or the new ones. -/
structure Committing (i : CheckpointImage) (e : Nat) (c b : Nat → SegmentState)
    (t : CheckpointImage) : Prop where
  keeps : Keeps i t
  crash : ∀ img, t.mem.CrashTo img → Committed i.nrMain img e c ∨ NewImage i e b img

theorem Staging.committing {i t : CheckpointImage} {e : Nat} {c b : Nat → SegmentState}
    (h : Staging i e c t) : Committing i e c b t :=
  ⟨h.keeps, fun _ hc => Or.inl (h.committed hc)⟩

theorem storeEpoch_committedEpoch (e : Nat) (i : CheckpointImage) :
    (storeEpoch e i).mem .committedEpoch = (i.mem .committedEpoch).ntStore e := rfl

theorem storeEpoch_of_ne (e : Nat) (i : CheckpointImage) {l : Loc} (hl : l ≠ .committedEpoch) :
    (storeEpoch e i).mem l = i.mem l := by
  cases l with
  | committedEpoch => exact absurd rfl hl
  | _ => rfl

theorem keeps_storeEpoch (e : Nat) (i : CheckpointImage) : Keeps i (storeEpoch e i) := by
  refine keeps_of_eq rfl rfl rfl fun l hl => storeEpoch_of_ne e i ?_
  rintro rfl
  exact hl

theorem keeps_copyDirtyLines (bi : Nat) (i : CheckpointImage) : Keeps i (copyDirtyLines bi i) := by
  refine keeps_of_eq rfl rfl rfl fun l hl => ?_
  cases l with
  | segmentState => exact absurd hl id
  | _ => rfl

theorem dirtyLines_segmentState (i : CheckpointImage) (bi s : Nat) (hs : s < i.nrMain) :
    dirtyLines i bi (.segmentState bi s) = i.segmentStateDirty (s / kRecordsPerCacheLine) := by
  have hline : s / kRecordsPerCacheLine * kRecordsPerCacheLine < i.nrMain := by
    rw [kRecordsPerCacheLine_eq]
    omega
  simp [dirtyLines, hline]

theorem settled_other_fence {i : CheckpointImage} {e : Nat} {c b : Nat → SegmentState}
    (h : Staged i e c b) {s : Nat} (hs : s < i.nrMain) :
    ((storeFence (flush (dirtyLines i (1 - e % 2)) i)).mem
      (.segmentState (1 - e % 2) s)).Settled := by
  apply Cell.Pending.settled_fence
  simp only [flush, onMem, Memory.flushAll, dirtyLines_segmentState i _ s hs]
  rcases h.draining s hs with hflag | hpending
  · simp [hflag]
  · split
    · exact Cell.pending_flush _
    · exact hpending

/-- The image between the two fences of a commit of `b`. -/
structure Prepared (i : CheckpointImage) (e : Nat) (c b : Nat → SegmentState)
    (t : CheckpointImage) : Prop extends Staging i e c t where
  drained : ∀ l, IsData l → (i.mem l).Pending → (t.mem l).Settled
  batch : ∀ s < i.nrMain, t.mem.load (.segmentState (1 - e % 2) s) = b s
  batchSettled : ∀ s < i.nrMain, (t.mem (.segmentState (1 - e % 2) s)).Settled
  dirty : t.segmentStateDirty = i.segmentStateDirty

theorem prepared {i : CheckpointImage} {e : Nat} {c b : Nat → SegmentState}
    (h : Staged i e c b) :
    Prepared i e c b (storeFence (flush (dirtyLines i (1 - e % 2)) i)) := by
  have hd : i.mem.Drains (storeFence (flush (dirtyLines i (1 - e % 2)) i)).mem :=
    (Memory.drains_flushAll _ _).trans (Memory.drains_fence _)
  constructor
  · exact ⟨h.toCurrent.of_drains rfl (hd _) fun s _ => hd _,
      (keeps_flush _ _).trans (keeps_storeFence _)⟩
  · intro l _ hp
    exact ((Memory.drains_flushAll i.mem _ l).pending hp).settled_fence
  · intro s hs
    exact (hd _).cur.trans (h.other s hs)
  · exact fun s hs => settled_other_fence h hs
  · rfl

theorem newImage_of_prepared {i t u : CheckpointImage} {e : Nat} {c b : Nat → SegmentState}
    (h : Prepared i e c b t) {img : NvmImage} (hc : u.mem.CrashTo img)
    (hu : ∀ l, l ≠ .committedEpoch → (∀ s, l ≠ .segmentState (e % 2) s) →
      (t.mem l).DrainsTo (u.mem l))
    (he : img .committedEpoch = nextEpoch e) : NewImage i e b img := by
  refine ⟨⟨he, fun s hs => ?_⟩, fun l hl hp => ?_⟩
  · have hbatch := hu (.segmentState (1 - e % 2) s) (by simp)
      fun s' h' => ne_other e s' s h'.symm
    rw [nextEpoch_mod, (hbatch.settled (h.batchSettled s hs)).eq (hc _), hbatch.cur]
    exact h.batch s hs
  · have hdata := hu l (by rintro rfl; exact hl) (by rintro s rfl; exact hl)
    rw [(hdata.settled (h.drained l hl hp)).eq (hc l), hdata.cur]
    exact h.keeps.load hl

theorem committing_storeEpoch {i t : CheckpointImage} {e : Nat} {c b : Nat → SegmentState}
    (h : Prepared i e c b t) : Committing i e c b (storeEpoch (nextEpoch e) t) := by
  refine ⟨h.keeps.trans (keeps_storeEpoch _ _), fun img hc => ?_⟩
  have hmay := hc .committedEpoch
  rw [storeEpoch_committedEpoch, Cell.may_ntStore] at hmay
  rcases hmay with hnew | hold
  · refine Or.inr (newImage_of_prepared h hc (fun l hl _ => ?_) hnew)
    rw [storeEpoch_of_ne _ _ hl]
    exact .refl _
  · refine Or.inl ⟨(h.current.epochSettled.eq hold).trans h.current.epoch, fun s hs => ?_⟩
    have hmay := hc (.segmentState (e % 2) s)
    rw [storeEpoch_of_ne _ _ (by simp)] at hmay
    rw [← h.keeps.nrMain] at hs
    exact ((h.current.stateSettled s hs).eq hmay).trans (h.current.state s hs)

theorem drains_storeEpoch_fence {t : CheckpointImage} (e : Nat) {l : Loc}
    (hl : l ≠ .committedEpoch) :
    (t.mem l).DrainsTo ((storeFence (storeEpoch e t)).mem l) := by
  rw [← storeEpoch_of_ne e t hl]
  exact Cell.drainsTo_fence _

theorem settled_storeEpoch_fence (e : Nat) (t : CheckpointImage) :
    ((storeFence (storeEpoch e t)).mem .committedEpoch).Settled := by
  apply Cell.Pending.settled_fence
  rw [storeEpoch_committedEpoch]
  exact Cell.pending_ntStore _ _

theorem load_storeEpoch_fence (e : Nat) (t : CheckpointImage) :
    (storeFence (storeEpoch e t)).mem.load .committedEpoch = e := by
  change ((storeEpoch e t).mem .committedEpoch).fence.cur = e
  rw [storeEpoch_committedEpoch]
  rfl

theorem copyDirtyLines_segmentState (bi : Nat) (i : CheckpointImage) (bi' s : Nat) :
    (copyDirtyLines bi i).mem (.segmentState bi' s) =
      if dirtyLines i (1 - bi) (.segmentState bi' s) then
        (i.mem (.segmentState bi' s)).ntStore (i.mem.load (.segmentState bi s))
      else i.mem (.segmentState bi' s) := by
  simp only [copyDirtyLines, Memory.ntStoreAll]
  split <;> simp_all

theorem copyDirtyLines_of_ne (bi : Nat) (i : CheckpointImage) {l : Loc}
    (hl : ∀ s, l ≠ .segmentState (1 - bi) s) : (copyDirtyLines bi i).mem l = i.mem l := by
  cases l with
  | segmentState bi' s =>
      have hne : bi' ≠ 1 - bi := by
        rintro rfl
        exact hl s rfl
      simp [copyDirtyLines_segmentState, dirtyLines, hne]
  | _ => rfl

theorem copyDirtyLines_clean (bi : Nat) (i : CheckpointImage) {s : Nat} (hs : s < i.nrMain)
    (hclean : i.segmentStateDirty (s / kRecordsPerCacheLine) = false) :
    (copyDirtyLines bi i).mem (.segmentState (1 - bi) s) = i.mem (.segmentState (1 - bi) s) := by
  simp [copyDirtyLines_segmentState, dirtyLines_segmentState i _ s hs, hclean]

theorem copyDirtyLines_dirty (bi : Nat) (i : CheckpointImage) {s : Nat} (hs : s < i.nrMain)
    (hdirty : i.segmentStateDirty (s / kRecordsPerCacheLine) = true) :
    (copyDirtyLines bi i).mem (.segmentState (1 - bi) s) =
      (i.mem (.segmentState (1 - bi) s)).ntStore (i.mem.load (.segmentState bi s)) := by
  simp [copyDirtyLines_segmentState, dirtyLines_segmentState i _ s hs, hdirty]

/-- The end of a commit whose batch was prepared in `t`. -/
def committedImage (e : Nat) (t : CheckpointImage) : CheckpointImage :=
  copyDirtyLines (nextEpoch e % 2) (storeFence (storeEpoch (nextEpoch e) t))

theorem drains_committedImage (e : Nat) (t : CheckpointImage) {l : Loc}
    (hepoch : l ≠ .committedEpoch) (hl : ∀ s, l ≠ .segmentState (1 - nextEpoch e % 2) s) :
    (t.mem l).DrainsTo ((committedImage e t).mem l) := by
  rw [committedImage, copyDirtyLines_of_ne _ _ hl]
  exact drains_storeEpoch_fence _ hepoch

theorem current_committedImage {i t : CheckpointImage} {e : Nat} {c b : Nat → SegmentState}
    (h : Prepared i e c b t) : Current (committedImage e t) (nextEpoch e) b := by
  have hn : t.nrMain = i.nrMain := h.keeps.nrMain
  have hbatch : ∀ s < i.nrMain, t.mem.load (.segmentState (nextEpoch e % 2) s) = b s ∧
      (t.mem (.segmentState (nextEpoch e % 2) s)).Settled := by
    rw [nextEpoch_mod]
    exact fun s hs => ⟨h.batch s hs, h.batchSettled s hs⟩
  have hd : ∀ s, (t.mem (.segmentState (nextEpoch e % 2) s)).DrainsTo
      ((committedImage e t).mem (.segmentState (nextEpoch e % 2) s)) :=
    fun s => drains_committedImage e t (by simp) fun s' => ne_other _ s s'
  refine ⟨?_, ?_, fun s hs => ?_, fun s hs => ?_⟩
  · rw [Memory.load, committedImage, copyDirtyLines_of_ne _ _ (by simp)]
    exact load_storeEpoch_fence _ _
  · rw [committedImage, copyDirtyLines_of_ne _ _ (by simp)]
    exact settled_storeEpoch_fence _ _
  · exact (hd s).cur.trans (hbatch s (hn ▸ hs)).1
  · exact (hd s).settled (hbatch s (hn ▸ hs)).2

theorem other_committedImage {i t : CheckpointImage} {e : Nat} {c b : Nat → SegmentState}
    (harr : Arrays i e c b) (h : Prepared i e c b t) {s : Nat} (hs : s < i.nrMain) :
    (committedImage e t).mem.load (.segmentState (1 - nextEpoch e % 2) s) = b s ∧
      ((committedImage e t).mem (.segmentState (1 - nextEpoch e % 2) s)).Pending := by
  have hmod := nextEpoch_mod e
  have hback : 1 - nextEpoch e % 2 = e % 2 := by omega
  have hs' : s < (storeFence (storeEpoch (nextEpoch e) t)).nrMain := by
    rw [← h.keeps.nrMain] at hs
    exact hs
  have hdirty : (storeFence (storeEpoch (nextEpoch e) t)).segmentStateDirty =
      i.segmentStateDirty := h.dirty
  rw [Memory.load, committedImage]
  rcases Bool.eq_false_or_eq_true (i.segmentStateDirty (s / kRecordsPerCacheLine)) with
    hflag | hclean
  · rw [copyDirtyLines_dirty _ _ hs' (by rw [hdirty, hflag])]
    refine ⟨?_, Cell.pending_ntStore _ _⟩
    have hcur := (drains_storeEpoch_fence (t := t) (nextEpoch e)
      (show Loc.segmentState (nextEpoch e % 2) s ≠ .committedEpoch by simp)).cur
    rw [Cell.cur_ntStore, Memory.load, hcur, hmod]
    exact h.batch s hs
  · rw [copyDirtyLines_clean _ _ hs' (by rw [hdirty, hclean]), hback]
    have hd := drains_storeEpoch_fence (t := t) (nextEpoch e)
      (show Loc.segmentState (e % 2) s ≠ .committedEpoch by simp)
    rw [← h.keeps.nrMain] at hs
    refine ⟨?_, (hd.settled (h.current.stateSettled s hs)).pending⟩
    have hbc := (harr.inStep s (h.keeps.nrMain ▸ hs)).resolve_left (by simp [hclean])
    rw [hd.cur, hbc]
    exact h.current.state s hs

theorem arrays_committedImage {i t : CheckpointImage} {e : Nat} {c b : Nat → SegmentState}
    (harr : Arrays i e c b) (h : Prepared i e c b t) :
    Arrays (committedImage e t) (nextEpoch e) b b where
  toCurrent := current_committedImage h
  other _ hs := (other_committedImage harr h (h.keeps.nrMain ▸ hs)).1
  draining _ hs := Or.inr (other_committedImage harr h (h.keeps.nrMain ▸ hs)).2
  inStep _ _ := Or.inr rfl

structure Commit (i : CheckpointImage) (e : Nat) (c b : Nat → SegmentState)
    (t : CheckpointImage) : Prop where
  current : Current t (nextEpoch e) b
  arrays : Arrays i e c b → Arrays t (nextEpoch e) b b
  keeps : Keeps i t
  drained : ∀ l, IsData l → (i.mem l).Pending → (t.mem l).Settled

theorem wp_commitSegmentStateUpdate {i : CheckpointImage} {e : Nat} {c b : Nat → SegmentState}
    (h : Staged i e c b) :
    Prog.wp (Committing i e c b) commitSegmentStateUpdate (fun _ t => Commit i e c b t) i := by
  have hprep := prepared h
  have hepoch : nextEpoch i.committedEpoch = nextEpoch e := by rw [committedEpoch, h.epoch]
  simp only [commitSegmentStateUpdate, Prog.wp_bind, Prog.wp_read, Prog.wp_act, hepoch,
    ← nextEpoch_mod] at hprep ⊢
  have hkeeps := (hprep.keeps.trans (keeps_storeEpoch (nextEpoch e) _)).trans
    (keeps_storeFence _)
  have hcopied := hkeeps.trans (keeps_copyDirtyLines (nextEpoch e % 2) _)
  have hstart : Staging i e c i := ⟨h.toCurrent, .refl i⟩
  have hflush : Staging i e c (flush (dirtyLines i (nextEpoch e % 2)) i) := by
    have hd : i.mem.Drains (flush (dirtyLines i (nextEpoch e % 2)) i).mem :=
      Memory.drains_flushAll _ _
    exact ⟨h.toCurrent.of_drains rfl (hd _) fun s _ => hd _, keeps_flush _ _⟩
  -- once the second fence has drained the epoch, only the new states can appear
  have hnew : ∀ (img : NvmImage) (u : CheckpointImage), u.mem.CrashTo img →
      (∀ l, (∀ s, l ≠ .segmentState (e % 2) s) →
        ((storeFence (storeEpoch (nextEpoch e)
          (storeFence (flush (dirtyLines i (nextEpoch e % 2)) i)))).mem l).DrainsTo (u.mem l)) →
      NewImage i e b img := by
    intro img u hc hu
    refine newImage_of_prepared hprep hc (fun l hl hl' => ?_) ?_
    · exact (drains_storeEpoch_fence _ hl).trans (hu l hl')
    · have hd := hu .committedEpoch (by simp)
      rw [(hd.settled (settled_storeEpoch_fence _ _)).eq (hc _), hd.cur]
      exact load_storeEpoch_fence _ _
  refine ⟨hstart.committing, hflush.committing, hprep.toStaging.committing,
    committing_storeEpoch hprep, ⟨hkeeps, fun img hc => ?_⟩, ⟨hcopied, fun img hc => ?_⟩,
    current_committedImage hprep, fun harr => arrays_committedImage harr hprep, hcopied,
    fun l hl hp => ?_⟩
  · exact Or.inr (hnew img _ hc fun l _ => .refl _)
  · refine Or.inr (hnew img _ hc fun l hl => ?_)
    rw [copyDirtyLines_of_ne]
    · exact .refl _
    · have hback : 1 - nextEpoch e % 2 = e % 2 := by
        have hmod := nextEpoch_mod e
        omega
      rw [hback]
      exact hl
  · refine (drains_committedImage e _ ?_ ?_).settled (hprep.drained l hl hp)
    · rintro rfl
      exact hl
    · rintro _ rfl
      exact hl

theorem Committing.trans {i t u : CheckpointImage} {e : Nat} {c b : Nat → SegmentState}
    (h : Committing t e c b u) (hk : Keeps i t) : Committing i e c b u := by
  refine ⟨hk.trans h.keeps, fun img hc => ?_⟩
  rw [← hk.nrMain]
  refine (h.crash img hc).imp_right fun hnew => ⟨hk.nrMain ▸ hnew.committed, fun l hl hp => ?_⟩
  exact (hnew.drained l hl ((hk.data l hl).pending hp)).trans (hk.load hl)

theorem wp_commitBatch {i : CheckpointImage} {e : Nat} {c : Nat → SegmentState}
    (h : Arrays i e c c) {segments : List Nat} (hs : ∀ s ∈ segments, s < i.nrMain)
    (state : SegmentState) :
    Prog.wp (Committing i e c (setAll c segments state)) (commitBatch segments state)
      (fun _ t => Keeps i t ∧
        Arrays t (nextEpoch e) (setAll c segments state) (setAll c segments state)) i := by
  have hflag := arrays_update h true
  have hkeep : Keeps i { i with segmentStateUpdate := true } :=
    keeps_of_eq rfl rfl rfl fun _ _ => rfl
  simp only [commitBatch, Prog.wp_bind, wp_beginSegmentStateUpdate]
  refine ⟨(Staging.mk hflag.toCurrent hkeep).committing, ?_⟩
  refine Prog.wp_mono (Prog.wp_weaken (fun _ ht => ht.committing)
    (wp_setSegmentStates hkeep hflag rfl hs state)) ?_
  rintro _ t ⟨hk, ht, -⟩
  refine Prog.wp_mono (Prog.wp_weaken (fun _ hu => hu.trans hk)
    (wp_commitSegmentStateUpdate ht.toStaged)) fun _ u hu => ?_
  exact ⟨hk.trans hu.keeps, hu.arrays ht⟩

/-! ## The attributes -/

theorem wp_setAttributes {i : CheckpointImage} {C : CheckpointImage → Prop}
    {Q : Unit → CheckpointImage → Prop} (value : Nat)
    (h : ∀ m : Nvm, (∀ l, l ≠ .attributes → (i.mem l).DrainsTo (m l)) →
      C { i with mem := m } ∧ Q () { i with mem := m }) :
    Prog.wp C (setAttributes value) Q i := by
  have hwp : ∀ f : (l : Loc) → Option (Val l), (∀ l, l ≠ .attributes → f l = none) →
      Prog.wp C (Prog.act (onMem fun m => m.ntStoreAll f) >>= fun _ => Prog.act storeFence) Q i := by
    intro f hf
    have hstore : ∀ l, l ≠ .attributes → (i.mem l).DrainsTo (i.mem.ntStoreAll f l) := by
      intro l hl
      rw [Memory.ntStoreAll_none i.mem (hf l hl)]
      exact .refl _
    have hfence := h (i.mem.ntStoreAll f).fence fun l hl =>
      (hstore l hl).trans (Memory.drains_fence _ l)
    rw [Prog.wp_bind]
    exact Prog.wp_act.mpr ⟨(h _ hstore).1, Prog.wp_act.mpr hfence⟩
  refine hwp _ fun l hl => ?_
  cases l with
  | attributes => exact absurd rfl hl
  | _ => rfl

/-! ## The atomic write -/

/-- A crash inside an atomic write shows the old or the new state of the segment. -/
structure AtomicWrite (i : CheckpointImage) (e : Nat) (c : Nat → SegmentState) (s : Nat)
    (state : SegmentState) (t : CheckpointImage) : Prop where
  keeps : Keeps i t
  crash : ∀ img, t.mem.CrashTo img →
    Committed i.nrMain img e c ∨ Committed i.nrMain img e (Function.update c s state)

theorem Current.atomicWrite {i t : CheckpointImage} {e : Nat} {c : Nat → SegmentState} {s : Nat}
    {state : SegmentState} (hk : Keeps i t) (h : Current t e (Function.update c s state)) :
    AtomicWrite i e c s state t := by
  refine ⟨hk, fun img hc => Or.inr ?_⟩
  have hcom := h.committed hc
  rwa [hk.nrMain] at hcom

theorem writeSlot_of_ne {bi s : Nat} (state : SegmentState) (i : CheckpointImage) {l : Loc}
    (hl : l ≠ .segmentState bi s) : (writeSlot bi s state i).mem l = i.mem l :=
  Memory.store_of_ne _ _ hl

theorem writeSlot_self (bi s : Nat) (state : SegmentState) (i : CheckpointImage) :
    (writeSlot bi s state i).mem (.segmentState bi s) = (i.mem (.segmentState bi s)).store state :=
  Memory.store_self _ _ _

theorem keeps_writeSlot (bi s : Nat) (state : SegmentState) (i : CheckpointImage) :
    Keeps i (writeSlot bi s state i) := by
  refine keeps_of_eq rfl rfl rfl fun l hl => writeSlot_of_ne state i ?_
  rintro rfl
  exact hl

def persistSlot (bi s : Nat) (state : SegmentState) (i : CheckpointImage) : CheckpointImage :=
  flush (recordLine bi s) (writeSlot bi s state i)

theorem drains_flush_writeSlot (sel : Loc → Bool) {bi s : Nat} (state : SegmentState)
    (i : CheckpointImage) {l : Loc} (hl : l ≠ .segmentState bi s) :
    (i.mem l).DrainsTo ((flush sel (writeSlot bi s state i)).mem l) := by
  have hd := Memory.drains_flushAll (writeSlot bi s state i).mem sel l
  rw [writeSlot_of_ne state i hl] at hd
  exact hd

theorem persistSlot_self (bi s : Nat) (state : SegmentState) (i : CheckpointImage) :
    (persistSlot bi s state i).mem (.segmentState bi s) =
      ((i.mem (.segmentState bi s)).store state).flush := by
  have hline : recordLine bi s (.segmentState bi s) = true := by simp [recordLine]
  simp only [persistSlot, flush, mem_onMem, Memory.flushAll, hline, if_true]
  rw [writeSlot_self]

theorem current_persistSlot {i : CheckpointImage} {e : Nat} {c : Nat → SegmentState}
    (h : Current i e c) (s : Nat) (state : SegmentState) :
    Current (storeFence (persistSlot (e % 2) s state i)) e (Function.update c s state) := by
  have hd : ∀ l, l ≠ .segmentState (e % 2) s →
      (i.mem l).DrainsTo ((storeFence (persistSlot (e % 2) s state i)).mem l) :=
    fun l hl => (drains_flush_writeSlot _ state i hl).trans (Cell.drainsTo_fence _)
  have hself : (storeFence (persistSlot (e % 2) s state i)).mem (.segmentState (e % 2) s) =
      ((i.mem (.segmentState (e % 2) s)).store state).flush.fence :=
    congrArg Cell.fence (persistSlot_self _ _ _ _)
  refine ⟨(hd _ (by simp)).cur.trans h.epoch, (hd _ (by simp)).settled h.epochSettled,
    fun s' hs' => ?_, fun s' hs' => ?_⟩
  · by_cases hss : s' = s
    · subst hss
      rw [Memory.load, hself, Function.update_self]
      rfl
    · rw [Function.update_of_ne hss]
      exact (hd _ (by simpa using hss)).cur.trans (h.state s' hs')
  · by_cases hss : s' = s
    · subst hss
      rw [hself]
      exact (Cell.pending_flush _).settled_fence
    · exact (hd _ (by simpa using hss)).settled (h.stateSettled s' hs')

/-- The second store of an atomic write brings the other array in step. -/
theorem arrays_persistSlot {i t : CheckpointImage} {e : Nat} {c b : Nat → SegmentState}
    (h : Arrays i e c b) {s : Nat} {state : SegmentState}
    (ht : Current t e (Function.update c s state)) (hn : t.nrMain = i.nrMain)
    (hd : ∀ s', (i.mem (.segmentState (1 - e % 2) s')).DrainsTo
      (t.mem (.segmentState (1 - e % 2) s')))
    (hf : t.segmentStateDirty = i.segmentStateDirty) :
    Arrays (persistSlot (1 - e % 2) s state t) e (Function.update c s state)
      (Function.update b s state) := by
  have hcur : ∀ l, l ≠ .segmentState (1 - e % 2) s →
      (t.mem l).DrainsTo ((persistSlot (1 - e % 2) s state t).mem l) :=
    fun l hl => drains_flush_writeSlot _ state t hl
  have hne : ∀ {s'}, s' ≠ s → Loc.segmentState (1 - e % 2) s' ≠ .segmentState (1 - e % 2) s :=
    fun hss => by simpa using hss
  refine ⟨⟨ht.of_drains rfl (hcur _ (by simp)) fun s' _ => hcur _ (ne_other e s' s),
    fun s' hs' => ?_, fun s' hs' => ?_⟩, fun s' hs' => ?_⟩
  · by_cases hss : s' = s
    · subst hss
      rw [Memory.load, persistSlot_self, Function.update_self]
      rfl
    · rw [Function.update_of_ne hss, ← h.other s' (hn ▸ hs')]
      exact (hcur _ (hne hss)).cur.trans (hd s').cur
  · by_cases hss : s' = s
    · subst hss
      rw [persistSlot_self]
      exact Or.inr (Cell.pending_flush _)
    · refine (h.draining s' (hn ▸ hs')).imp (fun hflag => ?_) fun hp => ?_
      · change t.segmentStateDirty _ = true
        rw [hf, hflag]
      · exact (hcur _ (hne hss)).pending ((hd s').pending hp)
  · by_cases hss : s' = s
    · subst hss
      exact Or.inr (by simp)
    · rw [Function.update_of_ne hss, Function.update_of_ne hss]
      refine (h.inStep s' (hn ▸ hs')).imp_left fun hflag => ?_
      change t.segmentStateDirty _ = true
      rw [hf, hflag]

/-- The first store of an atomic write, before its fence. -/
theorem atomicWrite_store {i t : CheckpointImage} {e : Nat} {c : Nat → SegmentState}
    (h : Current i e c) (s : Nat) (state : SegmentState)
    (ht : (writeSlot (e % 2) s state i).mem.Drains t.mem)
    (hk : Keeps i t) : AtomicWrite i e c s state t := by
  refine ⟨hk, fun img hc => ?_⟩
  have hback := ht.crashTo hc
  have hepoch : img .committedEpoch = e := by
    have hmay := hback .committedEpoch
    rw [writeSlot_of_ne _ _ (by simp)] at hmay
    exact (h.epochSettled.eq hmay).trans h.epoch
  have hother : ∀ s' < i.nrMain, s' ≠ s → img (.segmentState (e % 2) s') = c s' := by
    intro s' hs' hne
    have hmay := hback (.segmentState (e % 2) s')
    rw [writeSlot_of_ne _ _ (by simpa using hne)] at hmay
    exact ((h.stateSettled s' hs').eq hmay).trans (h.state s' hs')
  have hmay := hback (.segmentState (e % 2) s)
  rw [writeSlot_self, Cell.may_store] at hmay
  rcases hmay with hnew | hold
  · refine Or.inr ⟨hepoch, fun s' hs' => ?_⟩
    by_cases hss : s' = s
    · subst hss
      rw [Function.update_self, hnew]
    · rw [Function.update_of_ne hss]
      exact hother s' hs' hss
  · refine Or.inl ⟨hepoch, fun s' hs' => ?_⟩
    by_cases hss : s' = s
    · subst hss
      exact ((h.stateSettled s' hs').eq hold).trans (h.state s' hs')
    · exact hother s' hs' hss

theorem wp_setSegmentStateAtomic {i : CheckpointImage} {e : Nat} {c b : Nat → SegmentState}
    (h : Arrays i e c b) (s : Nat) (state : SegmentState) :
    Prog.wp (AtomicWrite i e c s state) (setSegmentStateAtomic s state)
      (fun _ t => Keeps i t ∧
        Arrays t e (Function.update c s state) (Function.update b s state) ∧
        t.segmentStateUpdate = i.segmentStateUpdate) i := by
  have hcur := h.toCurrent
  have hk₁ := keeps_writeSlot (e % 2) s state i
  have hk₂ : Keeps i (persistSlot (e % 2) s state i) := hk₁.trans (keeps_flush _ _)
  have hk₃ := hk₂.trans (keeps_storeFence _)
  have hk₄ := hk₃.trans (keeps_writeSlot (1 - e % 2) s state _)
  have hk₅ := hk₄.trans (keeps_flush (recordLine (1 - e % 2) s) _)
  have hcur₃ := current_persistSlot hcur s state
  have hcur₄ : Current (writeSlot (1 - e % 2) s state
      (storeFence (persistSlot (e % 2) s state i))) e (Function.update c s state) :=
    hcur₃.of_eq rfl (writeSlot_of_ne _ _ (by simp)) fun s' _ => writeSlot_of_ne _ _ (ne_other e s' s)
  have hlast := arrays_persistSlot h hcur₃ rfl (fun s' =>
    (drains_flush_writeSlot _ state i (ne_other e s s').symm).trans (Cell.drainsTo_fence _)) rfl
  simp only [setSegmentStateAtomic, Prog.wp_bind, Prog.wp_read, Prog.wp_act, hcur.biEpoch]
  refine ⟨⟨.refl i, fun img hc => Or.inl (hcur.committed hc)⟩,
    atomicWrite_store hcur s state (.refl _) hk₁,
    atomicWrite_store hcur s state (Memory.drains_flushAll _ _) hk₂,
    hcur₃.atomicWrite hk₃, hcur₄.atomicWrite hk₄, hlast.atomicWrite hk₅, hk₅, hlast, rfl⟩

end Libcrpm.CheckpointImage
