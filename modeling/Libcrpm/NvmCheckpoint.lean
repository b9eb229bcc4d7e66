import Libcrpm.NvmSections

/-!
# The checkpoint of the NVM engine

A checkpoint that uses the flush lists commits twice: once main memory is durable, with
`SS_Main` for the segments of the lists, and once their back segments are up to date,
with `SS_Back`.  A crash sees the old snapshot until the first commit and the new one
from then on.
-/

namespace Libcrpm.NvmInst

open Libcrpm.Persistence Libcrpm.Program CheckpointImage

variable {n nb : Nat} {X Xn : Snapshot} {e : Nat} {W : Nat → Prop} {c b₁ : Nat → SegmentState}
  {blocks : List Nat} {i j : CheckpointImage} {t u : NvmInst} {P : Prop}

/-- What a checkpoint called in `t` has to preserve. -/
def snapshotOf (t : NvmInst) (W : Nat → Prop) : Snapshot where
  content s o := t.image.mem.load (.word .main s o)
  written := W

/-- Under the epoch `e` a crash leaves the snapshot `X`, under any other epoch `Xn`. -/
def Atomic (n nb : Nat) (X Xn : Snapshot) (e : Nat) (i : CheckpointImage) : Prop :=
  ∀ img, i.mem.CrashTo img →
    (img .committedEpoch = e → ∃ c, Holds n nb X img c) ∧
    (img .committedEpoch ≠ e → ∃ c, Holds n nb Xn img c)

theorem Recoverable.atomic (h : Recoverable n nb X e i) : Atomic n nb X Xn e i := by
  intro img hc
  obtain ⟨he, hold⟩ := h img hc
  exact ⟨fun _ => hold, fun hne => absurd he hne⟩

theorem Recoverable.atomic_new {e' : Nat} (h : Recoverable n nb Xn e' i) (hne : e' ≠ e) :
    Atomic n nb X Xn e i := by
  intro img hc
  obtain ⟨he, hnew⟩ := h img hc
  exact ⟨fun heq => absurd (he.symm.trans heq) hne, fun _ => hnew⟩

/-! ## Main memory is durable -/

/-- The blocks of the flush lists are durable in main memory; the others have not been
written since the last checkpoint. -/
structure Ready (n nb : Nat) (X Xn : Snapshot) (e : Nat) (c : Nat → SegmentState)
    (blocks : List Nat) (dirty touched : Nat → Prop) (i : CheckpointImage) : Prop
    extends Steady n nb X e c dirty touched NoFresh i where
  durable : ∀ s < n, ∀ o < kWordsPerSegment, Xn.written (blockOf s o) →
    (i.mem (.word .main s o)).Only (Xn.content s o)
  inRange : ∀ block ∈ blocks, segmentOf block < n
  bound : ∀ block ∈ blocks, i.mainToBack (segmentOf block) ≠ none
  unlisted : ∀ s < n, ∀ o < kWordsPerSegment, Xn.written (blockOf s o) → blockOf s o ∉ blocks →
    X.written (blockOf s o) ∧ Xn.content s o = X.content s o

/-- The first commit of a checkpoint. -/
def mainStates (c : Nat → SegmentState) (blocks : List Nat) : Nat → SegmentState :=
  setAll c (blocks.map segmentOf) .main

theorem Ready.holds_new {dirty touched : Nat → Prop}
    (h : Ready n nb X Xn e c blocks dirty touched i) {img : NvmImage}
    (hdata : ∀ l, IsData l → (i.mem l).May (img l))
    (hcom : Committed n img (img .committedEpoch) (mainStates c blocks)) :
    Holds n nb Xn img (mainStates c blocks) := by
  have howners := h.toBindings.sameOwners hdata
  refine ⟨h.toBindings.ownersInRange howners, h.toBindings.injOwners howners, hcom,
    fun s hs o ho hw => ?_⟩
  by_cases hlisted : s ∈ blocks.map segmentOf
  · have hmain : recoveredMain nb img (mainStates c blocks) s o = img (.word .main s o) := by
      rw [recoveredMain]
      cases openMainToBack img nb s <;> simp [mainStates, setAll, hlisted]
    rw [hmain]
    exact h.durable s hs o ho hw _ (hdata _ (isData_word .main s o))
  · have hno : blockOf s o ∉ blocks := by
      intro hin
      exact hlisted (List.mem_map.mpr ⟨_, hin, segmentOf_blockOf ho⟩)
    obtain ⟨hold, hcontent⟩ := h.unlisted s hs o ho hw hno
    rw [hcontent]
    exact h.recoveredMain_eq hdata hs ho hold (by simp [mainStates, setAll, hlisted])

theorem Ready.atomic {dirty touched : Nat → Prop}
    (h : Ready n nb X Xn e c blocks dirty touched i)
    (hj : Committing i e c (mainStates c blocks) j) : Atomic n nb X Xn e j := by
  intro img hc
  have hdata := hj.keeps.data_may hc
  have hcrash := hj.crash img hc
  rw [h.nrMain] at hcrash
  rcases hcrash with hold | hnew
  · exact ⟨fun _ => ⟨c, h.holds hdata hold.self fun _ _ _ _ _ => rfl⟩,
      fun hne => absurd hold.1 hne⟩
  · have hcom := hnew.committed
    rw [h.nrMain] at hcom
    exact ⟨fun heq => absurd (hcom.1.symm.trans heq) (nextEpoch_ne e),
      fun _ => ⟨_, h.holds_new hdata hcom.self⟩⟩

/-! ## Between the two commits -/

/-- Main memory holds the new snapshot; the back segments of the listed blocks are being
refilled. -/
structure Midway (n nb : Nat) (Xn : Snapshot) (e : Nat) (b₁ : Nat → SegmentState)
    (blocks : List Nat) (i : CheckpointImage) : Prop extends Bindings n nb i where
  arrays : Arrays i e b₁ b₁
  main : ∀ s < n, ∀ o < kWordsPerSegment, Xn.written (blockOf s o) →
    (i.mem (.word .main s o)).Only (Xn.content s o)
  back : ∀ s b, i.mainToBack s = some b → ∀ o < kWordsPerSegment, Xn.written (blockOf s o) →
    blockOf s o ∉ blocks → (i.mem (.word .back b o)).Only (Xn.content s o)
  listed : ∀ block ∈ blocks, segmentOf block < n ∧ i.mainToBack (segmentOf block) ≠ none
  listedMain : ∀ s ∈ blocks.map segmentOf, b₁ s = .main
  unlistedState : ∀ s < n, s ∉ blocks.map segmentOf → b₁ s = .initial ∨ b₁ s = .back
  unlistedWritten : ∀ s < n, s ∉ blocks.map segmentOf → ∀ o < kWordsPerSegment,
    Xn.written (blockOf s o) → b₁ s ≠ .initial
  allBound : n = nb → ∀ s < n, i.mainToBack s ≠ none

theorem Ready.midway {dirty touched : Nat → Prop}
    (h : Ready n nb X Xn e c blocks dirty touched i) (hk : Keeps i j)
    (ha : Arrays j (nextEpoch e) (mainStates c blocks) (mainStates c blocks)) :
    Midway n nb Xn (nextEpoch e) (mainStates c blocks) blocks j where
  toBindings := h.toBindings.keeps hk
  arrays := ha
  main s hs o ho hw := (hk.data _ (isData_word .main s o)).only (h.durable s hs o ho hw)
  back s b hb o ho hw hno := by
    have hb' : i.mainToBack s = some b := hk.mainToBack ▸ hb
    obtain ⟨hold, hcontent⟩ := h.unlisted s (h.mainToBack_lt hb').2 o ho hw hno
    rw [hcontent]
    exact (hk.data _ (isData_word .back b o)).only (h.back s b hb' id o ho hold)
  listed block hblock := ⟨h.inRange block hblock, hk.mainToBack ▸ h.bound block hblock⟩
  listedMain s hs := by simp only [mainStates, setAll, if_pos hs]
  unlistedState s hs hno := by
    simp only [mainStates, setAll, if_neg hno]
    exact h.states s hs
  unlistedWritten s hs hno o ho hw := by
    have hblock : blockOf s o ∉ blocks := by
      intro hin
      exact hno (List.mem_map.mpr ⟨_, hin, segmentOf_blockOf ho⟩)
    simp only [mainStates, setAll, if_neg hno]
    exact h.written s hs o ho (h.unlisted s hs o ho hw hblock).1
  allBound hnb s hs := hk.mainToBack ▸ h.allBound hnb s hs

/-- What recovery needs of a medium in this phase: main memory and the back segments of
the segments that are not listed. -/
structure MidwayData (n nb : Nat) (Xn : Snapshot) (blocks : List Nat) (i : CheckpointImage)
    (img : NvmImage) : Prop where
  owners : SameOwners nb i img
  main : ∀ s < n, ∀ o < kWordsPerSegment, Xn.written (blockOf s o) →
    img (.word .main s o) = Xn.content s o
  back : ∀ s b, i.mainToBack s = some b → ∀ o < kWordsPerSegment, Xn.written (blockOf s o) →
    blockOf s o ∉ blocks → img (.word .back b o) = Xn.content s o

theorem Midway.data (h : Midway n nb Xn e b₁ blocks i) {img : NvmImage}
    (hdata : ∀ l, IsData l → (i.mem l).May (img l)) : MidwayData n nb Xn blocks i img where
  owners := h.toBindings.sameOwners hdata
  main s hs o ho hw := h.main s hs o ho hw _ (hdata _ (isData_word .main s o))
  back s b hb o ho hw hno := h.back s b hb o ho hw hno _ (hdata _ (isData_word .back b o))

theorem Midway.holds (h : Midway n nb Xn e b₁ blocks i) {img : NvmImage}
    (hdata : MidwayData n nb Xn blocks i img)
    (hcom : Committed n img (img .committedEpoch) b₁) : Holds n nb Xn img b₁ := by
  refine ⟨h.toBindings.ownersInRange hdata.owners, h.toBindings.injOwners hdata.owners, hcom,
    fun s hs o ho hw => ?_⟩
  rw [recoveredMain, h.toBindings.openMainToBack_eq hdata.owners]
  cases hb : i.mainToBack s with
  | none => exact hdata.main s hs o ho hw
  | some b =>
      by_cases hlisted : s ∈ blocks.map segmentOf
      · simp only [h.listedMain s hlisted, reduceCtorEq, if_false]
        exact hdata.main s hs o ho hw
      · have hstate := (h.unlistedState s hs hlisted).resolve_left
          (h.unlistedWritten s hs hlisted o ho hw)
        have hno : blockOf s o ∉ blocks := by
          intro hin
          exact hlisted (List.mem_map.mpr ⟨_, hin, segmentOf_blockOf ho⟩)
        simp only [hstate, if_true]
        exact hdata.back s b hb o ho hw hno

/-- The second commit of a checkpoint. -/
def backStates (b₁ : Nat → SegmentState) (blocks : List Nat) : Nat → SegmentState :=
  setAll b₁ (blocks.map segmentOf) .back

/-- The back segments are up to date, so that the second commit changes nothing. -/
structure Refilled (n nb : Nat) (Xn : Snapshot) (e : Nat) (b₁ : Nat → SegmentState)
    (blocks : List Nat) (i : CheckpointImage) : Prop extends Midway n nb Xn e b₁ blocks i where
  refilled : ∀ s b, i.mainToBack s = some b → ∀ o < kWordsPerSegment,
    Xn.written (blockOf s o) → (i.mem (.word .back b o)).Only (Xn.content s o)

theorem Refilled.steady (h : Refilled n nb Xn e b₁ blocks i) (hk : Keeps i j) {e' : Nat}
    (ha : Arrays j e' (backStates b₁ blocks) (backStates b₁ blocks)) {dirty : Nat → Prop}
    (hdirty : ∀ s < n, dirty s → i.mainToBack s ≠ none) :
    Steady n nb Xn e' (backStates b₁ blocks) dirty (fun _ => False) NoFresh j where
  toBindings := h.toBindings.keeps hk
  arrays := ha
  states s hs := by
    simp only [backStates, setAll]
    split
    · exact Or.inr rfl
    · rename_i hno
      exact h.unlistedState s hs hno
  written s hs o ho hw := by
    simp only [backStates, setAll]
    split
    · simp
    · rename_i hno
      exact h.unlistedWritten s hs hno o ho hw
  back s b hb _ o ho hw :=
    (hk.data _ (isData_word .back b o)).only (h.refilled s b (hk.mainToBack ▸ hb) o ho hw)
  main s hs o ho hw _ := (hk.data _ (isData_word .main s o)).only (h.main s hs o ho hw)
  touchedDirty _ := False.elim
  dirtyBound s hs hd := hk.mainToBack ▸ hdirty s hs hd
  allBound hnb s hs := hk.mainToBack ▸ h.allBound hnb s hs

/-- A crash inside the second commit leaves the new snapshot. -/
theorem Refilled.recoverable (h : Refilled n nb Xn e b₁ blocks i) {img : NvmImage}
    (hj : Committing i e b₁ (backStates b₁ blocks) j) (hc : j.mem.CrashTo img) :
    (img .committedEpoch = e ∨ img .committedEpoch = nextEpoch e) ∧
      ∃ c, Holds n nb Xn img c := by
  have hdata := hj.keeps.data_may hc
  have hcrash := hj.crash img hc
  rw [h.nrMain] at hcrash
  rcases hcrash with hold | hnew
  · exact ⟨Or.inl hold.1, _, h.holds (h.data hdata) hold.self⟩
  · have hcom := hnew.committed
    rw [h.nrMain] at hcom
    refine ⟨Or.inr hcom.1, backStates b₁ blocks, ?_⟩
    have howners := h.toBindings.sameOwners hdata
    refine ⟨h.toBindings.ownersInRange howners, h.toBindings.injOwners howners, hcom.self,
      fun s hs o ho hw => ?_⟩
    rw [recoveredMain, h.toBindings.openMainToBack_eq howners]
    cases hb : i.mainToBack s with
    | none => exact h.main s hs o ho hw _ (hdata _ (isData_word .main s o))
    | some b =>
        have hback := h.refilled s b hb o ho hw _ (hdata _ (isData_word .back b o))
        have hmain := h.main s hs o ho hw _ (hdata _ (isData_word .main s o))
        simp only
        split
        · exact hback
        · exact hmain

/-! ## Before the parallel sections -/

theorem Atomic.drains (h : Atomic n nb X Xn e i) {m : Nvm} (hm : i.mem.Drains m) :
    Atomic n nb X Xn e { i with mem := m } :=
  fun img hc => h img (hm.crashTo hc)

theorem Quiet.content_eq (h : Quiet n nb X e W c t) {s o : Nat} (hs : s < n)
    (ho : o < kWordsPerSegment) (hw : X.written (blockOf s o)) (ht : ¬ Touched t (blockOf s o)) :
    (snapshotOf t W).content s o = X.content s o :=
  (h.steady.main s hs o ho hw ht).cur_eq

theorem Quiet.noAction (h : Quiet n nb X e W c t) (hno : ∀ block, ¬ Touched t block) :
    Quiet n nb (snapshotOf t W) e W c t := by
  have hold : ∀ block, W block → X.written block :=
    fun block hb => (h.accounted block hb).resolve_right (hno block)
  refine { h with steady := { h.steady with
    written := fun s hs o ho hw => h.steady.written s hs o ho (hold _ hw)
    back := fun s b hb hf o ho hw => ?_
    main := fun s hs o ho hw ht => ?_ }, accounted := fun block hb => Or.inl hb }
  · rw [h.content_eq (h.steady.mainToBack_lt hb).2 ho (hold _ hw) (hno _)]
    exact h.steady.back s b hb hf o ho (hold _ hw)
  · rw [h.content_eq hs ho (hold _ hw) ht]
    exact h.steady.main s hs o ho (hold _ hw) ht

theorem wp_addressBufferClearAll (h : Quiet n nb X e W c t) {tid : Nat} (htid : tid < kMaxThreads) :
    Prog.wp (CrashSafe P n nb X e) (addressBufferClearAll tid)
      (fun _ u => Drained n nb X e W c t u ∧ ∀ id < kMaxThreads, u.addressBuffer id = []) t := by
  refine Prog.wp_forEach (fun done u => Drained n nb X e W c t u ∧
    ∀ id ∈ done, u.addressBuffer id = []) ⟨⟨h, rfl, rfl, fun _ hb => hb⟩, by simp⟩ ?_ ?_
  · intro done owner rest u hl ⟨hd, hempty⟩
    have howner : owner < kMaxThreads := by
      have hmem : owner ∈ List.range kMaxThreads := by simp [hl]
      exact List.mem_range.mp hmem
    refine Prog.wp_mono (wp_addressBufferClear hd.quiet htid howner)
      fun _ v ⟨hv, hbuf⟩ => ⟨⟨hv.quiet, hv.image.trans hd.image,
        hv.segmentDirty.trans hd.segmentDirty, fun b hb => hv.touched b (hd.touched b hb)⟩, ?_⟩
    intro id hid
    rw [hbuf]
    rcases List.mem_append.mp hid with hin | hin
    · by_cases hown : id = owner
      · subst hown
        simp
      · rw [Function.update_of_ne hown]
        exact hempty id hin
    · obtain rfl : id = owner := by simpa using hin
      simp
  · intro u ⟨hd, hempty⟩
    exact ⟨hd, fun id hid => hempty id (List.mem_range.mpr hid)⟩

/-- The engine once the leader has chosen a flush mode. -/
structure Begun (n nb : Nat) (X : Snapshot) (e : Nat) (W : Nat → Prop) (c : Nat → SegmentState)
    (t : NvmInst) (mode : FlushMode) (u : NvmInst) : Prop where
  quiet : Quiet n nb X e W c u
  image : u.image = t.image
  flushMode : u.flushMode = mode
  determined : mode = determineFlushMode u
  buffers : ∀ id < kMaxThreads, u.addressBuffer id = []

theorem wp_beginCheckpoint (h : Quiet n nb X e W c t) {tid : Nat} (htid : tid < kMaxThreads) :
    Prog.wp (CrashSafe P n nb X e) (beginCheckpoint tid)
      (fun mode u => Begun n nb X e W c t mode u) t := by
  rw [beginCheckpoint, Prog.wp_bind]
  refine Prog.wp_mono (wp_addressBufferClearAll h htid) fun _ u ⟨hd, hempty⟩ => ?_
  have hq := hd.quiet
  have hsafe : ∀ v : NvmInst, v.image = u.image → CrashSafe P n nb X e v :=
    fun v hv => hq.crashSafe hv
  have hskip : ∀ x : Bool, (x = true → n = nb) → Quiet n nb X e W c { u with
      flushMode := determineFlushMode u, checkpointInProgress := true, skipCopyOnWrite := x } :=
    fun x hx => { hq with skip := hx }
  simp only [Prog.wp_bind, Prog.wp_read, Prog.wp_act]
  refine ⟨hsafe _ rfl, hsafe _ rfl, hsafe _ rfl, ?_⟩
  split
  · exact Prog.wp_pure.mpr ⟨{ hq with }, hd.image, rfl, rfl, hempty⟩
  · simp only [Prog.wp_bind, Prog.wp_act]
    refine ⟨hsafe _ rfl, ?_⟩
    split
    · exact Prog.wp_pure.mpr ⟨hskip false (by simp), hd.image, rfl, rfl, hempty⟩
    · simp only [Prog.wp_bind, Prog.wp_act]
      refine ⟨hsafe _ rfl, Prog.wp_pure.mpr ⟨hskip _ fun hx => ?_, hd.image, rfl, rfl, hempty⟩⟩
      rw [← hq.steady.nrMain, ← hq.steady.nrBack]
      exact of_decide_eq_true hx

theorem Begun.touched_iff {mode : FlushMode} (h : Begun n nb X e W c t mode u) {block : Nat} :
    Touched u block ↔ u.blockDirty.test block = true := by
  refine ⟨fun ht => ht.resolve_right ?_, Or.inl⟩
  rintro ⟨id, hid, addr, hin, -⟩
  rw [h.buffers id hid] at hin
  simp at hin

theorem Begun.noneFull {mode : FlushMode} (h : Begun n nb X e W c t mode u)
    (hmode : mode ≠ .wbinvd) : NoneFull u := by
  have hdet := h.determined
  rw [determineFlushMode] at hdet
  intro id hid
  split at hdet
  · rename_i hall
    have hzero := List.all_eq_true.mp hall id (List.mem_range.mpr hid)
    have hlen : (u.flushBlocks id).length = 0 := of_decide_eq_true hzero
    rw [hlen]
    decide
  · split at hdet
    · exact absurd hdet hmode
    · rename_i hany
      by_contra hfull
      refine hany (List.any_eq_true.mpr ⟨id, List.mem_range.mpr hid, ?_⟩)
      exact decide_eq_true (Nat.le_of_not_lt hfull)

theorem Begun.touched_iff_listed {mode : FlushMode} (h : Begun n nb X e W c t mode u)
    (hmode : mode ≠ .wbinvd) {block : Nat} : Touched u block ↔ block ∈ u.listedBlocks := by
  rw [h.touched_iff]
  exact ⟨h.quiet.listed (h.noneFull hmode) block, h.quiet.dirtyListed block⟩

theorem Begun.untouched (h : Begun n nb X e W c t .noAction u) (block : Nat) :
    ¬ Touched u block := by
  rw [h.touched_iff_listed (by simp), mem_listedBlocks]
  rintro ⟨id, hid, hin⟩
  have hdet := h.determined
  rw [determineFlushMode] at hdet
  split at hdet
  · rename_i hall
    have hzero := List.all_eq_true.mp hall id (List.mem_range.mpr hid)
    have hnil : u.flushBlocks id = [] := List.eq_nil_of_length_eq_zero (of_decide_eq_true hzero)
    rw [hnil] at hin
    simp at hin
  · split at hdet <;> simp at hdet

theorem Begun.snapshotOf_eq {mode : FlushMode} (h : Begun n nb X e W c t mode u) :
    snapshotOf u W = snapshotOf t W := by
  rw [snapshotOf, snapshotOf, h.image]

theorem Begun.ready {v : NvmInst} (h : Begun n nb X e W c t .useFlushBlocks u)
    (hstep : FlushStep u v)
    (hsettled : ∀ block ∈ u.listedBlocks, BlockWords Cell.Settled block v) :
    Ready n nb X (snapshotOf t W) e c u.listedBlocks (Dirty u) (Touched u) v.image := by
  obtain ⟨m, hm, rfl⟩ := hstep
  have hq := h.quiet
  have hlisted : ∀ {block}, Touched u block ↔ block ∈ u.listedBlocks :=
    h.touched_iff_listed (by simp)
  have hsteady : Steady n nb X e c (Dirty u) (Touched u) NoFresh (onMem (fun _ => m) u.image) :=
    hq.steady.keeps (keeps_of_drains hm)
      (hq.steady.arrays.of_drains rfl (fun l _ => hm l) rfl) hq.steady.states fun _ _ => id
  refine ⟨hsteady, fun s hs o ho hw => ?_, fun block hin => hq.range block (hlisted.mpr hin),
    fun block hin => ?_, fun s hs o ho hw hno => ?_⟩
  · rw [← h.snapshotOf_eq]
    by_cases hin : blockOf s o ∈ u.listedBlocks
    · have honly := (hsettled _ hin s o ho rfl).only
      rwa [show ((onNvm (fun _ => m) u).image.mem (.word .main s o)).cur =
        (u.image.mem (.word .main s o)).cur from (hm _).cur] at honly
    · have hclean := fun ht => hin (hlisted.mp ht)
      have hold : X.written (blockOf s o) := (hq.accounted _ hw).resolve_right hclean
      rw [hq.content_eq hs ho hold hclean]
      exact hsteady.main s hs o ho hold hclean
  · have hd := hq.steady.touchedDirty block (hlisted.mpr hin)
    exact hq.steady.dirtyBound _ (hq.range block (hlisted.mpr hin)) hd
  · have hclean := fun ht => hno (hlisted.mp ht)
    have hold : X.written (blockOf s o) := (hq.accounted _ hw).resolve_right hclean
    rw [← h.snapshotOf_eq]
    exact ⟨hold, hq.content_eq hs ho hold hclean⟩

/-! ## From the first commit on -/

theorem Refill.midway {m : Nvm} (hm : Refill i blocks i.mem m)
    (h : Midway n nb Xn e b₁ blocks i) : Midway n nb Xn e b₁ blocks (onMem (fun _ => m) i) := by
  have hkeep : ∀ l, (∀ d o, l ≠ .word .back d o) → (i.mem l).DrainsTo (m l) :=
    fun l hl => hm.others l (not_atHome_of_ne hl)
  refine ⟨⟨h.nrMain, h.nrBack, fun b => ?_, fun s b => ?_, fun b hb s hs => ?_⟩, ?_,
    fun s hs o ho hw => ?_, fun s b hb o ho hw hno => ?_, h.listed, h.listedMain,
    h.unlistedState, h.unlistedWritten, h.allBound⟩
  · exact (hkeep _ (by simp)).settled (h.settled b)
  · have hload : m.load (.backToMain b) = i.mem.load (.backToMain b) := (hkeep _ (by simp)).cur
    rw [mem_onMem, hload]
    exact h.inverse s b
  · exact h.range b hb s ((hkeep _ (by simp)).cur.symm.trans hs)
  · refine h.arrays.of_drains rfl (fun l hl => hkeep l ?_) rfl
    rintro d o rfl
    exact hl (isData_word .back d o)
  · exact (hkeep _ (by simp)).only (h.main s hs o ho hw)
  · exact (hm.others _ (not_atHome_word h.injHome hb hno)).only (h.back s b hb o ho hw hno)

theorem Midway.recoverable (h : Midway n nb Xn e b₁ blocks i) : Recoverable n nb Xn e i := by
  intro img hc
  have hcom := h.arrays.committed hc
  rw [h.nrMain] at hcom
  exact ⟨hcom.1, b₁, h.holds (h.data fun l _ => hc l) hcom.self⟩

theorem Midway.refilled {s₀ v : NvmInst} (h : Midway n nb Xn e b₁ blocks s₀.image)
    (hstep : RefillStep s₀.image blocks s₀ v)
    (hfilled : ∀ block ∈ blocks, BackWords Filled s₀.image block v) :
    Refilled n nb Xn e b₁ blocks v.image := by
  obtain ⟨m, hm, rfl⟩ := hstep
  have hmid := Refill.midway hm h
  refine ⟨hmid, fun s b hb o ho hw => ?_⟩
  by_cases hin : blockOf s o ∈ blocks
  · have hs : s < n := h.range b ((h.inverse s b).mp hb).1 s ((h.inverse s b).mp hb).2
    have honly : (m (.word .back b o)).Only (s₀.image.mem.load (.word .main s o)) :=
      hfilled _ hin s b hb o ho rfl
    rwa [Memory.load, (h.main s hs o ho hw).cur_eq] at honly
  · exact hmid.back s b hb o ho hw hin

theorem wp_commitLayoutState {C : NvmInst → Prop} {Q : Unit → NvmInst → Prop}
    (hmode : t.flushMode ≠ .wbinvd) (hC : C t) (state : SegmentState)
    (h : Prog.wp (fun i => C { t with image := i })
      (commitBatch (t.listedBlocks.map segmentOf) state)
      (fun _ i => Q () { t with image := i }) t.image) :
    Prog.wp C (commitLayoutState state) Q t := by
  have hsegments : t.layoutSegments = t.listedBlocks.map segmentOf := by
    rw [layoutSegments, if_neg hmode]
  simp only [commitLayoutState, Prog.wp_bind, Prog.wp_read]
  refine ⟨hC, wp_onImage ?_⟩
  rw [hsegments]
  exact h

theorem Steady.of_drains {dirty touched fresh : Nat → Prop}
    (h : Steady n nb X e c dirty touched fresh i) (hn : j.nrMain = i.nrMain)
    (hnb : j.nrBack = i.nrBack) (hbind : j.mainToBack = i.mainToBack)
    (hflags : j.segmentStateDirty = i.segmentStateDirty)
    (hm : ∀ l, l ≠ .attributes → (i.mem l).DrainsTo (j.mem l)) :
    Steady n nb X e c dirty touched fresh j where
  nrMain := hn.trans h.nrMain
  nrBack := hnb.trans h.nrBack
  settled b := (hm _ (by simp)).settled (h.settled b)
  inverse s b := by
    rw [hbind, Memory.load, (hm (.backToMain b) (by simp)).cur]
    exact h.inverse s b
  range b hb s hs := h.range b hb s ((hm _ (by simp)).cur.symm.trans hs)
  arrays := h.arrays.of_drains hn (fun l hl => hm l (by rintro rfl; exact hl trivial)) hflags
  states := h.states
  written := h.written
  back s b hb hf o ho hw := (hm _ (by simp)).only (h.back s b (hbind ▸ hb) hf o ho hw)
  main s hs o ho hw ht := (hm _ (by simp)).only (h.main s hs o ho hw ht)
  touchedDirty := h.touchedDirty
  dirtyBound s hs hd := hbind ▸ h.dirtyBound s hs hd
  allBound heq s hs := hbind ▸ h.allBound heq s hs

/-- Everything but the image and the snapshot flag is unchanged. -/
def SameLists (t u : NvmInst) : Prop :=
  ∃ i flag, u = { t with image := i, hasSnapshot := flag }

theorem wp_recordSnapshot {dirty touched : Nat → Prop} {C : NvmInst → Prop}
    (h : Steady n nb X e c dirty touched NoFresh t.image) (hC : ∀ u : NvmInst,
      Steady n nb X e c dirty touched NoFresh u.image → C u) :
    Prog.wp C recordSnapshot (fun _ u => SameLists t u ∧
      Steady n nb X e c dirty touched NoFresh u.image) t := by
  simp only [recordSnapshot, Prog.wp_bind, Prog.wp_read]
  refine ⟨hC t h, ?_⟩
  split
  · exact Prog.wp_pure.mpr ⟨⟨t.image, t.hasSnapshot, rfl⟩, h⟩
  · rw [Prog.wp_bind]
    apply wp_onImage
    refine wp_setAttributes kAttributeHasSnapshot fun m hm => ?_
    have hsteady : Steady n nb X e c dirty touched NoFresh { t.image with mem := m } :=
      h.of_drains rfl rfl rfl rfl hm
    exact ⟨hC _ hsteady, Prog.wp_act.mpr ⟨hC _ hsteady, ⟨_, _, rfl⟩, hsteady⟩⟩

/-! ## After the second commit -/

theorem clearDirtyBits_eq (t : NvmInst) : ∃ segments blocks, clearDirtyBits t =
    { t with segmentDirty := segments, blockDirty := blocks } ∧
    (∀ s, segments.test s = true → t.segmentDirty.test s = true) ∧
    ∀ block, blocks.test block = true →
      t.blockDirty.test block = true ∧ block ∉ t.listedBlocks := by
  rw [clearDirtyBits]
  suffices hfold : ∀ (l : List Nat) (v : NvmInst), ∃ segments blocks,
      l.foldl (fun t block => { t with
        blockDirty := t.blockDirty.clearAll block
        segmentDirty := t.segmentDirty.clearAll (segmentOf block) }) v =
      { v with segmentDirty := segments, blockDirty := blocks } ∧
      (∀ s, segments.test s = true → v.segmentDirty.test s = true) ∧
      ∀ block, blocks.test block = true → v.blockDirty.test block = true ∧ block ∉ l from
    hfold t.listedBlocks t
  intro l
  induction l with
  | nil => exact fun v => ⟨v.segmentDirty, v.blockDirty, rfl, fun _ => id, by simp⟩
  | cons block rest ih =>
      intro v
      obtain ⟨segments, blocks, heq, hseg, hblk⟩ := ih { v with
        blockDirty := v.blockDirty.clearAll block
        segmentDirty := v.segmentDirty.clearAll (segmentOf block) }
      refine ⟨segments, blocks, heq, fun s hs => ?_, fun block' hb => ?_⟩
      · have htest := hseg s hs
        simp only [AtomicBitSet.test_clearAll, Bool.and_eq_true] at htest
        exact htest.2
      · obtain ⟨htest, hno⟩ := hblk block' hb
        simp only [AtomicBitSet.test_clearAll, Bool.and_eq_true, Bool.not_eq_true',
          decide_eq_false_iff_not] at htest
        refine ⟨htest.2, ?_⟩
        rintro (_ | ⟨_, hin⟩)
        · exact htest.1 rfl
        · exact hno hin

theorem Begun.finished {mode : FlushMode} (h : Begun n nb X e W c t mode u) {e' : Nat}
    {c' : Nat → SegmentState} {v : NvmInst} (hv : SameLists u v)
    (hlisted : ∀ block, u.blockDirty.test block = true → block ∈ u.listedBlocks)
    (hs : Steady n nb Xn e' c' (Dirty u) (fun _ => False) NoFresh v.image)
    (hwritten : ∀ block, W block → Xn.written block) :
    Quiet n nb Xn e' W c'
      { clearDirtyBits v with flushBlocks := fun _ => [], checkpointInProgress := false } := by
  obtain ⟨i, flag, rfl⟩ := hv
  obtain ⟨segments, blocks, heq, hseg, hblk⟩ := clearDirtyBits_eq { u with
    image := i, hasSnapshot := flag }
  rw [heq]
  have hq := h.quiet
  have hclean : ∀ block, blocks.test block ≠ true :=
    fun block hb => (hblk block hb).2 (hlisted block (hblk block hb).1)
  have htouched : ∀ block, ¬ Touched { u with
      image := i, hasSnapshot := flag, segmentDirty := segments, blockDirty := blocks,
      flushBlocks := fun _ => [], checkpointInProgress := false } block := by
    rintro block (hb | ⟨id, hid, addr, hin, -⟩)
    · exact hclean block hb
    · change addr ∈ u.addressBuffer id at hin
      rw [h.buffers id hid] at hin
      simp at hin
  refine ⟨?_, fun block hb => Or.inl (hwritten block hb), fun _ block hb => absurd hb (hclean block),
    fun block hin => ?_, fun block hb => absurd hb (htouched block), hq.next, hq.skip, hq.cleaner⟩
  · exact hs.grow (fun _ hf => False.elim hf) (fun block hb => absurd hb (htouched block))
      fun s hlt hd => hs.dirtyBound s hlt (hseg s hd)
  · simp [listedBlocks] at hin

theorem SameLists.refl (t : NvmInst) : SameLists t t := ⟨t.image, t.hasSnapshot, rfl⟩

theorem SameLists.trans {t u v : NvmInst} (h : SameLists t u) (h' : SameLists u v) :
    SameLists t v := by
  obtain ⟨i, flag, rfl⟩ := h
  obtain ⟨i', flag', rfl⟩ := h'
  exact ⟨i', flag', rfl⟩

theorem sameLists_image (t : NvmInst) (i : CheckpointImage) : SameLists t { t with image := i } :=
  ⟨i, t.hasSnapshot, rfl⟩

theorem FlushStep.sameLists (h : FlushStep t u) : SameLists t u := by
  obtain ⟨m, -, rfl⟩ := h
  exact sameLists_image t _

theorem RefillStep.sameLists (h : RefillStep i blocks t u) : SameLists t u := by
  obtain ⟨m, -, rfl⟩ := h
  exact sameLists_image t _

theorem SameLists.flushMode (h : SameLists t u) : u.flushMode = t.flushMode := by
  obtain ⟨i, flag, rfl⟩ := h
  rfl

theorem SameLists.listedBlocks (h : SameLists t u) : u.listedBlocks = t.listedBlocks := by
  obtain ⟨i, flag, rfl⟩ := h
  rfl

theorem nextEpoch_nextEpoch_ne (e : Nat) : nextEpoch (nextEpoch e) ≠ e := by
  unfold nextEpoch
  omega

theorem wp_commitFlushBlocks {v : NvmInst} (h : Begun n nb X e W c t .useFlushBlocks u)
    (hv : SameLists u v)
    (hready : Ready n nb X (snapshotOf t W) e c u.listedBlocks (Dirty u) (Touched u) v.image)
    {nrThreads : Nat} (hpos : 0 < nrThreads) (schedule : List Nat) :
    Prog.wp (fun w => Atomic n nb X (snapshotOf t W) e w.image)
      (commitFlushBlocks nrThreads schedule)
      (fun _ w => ∃ e' c', Quiet n nb (snapshotOf t W) e' W c' w) v := by
  have hmode : ∀ {w}, SameLists u w → w.flushMode ≠ .wbinvd := by
    intro w hw
    rw [hw.flushMode, h.flushMode]
    simp
  have hsegments : ∀ s ∈ u.listedBlocks.map segmentOf, s < n := by
    intro s hs
    obtain ⟨block, hin, rfl⟩ := List.mem_map.mp hs
    exact hready.inRange block hin
  -- the first commit
  rw [commitFlushBlocks, Prog.wp_bind]
  refine wp_commitLayoutState (hmode hv) hready.toSteady.recoverable.atomic .main ?_
  rw [hv.listedBlocks]
  refine Prog.wp_mono (Prog.wp_weaken (fun i hi => hready.atomic hi)
    (wp_commitBatch hready.arrays (hready.toBindings.segments_lt hsegments) .main))
    fun _ i₁ ⟨hk₁, ha₁⟩ => ?_
  have hv₁ : SameLists u { v with image := i₁ } := hv.trans (sameLists_image v i₁)
  have hmid : Midway n nb (snapshotOf t W) (nextEpoch e) (mainStates c u.listedBlocks)
      u.listedBlocks i₁ := hready.midway hk₁ ha₁
  have hbindings : Bindings n nb ({ v with image := i₁ } : NvmInst).image := hmid.toBindings
  -- the second section
  rw [Prog.wp_bind]
  refine Prog.wp_mono (Prog.wp_weaken (fun w hw => ?_)
    (wp_writeBackSection hbindings
      (fun block hin => (hmid.listed block hin).2) (fun _ _ ha hb => RefillStep.trans ha hb)
      (.refl _) hv₁.listedBlocks.symm hpos schedule)) fun _ w ⟨hstep, hfilled⟩ => ?_
  · obtain ⟨m, hm, rfl⟩ := hw
    exact (Refill.midway hm hmid).recoverable.atomic_new (nextEpoch_ne e)
  have hrefilled := hmid.refilled hstep hfilled
  have hw : SameLists u w := hv₁.trans hstep.sameLists
  have hbind : w.image.mainToBack = v.image.mainToBack := by
    rw [hstep.mainToBack]
    exact hk₁.mainToBack
  -- the second commit
  rw [Prog.wp_bind]
  refine wp_commitLayoutState (hmode hw)
    (hrefilled.toMidway.recoverable.atomic_new (nextEpoch_ne e)) .back ?_
  rw [hw.listedBlocks]
  refine Prog.wp_mono (Prog.wp_weaken (fun i hi => ?_)
    (wp_commitBatch hrefilled.arrays (hrefilled.toBindings.segments_lt hsegments) .back))
    fun _ i₂ ⟨hk₂, ha₂⟩ => ?_
  · intro img hc
    obtain ⟨hepoch, hnew⟩ := hrefilled.recoverable hi hc
    refine ⟨fun heq => ?_, fun _ => hnew⟩
    rcases hepoch with hfst | hsnd
    · exact absurd (hfst.symm.trans heq) (nextEpoch_ne e)
    · exact absurd (hsnd.symm.trans heq) (nextEpoch_nextEpoch_ne e)
  have hsteady : Steady n nb (snapshotOf t W) (nextEpoch (nextEpoch e))
      (backStates (mainStates c u.listedBlocks) u.listedBlocks) (Dirty u) (fun _ => False)
      NoFresh i₂ :=
    hrefilled.steady hk₂ ha₂ fun s hs hd => hbind ▸ hready.dirtyBound s hs hd
  -- the end of the checkpoint
  have hatomic : ∀ x : NvmInst, Steady n nb (snapshotOf t W) (nextEpoch (nextEpoch e))
      (backStates (mainStates c u.listedBlocks) u.listedBlocks) (Dirty u) (fun _ => False)
      NoFresh x.image → Atomic n nb X (snapshotOf t W) e x.image :=
    fun x hx => hx.recoverable.atomic_new (nextEpoch_nextEpoch_ne e)
  rw [Prog.wp_bind]
  refine Prog.wp_mono (wp_recordSnapshot (t := { w with image := i₂ }) hsteady hatomic)
    fun _ x ⟨hx, hsx⟩ => ?_
  obtain ⟨segments, blocks, heq, -, -⟩ := clearDirtyBits_eq x
  have himage : (clearDirtyBits x).image = x.image := by rw [heq]
  have hlisted : ∀ block, u.blockDirty.test block = true → block ∈ u.listedBlocks :=
    h.quiet.listed (h.noneFull (by simp))
  have hfinished := h.finished ((hw.trans (sameLists_image w i₂)).trans hx) hlisted hsx
    fun _ hb => hb
  simp only [Prog.wp_bind, Prog.wp_act]
  exact ⟨himage ▸ hatomic x hsx, himage ▸ hatomic x hsx, _, _, hfinished⟩

/-- A checkpoint that does not fall back to `FMODE_WBINVD` is atomic. -/
theorem wp_checkpoint (h : Quiet n nb X e W c t) {tid nrThreads : Nat} (htid : tid < kMaxThreads)
    (hpos : 0 < nrThreads) (flushSchedule writeBackSchedule : List Nat)
    (hmode : ∀ mode u, (beginCheckpoint tid).run t = some (mode, u) → mode ≠ .wbinvd) :
    Prog.wp (fun u => Atomic n nb X (snapshotOf t W) e u.image)
      (checkpoint tid nrThreads flushSchedule writeBackSchedule)
      (fun _ u => ∃ e' c', Quiet n nb (snapshotOf t W) e' W c' u) t := by
  rw [checkpoint, Prog.wp_bind]
  refine Prog.wp_mono (Prog.wp_weaken (fun u hu => (hu trivial).atomic)
    (Prog.wp_run (wp_beginCheckpoint (P := True) h htid))) fun mode u ⟨hrun, hbegun⟩ => ?_
  cases mode with
  | wbinvd => exact absurd rfl (hmode _ u hrun)
  | noAction =>
      rw [if_pos rfl]
      exact Prog.wp_pure.mpr ⟨e, c, hbegun.snapshotOf_eq ▸ hbegun.quiet.noAction hbegun.untouched⟩
  | useFlushBlocks =>
      have hatomic : Atomic n nb X (snapshotOf t W) e u.image :=
        hbegun.quiet.steady.recoverable.atomic
      have hflush : u.flushMode ≠ .wbinvd := by simp [hbegun.flushMode]
      rw [if_neg (by simp), Prog.wp_bind]
      refine Prog.wp_mono (wp_flushSection (C := fun u => Atomic n nb X (snapshotOf t W) e u.image)
        (fun a b ha hab => ?_) hatomic hflush hpos flushSchedule) fun _ v ⟨hstep, hsettled⟩ => ?_
      · obtain ⟨m, hm, rfl⟩ := hab
        exact ha.drains hm
      · rw [if_pos rfl]
        exact wp_commitFlushBlocks hbegun hstep.sameLists (hbegun.ready hstep hsettled) hpos
          writeBackSchedule

end Libcrpm.NvmInst
