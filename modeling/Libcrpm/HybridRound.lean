import Libcrpm.HybridSections
import Mathlib.Algebra.Order.BigOperators.Group.List
import Mathlib.Algebra.Order.Group.Nat

/-!
# A round of the hybrid engine

A round writes the dirty blocks to one copy, commits the state that names this copy for
the segments that are or were dirty, and unless it runs in `FMODE_WBINVD` brings the other
copy up to date as well.  A crash before the commit leaves the last round as long as no
dirty segment has the copy that is written as its committed one.
-/

namespace Libcrpm.HybridInst

open Libcrpm.Persistence Libcrpm.Program CheckpointImage

variable {n nb : Nat} {X : Content} {e e' : Nat} {c c' : Nat → SegmentState} {stale : Nat → Prop}
  {i j : CheckpointImage} {t u v : HybridInst} {P R : Prop}

/-! ## The start of a round -/

/-- The engine once the leader has chosen the flush mode. -/
structure Begun (n nb : Nat) (X : Content) (e : Nat) (c : Nat → SegmentState)
    (stale : Nat → Prop) (t : HybridInst) (mode : FlushMode) (u : HybridInst) : Prop where
  quiet : Quiet n nb X e c stale u
  image : u.image = t.image
  work : u.work = t.work
  epoch : u.epoch = t.epoch
  flushMode : u.flushMode = mode
  prevFlushMode : u.prevFlushMode = t.flushMode
  touched : ∀ block, DirtyBlock u u.epoch block ↔ Touched t block
  segments : ∀ s, DirtySegment u u.epoch s ↔ TouchedSegment t s
  last : ∀ s, DirtySegment u (1 - t.epoch) s ↔ DirtySegment t (1 - t.epoch) s
  unbuffered : ∀ addr, ¬ Buffered u addr
  noneFull : mode ≠ .wbinvd → NoneFull u
  few : mode ≠ .wbinvd → u.listedBlocks.length < kMaxFlushBlocks
  empty : mode = .noAction → ∀ block, ¬ DirtyBlock u u.epoch block
  noAction_of_nil : u.listedBlocks = [] → mode = .noAction

theorem length_listedBlocks_lt {t : HybridInst} (h : determineFlushMode t ≠ .wbinvd) :
    t.listedBlocks.length < kMaxFlushBlocks := by
  rw [listedBlocks, List.length_flatMap]
  unfold determineFlushMode at h
  split at h
  · rename_i hall
    have hzero : ((List.range kMaxThreads).map fun id => (t.flushBlocks id).length).sum = 0 := by
      rw [List.sum_eq_zero_iff]
      intro len hlen
      obtain ⟨id, hid, rfl⟩ := List.mem_map.mp hlen
      simpa using (List.all_eq_true.mp hall) id hid
    rw [hzero]
    decide
  · split at h
    · exact absurd rfl h
    · rename_i hsum
      exact Nat.lt_of_not_le hsum

theorem noneFull_of_mode {t : HybridInst} (h : determineFlushMode t ≠ .wbinvd) : NoneFull t := by
  intro id hid
  have hlen := length_listedBlocks_lt h
  rw [listedBlocks, List.length_flatMap] at hlen
  refine Nat.lt_of_le_of_lt (List.le_sum_of_mem ?_) hlen
  exact List.mem_map.mpr ⟨id, List.mem_range.mpr hid, rfl⟩

theorem listedBlocks_of_noAction {t : HybridInst} (h : determineFlushMode t = .noAction) :
    t.listedBlocks = [] := by
  unfold determineFlushMode at h
  split at h
  · rename_i hall
    rw [listedBlocks, List.flatMap_eq_nil_iff]
    intro id hid
    have hzero := (List.all_eq_true.mp hall) id hid
    exact List.eq_nil_of_length_eq_zero (by simpa using hzero)
  · split at h <;> simp at h

theorem noAction_of_listedBlocks {t : HybridInst} (h : t.listedBlocks = []) :
    determineFlushMode t = .noAction := by
  rw [determineFlushMode, if_pos]
  rw [List.all_eq_true]
  intro id hid
  rw [listedBlocks, List.flatMap_eq_nil_iff] at h
  simp [h id hid]

theorem wp_beginCheckpoint (h : Quiet n nb X e c stale t) {tid : Nat} (htid : tid < kMaxThreads) :
    Prog.wp (SameImage t) (beginCheckpoint tid) (fun mode u => Begun n nb X e c stale t mode u) t := by
  rw [beginCheckpoint, Prog.wp_bind]
  refine Prog.wp_mono (wp_addressBufferClearAll h htid) fun _ u ⟨hd, hempty⟩ => ?_
  simp only [Prog.wp_bind, Prog.wp_act, Prog.wp_read]
  refine ⟨hd.image, hd.image, ?_⟩
  have hnobuf : ∀ addr, ¬ Buffered u addr := by
    rintro addr ⟨⟨id, hid, hin⟩, -⟩
    rw [hempty id hid] at hin
    simp at hin
  have hq := hd.quiet
  refine ⟨{ hq with lists := ⟨hq.lists.listed, hq.lists.dirty⟩ }, hd.image, hd.work, hd.epoch, rfl,
    hd.flushMode, fun block => ?_, fun s => ?_, hd.last, hnobuf, fun hmode => noneFull_of_mode hmode,
    fun hmode => length_listedBlocks_lt hmode, fun hmode block hb => ?_,
    fun hnil => noAction_of_listedBlocks hnil⟩
  · refine ⟨fun hb => (hd.touched block).mp (Or.inl hb), fun hb => ?_⟩
    rcases (hd.touched block).mpr hb with hb | ⟨addr, haddr, -⟩
    · exact hb
    · exact absurd haddr (hnobuf addr)
  · refine ⟨fun hs => (hd.segments s).mp (Or.inl hs), fun hs => ?_⟩
    rcases (hd.segments s).mpr hs with hs | ⟨addr, haddr, -⟩
    · exact hs
    · exact absurd haddr (hnobuf addr)
  · have hin := hq.lists.listed (noneFull_of_mode (by rw [hmode]; simp)) block hb
    rw [listedBlocks_of_noAction hmode] at hin
    simp at hin

theorem Begun.touched_iff {mode : FlushMode} (h : Begun n nb X e c stale t mode u) {block : Nat} :
    Touched u block ↔ DirtyBlock u u.epoch block :=
  ⟨fun ht => ht.resolve_right fun ⟨addr, haddr, _⟩ => h.unbuffered addr haddr, Or.inl⟩

theorem Begun.startable {mode : FlushMode} (h : Begun n nb X e c stale t mode u)
    (hbound : ∀ s, TouchedSegment t s ∨ DirtySegment t (1 - t.epoch) s →
      t.image.mainToBack s ≠ none) : Startable u where
  inj := injHome_home h.quiet.steady.toBindings
  bound s hs := by
    rw [h.image]
    rw [h.segments s, h.epoch, h.last s] at hs
    exact hbound s hs
  marked := h.quiet.marked
  range epoch s hs := by
    rw [nrSegments, h.quiet.steady.nrMain]
    exact h.quiet.range epoch s hs
  lists := h.quiet.lists
  full hmode := h.noneFull (h.flushMode ▸ hmode)
  pending := h.quiet.steady.pending

/-! ## The segments of the commit -/

theorem mem_layoutSegments (h : ∀ epoch s, DirtySegment t epoch s → s < t.nrSegments) {s : Nat} :
    s ∈ layoutSegments t ↔ DirtySegment t t.epoch s ∨ DirtySegment t (1 - t.epoch) s := by
  have hword : ∀ w k, k < 64 → (k ∈ AtomicBitSet.setBits
      ((t.segmentDirty t.epoch).testAll (w * AtomicBitSet.kBitWidth) |||
        (t.segmentDirty (1 - t.epoch)).testAll (w * AtomicBitSet.kBitWidth)) ↔
      DirtySegment t t.epoch (w * 64 + k) ∨ DirtySegment t (1 - t.epoch) (w * 64 + k)) := by
    intro w k hk
    rw [AtomicBitSet.mem_setBits, show AtomicBitSet.kBitWidth = 64 from rfl, BitVec.getLsbD_or,
      AtomicBitSet.getLsbD_testAll _ _ hk, AtomicBitSet.getLsbD_testAll _ _ hk, DirtySegment,
      DirtySegment, Bool.or_eq_true]
    exact and_iff_right hk
  simp only [layoutSegments, dirtySegmentsOf, List.mem_flatMap, List.mem_map, List.mem_range]
  constructor
  · rintro ⟨w, -, k, hk, rfl⟩
    exact (hword w k (AtomicBitSet.mem_setBits.mp hk).1).mp hk
  · intro hs
    have hlt : s < t.nrSegments := hs.elim (h _ s) (h _ s)
    have hk : s % 64 < 64 := Nat.mod_lt _ (by decide)
    have heq : s / 64 * 64 + s % 64 = s := by omega
    refine ⟨s / 64, ?_, s % 64, (hword _ _ hk).mpr (by rwa [heq]), heq⟩
    rw [show AtomicBitSet.kBitWidth = 64 from rfl]
    omega

/-! ## Clearing the bits of the last round -/

theorem test_clearRegion_segment (b : AtomicBitSet) (s block : Nat) :
    (b.clearRegion (startBlock s) (stopBlock s)).test block =
      (!decide (segmentOf block = s) && b.test block) := by
  rw [AtomicBitSet.test_clearRegion]
  congr 2
  rw [decide_eq_decide, segmentOf_eq, stopBlock, startBlock, kBlocksPerSegment_eq]
  omega

structure Cleared (t : HybridInst) (done : List Nat) (u : HybridInst) : Prop where
  same : u = { t with segmentDirty := u.segmentDirty, blockDirty := u.blockDirty }
  otherBlocks : ∀ epoch ≠ 1 - t.epoch, u.blockDirty epoch = t.blockDirty epoch
  otherSegments : ∀ epoch ≠ 1 - t.epoch, u.segmentDirty epoch = t.segmentDirty epoch
  segments : ∀ s, DirtySegment u (1 - t.epoch) s ↔ DirtySegment t (1 - t.epoch) s ∧ s ∉ done
  blocks : ∀ block, DirtyBlock u (1 - t.epoch) block ↔ DirtyBlock t (1 - t.epoch) block ∧
    ¬ (DirtySegment t (1 - t.epoch) (segmentOf block) ∧ segmentOf block ∈ done)

theorem Cleared.epoch {done : List Nat} (h : Cleared t done u) : u.epoch = t.epoch := by rw [h.same]

theorem Cleared.image {done : List Nat} (h : Cleared t done u) : u.image = t.image := by rw [h.same]

theorem cleared_nil (t : HybridInst) : Cleared t [] t :=
  ⟨rfl, fun _ _ => rfl, fun _ _ => rfl, by simp, by simp⟩

theorem Cleared.clearSegment {done : List Nat} (h : Cleared t done u) (s : Nat) :
    Cleared t (done ++ [s]) (clearSegment u s) := by
  rw [HybridInst.clearSegment, h.epoch]
  split
  · rename_i hmark
    refine ⟨?_, fun epoch hne => ?_, fun epoch hne => ?_, fun s' => ?_, fun block => ?_⟩
    · rw [h.same]
    · simp only [Function.update_of_ne hne, h.otherBlocks epoch hne]
    · simp only [Function.update_of_ne hne, h.otherSegments epoch hne]
    · simp only [DirtySegment, Function.update_self, AtomicBitSet.test_clear, Bool.and_eq_true,
        Bool.not_eq_true', decide_eq_false_iff_not]
      rw [← DirtySegment, h.segments, List.mem_append, List.mem_singleton]
      tauto
    · simp only [DirtyBlock, Function.update_self, test_clearRegion_segment, Bool.and_eq_true,
        Bool.not_eq_true', decide_eq_false_iff_not]
      rw [← DirtyBlock, h.blocks, List.mem_append, List.mem_singleton]
      have hwas := ((h.segments s).mp hmark).1
      constructor
      · rintro ⟨hne, hb, hno⟩
        refine ⟨hb, ?_⟩
        rintro ⟨hm, hd | heq⟩
        · exact hno ⟨hm, hd⟩
        · exact hne heq
      · rintro ⟨hb, hno⟩
        refine ⟨fun heq => hno ⟨heq ▸ hwas, Or.inr heq⟩, hb, ?_⟩
        rintro ⟨hm, hd⟩
        exact hno ⟨hm, Or.inl hd⟩
  · rename_i hclean
    have hnot : ¬ (DirtySegment t (1 - t.epoch) s ∧ s ∉ done) := fun hs =>
      hclean ((h.segments s).mpr hs)
    refine ⟨h.same, h.otherBlocks, h.otherSegments, fun s' => ?_, fun block => ?_⟩
    · rw [h.segments, List.mem_append, List.mem_singleton]
      refine and_congr_right fun hs => not_congr (or_iff_left_of_imp ?_).symm
      rintro rfl
      by_contra hno
      exact hnot ⟨hs, hno⟩
    · rw [h.blocks, List.mem_append, List.mem_singleton]
      refine and_congr_right fun _ => not_congr (and_congr_right fun hs => ?_)
      refine (or_iff_left_of_imp ?_).symm
      rintro rfl
      by_contra hno
      exact hnot ⟨hs, hno⟩

theorem cleared_clearDirtyBitsLastEpoch (t : HybridInst) :
    Cleared t (List.range t.nrSegments) (clearDirtyBitsLastEpoch t) := by
  have hfold : ∀ (rest done : List Nat) (u : HybridInst), Cleared t done u →
      Cleared t (done ++ rest) (rest.foldl clearSegment u) := by
    intro rest
    induction rest with
    | nil => exact fun done u hu => by simpa using hu
    | cons s rest ih =>
        intro done u hu
        have hnext := ih (done ++ [s]) (clearSegment u s) (hu.clearSegment s)
        simpa using hnext
  exact hfold (List.range t.nrSegments) [] t (cleared_nil t)

/-! ## What a crash leaves -/

/-- Under the epoch `e` a crash leaves `X` if `P` holds, and under the next one it leaves
`Xn` if `R` does. -/
def Atomic (P R : Prop) (n nb : Nat) (X Xn : Content) (e : Nat) (i : CheckpointImage) : Prop :=
  ∀ img, i.mem.CrashTo img →
    (img .committedEpoch = e → P → ∃ c, Holds n nb X img c) ∧
    (img .committedEpoch ≠ e → img .committedEpoch = nextEpoch e ∧
      (R → ∃ c, Holds n nb Xn img c))

variable {Xn : Content}

theorem atomic_of_current (hc : Current i e c) (h : P → Named n nb X e c i) :
    Atomic P R n nb X Xn e i := by
  intro img hcrash
  exact ⟨fun _ hp => ⟨c, ((h hp).holds hcrash).2⟩,
    fun hne => absurd (hc.committed hcrash).1 hne⟩

theorem Named.atomic (h : Named n nb X e c i) : Atomic P R n nb X Xn e i :=
  atomic_of_current h.current fun _ => h

theorem atomic_of_next (hc : Current i (nextEpoch e) c) (h : R → Named n nb Xn (nextEpoch e) c i) :
    Atomic P R n nb X Xn e i := by
  intro img hcrash
  have he := (hc.committed hcrash).1
  exact ⟨fun heq => absurd (he.symm.trans heq) (nextEpoch_ne e),
    fun _ => ⟨he, fun hr => ⟨c, ((h hr).holds hcrash).2⟩⟩⟩

theorem atomic_committing (hn : i.nrMain = n) (hold : P → NamedCopies n nb X c i)
    (hnew : R → NamedCopies n nb Xn c' i) (hj : Committing i e c c' j) :
    Atomic P R n nb X Xn e j := by
  intro img hcrash
  have hdata := hj.keeps.data_may hcrash
  have hcase := hj.crash img hcrash
  rw [hn] at hcase
  rcases hcase with hcom | hcom
  · exact ⟨fun _ hp => ⟨c, (hold hp).holds hdata hcom.self⟩, fun hne => absurd hcom.1 hne⟩
  · have hc' := hcom.committed
    rw [hn] at hc'
    exact ⟨fun heq => absurd (hc'.1.symm.trans heq) (nextEpoch_ne e),
      fun _ => ⟨hc'.1, fun hr => ⟨_, (hnew hr).holds hdata hc'.self⟩⟩⟩

/-! ## The section before the commit -/

theorem targetArea_ne {epoch : Nat} (h : epoch = 0 ∨ epoch = 1) :
    targetArea epoch ≠ targetArea (1 - epoch) := by
  rcases h with rfl | rfl <;> decide

/-- `v` is `u` with another image and another snapshot flag. -/
structure Carried (u v : HybridInst) : Prop where
  same : v = { u with image := v.image, hasSnapshot := v.hasSnapshot }

theorem Carried.refl (u : HybridInst) : Carried u u := ⟨rfl⟩

theorem Carried.trans {w : HybridInst} (h : Carried u v) (h' : Carried v w) : Carried u w :=
  ⟨by rw [h'.same, h.same]⟩

theorem carried_image (u : HybridInst) (i : CheckpointImage) : Carried u { u with image := i } :=
  ⟨rfl⟩

theorem ApplyStep.carried {s₀ : HybridInst} {area : Area} {sel : Nat → Prop}
    (h : ApplyStep s₀ area sel u v) : Carried u v :=
  ⟨by rw [h.frame]; rfl⟩

theorem Carried.work (h : Carried u v) : v.work = u.work := by rw [h.same]
theorem Carried.epoch (h : Carried u v) : v.epoch = u.epoch := by rw [h.same]
theorem Carried.flushMode (h : Carried u v) : v.flushMode = u.flushMode := by rw [h.same]
theorem Carried.blockDirty (h : Carried u v) : v.blockDirty = u.blockDirty := by rw [h.same]
theorem Carried.segmentDirty (h : Carried u v) : v.segmentDirty = u.segmentDirty := by rw [h.same]
theorem Carried.flushBlocks (h : Carried u v) : v.flushBlocks = u.flushBlocks := by rw [h.same]

theorem Carried.dirtyBlock (h : Carried u v) : DirtyBlock v = DirtyBlock u := by
  funext epoch block
  rw [DirtyBlock, DirtyBlock, h.blockDirty]

theorem Carried.dirtySegment (h : Carried u v) : DirtySegment v = DirtySegment u := by
  funext epoch s
  rw [DirtySegment, DirtySegment, h.segmentDirty]

/-- What a section for the copy in `area` leaves of the locations it does not fill. -/
def LeavesOthers (u : HybridInst) (area : Area) (sel : Nat → Prop) (v : HybridInst) : Prop :=
  ∀ l, ¬ AtHome area (home u.image area) sel l → (u.image.mem l).DrainsTo (v.image.mem l)

section Round

variable {mode : FlushMode} (hb : Begun n nb X e c stale t mode u)
  (hbound : ∀ s, TouchedSegment t s ∨ DirtySegment t (1 - t.epoch) s →
    t.image.mainToBack s ≠ none)
  (hstale : R → ∀ block, stale block → Touched t block ∨ t.flushMode = .wbinvd)
  (hgap : P → ∀ s, TouchedSegment t s → c s ≠ stateOf (targetArea t.epoch))

include hb

/-- What the section before the commit fills is not what the committed states name. -/
theorem Begun.chosen_ne (hgap : P → ∀ s, TouchedSegment t s → c s ≠ stateOf (targetArea t.epoch))
    (hp : P) {block : Nat} (hin : Chosen u block) :
    c (segmentOf block) ≠ stateOf (targetArea u.epoch) := by
  rcases hin with hdirty | ⟨-, hst, -⟩
  · rw [hb.epoch]
    exact hgap hp _ ((hb.segments _).mp (hb.quiet.marked _ _ hdirty))
  · rw [hb.quiet.lastNamed _ (hb.quiet.marked _ _ hst)]
    exact fun heq => targetArea_ne hb.quiet.parity (stateOf_inj heq).symm

/-- The target copy before the commit. -/
structure FirstDone (n nb : Nat) (X : Content) (e : Nat) (c : Nat → SegmentState) (P R : Prop)
    (u v : HybridInst) : Prop where
  carried : Carried u v
  mainToBack : v.image.mainToBack = u.image.mainToBack
  sound : Sound n nb e c v.image
  refilled : R → Refilled n nb X u.work e c (targetArea u.epoch) v.image
  named : P → Named n nb X e c v.image
  others : LeavesOthers u (targetArea u.epoch) (Chosen u) v

include hbound hstale hgap

theorem Begun.wp_applyFirst {nrThreads : Nat} (hpos : 0 < nrThreads) (schedule : List Nat) :
    Prog.wp (fun v => Atomic P R n nb X Xn e v.image)
      (Prog.par nrThreads schedule fun i => applyFirst i nrThreads)
      (fun _ v => FirstDone n nb X e c P R u v) u := by
  have hne := targetArea_ne hb.quiet.parity
  have hsteady := hb.quiet.steady
  refine Prog.wp_mono (Prog.wp_weaken (fun v hv => ?_) (Prog.wp_crash ?_
    (HybridInst.wp_applyFirst (C := fun v => v.image.mainToBack = u.image.mainToBack ∧
      Current v.image e c ∧ (P → Named n nb X e c v.image)) (hb.startable hbound) ?_ ?_ hpos
      schedule))) fun _ v ⟨⟨hmain, hcur, hnamed⟩, hstep, hfilled⟩ => ?_
  · exact atomic_of_current hv.2.1 hv.2.2
  · exact ⟨rfl, hsteady.named.current, fun _ => hsteady.named⟩
  · rintro a b ⟨hmain, hcur, hnamed⟩ hab
    have hm := hab.mem
    have hframe := hab.frame
    refine ⟨by rw [hab.mainToBack, hmain], ?_, fun hp => ?_⟩
    · rw [hframe]
      exact hcur.of_drains rfl (hm.others _ (not_atHome_of_ne (by simp)))
        fun s _ => hm.others _ (not_atHome_of_ne (by simp))
    · rw [hframe]
      have hm' : RefillMem (targetArea u.epoch) (home a.image (targetArea u.epoch)) u.work
          (Chosen u) a.image.mem b.image.mem := by
        rw [home_congr hmain]
        exact hm
      exact (hnamed hp).refill hm' fun block hin => hb.chosen_ne hgap hp hin
  · exact ⟨rfl, hsteady.named.current, fun _ => hsteady.named⟩
  · refine ⟨hstep.carried, hmain, ?_, fun hr => ?_, hnamed, hstep.mem.others⟩
    · have hsound := hsteady.toSound.refill hstep.mem
      rw [hstep.frame]
      exact hsound
    have hrefilled := hsteady.refilled hne hstep.mem
      (fun block hin => (hfilled block hin).2) (fun block hin => ?_) fun s hs o ho hno => ?_
    · rw [hstep.frame]
      exact hrefilled
    · rcases hstale hr block hin with hin' | hwb
      · exact Or.inl ((hb.touched block).mpr hin')
      · by_cases hdirty : DirtyBlock u u.epoch block
        · exact Or.inl hdirty
        · exact Or.inr ⟨hb.prevFlushMode.trans hwb, hb.quiet.staleDirty block hin, hdirty⟩
    · exact hb.quiet.work s hs o ho fun ht => hno (Or.inl (hb.touched_iff.mp ht))

end Round

/-! ## The commit -/

def roundStates (c : Nat → SegmentState) (u : HybridInst) : Nat → SegmentState :=
  setAll c (layoutSegments u) (targetState u.epoch)

/-- The copies after the commit. -/
structure Committed (n nb : Nat) (e : Nat) (c : Nat → SegmentState) (R : Prop)
    (stale : Nat → Prop) (u v : HybridInst) : Prop where
  carried : Carried u v
  mainToBack : v.image.mainToBack = u.image.mainToBack
  sound : Sound n nb (nextEpoch e) (roundStates c u) v.image
  steady : R → Steady n nb u.work (nextEpoch e) (roundStates c u) (targetArea u.epoch) stale v.image

theorem Committed.named (h : Committed n nb e c R stale u v) (hr : R) :
    Named n nb u.work (nextEpoch e) (roundStates c u) v.image := (h.steady hr).named

theorem mem_layoutSegments_of_range {n : Nat} (hn : t.image.nrMain = n)
    (h : ∀ epoch s, DirtySegment t epoch s → s < n) {s : Nat} :
    s ∈ layoutSegments t ↔ DirtySegment t t.epoch s ∨ DirtySegment t (1 - t.epoch) s :=
  mem_layoutSegments fun epoch s hs => (h epoch s hs).trans_eq hn.symm

section Commit

variable {mode : FlushMode} (hb : Begun n nb X e c stale t mode u)
  (hbound : ∀ s, TouchedSegment t s ∨ DirtySegment t (1 - t.epoch) s →
    t.image.mainToBack s ≠ none)

include hb hbound

theorem FirstDone.wp_commitLayoutState (h : FirstDone n nb X e c P R u v) :
    Prog.wp (fun w => Atomic P R n nb X u.work e w.image) commitLayoutState
      (fun _ w => Committed n nb e c R (DirtyBlock u u.epoch) u w ∧ Keeps v.image w.image) v := by
  have hcarried := h.carried
  have hepoch := hcarried.epoch
  have hsegments : layoutSegments v = layoutSegments u := by
    have hn : v.nrSegments = u.nrSegments := h.sound.nrMain.trans hb.quiet.steady.nrMain.symm
    have hwords : v.dirtySegmentsOf = u.dirtySegmentsOf := by
      funext w
      rw [dirtySegmentsOf, dirtySegmentsOf, hcarried.segmentDirty, hepoch]
    rw [layoutSegments, layoutSegments, hn, hwords]
  have hprog : commitBatch (layoutSegments v) (targetState v.epoch) =
      commitBatch (layoutSegments u) (targetState u.epoch) := by rw [hsegments, hepoch]
  have hmem : ∀ s, s ∈ layoutSegments u ↔
      DirtySegment u u.epoch s ∨ DirtySegment u (1 - u.epoch) s :=
    fun s => mem_layoutSegments_of_range hb.quiet.steady.nrMain hb.quiet.range
  have hstate : targetState u.epoch = stateOf (targetArea u.epoch) := targetState_eq _
  have hsegbound : ∀ s ∈ layoutSegments u, v.image.mainToBack s ≠ none := by
    intro s hs
    rw [h.mainToBack]
    exact (hb.startable hbound).bound s ((hmem s).mp hs)
  have hdirty : ∀ block, DirtyBlock u u.epoch block → segmentOf block ∈ layoutSegments u :=
    fun block hd => (hmem _).mpr (Or.inl (hb.quiet.marked _ _ hd))
  have hsame : ∀ s < n, ∀ o < kWordsPerSegment, ¬ DirtyBlock u u.epoch (blockOf s o) →
      u.work s o = X s o :=
    fun s hs o ho hno => hb.quiet.work s hs o ho fun ht => hno (hb.touched_iff.mp ht)
  have hlt : ∀ s ∈ layoutSegments u, s < v.image.nrMain := by
    intro s hs
    rw [h.sound.nrMain]
    exact ((hmem s).mp hs).elim (hb.quiet.range _ s) (hb.quiet.range _ s)
  have hnow : Atomic P R n nb X u.work e v.image :=
    atomic_of_current h.sound.arrays.toCurrent h.named
  have hnew : R → NamedCopies n nb u.work (roundStates c u) v.image := by
    intro hr
    rw [roundStates, hstate]
    exact (h.refilled hr).namedCopies hsegbound hdirty hsame
  simp only [commitLayoutState, Prog.wp_bind, Prog.wp_read]
  refine ⟨hnow, hnow, wp_onImage ?_⟩
  rw [hprog]
  refine Prog.wp_mono (Prog.wp_weaken (fun j hj => ?_)
    (wp_commitBatch h.sound.arrays hlt (targetState u.epoch))) ?_
  · exact atomic_committing h.sound.nrMain (fun hp => (h.named hp).toNamedCopies) hnew hj
  · rintro _ j ⟨hk, ha⟩
    refine ⟨⟨hcarried.trans (carried_image v j), hk.mainToBack.trans h.mainToBack,
      h.sound.keeps hk ha, fun hr => ?_⟩, hk⟩
    rw [hstate] at ha
    rw [roundStates, hstate]
    exact (h.refilled hr).steady hsegbound hdirty hsame hk ha

end Commit

/-! ## The section after the commit -/

theorem Committed.startable {mode : FlushMode} (hb : Begun n nb X e c stale t mode u)
    (hbound : ∀ s, TouchedSegment t s ∨ DirtySegment t (1 - t.epoch) s →
      t.image.mainToBack s ≠ none) {stale' : Nat → Prop}
    (h : Committed n nb e c R stale' u v) : Startable v := by
  have hs := hb.startable hbound
  have hc := h.carried
  refine ⟨injHome_home h.sound.toBindings, fun s hd => ?_, ?_, fun epoch s hd => ?_, ⟨?_, ?_⟩,
    fun hmode => ?_, h.sound.pending⟩
  · rw [hc.dirtySegment, hc.epoch] at hd
    rw [h.mainToBack]
    exact hs.bound s hd
  · rw [hc.dirtySegment, hc.dirtyBlock]
    exact hs.marked
  · rw [hc.dirtySegment] at hd
    rw [nrSegments, h.sound.nrMain]
    exact hb.quiet.range epoch s hd
  · rw [NoneFull, hc.flushBlocks, hc.dirtyBlock, hc.epoch, listedBlocks, hc.flushBlocks]
    exact hs.lists.listed
  · rw [hc.dirtyBlock, hc.epoch, listedBlocks, hc.flushBlocks]
    exact hs.lists.dirty
  · rw [NoneFull, hc.flushBlocks]
    exact hs.full (hc.flushMode ▸ hmode)

theorem Committed.wp_applySecond {mode : FlushMode} (hb : Begun n nb X e c stale t mode u)
    (hbound : ∀ s, TouchedSegment t s ∨ DirtySegment t (1 - t.epoch) s →
      t.image.mainToBack s ≠ none) (h : Committed n nb e c R (DirtyBlock u u.epoch) u v)
    {nrThreads : Nat} (hpos : 0 < nrThreads) (schedule : List Nat) :
    Prog.wp (fun w => Atomic P R n nb X u.work e w.image)
      (Prog.par nrThreads schedule fun i => applySecond i nrThreads)
      (fun _ w => Committed n nb e c R (fun _ => False) u w ∧
        LeavesOthers v (targetArea (1 - u.epoch)) (DirtyBlock u u.epoch) w) v := by
  have hc := h.carried
  have hparity : v.epoch = 0 ∨ v.epoch = 1 := hc.epoch ▸ hb.quiet.parity
  have hne := targetArea_ne hb.quiet.parity
  refine Prog.wp_mono (Prog.wp_weaken (fun w hw => ?_) (Prog.wp_crash ?_
    (HybridInst.wp_applySecond (C := fun w => w.image.mainToBack = v.image.mainToBack ∧
      Current w.image (nextEpoch e) (roundStates c u) ∧
      (R → Named n nb u.work (nextEpoch e) (roundStates c u) w.image)) (h.startable hb hbound)
      hparity ?_ ?_ hpos schedule))) fun _ w ⟨⟨hmain, _⟩, hstep, hfilled⟩ => ?_
  · exact atomic_of_next hw.2.1 hw.2.2
  · exact ⟨rfl, h.sound.arrays.toCurrent, h.named⟩
  · rintro a b ⟨hmain, hcur, hnamed⟩ hab
    have hm := hab.mem
    refine ⟨by rw [hab.mainToBack, hmain], ?_, fun hr => ?_⟩
    · rw [hab.frame]
      exact hcur.of_drains rfl (hm.others _ (not_atHome_of_ne (by simp)))
        fun s _ => hm.others _ (not_atHome_of_ne (by simp))
    rw [hab.frame]
    have hm' : RefillMem (targetArea (1 - v.epoch)) (home a.image (targetArea (1 - v.epoch))) v.work
        (DirtyBlock v v.epoch) a.image.mem b.image.mem := by
      rw [home_congr hmain]
      exact hm
    refine (hnamed hr).refill hm' fun block hin => ?_
    rw [hc.dirtyBlock, hc.epoch] at hin
    rw [(h.steady hr).staleNamed block hin, hc.epoch]
    exact fun heq => hne (stateOf_inj heq)
  · exact ⟨rfl, h.sound.arrays.toCurrent, h.named⟩
  · have hothers := hstep.mem.others
    rw [hc.dirtyBlock, hc.epoch] at hstep hfilled hothers
    have hsound := h.sound.refill hstep.mem
    refine ⟨⟨hc.trans hstep.carried, hmain.trans h.mainToBack, ?_, fun hr => ?_⟩, hothers⟩
    · rw [hstep.frame]
      exact hsound
    have hrefilled := (h.steady hr).refilled
      hne.symm hstep.mem (fun block hin => (hfilled block hin).2) (fun block hin => hin)
      fun s _ o _ _ => by rw [hc.work]
    rw [hc.work] at hrefilled
    have hsettled := hrefilled.settle (targetArea u.epoch)
    rw [hstep.frame]
    exact hsettled

/-! ## The end of a round -/

def Left (u : HybridInst) (block : Nat) : Prop :=
  u.flushMode = .wbinvd ∧ DirtyBlock u (1 - u.epoch) block

/-- What a round that has written blocks leaves. -/
structure Completed (n nb : Nat) (e : Nat) (c c' : Nat → SegmentState) (R : Prop)
    (t u : HybridInst) : Prop where
  quiet : R → Quiet n nb t.work (nextEpoch e) c' (Left u) u
  sound : Sound n nb (nextEpoch e) c' u.image
  active : u.flushMode ≠ .noAction
  busy : ∃ block, Touched t block
  clean : ∀ block, ¬ Touched u block
  epoch : u.epoch = 1 - t.epoch
  written : ∀ s, TouchedSegment t s ∨ DirtySegment t (1 - t.epoch) s → c' s = targetState t.epoch
  kept : ∀ s, ¬ (TouchedSegment t s ∨ DirtySegment t (1 - t.epoch) s) → c' s = c s
  last : ∀ s, DirtySegment u (1 - u.epoch) s ↔ TouchedSegment t s
  mainToBack : u.image.mainToBack = t.image.mainToBack
  few : u.flushMode ≠ .wbinvd → ∃ l : List Nat, l.length < kMaxFlushBlocks ∧
    ∀ block, Touched t block → block ∈ l
  others : u.flushMode = .wbinvd → ∀ area ≠ targetArea t.epoch, ∀ d o,
    u.image.mem.load (.word area d o) = t.image.mem.load (.word area d o)
  untouched : t.flushMode ≠ .wbinvd → ∀ s d o, home t.image (targetArea t.epoch) s = some d →
    o < kWordsPerSegment → ¬ Touched t (blockOf s o) →
      u.image.mem.load (.word (targetArea t.epoch) d o) =
        t.image.mem.load (.word (targetArea t.epoch) d o)

/-- What a checkpoint with nothing to write leaves. -/
structure Idle (n nb : Nat) (e : Nat) (c : Nat → SegmentState) (stale : Nat → Prop)
    (t u : HybridInst) : Prop where
  quiet : Quiet n nb t.work e c stale u
  image : u.image = t.image
  work : u.work = t.work
  epoch : u.epoch = t.epoch
  flushMode : u.flushMode = .noAction
  last : ∀ s, DirtySegment u (1 - u.epoch) s ↔ DirtySegment t (1 - t.epoch) s
  untouched : ∀ block, ¬ Touched t block
  clean : ∀ block, ¬ Touched u block

theorem wp_setAttributes (value : Nat) {C : HybridInst → Prop} {Q : Unit → HybridInst → Prop}
    (hC : ∀ i, Unchanged v.image i → C { v with image := i })
    (hQ : ∀ i, Unchanged v.image i → Q () { v with image := i }) :
    Prog.wp C (onImage (setAttributes value)) Q v := by
  apply wp_onImage
  refine CheckpointImage.wp_setAttributes value fun m hm => ?_
  have hsame : Unchanged v.image { v.image with mem := m } := ⟨rfl, rfl, rfl, rfl, hm⟩
  exact ⟨hC _ hsame, hQ _ hsame⟩

/-- What clearing the bits of the last round and flipping the epoch leave of the bits. -/
structure Flipped (u x : HybridInst) : Prop where
  work : x.work = u.work
  flushMode : x.flushMode = u.flushMode
  epoch : x.epoch = 1 - u.epoch
  flushBlocks : x.flushBlocks = fun _ => []
  unbuffered : (∀ addr, ¬ Buffered u addr) → ∀ addr, ¬ Buffered x addr
  clean : ∀ block, ¬ DirtyBlock x (1 - u.epoch) block
  cleanSegment : ∀ s, ¬ DirtySegment x (1 - u.epoch) s
  blocks : ∀ epoch ≠ 1 - u.epoch, ∀ block, DirtyBlock x epoch block ↔ DirtyBlock u epoch block
  segments : ∀ epoch ≠ 1 - u.epoch, ∀ s, DirtySegment x epoch s ↔ DirtySegment u epoch s

section Finish

variable {mode : FlushMode} (hb : Begun n nb X e c stale t mode u)

include hb

theorem Committed.flipped {stale' : Nat → Prop} (h : Committed n nb e c R stale' u v)
    {w : HybridInst} (hw : Cleared v (List.range v.nrSegments) w) {i : CheckpointImage}
    (flag : Bool) (hi : i.nrMain = v.image.nrMain) :
    Flipped u { w with
      image := i, hasSnapshot := flag, flushBlocks := fun _ => [], epoch := 1 - w.epoch } := by
  have hc := h.carried
  have hmarked : ∀ epoch s, DirtySegment v epoch s → s < v.nrSegments := by
    intro epoch s hd
    rw [hc.dirtySegment] at hd
    rw [nrSegments, h.sound.nrMain]
    exact hb.quiet.range epoch s hd
  refine ⟨?_, ?_, ?_, rfl, fun hno addr hbuf => hno addr ?_, fun block hd => ?_, fun s hd => ?_,
    fun epoch hother block => ?_, fun epoch hother s => ?_⟩
  · have hsame : w.work = v.work := by rw [hw.same]
    exact hsame.trans hc.work
  · have hsame : w.flushMode = v.flushMode := by rw [hw.same]
    exact hsame.trans hc.flushMode
  · exact congrArg (1 - ·) (hw.epoch.trans hc.epoch)
  · have hbuffer : w.addressBuffer = u.addressBuffer := by rw [hw.same, hc.same]
    obtain ⟨⟨id, hid, hin⟩, hlt⟩ := hbuf
    refine ⟨⟨id, hid, hbuffer ▸ hin⟩, ?_⟩
    change addr < i.nrMain * kSegmentSize at hlt
    rwa [hi, h.sound.nrMain, ← hb.quiet.steady.nrMain] at hlt
  · change DirtyBlock w (1 - u.epoch) block at hd
    rw [← hc.epoch, hw.blocks] at hd
    have hmark : DirtySegment v (1 - v.epoch) (segmentOf block) := by
      rw [hc.dirtySegment]
      exact hb.quiet.marked _ _ (hc.dirtyBlock ▸ hd.1)
    exact hd.2 ⟨hmark, List.mem_range.mpr (hmarked _ _ hmark)⟩
  · change DirtySegment w (1 - u.epoch) s at hd
    rw [← hc.epoch, hw.segments] at hd
    exact hd.2 (List.mem_range.mpr (hmarked _ _ hd.1))
  · change DirtyBlock w epoch block ↔ _
    rw [DirtyBlock, hw.otherBlocks epoch (hc.epoch ▸ hother), hc.blockDirty]
    rfl
  · change DirtySegment w epoch s ↔ _
    rw [DirtySegment, hw.otherSegments epoch (hc.epoch ▸ hother), hc.segmentDirty]
    rfl

theorem Begun.flip_flip : 1 - (1 - u.epoch) = u.epoch := by
  rcases hb.quiet.parity with hp | hp <;> omega

theorem Begun.epoch_ne_flip : u.epoch ≠ 1 - u.epoch := by
  rcases hb.quiet.parity with hp | hp <;> omega

theorem Flipped.left_iff {x : HybridInst} (hx : Flipped u x) {block : Nat} :
    Left x block ↔ mode = .wbinvd ∧ DirtyBlock u u.epoch block := by
  rw [Left, hx.flushMode, hb.flushMode, hx.epoch, hb.flip_flip, hx.blocks _ hb.epoch_ne_flip]

theorem Flipped.quiet {x : HybridInst} (hx : Flipped u x)
    (hi : Steady n nb u.work (nextEpoch e) (roundStates c u) (targetArea u.epoch) (Left x) x.image) :
    Quiet n nb t.work (nextEpoch e) (roundStates c u) (Left x) x := by
  have hflip := hb.flip_flip
  have hne := hb.epoch_ne_flip
  refine ⟨?_, ?_, fun s hs o ho _ => ?_, ⟨fun _ block hd => ?_, fun block hin => ?_⟩,
    fun epoch block hd => ?_, fun epoch s hd => ?_, fun block hst => hst.2, fun s hd => ?_⟩
  · rw [hx.epoch, hflip, ← hb.work]
    exact hi
  · rw [hx.epoch]
    rcases hb.quiet.parity with hp | hp <;> simp [hp]
  · rw [hx.work, hb.work]
  · rw [hx.epoch] at hd
    exact absurd hd (hx.clean block)
  · simp [listedBlocks, hx.flushBlocks] at hin
  · by_cases hother : epoch = 1 - u.epoch
    · exact absurd (hother ▸ hd) (hx.clean block)
    · rw [hx.blocks _ hother] at hd
      rw [hx.segments _ hother]
      exact hb.quiet.marked _ _ hd
  · by_cases hother : epoch = 1 - u.epoch
    · exact absurd (hother ▸ hd) (hx.cleanSegment s)
    · rw [hx.segments _ hother] at hd
      exact hb.quiet.range _ _ hd
  · rw [hx.epoch, hflip, hx.segments _ hne] at hd
    rw [hx.epoch, hflip, ← targetState_eq, roundStates, setAll, if_pos]
    exact (mem_layoutSegments_of_range hb.quiet.steady.nrMain hb.quiet.range).mpr (Or.inl hd)

/-- What the round has left of the locations it does not fill. -/
structure Traced (u v : HybridInst) : Prop where
  others : u.flushMode = .wbinvd → ∀ area ≠ targetArea u.epoch, ∀ d o,
    v.image.mem.load (.word area d o) = u.image.mem.load (.word area d o)
  untouched : ∀ s d o, home u.image (targetArea u.epoch) s = some d → o < kWordsPerSegment →
    ¬ Chosen u (blockOf s o) →
      v.image.mem.load (.word (targetArea u.epoch) d o) =
        u.image.mem.load (.word (targetArea u.epoch) d o)

theorem Begun.busy (hmode : mode ≠ .noAction) : ∃ block, Touched t block := by
  by_contra hno
  have hlists : u.listedBlocks = [] := by
    refine List.eq_nil_iff_forall_not_mem.mpr fun block hin => hno ⟨block, ?_⟩
    exact (hb.touched block).mp (hb.quiet.lists.dirty block hin)
  exact hmode (hb.noAction_of_nil hlists)

theorem Committed.completed {stale' : Nat → Prop} (h : Committed n nb e c R stale' u v)
    (hmode : mode ≠ .noAction)
    (hstale : ∀ block, stale' block ↔ mode = .wbinvd ∧ DirtyBlock u u.epoch block)
    (htrace : Traced u v) {w : HybridInst} (hw : Cleared v (List.range v.nrSegments) w)
    {i : CheckpointImage} (flag : Bool) (hi : Unchanged v.image i) :
    Completed n nb e c (roundStates c u) R t { w with
      image := i, hasSnapshot := flag, flushBlocks := fun _ => [], epoch := 1 - w.epoch } := by
  have hx := h.flipped hb hw flag hi.nrMain
  have hflip := hb.flip_flip
  have hne := hb.epoch_ne_flip
  have hmem : ∀ s, s ∈ layoutSegments u ↔
      TouchedSegment t s ∨ DirtySegment t (1 - t.epoch) s := by
    intro s
    rw [mem_layoutSegments_of_range hb.quiet.steady.nrMain hb.quiet.range, hb.segments, hb.epoch,
      hb.last]
  have hmodeOf := hx.flushMode.trans hb.flushMode
  have hload : ∀ area d o, i.mem.load (.word area d o) = v.image.mem.load (.word area d o) :=
    fun area d o => (hi.mem (.word area d o) (by simp)).cur
  refine ⟨fun hr => hx.quiet hb ?_, h.sound.unchanged hi, fun heq => hmode (hmodeOf.symm.trans heq),
    hb.busy hmode, fun block ht => ?_, hx.epoch.trans (congrArg (1 - ·) hb.epoch), fun s hs => ?_,
    fun s hs => ?_, fun s => ?_, ?_, fun hne => ?_, fun hwb area harea d o => ?_,
    fun hprev s d o hd ho hno => ?_⟩
  · have hleft : Left { w with
        image := i, hasSnapshot := flag, flushBlocks := fun _ => [], epoch := 1 - w.epoch } =
        stale' := by
      funext block
      exact propext ((hx.left_iff hb).trans (hstale block).symm)
    rw [hleft]
    exact (h.steady hr).unchanged hi
  · rcases ht with hd | ⟨addr, haddr, -⟩
    · rw [hx.epoch] at hd
      exact hx.clean block hd
    · exact hx.unbuffered hb.unbuffered addr haddr
  · rw [roundStates, setAll, if_pos ((hmem s).mpr hs), hb.epoch]
  · rw [roundStates, setAll, if_neg fun hin => hs ((hmem s).mp hin)]
  · rw [hx.epoch, hflip, hx.segments _ hne]
    exact hb.segments s
  · exact hi.mainToBack.trans (h.mainToBack.trans (congrArg CheckpointImage.mainToBack hb.image))
  · have hne' : mode ≠ .wbinvd := fun heq => hne (hmodeOf.trans heq)
    refine ⟨u.listedBlocks, hb.few hne', fun block hblock => ?_⟩
    exact hb.quiet.lists.listed (hb.noneFull hne') block ((hb.touched block).mpr hblock)
  · have hwb' : u.flushMode = .wbinvd := hb.flushMode.trans (hmodeOf.symm.trans hwb)
    rw [hload, htrace.others hwb' area (hb.epoch ▸ harea) d o, hb.image]
  · have htarget : targetArea t.epoch = targetArea u.epoch := by rw [hb.epoch]
    rw [htarget] at hd ⊢
    rw [hload, htrace.untouched s d o (hb.image ▸ hd) ho ?_, hb.image]
    rintro (hdirty | ⟨hwb, -⟩)
    · exact hno ((hb.touched _).mp hdirty)
    · exact hprev (hb.prevFlushMode.symm.trans hwb)

theorem Committed.wp_finishRound {stale' : Nat → Prop} (h : Committed n nb e c R stale' u v)
    (hmode : mode ≠ .noAction)
    (hstale : ∀ block, stale' block ↔ mode = .wbinvd ∧ DirtyBlock u u.epoch block)
    (htrace : Traced u v) :
    Prog.wp (fun w => Atomic P R n nb X u.work e w.image) finishRound
      (fun _ w => Completed n nb e c (roundStates c u) R t w) v := by
  have hcleared := cleared_clearDirtyBitsLastEpoch v
  have himage : (clearDirtyBitsLastEpoch v).image = v.image := hcleared.image
  have hatomic : ∀ {i : CheckpointImage}, Unchanged v.image i → Atomic P R n nb X u.work e i :=
    fun hi => atomic_of_next (h.sound.unchanged hi).arrays.toCurrent
      fun hr => ((h.steady hr).unchanged hi).named
  have hcur : Atomic P R n nb X u.work e v.image := hatomic (.refl _)
  simp only [finishRound, Prog.wp_bind, Prog.wp_act, Prog.wp_read]
  refine ⟨himage ▸ hcur, himage ▸ hcur, ?_⟩
  split
  · simp only [Prog.wp_bind, Prog.wp_act]
    refine ⟨himage ▸ hcur, himage ▸ hcur, ?_⟩
    exact h.completed hb hmode hstale htrace hcleared _ (himage.symm ▸ .refl _)
  · simp only [Prog.wp_bind]
    refine wp_setAttributes kAttributeHasSnapshot (fun i hi => hatomic (himage ▸ hi)) fun i hi => ?_
    simp only [Prog.wp_act]
    rw [himage] at hi
    exact ⟨hatomic hi, hatomic hi, hatomic hi,
      h.completed hb hmode hstale htrace hcleared true hi⟩

end Finish

/-! ## The checkpoint -/

theorem LeavesOthers.load {area : Area} {sel : Nat → Prop} (h : LeavesOthers u area sel v) {l : Loc}
    (hl : ¬ AtHome area (home u.image area) sel l) : v.image.mem.load l = u.image.mem.load l :=
  (h l hl).cur

theorem Quiet.idle {mode : FlushMode} (hb : Begun n nb X e c stale t mode u)
    (hmode : mode = .noAction) : Idle n nb e c stale t u := by
  have hno : ∀ block, ¬ Touched t block :=
    fun block ht => hb.empty hmode block ((hb.touched block).mpr ht)
  have hsame : ∀ s < n, ∀ o < kWordsPerSegment, X s o = t.work s o := by
    intro s hs o ho
    rw [← hb.work]
    exact (hb.quiet.work s hs o ho fun ht =>
      hb.empty hmode _ (hb.touched_iff.mp ht)).symm
  have hq := hb.quiet
  have hst := hq.steady
  refine ⟨{ hq with
    steady := { hst with
      initial := fun s hs hinit o ho => hsame s hs o ho ▸ hst.initial s hs hinit o ho
      copies := fun area s hs d hd o ho hf => hsame s hs o ho ▸ hst.copies area s hs d hd o ho hf }
    work := fun s hs o ho _ => congrFun (congrFun hb.work s) o }, hb.image, hb.work, hb.epoch,
    hb.flushMode.trans hmode, fun s => ?_, hno,
    fun block ht => hb.empty hmode block (hb.touched_iff.mp ht)⟩
  rw [hb.epoch]
  exact hb.last s

/-- A checkpoint is atomic if no dirty segment has the copy that the round writes as its
committed one, and it leaves working memory in the copies if what is stale is brought up
to date or dirty again. -/
theorem wp_checkpoint (h : Quiet n nb X e c stale t) {tid nrThreads : Nat} (htid : tid < kMaxThreads)
    (hpos : 0 < nrThreads) (firstSchedule secondSchedule : List Nat)
    (hbound : ∀ s, TouchedSegment t s ∨ DirtySegment t (1 - t.epoch) s →
      t.image.mainToBack s ≠ none)
    (hstale : R → ∀ block, stale block → Touched t block ∨ t.flushMode = .wbinvd)
    (hgap : P → ∀ s, TouchedSegment t s → c s ≠ stateOf (targetArea t.epoch)) :
    Prog.wp (fun u => Atomic P R n nb X t.work e u.image)
      (checkpoint tid nrThreads firstSchedule secondSchedule)
      (fun _ u => (∃ c', Completed n nb e c c' R t u) ∨ Idle n nb e c stale t u) t := by
  rw [checkpoint, Prog.wp_bind]
  refine Prog.wp_mono (Prog.wp_weaken (fun u hu => ?_) (wp_beginCheckpoint h htid))
    fun mode u hb => ?_
  · have himage : u.image = t.image := hu
    rw [himage]
    exact h.steady.named.atomic
  split
  · rename_i hmode
    exact Prog.wp_pure.mpr (Or.inr (Quiet.idle hb hmode))
  rename_i hmode
  rw [← hb.work]
  rw [Prog.wp_bind]
  refine Prog.wp_mono (hb.wp_applyFirst hbound hstale hgap hpos firstSchedule) fun _ v hv => ?_
  rw [Prog.wp_bind]
  refine Prog.wp_mono (hv.wp_commitLayoutState hb hbound) fun _ w ⟨hw, hk⟩ => ?_
  have hload : ∀ area d o, ¬ AtHome (targetArea u.epoch) (home u.image (targetArea u.epoch))
      (Chosen u) (.word area d o) →
      w.image.mem.load (.word area d o) = u.image.mem.load (.word area d o) := by
    intro area d o hno
    rw [hk.load (isData_word area d o), hv.others.load hno]
  have hinj := injHome_home hb.quiet.steady.toBindings (targetArea u.epoch)
  have hfirst : ∀ s d o, home u.image (targetArea u.epoch) s = some d → o < kWordsPerSegment →
      ¬ Chosen u (blockOf s o) →
      w.image.mem.load (.word (targetArea u.epoch) d o) =
        u.image.mem.load (.word (targetArea u.epoch) d o) :=
    fun s d o hd ho hno => hload _ d o (not_atHome_word hinj hd hno)
  split
  · rename_i hwb
    refine Prog.wp_mono (hw.wp_finishRound hb hmode (fun block => ?_) ⟨fun _ area harea d o => ?_, hfirst⟩)
      fun _ x hx => Or.inl ⟨_, hx⟩
    · simp [hwb]
    · exact hload area d o (not_atHome_of_ne fun d' o' heq => harea (by injection heq))
  · rename_i hwb
    rw [Prog.wp_bind]
    refine Prog.wp_mono (hw.wp_applySecond hb hbound hpos secondSchedule) fun _ x ⟨hx, hothers⟩ => ?_
    refine Prog.wp_mono (hx.wp_finishRound hb hmode (fun block => ?_) ⟨fun heq => ?_, fun s d o hd ho hno => ?_⟩)
      fun _ y hy => Or.inl ⟨_, hy⟩
    · simp [hwb]
    · exact absurd (hb.flushMode.symm.trans heq) hwb
    · rw [hothers.load (not_atHome_of_ne fun d' o' heq => ?_), hfirst s d o hd ho hno]
      exact targetArea_ne hb.quiet.parity (by injection heq)

end Libcrpm.HybridInst
