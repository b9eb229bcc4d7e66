import Libcrpm.HybridRuns

/-!
# Dirty bits and flush lists of the hybrid engine

Hooks record blocks, rounds read what they have recorded, and at the end of a round the
bits of the round before it are cleared for the next one.  None of this depends on the
image or on what the round copies.
-/

namespace Libcrpm.HybridInst

open Libcrpm.Persistence Libcrpm.Program CheckpointImage

variable {n nb : Nat} {t u v : HybridInst}

/-! ## What the sections of a round leave alone -/

/-- `u` is `t` up to the content of the image and the allocation of back segments. -/
structure Aside (t u : HybridInst) : Prop where
  same : u = { t with
    image := u.image, backMemoryLock := u.backMemoryLock, nextBackSegment := u.nextBackSegment }
  nrMain : u.image.nrMain = t.image.nrMain

theorem Aside.refl (t : HybridInst) : Aside t t := ⟨rfl, rfl⟩

theorem Aside.trans (h : Aside t u) (h' : Aside u v) : Aside t v :=
  ⟨by rw [h'.same, h.same], h'.nrMain.trans h.nrMain⟩

theorem aside_read {α : Type} (f : HybridInst → α) : (Prog.read f).Within Aside :=
  Prog.within_read Aside.refl f

theorem aside_onImage {α : Type} {p : Prog CheckpointImage α} (h : p.Within SameMain) :
    (onImage p).Within Aside :=
  Prog.within_zoom (fun _ _ hmain => ⟨rfl, hmain⟩) h

theorem aside_onNvm (f : HybridInst → Nvm → Nvm) :
    (Prog.act fun t => onNvm (f t) t).Within Aside :=
  Prog.within_act.mpr fun _ => ⟨rfl, rfl⟩

theorem aside_advanceNextBackSegment : advanceNextBackSegment.Within Aside :=
  Prog.within_act.mpr fun _ => ⟨rfl, rfl⟩

theorem aside_takeBackSegment (s b : Nat) : (takeBackSegment s b).Within Aside := by
  refine Prog.within_bind (aside_onImage (sameMain_bindBackSegment s b)) fun _ => ?_
  refine Prog.within_bind aside_advanceNextBackSegment fun _ => ?_
  exact Prog.within_act.mpr fun _ => ⟨rfl, rfl⟩

theorem aside_allocateLoop (s rounds : Nat) : (allocateLoop s rounds).Within Aside := by
  induction rounds with
  | zero => trivial
  | succ rounds ih =>
      unfold allocateLoop
      refine Prog.within_bind (aside_read _) fun b => Prog.within_bind (aside_read _) fun owner => ?_
      cases owner with
      | none => exact aside_takeBackSegment s b
      | some o =>
          refine Prog.within_bind (aside_read _) fun dirty => ?_
          split
          · exact Prog.within_bind aside_advanceNextBackSegment fun _ => ih
          · exact aside_takeBackSegment s b

theorem aside_findBackSegment (s : Nat) : (findBackSegment s).Within Aside := by
  refine Prog.within_bind (aside_read _) fun back => ?_
  cases back with
  | some b => exact Prog.within_pure _
  | none =>
      refine Prog.within_bind ?_ fun _ => Prog.within_bind (aside_read _) fun bound => ?_
      · refine Prog.within_bind (Prog.within_await.mpr fun _ => ⟨rfl, rfl⟩) fun _ => ?_
        exact Prog.within_bind (aside_read _) fun rounds => aside_allocateLoop s rounds
      · cases bound with
        | some b => exact Prog.within_pure _
        | none => exact Prog.within_exit

theorem aside_scanBlocks {bits : HybridInst → Nat → BitVec 64} {body : Nat → Prog HybridInst Unit}
    (h : ∀ index, (body index).Within Aside) : (scanBlocks bits body).Within Aside :=
  Prog.within_forEach fun _ _ => Prog.within_bind (aside_read _) fun _ =>
    Prog.within_forEach fun _ _ => h _

theorem aside_applyNvmToNvmParallel (tid nrThreads : Nat) :
    (applyNvmToNvmParallel tid nrThreads).Within Aside := by
  refine Prog.within_bind (aside_read _) fun count => Prog.within_forEach fun s _ => ?_
  refine Prog.within_bind (aside_read _) fun dirty => ?_
  split
  · exact Prog.within_pure _
  refine Prog.within_bind (aside_read _) fun back => ?_
  cases back with
  | none => exact Prog.within_pure _
  | some b =>
      refine Prog.within_bind (aside_read _) fun epoch => aside_scanBlocks fun index => ?_
      split
      · exact aside_onNvm _
      · exact aside_onNvm _

theorem aside_forEachFlushBlock {body : Nat → Prog HybridInst Unit}
    (h : ∀ block, (body block).Within Aside) (id : Nat) : (forEachFlushBlock body id).Within Aside :=
  Prog.within_bind (aside_read _) fun _ => Prog.within_forEach fun block _ => h block

theorem aside_applyDramToBackSegment (s : Nat) : (applyDramToBackSegment s).Within Aside := by
  refine Prog.within_bind (aside_read _) fun dirty => ?_
  split
  · exact Prog.within_pure _
  refine Prog.within_bind (aside_findBackSegment s) fun found => ?_
  refine Prog.within_bind (aside_read _) fun state => ?_
  split
  · exact aside_onNvm _
  · exact aside_scanBlocks fun index => aside_onNvm _

theorem aside_applyDramToBackBlock (block : Nat) : (applyDramToBackBlock block).Within Aside := by
  refine Prog.within_bind (aside_findBackSegment _) fun found => ?_
  refine Prog.within_bind (aside_read _) fun state => ?_
  split
  · exact aside_onNvm _
  · exact aside_onNvm _

theorem aside_applyDramToBackParallel (tid nrThreads : Nat) :
    (applyDramToBackParallel tid nrThreads).Within Aside := by
  have hfence : (Prog.act (onNvm Memory.fence)).Within Aside := aside_onNvm fun _ => Memory.fence
  refine Prog.within_bind (aside_read _) fun mode => Prog.within_bind (aside_read _) fun count => ?_
  dsimp only
  split
  · exact Prog.within_bind (Prog.within_forEach fun s _ => aside_applyDramToBackSegment s)
      fun _ => hfence
  · split
    · refine Prog.within_bind (Prog.within_forEach fun id _ => ?_) fun _ => hfence
      exact aside_forEachFlushBlock (fun block => aside_applyDramToBackBlock block) id
    · exact hfence

theorem aside_saveMain (s : Nat) : (saveMain s).Within Aside := by
  refine Prog.within_bind (aside_read _) fun state => ?_
  split
  · refine Prog.within_bind (aside_findBackSegment s) fun found => ?_
    dsimp only
    split
    · refine Prog.within_bind ?_ fun _ => aside_onImage (sameMain_setSegmentStateAtomic s .back)
      exact aside_onNvm fun _ m => ntCopy m .main s .back found.1 wholeSegment
    · exact Prog.within_pure _
  · exact Prog.within_pure _

theorem aside_applyDramToMainSegment (s : Nat) : (applyDramToMainSegment s).Within Aside := by
  refine Prog.within_bind (aside_read _) fun dirty => ?_
  split
  · exact Prog.within_pure _
  · exact Prog.within_bind (aside_saveMain s) fun _ => aside_scanBlocks fun index => aside_onNvm _

theorem aside_applyDramToMainParallel (tid nrThreads : Nat) :
    (applyDramToMainParallel tid nrThreads).Within Aside := by
  have hfence : (Prog.act (onNvm Memory.fence)).Within Aside := aside_onNvm fun _ => Memory.fence
  refine Prog.within_bind (aside_read _) fun mode => Prog.within_bind (aside_read _) fun count => ?_
  dsimp only
  split
  · exact Prog.within_bind (Prog.within_forEach fun s _ => aside_applyDramToMainSegment s)
      fun _ => hfence
  · refine Prog.within_bind (Prog.within_forEach fun id _ => ?_) fun _ => hfence
    refine aside_forEachFlushBlock (fun block => ?_) id
    exact Prog.within_bind (aside_saveMain _) fun _ => aside_onNvm _

theorem aside_applyFirst (tid nrThreads : Nat) : (applyFirst tid nrThreads).Within Aside := by
  have happly : (do
      let epoch ← Prog.read epoch
      if epoch ≠ 0 then applyDramToBackParallel tid nrThreads
      else applyDramToMainParallel tid nrThreads).Within Aside := by
    refine Prog.within_bind (aside_read _) fun epoch => ?_
    split
    · exact aside_applyDramToBackParallel tid nrThreads
    · exact aside_applyDramToMainParallel tid nrThreads
  refine Prog.within_bind (aside_read _) fun prev => ?_
  dsimp only
  split
  · exact Prog.within_bind (aside_applyNvmToNvmParallel tid nrThreads) fun _ => happly
  · exact happly

theorem aside_applySecond (tid nrThreads : Nat) : (applySecond tid nrThreads).Within Aside := by
  refine Prog.within_bind (aside_read _) fun epoch => ?_
  split
  · exact aside_applyDramToMainParallel tid nrThreads
  · exact aside_applyDramToBackParallel tid nrThreads

theorem aside_commitLayoutState : commitLayoutState.Within Aside :=
  Prog.within_bind (aside_read _) fun state => Prog.within_bind (aside_read _) fun segments =>
    aside_onImage (sameMain_commitBatch segments state)

/-! ## The invariant -/

/-- The dirty bits and the flush lists between two calls. -/
structure Tracking (n : Nat) (t : HybridInst) : Prop where
  pool : t.nrSegments = n
  parity : t.epoch = 0 ∨ t.epoch = 1
  lists : Listed t
  marked : ∀ epoch block, DirtyBlock t epoch block → DirtySegment t epoch (segmentOf block)
  range : ∀ epoch s, DirtySegment t epoch s → s < n

theorem Tracking.capacity_eq (h : Tracking n t) : t.capacity = n * kSegmentSize := by
  rw [capacity, h.pool]

theorem Noted.nrSegments (h : Noted t u) : u.nrSegments = t.nrSegments := by
  rw [HybridInst.nrSegments, HybridInst.nrSegments, h.image]

theorem Tracking.recorded {tid block : Nat} (h : Tracking n t) (hr : Recorded tid block t u)
    (htid : tid < kMaxThreads) (hlt : segmentOf block < n) : Tracking n u where
  pool := hr.noted.nrSegments.trans h.pool
  parity := hr.noted.epoch ▸ h.parity
  lists := hr.lists_of htid h.lists
  marked epoch b hb := by
    rw [hr.segments]
    rcases (hr.blocks epoch b).mp hb with ⟨rfl, rfl⟩ | hb
    · exact Or.inl ⟨rfl, rfl⟩
    · exact Or.inr (h.marked epoch b hb)
  range epoch s hs := by
    rcases (hr.segments epoch s).mp hs with ⟨-, rfl⟩ | hs
    · exact hlt
    · exact h.range epoch s hs

/-! ## Hooks -/

/-- What a hook that reaches `block` leaves. -/
structure Marked (n block : Nat) (t u : HybridInst) : Prop where
  tracking : Tracking n u
  noted : Noted t u
  dirty : DirtyBlock u u.epoch block

theorem Tracking.marked_of_recorded {tid block : Nat} (h : Tracking n t)
    (hr : Recorded tid block t u) (htid : tid < kMaxThreads) (hlt : segmentOf block < n) :
    Marked n block t u :=
  ⟨h.recorded hr htid hlt, hr.noted, (hr.blocks _ _).mpr (Or.inl ⟨hr.noted.epoch, rfl⟩)⟩

theorem track_hookRoutine (h : Tracking n t) {tid addr : Nat} (htid : tid < kMaxThreads)
    (haddr : addr < n * kSegmentSize) :
    Prog.wp (fun _ => True) (hookRoutine tid addr)
      (fun _ u => Marked n (addr >>> kBlockShift) t u) t := by
  have hlt : segmentOf (addr >>> kBlockShift) < n := by
    rw [segmentOf_block]
    exact shiftRight_kSegmentShift_lt haddr
  rw [hookRoutine, Prog.wp_bind, Prog.wp_read]
  refine ⟨trivial, ?_⟩
  split
  · rename_i hdirty
    exact Prog.wp_pure.mpr ⟨h, .refl t, hdirty⟩
  · rw [← segmentOf_block]
    refine wp_pushed (fun _ _ => trivial) fun u hu => ?_
    exact Prog.wp_mono (hu.wp_markSegment fun _ _ => trivial) fun _ v hv =>
      h.marked_of_recorded hv htid hlt

theorem track_hookBlocks {tid : Nat} (htid : tid < kMaxThreads) {addresses : List Nat}
    {last : Option Nat} (h : Tracking n t) (hin : ∀ a ∈ addresses, a < n * kSegmentSize)
    (hlast : ∀ s ∈ last, DirtySegment t t.epoch s) :
    Prog.wp (fun _ => True) (hookBlocks tid addresses last)
      (fun _ u => Tracking n u ∧ Noted t u ∧
        ∀ a ∈ addresses, DirtyBlock u u.epoch (a >>> kBlockShift)) t := by
  induction addresses generalizing t last with
  | nil => exact Prog.wp_pure.mpr ⟨h, .refl t, by simp⟩
  | cons addr rest ih =>
      have hrest : ∀ (u : HybridInst) (last : Option Nat), Marked n (addr >>> kBlockShift) t u →
          (∀ s ∈ last, DirtySegment u u.epoch s) →
          Prog.wp (fun _ => True) (hookBlocks tid rest last)
            (fun _ v => Tracking n v ∧ Noted t v ∧
              ∀ a ∈ addr :: rest, DirtyBlock v v.epoch (a >>> kBlockShift)) u := by
        intro u last hu hmark
        have hrec := ih hu.tracking (fun a ha => hin a (List.mem_cons_of_mem _ ha)) hmark
        refine Prog.wp_mono hrec fun _ v ⟨hv, hnoted, hall⟩ =>
          ⟨hv, hu.noted.trans hnoted, fun a ha => ?_⟩
        rcases List.mem_cons.mp ha with rfl | ha
        · rw [hnoted.epoch]
          exact hnoted.blocks _ _ hu.dirty
        · exact hall a ha
      have hlt : segmentOf (addr >>> kBlockShift) < n := by
        rw [segmentOf_block]
        exact shiftRight_kSegmentShift_lt (hin addr List.mem_cons_self)
      rw [hookBlocks, Prog.wp_bind, Prog.wp_read]
      refine ⟨trivial, ?_⟩
      split
      · rename_i hdirty
        exact hrest t last ⟨h, .refl t, hdirty⟩ hlast
      · rw [← segmentOf_block]
        refine wp_pushed (fun _ _ => trivial) fun u hu => ?_
        split
        · rename_i hsame
          have hmarked := h.marked_of_recorded (hu.recorded (hlast _ hsame)) htid hlt
          refine hrest u last hmarked fun s hs => ?_
          obtain rfl := Option.mem_unique hs hsame
          exact hmarked.tracking.marked _ _ hmarked.dirty
        · rw [Prog.wp_bind]
          refine Prog.wp_mono (hu.wp_markSegment fun _ _ => trivial) fun _ v hv => ?_
          have hmarked := h.marked_of_recorded hv htid hlt
          refine hrest v _ hmarked fun s hs => ?_
          obtain rfl := Option.some.inj hs
          exact hmarked.tracking.marked _ _ hmarked.dirty

theorem track_hookRoutineRange (h : Tracking n t) {tid addr len : Nat} (htid : tid < kMaxThreads)
    (hlen : addr + len ≤ n * kSegmentSize) :
    Prog.wp (fun _ => True) (hookRoutineRange tid addr len)
      (fun _ u => Tracking n u ∧ Noted t u ∧
        ∀ block, Covers addr len block → DirtyBlock u u.epoch block) t := by
  have hin : ∀ a ∈ blockAddresses addr len, a < n * kSegmentSize := fun a ha =>
    Nat.lt_of_lt_of_le (mem_blockAddresses ha).1 hlen
  refine Prog.wp_mono (track_hookBlocks htid h hin (by simp)) fun _ u ⟨hu, hnoted, hall⟩ =>
    ⟨hu, hnoted, fun block hb => ?_⟩
  obtain ⟨a, ha, rfl⟩ := blockAddresses_covers hb
  exact hall a ha

/-! ## Address buffers -/

/-- `u` has recorded or still holds in its buffers whatever `t` has. -/
structure Keeping (n : Nat) (t u : HybridInst) : Prop where
  tracking : Tracking n u
  epoch : u.epoch = t.epoch
  touched : ∀ block, Touched t block → Touched u block

theorem Tracking.keeping (h : Tracking n t) : Keeping n t t := ⟨h, rfl, fun _ hb => hb⟩

theorem Keeping.trans (h : Keeping n t u) (h' : Keeping n u v) : Keeping n t v where
  tracking := h'.tracking
  epoch := h'.epoch.trans h.epoch
  touched block hb := h'.touched block (h.touched block hb)

theorem Tracking.emptied {owner : Nat} (h : Tracking n t)
    (hall : ∀ addr ∈ t.addressBuffer owner, addr < t.capacity →
      DirtyBlock t t.epoch (addr >>> kBlockShift)) :
    Keeping n t { t with addressBuffer := Function.update t.addressBuffer owner [] } := by
  refine ⟨{ h with lists := ⟨h.lists.listed, h.lists.dirty⟩ }, rfl, fun block hb => ?_⟩
  rcases hb with hb | ⟨addr, ⟨⟨id, hid, hin⟩, hlt⟩, rfl⟩
  · exact Or.inl hb
  · by_cases heq : id = owner
    · subst heq
      exact Or.inl (hall addr hin hlt)
    · refine Or.inr ⟨addr, ⟨⟨id, hid, ?_⟩, hlt⟩, rfl⟩
      simpa [Function.update_of_ne heq] using hin

theorem track_addressBufferClear (h : Tracking n t) {tid owner : Nat} (htid : tid < kMaxThreads) :
    Prog.wp (fun _ => True) (addressBufferClear tid owner)
      (fun _ u => Keeping n t u ∧
        u.addressBuffer = Function.update t.addressBuffer owner []) t := by
  simp only [addressBufferClear, Prog.wp_bind, Prog.wp_read]
  refine ⟨trivial, trivial, ?_⟩
  refine Prog.wp_forEach (fun done u => Tracking n u ∧ Noted t u ∧
    ∀ addr ∈ done, addr < t.capacity → DirtyBlock u u.epoch (addr >>> kBlockShift))
    ⟨h, .refl t, by simp⟩ ?_ ?_
  · rintro done addr rest u - ⟨hu, hnoted, hdone⟩
    split
    · rename_i haddr
      rw [h.capacity_eq] at haddr
      refine Prog.wp_mono (track_hookRoutine hu htid haddr) fun _ v hv =>
        ⟨hv.tracking, hnoted.trans hv.noted, fun addr' haddr' hlt => ?_⟩
      rcases List.mem_append.mp haddr' with hin | hin
      · rw [hv.noted.epoch]
        exact hv.noted.blocks _ _ (hdone addr' hin hlt)
      · obtain rfl : addr' = addr := List.mem_singleton.mp hin
        exact hv.dirty
    · rename_i haddr
      refine Prog.wp_pure.mpr ⟨hu, hnoted, fun addr' haddr' hlt => ?_⟩
      rcases List.mem_append.mp haddr' with hin | hin
      · exact hdone addr' hin hlt
      · obtain rfl : addr' = addr := List.mem_singleton.mp hin
        exact absurd hlt haddr
  · rintro u ⟨hu, hnoted, hall⟩
    have hkeep : Keeping n t u := ⟨hu, hnoted.epoch, fun _ hb => hnoted.touched hb⟩
    refine Prog.wp_act.mpr ⟨trivial, hkeep.trans (hu.emptied fun addr haddr hlt => ?_), ?_⟩
    · rw [hnoted.addressBuffer] at haddr
      exact hall addr haddr (capacity_congr hnoted.image ▸ hlt)
    · rw [hnoted.addressBuffer]

theorem track_addressBufferClearAll (h : Tracking n t) {tid : Nat} (htid : tid < kMaxThreads) :
    Prog.wp (fun _ => True) (addressBufferClearAll tid)
      (fun _ u => Keeping n t u ∧ ∀ id < kMaxThreads, u.addressBuffer id = []) t := by
  refine Prog.wp_forEach (fun done u => Keeping n t u ∧ ∀ id ∈ done, u.addressBuffer id = [])
    ⟨h.keeping, by simp⟩ ?_ ?_
  · intro done owner rest u _ ⟨hu, hempty⟩
    refine Prog.wp_mono (track_addressBufferClear hu.tracking htid) fun _ v ⟨hv, hbuffer⟩ =>
      ⟨hu.trans hv, fun id hid => ?_⟩
    rw [hbuffer]
    by_cases hown : id = owner
    · rw [hown, Function.update_self]
    · rw [Function.update_of_ne hown]
      rcases List.mem_append.mp hid with hin | hin
      · exact hempty id hin
      · exact absurd (List.mem_singleton.mp hin) hown
  · exact fun u ⟨hu, hempty⟩ => ⟨hu, fun id hid => hempty id (List.mem_range.mpr hid)⟩

theorem Tracking.push (h : Tracking n t) {tid addr : Nat} (htid : tid < kMaxThreads)
    (haddr : addr < n * kSegmentSize) :
    Keeping n t { t with
      addressBuffer := Function.update t.addressBuffer tid (t.addressBuffer tid ++ [addr]) } ∧
    Touched { t with
      addressBuffer := Function.update t.addressBuffer tid (t.addressBuffer tid ++ [addr]) }
      (addr >>> kBlockShift) := by
  refine ⟨⟨{ h with lists := ⟨h.lists.listed, h.lists.dirty⟩ }, rfl, fun block hb => ?_⟩,
    Or.inr ⟨addr, ⟨⟨tid, htid, by simp⟩, h.capacity_eq.symm ▸ haddr⟩, rfl⟩⟩
  rcases hb with hb | ⟨a, ⟨⟨id, hid, hin⟩, hlt⟩, hblock⟩
  · exact Or.inl hb
  · refine Or.inr ⟨a, ⟨⟨id, hid, ?_⟩, hlt⟩, hblock⟩
    by_cases heq : id = tid
    · subst heq
      simp [hin]
    · simpa [Function.update_of_ne heq] using hin

theorem track_hookRtStore (h : Tracking n t) {tid addr : Nat} (htid : tid < kMaxThreads)
    (haddr : addr < n * kSegmentSize) :
    Prog.wp (fun _ => True) (hookRtStore tid addr)
      (fun _ u => Keeping n t u ∧ Touched u (addr >>> kBlockShift)) t := by
  obtain ⟨hpush, hself⟩ := h.push htid haddr
  simp only [hookRtStore, Prog.wp_bind, Prog.wp_act, Prog.wp_read]
  refine ⟨trivial, trivial, ?_⟩
  split
  · refine Prog.wp_mono (track_addressBufferClear hpush.tracking htid) ?_
    rintro _ v ⟨hv, -⟩
    exact ⟨hpush.trans hv, hv.touched _ hself⟩
  · exact Prog.wp_pure.mpr ⟨hpush, hself⟩

theorem track_hookRtRangeStore (h : Tracking n t) {tid addr len : Nat} (htid : tid < kMaxThreads)
    (hpos : 0 < len) (hlen : addr + len ≤ n * kSegmentSize) :
    Prog.wp (fun _ => True) (hookRtRangeStore tid addr len)
      (fun _ u => Keeping n t u ∧ ∀ block, Covers addr len block → Touched u block) t := by
  have hpool : addr < n * kSegmentSize := by omega
  rw [hookRtRangeStore]
  split
  · rename_i hsmall
    refine Prog.wp_mono (track_hookRtStore h htid hpool) ?_
    rintro _ u ⟨hu, hself⟩
    refine ⟨hu, fun block hb => ?_⟩
    obtain rfl : block = addr >>> kBlockShift := covers_small hsmall hb
    exact hself
  · simp only [Prog.wp_bind, Prog.wp_read]
    refine ⟨trivial, ?_⟩
    rw [if_pos (h.capacity_eq.symm ▸ hpool)]
    refine Prog.wp_mono (track_hookRoutineRange h htid hlen) ?_
    rintro _ u ⟨hu, hnoted, hall⟩
    have hkeep : Keeping n t u := ⟨hu, hnoted.epoch, fun _ hb => hnoted.touched hb⟩
    exact ⟨hkeep, fun block hb => Or.inl (hall block hb)⟩

/-! ## Rounds -/

/-- What the leader finds once it has emptied the buffers. -/
structure ModeChosen (n : Nat) (t : HybridInst) (mode : FlushMode) (u : HybridInst) : Prop where
  keeping : Keeping n t u
  mode_eq : mode = determineFlushMode u
  flushMode : u.flushMode = mode
  unbuffered : ∀ addr, ¬ Buffered u addr

theorem track_beginCheckpoint (h : Tracking n t) {tid : Nat} (htid : tid < kMaxThreads) :
    Prog.wp (fun _ => True) (beginCheckpoint tid) (fun mode u => ModeChosen n t mode u) t := by
  rw [beginCheckpoint, Prog.wp_bind]
  refine Prog.wp_mono (track_addressBufferClearAll h htid) ?_
  rintro _ u ⟨hu, hempty⟩
  simp only [Prog.wp_bind, Prog.wp_act, Prog.wp_read]
  have ht := hu.tracking
  refine ⟨trivial, trivial, ⟨{ ht with lists := ⟨ht.lists.listed, ht.lists.dirty⟩ }, hu.epoch,
    hu.touched⟩, rfl, rfl, ?_⟩
  rintro addr ⟨⟨id, hid, hin⟩, -⟩
  change addr ∈ u.addressBuffer id at hin
  rw [hempty id hid] at hin
  cases hin

theorem Tracking.mem_listedBlocks_iff (h : Tracking n t) (hmode : determineFlushMode t ≠ .wbinvd)
    (block : Nat) : block ∈ t.listedBlocks ↔ DirtyBlock t t.epoch block :=
  ⟨h.lists.dirty block, h.lists.listed (noneFull_of_mode hmode) block⟩

theorem ModeChosen.idle {mode : FlushMode} (h : ModeChosen n t mode u) (hmode : mode = .noAction)
    (block : Nat) : ¬ Touched t block := by
  have hchosen : determineFlushMode u = .noAction := h.mode_eq.symm.trans hmode
  intro hb
  rcases h.keeping.touched block hb with hdirty | ⟨addr, haddr, -⟩
  · have hlisted := (h.keeping.tracking.mem_listedBlocks_iff (by simp [hchosen]) block).mpr hdirty
    rw [listedBlocks_of_noAction hchosen] at hlisted
    cases hlisted
  · exact h.unbuffered addr haddr

/-- Both bitmaps of the epoch that is running are empty. -/
structure Clean (t : HybridInst) : Prop where
  blocks : ∀ block, ¬ DirtyBlock t t.epoch block
  segments : ∀ s, ¬ DirtySegment t t.epoch s

theorem Aside.tracking (h : Aside t u) (ht : Tracking n t) : Tracking n u := by
  have hnr : u.nrSegments = n := h.nrMain.trans ht.pool
  rw [h.same] at hnr ⊢
  exact { ht with pool := hnr, lists := ⟨ht.lists.listed, ht.lists.dirty⟩ }

theorem Aside.flushMode (h : Aside t u) : u.flushMode = t.flushMode := by rw [h.same]

/-- What the end of a round does once it has cleared the bits of the last one. -/
structure Ended (t u : HybridInst) : Prop where
  segmentDirty : u.segmentDirty = t.segmentDirty
  blockDirty : u.blockDirty = t.blockDirty
  flushBlocks : u.flushBlocks = fun _ => []
  epoch : u.epoch = 1 - t.epoch
  flushMode : u.flushMode = t.flushMode
  nrSegments : u.nrSegments = t.nrSegments

theorem Aside.ended (h : Aside t u) (flag : Bool) :
    Ended t { u with hasSnapshot := flag, flushBlocks := fun _ => [], epoch := 1 - u.epoch } := by
  have hepoch : u.epoch = t.epoch := by rw [h.same]
  refine ⟨?_, ?_, rfl, congrArg (1 - ·) hepoch, h.flushMode, h.nrMain⟩
  · change u.segmentDirty = t.segmentDirty
    rw [h.same]
  · change u.blockDirty = t.blockDirty
    rw [h.same]

/-- The bits of the last round are gone when it is their turn again. -/
theorem Tracking.ended (h : Tracking n t) (hu : Cleared t (List.range t.nrSegments) u)
    (hv : Ended u v) : Tracking n v ∧ Clean v := by
  have hepoch : v.epoch = 1 - t.epoch := hv.epoch.trans (congrArg (1 - ·) hu.epoch)
  have hnoSegment : ∀ s, ¬ DirtySegment v (1 - t.epoch) s := by
    intro s hs
    rw [DirtySegment, hv.segmentDirty] at hs
    have hwas := (hu.segments s).mp hs
    exact hwas.2 (List.mem_range.mpr (h.pool.symm ▸ h.range _ s hwas.1))
  have hnoBlock : ∀ block, ¬ DirtyBlock v (1 - t.epoch) block := by
    intro block hb
    rw [DirtyBlock, hv.blockDirty] at hb
    have hwas := (hu.blocks block).mp hb
    have hmark := h.marked _ _ hwas.1
    exact hwas.2 ⟨hmark, List.mem_range.mpr (h.pool.symm ▸ h.range _ _ hmark)⟩
  have hblock : ∀ epoch ≠ 1 - t.epoch, ∀ block, DirtyBlock v epoch block ↔
      DirtyBlock t epoch block := by
    intro epoch hne block
    rw [DirtyBlock, hv.blockDirty, hu.otherBlocks epoch hne]
    rfl
  have hsegment : ∀ epoch ≠ 1 - t.epoch, ∀ s, DirtySegment v epoch s ↔ DirtySegment t epoch s := by
    intro epoch hne s
    rw [DirtySegment, hv.segmentDirty, hu.otherSegments epoch hne]
    rfl
  refine ⟨⟨?_, ?_, ⟨fun _ block hb => ?_, fun block hb => ?_⟩, fun epoch block hb => ?_,
    fun epoch s hs => ?_⟩, fun block => hepoch ▸ hnoBlock block, fun s => hepoch ▸ hnoSegment s⟩
  · rw [hv.nrSegments, ← h.pool, HybridInst.nrSegments, HybridInst.nrSegments, hu.image]
  · rw [hepoch]
    rcases h.parity with hp | hp <;> simp [hp]
  · exact absurd (hepoch ▸ hb) (hnoBlock block)
  · rw [mem_listedBlocks, hv.flushBlocks] at hb
    obtain ⟨id, -, hin⟩ := hb
    cases hin
  · by_cases hne : epoch = 1 - t.epoch
    · exact absurd (hne ▸ hb) (hnoBlock block)
    · rw [hblock epoch hne] at hb
      exact (hsegment epoch hne _).mpr (h.marked epoch block hb)
  · by_cases hne : epoch = 1 - t.epoch
    · exact absurd (hne ▸ hs) (hnoSegment s)
    · exact h.range epoch s ((hsegment epoch hne s).mp hs)

theorem track_finishRound (h : Tracking n t) :
    Prog.wp (fun _ => True) finishRound
      (fun _ v => (Tracking n v ∧ Clean v) ∧ v.flushMode = t.flushMode) t := by
  have hcleared := cleared_clearDirtyBitsLastEpoch t
  have hmode : (clearDirtyBitsLastEpoch t).flushMode = t.flushMode := by rw [hcleared.same]
  simp only [finishRound, Prog.wp_bind, Prog.wp_act, Prog.wp_read]
  refine ⟨trivial, trivial, ?_⟩
  split
  · have hend := (Aside.refl (clearDirtyBitsLastEpoch t)).ended (clearDirtyBitsLastEpoch t).hasSnapshot
    simp only [Prog.wp_bind, Prog.wp_act]
    exact ⟨trivial, trivial, h.ended hcleared hend, hmode⟩
  · have haside : (onImage (setAttributes kAttributeHasSnapshot)).Within Aside :=
      aside_onImage (sameMain_setAttributes _)
    rw [Prog.wp_bind]
    refine Prog.wp_mono (Prog.wp_of_within Aside.refl (fun _ _ _ => Aside.trans)
      (fun _ _ _ _ => trivial) haside trivial) fun _ v hv => ?_
    simp only [Prog.wp_bind, Prog.wp_act]
    exact ⟨trivial, trivial, trivial, h.ended hcleared (hv.ended true), hv.flushMode.trans hmode⟩

/-- What a checkpoint leaves, by its flush mode. -/
structure Rounded (n : Nat) (t u : HybridInst) : Prop where
  tracking : Tracking n u
  idle : u.flushMode = .noAction → u.epoch = t.epoch ∧ ∀ block, ¬ Touched t block
  clean : u.flushMode ≠ .noAction → Clean u

theorem track_aside {α : Type} {p : Prog HybridInst α} (hp : p.Within Aside) (t : HybridInst) :
    Prog.wp (fun _ => True) p (fun _ u => Aside t u) t :=
  Prog.wp_of_within Aside.refl (fun _ _ _ => Aside.trans) (fun _ _ _ _ => trivial) hp trivial

theorem track_finishAside (h : Tracking n t) (hu : Aside t u) (hmode : t.flushMode ≠ .noAction)
    (s : HybridInst) : Prog.wp (fun _ => True) finishRound (fun _ v => Rounded n s v) u := by
  refine Prog.wp_mono (track_finishRound (hu.tracking h)) fun _ v ⟨⟨hv, hclean⟩, hsame⟩ =>
    ⟨hv, fun hidle => ?_, fun _ => hclean⟩
  rw [hsame, hu.flushMode] at hidle
  exact absurd hidle hmode

theorem track_checkpoint (h : Tracking n t) {tid : Nat} (htid : tid < kMaxThreads)
    (nrThreads : Nat) (firstSchedule secondSchedule : List Nat) :
    Prog.wp (fun _ => True) (checkpoint tid nrThreads firstSchedule secondSchedule)
      (fun _ u => Rounded n t u) t := by
  rw [checkpoint, Prog.wp_bind]
  refine Prog.wp_mono (track_beginCheckpoint h htid) fun mode u hu => ?_
  have ht := hu.keeping.tracking
  split
  · rename_i hidle
    refine Prog.wp_pure.mpr ⟨ht, fun _ => ⟨hu.keeping.epoch, hu.idle hidle⟩, fun hbusy => ?_⟩
    exact absurd (hu.flushMode.trans hidle) hbusy
  · rename_i hbusy
    have hactive : u.flushMode ≠ .noAction := hu.flushMode ▸ hbusy
    have hfirst : (Prog.par nrThreads firstSchedule fun i => applyFirst i nrThreads).Within Aside :=
      Prog.within_par Aside.refl fun i _ => aside_applyFirst i nrThreads
    have hsecond : (Prog.par nrThreads secondSchedule fun i => applySecond i nrThreads).Within Aside :=
      Prog.within_par Aside.refl fun i _ => aside_applySecond i nrThreads
    rw [Prog.wp_bind]
    refine Prog.wp_mono (track_aside hfirst u) fun _ v hv => ?_
    rw [Prog.wp_bind]
    refine Prog.wp_mono (track_aside aside_commitLayoutState v) fun _ w hw => ?_
    split
    · exact track_finishAside ht (hv.trans hw) hactive t
    · rw [Prog.wp_bind]
      refine Prog.wp_mono (track_aside hsecond w) fun _ x hx => ?_
      exact track_finishAside ht ((hv.trans hw).trans hx) hactive t

/-! ## Runs -/

/-- A call of `hook_routine`, or of the hook of a store, which may leave the address in the
buffer of its thread. -/
inductive HookCall where
  | address (tid addr : Nat)
  | range (tid addr len : Nat)
  | store (tid addr len : Nat)

namespace HookCall

def prog : HookCall → Prog HybridInst Unit
  | .address tid addr => hookRoutine tid addr
  | .range tid addr len => hookRoutineRange tid addr len
  | .store tid addr len => hookRtRangeStore tid addr len

def Valid (n : Nat) : HookCall → Prop
  | .address tid addr => tid < kMaxThreads ∧ addr < n * kSegmentSize
  | .range tid addr len => tid < kMaxThreads ∧ addr + len ≤ n * kSegmentSize
  | .store tid addr len => tid < kMaxThreads ∧ 0 < len ∧ addr + len ≤ n * kSegmentSize

/-- The blocks that a call is for. -/
def Hooks : HookCall → Nat → Prop
  | .address _ addr, block => block = addr >>> kBlockShift
  | .range _ addr len, block => Covers addr len block
  | .store _ addr len, block => Covers addr len block

end HookCall

/-- Hooks and checkpoints since a pool was opened have led to `t`; `hooked` are the blocks
that were hooked since the last round that was not empty. -/
inductive HookRun (n nb : Nat) : HybridInst → (Nat → Prop) → Prop
  | created (mode : FlushMode) : HookRun n nb (openNew mode n nb) fun _ => False
  | opened (mode : FlushMode) (img : NvmImage) {t : HybridInst}
      (hret : openExisting.run (construct mode (openImage n nb img)) = some ((), t)) :
      HookRun n nb t fun _ => False
  | hook {t u : HybridInst} {hooked : Nat → Prop} (hrun : HookRun n nb t hooked) (call : HookCall)
      (hvalid : call.Valid n) (hret : call.prog.run t = some ((), u)) :
      HookRun n nb u fun block => hooked block ∨ call.Hooks block
  | write {t : HybridInst} {hooked : Nat → Prop} (hrun : HookRun n nb t hooked) (w : WordStore) :
      HookRun n nb (writeWord w t) hooked
  | checkpoint {t u : HybridInst} {hooked : Nat → Prop} (hrun : HookRun n nb t hooked)
      (call : CheckpointCall) (hvalid : call.Valid) (hret : call.prog.run t = some ((), u)) :
      HookRun n nb u fun block => u.flushMode = .noAction ∧ hooked block

theorem tracking_construct (mode : FlushMode) (i : CheckpointImage) (work : Content) (flag : Bool) :
    Tracking i.nrMain { construct mode i with work := work, hasSnapshot := flag } := by
  refine ⟨rfl, Or.inr rfl, ⟨fun _ block hb => ?_, fun block hb => ?_⟩, fun epoch block hb => ?_,
    fun epoch s hs => ?_⟩
  · simp [DirtyBlock, construct] at hb
  · simp [listedBlocks, construct] at hb
  · simp [DirtyBlock, construct] at hb
  · simp [DirtySegment, construct] at hs

theorem tracking_opened {mode : FlushMode} {img : NvmImage}
    (hret : openExisting.run (construct mode (openImage n nb img)) = some ((), t)) :
    Tracking n t := by
  rw [openExisting, Prog.run_bind, Option.bind_eq_some_iff] at hret
  obtain ⟨⟨_, v⟩, hrecovery, hret⟩ := hret
  rw [run_onImage] at hrecovery
  obtain ⟨⟨_, j⟩, hrun, hv⟩ := Option.map_eq_some_iff.mp hrecovery
  obtain rfl := (Prod.mk.inj hv).2
  change (recovery .main).run (openImage n nb img) = _ at hrun
  have hwp : Prog.wp (fun _ => True) (recovery .main) (fun _ j => SameMain (openImage n nb img) j)
      (openImage n nb img) :=
    Prog.wp_of_within (R := SameMain) (fun _ => rfl) (fun _ _ _ h h' => Eq.trans h' h)
      (fun _ _ _ _ => trivial) (sameMain_recovery .main) trivial
  have hmain := Prog.run_of_wp hwp hrun
  simp only [Prog.run_bind, run_prepareWorkingMemory, Option.bind_some, Prog.run_act] at hret
  obtain rfl := (Prod.mk.inj (Option.some.inj hret)).2
  have hn : j.nrMain = n := hmain
  exact hn ▸ tracking_construct mode j _ _

theorem track_hookCall (h : Tracking n t) {call : HookCall} (hvalid : call.Valid n) :
    Prog.wp (fun _ => True) call.prog
      (fun _ u => Keeping n t u ∧ ∀ block, call.Hooks block → Touched u block) t := by
  cases call with
  | address tid addr =>
      refine Prog.wp_mono (track_hookRoutine h hvalid.1 hvalid.2) fun _ u hu =>
        ⟨⟨hu.tracking, hu.noted.epoch, fun _ hb => hu.noted.touched hb⟩, ?_⟩
      rintro block rfl
      exact Or.inl hu.dirty
  | range tid addr len =>
      exact Prog.wp_mono (track_hookRoutineRange h hvalid.1 hvalid.2) fun _ u ⟨hu, hnoted, hall⟩ =>
        ⟨⟨hu, hnoted.epoch, fun _ hb => hnoted.touched hb⟩, fun block hb => Or.inl (hall block hb)⟩
  | store tid addr len => exact track_hookRtRangeStore h hvalid.1 hvalid.2.1 hvalid.2.2

theorem HookRun.tracked {hooked : Nat → Prop} (hrun : HookRun n nb t hooked) :
    Tracking n t ∧ ∀ block, hooked block → Touched t block := by
  induction hrun with
  | created mode => exact ⟨tracking_construct mode (create n nb) _ _, fun _ hf => hf.elim⟩
  | opened mode img hret => exact ⟨tracking_opened hret, fun _ hf => hf.elim⟩
  | hook _ call hvalid hret ih =>
      obtain ⟨hkeep, hall⟩ := Prog.run_of_wp (track_hookCall ih.1 hvalid) hret
      refine ⟨hkeep.tracking, fun block hb => ?_⟩
      rcases hb with hb | hb
      · exact hkeep.touched block (ih.2 block hb)
      · exact hall block hb
  | write _ w ih =>
      obtain ⟨ht, hall⟩ := ih
      exact ⟨{ ht with lists := ⟨ht.lists.listed, ht.lists.dirty⟩ }, hall⟩
  | checkpoint _ call hvalid hret ih =>
      have hround := Prog.run_of_wp (track_checkpoint ih.1 hvalid.leader call.nrThreads
        call.firstSchedule call.secondSchedule) hret
      refine ⟨hround.tracking, fun block ⟨hidle, hb⟩ => ?_⟩
      exact absurd (ih.2 block hb) ((hround.idle hidle).2 block)

/-- Dirty tracking in every state that hooks and checkpoints reach. -/
structure TracksDirty (t : HybridInst) (hooked : Nat → Prop) : Prop where
  marked : ∀ block, DirtyBlock t t.epoch block → DirtySegment t t.epoch (block / kBlocksPerSegment)
  cleared : ∀ call : CheckpointCall, call.Valid → ∀ u, call.prog.run t = some ((), u) →
    u.flushMode ≠ .noAction → Clean u
  noAction : ∀ tid < kMaxThreads, ∀ u, (beginCheckpoint tid).run t = some (.noAction, u) →
    ∀ block, ¬ hooked block
  useFlushBlocks : ∀ tid < kMaxThreads, ∀ u,
    (beginCheckpoint tid).run t = some (.useFlushBlocks, u) →
      ∀ block, block ∈ u.listedBlocks ↔ DirtyBlock u u.epoch block

def HooksTracked (n nb : Nat) : Prop := ∀ t hooked, HookRun n nb t hooked → TracksDirty t hooked

theorem hooksTracked (n nb : Nat) : HooksTracked n nb := by
  intro t hooked hrun
  obtain ⟨ht, hall⟩ := hrun.tracked
  refine ⟨fun block hb => ?_, fun call hvalid u hret hbusy => ?_, fun tid htid u hret block hb => ?_,
    fun tid htid u hret block => ?_⟩
  · rw [← segmentOf_eq]
    exact ht.marked _ block hb
  · have hround := Prog.run_of_wp (track_checkpoint ht hvalid.leader call.nrThreads
      call.firstSchedule call.secondSchedule) hret
    exact hround.clean hbusy
  · have hchosen := Prog.run_of_wp (track_beginCheckpoint ht htid) hret
    exact hchosen.idle rfl block (hall block hb)
  · have hchosen := Prog.run_of_wp (track_beginCheckpoint ht htid) hret
    refine hchosen.keeping.tracking.mem_listedBlocks_iff ?_ block
    rw [← hchosen.mode_eq]
    decide

end Libcrpm.HybridInst
