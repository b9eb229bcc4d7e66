import Libcrpm.NvmHooks

/-!
# What a hook records

Whatever state the engine is in, a hook leaves the segment of its address dirty and the block
of its address recorded, and neither is forgotten before the next checkpoint.
-/

namespace Libcrpm.NvmInst

open Libcrpm.Persistence Libcrpm.Program CheckpointImage

/-! ## Steps that a hook for segment `s` takes -/

/-- Only `s` gets dirty, and only its blocks are forgotten. -/
structure Beside (s : Nat) (t u : NvmInst) : Prop where
  nrSegments : u.nrSegments = t.nrSegments
  dirty : ∀ s', Dirty t s' → Dirty u s'
  blockDirty : ∀ block, segmentOf block ≠ s → u.blockDirty.test block = t.blockDirty.test block
  addressBuffer : u.addressBuffer = t.addressBuffer

theorem Beside.refl (s : Nat) (t : NvmInst) : Beside s t t :=
  ⟨rfl, fun _ h => h, fun _ _ => rfl, rfl⟩

theorem Beside.trans {s : Nat} {t u v : NvmInst} (h : Beside s t u) (h' : Beside s u v) :
    Beside s t v where
  nrSegments := h'.nrSegments.trans h.nrSegments
  dirty s' hs' := h'.dirty s' (h.dirty s' hs')
  blockDirty block hne := (h'.blockDirty block hne).trans (h.blockDirty block hne)
  addressBuffer := h'.addressBuffer.trans h.addressBuffer

theorem Frame.beside {t u : NvmInst} (h : Frame t u) (s : Nat) : Beside s t u where
  nrSegments := h.nrMain
  dirty s' hs' := by rwa [h.dirty]
  blockDirty block _ := h.blockDirty block
  addressBuffer := h.addressBuffer

theorem frame_read {α : Type} (f : NvmInst → α) : (Prog.read f).Within Frame :=
  Prog.within_read Frame.refl f

theorem frame_onNvm (f : Nvm → Nvm) (t : NvmInst) : Frame t (onNvm f t) :=
  ⟨rfl, rfl, fun _ => rfl, rfl, rfl, rfl, rfl⟩

theorem frame_onImage {α : Type} {p : Prog CheckpointImage α}
    (h : p.Within SameMain) : (onImage p).Within Frame :=
  Prog.within_zoom (fun _ _ hmain => ⟨hmain, rfl, fun _ => rfl, rfl, rfl, rfl, rfl⟩) h

/-! ## Allocation and copy -/

theorem frame_advanceNextBackSegment : advanceNextBackSegment.Within Frame :=
  Prog.within_act.mpr fun t => frame_nextBackId t _

theorem frame_releaseBackMemoryLock : releaseBackMemoryLock.Within Frame :=
  Prog.within_act.mpr fun t => frame_backMemoryLock t _

theorem frame_releaseSegmentLock (s : Nat) : (releaseSegmentLock s).Within Frame :=
  Prog.within_act.mpr fun t => frame_segmentLocks t _

theorem frame_tryAcquireSegmentLock (tid s : Nat) : (tryAcquireSegmentLock tid s).Within Frame := by
  rw [tryAcquireSegmentLock, Prog.within_fetch]
  intro t
  split
  · exact frame_segmentLocks t _
  · exact .refl t

theorem frame_takeBackSegment (s b : Nat) : (takeBackSegment s b).Within Frame :=
  Prog.within_bind (frame_onImage (sameMain_bindBackSegment s b)) fun _ =>
    frame_advanceNextBackSegment

theorem frame_allocateLoop (tid s rounds : Nat) : (allocateLoop tid s rounds).Within Frame := by
  induction rounds with
  | zero => trivial
  | succ rounds ih =>
      have hskip : (advanceNextBackSegment >>= fun _ => allocateLoop tid s rounds).Within Frame :=
        Prog.within_bind frame_advanceNextBackSegment fun _ => ih
      unfold allocateLoop
      refine Prog.within_bind (frame_read _) fun b => Prog.within_bind (frame_read _) fun old => ?_
      cases old with
      | none =>
          exact Prog.within_bind (frame_takeBackSegment s b) fun _ => frame_releaseBackMemoryLock
      | some oldMain =>
          refine Prog.within_bind (frame_read _) fun inProgress => ?_
          split
          · refine Prog.within_bind (frame_read _) fun dirty => ?_
            split
            · exact hskip
            · exact Prog.within_bind (frame_takeBackSegment s b) fun _ =>
                frame_releaseBackMemoryLock
          · refine Prog.within_bind (frame_tryAcquireSegmentLock tid oldMain) fun acquired => ?_
            split
            · refine Prog.within_bind (frame_read _) fun dirty => ?_
              split
              · exact Prog.within_bind (frame_releaseSegmentLock oldMain) fun _ => hskip
              · refine Prog.within_bind (frame_takeBackSegment s b) fun _ => ?_
                exact Prog.within_bind (frame_releaseSegmentLock oldMain) fun _ =>
                  frame_releaseBackMemoryLock
            · exact hskip

theorem frame_findBackSegment (tid s : Nat) : (findBackSegment tid s).Within Frame := by
  refine Prog.within_bind (frame_read _) fun back => ?_
  cases back with
  | some b => exact Prog.within_pure _
  | none =>
      refine Prog.within_bind ?_ fun _ => Prog.within_bind (frame_read _) fun bound => ?_
      · refine Prog.within_bind (Prog.within_await.mpr fun t => frame_backMemoryLock t _) fun _ => ?_
        exact Prog.within_bind (frame_read _) fun rounds => frame_allocateLoop tid s rounds
      · cases bound with
        | some b => exact Prog.within_pure _
        | none => exact Prog.within_exit

theorem frame_copyBlocks (s b : Nat) (indices : List Nat) : (copyBlocks s b indices).Within Frame :=
  Prog.within_forEach fun _ _ => Prog.within_act.mpr (frame_onNvm _)

theorem frame_pushAddresses (s b : Nat) (indices list : List Nat) :
    (pushAddresses s b indices list).Within Frame := by
  induction indices generalizing list with
  | nil => exact Prog.within_pure _
  | cons index rest ih =>
      rw [pushAddresses]
      split
      · exact Prog.within_bind (frame_copyBlocks s b _) fun _ => ih []
      · exact ih _

theorem frame_copyDirtyBlocks (s b : Nat) (words list : List Nat) :
    (copyDirtyBlocks s b words list).Within Frame := by
  induction words generalizing list with
  | nil => exact frame_copyBlocks s b list
  | cons w rest ih =>
      refine Prog.within_bind (frame_read _) fun bitset => ?_
      exact Prog.within_bind (frame_pushAddresses s b _ _) fun list => ih list

theorem frame_copyToBack (s b : Nat) (created : Bool) (state : SegmentState) :
    (copyToBack s b created state).Within Frame := by
  unfold copyToBack
  split
  · split
    · exact Prog.within_act.mpr (frame_onNvm _)
    · exact Prog.within_pure _
  · exact frame_copyDirtyBlocks s b _ _

/-! ## Copy-on-write -/

theorem beside_setSegmentDirty (s s' : Nat) : (setSegmentDirty s).Within (Beside s') := by
  refine Prog.within_act.mpr fun t => ⟨rfl, fun s'' h => h.set s, fun _ _ => rfl, rfl⟩

theorem segmentOf_of_region {s block : Nat}
    (h : startBlock s / 64 ≤ block / 64 ∧ block / 64 < stopBlock s / 64) : segmentOf block = s := by
  rw [segmentOf_eq]
  rw [stopBlock, startBlock, kBlocksPerSegment_eq] at h
  rw [kBlocksPerSegment_eq]
  omega

theorem beside_clearBlockDirty (s : Nat) : (clearBlockDirty s).Within (Beside s) := by
  refine Prog.within_act.mpr fun t => ⟨rfl, fun _ h => h, fun block hne => ?_, rfl⟩
  rw [AtomicBitSet.test_clearRegion]
  by_cases hin : startBlock s / 64 ≤ block / 64 ∧ block / 64 < stopBlock s / 64
  · exact absurd (segmentOf_of_region hin) hne
  · simp [hin]

theorem beside_of_frame {α : Type} {p : Prog NvmInst α} (h : p.Within Frame) (s : Nat) :
    p.Within (Beside s) :=
  Prog.within_mono (fun _ _ hframe => hframe.beside s) h

theorem beside_finishWriteBack (s b : Nat) (created : Bool) (state : SegmentState) :
    (finishWriteBack s b created state true).Within (Beside s) := by
  unfold finishWriteBack
  refine Prog.within_bind (beside_of_frame (frame_copyToBack s b created state) s) fun _ => ?_
  refine Prog.within_bind (Prog.within_act.mpr fun t => (frame_onNvm _ t).beside s) fun _ => ?_
  refine Prog.within_bind (beside_of_frame (frame_onImage (sameMain_setSegmentStateAtomic s _)) s)
    fun _ => ?_
  refine Prog.within_bind (beside_clearBlockDirty s) fun _ => ?_
  simp only [if_true]
  refine Prog.within_bind (beside_setSegmentDirty s s) fun _ => ?_
  exact Prog.within_bind (beside_of_frame (frame_releaseSegmentLock s) s) fun _ => Prog.within_pure _

theorem beside_lazyWriteBack (tid s : Nat) : (lazyWriteBack tid s true).Within (Beside s) := by
  unfold lazyWriteBack
  refine Prog.within_bind (Prog.within_await.mpr fun t => (frame_segmentLocks t _).beside s)
    fun _ => ?_
  refine Prog.within_bind (Prog.within_read (.refl s) _) fun state => ?_
  refine Prog.within_bind (Prog.within_read (.refl s) _) fun back => ?_
  cases back with
  | some b =>
      simp only
      split
      · simp only [if_true]
        refine Prog.within_bind (beside_setSegmentDirty s s) fun _ => ?_
        exact Prog.within_bind (beside_of_frame (frame_releaseSegmentLock s) s) fun _ =>
          Prog.within_pure _
      · exact beside_finishWriteBack s b false state
  | none =>
      exact Prog.within_bind (beside_of_frame (frame_findBackSegment tid s) s) fun found =>
        beside_finishWriteBack s found.1 found.2 state

theorem wp_lazyWriteBack_dirty (tid s : Nat) (t : NvmInst) :
    Prog.wp (fun _ => True) (lazyWriteBack tid s true) (fun _ u => Dirty u s) t := by
  have hrelease : ∀ u, Dirty u s → Prog.wp (fun _ => True)
      (releaseSegmentLock s) (fun _ v => Dirty v s) u :=
    fun u hu => Prog.wp_act.mpr ⟨trivial, hu⟩
  have hset : ∀ (a : Bool) u, Prog.wp (fun _ => True) (setSegmentDirty s >>= fun _ =>
      releaseSegmentLock s >>= fun _ => pure a) (fun _ v => Dirty v s) u := by
    intro a u
    rw [Prog.wp_bind]
    refine Prog.wp_act.mpr ⟨trivial, ?_⟩
    rw [Prog.wp_bind]
    exact Prog.wp_mono (hrelease _ (dirty_set u s)) fun _ v hv => Prog.wp_pure.mpr hv
  have hfinish : ∀ b created state u, Prog.wp (fun _ => True)
      (finishWriteBack s b created state true) (fun _ v => Dirty v s) u := by
    intro b created state u
    unfold finishWriteBack
    refine Prog.wp_bind_top fun _ _ => Prog.wp_bind_top fun _ _ => ?_
    exact Prog.wp_bind_top fun _ _ => Prog.wp_bind_top fun _ v => hset true v
  unfold lazyWriteBack
  refine Prog.wp_bind_top fun _ _ => Prog.wp_bind_top fun state _ => ?_
  refine Prog.wp_bind_top fun back u => ?_
  cases back with
  | some b =>
      simp only
      split
      · exact hset false u
      · exact hfinish b false state u
  | none => exact Prog.wp_bind_top fun found v => hfinish found.1 found.2 state v

/-! ## Hooks -/

/-- What was recorded for a dirty segment is not forgotten. -/
structure Preserves (t u : NvmInst) : Prop where
  nrSegments : u.nrSegments = t.nrSegments
  dirty : ∀ s, Dirty t s → Dirty u s
  touched : ∀ block, Dirty t (segmentOf block) → Touched t block → Touched u block

theorem Preserves.refl (t : NvmInst) : Preserves t t := ⟨rfl, fun _ h => h, fun _ _ h => h⟩

theorem Preserves.trans {t u v : NvmInst} (h : Preserves t u) (h' : Preserves u v) :
    Preserves t v where
  nrSegments := h'.nrSegments.trans h.nrSegments
  dirty s hs := h'.dirty s (h.dirty s hs)
  touched block hd ht := h'.touched block (h.dirty _ hd) (h.touched block hd ht)

theorem Beside.preserves {s : Nat} {t u : NvmInst} (h : Beside s t u) (hs : ¬ Dirty t s) :
    Preserves t u where
  nrSegments := h.nrSegments
  dirty := h.dirty
  touched block hd ht := by
    have hne : segmentOf block ≠ s := by
      rintro rfl
      exact hs hd
    simpa only [Touched, Buffered, capacity, h.blockDirty block hne, h.addressBuffer,
      h.nrSegments] using ht

theorem wp_hookSegment_dirty (tid s : Nat) (t : NvmInst) :
    Prog.wp (fun _ => True) (hookSegment tid s) (fun _ u => Preserves t u ∧ Dirty u s) t := by
  simp only [hookSegment, Prog.wp_bind, Prog.wp_read, true_and]
  split
  · rename_i hdirty
    exact Prog.wp_pure.mpr ⟨.refl t, hdirty⟩
  · rename_i hclean
    simp only [Prog.wp_bind, Prog.wp_read, true_and]
    split
    · have hbeside := (beside_setSegmentDirty s s).1 t
      exact Prog.wp_act.mpr ⟨trivial, hbeside.preserves hclean, dirty_set t s⟩
    · rw [Prog.wp_bind]
      refine Prog.wp_mono (Prog.wp_within (.refl s) (fun _ _ _ => .trans)
        (beside_lazyWriteBack tid s) (wp_lazyWriteBack_dirty tid s t)) ?_
      rintro _ u ⟨hbeside, hd⟩
      exact Prog.wp_pure.mpr ⟨hbeside.preserves hclean, hd⟩

/-- `u` arises from `t` by recording the given blocks. -/
structure Marks (t : NvmInst) (blocks : Nat → Prop) (u : NvmInst) : Prop where
  nrSegments : u.nrSegments = t.nrSegments
  segmentDirty : u.segmentDirty = t.segmentDirty
  addressBuffer : u.addressBuffer = t.addressBuffer
  blockDirty : ∀ block, u.blockDirty.test block = true ↔
    t.blockDirty.test block = true ∨ blocks block

theorem Marks.refl (t : NvmInst) : Marks t (fun _ => False) t :=
  ⟨rfl, rfl, rfl, fun _ => by simp⟩

theorem Marks.trans {t u v : NvmInst} {B B' : Nat → Prop} (h : Marks t B u) (h' : Marks u B' v) :
    Marks t (fun block => B block ∨ B' block) v where
  nrSegments := h'.nrSegments.trans h.nrSegments
  segmentDirty := h'.segmentDirty.trans h.segmentDirty
  addressBuffer := h'.addressBuffer.trans h.addressBuffer
  blockDirty block := by rw [h'.blockDirty, h.blockDirty, or_assoc]

theorem Marks.preserves {t u : NvmInst} {B : Nat → Prop} (h : Marks t B u) : Preserves t u where
  nrSegments := h.nrSegments
  dirty s hs := by rwa [Dirty, h.segmentDirty]
  touched block _ ht := by
    rcases ht with hblock | hbuf
    · exact Or.inl ((h.blockDirty block).mpr (Or.inl hblock))
    · refine Or.inr ?_
      simpa only [Buffered, capacity, h.addressBuffer, h.nrSegments] using hbuf

theorem wp_hookRoutine_marks (tid addr : Nat) (t : NvmInst) :
    Prog.wp (fun _ => True) (hookRoutine tid addr)
      (fun _ => Marks t fun block => block = addr >>> kBlockShift) t := by
  simp only [hookRoutine, Prog.wp_bind, Prog.wp_read, true_and]
  split
  · rename_i hdirty
    refine Prog.wp_pure.mpr ⟨rfl, rfl, rfl, fun block => ⟨Or.inl, ?_⟩⟩
    rintro (hold | rfl)
    · exact hold
    · exact hdirty
  · simp only [Prog.wp_bind, Prog.wp_act, true_and]
    have hset : ∀ block, (t.blockDirty.set (addr >>> kBlockShift)).test block = true ↔
        t.blockDirty.test block = true ∨ block = addr >>> kBlockShift := by
      intro block
      rw [AtomicBitSet.test_set, Bool.or_eq_true, decide_eq_true_iff, or_comm]
    split <;> exact ⟨rfl, rfl, rfl, hset⟩

theorem wp_forEach_marks {l : List Nat} {body : Nat → Prog NvmInst Unit} {B : Nat → Nat → Prop}
    (hbody : ∀ a ∈ l, ∀ t, Prog.wp (fun _ => True) (body a) (fun _ => Marks t (B a)) t)
    (t : NvmInst) : Prog.wp (fun _ => True) (Prog.forEach l body)
      (fun _ => Marks t fun block => ∃ a ∈ l, B a block) t := by
  refine Prog.wp_forEach (fun done => Marks t fun block => ∃ a ∈ done, B a block)
    (by simpa using Marks.refl t) ?_ fun _ h => h
  intro done a rest u hl hdone
  refine Prog.wp_mono (hbody a (by simp [hl]) u) fun _ v hv => ?_
  have hboth := hdone.trans hv
  simpa [or_and_right, exists_or] using hboth

theorem wp_hookRoutineRange_marks (tid addr len : Nat) (t : NvmInst) :
    Prog.wp (fun _ => True) (hookRoutineRange tid addr len)
      (fun _ => Marks t fun block => ∃ a ∈ blockAddresses addr len, block = a >>> kBlockShift) t :=
  wp_forEach_marks (fun a _ u => wp_hookRoutine_marks tid a u) t

/-- `u` arises from `t` by emptying the address buffer of `owner`. -/
structure Cleared (t : NvmInst) (owner : Nat) (u : NvmInst) : Prop where
  nrSegments : u.nrSegments = t.nrSegments
  segmentDirty : u.segmentDirty = t.segmentDirty
  addressBuffer : u.addressBuffer = Function.update t.addressBuffer owner []
  blockDirty : ∀ block, u.blockDirty.test block = true ↔ t.blockDirty.test block = true ∨
    ∃ addr ∈ t.addressBuffer owner, addr < t.capacity ∧ addr >>> kBlockShift = block

theorem wp_addressBufferClear_cleared (tid owner : Nat) (t : NvmInst) :
    Prog.wp (fun _ => True) (addressBufferClear tid owner) (fun _ => Cleared t owner) t := by
  simp only [addressBufferClear, Prog.wp_bind, Prog.wp_read, true_and]
  refine Prog.wp_mono (wp_forEach_marks (B := fun a block => a < t.capacity ∧
    a >>> kBlockShift = block) (fun a _ u => ?_) t) fun _ u hu => ?_
  · split
    · rename_i hlt
      refine Prog.wp_mono (wp_hookRoutine_marks tid a u) fun _ v hv => ?_
      simpa [hlt, eq_comm] using hv
    · rename_i hlt
      refine Prog.wp_pure.mpr ?_
      simpa [hlt] using Marks.refl u
  · refine Prog.wp_act.mpr ⟨trivial, hu.nrSegments, hu.segmentDirty, ?_, hu.blockDirty⟩
    rw [← hu.addressBuffer]

theorem Cleared.preserves {t u : NvmInst} {owner : Nat} (h : Cleared t owner u) :
    Preserves t u where
  nrSegments := h.nrSegments
  dirty s hs := by rwa [Dirty, h.segmentDirty]
  touched block _ ht := by
    rcases ht with hblock | ⟨id, hid, addr, hin, hlt, hshift⟩
    · exact Or.inl ((h.blockDirty block).mpr (Or.inl hblock))
    · by_cases howner : id = owner
      · subst howner
        exact Or.inl ((h.blockDirty block).mpr (Or.inr ⟨addr, hin, hlt, hshift⟩))
      · refine Or.inr ⟨id, hid, addr, ?_, by rwa [capacity, h.nrSegments], hshift⟩
        rwa [h.addressBuffer, Function.update_of_ne howner]

theorem Cleared.touched {t u : NvmInst} {owner : Nat} (h : Cleared t owner u)
    (howner : owner < kMaxThreads) {block : Nat} (hu : Touched u block) : Touched t block := by
  rcases hu with hblock | ⟨id, hid, addr, hin, hlt, hshift⟩
  · rcases (h.blockDirty block).mp hblock with hold | hbuf
    · exact Or.inl hold
    · exact Or.inr ⟨owner, howner, hbuf⟩
  · rw [h.addressBuffer, Function.update_apply] at hin
    split at hin
    · simp at hin
    · exact Or.inr ⟨id, hid, addr, hin, by rwa [capacity, h.nrSegments] at hlt, hshift⟩

theorem addressBufferClearAll_cleared (tid : Nat) (t : NvmInst) :
    Prog.wp (fun _ => True) (addressBufferClearAll tid) (fun _ u => Preserves t u ∧
      (∀ block, Touched u block → Touched t block) ∧
      ∀ owner < kMaxThreads, u.addressBuffer owner = []) t := by
  refine Prog.wp_forEach (fun done u => Preserves t u ∧
    (∀ block, Touched u block → Touched t block) ∧ ∀ owner ∈ done, u.addressBuffer owner = [])
    ⟨.refl t, fun _ h => h, by simp⟩ ?_ ?_
  · intro done owner rest u hl ⟨hpres, htouched, hempty⟩
    have howner : owner < kMaxThreads := List.mem_range.mp (by simp [hl])
    refine Prog.wp_mono (wp_addressBufferClear_cleared tid owner u) fun _ v hv => ?_
    refine ⟨hpres.trans hv.preserves, fun block hb => htouched block (hv.touched howner hb), ?_⟩
    intro owner' hin
    rw [hv.addressBuffer, Function.update_apply]
    split
    · rfl
    · rename_i hne
      rcases List.mem_append.mp hin with hold | hnew
      · exact hempty owner' hold
      · exact absurd (List.mem_singleton.mp hnew) hne
  · exact fun u ⟨hpres, htouched, hempty⟩ =>
      ⟨hpres, htouched, fun owner h => hempty owner (List.mem_range.mpr h)⟩

theorem preserves_push (t : NvmInst) (tid addr : Nat) : Preserves t { t with
    addressBuffer := Function.update t.addressBuffer tid (t.addressBuffer tid ++ [addr]) } where
  nrSegments := rfl
  dirty _ h := h
  touched block _ ht := by
    rcases ht with hblock | ⟨id, hid, a, hin, hlt, hshift⟩
    · exact Or.inl hblock
    · refine Or.inr ⟨id, hid, a, ?_, hlt, hshift⟩
      simp only [Function.update_apply]
      split
      · rename_i heq
        subst heq
        exact List.mem_append_left _ hin
      · exact hin

theorem wp_hookRtStore_preserves (tid addr : Nat) (t : NvmInst) :
    Prog.wp (fun _ => True) (hookRtStore tid addr) (fun _ u => Preserves t u ∧
      (addr < t.capacity → Dirty u (addr >>> kSegmentShift) ∧
        (tid < kMaxThreads → Touched u (addr >>> kBlockShift)))) t := by
  have hcow : Prog.wp (fun _ => True)
      (if addr < t.capacity then hookCopyOnWriteRoutine tid addr else pure ())
      (fun _ u => Preserves t u ∧ (addr < t.capacity → Dirty u (addr >>> kSegmentShift))) t := by
    split
    · refine Prog.wp_mono (wp_hookSegment_dirty tid (addr >>> kSegmentShift) t) ?_
      rintro _ u ⟨hpres, hd⟩
      exact ⟨hpres, fun _ => hd⟩
    · rename_i hlt
      exact Prog.wp_pure.mpr ⟨.refl t, fun h => absurd h hlt⟩
  have hrest : ∀ u, Preserves t u → (addr < t.capacity → Dirty u (addr >>> kSegmentShift)) →
      Prog.wp (fun _ => True)
        (Prog.act (fun t => { t with
            addressBuffer :=
              Function.update t.addressBuffer tid (t.addressBuffer tid ++ [addr]) }) >>= fun _ =>
          Prog.read (fun t => (t.addressBuffer tid).length) >>= fun length =>
          if length = kNumBufferedAddresses then addressBufferClear tid tid else pure ())
        (fun _ v => Preserves t v ∧ (addr < t.capacity → Dirty v (addr >>> kSegmentShift) ∧
          (tid < kMaxThreads → Touched v (addr >>> kBlockShift)))) u := by
    intro u hpres hd
    rw [Prog.wp_bind]
    refine Prog.wp_act.mpr ⟨trivial, ?_⟩
    rw [Prog.wp_bind]
    refine Prog.wp_read.mpr ⟨trivial, ?_⟩
    have hpush := preserves_push u tid addr
    have hbuf : addr < t.capacity → tid < kMaxThreads → Touched { u with
        addressBuffer := Function.update u.addressBuffer tid (u.addressBuffer tid ++ [addr]) }
        (addr >>> kBlockShift) := by
      intro hlt htid
      refine Or.inr ⟨tid, htid, addr, by simp, ?_, rfl⟩
      rw [capacity, hpush.nrSegments, hpres.nrSegments]
      exact hlt
    split
    · refine Prog.wp_mono (wp_addressBufferClear_cleared tid tid _) fun _ v hv => ?_
      refine ⟨(hpres.trans hpush).trans hv.preserves, fun hlt => ?_⟩
      refine ⟨hv.preserves.dirty _ (hd hlt), fun htid => hv.preserves.touched _ ?_ (hbuf hlt htid)⟩
      rw [segmentOf_block]
      exact hd hlt
    · exact Prog.wp_pure.mpr ⟨hpres.trans hpush, fun hlt => ⟨hd hlt, hbuf hlt⟩⟩
  unfold hookRtStore
  rw [Prog.wp_bind]
  refine Prog.wp_read.mpr ⟨trivial, ?_⟩
  split at hcow
  · rename_i hlt
    rw [if_pos hlt, Prog.wp_bind]
    refine Prog.wp_mono hcow ?_
    rintro _ u ⟨hpres, hd⟩
    exact hrest u hpres hd
  · rename_i hlt
    rw [if_neg hlt]
    exact hrest t (.refl t) fun h => absurd h hlt

theorem wp_hookRtRangeStore_preserves (tid addr len : Nat) (t : NvmInst) :
    Prog.wp (fun _ => True) (hookRtRangeStore tid addr len) (fun _ => Preserves t) t := by
  unfold hookRtRangeStore
  split
  · exact Prog.wp_mono (wp_hookRtStore_preserves tid addr t) fun _ u hu => hu.1
  · rw [Prog.wp_bind]
    refine Prog.wp_read.mpr ⟨trivial, ?_⟩
    split
    · rw [Prog.wp_bind]
      have hsegments : Prog.wp (fun _ => True) (hookCopyOnWriteRange tid addr len)
          (fun _ => Preserves t) t := by
        refine Prog.wp_forEach (fun _ => Preserves t) (.refl t) ?_ fun _ h => h
        exact fun _ s _ u _ hu => Prog.wp_mono (wp_hookSegment_dirty tid s u) fun _ v hv =>
          hu.trans hv.1
      exact Prog.wp_mono hsegments fun _ u hu =>
        Prog.wp_mono (wp_hookRoutineRange_marks tid addr len u) fun _ v hv =>
          hu.trans hv.preserves
    · exact Prog.wp_pure.mpr (.refl t)

/-- The hooks of other stores. -/
def hooksOf (stores : List (Nat × Nat × Nat)) : Prog NvmInst Unit :=
  Prog.forEach stores fun store => hookRtRangeStore store.1 store.2.1 store.2.2

theorem wp_hooksOf_preserves (stores : List (Nat × Nat × Nat)) (t : NvmInst) :
    Prog.wp (fun _ => True) (hooksOf stores) (fun _ => Preserves t) t := by
  refine Prog.wp_forEach (fun _ => Preserves t) (.refl t) ?_ fun _ h => h
  exact fun _ store _ u _ hu =>
    Prog.wp_mono (wp_hookRtRangeStore_preserves store.1 store.2.1 store.2.2 u) fun _ v hv =>
      hu.trans hv

/-- A block touched in a dirty segment is recorded when the next checkpoint begins. -/
theorem recorded_of_touched {block leader : Nat} {later : List (Nat × Nat × Nat)}
    {u v w : NvmInst} (hd : Dirty u (segmentOf block)) (ht : Touched u block)
    (hlater : (hooksOf later).run u = some ((), v))
    (hclear : (addressBufferClearAll leader).run v = some ((), w)) :
    w.blockDirty.test block = true := by
  have hv := Prog.run_of_wp (wp_hooksOf_preserves later u) hlater
  obtain ⟨hw, -, hempty⟩ := Prog.run_of_wp (addressBufferClearAll_cleared leader v) hclear
  rcases hw.touched block (hv.dirty _ hd) (hv.touched block hd ht) with
    hblock | ⟨id, hid, addr, hin, -⟩
  · exact hblock
  · rw [hempty id hid] at hin
    simp at hin

/-- Only touched blocks are recorded when a checkpoint begins. -/
theorem touched_of_recorded {block leader : Nat} {v w : NvmInst}
    (hclear : (addressBufferClearAll leader).run v = some ((), w))
    (h : w.blockDirty.test block = true) : Touched v block := by
  obtain ⟨-, htouched, -⟩ := Prog.run_of_wp (addressBufferClearAll_cleared leader v) hclear
  exact htouched block (Or.inl h)

/-! ## The clearing of the buffers returns -/

theorem total_hookRoutine (tid addr : Nat) : (hookRoutine tid addr).Total := by
  refine Prog.total_bind (Prog.total_read _) fun dirty => ?_
  split
  · exact Prog.total_pure _
  · exact Prog.total_bind (Prog.total_act _) fun _ => Prog.total_act _

theorem total_addressBufferClearAll (tid : Nat) : (addressBufferClearAll tid).Total := by
  refine Prog.total_forEach fun owner _ => ?_
  refine Prog.total_bind (Prog.total_read _) fun addresses => ?_
  refine Prog.total_bind (Prog.total_read _) fun limit => ?_
  refine Prog.total_bind (Prog.total_forEach fun addr _ => ?_) fun _ => Prog.total_act _
  split
  · exact total_hookRoutine tid addr
  · exact Prog.total_pure _

/-! ## The first hook of a segment that has a back segment -/

theorem run_lazyWriteBack_bound {t : NvmInst} {s b : Nat}
    (hlock : t.segmentLocks (lockOf s) = none) (hback : t.image.mainToBack s = some b)
    (hstate : t.image.getSegmentState s ≠ .main) (tid : Nat) :
    (lazyWriteBack tid s true).run t =
      some (false, { t with segmentDirty := t.segmentDirty.set s }) := by
  have hlocks : Function.update (Function.update t.segmentLocks (lockOf s) (some tid)) (lockOf s)
      none = t.segmentLocks := by
    rw [Function.update_idem, ← hlock, Function.update_eq_self]
  have hnone : (t.segmentLocks (lockOf s)).isNone = true := by simp [hlock]
  have hacquire : (acquireSegmentLock tid s).run t = some ((), { t with
      segmentLocks := Function.update t.segmentLocks (lockOf s) (some tid) }) := by
    simp only [acquireSegmentLock, Prog.await, Prog.run, hnone, if_true]
  simp only [lazyWriteBack, Prog.run_bind, hacquire, Option.bind_some, Prog.run_read,
    getMainToBack, hback]
  rw [if_pos hstate]
  simp only [if_true, setSegmentDirty, releaseSegmentLock, Prog.run_bind, Prog.run_act,
    Option.bind_some, hlocks]
  rfl

theorem run_hookRtStore {t u : NvmInst} {tid addr : Nat} (hlt : addr < t.capacity)
    (hcow : (hookCopyOnWriteRoutine tid addr).run t = some ((), u))
    (hlength : (u.addressBuffer tid).length + 1 ≠ kNumBufferedAddresses) :
    (hookRtStore tid addr).run t = some ((), { u with
      addressBuffer := Function.update u.addressBuffer tid (u.addressBuffer tid ++ [addr]) }) := by
  unfold hookRtStore
  rw [Prog.run_bind, Prog.run_read, Option.bind_some]
  simp only []
  rw [if_pos hlt, Prog.run_bind, hcow]
  simp only [Option.bind_some, Prog.run_bind, Prog.run_act, Prog.run_read, Function.update_self,
    List.length_append, List.length_singleton]
  rw [if_neg hlength]
  rfl

end Libcrpm.NvmInst
