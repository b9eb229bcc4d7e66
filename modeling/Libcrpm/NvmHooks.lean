import Libcrpm.NvmState

/-!
# The hooks of the NVM engine

What a store leaves behind when every checkpoint uses the flush lists: its block is
recorded, and its segment is dirty and bound to a back segment that holds the snapshot.
-/

namespace Libcrpm.NvmInst

open Libcrpm.Persistence Libcrpm.Program CheckpointImage

/-! ## The invariant of the engine -/

def Dirty (t : NvmInst) (s : Nat) : Prop := t.segmentDirty.test s = true

def Buffered (t : NvmInst) (block : Nat) : Prop :=
  ∃ id < kMaxThreads, ∃ addr ∈ t.addressBuffer id,
    addr < t.capacity ∧ addr >>> kBlockShift = block

def Touched (t : NvmInst) (block : Nat) : Prop :=
  t.blockDirty.test block = true ∨ Buffered t block

def NoneFull (t : NvmInst) : Prop :=
  ∀ id < kMaxThreads, (t.flushBlocks id).length < kMaxFlushBlocks

/-- The engine between two calls; `W` are the blocks written so far. -/
structure Quiet (n nb : Nat) (X : Snapshot) (e : Nat) (W : Nat → Prop)
    (c : Nat → SegmentState) (t : NvmInst) : Prop where
  steady : Steady n nb X e c (Dirty t) (Touched t) NoFresh t.image
  accounted : ∀ block, W block → X.written block ∨ Touched t block
  listed : NoneFull t → ∀ block, t.blockDirty.test block = true → block ∈ t.listedBlocks
  dirtyListed : ∀ block ∈ t.listedBlocks, t.blockDirty.test block = true
  range : ∀ block, Touched t block → segmentOf block < n
  next : t.nextBackId < nb ∨ nb = 0
  skip : t.skipCopyOnWrite = true → n = nb
  cleaner : t.cleanerState = .idle

/-- Everything but the image, the locks and the allocation cursor is unchanged. -/
structure Frame (t u : NvmInst) : Prop where
  nrMain : u.image.nrMain = t.image.nrMain
  segmentDirty : u.segmentDirty = t.segmentDirty
  blockDirty : ∀ block, u.blockDirty.test block = t.blockDirty.test block
  flushBlocks : u.flushBlocks = t.flushBlocks
  addressBuffer : u.addressBuffer = t.addressBuffer
  skip : u.skipCopyOnWrite = t.skipCopyOnWrite
  cleaner : u.cleanerState = t.cleanerState

theorem Frame.refl (t : NvmInst) : Frame t t := ⟨rfl, rfl, fun _ => rfl, rfl, rfl, rfl, rfl⟩

theorem Frame.trans {t u v : NvmInst} (h : Frame t u) (h' : Frame u v) : Frame t v where
  nrMain := h'.nrMain.trans h.nrMain
  segmentDirty := h'.segmentDirty.trans h.segmentDirty
  blockDirty block := (h'.blockDirty block).trans (h.blockDirty block)
  flushBlocks := h'.flushBlocks.trans h.flushBlocks
  addressBuffer := h'.addressBuffer.trans h.addressBuffer
  skip := h'.skip.trans h.skip
  cleaner := h'.cleaner.trans h.cleaner

theorem frame_backMemoryLock (t : NvmInst) (x : Bool) : Frame t { t with backMemoryLock := x } :=
  ⟨rfl, rfl, fun _ => rfl, rfl, rfl, rfl, rfl⟩

theorem frame_segmentLocks (t : NvmInst) (x : Nat → Option Nat) :
    Frame t { t with segmentLocks := x } :=
  ⟨rfl, rfl, fun _ => rfl, rfl, rfl, rfl, rfl⟩

theorem frame_nextBackId (t : NvmInst) (x : Nat) : Frame t { t with nextBackId := x } :=
  ⟨rfl, rfl, fun _ => rfl, rfl, rfl, rfl, rfl⟩

theorem Frame.dirty {t u : NvmInst} (h : Frame t u) : Dirty u = Dirty t := by
  funext s
  rw [Dirty, Dirty, h.segmentDirty]

theorem Frame.touched {t u : NvmInst} (h : Frame t u) : Touched u = Touched t := by
  funext block
  simp only [Touched, Buffered, capacity, nrSegments, h.blockDirty, h.addressBuffer, h.nrMain]

variable {n nb : Nat} {X : Snapshot} {e : Nat} {W : Nat → Prop} {c : Nat → SegmentState}
  {t u : NvmInst} {P : Prop}

theorem Quiet.frame {c' : Nat → SegmentState} (h : Quiet n nb X e W c t) (hf : Frame t u)
    (hnext : u.nextBackId < nb ∨ nb = 0)
    (hs : Steady n nb X e c' (Dirty t) (Touched t) NoFresh u.image) :
    Quiet n nb X e W c' u where
  steady := by
    rw [hf.dirty, hf.touched]
    exact hs
  accounted := by
    rw [hf.touched]
    exact h.accounted
  listed := by
    simp only [NoneFull, listedBlocks, hf.flushBlocks, hf.blockDirty]
    exact h.listed
  dirtyListed := by
    simp only [listedBlocks, hf.flushBlocks, hf.blockDirty]
    exact h.dirtyListed
  range := by
    rw [hf.touched]
    exact h.range
  next := hnext
  skip := hf.skip ▸ h.skip
  cleaner := hf.cleaner.trans h.cleaner

def CrashSafe (P : Prop) (n nb : Nat) (X : Snapshot) (e : Nat) (t : NvmInst) : Prop :=
  P → Recoverable n nb X e t.image

theorem Quiet.crashSafe (h : Quiet n nb X e W c t) (hu : u.image = t.image) :
    CrashSafe P n nb X e u :=
  fun _ => hu ▸ h.steady.recoverable

theorem wp_onImage {C : NvmInst → Prop} {α : Type} {p : Prog CheckpointImage α}
    {Q : α → NvmInst → Prop}
    (h : Prog.wp (fun i => C { t with image := i }) p (fun a i => Q a { t with image := i })
      t.image) : Prog.wp C (onImage p) Q t :=
  Prog.wp_zoom imageLens h

/-! ## Allocating a back segment -/

/-- The segment lost its back segment to another one. -/
def Stolen (t : NvmInst) (s : Nat) : Prop :=
  t.image.getSegmentState s = .back ∧ t.image.getMainToBack s = none

/-- The outcome of an allocation for `s`. -/
structure Allocated (nb s : Nat) (t u : NvmInst) : Prop where
  frame : Frame t u
  next : u.nextBackId < nb ∨ nb = 0
  bound : u.image = t.image ∨ ∃ b < nb, Rebound t.image s b u.image ∧
    ∀ o, t.image.mem.load (.backToMain b) = some o → ¬ Dirty t o

theorem Allocated.move {nb s : Nat} {t u v : NvmInst} (h : Allocated nb s t u) (hf : Frame u v)
    (hi : v.image = u.image) (hn : v.nextBackId = u.nextBackId) : Allocated nb s t v where
  frame := h.frame.trans hf
  next := hn ▸ h.next
  bound := hi ▸ h.bound

theorem Quiet.allocated_crashSafe (h : Quiet n nb X e W c t) {s : Nat} (hs : s < n)
    (hfree : t.image.mainToBack s = none) (hinit : P → c s = .initial)
    (ha : Allocated nb s t u) : CrashSafe P n nb X e u := by
  intro hP
  rcases ha.bound with hsame | ⟨b, hb, hre, hclean⟩
  · exact hsame ▸ h.steady.recoverable
  · exact ((h.steady.rebound hre hb hs hfree hclean).of_initial (hinit hP)).recoverable

theorem wp_takeBackSegment (h : Quiet n nb X e W c t) {s : Nat} (hs : s < n)
    (hfree : t.image.mainToBack s = none) (hinit : P → c s = .initial) (hf : Frame t u)
    (hu : u.image = t.image) {b : Nat} (hb : b < nb)
    (hclean : ∀ o, t.image.mem.load (.backToMain b) = some o → ¬ Dirty t o) :
    Prog.wp (CrashSafe P n nb X e) (takeBackSegment s b) (fun _ v => Allocated nb s t v) u := by
  rw [takeBackSegment, Prog.wp_bind]
  apply wp_onImage
  rw [hu]
  refine Prog.wp_mono (Prog.wp_weaken (fun i hi hP => ?_)
    (wp_bindBackSegment (h.steady.settled b))) fun _ i hi => ?_
  · exact h.steady.bindCrash hi hb hs hfree (hinit hP) hclean
  · have hlt : (u.nextBackId + 1) % i.nrBack < nb := by
      rw [hi.nrBack, h.steady.nrBack]
      exact Nat.mod_lt _ (by omega)
    have hall : Allocated nb s t { u with image := i, nextBackId := (u.nextBackId + 1) % i.nrBack } :=
      ⟨⟨hi.nrMain, hf.segmentDirty, hf.blockDirty, hf.flushBlocks, hf.addressBuffer, hf.skip,
        hf.cleaner⟩, Or.inl hlt, Or.inr ⟨b, hb, hi, hclean⟩⟩
    exact Prog.wp_act.mpr ⟨h.allocated_crashSafe hs hfree hinit hall, hall⟩

theorem wp_allocateLoop (h : Quiet n nb X e W c t) {s : Nat} (hs : s < n)
    (hfree : t.image.mainToBack s = none) (hinit : P → c s = .initial) (tid rounds : Nat)
    (hf : Frame t u) (hu : u.image = t.image) (hnext : u.nextBackId < nb ∨ nb = 0)
    (hrounds : nb = 0 → rounds = 0) :
    Prog.wp (CrashSafe P n nb X e) (allocateLoop tid s rounds)
      (fun _ v => Allocated nb s t v) u := by
  have hC : ∀ v : NvmInst, v.image = t.image → CrashSafe P n nb X e v :=
    fun v hv => h.crashSafe hv
  induction rounds generalizing u with
  | zero => exact Prog.wp_pure.mpr ⟨hf, hnext, Or.inl hu⟩
  | succ rounds ih =>
      have hpos : 0 < nb := by
        by_contra hzero
        have := hrounds (by omega)
        omega
      have hadvance : ∀ v, Frame t v → v.image = t.image →
          Prog.wp (CrashSafe P n nb X e) (do
            advanceNextBackSegment
            allocateLoop tid s rounds) (fun _ v => Allocated nb s t v) v := by
        intro v hfv hv
        rw [Prog.wp_bind]
        refine Prog.wp_act.mpr ⟨hC _ hv, ih (hfv.trans (frame_nextBackId v _)) hv (Or.inl ?_) ?_⟩
        · change (v.nextBackId + 1) % v.image.nrBack < nb
          rw [hv, h.steady.nrBack]
          exact Nat.mod_lt _ hpos
        · omega
      have hlt : u.nextBackId < nb := hnext.resolve_right (by omega)
      have hrelease : ∀ v, Allocated nb s t v →
          Prog.wp (CrashSafe P n nb X e) releaseBackMemoryLock
            (fun _ v => Allocated nb s t v) v := by
        intro v hv
        have hmove := hv.move (frame_backMemoryLock v false) rfl rfl
        exact Prog.wp_act.mpr ⟨h.allocated_crashSafe hs hfree hinit hmove, hmove⟩
      rw [allocateLoop]
      simp only [Prog.wp_bind, Prog.wp_read]
      refine ⟨hC u hu, hC u hu, ?_⟩
      cases hown : u.image.getBackToMain u.nextBackId with
      | none =>
          rw [Prog.wp_bind]
          refine Prog.wp_mono (wp_takeBackSegment h hs hfree hinit hf hu hlt fun o ho => ?_)
            fun _ v hv => hrelease v hv
          rw [getBackToMain, hu, ho] at hown
          simp at hown
      | some o =>
          have howner : ∀ o', t.image.mem.load (.backToMain u.nextBackId) = some o' → o' = o := by
            intro o' ho'
            rw [getBackToMain, hu, ho'] at hown
            exact Option.some.inj hown
          have htest : ∀ v, Frame t v → v.segmentDirty.test o = false → ¬ Dirty t o := by
            intro v hv htest hdirty
            rw [Dirty, ← hv.segmentDirty, htest] at hdirty
            simp at hdirty
          simp only [Prog.wp_bind, Prog.wp_read]
          refine ⟨hC u hu, ?_⟩
          split
          · simp only [Prog.wp_bind, Prog.wp_read]
            refine ⟨hC u hu, ?_⟩
            split
            · exact hadvance u hf hu
            · rename_i hclean
              rw [Prog.wp_bind]
              refine Prog.wp_mono (wp_takeBackSegment h hs hfree hinit hf hu hlt fun o' ho' => ?_)
                fun _ v hv => hrelease v hv
              rw [howner o' ho']
              exact htest u hf (by simpa using hclean)
          · rw [Prog.wp_bind, tryAcquireSegmentLock, Prog.wp_fetch]
            by_cases hlock : (u.segmentLocks (lockOf o)).isNone = true
            · have hfv := hf.trans (frame_segmentLocks u
                (Function.update u.segmentLocks (lockOf o) (some tid)))
              simp only [hlock, if_true, Prog.wp_bind, Prog.wp_read]
              refine ⟨hC _ hu, hC _ hu, ?_⟩
              split
              · simp only [releaseSegmentLock, Prog.wp_bind, Prog.wp_act]
                have hrest := hadvance _ (hf.trans (frame_segmentLocks u
                  (Function.update (Function.update u.segmentLocks (lockOf o) (some tid))
                    (lockOf o) none))) hu
                rw [Prog.wp_bind] at hrest
                exact ⟨hC _ hu, hrest⟩
              · rename_i hclean
                rw [Prog.wp_bind]
                refine Prog.wp_mono (wp_takeBackSegment h hs hfree hinit hfv hu hlt
                  fun o' ho' => ?_) fun _ v hv => ?_
                · rw [howner o' ho']
                  exact htest _ hfv (by simpa using hclean)
                · have hmove := hv.move (frame_segmentLocks v
                    (Function.update v.segmentLocks (lockOf o) none)) rfl rfl
                  rw [Prog.wp_bind]
                  exact Prog.wp_act.mpr
                    ⟨h.allocated_crashSafe hs hfree hinit hmove, hrelease _ hmove⟩
            · simp only [hlock]
              exact ⟨hC u hu, hadvance u hf hu⟩

theorem wp_findBackSegment (h : Quiet n nb X e W c t) {s : Nat} (hs : s < n)
    (hfree : t.image.mainToBack s = none) (hinit : P → c s = .initial) (tid : Nat) :
    Prog.wp (CrashSafe P n nb X e) (findBackSegment tid s)
      (fun r u => r.2 = true ∧ Frame t u ∧ (u.nextBackId < nb ∨ nb = 0) ∧
        u.image.mainToBack s = some r.1 ∧
        Steady n nb X e c (Dirty t) (Touched t) (fun s' => s' = s) u.image) t := by
  have hlock := frame_backMemoryLock t true
  have hback : ∀ v : NvmInst, v.image.getMainToBack s = v.image.mainToBack s := fun _ => rfl
  simp only [findBackSegment, Prog.wp_bind, Prog.wp_read, hback, hfree]
  refine ⟨h.crashSafe rfl, ?_⟩
  simp only [allocateBackSegment, acquireBackMemoryLock, Prog.wp_bind, Prog.wp_await, Prog.wp_read]
  refine fun _ => ⟨h.crashSafe rfl, h.crashSafe rfl, ?_⟩
  refine Prog.wp_mono (wp_allocateLoop h hs hfree hinit tid _ hlock rfl h.next fun hnb => ?_) ?_
  · exact h.steady.nrBack.trans hnb
  · intro _ v hv
    refine ⟨h.allocated_crashSafe hs hfree hinit hv, ?_⟩
    rcases hv.bound with hsame | ⟨b, hb, hre, hclean⟩
    · rw [hsame, hfree]
      exact trivial
    · rw [hre.self]
      exact Prog.wp_pure.mpr ⟨rfl, hv.frame, hv.next, hre.self,
        h.steady.rebound hre hb hs hfree hclean⟩

/-! ## Copy-on-write -/

/-- The outcome of hooking segment `s`. -/
structure Hooked (n nb : Nat) (X : Snapshot) (e : Nat) (W : Nat → Prop) (s : Nat)
    (t u : NvmInst) : Prop where
  quiet : ∃ c, Quiet n nb X e W c u
  dirty : Dirty u s
  keepsDirty : ∀ s', Dirty t s' → Dirty u s'

theorem dirty_set (t : NvmInst) (s : Nat) :
    Dirty { t with segmentDirty := t.segmentDirty.set s } s := by
  simp [Dirty, AtomicBitSet.test_set]

theorem Dirty.set {t : NvmInst} {s' : Nat} (h : Dirty t s') (s : Nat) :
    Dirty { t with segmentDirty := t.segmentDirty.set s } s' := by
  simp only [Dirty, AtomicBitSet.test_set, Bool.or_eq_true]
  exact Or.inr h

theorem Quiet.setDirty (h : Quiet n nb X e W c t) {s : Nat} (hb : t.image.mainToBack s ≠ none) :
    Quiet n nb X e W c { t with segmentDirty := t.segmentDirty.set s } where
  steady := by
    refine h.steady.grow (fun _ ht => ht) (fun block ht => ?_) fun s' hs' hd => ?_
    · exact (h.steady.touchedDirty block ht).set s
    · simp only [Dirty, AtomicBitSet.test_set, Bool.or_eq_true, decide_eq_true_eq] at hd
      rcases hd with rfl | hd
      · exact hb
      · exact h.steady.dirtyBound s' hs' hd
  accounted := h.accounted
  listed := h.listed
  dirtyListed := h.dirtyListed
  range := h.range
  next := h.next
  skip := h.skip
  cleaner := h.cleaner

theorem Quiet.hooked (h : Quiet n nb X e W c u) {s : Nat} (hf : Frame t u)
    (hb : u.image.mainToBack s ≠ none) :
    Hooked n nb X e W s t { u with segmentDirty := u.segmentDirty.set s } where
  quiet := ⟨c, h.setDirty hb⟩
  dirty := dirty_set u s
  keepsDirty s' hs' := (hf.dirty ▸ hs' : Dirty u s').set s

/-- No bit of a clean segment is set, so clearing them changes nothing. -/
theorem Quiet.frame_clearBlockDirty (h : Quiet n nb X e W c t) (hf : Frame t u) {s : Nat}
    (hclean : ¬ Dirty t s) :
    Frame t { u with
      blockDirty := u.blockDirty.clearRegion (startBlock s) (stopBlock s) } := by
  refine ⟨hf.nrMain, hf.segmentDirty, fun block => ?_, hf.flushBlocks, hf.addressBuffer, hf.skip,
    hf.cleaner⟩
  rw [AtomicBitSet.test_clearRegion, hf.blockDirty block]
  by_cases hin : startBlock s / 64 ≤ block / 64 ∧ block / 64 < stopBlock s / 64
  · have hseg : segmentOf block = s := by
      rw [segmentOf_eq]
      rw [stopBlock, startBlock, kBlocksPerSegment_eq] at hin
      rw [kBlocksPerSegment_eq]
      omega
    have hfalse : t.blockDirty.test block = false := by
      by_contra htest
      have hd := h.steady.touchedDirty block (Or.inl (by simpa using htest))
      rw [hseg] at hd
      exact hclean hd
    simp [hfalse]
  · simp [hin]

theorem wp_copyToBack {s b : Nat} (hclean : ¬ Dirty t s)
    (hinit : P → c s = .initial) (hf : Frame t u) (hb : u.image.mainToBack s = some b)
    (hs : Steady n nb X e c (Dirty t) (Touched t) (fun s' => s' = s) u.image) :
    Prog.wp (CrashSafe P n nb X e) (do
        copyToBack s b true (c s)
        Prog.act (onNvm Memory.fence))
      (fun _ v => Frame t v ∧ v.nextBackId = u.nextBackId ∧ v.image.mainToBack s = some b ∧
        Steady n nb X e c (Dirty t) (Touched t) NoFresh v.image) u := by
  rw [Prog.wp_bind, copyToBack, if_pos rfl]
  split
  · rename_i hstate
    have hfill := hs.fill hb hclean
    refine Prog.wp_act.mpr ⟨fun hP => absurd (hinit hP) hstate, Prog.wp_act.mpr ⟨fun _ => ?_,
      ⟨hf.nrMain, hf.segmentDirty, hf.blockDirty, hf.flushBlocks, hf.addressBuffer, hf.skip,
        hf.cleaner⟩, rfl, hb, hfill⟩⟩
    exact hfill.recoverable
  · rename_i hstate
    have hfill := (hs.of_initial (not_not.mp hstate)).fence
    refine Prog.wp_pure.mpr (Prog.wp_act.mpr ⟨fun _ => hfill.recoverable,
      ⟨hf.nrMain, hf.segmentDirty, hf.blockDirty, hf.flushBlocks, hf.addressBuffer, hf.skip,
        hf.cleaner⟩, rfl, hb, hfill⟩)

theorem Steady.setBack {i j : CheckpointImage} {dirty touched : Nat → Prop} {s : Nat}
    (h : Steady n nb X e c dirty touched NoFresh i) (hk : Keeps i j)
    (ha : Arrays j e (Function.update c s .back) (Function.update c s .back)) :
    Steady n nb X e (Function.update c s .back) dirty touched NoFresh j := by
  refine h.keeps hk ha (fun s' hs' => ?_) fun s' hs' hne => ?_
  · by_cases hss : s' = s
    · exact Or.inr (by simp [hss])
    · rw [Function.update_of_ne hss]
      exact h.states s' hs'
  · by_cases hss : s' = s
    · simp [hss]
    · rwa [Function.update_of_ne hss]

theorem wp_finishWriteBack (h : Quiet n nb X e W c t) {s b : Nat} (hclean : ¬ Dirty t s)
    (hinit : P → c s = .initial) (hf : Frame t u) (hnext : u.nextBackId < nb ∨ nb = 0)
    (hb : u.image.mainToBack s = some b)
    (hs : Steady n nb X e c (Dirty t) (Touched t) (fun s' => s' = s) u.image) :
    Prog.wp (CrashSafe P n nb X e) (finishWriteBack s b true (c s) true)
      (fun _ v => Hooked n nb X e W s t v) u := by
  have hcopy := wp_copyToBack (P := P) hclean hinit hf hb hs
  rw [Prog.wp_bind] at hcopy
  rw [finishWriteBack, Prog.wp_bind]
  refine Prog.wp_mono hcopy fun _ v hv => ?_
  rw [Prog.wp_bind]
  refine Prog.wp_mono hv fun _ v ⟨hfv, hnv, hbv, hsv⟩ => ?_
  rw [Prog.wp_bind]
  apply wp_onImage
  refine Prog.wp_mono (Prog.wp_weaken (fun i hi _ => hsv.atomicCrash hi)
    (wp_setSegmentStateAtomic hsv.arrays s .back)) fun _ i ⟨hk, ha, _⟩ => ?_
  have hback := hsv.setBack hk ha
  have hframe : Frame t { v with image := i } :=
    ⟨hk.nrMain.trans hfv.nrMain, hfv.segmentDirty, hfv.blockDirty, hfv.flushBlocks,
      hfv.addressBuffer, hfv.skip, hfv.cleaner⟩
  have hcleared := h.frame_clearBlockDirty hframe hclean
  have hquiet : Quiet n nb X e W (Function.update c s .back) { v with
      image := i
      blockDirty := v.blockDirty.clearRegion (startBlock s) (stopBlock s) } := by
    refine h.frame hcleared ?_ hback
    change v.nextBackId < nb ∨ nb = 0
    rw [hnv]
    exact hnext
  have hbound : i.mainToBack s ≠ none := by
    rw [hk.mainToBack, hbv]
    simp
  have hhook := hquiet.hooked hcleared hbound
  have hsafe : ∀ w : NvmInst, w.image = i → CrashSafe P n nb X e w :=
    fun w hw _ => hw ▸ hback.recoverable
  simp only [clearBlockDirty, setSegmentDirty, releaseSegmentLock, if_true, Prog.wp_bind,
    Prog.wp_act]
  refine ⟨hsafe _ rfl, hsafe _ rfl, hsafe _ rfl, Prog.wp_pure.mpr ?_⟩
  obtain ⟨⟨c', hq⟩, hd, hkd⟩ := hhook
  exact ⟨⟨c', hq.frame (frame_segmentLocks _ _) hq.next hq.steady⟩, hd, hkd⟩

theorem wp_lazyWriteBack (h : Quiet n nb X e W c t) {s : Nat} (hs : s < n)
    (hsafe : P → ¬ Stolen t s) (tid : Nat) :
    Prog.wp (CrashSafe P n nb X e) (lazyWriteBack tid s true)
      (fun _ v => Hooked n nb X e W s t v) t := by
  have hstate : t.image.getSegmentState s = c s :=
    h.steady.arrays.getSegmentState (h.steady.nrMain ▸ hs)
  have hlock := frame_segmentLocks t (Function.update t.segmentLocks (lockOf s) (some tid))
  have hq := h.frame hlock h.next h.steady
  simp only [lazyWriteBack, acquireSegmentLock, Prog.wp_bind, Prog.wp_await, Prog.wp_read]
  refine fun _ => ⟨h.crashSafe rfl, h.crashSafe rfl, h.crashSafe rfl, ?_⟩
  simp only [getMainToBack]
  cases hb : t.image.mainToBack s with
  | some b =>
      have hne : c s ≠ .main := by
        rcases h.steady.states s hs with hc | hc <;> simp [hc]
      simp only [hstate, hne, ne_eq, not_false_eq_true, if_true, setSegmentDirty,
        releaseSegmentLock, Prog.wp_bind, Prog.wp_act]
      refine ⟨h.crashSafe rfl, h.crashSafe rfl, Prog.wp_pure.mpr ?_⟩
      obtain ⟨⟨c', hq'⟩, hd, hkd⟩ := hq.hooked hlock (s := s) (by
        change t.image.mainToBack s ≠ none
        simp [hb])
      exact ⟨⟨c', hq'.frame (frame_segmentLocks _ _) hq'.next hq'.steady⟩, hd, hkd⟩
  | none =>
      have hclean : ¬ Dirty t s := fun hd => h.steady.dirtyBound s hs hd hb
      have hinit : P → c s = .initial := by
        intro hP
        refine (h.steady.states s hs).resolve_right fun hback => hsafe hP ⟨?_, hb⟩
        rw [hstate, hback]
      simp only [if_true, Prog.wp_bind]
      refine Prog.wp_mono (wp_findBackSegment hq hs hb hinit tid) ?_
      rintro ⟨b, created⟩ v ⟨hcreated, hfv, hnv, hbv, hsv⟩
      simp only at hcreated hbv
      subst hcreated
      change Prog.wp _ (finishWriteBack s b true (t.image.getSegmentState s) true) _ _
      rw [hstate]
      have hfinish := wp_finishWriteBack hq (hlock.dirty ▸ hclean) hinit hfv hnv hbv hsv
      refine Prog.wp_mono hfinish fun _ w hw => ⟨hw.quiet, hw.dirty, fun s' hs' => ?_⟩
      exact hw.keepsDirty s' (hlock.dirty ▸ hs')

theorem wp_hookSegment (h : Quiet n nb X e W c t) {s : Nat} (hs : s < n)
    (hsafe : P → ¬ Stolen t s) (tid : Nat) :
    Prog.wp (CrashSafe P n nb X e) (hookSegment tid s)
      (fun _ v => Hooked n nb X e W s t v) t := by
  simp only [hookSegment, Prog.wp_bind, Prog.wp_read]
  refine ⟨h.crashSafe rfl, ?_⟩
  split
  · rename_i hdirty
    exact Prog.wp_pure.mpr ⟨⟨c, h⟩, hdirty, fun _ hs' => hs'⟩
  · simp only [Prog.wp_bind, Prog.wp_read]
    refine ⟨h.crashSafe rfl, ?_⟩
    split
    · rename_i hskip
      exact Prog.wp_act.mpr ⟨h.crashSafe rfl,
        h.hooked (.refl t) (h.steady.allBound (h.skip hskip) s hs)⟩
    · rw [Prog.wp_bind]
      exact Prog.wp_mono (wp_lazyWriteBack h hs hsafe tid) fun _ v hv => Prog.wp_pure.mpr hv

/-- No hook of the list reaches a segment that lost its back segment. -/
def SafeHooks (tid : Nat) : List Nat → NvmInst → Prop
  | [], _ => True
  | s :: rest, t => ¬ Stolen t s ∧
      ∀ u, (hookSegment tid s).run t = some ((), u) → SafeHooks tid rest u

theorem wp_hookSegments {tid : Nat} {l : List Nat} (hl : ∀ s ∈ l, s < n)
    (h : Quiet n nb X e W c t) (hsafe : P → SafeHooks tid l t) :
    Prog.wp (CrashSafe P n nb X e) (Prog.forEach l (hookSegment tid))
      (fun _ u => (∃ c, Quiet n nb X e W c u) ∧ (∀ s ∈ l, Dirty u s) ∧
        ∀ s, Dirty t s → Dirty u s) t := by
  induction l generalizing t c with
  | nil => exact Prog.wp_pure.mpr ⟨⟨c, h⟩, by simp, fun _ hs => hs⟩
  | cons s rest ih =>
      change Prog.wp _ (hookSegment tid s >>= fun _ => Prog.forEach rest (hookSegment tid)) _ _
      rw [Prog.wp_bind]
      have hfirst := wp_hookSegment h (hl s (by simp)) (fun hP => (hsafe hP).1) tid
      refine Prog.wp_mono (Prog.wp_run hfirst) fun _ u ⟨hrun, hu⟩ => ?_
      obtain ⟨⟨c', hq⟩, hd, hkeep⟩ := hu
      refine Prog.wp_mono (ih (fun s' hs' => hl s' (by simp [hs'])) hq
        fun hP => (hsafe hP).2 u hrun) fun _ v ⟨hv, hrest, hkeep'⟩ => ⟨hv, ?_, ?_⟩
      · intro s' hs'
        rcases List.mem_cons.mp hs' with rfl | hs'
        · exact hkeep' s' hd
        · exact hrest s' hs'
      · exact fun s' hs' => hkeep' s' (hkeep s' hs')

/-! ## Recording blocks -/

theorem mem_listedBlocks {t : NvmInst} {block : Nat} :
    block ∈ t.listedBlocks ↔ ∃ id < kMaxThreads, block ∈ t.flushBlocks id := by
  simp [listedBlocks]

/-- `u` arises from `t` by recording blocks. -/
structure Recorded (n nb : Nat) (X : Snapshot) (e : Nat) (W : Nat → Prop)
    (c : Nat → SegmentState) (t u : NvmInst) : Prop where
  quiet : Quiet n nb X e W c u
  image : u.image = t.image
  segmentDirty : u.segmentDirty = t.segmentDirty
  blockDirty : ∀ block, t.blockDirty.test block = true → u.blockDirty.test block = true
  addressBuffer : u.addressBuffer = t.addressBuffer

theorem Recorded.trans {v : NvmInst} (h : Recorded n nb X e W c t u)
    (hv : Recorded n nb X e W c u v) : Recorded n nb X e W c t v where
  quiet := hv.quiet
  image := hv.image.trans h.image
  segmentDirty := hv.segmentDirty.trans h.segmentDirty
  blockDirty block hb := hv.blockDirty block (h.blockDirty block hb)
  addressBuffer := hv.addressBuffer.trans h.addressBuffer

theorem Quiet.record (h : Quiet n nb X e W c t) {tid block : Nat} (htid : tid < kMaxThreads)
    (hd : Dirty t (segmentOf block)) (hr : segmentOf block < n)
    (hu : u = { t with blockDirty := t.blockDirty.set block } ∧
        (t.flushBlocks tid).length = kMaxFlushBlocks ∨
      u = { t with blockDirty := t.blockDirty.set block,
                   flushBlocks := Function.update t.flushBlocks tid
                     (t.flushBlocks tid ++ [block]) }) :
    Recorded n nb X e W c t u := by
  have hset : ∀ b, u.blockDirty.test b = true ↔ b = block ∨ t.blockDirty.test b = true := by
    intro b
    rcases hu with ⟨rfl, -⟩ | rfl <;> simp [AtomicBitSet.test_set]
  have himage : u.image = t.image := by rcases hu with ⟨rfl, -⟩ | rfl <;> rfl
  have hseg : u.segmentDirty = t.segmentDirty := by rcases hu with ⟨rfl, -⟩ | rfl <;> rfl
  have hbuf : u.addressBuffer = t.addressBuffer := by rcases hu with ⟨rfl, -⟩ | rfl <;> rfl
  have htouched : ∀ b, Touched u b ↔ b = block ∨ Touched t b := by
    intro b
    simp only [Touched, Buffered, capacity, nrSegments, hset, hbuf, himage, or_assoc]
  have hdirty : Dirty u = Dirty t := by
    funext s
    rw [Dirty, Dirty, hseg]
  have hlists : ∀ id, ∀ b ∈ t.flushBlocks id, b ∈ u.flushBlocks id := by
    intro id b hb
    rcases hu with ⟨rfl, -⟩ | rfl
    · exact hb
    · simp only [Function.update_apply]
      split
      · rename_i hid
        subst hid
        exact List.mem_append_left _ hb
      · exact hb
  refine ⟨⟨?_, fun b hb => ?_, fun hfull b hb => ?_, fun b hb => ?_, fun b hb => ?_, ?_, ?_, ?_⟩,
    himage, hseg, fun b hb => (hset b).mpr (Or.inr hb), hbuf⟩
  · rw [himage, hdirty]
    refine h.steady.grow (fun b hb => (htouched b).mpr (Or.inr hb)) (fun b hb => ?_)
      h.steady.dirtyBound
    rcases (htouched b).mp hb with rfl | hb
    · exact hd
    · exact h.steady.touchedDirty b hb
  · exact (h.accounted b hb).imp_right fun ht => (htouched b).mpr (Or.inr ht)
  · rw [mem_listedBlocks]
    rcases hu with ⟨rfl, hlen⟩ | rfl
    · have hlt : (t.flushBlocks tid).length < kMaxFlushBlocks := hfull tid htid
      omega
    · rcases (hset b).mp hb with rfl | hb
      · exact ⟨tid, htid, by simp⟩
      · have hnone : NoneFull t := by
          intro id hid
          have hlen := hfull id hid
          simp only [Function.update_apply] at hlen
          split at hlen
          · rename_i hid
            subst hid
            rw [List.length_append] at hlen
            omega
          · exact hlen
        obtain ⟨id, hid, hin⟩ := mem_listedBlocks.mp (h.listed hnone b hb)
        exact ⟨id, hid, hlists id b hin⟩
  · rw [hset]
    obtain ⟨id, hid, hin⟩ := mem_listedBlocks.mp hb
    rcases hu with ⟨rfl, -⟩ | rfl
    · exact Or.inr (h.dirtyListed b (mem_listedBlocks.mpr ⟨id, hid, hin⟩))
    · simp only [Function.update_apply] at hin
      split at hin
      · rename_i heq
        subst heq
        rcases List.mem_append.mp hin with hin | hin
        · exact Or.inr (h.dirtyListed b (mem_listedBlocks.mpr ⟨id, hid, hin⟩))
        · exact Or.inl (by simpa using hin)
      · exact Or.inr (h.dirtyListed b (mem_listedBlocks.mpr ⟨id, hid, hin⟩))
  · rcases (htouched b).mp hb with rfl | hb
    · exact hr
    · exact h.range b hb
  · rcases hu with ⟨rfl, -⟩ | rfl <;> exact h.next
  · rcases hu with ⟨rfl, -⟩ | rfl <;> exact h.skip
  · rcases hu with ⟨rfl, -⟩ | rfl <;> exact h.cleaner

theorem wp_hookRoutine (h : Quiet n nb X e W c t) {tid addr : Nat} (htid : tid < kMaxThreads)
    (hd : Dirty t (segmentOf (addr >>> kBlockShift))) (hr : segmentOf (addr >>> kBlockShift) < n) :
    Prog.wp (CrashSafe P n nb X e) (hookRoutine tid addr)
      (fun _ u => Recorded n nb X e W c t u ∧ u.blockDirty.test (addr >>> kBlockShift) = true)
      t := by
  simp only [hookRoutine, Prog.wp_bind, Prog.wp_read]
  refine ⟨h.crashSafe rfl, ?_⟩
  split
  · rename_i hdirty
    exact Prog.wp_pure.mpr ⟨⟨h, rfl, rfl, fun _ hb => hb, rfl⟩, hdirty⟩
  · have hself : (t.blockDirty.set (addr >>> kBlockShift)).test (addr >>> kBlockShift) = true := by
      simp [AtomicBitSet.test_set]
    simp only [Prog.wp_bind, Prog.wp_act]
    refine ⟨h.crashSafe rfl, ?_⟩
    split
    · exact ⟨h.crashSafe rfl, h.record htid hd hr (Or.inr rfl), hself⟩
    · rename_i hlen
      exact ⟨h.crashSafe rfl, h.record htid hd hr (Or.inl ⟨rfl, by simpa using hlen⟩), hself⟩

theorem Quiet.capacity_eq (h : Quiet n nb X e W c t) : t.capacity = n * kSegmentSize := by
  rw [capacity, nrSegments, h.steady.nrMain]

/-- `u` arises from `t` by recording blocks and emptying address buffers. -/
structure Drained (n nb : Nat) (X : Snapshot) (e : Nat) (W : Nat → Prop)
    (c : Nat → SegmentState) (t u : NvmInst) : Prop where
  quiet : Quiet n nb X e W c u
  image : u.image = t.image
  segmentDirty : u.segmentDirty = t.segmentDirty
  touched : ∀ block, Touched t block → Touched u block

theorem wp_addressBufferClear (h : Quiet n nb X e W c t) {tid owner : Nat}
    (htid : tid < kMaxThreads) (howner : owner < kMaxThreads) :
    Prog.wp (CrashSafe P n nb X e) (addressBufferClear tid owner)
      (fun _ u => Drained n nb X e W c t u ∧
        u.addressBuffer = Function.update t.addressBuffer owner []) t := by
  simp only [addressBufferClear, Prog.wp_bind, Prog.wp_read]
  refine ⟨h.crashSafe rfl, h.crashSafe rfl, ?_⟩
  refine Prog.wp_forEach (fun done u => Recorded n nb X e W c t u ∧
    ∀ addr ∈ done, addr < t.capacity → u.blockDirty.test (addr >>> kBlockShift) = true)
    ⟨⟨h, rfl, rfl, fun _ hb => hb, rfl⟩, by simp⟩ ?_ ?_
  · rintro done addr rest u hl ⟨hrec, hdone⟩
    split
    · rename_i haddr
      have htouched : Touched t (addr >>> kBlockShift) :=
        Or.inr ⟨owner, howner, addr, by simp [hl], haddr, rfl⟩
      have hdirty : Dirty u (segmentOf (addr >>> kBlockShift)) := by
        rw [Dirty, hrec.segmentDirty]
        exact h.steady.touchedDirty _ htouched
      refine Prog.wp_mono (wp_hookRoutine hrec.quiet htid hdirty (h.range _ htouched)) ?_
      rintro _ v ⟨hv, hself⟩
      refine ⟨hrec.trans hv, fun addr' haddr' hlt => ?_⟩
      rcases List.mem_append.mp haddr' with hin | hin
      · exact hv.blockDirty _ (hdone addr' hin hlt)
      · obtain rfl : addr' = addr := by simpa using hin
        exact hself
    · rename_i haddr
      refine Prog.wp_pure.mpr ⟨hrec, fun addr' haddr' hlt => ?_⟩
      rcases List.mem_append.mp haddr' with hin | hin
      · exact hdone addr' hin hlt
      · obtain rfl : addr' = addr := by simpa using hin
        exact absurd hlt haddr
  · rintro u ⟨hrec, hall⟩
    have hcap : u.capacity = t.capacity := by
      rw [capacity, capacity, nrSegments, nrSegments, hrec.image]
    have hmono : ∀ block, Touched u block → Touched
        { u with addressBuffer := Function.update u.addressBuffer owner [] } block := by
      rintro block (hb | ⟨id, hid, addr, hin, hlt, rfl⟩)
      · exact Or.inl hb
      · by_cases hown : id = owner
        · subst hown
          rw [hrec.addressBuffer] at hin
          exact Or.inl (hall addr hin (hcap ▸ hlt))
        · exact Or.inr ⟨id, hid, addr, by simpa [Function.update_of_ne hown] using hin, hlt, rfl⟩
    have hanti : ∀ block, Touched
        { u with addressBuffer := Function.update u.addressBuffer owner [] } block →
        Touched u block := by
      rintro block (hb | ⟨id, hid, addr, hin, hlt, rfl⟩)
      · exact Or.inl hb
      · by_cases hown : id = owner
        · subst hown
          simp at hin
        · exact Or.inr ⟨id, hid, addr, by simpa [Function.update_of_ne hown] using hin, hlt, rfl⟩
    have hq := hrec.quiet
    refine Prog.wp_act.mpr ⟨h.crashSafe hrec.image, ⟨⟨?_, fun b hb => ?_, hq.listed,
      hq.dirtyListed, fun b hb => hq.range b (hanti b hb), hq.next, hq.skip, hq.cleaner⟩,
      hrec.image, hrec.segmentDirty, fun b hb => ?_⟩, ?_⟩
    · exact hq.steady.grow hmono (fun b hb => hq.steady.touchedDirty b (hanti b hb))
        hq.steady.dirtyBound
    · exact (hq.accounted b hb).imp_right (hmono b)
    · refine hmono b ?_
      rcases hb with hb | ⟨id, hid, addr, hin, hlt, heq⟩
      · exact Or.inl (hrec.blockDirty b hb)
      · exact Or.inr ⟨id, hid, addr, hrec.addressBuffer ▸ hin, hcap.symm ▸ hlt, heq⟩
    · rw [← hrec.addressBuffer]

/-! ## Hooked stores -/

/-- The segments a hook for `len` bytes at `addr` reaches. -/
def hookedSegments (addr len : Nat) : List Nat :=
  if addr % kBlockSize + len ≤ kBlockSize then [addr >>> kSegmentShift] else segmentRange addr len

theorem Quiet.push (h : Quiet n nb X e W c t) {tid addr : Nat} (htid : tid < kMaxThreads)
    (hd : addr < t.capacity → Dirty t (addr >>> kSegmentShift)) :
    Drained n nb X e W c t { t with
      addressBuffer := Function.update t.addressBuffer tid (t.addressBuffer tid ++ [addr]) } ∧
    (addr < t.capacity → Touched { t with
      addressBuffer := Function.update t.addressBuffer tid (t.addressBuffer tid ++ [addr]) }
      (addr >>> kBlockShift)) := by
  have hmono : ∀ block, Touched t block → Touched { t with
      addressBuffer := Function.update t.addressBuffer tid (t.addressBuffer tid ++ [addr]) }
      block := by
    rintro block (hb | ⟨id, hid, a, hin, hlt, rfl⟩)
    · exact Or.inl hb
    · refine Or.inr ⟨id, hid, a, ?_, hlt, rfl⟩
      simp only [Function.update_apply]
      split
      · rename_i heq
        subst heq
        exact List.mem_append_left _ hin
      · exact hin
  have hanti : ∀ block, Touched { t with
      addressBuffer := Function.update t.addressBuffer tid (t.addressBuffer tid ++ [addr]) }
      block → Touched t block ∨ (addr < t.capacity ∧ addr >>> kBlockShift = block) := by
    rintro block (hb | ⟨id, hid, a, hin, hlt, rfl⟩)
    · exact Or.inl (Or.inl hb)
    · simp only [Function.update_apply] at hin
      split at hin
      · rename_i heq
        subst heq
        rcases List.mem_append.mp hin with hin | hin
        · exact Or.inl (Or.inr ⟨id, hid, a, hin, hlt, rfl⟩)
        · obtain rfl : a = addr := by simpa using hin
          exact Or.inr ⟨hlt, rfl⟩
      · exact Or.inl (Or.inr ⟨id, hid, a, hin, hlt, rfl⟩)
  have hself : addr < t.capacity → Touched { t with
      addressBuffer := Function.update t.addressBuffer tid (t.addressBuffer tid ++ [addr]) }
      (addr >>> kBlockShift) :=
    fun hlt => Or.inr ⟨tid, htid, addr, by simp, hlt, rfl⟩
  refine ⟨⟨⟨?_, fun b hb => (h.accounted b hb).imp_right (hmono b), h.listed, h.dirtyListed,
    fun b hb => ?_, h.next, h.skip, h.cleaner⟩, rfl, rfl, hmono⟩, hself⟩
  · refine h.steady.grow hmono (fun b hb => ?_) h.steady.dirtyBound
    rcases hanti b hb with hb | ⟨hlt, rfl⟩
    · exact h.steady.touchedDirty b hb
    · change Dirty t (segmentOf (addr >>> kBlockShift))
      rw [segmentOf_block]
      exact hd hlt
  · rcases hanti b hb with hb | ⟨hlt, rfl⟩
    · exact h.range b hb
    · rw [segmentOf_block]
      exact shiftRight_kSegmentShift_lt (h.capacity_eq ▸ hlt)

/-- What a hook guarantees for the blocks it was called for. -/
def Tracked (n nb : Nat) (X : Snapshot) (e : Nat) (W : Nat → Prop) (addr len : Nat)
    (u : NvmInst) : Prop :=
  (∃ c, Quiet n nb X e W c u) ∧ ∀ block, Covers addr len block → Touched u block

theorem wp_hookRtStore (h : Quiet n nb X e W c t) {tid addr len : Nat} (htid : tid < kMaxThreads)
    (haddr : addr < n * kSegmentSize) (hlen : addr % kBlockSize + len ≤ kBlockSize)
    (hsafe : P → SafeHooks tid [addr >>> kSegmentShift] t) :
    Prog.wp (CrashSafe P n nb X e) (hookRtStore tid addr)
      (fun _ u => Tracked n nb X e W addr len u) t := by
  have hcover : ∀ block, Covers addr len block → block = addr >>> kBlockShift :=
    fun _ => covers_small hlen
  have hseg := shiftRight_kSegmentShift_lt haddr
  have hpool : addr < t.capacity := by
    rw [h.capacity_eq]
    exact haddr
  simp only [hookRtStore, Prog.wp_bind, Prog.wp_read]
  refine ⟨h.crashSafe rfl, ?_⟩
  rw [if_pos hpool, hookCopyOnWriteRoutine, Prog.wp_bind]
  refine Prog.wp_mono (wp_hookSegment h hseg (fun hP => (hsafe hP).1) tid) ?_
  rintro _ u ⟨⟨c', hq⟩, hd, -⟩
  obtain ⟨hpush, hself⟩ := hq.push htid fun _ => hd
  have hpool' : addr < u.capacity := by
    rw [hq.capacity_eq]
    exact haddr
  simp only [Prog.wp_bind, Prog.wp_act, Prog.wp_read]
  refine ⟨hq.crashSafe rfl, hq.crashSafe rfl, ?_⟩
  split
  · refine Prog.wp_mono (wp_addressBufferClear hpush.quiet htid htid) ?_
    rintro _ v ⟨hv, -⟩
    refine ⟨⟨c', hv.quiet⟩, fun block hb => ?_⟩
    rw [hcover block hb]
    exact hv.touched _ (hself hpool')
  · refine Prog.wp_pure.mpr ⟨⟨c', hpush.quiet⟩, fun block hb => ?_⟩
    rw [hcover block hb]
    exact hself hpool'

theorem segmentOf_mem_segmentRange {addr len a : Nat} (h : a ∈ blockAddresses addr len) :
    segmentOf (a >>> kBlockShift) ∈ segmentRange addr len := by
  have hrange := mem_blockAddresses h
  rw [segmentOf_block]
  simp only [segmentRange, List.mem_map, List.mem_range, Nat.shiftRight_eq_div_pow, kSegmentSize_eq]
  simp only [kSegmentShift]
  rw [kBlockSize_eq] at hrange
  exact ⟨a / 2 ^ 21 - addr / 2 ^ 21, by omega, by omega⟩

theorem segmentRange_lt {addr len : Nat} (h : addr + len ≤ n * kSegmentSize) :
    ∀ s ∈ segmentRange addr len, s < n := by
  intro s hs
  simp only [segmentRange, List.mem_map, List.mem_range, Nat.shiftRight_eq_div_pow,
    kSegmentSize_eq] at hs h
  simp only [kSegmentShift] at hs
  omega

theorem wp_hookRtRangeStore (h : Quiet n nb X e W c t) {tid addr len : Nat}
    (htid : tid < kMaxThreads) (hpos : 0 < len) (hlen : addr + len ≤ n * kSegmentSize)
    (hsafe : P → SafeHooks tid (hookedSegments addr len) t) :
    Prog.wp (CrashSafe P n nb X e) (hookRtRangeStore tid addr len)
      (fun _ u => Tracked n nb X e W addr len u) t := by
  rw [hookedSegments] at hsafe
  rw [hookRtRangeStore]
  split
  · rename_i hsmall
    rw [if_pos hsmall] at hsafe
    exact wp_hookRtStore h htid (by omega) hsmall hsafe
  · rename_i hlarge
    rw [if_neg hlarge] at hsafe
    have hpool : addr < t.capacity := by
      rw [h.capacity_eq]
      omega
    simp only [Prog.wp_bind, Prog.wp_read]
    refine ⟨h.crashSafe rfl, ?_⟩
    rw [if_pos hpool, Prog.wp_bind]
    refine Prog.wp_mono (wp_hookSegments (segmentRange_lt hlen) h hsafe) ?_
    rintro _ u ⟨⟨c', hq⟩, hd, -⟩
    refine Prog.wp_forEach (fun done v => Recorded n nb X e W c' u v ∧
      ∀ a ∈ done, v.blockDirty.test (a >>> kBlockShift) = true)
      ⟨⟨hq, rfl, rfl, fun _ hb => hb, rfl⟩, by simp⟩ ?_ ?_
    · rintro done a rest v hl ⟨hrec, hdone⟩
      have hmem : a ∈ blockAddresses addr len := by simp [hl]
      have hin := segmentOf_mem_segmentRange hmem
      have hdirty : Dirty v (segmentOf (a >>> kBlockShift)) := by
        rw [Dirty, hrec.segmentDirty]
        exact hd _ hin
      refine Prog.wp_mono (wp_hookRoutine hrec.quiet htid hdirty (segmentRange_lt hlen _ hin)) ?_
      rintro _ w ⟨hw, hself⟩
      refine ⟨hrec.trans hw, fun a' ha' => ?_⟩
      rcases List.mem_append.mp ha' with hin' | hin'
      · exact hw.blockDirty _ (hdone a' hin')
      · obtain rfl : a' = a := by simpa using hin'
        exact hself
    · rintro v ⟨hrec, hall⟩
      refine ⟨⟨c', hrec.quiet⟩, fun block hb => ?_⟩
      obtain ⟨a, ha, rfl⟩ := blockAddresses_covers hb
      exact Or.inl (hall a ha)

/-- The blocks written so far, once `words` were stored. -/
def written (W : Nat → Prop) (words : List WordStore) (block : Nat) : Prop :=
  W block ∨ ∃ w ∈ words, w.block = block

theorem Quiet.storeWord (h : Quiet n nb X e W c t) {w : WordStore} (ht : Touched t w.block) :
    Quiet n nb X e W c
      (onNvm (fun m => m.store (.word .main w.segment w.offset) w.value) t) where
  steady := h.steady.storeMain ht w.value
  accounted := h.accounted
  listed := h.listed
  dirtyListed := h.dirtyListed
  range := h.range
  next := h.next
  skip := h.skip
  cleaner := h.cleaner

theorem wp_hookedStore (h : Quiet n nb X e W c t) {tid addr len : Nat} {words : List WordStore}
    (htid : tid < kMaxThreads) (hpos : 0 < len) (hlen : addr + len ≤ n * kSegmentSize)
    (hwords : ∀ w ∈ words, w.Within addr len)
    (hsafe : P → SafeHooks tid (hookedSegments addr len) t) :
    Prog.wp (CrashSafe P n nb X e) (hookedStore tid addr len words)
      (fun _ u => ∃ c, Quiet n nb X e (written W words) c u) t := by
  rw [hookedStore, Prog.wp_bind]
  refine Prog.wp_mono (wp_hookRtRangeStore h htid hpos hlen hsafe) fun _ u ⟨⟨c', hq⟩, htrack⟩ => ?_
  refine Prog.wp_forEach (fun _ v => Quiet n nb X e W c' v ∧
    ∀ block, Covers addr len block → Touched v block) ⟨hq, htrack⟩ ?_ ?_
  · intro done w rest v hl ⟨hv, hcov⟩
    have hstored := hv.storeWord (hcov w.block (hwords w (by simp [hl])).covers)
    exact Prog.wp_act.mpr ⟨hstored.crashSafe rfl, hstored, hcov⟩
  · intro v ⟨hv, hcov⟩
    refine ⟨c', { hv with accounted := fun block hb => ?_ }⟩
    rcases hb with hb | ⟨w, hw, rfl⟩
    · exact hv.accounted block hb
    · exact Or.inr (hcov _ (hwords w hw).covers)

end Libcrpm.NvmInst
