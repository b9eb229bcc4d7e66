import Libcrpm.HybridState

/-!
# The hooks of the hybrid engine

A store only changes working memory.  Its hook records the block, so that between two
rounds working memory differs from the last round in recorded blocks only.
-/

namespace Libcrpm.HybridInst

open Libcrpm.Persistence Libcrpm.Program CheckpointImage

variable {n nb : Nat} {X : Content} {e : Nat} {c : Nat → SegmentState} {stale : Nat → Prop}
  {t u v : HybridInst}

/-! ## The invariant of the engine -/

def DirtyBlock (t : HybridInst) (epoch block : Nat) : Prop :=
  (t.blockDirty epoch).test block = true

def DirtySegment (t : HybridInst) (epoch s : Nat) : Prop :=
  (t.segmentDirty epoch).test s = true

/-- An address in pool that some buffer holds. -/
def Buffered (t : HybridInst) (addr : Nat) : Prop :=
  (∃ id < kMaxThreads, addr ∈ t.addressBuffer id) ∧ addr < t.capacity

def Touched (t : HybridInst) (block : Nat) : Prop :=
  DirtyBlock t t.epoch block ∨ ∃ addr, Buffered t addr ∧ addr >>> kBlockShift = block

def TouchedSegment (t : HybridInst) (s : Nat) : Prop :=
  DirtySegment t t.epoch s ∨ ∃ addr, Buffered t addr ∧ addr >>> kSegmentShift = s

/-- No flush list is full, so that none has dropped a block. -/
def NoneFull (t : HybridInst) : Prop :=
  ∀ id < kMaxThreads, (t.flushBlocks id).length < kMaxFlushBlocks

def listedBlocks (t : HybridInst) : List Nat := (List.range kMaxThreads).flatMap t.flushBlocks

theorem mem_listedBlocks {t : HybridInst} {block : Nat} :
    block ∈ t.listedBlocks ↔ ∃ id < kMaxThreads, block ∈ t.flushBlocks id := by
  simp [listedBlocks]

/-- The flush lists and the dirty bits of the running round agree. -/
structure Listed (t : HybridInst) : Prop where
  listed : NoneFull t → ∀ block, DirtyBlock t t.epoch block → block ∈ t.listedBlocks
  dirty : ∀ block ∈ t.listedBlocks, DirtyBlock t t.epoch block

structure Quiet (n nb : Nat) (X : Content) (e : Nat) (c : Nat → SegmentState)
    (stale : Nat → Prop) (t : HybridInst) : Prop where
  steady : Steady n nb X e c (targetArea (1 - t.epoch)) stale t.image
  parity : t.epoch = 0 ∨ t.epoch = 1
  work : ∀ s < n, ∀ o < kWordsPerSegment, ¬ Touched t (blockOf s o) → t.work s o = X s o
  lists : Listed t
  marked : ∀ epoch block, DirtyBlock t epoch block → DirtySegment t epoch (segmentOf block)
  range : ∀ epoch s, DirtySegment t epoch s → s < n
  staleDirty : ∀ block, stale block → DirtyBlock t (1 - t.epoch) block
  lastNamed : ∀ s, DirtySegment t (1 - t.epoch) s → c s = stateOf (targetArea (1 - t.epoch))

theorem Quiet.capacity_eq (h : Quiet n nb X e c stale t) : t.capacity = n * kSegmentSize := by
  rw [capacity, nrSegments, h.steady.nrMain]

theorem Quiet.touchedSegment_lt (h : Quiet n nb X e c stale t) {s : Nat}
    (hs : TouchedSegment t s) : s < n := by
  rcases hs with hs | ⟨addr, ⟨-, hlt⟩, rfl⟩
  · exact h.range _ s hs
  · exact shiftRight_kSegmentShift_lt (h.capacity_eq ▸ hlt)

theorem Quiet.touchedSegment (h : Quiet n nb X e c stale t) {block : Nat} (hb : Touched t block) :
    TouchedSegment t (segmentOf block) := by
  rcases hb with hb | ⟨addr, haddr, rfl⟩
  · exact Or.inl (h.marked _ block hb)
  · exact Or.inr ⟨addr, haddr, (segmentOf_block addr).symm⟩

/-! ## Recording blocks -/

/-- `u` arises from `t` by recording `block` in the list of thread `tid`. -/
structure Recorded (tid block : Nat) (t u : HybridInst) : Prop where
  same : u = { t with
    segmentDirty := u.segmentDirty, blockDirty := u.blockDirty, flushBlocks := u.flushBlocks }
  blocks : ∀ epoch b, DirtyBlock u epoch b ↔ (epoch = t.epoch ∧ b = block) ∨ DirtyBlock t epoch b
  segments : ∀ epoch s, DirtySegment u epoch s ↔
    (epoch = t.epoch ∧ s = segmentOf block) ∨ DirtySegment t epoch s
  lists : (u.flushBlocks = t.flushBlocks ∧ (t.flushBlocks tid).length = kMaxFlushBlocks) ∨
    u.flushBlocks = Function.update t.flushBlocks tid (t.flushBlocks tid ++ [block])

/-- `u` arises from `t` by recording blocks. -/
structure Noted (t u : HybridInst) : Prop where
  same : u = { t with
    segmentDirty := u.segmentDirty, blockDirty := u.blockDirty, flushBlocks := u.flushBlocks }
  blocks : ∀ epoch b, DirtyBlock t epoch b → DirtyBlock u epoch b
  marks : ∀ epoch s, DirtySegment t epoch s → DirtySegment u epoch s

theorem Noted.refl (t : HybridInst) : Noted t t := ⟨rfl, fun _ _ h => h, fun _ _ h => h⟩

theorem Noted.image (h : Noted t u) : u.image = t.image := by rw [h.same]
theorem Noted.addressBuffer (h : Noted t u) : u.addressBuffer = t.addressBuffer := by rw [h.same]
theorem Noted.epoch (h : Noted t u) : u.epoch = t.epoch := by rw [h.same]
theorem Noted.flushMode (h : Noted t u) : u.flushMode = t.flushMode := by rw [h.same]
theorem Noted.work (h : Noted t u) : u.work = t.work := by rw [h.same]

theorem Noted.trans (h : Noted t u) (h' : Noted u v) : Noted t v := by
  refine ⟨?_, fun epoch b hb => h'.blocks epoch b (h.blocks epoch b hb),
    fun epoch s hs => h'.marks epoch s (h.marks epoch s hs)⟩
  rw [h'.same, h.same]

theorem Noted.buffered (h : Noted t u) {addr : Nat} : Buffered u addr ↔ Buffered t addr := by
  rw [Buffered, Buffered, capacity, capacity, nrSegments, nrSegments, h.addressBuffer, h.image]

theorem Noted.touched (h : Noted t u) {block : Nat} (hb : Touched t block) : Touched u block := by
  rcases hb with hb | ⟨addr, haddr, rfl⟩
  · exact Or.inl (h.epoch ▸ h.blocks _ _ hb)
  · exact Or.inr ⟨addr, h.buffered.mpr haddr, rfl⟩

theorem Recorded.noted {tid block : Nat} (h : Recorded tid block t u) : Noted t u :=
  ⟨h.same, fun epoch b hb => (h.blocks epoch b).mpr (Or.inr hb),
    fun epoch s hs => (h.segments epoch s).mpr (Or.inr hs)⟩

theorem Recorded.lists_of {tid block : Nat} (h : Recorded tid block t u) (htid : tid < kMaxThreads)
    (hl : Listed t) : Listed u := by
  have hepoch := h.noted.epoch
  constructor
  · intro hfull b hb
    rw [hepoch, h.blocks] at hb
    rw [mem_listedBlocks]
    rcases h.lists with ⟨hsame, hlen⟩ | hnew
    · have hlt := hfull tid htid
      rw [hsame] at hlt
      omega
    · rw [hnew]
      rcases hb with ⟨-, rfl⟩ | hb
      · exact ⟨tid, htid, by simp⟩
      · have hnone : NoneFull t := by
          intro id hid
          have hlen := hfull id hid
          rw [hnew] at hlen
          by_cases heq : id = tid
          · subst heq
            rw [Function.update_self, List.length_append] at hlen
            omega
          · rwa [Function.update_of_ne heq] at hlen
        obtain ⟨id, hid, hin⟩ := mem_listedBlocks.mp (hl.listed hnone b hb)
        refine ⟨id, hid, ?_⟩
        by_cases heq : id = tid
        · subst heq
          rw [Function.update_self]
          exact List.mem_append_left _ hin
        · rwa [Function.update_of_ne heq]
  · intro b hb
    rw [hepoch, h.blocks]
    obtain ⟨id, hid, hin⟩ := mem_listedBlocks.mp hb
    rcases h.lists with ⟨hsame, -⟩ | hnew
    · rw [hsame] at hin
      exact Or.inr (hl.dirty b (mem_listedBlocks.mpr ⟨id, hid, hin⟩))
    · rw [hnew] at hin
      by_cases heq : id = tid
      · subst heq
        rw [Function.update_self] at hin
        rcases List.mem_append.mp hin with hin | hin
        · exact Or.inr (hl.dirty b (mem_listedBlocks.mpr ⟨id, hid, hin⟩))
        · exact Or.inl ⟨rfl, by simpa using hin⟩
      · rw [Function.update_of_ne heq] at hin
        exact Or.inr (hl.dirty b (mem_listedBlocks.mpr ⟨id, hid, hin⟩))

theorem Quiet.recorded {tid block : Nat} (h : Quiet n nb X e c stale t)
    (hr : Recorded tid block t u) (htid : tid < kMaxThreads) (hlt : segmentOf block < n) :
    Quiet n nb X e c stale u := by
  have hn := hr.noted
  have hother : ¬ (1 - t.epoch = t.epoch) := by
    rcases h.parity with hp | hp <;> omega
  refine ⟨?_, hn.epoch ▸ h.parity, fun s hs o ho hno => ?_, hr.lists_of htid h.lists,
    fun epoch b hb => ?_, fun epoch s hs => ?_, fun b hb => ?_, fun s hs => ?_⟩
  · rw [hn.epoch, hn.image]
    exact h.steady
  · rw [hn.work]
    exact h.work s hs o ho fun ht => hno (hn.touched ht)
  · rw [hr.segments]
    rcases (hr.blocks epoch b).mp hb with ⟨rfl, rfl⟩ | hb
    · exact Or.inl ⟨rfl, rfl⟩
    · exact Or.inr (h.marked epoch b hb)
  · rcases (hr.segments epoch s).mp hs with ⟨-, rfl⟩ | hs
    · exact hlt
    · exact h.range epoch s hs
  · rw [hn.epoch]
    exact hn.blocks _ b (h.staleDirty b hb)
  · rw [hn.epoch] at hs ⊢
    rcases (hr.segments _ s).mp hs with ⟨heq, -⟩ | hs
    · exact absurd heq hother
    · exact h.lastNamed s hs

/-- The crash condition of the hooks: nothing happens to the image. -/
def SameImage (t u : HybridInst) : Prop := u.image = t.image

theorem test_update_set (bits : Nat → AtomicBitSet) (epoch x epoch' y : Nat) :
    (Function.update bits epoch ((bits epoch).set x) epoch').test y = true ↔
      (epoch' = epoch ∧ y = x) ∨ (bits epoch').test y = true := by
  by_cases h : epoch' = epoch
  · subst h
    simp [AtomicBitSet.test_set]
  · simp [h]

/-- `u` arises from `t` by recording `block` before its segment is marked. -/
structure Pushed (tid block : Nat) (t u : HybridInst) : Prop where
  same : u = { t with blockDirty := u.blockDirty, flushBlocks := u.flushBlocks }
  blocks : u.blockDirty = Function.update t.blockDirty t.epoch ((t.blockDirty t.epoch).set block)
  lists : (u.flushBlocks = t.flushBlocks ∧ (t.flushBlocks tid).length = kMaxFlushBlocks) ∨
    u.flushBlocks = Function.update t.flushBlocks tid (t.flushBlocks tid ++ [block])

theorem Pushed.image {tid block : Nat} (h : Pushed tid block t u) : SameImage t u := by
  rw [SameImage, h.same]

theorem Pushed.epoch {tid block : Nat} (h : Pushed tid block t u) : u.epoch = t.epoch := by
  rw [h.same]

theorem Pushed.segmentDirty {tid block : Nat} (h : Pushed tid block t u) :
    u.segmentDirty = t.segmentDirty := by
  rw [h.same]

theorem Pushed.dirtyBlock_iff {tid block : Nat} (h : Pushed tid block t u) (epoch b : Nat) :
    DirtyBlock u epoch b ↔ (epoch = t.epoch ∧ b = block) ∨ DirtyBlock t epoch b := by
  rw [DirtyBlock, h.blocks]
  exact test_update_set t.blockDirty t.epoch block epoch b

theorem wp_pushed {tid block : Nat} {rest : Prog HybridInst Unit} {Q : Unit → HybridInst → Prop}
    {C : HybridInst → Prop} (hC : ∀ v, SameImage t v → C v)
    (h : ∀ u, Pushed tid block t u → Prog.wp C rest Q u) :
    Prog.wp C (do
      setBlockDirty block
      pushFlushBlock tid block
      rest) Q t := by
  simp only [setBlockDirty, pushFlushBlock, Prog.wp_bind, Prog.wp_act]
  refine ⟨hC _ rfl, ?_⟩
  split
  · exact ⟨hC _ rfl, h _ ⟨rfl, rfl, Or.inr rfl⟩⟩
  · rename_i hlen
    exact ⟨hC _ rfl, h _ ⟨rfl, rfl, Or.inl ⟨rfl, not_not.mp hlen⟩⟩⟩

theorem Pushed.recorded {tid block : Nat} (h : Pushed tid block t u)
    (hmark : DirtySegment t t.epoch (segmentOf block)) : Recorded tid block t u := by
  refine ⟨?_, h.dirtyBlock_iff, fun epoch s => ?_, h.lists⟩
  · rw [h.segmentDirty]
    exact h.same
  · rw [DirtySegment, h.segmentDirty]
    refine ⟨Or.inr, ?_⟩
    rintro (⟨rfl, rfl⟩ | hs)
    · exact hmark
    · exact hs

theorem Pushed.wp_markSegment {tid block : Nat} (h : Pushed tid block t u) {C : HybridInst → Prop}
    (hC : ∀ v, SameImage t v → C v) :
    Prog.wp C (markSegment (segmentOf block)) (fun _ v => Recorded tid block t v) u := by
  simp only [markSegment, Prog.wp_bind, Prog.wp_read]
  refine ⟨hC u h.image, ?_⟩
  split
  · rename_i hdirty
    rw [h.epoch, h.segmentDirty] at hdirty
    exact Prog.wp_pure.mpr (h.recorded hdirty)
  · refine Prog.wp_act.mpr ⟨hC _ h.image, ?_, h.dirtyBlock_iff, fun epoch s => ?_, h.lists⟩
    · exact congrArg (fun y : HybridInst => { y with
        segmentDirty := Function.update u.segmentDirty u.epoch
          ((u.segmentDirty u.epoch).set (segmentOf block)) }) h.same
    · rw [DirtySegment, DirtySegment, h.segmentDirty, h.epoch]
      exact test_update_set t.segmentDirty t.epoch (segmentOf block) epoch s

/-- The outcome of hooks that reach the blocks in `reached`. -/
structure Hooked (n nb : Nat) (X : Content) (e : Nat) (c : Nat → SegmentState)
    (stale reached : Nat → Prop) (t u : HybridInst) : Prop where
  quiet : Quiet n nb X e c stale u
  noted : Noted t u
  blocks : ∀ epoch b, DirtyBlock u epoch b → DirtyBlock t epoch b ∨ (epoch = t.epoch ∧ reached b)
  segments : ∀ epoch s, DirtySegment u epoch s →
    DirtySegment t epoch s ∨ (epoch = t.epoch ∧ ∃ b, reached b ∧ segmentOf b = s)

theorem Hooked.trans {reached : Nat → Prop} (h : Hooked n nb X e c stale reached t u)
    (h' : Hooked n nb X e c stale reached u v) : Hooked n nb X e c stale reached t v where
  quiet := h'.quiet
  noted := h.noted.trans h'.noted
  blocks epoch b hb := by
    rcases h'.blocks epoch b hb with hb | ⟨heq, hb⟩
    · exact h.blocks epoch b hb
    · exact Or.inr ⟨heq.trans h.noted.epoch, hb⟩
  segments epoch s hs := by
    rcases h'.segments epoch s hs with hs | ⟨heq, hs⟩
    · exact h.segments epoch s hs
    · exact Or.inr ⟨heq.trans h.noted.epoch, hs⟩

theorem Quiet.hooked (h : Quiet n nb X e c stale t) (reached : Nat → Prop) :
    Hooked n nb X e c stale reached t t :=
  ⟨h, .refl t, fun _ _ hb => Or.inl hb, fun _ _ hs => Or.inl hs⟩

theorem Quiet.hooked_of_recorded (h : Quiet n nb X e c stale t) {tid block : Nat}
    {reached : Nat → Prop} (hr : Recorded tid block t u) (htid : tid < kMaxThreads)
    (hlt : segmentOf block < n) (hreach : reached block) :
    Hooked n nb X e c stale reached t u ∧ DirtyBlock u u.epoch block := by
  refine ⟨⟨h.recorded hr htid hlt, hr.noted, fun epoch b hb => ?_, fun epoch s hs => ?_⟩, ?_⟩
  · rcases (hr.blocks epoch b).mp hb with ⟨heq, rfl⟩ | hb
    · exact Or.inr ⟨heq, hreach⟩
    · exact Or.inl hb
  · rcases (hr.segments epoch s).mp hs with ⟨heq, rfl⟩ | hs
    · exact Or.inr ⟨heq, block, hreach, rfl⟩
    · exact Or.inl hs
  · exact (hr.blocks _ _).mpr (Or.inl ⟨hr.noted.epoch, rfl⟩)

theorem wp_hookRoutine (h : Quiet n nb X e c stale t) {tid addr : Nat} (htid : tid < kMaxThreads)
    {reached : Nat → Prop} (hlt : segmentOf (addr >>> kBlockShift) < n)
    (hreach : reached (addr >>> kBlockShift)) :
    Prog.wp (SameImage t) (hookRoutine tid addr)
      (fun _ u => Hooked n nb X e c stale reached t u ∧
        DirtyBlock u u.epoch (addr >>> kBlockShift)) t := by
  rw [hookRoutine, Prog.wp_bind, Prog.wp_read]
  refine ⟨rfl, ?_⟩
  split
  · rename_i hdirty
    exact Prog.wp_pure.mpr ⟨h.hooked reached, hdirty⟩
  · rw [← segmentOf_block]
    refine wp_pushed (fun _ hv => hv) fun u hu => ?_
    exact Prog.wp_mono (hu.wp_markSegment fun _ hv => hv) fun _ v hv =>
      h.hooked_of_recorded hv htid hlt hreach

theorem wp_hookBlocks {tid : Nat} (htid : tid < kMaxThreads) {reached : Nat → Prop}
    {addresses : List Nat} {last : Option Nat} (h : Quiet n nb X e c stale t)
    (hlt : ∀ a ∈ addresses, segmentOf (a >>> kBlockShift) < n)
    (hreach : ∀ a ∈ addresses, reached (a >>> kBlockShift))
    (hlast : ∀ s ∈ last, DirtySegment t t.epoch s) :
    Prog.wp (SameImage t) (hookBlocks tid addresses last)
      (fun _ u => Hooked n nb X e c stale reached t u ∧
        ∀ a ∈ addresses, DirtyBlock u u.epoch (a >>> kBlockShift)) t := by
  induction addresses generalizing t last with
  | nil => exact Prog.wp_pure.mpr ⟨h.hooked reached, by simp⟩
  | cons addr rest ih =>
      have hrest : ∀ (u : HybridInst) (last : Option Nat), Hooked n nb X e c stale reached t u →
          DirtyBlock u u.epoch (addr >>> kBlockShift) →
          (∀ s ∈ last, DirtySegment u u.epoch s) →
          Prog.wp (SameImage t) (hookBlocks tid rest last)
            (fun _ v => Hooked n nb X e c stale reached t v ∧
              ∀ a ∈ addr :: rest, DirtyBlock v v.epoch (a >>> kBlockShift)) u := by
        intro u last hu hdirty hmark
        refine Prog.wp_mono (Prog.wp_weaken (fun w hw => hw.trans hu.noted.image)
          (ih hu.quiet (fun a ha => hlt a (by simp [ha])) (fun a ha => hreach a (by simp [ha]))
            hmark)) fun _ v ⟨hv, hall⟩ => ⟨hu.trans hv, fun a ha => ?_⟩
        rcases List.mem_cons.mp ha with rfl | ha
        · rw [hv.noted.epoch]
          exact hv.noted.blocks _ _ hdirty
        · exact hall a ha
      have hin : segmentOf (addr >>> kBlockShift) < n := hlt addr (by simp)
      have hre : reached (addr >>> kBlockShift) := hreach addr (by simp)
      rw [hookBlocks, Prog.wp_bind, Prog.wp_read]
      refine ⟨rfl, ?_⟩
      split
      · rename_i hdirty
        exact hrest t last (h.hooked reached) hdirty hlast
      · rw [← segmentOf_block]
        refine wp_pushed (fun _ hv => hv) fun u hu => ?_
        split
        · rename_i hsame
          obtain ⟨hhook, hdirty⟩ := h.hooked_of_recorded (hu.recorded (hlast _ hsame)) htid hin hre
          refine hrest u last hhook hdirty fun s hs => ?_
          obtain rfl := Option.mem_unique hs hsame
          exact hhook.quiet.marked _ _ hdirty
        · rw [Prog.wp_bind]
          refine Prog.wp_mono (hu.wp_markSegment fun _ hv => hv) fun _ v hv => ?_
          obtain ⟨hhook, hdirty⟩ := h.hooked_of_recorded hv htid hin hre
          refine hrest v _ hhook hdirty fun s hs => ?_
          obtain rfl := Option.some.inj hs
          exact hhook.quiet.marked _ _ hdirty

/-! ## Address buffers -/

/-- `u` arises from `t` by recording blocks and emptying address buffers. -/
structure Drained (n nb : Nat) (X : Content) (e : Nat) (c : Nat → SegmentState)
    (stale : Nat → Prop) (t u : HybridInst) : Prop where
  quiet : Quiet n nb X e c stale u
  image : u.image = t.image
  work : u.work = t.work
  epoch : u.epoch = t.epoch
  flushMode : u.flushMode = t.flushMode
  blocks : ∀ epoch b, DirtyBlock t epoch b → DirtyBlock u epoch b
  touched : ∀ block, Touched u block ↔ Touched t block
  segments : ∀ s, TouchedSegment u s ↔ TouchedSegment t s
  last : ∀ s, DirtySegment u (1 - t.epoch) s ↔ DirtySegment t (1 - t.epoch) s

theorem Quiet.drained (h : Quiet n nb X e c stale t) : Drained n nb X e c stale t t :=
  ⟨h, rfl, rfl, rfl, rfl, fun _ _ hb => hb, fun _ => Iff.rfl, fun _ => Iff.rfl, fun _ => Iff.rfl⟩

theorem Drained.trans (h : Drained n nb X e c stale t u) (h' : Drained n nb X e c stale u v) :
    Drained n nb X e c stale t v where
  quiet := h'.quiet
  image := h'.image.trans h.image
  work := h'.work.trans h.work
  epoch := h'.epoch.trans h.epoch
  flushMode := h'.flushMode.trans h.flushMode
  blocks epoch b hb := h'.blocks epoch b (h.blocks epoch b hb)
  touched block := (h'.touched block).trans (h.touched block)
  segments s := (h'.segments s).trans (h.segments s)
  last s := by
    have hlast := h'.last s
    rw [h.epoch] at hlast
    exact hlast.trans (h.last s)

theorem capacity_congr (h : u.image = t.image) : u.capacity = t.capacity := by
  rw [capacity, capacity, nrSegments, nrSegments, h]

theorem Hooked.drained {owner : Nat} (howner : owner < kMaxThreads)
    (ht : Quiet n nb X e c stale t) (h : Hooked n nb X e c stale (Touched t) t u)
    (hall : ∀ addr ∈ t.addressBuffer owner, addr < t.capacity →
      DirtyBlock u u.epoch (addr >>> kBlockShift)) :
    Drained n nb X e c stale t
      { u with addressBuffer := Function.update u.addressBuffer owner [] } := by
  have hn := h.noted
  have hcap : u.capacity = t.capacity := capacity_congr hn.image
  have hbuffered : ∀ addr, Buffered { u with
      addressBuffer := Function.update u.addressBuffer owner [] } addr → Buffered u addr := by
    rintro addr ⟨⟨id, hid, hin⟩, hlt⟩
    refine ⟨⟨id, hid, ?_⟩, hlt⟩
    by_cases heq : id = owner
    · subst heq
      simp at hin
    · simpa [Function.update_of_ne heq] using hin
  have hkept : ∀ addr, Buffered u addr → DirtyBlock u u.epoch (addr >>> kBlockShift) ∨
      Buffered { u with addressBuffer := Function.update u.addressBuffer owner [] } addr := by
    rintro addr ⟨⟨id, hid, hin⟩, hlt⟩
    by_cases heq : id = owner
    · subst heq
      rw [hn.addressBuffer] at hin
      exact Or.inl (hall addr hin (hcap ▸ hlt))
    · exact Or.inr ⟨⟨id, hid, by simpa [Function.update_of_ne heq] using hin⟩, hlt⟩
  have hmono : ∀ block, Touched u block →
      Touched { u with addressBuffer := Function.update u.addressBuffer owner [] } block := by
    rintro block (hb | ⟨addr, haddr, rfl⟩)
    · exact Or.inl hb
    · rcases hkept addr haddr with hb | hb
      · exact Or.inl hb
      · exact Or.inr ⟨addr, hb, rfl⟩
  have hq := h.quiet
  refine ⟨{ hq with
      work := fun s hs o ho hno => hq.work s hs o ho fun ht => hno (hmono _ ht)
      lists := ⟨hq.lists.listed, hq.lists.dirty⟩ }, hn.image, hn.work, hn.epoch, hn.flushMode,
    hn.blocks, fun block => ⟨?_, fun hb => hmono block (hn.touched hb)⟩, fun s => ⟨?_, ?_⟩,
    fun s => ?_⟩
  · rintro (hb | ⟨addr, haddr, rfl⟩)
    · rcases h.blocks _ block hb with hb | ⟨-, hb⟩
      · exact Or.inl (hn.epoch ▸ hb)
      · exact hb
    · exact Or.inr ⟨addr, hn.buffered.mp (hbuffered addr haddr), rfl⟩
  · rintro (hs | ⟨addr, haddr, rfl⟩)
    · rcases h.segments _ s hs with hs | ⟨-, b, hb, rfl⟩
      · exact Or.inl (hn.epoch ▸ hs)
      · exact ht.touchedSegment hb
    · exact Or.inr ⟨addr, hn.buffered.mp (hbuffered addr haddr), rfl⟩
  · rintro (hs | ⟨addr, haddr, rfl⟩)
    · exact Or.inl (hn.epoch.symm ▸ hn.marks _ s hs)
    · rcases hkept addr (hn.buffered.mpr haddr) with hb | hb
      · exact Or.inl (segmentOf_block addr ▸ hq.marked _ _ hb)
      · exact Or.inr ⟨addr, hb, rfl⟩
  · refine ⟨fun hs => (h.segments _ s hs).resolve_right fun ⟨heq, _⟩ => ?_, hn.marks _ s⟩
    rcases hn.epoch ▸ hq.parity with hp | hp <;> omega

theorem wp_addressBufferClear (h : Quiet n nb X e c stale t) {tid owner : Nat}
    (htid : tid < kMaxThreads) (howner : owner < kMaxThreads) :
    Prog.wp (SameImage t) (addressBufferClear tid owner)
      (fun _ u => Drained n nb X e c stale t u ∧
        u.addressBuffer = Function.update t.addressBuffer owner []) t := by
  simp only [addressBufferClear, Prog.wp_bind, Prog.wp_read]
  refine ⟨rfl, rfl, ?_⟩
  refine Prog.wp_forEach (fun done u => Hooked n nb X e c stale (Touched t) t u ∧
    ∀ addr ∈ done, addr < t.capacity → DirtyBlock u u.epoch (addr >>> kBlockShift))
    ⟨h.hooked _, by simp⟩ ?_ ?_
  · rintro done addr rest u hl ⟨hhook, hdone⟩
    split
    · rename_i haddr
      have htouched : Touched t (addr >>> kBlockShift) :=
        Or.inr ⟨addr, ⟨⟨owner, howner, by simp [hl]⟩, haddr⟩, rfl⟩
      refine Prog.wp_mono (Prog.wp_weaken (fun w hw => hw.trans hhook.noted.image)
        (wp_hookRoutine hhook.quiet htid (h.touchedSegment_lt (h.touchedSegment htouched))
          htouched)) ?_
      rintro _ v ⟨hv, hself⟩
      refine ⟨hhook.trans hv, fun addr' haddr' hlt => ?_⟩
      rcases List.mem_append.mp haddr' with hin | hin
      · rw [hv.noted.epoch]
        exact hv.noted.blocks _ _ (hdone addr' hin hlt)
      · obtain rfl : addr' = addr := by simpa using hin
        exact hself
    · rename_i haddr
      refine Prog.wp_pure.mpr ⟨hhook, fun addr' haddr' hlt => ?_⟩
      rcases List.mem_append.mp haddr' with hin | hin
      · exact hdone addr' hin hlt
      · obtain rfl : addr' = addr := by simpa using hin
        exact absurd hlt haddr
  · rintro u ⟨hhook, hall⟩
    exact Prog.wp_act.mpr ⟨hhook.noted.image, hhook.drained howner h hall,
      by rw [hhook.noted.addressBuffer]⟩

theorem wp_addressBufferClearAll (h : Quiet n nb X e c stale t) {tid : Nat}
    (htid : tid < kMaxThreads) :
    Prog.wp (SameImage t) (addressBufferClearAll tid)
      (fun _ u => Drained n nb X e c stale t u ∧ ∀ id < kMaxThreads, u.addressBuffer id = []) t := by
  refine Prog.wp_forEach (fun done u => Drained n nb X e c stale t u ∧
    ∀ id ∈ done, u.addressBuffer id = []) ⟨h.drained, by simp⟩ ?_ ?_
  · intro done owner rest u hl ⟨hd, hempty⟩
    have howner : owner < kMaxThreads := by
      have hmem : owner ∈ List.range kMaxThreads := by simp [hl]
      exact List.mem_range.mp hmem
    refine Prog.wp_mono (Prog.wp_weaken (fun w hw => hw.trans hd.image)
      (wp_addressBufferClear hd.quiet htid howner)) fun _ v ⟨hv, hbuf⟩ => ⟨hd.trans hv, ?_⟩
    intro id hid
    rw [hbuf]
    rcases List.mem_append.mp hid with hin | hin
    · by_cases hown : id = owner
      · subst hown
        simp
      · rw [Function.update_of_ne hown]
        exact hempty id hin
    · obtain rfl : id = owner := by simpa using hin
      simp
  · intro u ⟨hd, hempty⟩
    exact ⟨hd, fun id hid => hempty id (List.mem_range.mpr hid)⟩

/-! ## Hooked stores -/

/-- What a hook guarantees for the blocks it was called for. -/
structure Tracked (n nb : Nat) (X : Content) (e : Nat) (c : Nat → SegmentState)
    (stale : Nat → Prop) (addr len : Nat) (t u : HybridInst) : Prop where
  quiet : Quiet n nb X e c stale u
  image : u.image = t.image
  work : u.work = t.work
  epoch : u.epoch = t.epoch
  flushMode : u.flushMode = t.flushMode
  last : ∀ s, DirtySegment u (1 - t.epoch) s ↔ DirtySegment t (1 - t.epoch) s
  covered : ∀ block, Covers addr len block → Touched u block
  only : ∀ block, Touched u block → Touched t block ∨ Covers addr len block

theorem Quiet.push (h : Quiet n nb X e c stale t) (tid addr : Nat) :
    Quiet n nb X e c stale { t with
      addressBuffer := Function.update t.addressBuffer tid (t.addressBuffer tid ++ [addr]) } := by
  refine { h with
    work := fun s hs o ho hno => h.work s hs o ho fun ht => hno ?_
    lists := ⟨h.lists.listed, h.lists.dirty⟩ }
  rcases ht with hb | ⟨a, ⟨⟨id, hid, hin⟩, hlt⟩, hblock⟩
  · exact Or.inl hb
  · refine Or.inr ⟨a, ⟨⟨id, hid, ?_⟩, hlt⟩, hblock⟩
    by_cases heq : id = tid
    · subst heq
      simp [hin]
    · simpa [Function.update_of_ne heq] using hin

theorem wp_hookRtStore (h : Quiet n nb X e c stale t) {tid addr len : Nat}
    (htid : tid < kMaxThreads) (haddr : addr < n * kSegmentSize) (hpos : 0 < len)
    (hlen : addr % kBlockSize + len ≤ kBlockSize) :
    Prog.wp (SameImage t) (hookRtStore tid addr)
      (fun _ u => Tracked n nb X e c stale addr len t u) t := by
  have hcover : ∀ block, Covers addr len block → block = addr >>> kBlockShift :=
    fun _ => covers_small hlen
  have hpush := h.push tid addr
  have hself : Touched { t with
      addressBuffer := Function.update t.addressBuffer tid (t.addressBuffer tid ++ [addr]) }
      (addr >>> kBlockShift) := by
    refine Or.inr ⟨addr, ⟨⟨tid, htid, by simp⟩, ?_⟩, rfl⟩
    change addr < t.capacity
    rw [h.capacity_eq]
    exact haddr
  have honly : ∀ block, Touched { t with
      addressBuffer := Function.update t.addressBuffer tid (t.addressBuffer tid ++ [addr]) } block →
      Touched t block ∨ Covers addr len block := by
    rintro block (hb | ⟨a, ⟨⟨id, hid, hin⟩, hlt⟩, rfl⟩)
    · exact Or.inl (Or.inl hb)
    · by_cases heq : id = tid
      · subst heq
        simp only [Function.update_self, List.mem_append, List.mem_singleton] at hin
        rcases hin with hin | rfl
        · exact Or.inl (Or.inr ⟨a, ⟨⟨id, hid, hin⟩, hlt⟩, rfl⟩)
        · exact Or.inr (covers_self hpos)
      · simp only [Function.update_of_ne heq] at hin
        exact Or.inl (Or.inr ⟨a, ⟨⟨id, hid, hin⟩, hlt⟩, rfl⟩)
  simp only [hookRtStore, Prog.wp_bind, Prog.wp_act, Prog.wp_read]
  refine ⟨rfl, rfl, ?_⟩
  split
  · refine Prog.wp_mono (Prog.wp_weaken (fun w hw => hw) (wp_addressBufferClear hpush htid htid)) ?_
    rintro _ v ⟨hv, -⟩
    refine ⟨hv.quiet, hv.image, hv.work, hv.epoch, hv.flushMode, hv.last,
      fun block hb => ?_, fun block hb => honly block ((hv.touched block).mp hb)⟩
    rw [hcover block hb]
    exact (hv.touched _).mpr hself
  · refine Prog.wp_pure.mpr ⟨hpush, rfl, rfl, rfl, rfl, fun _ => Iff.rfl, fun block hb => ?_, honly⟩
    rw [hcover block hb]
    exact hself

theorem wp_hookRtRangeStore (h : Quiet n nb X e c stale t) {tid addr len : Nat}
    (htid : tid < kMaxThreads) (hpos : 0 < len) (hlen : addr + len ≤ n * kSegmentSize) :
    Prog.wp (SameImage t) (hookRtRangeStore tid addr len)
      (fun _ u => Tracked n nb X e c stale addr len t u) t := by
  rw [hookRtRangeStore]
  split
  · rename_i hsmall
    exact wp_hookRtStore h htid (by omega) hpos hsmall
  · have hpool : addr < t.capacity := by
      rw [h.capacity_eq]
      omega
    simp only [Prog.wp_bind, Prog.wp_read]
    refine ⟨rfl, ?_⟩
    rw [if_pos hpool, hookRoutineRange]
    have hin : ∀ a ∈ blockAddresses addr len, segmentOf (a >>> kBlockShift) < n := by
      intro a ha
      rw [segmentOf_block]
      exact shiftRight_kSegmentShift_lt (Nat.lt_of_lt_of_le (mem_blockAddresses ha).1 hlen)
    refine Prog.wp_mono (wp_hookBlocks htid h hin
      (fun a ha => covers_of_mem_blockAddresses ha) (by simp)) ?_
    rintro _ u ⟨hu, hall⟩
    refine ⟨hu.quiet, hu.noted.image, hu.noted.work, hu.noted.epoch, hu.noted.flushMode,
      fun s => ?_, fun block hb => ?_, fun block hb => ?_⟩
    · refine ⟨fun hs => (hu.segments _ s hs).resolve_right ?_, hu.noted.marks _ s⟩
      rintro ⟨heq, -⟩
      rcases h.parity with hp | hp <;> omega
    · obtain ⟨a, ha, rfl⟩ := blockAddresses_covers hb
      exact Or.inl (hall a ha)
    · rcases hb with hb | ⟨a, ha, rfl⟩
      · rcases hu.blocks _ block hb with hb | ⟨-, hb⟩
        · exact Or.inl (Or.inl (hu.noted.epoch ▸ hb))
        · exact Or.inr hb
      · exact Or.inl (Or.inr ⟨a, hu.noted.buffered.mp ha, rfl⟩)

theorem Quiet.writeWord (h : Quiet n nb X e c stale t) {w : WordStore} (ht : Touched t w.block) :
    Quiet n nb X e c stale (writeWord w t) := by
  refine { h with
    work := fun s hs o ho hno => ?_
    lists := ⟨h.lists.listed, h.lists.dirty⟩ }
  have hne : ¬ (s = w.segment ∧ o = w.offset) := by
    rintro ⟨rfl, rfl⟩
    exact hno ht
  have hsame : (HybridInst.writeWord w t).work s o = t.work s o := by
    simp only [HybridInst.writeWord]
    by_cases hs' : s = w.segment
    · subst hs'
      rw [Function.update_self, Function.update_of_ne fun ho' => hne ⟨rfl, ho'⟩]
    · rw [Function.update_of_ne hs']
  rw [hsame]
  exact h.work s hs o ho hno

/-- The content of working memory after some stores. -/
def storedWords (words : List WordStore) (work : Content) : Content :=
  words.foldl (fun work w => Function.update work w.segment
    (Function.update (work w.segment) w.offset w.value)) work

/-- What a hooked store leaves. -/
structure Stored (n nb : Nat) (X : Content) (e : Nat) (c : Nat → SegmentState)
    (stale : Nat → Prop) (addr len : Nat) (words : List WordStore) (t u : HybridInst) : Prop where
  quiet : Quiet n nb X e c stale u
  image : u.image = t.image
  work : u.work = storedWords words t.work
  epoch : u.epoch = t.epoch
  flushMode : u.flushMode = t.flushMode
  last : ∀ s, DirtySegment u (1 - t.epoch) s ↔ DirtySegment t (1 - t.epoch) s
  covered : ∀ block, Covers addr len block → Touched u block
  only : ∀ block, Touched u block → Touched t block ∨ Covers addr len block

theorem wp_hookedStore (h : Quiet n nb X e c stale t) {tid addr len : Nat}
    {words : List WordStore} (htid : tid < kMaxThreads) (hpos : 0 < len)
    (hlen : addr + len ≤ n * kSegmentSize) (hwords : ∀ w ∈ words, w.Within addr len) :
    Prog.wp (SameImage t) (hookedStore tid addr len words)
      (fun _ u => Stored n nb X e c stale addr len words t u) t := by
  rw [hookedStore, Prog.wp_bind]
  refine Prog.wp_mono (wp_hookRtRangeStore h htid hpos hlen) fun _ u hu => ?_
  refine Prog.wp_forEach (fun done v => Stored n nb X e c stale addr len done t v)
    ⟨hu.quiet, hu.image, hu.work, hu.epoch, hu.flushMode, hu.last, hu.covered, hu.only⟩ ?_ ?_
  · intro done w rest v hl hv
    refine Prog.wp_act.mpr ⟨hv.image, ?_, hv.image, ?_, hv.epoch, hv.flushMode, hv.last,
      hv.covered, hv.only⟩
    · exact hv.quiet.writeWord (hv.covered w.block (hwords w (by simp [hl])).covers)
    · simp only [storedWords, List.foldl_append, List.foldl_cons, List.foldl_nil, writeWord]
      rw [hv.work]
      rfl
  · exact fun v hv => hv

end Libcrpm.HybridInst
