import Libcrpm.NvmHooks
import Libcrpm.Refill

/-!
# The parallel sections of a checkpoint

Every thread of a checkpoint flushes the blocks of its own flush lists, and after the
first commit copies them to the back segments.  The two steps of a rely-guarantee
argument: what any thread may do, and what a thread achieves whatever the others do.
-/

namespace Libcrpm.NvmInst

open Libcrpm.Persistence Libcrpm.Program CheckpointImage

variable {n nb : Nat} {blocks : List Nat} {i : CheckpointImage} {t u : NvmInst}

/-! ## Flushing in parallel -/

/-- Flushes and fences: what the threads of the first section may do. -/
def FlushStep (t u : NvmInst) : Prop :=
  ∃ m, t.image.mem.Drains m ∧ u = onNvm (fun _ => m) t

theorem FlushStep.refl (t : NvmInst) : FlushStep t t := ⟨t.image.mem, .refl _, rfl⟩

theorem FlushStep.trans {t u v : NvmInst} (h : FlushStep t u) (h' : FlushStep u v) :
    FlushStep t v := by
  obtain ⟨m, hm, rfl⟩ := h
  obtain ⟨m', hm', rfl⟩ := h'
  exact ⟨m', hm.trans hm', rfl⟩

theorem flushStep_onNvm {f : Nvm → Nvm} (h : t.image.mem.Drains (f t.image.mem)) :
    FlushStep t (onNvm f t) :=
  ⟨f t.image.mem, h, rfl⟩

theorem FlushStep.drains (h : FlushStep t u) : t.image.mem.Drains u.image.mem := by
  obtain ⟨m, hm, rfl⟩ := h
  exact hm

theorem FlushStep.flushBlocks (h : FlushStep t u) : u.flushBlocks = t.flushBlocks := by
  obtain ⟨m, hm, rfl⟩ := h
  rfl

theorem FlushStep.flushMode (h : FlushStep t u) : u.flushMode = t.flushMode := by
  obtain ⟨m, hm, rfl⟩ := h
  rfl

def BlockWords (P : Cell Word → Prop) (block : Nat) (t : NvmInst) : Prop :=
  ∀ s, ∀ o < kWordsPerSegment, blockOf s o = block → P (t.image.mem (.word .main s o))

theorem BlockWords.pending {block : Nat} (h : BlockWords Cell.Pending block t)
    (hu : FlushStep t u) : BlockWords Cell.Pending block u :=
  fun s o ho hb => (hu.drains _).pending (h s o ho hb)

theorem BlockWords.settled {block : Nat} (h : BlockWords Cell.Settled block t)
    (hu : FlushStep t u) : BlockWords Cell.Settled block u :=
  fun s o ho hb => (hu.drains _).settled (h s o ho hb)

theorem blockWords_flush (block : Nat) (t : NvmInst) :
    BlockWords Cell.Pending block (onNvm (fun m => m.flushAll (blockLines block)) t) := by
  intro s o ho hb
  have hsel : blockLines block (.word .main s o) = true := by
    simp [blockLines, hb, ho]
  change (if blockLines block (.word .main s o) = true then _ else _ : Cell Word).Pending
  rw [if_pos hsel]
  exact Cell.pending_flush _

theorem rg_act_flush {s : NvmInst} {f : Nvm → Nvm} {Q : Unit → NvmInst → Prop}
    (hf : ∀ m : Nvm, m.Drains (f m)) (h : ∀ a, FlushStep s a → ∀ b, FlushStep (onNvm f a) b → Q () b) :
    (Prog.act (onNvm f)).rg FlushStep FlushStep Q s :=
  Prog.rg_act fun a ha => ⟨flushStep_onNvm (hf _), h a ha⟩

theorem rg_flushBucket {s : NvmInst} (id : Nat) :
    (flushBucket id).rg FlushStep FlushStep
      (fun _ v => FlushStep s v ∧
        ∀ block ∈ s.flushBlocks id, BlockWords Cell.Pending block v) s := by
  refine Prog.rg_bind .refl (Prog.rg_read fun a ha => ⟨.refl a, fun b hb => ?_⟩)
  have hlist : a.flushBlocks id = s.flushBlocks id := by rw [ha.flushBlocks]
  rw [hlist]
  refine Prog.rg_forEach .refl (I := fun done v => FlushStep s v ∧
    ∀ block ∈ done, BlockWords Cell.Pending block v) ?_ ?_ ⟨ha.trans hb, by simp⟩
  · intro done block rest v _ ⟨hv, hdone⟩
    refine rg_act_flush (fun m => Memory.drains_flushAll m _) fun w hw x hx => ⟨?_, ?_⟩
    · exact (hv.trans hw).trans ((flushStep_onNvm (Memory.drains_flushAll _ _)).trans hx)
    · intro block' hblock'
      rcases List.mem_append.mp hblock' with hin | hin
      · exact (((hdone block' hin).pending hw).pending
          (flushStep_onNvm (Memory.drains_flushAll _ _))).pending hx
      · obtain rfl : block' = block := by simpa using hin
        exact (blockWords_flush block' w).pending hx
  · intro v w ⟨hv, hdone⟩ hw
    exact ⟨hv.trans hw, fun block hblock => (hdone block hblock).pending hw⟩

theorem rg_flushParallel {s : NvmInst} (hmode : s.flushMode ≠ .wbinvd) (tid nrThreads : Nat) :
    (flushParallel tid nrThreads).rg FlushStep FlushStep
      (fun _ v => FlushStep s v ∧ ∀ id ∈ bucketsOf tid nrThreads,
        ∀ block ∈ s.flushBlocks id, BlockWords Cell.Settled block v) s := by
  refine Prog.rg_bind .refl (Prog.rg_read fun a ha => ⟨.refl a, fun b hb => ?_⟩)
  have hne : a.flushMode ≠ .wbinvd := by rwa [ha.flushMode]
  rw [if_neg hne]
  have hfence : ∀ v w, FlushStep s v →
      (∀ id ∈ bucketsOf tid nrThreads, ∀ block ∈ s.flushBlocks id,
        BlockWords Cell.Pending block v) → FlushStep v w →
      FlushStep s (onNvm Memory.fence w) ∧ ∀ id ∈ bucketsOf tid nrThreads,
        ∀ block ∈ s.flushBlocks id, BlockWords Cell.Settled block (onNvm Memory.fence w) := by
    intro v w hv hp hw
    refine ⟨(hv.trans hw).trans (flushStep_onNvm (Memory.drains_fence _)), ?_⟩
    intro id hid block hblock s' o ho hb
    exact ((hp id hid block hblock).pending hw s' o ho hb).settled_fence
  refine Prog.rg_bind .refl (Prog.rg_mono (Prog.rg_forEach .refl (I := fun done v =>
    FlushStep s v ∧ ∀ id ∈ done, ∀ block ∈ s.flushBlocks id, BlockWords Cell.Pending block v)
    ?_ ?_ ⟨ha.trans hb, by simp⟩) ?_)
  · intro done id rest v _ ⟨hv, hdone⟩
    refine Prog.rg_mono (rg_flushBucket id) fun _ w ⟨hw, hblocks⟩ => ⟨hv.trans hw, ?_⟩
    intro id' hid' block hblock
    rcases List.mem_append.mp hid' with hin | hin
    · exact (hdone id' hin block hblock).pending hw
    · obtain rfl : id' = id := by simpa using hin
      exact hblocks block (hv.flushBlocks ▸ hblock)
  · intro v w ⟨hv, hdone⟩ hw
    exact ⟨hv.trans hw, fun id hid block hblock => (hdone id hid block hblock).pending hw⟩
  · intro _ v ⟨hv, hp⟩
    refine rg_act_flush (fun m => Memory.drains_fence m) fun w hw x hx => ?_
    obtain ⟨hs, hset⟩ := hfence v w hv hp hw
    exact ⟨hs.trans hx, fun id hid block hblock => (hset id hid block hblock).settled hx⟩

theorem wp_flushSection {C : NvmInst → Prop} (hC : ∀ a b, C a → FlushStep a b → C b)
    {s : NvmInst} (hs : C s) (hmode : s.flushMode ≠ .wbinvd) {nrThreads : Nat}
    (hpos : 0 < nrThreads) (schedule : List Nat) :
    Prog.wp C (Prog.par nrThreads schedule fun i => flushParallel i nrThreads)
      (fun _ v => FlushStep s v ∧ ∀ block ∈ s.listedBlocks, BlockWords Cell.Settled block v) s := by
  refine Prog.wp_mono (Prog.wp_par (R := fun _ => FlushStep) (G := fun _ => FlushStep)
    (Q := fun i v => FlushStep s v ∧ ∀ id ∈ bucketsOf i nrThreads,
      ∀ block ∈ s.flushBlocks id, BlockWords Cell.Settled block v)
    (fun _ => .refl) (fun _ _ _ _ => .trans) (fun _ _ _ _ _ h => h) (fun _ => hC) hs
    fun i _ => rg_flushParallel hmode i nrThreads) fun _ v hv => ⟨(hv 0 hpos).1, ?_⟩
  intro block hblock
  obtain ⟨id, hid, hin⟩ := mem_listedBlocks.mp hblock
  exact (hv (id % nrThreads) (Nat.mod_lt _ hpos)).2 id (mem_bucketsOf nrThreads hid) block hin

/-! ## Refilling the back segments in parallel -/

/-- The copies of listed blocks to the back segments that `i` binds. -/
abbrev Refill (i : CheckpointImage) (blocks : List Nat) : Nvm → Nvm → Prop :=
  RefillMem .back i.mainToBack (fun s o => i.mem.load (.word .main s o)) (· ∈ blocks)

abbrev BackWords (P : Word → Cell Word → Prop) (i : CheckpointImage) (block : Nat)
    (t : NvmInst) : Prop :=
  HomeWords .back i.mainToBack (fun s o => i.mem.load (.word .main s o)) P block t.image.mem

/-- What the threads of the second section may do. -/
def RefillStep (i : CheckpointImage) (blocks : List Nat) (t u : NvmInst) : Prop :=
  ∃ m, Refill i blocks t.image.mem m ∧ u = onNvm (fun _ => m) t

theorem RefillStep.refl (t : NvmInst) : RefillStep i blocks t t :=
  ⟨t.image.mem, .refl _, rfl⟩

theorem RefillStep.trans {t u v : NvmInst} (h : RefillStep i blocks t u)
    (h' : RefillStep i blocks u v) : RefillStep i blocks t v := by
  obtain ⟨m, hm, rfl⟩ := h
  obtain ⟨m', hm', rfl⟩ := h'
  exact ⟨m', hm.trans hm', rfl⟩

theorem RefillStep.mem (h : RefillStep i blocks t u) : Refill i blocks t.image.mem u.image.mem := by
  obtain ⟨m, hm, rfl⟩ := h
  exact hm

theorem RefillStep.flushBlocks (h : RefillStep i blocks t u) :
    u.flushBlocks = t.flushBlocks := by
  obtain ⟨m, hm, rfl⟩ := h
  rfl

theorem RefillStep.mainToBack (h : RefillStep i blocks t u) :
    u.image.mainToBack = t.image.mainToBack := by
  obtain ⟨m, hm, rfl⟩ := h
  rfl

theorem Refill.load_main {m m' : Nvm} (h : Refill i blocks m m') (s o : Nat) :
    m'.load (.word .main s o) = m.load (.word .main s o) :=
  (h.others _ (not_atHome_of_ne (by simp))).cur

theorem refill_copy (hi : Bindings n nb i) {m : Nvm} (hm : Refill i blocks i.mem m)
    {block b : Nat} (hin : block ∈ blocks) (hb : i.mainToBack (segmentOf block) = some b) :
    Refill i blocks m
      (ntCopy m .back b .main (segmentOf block) (wholeBlock (block % kBlocksPerSegment))) := by
  constructor
  · intro l hl
    have hsame : ntCopy m .back b .main (segmentOf block)
        (wholeBlock (block % kBlocksPerSegment)) l = m l := by
      refine ntCopy_of_not m .main _ fun o ho heq => ?_
      obtain ⟨hblock, hlt⟩ := blockOf_of_wholeBlock ho
      exact hl ⟨_, b, o, heq, hb, hlt, hblock.symm ▸ hin⟩
    rw [hsame]
    exact .refl _
  · intro s b' o hb' ho hin'
    rcases ntCopy_cases m .back b .main (segmentOf block)
      (wholeBlock (block % kBlocksPerSegment)) (.word .back b' o) with hsame | ⟨o', heq, ho'⟩
    · rw [hsame]
      exact (Cell.DrainsTo.refl _).refills _
    · injection heq with _ hbb hoo
      subst hbb hoo
      obtain rfl := hi.injHome s _ b' hb' hb
      rw [ntCopy_sel m .main _ ho', ← Refill.load_main hm (segmentOf block) o]
      exact Cell.refills_ntStore _ _

theorem queued_copy (m : Nvm) {block b : Nat} (hm : Refill i blocks i.mem m)
    (hb : i.mainToBack (segmentOf block) = some b) :
    HomeWords .back i.mainToBack (fun s o => i.mem.load (.word .main s o)) Queued block
      (ntCopy m .back b .main (segmentOf block) (wholeBlock (block % kBlocksPerSegment))) := by
  intro s b' hb' o ho hblock
  have hseg : segmentOf block = s := by rw [← hblock, segmentOf_blockOf ho]
  rw [hseg] at hb ⊢
  obtain rfl : b = b' := Option.some.inj (hb.symm.trans hb')
  rw [ntCopy_sel m .main s (wholeBlock_of_blockOf ho hblock)]
  exact ⟨Refill.load_main hm s o, Cell.pending_ntStore _ _⟩

section Refill

variable {s₀ : NvmInst} (hi : Bindings n nb s₀.image)
  (hbound : ∀ block ∈ blocks, s₀.image.mainToBack (segmentOf block) ≠ none)

include hi hbound

theorem rg_writeBackBlock {s : NvmInst} (hs : RefillStep s₀.image blocks s₀ s) (tid : Nat)
    {block : Nat} (hin : block ∈ blocks) :
    (writeBackBlock tid block).rg (RefillStep s₀.image blocks) (RefillStep s₀.image blocks)
      (fun _ v => RefillStep s₀.image blocks s v ∧ BackWords Queued s₀.image block v) s := by
  obtain ⟨b, hb⟩ := Option.ne_none_iff_exists'.mp (hbound block hin)
  have hseg : block / kBlocksPerSegment = segmentOf block := (segmentOf_eq block).symm
  rw [writeBackBlock, hseg]
  refine Prog.rg_bind .refl ?_
  refine Prog.rg_mono (Q := fun r v => r = (b, false) ∧ RefillStep s₀.image blocks s v) ?_ ?_
  · refine Prog.rg_bind .refl (Prog.rg_read fun a ha => ⟨.refl a, fun v hv => ?_⟩)
    have hmain : a.image.getMainToBack (segmentOf block) = some b := by
      rw [getMainToBack, ha.mainToBack, hs.mainToBack, hb]
    rw [hmain]
    exact fun w hw => ⟨rfl, (ha.trans hv).trans hw⟩
  · rintro ⟨b', created⟩ v ⟨heq, hv⟩
    simp only [Prod.mk.injEq] at heq
    obtain ⟨rfl, rfl⟩ := heq
    simp only [Bool.false_eq_true, if_false]
    refine Prog.rg_act fun a ha => ?_
    have hmem := ((hs.trans hv).trans ha).mem
    have hcopy : RefillStep s₀.image blocks a (onNvm (fun m => ntCopy m .back b' .main
        (segmentOf block) (wholeBlock (block % kBlocksPerSegment))) a) :=
      ⟨_, refill_copy hi hmem hin hb, rfl⟩
    refine ⟨hcopy, fun w hw => ⟨((hv.trans ha).trans hcopy).trans hw, ?_⟩⟩
    have hqueued : BackWords Queued s₀.image block (onNvm (fun m => ntCopy m .back b' .main
        (segmentOf block) (wholeBlock (block % kBlocksPerSegment))) a) :=
      queued_copy a.image.mem hmem hb
    exact hqueued.queued hin hw.mem

theorem rg_writeBackBucket {s : NvmInst} (hs : RefillStep s₀.image blocks s₀ s) (tid id : Nat)
    (hlist : ∀ block ∈ s.flushBlocks id, block ∈ blocks) :
    (writeBackBucket tid id).rg (RefillStep s₀.image blocks) (RefillStep s₀.image blocks)
      (fun _ v => RefillStep s₀.image blocks s v ∧
        ∀ block ∈ s.flushBlocks id, BackWords Queued s₀.image block v) s := by
  refine Prog.rg_bind .refl (Prog.rg_read fun a ha => ⟨.refl a, fun b hb => ?_⟩)
  have hsame : a.flushBlocks id = s.flushBlocks id := by rw [ha.flushBlocks]
  rw [hsame]
  refine Prog.rg_forEach .refl (I := fun done v => RefillStep s₀.image blocks s v ∧
    ∀ block ∈ done, block ∈ blocks ∧ BackWords Queued s₀.image block v) ?_ ?_
    ⟨ha.trans hb, by simp⟩ |> (Prog.rg_mono · fun _ v hv => ⟨hv.1, fun block hblock =>
      (hv.2 block hblock).2⟩)
  · intro done block rest v hl ⟨hv, hdone⟩
    have hin : block ∈ blocks := hlist block (by simp [hl])
    refine Prog.rg_mono (rg_writeBackBlock hi hbound (hs.trans hv) tid hin)
      fun _ w ⟨hw, hq⟩ => ⟨hv.trans hw, fun block' hblock' => ?_⟩
    rcases List.mem_append.mp hblock' with hin' | hin'
    · exact ⟨(hdone block' hin').1, (hdone block' hin').2.queued (hdone block' hin').1 hw.mem⟩
    · obtain rfl : block' = block := by simpa using hin'
      exact ⟨hin, hq⟩
  · intro v w ⟨hv, hdone⟩ hw
    exact ⟨hv.trans hw, fun block hblock =>
      ⟨(hdone block hblock).1, (hdone block hblock).2.queued (hdone block hblock).1 hw.mem⟩⟩

theorem rg_writeBackParallel (hlist : ∀ id < kMaxThreads, ∀ block ∈ s₀.flushBlocks id, block ∈ blocks)
    (tid nrThreads : Nat) :
    (writeBackParallel tid nrThreads).rg (RefillStep s₀.image blocks)
      (RefillStep s₀.image blocks)
      (fun _ v => RefillStep s₀.image blocks s₀ v ∧ ∀ id ∈ bucketsOf tid nrThreads,
        ∀ block ∈ s₀.flushBlocks id, BackWords Filled s₀.image block v) s₀ := by
  have hbucket : ∀ id ∈ bucketsOf tid nrThreads, ∀ block ∈ s₀.flushBlocks id, block ∈ blocks := by
    intro id hid
    exact hlist id (lt_of_mem_indicesOf hid)
  refine Prog.rg_bind .refl (Prog.rg_mono (Prog.rg_forEach .refl (I := fun done v =>
    RefillStep s₀.image blocks s₀ v ∧ ∀ id ∈ done, ∀ block ∈ s₀.flushBlocks id,
      block ∈ blocks ∧ BackWords Queued s₀.image block v) ?_ ?_ ⟨.refl s₀, by simp⟩) ?_)
  · intro done id rest v hl ⟨hv, hdone⟩
    have hid : id ∈ bucketsOf tid nrThreads := by simp [hl]
    have hsame : v.flushBlocks id = s₀.flushBlocks id := by rw [hv.flushBlocks]
    refine Prog.rg_mono (rg_writeBackBucket hi hbound hv tid id (hsame ▸ hbucket id hid))
      fun _ w ⟨hw, hq⟩ => ⟨hv.trans hw, fun id' hid' block hblock => ?_⟩
    rcases List.mem_append.mp hid' with hin | hin
    · obtain ⟨hb, hold⟩ := hdone id' hin block hblock
      exact ⟨hb, hold.queued hb hw.mem⟩
    · obtain rfl : id' = id := by simpa using hin
      exact ⟨hbucket id' hid block hblock, hq block (hsame ▸ hblock)⟩
  · intro v w ⟨hv, hdone⟩ hw
    exact ⟨hv.trans hw, fun id hid block hblock =>
      ⟨(hdone id hid block hblock).1, (hdone id hid block hblock).2.queued
        (hdone id hid block hblock).1 hw.mem⟩⟩
  · intro _ v ⟨hv, hq⟩
    refine Prog.rg_act fun a ha => ?_
    have hfence : RefillStep s₀.image blocks a (onNvm Memory.fence a) :=
      ⟨_, .of_drains (Memory.drains_fence _), rfl⟩
    refine ⟨hfence, fun w hw => ⟨((hv.trans ha).trans hfence).trans hw, ?_⟩⟩
    intro id hid block hblock
    obtain ⟨hb, hold⟩ := hq id hid block hblock
    exact (hold.queued hb ha.mem).fence.filled hb hw.mem

theorem wp_writeBackSection {C : NvmInst → Prop}
    (hC : ∀ a b, C a → RefillStep s₀.image blocks a b → C b) (hs : C s₀)
    (hlist : blocks = s₀.listedBlocks) {nrThreads : Nat} (hpos : 0 < nrThreads)
    (schedule : List Nat) :
    Prog.wp C (Prog.par nrThreads schedule fun i => writeBackParallel i nrThreads)
      (fun _ v => RefillStep s₀.image blocks s₀ v ∧
        ∀ block ∈ blocks, BackWords Filled s₀.image block v) s₀ := by
  have hin : ∀ id < kMaxThreads, ∀ block ∈ s₀.flushBlocks id, block ∈ blocks := by
    intro id hid block hblock
    rw [hlist]
    exact mem_listedBlocks.mpr ⟨id, hid, hblock⟩
  refine Prog.wp_mono (Prog.wp_par (R := fun _ => RefillStep s₀.image blocks)
    (G := fun _ => RefillStep s₀.image blocks)
    (Q := fun i v => RefillStep s₀.image blocks s₀ v ∧ ∀ id ∈ bucketsOf i nrThreads,
      ∀ block ∈ s₀.flushBlocks id, BackWords Filled s₀.image block v)
    (fun _ => .refl) (fun _ _ _ _ => .trans) (fun _ _ _ _ _ h => h) (fun _ => hC) hs
    fun i _ => rg_writeBackParallel hi hbound hin i nrThreads) fun _ v hv => ⟨(hv 0 hpos).1, ?_⟩
  intro block hblock
  rw [hlist] at hblock
  obtain ⟨id, hid, hin⟩ := mem_listedBlocks.mp hblock
  exact (hv (id % nrThreads) (Nat.mod_lt _ hpos)).2 id (mem_bucketsOf nrThreads hid) block hin

end Refill

end Libcrpm.NvmInst
