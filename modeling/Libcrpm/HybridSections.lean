import Libcrpm.HybridHooks

/-!
# The parallel sections of a round

The threads of a round copy dirty blocks of working memory to one of the two copies.
As long as every dirty segment has a back segment they only store the values of working
memory, so no thread can undo what another one has done.
-/

namespace Libcrpm.HybridInst

open Libcrpm.Persistence Libcrpm.Program CheckpointImage

section Steps

variable (s₀ : HybridInst) (area : Area) (sel : Nat → Prop)

/-- What a thread may do to memory, when `s₀` is the state before the section. -/
abbrev Fill : Nvm → Nvm → Prop := RefillMem area (home s₀.image area) s₀.work sel

def ApplyStep (t u : HybridInst) : Prop :=
  ∃ m, Fill s₀ area sel t.image.mem m ∧ u = onNvm (fun _ => m) t

/-- A selected block the words of which meet `P`. -/
def Done (P : Word → Cell Word → Prop) (block : Nat) (t : HybridInst) : Prop :=
  sel block ∧ HomeWords area (home s₀.image area) s₀.work P block t.image.mem

end Steps

variable {s₀ s t u : HybridInst} {area : Area} {sel : Nat → Prop}

theorem ApplyStep.refl (t : HybridInst) : ApplyStep s₀ area sel t t :=
  ⟨t.image.mem, .refl _, rfl⟩

theorem ApplyStep.trans {v : HybridInst} (h : ApplyStep s₀ area sel t u)
    (h' : ApplyStep s₀ area sel u v) : ApplyStep s₀ area sel t v := by
  obtain ⟨m, hm, rfl⟩ := h
  obtain ⟨m', hm', rfl⟩ := h'
  exact ⟨m', hm.trans hm', rfl⟩

theorem ApplyStep.mem (h : ApplyStep s₀ area sel t u) :
    Fill s₀ area sel t.image.mem u.image.mem := by
  obtain ⟨m, hm, rfl⟩ := h
  exact hm

theorem ApplyStep.frame (h : ApplyStep s₀ area sel t u) :
    u = onNvm (fun _ => u.image.mem) t := by
  obtain ⟨m, hm, rfl⟩ := h
  rfl

section Frame

variable (h : ApplyStep s₀ area sel t u)

include h

theorem ApplyStep.work : u.work = t.work := by rw [h.frame]; rfl
theorem ApplyStep.epoch : u.epoch = t.epoch := by rw [h.frame]; rfl
theorem ApplyStep.flushMode : u.flushMode = t.flushMode := by rw [h.frame]; rfl
theorem ApplyStep.prevFlushMode : u.prevFlushMode = t.prevFlushMode := by rw [h.frame]; rfl
theorem ApplyStep.blockDirty : u.blockDirty = t.blockDirty := by rw [h.frame]; rfl
theorem ApplyStep.segmentDirty : u.segmentDirty = t.segmentDirty := by rw [h.frame]; rfl
theorem ApplyStep.flushBlocks : u.flushBlocks = t.flushBlocks := by rw [h.frame]; rfl
theorem ApplyStep.nrSegments : u.nrSegments = t.nrSegments := by rw [h.frame]; rfl

theorem ApplyStep.mainToBack : u.image.mainToBack = t.image.mainToBack := by rw [h.frame]; rfl

end Frame

theorem applyStep_drains {f : Nvm → Nvm} (h : ∀ m : Nvm, m.Drains (f m)) (t : HybridInst) :
    ApplyStep s₀ area sel t (onNvm f t) :=
  ⟨f t.image.mem, .of_drains (h _), rfl⟩

theorem Done.queued {block : Nat} (h : Done s₀ area sel Queued block t)
    (hs : ApplyStep s₀ area sel t u) : Done s₀ area sel Queued block u :=
  ⟨h.1, h.2.queued h.1 hs.mem⟩

theorem Done.filled {block : Nat} (h : Done s₀ area sel Filled block t)
    (hs : ApplyStep s₀ area sel t u) : Done s₀ area sel Filled block u :=
  ⟨h.1, h.2.filled h.1 hs.mem⟩

theorem Done.fence {block : Nat} (h : Done s₀ area sel Queued block t) :
    Done s₀ area sel Filled block (onNvm Memory.fence t) :=
  ⟨h.1, h.2.fence⟩

/-! ## Copying one block -/

theorem copyWork_word (work : Nat → Word) (area : Area) (d : Nat) (sub : Nat → Bool) (m : Nvm)
    {o : Nat} (ho : sub o = true) :
    copyWork work area d sub m (.word area d o) = (m (.word area d o)).ntStore (work o) := by
  simp [copyWork, Memory.ntStoreAll, ho]

theorem copyWork_of_not (work : Nat → Word) (area : Area) (d : Nat) (sub : Nat → Bool) (m : Nvm)
    {o : Nat} (ho : sub o = false) :
    copyWork work area d sub m (.word area d o) = m (.word area d o) := by
  simp [copyWork, Memory.ntStoreAll, ho]

theorem fill_copyWork (hinj : InjHome (home s₀.image area)) {block d : Nat} (hsel : sel block)
    (hd : home s₀.image area (segmentOf block) = some d) {sub : Nat → Bool}
    (hsub : ∀ o, sub o = true → wholeBlock (block % kBlocksPerSegment) o = true) (m : Nvm) :
    Fill s₀ area sel m (copyWork (s₀.work (segmentOf block)) area d sub m) := by
  refine RefillMem.ntStoreAll (fun l hl => ?_) fun s d' o hd' ho hs => ?_
  · cases l with
    | word a d' o =>
        simp only [ite_eq_right_iff, reduceCtorEq, imp_false]
        rintro ⟨rfl, rfl, ho⟩
        obtain ⟨hblock, hlt⟩ := blockOf_of_wholeBlock (hsub o ho)
        exact hl ⟨_, d', o, rfl, hd, hlt, hblock.symm ▸ hsel⟩
    | _ => rfl
  · by_cases hmatch : d' = d ∧ sub o = true
    · obtain ⟨rfl, ho'⟩ := hmatch
      obtain rfl := hinj s _ d' hd' hd
      exact Or.inr (by simp [ho'])
    · refine Or.inl ?_
      simp only [true_and, ite_eq_right_iff, reduceCtorEq, imp_false]
      exact hmatch

theorem queued_copyWork {block d : Nat}
    (hd : home s₀.image area (segmentOf block) = some d) (m : Nvm) :
    HomeWords area (home s₀.image area) s₀.work Queued block
      (copyWork (s₀.work (segmentOf block)) area d (wholeBlock (block % kBlocksPerSegment)) m) := by
  intro s d' hd' o ho hblock
  have hseg : segmentOf block = s := by rw [← hblock, segmentOf_blockOf ho]
  rw [hseg] at hd ⊢
  obtain rfl : d = d' := Option.some.inj (hd.symm.trans hd')
  rw [copyWork_word _ _ _ _ _ (wholeBlock_of_blockOf ho hblock)]
  exact ⟨rfl, Cell.pending_ntStore _ _⟩

theorem queued_copyWorkWithWriteElimination {block d : Nat}
    (hd : home s₀.image area (segmentOf block) = some d) {m : Nvm}
    (hp : ∀ d o, (m (.word area d o)).Pending) :
    HomeWords area (home s₀.image area) s₀.work Queued block
      (copyWorkWithWriteElimination (s₀.work (segmentOf block)) area d
        (wholeBlock (block % kBlocksPerSegment)) m) := by
  intro s d' hd' o ho hblock
  have hseg : segmentOf block = s := by rw [← hblock, segmentOf_blockOf ho]
  rw [hseg] at hd ⊢
  obtain rfl : d = d' := Option.some.inj (hd.symm.trans hd')
  have hwhole := wholeBlock_of_blockOf ho hblock
  rw [copyWorkWithWriteElimination]
  cases hdiff : workLineDiffers (s₀.work s) area d m o with
  | true =>
      rw [copyWork_word _ _ _ _ _ (by simp [hwhole, hdiff])]
      exact ⟨rfl, Cell.pending_ntStore _ _⟩
  | false =>
      rw [copyWork_of_not _ _ _ _ _ (by simp [hdiff])]
      refine ⟨?_, hp d o⟩
      simp only [workLineDiffers, List.any_eq_false, List.mem_range, kWordsPerCacheLine_eq] at hdiff
      have hsame := hdiff (o % 8) (Nat.mod_lt o (by decide))
      have ho8 : o / 8 * 8 + o % 8 = o := by omega
      rw [ho8, bne_iff_ne] at hsame
      exact not_not.mp hsame

section Copies

variable (hinj : InjHome (home s₀.image area))

include hinj

theorem rg_copyBlock (hs : ApplyStep s₀ area sel s₀ s) {block d : Nat} (hsel : sel block)
    (hd : home s₀.image area (segmentOf block) = some d) :
    (copyBlock area d (segmentOf block) (block % kBlocksPerSegment)).rg (ApplyStep s₀ area sel)
      (ApplyStep s₀ area sel)
      (fun _ v => ApplyStep s₀ area sel s v ∧ Done s₀ area sel Queued block v) s := by
  refine Prog.rg_act fun a ha => ?_
  have hwork : a.work = s₀.work := (hs.trans ha).work
  rw [hwork]
  have hcopy : ApplyStep s₀ area sel a (onNvm (copyWork (s₀.work (segmentOf block)) area d
      (wholeBlock (block % kBlocksPerSegment))) a) :=
    ⟨_, fill_copyWork hinj hsel hd (fun _ ho => ho) _, rfl⟩
  refine ⟨hcopy, fun b hb => ⟨(ha.trans hcopy).trans hb, ?_⟩⟩
  exact Done.queued ⟨hsel, queued_copyWork hd _⟩ hb

theorem rg_syncBlock (hs : ApplyStep s₀ area sel s₀ s)
    (hp : ∀ d o, (s₀.image.mem (.word area d o)).Pending) {block d : Nat} (hsel : sel block)
    (hd : home s₀.image area (segmentOf block) = some d) :
    (syncBlock area d (segmentOf block) (block % kBlocksPerSegment)).rg (ApplyStep s₀ area sel)
      (ApplyStep s₀ area sel)
      (fun _ v => ApplyStep s₀ area sel s v ∧ Done s₀ area sel Queued block v) s := by
  refine Prog.rg_act fun a ha => ?_
  have hwork : a.work = s₀.work := (hs.trans ha).work
  have hpending : ∀ d o, (a.image.mem (.word area d o)).Pending :=
    fun d o => RefillMem.pending (hs.trans ha).mem (hp d o)
  rw [hwork]
  have hcopy : ApplyStep s₀ area sel a (onNvm (copyWorkWithWriteElimination
      (s₀.work (segmentOf block)) area d (wholeBlock (block % kBlocksPerSegment))) a) := by
    refine ⟨_, fill_copyWork hinj hsel hd (fun o ho => ?_) _, rfl⟩
    simp only [Bool.and_eq_true] at ho
    exact ho.1
  refine ⟨hcopy, fun b hb => ⟨(ha.trans hcopy).trans hb, ?_⟩⟩
  exact Done.queued ⟨hsel, queued_copyWorkWithWriteElimination hd hpending⟩ hb

end Copies

/-! ## Scanning a bitmap -/

theorem kWordsPerBitmap_eq : kWordsPerBitmap = 128 := rfl

theorem segment_index {s w k : Nat} (hw : w < kWordsPerBitmap) (hk : k < 64) :
    segmentOf (startBlock s + w * 64 + k) = s ∧
      (startBlock s + w * 64 + k) % kBlocksPerSegment = w * 64 + k := by
  rw [kWordsPerBitmap_eq] at hw
  rw [segmentOf_eq, startBlock, kBlocksPerSegment_eq]
  omega

theorem exists_word (block : Nat) : ∃ w < kWordsPerBitmap, ∃ k < 64,
    block = startBlock (segmentOf block) + w * 64 + k := by
  refine ⟨block % kBlocksPerSegment / 64, ?_, block % 64, Nat.mod_lt _ (by decide), ?_⟩
  · rw [kWordsPerBitmap_eq, kBlocksPerSegment_eq]
    omega
  · rw [segmentOf_eq, startBlock, kBlocksPerSegment_eq]
    omega

theorem mem_dirtyBits {t : HybridInst} {s w k : Nat} (hk : k < 64) :
    k ∈ AtomicBitSet.setBits (dirtyBits s t w) ↔
      DirtyBlock t t.epoch (startBlock s + w * 64 + k) := by
  have hstart : startBlock s + w * 64 = (s * 128 + w) * 64 := by
    rw [startBlock, kBlocksPerSegment_eq]
    omega
  rw [dirtyBits, DirtyBlock, show AtomicBitSet.kBitWidth = 64 from rfl, hstart]
  exact AtomicBitSet.mem_setBits_testAll _ _ _ hk

theorem mem_staleBits {t : HybridInst} {s w k : Nat} (hk : k < 64) :
    k ∈ AtomicBitSet.setBits (staleBits s t w) ↔
      DirtyBlock t (1 - t.epoch) (startBlock s + w * 64 + k) ∧
        ¬ DirtyBlock t t.epoch (startBlock s + w * 64 + k) := by
  have hstart : startBlock s + w * 64 = (s * 128 + w) * 64 := by
    rw [startBlock, kBlocksPerSegment_eq]
    omega
  rw [AtomicBitSet.mem_setBits, staleBits, show AtomicBitSet.kBitWidth = 64 from rfl, hstart,
    BitVec.getLsbD_and, BitVec.getLsbD_not, AtomicBitSet.getLsbD_testAll _ _ hk,
    AtomicBitSet.getLsbD_testAll _ _ hk, DirtyBlock, DirtyBlock]
  simp [hk]

theorem rg_scanBlocks (segment : Nat) {bits : HybridInst → Nat → BitVec 64}
    {body : Nat → Prog HybridInst Unit}
    (hbits : ∀ a, ApplyStep s₀ area sel s₀ a → bits a = bits s₀)
    (hbody : ∀ w < kWordsPerBitmap, ∀ k ∈ AtomicBitSet.setBits (bits s₀ w), ∀ a,
      ApplyStep s₀ area sel s₀ a →
      (body (w * 64 + k)).rg (ApplyStep s₀ area sel) (ApplyStep s₀ area sel)
        (fun _ v => ApplyStep s₀ area sel a v ∧
          Done s₀ area sel Queued (startBlock segment + w * 64 + k) v) a)
    (hs : ApplyStep s₀ area sel s₀ s) :
    (scanBlocks bits body).rg (ApplyStep s₀ area sel) (ApplyStep s₀ area sel)
      (fun _ v => ApplyStep s₀ area sel s v ∧
        ∀ w < kWordsPerBitmap, ∀ k ∈ AtomicBitSet.setBits (bits s₀ w),
          Done s₀ area sel Queued (startBlock segment + w * 64 + k) v) s := by
  refine Prog.rg_mono (Prog.rg_forEach_each .refl (fun _ _ _ => .trans)
    (D := fun w v => ∀ k ∈ AtomicBitSet.setBits (bits s₀ w),
      Done s₀ area sel Queued (startBlock segment + w * 64 + k) v)
    (fun w a b hd hab k hk => (hd k hk).queued hab) ?_ hs)
    fun _ v ⟨hv, hall⟩ => ⟨hv, fun w hw => hall w (List.mem_range.mpr hw)⟩
  intro w hw a ha
  refine Prog.rg_bind .refl (Prog.rg_read fun b hb => ⟨.refl b, fun d hd => ?_⟩)
  rw [hbits b (ha.trans hb)]
  refine Prog.rg_mono (Prog.rg_forEach_each .refl (fun _ _ _ => .trans)
    (D := fun k v => Done s₀ area sel Queued (startBlock segment + w * 64 + k) v)
    (fun k a b hdone hab => hdone.queued hab)
    (fun k hk b hb => hbody w (List.mem_range.mp hw) k hk b hb) ((ha.trans hb).trans hd))
    fun _ v ⟨hv, hall⟩ => ⟨(hb.trans hd).trans hv, hall⟩

/-! ## The copies of one thread -/

/-- What holds when a section starts. -/
structure Startable (t : HybridInst) : Prop where
  inj : ∀ area, InjHome (home t.image area)
  bound : ∀ s, DirtySegment t t.epoch s ∨ DirtySegment t (1 - t.epoch) s →
    t.image.mainToBack s ≠ none
  marked : ∀ epoch block, DirtyBlock t epoch block → DirtySegment t epoch (segmentOf block)
  range : ∀ epoch s, DirtySegment t epoch s → s < t.nrSegments
  lists : Listed t
  full : t.flushMode ≠ .wbinvd → NoneFull t
  pending : ∀ area d o, (t.image.mem (.word area d o)).Pending

/-- The blocks that the last round has changed and this one has not. -/
def StaleBlock (t : HybridInst) (block : Nat) : Prop :=
  DirtyBlock t (1 - t.epoch) block ∧ ¬ DirtyBlock t t.epoch block

/-- The dirty blocks that thread `tid` of `nrThreads` copies to `area`. -/
def Mine (t : HybridInst) (area : Area) (tid nrThreads block : Nat) : Prop :=
  DirtyBlock t t.epoch block ∧
    if t.flushMode = .wbinvd then segmentOf block ∈ indicesOf t.nrSegments tid nrThreads
    else match area with
      | .back => tid = 0
      | .main => ∃ id ∈ bucketsOf tid nrThreads, block ∈ t.flushBlocks id

theorem rg_findBackSegment {segment b : Nat} (hs : ApplyStep s₀ area sel s₀ s)
    (hb : s₀.image.mainToBack segment = some b) :
    (findBackSegment segment).rg (ApplyStep s₀ area sel) (ApplyStep s₀ area sel)
      (fun r v => r = (b, false) ∧ ApplyStep s₀ area sel s v) s := by
  refine Prog.rg_bind .refl (Prog.rg_read fun a ha => ⟨.refl a, fun v hv => ?_⟩)
  have hmain : a.image.getMainToBack segment = some b := by
    rw [getMainToBack, (hs.trans ha).mainToBack, hb]
  rw [hmain]
  exact fun w hw => ⟨rfl, (ha.trans hv).trans hw⟩

theorem rg_saveMain {segment : Nat} (hs : ApplyStep s₀ area sel s₀ s)
    (hb : s₀.image.mainToBack segment ≠ none) :
    (saveMain segment).rg (ApplyStep s₀ area sel) (ApplyStep s₀ area sel)
      (fun _ v => ApplyStep s₀ area sel s v) s := by
  obtain ⟨b, hb⟩ := Option.ne_none_iff_exists'.mp hb
  refine Prog.rg_bind .refl (Prog.rg_read fun a ha => ⟨.refl a, fun v hv => ?_⟩)
  split
  · refine Prog.rg_bind .refl (Prog.rg_mono (rg_findBackSegment ((hs.trans ha).trans hv) hb) ?_)
    rintro ⟨b', created⟩ w ⟨heq, hw⟩
    simp only [Prod.mk.injEq] at heq
    obtain ⟨-, rfl⟩ := heq
    exact fun x hx => ((ha.trans hv).trans hw).trans hx
  · exact fun x hx => (ha.trans hv).trans hx

section Thread

variable (hstart : Startable s₀)

include hstart

theorem rg_scanDirty (hs : ApplyStep s₀ area sel s₀ s)
    (hsel : ∀ block, DirtyBlock s₀ s₀.epoch block → sel block) {segment d : Nat}
    (hd : home s₀.image area segment = some d) :
    (scanBlocks (dirtyBits segment) (copyBlock area d segment)).rg (ApplyStep s₀ area sel)
      (ApplyStep s₀ area sel)
      (fun _ v => ApplyStep s₀ area sel s v ∧ ∀ block, segmentOf block = segment →
        DirtyBlock s₀ s₀.epoch block → Done s₀ area sel Queued block v) s := by
  refine Prog.rg_mono (rg_scanBlocks segment (fun a ha => ?_) ?_ hs) ?_
  · funext w
    rw [dirtyBits, dirtyBits, ha.blockDirty, ha.epoch]
  · intro w hw k hk a ha
    have hlt := (AtomicBitSet.mem_setBits.mp hk).1
    obtain ⟨hseg, hidx⟩ := segment_index (s := segment) hw hlt
    have hdirty := (mem_dirtyBits hlt).mp hk
    have hcopy := rg_copyBlock (d := d)
      (hstart.inj area) ha (hsel _ hdirty) (by rw [hseg]; exact hd)
    rwa [hseg, hidx] at hcopy
  · intro _ v ⟨hv, hall⟩
    refine ⟨hv, fun block hseg hdirty => ?_⟩
    obtain ⟨w, hw, k, hk, heq⟩ := exists_word block
    rw [hseg] at heq
    rw [heq] at hdirty ⊢
    exact hall w hw k ((mem_dirtyBits hk).mpr hdirty)

theorem rg_applyNvmToNvmSegment (hs : ApplyStep s₀ area sel s₀ s)
    (harea : area = targetArea s₀.epoch) (hsel : ∀ block, StaleBlock s₀ block → sel block)
    (segment : Nat) :
    (applyNvmToNvmSegment segment).rg (ApplyStep s₀ area sel) (ApplyStep s₀ area sel)
      (fun _ v => ApplyStep s₀ area sel s v ∧ ∀ block, segmentOf block = segment →
        StaleBlock s₀ block → Done s₀ area sel Queued block v) s := by
  have hscan : ∀ {a : HybridInst} {d : Nat}, ApplyStep s₀ area sel s₀ a →
      home s₀.image area segment = some d →
      (scanBlocks (staleBits segment) (syncBlock area d segment)).rg (ApplyStep s₀ area sel)
        (ApplyStep s₀ area sel)
        (fun _ v => ApplyStep s₀ area sel a v ∧ ∀ block, segmentOf block = segment →
          StaleBlock s₀ block → Done s₀ area sel Queued block v) a := by
    intro a d ha hd
    refine Prog.rg_mono (rg_scanBlocks segment (fun b hb => ?_) ?_ ha) ?_
    · funext w
      rw [staleBits, staleBits, hb.blockDirty, hb.epoch]
    · intro w hw k hk b hb
      have hlt := (AtomicBitSet.mem_setBits.mp hk).1
      obtain ⟨hseg, hidx⟩ := segment_index (s := segment) hw hlt
      have hstale := (mem_staleBits hlt).mp hk
      have hsync := rg_syncBlock (d := d)
        (hstart.inj area) hb (hstart.pending area) (hsel _ hstale) (by rw [hseg]; exact hd)
      rwa [hseg, hidx] at hsync
    · rintro _ v ⟨hv, hall⟩
      refine ⟨hv, fun block hseg hstale => ?_⟩
      obtain ⟨w, hw, k, hk, heq⟩ := exists_word block
      rw [hseg] at heq
      rw [heq] at hstale ⊢
      exact hall w hw k ((mem_staleBits hk).mpr hstale)
  refine Prog.rg_bind .refl (Prog.rg_read fun a ha => ⟨.refl a, fun v hv => ?_⟩)
  have hav := (hs.trans ha).trans hv
  rw [(hs.trans ha).segmentDirty, (hs.trans ha).epoch]
  split
  · rename_i hclean
    refine fun w hw => ⟨(ha.trans hv).trans hw, fun block hseg hstale => ?_⟩
    have hmark := hstart.marked _ _ hstale.1
    rw [hseg, DirtySegment] at hmark
    simp [hmark] at hclean
  · refine Prog.rg_bind .refl (Prog.rg_read fun b hb => ⟨.refl b, fun w hw => ?_⟩)
    rw [getMainToBack, (hav.trans hb).mainToBack]
    cases hback : s₀.image.mainToBack segment with
    | none =>
        refine fun x hx => ⟨((ha.trans hv).trans (hb.trans hw)).trans hx, fun block hseg hstale => ?_⟩
        exact absurd hback (hstart.bound _ (Or.inr (hseg ▸ hstart.marked _ _ hstale.1)))
    | some b' =>
        refine Prog.rg_bind .refl (Prog.rg_read fun x hx => ⟨.refl x, fun y hy => ?_⟩)
        have hay := (((hav.trans hb).trans hw).trans hx).trans hy
        have hepoch : x.epoch = s₀.epoch := (((hav.trans hb).trans hw).trans hx).epoch
        rw [hepoch]
        have hsy := (((ha.trans hv).trans (hb.trans hw)).trans hx).trans hy
        by_cases hzero : s₀.epoch = 0
        · have hmain : area = .main := by rw [harea, targetArea, if_neg (not_not.mpr hzero)]
          subst hmain
          simp only [hzero, ne_eq, not_true_eq_false, if_false]
          refine Prog.rg_mono (hscan hay rfl) ?_
          rintro _ z ⟨hz, hall⟩
          exact ⟨hsy.trans hz, hall⟩
        · have hback' : area = .back := by rw [harea, targetArea, if_pos hzero]
          subst hback'
          simp only [ne_eq, hzero, not_false_eq_true, if_true]
          refine Prog.rg_mono (hscan hay hback) ?_
          rintro _ z ⟨hz, hall⟩
          exact ⟨hsy.trans hz, hall⟩

theorem rg_applyNvmToNvmParallel (hs : ApplyStep s₀ area sel s₀ s)
    (harea : area = targetArea s₀.epoch) (hsel : ∀ block, StaleBlock s₀ block → sel block)
    (tid nrThreads : Nat) :
    (applyNvmToNvmParallel tid nrThreads).rg (ApplyStep s₀ area sel) (ApplyStep s₀ area sel)
      (fun _ v => ApplyStep s₀ area sel s v ∧
        ∀ block, segmentOf block ∈ indicesOf s₀.nrSegments tid nrThreads →
          StaleBlock s₀ block → Done s₀ area sel Queued block v) s := by
  refine Prog.rg_bind .refl (Prog.rg_read fun a ha => ⟨.refl a, fun v hv => ?_⟩)
  rw [(hs.trans ha).nrSegments]
  refine Prog.rg_mono (Prog.rg_forEach_each .refl (fun _ _ _ => .trans)
    (D := fun segment v => ∀ block, segmentOf block = segment →
      StaleBlock s₀ block → Done s₀ area sel Queued block v)
    (fun segment a b hd hab block hseg hstale => (hd block hseg hstale).queued hab)
    (fun segment _ b hb => rg_applyNvmToNvmSegment hstart hb harea hsel segment)
    ((hs.trans ha).trans hv)) fun _ w ⟨hw, hall⟩ => ⟨(ha.trans hv).trans hw, ?_⟩
  exact fun block hin hstale => hall _ hin block rfl hstale

/-! ## The dirty blocks of one thread -/

theorem rg_applyDramToBackSegment (hs : ApplyStep s₀ .back sel s₀ s)
    (hsel : ∀ block, DirtyBlock s₀ s₀.epoch block → sel block) (segment : Nat) :
    (applyDramToBackSegment segment).rg (ApplyStep s₀ .back sel) (ApplyStep s₀ .back sel)
      (fun _ v => ApplyStep s₀ .back sel s v ∧ ∀ block, segmentOf block = segment →
        DirtyBlock s₀ s₀.epoch block → Done s₀ .back sel Queued block v) s := by
  refine Prog.rg_bind .refl (Prog.rg_read fun a ha => ⟨.refl a, fun v hv => ?_⟩)
  rw [(hs.trans ha).segmentDirty, (hs.trans ha).epoch]
  split
  · rename_i hclean
    refine fun w hw => ⟨(ha.trans hv).trans hw, fun block hseg hdirty => ?_⟩
    have hmark := hstart.marked _ _ hdirty
    rw [hseg, DirtySegment] at hmark
    simp [hmark] at hclean
  · rename_i hdirty
    obtain ⟨b, hb⟩ := Option.ne_none_iff_exists'.mp
      (hstart.bound segment (Or.inl (by simpa [DirtySegment] using hdirty)))
    refine Prog.rg_bind .refl (Prog.rg_mono (rg_findBackSegment ((hs.trans ha).trans hv) hb) ?_)
    rintro ⟨b', created⟩ w ⟨heq, hw⟩
    simp only [Prod.mk.injEq] at heq
    obtain ⟨rfl, rfl⟩ := heq
    refine Prog.rg_bind .refl (Prog.rg_read fun x hx => ⟨.refl x, fun y hy => ?_⟩)
    simp only [Bool.false_and, Bool.false_eq_true, if_false]
    have hsy := (((ha.trans hv).trans hw).trans hx).trans hy
    refine Prog.rg_mono (rg_scanDirty hstart (hs.trans hsy) hsel hb) ?_
    rintro _ z ⟨hz, hall⟩
    exact ⟨hsy.trans hz, hall⟩

theorem rg_applyDramToBackBlock (hs : ApplyStep s₀ .back sel s₀ s)
    (hsel : ∀ block, DirtyBlock s₀ s₀.epoch block → sel block) {block : Nat}
    (hdirty : DirtyBlock s₀ s₀.epoch block) :
    (applyDramToBackBlock block).rg (ApplyStep s₀ .back sel) (ApplyStep s₀ .back sel)
      (fun _ v => ApplyStep s₀ .back sel s v ∧ Done s₀ .back sel Queued block v) s := by
  obtain ⟨b, hb⟩ := Option.ne_none_iff_exists'.mp (hstart.bound _ (Or.inl (hstart.marked _ _ hdirty)))
  rw [applyDramToBackBlock, ← segmentOf_eq]
  refine Prog.rg_bind .refl (Prog.rg_mono (rg_findBackSegment hs hb) ?_)
  rintro ⟨b', created⟩ w ⟨heq, hw⟩
  simp only [Prod.mk.injEq] at heq
  obtain ⟨rfl, rfl⟩ := heq
  refine Prog.rg_bind .refl (Prog.rg_read fun x hx => ⟨.refl x, fun y hy => ?_⟩)
  simp only [Bool.false_and, Bool.false_eq_true, if_false]
  have hsy := (hw.trans hx).trans hy
  refine Prog.rg_mono (rg_copyBlock (hstart.inj .back) (hs.trans hsy) (hsel _ hdirty) hb) ?_
  rintro _ z ⟨hz, hdone⟩
  exact ⟨hsy.trans hz, hdone⟩

theorem rg_applyDramToMainSegment (hs : ApplyStep s₀ .main sel s₀ s)
    (hsel : ∀ block, DirtyBlock s₀ s₀.epoch block → sel block) (segment : Nat) :
    (applyDramToMainSegment segment).rg (ApplyStep s₀ .main sel) (ApplyStep s₀ .main sel)
      (fun _ v => ApplyStep s₀ .main sel s v ∧ ∀ block, segmentOf block = segment →
        DirtyBlock s₀ s₀.epoch block → Done s₀ .main sel Queued block v) s := by
  refine Prog.rg_bind .refl (Prog.rg_read fun a ha => ⟨.refl a, fun v hv => ?_⟩)
  rw [(hs.trans ha).segmentDirty, (hs.trans ha).epoch]
  split
  · rename_i hclean
    refine fun w hw => ⟨(ha.trans hv).trans hw, fun block hseg hdirty => ?_⟩
    have hmark := hstart.marked _ _ hdirty
    rw [hseg, DirtySegment] at hmark
    simp [hmark] at hclean
  · rename_i hdirty
    have hbound := hstart.bound segment (Or.inl (by simpa [DirtySegment] using hdirty))
    refine Prog.rg_bind .refl (Prog.rg_mono (rg_saveMain ((hs.trans ha).trans hv) hbound) ?_)
    intro _ w hw
    have hsw := (ha.trans hv).trans hw
    refine Prog.rg_mono (rg_scanDirty hstart (hs.trans hsw) hsel rfl) ?_
    rintro _ z ⟨hz, hall⟩
    exact ⟨hsw.trans hz, hall⟩

theorem rg_applyDramToMainBlock (hs : ApplyStep s₀ .main sel s₀ s)
    (hsel : ∀ block, DirtyBlock s₀ s₀.epoch block → sel block) {block : Nat}
    (hdirty : DirtyBlock s₀ s₀.epoch block) :
    (applyDramToMainBlock block).rg (ApplyStep s₀ .main sel) (ApplyStep s₀ .main sel)
      (fun _ v => ApplyStep s₀ .main sel s v ∧ Done s₀ .main sel Queued block v) s := by
  rw [applyDramToMainBlock, ← segmentOf_eq]
  refine Prog.rg_bind .refl (Prog.rg_mono
    (rg_saveMain hs (hstart.bound _ (Or.inl (hstart.marked _ _ hdirty)))) ?_)
  intro _ w hw
  exact Prog.rg_mono (rg_copyBlock (hstart.inj .main) (hs.trans hw) (hsel _ hdirty) rfl)
    fun _ z ⟨hz, hdone⟩ => ⟨hw.trans hz, hdone⟩

theorem rg_forEachFlushBlock {body : Nat → Prog HybridInst Unit}
    (hbody : ∀ block, DirtyBlock s₀ s₀.epoch block → ∀ a, ApplyStep s₀ area sel s₀ a →
      (body block).rg (ApplyStep s₀ area sel) (ApplyStep s₀ area sel)
        (fun _ v => ApplyStep s₀ area sel a v ∧ Done s₀ area sel Queued block v) a)
    (hs : ApplyStep s₀ area sel s₀ s) {id : Nat} (hid : id < kMaxThreads) :
    (forEachFlushBlock body id).rg (ApplyStep s₀ area sel) (ApplyStep s₀ area sel)
      (fun _ v => ApplyStep s₀ area sel s v ∧
        ∀ block ∈ s₀.flushBlocks id, Done s₀ area sel Queued block v) s := by
  refine Prog.rg_bind .refl (Prog.rg_read fun a ha => ⟨.refl a, fun v hv => ?_⟩)
  rw [(hs.trans ha).flushBlocks]
  refine Prog.rg_mono (Prog.rg_forEach_each .refl (fun _ _ _ => .trans)
    (D := fun block v => Done s₀ area sel Queued block v)
    (fun block x y hd hxy => hd.queued hxy) (fun block hin x hx => ?_)
    ((hs.trans ha).trans hv)) fun _ w ⟨hw, hall⟩ => ⟨(ha.trans hv).trans hw, hall⟩
  exact hbody block (hstart.lists.dirty block (mem_listedBlocks.mpr ⟨id, hid, hin⟩)) x hx

theorem rg_forEachFlushBlock_ids {body : Nat → Prog HybridInst Unit}
    (hbody : ∀ block, DirtyBlock s₀ s₀.epoch block → ∀ a, ApplyStep s₀ area sel s₀ a →
      (body block).rg (ApplyStep s₀ area sel) (ApplyStep s₀ area sel)
        (fun _ v => ApplyStep s₀ area sel a v ∧ Done s₀ area sel Queued block v) a)
    (hs : ApplyStep s₀ area sel s₀ s) {ids : List Nat} (hids : ∀ id ∈ ids, id < kMaxThreads) :
    (Prog.forEach ids (forEachFlushBlock body)).rg (ApplyStep s₀ area sel) (ApplyStep s₀ area sel)
      (fun _ v => ApplyStep s₀ area sel s v ∧
        ∀ id ∈ ids, ∀ block ∈ s₀.flushBlocks id, Done s₀ area sel Queued block v) s :=
  Prog.rg_forEach_each .refl (fun _ _ _ => .trans)
    (D := fun id v => ∀ block ∈ s₀.flushBlocks id, Done s₀ area sel Queued block v)
    (fun _ _ _ hd hab block hin => (hd block hin).queued hab)
    (fun id hid _ ha => rg_forEachFlushBlock hstart hbody ha (hids id hid)) hs

end Thread

theorem rg_fence {mine : Nat → Prop} (hs : ∀ block, mine block → Done s₀ area sel Queued block s) :
    (Prog.act (onNvm Memory.fence)).rg (ApplyStep s₀ area sel) (ApplyStep s₀ area sel)
      (fun _ v => ApplyStep s₀ area sel s v ∧
        ∀ block, mine block → Done s₀ area sel Filled block v) s := by
  refine Prog.rg_act fun a ha => ?_
  have hfence : ApplyStep s₀ area sel a (onNvm Memory.fence a) :=
    applyStep_drains (fun _ => Memory.drains_fence _) a
  refine ⟨hfence, fun b hb => ⟨(ha.trans hfence).trans hb, fun block hmine => ?_⟩⟩
  exact ((hs block hmine).queued ha).fence.filled hb

def applyDramTo (area : Area) (tid nrThreads : Nat) : Prog HybridInst Unit :=
  match area with
  | .back => applyDramToBackParallel tid nrThreads
  | .main => applyDramToMainParallel tid nrThreads

/-- One thread writes its dirty blocks to `area`, and its fence also completes the copies
it has queued before. -/
theorem rg_applyDramTo (hstart : Startable s₀) (hs : ApplyStep s₀ area sel s₀ s)
    (hsel : ∀ block, DirtyBlock s₀ s₀.epoch block → sel block) {before : Nat → Prop}
    (hbefore : ∀ block, before block → Done s₀ area sel Queued block s) (tid nrThreads : Nat) :
    (applyDramTo area tid nrThreads).rg (ApplyStep s₀ area sel) (ApplyStep s₀ area sel)
      (fun _ v => ApplyStep s₀ area sel s v ∧
        ∀ block, before block ∨ Mine s₀ area tid nrThreads block →
          Done s₀ area sel Filled block v) s := by
  have hfinish : ∀ {a b : HybridInst}, ApplyStep s₀ area sel s a → ApplyStep s₀ area sel a b →
      (∀ block, Mine s₀ area tid nrThreads block → Done s₀ area sel Queued block b) →
      (Prog.act (onNvm Memory.fence)).rg (ApplyStep s₀ area sel) (ApplyStep s₀ area sel)
        (fun _ v => ApplyStep s₀ area sel s v ∧
          ∀ block, before block ∨ Mine s₀ area tid nrThreads block →
            Done s₀ area sel Filled block v) b := by
    intro a b ha hb hmine
    refine Prog.rg_mono (rg_fence ?_) fun _ v ⟨hv, hall⟩ => ⟨(ha.trans hb).trans hv, hall⟩
    rintro block (hin | hin)
    · exact (hbefore block hin).queued (ha.trans hb)
    · exact hmine block hin
  cases area with
  | back =>
      refine Prog.rg_bind .refl (Prog.rg_read fun a ha => ⟨.refl a, fun b hb => ?_⟩)
      refine Prog.rg_bind .refl (Prog.rg_read fun x hx => ⟨.refl x, fun y hy => ?_⟩)
      have hsx := (ha.trans hb).trans hx
      rw [(hs.trans ha).flushMode, (hs.trans hsx).nrSegments]
      split
      · rename_i hmode
        refine Prog.rg_bind .refl (Prog.rg_mono (Prog.rg_forEach_each .refl (fun _ _ _ => .trans)
          (D := fun segment v => ∀ block, segmentOf block = segment →
            DirtyBlock s₀ s₀.epoch block → Done s₀ .back sel Queued block v)
          (fun _ _ _ hd hab block hseg hdirty => (hd block hseg hdirty).queued hab)
          (fun segment _ _ hz => rg_applyDramToBackSegment hstart hz hsel segment)
          (hs.trans (hsx.trans hy))) fun _ w ⟨hw, hall⟩ => hfinish (hsx.trans hy) hw ?_)
        rintro block ⟨hdirty, hin⟩
        rw [if_pos hmode] at hin
        exact hall _ hin block rfl hdirty
      · rename_i hmode
        split
        · rename_i htid
          refine Prog.rg_bind .refl (Prog.rg_mono (rg_forEachFlushBlock_ids hstart
            (fun block hdirty z hz => rg_applyDramToBackBlock hstart hz hsel hdirty)
            (hs.trans (hsx.trans hy)) (fun id hid => List.mem_range.mp hid))
            fun _ w ⟨hw, hall⟩ => hfinish (hsx.trans hy) hw ?_)
          rintro block ⟨hdirty, -⟩
          obtain ⟨id, hid, hin⟩ :=
            mem_listedBlocks.mp (hstart.lists.listed (hstart.full hmode) block hdirty)
          exact hall id (List.mem_range.mpr hid) block hin
        · rename_i htid
          refine hfinish hsx hy ?_
          rintro block ⟨-, hin⟩
          rw [if_neg hmode] at hin
          exact absurd hin htid
  | main =>
      refine Prog.rg_bind .refl (Prog.rg_read fun a ha => ⟨.refl a, fun b hb => ?_⟩)
      refine Prog.rg_bind .refl (Prog.rg_read fun x hx => ⟨.refl x, fun y hy => ?_⟩)
      have hsx := (ha.trans hb).trans hx
      rw [(hs.trans ha).flushMode, (hs.trans hsx).nrSegments]
      split
      · rename_i hmode
        refine Prog.rg_bind .refl (Prog.rg_mono (Prog.rg_forEach_each .refl (fun _ _ _ => .trans)
          (D := fun segment v => ∀ block, segmentOf block = segment →
            DirtyBlock s₀ s₀.epoch block → Done s₀ .main sel Queued block v)
          (fun _ _ _ hd hab block hseg hdirty => (hd block hseg hdirty).queued hab)
          (fun segment _ _ hz => rg_applyDramToMainSegment hstart hz hsel segment)
          (hs.trans (hsx.trans hy))) fun _ w ⟨hw, hall⟩ => hfinish (hsx.trans hy) hw ?_)
        rintro block ⟨hdirty, hin⟩
        rw [if_pos hmode] at hin
        exact hall _ hin block rfl hdirty
      · rename_i hmode
        refine Prog.rg_bind .refl (Prog.rg_mono (rg_forEachFlushBlock_ids hstart
          (fun block hdirty z hz => rg_applyDramToMainBlock hstart hz hsel hdirty)
          (hs.trans (hsx.trans hy)) (fun id hid => lt_of_mem_indicesOf hid))
          fun _ w ⟨hw, hall⟩ => hfinish (hsx.trans hy) hw ?_)
        rintro block ⟨-, hin⟩
        rw [if_neg hmode] at hin
        obtain ⟨id, hid, hin⟩ := hin
        exact hall id hid block hin

/-! ## The sections -/

/-- Every dirty block is copied by some thread. -/
theorem exists_mine (hstart : Startable s₀) {nrThreads : Nat} (hpos : 0 < nrThreads) {block : Nat}
    (hdirty : DirtyBlock s₀ s₀.epoch block) :
    ∃ tid < nrThreads, Mine s₀ area tid nrThreads block := by
  by_cases hmode : s₀.flushMode = .wbinvd
  · refine ⟨segmentOf block % nrThreads, Nat.mod_lt _ hpos, hdirty, ?_⟩
    rw [if_pos hmode]
    exact mem_indicesOf nrThreads (hstart.range _ _ (hstart.marked _ _ hdirty))
  · cases area with
    | back =>
        refine ⟨0, hpos, hdirty, ?_⟩
        rw [if_neg hmode]
    | main =>
        obtain ⟨id, hid, hin⟩ :=
          mem_listedBlocks.mp (hstart.lists.listed (hstart.full hmode) block hdirty)
        refine ⟨id % nrThreads, Nat.mod_lt _ hpos, hdirty, ?_⟩
        rw [if_neg hmode]
        exact ⟨id, mem_bucketsOf nrThreads hid, hin⟩

/-- The blocks that the section before the commit brings up to date. -/
def Chosen (t : HybridInst) (block : Nat) : Prop :=
  DirtyBlock t t.epoch block ∨ t.prevFlushMode = .wbinvd ∧ StaleBlock t block

theorem applyDramTo_targetArea (epoch tid nrThreads : Nat) :
    applyDramTo (targetArea epoch) tid nrThreads =
      if epoch ≠ 0 then applyDramToBackParallel tid nrThreads
      else applyDramToMainParallel tid nrThreads := by
  rw [targetArea]
  split <;> rfl

theorem rg_applyFirst (hstart : Startable s₀) (tid nrThreads : Nat) :
    (applyFirst tid nrThreads).rg (ApplyStep s₀ (targetArea s₀.epoch) (Chosen s₀))
      (ApplyStep s₀ (targetArea s₀.epoch) (Chosen s₀))
      (fun _ v => ApplyStep s₀ (targetArea s₀.epoch) (Chosen s₀) s₀ v ∧ ∀ block,
        (s₀.prevFlushMode = .wbinvd ∧ StaleBlock s₀ block ∧
          segmentOf block ∈ indicesOf s₀.nrSegments tid nrThreads) ∨
        Mine s₀ (targetArea s₀.epoch) tid nrThreads block →
          Done s₀ (targetArea s₀.epoch) (Chosen s₀) Filled block v) s₀ := by
  have hdram : ∀ {a : HybridInst}, ApplyStep s₀ (targetArea s₀.epoch) (Chosen s₀) s₀ a →
      (∀ block, (s₀.prevFlushMode = .wbinvd ∧ StaleBlock s₀ block ∧
        segmentOf block ∈ indicesOf s₀.nrSegments tid nrThreads) →
          Done s₀ (targetArea s₀.epoch) (Chosen s₀) Queued block a) →
      (Prog.read epoch >>= fun epoch => if epoch ≠ 0 then applyDramToBackParallel tid nrThreads
        else applyDramToMainParallel tid nrThreads).rg
        (ApplyStep s₀ (targetArea s₀.epoch) (Chosen s₀))
        (ApplyStep s₀ (targetArea s₀.epoch) (Chosen s₀))
        (fun _ v => ApplyStep s₀ (targetArea s₀.epoch) (Chosen s₀) s₀ v ∧ ∀ block,
          (s₀.prevFlushMode = .wbinvd ∧ StaleBlock s₀ block ∧
            segmentOf block ∈ indicesOf s₀.nrSegments tid nrThreads) ∨
          Mine s₀ (targetArea s₀.epoch) tid nrThreads block →
            Done s₀ (targetArea s₀.epoch) (Chosen s₀) Filled block v) a := by
    intro a ha hq
    refine Prog.rg_bind .refl (Prog.rg_read fun b hb => ⟨.refl b, fun d hd => ?_⟩)
    rw [(ha.trans hb).epoch, ← applyDramTo_targetArea]
    exact Prog.rg_mono (rg_applyDramTo hstart ((ha.trans hb).trans hd) (fun block => Or.inl)
      (fun block hin => (hq block hin).queued (hb.trans hd)) tid nrThreads)
      fun _ v ⟨hv, hall⟩ => ⟨((ha.trans hb).trans hd).trans hv, hall⟩
  refine Prog.rg_bind .refl (Prog.rg_read fun a ha => ⟨.refl a, fun b hb => ?_⟩)
  rw [ha.prevFlushMode]
  split
  · rename_i hprev
    refine Prog.rg_bind .refl (Prog.rg_mono (rg_applyNvmToNvmParallel hstart (ha.trans hb) rfl
      (fun block hstale => Or.inr ⟨hprev, hstale⟩) tid nrThreads) fun _ v ⟨hv, hall⟩ => ?_)
    exact hdram ((ha.trans hb).trans hv) fun block ⟨_, hstale, hin⟩ => hall block hin hstale
  · rename_i hprev
    exact hdram (ha.trans hb) fun block ⟨hwb, _, _⟩ => absurd hwb hprev

theorem wp_applyFirst {C : HybridInst → Prop} (hstart : Startable s₀)
    (hC : ∀ a b, C a → ApplyStep s₀ (targetArea s₀.epoch) (Chosen s₀) a b → C b) (hs : C s₀)
    {nrThreads : Nat} (hpos : 0 < nrThreads) (schedule : List Nat) :
    Prog.wp C (Prog.par nrThreads schedule fun i => applyFirst i nrThreads)
      (fun _ v => ApplyStep s₀ (targetArea s₀.epoch) (Chosen s₀) s₀ v ∧ ∀ block, Chosen s₀ block →
        Done s₀ (targetArea s₀.epoch) (Chosen s₀) Filled block v) s₀ := by
  refine Prog.wp_mono (Prog.wp_par_same .refl (fun _ _ _ => .trans) hC hs
    fun i _ => rg_applyFirst hstart i nrThreads) fun _ v hv => ⟨(hv 0 hpos).1, ?_⟩
  rintro block (hdirty | ⟨hprev, hstale⟩)
  · obtain ⟨tid, htid, hmine⟩ := exists_mine hstart hpos hdirty
    exact (hv tid htid).2 block (Or.inr hmine)
  · refine (hv (segmentOf block % nrThreads) (Nat.mod_lt _ hpos)).2 block
      (Or.inl ⟨hprev, hstale, mem_indicesOf nrThreads ?_⟩)
    exact hstart.range _ _ (hstart.marked _ _ hstale.1)

theorem rg_applySecond (hstart : Startable s₀) (hparity : s₀.epoch = 0 ∨ s₀.epoch = 1)
    (tid nrThreads : Nat) :
    (applySecond tid nrThreads).rg
      (ApplyStep s₀ (targetArea (1 - s₀.epoch)) (DirtyBlock s₀ s₀.epoch))
      (ApplyStep s₀ (targetArea (1 - s₀.epoch)) (DirtyBlock s₀ s₀.epoch))
      (fun _ v => ApplyStep s₀ (targetArea (1 - s₀.epoch)) (DirtyBlock s₀ s₀.epoch) s₀ v ∧
        ∀ block, Mine s₀ (targetArea (1 - s₀.epoch)) tid nrThreads block →
          Done s₀ (targetArea (1 - s₀.epoch)) (DirtyBlock s₀ s₀.epoch) Filled block v) s₀ := by
  have hprog : (if s₀.epoch ≠ 0 then applyDramToMainParallel tid nrThreads
      else applyDramToBackParallel tid nrThreads) =
      applyDramTo (targetArea (1 - s₀.epoch)) tid nrThreads := by
    rcases hparity with hp | hp <;> simp [hp, targetArea, applyDramTo]
  refine Prog.rg_bind .refl (Prog.rg_read fun a ha => ⟨.refl a, fun b hb => ?_⟩)
  rw [ha.epoch, hprog]
  exact Prog.rg_mono (rg_applyDramTo hstart (ha.trans hb)
    (fun _ => id) (fun _ => False.elim) tid nrThreads)
    fun _ v ⟨hv, hall⟩ => ⟨(ha.trans hb).trans hv, fun block hmine => hall block (Or.inr hmine)⟩

theorem wp_applySecond {C : HybridInst → Prop} (hstart : Startable s₀)
    (hparity : s₀.epoch = 0 ∨ s₀.epoch = 1)
    (hC : ∀ a b, C a →
      ApplyStep s₀ (targetArea (1 - s₀.epoch)) (DirtyBlock s₀ s₀.epoch) a b → C b) (hs : C s₀)
    {nrThreads : Nat} (hpos : 0 < nrThreads) (schedule : List Nat) :
    Prog.wp C (Prog.par nrThreads schedule fun i => applySecond i nrThreads)
      (fun _ v => ApplyStep s₀ (targetArea (1 - s₀.epoch)) (DirtyBlock s₀ s₀.epoch) s₀ v ∧
        ∀ block, DirtyBlock s₀ s₀.epoch block →
          Done s₀ (targetArea (1 - s₀.epoch)) (DirtyBlock s₀ s₀.epoch) Filled block v) s₀ := by
  refine Prog.wp_mono (Prog.wp_par_same .refl (fun _ _ _ => .trans) hC hs
    fun i _ => rg_applySecond hstart hparity i nrThreads)
    fun _ v hv => ⟨(hv 0 hpos).1, fun block hdirty => ?_⟩
  obtain ⟨tid, htid, hmine⟩ := exists_mine hstart hpos hdirty
  exact (hv tid htid).2 block hmine

end Libcrpm.HybridInst
