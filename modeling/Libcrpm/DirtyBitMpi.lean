import Libcrpm.DirtyBit
import Libcrpm.MpiAgreement

/-!
# The laws of the soft dirty bit engine

What the threads of `apply_dram_to_nvm` and `write_back_parallel` do, whatever the order of
their steps is, and that the parts of the engine are lawful.
-/

namespace Libcrpm.DirtyBitEngine

open Libcrpm.Persistence Libcrpm.Program
open MetadataV1 (Data Flagged Intact Named Paired Recovered into)

variable {n : Nat} {X Y src : Data} {dst : Area} {s t u v : DirtyBitEngine}

@[simp] theorem mem_onNvm (f : MetadataV1.Nvm → MetadataV1.Nvm) (t : DirtyBitEngine) :
    (onNvm f t).mem = f t.mem := rfl

theorem pageOf_lt {o : Nat} (ho : o < poolWords n) : pageOf o < n := by
  rw [poolWords, kWordsPerRegion_eq] at ho
  rw [pageOf, kWordsPerPage_eq]
  omega

/-! ## Copies of dirty pages -/

/-- `u` arises from `t` by fences and non-temporal stores of `src` to one copy. -/
def Copies (dst : Area) (src : Data) (t u : DirtyBitEngine) : Prop :=
  ∃ m, Memory.Fills (into dst src) t.mem m ∧ u = onNvm (fun _ => m) t

theorem Copies.refl (t : DirtyBitEngine) : Copies dst src t t := ⟨t.mem, .refl _, rfl⟩

theorem Copies.trans (h : Copies dst src s t) (h' : Copies dst src t u) : Copies dst src s u := by
  obtain ⟨m, hm, rfl⟩ := h
  obtain ⟨m', hm', rfl⟩ := h'
  exact ⟨m', hm.trans hm', rfl⟩

theorem copies_onNvm {f : MetadataV1.Nvm → MetadataV1.Nvm}
    (h : Memory.Fills (into dst src) t.mem (f t.mem)) : Copies dst src t (onNvm f t) :=
  ⟨f t.mem, h, rfl⟩

theorem Copies.fills (h : Copies dst src t u) : Memory.Fills (into dst src) t.mem u.mem := by
  obtain ⟨m, hm, rfl⟩ := h
  exact hm

theorem Copies.nrPages (h : Copies dst src t u) : u.nrPages = t.nrPages := by
  obtain ⟨m, -, rfl⟩ := h
  rfl

theorem Copies.workingMemory (h : Copies dst src t u) : u.workingMemory = t.workingMemory := by
  obtain ⟨m, -, rfl⟩ := h
  rfl

theorem Copies.pteBuffer (h : Copies dst src t u) : u.pteBuffer = t.pteBuffer := by
  obtain ⟨m, -, rfl⟩ := h
  rfl

theorem Copies.secured (h : Copies dst src t u) {o : Nat}
    (hs : Memory.Secured t.mem (.data dst o) (src o)) :
    Memory.Secured u.mem (.data dst o) (src o) := by
  refine h.fills.secured (fun w hw => ?_) hs
  exact (Option.some.inj ((MetadataV1.into_self o).symm.trans hw)).symm

theorem Copies.load_main (h : Copies .back src t u) : u.metadata.load .main = t.metadata.load .main :=
  funext fun o => h.fills.cur (MetadataV1.into_of_ne (by decide) o)

/-- The word is up to date, or thread `tid` copies its page. -/
def Mine (s : DirtyBitEngine) (dst : Area) (src : Data) (tid nrThreads o : Nat) : Prop :=
  Memory.Secured s.mem (.data dst o) (src o) ∨
    (pageOf o ∈ indicesOf s.nrPages tid nrThreads ∧ s.pteBuffer (pageOf o) = true)

section Pages

variable {copy : DirtyBitEngine → Data} (hcopy : ∀ a, Copies dst src s a → copy a = src)
include hcopy

theorem rg_copyPage (hs : Copies dst src s t) (page : Nat) :
    (Prog.act fun t => onNvm (fun m => m.ntStoreAll (pageStores dst (copy t) page)) t).rg
      (Copies dst src) (Copies dst src) (fun _ v => Copies dst src t v ∧
        ∀ o, pageOf o = page → Memory.Secured v.mem (.data dst o) (src o)) t := by
  refine Prog.rg_act fun a ha => ?_
  have hpage : Copies dst src a (onNvm (fun m => m.ntStoreAll (pageStores dst (copy a) page)) a) := by
    rw [hcopy a (hs.trans ha)]
    refine copies_onNvm (Memory.fills_ntStoreAll (fun l w hw => ?_) _)
    cases l with
    | attributes => cases hw
    | consistentData => cases hw
    | data area o =>
        simp only [pageStores] at hw
        split at hw
        · rename_i hsel
          rw [hsel.1, MetadataV1.into_self]
          exact hw
        · cases hw
  refine ⟨hpage, fun b hb => ⟨(ha.trans hpage).trans hb, fun o ho => hb.secured (Or.inl ?_)⟩⟩
  rw [mem_onNvm, hcopy a (hs.trans ha)]
  exact Memory.queued_ntStoreAll a.mem (by simp [pageStores, ho])

theorem rg_copyDirtyPages (tid nrThreads : Nat) :
    (copyDirtyPages tid nrThreads fun page => Prog.act fun t =>
        onNvm (fun m => m.ntStoreAll (pageStores dst (copy t) page)) t).rg
      (Copies dst src) (Copies dst src) (fun _ v => Copies dst src s v ∧
        ∀ o, Mine s dst src tid nrThreads o → (v.mem (.data dst o)).Only (src o)) s := by
  refine Prog.rg_bind .refl (Prog.rg_read fun a ha => ⟨.refl a, fun b hb => ?_⟩)
  rw [ha.nrPages]
  have hsb := ha.trans hb
  refine Prog.rg_bind .refl (Prog.rg_mono (Prog.rg_forEach_each .refl (fun _ _ _ => .trans) (i := s)
    (D := fun page v => s.pteBuffer page = true → ∀ o, pageOf o = page →
      Memory.Secured v.mem (.data dst o) (src o))
    (fun _ _ _ hd hab hdirty o ho => hab.secured (hd hdirty o ho))
    (fun page _ c hc => ?_) hsb) ?_)
  · refine Prog.rg_bind .refl (Prog.rg_read fun d hd => ⟨.refl d, fun e he => ?_⟩)
    have hce := hd.trans he
    rw [(hc.trans hd).pteBuffer]
    by_cases hdirty : s.pteBuffer page = true
    · rw [if_pos hdirty]
      refine Prog.rg_mono (rg_copyPage hcopy (hc.trans hce) page) fun _ w hw => ?_
      exact ⟨hce.trans hw.1, fun _ => hw.2⟩
    · rw [if_neg hdirty]
      exact fun w hw => ⟨hce.trans hw, fun htrue => absurd htrue hdirty⟩
  · intro _ c ⟨hc, hall⟩
    refine Prog.rg_act fun d hd => ?_
    have hfence : Copies dst src d (onNvm Memory.fence d) := copies_onNvm (Memory.fills_fence _)
    refine ⟨hfence, fun e he => ⟨((hsb.trans hc).trans hd).trans (hfence.trans he), fun o ho => ?_⟩⟩
    have hsecured : Memory.Secured c.mem (.data dst o) (src o) := by
      rcases ho with ho | ⟨hin, hdirty⟩
      · exact (hsb.trans hc).secured ho
      · exact hall _ hin hdirty o rfl
    refine he.fills.only (fun w hw => ?_) (hd.secured hsecured).fence
    exact (Option.some.inj ((MetadataV1.into_self o).symm.trans hw)).symm

theorem wp_copySection {C : DirtyBitEngine → Prop} (hC : ∀ a b, C a → Copies dst src a b → C b)
    (hs : C s) {nrThreads : Nat} (hpos : 0 < nrThreads) (schedule : List Nat) :
    Prog.wp C (Prog.par nrThreads schedule fun i => copyDirtyPages i nrThreads fun page =>
        Prog.act fun t => onNvm (fun m => m.ntStoreAll (pageStores dst (copy t) page)) t)
      (fun _ v => Copies dst src s v ∧
        ∀ o, Memory.Secured s.mem (.data dst o) (src o) ∨
            (pageOf o < s.nrPages ∧ s.pteBuffer (pageOf o) = true) →
          (v.mem (.data dst o)).Only (src o)) s := by
  refine Prog.wp_mono (Prog.wp_par_same .refl (fun _ _ _ => .trans) hC hs
    fun i _ => rg_copyDirtyPages hcopy i nrThreads) fun _ v hv => ⟨(hv 0 hpos).1, fun o ho => ?_⟩
  rcases ho with ho | ⟨hlt, hdirty⟩
  · exact (hv 0 hpos).2 o (Or.inl ho)
  · exact (hv (pageOf o % nrThreads) (Nat.mod_lt _ hpos)).2 o
      (Or.inr ⟨mem_indicesOf nrThreads hlt, hdirty⟩)

end Pages

/-! ## The states of a round -/

/-- The engine between two calls when `X` is the data of the last round. -/
structure Quiet (n : Nat) (X : Data) (t : DirtyBitEngine) : Prop where
  nrPages : t.nrPages = n
  flagged : Flagged .back t.mem
  back : Intact (poolWords n) .back X t.mem
  main : ∀ o < poolWords n, Memory.Secured t.mem (.data .main o) (X o)
  working : ∀ o < poolWords n, t.softDirty (pageOf o) = false → t.workingMemory o = X o

theorem Quiet.named (h : Quiet n X t) : Named (poolWords n) .back X t.mem := ⟨h.flagged, h.back⟩

/-- Main memory holds `Y`, the data of working memory, and the back copy `X`, which differs in
the pages that were found dirty only. -/
structure Persisted (n : Nat) (X Y : Data) (t : DirtyBitEngine) : Prop where
  nrPages : t.nrPages = n
  working : t.workingMemory = Y
  paired : Paired (poolWords n) X Y t.mem
  clean : ∀ o < poolWords n, t.pteBuffer (pageOf o) = false → X o = Y o

/-- Both copies hold the data of working memory. -/
structure Agreed (n : Nat) (Y : Data) (t : DirtyBitEngine) : Prop where
  nrPages : t.nrPages = n
  working : t.workingMemory = Y
  paired : Paired (poolWords n) Y Y t.mem

/-! ## The laws -/

theorem quiet_create (n : Nat) :
    Quiet n (fun _ => 0#64) (construct n (MetadataV1.create (n * kRegionSize))) where
  nrPages := rfl
  flagged := fun _ hw => Cell.may_durable.mp hw
  back := fun _ _ _ hw => Cell.may_durable.mp hw
  main := fun _ _ => Or.inr fun _ hw => Cell.may_durable.mp hw
  working := fun _ _ _ => rfl

theorem wp_prepare {m m₀ : MetadataV1} (hlen : n * kRegionSize < 2 ^ 31) (h : Recovered n X m) :
    Prog.wp (fun v => v.mem = m.mem) prepare
      (fun _ v => Quiet n X v ∧ ∀ o < poolWords n, v.workingMemory o = X o ∧
        v.metadata.load .main o = X o ∧ v.metadata.load .back o = X o)
      (metadataLens.set m (construct n m₀)) := by
  have hmain : ∀ o < poolWords n, m.load .main o = X o := fun o ho => (h.main o ho).cur_eq
  have hworking : ∀ o < poolWords n,
      (if (metadataLens.set m (construct n m₀)).reloads o then m.load .main o else 0#64) = X o := by
    intro o ho
    split
    · exact hmain o ho
    · rename_i hskip
      have hin : o * kWordSize < MetadataV1.reachedBytes m.capacity :=
        MetadataV1.reached (h.capacity.symm ▸ hlen) (nrWords_metadata h.capacity ▸ ho)
      have hequal : MetadataV1.cacheLineDiffers (fun _ => 0#64) (m.load .main) o = false := by
        by_contra hdiffers
        apply hskip
        rw [reloads, Bool.and_eq_true]
        exact ⟨decide_eq_true hin, eq_true_of_ne_false hdiffers⟩
      exact (MetadataV1.eq_of_cacheLineDiffers hequal).trans (hmain o ho)
  rw [prepare, Prog.wp_bind, Prog.wp_act, prepareWorkingMemory, Prog.wp_bind, Prog.wp_act,
    resetPageMap, Prog.wp_act]
  refine ⟨rfl, rfl, rfl, ⟨rfl, h.flagged, h.back, h.main, fun o ho _ => hworking o ho⟩,
    fun o ho => ⟨hworking o ho, hmain o ho, h.back.load_eq ho⟩⟩

theorem wp_storeWord (h : Quiet n X t) {o : Nat} (value : Word) :
    Prog.wp (fun v => Named (poolWords n) .back X v.mem) (storeWord o value)
      (fun _ v => Quiet n X v) t := by
  refine Prog.wp_act.mpr ⟨h.named, h.nrPages, h.flagged, h.back, h.main, fun o' ho' hclean => ?_⟩
  change Function.update t.softDirty (pageOf o) true (pageOf o') = false at hclean
  have hpage : pageOf o' ≠ pageOf o := by
    intro heq
    rw [heq, Function.update_self] at hclean
    cases hclean
  rw [Function.update_of_ne hpage] at hclean
  have hword : o' ≠ o := fun heq => hpage (heq ▸ rfl)
  exact (Function.update_of_ne hword _ _).trans (h.working o' ho' hclean)

theorem wp_persistSection (h : Quiet n X t) {order : Schedules} (hpos : 0 < order.nrThreads) :
    Prog.wp (fun v => Named (poolWords n) .back X v.mem) (persistSection order)
      (fun _ v => Flagged .back v.mem ∧ Persisted n X t.workingMemory v) t := by
  rw [persistSection, Prog.wp_bind, readPageMap, Prog.wp_act]
  refine ⟨h.named, ?_⟩
  have hkept : ∀ a b, Named (poolWords n) .back X a.mem → Copies .main t.workingMemory a b →
      Named (poolWords n) .back X b.mem := fun a b ha hab =>
    ⟨ha.flagged.fills hab.fills, ha.intact.fills hab.fills fun heq => by cases heq⟩
  refine Prog.wp_mono (wp_copySection (s := { t with pteBuffer := t.softDirty })
    (fun a ha => ha.workingMemory) hkept h.named hpos order.apply) fun _ v ⟨hcopies, hall⟩ => ?_
  have hnamed := hkept { t with pteBuffer := t.softDirty } v h.named hcopies
  refine ⟨hnamed.flagged, hcopies.nrPages.trans h.nrPages, hcopies.workingMemory,
    ⟨hnamed.intact, fun o ho => hall o ?_⟩, fun o ho hclean => ?_⟩
  · cases hdirty : t.softDirty (pageOf o) with
    | true => exact Or.inr ⟨h.nrPages.symm ▸ pageOf_lt ho, hdirty⟩
    | false =>
        rw [h.working o ho hdirty]
        exact Or.inl (h.main o ho)
  · rw [hcopies.pteBuffer] at hclean
    exact (h.working o ho hclean).symm

theorem wp_setConsistentData {C : DirtyBitEngine → Prop} {flag : ConsistentData}
    (hstored : C (onNvm (fun m => m.ntStore .consistentData flag) t))
    (hfenced : C (onNvm (fun m => (m.ntStore .consistentData flag).fence) t)) :
    Prog.wp C ((MetadataV1.setConsistentData flag).zoom metadataLens)
      (fun _ v => v = onNvm (fun m => (m.ntStore .consistentData flag).fence) t) t := by
  apply Prog.wp_zoom
  rw [MetadataV1.setConsistentData, Prog.wp_bind, Prog.wp_act, Prog.wp_act]
  exact ⟨hstored, hfenced, rfl⟩

theorem wp_nameMain (h : Persisted n X Y t) :
    Prog.wp (fun v => Paired (poolWords n) X Y v.mem)
      ((MetadataV1.setConsistentData .main).zoom metadataLens)
      (fun _ v => Flagged .main v.mem ∧ Persisted n X Y v) t := by
  have hstored : Paired (poolWords n) X Y (t.mem.ntStore .consistentData .main) :=
    h.paired.ntStore (by simp) _
  have hfenced := hstored.drains (Memory.drains_fence _)
  refine Prog.wp_mono (wp_setConsistentData hstored hfenced) fun _ v hv => ?_
  rw [hv]
  exact ⟨MetadataV1.flagged_set .main t.mem, h.nrPages, h.working, hfenced, h.clean⟩

theorem wp_writeBackSection (h : Persisted n X Y t) (hflag : Flagged .main t.mem)
    {order : Schedules} (hpos : 0 < order.nrThreads) :
    Prog.wp (fun v => Named (poolWords n) .main Y v.mem) (writeBackSection order)
      (fun _ v => Flagged .main v.mem ∧ Agreed n Y v) t := by
  have hnamed := h.paired.named_main hflag
  have hkept : ∀ a b, Named (poolWords n) .main Y a.mem →
      Copies .back (t.metadata.load .main) a b → Named (poolWords n) .main Y b.mem :=
    fun a b ha hab =>
      ⟨ha.flagged.fills hab.fills, ha.intact.fills hab.fills fun heq => by cases heq⟩
  refine Prog.wp_mono (wp_copySection (fun a ha => ha.load_main) hkept hnamed hpos order.writeBack)
    fun _ v ⟨hcopies, hall⟩ => ?_
  have hnamed' := hkept _ _ hnamed hcopies
  refine ⟨hnamed'.flagged, hcopies.nrPages.trans h.nrPages, hcopies.workingMemory.trans h.working,
    fun o ho => ?_, hnamed'.intact⟩
  have hload : t.metadata.load .main o = Y o := h.paired.main.load_eq ho
  rw [← hload]
  apply hall
  cases hdirty : t.pteBuffer (pageOf o) with
  | true => exact Or.inr ⟨h.nrPages.symm ▸ pageOf_lt ho, rfl⟩
  | false =>
      rw [hload, ← h.clean o ho hdirty]
      exact Or.inl (Or.inr (h.paired.back o ho))

theorem wp_nameBack (h : Agreed n Y t) :
    Prog.wp (fun v => Paired (poolWords n) Y Y v.mem)
      ((MetadataV1.setConsistentData .back).zoom metadataLens)
      (fun _ v => Flagged .back v.mem ∧ Agreed n Y v) t := by
  have hstored : Paired (poolWords n) Y Y (t.mem.ntStore .consistentData .back) :=
    h.paired.ntStore (by simp) _
  have hfenced := hstored.drains (Memory.drains_fence _)
  refine Prog.wp_mono (wp_setConsistentData hstored hfenced) fun _ v hv => ?_
  rw [hv]
  exact ⟨MetadataV1.flagged_set .back t.mem, h.nrPages, h.working, hfenced⟩

theorem Agreed.quiet (h : Agreed n Y t) (hflag : Flagged .back t.mem) : Quiet n Y t where
  nrPages := h.nrPages
  flagged := hflag
  back := h.paired.back
  main o ho := Or.inr (h.paired.main o ho)
  working o _ _ := congrFun h.working o

theorem wp_finishCheckpoint (h : Agreed n Y t) (hflag : Flagged .back t.mem) :
    Prog.wp (fun v => Named (poolWords n) .back Y v.mem) finishCheckpoint
      (fun _ v => Quiet n Y v) t := by
  have hnamed := h.paired.named_back hflag
  rw [finishCheckpoint, Prog.wp_bind, resetPageMap, Prog.wp_act]
  refine ⟨hnamed, Prog.wp_bind.mpr (Prog.wp_read.mpr ⟨hnamed, ?_⟩)⟩
  split
  · exact Prog.wp_pure.mpr (Agreed.quiet ⟨h.nrPages, h.working, h.paired⟩ hflag)
  · have hstored : Paired (poolWords n) Y Y (t.mem.ntStore .attributes kAttributeHasSnapshot) :=
      h.paired.ntStore (by simp) _
    have hflag' : Flagged .back (t.mem.ntStore .attributes kAttributeHasSnapshot) := by
      rw [Flagged, Memory.ntStore_of_ne t.mem _ (by simp)]
      exact hflag
    have hfenced := hstored.drains (Memory.drains_fence _)
    have hflag'' := hflag'.drains (Memory.drains_fence _)
    rw [Prog.wp_bind]
    apply Prog.wp_zoom
    rw [MetadataV1.setAttributes, Prog.wp_bind, Prog.wp_act, Prog.wp_act]
    refine ⟨hstored.named_back hflag', hfenced.named_back hflag'',
      Prog.wp_act.mpr ⟨hfenced.named_back hflag'', ?_⟩⟩
    exact Agreed.quiet ⟨h.nrPages, h.working, hfenced⟩ hflag''

def lawful : mpiEngine.Lawful where
  Quiet := Quiet
  Persisted n X Y t := Flagged .back t.mem ∧ Persisted n X Y t
  Published n X Y t := Flagged .main t.mem ∧ Persisted n X Y t
  Agreed := Agreed
  quiet_create := quiet_create
  get_construct _ _ := rfl
  named h := h.named
  persisted h := ⟨h.1, h.2.paired⟩
  published h := ⟨h.1, h.2.paired⟩
  agreed h := h.paired
  wp_prepare hlen h := wp_prepare hlen h
  wp_store h _ := wp_storeWord h _
  wp_persist h hpos := wp_persistSection h hpos
  wp_nameMain h := wp_nameMain h.2
  wp_updateCopies h hpos := wp_writeBackSection h.2 h.1 hpos
  wp_nameBack h := wp_nameBack h
  wp_finish h hflag := wp_finishCheckpoint h hflag

end Libcrpm.DirtyBitEngine
