import Libcrpm.NvmMappingSafety
import Mathlib.Data.Fintype.EquivFin

/-!
# Runs of the NVM engine keep the mapping

The steps of the hooks, the cleaner and the checkpoint keep the invariant when all
application threads take part in each checkpoint, and a run in which one of them does not.
-/

namespace Libcrpm.NvmMapping

open Libcrpm.Program CheckpointImage NvmInst

variable {pool : Pool} {s t : State} {tid i : Nat} {pc : Pc}

/-! ## Hooks -/

theorem Inv.fill (h : Inv pool s) {old : Pc} (hold : s.pc tid = old) {blockDirty : AtomicBitSet}
    {flush buffer : Nat → List Nat}
    (hlisted : ∀ id, ∀ block ∈ flush id, Dirty s (segmentOf block))
    (hbuffered : ∀ id, ∀ addr ∈ buffer id, Dirty s (segmentOf (addr >>> kBlockShift)))
    (hempty : ∀ i < pool.nrThreads, (Function.update s.pc tid pc i).drained = true →
      ∀ id, buffer id = [])
    (hsound : PcSound pool s tid pc) (hmid : old.midBind = false) (hrole : Pc.SameRole old pc)
    (hbehind : old.background = true → pc.background = true) :
    Inv pool ({ s with
      blockDirty := blockDirty
      flushBlocks := flush
      addressBuffer := buffer }.goto tid pc) := by
  subst hold
  exact h.step rfl ⟨fun _ _ hl _ => hl, fun _ hl _ => hl, Or.inl ⟨rfl, rfl⟩, fun _ => Or.inl rfl,
    fun m hclean hd => absurd hd hclean, fun _ hd => hd⟩
    (hsound.rely ⟨fun _ hl => hl, fun hl => ⟨hl, rfl, rfl⟩, fun _ _ => rfl, fun _ _ _ hl => hl,
      fun _ hl => hl⟩) (fun hfree => h.inverse (midBind_update rfl hmid hfree)) h.owned h.bound h.full
    hlisted hbuffered hempty h.skip (fun _ => hbehind) (h.coordinated.update hrole)

theorem Inv.record (h : Inv pool s) {old : Pc} (hold : s.pc tid = old) {block : Nat}
    (hdirty : Dirty s (segmentOf block)) (hsound : PcSound pool s tid pc) (hmid : old.midBind = false)
    (hrole : Pc.SameRole old pc) (hdrained : pc.drained = true → old.drained = true)
    (hbehind : old.background = true → pc.background = true) :
    Inv pool ((s.record tid block).goto tid pc) ∧ (s.record tid block).mapping = s.mapping := by
  subst hold
  have hempty := drained_update (t := s.goto tid pc) h rfl hdrained
  have hfill : ∀ blockDirty flush, (∀ id, ∀ b ∈ flush id, Dirty s (segmentOf b)) →
      Inv pool ({ s with blockDirty := blockDirty, flushBlocks := flush }.goto tid pc) :=
    fun _ _ hlisted => h.fill rfl hlisted h.buffered hempty hsound hmid hrole hbehind
  unfold State.record
  split
  · exact ⟨h.move rfl hsound hmid hrole hdrained hbehind, rfl⟩
  · split
    · refine ⟨hfill _ _ fun id b hb => ?_, rfl⟩
      by_cases hid : id = tid
      · subst hid
        rw [Function.update_self] at hb
        rcases List.mem_append.mp hb with hb | hb
        · exact h.listed id b hb
        · rwa [List.mem_singleton.mp hb]
      · rw [Function.update_of_ne hid] at hb
        exact h.listed id b hb
    · exact ⟨hfill _ _ h.listed, rfl⟩

theorem HookCall.segmentOf_blocks {call : HookCall} (hsmall : call.small = false) {block : Nat}
    (hb : block ∈ call.blocks) : segmentOf block ∈ call.segments := by
  obtain ⟨a, ha, rfl⟩ := List.mem_map.mp hb
  have hlarge : ¬ call.addr % kBlockSize + call.len ≤ kBlockSize := by
    simpa [HookCall.small] using hsmall
  rw [HookCall.segments, hookedSegments, if_neg hlarge]
  exact segmentOf_mem_segmentRange ha

theorem HookCall.segmentOf_addr {call : HookCall} (hsmall : call.small = true) :
    segmentOf (call.addr >>> kBlockShift) ∈ call.segments := by
  rw [HookCall.segments, hookedSegments, if_pos (of_decide_eq_true hsmall), segmentOf_block]
  exact List.mem_singleton_self _

theorem HookCall.segments_lt {call : HookCall} (hpos : 0 < call.len)
    (hlen : call.addr + call.len ≤ pool.nrSegments * kSegmentSize) :
    ∀ m ∈ call.segments, m < pool.nrSegments := by
  rw [HookCall.segments, hookedSegments]
  split
  · intro m hm
    rw [List.mem_singleton.mp hm]
    exact shiftRight_kSegmentShift_lt (by omega)
  · exact segmentRange_lt hlen

theorem HookSound.dirty {call : HookCall} (h : HookSound pool s [] call) :
    ∀ m ∈ call.segments, Dirty s m := fun m hm =>
  (h.covered m hm).resolve_left (by simp)

theorem Inv.buffer (h : Inv pool s) {old : Pc} (hold : s.pc tid = old) {addrs : List Nat}
    (hbuffered : ∀ addr ∈ addrs, Dirty s (segmentOf (addr >>> kBlockShift)))
    (hfore : old.background = false) (hout : old.outside) (hsound : PcSound pool s tid pc)
    (hmid : old.midBind = false) (hrole : Pc.SameRole old pc) :
    Inv pool ({ s with addressBuffer := Function.update s.addressBuffer tid addrs }.goto tid pc) := by
  have hin := h.lt_of_background hold hfore
  subst hold
  have hnone := ((h.coordinated.update hrole).free hin (by
    rw [Function.update_self]
    exact ⟨hrole.1.trans hout.1, hrole.2.1.trans hout.2.1, hrole.2.2.1.trans hout.2.2⟩)).2
  refine h.fill rfl h.listed (fun id addr ha => ?_) (fun j hj hd => ?_) hsound hmid hrole
    fun hback => (by rw [hfore] at hback; cases hback)
  · by_cases hid : id = tid
    · subst hid
      rw [Function.update_self] at ha
      exact hbuffered addr ha
    · rw [Function.update_of_ne hid] at ha
      exact h.buffered id addr ha
  · rcases Pc.leads_or_writes_of_drained hd with hl | hw
    · rw [(hnone j hj).1] at hl
      cases hl
    · rw [(hnone j hj).2] at hw
      cases hw

theorem Inv.hookStep (h : Inv pool s) {segments : List Nat} {call : HookCall}
    (hold : s.pc tid = .hook segments call) (hstep : s.advance pool tid = some t) :
    Inv pool t ∧ t.mapping = s.mapping := by
  have hhook := h.sound tid
  rw [hold] at hhook
  simp only [State.advance, hold] at hstep
  cases segments with
  | nil =>
      cases hsmall : call.small with
      | true =>
          have hbuffered : ∀ addr ∈ s.addressBuffer tid ++ [call.addr],
              Dirty s (segmentOf (addr >>> kBlockShift)) := by
            intro addr ha
            rcases List.mem_append.mp ha with ha | ha
            · exact h.buffered tid addr ha
            · rw [List.mem_singleton.mp ha]
              exact hhook.dirty _ (HookCall.segmentOf_addr hsmall)
          simp only [hsmall, if_true] at hstep
          split at hstep
          · obtain rfl := Option.some.inj hstep
            refine ⟨h.buffer hold hbuffered rfl ⟨rfl, rfl, rfl⟩ (fun block hb => ?_) rfl
              ⟨rfl, rfl, rfl, rfl⟩, rfl⟩
            obtain ⟨addr, ha, rfl⟩ := List.mem_map.mp hb
            exact hbuffered addr ha
          · obtain rfl := Option.some.inj hstep
            exact ⟨h.buffer hold hbuffered rfl ⟨rfl, rfl, rfl⟩ trivial rfl ⟨rfl, rfl, rfl, rfl⟩, rfl⟩
      | false =>
          simp only [hsmall, Bool.false_eq_true, if_false] at hstep
          obtain rfl := Option.some.inj hstep
          exact ⟨h.move hold (fun block hb => hhook.dirty _ (HookCall.segmentOf_blocks hsmall hb)) rfl
            ⟨rfl, rfl, rfl, rfl⟩ (fun hd => hd) fun hb => hb, rfl⟩
  | cons m segments =>
      have hm : m ∈ call.segments := hhook.within (List.mem_cons_self ..)
      simp only at hstep
      split at hstep
      · rename_i hdirty
        obtain rfl := Option.some.inj hstep
        refine ⟨h.move hold ⟨hhook.valid, fun m' hm' => hhook.within (List.mem_cons_of_mem _ hm'),
          fun m' hm' => ?_⟩ rfl ⟨rfl, rfl, rfl, rfl⟩ (fun hd => hd) fun hb => hb, rfl⟩
        rcases hhook.covered m' hm' with hleft | hd
        · rcases List.mem_cons.mp hleft with rfl | hleft
          · exact Or.inr hdirty
          · exact Or.inl hleft
        · exact Or.inr hd
      · split at hstep
        · rename_i hskip
          obtain rfl := Option.some.inj hstep
          exact ⟨h.move hold ⟨hhook, h.skip hskip⟩ rfl ⟨rfl, rfl, rfl, rfl⟩ (fun hd => hd)
            fun hb => hb, rfl⟩
        · obtain rfl := Option.some.inj hstep
          exact ⟨h.move hold ⟨⟨fun _ => hhook.valid m hm, rfl, hhook⟩, trivial⟩ rfl
            ⟨rfl, rfl, rfl, rfl⟩ (fun hd => hd) fun hb => (by cases hb), rfl⟩

theorem Inv.markStep (h : Inv pool s) {m : Nat} {segments : List Nat} {call : HookCall}
    (hold : s.pc tid = .mark m segments call) :
    Inv pool ((s.setDirty m).goto tid (.hook segments call)) := by
  have hmark := h.sound tid
  rw [hold] at hmark
  obtain ⟨hhook, hfull⟩ := hmark
  refine h.setDirty hold (h.full hfull m (hhook.valid m (hhook.within (List.mem_cons_self ..))))
    (Or.inl hfull) ⟨hhook.valid, fun m' hm' => hhook.within (List.mem_cons_of_mem _ hm'),
      fun m' hm' => ?_⟩ rfl ⟨rfl, rfl, rfl, rfl⟩ (fun hd => hd) fun hb => hb
  rcases hhook.covered m' hm' with hleft | hd
  · rcases List.mem_cons.mp hleft with rfl | hleft
    · exact Or.inr (dirty_setDirty.mpr (Or.inl rfl))
    · exact Or.inl hleft
  · exact Or.inr (dirty_setDirty.mpr (Or.inr hd))

theorem Inv.recordStep (h : Inv pool s) {blocks : List Nat} {buffered : Bool}
    (hold : s.pc tid = .record blocks buffered) (hstep : s.advance pool tid = some t) :
    Inv pool t ∧ t.mapping = s.mapping := by
  have hdirty := h.sound tid
  rw [hold] at hdirty
  simp only [State.advance, hold] at hstep
  cases blocks with
  | nil =>
      cases buffered with
      | true =>
          obtain rfl := Option.some.inj hstep
          exact ⟨h.buffer hold (by simp) rfl ⟨rfl, rfl, rfl⟩ trivial rfl ⟨rfl, rfl, rfl, rfl⟩, rfl⟩
      | false =>
          obtain rfl := Option.some.inj hstep
          exact ⟨h.move hold trivial rfl ⟨rfl, rfl, rfl, rfl⟩ (fun hd => hd) fun _ => rfl, rfl⟩
  | cons block blocks =>
      obtain rfl := Option.some.inj hstep
      exact h.record hold (hdirty block (List.mem_cons_self ..))
        (fun b hb => hdirty b (List.mem_cons_of_mem _ hb)) rfl ⟨rfl, rfl, rfl, rfl⟩ (fun hd => hd)
        fun hb => hb

/-! ## The cleaner -/

theorem Inv.idle (h : Inv pool s) {old : Pc} (hold : s.pc tid = old)
    (hpc : t.pc = Function.update s.pc tid pc) (hu : Untouched s t)
    (hlocks : t.segmentLocks = s.segmentLocks) (hback : t.backMemoryLock = s.backMemoryLock)
    (hnext : t.nextBackId = s.nextBackId) (hsound : PcSound pool t tid pc)
    (hmid : old.midBind = false) (hrole : Pc.SameRole old pc)
    (hdrained : pc.drained = true → old.drained = true)
    (hbehind : old.background = true → pc.background = true) : Inv pool t :=
  h.stay hold hpc hu (fun _ _ hl _ => by rw [hlocks]; exact hl)
    (fun _ hl _ => by rw [hback]; exact hl) (Or.inl hnext) hsound hmid hrole hdrained hbehind

theorem Inv.cleanerStep (h : Inv pool s) {m : Nat} (hold : s.pc tid = .asleep m ∨ s.pc tid = .scan m)
    (hstep : s.advance pool tid = some t) : Inv pool t ∧ t.mapping = s.mapping := by
  rcases hold with hold | hold
  · simp only [State.advance, hold] at hstep
    split at hstep
    · cases hstep
    · obtain rfl := Option.some.inj hstep
      exact ⟨h.idle hold rfl ⟨rfl, rfl, rfl, rfl, rfl, rfl⟩ rfl rfl rfl trivial rfl
        ⟨rfl, rfl, rfl, rfl⟩ (fun hd => hd) fun hb => hb, rfl⟩
  · simp only [State.advance, hold] at hstep
    split at hstep
    · obtain rfl := Option.some.inj hstep
      exact ⟨h.idle hold rfl ⟨rfl, rfl, rfl, rfl, rfl, rfl⟩ rfl rfl rfl trivial rfl
        ⟨rfl, rfl, rfl, rfl⟩ (fun hd => hd) fun hb => hb, rfl⟩
    · split at hstep
      · obtain rfl := Option.some.inj hstep
        exact ⟨h.idle hold rfl ⟨rfl, rfl, rfl, rfl, rfl, rfl⟩ rfl rfl rfl trivial rfl
          ⟨rfl, rfl, rfl, rfl⟩ (fun hd => hd) fun hb => hb, rfl⟩
      · obtain rfl := Option.some.inj hstep
        exact ⟨h.move hold ⟨⟨fun hdemand => (by cases hdemand), rfl⟩, trivial⟩ rfl
          ⟨rfl, rfl, rfl, rfl⟩ (fun hd => hd) fun hb => hb, rfl⟩
    · obtain rfl := Option.some.inj hstep
      exact ⟨h.idle hold rfl ⟨rfl, rfl, rfl, rfl, rfl, rfl⟩ rfl rfl rfl trivial rfl
        ⟨rfl, rfl, rfl, rfl⟩ (fun hd => hd) fun hb => hb, rfl⟩

/-! ## Barriers -/

theorem PcSound.of_background (h : PcSound pool s i pc) (hback : pc.background = true)
    (hlocks : t.segmentLocks = s.segmentLocks) : PcSound pool t i pc := by
  cases pc with
  | idle | asleep | scan => trivial
  | lazy place w =>
      have hlazy : w.onDemand = false := by
        rw [Pc.background, Bool.not_eq_true'] at hback
        exact hback
      have hdemand : w.onDemand ≠ true := by simp [hlazy]
      obtain ⟨hcall, hplace⟩ := h
      refine ⟨⟨hcall.segment, ?_⟩, ?_⟩
      · have hnext := hcall.next
        unfold NextSound at hnext ⊢
        cases hw : w.next with
        | idle => trivial
        | cleaner => exact hlazy
        | hook segments call =>
            rw [hw] at hnext
            exact absurd hnext.1 hdemand
      · have hholds : Holds s i w.segment → Holds t i w.segment := by
          unfold Holds
          rw [hlocks]
          exact fun hl => hl
        cases place with
        | acquire => trivial
        | readState | readBack => exact hholds hplace
        | find => exact absurd hplace.2 hdemand
        | setState | clearBlocks => exact ⟨hholds hplace.1, fun htrue => absurd htrue hdemand⟩
        | setDirty => exact absurd hplace.2.1 hdemand
        | release => exact ⟨hholds hplace.1, fun htrue => absurd htrue hdemand⟩
  | _ => cases hback

theorem Pc.midBind_of_background (h : pc.background = true) : pc.midBind = false := by
  cases pc with
  | alloc => cases h
  | _ => rfl

/-- At a barrier the maps are complete. -/
theorem Inv.inverse_of_gathered (h : Inv pool s)
    (hgathered : ∀ i < pool.nrThreads, (s.pc i).midBind = false) : s.mapping.Inverse := by
  refine h.inverse fun i => ?_
  by_cases hi : i < pool.nrThreads
  · exact hgathered i hi
  · exact Pc.midBind_of_background (h.behind i (Nat.le_of_not_lt hi))

theorem Inv.letGo (h : Inv pool s) {go : Pc → Pc} (hpc : t.pc = fun i => go (s.pc i))
    (hgo : ∀ pc, pc.background = true → go pc = pc)
    (hgathered : ∀ i < pool.nrThreads, (s.pc i).midBind = false)
    (hmapping : t.mapping = s.mapping) (hlocks : t.segmentLocks = s.segmentLocks)
    (hdirty : ∀ m, Dirty t m → Dirty s m)
    (hlisted : ∀ id, ∀ block ∈ t.flushBlocks id, Dirty t (segmentOf block))
    (hempty : ∀ id, t.addressBuffer id = [])
    (hskip : t.skipCopyOnWrite = true → pool.nrBack = pool.nrSegments)
    (hsound : ∀ i < pool.nrThreads, PcSound pool t i (go (s.pc i)))
    (hcoordinated : Coordinated pool t.pc t.checkpointInProgress) : Inv pool t where
  sound i := by
    rw [hpc]
    by_cases hi : i < pool.nrThreads
    · exact hsound i hi
    · have hback := h.behind i (Nat.le_of_not_lt hi)
      change PcSound pool t i (go (s.pc i))
      rw [hgo _ hback]
      exact (h.sound i).of_background hback hlocks
  inverse _ := by
    rw [hmapping]
    exact h.inverse_of_gathered hgathered
  owned := by
    rw [hmapping]
    exact h.owned
  bound m hm := by
    rw [hmapping]
    exact h.bound m (hdirty m hm)
  full := by
    rw [hmapping]
    exact h.full
  listed := hlisted
  buffered id addr ha := by
    rw [hempty] at ha
    cases ha
  drained _ _ _ := hempty
  skip := hskip
  behind i hi := by
    have hback := h.behind i hi
    rw [hpc]
    change (go (s.pc i)).background = true
    rwa [hgo _ hback]
  coordinated := hcoordinated

theorem Pc.leave_of_background (h : pc.background = true) : State.leave pc = pc := by
  cases pc with
  | idle | asleep | scan | lazy => rfl
  | _ => cases h

theorem Pc.enterWriteBack_of_background {nrCallers : Nat} {lists : Nat → List Nat}
    (h : pc.background = true) : State.enterWriteBack nrCallers lists pc = pc := by
  cases pc with
  | idle | asleep | scan | lazy => rfl
  | _ => cases h

theorem Inv.leave (h : Inv pool s) (hpc : t.pc = fun i => State.leave (s.pc i))
    (hgathered : ∀ i < pool.nrThreads, State.leave (s.pc i) = .idle)
    (hmapping : t.mapping = s.mapping) (hlocks : t.segmentLocks = s.segmentLocks)
    (hdirty : ∀ m, Dirty t m → Dirty s m)
    (hlisted : ∀ id, ∀ block ∈ t.flushBlocks id, Dirty t (segmentOf block))
    (hempty : ∀ id, t.addressBuffer id = [])
    (hskip : t.skipCopyOnWrite = true → pool.nrBack = pool.nrSegments)
    (hprogress : t.checkpointInProgress = false) : Inv pool t := by
  refine h.letGo hpc (fun _ => Pc.leave_of_background) (fun i hi => ?_) hmapping hlocks hdirty hlisted
    hempty hskip (fun i hi => ?_) ?_
  · have hidle := hgathered i hi
    cases hs : s.pc i with
    | alloc =>
        rw [hs] at hidle
        cases hidle
    | _ => rfl
  · rw [hgathered i hi]
    trivial
  · rw [hprogress, hpc]
    refine coordinated_of_none fun i hi => ?_
    rw [hgathered i hi]
    exact ⟨rfl, rfl⟩

theorem Inv.gathered (h : Inv pool s) {place : LeadPc} (hold : s.pc tid = .lead place) :
    tid < pool.nrThreads ∧ ∀ i < pool.nrThreads, i ≠ tid → (s.pc i).hasArrived = true :=
  ⟨h.lt_of_background hold rfl, h.coordinated.leading tid (h.lt_of_background hold rfl) (by rw [hold]; rfl)⟩

theorem Pc.waits_of_hasArrived (h : pc.hasArrived = true) :
    pc.leads = false ∧ pc.writes = false ∧ pc.progresses = false ∧ pc.midBind = false := by
  cases pc with
  | arrived => exact ⟨rfl, rfl, rfl, rfl⟩
  | _ => cases h

theorem Pc.leave_of_hasArrived (h : pc.hasArrived = true) : State.leave pc = .idle := by
  cases pc with
  | arrived => rfl
  | _ => cases h

theorem Inv.leave_gathered (h : Inv pool s) {place : LeadPc} (hold : s.pc tid = .lead place) :
    ∀ i < pool.nrThreads, State.leave (s.pc i) = .idle := by
  intro i hi
  by_cases hit : i = tid
  · rw [hit, hold]
    rfl
  · exact Pc.leave_of_hasArrived ((h.gathered hold).2 i hi hit)

theorem coordinated_of_leader {pcs : Nat → Pc} {inProgress : Bool} (htid : tid < pool.nrThreads)
    (hwrites : pc.writes = false)
    (hothers : ∀ i < pool.nrThreads, i ≠ tid → (pcs i).hasArrived = true)
    (hprogress : inProgress = true → pc.progresses = true) :
    Coordinated pool (Function.update pcs tid pc) inProgress := by
  have hwaits : ∀ i < pool.nrThreads, i ≠ tid → (Function.update pcs tid pc i).hasArrived = true := by
    intro i hi hne
    rw [Function.update_of_ne hne]
    exact hothers i hi hne
  refine ⟨fun i hi hl j hj hne => ?_, fun i hi hw j hj => ?_, fun hp => ⟨tid, htid, ?_⟩⟩
  · by_cases hit : i = tid
    · exact hwaits j hj (hit ▸ hne)
    · rw [(Pc.waits_of_hasArrived (hwaits i hi hit)).1] at hl
      cases hl
  · by_cases hit : i = tid
    · rw [hit, Function.update_self, hwrites] at hw
      cases hw
    · rw [(Pc.waits_of_hasArrived (hwaits i hi hit)).2.1] at hw
      cases hw
  · rw [Function.update_self]
    exact hprogress hp

/-! ## The checkpoint -/

theorem Inv.drained_of_lead (h : Inv pool s) {place : LeadPc} (hold : s.pc tid = .lead place)
    (hplace : (Pc.lead place).drained = true) : ∀ id, s.addressBuffer id = [] :=
  h.drained tid (h.gathered hold).1 (by rw [hold]; exact hplace)

theorem Inv.quiet (h : Inv pool s) {place : LeadPc} (hold : s.pc tid = .lead place)
    (hplace : (Pc.lead place).progresses = false) : s.checkpointInProgress = false := by
  refine Bool.eq_false_iff.mpr fun hprogress => ?_
  obtain ⟨i, hi, hin⟩ := h.coordinated.progress hprogress
  by_cases hit : i = tid
  · rw [hit, hold, hplace] at hin
    cases hin
  · rw [(Pc.waits_of_hasArrived ((h.gathered hold).2 i hi hit)).2.2.1] at hin
    cases hin

theorem Inv.begin (h : Inv pool s) {place place' : LeadPc} (hold : s.pc tid = .lead place)
    {mode : FlushMode} {skip : Bool} (hskip : skip = true → pool.nrBack = pool.nrSegments)
    (hplace : (Pc.lead place).drained = true) (hplace' : (Pc.lead place').progresses = true)
    (hsound : PcSound pool s tid (.lead place')) :
    Inv pool ({ s with
      flushMode := mode
      checkpointInProgress := true
      skipCopyOnWrite := skip }.goto tid (.lead place')) := by
  have hempty := h.drained_of_lead hold hplace
  obtain ⟨htid, hothers⟩ := h.gathered hold
  refine h.step rfl ⟨fun _ _ hl _ => hl, fun _ hl _ => hl, Or.inl ⟨rfl, rfl⟩, fun _ => Or.inl rfl,
    fun m hclean hd => absurd hd hclean, fun _ hd => hd⟩
    (hsound.rely ⟨fun _ hl => hl, fun hl => ⟨hl, rfl, rfl⟩, fun _ _ => rfl, fun _ _ _ hl => hl,
      fun _ hl => hl⟩) (fun hfree => h.inverse (midBind_update rfl (by rw [hold]; rfl) hfree)) h.owned
    h.bound h.full h.listed h.buffered (fun _ _ _ => hempty) hskip
    (fun _ hback => by rw [hold] at hback; cases hback)
    (coordinated_of_leader htid rfl hothers fun _ => hplace')

theorem Inv.leadStep (h : Inv pool s) {place : LeadPc} (hold : s.pc tid = .lead place) (hstep : s.leadStep pool tid place = some t) :
    Inv pool t ∧ t.mapping = s.mapping := by
  have hplace := h.sound tid
  rw [hold] at hplace
  cases place with
  | drain blocks =>
      cases blocks with
      | nil =>
          obtain rfl := Option.some.inj hstep
          exact ⟨h.fill hold h.listed (fun _ _ ha => by cases ha) (fun _ _ _ _ => rfl) trivial rfl
            ⟨rfl, rfl, rfl, rfl⟩ fun hb => hb, rfl⟩
      | cons block blocks =>
          obtain rfl := Option.some.inj hstep
          exact h.record hold (hplace block (List.mem_cons_self ..))
            (fun b hb => hplace b (List.mem_cons_of_mem _ hb)) rfl ⟨rfl, rfl, rfl, rfl⟩ (fun hd => hd)
            fun hb => hb
  | busy =>
      obtain rfl := Option.some.inj hstep
      exact ⟨h.move hold trivial rfl ⟨rfl, rfl, rfl, rfl⟩ (fun hd => hd) fun hb => hb, rfl⟩
  | choose threadBusy =>
      simp only [State.leadStep] at hstep
      split at hstep
      · obtain rfl := Option.some.inj hstep
        have hidle := h.quiet hold rfl
        exact ⟨h.leave rfl (h.leave_gathered hold) rfl rfl (fun _ hd => hd) h.listed
          (h.drained_of_lead hold rfl) h.skip hidle, rfl⟩
      · split at hstep
        · obtain rfl := Option.some.inj hstep
          exact ⟨h.begin hold (fun hskip => by cases hskip) rfl rfl trivial, rfl⟩
        · obtain rfl := Option.some.inj hstep
          exact ⟨h.begin hold (fun hskip => (of_decide_eq_true hskip).symm) rfl rfl trivial, rfl⟩
  | mutex =>
      simp only [State.leadStep] at hstep
      split at hstep
      · cases hstep
      · obtain rfl := Option.some.inj hstep
        exact ⟨h.idle hold rfl ⟨rfl, rfl, rfl, rfl, rfl, rfl⟩ rfl rfl rfl trivial rfl
          ⟨rfl, rfl, rfl, rfl⟩ (fun hd => hd) fun hb => hb, rfl⟩
  | commit =>
      have hempty := h.drained_of_lead hold rfl
      simp only [State.leadStep] at hstep
      split at hstep
      · obtain rfl := Option.some.inj hstep
        refine ⟨h.leave rfl (h.leave_gathered hold) rfl rfl (fun m hd => ?_) (fun _ _ hb => by cases hb)
          hempty h.skip rfl, rfl⟩
        change (s.segmentDirty.clearRegion 0 pool.nrSegments).test m = true at hd
        rw [AtomicBitSet.test_clearRegion, Bool.and_eq_true] at hd
        exact hd.2
      · obtain rfl := Option.some.inj hstep
        have hplaces : ∀ i < pool.nrThreads, ∃ id, State.enterWriteBack pool.nrCallers s.flushBlocks
            (s.pc i) = .writeBack id ((bucketsOf id pool.nrCallers).flatMap s.flushBlocks) := by
          intro i hi
          by_cases hit : i = tid
          · rw [hit, hold]
            exact ⟨0, rfl⟩
          · have harrived := (h.gathered hold).2 i hi hit
            cases hs : s.pc i with
            | arrived id => exact ⟨id, rfl⟩
            | _ =>
                rw [hs] at harrived
                cases harrived
        refine ⟨h.letGo rfl (fun _ => Pc.enterWriteBack_of_background) (fun i hi => ?_) rfl rfl
          (fun _ hd => hd) h.listed hempty h.skip (fun i hi => ?_) ⟨fun i hi hl => ?_,
            fun i hi hw j hj => ?_, fun _ => ⟨tid, (h.gathered hold).1, ?_⟩⟩, rfl⟩
        · by_cases hit : i = tid
          · rw [hit, hold]
            rfl
          · exact (Pc.waits_of_hasArrived ((h.gathered hold).2 i hi hit)).2.2.2
        · obtain ⟨id, hid⟩ := hplaces i hi
          rw [hid]
          intro block hb
          obtain ⟨id', -, hb⟩ := List.mem_flatMap.mp hb
          exact h.listed id' block hb
        · obtain ⟨id, hid⟩ := hplaces i hi
          change (State.enterWriteBack pool.nrCallers s.flushBlocks (s.pc i)).leads = true at hl
          rw [hid] at hl
          cases hl
        · obtain ⟨id, hid⟩ := hplaces j hj
          change (State.enterWriteBack pool.nrCallers s.flushBlocks (s.pc j)).writes = true
          rw [hid]
          rfl
        · obtain ⟨id, hid⟩ := hplaces tid (h.gathered hold).1
          change (State.enterWriteBack pool.nrCallers s.flushBlocks (s.pc tid)).progresses = true
          rw [hid]
          rfl

theorem gathered_of_count (h : s.countThreads pool Pc.hasArrived = pool.nrThreads) :
    ∀ i < pool.nrThreads, (s.pc i).hasArrived = true := by
  intro i hi
  rw [State.countThreads] at h
  nth_rewrite 2 [← List.length_range (n := pool.nrThreads)] at h
  exact List.length_filter_eq_length_iff.mp h i (List.mem_range.mpr hi)

theorem Inv.arrivedStep (h : Inv pool s) {id : Nat} (hcollective : Collective pool)
    (hold : s.pc tid = .arrived id) (hstep : s.advance pool tid = some t) :
    Inv pool t ∧ t.mapping = s.mapping := by
  simp only [State.advance, hold] at hstep
  split at hstep
  · rename_i hall
    obtain rfl := Option.some.inj hstep
    have hgathered := gathered_of_count (hall.2.trans hcollective)
    have htid := h.lt_of_background hold rfl
    have hidle : s.checkpointInProgress = false := by
      refine Bool.eq_false_iff.mpr fun hprogress => ?_
      obtain ⟨i, hi, hin⟩ := h.coordinated.progress hprogress
      rw [(Pc.waits_of_hasArrived (hgathered i hi)).2.2.1] at hin
      cases hin
    have hcoordinated : Coordinated pool (Function.update s.pc tid
        (.lead (.drain (s.bufferedAddresses.map (· >>> kBlockShift))))) s.checkpointInProgress := by
      refine coordinated_of_leader htid rfl (fun i hi _ => hgathered i hi) fun hprogress => ?_
      rw [hidle] at hprogress
      cases hprogress
    refine ⟨h.step rfl ⟨fun _ _ hl _ => hl, fun _ hl _ => hl, Or.inl ⟨rfl, rfl⟩, fun _ => Or.inl rfl,
      fun m hclean hd => absurd hd hclean, fun _ hd => hd⟩ (fun block hb => ?_)
      (fun hfree => h.inverse (midBind_update rfl (by rw [hold]; rfl) hfree)) h.owned h.bound h.full
      h.listed h.buffered (fun i hi hd => ?_) h.skip
      (fun _ hback => by rw [hold] at hback; cases hback)
      hcoordinated, rfl⟩
    · obtain ⟨addr, ha, rfl⟩ := List.mem_map.mp hb
      obtain ⟨id', -, ha⟩ := List.mem_flatMap.mp ha
      exact h.buffered id' addr ha
    · change (Function.update s.pc tid _ i).drained = true at hd
      by_cases hit : i = tid
      · rw [hit, Function.update_self] at hd
        cases hd
      · rw [Function.update_of_ne hit] at hd
        exact h.drained i hi hd
  · cases hstep

theorem Inv.writeBackStep (h : Inv pool s) {id : Nat} {blocks : List Nat}
    (hold : s.pc tid = .writeBack id blocks) (hstep : s.advance pool tid = some t) :
    Inv pool t ∧ t.mapping = s.mapping := by
  have hdirty := h.sound tid
  rw [hold] at hdirty
  cases blocks with
  | nil =>
      simp only [State.advance, hold] at hstep
      obtain rfl := Option.some.inj hstep
      exact ⟨h.move hold trivial rfl ⟨rfl, rfl, rfl, rfl⟩ (fun hd => hd) fun hb => hb, rfl⟩
  | cons block blocks =>
      have hbound := h.bound _ (hdirty block (List.mem_cons_self ..))
      rw [segmentOf_eq] at hbound
      obtain ⟨b, hb⟩ := Option.ne_none_iff_exists'.mp hbound
      simp only [State.advance, hold, hb] at hstep
      obtain rfl := Option.some.inj hstep
      exact ⟨h.move hold (fun b hb => hdirty b (List.mem_cons_of_mem _ hb)) rfl ⟨rfl, rfl, rfl, rfl⟩
        (fun hd => hd) fun hb => hb, rfl⟩

/-- Dirty bits are cleared and nothing else changes that the invariant is about. -/
structure Cleared (s t : State) : Prop where
  pc : t.pc = s.pc
  mapping : t.mapping = s.mapping
  locks : t.segmentLocks = s.segmentLocks
  addressBuffer : t.addressBuffer = s.addressBuffer
  skip : t.skipCopyOnWrite = s.skipCopyOnWrite
  dirty : ∀ m, Dirty t m → Dirty s m

theorem cleared_clearDirtyBits : Cleared s s.clearDirtyBits := by
  unfold State.clearDirtyBits
  generalize s.listedBlocks = blocks
  induction blocks generalizing s with
  | nil => exact ⟨rfl, rfl, rfl, rfl, rfl, fun _ hd => hd⟩
  | cons block blocks ih =>
      rw [List.foldl_cons]
      refine ⟨ih.pc, ih.mapping, ih.locks, ih.addressBuffer, ih.skip, fun m hd => ?_⟩
      have hfirst := ih.dirty m hd
      rw [Dirty, AtomicBitSet.test_clearAll, Bool.and_eq_true] at hfirst
      exact hfirst.2

theorem Inv.writtenStep (h : Inv pool s) {id : Nat} (hold : s.pc tid = .written id)
    (hstep : s.advance pool tid = some t) : Inv pool t ∧ t.mapping = s.mapping := by
  simp only [State.advance, hold] at hstep
  split at hstep
  · rename_i hall
    obtain rfl := Option.some.inj hstep
    have htid := h.lt_of_background hold rfl
    have hwrites := h.coordinated.writing tid htid (by rw [hold]; rfl)
    have hgathered : ∀ i < pool.nrThreads, State.leave (s.pc i) = .idle := by
      intro i hi
      have hwritten : (!(s.pc i).writes || (s.pc i).hasWritten) = true :=
        List.all_eq_true.mp hall.2 i (List.mem_range.mpr hi)
      rw [hwrites i hi, Bool.not_true, Bool.false_or] at hwritten
      cases hs : s.pc i with
      | written => rfl
      | _ =>
          rw [hs] at hwritten
          cases hwritten
    have hcleared := cleared_clearDirtyBits (s := s.commitLayoutState .back)
    refine ⟨h.leave ?_ hgathered hcleared.mapping hcleared.locks hcleared.dirty
      (fun _ _ hb => by cases hb) (fun id' => ?_) (fun hskip => ?_) rfl, hcleared.mapping⟩
    · change (fun i => State.leave ((s.commitLayoutState .back).clearDirtyBits.pc i)) = _
      rw [hcleared.pc]
      rfl
    · change (s.commitLayoutState .back).clearDirtyBits.addressBuffer id' = []
      rw [hcleared.addressBuffer]
      exact h.drained tid htid (by rw [hold]; rfl) id'
    · change (s.commitLayoutState .back).clearDirtyBits.skipCopyOnWrite = true at hskip
      rw [hcleared.skip] at hskip
      exact h.skip hskip
  · cases hstep

/-! ## Runs -/

theorem Inv.advance (h : Inv pool s) (hcollective : Collective pool)
    (hstep : s.advance pool tid = some t) : Inv pool t ∧ Keeps s t := by
  have hkeep : Inv pool t ∧ t.mapping = s.mapping → Inv pool t ∧ Keeps s t := fun hinv =>
    ⟨hinv.1, keeps_of_same hinv.2⟩
  cases hold : s.pc tid with
  | idle =>
      simp only [State.advance, hold] at hstep
      cases hstep
  | hook => exact hkeep (h.hookStep hold hstep)
  | mark =>
      simp only [State.advance, hold] at hstep
      obtain rfl := Option.some.inj hstep
      exact hkeep ⟨h.markStep hold, rfl⟩
  | record => exact hkeep (h.recordStep hold hstep)
  | lazy =>
      simp only [State.advance, hold] at hstep
      exact hkeep (h.lazyStep hold hstep)
  | alloc =>
      simp only [State.advance, hold] at hstep
      exact h.allocStep hold hstep
  | asleep => exact hkeep (h.cleanerStep (Or.inl hold) hstep)
  | scan => exact hkeep (h.cleanerStep (Or.inr hold) hstep)
  | arrived => exact hkeep (h.arrivedStep hcollective hold hstep)
  | lead =>
      simp only [State.advance, hold] at hstep
      exact hkeep (h.leadStep hold hstep)
  | writeBack => exact hkeep (h.writeBackStep hold hstep)
  | written => exact hkeep (h.writtenStep hold hstep)

theorem Inv.enter (h : Inv pool s) (hin : tid < pool.nrThreads) (hold : s.pc tid = .idle) (next : Nat)
    (hsound : PcSound pool s tid pc) (hleads : pc.leads = false) (hwrites : pc.writes = false) :
    Inv pool ({ s with nextThreadId := next }.goto tid pc) := by
  obtain ⟨hidle, hnone⟩ := h.coordinated.free hin (by rw [hold]; exact ⟨rfl, rfl, rfl⟩)
  have hnone' : ∀ i < pool.nrThreads, (Function.update s.pc tid pc i).leads = false ∧
      (Function.update s.pc tid pc i).writes = false := by
    intro i hi
    by_cases hit : i = tid
    · rw [hit, Function.update_self]
      exact ⟨hleads, hwrites⟩
    · rw [Function.update_of_ne hit]
      exact hnone i hi
  refine h.step rfl ⟨fun _ _ hl _ => hl, fun _ hl _ => hl, Or.inl ⟨rfl, rfl⟩, fun _ => Or.inl rfl,
    fun m hclean hd => absurd hd hclean, fun _ hd => hd⟩
    (hsound.rely ⟨fun _ hl => hl, fun hl => ⟨hl, rfl, rfl⟩, fun _ _ => rfl, fun _ _ _ hl => hl,
      fun _ hl => hl⟩) (fun hfree => h.inverse (midBind_update rfl (by rw [hold]; rfl) hfree)) h.owned
    h.bound h.full h.listed h.buffered (fun i hi hd => ?_) h.skip
    (fun hge => absurd hin (Nat.not_lt_of_le hge)) ?_
  · rcases Pc.leads_or_writes_of_drained hd with hl | hw
    · have hfalse := hl.symm.trans (hnone' i hi).1
      cases hfalse
    · have hfalse := hw.symm.trans (hnone' i hi).2
      cases hfalse
  · change Coordinated pool _ s.checkpointInProgress
    rw [hidle]
    exact coordinated_of_none hnone'

theorem Inv.call (h : Inv pool s) {label : Label} (hin : label.tid < pool.nrThreads)
    (hold : s.pc label.tid = .idle) (hstep : s.call pool label = some t) :
    Inv pool t ∧ t.mapping = s.mapping := by
  cases label with
  | advance => cases hstep
  | hook tid call =>
      simp only [State.call] at hstep
      split at hstep
      · rename_i hvalid
        obtain rfl := Option.some.inj hstep
        exact ⟨h.enter hin hold s.nextThreadId ⟨HookCall.segments_lt hvalid.1 hvalid.2,
          fun _ hm => hm, fun _ hm => Or.inl hm⟩ rfl rfl, rfl⟩
      · cases hstep
  | lazyWriteBack tid m onDemand =>
      simp only [State.call] at hstep
      split at hstep
      · rename_i hm
        obtain rfl := Option.some.inj hstep
        exact ⟨h.enter hin hold s.nextThreadId ⟨⟨fun _ => hm, trivial⟩, trivial⟩ rfl rfl, rfl⟩
      · cases hstep
  | checkpoint tid =>
      simp only [State.call] at hstep
      split at hstep
      · obtain rfl := Option.some.inj hstep
        exact ⟨h.enter hin hold _ trivial rfl rfl, rfl⟩
      · cases hstep

theorem Inv.run (h : Inv pool s) (hcollective : Collective pool) {label : Label}
    (hstep : s.step pool label = some t) : Inv pool t ∧ Keeps s t := by
  unfold State.step at hstep
  split at hstep
  · cases hstep
  · split at hstep
    · split at hstep
      · exact h.advance hcollective hstep
      · cases hstep
    · split at hstep
      · rename_i hfree
        obtain ⟨hinv, hsame⟩ := h.call hfree.1 hfree.2 hstep
        exact ⟨hinv, keeps_of_same hsame⟩
      · cases hstep

theorem init_mainToBack {m b : Nat} : (State.init pool).mapping.mainToBack m = some b ↔
    b < pool.nrBack ∧ pool.image (.backToMain b) = some m :=
  openMainToBack_eq_some pool.inj

theorem init_backToMain {m b : Nat} : (State.init pool).mapping.backToMain b = some m ↔
    b < pool.nrBack ∧ pool.image (.backToMain b) = some m := by
  change (if b < pool.nrBack then pool.image (.backToMain b) else none) = some m ↔ _
  split
  · rename_i hb
    simp [hb]
  · rename_i hb
    simp [hb]

theorem init_full (hfull : pool.nrBack = pool.nrSegments) :
    ∀ m < pool.nrSegments, (State.init pool).mapping.mainToBack m ≠ none := by
  choose owner howner using fun b : Fin pool.nrBack => pool.owned b b.isLt
  have hinj : Function.Injective fun b => (⟨owner b, (howner b).1⟩ : Fin pool.nrSegments) := by
    intro b b' heq
    have hsame : owner b = owner b' := Fin.mk.inj heq
    exact Fin.ext (pool.inj b b.isLt b' b'.isLt _ (howner b).2 (hsame ▸ (howner b').2))
  have hbij := (Fintype.bijective_iff_injective_and_card _).mpr ⟨hinj, by simp [hfull]⟩
  intro m hm hnone
  obtain ⟨b, hb⟩ := hbij.2 ⟨m, hm⟩
  have hsome := init_mainToBack.mpr ⟨b.isLt, (howner b).2⟩
  rw [Fin.mk.inj hb, hnone] at hsome
  cases hsome

theorem inv_init (pool : Pool) : Inv pool (.init pool) := by
  have hclean : ∀ m, ¬ Dirty (.init pool) m := by
    intro m hd
    change AtomicBitSet.allocate.test m = true at hd
    rw [AtomicBitSet.test_allocate] at hd
    cases hd
  have hplaces : ∀ i, (State.init pool).pc i = .asleep 0 ∨ (State.init pool).pc i = .idle := by
    intro i
    change (if i = pool.nrThreads then Pc.asleep 0 else .idle) = _ ∨
      (if i = pool.nrThreads then Pc.asleep 0 else .idle) = _
    split
    · exact Or.inl rfl
    · exact Or.inr rfl
  refine ⟨fun i => ?_, fun _ m b => ?_, fun b hb => ?_, fun m hm => absurd hm (hclean m), init_full,
    fun _ _ hb => (by cases hb), fun _ _ ha => (by cases ha), fun _ _ _ _ => rfl,
    fun hskip => (by cases hskip), fun i _ => ?_, coordinated_of_none fun i _ => ?_⟩
  · rcases hplaces i with hi | hi <;> rw [hi] <;> trivial
  · rw [init_mainToBack, init_backToMain]
  · obtain ⟨m, hm, howner⟩ := pool.owned b hb
    exact ⟨m, hm, init_backToMain.mpr ⟨hb, howner⟩⟩
  · rcases hplaces i with hi | hi <;> rw [hi] <;> rfl
  · rcases hplaces i with hi | hi <;> rw [hi] <;> exact ⟨rfl, rfl⟩

/-- Also in the middle of `bind_back_segment` no segment has two back segments. -/
theorem Inv.injective (h : Inv pool s) {b b' m : Nat} (hb : s.mapping.backToMain b = some m)
    (hb' : s.mapping.backToMain b' = some m) : b = b' := by
  by_cases hfree : ∀ i, (s.pc i).midBind = false
  · have hbound := (h.inverse hfree m b).mpr hb
    rw [(h.inverse hfree m b').mpr hb'] at hbound
    exact (Option.some.inj hbound).symm
  · push Not at hfree
    obtain ⟨i, hi⟩ := hfree
    replace hi := eq_true_of_ne_false hi
    have hpc := h.sound i
    cases hs : s.pc i with
    | alloc place caller =>
        rw [hs] at hi hpc
        cases caller with
        | writeBack => exact hpc.elim
        | lazy w =>
            obtain ⟨-, -, -, -, hplace⟩ := hpc
            cases place with
            | storeOwner => exact hplace.2.1.injective hplace.2.2.1 hb hb'
            | storeMain =>
                obtain ⟨hsearch, hexcept, howner, -⟩ := hplace
                refine hexcept.injective (fun old hold => ?_) hb hb'
                obtain rfl := Option.some.inj (howner.symm.trans hold)
                exact hsearch.2
            | _ => cases hi
    | _ =>
        rw [hs] at hi
        cases hi

theorem Inv.toSound (h : Inv pool s) (hsettled : s.Settled pool) : s.Sound pool := by
  have hinverse := h.inverse_of_gathered fun i hi => hsettled i hi.le
  refine ⟨hinverse, fun b hb => ?_, h.bound⟩
  obtain ⟨m, hm, howner⟩ := h.owned b hb
  refine ⟨m, hm, fun m' => ?_⟩
  rw [hinverse m' b, howner, Option.some_inj]
  exact eq_comm

/-- The mapping is kept if all application threads take part in each checkpoint. -/
theorem backSegmentsKept_of_collective : MappingKept Collective := by
  intro pool hcollective s hs
  have hinv : Inv pool s := hs.invariant (inv_init pool) fun s label t hinv _ hstep =>
    (hinv.run hcollective hstep).1
  exact ⟨hinv.toSound, ⟨hinv.owned, fun _ _ _ => hinv.injective⟩,
    fun label t hstep => (hinv.run hcollective hstep).2⟩

/-! ## A thread that is not part of the checkpoint -/

/-- Two of three segments have a back segment.  One of three threads calls `checkpoint`. -/
def apart : Pool where
  nrSegments := 3
  nrBack := 2
  nrThreads := 3
  nrCallers := 1
  image := initialImage 2
  segmentState := fun _ => .back
  owned b hb := ⟨b, by omega, initialImage_backToMain.mpr ⟨hb, rfl⟩⟩
  inj _ _ _ _ _ hb hb' := (initialImage_backToMain.mp hb).2.trans (initialImage_backToMain.mp hb').2.symm

/-- Thread 0 hooks a store to segment 1, and thread 1 has found the back segment of segment 0
when thread 0 starts a checkpoint.  Then thread 2 takes that back segment. -/
def takesBack : List Label :=
  [.hook 0 ⟨kSegmentSize, 8⟩] ++ List.replicate 7 (.advance 0) ++
  [.lazyWriteBack 1 0 true] ++ List.replicate 3 (.advance 1) ++
  [.checkpoint 0] ++ List.replicate 5 (.advance 0) ++
  [.lazyWriteBack 2 2 true] ++ List.replicate 11 (.advance 2) ++ [.advance 1]

theorem exec_takesBack : ((machine apart).exec takesBack (.init apart)).map (fun t =>
    (decide (t.Settled apart), t.segmentDirty.test 0, t.mapping.mainToBack 0)) =
      some (true, true, none) := by
  decide +kernel

/-- The dirty segment has no back segment. -/
theorem not_backSegmentsKept : ¬ MappingKept fun _ => True := by
  intro hkept
  obtain ⟨t, hexec, hend⟩ := Option.map_eq_some_iff.mp exec_takesBack
  have hstart : (machine apart).Reaches (fun _ _ => True) (.init apart) := .init
  obtain ⟨hsettled, hend⟩ := Prod.mk.inj hend
  obtain ⟨hdirty, hnone⟩ := Prod.mk.inj hend
  have hsound := (hkept apart trivial t (hstart.exec hexec)).1 (of_decide_eq_true hsettled)
  exact hsound.bound 0 hdirty hnone

end Libcrpm.NvmMapping
