import Libcrpm.HybridRound

/-!
# Runs of the hybrid engine

Hooked stores, rounds and orderly reopenings in any order, from a new pool with a back
segment for every segment.  Beside the engine a run keeps the content of the last round,
the blocks that round has left stale in one copy, and when each segment was dirty last.
-/

namespace Libcrpm.HybridInst

open Libcrpm.Persistence Libcrpm.Program CheckpointImage

variable {n nb : Nat} {X : Content} {e : Nat} {c : Nat → SegmentState} {stale : Nat → Prop}
  {t u : HybridInst}

/-! ## Calls -/

/-- A store of thread `tid` to some words of `len` bytes at `addr`. -/
structure StoreCall where
  tid : Nat
  addr : Nat
  len : Nat
  words : List WordStore

namespace StoreCall

def prog (call : StoreCall) : Prog HybridInst Unit :=
  hookedStore call.tid call.addr call.len call.words

structure Valid (n : Nat) (call : StoreCall) : Prop where
  tid : call.tid < kMaxThreads
  pos : 0 < call.len
  inPool : call.addr + call.len ≤ n * kSegmentSize
  words : ∀ w ∈ call.words, w.Within call.addr call.len

end StoreCall

structure CheckpointCall where
  leader : Nat
  nrThreads : Nat
  firstSchedule : List Nat
  secondSchedule : List Nat

namespace CheckpointCall

def prog (call : CheckpointCall) : Prog HybridInst Unit :=
  checkpoint call.leader call.nrThreads call.firstSchedule call.secondSchedule

structure Valid (call : CheckpointCall) : Prop where
  leader : call.leader < kMaxThreads
  threads : 0 < call.nrThreads

end CheckpointCall

/-! ## Histories -/

/-- What a run records: working memory at the last checkpoint, the blocks that are stale in
one copy, the number of rounds since the pool was opened, and the last of these rounds in
which each segment was dirty. -/
structure History where
  content : Content
  stale : Nat → Prop
  round : Nat
  last : Nat → Option Nat

namespace History

def opened (X : Content) : History := ⟨X, fun _ => False, 0, fun _ => none⟩

open Classical in
/-- The history once a checkpoint called in `t` has returned in `u`. -/
noncomputable def checkpoint (h : History) (t u : HybridInst) : History :=
  if u.flushMode = .noAction then { h with content := t.work }
  else ⟨t.work, Left u, h.round + 1,
    fun s => if TouchedSegment t s then some (h.round + 1) else h.last s⟩

/-- What is stale is dirty again or the round brings it up to date. -/
def CaughtUp (h : History) (t : HybridInst) : Prop :=
  ∀ block, h.stale block → Touched t block ∨ t.flushMode = .wbinvd

/-- A dirty segment was dirty in the last round or an even number of rounds ago.  One that
was not dirty since the pool was opened is new, or the number of this round is odd. -/
def InTurn (h : History) (t : HybridInst) : Prop :=
  ∀ s, TouchedSegment t s → match h.last s with
    | some k => k = h.round ∨ (h.round + 1 - k) % 2 = 0
    | none => t.image.getSegmentState s = .initial ∨ (h.round + 1) % 2 = 1

end History

abbrev AdmitsRound := History → HybridInst → Prop

/-- A run whose rounds meet `admits` has led to `t` with the history `h`. -/
inductive Run (n : Nat) (admits : AdmitsRound) : HybridInst → History → Prop
  | created (mode : FlushMode) : Run n admits (openNew mode n n) (.opened fun _ _ => 0#64)
  | store {t u : HybridInst} {h : History} (hrun : Run n admits t h) (call : StoreCall)
      (hvalid : call.Valid n) (hret : call.prog.run t = some ((), u)) : Run n admits u h
  | checkpoint {t u : HybridInst} {h : History} (hrun : Run n admits t h) (call : CheckpointCall)
      (hvalid : call.Valid) (hadmits : admits h t) (hret : call.prog.run t = some ((), u)) :
      Run n admits u (h.checkpoint t u)
  | reopen {t u : HybridInst} {h : History} (hrun : Run n admits t h) (mode : FlushMode)
      (hret : openExisting.run (construct mode (openImage n n t.image.mem.shutdown)) =
        some ((), u)) : Run n admits u (.opened h.content)

/-! ## The invariant -/

/-- The state of a segment follows from the round in which it was dirty last: that round
or the one after it has committed the copy it has written. -/
def stateAfter (h : History) (s : Nat) (state : SegmentState) : Prop :=
  match h.last s with
  | some k => state = targetState ((if k = h.round then k else k + 1) % 2)
  | none => state = .initial ∨ state = .main

structure Inv (n : Nat) (h : History) (e : Nat) (c : Nat → SegmentState) (t : HybridInst) :
    Prop where
  quiet : Quiet n n h.content e c h.stale t
  bound : ∀ s < n, t.image.mainToBack s ≠ none
  epoch : t.epoch = (h.round + 1) % 2
  last : ∀ s, DirtySegment t (1 - t.epoch) s ↔ h.last s = some h.round
  past : ∀ s, ∀ k ∈ h.last s, 1 ≤ k ∧ k ≤ h.round
  states : ∀ s < n, stateAfter h s (c s)

theorem quiet_construct {i : CheckpointImage} {mode : FlushMode} {work : Content} {flag : Bool}
    (h : Steady n nb X e c .main (fun _ => False) i)
    (hwork : ∀ s < n, ∀ o < kWordsPerSegment, work s o = X s o) :
    Quiet n nb X e c (fun _ => False)
      { construct mode i with work := work, hasSnapshot := flag } := by
  refine ⟨h, Or.inr rfl, fun s hs o ho _ => hwork s hs o ho, ⟨fun _ block hd => ?_, fun block hin => ?_⟩,
    fun epoch block hd => ?_, fun epoch s hd => ?_, fun _ hf => False.elim hf, fun s hd => ?_⟩
  · simp [DirtyBlock, construct] at hd
  · simp [listedBlocks, construct] at hin
  · simp [DirtyBlock, construct] at hd
  · simp [DirtySegment, construct] at hd
  · simp [DirtySegment, construct] at hd

theorem inv_opened (h : Quiet n n X e c (fun _ => False) t)
    (hbound : ∀ s < n, t.image.mainToBack s ≠ none) (hepoch : t.epoch = 1)
    (hclean : ∀ epoch s, ¬ DirtySegment t epoch s)
    (hstates : ∀ s < n, c s = .initial ∨ c s = .main) : Inv n (.opened X) e c t where
  quiet := h
  bound := hbound
  epoch := hepoch
  last s := iff_of_false (hclean _ s) (by simp [History.opened])
  past s k hk := by simp [History.opened] at hk
  states := hstates

theorem not_dirtySegment_construct {mode : FlushMode} {i : CheckpointImage} {work : Content}
    {flag : Bool} (epoch s : Nat) :
    ¬ DirtySegment { construct mode i with work := work, hasSnapshot := flag } epoch s := by
  simp [DirtySegment, construct]

theorem steady_create (n : Nat) : Steady n n (fun _ _ => 0#64) 0 (fun _ => .initial) .main
    (fun _ => False) (create n n) := by
  have hinj : InjOwners n (initialImage n) := by
    intro b hb b' hb' s hs hs'
    exact (initialImage_backToMain.mp hs).2.trans (initialImage_backToMain.mp hs').2.symm
  refine ⟨⟨⟨rfl, rfl, fun _ => rfl, fun s b => ?_, fun b hb s hs => ?_⟩, arrays_create n n,
    fun _ _ _ => Or.inr rfl⟩, fun _ _ => Or.inl rfl, fun _ _ _ => rfl, fun _ _ _ _ _ => rfl,
    fun area s _ d _ o _ _ w hw => ?_, fun _ hf => False.elim hf⟩
  · exact openMainToBack_eq_some hinj
  · have howner := (initialImage_backToMain.mp hs).2
    omega
  · exact Cell.may_durable.mp hw

theorem inv_created (n : Nat) (mode : FlushMode) :
    Inv n (.opened fun _ _ => 0#64) 0 (fun _ => .initial) (openNew mode n n) := by
  have hinj : InjOwners n (initialImage n) := by
    intro b hb b' hb' s hs hs'
    exact (initialImage_backToMain.mp hs).2.trans (initialImage_backToMain.mp hs').2.symm
  have hq : Quiet n n (fun _ _ => 0#64) 0 (fun _ => .initial) (fun _ => False)
      { construct mode (create n n) with work := fun _ _ => 0#64, hasSnapshot := false } :=
    quiet_construct (steady_create n) fun _ _ _ _ => rfl
  refine inv_opened hq (fun s hs => ?_) rfl not_dirtySegment_construct fun _ _ => Or.inl rfl
  have hsome : openMainToBack (initialImage n) n s = some s := by
    rw [openMainToBack_eq_some hinj, initialImage_backToMain]
    exact ⟨hs, hs, rfl⟩
  change openMainToBack (initialImage n) n s ≠ none
  simp [hsome]

/-! ## Reopening -/

theorem Steady.otherState_eq {fresh : Area} {i : CheckpointImage}
    (h : Steady n nb X e c fresh stale i) {s : Nat} (hs : s < n) :
    otherState i.mem.shutdown s = c s := by
  have hepoch : i.mem.shutdown .committedEpoch = e := h.arrays.epoch
  rw [otherState, hepoch]
  exact h.arrays.other s (h.nrMain.symm ▸ hs)

theorem Steady.committed {fresh : Area} {i : CheckpointImage}
    (h : Steady n nb X e c fresh stale i) :
    CheckpointImage.Committed n i.mem.shutdown e c := by
  have hcom := h.arrays.committed (Memory.crashTo_shutdown i.mem)
  rwa [h.nrMain] at hcom

theorem Steady.agrees {fresh : Area} {i : CheckpointImage}
    (h : Steady n nb X e c fresh stale i) : Agrees n i.mem.shutdown := by
  intro s hs
  have hcom := h.committed
  have hstate : committedOf i.mem.shutdown s = c s := by
    rw [committedOf, hcom.1]
    exact hcom.2 s hs
  rw [h.otherState_eq hs, hstate]

theorem Steady.restores {fresh : Area} {i : CheckpointImage}
    (h : Steady n nb X e c fresh stale i) : Restores n nb X i.mem.shutdown :=
  (h.named.holds (Memory.crashTo_shutdown i.mem)).2.restores h.agrees

theorem Steady.reopened {fresh : Area} {i j : CheckpointImage}
    (h : Steady n nb X e c fresh stale i) (hall : ∀ s < n, i.mainToBack s ≠ none)
    (hj : Recovered n nb i.mem.shutdown .main e c j) :
    Steady n nb X (nextEpoch e) (recoveredState nb i.mem.shutdown .main c) .main
      (fun _ => False) j ∧ j.mainToBack = i.mainToBack := by
  have hc : i.mem.CrashTo i.mem.shutdown := Memory.crashTo_shutdown i.mem
  have hholds := (h.named.holds hc).2
  have howners := h.toBindings.sameOwners fun l _ => hc l
  have hinj := h.toBindings.injOwners howners
  have hopen := h.toBindings.openMainToBack_eq howners
  have hbind : j.mainToBack = i.mainToBack := hj.mainToBack.trans (funext hopen)
  have hload : ∀ b, j.mem.load (.backToMain b) = i.mem.load (.backToMain b) := hj.bound
  have hsync : InSync n nb i.mem.shutdown .main c := fun s hs => Or.inl (h.otherState_eq hs)
  have hstate : ∀ s, recoveredState nb i.mem.shutdown .main c s = .initial ↔ c s = .initial := by
    intro s
    rw [recoveredState]
    split
    · rename_i howned
      exact iff_of_false (by simp) howned.2
    · exact Iff.rfl
  have hzero : ∀ area, ∀ s < n, c s = .initial → ∀ d, home i area s = some d →
      ∀ o < kWordsPerSegment, i.mem.shutdown (.word area d o) = X s o := by
    intro area s hs hinit d hd o ho
    refine (h.copies area s hs d hd o ho (Or.inr fun hst => ?_)).cur_eq
    have hnamed := h.staleNamed _ hst
    rw [segmentOf_blockOf ho, hinit] at hnamed
    exact stateOf_ne_initial fresh hnamed.symm
  have hmain : ∀ s < n, ∀ o < kWordsPerSegment, recoveredMain nb i.mem.shutdown c s o = X s o := by
    intro s hs o ho
    by_cases hinit : c s = .initial
    · rw [recoveredMain, hopen]
      cases hb : i.mainToBack s with
      | none => exact absurd hb (hall s hs)
      | some b =>
          simp only [hinit, reduceCtorEq, if_false]
          exact hzero .main s hs hinit s rfl o ho
    · exact hholds.content s hs hinit o ho
  refine ⟨⟨⟨⟨hj.nrMain, hj.nrBack, hj.boundSettled, fun s b => ?_, fun b hb s hs => ?_⟩,
    hj.arrays hsync, fun area d o => (hj.settled area d o).pending⟩, fun s hs => ?_,
    fun s hs hb => ?_, fun s hs hinit => ?_, fun area s hs d hd o ho _ => ?_,
    fun _ hf => False.elim hf⟩, hbind⟩
  · rw [hbind, hload]
    exact h.inverse s b
  · exact h.range b hb s ((hload b).symm.trans hs)
  · rw [recoveredState]
    split
    · exact Or.inr ⟨.main, rfl⟩
    · exact h.states s hs
  · exact absurd (hbind ▸ hb) (hall s hs)
  · exact h.initial s hs ((hstate s).mp hinit)
  · have honly := (hj.settled area d o).only
    have hload' : (j.mem (.word area d o)).cur = X s o := by
      cases area with
      | main =>
          obtain rfl : s = d := Option.some.inj hd
          exact (hj.load_main hinj s ho).trans (hmain s hs o ho)
      | back =>
          have hd' : i.mainToBack s = some d := by
            rw [← hbind]
            exact hd
          obtain ⟨hlt, hown⟩ := (h.inverse s d).mp hd'
          have hcopy := hj.back hinj d hlt s hown o ho
          rw [if_pos (List.mem_range.mpr hlt), recoveredBack] at hcopy
          refine hcopy.trans ?_
          have hrec := hmain s hs o ho
          rw [recoveredMain, hopen, hd'] at hrec
          rcases h.states s hs with hinit | ⟨area, harea⟩
          · rw [if_neg (by simp [hinit])]
            exact hzero .back s hs hinit d hd' o ho
          · cases area with
            | main =>
                have hm : c s = .main := harea
                simpa [hm] using hrec
            | back =>
                have hm : c s = .back := harea
                simpa [hm] using hrec
    rwa [hload'] at honly

variable {h : History} {admits : AdmitsRound}

theorem inv_reopen (hi : Inv n h e c t) {mode : FlushMode}
    (hret : openExisting.run (construct mode (openImage n n t.image.mem.shutdown)) =
      some ((), u)) :
    ∃ e' c', Inv n (.opened h.content) e' c' u := by
  have hsteady := hi.quiet.steady
  have hcom := hsteady.committed
  have hholds := (hsteady.named.holds (Memory.crashTo_shutdown _)).2
  obtain ⟨v, hrun, hv⟩ := openExisting_opened mode hholds.range hcom
  obtain rfl : v = u := by
    rw [hret] at hrun
    exact (congrArg Prod.snd (Option.some.inj hrun)).symm
  obtain ⟨hnew, hbind⟩ := hsteady.reopened hi.bound hv.recovered
  have hepoch : t.image.mem.shutdown .committedEpoch = e := hcom.1
  obtain ⟨work, flag, hconstruct⟩ := hv.opened
  have hwork : ∀ s < n, ∀ o < kWordsPerSegment, work s o = h.content s o := by
    intro s hs o ho
    have hopened := hholds.opened_work hsteady.agrees (hepoch.symm ▸ hv) hs ho
    rw [hconstruct] at hopened
    exact hopened
  have hq : Quiet n n h.content _ _ (fun _ => False)
      { construct mode _ with work := work, hasSnapshot := flag } := quiet_construct hnew hwork
  rw [← hconstruct] at hq
  have hclean : ∀ epoch s, ¬ DirtySegment v epoch s := by
    rw [hconstruct]
    exact not_dirtySegment_construct
  refine ⟨_, _, inv_opened hq (hbind ▸ hi.bound) (by rw [hconstruct]; rfl) hclean fun s hs => ?_⟩
  rw [recoveredState]
  split
  · exact Or.inr rfl
  · rename_i howned
    refine Or.inl (not_not.mp fun hne => howned ⟨?_, hne⟩)
    obtain ⟨b, hb⟩ := Option.ne_none_iff_exists'.mp (hi.bound s hs)
    exact ⟨b, (hsteady.inverse s b).mp hb⟩

theorem History.checkpoint_idle (h : History) (hmode : u.flushMode = .noAction) :
    h.checkpoint t u = { h with content := t.work } := by
  rw [History.checkpoint, if_pos hmode]

open Classical in
theorem History.checkpoint_active (h : History) (hmode : u.flushMode ≠ .noAction) :
    h.checkpoint t u = ⟨t.work, Left u, h.round + 1,
      fun s => if TouchedSegment t s then some (h.round + 1) else h.last s⟩ := by
  rw [History.checkpoint, if_neg hmode]

theorem History.checkpoint_content (h : History) (t u : HybridInst) :
    (h.checkpoint t u).content = t.work := by
  by_cases hmode : u.flushMode = .noAction
  · rw [h.checkpoint_idle hmode]
  · rw [h.checkpoint_active hmode]

theorem Inv.completed {c' : Nat → SegmentState} (hi : Inv n h e c t)
    (hu : Completed n n e c c' True t u) : Inv n (h.checkpoint t u) (nextEpoch e) c' u := by
  rw [h.checkpoint_active hu.active]
  have hepoch := hi.epoch
  refine ⟨hu.quiet trivial, hu.mainToBack ▸ hi.bound, ?_, fun s => ?_, fun s k hk => ?_, fun s hs => ?_⟩
  · rw [hu.epoch, hepoch]
    change 1 - (h.round + 1) % 2 = (h.round + 1 + 1) % 2
    omega
  · rw [hu.last]
    by_cases ht : TouchedSegment t s
    · simp [ht]
    · refine iff_of_false ht ?_
      simp only [ht, if_false]
      intro hlast
      have hle := (hi.past s (h.round + 1) hlast).2
      omega
  · simp only at hk
    split at hk
    · obtain rfl : h.round + 1 = k := Option.some.inj hk
      exact ⟨by omega, Nat.le_refl _⟩
    · have hle := hi.past s k hk
      exact ⟨hle.1, by simp only; omega⟩
  · unfold stateAfter
    by_cases ht : TouchedSegment t s
    · simp only [ht, if_true]
      rw [hu.written s (Or.inl ht), hepoch]
    · simp only [ht, if_false]
      cases hlast : h.last s with
      | none =>
          have hclean : ¬ DirtySegment t (1 - t.epoch) s := by
            rw [hi.last, hlast]
            simp
          have hold := hi.states s hs
          rw [stateAfter, hlast] at hold
          rw [hu.kept s (fun hd => hd.elim ht hclean)]
          exact hold
      | some k =>
          have hle := (hi.past s k hlast).2
          have hk : k ≠ h.round + 1 := by omega
          simp only [hk, if_false]
          by_cases hnow : k = h.round
          · have hd : DirtySegment t (1 - t.epoch) s := by
              rw [hi.last, hlast, hnow]
            rw [hu.written s (Or.inr hd), hepoch, hnow]
          · have hclean : ¬ DirtySegment t (1 - t.epoch) s := by
              rw [hi.last, hlast]
              simpa using hnow
            have hold := hi.states s hs
            simp only [stateAfter, hlast, hnow, if_false] at hold
            rw [hu.kept s (fun hd => hd.elim ht hclean)]
            exact hold

theorem Inv.idle (hi : Inv n h e c t) (hu : Idle n n e c h.stale t u) :
    Inv n (h.checkpoint t u) e c u := by
  rw [h.checkpoint_idle hu.flushMode]
  refine ⟨hu.quiet, hu.image ▸ hi.bound, hu.epoch.trans hi.epoch, fun s => ?_, hi.past, hi.states⟩
  rw [hu.last]
  exact hi.last s

theorem Inv.stored {addr len : Nat} {words : List WordStore} (hi : Inv n h e c t)
    (hu : Stored n n h.content e c h.stale addr len words t u) : Inv n h e c u := by
  refine ⟨hu.quiet, hu.image ▸ hi.bound, hu.epoch.trans hi.epoch, fun s => ?_, hi.past, hi.states⟩
  rw [hu.epoch, hu.last]
  exact hi.last s

theorem Inv.dirtyBound (hi : Inv n h e c t) (s : Nat)
    (hs : TouchedSegment t s ∨ DirtySegment t (1 - t.epoch) s) : t.image.mainToBack s ≠ none :=
  hi.bound s (hs.elim hi.quiet.touchedSegment_lt (hi.quiet.range _ s))

theorem inv_run (hcaught : ∀ h t, admits h t → h.CaughtUp t) (hrun : Run n admits t h) :
    ∃ e c, Inv n h e c t := by
  induction hrun with
  | created mode => exact ⟨_, _, inv_created n mode⟩
  | store _ call hvalid hret ih =>
      obtain ⟨e, c, hi⟩ := ih
      have hwp := wp_hookedStore hi.quiet hvalid.tid hvalid.pos hvalid.inPool hvalid.words
      have hstored := Prog.run_of_wp hwp hret
      exact ⟨e, c, hi.stored hstored⟩
  | checkpoint _ call hvalid hadmits hret ih =>
      obtain ⟨e, c, hi⟩ := ih
      have hwp := wp_checkpoint (P := False) hi.quiet hvalid.leader hvalid.threads
        call.firstSchedule call.secondSchedule hi.dirtyBound (fun _ : True => hcaught _ _ hadmits)
        False.elim
      rcases Prog.run_of_wp hwp hret with ⟨c', hu⟩ | hu
      · exact ⟨_, _, hi.completed hu⟩
      · exact ⟨_, _, hi.idle hu⟩
  | reopen _ mode hret ih =>
      obtain ⟨e, c, hi⟩ := ih
      exact inv_reopen hi hret

/-! ## A pool with two segments -/

/-- Segment 0 is dirty in round 1, then segment 1 in two rounds, and the fourth round
overwrites the copy that the second one has committed for segment 0. -/
def storeTo (s : Nat) (value : Word) : StoreCall := ⟨0, s * kSegmentSize, 8, [⟨s, 0, value⟩]⟩
def oneThread : CheckpointCall := ⟨0, 1, List.replicate 300 0, List.replicate 300 0⟩

def ranStore (call : StoreCall) (pool : Option HybridInst) : Option HybridInst :=
  pool.bind fun t => (call.prog.run t).map Prod.snd

def ranCheckpoint (pool : Option HybridInst) : Option HybridInst :=
  pool.bind fun t => (oneThread.prog.run t).map Prod.snd

def thirdRound : Option HybridInst :=
  ranStore (storeTo 1 2#64) (ranCheckpoint (ranStore (storeTo 1 1#64)
    (ranCheckpoint (ranStore (storeTo 0 1#64) (some (openNew .noAction 2 2))))))

def fourthRound : Option HybridInst := ranStore (storeTo 0 2#64) (ranCheckpoint thirdRound)

theorem storeTo_valid {s n : Nat} (hs : s < n) (value : Word) : (storeTo s value).Valid n := by
  have hroom : s * kSegmentSize + 8 ≤ n * kSegmentSize := by
    calc s * kSegmentSize + 8 ≤ s * kSegmentSize + kSegmentSize :=
          Nat.add_le_add_left (by decide) _
      _ = (s + 1) * kSegmentSize := (Nat.succ_mul _ _).symm
      _ ≤ n * kSegmentSize := Nat.mul_le_mul_right _ hs
  have htid : 0 < kMaxThreads := by decide
  have hwords : 0 < kWordsPerSegment := by decide
  refine ⟨htid, Nat.zero_lt_succ _, hroom, fun w hw => ?_⟩
  obtain rfl : w = ⟨s, 0, value⟩ := List.mem_singleton.mp hw
  refine ⟨hwords, ?_, ?_⟩
  · simp only [storeTo, offsetOf, Nat.zero_mul]
    omega
  · simp only [storeTo, offsetOf, kWordSize]
    omega

theorem oneThread_valid : oneThread.Valid := ⟨by decide, by decide⟩

theorem Run.ranStore {pool : Option HybridInst} {s : Nat} (value : Word)
    (hrun : ∀ t, pool = some t → ∃ h, Run n (fun _ _ => True) t h) (hs : s < n) :
    ∀ u, ranStore (storeTo s value) pool = some u → ∃ h, Run n (fun _ _ => True) u h := by
  intro u hu
  rw [HybridInst.ranStore, Option.bind_eq_some_iff] at hu
  obtain ⟨t, ht, hmap⟩ := hu
  obtain ⟨⟨_, _⟩, hret, rfl⟩ := Option.map_eq_some_iff.mp hmap
  obtain ⟨h, hrun⟩ := hrun t ht
  exact ⟨h, hrun.store _ (storeTo_valid hs value) hret⟩

theorem Run.ranCheckpoint {pool : Option HybridInst}
    (hrun : ∀ t, pool = some t → ∃ h, Run n (fun _ _ => True) t h) :
    ∀ u, ranCheckpoint pool = some u →
      ∃ t h, pool = some t ∧ Run n (fun _ _ => True) u h ∧ h.content = t.work := by
  intro u hu
  rw [HybridInst.ranCheckpoint, Option.bind_eq_some_iff] at hu
  obtain ⟨t, ht, hmap⟩ := hu
  obtain ⟨⟨_, _⟩, hret, rfl⟩ := Option.map_eq_some_iff.mp hmap
  obtain ⟨h, hrun⟩ := hrun t ht
  exact ⟨t, _, ht, hrun.checkpoint oneThread oneThread_valid trivial hret, h.checkpoint_content t _⟩

theorem run_thirdRound : ∀ t, thirdRound = some t → ∃ h, Run 2 (fun _ _ => True) t h := by
  have hnew : ∀ t, some (openNew .noAction 2 2) = some t → ∃ h, Run 2 (fun _ _ => True) t h := by
    rintro t ht
    obtain rfl := Option.some.inj ht
    exact ⟨_, .created .noAction⟩
  have hfirst := Run.ranCheckpoint (Run.ranStore 1#64 (s := 0) hnew (by decide))
  have hsecond := Run.ranCheckpoint (Run.ranStore 1#64 (s := 1)
    (fun t ht => (hfirst t ht).elim fun _ h => h.elim fun g hg => ⟨g, hg.2.1⟩) (by decide))
  exact Run.ranStore _ (s := 1)
    (fun t ht => (hsecond t ht).elim fun _ h => h.elim fun g hg => ⟨g, hg.2.1⟩) (by decide)

/-! ## Durability of a checkpoint -/

/-- Closing the pool right after a checkpoint has returned and opening it again yields
working memory as it was when the checkpoint was called. -/
def CheckpointsDurable (admits : AdmitsRound) : Prop :=
  ∀ n t h, Run n admits t h → ∀ call : CheckpointCall, call.Valid → admits h t →
    ∀ u, call.prog.run t = some ((), u) → Restores n n t.work u.image.mem.shutdown

theorem checkpointsDurable_of_caughtUp : CheckpointsDurable fun h t => h.CaughtUp t := by
  intro n t h hrun call hvalid hcaught u hret
  obtain ⟨e, c, hi⟩ := inv_run (fun _ _ hc => hc) hrun
  have hwp := wp_checkpoint (P := False) hi.quiet hvalid.leader hvalid.threads
    call.firstSchedule call.secondSchedule hi.dirtyBound (fun _ : True => hcaught) False.elim
  rcases Prog.run_of_wp hwp hret with ⟨c', hu⟩ | hu
  · exact (hu.quiet trivial).steady.restores
  · exact hu.quiet.steady.restores

/-! ## Atomicity of a round -/

theorem targetState_ne {epoch epoch' : Nat} (h : epoch = 0 ∨ epoch = 1) (h' : epoch' = 0 ∨ epoch' = 1)
    (hne : epoch ≠ epoch') : targetState epoch ≠ targetState epoch' := by
  rcases h with rfl | rfl <;> rcases h' with rfl | rfl <;> first | exact absurd rfl hne | decide

/-- A segment whose turn it is does not have the copy as its committed one that the round
overwrites. -/
theorem Inv.inTurn (hi : Inv n h e c t) (hturn : h.InTurn t) {s : Nat} (hs : TouchedSegment t s) :
    c s ≠ stateOf (targetArea t.epoch) := by
  have hlt := hi.quiet.touchedSegment_lt hs
  have hstate := hi.states s hlt
  have hin := hturn s hs
  rw [← targetState_eq, hi.epoch]
  unfold stateAfter at hstate
  cases hlast : h.last s with
  | none =>
      simp only [hlast] at hstate hin
      rcases hin with hinit | hodd
      · have hget : t.image.getSegmentState s = c s :=
          hi.quiet.steady.arrays.getSegmentState (hi.quiet.steady.nrMain.symm ▸ hlt)
        rw [← hget, hinit, targetState_eq]
        exact (stateOf_ne_initial _).symm
      · rw [hodd]
        rcases hstate with heq | heq <;> rw [heq] <;> decide
  | some k =>
      simp only [hlast] at hstate hin
      have hle := hi.past s k hlast
      rw [hstate]
      refine targetState_ne (Nat.mod_two_eq_zero_or_one _) (Nat.mod_two_eq_zero_or_one _) ?_
      split
      · omega
      · rcases hin with hin | hin
        · contradiction
        · omega

/-- The machine stopped with content `img` before the commit of the round in progress was
durable, at a moment when the last round had left `X`. -/
inductive Stopped (n : Nat) (admits inTurn : AdmitsRound) : NvmImage → Content → Prop
  | store {t v : HybridInst} {h : History} {img : NvmImage} (hrun : Run n admits t h)
      (call : StoreCall) (hvalid : call.Valid n) (hmid : call.prog.Mid t v)
      (hcrash : v.image.mem.CrashTo img) : Stopped n admits inTurn img h.content
  | checkpoint {t v : HybridInst} {h : History} {img : NvmImage} (hrun : Run n admits t h)
      (call : CheckpointCall) (hvalid : call.Valid) (hadmits : admits h t) (hturn : inTurn h t)
      (hmid : call.prog.Mid t v) (hcrash : v.image.mem.CrashTo img)
      (hepoch : img .committedEpoch = t.image.committedEpoch) :
      Stopped n admits inTurn img h.content

/-- Reopening after a crash restores the content of the last completed round. -/
def RoundsRecover (n : Nat) (admits inTurn : AdmitsRound) (agrees : Nat → NvmImage → Prop) :
    Prop :=
  ∀ img X, Stopped n admits inTurn img X → agrees n img → Restores n n X img

theorem roundsRecover_of_inTurn (n : Nat) :
    RoundsRecover n (fun h t => h.CaughtUp t) (fun h t => h.InTurn t) Agrees := by
  intro img X hstop hagrees
  cases hstop with
  | store hrun call hvalid hmid hcrash =>
      obtain ⟨e, c, hi⟩ := inv_run (fun _ _ hc => hc) hrun
      have hwp := wp_hookedStore hi.quiet hvalid.tid hvalid.pos hvalid.inPool hvalid.words
      have hsame := Prog.mid_of_wp hwp rfl hmid
      rw [hsame] at hcrash
      exact (hi.quiet.steady.named.holds hcrash).2.restores hagrees
  | checkpoint hrun call hvalid hcaught hturn hmid hcrash hepoch =>
      obtain ⟨e, c, hi⟩ := inv_run (fun _ _ hc => hc) hrun
      have hwp := wp_checkpoint (P := True) hi.quiet hvalid.leader hvalid.threads
        call.firstSchedule call.secondSchedule hi.dirtyBound (fun _ : True => hcaught)
        fun _ s hs => hi.inTurn hturn hs
      have hatomic := Prog.mid_of_wp hwp hi.quiet.steady.named.atomic hmid
      have hsame : img .committedEpoch = e := hepoch.trans hi.quiet.steady.arrays.epoch
      obtain ⟨c', hholds⟩ := (hatomic img hcrash).1 hsame trivial
      exact hholds.restores hagrees

/-- What is left when the machine stops in the fourth round. -/
def stoppedImage (t : HybridInst) : NvmImage :=
  (oneThread.prog.after 900 t).image.mem.shutdown

theorem not_roundsRecover :
    ¬ ∀ n, RoundsRecover n (fun _ _ => True) (fun _ _ => True) fun _ _ => True := by
  intro hrecover
  have hthird : thirdRound.map (fun t => t.work 0 0) = some 1#64 := by decide +kernel
  have hfourth : fourthRound.map (fun t => (t.image.committedEpoch, stoppedImage t .committedEpoch,
      (openExisting.run (construct .noAction (openImage 2 2 (stoppedImage t)))).map
        fun r => r.2.work 0 0)) = some (3, 3, some 2#64) := by
    decide +kernel
  obtain ⟨t, ht, hval⟩ := Option.map_eq_some_iff.mp hfourth
  rw [Prod.mk.injEq, Prod.mk.injEq] at hval
  obtain ⟨hepoch, hstop, hreopen⟩ := hval
  rw [fourthRound, ranStore, Option.bind_eq_some_iff] at ht
  obtain ⟨u, hu, hmap⟩ := ht
  obtain ⟨⟨_, _⟩, hret, rfl⟩ := Option.map_eq_some_iff.mp hmap
  obtain ⟨v, h, hv, hrun, hcontent⟩ := Run.ranCheckpoint run_thirdRound u hu
  have hold : h.content 0 0 = 1#64 := by
    rw [hv] at hthird
    rw [hcontent]
    exact Option.some.inj hthird
  have hrestore := hrecover 2 _ h.content
    (.checkpoint (hrun.store _ (storeTo_valid (by decide) _) hret) oneThread oneThread_valid trivial
      trivial (Prog.mid_after 900 _ _) (Memory.crashTo_shutdown _) (hstop.trans hepoch.symm)) trivial
  obtain ⟨w, hopen, hwork⟩ := hrestore .noAction
  have hnew := hwork 0 (by decide) 0 (by decide)
  change (openExisting.run (construct .noAction (openImage 2 2 (stoppedImage _)))) = _ at hopen
  rw [hopen] at hreopen
  have hread : w.work 0 0 = 2#64 := Option.some.inj hreopen
  rw [hread, hold] at hnew
  exact absurd hnew (by decide)

end Libcrpm.HybridInst
