import Libcrpm.HybridMpiAgreement

/-!
# Runs of a hybrid job

Orderly sessions of a job in any number, then one that crashes: whenever `OpenForMPI`
completes on all ranks after that, their working memories are those of one round.
-/

namespace Libcrpm.HybridInst

open Libcrpm.Persistence Libcrpm.Program CheckpointImage

variable {n i e r : Nat} {segments : Nat → Nat} {base : Nat → Content} {X : Content}
  {c : Nat → SegmentState} {stale : Nat → Prop} {t u : HybridInst} {J : MpiJob}
  {imgs imgs' : Nat → NvmImage} {img : NvmImage}

/-! ## Opening one pool -/

theorem Quiet.reopen (h : Quiet n n X e c stale t) (hbound : BoundAll n t) (mode : FlushMode) :
    ∃ u, openExisting.run (construct mode (openImage n n t.image.mem.shutdown)) = some ((), u) ∧
      BoundAll n u ∧ ∃ c', Quiet n n X (nextEpoch e) c' (fun _ => False) u := by
  have hsteady := h.steady
  have hcom := hsteady.committed
  have hholds := (hsteady.named.holds (Memory.crashTo_shutdown _)).2
  have hepoch : t.image.mem.shutdown .committedEpoch = e := hcom.1
  obtain ⟨u, hrun, hu⟩ := openExisting_opened mode hholds.range hcom
  obtain ⟨hnew, hbind⟩ := hsteady.reopened hbound hu.recovered
  obtain ⟨work, flag, hconstruct⟩ := hu.opened
  have hwork : ∀ s < n, ∀ o < kWordsPerSegment, work s o = X s o := by
    intro s hs o ho
    have hopened := hholds.opened_work hsteady.agrees (hepoch.symm ▸ hu) hs ho
    rw [hconstruct] at hopened
    exact hopened
  have hq : Quiet n n X _ _ (fun _ => False)
      { construct mode _ with work := work, hasSnapshot := flag } := quiet_construct hnew hwork
  rw [← hconstruct] at hq
  exact ⟨u, hrun, hbound.congr hbind, _, hq⟩

/-- The two arrays agree on what is new, whichever of them the epoch selects. -/
theorem Agrees.withEpoch (h : Agrees n img) (e : Nat) : Agrees n (withEpoch e img) := by
  intro s hs
  have hagree := h s hs
  have hword : ∀ k, CheckpointImage.withEpoch e img (.segmentState k s) = img (.segmentState k s) :=
    fun _ => rfl
  simp only [otherState, committedOf, hword, withEpoch_committedEpoch] at hagree ⊢
  rcases Nat.mod_two_eq_zero_or_one e with he | he <;>
    rcases Nat.mod_two_eq_zero_or_one (img .committedEpoch) with hi | hi <;>
      rw [he] <;> rw [hi] at hagree
  · exact hagree
  · exact hagree.symm
  · exact hagree.symm
  · exact hagree

theorem openExisting_mounted {j : CheckpointImage} (h : HoldsUnder n X e img)
    (hagree : Agrees n img) (hj : Mounted n n (CheckpointImage.withEpoch e img) j)
    (mode : FlushMode) :
    ∃ u, openExisting.run (construct mode j) = some ((), u) ∧
      ∀ s < n, ∀ o < kWordsPerSegment, u.work s o = X s o := by
  obtain ⟨c, hholds⟩ := h
  obtain ⟨k, hrun, hrec⟩ := hj.recovered .main hholds.range hholds.committed
  obtain ⟨u, hopen, hu⟩ := openExisting_of_recovered mode hrun hrec
  exact ⟨u, hopen, fun s hs o ho => hholds.opened_work (hagree.withEpoch e) hu hs ho⟩

theorem wp_of_run {σ α : Type} {p : Prog σ α} {s : σ} {a : α} {w : σ}
    (h : p.run s = some (a, w)) :
    Prog.wp (fun _ => True) p (fun b v => b = a ∧ v = w) s := by
  refine Prog.wp_mono (Prog.wp_run (Prog.wp_top p s)) fun b v ⟨hrun, _⟩ => ?_
  rw [h] at hrun
  obtain ⟨rfl, rfl⟩ := Prod.mk.inj (Option.some.inj hrun)
  exact ⟨rfl, rfl⟩

theorem wp_recoverRank {s : MpiRank} {least : Nat} {C : MpiRank → Prop}
    {Q : HybridInst → Prop} {myEpoch : Nat}
    (hC : ∀ x, C { s with engine := x })
    (hopen : ∃ u, openExisting.run (if least ≠ myEpoch then
      { s.engine with image := storeFence (storeEpoch least s.engine.image) } else s.engine) =
        some ((), u) ∧ Q u)
    (hQ : ∀ u, Q u → C { s with engine := u, opened := true }) :
    Prog.wp C (recoverRank myEpoch least)
      (fun _ v => ∃ u, Q u ∧ v = { s with engine := u, opened := true }) s := by
  obtain ⟨u, hrun, hu⟩ := hopen
  have hfinish : ∀ x : HybridInst, openExisting.run x = some ((), u) →
      Prog.wp C (onEngine openExisting >>= fun _ => Prog.act fun s => { s with opened := true })
        (fun _ v => ∃ u, Q u ∧ v = { s with engine := u, opened := true })
        { s with engine := x } := by
    intro x hx
    rw [Prog.wp_bind]
    refine Prog.wp_zoom engineLens ?_
    refine Prog.wp_mono (Prog.wp_weaken (fun y _ => hC y) (wp_of_run hx)) fun _ y ⟨_, hy⟩ => ?_
    subst hy
    exact Prog.wp_act.mpr ⟨hQ y hu, y, hu, rfl⟩
  unfold recoverRank
  by_cases hne : least ≠ myEpoch
  · rw [if_pos hne] at hrun ⊢
    rw [Prog.wp_bind]
    refine Prog.wp_zoom engineLens (wp_onImage ?_)
    rw [resetCommittedEpoch, Prog.wp_bind]
    exact Prog.wp_act.mpr ⟨hC _, Prog.wp_act.mpr ⟨hC _, hfinish _ hrun⟩⟩
  · rw [if_neg hne] at hrun ⊢
    exact hfinish _ hrun

/-! ## Sessions -/

/-- What every rank leaves that has closed its pool: its data of the last round, all
under one epoch. -/
def ClosedUnder (n : Nat) (segments : Nat → Nat) (imgs : Nat → NvmImage) (base : Nat → Content)
    (e : Nat) : Prop :=
  ∀ i < n, ∃ t c stale, imgs i = t.image.mem.shutdown ∧
    Quiet (segments i) (segments i) (base i) e c stale t ∧ BoundAll (segments i) t

theorem ClosedUnder.epoch (h : ClosedUnder n segments imgs base e) (hi : i < n) :
    imgs i .committedEpoch = e := by
  obtain ⟨t, c, stale, himg, hq, -⟩ := h i hi
  rw [himg]
  exact hq.steady.committed.1

/-- Every rank rests after a number of rounds. -/
def AllRest (n : Nat) (segments : Nat → Nat) (base : Nat → Content) (e : Nat) (J : MpiJob) : Prop :=
  ∀ i < n, ∃ r, Job.At n i r J ∧ Resting segments base e i r (J.rank i)

theorem AllRest.closed (h : AllRest n segments base e J) :
    ∃ e', ClosedUnder n segments (fun i => (J.rank i).engine.image.mem.shutdown)
      (fun i => lastContent (base i) (J.rank i).entered) e' := by
  refine ⟨roundEpoch e (J.arrived 0), fun i hi => ?_⟩
  obtain ⟨r, hat, hrest⟩ := h i hi
  obtain ⟨r₀, hat₀, -⟩ := h 0 (Nat.zero_lt_of_lt hi)
  have hround : J.arrived 0 = r := by
    have hle := hat.2 0 (Nat.zero_lt_of_lt hi)
    have hle₀ := hat₀.2 i hi
    have hr := hat.1
    have hr₀ := hat₀.1
    omega
  obtain ⟨c, stale, hq⟩ := hrest.quiet
  refine ⟨(J.rank i).engine, c, stale, rfl, ?_, hrest.bound⟩
  change Quiet _ _ (roundContent (base i) (J.rank i).entered (J.rank i).entered.length) _ _ _ _
  rw [hrest.length, hround]
  exact hq

theorem at_start (i : Nat) (J : MpiJob) (h : ∀ j, J.arrived j = 0) : Job.At n i 0 J :=
  ⟨h i, fun _ _ => Nat.zero_le _⟩

section Created

variable (segments) (modes : Nat → FlushMode)

theorem resting_created (i : Nat) :
    Resting segments (fun _ _ _ => 0#64) 0 i 0 ((createdJob segments modes).rank i) := by
  have hinv := HybridInst.inv_created (segments i) (modes i)
  exact ⟨rfl, rfl, rfl, ⟨_, _, hinv.quiet⟩, hinv.bound⟩

theorem jobInv_created : Job.Inv n (mpiPhases segments (fun _ _ _ => 0#64) 0) (fun _ => True)
    (createdJob segments modes) where
  during i _ _ := (resting_created segments modes i).during
  reached _ _ _ _ hlt := absurd hlt (Nat.lt_irrefl 0)
  near _ _ _ _ := Nat.zero_le _
  shared := trivial

theorem wp_created {calls : Nat → List MpiCall}
    (hvalid : ∀ i, ∀ c ∈ calls i, c.Valid (segments i)) (schedule : List Nat) :
    Prog.wp (Job.Inv n (mpiPhases segments (fun _ _ _ => 0#64) 0) fun _ => True)
      (Prog.par n schedule fun i => runCalls n i (calls i))
      (fun _ K => AllRest n segments (fun _ _ _ => 0#64) 0 K) (createdJob segments modes) :=
  Job.wp_job (jobInv_created segments modes) fun i hi =>
    rg_runCalls hi (at_start i _ fun _ => rfl) (resting_created segments modes i) (hvalid i)

end Created

section Started

variable (modes : Nat → FlushMode) (hclosed : ClosedUnder n segments imgs base e)

def epochsOf (imgs : Nat → NvmImage) (i : Nat) : Nat := imgs i .committedEpoch

theorem jobInv_started {P : Job.Phases MpiRank}
    (hP : ∀ i, P.during 0 i ((startedJob segments modes imgs).rank i)) :
    Job.Inv n P (Contributed (epochsOf imgs)) (startedJob segments modes imgs) where
  during i _ := hP i
  reached _ _ _ _ hlt := absurd hlt (Nat.lt_irrefl 0)
  near _ _ _ _ := Nat.zero_le _
  shared _ := Or.inl rfl

include hclosed

theorem rg_session (hi : i < n) {calls : List MpiCall}
    (hvalid : ∀ call ∈ calls, call.Valid (segments i)) :
    (session n i calls).rg (Job.Others (Contributed (epochsOf imgs)) i)
      (Job.Own n (mpiPhases segments base (nextEpoch e)) (Contributed (epochsOf imgs)) i)
      (fun _ K => ∃ r, Job.At n i r K ∧ Resting segments base (nextEpoch e) i r (K.rank i))
      (startedJob segments modes imgs) := by
  have hrefl : ∀ K : MpiJob, Job.Others (Contributed (epochsOf imgs)) i K K := Job.Others.refl
  obtain ⟨t, c, stale, himg, hq, hbound⟩ := hclosed i hi
  obtain ⟨u, hrun, hubound, c', hu⟩ := hq.reopen hbound (modes i)
  have hrest : Resting segments base (nextEpoch e) i 0 ⟨u, true, [], 0⟩ :=
    ⟨rfl, rfl, rfl, ⟨_, _, hu⟩, hubound⟩
  have hopening : ∀ x : HybridInst, (mpiPhases segments base (nextEpoch e)).during 0 i
      ⟨x, false, [], 0⟩ := fun x hopened => by cases hopened
  have hrecover : ∀ least, Least n (epochsOf imgs) least → epochsOf imgs i - least < 2 →
      Prog.wp ((mpiPhases segments base (nextEpoch e)).during 0 i)
        (recoverRank (epochsOf imgs i) least) (fun _ v => v = ⟨u, true, [], 0⟩)
        ((startedJob segments modes imgs).rank i) := by
    intro least hleast _
    have hsame : least = epochsOf imgs i := by
      obtain ⟨j, hj, heq⟩ := hleast.attained
      rw [heq, epochsOf, epochsOf, hclosed.epoch hj, hclosed.epoch hi]
    refine Prog.wp_mono (wp_recoverRank (Q := fun x => x = u) hopening ⟨u, ?_, rfl⟩ ?_)
      fun _ v ⟨x, hx, hv⟩ => ?_
    · rw [if_neg (not_not.mpr hsame)]
      change openExisting.run (construct (modes i) (openImage (segments i) (segments i) (imgs i))) = _
      rw [himg]
      exact hrun
    · intro x hx _
      subst hx
      exact hrest.during
    · subst hx
      exact hv
  refine Prog.rg_bind hrefl (Prog.rg_mono (rg_openForMpi hi (at_start i _ fun _ => rfl) rfl rfl
    (fun j => Or.inl rfl) (hopening _) hrecover) fun _ K ⟨hK, least, _, _, hrank⟩ => ?_)
  rw [← hrank] at hrest
  exact rg_runCalls hi hK hrest hvalid

theorem wp_sessions {calls : Nat → List MpiCall}
    (hvalid : ∀ i, ∀ c ∈ calls i, c.Valid (segments i)) (schedule : List Nat) :
    Prog.wp (Job.Inv n (mpiPhases segments base (nextEpoch e)) (Contributed (epochsOf imgs)))
      (Prog.par n schedule fun i => session n i (calls i))
      (fun _ K => AllRest n segments base (nextEpoch e) K) (startedJob segments modes imgs) :=
  Job.wp_job (jobInv_started modes fun _ hopened => by cases hopened) fun i hi =>
    rg_session modes hclosed hi (hvalid i)

end Started

theorem Closed.under (h : Closed n segments imgs base) :
    ∃ e, ClosedUnder n segments imgs base e := by
  induction h with
  | created modes calls hvalid schedule hret =>
      have hrest := Prog.run_of_wp (wp_created segments modes hvalid schedule) hret
      exact AllRest.closed hrest
  | reopened _ modes calls hvalid schedule hret ih =>
      obtain ⟨e, hclosed⟩ := ih
      have hrest := Prog.run_of_wp (wp_sessions modes hclosed hvalid schedule) hret
      exact AllRest.closed hrest

/-! ## A crash -/

/-- What a crash leaves: all ranks hold `X` under the epoch `e`, and one whose epoch is the
next one holds `Y` under that. -/
structure Near (n : Nat) (segments : Nat → Nat) (imgs : Nat → NvmImage) (X Y : Nat → Content)
    (e : Nat) : Prop where
  old : ∀ i < n, HoldsUnder (segments i) (X i) e (imgs i)
  new : ∀ i < n, imgs i .committedEpoch = e ∨
    (imgs i .committedEpoch = nextEpoch e ∧ HoldsUnder (segments i) (Y i) (nextEpoch e) (imgs i))

/-- A crash leaves the ranks within one round of each other. -/
theorem near_of_inv {S : (Nat → Option Nat) → Prop} (hn : 0 < n)
    (hinv : Job.Inv n (mpiPhases segments base e) S J) (hcrash : CrashTo n segments J imgs) :
    ∃ X Y e', Near n segments imgs X Y e' ∧ IsRound n J base X ∧
      ((∀ i < n, imgs i .committedEpoch = nextEpoch e') → IsRound n J base Y) := by
  obtain ⟨r, hall⟩ := hinv.aligned hn
  have hduring : ∀ i < n, DuringRound segments base e r i (J.rank i) :=
    fun i hi => hall i hi (hcrash i hi).1
  refine ⟨fun i => roundContent (base i) (J.rank i).entered r,
    fun i => roundContent (base i) (J.rank i).entered (r + 1), roundEpoch e r,
    ⟨fun i hi => ?_, fun i hi => ?_⟩, ⟨r, fun i hi => ?_⟩, fun hnew => ⟨r + 1, fun i hi => ?_⟩⟩
  · rcases (hduring i hi).2 with ⟨-, hlast⟩ | ⟨-, hbetween⟩
    · exact (hlast _ (hcrash i hi).2.1).1
    · exact (hbetween _ (hcrash i hi).2.1).1
  · rcases (hduring i hi).2 with ⟨-, hlast⟩ | ⟨-, hbetween⟩
    · exact Or.inl (hlast _ (hcrash i hi).2.1).2
    · exact (hbetween _ (hcrash i hi).2.1).2
  · have hle := (hduring i hi).1
    rcases (hduring i hi).2 with ⟨hlen, -⟩ | ⟨hlen, -⟩ <;> exact ⟨hle, by omega, rfl⟩
  · have hle := (hduring i hi).1
    rcases (hduring i hi).2 with ⟨-, hlast⟩ | ⟨hlen, -⟩
    · have hold := (hlast _ (hcrash i hi).2.1).2
      exact absurd ((hnew i hi).symm.trans hold) (nextEpoch_ne _)
    · exact ⟨Nat.le_succ_of_le hle, Nat.le_of_eq hlen.symm, rfl⟩

/-- The epochs on the media are at most one commit apart. -/
def WithinOne (n : Nat) (imgs : Nat → NvmImage) : Prop :=
  ∀ i < n, ∀ j < n, imgs i .committedEpoch = imgs j .committedEpoch ∨
    imgs i .committedEpoch = nextEpoch (imgs j .committedEpoch) ∨
    imgs j .committedEpoch = nextEpoch (imgs i .committedEpoch)

theorem Near.withinOne {X Y : Nat → Content} (h : Near n segments imgs X Y e) :
    WithinOne n imgs := by
  intro i hi j hj
  rcases h.new i hi with hepoch | ⟨hepoch, -⟩ <;>
    rcases h.new j hj with hepoch' | ⟨hepoch', -⟩ <;> rw [hepoch, hepoch']
  · exact Or.inl rfl
  · exact Or.inr (Or.inr rfl)
  · exact Or.inr (Or.inl rfl)
  · exact Or.inl rfl

/-! ## Opening after a crash -/

theorem openExisting_returns (t : HybridInst) : ∃ u, openExisting.run t = some ((), u) := by
  obtain ⟨j, hj⟩ := recovery_returns .main t.image
  have himage : (onImage (recovery .main)).run t = some ((), { t with image := j }) := by
    rw [run_onImage, hj]
    rfl
  simp only [openExisting, Prog.run_bind, himage, Option.bind_some, run_prepareWorkingMemory,
    Prog.run_act]
  exact ⟨_, rfl⟩

/-- Working memory is what the image held under the epoch `least`. -/
def Restored (n : Nat) (img : NvmImage) (least : Nat) (u : HybridInst) : Prop :=
  ∀ X, HoldsUnder n X least img → ∀ s < n, ∀ o < kWordsPerSegment, u.work s o = X s o

theorem restored_of_run {j : CheckpointImage} (hagree : Agrees n img)
    (hj : Mounted n n (CheckpointImage.withEpoch e img) j) {mode : FlushMode}
    (hrun : openExisting.run (construct mode j) = some ((), u)) : Restored n img e u := by
  intro X hX
  obtain ⟨v, hv, hwork⟩ := openExisting_mounted hX hagree hj mode
  rw [hrun] at hv
  obtain ⟨-, rfl⟩ := Prod.mk.inj (Option.some.inj hv)
  exact hwork

theorem wp_openings (modes : Nat → FlushMode) (hagree : ∀ i < n, Agrees (segments i) (imgs i))
    (schedule : List Nat) :
    Prog.wp (fun _ => True) (Prog.par n schedule (openForMpi n))
      (fun _ K => ∀ i < n, ∃ least, Least n (epochsOf imgs) least ∧ epochsOf imgs i - least < 2 ∧
        Restored (segments i) (imgs i) least (K.rank i).engine)
      (startedJob segments modes imgs) := by
  let P : Job.Phases MpiRank :=
    ⟨fun _ _ _ => True, fun _ _ _ => True, fun _ _ _ _ => trivial, fun _ _ _ _ => trivial⟩
  have hrecover : ∀ i < n, ∀ least, Least n (epochsOf imgs) least → epochsOf imgs i - least < 2 →
      Prog.wp (P.during 0 i) (recoverRank (epochsOf imgs i) least)
        (fun _ v => Restored (segments i) (imgs i) least v.engine)
        ((startedJob segments modes imgs).rank i) := by
    intro i hi least _ _
    have hopen := mounted_openImage (segments i) (segments i) (imgs i)
    obtain ⟨u, hrun⟩ := openExisting_returns (if least ≠ epochsOf imgs i then
      { ((startedJob segments modes imgs).rank i).engine with image := storeFence (storeEpoch least
        ((startedJob segments modes imgs).rank i).engine.image) }
      else ((startedJob segments modes imgs).rank i).engine)
    have hrestored : Restored (segments i) (imgs i) least u := by
      by_cases hne : least ≠ epochsOf imgs i
      · rw [if_pos hne] at hrun
        exact restored_of_run (hagree i hi) (hopen.reset least) hrun
      · rw [if_neg hne] at hrun
        have hsame : Mounted (segments i) (segments i)
            (CheckpointImage.withEpoch (epochsOf imgs i) (imgs i))
            (openImage (segments i) (segments i) (imgs i)) := by
          rw [epochsOf, withEpoch_self]
          exact hopen
        rw [not_not.mp hne]
        exact restored_of_run (hagree i hi) hsame hrun
    refine Prog.wp_mono (wp_recoverRank (fun _ => trivial) ⟨u, hrun, hrestored⟩ fun _ _ => trivial)
      fun _ v ⟨x, hx, hv⟩ => ?_
    rw [hv]
    exact hx
  refine Prog.wp_mono (Prog.wp_weaken (fun _ _ => trivial) (Job.wp_job (P := P)
    (jobInv_started modes fun _ => trivial) fun i hi => rg_openForMpi hi
      (at_start i _ fun _ => rfl) rfl rfl (fun _ => Or.inl rfl) trivial (hrecover i hi)))
    fun _ K hall i hi => ?_
  exact (hall i hi).2

/-- The least epoch names a round that all ranks recover. -/
theorem Near.recovered {X Y : Nat → Content} (h : Near n segments imgs X Y e)
    {K : MpiJob} (hopened : ∀ i < n, ∃ least, Least n (epochsOf imgs) least ∧
      epochsOf imgs i - least < 2 ∧ Restored (segments i) (imgs i) least (K.rank i).engine) :
    (∀ i < n, ∀ s < segments i, ∀ o < kWordsPerSegment, (K.rank i).engine.work s o = X i s o) ∨
      ((∀ i < n, imgs i .committedEpoch = nextEpoch e) ∧
        ∀ i < n, ∀ s < segments i, ∀ o < kWordsPerSegment, (K.rank i).engine.work s o = Y i s o) := by
  by_cases hall : ∀ i < n, imgs i .committedEpoch = nextEpoch e
  · refine Or.inr ⟨hall, fun i hi => ?_⟩
    obtain ⟨least, hleast, -, hrestored⟩ := hopened i hi
    obtain ⟨j, hj, heq⟩ := hleast.attained
    rw [epochsOf, hall j hj] at heq
    subst heq
    rcases h.new i hi with hepoch | ⟨-, hY⟩
    · exact absurd ((hall i hi).symm.trans hepoch) (nextEpoch_ne e)
    · exact hrestored _ hY
  · -- some rank has not published the round, and the epochs do not wrap around
    refine Or.inl fun i hi => ?_
    simp only [not_forall] at hall
    obtain ⟨k, hkn, hk⟩ := hall
    have hkold : imgs k .committedEpoch = e := (h.new k hkn).resolve_right fun hnew => hk hnew.1
    obtain ⟨least, hleast, -, hrestored⟩ := hopened i hi
    obtain ⟨least', hleast', hnear, -⟩ := hopened k hkn
    obtain rfl := hleast.unique hleast'
    have hle : least ≤ e := hkold ▸ hleast.le k hkn
    rw [epochsOf, hkold] at hnear
    obtain ⟨j, hj, heq⟩ := hleast.attained
    have hsame : least = e := by
      rcases h.new j hj with hepoch | ⟨hepoch, -⟩
      · exact heq.trans hepoch
      · have hnext : least = nextEpoch e := heq.trans hepoch
        unfold nextEpoch at hnext
        omega
    subst hsame
    exact hrestored _ (h.old i hi)

theorem Crashed.near {rounds : (Nat → Content) → Prop} (hrun : Crashed n segments imgs rounds)
    (hn : 0 < n) : (∀ i < n, Agrees (segments i) (imgs i)) ∧
      ∃ X Y e, Near n segments imgs X Y e ∧ rounds X ∧
        ((∀ i < n, imgs i .committedEpoch = nextEpoch e) → rounds Y) := by
  cases hrun with
  | created modes calls hvalid schedule hmid hcrash =>
      have hwp := wp_created (n := n) segments modes hvalid schedule
      have hinv := Prog.mid_of_wp hwp (jobInv_created segments modes) hmid
      exact ⟨fun i hi => (hcrash i hi).2.2, near_of_inv hn hinv hcrash⟩
  | started hclosed modes calls hvalid schedule hmid hcrash =>
      obtain ⟨e, hunder⟩ := hclosed.under
      have hwp := wp_sessions modes hunder hvalid schedule
      have hinv := Prog.mid_of_wp hwp (jobInv_started modes fun _ hopened => by cases hopened) hmid
      exact ⟨fun i hi => (hcrash i hi).2.2, near_of_inv hn hinv hcrash⟩

theorem Crashed.exists_round {rounds : (Nat → Content) → Prop}
    (hrun : Crashed 0 segments imgs rounds) : ∃ X, rounds X := by
  cases hrun with
  | _ => exact ⟨fun _ _ _ => 0#64, 0, fun i hi => absurd hi (Nat.not_lt_zero i)⟩

/-- A job that has crashed can be opened again: the epochs of its ranks are at most one
commit apart, and whenever `OpenForMPI` completes on all ranks, their working memories are
those of one round. -/
theorem crashed_recovers {rounds : (Nat → Content) → Prop}
    (hrun : Crashed n segments imgs rounds) :
    WithinOne n imgs ∧ ∀ modes schedule K,
      (Prog.par n schedule (openForMpi n)).run (startedJob segments modes imgs) = some ((), K) →
        ∃ X, rounds X ∧ ∀ i < n, ∀ s < segments i, ∀ o < kWordsPerSegment,
          (K.rank i).engine.work s o = X i s o := by
  rcases Nat.eq_zero_or_pos n with rfl | hn
  · refine ⟨fun i hi => absurd hi (Nat.not_lt_zero i), fun modes schedule K _ => ?_⟩
    obtain ⟨X, hX⟩ := hrun.exists_round
    exact ⟨X, hX, fun i hi => absurd hi (Nat.not_lt_zero i)⟩
  · obtain ⟨hagree, X, Y, e, hnear, hX, hY⟩ := hrun.near hn
    refine ⟨hnear.withinOne, fun modes schedule K hret => ?_⟩
    have hopened := Prog.run_of_wp (wp_openings modes hagree schedule) hret
    rcases hnear.recovered hopened with hold | ⟨hall, hnew⟩
    · exact ⟨X, hX, hold⟩
    · exact ⟨Y, hY hall, hnew⟩

/-- A job that was closed in an orderly way, session after session, opens with the data of
the last round of every rank. -/
theorem closed_reopens (h : Closed n segments imgs base) {modes : Nat → FlushMode}
    {schedule : List Nat} {K : MpiJob}
    (hret : (Prog.par n schedule (openForMpi n)).run (startedJob segments modes imgs) =
      some ((), K)) :
    ∀ i < n, ∀ s < segments i, ∀ o < kWordsPerSegment, (K.rank i).engine.work s o = base i s o := by
  obtain ⟨e, hunder⟩ := h.under
  have hleft : ∀ i < n, Agrees (segments i) (imgs i) ∧
      HoldsUnder (segments i) (base i) e (imgs i) := by
    intro i hi
    obtain ⟨t, c, stale, himg, hq, -⟩ := hunder i hi
    rw [himg]
    exact ⟨hq.steady.agrees, (hq.last _ (Memory.crashTo_shutdown _)).1⟩
  have hopened := Prog.run_of_wp (wp_openings modes (fun i hi => (hleft i hi).1) schedule) hret
  intro i hi
  obtain ⟨least, hleast, -, hrestored⟩ := hopened i hi
  obtain ⟨j, hj, heq⟩ := hleast.attained
  rw [epochsOf, hunder.epoch hj] at heq
  subst heq
  exact hrestored _ (hleft i hi).2

/-! ## A job of two ranks -/

/-- A rank stores to its first word and calls `checkpoint_for_mpi`. -/
def storeAndCheckpoint (value : Nat) : List MpiCall :=
  [.store (storeTo 0 (BitVec.ofNat 64 value)), .checkpoint ⟨0, 1, List.replicate 2000 0⟩]

def oneRound (i : Nat) : List MpiCall := storeAndCheckpoint (10 * i + 1)

def twoRounds (i : Nat) : List MpiCall := oneRound i ++ storeAndCheckpoint (10 * i + 2)

/-- Rank 1 has published the second round while rank 0 still completes the first one. -/
def twoRanksSchedule : List Nat :=
  List.replicate 1058 0 ++ List.replicate 1064 1 ++ List.replicate 6 0 ++ List.replicate 1300 1

def twoRanks : Prog MpiJob Unit :=
  Prog.par 2 twoRanksSchedule fun i => runCalls 2 i (twoRounds i)

def twoRanksStart : MpiJob := createdJob (fun _ => 1) fun _ => .noAction

def twoRanksCrash : MpiJob := twoRanks.after 4000 twoRanksStart

def twoRanksImages (i : Nat) : NvmImage := (twoRanksCrash.rank i).engine.image.mem.shutdown

/-- Rank 0 waits for rank 1 before it completes the round. -/
def twoRanksClosed : Option (Unit × MpiJob) :=
  (Prog.par 2 (List.replicate 1058 0 ++ List.replicate 1200 1 ++ List.replicate 300 0)
    fun i => runCalls 2 i (oneRound i)).run twoRanksStart

def openTwo (imgs : Nat → NvmImage) : Option (Unit × MpiJob) :=
  (Prog.par 2 (List.replicate 2 0 ++ List.replicate 60 1 ++ List.replicate 60 0)
    (openForMpi 2)).run (startedJob (fun _ => 1) (fun _ => .noAction) imgs)

theorem storeAndCheckpoint_valid (value : Nat) : ∀ c ∈ storeAndCheckpoint value, c.Valid 1 := by
  intro c hc
  simp only [storeAndCheckpoint, List.mem_cons, List.not_mem_nil, or_false] at hc
  rcases hc with rfl | rfl
  · exact storeTo_valid Nat.zero_lt_one _
  · exact ⟨by decide, Nat.zero_lt_one⟩

theorem twoRounds_valid (i : Nat) : ∀ c ∈ twoRounds i, c.Valid 1 :=
  List.forall_mem_append.mpr ⟨storeAndCheckpoint_valid _, storeAndCheckpoint_valid _⟩

theorem twoRanks_values :
    (∀ i < 2, (twoRanksCrash.rank i).opened = true ∧ ∀ s < 1,
      (otherState (twoRanksImages i) s = .initial ↔ committedOf (twoRanksImages i) s = .initial)) ∧
    (twoRanksImages 0 .committedEpoch, twoRanksImages 1 .committedEpoch) = (1, 2) ∧
    (openTwo twoRanksImages).map (fun r => ((r.2.rank 0).engine.work 0 0, (r.2.rank 1).engine.work 0 0)) =
      some (1#64, 11#64) := by
  decide +kernel

theorem twoRanks_crashed : Crashed 2 (fun _ => 1) twoRanksImages
    (IsRound 2 twoRanksCrash fun _ _ _ => 0#64) :=
  .created (fun _ => .noAction) twoRounds twoRounds_valid twoRanksSchedule
    (Prog.mid_after 4000 twoRanks twoRanksStart) fun i hi =>
      ⟨(twoRanks_values.1 i hi).1, Memory.crashTo_shutdown _, (twoRanks_values.1 i hi).2⟩

/-- The epochs differ, and rank 1 gives up the round it has published. -/
theorem crashed_recovers_twoRanks :
    (twoRanksImages 0 .committedEpoch, twoRanksImages 1 .committedEpoch) = (1, 2) ∧
    WithinOne 2 twoRanksImages ∧ ∃ K X, openTwo twoRanksImages = some ((), K) ∧
      (K.rank 0).engine.work 0 0 = 1#64 ∧ (K.rank 1).engine.work 0 0 = 11#64 ∧
      IsRound 2 twoRanksCrash (fun _ _ _ => 0#64) X ∧
      ∀ i < 2, ∀ s < 1, ∀ o < kWordsPerSegment, (K.rank i).engine.work s o = X i s o := by
  obtain ⟨-, hepochs, hopen⟩ := twoRanks_values
  have hrecovers := crashed_recovers twoRanks_crashed
  obtain ⟨⟨⟨⟩, K⟩, hret, hwork⟩ := Option.map_eq_some_iff.mp hopen
  obtain ⟨h₀, h₁⟩ := Prod.mk.inj hwork
  obtain ⟨X, hX, hall⟩ := hrecovers.2 _ _ K hret
  exact ⟨hepochs, hrecovers.1, K, X, hret, h₀, h₁, hX, hall⟩

def closedImages (J : MpiJob) (i : Nat) : NvmImage := (J.rank i).engine.image.mem.shutdown

theorem twoRanksClosed_values :
    (twoRanksClosed.bind fun r => (openTwo (closedImages r.2)).map fun r =>
      ((r.2.rank 0).engine.work 0 0, (r.2.rank 1).engine.work 0 0)) = some (1#64, 11#64) := by
  decide +kernel

theorem closed_reopens_twoRanks : ∃ J K, twoRanksClosed = some ((), J) ∧
    openTwo (closedImages J) = some ((), K) ∧
    (K.rank 0).engine.work 0 0 = 1#64 ∧ (K.rank 1).engine.work 0 0 = 11#64 ∧
    ∀ i < 2, ∀ s < 1, ∀ o < kWordsPerSegment, (K.rank i).engine.work s o =
      lastContent (fun _ _ => 0#64) (J.rank i).entered s o := by
  obtain ⟨⟨⟨⟩, J⟩, hclosed, hopen⟩ := Option.bind_eq_some_iff.mp twoRanksClosed_values
  obtain ⟨⟨⟨⟩, K⟩, hret, hwork⟩ := Option.map_eq_some_iff.mp hopen
  obtain ⟨h₀, h₁⟩ := Prod.mk.inj hwork
  have hrun : Closed 2 (fun _ => 1) (closedImages J)
      fun i => lastContent (fun _ _ => 0#64) (J.rank i).entered :=
    .created (fun _ => .noAction) oneRound (fun _ => storeAndCheckpoint_valid _) _ hclosed
  exact ⟨J, K, hclosed, hret, h₀, h₁, closed_reopens hrun hret⟩

end Libcrpm.HybridInst
