import Libcrpm.HybridMpiRound

/-!
# Agreement of the ranks of a hybrid job

One barrier for each round keeps the ranks within one round of each other.  While some
rank has not published a round, all others can take it back, so that the least epoch on
the media names a round that all ranks can recover.
-/

namespace Libcrpm.HybridInst

open Libcrpm.Persistence Libcrpm.Program CheckpointImage

/-! ## The phases of a job -/

/-- The epoch of the `r`-th round of a job that began under the epoch `e`. -/
def roundEpoch (e r : Nat) : Nat := nextEpoch^[r] e

@[simp] theorem roundEpoch_zero (e : Nat) : roundEpoch e 0 = e := rfl

theorem roundEpoch_succ (e r : Nat) : roundEpoch e (r + 1) = nextEpoch (roundEpoch e r) :=
  Function.iterate_succ_apply' _ _ _

section Phases

variable (segments : Nat → Nat) (base : Nat → Content) (e : Nat)

/-- Rank `i` is between the rounds `r` and `r + 1`, or in the round `r + 1` and the others
have not reached its barrier. -/
def DuringRound (r i : Nat) (s : MpiRank) : Prop :=
  s.left ≤ r ∧
    ((s.entered.length = r ∧
      Last (segments i) (roundContent (base i) s.entered r) (roundEpoch e r) s.engine) ∨
    (s.entered.length = r + 1 ∧
      Between (segments i) (roundContent (base i) s.entered r)
        (roundContent (base i) s.entered (r + 1)) (roundEpoch e r) s.engine))

/-- Rank `i` is at the barrier of the round `r + 1`. -/
structure AtBarrier (r i : Nat) (s : MpiRank) : Prop where
  left : s.left ≤ r
  length : s.entered.length = r + 1
  next : Next (segments i) (roundContent (base i) s.entered r)
    (roundContent (base i) s.entered (r + 1)) (roundEpoch e r) s.engine

variable {segments base e} {r i : Nat} {s : MpiRank}

theorem AtBarrier.during (h : AtBarrier segments base e r i s) :
    DuringRound segments base e r i s :=
  ⟨h.left, Or.inr ⟨h.length, h.next.between⟩⟩

theorem AtBarrier.after (h : AtBarrier segments base e r i s) :
    DuringRound segments base e (r + 1) i s := by
  have hlast := h.next.last
  rw [← roundEpoch_succ] at hlast
  exact ⟨Nat.le_succ_of_le h.left, Or.inl ⟨h.length, hlast⟩⟩

variable (segments base e)

/-- One phase for each round, from the moment a rank has opened its pool. -/
def mpiPhases : Job.Phases MpiRank where
  during r i s := s.opened = true → DuringRound segments base e r i s
  reached r i s := AtBarrier segments base e (r - 1) i s
  starts _ _ _ h _ := h.after
  ends _ _ _ h _ := h.during

end Phases

/-! ## One rank -/

section OneRank

variable {n r i e : Nat} {segments : Nat → Nat} {base : Nat → Content} {S : (Nat → Option Nat) → Prop}
  {J : MpiJob} {s : MpiRank} {x y : HybridInst} {X Y : Content}

theorem roundContent_append (X : Content) {entered : List Content} (Y : Content) {k : Nat}
    (hk : k ≤ entered.length) :
    roundContent X (entered ++ [Y]) k = roundContent X entered k := by
  cases k with
  | zero => rfl
  | succ k =>
      simp [roundContent, List.getD_eq_getElem?_getD, List.getElem?_append_left hk]

theorem roundContent_last (X : Content) (entered : List Content) (Y : Content) :
    roundContent X (entered ++ [Y]) (entered.length + 1) = Y := by
  simp [roundContent]

theorem rg_onEngine {P : Job.Phases MpiRank} {α : Type} (hi : i < n) {m : Nat}
    (hat : Job.At n i m J) (hs : J.rank i = { s with engine := x }) {D : HybridInst → Prop}
    {p : Prog HybridInst α} {Q : α → HybridInst → Prop} (hwp : Prog.wp D p Q x)
    (hD : ∀ y, D y → P.during m i { s with engine := y }) :
    (Job.onRank i (onEngine p)).rg (Job.Others S i) (Job.Own n P S i)
      (fun a K => Job.At n i m K ∧ ∃ y, K.rank i = { s with engine := y } ∧ Q a y) J := by
  have hzoom : Prog.wp (P.during m i) (onEngine p)
      (fun a t => ∃ y, t = { s with engine := y } ∧ Q a y) (J.rank i) := by
    rw [hs]
    refine Prog.wp_zoom engineLens ?_
    exact Prog.wp_mono (Prog.wp_weaken hD hwp) fun a y hy => ⟨y, rfl, hy⟩
  exact Job.rg_onRank hi hat hzoom

theorem rg_record {P : Job.Phases MpiRank} (hi : i < n) {m : Nat} (hat : Job.At n i m J)
    {f : MpiRank → MpiRank} (hf : P.during m i (f (J.rank i))) :
    (Job.onRank i (Prog.act f)).rg (Job.Others S i) (Job.Own n P S i)
      (fun _ K => Job.At n i m K ∧ K.rank i = f (J.rank i)) J :=
  Job.rg_onRank hi hat (Q := fun _ t => t = f (J.rank i)) (Prog.wp_act.mpr ⟨hf, rfl⟩)

structure Resting (segments : Nat → Nat) (base : Nat → Content) (e i r : Nat) (s : MpiRank) :
    Prop where
  opened : s.opened = true
  length : s.entered.length = r
  left : s.left = r
  quiet : ∃ c stale, Quiet (segments i) (segments i) (roundContent (base i) s.entered r)
    (roundEpoch e r) c stale s.engine
  bound : BoundAll (segments i) s.engine

theorem Resting.during (h : Resting segments base e i r s) : DuringRound segments base e r i s := by
  obtain ⟨c, stale, hq⟩ := h.quiet
  exact ⟨Nat.le_of_eq h.left, Or.inl ⟨h.length, hq.last⟩⟩

theorem rg_store (hi : i < n) (hat : Job.At n i r J)
    (hs : Resting segments base e i r (J.rank i)) {call : StoreCall}
    (hvalid : call.Valid (segments i)) :
    (Job.onRank i (onEngine call.prog)).rg (Job.Others S i)
      (Job.Own n (mpiPhases segments base e) S i)
      (fun _ K => Job.At n i r K ∧ Resting segments base e i r (K.rank i)) J := by
  obtain ⟨c, stale, hq⟩ := hs.quiet
  have hwp := wp_hookedStore hq hvalid.tid hvalid.pos hvalid.inPool hvalid.words
  refine Prog.rg_mono (rg_onEngine (s := J.rank i) hi hat rfl hwp fun y hy _ => ?_)
    fun _ K ⟨hK, y, hy, hstored⟩ => ⟨hK, ?_⟩
  · have hlast : Last (segments i) (roundContent (base i) (J.rank i).entered r)
        (roundEpoch e r) y := by
      intro img hc
      rw [show y.image = (J.rank i).engine.image from hy] at hc
      exact hq.last img hc
    exact ⟨Nat.le_of_eq hs.left, Or.inl ⟨hs.length, hlast⟩⟩
  · rw [hy]
    exact ⟨hs.opened, hs.length, hs.left, ⟨c, stale, hstored.quiet⟩,
      hs.bound.congr (congrArg CheckpointImage.mainToBack hstored.image)⟩

/-- What rank `i` has entered the round `r + 1` with. -/
structure Entering (segments : Nat → Nat) (base : Nat → Content) (e i r : Nat) (s : MpiRank) :
    Prop where
  opened : s.opened = true
  length : s.entered.length = r + 1
  left : s.left = r
  quiet : ∃ c stale, Quiet (segments i) (segments i) (roundContent (base i) s.entered r)
    (roundEpoch e r) c stale s.engine
  bound : BoundAll (segments i) s.engine
  work : roundContent (base i) s.entered (r + 1) = s.engine.work
  regular : s.engine.regular = true

theorem Entering.during (h : Entering segments base e i r s)
    (hy : Between (segments i) (roundContent (base i) s.entered r) s.engine.work
      (roundEpoch e r) y) : (mpiPhases segments base e).during r i { s with engine := y } := by
  intro _
  rw [← h.work] at hy
  exact ⟨Nat.le_of_eq h.left, Or.inr ⟨h.length, hy⟩⟩

theorem Entering.after (h : Entering segments base e i r s)
    (hy : Last (segments i) s.engine.work (nextEpoch (roundEpoch e r)) y) :
    (mpiPhases segments base e).during (r + 1) i { s with engine := y } := by
  intro _
  rw [← h.work, ← roundEpoch_succ] at hy
  exact ⟨Nat.le_succ_of_le (Nat.le_of_eq h.left), Or.inl ⟨h.length, hy⟩⟩

theorem rg_checkpointForMpi (hi : i < n) (hat : Job.At n i r J)
    (hs : Entering segments base e i r (J.rank i)) {call : RoundCall} (hvalid : call.Valid) :
    (checkpointForMpi n i call).rg (Job.Others S i) (Job.Own n (mpiPhases segments base e) S i)
      (fun _ K => Job.At n i (r + 1) K ∧ ∃ y, K.rank i = { J.rank i with engine := y } ∧
        RoundDone (segments i) (roundEpoch e r) (J.rank i).engine y) J := by
  have hrefl : ∀ K : MpiJob, Job.Others S i K K := Job.Others.refl
  obtain ⟨c, stale, hq⟩ := hs.quiet
  have hgap := hq.gap hs.regular
  refine Prog.rg_bind hrefl (Prog.rg_mono (rg_onEngine (s := J.rank i) hi hat rfl
    (wp_beginCheckpoint hq hvalid.leader) fun y hy => hs.during ?_)
    fun mode J₁ ⟨hat₁, u, hu, hb⟩ => ?_)
  · intro img hc
    rw [show y.image = (J.rank i).engine.image from hy] at hc
    exact hq.last.between img hc
  rw [if_neg (hb.active hq hs.regular)]
  have hwork : u.work = (J.rank i).engine.work := hb.work
  -- the target copy
  refine Prog.rg_bind hrefl (Prog.rg_mono (rg_onEngine hi hat₁ hu
    (hb.wp_apply hs.bound hgap hvalid) fun y hy => hs.during hy.between)
    fun _ J₂ ⟨hat₂, v, hv, happlied⟩ => ?_)
  -- the commit up to the barrier
  refine Prog.rg_bind hrefl ?_
  refine Prog.rg_bind hrefl (Prog.rg_mono (rg_onEngine hi hat₂ hv
    (happlied.wp_publishLayoutState hb hs.bound) fun y hy => hs.during (hwork ▸ hy))
    fun bi J₃ ⟨hat₃, w, hw, hbi, hannounced⟩ => ?_)
  subst hbi
  have hbarrier : AtBarrier segments base e r i (J₃.rank i) := by
    rw [hw]
    refine ⟨Nat.le_of_eq hs.left, hs.length, ?_⟩
    have hnext := hannounced.next
    rw [hwork, ← hs.work] at hnext
    exact hnext
  refine Prog.rg_bind hrefl (Prog.rg_mono (Job.rg_barrier hi hat₃ hbarrier)
    fun _ J₄ ⟨hat₄, h₄⟩ => ?_)
  -- the array left behind
  refine Prog.rg_mono (rg_onEngine hi hat₄ (h₄.trans hw)
    (hannounced.wp_copyDirtyLines hb hs.bound) fun y hy => hs.after (hwork ▸ hy))
    fun _ J₅ ⟨hat₅, x, hx, hcommitted⟩ => ?_
  refine Prog.rg_mono (rg_onEngine hi hat₅ hx (hcommitted.wp_finishForMpi hb)
    fun y hy => hs.after (hwork ▸ hy)) fun _ K ⟨hK, y, hy, hdone⟩ => ?_
  exact ⟨hK, y, hy, hdone⟩

theorem rg_checkpoint (hi : i < n) (hat : Job.At n i r J)
    (hs : Resting segments base e i r (J.rank i)) {call : RoundCall} (hvalid : call.Valid) :
    (runCall n i (.checkpoint call)).rg (Job.Others S i)
      (Job.Own n (mpiPhases segments base e) S i)
      (fun _ K => Job.At n i (r + 1) K ∧ Resting segments base e i (r + 1) (K.rank i)) J := by
  have hrefl : ∀ K : MpiJob, Job.Others S i K K := Job.Others.refl
  refine Prog.rg_bind hrefl ?_
  intro a ha hregular
  refine ⟨.refl a, fun b hb => ?_⟩
  have hrank : b.rank i = J.rank i := (ha.trans hb).rank
  have hatb : Job.At n i r b := hat.others (ha.trans hb)
  have hreg : (b.rank i).engine.regular = true := by
    rw [hb.rank]
    exact hregular
  rw [← hrank] at hs
  obtain ⟨c, stale, hq⟩ := hs.quiet
  let enter : MpiRank → MpiRank := fun s => { s with entered := s.entered ++ [s.engine.work] }
  have hlen := hs.length
  have hold := roundContent_append (base i) (b.rank i).engine.work (Nat.le_of_eq hlen.symm)
  have hnew := roundContent_last (base i) (b.rank i).entered (b.rank i).engine.work
  rw [hlen] at hnew
  have hentered : Entering segments base e i r (enter (b.rank i)) := by
    refine ⟨hs.opened, by simp [enter, hlen], hs.left, ⟨c, stale, ?_⟩, hs.bound, hnew, hreg⟩
    change Quiet _ _ (roundContent _ (_ ++ [_]) r) _ _ _ _
    rw [hold]
    exact hq
  refine Prog.rg_bind hrefl (Prog.rg_mono (rg_record (f := enter) hi hatb
    (hentered.during ?_)) fun _ J₁ ⟨hat₁, h₁⟩ => ?_)
  · change Between _ (roundContent _ (_ ++ [_]) r) _ _ _
    rw [hold]
    exact hq.last.between
  rw [← h₁] at hentered
  refine Prog.rg_bind hrefl (Prog.rg_mono (rg_checkpointForMpi hi hat₁ hentered hvalid)
    fun _ J₂ ⟨hat₂, y, hy, hdone⟩ => ?_)
  obtain ⟨c', stale', hquiet⟩ := hdone.quiet
  rw [← hentered.work, ← roundEpoch_succ] at hquiet
  have hrest : Resting segments base e i (r + 1) { J₂.rank i with left := (J₂.rank i).left + 1 } := by
    rw [hy]
    exact ⟨hentered.opened, hentered.length, congrArg (· + 1) hentered.left, ⟨c', stale', hquiet⟩,
      hentered.bound.congr hdone.mainToBack⟩
  refine Prog.rg_mono (rg_record hi hat₂ fun _ => hrest.during) fun _ K ⟨hK, hKrank⟩ => ⟨hK, ?_⟩
  rw [hKrank]
  exact hrest

theorem rg_runCalls (hi : i < n) (hat : Job.At n i r J)
    (hs : Resting segments base e i r (J.rank i)) {calls : List MpiCall}
    (hvalid : ∀ call ∈ calls, call.Valid (segments i)) :
    (runCalls n i calls).rg (Job.Others S i) (Job.Own n (mpiPhases segments base e) S i)
      (fun _ K => ∃ r', Job.At n i r' K ∧ Resting segments base e i r' (K.rank i)) J := by
  have hrefl : ∀ K : MpiJob, Job.Others S i K K := Job.Others.refl
  unfold runCalls
  induction calls generalizing r J with
  | nil =>
      intro K hK
      exact ⟨r, hat.others hK, hK.rank ▸ hs⟩
  | cons call rest ih =>
      have hrest : ∀ call ∈ rest, call.Valid (segments i) :=
        fun call hin => hvalid call (List.mem_cons_of_mem _ hin)
      have hfirst := hvalid call List.mem_cons_self
      refine Prog.rg_bind hrefl ?_
      cases call with
      | store call =>
          exact Prog.rg_mono (rg_store hi hat hs hfirst) fun _ K hK => ih hK.1 hK.2 hrest
      | checkpoint call =>
          exact Prog.rg_mono (rg_checkpoint hi hat hs hfirst) fun _ K hK => ih hK.1 hK.2 hrest

end OneRank

/-! ## Opening -/

def Contributed (epochs : Nat → Nat) (shared : Nat → Option Nat) : Prop :=
  ∀ j, shared j = none ∨ shared j = some (epochs j)

structure Least (n : Nat) (epochs : Nat → Nat) (m : Nat) : Prop where
  le : ∀ j < n, m ≤ epochs j
  attained : ∃ j < n, m = epochs j

theorem Least.unique {n m m' : Nat} {epochs : Nat → Nat} (h : Least n epochs m)
    (h' : Least n epochs m') : m = m' := by
  obtain ⟨j, hj, heq⟩ := h.attained
  obtain ⟨j', hj', heq'⟩ := h'.attained
  have hle := h.le j' hj'
  have hle' := h'.le j hj
  omega

theorem foldl_min_le (l : List Nat) (a : Nat) :
    l.foldl min a ≤ a ∧ ∀ x ∈ l, l.foldl min a ≤ x := by
  induction l generalizing a with
  | nil => simp
  | cons b l ih =>
      obtain ⟨hstart, hrest⟩ := ih (min a b)
      have hmin : min a b ≤ a ∧ min a b ≤ b := ⟨Nat.min_le_left a b, Nat.min_le_right a b⟩
      rw [List.foldl_cons]
      refine ⟨by omega, fun x hx => ?_⟩
      rcases List.mem_cons.mp hx with rfl | hx
      · omega
      · exact hrest x hx

theorem foldl_min_mem (l : List Nat) (a : Nat) : l.foldl min a = a ∨ l.foldl min a ∈ l := by
  induction l generalizing a with
  | nil => simp
  | cons b l ih =>
      rw [List.foldl_cons]
      rcases ih (min a b) with heq | hin
      · rw [heq]
        rcases Nat.le_total a b with hle | hle
        · exact Or.inl (Nat.min_eq_left hle)
        · exact Or.inr (by simp [Nat.min_eq_right hle])
      · exact Or.inr (List.mem_cons_of_mem b hin)

theorem least_foldl_min {n i : Nat} (hi : i < n) (epochs : Nat → Nat) :
    Least n epochs (((List.range n).map epochs).foldl min (epochs i)) := by
  refine ⟨fun j hj => ?_, ?_⟩
  · exact (foldl_min_le _ _).2 _ (List.mem_map.mpr ⟨j, List.mem_range.mpr hj, rfl⟩)
  · rcases foldl_min_mem ((List.range n).map epochs) (epochs i) with heq | hin
    · exact ⟨i, hi, heq⟩
    · obtain ⟨j, hj, heq⟩ := List.mem_map.mp hin
      exact ⟨j, List.mem_range.mp hj, heq.symm⟩

section Opening

variable {n i m : Nat} {P : Job.Phases MpiRank} {epochs : Nat → Nat} {J : MpiJob} {s : MpiRank}

theorem rg_allreduceMin (hi : i < n) (hat : Job.At n i m J)
    (hshared : Contributed epochs J.shared) :
    (allreduceMin n i (epochs i)).rg (Job.Others (Contributed epochs) i)
      (Job.Own n P (Contributed epochs) i)
      (fun least K => Job.At n i m K ∧ K.rank i = J.rank i ∧ Least n epochs least) J := by
  refine Prog.rg_bind Job.Others.refl (Prog.rg_act fun a ha => ?_)
  have hnew : Contributed epochs (Function.update a.shared i (some (epochs i))) := by
    intro j
    by_cases hj : j = i
    · subst hj
      exact Or.inr (Function.update_self _ _ _)
    · rw [Function.update_of_ne hj]
      exact ha.shared hshared j
  refine ⟨Job.own_share hnew a, fun b hb => ?_⟩
  intro d hd hall
  have hbd := hb.trans hd
  have hvalues : ∀ j < n, (d.shared j).getD (epochs i) = epochs j := by
    intro j hj
    have hsome : (d.shared j).isSome = true := List.all_eq_true.mp hall j (List.mem_range.mpr hj)
    rcases hbd.shared hnew j with hnone | heq
    · rw [hnone] at hsome
      cases hsome
    · rw [heq]
      rfl
  have hmap : (List.range n).map (fun j => (d.shared j).getD (epochs i)) =
      (List.range n).map epochs :=
    List.map_congr_left fun j hj => hvalues j (List.mem_range.mp hj)
  refine ⟨.refl d, fun k hk => ?_⟩
  have hata : Job.At n i m a := hat.others ha
  have hshare : Job.At n i m { a with
      shared := Function.update a.shared i (some (epochs i)) } := hata
  refine ⟨hshare.others (hbd.trans hk), (hbd.trans hk).rank.trans ha.rank, ?_⟩
  rw [hmap]
  exact least_foldl_min hi epochs

theorem rg_openForMpi (hi : i < n) (hat : Job.At n i m J) (hs : J.rank i = s)
    (hepoch : s.engine.image.committedEpoch = epochs i) (hshared : Contributed epochs J.shared)
    (hclosed : P.during m i s) {Q : Nat → MpiRank → Prop}
    (hrecover : ∀ least, Least n epochs least → epochs i - least < 2 →
      Prog.wp (P.during m i) (recoverRank (epochs i) least) (fun _ => Q least) s) :
    (openForMpi n i).rg (Job.Others (Contributed epochs) i) (Job.Own n P (Contributed epochs) i)
      (fun _ K => Job.At n i m K ∧
        ∃ least, Least n epochs least ∧ epochs i - least < 2 ∧ Q least (K.rank i)) J := by
  have hrefl : ∀ K : MpiJob, Job.Others (Contributed epochs) i K K := Job.Others.refl
  have hread : Prog.wp (P.during m i)
      (onEngine (Prog.read fun t => t.image.committedEpoch))
      (fun value t => value = epochs i ∧ t = s) (J.rank i) := by
    rw [hs]
    exact Prog.wp_zoom engineLens (Prog.wp_read.mpr ⟨hclosed, hepoch, rfl⟩)
  refine Prog.rg_bind hrefl (Prog.rg_mono (Job.rg_shared hshared (Job.rg_onRank hi hat hread))
    fun value J₁ ⟨⟨hat₁, hvalue, h₁⟩, hshared₁⟩ => ?_)
  subst hvalue
  refine Prog.rg_bind hrefl (Prog.rg_mono (rg_allreduceMin hi hat₁ hshared₁)
    fun least J₂ ⟨hat₂, h₂, hleast⟩ => ?_)
  split
  · trivial
  · rename_i hnear
    have hwp := hrecover least hleast (by omega)
    rw [← h₁, ← h₂] at hwp
    exact Prog.rg_mono (Job.rg_onRank hi hat₂ hwp)
      fun _ K ⟨hK, hQ⟩ => ⟨hK, least, hleast, by omega, hQ⟩

end Opening

end Libcrpm.HybridInst
