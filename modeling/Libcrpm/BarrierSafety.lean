import Libcrpm.BarrierFront

/-!
# Safety of the barrier and the latch

Rounds overlap: a thread may enter the next round while others have not left the last one.
In a run whose entries are settled no barrier and no latch is left too early, and no round
gets stuck.
-/

namespace Libcrpm.CheckpointSync

open Libcrpm.Program

variable {r n front : Nat} {closed : Bool} {s t : State} {k : Nat} {c : Call} {d : Option Call}

/-! ## A round that some threads have not entered -/

theorem Inv.moveOpening (h : Inv r n front true s) {c' : Call}
    (hcall : s.calls (r + 1) k = some c)
    (hcalls : ∀ r' k', t.calls r' k' = if r' = r + 1 ∧ k' = k then some c' else s.calls r' k')
    (hmode : t.flushMode = s.flushMode) (hnext : t.nextThreadId = s.nextThreadId)
    (hround : t.round = s.round) (hwidth : t.width = s.width) (hlatch : t.latch = s.latch)
    (hflag : t.barrier.flag = s.barrier.flag)
    (hsense : ∀ k' ≠ k, t.barrier.localSense k' = s.barrier.localSense k')
    (hlog : ∃ events, t.log = events ++ s.log ∧ ∀ e ∈ events, e = .entered (r + 1) 0 k)
    (hok : OpeningOk (r + 1) t k c')
    (hcounter : t.barrier.counter = arrivals (r + 1) 0 (s.width (r + 1)) t) :
    Inv r n front true t := by
  have hk : k < s.nextThreadId := (h.opening_lt rfl k).mp (by simp [hcall])
  obtain ⟨events, hevents, honly⟩ := hlog
  have hsame : ∀ e, e ≠ .entered (r + 1) 0 k → (e ∈ t.log ↔ e ∈ s.log) := by
    intro e he
    rw [hevents, List.mem_append, or_iff_right]
    exact fun hin => he (honly e hin)
  have hr : ∀ use k', .entered r use k' ∈ t.log ↔ .entered r use k' ∈ s.log :=
    fun use k' => hsame _ (by simp)
  have hcallsR : ∀ k', t.calls r k' = s.calls r k' := fun k' => by
    rw [hcalls, if_neg (by omega)]
  have hmono : ∀ e, e ∈ s.log → e ∈ t.log := fun e hin => by
    rw [hevents]
    exact List.mem_append_right _ hin
  refine ⟨hmode ▸ h.pos, h.round_pos, ?closed_iff, ?outside, ?call, ?present, hwidth ▸ h.width,
    ?released, ?added, ?fresh, ?count, by simp, by simp, by simp, fun _ => ?closed_ids,
    fun _ k' => ?opening_lt, fun _ k' d hd => ?opening, fun _ k' d hd hb => ?apart,
    fun _ => hwidth ▸ hcounter, ?freshLeft, ?left, ?leftLatch⟩
  case closed_iff =>
    rw [h.closed_iff, Closed, Closed, hmode]
    simp only [hcallsR]
  case outside =>
    intro r' k' hne hcl
    rw [hcalls, if_neg]
    · exact h.outside r' k' hne hcl
    · rintro ⟨rfl, -⟩
      exact absurd (hcl rfl) (by simp)
  case call =>
    intro k' d hd
    rw [hcallsR] at hd
    refine (h.call k' d hd).congr hmode hflag (fun hb => hsense k' ?_) (by rw [hlatch])
      (by rw [hlatch]) fun use => hr use k'
    rintro rfl
    have hle := h.apart rfl k' d hd (hb rfl)
    omega
  case present =>
    intro hop k' hk'
    rw [hcallsR]
    exact h.present (hmode ▸ hop) k' hk'
  case released =>
    intro use huse hop k' hk'
    exact (hr use k').mpr (h.released use huse (hmode ▸ hop) k' hk')
  case added =>
    intro hn use huse hop
    exact hmono _ (h.added hn use huse (hmode ▸ hop))
  case fresh =>
    intro r' use k' hin
    rw [hnext]
    by_cases heq : Event.entered r' use k' = .entered (r + 1) 0 k
    · cases heq
      exact Or.inr ⟨rfl, rfl, rfl, hk⟩
    · exact h.fresh r' use k' ((hsame _ heq).mp hin)
  case count =>
    refine ⟨fun k' d hd hst k'' hk'' => ?_, fun k' d k'' d' hd hd' => ?_, fun hop hin => ?_⟩
    · rw [hcallsR] at hd
      exact (hr _ _).mpr (h.count.all k' d hd hst k'' hk'')
    · rw [hcallsR] at hd hd'
      exact h.count.unique k' d k'' d' hd hd'
    · obtain ⟨k', d, hd, hst⟩ := h.count.exists_last (hmode ▸ hop) fun k' hk' =>
        (hr _ _).mp (hin k' hk')
      exact ⟨k', d, (hcallsR k').trans hd, hst⟩
  case closed_ids => rw [hnext, hround, hwidth]; exact h.closed_ids rfl
  case opening_lt =>
    rw [hnext, ← h.opening_lt rfl k', hcalls]
    split
    · rename_i heq
      rw [heq.2, hcall]
      simp
    · exact Iff.rfl
  case opening =>
    rw [hcalls] at hd
    split at hd
    · rename_i heq
      obtain rfl := Option.some.inj hd
      rw [heq.2]
      exact hok
    · rename_i hne
      have hkk : k' ≠ k := fun heq => hne ⟨rfl, heq⟩
      have hold := h.opening rfl k' d hd
      refine ⟨hold.ops, hold.use, hold.stage, ?_, (hsame _ ?_).trans hold.entered⟩
      · rw [hflag, hsense k' hkk]
        exact hold.barrier
      · simpa using hkk
  case apart =>
    rw [hcallsR] at hd
    rw [hnext]
    exact h.apart rfl k' d hd (hmode ▸ hb)
  case freshLeft =>
    intro r' use k' hin
    exact h.freshLeft r' use k' ((hsame _ (by simp)).mp hin)
  case left =>
    intro r' use k' hin k'' hk''
    rw [hwidth] at hk''
    exact hmono _ (h.left r' use k' ((hsame _ (by simp)).mp hin) k'' hk'')
  case leftLatch =>
    intro r' use k' hin
    exact hmono _ (h.leftLatch r' use k' ((hsame _ (by simp)).mp hin))

theorem Inv.openingFlip (h : Inv r n front true s) (hcall : s.calls (r + 1) k = some c)
    (hstage : c.stage = .start) :
    Inv r n front true ({ s with barrier := s.barrier.flipSense k }.setCall (r + 1) k
      (some { c with stage := .flipped })) := by
  have hok := h.opening rfl k c hcall
  have hsense : s.barrier.localSense k = s.barrier.flag := by
    by_contra hne
    exact hok.barrier.mp hne hstage
  refine h.moveOpening hcall (calls_setCall _ _ k _) rfl rfl rfl rfl rfl rfl
    (fun k' hk' => by simp [State.setCall, Barrier.flipSense, hk']) ⟨[], rfl, by simp⟩
    ⟨hok.ops, hok.use, Or.inr (Or.inl rfl), ?_, ?_⟩ (h.openingCounter rfl)
  · simp [State.setCall, Barrier.flipSense, hsense]
  · change _ ∈ s.log ↔ _
    rw [hok.entered, hstage]
    simp

theorem Inv.openingArrive (h : Inv r n front true s) (hcall : s.calls (r + 1) k = some c)
    (hstage : c.stage = .flipped) :
    Inv r n front true (({ s with barrier := s.barrier.arrive }.setCall (r + 1) k (some { c with
      stage := if s.barrier.counter + 1 = s.width (r + 1) then .last else .spin })).record
        (.entered (r + 1) c.use k)) := by
  have hok := h.opening rfl k c hcall
  have hk : k < s.nextThreadId := (h.opening_lt rfl k).mp (by simp [hcall])
  obtain ⟨-, -, hlt⟩ := (h.closed_ids rfl).resolve_left (by omega)
  have hnot : .entered (r + 1) 0 k ∉ s.log := by
    rw [hok.entered, hstage]
    simp
  have hcounter := h.openingCounter rfl
  have harrivals : ∀ u : State, u.log = .entered (r + 1) 0 k :: s.log →
      arrivals (r + 1) 0 (s.width (r + 1)) u = s.barrier.counter + 1 := by
    intro u hu
    rw [hcounter]
    refine countP_range_succ (Nat.lt_trans hk hlt) (by simpa using hnot) (by simp [hu])
      fun j hj => ?_
    simp [hu, hj]
  -- the id that is drawn next has not arrived, so this is not the last one
  have hmore : s.barrier.counter + 1 ≠ s.width (r + 1) := by
    intro heq
    rw [← harrivals (s.record (.entered (r + 1) 0 k)) rfl, arrivals_eq_iff] at heq
    rcases List.mem_cons.mp (heq s.nextThreadId hlt) with hsame | hold
    · cases hsame
      omega
    · rcases h.fresh (r + 1) 0 s.nextThreadId hold with hle | ⟨-, -, -, hlt'⟩
      · omega
      · omega
  rw [if_neg hmore, hok.use]
  refine h.moveOpening hcall (calls_setCall _ _ k _) rfl rfl rfl rfl rfl rfl (fun _ _ => rfl)
    ⟨[.entered (r + 1) 0 k], rfl, by simp⟩ ⟨hok.ops, rfl, Or.inr (Or.inr rfl), ?_, ?_⟩
    (harrivals _ rfl).symm
  · change s.barrier.localSense k ≠ s.barrier.flag ↔ _
    rw [hok.barrier, hstage]
    simp
  · simp [State.record]

/-! ## Entries -/

/-- An entry that the protocol is made for: no call of an earlier round is inside the barrier
with the same id, and the sense of the id in the barrier is the flag.  At the last entry of a
round the calls of earlier rounds have returned, and the sense of each id in the latch is the
flag. -/
structure Settled (nrThreads : Nat) (s : State) : Prop where
  apart : ∀ r c, s.calls r s.nextThreadId = some c → c.ops.head? ≠ some .barrier
  barrier : s.barrier.localSense s.nextThreadId = s.barrier.flag
  returned : s.nextThreadId + 1 = nrThreads → ∀ r < s.entryRound, ∀ k, s.calls r k = none
  latch : s.nextThreadId + 1 = nrThreads → ∀ k < nrThreads, s.latch.localSense k = s.latch.flag

/-- What an entry changes. -/
structure Enters (r nrThreads : Nat) (s t : State) : Prop where
  calls : ∀ r' k', t.calls r' k' =
    if r' = r ∧ k' = s.nextThreadId then some .new else s.calls r' k'
  mode : t.flushMode = s.flushMode
  next : t.nextThreadId = s.nextThreadId + 1
  round : t.round = r
  width : t.width = Function.update s.width r nrThreads
  barrier : t.barrier = s.barrier
  latch : t.latch = s.latch
  log : t.log = s.log

theorem enters_of_enter {nrThreads : Nat} (h : s.enter nrThreads = some t) :
    Enters s.entryRound nrThreads s t := by
  unfold State.enter at h
  split at h
  · obtain rfl := Option.some.inj h
    exact ⟨calls_setCall _ _ _ _, rfl, rfl, rfl, rfl, rfl, rfl, rfl⟩
  · cases h

theorem Inv.closed_of_enter (h : Inv r n front closed s) {nrThreads : Nat}
    (henter : s.enter nrThreads = some t) : closed = true ∧ s.entryRound = r + 1 ∧
      0 < nrThreads ∧ s.nextThreadId < nrThreads ∧
      (0 < s.nextThreadId → s.width (r + 1) = nrThreads) := by
  unfold State.enter at henter
  split at henter
  · rename_i hguard
    obtain ⟨hpos, hguard⟩ := hguard
    cases hcl : closed with
    | false =>
        obtain ⟨hnext, hround⟩ := h.open_ids hcl
        have hop : opAt s.flushMode front ≠ none := by
          intro hnone
          have hclosed := h.closed_iff.mpr (Or.inl hnone)
          rw [hcl] at hclosed
          cases hclosed
        have hn := h.pos hop
        have hwidth := h.width (h.round_pos hn)
        rw [hround, hwidth] at hguard
        omega
    | true =>
        refine ⟨rfl, ?_⟩
        rcases h.closed_ids hcl with ⟨hzero, hround⟩ | ⟨hnext, hround, hlt⟩
        · exact ⟨by rw [State.entryRound, if_pos hzero, hround], hpos, by omega, by omega⟩
        · rw [hround] at hguard
          refine ⟨by rw [State.entryRound, if_neg (by omega), hround], hpos, by omega,
            fun _ => by omega⟩
  · cases henter

theorem Inv.arrivals_width (h : Inv r n front true s) {m : Nat}
    (hm : 0 < s.nextThreadId → s.width (r + 1) = m) :
    s.barrier.counter = arrivals (r + 1) 0 m s := by
  rw [h.openingCounter rfl]
  by_cases hnext : 0 < s.nextThreadId
  · rw [hm hnext]
  · have hzero : ∀ m', arrivals (r + 1) 0 m' s = 0 := by
      intro m'
      rw [arrivals, List.countP_eq_zero]
      intro k _ hin
      rcases h.fresh (r + 1) 0 k (of_decide_eq_true hin) with hle | ⟨-, -, -, hlt⟩ <;> omega
    rw [hzero, hzero]

theorem Inv.not_entered_next (h : Inv r n front true s) :
    .entered (r + 1) 0 s.nextThreadId ∉ s.log := by
  intro hin
  rcases h.fresh (r + 1) 0 s.nextThreadId hin with hle | ⟨-, -, -, hlt⟩ <;> omega

theorem Inv.openingOk_new (h : Inv r n front true s) {nrThreads : Nat}
    (he : Enters (r + 1) nrThreads s t) (hsense : s.barrier.localSense s.nextThreadId = s.barrier.flag)
    {k : Nat} (hcall : t.calls (r + 1) k = some c) : OpeningOk (r + 1) t k c := by
  rw [he.calls] at hcall
  split at hcall
  · rename_i heq
    obtain rfl := Option.some.inj hcall
    refine ⟨rfl, rfl, Or.inl rfl, ?_, ?_⟩
    · rw [he.barrier, heq.2, hsense]
      simp [Call.new]
    · rw [he.log, heq.2]
      exact iff_of_false h.not_entered_next (by simp [Call.new])
  · have hold := h.opening rfl k c hcall
    exact ⟨hold.ops, hold.use, hold.stage, by rw [he.barrier]; exact hold.barrier,
      by rw [he.log]; exact hold.entered⟩

theorem Inv.enter (h : Inv r n front true s) {nrThreads : Nat}
    (he : Enters (r + 1) nrThreads s t) (hsettled : Settled nrThreads s)
    (hwidth : 0 < s.nextThreadId → s.width (r + 1) = nrThreads)
    (hmore : s.nextThreadId + 1 < nrThreads) : Inv r n front true t := by
  have hcallsR : ∀ k', t.calls r k' = s.calls r k' := fun k' => by
    rw [he.calls, if_neg (by omega)]
  have hwidths : ∀ r', r' ≠ r + 1 → t.width r' = s.width r' := fun r' hne => by
    rw [he.width, Function.update_of_ne hne]
  refine ⟨he.mode ▸ h.pos, h.round_pos, ?closed_iff, ?outside, ?call, ?present, fun hr => ?width,
    ?released, ?added, ?fresh, ?count, by simp, by simp, by simp,
    fun _ => Or.inr ⟨?closed_ids_start, he.round, ?closed_ids_end⟩, fun _ k' => ?opening_lt,
    fun _ k' d hd => h.openingOk_new he hsettled.barrier hd, fun _ k' d hd hb => ?apart,
    fun _ => ?openingCounter, ?freshLeft, ?left, ?leftLatch⟩
  case closed_iff =>
    rw [h.closed_iff, Closed, Closed, he.mode]
    simp only [hcallsR]
  case outside =>
    intro r' k' hne hcl
    rw [he.calls, if_neg]
    · exact h.outside r' k' hne hcl
    · rintro ⟨rfl, -⟩
      exact absurd (hcl rfl) (by simp)
  case call =>
    intro k' d hd
    rw [hcallsR] at hd
    exact (h.call k' d hd).congr he.mode (by rw [he.barrier]) (fun _ => by rw [he.barrier])
      (by rw [he.latch]) (by rw [he.latch]) fun use => by rw [he.log]
  case present =>
    intro hop k' hk'
    rw [hcallsR]
    exact h.present (he.mode ▸ hop) k' hk'
  case width => rw [hwidths r (by omega)]; exact h.width hr
  case released => rw [he.log, he.mode]; exact h.released
  case added => rw [he.log, he.mode]; exact h.added
  case fresh =>
    intro r' use k' hin
    rw [he.log] at hin
    rw [he.next]
    rcases h.fresh r' use k' hin with hle | ⟨hr', huse, hcl, hlt⟩
    · exact Or.inl hle
    · exact Or.inr ⟨hr', huse, hcl, by omega⟩
  case count =>
    refine ⟨fun k' d hd => ?_, fun k' d k'' d' hd hd' => ?_, fun hop hin => ?_⟩
    · rw [hcallsR] at hd
      rw [he.log]
      exact h.count.all k' d hd
    · rw [hcallsR] at hd hd'
      exact h.count.unique k' d k'' d' hd hd'
    · rw [he.log] at hin
      obtain ⟨k', d, hd, hst⟩ := h.count.exists_last (he.mode ▸ hop) hin
      exact ⟨k', d, (hcallsR k').trans hd, hst⟩
  case closed_ids_start => rw [he.next]; omega
  case closed_ids_end => rw [he.next, he.width, Function.update_self]; exact hmore
  case opening_lt =>
    rw [he.calls, he.next]
    split
    · rename_i heq
      rw [heq.2]
      simp
    · rename_i hne
      rw [h.opening_lt rfl]
      constructor
      · omega
      · intro hlt
        have hkk : k' ≠ s.nextThreadId := fun heq => hne ⟨rfl, heq⟩
        omega
  case apart =>
    rw [hcallsR] at hd
    rw [he.mode] at hb
    rw [he.next]
    have hle := h.apart rfl k' d hd hb
    have hok := h.call k' d hd
    -- at a barrier behind the front, the call spins inside it
    have hhead : d.ops.head? = some .barrier := by
      refine (hok.stage.resolve_left fun hstart => ?_).trans hb
      have huse := hok.front_of_barrier hb (by simp [hstart])
      exact h.front_of_closed rfl (huse ▸ hb)
    have hne : k' ≠ s.nextThreadId := by
      rintro rfl
      exact hsettled.apart r d hd hhead
    omega
  case openingCounter =>
    rw [he.barrier, he.width, Function.update_self, h.arrivals_width hwidth, arrivals, arrivals,
      he.log]
  case freshLeft => rw [he.log]; exact h.freshLeft
  case left =>
    intro r' use k' hin k'' hk''
    rw [he.log] at hin ⊢
    have hle := h.freshLeft r' use k' hin
    rw [hwidths r' (by omega)] at hk''
    exact h.left r' use k' hin k'' hk''
  case leftLatch => rw [he.log]; exact h.leftLatch

theorem Inv.enterLast (h : Inv r n front true s) {nrThreads : Nat}
    (he : Enters (r + 1) nrThreads s t) (hsettled : Settled nrThreads s)
    (hround : s.entryRound = r + 1) (hwidth : 0 < s.nextThreadId → s.width (r + 1) = nrThreads)
    (hlast : s.nextThreadId + 1 = nrThreads) : Inv (r + 1) nrThreads 0 false t := by
  have hfirst : opAt t.flushMode 0 = some .barrier := by
    cases t.flushMode <;> rfl
  have hopening : ∀ k' d, t.calls (r + 1) k' = some d → OpeningOk (r + 1) t k' d :=
    fun k' d hd => h.openingOk_new he hsettled.barrier hd
  have hlt : ∀ k', t.calls (r + 1) k' ≠ none ↔ k' < nrThreads := by
    intro k'
    rw [he.calls]
    split
    · rename_i heq
      rw [heq.2]
      simp
      omega
    · rename_i hne
      have hkk : k' ≠ s.nextThreadId := fun heq => hne ⟨rfl, heq⟩
      rw [h.opening_lt rfl]
      omega
  have hstages : ∀ k' d, t.calls (r + 1) k' = some d →
      d.stage ≠ .worked ∧ d.stage ≠ .last ∧ d.stage ≠ .reset := by
    intro k' d hd
    rcases (hopening k' d hd).stage with hst | hst | hst <;> simp [hst]
  have hfresh : ∀ use k', .entered (r + 1) use k' ∈ t.log → use = 0 := by
    intro use k' hin
    rw [he.log] at hin
    rcases h.fresh (r + 1) use k' hin with hle | ⟨-, huse, -, -⟩
    · omega
    · exact huse
  have hnotAll : ¬ ∀ k' < nrThreads, .entered (r + 1) 0 k' ∈ t.log := by
    intro hin
    have hnext := hin s.nextThreadId (by omega)
    rw [he.log] at hnext
    exact h.not_entered_next hnext
  refine ⟨fun _ => by omega, fun _ => by omega, ?closed_iff, ?outside, ?call, ?present,
    fun _ => ?width, by simp, by simp, ?fresh,
    ⟨fun k' d hd hst => absurd hst (not_or.mpr (hstages k' d hd).2),
      fun k' d _ _ hd _ hst => absurd hst (not_or.mpr (hstages k' d hd).2),
      fun _ hin => absurd hin hnotAll⟩,
    ?counter, ?counterReset, fun _ => ⟨he.next.trans hlast, he.round⟩, by simp, by simp, by simp,
    by simp, by simp, ?freshLeft, ?left, ?leftLatch⟩
  case closed_iff =>
    simp only [Bool.false_eq_true, false_iff, Closed, hfirst, reduceCtorEq, false_or, not_exists]
    rintro d ⟨hd, hworked, -⟩
    exact (hstages 0 d hd).1 hworked
  case outside =>
    intro r' k' hne _
    rw [he.calls, if_neg fun heq => hne heq.1]
    by_cases hrr : r' ≤ r
    · exact hsettled.returned hlast r' (by omega) k'
    · exact h.outside r' k' (by omega) (by omega)
  case call =>
    intro k' d hd
    have hopen := hopening k' d hd
    have hk : k' < nrThreads := (hlt k').mp (by simp [hd])
    refine ⟨hk, Or.inl (by rw [hopen.use]; exact hopen.ops), Or.inr ?_, .ahead hopen.use ?_,
      fun use => ?_, fun _ => ?_, ?_⟩
    · rw [hopen.ops, hopen.use, hfirst]
      rfl
    · rw [hfirst, ahead_barrier]
      rcases hopen.stage with hst | hst | hst <;> simp [hst]
    · rw [hopen.use]
      constructor
      · intro hin
        obtain rfl := hfresh use k' hin
        rw [hopen.entered.mp hin]
        exact ⟨hfirst, Or.inr ⟨rfl, rfl⟩⟩
      · rintro ⟨-, hlt' | ⟨rfl, harrived⟩⟩
        · omega
        · refine hopen.entered.mpr ?_
          rcases hopen.stage with hst | hst | hst
          · rw [hst] at harrived
            cases harrived
          · rw [hst] at harrived
            cases harrived
          · exact hst
    · rw [hopen.barrier]
      simp [TurnedBarrier, hopen.use, hfirst]
    · rw [he.latch, hsettled.latch hlast k' hk]
      refine iff_of_false (by simp) ?_
      rintro (⟨-, ⟨w, hw⟩, -⟩ | ⟨heq, -⟩ | heq)
      · rw [hfirst] at hw
        cases hw
      · omega
      · omega
  case present => exact fun _ k' hk' => (hlt k').mpr hk'
  case width => rw [he.width, Function.update_self]
  case fresh =>
    intro r' use k' hin
    rw [he.log] at hin
    rcases h.fresh r' use k' hin with hle | ⟨hr', -⟩
    · exact Or.inl (by omega)
    · exact Or.inl (by omega)
  case counter =>
    intro _ _
    rw [if_pos hfirst, he.barrier, h.arrivals_width hwidth, arrivals, arrivals, he.log]
  case counterReset =>
    intro _ k' d hd hst
    exact absurd hst (hstages k' d hd).2.2
  case freshLeft =>
    intro r' use k' hin
    rw [he.log] at hin
    have hle := h.freshLeft r' use k' hin
    omega
  case left =>
    intro r' use k' hin k'' hk''
    rw [he.log] at hin ⊢
    have hle := h.freshLeft r' use k' hin
    rw [he.width, Function.update_of_ne (by omega)] at hk''
    exact h.left r' use k' hin k'' hk''
  case leftLatch => rw [he.log]; exact h.leftLatch

/-! ## Runs -/

theorem CallOk.spin_of_barrier (h : CallOk r n front closed s k c)
    (hop : opAt s.flushMode c.use = some .barrier)
    (hstage : c.stage ≠ .start ∧ c.stage ≠ .flipped ∧ c.stage ≠ .last ∧ c.stage ≠ .reset) :
    c.stage = .spin := by
  by_contra hspin
  have huse := h.front_of_barrier hop hspin
  have hnot := h.stage_of_front_barrier (huse ▸ hop) huse
  revert hstage hspin hnot
  cases c.stage <;> simp

theorem CallOk.spin_of_latch (h : CallOk r n front closed s k c) {w : Work}
    (hop : opAt s.flushMode c.use = some (.latch w))
    (hstage : c.stage ≠ .start ∧ c.stage ≠ .worked ∧ c.stage ≠ .added) : c.stage = .spin := by
  rcases h.placed with ⟨huse, hst⟩ | ⟨-, hst⟩ | ⟨-, -, hspin, -⟩
  · rw [← huse, hop, ahead_latch] at hst
    rcases hst with hst | ⟨hst, -⟩ | ⟨hst, -⟩
    · exact absurd hst hstage.1
    · exact absurd hst hstage.2.1
    · exact hst
  · rw [hop, behind_latch] at hst
    rcases hst with ⟨hst, -⟩ | ⟨hst, -⟩ | hst
    · exact absurd hst hstage.1
    · exact absurd hst hstage.2.2
    · exact hst
  · exact hspin

theorem Inv.advanced (h : Inv r n front closed s) (hcall : s.calls r k = some c)
    (hstep : Advanced s r k c t) : ∃ front' closed', Inv r n front' closed' t := by
  have hok := h.call k c hcall
  cases hstep with
  | returns hops => exact ⟨_, _, h.returns hcall hops⟩
  | test test rest hops => exact ⟨_, _, h.test hcall hops⟩
  | flip rest hops hstage => exact ⟨_, _, h.flip hcall hops hstage⟩
  | arrive rest hops hstage => exact ⟨_, _, h.arrive hcall hops hstage⟩
  | resetCounter rest hops hstage => exact ⟨_, _, h.resetCounter hcall hops hstage⟩
  | storeFlag rest hops hstage => exact ⟨_, _, h.storeFlag hcall hops hstage⟩
  | leaveBarrier rest hops hstage hreleased =>
      have hop := (remaining_barrier (hops ▸ hok.remaining)).1
      exact ⟨_, _, h.leaveBarrier hcall hops (hok.spin_of_barrier hop hstage) hreleased⟩
  | work mode w rest hops hstage hleader =>
      subst hleader
      exact ⟨_, _, h.work hcall hops hstage mode⟩
  | latchAdd w rest hops hstage => exact ⟨_, _, h.latchAdd hcall hstage⟩
  | latchWait w rest hops hstage => exact ⟨_, _, h.latchWait hcall hops hstage⟩
  | leaveLatch w rest hops hstage hreleased =>
      have hop := (remaining_latch (hops ▸ hok.remaining)).1
      exact ⟨_, _, h.leaveLatch hcall hops (hok.spin_of_latch hop hstage) hreleased⟩

theorem Inv.openingAdvanced (h : Inv r n front true s) (hcall : s.calls (r + 1) k = some c)
    (hstep : Advanced s (r + 1) k c t) : Inv r n front true t := by
  have hok := h.opening rfl k c hcall
  have hops := hok.ops
  cases hstep with
  | flip rest _ hstage => exact h.openingFlip hcall hstage
  | arrive rest _ hstage => exact h.openingArrive hcall hstage
  | leaveBarrier rest _ hstage hreleased =>
      have hsense := Barrier.released_iff.mp hreleased
      exact absurd (hok.barrier.mpr hstage.1) (not_not.mpr hsense)
  | resetCounter rest _ hstage =>
      rcases hok.stage with hst | hst | hst <;> rw [hst] at hstage <;> cases hstage
  | storeFlag rest _ hstage =>
      rcases hok.stage with hst | hst | hst <;> rw [hst] at hstage <;> cases hstage
  | returns hops' => rw [hops] at hops'; cases hops'
  | test test rest hops' => rw [hops] at hops'; cases hops'
  | work mode w rest hops' => rw [hops] at hops'; cases hops'
  | latchAdd w rest hops' => rw [hops] at hops'; cases hops'
  | latchWait w rest hops' => rw [hops] at hops'; cases hops'
  | leaveLatch w rest hops' => rw [hops] at hops'; cases hops'

theorem Inv.advance (h : Inv r n front closed s) {r' : Nat} {mode : FlushMode}
    (hstep : s.advance r' k mode = some t) : ∃ front' closed', Inv r n front' closed' t := by
  obtain ⟨c, hcall, hstep⟩ := advance_cases hstep
  by_cases hr : r' = r
  · subst hr
    exact h.advanced hcall hstep
  · have hopen : r' = r + 1 ∧ closed = true := by
      by_contra hnot
      have hnone := h.outside r' k hr fun heq => by
        rw [not_and] at hnot
        simpa using hnot heq
      rw [hnone] at hcall
      cases hcall
    obtain ⟨rfl, rfl⟩ := hopen
    exact ⟨_, _, h.openingAdvanced hcall hstep⟩

theorem Inv.entered_round (h : Inv r n front closed s) {nrThreads : Nat}
    (hsettled : Settled nrThreads s) (hstep : s.enter nrThreads = some t) :
    ∃ r' n' front' closed', Inv r' n' front' closed' t := by
  obtain ⟨rfl, hround, -, hlt, hwidth⟩ := h.closed_of_enter hstep
  have he := enters_of_enter hstep
  rw [hround] at he
  by_cases hlast : s.nextThreadId + 1 = nrThreads
  · exact ⟨_, _, _, _, h.enterLast he hsettled hround hwidth hlast⟩
  · exact ⟨_, _, _, _, h.enter he hsettled hwidth (by omega)⟩

/-- Before the first round, as if a round of no threads had ended. -/
theorem inv_init : Inv 0 0 3 true .init where
  pos hop := absurd rfl hop
  round_pos := by simp
  closed_iff := ⟨fun _ => Or.inl rfl, fun _ => rfl⟩
  outside _ _ _ _ := rfl
  call _ _ hcall := by cases hcall
  present hop := absurd rfl hop
  width := by simp
  released _ _ _ := by simp
  added := by simp
  fresh := by simp [State.init]
  count := ⟨fun _ _ hcall => (by cases hcall), fun _ _ _ _ hcall => (by cases hcall),
    fun hop => (by cases hop)⟩
  counter := by simp
  counterReset := by simp
  open_ids := by simp
  closed_ids _ := Or.inl ⟨rfl, rfl⟩
  opening_lt := by simp [State.init]
  opening _ _ _ hcall := by cases hcall
  apart _ _ _ hcall := by cases hcall
  openingCounter _ := rfl
  freshLeft := by simp [State.init]
  left := by simp [State.init]
  leftLatch := by simp [State.init]

/-! ## Safety -/

theorem CallOk.front_of_spins (h : CallOk r n front closed s k c) (hspins : s.Spins k c) :
    c.use = front ∧ c.stage = .spin ∧ opAt s.flushMode front ≠ none ∧
      (k = 0 → opAt s.flushMode front = some .barrier) := by
  obtain ⟨hspin, hblocked⟩ := hspins
  have hhead := h.stage.resolve_left (by simp [hspin])
  rw [hhead] at hblocked
  rcases opAt_cases s.flushMode c.use with hop | hop | ⟨w, hop⟩
  · rw [hop] at hblocked
    exact hblocked.elim
  · rw [hop] at hblocked
    have hne : s.barrier.localSense k ≠ s.barrier.flag := by
      intro heq
      rw [Barrier.released_iff.mpr heq] at hblocked
      cases hblocked
    obtain ⟨huse, hfront, -⟩ := (h.barrier fun _ => hop).mp hne
    exact ⟨huse, hspin, by simp [hfront], fun _ => hfront⟩
  · rw [hop] at hblocked
    have hne : s.latch.localSense k ≠ s.latch.flag := by
      intro heq
      rw [Barrier.released_iff.mpr heq] at hblocked
      cases hblocked
    have huse : c.use = front := by
      rcases h.placed with ⟨huse, -⟩ | ⟨huse, -⟩ | ⟨-, -, -, hbarrier, -⟩
      · exact huse
      · rcases h.latch.mp hne with ⟨heq, -⟩ | ⟨-, -, hnot⟩ | heq
        · omega
        · exact absurd hspin hnot
        · omega
      · rw [hop] at hbarrier
        cases hbarrier
    refine ⟨huse, hspin, by simp [← huse, hop], ?_⟩
    -- the leader adds to a latch before it waits
    rintro rfl
    rcases h.placed with ⟨-, hst⟩ | ⟨heq, -⟩ | ⟨heq, -⟩
    · rw [← huse, hop, ahead_latch, hspin] at hst
      simp at hst
    · omega
    · omega

theorem Inv.not_stuck (h : Inv r n front closed s) (r' : Nat) : ¬ s.Stuck r' := by
  rintro ⟨hentered, ⟨k, c, hcall⟩, hspins⟩
  by_cases hr : r' = r
  · subst hr
    obtain ⟨-, -, hop, -⟩ := (h.call k c hcall).front_of_spins (hspins k c hcall)
    have hn := h.pos hop
    have hspin : ∀ k' < n, ∃ c', s.calls r' k' = some c' ∧ c'.use = front ∧ c'.stage = .spin ∧
        (k' = 0 → opAt s.flushMode front = some .barrier) := by
      intro k' hk'
      obtain ⟨c', hc'⟩ := Option.ne_none_iff_exists'.mp (h.present hop k' hk')
      obtain ⟨huse, hst, -, hleader⟩ := (h.call k' c' hc').front_of_spins (hspins k' c' hc')
      exact ⟨c', hc', huse, hst, hleader⟩
    obtain ⟨-, -, -, -, hbarrier⟩ := hspin 0 hn
    have hfront := hbarrier rfl
    obtain ⟨k', c', hc', hst⟩ := h.count.exists_last hfront fun k' hk' => by
      obtain ⟨c', hc', huse, hst, -⟩ := hspin k' hk'
      rw [(h.call k' c' hc').entered front]
      exact ⟨hfront, Or.inr ⟨huse.symm, by rw [hst]; rfl⟩⟩
    have hspin' := (hspins k' c' hc').1
    rcases hst with hst | hst <;> rw [hst] at hspin' <;> cases hspin'
  · have hopen : r' = r + 1 ∧ closed = true := by
      by_contra hnot
      have hnone := h.outside r' k hr fun heq => by
        rw [not_and] at hnot
        simpa using hnot heq
      rw [hnone] at hcall
      cases hcall
    obtain ⟨rfl, rfl⟩ := hopen
    rcases h.closed_ids rfl with ⟨-, hround⟩ | ⟨hpos, hround, hlt⟩
    · rcases hentered with hlt | ⟨heq, -⟩ <;> omega
    · rcases hentered with hlt | ⟨heq, hids⟩ <;> omega

theorem Inv.safe (h : Inv r n front closed s) : s.Safe :=
  ⟨h.left, h.leftLatch, h.not_stuck⟩

/-- Barriers, latches and progress are safe in every run whose entries are settled. -/
theorem syncSafe_of_settled (s : State) : SyncSafe Settled s := by
  intro hs
  have hinv : ∃ r n front closed, Inv r n front closed s := by
    refine hs.invariant (I := fun s => ∃ r n front closed, Inv r n front closed s)
      ⟨_, _, _, _, inv_init⟩ ?_
    rintro u label t ⟨r, n, front, closed, h⟩ hadmits hstep
    cases label with
    | enter nrThreads => exact h.entered_round (hadmits nrThreads rfl) hstep
    | advance round tid mode =>
        obtain ⟨front', closed', h'⟩ := h.advance hstep
        exact ⟨_, _, _, _, h'⟩
  obtain ⟨r, n, front, closed, h⟩ := hinv
  exact h.safe

/-- A round of one thread with nothing to do, and then two threads: the second one leaves the
latch at once. -/
def passingRun : List Label :=
  let step (round tid count : Nat) : List Label :=
    List.replicate count (.advance round tid .noAction)
  .enter 1 :: step 1 0 14 ++ [.enter 2, .enter 2] ++ step 2 0 2 ++ step 2 1 4 ++ step 2 0 3 ++
    step 2 1 4 ++ step 2 0 1 ++ step 2 1 2

theorem not_syncSafe : ¬ ∀ s, SyncSafe (fun _ _ => True) s := by
  intro hsafe
  have hexec : ((machine.exec passingRun .init).map fun s =>
      decide (.leftLatch 2 2 1 ∈ s.log ∧ .added 2 2 ∉ s.log)) = some true := by
    decide
  obtain ⟨s, hs, hlog⟩ := Option.map_eq_some_iff.mp hexec
  obtain ⟨hleft, hnot⟩ := of_decide_eq_true hlog
  have hreach : machine.Reaches (fun _ _ => True) s := Machine.Reaches.init.exec hs
  exact hnot ((hsafe s (hreach.weaken fun _ _ _ _ _ => trivial)).latch 2 2 1 hleft)

end Libcrpm.CheckpointSync
