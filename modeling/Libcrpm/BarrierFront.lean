import Libcrpm.BarrierMoves

/-!
# Releasing a barrier or a latch

The steps that move the front of a round, and the work of the leader before a latch.
-/

namespace Libcrpm.CheckpointSync

open Libcrpm.Program

variable {r n front : Nat} {closed : Bool} {s t : State} {k : Nat} {c : Call} {d : Option Call}

/-! ## Steps that move the front -/

theorem CallOk.use_le (h : CallOk r n front closed s k c) : c.use ≤ front := by
  rcases h.placed with ⟨huse, -⟩ | ⟨huse, -⟩ | ⟨huse, -⟩ <;> omega

theorem CallOk.not_entered (h : CallOk r n front closed s k c) {use : Nat} (huse : front < use) :
    .entered r use k ∉ s.log := by
  rw [h.entered use]
  have hle := h.use_le
  rintro ⟨-, hlt | ⟨heq, -⟩⟩ <;> omega

theorem Inv.arrivals_after (h : Inv r n front closed s) (hop : opAt s.flushMode front ≠ none)
    {use : Nat} (huse : front < use) : arrivals r use n s = 0 := by
  rw [arrivals, List.countP_eq_zero]
  intro k' hk'
  obtain ⟨c', hc'⟩ := Option.ne_none_iff_exists'.mp
    (h.present hop k' (List.mem_range.mp hk'))
  simpa using (h.call k' c' hc').not_entered huse

/-- When the last one to arrive stores the flag, all calls are at the barrier. -/
theorem Inv.spin_of_reset (h : Inv r n front closed s) (hcall : s.calls r k = some c)
    (hstage : c.stage = .reset) {k' : Nat} {c' : Call} (hc' : s.calls r k' = some c')
    (hne : k' ≠ k) : c'.use = front ∧ c'.stage = .spin := by
  have hok := h.call k' c' hc'
  have hin := h.count.all k c hcall (Or.inr hstage) k' hok.lt
  have hle := hok.use_le
  rw [hok.entered front] at hin
  rcases hin with ⟨-, hlt | ⟨heq, harrived⟩⟩
  · omega
  · refine ⟨heq.symm, ?_⟩
    have hlast : ¬ (c'.stage = .last ∨ c'.stage = .reset) := fun hst =>
      hne (h.count.unique k' c' k c hc' hcall hst (Or.inr hstage))
    revert harrived hlast
    cases c'.stage <;> simp [Arrived]

theorem Inv.moveFront (h : Inv r n front closed s) {c' : Call}
    (hop : opAt s.flushMode front ≠ none) (hk : k < n)
    (hcalls : ∀ r' k', t.calls r' k' = if r' = r ∧ k' = k then some c' else s.calls r' k')
    (hmode : t.flushMode = s.flushMode) (hnext : t.nextThreadId = s.nextThreadId)
    (hround : t.round = s.round) (hwidth : t.width = s.width)
    (hentered : ∀ r' use k', .entered r' use k' ∈ t.log ↔ .entered r' use k' ∈ s.log)
    (hadded : ∀ r' use, .added r' use ∈ s.log → .added r' use ∈ t.log)
    (hleft : ∀ r' use k', .leftBarrier r' use k' ∈ t.log → .leftBarrier r' use k' ∈ s.log ∨
      (r' = r ∧ use = front ∧ opAt s.flushMode front = some .barrier))
    (hleftLatch : ∀ r' use k', .leftLatch r' use k' ∈ t.log → .leftLatch r' use k' ∈ s.log)
    (hall : opAt s.flushMode front = some .barrier → ∀ k' < n, .entered r front k' ∈ s.log)
    (hlatch : (∃ w, opAt s.flushMode front = some (.latch w)) → .added r front ∈ t.log)
    (hclosed : closed = true ↔ opAt s.flushMode (front + 1) = none)
    (hok : ∀ k' d, t.calls r k' = some d → CallOk r n (front + 1) closed t k' d)
    (hstage : ∀ k' d, t.calls r k' = some d →
      d.stage ≠ .worked ∧ d.stage ≠ .last ∧ d.stage ≠ .reset)
    (hbarrier : closed = true → t.barrier = s.barrier)
    (hcounter : closed = false → t.barrier.counter = 0)
    (hapart : closed = true → opAt s.flushMode c'.use ≠ some .barrier) :
    Inv r n (front + 1) closed t := by
  have hr : 0 < r := h.round_pos (by omega)
  have hopening : ∀ k', t.calls (r + 1) k' = s.calls (r + 1) k' := fun k' => by
    rw [hcalls, if_neg (by omega)]
  have harrivals : arrivals r (front + 1) n t = 0 := by
    rw [← h.arrivals_after hop (Nat.lt_succ_self front)]
    exact List.countP_congr fun k' _ => by simp [hentered]
  have hnone : ¬ ∀ k' < n, .entered r (front + 1) k' ∈ t.log := by
    intro hin
    obtain ⟨c, hc⟩ := Option.ne_none_iff_exists'.mp (h.present hop k hk)
    exact (h.call k c hc).not_entered (Nat.lt_succ_self front) ((hentered _ _ _).mp (hin k hk))
  refine ⟨fun _ => by omega, h.round_pos, ?closed_iff, ?outside, hok, ?present, hwidth ▸ h.width,
    ?released, ?added, ?fresh,
    ⟨fun k' d hd hst => absurd hst (not_or.mpr (hstage k' d hd).2),
      fun k' d _ _ hd _ hst => absurd hst (not_or.mpr (hstage k' d hd).2),
      fun _ hin => absurd hin hnone⟩,
    ?counter, ?counterReset, ?open_ids, ?closed_ids, ?opening_lt, ?opening, ?apart, ?openingCounter,
    ?freshLeft, ?left, ?leftLatch⟩
  case closed_iff =>
    rw [hclosed, Closed, hmode]
    refine ⟨Or.inl, ?_⟩
    rintro (hnone | ⟨d, hd, hworked, -⟩)
    · exact hnone
    · exact absurd hworked (hstage 0 d hd).1
  case outside =>
    intro r' k' hne hcl
    rw [hcalls, if_neg fun heq => hne heq.1]
    exact h.outside r' k' hne hcl
  case present =>
    intro _ k' hk'
    rw [hcalls]
    split
    · simp
    · exact h.present hop k' hk'
  case released =>
    intro use huse hb k' hk'
    rw [hmode] at hb
    rw [hentered]
    rcases Nat.lt_succ_iff_lt_or_eq.mp huse with hlt | rfl
    · exact h.released use hlt hb k' hk'
    · exact hall hb k' hk'
  case added =>
    intro hn use huse hw
    rw [hmode] at hw
    rcases Nat.lt_succ_iff_lt_or_eq.mp huse with hlt | rfl
    · exact hadded r use (h.added hn use hlt hw)
    · exact hlatch hw
  case fresh =>
    intro r' use k' hin
    rw [hnext]
    exact h.fresh r' use k' ((hentered r' use k').mp hin)
  case counter =>
    intro hcl _
    rw [hcounter hcl, harrivals]
    split <;> rfl
  case counterReset =>
    intro _ k' d hd hst
    exact absurd hst (hstage k' d hd).2.2
  case open_ids => rw [hnext, hround]; exact h.open_ids
  case closed_ids => rw [hnext, hround, hwidth]; exact h.closed_ids
  case opening_lt =>
    intro hcl k'
    rw [hopening, hnext]
    exact h.opening_lt hcl k'
  case opening =>
    intro hcl k' d hd
    rw [hopening] at hd
    have hopen := h.opening hcl k' d hd
    exact ⟨hopen.ops, hopen.use, hopen.stage, by rw [hbarrier hcl]; exact hopen.barrier,
      (hentered _ _ _).trans hopen.entered⟩
  case apart =>
    intro hcl k' d hd hb
    rw [hcalls] at hd
    rw [hmode] at hb
    rw [hnext]
    split at hd
    · obtain rfl := Option.some.inj hd
      exact absurd hb (hapart hcl)
    · exact h.apart hcl k' d hd hb
  case openingCounter =>
    intro hcl
    rw [hbarrier hcl, hwidth, h.openingCounter hcl]
    exact List.countP_congr fun k' _ => by simp [hentered]
  case freshLeft =>
    intro r' use k' hin
    rcases hleft r' use k' hin with hold | ⟨rfl, -⟩
    · exact h.freshLeft r' use k' hold
    · exact Nat.le_refl _
  case left =>
    intro r' use k' hin k'' hk''
    rw [hwidth] at hk''
    rw [hentered]
    rcases hleft r' use k' hin with hold | ⟨rfl, rfl, hb⟩
    · exact h.left r' use k' hold k'' hk''
    · rw [h.width hr] at hk''
      exact hall hb k'' hk''
  case leftLatch =>
    intro r' use k' hin
    exact hadded r' use (h.leftLatch r' use k' (hleftLatch r' use k' hin))

theorem Inv.storeFlag (h : Inv r n front closed s) (hcall : s.calls r k = some c)
    {rest : List Op} (hops : c.ops = .barrier :: rest) (hstage : c.stage = .reset) :
    Inv r n (front + 1) false (({ s with
      barrier := s.barrier.storeFlag (s.barrier.localSense k) }.leave r k c).record
        (.leftBarrier r c.use k)) := by
  have hok := h.call k c hcall
  obtain ⟨hop, hrest⟩ := remaining_barrier (hops ▸ hok.remaining)
  have huse := hok.front_of_barrier hop (by simp [hstage])
  have hfront : opAt s.flushMode front = some .barrier := huse ▸ hop
  have hcl := h.open_of_barrier hfront
  have hsucc := opAt_succ_of_barrier hfront
  have hn : 0 < n := by have := hok.lt; omega
  have hall := h.count.all k c hcall (Or.inr hstage)
  have hsense : ∀ k' c', s.calls r k' = some c' →
      s.barrier.localSense k' = s.barrier.localSense k := by
    intro k' c' hc'
    have hturned : ∀ k'' c'', s.calls r k'' = some c'' →
        s.barrier.localSense k'' ≠ s.barrier.flag := by
      intro k'' c'' hc''
      have hplace : c''.use = front ∧ c''.stage ≠ .start := by
        by_cases hk : k'' = k
        · subst hk
          rw [hcall] at hc''
          obtain rfl := Option.some.inj hc''
          exact ⟨huse, by simp [hstage]⟩
        · obtain ⟨hu, hs⟩ := h.spin_of_reset hcall hstage hc'' hk
          exact ⟨hu, by simp [hs]⟩
      exact ((h.call k'' c'' hc'').barrier fun _ => hplace.1 ▸ hfront).mpr
        ⟨hplace.1, hfront, hplace.2⟩
    have hone := hturned k' c' hc'
    have htwo := hturned k c hcall
    revert hone htwo
    cases s.barrier.localSense k' <;> cases s.barrier.localSense k <;>
      cases s.barrier.flag <;> simp
  have hlog : ∀ use k', .entered r use k' ∈ (({ s with
      barrier := s.barrier.storeFlag (s.barrier.localSense k) }.leave r k c).record
        (.leftBarrier r c.use k)).log ↔ .entered r use k' ∈ s.log := fun _ _ => by
    simp [State.record, State.leave, State.setCall]
  have hturned : ∀ k' d, s.calls r k' = some d → d.use = front →
      ∀ stage, ¬ TurnedLatch s.flushMode front ⟨d.ops, stage, d.use⟩ := by
    rintro k' d - hd stage (⟨-, ⟨w, hw⟩, -⟩ | ⟨heq, -⟩ | heq)
    · rw [hfront] at hw
      cases hw
    · rw [hd] at heq
      omega
    · rw [hd] at heq
      omega
  refine (hcl ▸ h : Inv r n front false s).moveFront (by simp [hfront]) hok.lt
    (calls_setCall _ r k _) rfl rfl rfl rfl
    (fun _ _ _ => by simp [State.record, State.leave, State.setCall])
    (fun _ _ hin => List.mem_cons_of_mem _ hin) ?_ ?_ (fun _ => hall) ?_ ?_ ?_ ?_ (by simp)
    (fun _ => h.counterReset hcl k c hcall hstage) (by simp)
  · intro r' use k' hin
    rcases List.mem_cons.mp hin with heq | hin
    · cases heq
      exact Or.inr ⟨rfl, huse, hfront⟩
    · exact Or.inl hin
  · intro r' use k' hin
    simpa [State.record, State.leave, State.setCall] using hin
  · rintro ⟨w, hw⟩
    rw [hfront] at hw
    cases hw
  · simpa using hsucc
  · intro k' d hd
    change (State.setCall r k _ _).calls r k' = _ at hd
    rw [calls_setCall] at hd
    split at hd
    · rename_i heq
      obtain rfl := Option.some.inj hd
      rw [heq.2]
      refine ⟨hok.lt, by rw [hops]; exact hrest, Or.inl rfl, .ahead (by simp [huse]) ?_,
        fun use => (hlog use k).trans (hok.entered_leave (fun _ => by rw [hstage]; rfl) use),
        fun _ => ?_, ?_⟩
      · change Ahead _ (opAt s.flushMode (front + 1)) _ = true
        rcases opAt_cases s.flushMode (front + 1) with hf | hf | ⟨w, hf⟩ <;> simp [hf]
      · simp [TurnedBarrier, State.record, State.leave, State.setCall, Barrier.storeFlag]
      · change s.latch.localSense k ≠ s.latch.flag ↔ _
        rw [hok.latch]
        refine iff_of_false (hturned k c hcall huse c.stage) ?_
        rintro (⟨-, -, hspin⟩ | ⟨heq, -⟩ | heq)
        · cases hspin
        · simp only [huse] at heq
          omega
        · simp only [huse] at heq
          omega
    · rename_i hne
      have hkk : k' ≠ k := fun heq => hne ⟨rfl, heq⟩
      obtain ⟨hd', hspin⟩ := h.spin_of_reset hcall hstage hd hkk
      have hdok := h.call k' d hd
      refine ⟨hdok.lt, hdok.remaining, hdok.stage, .behind (by omega) ?_,
        fun use => (hlog use k').trans (hdok.entered use), fun _ => ?_, ?_⟩
      · change Behind _ (opAt s.flushMode d.use) _ = true
        rw [hd', hfront, behind_barrier]
        exact hspin
      · change s.barrier.localSense k' ≠ s.barrier.localSense k ↔ _
        refine iff_of_false (not_not.mpr (hsense k' d hd)) ?_
        rintro ⟨heq, -⟩
        omega
      · change s.latch.localSense k' ≠ s.latch.flag ↔ _
        rw [hdok.latch]
        refine iff_of_false (hturned k' d hd hd' d.stage) ?_
        rintro (⟨heq, -⟩ | ⟨-, ⟨w, hw⟩, -⟩ | heq)
        · omega
        · change opAt s.flushMode d.use = _ at hw
          rw [hd', hfront] at hw
          cases hw
        · omega
  · intro k' d hd
    change (State.setCall r k _ _).calls r k' = _ at hd
    rw [calls_setCall] at hd
    split at hd
    · obtain rfl := Option.some.inj hd
      simp
    · rename_i hne
      obtain ⟨-, hspin⟩ := h.spin_of_reset hcall hstage hd fun heq => hne ⟨rfl, heq⟩
      simp [hspin]

theorem Inv.stage_of_latch (h : Inv r n front closed s) {w : Work}
    (hop : opAt s.flushMode front = some (.latch w)) {k' : Nat} {d : Call}
    (hd : s.calls r k' = some d) : d.stage ≠ .last ∧ d.stage ≠ .reset := by
  rw [← not_or]
  intro hst
  have hb := ((h.call k' d hd).front_of_last hst).2
  rw [hop] at hb
  cases hb

theorem Inv.counter_of_latch (h : Inv r n front closed s) {w : Work}
    (hop : opAt s.flushMode front = some (.latch w)) (hcl : closed = false) :
    s.barrier.counter = 0 := by
  rw [h.counter hcl fun k' d hd => (h.stage_of_latch hop hd).2, hop]
  rfl

theorem CallOk.latchAdd (h : CallOk r n front closed s k c) {w : Work}
    (hop : opAt s.flushMode front = some (.latch w)) (hk : k ≠ 0) :
    Placed s.flushMode (front + 1) (k == 0) c ∧
      (TurnedLatch s.flushMode (front + 1) c ↔ ¬ TurnedLatch s.flushMode front c) := by
  have hleader : (k == 0) = false := by simpa using hk
  have hprev : ∀ use, use + 1 = front → opAt s.flushMode use = some .barrier := by
    rintro use rfl
    exact opAt_of_succ_latch hop
  rcases h.placed with ⟨huse, hst⟩ | ⟨huse, hst⟩ | ⟨huse, -, -, -, w', hw'⟩
  · rw [hop, ahead_latch, hleader] at hst
    have hstage : c.stage = .start ∨ c.stage = .spin := by simpa using hst
    refine ⟨.behind (by omega) ?_, ?_⟩
    · rw [huse, hop, behind_latch, hleader]
      simpa using hstage
    · have hfront : ∃ w, opAt s.flushMode front = some (.latch w) := ⟨w, hop⟩
      simp only [TurnedLatch, huse, hfront, true_and]
      simp
  · rw [hprev c.use huse, behind_barrier] at hst
    refine ⟨.twoBehind (by omega) hleader hst (hprev c.use huse) w (huse ▸ hop), ?_⟩
    refine iff_of_true (Or.inr (Or.inr (by omega))) ?_
    rintro (⟨heq, -⟩ | ⟨-, ⟨w', hw'⟩, -⟩ | heq)
    · omega
    · rw [hprev c.use huse] at hw'
      cases hw'
    · omega
  · rw [hprev (c.use + 1) huse] at hw'
    cases hw'

theorem Inv.latchAdd (h : Inv r n front closed s) (hcall : s.calls r k = some c)
    (hstage : c.stage = .worked) :
    Inv r n (front + 1) closed (({ s with latch := s.latch.latchAdd k }.setCall r k
      (some { c with stage := .added })).record (.added r c.use)) := by
  have hok := h.call k c hcall
  obtain ⟨huse, rfl, w', hop⟩ := hok.front_of_worked hstage
  have hsense : s.latch.localSense 0 = s.latch.flag := by
    by_contra hne
    rcases hok.latch.mp hne with ⟨-, -, hspin⟩ | ⟨heq, -⟩ | heq
    · rw [hstage] at hspin
      cases hspin
    · omega
    · omega
  have hflag : ∀ x : Bool, (x ≠ !s.latch.localSense 0) ↔ ¬ (x ≠ s.latch.flag) := by
    intro x
    rw [hsense]
    cases x <;> cases s.latch.flag <;> simp
  have hlog : ∀ r' use k', .entered r' use k' ∈ ((({ s with
      latch := s.latch.latchAdd 0 } : State).setCall r 0 (some { c with stage := .added })).record
        (.added r c.use)).log ↔ .entered r' use k' ∈ s.log := fun _ _ _ => by
    simp [State.record, State.setCall]
  refine h.moveFront (by simp [hop]) hok.lt (calls_setCall _ r 0 _) rfl rfl rfl rfl hlog
    (fun _ _ hin => List.mem_cons_of_mem _ hin) (fun _ _ _ hin => Or.inl ?_)
    (fun _ _ _ hin => ?_) ?_ (fun _ => ?_) ?_ ?_ ?_ (fun _ => rfl) (h.counter_of_latch hop) ?_
  · simpa [State.record, State.setCall] using hin
  · simpa [State.record, State.setCall] using hin
  · intro hb
    rw [hop] at hb
    cases hb
  · rw [← huse]
    exact List.mem_cons_self
  · rw [h.closed_iff, Closed, hop]
    simp only [reduceCtorEq, false_or]
    constructor
    · rintro ⟨d, hd, -, hnone⟩
      exact hnone
    · exact fun hnone => ⟨c, hcall, hstage, hnone⟩
  · intro k' d hd
    change (State.setCall r 0 _ _).calls r k' = _ at hd
    rw [calls_setCall] at hd
    split at hd
    · rename_i heq
      obtain rfl := Option.some.inj hd
      rw [heq.2]
      refine ⟨hok.lt, hok.remaining, Or.inr ?_, .behind (by simp [huse]) ?_,
        fun use => (hlog r use 0).trans ?_, fun hcl => ?_, ?_⟩
      · exact (hok.stage.resolve_left (by simp [hstage]))
      · change Behind _ (opAt s.flushMode c.use) _ = true
        rw [huse, hop, behind_latch]
        exact Or.inr (Or.inl ⟨rfl, rfl⟩)
      · rw [← show Arrived c.stage = Arrived .added by rw [hstage]; rfl]
        exact hok.entered use
      · change s.barrier.localSense 0 ≠ s.barrier.flag ↔ _
        rw [hok.barrier hcl]
        refine iff_of_false ?_ ?_
        · rintro ⟨-, hb, -⟩
          rw [hop] at hb
          cases hb
        · rintro ⟨heq', -⟩
          simp only [huse] at heq'
          omega
      · change s.latch.localSense 0 ≠ (!s.latch.localSense 0) ↔ _
        rw [hflag, hsense]
        simp only [ne_eq, not_true_eq_false, not_false_eq_true, true_iff]
        refine Or.inr (Or.inl ⟨by simp [huse], ⟨w', ?_⟩, by simp⟩)
        change opAt s.flushMode c.use = _
        rw [huse, hop]
    · rename_i hne
      have hkk : k' ≠ 0 := fun heq => hne ⟨rfl, heq⟩
      have hdok := h.call k' d hd
      obtain ⟨hplaced, hturned⟩ := hdok.latchAdd hop hkk
      refine ⟨hdok.lt, hdok.remaining, hdok.stage, hplaced,
        fun use => (hlog r use k').trans (hdok.entered use), fun hcl => ?_, ?_⟩
      · change s.barrier.localSense k' ≠ s.barrier.flag ↔ _
        rw [hdok.barrier hcl]
        refine iff_of_false ?_ ?_
        · rintro ⟨-, hb, -⟩
          rw [hop] at hb
          cases hb
        · rintro ⟨heq', -⟩
          have := hdok.use_le
          omega
      · change s.latch.localSense k' ≠ (!s.latch.localSense 0) ↔ TurnedLatch s.flushMode _ d
        rw [hflag, hdok.latch, hturned]
  · intro k' d hd
    change (State.setCall r 0 _ _).calls r k' = _ at hd
    rw [calls_setCall] at hd
    split at hd
    · obtain rfl := Option.some.inj hd
      simp
    · rename_i hne
      refine ⟨fun hworked => ?_, h.stage_of_latch hop hd⟩
      exact hne ⟨rfl, ((h.call k' d hd).front_of_worked hworked).2.1⟩
  · intro _ hb
    change opAt s.flushMode c.use = _ at hb
    rw [huse, hop] at hb
    cases hb

/-! ## The work of the leader -/

theorem opAt_determineMode {mode : FlushMode} {use : Nat}
    (h : opAt mode use = some (.latch .determineMode)) : use = 2 := by
  match use with
  | 0 | 1 | 2 | 3 | 4 | 5 | 6 => cases mode <;> simp_all [opAt, syncOps]
  | use + 7 => cases mode <;> simp [opAt, syncOps] at h

theorem opAt_succ_commit {mode : FlushMode} {use : Nat}
    (h : opAt mode use = some (.latch .commit)) : opAt mode (use + 1) ≠ none := by
  match use with
  | 0 | 1 | 2 | 3 | 4 | 5 | 6 => cases mode <;> simp_all [opAt, syncOps]
  | use + 7 => cases mode <;> simp [opAt, syncOps] at h

theorem opAt_succ_finish {mode : FlushMode} {use : Nat}
    (h : opAt mode use = some (.latch .finish)) : opAt mode (use + 1) = none := by
  match use with
  | 0 | 1 | 2 | 3 | 4 | 5 | 6 => cases mode <;> simp_all [opAt, syncOps]
  | use + 7 => cases mode <;> simp [opAt, syncOps] at h

theorem nextThreadId_work {w : Work} (mode : FlushMode)
    (hop : opAt s.flushMode front = some (.latch w)) :
    (s.work mode w).nextThreadId =
      if opAt (s.work mode w).flushMode (front + 1) = none then 0 else s.nextThreadId := by
  cases w with
  | determineMode =>
      obtain rfl := opAt_determineMode hop
      cases mode <;> rfl
  | commit => exact (if_neg (opAt_succ_commit hop)).symm
  | finish => exact (if_pos (opAt_succ_finish hop)).symm

theorem opAt_work {w : Work} (mode : FlushMode) (hop : opAt s.flushMode front = some (.latch w))
    {use : Nat} (huse : use ≤ front) :
    opAt (s.work mode w).flushMode use = opAt s.flushMode use := by
  cases w with
  | determineMode =>
      obtain rfl := opAt_determineMode hop
      exact opAt_mode mode s.flushMode huse
  | commit => rfl
  | finish => rfl

theorem remaining_work {w : Work} (mode : FlushMode)
    (hop : opAt s.flushMode front = some (.latch w)) {use : Nat} (huse : use ≤ front)
    {ops : List Op} (h : Remaining s.flushMode use ops) :
    Remaining (s.work mode w).flushMode use ops := by
  cases w with
  | determineMode =>
      obtain rfl := opAt_determineMode hop
      exact remaining_mode mode huse h
  | commit => exact h
  | finish => exact h

theorem CallOk.congr_mode (h : CallOk r n front false s k c) (closed : Bool)
    (hmode : ∀ use ≤ front, opAt t.flushMode use = opAt s.flushMode use)
    (hremaining : Remaining t.flushMode c.use c.ops)
    (hbarrier : t.barrier = s.barrier) (hlatch : t.latch = s.latch) (hlog : t.log = s.log) :
    CallOk r n front closed t k c := by
  have huse := h.use_le
  refine ⟨h.lt, hremaining, ?_, ?_, fun use => ?_, fun _ => ?_, ?_⟩
  · rw [hmode c.use huse]
    exact h.stage
  · rcases h.placed with ⟨heq, hst⟩ | ⟨heq, hst⟩ | ⟨heq, hl, hst, hop, w, hnext⟩
    · exact .ahead heq (by rw [hmode front (Nat.le_refl _)]; exact hst)
    · exact .behind heq (by rw [hmode c.use huse]; exact hst)
    · exact .twoBehind heq hl hst (by rw [hmode c.use huse]; exact hop) w
        (by rw [hmode (c.use + 1) (by omega)]; exact hnext)
  · rw [hlog, h.entered use]
    refine and_congr_left fun hle => ?_
    rw [hmode use (by omega)]
  · rw [hbarrier, h.barrier (by simp)]
    unfold TurnedBarrier
    rw [hmode front (Nat.le_refl _)]
  · rw [hlatch, h.latch]
    unfold TurnedLatch
    rw [hmode front (Nat.le_refl _), hmode c.use huse]

/-- What the work before the latch at the front does: it changes the mode and the ids only. -/
structure Worked (front : Nat) (w : Work) (s t : State) : Prop where
  barrier : t.barrier = s.barrier
  latch : t.latch = s.latch
  log : t.log = s.log
  calls : t.calls = s.calls
  round : t.round = s.round
  width : t.width = s.width
  mode : ∀ use ≤ front, opAt t.flushMode use = opAt s.flushMode use
  atFront : opAt t.flushMode front = some (.latch w)
  nextThreadId : t.nextThreadId =
    if opAt t.flushMode (front + 1) = none then 0 else s.nextThreadId
  remaining : ∀ use ≤ front, ∀ ops, Remaining s.flushMode use ops → Remaining t.flushMode use ops

theorem worked_work {w : Work} (mode : FlushMode) (hop : opAt s.flushMode front = some (.latch w)) :
    Worked front w s (s.work mode w) := by
  have hmode : ∀ use ≤ front, opAt (s.work mode w).flushMode use = opAt s.flushMode use :=
    fun use huse => opAt_work mode hop huse
  have hfront := (hmode front (Nat.le_refl _)).trans hop
  have hremaining : ∀ use ≤ front, ∀ ops, Remaining s.flushMode use ops →
      Remaining (s.work mode w).flushMode use ops := fun _ huse _ h => remaining_work mode hop huse h
  have hnext := nextThreadId_work mode hop
  cases w <;> exact ⟨rfl, rfl, rfl, rfl, rfl, rfl, hmode, hfront, hnext, hremaining⟩

theorem CallOk.worked (h : CallOk r n front false s k c) {w : Work} (hw : Worked front w s t)
    (closed : Bool) : CallOk r n front closed t k c :=
  h.congr_mode closed hw.mode (hw.remaining c.use h.use_le c.ops h.remaining) hw.barrier hw.latch
    hw.log

theorem CallOk.worked_leader (h : CallOk r n front false s 0 c) {w : Work} (hw : Worked front w s t)
    {rest : List Op} (hops : c.ops = .latch w :: rest) (hstage : c.stage = .start)
    (huse : c.use = front) (closed : Bool) :
    CallOk r n front closed (t.setCall r 0 (some { c with stage := .worked })) 0
      { c with stage := .worked } := by
  have hthis := h.worked hw closed
  refine ⟨hthis.lt, hthis.remaining, Or.inr ?_, .ahead huse ?_, fun use => ?_, fun hc => ?_, ?_⟩
  · change c.ops.head? = opAt t.flushMode c.use
    rw [hops, huse, hw.atFront]
    rfl
  · change Ahead _ (opAt t.flushMode front) _ = true
    rw [hw.atFront, ahead_latch]
    exact Or.inr (Or.inl ⟨rfl, rfl⟩)
  · rw [← show Arrived c.stage = Arrived .worked by rw [hstage]; rfl]
    exact hthis.entered use
  · change t.barrier.localSense 0 ≠ t.barrier.flag ↔ TurnedBarrier t.flushMode front _
    rw [hthis.barrier hc]
    refine iff_of_false ?_ ?_ <;>
    · rintro ⟨-, hb, -⟩
      rw [hw.atFront] at hb
      cases hb
  · change t.latch.localSense 0 ≠ t.latch.flag ↔ TurnedLatch t.flushMode front _
    rw [hthis.latch]
    simp [TurnedLatch, huse, hstage]

theorem Inv.front_of_work (h : Inv r n front closed s) (hcall : s.calls r 0 = some c) {w : Work}
    {rest : List Op} (hops : c.ops = .latch w :: rest) (hstage : c.stage = .start) :
    c.use = front ∧ opAt s.flushMode front = some (.latch w) ∧ closed = false := by
  have hok := h.call 0 c hcall
  obtain ⟨hlatch, -⟩ := remaining_latch (hops ▸ hok.remaining)
  have huse : c.use = front := by
    rcases hok.placed with ⟨huse, -⟩ | ⟨-, hst⟩ | ⟨-, -, hspin, -⟩
    · exact huse
    · rw [hlatch, behind_latch, hstage] at hst
      simp at hst
    · rw [hstage] at hspin
      cases hspin
  have hop : opAt s.flushMode front = some (.latch w) := huse ▸ hlatch
  refine ⟨huse, hop, ?_⟩
  cases hc : closed with
  | false => rfl
  | true =>
      rcases h.closed_iff.mp hc with hnone | ⟨d, hd, hworked, -⟩
      · rw [hop] at hnone
        cases hnone
      · rw [hcall] at hd
        obtain rfl := Option.some.inj hd
        rw [hstage] at hworked
        cases hworked

theorem Inv.work (h : Inv r n front closed s) (hcall : s.calls r 0 = some c)
    {w : Work} {rest : List Op} (hops : c.ops = .latch w :: rest) (hstage : c.stage = .start)
    (mode : FlushMode) :
    Inv r n front (decide (opAt (s.work mode w).flushMode (front + 1) = none))
      ((s.work mode w).setCall r 0 (some { c with stage := .worked })) := by
  obtain ⟨huse, hop, rfl⟩ := h.front_of_work hcall hops hstage
  obtain ⟨hnextId, hround⟩ := h.open_ids rfl
  have hn : 0 < n := (h.call 0 c hcall).lt
  have hw := worked_work mode hop
  obtain ⟨t, ht⟩ : ∃ t, t = s.work mode w := ⟨_, rfl⟩
  rw [← ht] at hw ⊢
  have hcalls : ∀ r' k', (t.setCall r 0 (some { c with stage := .worked })).calls r' k' =
      if r' = r ∧ k' = 0 then some { c with stage := .worked } else s.calls r' k' := by
    intro r' k'
    rw [calls_setCall, hw.calls]
  have hopening : ∀ k', (t.setCall r 0 (some { c with stage := .worked })).calls (r + 1) k' =
      none := fun k' => by
    rw [hcalls, if_neg (by omega)]
    exact h.outside (r + 1) k' (by omega) fun _ => rfl
  have hstages : ∀ k' d, (t.setCall r 0 (some { c with stage := .worked })).calls r k' = some d →
      d.stage ≠ .last ∧ d.stage ≠ .reset := by
    intro k' d hd
    rw [hcalls] at hd
    split at hd
    · obtain rfl := Option.some.inj hd
      simp
    · exact h.stage_of_latch hop hd
  have hclosedId : decide (opAt t.flushMode (front + 1) = none) = true → t.nextThreadId = 0 := by
    intro hclosed
    rw [hw.nextThreadId, if_pos (of_decide_eq_true hclosed)]
  have hcounter := h.counter_of_latch hop rfl
  refine ⟨fun _ => hn, h.round_pos, ?closed_iff, ?outside, ?call, ?present, hw.width ▸ h.width,
    ?released, ?added, ?fresh,
    ⟨fun k' d hd hst => absurd hst (not_or.mpr (hstages k' d hd)),
      fun k' d _ _ hd _ hst => absurd hst (not_or.mpr (hstages k' d hd)),
      ?count⟩,
    ?counter, ?counterReset, ?open_ids, ?closed_ids, ?opening_lt, ?opening, ?apart, ?openingCounter,
    ?freshLeft, ?left, ?leftLatch⟩
  case closed_iff =>
    rw [decide_eq_true_iff, Closed]
    refine ⟨fun hnone => Or.inr ⟨_, (hcalls r 0).trans (if_pos ⟨rfl, rfl⟩), rfl, hnone⟩, ?_⟩
    rintro (hnone | ⟨-, -, -, hnone⟩)
    · rw [show (t.setCall r 0 (some { c with stage := .worked })).flushMode = t.flushMode from rfl,
        hw.atFront] at hnone
      cases hnone
    · exact hnone
  case outside =>
    intro r' k' hne _
    rw [hcalls, if_neg fun heq => hne heq.1]
    exact h.outside r' k' hne fun _ => rfl
  case call =>
    intro k' d hd
    rw [hcalls] at hd
    split at hd
    · rename_i heq
      obtain rfl := Option.some.inj hd
      rw [heq.2]
      exact (h.call 0 c hcall).worked_leader hw hops hstage huse _
    · exact ((h.call k' d hd).worked hw _).congr rfl rfl (fun _ => rfl) rfl rfl fun _ => Iff.rfl
  case present =>
    intro _ k' hk'
    rw [hcalls]
    split
    · simp
    · exact h.present (by simp [hop]) k' hk'
  case released =>
    intro use hlt hb
    change opAt t.flushMode use = _ at hb
    rw [hw.mode use (by omega)] at hb
    rw [show (t.setCall r 0 (some { c with stage := .worked })).log = t.log from rfl, hw.log]
    exact h.released use hlt hb
  case added =>
    intro _ use hlt hb
    change ∃ w, opAt t.flushMode use = _ at hb
    rw [hw.mode use (by omega)] at hb
    rw [show (t.setCall r 0 (some { c with stage := .worked })).log = t.log from rfl, hw.log]
    exact h.added hn use hlt hb
  case fresh =>
    intro r' use k' hin
    change _ ∈ t.log at hin
    rw [hw.log] at hin
    rcases h.fresh r' use k' hin with hle | ⟨-, -, hfalse, -⟩
    · exact Or.inl hle
    · cases hfalse
  case count =>
    intro hb
    change opAt t.flushMode front = _ at hb
    rw [hw.atFront] at hb
    cases hb
  case counter =>
    intro _ _
    have hno : opAt (t.setCall r 0 (some { c with stage := .worked })).flushMode front ≠
        some .barrier := by
      change opAt t.flushMode front ≠ _
      simp [hw.atFront]
    rw [if_neg hno]
    change t.barrier.counter = 0
    rw [hw.barrier, hcounter]
  case counterReset =>
    intro _ k' d hd hst
    exact absurd hst (hstages k' d hd).2
  case open_ids =>
    intro hopen
    change t.nextThreadId = n ∧ t.round = r
    rw [hw.nextThreadId, if_neg (of_decide_eq_false hopen), hw.round]
    exact ⟨hnextId, hround⟩
  case closed_ids =>
    intro hclosed
    exact Or.inl ⟨hclosedId hclosed, hw.round.trans hround⟩
  case opening_lt =>
    intro hclosed k'
    change _ ↔ k' < t.nextThreadId
    rw [hopening, hclosedId hclosed]
    simp
  case opening =>
    intro _ k' d hd
    rw [hopening] at hd
    cases hd
  case apart =>
    intro hclosed k' _ _ _
    change t.nextThreadId ≤ k'
    rw [hclosedId hclosed]
    exact Nat.zero_le _
  case openingCounter =>
    intro _
    change t.barrier.counter = (List.range _).countP fun k => decide (_ ∈ t.log)
    rw [hw.barrier, hcounter, eq_comm, List.countP_eq_zero]
    intro k' _ hin
    rw [decide_eq_true_iff, hw.log] at hin
    rcases h.fresh (r + 1) 0 k' hin with hle | ⟨-, -, hfalse, -⟩
    · omega
    · cases hfalse
  case freshLeft =>
    intro r' use k' hin
    change _ ∈ t.log at hin
    exact h.freshLeft r' use k' (hw.log ▸ hin)
  case left =>
    intro r' use k' hin k'' hk''
    change _ ∈ t.log at hin ⊢
    change k'' < t.width r' at hk''
    rw [hw.log] at hin ⊢
    rw [hw.width] at hk''
    exact h.left r' use k' hin k'' hk''
  case leftLatch =>
    intro r' use k' hin
    change _ ∈ t.log at hin ⊢
    rw [hw.log] at hin ⊢
    exact h.leftLatch r' use k' hin

end Libcrpm.CheckpointSync
