import Libcrpm.BarrierRounds

/-!
# Steps at the barrier and the latch

The steps that move one call of a round and release nobody.
-/

namespace Libcrpm.CheckpointSync

open Libcrpm.Program

variable {r n front : Nat} {closed : Bool} {s t : State} {k : Nat} {c : Call} {d : Option Call}

/-! ## Steps that move one call -/

/-- `t` is `s` with call `k` of round `r` moved; flags, ids and the mode are the same. -/
structure Moves (r k : Nat) (c : Option Call) (s t : State) : Prop where
  calls : ∀ r' k', t.calls r' k' = if r' = r ∧ k' = k then c else s.calls r' k'
  mode : t.flushMode = s.flushMode
  next : t.nextThreadId = s.nextThreadId
  round : t.round = s.round
  width : t.width = s.width
  flag : t.barrier.flag = s.barrier.flag
  latchFlag : t.latch.flag = s.latch.flag
  sense : ∀ k' ≠ k, t.barrier.localSense k' = s.barrier.localSense k'
  latchSense : ∀ k' ≠ k, t.latch.localSense k' = s.latch.localSense k'
  entered : ∀ r' use k', (r' = r → k' ≠ k) → (.entered r' use k' ∈ t.log ↔ .entered r' use k' ∈ s.log)
  keeps : ∀ use, .entered r use k ∈ s.log → .entered r use k ∈ t.log
  added : ∀ r' use, .added r' use ∈ t.log ↔ .added r' use ∈ s.log

theorem Moves.mono (hm : Moves r k d s t) {r' use k' : Nat} (h : .entered r' use k' ∈ s.log) :
    .entered r' use k' ∈ t.log := by
  by_cases hrk : r' = r ∧ k' = k
  · obtain ⟨rfl, rfl⟩ := hrk
    exact hm.keeps use h
  · exact (hm.entered r' use k' fun hr hk => hrk ⟨hr, hk⟩).mpr h

theorem Moves.closed_iff (hm : Moves r k d s t) (hcall : s.calls r k = some c)
    (hold : c.stage ≠ .worked) (hnew : ∀ c', d = some c' → c'.stage ≠ .worked) :
    Closed r front t ↔ Closed r front s := by
  unfold Closed
  rw [hm.mode, hm.calls]
  refine or_congr Iff.rfl (exists_congr fun c' => and_congr_left fun hc' => ?_)
  split
  · rename_i hk
    constructor
    · intro hd
      exact absurd hc'.1 (hnew c' hd)
    · intro hs
      rw [hk.2, hcall] at hs
      obtain rfl := Option.some.inj hs
      exact absurd hc'.1 hold
  · exact Iff.rfl

theorem Inv.move (h : Inv r n front closed s) (hm : Moves r k d s t)
    (hcall : s.calls r k = some c) (hold : c.stage ≠ .worked)
    (hnotWorked : ∀ c', d = some c' → c'.stage ≠ .worked)
    (hnew : ∀ c', d = some c' → CallOk r n front closed t k c')
    (hgone : d = none → opAt s.flushMode front = none)
    (hbarrier : closed = true → t.barrier = s.barrier)
    (hapart : closed = true → ∀ c', d = some c' → opAt s.flushMode c'.use = some .barrier →
      opAt s.flushMode c.use = some .barrier)
    (hcount : CountOk r n front t)
    (hcounter : closed = false → (∀ k c, t.calls r k = some c → c.stage ≠ .reset) →
      t.barrier.counter =
        if opAt t.flushMode front = some .barrier then arrivals r front n t else 0)
    (hcounterReset : closed = false → ∀ k c, t.calls r k = some c → c.stage = .reset →
      t.barrier.counter = 0)
    (hleft : ∀ r' use k', .leftBarrier r' use k' ∈ t.log → .leftBarrier r' use k' ∈ s.log ∨
      (r' = r ∧ use < front ∧ opAt s.flushMode use = some .barrier))
    (hleftLatch : ∀ r' use k', .leftLatch r' use k' ∈ t.log → .leftLatch r' use k' ∈ s.log ∨
      (r' = r ∧ use < front ∧ ∃ w, opAt s.flushMode use = some (.latch w))) :
    Inv r n front closed t := by
  have hk : k < n := (h.call k c hcall).lt
  have hr : 0 < r := h.round_pos (by omega)
  have hnext : ∀ k', t.calls (r + 1) k' = s.calls (r + 1) k' := fun k' => by
    rw [hm.calls, if_neg (by omega)]
  have hlogNext : ∀ use k', .entered (r + 1) use k' ∈ t.log ↔ .entered (r + 1) use k' ∈ s.log :=
    fun use k' => hm.entered (r + 1) use k' (by omega)
  have hclosed : Closed r front t ↔ Closed r front s := hm.closed_iff hcall hold hnotWorked
  refine ⟨?pos, h.round_pos, h.closed_iff.trans hclosed.symm, ?outside, ?call, ?present, ?width,
    ?released, ?added, ?fresh, hcount, hcounter, hcounterReset, ?open_ids, ?closed_ids, ?opening_lt,
    ?opening, ?apart, ?openingCounter, ?freshLeft, ?left, ?leftLatch⟩
  case pos => exact hm.mode ▸ h.pos
  case outside =>
    intro r' k' hne hcl
    rw [hm.calls, if_neg (fun heq => hne heq.1)]
    exact h.outside r' k' hne hcl
  case call =>
    intro k' c' hc'
    rw [hm.calls] at hc'
    split at hc'
    · rename_i heq
      rw [heq.2]
      exact hnew c' hc'
    · rename_i hne
      have hkk : k' ≠ k := fun heq => hne ⟨rfl, heq⟩
      exact (h.call k' c' hc').congr hm.mode hm.flag (fun _ => hm.sense k' hkk) hm.latchFlag
        (hm.latchSense k' hkk) fun use => hm.entered r use k' fun _ => hkk
  case present =>
    intro hop k' hk'
    rw [hm.mode] at hop
    rw [hm.calls]
    split
    · exact fun hnone => hop (hgone hnone)
    · exact h.present hop k' hk'
  case width => exact hm.width ▸ h.width
  case released =>
    intro use huse hop k' hk'
    exact hm.mono (h.released use huse (hm.mode ▸ hop) k' hk')
  case added =>
    intro hn use huse hop
    exact (hm.added r use).mpr (h.added hn use huse (hm.mode ▸ hop))
  case fresh =>
    intro r' use k' hin
    by_cases hrr : r' = r
    · exact Or.inl (Nat.le_of_eq hrr)
    · rw [hm.next]
      exact h.fresh r' use k' ((hm.entered r' use k' fun heq => absurd heq hrr).mp hin)
  case open_ids => rw [hm.next, hm.round]; exact h.open_ids
  case closed_ids => rw [hm.next, hm.round, hm.width]; exact h.closed_ids
  case opening_lt =>
    intro hcl k'
    rw [hnext, hm.next]
    exact h.opening_lt hcl k'
  case opening =>
    intro hcl k' c' hc'
    rw [hnext] at hc'
    have hopen := h.opening hcl k' c' hc'
    exact ⟨hopen.ops, hopen.use, hopen.stage, by rw [hbarrier hcl]; exact hopen.barrier,
      (hlogNext 0 k').trans hopen.entered⟩
  case apart =>
    intro hcl k' c' hc' hop
    rw [hm.calls] at hc'
    rw [hm.mode] at hop
    rw [hm.next]
    split at hc'
    · rename_i heq
      rw [heq.2]
      exact h.apart hcl k c hcall (hapart hcl c' hc' hop)
    · exact h.apart hcl k' c' hc' hop
  case openingCounter =>
    intro hcl
    rw [hbarrier hcl, hm.width, h.openingCounter hcl, arrivals, arrivals]
    exact List.countP_congr fun k' _ => by simp [hlogNext]
  case freshLeft =>
    intro r' use k' hin
    rcases hleft r' use k' hin with hold | ⟨rfl, -, -⟩
    · exact h.freshLeft r' use k' hold
    · exact Nat.le_refl _
  case left =>
    intro r' use k' hin k'' hk''
    rw [hm.width] at hk''
    rcases hleft r' use k' hin with hold | ⟨rfl, huse, hop⟩
    · exact hm.mono (h.left r' use k' hold k'' hk'')
    · rw [h.width hr] at hk''
      exact hm.mono (h.released use huse hop k'' hk'')
  case leftLatch =>
    intro r' use k' hin
    rcases hleftLatch r' use k' hin with hold | ⟨rfl, huse, hop⟩
    · exact (hm.added r' use).mpr (h.leftLatch r' use k' hold)
    · exact (hm.added r' use).mpr (h.added (by omega) use huse hop)

theorem Inv.calm (h : Inv r n front closed s) (hm : Moves r k d s t)
    (hcall : s.calls r k = some c)
    (hold : c.stage ≠ .worked ∧ c.stage ≠ .last ∧ c.stage ≠ .reset)
    (hstage : ∀ c', d = some c' → c'.stage ≠ .worked ∧ c'.stage ≠ .last ∧ c'.stage ≠ .reset)
    (hnew : ∀ c', d = some c' → CallOk r n front closed t k c')
    (hgone : d = none → opAt s.flushMode front = none)
    (hsame : ∀ use, .entered r use k ∈ t.log → .entered r use k ∈ s.log)
    (hbarrier : closed = true → t.barrier = s.barrier)
    (hcounter : t.barrier.counter = s.barrier.counter)
    (hapart : closed = true → ∀ c', d = some c' → opAt s.flushMode c'.use = some .barrier →
      opAt s.flushMode c.use = some .barrier)
    (hleft : ∀ r' use k', .leftBarrier r' use k' ∈ t.log → .leftBarrier r' use k' ∈ s.log ∨
      (r' = r ∧ use < front ∧ opAt s.flushMode use = some .barrier))
    (hleftLatch : ∀ r' use k', .leftLatch r' use k' ∈ t.log → .leftLatch r' use k' ∈ s.log ∨
      (r' = r ∧ use < front ∧ ∃ w, opAt s.flushMode use = some (.latch w))) :
    Inv r n front closed t := by
  have hentered : ∀ use k', .entered r use k' ∈ t.log ↔ .entered r use k' ∈ s.log := by
    intro use k'
    by_cases hk : k' = k
    · subst hk
      exact ⟨hsame use, hm.keeps use⟩
    · exact hm.entered r use k' fun _ => hk
  have hclosing : ∀ k' c', c'.stage = .last ∨ c'.stage = .reset →
      (t.calls r k' = some c' ↔ s.calls r k' = some c') := by
    intro k' c' hc'
    rw [hm.calls]
    split
    · rename_i heq
      rw [heq.2, hcall]
      constructor
      · intro hd
        exact absurd hc' (not_or.mpr (hstage c' hd).2)
      · intro hs
        obtain rfl := Option.some.inj hs
        exact absurd hc' (not_or.mpr hold.2)
    · exact Iff.rfl
  have hcount : CountOk r n front t := by
    refine ⟨fun k' c' hc' hst k'' hk'' => ?_, fun k' c' k'' c'' hc' hc'' hst hst' => ?_,
      fun hop hall => ?_⟩
    · exact (hentered _ _).mpr (h.count.all k' c' ((hclosing k' c' hst).mp hc') hst k'' hk'')
    · exact h.count.unique k' c' k'' c'' ((hclosing k' c' hst).mp hc')
        ((hclosing k'' c'' hst').mp hc'') hst hst'
    · obtain ⟨k', c', hc', hst⟩ := h.count.exists_last (hm.mode ▸ hop) fun k' hk' =>
        (hentered _ _).mp (hall k' hk')
      exact ⟨k', c', (hclosing k' c' hst).mpr hc', hst⟩
  refine h.move hm hcall hold.1 (fun c' hc' => (hstage c' hc').1) hnew hgone hbarrier hapart hcount
    ?_ ?_ hleft hleftLatch
  · intro hcl hno
    have harrivals : arrivals r front n t = arrivals r front n s :=
      List.countP_congr fun k' _ => by simp [hentered]
    rw [hcounter, hm.mode, harrivals]
    exact h.counter hcl fun k' c' hc' hst =>
      hno k' c' ((hclosing k' c' (Or.inr hst)).mpr hc') hst
  · intro hcl k' c' hc' hst
    rw [hcounter]
    exact h.counterReset hcl k' c' ((hclosing k' c' (Or.inr hst)).mp hc') hst

theorem CallOk.stage_of_test (h : CallOk r n front closed s k c) {test : Test} {rest : List Op}
    (hops : c.ops = .test test :: rest) : c.stage = .start := by
  rcases h.stage with hstart | hhead
  · exact hstart
  · rw [hops] at hhead
    rcases opAt_cases s.flushMode c.use with hop | hop | ⟨w, hop⟩ <;> simp [hop] at hhead

theorem Inv.test (h : Inv r n front closed s) (hcall : s.calls r k = some c) {test : Test}
    {rest : List Op} (hops : c.ops = .test test :: rest) :
    Inv r n front closed
      (s.setCall r k (some { c with ops := test.next s.flushMode })) := by
  have hok := h.call k c hcall
  have hstart := hok.stage_of_test hops
  have hm : Moves r k (some { c with ops := test.next s.flushMode }) s
      (s.setCall r k (some { c with ops := test.next s.flushMode })) :=
    ⟨calls_setCall s r k _, rfl, rfl, rfl, rfl, rfl, rfl, fun _ _ => rfl, fun _ _ => rfl,
      fun _ _ _ _ => Iff.rfl, fun _ hin => hin, fun _ _ => Iff.rfl⟩
  refine h.calm hm hcall (by simp [hstart]) ?_ ?_ (by simp) (fun _ hin => hin) (fun _ => rfl) rfl ?_
    (fun _ _ _ hin => Or.inl hin) fun _ _ _ hin => Or.inl hin
  · rintro _ ⟨⟩
    simp [hstart]
  · rintro _ ⟨⟩
    exact ⟨hok.lt, remaining_test (hops ▸ hok.remaining), Or.inl hstart, by
      rcases hok.placed with ⟨huse, hst⟩ | ⟨huse, hst⟩ | ⟨huse, hl, hst, hop, w, hnext⟩
      · exact .ahead huse hst
      · exact .behind huse hst
      · exact .twoBehind huse hl hst hop w hnext, hok.entered, hok.barrier, hok.latch⟩
  · rintro _ _ ⟨⟩ hop
    exact hop

theorem Inv.returns (h : Inv r n front closed s) (hcall : s.calls r k = some c)
    (hops : c.ops = []) : Inv r n front closed (s.setCall r k none) := by
  have hok := h.call k c hcall
  have hnone := remaining_nil (hops ▸ hok.remaining)
  have hm : Moves r k none s (s.setCall r k none) :=
    ⟨calls_setCall s r k _, rfl, rfl, rfl, rfl, rfl, rfl, fun _ _ => rfl, fun _ _ => rfl,
      fun _ _ _ _ => Iff.rfl, fun _ hin => hin, fun _ _ => Iff.rfl⟩
  have hfront : c.use = front ∧ c.stage = .start := by
    rcases hok.placed with ⟨huse, hst⟩ | ⟨huse, hst⟩ | ⟨-, -, -, hop, -⟩
    · rw [← huse, hnone, ahead_none] at hst
      exact ⟨huse, hst⟩
    · simp [hnone] at hst
    · rw [hnone] at hop
      cases hop
  refine h.calm hm hcall (by simp [hfront.2]) (by simp) (by simp) ?_ (fun _ hin => hin)
    (fun _ => rfl) rfl (by simp) (fun _ _ _ hin => Or.inl hin) fun _ _ _ hin => Or.inl hin
  exact fun _ => hfront.1 ▸ hnone

theorem CallOk.entered_leave (h : CallOk r n front closed s k c)
    (hop : opAt s.flushMode c.use = some .barrier → Arrived c.stage = true) (use : Nat) :
    .entered r use k ∈ s.log ↔ opAt s.flushMode use = some .barrier ∧
      (use < c.use + 1 ∨ (use = c.use + 1 ∧ Arrived .start = true)) := by
  rw [h.entered use]
  refine and_congr_right fun huse => ?_
  constructor
  · rintro (hlt | ⟨rfl, -⟩)
    · exact Or.inl (by omega)
    · exact Or.inl (by omega)
  · rintro (hlt | ⟨-, hstart⟩)
    · rcases Nat.lt_or_ge use c.use with hlt' | hge
      · exact Or.inl hlt'
      · obtain rfl : use = c.use := by omega
        exact Or.inr ⟨rfl, hop huse⟩
    · cases hstart

theorem CallOk.leaveBarrier (h : CallOk r n front closed s k c) {rest : List Op}
    (hops : c.ops = .barrier :: rest) (hstage : c.stage = .spin) (hlt : c.use < front) :
    CallOk r n front closed s k ⟨c.ops.tail, .start, c.use + 1⟩ := by
  obtain ⟨hop, hrest⟩ := remaining_barrier (hops ▸ h.remaining)
  have hsense : s.barrier.localSense k = s.barrier.flag := by
    by_contra hne
    have hturned := (h.barrier fun _ => hop).mp hne
    exact absurd hturned.1 (by omega)
  have hplaced : c.use + 1 = front ∨ (c.use + 2 = front ∧ (k == 0) = false ∧
      ∃ w, opAt s.flushMode (c.use + 1) = some (.latch w)) := by
    rcases h.placed with ⟨huse, -⟩ | ⟨huse, -⟩ | ⟨huse, hleader, -, -, w, hw⟩
    · omega
    · exact Or.inl huse
    · exact Or.inr ⟨huse, hleader, w, hw⟩
  refine ⟨h.lt, by rw [hops]; exact hrest, Or.inl rfl, ?_, h.entered_leave fun _ => ?_, fun _ => ?_,
    ?_⟩
  · rcases hplaced with huse | ⟨huse, hleader, w, hw⟩
    · refine .ahead huse ?_
      rcases opAt_cases s.flushMode front with hf | hf | ⟨w, hf⟩ <;> simp [hf]
    · exact .behind huse (by simp [hw, hleader])
  · rw [hstage]
    rfl
  · simp [hsense, TurnedBarrier]
  · rw [h.latch]
    simp only [TurnedLatch]
    constructor
    · rintro (⟨huse, -⟩ | ⟨-, ⟨w, hw⟩, -⟩ | huse)
      · omega
      · rw [hop] at hw
        cases hw
      · rcases hplaced with huse' | ⟨-, -, hw⟩
        · omega
        · exact Or.inr (Or.inl ⟨huse, hw, by simp⟩)
    · rintro (⟨-, -, hspin⟩ | ⟨huse, -⟩ | huse)
      · cases hspin
      · exact Or.inr (Or.inr huse)
      · rcases hplaced with huse' | ⟨huse', -⟩ <;> omega

/-- A call whose sense is the flag of the latch has been released. -/
theorem CallOk.behind_of_released (h : CallOk r n front closed s k c) {w : Work}
    (hop : opAt s.flushMode c.use = some (.latch w)) (hstage : c.stage = .spin)
    (hreleased : s.latch.released k = true) : c.use + 1 = front := by
  have hnot := mt h.latch.mpr (not_not.mpr (Barrier.released_iff.mp hreleased))
  rcases h.placed with ⟨huse, -⟩ | ⟨huse, -⟩ | ⟨-, -, -, hop', -⟩
  · exact absurd (Or.inl ⟨huse, ⟨w, huse ▸ hop⟩, hstage⟩) hnot
  · exact huse
  · rw [hop] at hop'
    cases hop'

theorem CallOk.leaveLatch (h : CallOk r n front closed s k c) {w : Work} {rest : List Op}
    (hops : c.ops = .latch w :: rest) (hstage : c.stage = .spin) (huse : c.use + 1 = front)
    (hfront : closed = true → opAt s.flushMode front ≠ some .barrier) :
    CallOk r n front closed s k ⟨c.ops.tail, .start, c.use + 1⟩ := by
  obtain ⟨hop, hrest⟩ := remaining_latch (hops ▸ h.remaining)
  have hsense : s.latch.localSense k = s.latch.flag := by
    by_contra hne
    rcases h.latch.mp hne with ⟨huse', -⟩ | ⟨-, -, hspin⟩ | huse'
    · omega
    · exact hspin hstage
    · omega
  refine ⟨h.lt, by rw [hops]; exact hrest, Or.inl rfl, .ahead huse ?_,
    h.entered_leave fun hop' => ?_, fun hcl => ?_, ?_⟩
  · rcases opAt_cases s.flushMode front with hf | hf | ⟨w, hf⟩ <;> simp [hf]
  · rw [hop] at hop'
    cases hop'
  · have hopen : closed ≠ true := fun hclosed => hfront hclosed (huse ▸ hcl hclosed)
    have hsame : s.barrier.localSense k = s.barrier.flag := by
      by_contra hne
      have hturned := (h.barrier fun hclosed => absurd hclosed hopen).mp hne
      exact absurd hturned.1 (by omega)
    simp [hsame, TurnedBarrier]
  · rw [hsense]
    simp only [TurnedLatch, ne_eq, not_true_eq_false, false_iff, not_or]
    refine ⟨by simp, by omega, by omega⟩

theorem Inv.front_of_closed (h : Inv r n front closed s) (hcl : closed = true) :
    opAt s.flushMode front ≠ some .barrier := by
  intro hop
  rcases h.closed_iff.mp hcl with hnone | ⟨c, hcall, hworked, -⟩
  · rw [hop] at hnone
    cases hnone
  · obtain ⟨-, -, w, hw⟩ := (h.call 0 c hcall).front_of_worked hworked
    rw [hop] at hw
    cases hw

theorem moves_leave (s : State) (r k : Nat) (c : Call) (e : Event)
    (he : ∀ r' use k', e ≠ .entered r' use k') (he' : ∀ r' use, e ≠ .added r' use) :
    Moves r k (some ⟨c.ops.tail, .start, c.use + 1⟩) s ((s.leave r k c).record e) :=
  ⟨calls_setCall s r k _, rfl, rfl, rfl, rfl, rfl, rfl, fun _ _ => rfl, fun _ _ => rfl,
    fun _ _ _ _ => by simp [State.record, State.leave, State.setCall, (he _ _ _).symm],
    fun _ hin => List.mem_cons_of_mem _ hin,
    fun _ _ => by simp [State.record, State.leave, State.setCall, (he' _ _).symm]⟩

theorem Inv.leaveBarrier (h : Inv r n front closed s) (hcall : s.calls r k = some c)
    {rest : List Op} (hops : c.ops = .barrier :: rest) (hstage : c.stage = .spin)
    (hreleased : s.barrier.released k = true) :
    Inv r n front closed ((s.leave r k c).record (.leftBarrier r c.use k)) := by
  have hok := h.call k c hcall
  obtain ⟨hop, -⟩ := remaining_barrier (hops ▸ hok.remaining)
  have hlt := hok.lt_front_of_released hop (by simp [hstage]) hreleased
  have hm := moves_leave s r k c (.leftBarrier r c.use k) (by simp) (by simp)
  refine h.calm hm hcall (by simp [hstage]) ?_ ?_ (by simp) ?_ (fun _ => rfl) rfl ?_ ?_ ?_
  · rintro _ ⟨⟩
    simp
  · rintro _ ⟨⟩
    exact (hok.leaveBarrier hops hstage hlt).congr rfl rfl (fun _ => rfl) rfl rfl fun _ => by
      simp [State.record, State.leave, State.setCall]
  · intro use hin
    simpa [State.record, State.leave, State.setCall] using hin
  · exact fun _ _ _ _ => hop
  · intro r' use k' hin
    rcases List.mem_cons.mp hin with heq | hin
    · cases heq
      exact Or.inr ⟨rfl, hlt, hop⟩
    · exact Or.inl hin
  · intro r' use k' hin
    exact Or.inl (by simpa [State.record, State.leave, State.setCall] using hin)

theorem Inv.leaveLatch (h : Inv r n front closed s) (hcall : s.calls r k = some c)
    {w : Work} {rest : List Op} (hops : c.ops = .latch w :: rest) (hstage : c.stage = .spin)
    (hreleased : s.latch.released k = true) :
    Inv r n front closed ((s.leave r k c).record (.leftLatch r c.use k)) := by
  have hok := h.call k c hcall
  obtain ⟨hop, -⟩ := remaining_latch (hops ▸ hok.remaining)
  have huse := hok.behind_of_released hop hstage hreleased
  have hm := moves_leave s r k c (.leftLatch r c.use k) (by simp) (by simp)
  refine h.calm hm hcall (by simp [hstage]) ?_ ?_ (by simp) ?_ (fun _ => rfl) rfl ?_ ?_ ?_
  · rintro _ ⟨⟩
    simp
  · rintro _ ⟨⟩
    exact (hok.leaveLatch hops hstage huse h.front_of_closed).congr rfl rfl (fun _ => rfl) rfl rfl fun _ => by
      simp [State.record, State.leave, State.setCall]
  · intro use hin
    simpa [State.record, State.leave, State.setCall] using hin
  · rintro hcl _ ⟨⟩ hop'
    exact absurd (huse ▸ hop') (h.front_of_closed hcl)
  · intro r' use k' hin
    exact Or.inl (by simpa [State.record, State.leave, State.setCall] using hin)
  · intro r' use k' hin
    rcases List.mem_cons.mp hin with heq | hin
    · cases heq
      exact Or.inr ⟨rfl, by omega, w, hop⟩
    · exact Or.inl hin

theorem Inv.open_of_barrier (h : Inv r n front closed s)
    (hop : opAt s.flushMode front = some .barrier) : closed = false := by
  cases hcl : closed with
  | false => rfl
  | true => exact absurd hop (h.front_of_closed hcl)

theorem Inv.flip (h : Inv r n front closed s) (hcall : s.calls r k = some c)
    {rest : List Op} (hops : c.ops = .barrier :: rest) (hstage : c.stage = .start) :
    Inv r n front closed ({ s with barrier := s.barrier.flipSense k }.setCall r k
      (some { c with stage := .flipped })) := by
  have hok := h.call k c hcall
  obtain ⟨hop, -⟩ := remaining_barrier (hops ▸ hok.remaining)
  have huse := hok.front_of_barrier hop (by simp [hstage])
  have hcl := h.open_of_barrier (huse ▸ hop)
  have hsense : s.barrier.localSense k = s.barrier.flag := by
    by_contra hne
    exact ((hok.barrier fun _ => hop).mp hne).2.2 hstage
  have hm : Moves r k (some { c with stage := .flipped }) s
      ({ s with barrier := s.barrier.flipSense k }.setCall r k
        (some { c with stage := .flipped })) :=
    ⟨calls_setCall _ r k _, rfl, rfl, rfl, rfl, rfl, rfl,
      fun k' hk' => by simp [State.setCall, Barrier.flipSense, hk'], fun _ _ => rfl,
      fun _ _ _ _ => Iff.rfl, fun _ hin => hin, fun _ _ => Iff.rfl⟩
  refine h.calm hm hcall (by simp [hstage]) ?_ ?_ (by simp) (fun _ hin => hin)
    (fun hclosed => by rw [hcl] at hclosed; cases hclosed) rfl (fun _ _ _ _ => hop)
    (fun _ _ _ hin => Or.inl hin) fun _ _ _ hin => Or.inl hin
  · rintro _ ⟨⟩
    simp
  · rintro _ ⟨⟩
    refine ⟨hok.lt, hok.remaining, Or.inr (by rw [hops, List.head?_cons]; exact hop.symm),
      .ahead huse ?_, fun use => ?_, fun _ => ?_, ?_⟩
    · change Ahead _ (opAt s.flushMode front) _ = true
      rw [← huse, hop]
      rfl
    · rw [← show Arrived c.stage = Arrived .flipped by rw [hstage]; rfl]
      exact hok.entered use
    · simp only [State.setCall, Barrier.flipSense, Function.update_self, hsense, TurnedBarrier]
      simp [huse, huse ▸ hop]
    · change s.latch.localSense k ≠ s.latch.flag ↔ TurnedLatch s.flushMode front _
      rw [hok.latch]
      simp [TurnedLatch, huse, huse ▸ hop]

theorem Inv.latchWait (h : Inv r n front closed s) (hcall : s.calls r k = some c)
    {w : Work} {rest : List Op} (hops : c.ops = .latch w :: rest)
    (hstage : (c.stage = .start ∧ k ≠ 0) ∨ c.stage = .added) :
    Inv r n front closed ({ s with latch := s.latch.flipSense k }.setCall r k
      (some { c with stage := .spin })) := by
  have hok := h.call k c hcall
  obtain ⟨hop, -⟩ := remaining_latch (hops ▸ hok.remaining)
  have hspin : c.stage ≠ .spin := by rcases hstage with ⟨hst, -⟩ | hst <;> simp [hst]
  have huse : (c.use = front ∧ k ≠ 0) ∨ c.use + 1 = front := by
    rcases hok.placed with ⟨huse, hst⟩ | ⟨huse, -⟩ | ⟨-, -, hst, -⟩
    · rw [← huse, hop, ahead_latch] at hst
      rcases hstage with ⟨-, hk⟩ | hadded
      · exact Or.inl ⟨huse, hk⟩
      · simp [hadded] at hst
    · exact Or.inr huse
    · exact absurd hst hspin
  have hm : Moves r k (some { c with stage := .spin }) s
      ({ s with latch := s.latch.flipSense k }.setCall r k (some { c with stage := .spin })) :=
    ⟨calls_setCall _ r k _, rfl, rfl, rfl, rfl, rfl, rfl, fun _ _ => rfl,
      fun k' hk' => by simp [State.setCall, Barrier.flipSense, hk'],
      fun _ _ _ _ => Iff.rfl, fun _ hin => hin, fun _ _ => Iff.rfl⟩
  refine h.calm hm hcall ?_ ?_ ?_ (by simp) (fun _ hin => hin) (fun _ => rfl) rfl ?_
    (fun _ _ _ hin => Or.inl hin) fun _ _ _ hin => Or.inl hin
  · rcases hstage with ⟨hst, -⟩ | hst <;> simp [hst]
  · rintro _ ⟨⟩
    simp
  · rintro _ ⟨⟩
    refine ⟨hok.lt, hok.remaining, Or.inr (by rw [hops, List.head?_cons]; exact hop.symm), ?_,
      fun use => ?_, fun hcl => ?_, ?_⟩
    · rcases huse with ⟨huse, hk⟩ | huse
      · refine .ahead huse ?_
        change Ahead _ (opAt s.flushMode front) _ = true
        rw [← huse, hop, ahead_latch]
        exact Or.inr (Or.inr ⟨rfl, by simpa using hk⟩)
      · refine .behind huse ?_
        change Behind _ (opAt s.flushMode c.use) _ = true
        rw [hop, behind_latch]
        exact Or.inr (Or.inr rfl)
    · change .entered r use k ∈ s.log ↔ opAt s.flushMode use = _ ∧ _
      rw [hok.entered use]
      refine and_congr_right fun hbarrier => or_congr_right (and_congr_right fun heq => ?_)
      rw [heq, hop] at hbarrier
      cases hbarrier
    · change s.barrier.localSense k ≠ s.barrier.flag ↔ TurnedBarrier s.flushMode front _
      rw [hok.barrier hcl]
      have hnot : ∀ d : Call, d.use = c.use → ¬ TurnedBarrier s.flushMode front d := by
        rintro d hd ⟨hfront, hbarrier, -⟩
        rw [← hfront, hd, hop] at hbarrier
        cases hbarrier
      exact iff_of_false (hnot c rfl) (hnot _ rfl)
    · have hflip : ((!s.latch.localSense k) ≠ s.latch.flag) ↔
          ¬ (s.latch.localSense k ≠ s.latch.flag) := by
        cases s.latch.localSense k <;> cases s.latch.flag <;> simp
      simp only [State.setCall, Barrier.flipSense, Function.update_self]
      rw [hflip, hok.latch]
      rcases huse with ⟨huse, -⟩ | huse
      · have hlatch : ∃ w, opAt s.flushMode front = some (.latch w) := ⟨w, huse ▸ hop⟩
        simp [TurnedLatch, huse, hspin, hlatch]
      · have hlatch : ∃ w, opAt s.flushMode c.use = some (.latch w) := ⟨w, hop⟩
        have hfront : c.use ≠ front := by omega
        have htwo : c.use + 2 ≠ front := by omega
        simp [TurnedLatch, huse, hspin, hlatch, hfront, htwo]
  · rintro hcl _ ⟨⟩ hop'
    exact hop'

theorem Inv.arrive (h : Inv r n front closed s) (hcall : s.calls r k = some c)
    {rest : List Op} (hops : c.ops = .barrier :: rest) (hstage : c.stage = .flipped) :
    Inv r n front closed (({ s with barrier := s.barrier.arrive }.setCall r k (some { c with
      stage := if s.barrier.counter + 1 = s.width r then .last else .spin })).record
        (.entered r c.use k)) := by
  have hok := h.call k c hcall
  obtain ⟨hop, -⟩ := remaining_barrier (hops ▸ hok.remaining)
  have huse := hok.front_of_barrier hop (by simp [hstage])
  have hcl := h.open_of_barrier (huse ▸ hop)
  have hwidth : s.width r = n := h.width (h.round_pos (by have := hok.lt; omega))
  have hnot : .entered r front k ∉ s.log := by
    rw [hok.entered front]
    rintro ⟨-, hlt | ⟨-, harrived⟩⟩
    · omega
    · rw [hstage] at harrived
      cases harrived
  have hnone : ∀ k' c', s.calls r k' = some c' → ¬ (c'.stage = .last ∨ c'.stage = .reset) :=
    fun k' c' hc' hst => hnot (h.count.all k' c' hc' hst k hok.lt)
  have hcounter : s.barrier.counter = arrivals r front n s := by
    rw [h.counter hcl fun k' c' hc' hst => hnone k' c' hc' (Or.inr hst), if_pos (huse ▸ hop)]
  -- only the stage of the call tells whether it was the last one
  obtain ⟨stage, hnew⟩ : ∃ stage, stage =
      if s.barrier.counter + 1 = s.width r then Stage.last else .spin := ⟨_, rfl⟩
  have hlast : stage = .last ↔ arrivals r front n s + 1 = n := by
    rw [hnew, hcounter, hwidth]
    split <;> simp_all
  have harrived : Arrived stage = true ∧ stage ≠ .worked ∧ stage ≠ .reset ∧ stage ≠ .added ∧
      stage ≠ .start := by
    rw [hnew]
    split <;> decide
  rw [← hnew]
  clear hnew
  have hm : Moves r k (some { c with stage := stage }) s
      (({ s with barrier := s.barrier.arrive }.setCall r k (some { c with
        stage := stage })).record (.entered r c.use k)) := by
    refine ⟨calls_setCall _ r k _, rfl, rfl, rfl, rfl, rfl, rfl, fun _ _ => rfl, fun _ _ => rfl,
      fun r' use k' hne => ?_, fun _ hin => List.mem_cons_of_mem _ hin, fun _ _ => ?_⟩
    · change _ ∈ _ :: s.log ↔ _
      rw [List.mem_cons, or_iff_right]
      rintro ⟨⟩
      exact hne rfl rfl
    · change _ ∈ _ :: s.log ↔ _
      rw [List.mem_cons, or_iff_right]
      rintro ⟨⟩
  obtain ⟨t, ht⟩ : ∃ t, t = ({ s with barrier := s.barrier.arrive }.setCall r k (some { c with
      stage := stage })).record (.entered r c.use k) := ⟨_, rfl⟩
  have hlog : t.log = .entered r front k :: s.log := by rw [ht, ← huse]; rfl
  have hbarrier : t.barrier = s.barrier.arrive := by rw [ht]; rfl
  have hlatch : t.latch = s.latch := by rw [ht]; rfl
  rw [← ht] at hm ⊢
  clear ht
  have harrivals : arrivals r front n t = arrivals r front n s + 1 := by
    refine countP_range_succ hok.lt (by simpa using hnot) (by simp [hlog]) fun j hj => ?_
    simp [hlog, hj]
  have hclosing : ∀ k' c', t.calls r k' = some c' → (c'.stage = .last ∨ c'.stage = .reset) →
      k' = k ∧ stage = .last := by
    intro k' c' hc' hst
    rw [hm.calls] at hc'
    split at hc'
    · rename_i heq
      obtain rfl := Option.some.inj hc'
      exact ⟨heq.2, hst.resolve_right harrived.2.2.1⟩
    · exact absurd hst (hnone k' c' hc')
  have hall : stage = .last ↔ ∀ k' < n, .entered r front k' ∈ t.log := by
    rw [hlast, ← harrivals, arrivals_eq_iff]
  refine h.move hm hcall (by simp [hstage]) ?_ ?_ (by simp)
    (fun hclosed => by rw [hcl] at hclosed; cases hclosed) (fun _ _ _ _ => hop) ?_ ?_ ?_ ?_ ?_
  · rintro _ ⟨⟩
    exact harrived.2.1
  · rintro _ ⟨⟩
    refine ⟨hok.lt, hm.mode ▸ hok.remaining,
      Or.inr (by rw [hops, List.head?_cons, hm.mode]; exact hop.symm), .ahead huse ?_,
      fun use => ?_, fun _ => ?_, ?_⟩
    · rw [hm.mode, ← huse, hop, ahead_barrier]
      exact ⟨harrived.2.1, harrived.2.2.2.1⟩
    · rw [hlog, List.mem_cons, hok.entered use, hm.mode, hstage]
      simp only [harrived.1, and_true, Event.entered.injEq, true_and]
      constructor
      · rintro (rfl | ⟨hb, hlt | ⟨-, hf⟩⟩)
        · exact ⟨huse ▸ hop, Or.inr huse.symm⟩
        · exact ⟨hb, Or.inl hlt⟩
        · cases hf
      · rintro ⟨hb, hlt | heq⟩
        · exact Or.inr ⟨hb, Or.inl hlt⟩
        · exact Or.inl (heq.trans huse)
    · have hold := hok.barrier fun _ => hop
      rw [hbarrier, hm.mode]
      change s.barrier.localSense k ≠ s.barrier.flag ↔ _
      rw [hold]
      simp [TurnedBarrier, hstage, harrived.2.2.2.2]
    · rw [hlatch, hok.latch, hm.mode]
      simp [TurnedLatch, huse, huse ▸ hop]
  · refine ⟨fun k' c' hc' hst => hall.mp (hclosing k' c' hc' hst).2,
      fun k' c' k'' c'' hc' hc'' hst hst' => ?_, fun _ hin => ?_⟩
    · rw [(hclosing k' c' hc' hst).1, (hclosing k'' c'' hc'' hst').1]
    · refine ⟨k, { c with stage := stage }, by rw [hm.calls]; simp, Or.inl (hall.mpr hin)⟩
  · intro _ _
    rw [hbarrier, hm.mode, if_pos (huse ▸ hop), harrivals, ← hcounter]
    rfl
  · intro _ k' c' hc' hst
    rw [hm.calls] at hc'
    split at hc'
    · obtain rfl := Option.some.inj hc'
      exact absurd hst harrived.2.2.1
    · exact absurd (Or.inr hst) (hnone k' c' hc')
  · intro r' use k' hin
    rw [hlog] at hin
    exact Or.inl (by simpa using hin)
  · intro r' use k' hin
    rw [hlog] at hin
    exact Or.inl (by simpa using hin)

theorem Inv.resetCounter (h : Inv r n front closed s) (hcall : s.calls r k = some c)
    {rest : List Op} (hops : c.ops = .barrier :: rest) (hstage : c.stage = .last) :
    Inv r n front closed ({ s with barrier := s.barrier.resetCounter }.setCall r k
      (some { c with stage := .reset })) := by
  have hok := h.call k c hcall
  obtain ⟨hop, -⟩ := remaining_barrier (hops ▸ hok.remaining)
  have huse := hok.front_of_barrier hop (by simp [hstage])
  have hcl := h.open_of_barrier (huse ▸ hop)
  have hall := h.count.all k c hcall (Or.inl hstage)
  have hm : Moves r k (some { c with stage := .reset }) s
      ({ s with barrier := s.barrier.resetCounter }.setCall r k
        (some { c with stage := .reset })) :=
    ⟨calls_setCall _ r k _, rfl, rfl, rfl, rfl, rfl, rfl, fun _ _ => rfl, fun _ _ => rfl,
      fun _ _ _ _ => Iff.rfl, fun _ hin => hin, fun _ _ => Iff.rfl⟩
  have hclosing : ∀ k' c', ({ s with barrier := s.barrier.resetCounter }.setCall r k
      (some { c with stage := .reset })).calls r k' = some c' →
      c'.stage = .last ∨ c'.stage = .reset → k' = k := by
    intro k' c' hc' hst
    rw [calls_setCall] at hc'
    split at hc'
    · rename_i heq
      exact heq.2
    · exact h.count.unique k' c' k c hc' hcall hst (Or.inl hstage)
  have hself : ({ s with barrier := s.barrier.resetCounter }.setCall r k
      (some { c with stage := .reset })).calls r k = some { c with stage := .reset } := by
    rw [calls_setCall, if_pos ⟨rfl, rfl⟩]
  refine h.move hm hcall (by simp [hstage]) ?_ ?_ (by simp)
    (fun hclosed => by rw [hcl] at hclosed; cases hclosed) (fun _ _ _ _ => hop)
    ⟨fun _ _ _ _ => hall, fun k' c' k'' c'' hc' hc'' hst hst' => ?_, fun _ _ => ?_⟩ ?_ ?_
    (fun _ _ _ hin => Or.inl hin) fun _ _ _ hin => Or.inl hin
  · rintro _ ⟨⟩
    simp
  · rintro _ ⟨⟩
    refine ⟨hok.lt, hok.remaining, Or.inr (by rw [hops, List.head?_cons]; exact hop.symm),
      .ahead huse ?_, fun use => ?_, fun hopen => ?_, ?_⟩
    · change Ahead _ (opAt s.flushMode front) _ = true
      rw [← huse, hop]
      rfl
    · rw [← show Arrived c.stage = Arrived .reset by rw [hstage]; rfl]
      exact hok.entered use
    · have hold := hok.barrier hopen
      change s.barrier.localSense k ≠ s.barrier.flag ↔ _
      rw [hold]
      simp [TurnedBarrier, hstage, State.setCall]
    · change s.latch.localSense k ≠ s.latch.flag ↔ TurnedLatch s.flushMode front _
      rw [hok.latch]
      simp [TurnedLatch, hstage]
  · rw [hclosing k' c' hc' hst, hclosing k'' c'' hc'' hst']
  · exact ⟨k, _, hself, Or.inr rfl⟩
  · intro _ hno
    exact absurd rfl (hno k _ hself)
  · exact fun _ _ _ _ _ => rfl

end Libcrpm.CheckpointSync
