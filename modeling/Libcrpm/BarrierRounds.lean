import Libcrpm.Barrier

/-!
# The rounds of the barrier and the latch

The flags of the two objects, the local senses and the counter are tied to the front of a
round: the number of barriers and latches that have been released.  A call is at the front
or at most two uses behind it.
-/

namespace Libcrpm.CheckpointSync

open Libcrpm.Program

/-! ## The uses of a round -/

/-- The barriers and latches of a round in each mode. -/
def syncOps : FlushMode → List Op
  | .noAction => [.barrier, .barrier, .latch .determineMode]
  | .useFlushBlocks => [.barrier, .barrier, .latch .determineMode, .barrier, .latch .commit,
      .barrier, .latch .finish]
  | .wbinvd => [.barrier, .barrier, .latch .determineMode, .barrier, .latch .finish]

def opAt (mode : FlushMode) (use : Nat) : Option Op := (syncOps mode)[use]?

/-- The operations of a call that has left `use` of them and is not before a test. -/
def opsFrom : FlushMode → Nat → List Op
  | _, 0 => checkpointOps
  | _, 1 => checkpointOps.drop 1
  | _, 2 => checkpointOps.drop 2
  | mode, 3 => Test.noAction.next mode
  | .noAction, _ + 4 => []
  | mode, use + 4 => (Test.useFlushBlocks.next mode).drop use

def Remaining (mode : FlushMode) (use : Nat) (ops : List Op) : Prop :=
  ops = opsFrom mode use ∨ (use = 3 ∧ ops = [.test .noAction]) ∨
    (use = 4 ∧ mode ≠ .noAction ∧ ops = [.test .useFlushBlocks])

theorem remaining_barrier {mode : FlushMode} {use : Nat} {rest : List Op}
    (h : Remaining mode use (.barrier :: rest)) :
    opAt mode use = some .barrier ∧ Remaining mode (use + 1) rest := by
  match use with
  | 0 | 1 | 2 | 3 | 4 | 5 | 6 | 7 =>
      cases mode <;> simp_all [Remaining, opsFrom, checkpointOps, Test.next, opAt, syncOps]
  | use + 8 =>
      cases mode <;> simp_all [Remaining, opsFrom, Test.next]

theorem remaining_latch {mode : FlushMode} {use : Nat} {w : Work} {rest : List Op}
    (h : Remaining mode use (.latch w :: rest)) :
    opAt mode use = some (.latch w) ∧ Remaining mode (use + 1) rest := by
  match use with
  | 0 | 1 | 2 | 3 | 4 | 5 | 6 | 7 =>
      cases mode <;> simp_all [Remaining, opsFrom, checkpointOps, Test.next, opAt, syncOps]
  | use + 8 =>
      cases mode <;> simp_all [Remaining, opsFrom, Test.next]

theorem remaining_test {mode : FlushMode} {use : Nat} {t : Test} {rest : List Op}
    (h : Remaining mode use (.test t :: rest)) : Remaining mode use (t.next mode) := by
  match use with
  | 0 | 1 | 2 | 3 | 4 | 5 | 6 | 7 =>
      cases mode <;> simp_all [Remaining, opsFrom, checkpointOps, Test.next]
  | use + 8 =>
      cases mode <;> simp_all [Remaining, opsFrom, Test.next]

theorem remaining_nil {mode : FlushMode} {use : Nat} (h : Remaining mode use []) :
    opAt mode use = none := by
  match use with
  | 0 | 1 | 2 | 3 | 4 | 5 | 6 | 7 =>
      cases mode <;> simp_all [Remaining, opsFrom, checkpointOps, Test.next, opAt, syncOps]
  | use + 8 =>
      cases mode <;> simp [opAt, syncOps]

theorem opAt_succ_of_barrier {mode : FlushMode} {use : Nat} (h : opAt mode use = some .barrier) :
    opAt mode (use + 1) ≠ none := by
  match use with
  | 0 | 1 | 2 | 3 | 4 | 5 | 6 => cases mode <;> simp_all [opAt, syncOps]
  | use + 7 => cases mode <;> simp [opAt, syncOps] at h

theorem opAt_of_succ_latch {mode : FlushMode} {use : Nat} {w : Work}
    (h : opAt mode (use + 1) = some (.latch w)) : opAt mode use = some .barrier := by
  match use with
  | 0 | 1 | 2 | 3 | 4 | 5 | 6 => cases mode <;> simp_all [opAt, syncOps]
  | use + 7 => cases mode <;> simp [opAt, syncOps] at h

theorem opAt_cases (mode : FlushMode) (use : Nat) :
    opAt mode use = none ∨ opAt mode use = some .barrier ∨ ∃ w, opAt mode use = some (.latch w) := by
  match use with
  | 0 | 1 | 2 | 3 | 4 | 5 | 6 => cases mode <;> simp [opAt, syncOps]
  | use + 7 => cases mode <;> simp [opAt, syncOps]

theorem opAt_mode (mode mode' : FlushMode) {use : Nat} (h : use ≤ 2) :
    opAt mode use = opAt mode' use := by
  match use, h with
  | 0, _ | 1, _ | 2, _ => cases mode <;> cases mode' <;> rfl

theorem remaining_mode {mode : FlushMode} (mode' : FlushMode) {use : Nat} (h : use ≤ 2)
    {ops : List Op} (hr : Remaining mode use ops) : Remaining mode' use ops := by
  match use, h with
  | 0, _ | 1, _ | 2, _ =>
      cases mode <;> cases mode' <;> simpa [Remaining, opsFrom] using hr

/-! ## Where a call can be -/

/-- The stages of a call at the front. -/
def Ahead (leader : Bool) : Option Op → Stage → Bool
  | some .barrier, .start | some .barrier, .flipped | some .barrier, .last
  | some .barrier, .reset | some .barrier, .spin => true
  | some (.latch _), .start => true
  | some (.latch _), .worked => leader
  | some (.latch _), .spin => !leader
  | none, .start => true
  | _, _ => false

/-- The stages of a call in the use before the front, which has been released. -/
def Behind (leader : Bool) : Option Op → Stage → Bool
  | some .barrier, .spin => true
  | some (.latch _), .start => !leader
  | some (.latch _), .added => leader
  | some (.latch _), .spin => true
  | _, _ => false

@[simp] theorem ahead_barrier {leader : Bool} {stage : Stage} :
    Ahead leader (some .barrier) stage = true ↔ stage ≠ .worked ∧ stage ≠ .added := by
  cases stage <;> cases leader <;> decide

@[simp] theorem ahead_latch {leader : Bool} {w : Work} {stage : Stage} :
    Ahead leader (some (.latch w)) stage = true ↔
      stage = .start ∨ (stage = .worked ∧ leader = true) ∨ (stage = .spin ∧ leader = false) := by
  cases stage <;> cases leader <;> cases w <;> decide

@[simp] theorem ahead_none {leader : Bool} {stage : Stage} :
    Ahead leader none stage = true ↔ stage = .start := by
  cases stage <;> cases leader <;> decide

@[simp] theorem behind_barrier {leader : Bool} {stage : Stage} :
    Behind leader (some .barrier) stage = true ↔ stage = .spin := by
  cases stage <;> cases leader <;> decide

@[simp] theorem behind_latch {leader : Bool} {w : Work} {stage : Stage} :
    Behind leader (some (.latch w)) stage = true ↔
      (stage = .start ∧ leader = false) ∨ (stage = .added ∧ leader = true) ∨ stage = .spin := by
  cases stage <;> cases leader <;> cases w <;> decide

@[simp] theorem behind_none {leader : Bool} {stage : Stage} :
    Behind leader none stage = false := by
  cases stage <;> cases leader <;> rfl

inductive Placed (mode : FlushMode) (front : Nat) (leader : Bool) (c : Call) : Prop
  | ahead (huse : c.use = front) (hstage : Ahead leader (opAt mode front) c.stage = true)
  | behind (huse : c.use + 1 = front) (hstage : Behind leader (opAt mode c.use) c.stage = true)
  /-- In a barrier while the leader has already added to the latch after it. -/
  | twoBehind (huse : c.use + 2 = front) (hleader : leader = false) (hstage : c.stage = .spin)
      (hop : opAt mode c.use = some .barrier) (w : Work)
      (hnext : opAt mode (c.use + 1) = some (.latch w))

/-- The call has arrived at the barrier at the front, where its sense is ahead of the flag. -/
def TurnedBarrier (mode : FlushMode) (front : Nat) (c : Call) : Prop :=
  c.use = front ∧ opAt mode front = some .barrier ∧ c.stage ≠ .start

/-- The call waits at the latch at the front, or has not yet waited at one that is released. -/
def TurnedLatch (mode : FlushMode) (front : Nat) (c : Call) : Prop :=
  (c.use = front ∧ (∃ w, opAt mode front = some (.latch w)) ∧ c.stage = .spin) ∨
  (c.use + 1 = front ∧ (∃ w, opAt mode c.use = some (.latch w)) ∧ c.stage ≠ .spin) ∨
  c.use + 2 = front

def Arrived : Stage → Bool
  | .spin | .last | .reset => true
  | _ => false

def Closed (r front : Nat) (s : State) : Prop :=
  opAt s.flushMode front = none ∨
    ∃ c, s.calls r 0 = some c ∧ c.stage = .worked ∧ opAt s.flushMode (front + 1) = none

/-- What holds of call `k` of the round that was entered last by all its threads. -/
structure CallOk (r n front : Nat) (closed : Bool) (s : State) (k : Nat) (c : Call) : Prop where
  lt : k < n
  remaining : Remaining s.flushMode c.use c.ops
  stage : c.stage = .start ∨ c.ops.head? = opAt s.flushMode c.use
  placed : Placed s.flushMode front (k == 0) c
  entered : ∀ use, .entered r use k ∈ s.log ↔ opAt s.flushMode use = some .barrier ∧
    (use < c.use ∨ (use = c.use ∧ Arrived c.stage = true))
  barrier : (closed = true → opAt s.flushMode c.use = some .barrier) →
    (s.barrier.localSense k ≠ s.barrier.flag ↔ TurnedBarrier s.flushMode front c)
  latch : s.latch.localSense k ≠ s.latch.flag ↔ TurnedLatch s.flushMode front c

/-- What holds of call `k` of a round that some of its threads have not entered. -/
structure OpeningOk (r : Nat) (s : State) (k : Nat) (c : Call) : Prop where
  ops : c.ops = checkpointOps
  use : c.use = 0
  stage : c.stage = .start ∨ c.stage = .flipped ∨ c.stage = .spin
  barrier : s.barrier.localSense k ≠ s.barrier.flag ↔ c.stage ≠ .start
  entered : .entered r 0 k ∈ s.log ↔ c.stage = .spin

def arrivals (r use n : Nat) (s : State) : Nat :=
  (List.range n).countP fun k => .entered r use k ∈ s.log

theorem countP_range_succ {n k : Nat} {p q : Nat → Bool} (hk : k < n) (hp : p k = false)
    (hq : q k = true) (hother : ∀ j, j ≠ k → q j = p j) :
    (List.range n).countP q = (List.range n).countP p + 1 := by
  induction n with
  | zero => omega
  | succ n ih =>
      simp only [List.range_succ, List.countP_append, List.countP_singleton]
      by_cases hkn : k = n
      · subst hkn
        have hsame : (List.range k).countP q = (List.range k).countP p := by
          refine List.countP_congr fun j hj => ?_
          rw [hother j (by have := List.mem_range.mp hj; omega)]
        simp [hsame, hp, hq]
      · rw [ih (by omega), hother n (Ne.symm hkn)]
        omega

theorem arrivals_eq_iff {r use n : Nat} {s : State} :
    arrivals r use n s = n ↔ ∀ k < n, .entered r use k ∈ s.log := by
  have hlength := List.countP_eq_length (l := List.range n)
    (p := fun k => decide (Event.entered r use k ∈ s.log))
  rw [List.length_range] at hlength
  rw [arrivals, hlength]
  simp

/-- The arrivals at the barrier at the front. -/
structure CountOk (r n front : Nat) (s : State) : Prop where
  /-- The last one to arrive finds that all have arrived. -/
  all : ∀ k c, s.calls r k = some c → c.stage = .last ∨ c.stage = .reset →
    ∀ k' < n, .entered r front k' ∈ s.log
  unique : ∀ k c k' c', s.calls r k = some c → s.calls r k' = some c' →
    c.stage = .last ∨ c.stage = .reset → c'.stage = .last ∨ c'.stage = .reset → k = k'
  exists_last : opAt s.flushMode front = some .barrier →
    (∀ k < n, .entered r front k ∈ s.log) →
    ∃ k c, s.calls r k = some c ∧ (c.stage = .last ∨ c.stage = .reset)

/-- The state when round `r` is the last one that all of its `n` threads have entered and
`front` of its barriers and latches have been released. -/
structure Inv (r n front : Nat) (closed : Bool) (s : State) : Prop where
  pos : opAt s.flushMode front ≠ none → 0 < n
  round_pos : 0 < n → 0 < r
  closed_iff : closed = true ↔ Closed r front s
  outside : ∀ r' k, r' ≠ r → (r' = r + 1 → closed = false) → s.calls r' k = none
  call : ∀ k c, s.calls r k = some c → CallOk r n front closed s k c
  present : opAt s.flushMode front ≠ none → ∀ k < n, s.calls r k ≠ none
  width : 0 < r → s.width r = n
  released : ∀ use < front, opAt s.flushMode use = some .barrier →
    ∀ k < n, .entered r use k ∈ s.log
  added : 0 < n → ∀ use < front, (∃ w, opAt s.flushMode use = some (.latch w)) →
    .added r use ∈ s.log
  fresh : ∀ r' use k, .entered r' use k ∈ s.log →
    r' ≤ r ∨ (r' = r + 1 ∧ use = 0 ∧ closed = true ∧ k < s.nextThreadId)
  count : CountOk r n front s
  counter : closed = false → (∀ k c, s.calls r k = some c → c.stage ≠ .reset) →
    s.barrier.counter =
      if opAt s.flushMode front = some .barrier then arrivals r front n s else 0
  counterReset : closed = false → ∀ k c, s.calls r k = some c → c.stage = .reset →
    s.barrier.counter = 0
  open_ids : closed = false → s.nextThreadId = n ∧ s.round = r
  closed_ids : closed = true → (s.nextThreadId = 0 ∧ s.round = r) ∨
    (0 < s.nextThreadId ∧ s.round = r + 1 ∧ s.nextThreadId < s.width (r + 1))
  opening_lt : closed = true → ∀ k, s.calls (r + 1) k ≠ none ↔ k < s.nextThreadId
  opening : closed = true → ∀ k c, s.calls (r + 1) k = some c → OpeningOk (r + 1) s k c
  /-- No id is drawn again while a call of the round holds it in a barrier. -/
  apart : closed = true → ∀ k c, s.calls r k = some c → opAt s.flushMode c.use = some .barrier →
    s.nextThreadId ≤ k
  openingCounter : closed = true →
    s.barrier.counter = arrivals (r + 1) 0 (s.width (r + 1)) s
  freshLeft : ∀ r' use k, .leftBarrier r' use k ∈ s.log → r' ≤ r
  left : ∀ r' use k, .leftBarrier r' use k ∈ s.log → ∀ k' < s.width r', .entered r' use k' ∈ s.log
  leftLatch : ∀ r' use k, .leftLatch r' use k ∈ s.log → .added r' use ∈ s.log

/-! ## The steps of a call -/

@[simp] theorem calls_setCall (s : State) (r k : Nat) (c : Option Call) (r' k' : Nat) :
    (s.setCall r k c).calls r' k' = if r' = r ∧ k' = k then c else s.calls r' k' := by
  simp only [State.setCall, Function.update_apply]
  by_cases hr : r' = r
  · subst hr
    simp [Function.update_apply]
  · simp [hr]

/-- The steps that a call can take, by its operation and its stage. -/
inductive Advanced (s : State) (r k : Nat) (c : Call) : State → Prop
  | returns (hops : c.ops = []) : Advanced s r k c (s.setCall r k none)
  | test (t : Test) (rest : List Op) (hops : c.ops = .test t :: rest) :
      Advanced s r k c (s.setCall r k (some { c with ops := t.next s.flushMode }))
  | flip (rest : List Op) (hops : c.ops = .barrier :: rest) (hstage : c.stage = .start) :
      Advanced s r k c ({ s with barrier := s.barrier.flipSense k }.setCall r k
        (some { c with stage := .flipped }))
  | arrive (rest : List Op) (hops : c.ops = .barrier :: rest) (hstage : c.stage = .flipped) :
      Advanced s r k c (({ s with barrier := s.barrier.arrive }.setCall r k (some { c with
        stage := if s.barrier.counter + 1 = s.width r then .last else .spin })).record
          (.entered r c.use k))
  | resetCounter (rest : List Op) (hops : c.ops = .barrier :: rest) (hstage : c.stage = .last) :
      Advanced s r k c ({ s with barrier := s.barrier.resetCounter }.setCall r k
        (some { c with stage := .reset }))
  | storeFlag (rest : List Op) (hops : c.ops = .barrier :: rest) (hstage : c.stage = .reset) :
      Advanced s r k c (({ s with
        barrier := s.barrier.storeFlag (s.barrier.localSense k) }.leave r k c).record
          (.leftBarrier r c.use k))
  | leaveBarrier (rest : List Op) (hops : c.ops = .barrier :: rest)
      (hstage : c.stage ≠ .start ∧ c.stage ≠ .flipped ∧ c.stage ≠ .last ∧ c.stage ≠ .reset)
      (hreleased : s.barrier.released k = true) :
      Advanced s r k c ((s.leave r k c).record (.leftBarrier r c.use k))
  | work (mode : FlushMode) (w : Work) (rest : List Op) (hops : c.ops = .latch w :: rest)
      (hstage : c.stage = .start) (hleader : k = 0) :
      Advanced s r k c ((s.work mode w).setCall r k (some { c with stage := .worked }))
  | latchAdd (w : Work) (rest : List Op) (hops : c.ops = .latch w :: rest)
      (hstage : c.stage = .worked) :
      Advanced s r k c (({ s with latch := s.latch.latchAdd k }.setCall r k
        (some { c with stage := .added })).record (.added r c.use))
  | latchWait (w : Work) (rest : List Op) (hops : c.ops = .latch w :: rest)
      (hstage : (c.stage = .start ∧ k ≠ 0) ∨ c.stage = .added) :
      Advanced s r k c ({ s with latch := s.latch.flipSense k }.setCall r k
        (some { c with stage := .spin }))
  | leaveLatch (w : Work) (rest : List Op) (hops : c.ops = .latch w :: rest)
      (hstage : c.stage ≠ .start ∧ c.stage ≠ .worked ∧ c.stage ≠ .added)
      (hreleased : s.latch.released k = true) :
      Advanced s r k c ((s.leave r k c).record (.leftLatch r c.use k))

theorem advance_cases {s t : State} {r k : Nat} {mode : FlushMode}
    (h : s.advance r k mode = some t) : ∃ c, s.calls r k = some c ∧ Advanced s r k c t := by
  unfold State.advance at h
  cases hcall : s.calls r k with
  | none => simp [hcall] at h
  | some c =>
      simp only [hcall] at h
      refine ⟨c, rfl, ?_⟩
      obtain ⟨ops, stage, use⟩ := c
      rcases ops with _ | ⟨op, rest⟩
      · obtain rfl := Option.some.inj h
        exact .returns rfl
      · cases op with
        | test t =>
            obtain rfl := Option.some.inj h
            exact .test t rest rfl
        | barrier =>
            cases stage <;> simp only [State.stepBarrier] at h
            case start =>
              obtain rfl := Option.some.inj h
              exact .flip rest rfl rfl
            case flipped =>
              obtain rfl := Option.some.inj h
              exact .arrive rest rfl rfl
            case last =>
              obtain rfl := Option.some.inj h
              exact .resetCounter rest rfl rfl
            case reset =>
              obtain rfl := Option.some.inj h
              exact .storeFlag rest rfl rfl
            all_goals
              split at h
              · rename_i hreleased
                obtain rfl := Option.some.inj h
                exact .leaveBarrier rest rfl (by simp) hreleased
              · simp at h
        | latch w =>
            cases stage <;> simp only [State.stepLatch] at h
            case start =>
              split at h
              · rename_i hleader
                obtain rfl := Option.some.inj h
                exact .work mode w rest rfl rfl hleader
              · rename_i hleader
                obtain rfl := Option.some.inj h
                exact .latchWait w rest rfl (Or.inl ⟨rfl, hleader⟩)
            case worked =>
              obtain rfl := Option.some.inj h
              exact .latchAdd w rest rfl rfl
            case added =>
              obtain rfl := Option.some.inj h
              exact .latchWait w rest rfl (Or.inr rfl)
            all_goals
              split at h
              · rename_i hreleased
                obtain rfl := Option.some.inj h
                exact .leaveLatch w rest rfl (by simp) hreleased
              · simp at h

/-! ## Facts about one call -/

section CallOk

variable {r n front : Nat} {closed : Bool} {s t : State} {k : Nat} {c : Call}

theorem CallOk.congr (h : CallOk r n front closed s k c) (hmode : t.flushMode = s.flushMode)
    (hflag : t.barrier.flag = s.barrier.flag)
    (hsense : (closed = true → opAt s.flushMode c.use = some .barrier) →
      t.barrier.localSense k = s.barrier.localSense k)
    (hlatchFlag : t.latch.flag = s.latch.flag)
    (hlatchSense : t.latch.localSense k = s.latch.localSense k)
    (hlog : ∀ use, .entered r use k ∈ t.log ↔ .entered r use k ∈ s.log) :
    CallOk r n front closed t k c where
  lt := h.lt
  remaining := hmode ▸ h.remaining
  stage := hmode ▸ h.stage
  placed := hmode ▸ h.placed
  entered use := by rw [hlog, h.entered, hmode]
  barrier hc := by
    rw [hmode] at hc ⊢
    rw [hflag, hsense hc]
    exact h.barrier hc
  latch := by
    rw [hmode, hlatchFlag, hlatchSense]
    exact h.latch

/-- Only a call that spins in a barrier can be behind it. -/
theorem CallOk.front_of_barrier (h : CallOk r n front closed s k c)
    (hop : opAt s.flushMode c.use = some .barrier) (hstage : c.stage ≠ .spin) : c.use = front := by
  rcases h.placed with ⟨huse, -⟩ | ⟨-, hbehind⟩ | ⟨-, -, hspin, -⟩
  · exact huse
  · rw [hop, behind_barrier] at hbehind
    exact absurd hbehind hstage
  · exact absurd hspin hstage

theorem CallOk.lt_front_of_released (h : CallOk r n front closed s k c)
    (hop : opAt s.flushMode c.use = some .barrier) (hstage : c.stage ≠ .start)
    (hreleased : s.barrier.released k = true) : c.use < front := by
  have hnot := mt (h.barrier fun _ => hop).mpr (not_not.mpr (Barrier.released_iff.mp hreleased))
  rcases h.placed with ⟨huse, -⟩ | ⟨huse, -⟩ | ⟨huse, -⟩
  · exact absurd ⟨huse, huse ▸ hop, hstage⟩ hnot
  · omega
  · omega

theorem CallOk.stage_of_front_barrier (h : CallOk r n front closed s k c)
    (hop : opAt s.flushMode front = some .barrier) (huse : c.use = front) :
    c.stage ≠ .worked ∧ c.stage ≠ .added := by
  rcases h.placed with ⟨-, hahead⟩ | ⟨hbehind, -⟩ | ⟨hbehind, -⟩
  · rw [hop, ahead_barrier] at hahead
    exact hahead
  · omega
  · omega

theorem CallOk.front_of_worked (h : CallOk r n front closed s k c) (hstage : c.stage = .worked) :
    c.use = front ∧ k = 0 ∧ ∃ w, opAt s.flushMode front = some (.latch w) := by
  rcases h.placed with ⟨huse, hahead⟩ | ⟨-, hbehind⟩ | ⟨-, -, hspin, -⟩
  · rcases opAt_cases s.flushMode front with hop | hop | ⟨w, hop⟩
    · simp [hop, hstage] at hahead
    · simp [hop, hstage] at hahead
    · exact ⟨huse, by simpa [hop, hstage] using hahead, w, hop⟩
  · rcases opAt_cases s.flushMode c.use with hop | hop | ⟨w, hop⟩ <;>
      simp [hop, hstage] at hbehind
  · rw [hstage] at hspin
    cases hspin

theorem CallOk.front_of_last (h : CallOk r n front closed s k c)
    (hstage : c.stage = .last ∨ c.stage = .reset) :
    c.use = front ∧ opAt s.flushMode front = some .barrier := by
  rcases h.placed with ⟨huse, hahead⟩ | ⟨-, hbehind⟩ | ⟨-, -, hspin, -⟩
  · refine ⟨huse, ?_⟩
    rcases opAt_cases s.flushMode front with hop | hop | ⟨w, hop⟩
    · rcases hstage with hst | hst <;> simp [hop, hst] at hahead
    · exact hop
    · rcases hstage with hst | hst <;> simp [hop, hst] at hahead
  · rcases opAt_cases s.flushMode c.use with hop | hop | ⟨w, hop⟩ <;>
      rcases hstage with hst | hst <;> simp [hop, hst] at hbehind
  · rcases hstage with hst | hst <;> rw [hst] at hspin <;> cases hspin

end CallOk

end Libcrpm.CheckpointSync
