import Libcrpm.NvmInst
import Libcrpm.Program.Machine

/-!
# The shared address buffers

`__crpm_hook_rt_store` appends to the buffer of its thread without a lock, while the leader
of a checkpoint empties the buffers of all threads, whatever pool they use.  Two pools are
open; the addresses carry numbers that tell their stores apart.
-/

namespace Libcrpm.AddressBuffers

open Libcrpm.Program
open NvmInst (kNumBufferedAddresses)

inductive Pool where
  | first | second
deriving DecidableEq, Repr

instance {f : Pool → Prop} [DecidablePred f] : Decidable (∀ p, f p) :=
  decidable_of_iff (f .first ∧ f .second)
    ⟨fun h p => by cases p; exacts [h.1, h.2], fun h => ⟨h .first, h .second⟩⟩

/-- A hooked address: the pool it lies in and the number of the store. -/
structure Entry where
  pool : Pool
  store : Nat
deriving DecidableEq, Repr

/-- Who runs `address_buffer_clear`. -/
inductive Party where
  | thread (t : Nat)
  | leader (p : Pool)
deriving DecidableEq, Repr

/-- `AddressBuffer`; the spin lock records who holds it. -/
structure Buffer where
  length : Nat
  spinlock : Option Party
  ptr : Nat → Entry

/-- Where `address_buffer_clear` is. -/
inductive ClearPc where
  | acquire
  | locked
  /-- In the loop over the `length` entries it has read, at entry `i`. -/
  | replaying (length i : Nat)
  | release
deriving DecidableEq, Repr

/-- Where `__crpm_hook_rt_store` is. -/
inductive ThreadPc where
  | idle
  | begun (e : Entry)
  | read (e : Entry) (length : Nat)
  | written (e : Entry) (length : Nat)
  | clearing (pc : ClearPc)
deriving DecidableEq, Repr

/-- Where the leader of a checkpoint is, up to the flush lists being read. -/
inductive LeaderPc where
  | outside
  | clearing (buffer : Nat) (pc : ClearPc)
  | reading
deriving DecidableEq, Repr

structure State where
  buffers : Nat → Buffer
  threads : Nat → ThreadPc
  leaders : Pool → LeaderPc
  nextStore : Nat
  /-- The entries whose store has written back the length, with their threads. -/
  appended : List (Nat × Entry)
  /-- The entries that `hook_routine` was called for. -/
  hooked : List Entry

namespace State

def setThread (t : Nat) (pc : ThreadPc) (s : State) : State :=
  { s with threads := Function.update s.threads t pc }

def setLeader (p : Pool) (pc : LeaderPc) (s : State) : State :=
  { s with leaders := Function.update s.leaders p pc }

def setBuffer (k : Nat) (b : Buffer) (s : State) : State :=
  { s with buffers := Function.update s.buffers k b }

/-- The next step of `address_buffer_clear` on buffer `k`, and where it is then. -/
def stepClear (who : Party) (k : Nat) (s : State) : ClearPc → Option (State × Option ClearPc)
  | .acquire =>
      if (s.buffers k).spinlock = none then
        some (s.setBuffer k { s.buffers k with spinlock := some who }, some .locked)
      else none
  | .locked => some (s, some (.replaying (s.buffers k).length 0))
  | .replaying length i =>
      if i < length then
        some ({ s with hooked := s.hooked ++ [(s.buffers k).ptr i] }, some (.replaying length (i + 1)))
      else some (s.setBuffer k { s.buffers k with length := 0 }, some .release)
  | .release => some (s.setBuffer k { s.buffers k with spinlock := none }, none)

/-- What follows on a step of `address_buffer_clear` on buffer `k`. -/
def setClear (k : Nat) (next : Option ClearPc) (s : State) : Party → State
  | .thread t => s.setThread t (match next with
      | some pc => .clearing pc
      | none => .idle)
  | .leader p => s.setLeader p (match next with
      | some pc => .clearing k pc
      | none => if k + 1 < kMaxThreads then .clearing (k + 1) .acquire else .reading)

def stepThread (t : Nat) (s : State) : Option State :=
  match s.threads t with
  | .idle => none
  | .begun e => some (s.setThread t (.read e (s.buffers t).length))
  | .read e length =>
      some ((s.setBuffer t { s.buffers t with
        ptr := Function.update (s.buffers t).ptr length e }).setThread t (.written e length))
  | .written e length =>
      some ({ s.setBuffer t { s.buffers t with length := length + 1 } with
        appended := s.appended ++ [(t, e)] }.setThread t
          (if length + 1 = kNumBufferedAddresses then .clearing .acquire else .idle))
  | .clearing pc => (s.stepClear (.thread t) t pc).map fun r => r.1.setClear t r.2 (.thread t)

def stepLeader (p : Pool) (s : State) : Option State :=
  match s.leaders p with
  | .outside => none
  | .clearing k pc => (s.stepClear (.leader p) k pc).map fun r => r.1.setClear k r.2 (.leader p)
  | .reading => some (s.setLeader p .outside)

end State

inductive Label where
  /-- A thread calls `__crpm_hook_rt_store` for an address of a pool. -/
  | store (t : Nat) (p : Pool)
  | thread (t : Nat)
  /-- The threads that use a pool call `checkpoint`. -/
  | checkpoint (p : Pool)
  | leader (p : Pool)
deriving DecidableEq, Repr

def State.Free (uses : Nat → Pool → Bool) (t : Nat) (s : State) : Prop :=
  s.threads t = .idle ∧ ∀ p, uses t p = true → s.leaders p = .outside

instance (uses : Nat → Pool → Bool) (t : Nat) (s : State) : Decidable (s.Free uses t) :=
  inferInstanceAs (Decidable (_ ∧ _))

/-- The threads with a buffer; `uses` tells which pools a thread stores to. -/
def machine (uses : Nat → Pool → Bool) : Machine State Label where
  init := ⟨fun _ => ⟨0, none, fun _ => ⟨.first, 0⟩⟩, fun _ => .idle, fun _ => .outside, 0, [], []⟩
  step
    | .store t p, s =>
        if t < kMaxThreads ∧ uses t p = true ∧ s.Free uses t then
          some ({ s with nextStore := s.nextStore + 1 }.setThread t (.begun ⟨p, s.nextStore⟩))
        else none
    | .thread t, s => s.stepThread t
    | .checkpoint p, s =>
        if s.leaders p = .outside ∧ ∀ t < kMaxThreads, uses t p = true → s.Free uses t then
          some (s.setLeader p (.clearing 0 .acquire))
        else none
    | .leader p, s => s.stepLeader p

/-- Whenever a leader reads the flush lists of its pool, `hook_routine` was called for every
appended address of the pool. -/
def NeverLost (uses : Nat → Pool → Bool) (admits : Label → State → Prop) : Prop :=
  ∀ s, (machine uses).Reaches admits s → ∀ p, s.leaders p = .reading →
    ∀ t e, (t, e) ∈ s.appended → e.pool = p → e ∈ s.hooked

/-- No thread writes its length back while a leader is between reading and resetting it. -/
def OutsideReplay (label : Label) (s : State) : Prop :=
  ∀ t, label = .thread t → ∀ e length, s.threads t = .written e length →
    ∀ p n i, s.leaders p ≠ .clearing t (.replaying n i)

/-! ## The invariant -/

def State.Clears (s : State) : Party → Nat → ClearPc → Prop
  | .thread t, k, pc => k = t ∧ s.threads t = .clearing pc
  | .leader p, k, pc => s.leaders p = .clearing k pc

/-- What `who` knows in `address_buffer_clear` on buffer `k`. -/
def ClearPc.Knows (s : State) (who : Party) (k : Nat) : ClearPc → Prop
  | .acquire => True
  | .locked => (s.buffers k).spinlock = some who
  | .replaying length i => (s.buffers k).spinlock = some who ∧ (s.buffers k).length = length ∧
      i ≤ length ∧ ∀ j < i, (s.buffers k).ptr j ∈ s.hooked
  | .release => (s.buffers k).spinlock = some who

/-- What a thread knows in `__crpm_hook_rt_store`. -/
def ThreadPc.Knows (uses : Nat → Pool → Bool) (s : State) (t : Nat) : ThreadPc → Prop
  | .idle => True
  | .begun e => t < kMaxThreads ∧ uses t e.pool = true
  | .read e length => t < kMaxThreads ∧ uses t e.pool = true ∧ (s.buffers t).length ≤ length
  | .written e length => t < kMaxThreads ∧ uses t e.pool = true ∧
      (s.buffers t).length ≤ length ∧ (s.buffers t).ptr length = e
  | .clearing _ => True

/-- A leader has emptied buffer `j` in its checkpoint. -/
def LeaderPc.Emptied (j : Nat) : LeaderPc → Prop
  | .outside => False
  | .clearing k pc => j < k ∨ j = k ∧ pc = .release
  | .reading => j < kMaxThreads

structure Inv (uses : Nat → Pool → Bool) (s : State) : Prop where
  kept : ∀ t e, (t, e) ∈ s.appended →
    e ∈ s.hooked ∨ ∃ j < (s.buffers t).length, (s.buffers t).ptr j = e
  user : ∀ t e, (t, e) ∈ s.appended → t < kMaxThreads ∧ uses t e.pool = true
  thread : ∀ t, (s.threads t).Knows uses s t
  clear : ∀ who k pc, s.Clears who k pc → pc.Knows s who k
  idle : ∀ p, s.leaders p ≠ .outside → ∀ t < kMaxThreads, uses t p = true → s.threads t = .idle
  emptied : ∀ p j, (s.leaders p).Emptied j → j < kMaxThreads → uses j p = true →
    (s.buffers j).length = 0

variable {uses : Nat → Pool → Bool} {s u : State} {who : Party} {k : Nat} {pc : ClearPc}
  {next : Option ClearPc}

theorem State.Clears.eq (h : s.Clears who k pc) {k' : Nat} {pc' : ClearPc}
    (h' : s.Clears who k' pc') : k' = k ∧ pc' = pc := by
  cases who with
  | thread t =>
      obtain ⟨rfl, hpc⟩ := h
      obtain ⟨rfl, hpc'⟩ := h'
      exact ⟨rfl, ThreadPc.clearing.inj (hpc'.symm.trans hpc)⟩
  | leader p => exact LeaderPc.clearing.inj (h'.symm.trans h)

theorem ThreadPc.Knows.shorter {t : Nat} {pc : ThreadPc} (h : pc.Knows uses s t)
    (hptr : (u.buffers t).ptr = (s.buffers t).ptr)
    (hlength : (u.buffers t).length ≤ (s.buffers t).length) : pc.Knows uses u t := by
  cases pc with
  | idle | clearing pc => trivial
  | begun e => exact h
  | read e length => exact ⟨h.1, h.2.1, Nat.le_trans hlength h.2.2⟩
  | written e length => exact ⟨h.1, h.2.1, Nat.le_trans hlength h.2.2.1, hptr ▸ h.2.2.2⟩

theorem ClearPc.Knows.same (h : pc.Knows s who k) (hlock : (u.buffers k).spinlock = (s.buffers k).spinlock)
    (hlength : (u.buffers k).length = (s.buffers k).length)
    (hptr : ∀ j < (s.buffers k).length, (u.buffers k).ptr j = (s.buffers k).ptr j)
    (hhooked : ∀ e ∈ s.hooked, e ∈ u.hooked) : pc.Knows u who k := by
  cases pc with
  | acquire => trivial
  | locked | release => exact hlock.trans h
  | replaying length i =>
      obtain ⟨hheld, hlen, hle, hdone⟩ := h
      refine ⟨hlock.trans hheld, hlength.trans hlen, hle, fun j hj => ?_⟩
      rw [hptr j (by omega)]
      exact hhooked _ (hdone j hj)

theorem Inv.exclusive (h : Inv uses s) {who' : Party} {pc' : ClearPc} (hc : s.Clears who k pc)
    (hc' : s.Clears who' k pc') (hpc : pc ≠ .acquire) (hpc' : pc' ≠ .acquire) : who' = who := by
  have hheld : ∀ w p, s.Clears w k p → p ≠ .acquire → (s.buffers k).spinlock = some w := by
    intro w p hw hp
    have hknows := h.clear w k p hw
    cases p with
    | acquire => exact absurd rfl hp
    | locked | release => exact hknows
    | replaying length i => exact hknows.1
  exact Option.some.inj ((hheld who' pc' hc' hpc').symm.trans (hheld who pc hc hpc))

/-! ## Emptying a buffer -/

structure ClearStep (s u : State) (who : Party) (k : Nat) (pc : ClearPc) (next : Option ClearPc) :
    Prop where
  threads : u.threads = s.threads
  leaders : u.leaders = s.leaders
  appended : u.appended = s.appended
  ptr : ∀ j, (u.buffers j).ptr = (s.buffers j).ptr
  length : ∀ j, (u.buffers j).length ≤ (s.buffers j).length
  kept : ∀ t e, (t, e) ∈ s.appended →
    e ∈ u.hooked ∨ ∃ j < (u.buffers t).length, (u.buffers t).ptr j = e
  others : ∀ who' k' pc', who' ≠ who → s.Clears who' k' pc' → pc'.Knows u who' k'
  knows : ∀ pc', next = some pc' → pc'.Knows u who k
  reset : next = some .release → (u.buffers k).length = 0
  done : next = none → pc = .release

theorem Inv.setClear (h : Inv uses s) (hc : s.Clears who k pc) (hu : ClearStep s u who k pc next) :
    Inv uses (u.setClear k next who) := by
  have hzero : ∀ j, (s.buffers j).length = 0 → (u.buffers j).length = 0 := fun j hj =>
    Nat.le_zero.mp (hj ▸ hu.length j)
  have hknows : ∀ t, (s.threads t).Knows uses u t := fun t =>
    (h.thread t).shorter (hu.ptr t) (hu.length t)
  cases who with
  | thread t =>
      obtain ⟨rfl, hpc⟩ := hc
      have hself : ∀ p, s.leaders p ≠ .outside → k < kMaxThreads → uses k p = true → False := by
        intro p hout hk huses
        rw [h.idle p hout k hk huses] at hpc
        cases hpc
      refine ⟨hu.appended ▸ hu.kept, hu.appended ▸ h.user, fun t' => ?_, fun who' k' pc' hc' => ?_,
        fun p hout t' ht' huses => ?_, fun p j hemptied hj huses => ?_⟩
      · by_cases heq : t' = k
        · subst heq
          simp only [State.setClear, State.setThread, Function.update_self]
          cases next <;> trivial
        · simp only [State.setClear, State.setThread, Function.update_of_ne heq, hu.threads]
          exact hknows t'
      · cases who' with
        | thread t' =>
            obtain ⟨rfl, hpc'⟩ := hc'
            by_cases heq : k' = k
            · subst heq
              simp only [State.setClear, State.setThread, Function.update_self] at hpc'
              cases next with
              | none => cases hpc'
              | some pc'' => exact ThreadPc.clearing.inj hpc' ▸ hu.knows pc'' rfl
            · simp only [State.setClear, State.setThread, Function.update_of_ne heq,
                hu.threads] at hpc'
              exact hu.others (.thread k') k' pc' (by simp [heq]) ⟨rfl, hpc'⟩
        | leader p =>
            have hleader : u.leaders p = .clearing k' pc' := hc'
            rw [hu.leaders] at hleader
            exact hu.others (.leader p) k' pc' (by simp) hleader
      · have hout' : s.leaders p ≠ .outside := hu.leaders ▸ hout
        by_cases heq : t' = k
        · subst heq
          exact (hself p hout' ht' huses).elim
        · simp only [State.setClear, State.setThread, Function.update_of_ne heq, hu.threads]
          exact h.idle p hout' t' ht' huses
      · exact hzero j (h.emptied p j (hu.leaders ▸ hemptied) hj huses)
  | leader q =>
      have hq : s.leaders q ≠ .outside := by
        rw [show s.leaders q = .clearing k pc from hc]
        simp
      have hemptied : ∀ j, j < k ∨ j = k ∧ pc = .release → j < kMaxThreads → uses j q = true →
          (u.buffers j).length = 0 := by
        intro j hj hlt huses
        refine hzero j (h.emptied q j ?_ hlt huses)
        rw [show s.leaders q = .clearing k pc from hc]
        exact hj
      refine ⟨hu.appended ▸ hu.kept, hu.appended ▸ h.user, fun t => ?_, fun who' k' pc' hc' => ?_,
        fun p hout t ht huses => ?_, fun p j hpast hj huses => ?_⟩
      · have hthread : u.threads t = s.threads t := by rw [hu.threads]
        exact hthread ▸ hknows t
      · cases who' with
        | thread t =>
            obtain ⟨rfl, hthread⟩ : k' = t ∧ u.threads t = .clearing pc' := hc'
            rw [hu.threads] at hthread
            exact hu.others (.thread k') k' pc' (by simp) ⟨rfl, hthread⟩
        | leader p =>
            by_cases heq : p = q
            · subst heq
              simp only [State.Clears, State.setClear, State.setLeader,
                Function.update_self] at hc'
              cases next with
              | none =>
                  simp only at hc'
                  split at hc'
                  · rw [← (LeaderPc.clearing.inj hc').2]
                    trivial
                  · cases hc'
              | some pc'' =>
                  obtain ⟨rfl, rfl⟩ := LeaderPc.clearing.inj hc'
                  exact hu.knows pc'' rfl
            · simp only [State.Clears, State.setClear, State.setLeader,
                Function.update_of_ne heq, hu.leaders] at hc'
              exact hu.others (.leader p) k' pc' (by simp [heq]) hc'
      · have hthread : u.threads t = s.threads t := by rw [hu.threads]
        refine hthread.trans (h.idle p ?_ t ht huses)
        by_cases heq : p = q
        · exact heq ▸ hq
        · simp only [State.setClear, State.setLeader, Function.update_of_ne heq,
            hu.leaders] at hout
          exact hout
      · by_cases heq : p = q
        · subst heq
          simp only [State.setClear, State.setLeader, Function.update_self] at hpast
          cases next with
          | none =>
              have hle : j ≤ k := by
                simp only at hpast
                split at hpast
                · rcases hpast with hlt | ⟨-, hfalse⟩
                  · omega
                  · cases hfalse
                · omega
              refine hemptied j ?_ hj huses
              rcases Nat.lt_or_eq_of_le hle with hlt | heq
              · exact Or.inl hlt
              · exact Or.inr ⟨heq, hu.done rfl⟩
          | some pc'' =>
              rcases hpast with hlt | ⟨rfl, rfl⟩
              · exact hemptied j (Or.inl hlt) hj huses
              · exact hu.reset rfl
        · simp only [State.setClear, State.setLeader, Function.update_of_ne heq,
            hu.leaders] at hpast
          exact hzero j (h.emptied p j hpast hj huses)

theorem State.buffers_setBuffer_of_ne {j : Nat} (hj : j ≠ k) (b : Buffer) (s : State) :
    (s.setBuffer k b).buffers j = s.buffers j := Function.update_of_ne hj ..

@[simp] theorem State.buffers_setBuffer_self (k : Nat) (b : Buffer) (s : State) :
    (s.setBuffer k b).buffers k = b := Function.update_self ..

theorem clearStep_of_lock (h : Inv uses s) (lock : Option Party) (next : Option ClearPc)
    (hothers : ∀ who' pc', who' ≠ who → s.Clears who' k pc' → pc' = .acquire)
    (hknows : ∀ pc', next = some pc' →
      pc'.Knows (s.setBuffer k { s.buffers k with spinlock := lock }) who k)
    (hreset : next ≠ some .release) (hdone : next = none → pc = .release) :
    ClearStep s (s.setBuffer k { s.buffers k with spinlock := lock }) who k pc next := by
  have hsame : ∀ j, ((s.setBuffer k { s.buffers k with spinlock := lock }).buffers j).ptr =
      (s.buffers j).ptr ∧
      ((s.setBuffer k { s.buffers k with spinlock := lock }).buffers j).length =
        (s.buffers j).length := by
    intro j
    by_cases hj : j = k
    · subst hj
      simp
    · simp [State.buffers_setBuffer_of_ne hj]
  refine ⟨rfl, rfl, rfl, fun j => (hsame j).1, fun j => Nat.le_of_eq (hsame j).2, fun t e ha => ?_,
    fun who' k' pc' hne hc' => ?_, hknows, fun hrelease => absurd hrelease hreset, hdone⟩
  · rw [(hsame t).1, (hsame t).2]
    exact h.kept t e ha
  · by_cases hk : k' = k
    · subst hk
      rw [hothers who' pc' hne hc']
      trivial
    · have hbuffer := State.buffers_setBuffer_of_ne hk { s.buffers k with spinlock := lock } s
      exact (h.clear who' k' pc' hc').same (by rw [hbuffer]) (by rw [hbuffer])
        (fun j _ => by rw [hbuffer]) fun e he => he

theorem Inv.stepClear (h : Inv uses s) (hc : s.Clears who k pc)
    (hstep : s.stepClear who k pc = some (u, next)) : Inv uses (u.setClear k next who) := by
  refine h.setClear hc ?_
  have hknows := h.clear who k pc hc
  have hothers : pc ≠ .acquire → ∀ who' pc', who' ≠ who → s.Clears who' k pc' →
      pc' = .acquire := by
    intro hpc who' pc' hne hc'
    by_contra hpc'
    exact hne (h.exclusive hc hc' hpc hpc')
  cases pc with
  | acquire =>
      simp only [State.stepClear] at hstep
      split at hstep
      · rename_i hfree
        cases hstep
        refine clearStep_of_lock h _ _ (fun who' pc' _ hc' => ?_) ?_ (by simp) (by simp)
        · have hknows' := h.clear who' k pc' hc'
          cases pc' with
          | acquire => rfl
          | locked | release =>
              rw [ClearPc.Knows, hfree] at hknows'
              cases hknows'
          | replaying length i =>
              rw [ClearPc.Knows, hfree] at hknows'
              cases hknows'.1
        · intro pc' hpc'
          obtain rfl := Option.some.inj hpc'
          simp [ClearPc.Knows]
      · cases hstep
  | locked =>
      simp only [State.stepClear] at hstep
      cases hstep
      refine ⟨rfl, rfl, rfl, fun _ => rfl, fun _ => le_rfl, h.kept,
        fun who' k' pc' _ hc' => h.clear who' k' pc' hc', ?_, by simp, by simp⟩
      intro pc' hpc'
      obtain rfl := Option.some.inj hpc'
      exact ⟨hknows, rfl, Nat.zero_le _, fun j hj => by omega⟩
  | replaying length i =>
      obtain ⟨hheld, hlength, hle, hdone⟩ := hknows
      simp only [State.stepClear] at hstep
      split at hstep
      · rename_i hlt
        cases hstep
        have hgrow : ∀ e ∈ s.hooked, e ∈ s.hooked ++ [(s.buffers k).ptr i] :=
          fun e he => List.mem_append_left _ he
        refine ⟨rfl, rfl, rfl, fun _ => rfl, fun _ => le_rfl,
          fun t e ha => (h.kept t e ha).imp_left (hgrow e), ?_, ?_, by simp, by simp⟩
        · exact fun who' k' pc' _ hc' => (h.clear who' k' pc' hc').same rfl rfl (fun _ _ => rfl) hgrow
        · intro pc' hpc'
          obtain rfl := Option.some.inj hpc'
          refine ⟨hheld, hlength, hlt, fun j hj => ?_⟩
          rcases Nat.lt_or_eq_of_le (Nat.lt_succ_iff.mp hj) with hlt' | rfl
          · exact hgrow _ (hdone j hlt')
          · exact List.mem_append_right _ (List.mem_singleton.mpr rfl)
      · rename_i hge
        cases hstep
        -- Every entry of the buffer has been replayed: nothing was appended meanwhile.
        have hall : ∀ j < (s.buffers k).length, (s.buffers k).ptr j ∈ s.hooked :=
          fun j hj => hdone j (by omega)
        have hbuffer : ∀ j, j ≠ k →
            (s.setBuffer k { s.buffers k with length := 0 }).buffers j = s.buffers j :=
          fun j hj => State.buffers_setBuffer_of_ne hj _ s
        refine ⟨rfl, rfl, rfl, fun j => ?_, fun j => ?_, fun t e ha => ?_,
          fun who' k' pc' hne hc' => ?_, fun pc' hpc' => ?_, fun _ => by simp, by simp⟩
        · by_cases hj : j = k
          · subst hj
            simp
          · rw [hbuffer j hj]
        · by_cases hj : j = k
          · subst hj
            simp
          · rw [hbuffer j hj]
        · rcases h.kept t e ha with hhooked | ⟨j, hj, rfl⟩
          · exact Or.inl hhooked
          · by_cases ht : t = k
            · subst ht
              exact Or.inl (hall j hj)
            · rw [hbuffer t ht]
              exact Or.inr ⟨j, hj, rfl⟩
        · by_cases hk : k' = k
          · subst hk
            rw [hothers (by simp) who' pc' hne hc']
            trivial
          · exact (h.clear who' k' pc' hc').same (by rw [hbuffer k' hk]) (by rw [hbuffer k' hk])
              (fun j _ => by rw [hbuffer k' hk]) fun e he => he
        · obtain rfl := Option.some.inj hpc'
          simpa [ClearPc.Knows] using hheld
  | release =>
      simp only [State.stepClear] at hstep
      cases hstep
      exact clearStep_of_lock h _ _ (hothers (by simp)) (by simp) (by simp) fun _ => rfl

/-! ## Storing -/

theorem Inv.setLeader {p : Pool} (h : Inv uses s) (pc : LeaderPc)
    (hclear : ∀ k pc', pc = .clearing k pc' → pc'.Knows s (.leader p) k)
    (hidle : pc ≠ .outside → ∀ t < kMaxThreads, uses t p = true → s.threads t = .idle)
    (hempty : ∀ j, ¬ pc.Emptied j) : Inv uses (s.setLeader p pc) := by
  refine ⟨h.kept, h.user, h.thread, fun who k pc' hc => ?_, fun q hq => ?_, fun q j hj => ?_⟩
  · cases who with
    | thread t => exact h.clear (.thread t) k pc' hc
    | leader q =>
        have hleader : Function.update s.leaders p pc q = .clearing k pc' := hc
        by_cases heq : q = p
        · subst heq
          rw [Function.update_self] at hleader
          exact hclear k pc' hleader
        · rw [Function.update_of_ne heq] at hleader
          exact h.clear (.leader q) k pc' hleader
  · have hleader : Function.update s.leaders p pc q ≠ .outside := hq
    by_cases heq : q = p
    · subst heq
      rw [Function.update_self] at hleader
      exact hidle hleader
    · rw [Function.update_of_ne heq] at hleader
      exact h.idle q hleader
  · have hleader : (Function.update s.leaders p pc q).Emptied j := hj
    by_cases heq : q = p
    · subst heq
      rw [Function.update_self] at hleader
      exact absurd hleader (hempty j)
    · rw [Function.update_of_ne heq] at hleader
      exact h.emptied q j hleader

/-- A thread that is not in `address_buffer_clear`, before and after a step. -/
structure StoreStep (uses : Nat → Pool → Bool) (s u : State) (t : Nat) (pc : ThreadPc) : Prop where
  leaders : u.leaders = s.leaders
  hooked : u.hooked = s.hooked
  threads : u.threads = Function.update s.threads t pc
  buffers : ∀ j, j ≠ t → u.buffers j = s.buffers j
  busy : s.threads t ≠ .idle ∨ ∀ p, uses t p = true → s.leaders p = .outside
  notClearing : ∀ pc', pc = .clearing pc' → pc' = .acquire

theorem Inv.storeStep {t : Nat} {pc : ThreadPc} (h : Inv uses s) (hu : StoreStep uses s u t pc)
    (hkept : ∀ t' e, (t', e) ∈ u.appended →
      e ∈ s.hooked ∨ ∃ j < (u.buffers t').length, (u.buffers t').ptr j = e)
    (huser : ∀ t' e, (t', e) ∈ u.appended → t' < kMaxThreads ∧ uses t' e.pool = true)
    (hthread : pc.Knows uses u t)
    (hclear : ∀ who pc', who ≠ .thread t → s.Clears who t pc' → pc'.Knows u who t)
    (hlt : t < kMaxThreads) : Inv uses u := by
  have hout : ∀ p, s.leaders p ≠ .outside → uses t p = true → False := by
    intro p hout huses
    rcases hu.busy with hbusy | hfree
    · exact hbusy (h.idle p hout t hlt huses)
    · exact hout (hfree p huses)
  refine ⟨hu.hooked ▸ hkept, huser, fun t' => ?_, fun who k pc' hc => ?_,
    fun p hp t' ht' huses => ?_, fun p j hemptied hj huses => ?_⟩
  · by_cases heq : t' = t
    · subst heq
      rw [hu.threads, Function.update_self]
      exact hthread
    · rw [hu.threads, Function.update_of_ne heq]
      exact (h.thread t').shorter (by rw [hu.buffers t' heq]) (by rw [hu.buffers t' heq])
  · have hother : who ≠ .thread t → s.Clears who k pc' → pc'.Knows u who k := by
      intro hne hc'
      by_cases hk : k = t
      · subst hk
        exact hclear who pc' hne hc'
      · exact (h.clear who k pc' hc').same (by rw [hu.buffers k hk]) (by rw [hu.buffers k hk])
          (fun j _ => by rw [hu.buffers k hk]) fun e he => hu.hooked ▸ he
    cases who with
    | thread t' =>
        obtain ⟨rfl, hpc⟩ := hc
        by_cases heq : k = t
        · subst heq
          rw [hu.threads, Function.update_self] at hpc
          rw [hu.notClearing pc' hpc]
          trivial
        · rw [hu.threads, Function.update_of_ne heq] at hpc
          exact hother (by simp [heq]) ⟨rfl, hpc⟩
    | leader p =>
        have hleader : u.leaders p = .clearing k pc' := hc
        rw [hu.leaders] at hleader
        exact hother (by simp) hleader
  · rw [hu.leaders] at hp
    by_cases heq : t' = t
    · subst heq
      exact (hout p hp huses).elim
    · rw [hu.threads, Function.update_of_ne heq]
      exact h.idle p hp t' ht' huses
  · rw [hu.leaders] at hemptied
    by_cases heq : j = t
    · subst heq
      refine (hout p (fun hp => ?_) huses).elim
      rw [hp] at hemptied
      exact hemptied
    · rw [hu.buffers j heq]
      exact h.emptied p j hemptied hj huses

theorem Inv.stepThread {t : Nat} (h : Inv uses s) (hadmits : OutsideReplay (.thread t) s)
    (hstep : s.stepThread t = some u) : Inv uses u := by
  have hknows := h.thread t
  cases hpc : s.threads t with
  | idle =>
      simp only [State.stepThread, hpc] at hstep
      cases hstep
  | begun e =>
      simp only [State.stepThread, hpc] at hstep
      rw [hpc] at hknows
      obtain rfl := Option.some.inj hstep
      refine h.storeStep (t := t) ⟨rfl, rfl, rfl, fun _ _ => rfl, Or.inl (by simp [hpc]), by simp⟩
        h.kept h.user ⟨hknows.1, hknows.2, le_rfl⟩ (fun who pc' _ hc => ?_) hknows.1
      exact (h.clear who t pc' hc).same rfl rfl (fun _ _ => rfl) fun e he => he
  | read e length =>
      simp only [State.stepThread, hpc] at hstep
      rw [hpc] at hknows
      obtain ⟨hlt, huses, hle⟩ := hknows
      obtain rfl := Option.some.inj hstep
      have hbuffer : ∀ j, j ≠ t → (s.setBuffer t { s.buffers t with
          ptr := Function.update (s.buffers t).ptr length e }).buffers j = s.buffers j :=
        fun j hj => State.buffers_setBuffer_of_ne hj _ s
      -- The entry written is behind those of the buffer.
      have hptr : ∀ j < (s.buffers t).length,
          Function.update (s.buffers t).ptr length e j = (s.buffers t).ptr j :=
        fun j hj => Function.update_of_ne (by omega) ..
      refine h.storeStep (t := t) ⟨rfl, rfl, rfl, hbuffer, Or.inl (by simp [hpc]), by simp⟩
        (fun t' e' ha => ?_) h.user ?_ (fun who pc' _ hc => ?_) hlt
      · refine (h.kept t' e' ha).imp_right fun ⟨j, hj, hentry⟩ => ?_
        by_cases ht : t' = t
        · subst ht
          exact ⟨j, by simpa [State.setThread] using hj,
            by simpa [State.setThread] using (hptr j hj).trans hentry⟩
        · exact ⟨j, by simpa [State.setThread, hbuffer t' ht] using hj,
            by simpa [State.setThread, hbuffer t' ht] using hentry⟩
      · exact ⟨hlt, huses, by simpa [State.setThread] using hle, by simp [State.setThread]⟩
      · exact (h.clear who t pc' hc).same (by simp [State.setThread]) (by simp [State.setThread])
          (fun j hj => by simpa [State.setThread] using hptr j hj) fun e he => he
  | written e length =>
      simp only [State.stepThread, hpc] at hstep
      rw [hpc] at hknows
      obtain ⟨hlt, huses, hle, hentry⟩ := hknows
      obtain rfl := Option.some.inj hstep
      have hbuffer : ∀ j, j ≠ t → (s.setBuffer t { s.buffers t with
          length := length + 1 }).buffers j = s.buffers j :=
        fun j hj => State.buffers_setBuffer_of_ne hj _ s
      refine h.storeStep (t := t) ⟨rfl, rfl, rfl, hbuffer, Or.inl (by simp [hpc]), ?_⟩
        (fun t' e' ha => ?_) (fun t' e' ha => ?_) ?_ (fun who pc' hne hc => ?_) hlt
      · intro pc'
        split
        · exact fun hpc' => (ThreadPc.clearing.inj hpc').symm
        · exact fun hpc' => by cases hpc'
      · rcases List.mem_append.mp ha with hold | hnew
        · refine (h.kept t' e' hold).imp_right fun ⟨j, hj, hentry'⟩ => ?_
          by_cases ht : t' = t
          · subst ht
            exact ⟨j, by simp [State.setThread]; omega, by simpa [State.setThread] using hentry'⟩
          · exact ⟨j, by simpa [State.setThread, hbuffer t' ht] using hj,
              by simpa [State.setThread, hbuffer t' ht] using hentry'⟩
        · obtain ⟨rfl, rfl⟩ : t' = t ∧ e' = e := by simpa using hnew
          exact Or.inr ⟨length, by simp [State.setThread], by simpa [State.setThread] using hentry⟩
      · rcases List.mem_append.mp ha with hold | hnew
        · exact h.user t' e' hold
        · obtain ⟨rfl, rfl⟩ : t' = t ∧ e' = e := by simpa using hnew
          exact ⟨hlt, huses⟩
      · split <;> trivial
      · -- Nobody is replaying the buffer when its length changes.
        cases who with
        | thread t' => exact absurd (congrArg Party.thread hc.1.symm) hne
        | leader p =>
            have hknows' := h.clear (.leader p) t pc' hc
            cases pc' with
            | acquire => trivial
            | locked | release => simpa [ClearPc.Knows, State.setThread] using hknows'
            | replaying n i => exact absurd hc (hadmits t rfl e length hpc p n i)
  | clearing pc =>
      simp only [State.stepThread, hpc] at hstep
      obtain ⟨⟨v, next⟩, hv, rfl⟩ := Option.map_eq_some_iff.mp hstep
      exact h.stepClear ⟨rfl, hpc⟩ hv

theorem Inv.stepLeader {p : Pool} (h : Inv uses s) (hstep : s.stepLeader p = some u) :
    Inv uses u := by
  cases hpc : s.leaders p with
  | outside =>
      simp only [State.stepLeader, hpc] at hstep
      cases hstep
  | clearing k pc =>
      simp only [State.stepLeader, hpc] at hstep
      obtain ⟨⟨v, next⟩, hv, rfl⟩ := Option.map_eq_some_iff.mp hstep
      exact h.stepClear hpc hv
  | reading =>
      simp only [State.stepLeader, hpc] at hstep
      obtain rfl := Option.some.inj hstep
      exact h.setLeader .outside (fun k pc' hc => by cases hc) (fun hout => absurd rfl hout)
        fun j hempty => hempty.elim

theorem Inv.step {label : Label} (h : Inv uses s) (hadmits : OutsideReplay label s)
    (hstep : (machine uses).step label s = some u) : Inv uses u := by
  cases label with
  | store t p =>
      simp only [machine] at hstep
      split at hstep
      · rename_i hguard
        obtain ⟨hlt, huses, hidle, hfree⟩ := hguard
        obtain rfl := Option.some.inj hstep
        refine h.storeStep (t := t) ⟨rfl, rfl, rfl, fun _ _ => rfl, Or.inr hfree, by simp⟩
          h.kept h.user ⟨hlt, huses⟩ (fun who pc' _ hc => ?_) hlt
        exact (h.clear who t pc' hc).same rfl rfl (fun _ _ => rfl) fun e he => he
      · cases hstep
  | thread t => exact h.stepThread hadmits hstep
  | checkpoint p =>
      simp only [machine] at hstep
      split at hstep
      · rename_i hguard
        obtain rfl := Option.some.inj hstep
        refine h.setLeader (.clearing 0 .acquire) (fun k pc' hc => ?_)
          (fun _ t ht huses => (hguard.2 t ht huses).1) fun j hempty => ?_
        · obtain ⟨-, rfl⟩ := LeaderPc.clearing.inj hc
          trivial
        · rcases hempty with hlt | ⟨-, hrelease⟩
          · omega
          · cases hrelease
      · cases hstep
  | leader p => exact h.stepLeader hstep

theorem inv_init (uses : Nat → Pool → Bool) : Inv uses (machine uses).init := by
  refine ⟨by simp [machine], by simp [machine], fun _ => trivial, fun who k pc hc => ?_,
    fun p hp => absurd rfl hp, fun p j hempty => hempty.elim⟩
  cases who with
  | thread t => cases hc.2
  | leader p => cases hc

/-- In a run in which no length is written back while a leader replays the buffer, no hook is
lost. -/
theorem neverLost_of_outsideReplay (uses : Nat → Pool → Bool) :
    NeverLost uses OutsideReplay := by
  intro s hs p hreading t e happended hpool
  have hinv : Inv uses s := hs.invariant (inv_init uses) fun _ _ _ h hadmits hstep =>
    h.step hadmits hstep
  obtain ⟨hlt, huses⟩ := hinv.user t e happended
  have hempty : (s.buffers t).length = 0 := by
    refine hinv.emptied p t ?_ hlt (hpool ▸ huses)
    rw [hreading]
    exact hlt
  rcases hinv.kept t e happended with hhooked | ⟨j, hj, -⟩
  · exact hhooked
  · omega

/-! ## A lost hook -/

/-- Thread 0 uses the first pool, thread 1 the second one. -/
def onePoolEach (t : Nat) (p : Pool) : Bool := t = 0 && p = .first || t = 1 && p = .second

def State.Empty (s : State) : Prop :=
  ∀ j, (s.buffers j).length = 0 ∧ (s.buffers j).spinlock = none

theorem reaches_next {p : Pool} {s : State}
    (hs : (machine uses).Reaches (fun _ _ => True) s) (hpc : s.leaders p = .clearing k .acquire)
    (hempty : s.Empty) :
    ∃ u, (machine uses).Reaches (fun _ _ => True) u ∧ u.Empty ∧ u.appended = s.appended ∧
      u.hooked = s.hooked ∧ u.leaders p =
        if k + 1 < kMaxThreads then .clearing (k + 1) .acquire else .reading := by
  obtain ⟨hlength, hfree⟩ := hempty k
  let a := (s.setBuffer k { s.buffers k with spinlock := some (.leader p) }).setClear k
    (some .locked) (.leader p)
  have ha : (machine uses).step (.leader p) s = some a := by
    simp [machine, State.stepLeader, hpc, State.stepClear, hfree, a]
  let b := a.setClear k (some (.replaying 0 0)) (.leader p)
  have hb : (machine uses).step (.leader p) a = some b := by
    simp [machine, State.stepLeader, State.stepClear, a, b, State.setClear, State.setLeader,
      hlength]
  let c := (b.setBuffer k { b.buffers k with length := 0 }).setClear k (some .release) (.leader p)
  have hc : (machine uses).step (.leader p) b = some c := by
    simp [machine, State.stepLeader, State.stepClear, b, c, State.setClear, State.setLeader]
  let d := (c.setBuffer k { c.buffers k with spinlock := none }).setClear k none (.leader p)
  have hd : (machine uses).step (.leader p) c = some d := by
    simp [machine, State.stepLeader, State.stepClear, c, d, State.setClear, State.setLeader]
  refine ⟨d, (((hs.step _ trivial ha).step _ trivial hb).step _ trivial hc).step _ trivial hd,
    ?_, rfl, rfl, ?_⟩
  · intro j
    by_cases hj : j = k
    · subst hj
      simp [d, c, State.setClear, State.setLeader]
    · simpa [d, c, b, a, State.setClear, State.setLeader, State.buffers_setBuffer_of_ne hj,
        State.setBuffer, Function.update_of_ne hj] using hempty j
  · simp [d, State.setClear, State.setLeader]

theorem reaches_reading {p : Pool} {s : State}
    (hs : (machine uses).Reaches (fun _ _ => True) s) (hpc : s.leaders p = .clearing k .acquire)
    (hk : k < kMaxThreads) (hempty : s.Empty) :
    ∃ u, (machine uses).Reaches (fun _ _ => True) u ∧ u.leaders p = .reading ∧
      u.appended = s.appended ∧ u.hooked = s.hooked := by
  induction hn : kMaxThreads - k generalizing k s with
  | zero => omega
  | succ n ih =>
      obtain ⟨u, hu, huempty, happended, hhooked, hupc⟩ := reaches_next hs hpc hempty
      split at hupc
      · rename_i hlt
        obtain ⟨v, hv, hreading, happended', hhooked'⟩ := ih hu hupc hlt huempty (by omega)
        exact ⟨v, hv, hreading, happended'.trans happended, hhooked'.trans hhooked⟩
      · exact ⟨u, hu, hupc, happended, hhooked⟩

/-- The leader of the second pool has read a length of zero when thread 0 writes back one. -/
def losingRun : List Label :=
  [.store 0 .first, .thread 0, .thread 0, .checkpoint .second, .leader .second, .leader .second,
    .thread 0, .leader .second, .leader .second, .checkpoint .first]

set_option maxRecDepth 4000 in
theorem not_neverLost :
    ¬ ∀ uses : Nat → Pool → Bool, NeverLost uses fun _ _ => True := by
  intro hall
  obtain ⟨s, hrun, hpc, hempty, happended, hhooked⟩ : ∃ s,
      (machine onePoolEach).exec losingRun (machine onePoolEach).init = some s ∧
      s.leaders .first = .clearing 0 .acquire ∧ s.Empty ∧
      s.appended = [(0, ⟨.first, 0⟩)] ∧ s.hooked = [] := by
    refine ⟨_, rfl, rfl, fun j => ?_, rfl, rfl⟩
    cases j with
    | zero => exact ⟨rfl, rfl⟩
    | succ j => exact ⟨rfl, rfl⟩
  obtain ⟨u, hu, hreading, happended', hhooked'⟩ :=
    reaches_reading (.exec .init hrun) hpc (by decide) hempty
  have hlost := hall onePoolEach u hu .first hreading 0 ⟨.first, 0⟩
    (by rw [happended', happended]; exact List.mem_singleton.mpr rfl) rfl
  rw [hhooked', hhooked] at hlost
  cases hlost

end Libcrpm.AddressBuffers
