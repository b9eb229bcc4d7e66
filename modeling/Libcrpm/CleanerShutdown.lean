import Libcrpm.NvmInst
import Libcrpm.Program.Machine

/-!
# Stopping the cleaner

`~NvmInstEngine` against `WriteBackThreadRoutine`, after any number of checkpoints.  The
destructor writes `cleaner_running` and notifies without `cleaner_mutex`, which the cleaner
holds everywhere but in its waits.
-/

namespace Libcrpm.CleanerShutdown

open Libcrpm.Program

inductive Party where
  | cleaner | main
deriving DecidableEq, Repr

/-- Where `WriteBackThreadRoutine` is. -/
inductive CleanerPc where
  | spawned
  /-- At the test of `cleaner_running`, and behind it when it was set. -/
  | test
  | tested
  /-- In the case for the state that was read. -/
  | read (state : CleanerState)
  | writeBack
  /-- About to wait, because a checkpoint is in progress. -/
  | wait
  | blocked
  /-- Notified, but without the mutex. -/
  | woken
  | exited
deriving DecidableEq, Repr

/-- Where the thread that checkpoints and then destroys the engine is.  `wbinvd` tells the
flush mode of a checkpoint, `locked` whether its leader holds the mutex. -/
inductive MainPc where
  | idle
  | begun (wbinvd busy : Bool)
  | locking (wbinvd : Bool)
  | committing (wbinvd locked : Bool)
  | committed (locked : Bool)
  | unlocking
  | notifying
  /-- In the destructor, behind `cleaner_running = false`. -/
  | stopping
  | joining
  | joined
deriving DecidableEq, Repr

structure State where
  cleanerRunning : Bool
  cleanerState : CleanerState
  checkpointInProgress : Bool
  cleanerMutex : Option Party
  /-- `segment_id` of the cleaner. -/
  segment : Nat
  cleaner : CleanerPc
  main : MainPc
deriving DecidableEq, Repr

namespace State

def notify (s : State) : State :=
  if s.cleaner = .blocked then { s with cleaner := .woken } else s

def stepCleaner (nrSegments : Nat) (s : State) : Option State :=
  match s.cleaner with
  | .spawned | .woken =>
      if s.cleanerMutex = none then some { s with cleanerMutex := some .cleaner, cleaner := .test }
      else none
  | .test =>
      if s.cleanerRunning then some { s with cleaner := .tested }
      else some { s with cleanerMutex := none, cleaner := .exited }
  | .tested => some { s with cleaner := .read s.cleanerState }
  | .read .started => some { s with segment := 0, cleanerState := .running, cleaner := .test }
  | .read .running =>
      if s.checkpointInProgress then some { s with cleaner := .wait }
      else some { s with cleaner := .writeBack }
  | .writeBack =>
      some { s with
        segment := s.segment + 1
        cleanerState := if s.segment + 1 = nrSegments then .idle else s.cleanerState
        cleaner := .test }
  | .read .idle | .wait => some { s with cleanerMutex := none, cleaner := .blocked }
  | .blocked | .exited => none

def stepMain (s : State) : Option State :=
  match s.main with
  | .idle | .joined => none
  | .begun wbinvd busy =>
      some { s with
        checkpointInProgress := true
        main := if wbinvd || busy then .locking wbinvd else .committing wbinvd false }
  | .locking wbinvd =>
      if s.cleanerMutex = none then
        some { s with cleanerMutex := some .main, main := .committing wbinvd true }
      else none
  | .committing wbinvd locked =>
      some { s with
        cleanerState := if wbinvd then .started else s.cleanerState
        main := .committed locked }
  | .committed locked =>
      some { s with checkpointInProgress := false, main := if locked then .unlocking else .idle }
  | .unlocking => some { s with cleanerMutex := none, main := .notifying }
  | .notifying => some { s.notify with main := .idle }
  | .stopping => some { s.notify with main := .joining }
  | .joining => if s.cleaner = .exited then some { s with main := .joined } else none

end State

inductive Label where
  | cleaner
  /-- A spurious wakeup. -/
  | wake
  | main
  | checkpoint (wbinvd : Bool)
  | destroy
deriving DecidableEq, Repr

def machine (nrSegments : Nat) (state : CleanerState) (segment : Nat) : Machine State Label where
  init := ⟨true, state, false, none, segment, .spawned, .idle⟩
  step
    | .cleaner, s => s.stepCleaner nrSegments
    | .wake, s => if s.cleaner = .blocked then some { s with cleaner := .woken } else none
    | .main, s => s.stepMain
    | .checkpoint wbinvd, s =>
        if s.main = .idle then some { s with main := .begun wbinvd (s.cleanerState ≠ .idle) }
        else none
    | .destroy, s =>
        if s.main = .idle then some { s with cleanerRunning := false, main := .stopping } else none

/-- The destructor waits for a cleaner that waits for a notification. -/
def State.Deadlocked (s : State) : Prop := s.cleaner = .blocked ∧ s.main = .joining

/-- No run that `admits` allows deadlocks in the destructor. -/
def ShutdownSafe (nrSegments : Nat) (state : CleanerState) (segment : Nat)
    (admits : Label → State → Prop) : Prop :=
  ∀ s, (machine nrSegments state segment).Reaches admits s → ¬ s.Deadlocked

/-- The cleaner has seen `cleaner_running` set and is on its way into a wait. -/
def State.AboutToWait (s : State) : Prop :=
  match s.cleaner with
  | .tested => s.cleanerState = .idle
  | .read .idle => True
  | .read .running => s.checkpointInProgress = true
  | .wait => True
  | _ => False

/-- The destructor does not notify while the cleaner is on its way into a wait. -/
def NotifiesInTime (label : Label) (s : State) : Prop :=
  label = .main → s.main = .stopping → ¬ s.AboutToWait

/-! ## Safety -/

def MainPc.notified : MainPc → Bool
  | .joining | .joined => true
  | _ => false

def MainPc.outside : MainPc → Bool
  | .locking _ | .committing .. | .committed _ => false
  | _ => true

def MainPc.stopped : MainPc → Bool
  | .stopping | .joining | .joined => true
  | _ => false

structure Inv (s : State) : Prop where
  outside : s.main.outside = true → s.checkpointInProgress = false
  stopped : s.main.stopped = true → s.cleanerRunning = false
  seen : s.main.notified = true → s.cleaner ≠ .blocked ∧ ¬ s.AboutToWait

variable {nrSegments : Nat} {s t : State}

theorem MainPc.stopped_of_notified {pc : MainPc} (h : pc.notified = true) : pc.stopped = true := by
  cases pc <;> first | rfl | cases h

theorem MainPc.outside_of_notified {pc : MainPc} (h : pc.notified = true) : pc.outside = true := by
  cases pc <;> first | rfl | cases h

theorem Inv.stepCleaner (h : Inv s) (hstep : s.stepCleaner nrSegments = some t) : Inv t := by
  have hkeep : ∀ u : State, u.main = s.main → u.checkpointInProgress = s.checkpointInProgress →
      u.cleanerRunning = s.cleanerRunning →
      (s.main.notified = true → u.cleaner ≠ .blocked ∧ ¬ u.AboutToWait) → Inv u :=
    fun u hm hc hr hs => ⟨hm ▸ hc ▸ h.outside, hm ▸ hr ▸ h.stopped, hm ▸ hs⟩
  cases hpc : s.cleaner with
  | spawned | woken =>
      simp only [State.stepCleaner, hpc] at hstep
      split at hstep
      · obtain rfl := Option.some.inj hstep
        exact hkeep _ rfl rfl rfl fun _ => ⟨by simp, id⟩
      · cases hstep
  | test =>
      simp only [State.stepCleaner, hpc] at hstep
      split at hstep
      · rename_i hrunning
        obtain rfl := Option.some.inj hstep
        refine hkeep _ rfl rfl rfl fun hn => ?_
        rw [h.stopped (MainPc.stopped_of_notified hn)] at hrunning
        cases hrunning
      · obtain rfl := Option.some.inj hstep
        exact hkeep _ rfl rfl rfl fun _ => ⟨by simp, id⟩
  | tested =>
      simp only [State.stepCleaner, hpc] at hstep
      obtain rfl := Option.some.inj hstep
      refine hkeep _ rfl rfl rfl fun hn => ⟨by simp, ?_⟩
      have hseen := (h.seen hn).2
      simp only [State.AboutToWait, hpc] at hseen
      have hout := h.outside (MainPc.outside_of_notified hn)
      cases hstate : s.cleanerState with
      | started => exact id
      | running => simp [State.AboutToWait, hout]
      | idle => exact absurd hstate hseen
  | read state =>
      cases state with
      | started =>
          simp only [State.stepCleaner, hpc] at hstep
          obtain rfl := Option.some.inj hstep
          exact hkeep _ rfl rfl rfl fun _ => ⟨by simp, id⟩
      | running =>
          simp only [State.stepCleaner, hpc] at hstep
          split at hstep
          · rename_i hprogress
            obtain rfl := Option.some.inj hstep
            refine hkeep _ rfl rfl rfl fun hn => ?_
            rw [h.outside (MainPc.outside_of_notified hn)] at hprogress
            cases hprogress
          · obtain rfl := Option.some.inj hstep
            exact hkeep _ rfl rfl rfl fun _ => ⟨by simp, id⟩
      | idle =>
          simp only [State.stepCleaner, hpc] at hstep
          obtain rfl := Option.some.inj hstep
          refine hkeep _ rfl rfl rfl fun hn => absurd ?_ (h.seen hn).2
          simp [State.AboutToWait, hpc]
  | writeBack =>
      simp only [State.stepCleaner, hpc] at hstep
      obtain rfl := Option.some.inj hstep
      exact hkeep _ rfl rfl rfl fun _ => ⟨by simp, id⟩
  | wait =>
      simp only [State.stepCleaner, hpc] at hstep
      obtain rfl := Option.some.inj hstep
      refine hkeep _ rfl rfl rfl fun hn => absurd ?_ (h.seen hn).2
      simp [State.AboutToWait, hpc]
  | blocked | exited =>
      simp only [State.stepCleaner, hpc] at hstep
      cases hstep

theorem State.notify_cleaner (s : State) : s.notify.cleaner ≠ .blocked ∧
    (s.notify.AboutToWait → s.AboutToWait) := by
  unfold State.notify
  split
  · exact ⟨by simp, False.elim⟩
  · rename_i hpc
    exact ⟨hpc, id⟩

theorem State.notify_same (s : State) : s.notify.checkpointInProgress = s.checkpointInProgress ∧
    s.notify.cleanerRunning = s.cleanerRunning := by
  unfold State.notify
  split <;> exact ⟨rfl, rfl⟩

theorem Inv.stepMain (h : Inv s) (hnotify : s.main = .stopping → ¬ s.AboutToWait)
    (hstep : s.stepMain = some t) : Inv t := by
  cases hpc : s.main with
  | idle | joined =>
      simp only [State.stepMain, hpc] at hstep
      cases hstep
  | begun wbinvd busy =>
      simp only [State.stepMain, hpc] at hstep
      obtain rfl := Option.some.inj hstep
      constructor <;> cases wbinvd || busy <;> intro hmain <;> cases hmain
  | locking wbinvd =>
      simp only [State.stepMain, hpc] at hstep
      split at hstep
      · obtain rfl := Option.some.inj hstep
        constructor <;> intro hmain <;> cases hmain
      · cases hstep
  | committing wbinvd locked =>
      simp only [State.stepMain, hpc] at hstep
      obtain rfl := Option.some.inj hstep
      constructor <;> intro hmain <;> cases hmain
  | committed locked =>
      simp only [State.stepMain, hpc] at hstep
      obtain rfl := Option.some.inj hstep
      refine ⟨fun _ => rfl, ?_, ?_⟩ <;> cases locked <;> intro hmain <;> cases hmain
  | unlocking =>
      simp only [State.stepMain, hpc] at hstep
      obtain rfl := Option.some.inj hstep
      have hout : s.main.outside = true := by rw [hpc]; rfl
      refine ⟨fun _ => h.outside hout, ?_, ?_⟩ <;> intro hmain <;> cases hmain
  | notifying =>
      simp only [State.stepMain, hpc] at hstep
      obtain rfl := Option.some.inj hstep
      have hout : s.main.outside = true := by rw [hpc]; rfl
      refine ⟨fun _ => s.notify_same.1.trans (h.outside hout), ?_, ?_⟩ <;> intro hmain <;> cases hmain
  | stopping =>
      simp only [State.stepMain, hpc] at hstep
      obtain rfl := Option.some.inj hstep
      have hout : s.main.outside = true := by rw [hpc]; rfl
      have hstop : s.main.stopped = true := by rw [hpc]; rfl
      exact ⟨fun _ => s.notify_same.1.trans (h.outside hout),
        fun _ => s.notify_same.2.trans (h.stopped hstop),
        fun _ => ⟨s.notify_cleaner.1, fun hw => hnotify hpc (s.notify_cleaner.2 hw)⟩⟩
  | joining =>
      simp only [State.stepMain, hpc] at hstep
      have hn : s.main.notified = true := by rw [hpc]; rfl
      split at hstep
      · obtain rfl := Option.some.inj hstep
        exact ⟨fun _ => h.outside (MainPc.outside_of_notified hn),
          fun _ => h.stopped (MainPc.stopped_of_notified hn), fun _ => h.seen hn⟩
      · cases hstep

theorem Inv.step {state : CleanerState} {segment : Nat} {label : Label} (h : Inv s)
    (hadmits : NotifiesInTime label s)
    (hstep : (machine nrSegments state segment).step label s = some t) : Inv t := by
  cases label with
  | cleaner => exact h.stepCleaner hstep
  | wake =>
      simp only [machine] at hstep
      split at hstep
      · obtain rfl := Option.some.inj hstep
        exact ⟨h.outside, h.stopped, fun _ => ⟨by simp, id⟩⟩
      · cases hstep
  | main => exact h.stepMain (hadmits rfl) hstep
  | checkpoint wbinvd =>
      simp only [machine] at hstep
      split at hstep
      · rename_i hidle
        obtain rfl := Option.some.inj hstep
        have hout : s.main.outside = true := by rw [hidle]; rfl
        refine ⟨fun _ => h.outside hout, ?_, ?_⟩ <;> intro hmain <;> cases hmain
      · cases hstep
  | destroy =>
      simp only [machine] at hstep
      split at hstep
      · rename_i hidle
        obtain rfl := Option.some.inj hstep
        have hout : s.main.outside = true := by rw [hidle]; rfl
        exact ⟨fun _ => h.outside hout, fun _ => rfl, fun hmain => by cases hmain⟩
      · cases hstep

/-- No run in which the destructor notifies in time deadlocks. -/
theorem shutdownSafe_of_notifiesInTime (nrSegments : Nat) (state : CleanerState) (segment : Nat) :
    ShutdownSafe nrSegments state segment NotifiesInTime := by
  intro s hs
  have hinv : Inv s := by
    refine hs.invariant ⟨fun _ => rfl, ?_, ?_⟩ fun s label t hs hadmits hstep =>
      hs.step hadmits hstep
    · intro hmain
      cases hmain
    · intro hmain
      cases hmain
  rintro ⟨hblocked, hjoining⟩
  have hn : s.main.notified = true := by rw [hjoining]; rfl
  exact (hinv.seen hn).1 hblocked

/-- The cleaner tests `cleaner_running`, the destructor writes it and notifies, and only then
the cleaner waits. -/
theorem not_shutdownSafe : ¬ ∀ (nrSegments : Nat) (state : CleanerState) (segment : Nat),
    ShutdownSafe nrSegments state segment fun _ _ => True := by
  intro hall
  have hrun : (machine 8 .idle 0).exec [.cleaner, .cleaner, .destroy, .main, .cleaner, .cleaner]
      (machine 8 .idle 0).init = some ⟨false, .idle, false, none, 0, .blocked, .joining⟩ := rfl
  exact hall 8 .idle 0 _ (.exec .init hrun) ⟨rfl, rfl⟩

end Libcrpm.CleanerShutdown
