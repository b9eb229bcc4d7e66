import Libcrpm.Recovery

/-!
# Runs of the segment-state interface

Batches and atomic writes of segment states in any order, with crashes inside them and
inside the recoveries that follow.  A `Ledger` says which states the calls have
committed; a recovery shows what it derives from the ledger as long as the two arrays
agree on the records it leaves alone.
-/

namespace Libcrpm.CheckpointImage

open Libcrpm.Persistence Libcrpm.Program

/-! ## Calls -/

inductive StateCall where
  | begin
  | set (s : Nat) (state : SegmentState)
  | commit
  | setAtomic (s : Nat) (state : SegmentState)

namespace StateCall

def prog : StateCall → Prog CheckpointImage Unit
  | begin => beginSegmentStateUpdate
  | set s state => setSegmentState s state
  | commit => commitSegmentStateUpdate
  | setAtomic s state => setSegmentStateAtomic s state

def InRange (n : Nat) : StateCall → Prop
  | set s _ => s < n
  | setAtomic s _ => s < n
  | _ => True

end StateCall

/-- The states that are committed, and those the next commit makes so. -/
structure Ledger where
  committed : Nat → SegmentState
  batch : Nat → SegmentState

namespace Ledger

def after (g : Ledger) : StateCall → Ledger
  | .begin => g
  | .set s state => { g with batch := Function.update g.batch s state }
  | .commit => ⟨g.batch, g.batch⟩
  | .setAtomic s state =>
      ⟨Function.update g.committed s state, Function.update g.batch s state⟩

/-- The states that are committed if the machine stops inside a call: a batch counts
from the moment its epoch is durable, an atomic write from the moment its record is. -/
def survivor (g : Ledger) (epoch : Nat) (img : NvmImage) : StateCall → Nat → SegmentState
  | .commit => if img .committedEpoch = epoch then g.committed else g.batch
  | .setAtomic s state =>
      if img (.segmentState (epoch % 2) s) = state then Function.update g.committed s state
      else g.committed
  | _ => g.committed

end Ledger

inductive Config where
  | running (i : CheckpointImage) (g : Ledger)
  | stopped (img : NvmImage) (c : Nat → SegmentState)

/-- What a recovery may be asked to recover from. -/
abbrev Admits := Nat → Nat → NvmImage → SegmentState → (Nat → SegmentState) → Prop

section Runs

variable (n nb : Nat) (toState : SegmentState) (admits : Admits)

inductive Step : Config → Config → Prop
  | call {i t g} (call : StateCall) (hrange : call.InRange n)
      (hrun : call.prog.run i = some ((), t)) :
      Step (.running i g) (.running t (g.after call))
  | crash {i t g img} (call : StateCall) (hrange : call.InRange n) (hmid : call.prog.Mid i t)
      (himg : t.mem.CrashTo img) :
      Step (.running i g) (.stopped img (g.survivor i.committedEpoch img call))
  | recover {img c t} (hadmits : admits n nb img toState c)
      (hrun : (recovery toState).run (openImage n nb img) = some ((), t)) :
      Step (.stopped img c)
        (.running t ⟨recoveredState nb img toState c, recoveredState nb img toState c⟩)
  | crashAgain {img c t img'} (hadmits : admits n nb img toState c)
      (hmid : (recovery toState).Mid (openImage n nb img) t) (himg : t.mem.CrashTo img') :
      Step (.stopped img c)
        (.stopped img' (if img' .committedEpoch = img .committedEpoch then c
          else recoveredState nb img toState c))

/-- Runs start in a pool that was just created, or on any file whose back segments
belong to segments of it. -/
inductive Reachable : Config → Prop
  | created (hnb : nb ≤ n) : Reachable (.running (create n nb) ⟨fun _ => .initial, fun _ => .initial⟩)
  | file {img} (hrange : OwnersInRange n nb img) :
      Reachable (.stopped img fun s => img (.segmentState (img .committedEpoch % 2) s))
  | step {x y} (hx : Reachable x) (hstep : Step n nb toState admits x y) : Reachable y

end Runs

/-! ## The invariant -/

/-- The bindings of a running image are durable and name existing segments. -/
structure BoundInRange (n nb : Nat) (i : CheckpointImage) : Prop where
  nrMain : i.nrMain = n
  settled : ∀ b, (i.mem (.backToMain b)).Settled
  range : ∀ b < nb, ∀ s, i.mem.load (.backToMain b) = some s → s < n

theorem BoundInRange.keeps {n nb : Nat} {i t : CheckpointImage} (h : BoundInRange n nb i)
    (hk : Keeps i t) : BoundInRange n nb t where
  nrMain := hk.nrMain.trans h.nrMain
  settled b := (hk.data _ (isData_backToMain b)).settled (h.settled b)
  range b hb s hs := h.range b hb s ((hk.load (isData_backToMain b)).symm.trans hs)

theorem BoundInRange.ownersInRange {n nb : Nat} {i : CheckpointImage} (h : BoundInRange n nb i)
    {img : NvmImage} (hc : i.mem.CrashTo img) : OwnersInRange n nb img :=
  fun b hb s hs => h.range b hb s (((h.settled b).eq (hc _)).symm.trans hs)

inductive Inv (n nb : Nat) : Config → Prop
  | running {i g} (hbound : BoundInRange n nb i)
      (harr : Arrays i i.committedEpoch g.committed g.batch) : Inv n nb (.running i g)
  | stopped {img c} (hrange : OwnersInRange n nb img)
      (hcom : Committed n img (img .committedEpoch) c) : Inv n nb (.stopped img c)

theorem inv_created {n nb : Nat} (hnb : nb ≤ n) :
    Inv n nb (.running (create n nb) ⟨fun _ => .initial, fun _ => .initial⟩) := by
  refine .running ⟨rfl, fun _ => rfl, fun b hb s hs => ?_⟩ (arrays_create n nb)
  have howner := (initialImage_backToMain.mp hs).2
  omega

/-- A crash inside a call leaves the states the ledger calls committed. -/
structure CallCrash (n : Nat) (i : CheckpointImage) (g : Ledger) (call : StateCall)
    (t : CheckpointImage) : Prop where
  keeps : Keeps i t
  survivor : ∀ img, t.mem.CrashTo img →
    Committed n img (img .committedEpoch) (g.survivor i.committedEpoch img call)

theorem callCrash_of_staging {n : Nat} {i t : CheckpointImage} {g : Ledger} {call : StateCall}
    (hn : i.nrMain = n) (hcall : ∀ img, g.survivor i.committedEpoch img call = g.committed)
    (h : Staging i i.committedEpoch g.committed t) : CallCrash n i g call t := by
  refine ⟨h.keeps, fun img hc => ?_⟩
  rw [hcall, ← hn]
  exact (h.committed hc).self

theorem callCrash_commit {n : Nat} {i t : CheckpointImage} {g : Ledger} (hn : i.nrMain = n)
    (h : Committing i i.committedEpoch g.committed g.batch t) : CallCrash n i g .commit t := by
  refine ⟨h.keeps, fun img hc => ?_⟩
  subst hn
  rcases h.crash img hc with hold | hnew
  · rw [Ledger.survivor, if_pos hold.1]
    exact hold.self
  · rw [Ledger.survivor, if_neg (hnew.committed.1 ▸ nextEpoch_ne _)]
    exact hnew.committed.self

theorem callCrash_setAtomic {n : Nat} {i t : CheckpointImage} {g : Ledger} {s : Nat}
    {state : SegmentState} (hn : i.nrMain = n) (hs : s < n)
    (h : AtomicWrite i i.committedEpoch g.committed s state t) :
    CallCrash n i g (.setAtomic s state) t := by
  refine ⟨h.keeps, fun img hc => ?_⟩
  subst hn
  rw [Ledger.survivor]
  rcases h.crash img hc with hold | hnew
  · split
    · rename_i hrecord
      have hsame : Function.update g.committed s state = g.committed := by
        rw [← hrecord, hold.2 s hs, Function.update_eq_self]
      rw [hsame]
      exact hold.self
    · exact hold.self
  · have hrecord := hnew.2 s hs
    rw [Function.update_self] at hrecord
    rw [if_pos hrecord]
    exact hnew.self

theorem wp_call {n nb : Nat} {i : CheckpointImage} {g : Ledger} (hbound : BoundInRange n nb i)
    (harr : Arrays i i.committedEpoch g.committed g.batch) {call : StateCall}
    (hrange : call.InRange n) :
    Prog.wp (CallCrash n i g call) call.prog (fun _ t => Keeps i t ∧
      Arrays t t.committedEpoch (g.after call).committed (g.after call).batch) i := by
  have hn := hbound.nrMain
  cases call with
  | begin =>
      have hflag := arrays_update harr true
      have hkeep : Keeps i { i with segmentStateUpdate := true } :=
        keeps_of_eq rfl rfl rfl fun _ _ => rfl
      exact Prog.wp_act.mpr
        ⟨callCrash_of_staging hn (fun _ => rfl) ⟨hflag.toCurrent, hkeep⟩, hkeep, hflag⟩
  | set s state =>
      have hcrash : ∀ t, Staging i i.committedEpoch g.committed t →
          CallCrash n i g (.set s state) t :=
        fun t => callCrash_of_staging hn fun _ => rfl
      cases hu : i.segmentStateUpdate with
      | true =>
          refine Prog.wp_mono (Prog.wp_weaken hcrash
            (wp_setSegmentState (.refl i) harr hu (hn ▸ hrange) state)) ?_
          rintro _ t ⟨hk, ht, -⟩
          exact ⟨hk, ht.self⟩
      | false =>
          simp only [StateCall.prog, setSegmentState, Prog.wp_bind, Prog.wp_read, hu,
            Bool.false_eq_true, if_false, Prog.wp_exit, and_true]
          exact hcrash i ⟨harr.toCurrent, .refl i⟩
  | commit =>
      refine Prog.wp_mono (Prog.wp_weaken (fun t => callCrash_commit hn)
        (wp_commitSegmentStateUpdate harr.toStaged)) ?_
      exact fun _ t ht => ⟨ht.keeps, (ht.arrays harr).self⟩
  | setAtomic s state =>
      refine Prog.wp_mono (Prog.wp_weaken (fun t => callCrash_setAtomic hn hrange)
        (wp_setSegmentStateAtomic harr s state)) ?_
      rintro _ t ⟨hk, ht, -⟩
      exact ⟨hk, ht.self⟩

theorem callCrash_start {n nb : Nat} {i : CheckpointImage} {g : Ledger}
    (hbound : BoundInRange n nb i)
    (harr : Arrays i i.committedEpoch g.committed g.batch) {call : StateCall}
    (hrange : call.InRange n) : CallCrash n i g call i := by
  have hstart : Staging i i.committedEpoch g.committed i := ⟨harr.toCurrent, .refl i⟩
  cases call with
  | commit => exact callCrash_commit hbound.nrMain hstart.committing
  | setAtomic s state =>
      exact callCrash_setAtomic hbound.nrMain hrange
        ⟨.refl i, fun img hc => Or.inl (hstart.committed hc)⟩
  | _ => exact callCrash_of_staging hbound.nrMain (fun _ => rfl) hstart

theorem recoveryCrash_open {n nb : Nat} {img : NvmImage} (toState : SegmentState) {e : Nat}
    {c : Nat → SegmentState} (h : Committed n img e c) :
    RecoveryCrash n nb img toState e c (openImage n nb img) := by
  intro img' hc
  have hsame : img' = img := funext fun l => (Memory.settled_ofImage img l).eq (hc l)
  subst hsame
  exact ⟨Or.inl h, fun _ => rfl⟩

theorem inv_recover {n nb : Nat} {toState : SegmentState} {img : NvmImage}
    {c : Nat → SegmentState} {t : CheckpointImage} (hbound : OwnersInRange n nb img)
    (h : Recovered n nb img toState (img .committedEpoch) c t)
    (hsync : InSync n nb img toState c) :
    Inv n nb (.running t ⟨recoveredState nb img toState c, recoveredState nb img toState c⟩) := by
  refine .running ⟨h.nrMain, h.boundSettled, fun b hb s hs => ?_⟩ ?_
  · rw [h.bound b] at hs
    exact hbound b hb s hs
  · have harr := h.arrays hsync
    rwa [committedEpoch, harr.epoch]

theorem inv_crashAgain {n nb : Nat} {toState : SegmentState} {img img' : NvmImage}
    {c : Nat → SegmentState} {t : CheckpointImage} (hbound : OwnersInRange n nb img)
    (h : RecoveryCrash n nb img toState (img .committedEpoch) c t)
    (hsync : InSync n nb img toState c) (hc : t.mem.CrashTo img') :
    Inv n nb (.stopped img' (if img' .committedEpoch = img .committedEpoch then c
      else recoveredState nb img toState c)) := by
  obtain ⟨hcrash, hown⟩ := h img' hc
  refine .stopped (fun b hb s hs => hbound b hb s ((hown b).symm.trans hs)) ?_
  rcases hcrash with hold | hnew
  · rw [if_pos hold.1, hold.1]
    exact hold
  · rw [if_neg (hnew.1 ▸ nextEpoch_ne _), hnew.1]
    exact ⟨hnew.1, fun s hs => (hnew.2 s hs).trans (hsync.committedStates_eq hs)⟩

theorem inv_step {n nb : Nat} {toState : SegmentState} {x y : Config} (hx : Inv n nb x)
    (h : Step n nb toState InSync x y) : Inv n nb y := by
  cases h with
  | call call hrange hrun =>
      obtain ⟨hbound, harr⟩ := hx
      have hpost := Prog.run_of_wp (wp_call hbound harr hrange) hrun
      exact .running (hbound.keeps hpost.1) hpost.2
  | crash call hrange hmid himg =>
      obtain ⟨hbound, harr⟩ := hx
      have hcrash := Prog.mid_of_wp (wp_call hbound harr hrange)
        (callCrash_start hbound harr hrange) hmid
      exact .stopped ((hbound.keeps hcrash.keeps).ownersInRange himg) (hcrash.survivor _ himg)
  | recover hsync hrun =>
      obtain _ | ⟨hbound, hcom⟩ := hx
      have hpost := Prog.run_of_wp (wp_recovery toState hbound hcom) hrun
      exact inv_recover hbound hpost hsync
  | crashAgain hsync hmid himg =>
      obtain _ | ⟨hbound, hcom⟩ := hx
      have hcrash := Prog.mid_of_wp (wp_recovery toState hbound hcom)
        (recoveryCrash_open toState hcom) hmid
      exact inv_crashAgain hbound hcrash hsync himg

theorem inv_reachable {n nb : Nat} {toState : SegmentState} {x : Config}
    (h : Reachable n nb toState InSync x) : Inv n nb x := by
  induction h with
  | created hnb => exact inv_created hnb
  | file hrange => exact .stopped hrange ⟨rfl, fun _ _ => rfl⟩
  | step _ hstep ih => exact inv_step ih hstep

/-! ## What a recovery shows -/

/-- Every recovery of a run returns, and shows what it derives from the states that
were committed: the unbound and the initial segments keep theirs. -/
def RecoveryDerives (n nb : Nat) (toState : SegmentState) (admits : Admits) : Prop :=
  toState ≠ .initial → ∀ (img : NvmImage) (c : Nat → SegmentState),
    Reachable n nb toState admits (.stopped img c) → admits n nb img toState c →
      ∃ t, (recovery toState).run (openImage n nb img) = some ((), t) ∧
        ∀ s < n, t.getSegmentState s = recoveredState nb img toState c s ∧
          (t.getSegmentState s = .initial ↔ c s = .initial)

theorem recoveredState_eq_initial {nb : Nat} {img : NvmImage} {toState : SegmentState}
    (hto : toState ≠ .initial) (c : Nat → SegmentState) (s : Nat) :
    recoveredState nb img toState c s = .initial ↔ c s = .initial := by
  unfold recoveredState
  split
  · rename_i howned
    exact ⟨fun h => absurd h hto, fun h => absurd h howned.2⟩
  · exact Iff.rfl

theorem recoveryDerives_of_inSync (n nb : Nat) (toState : SegmentState) :
    RecoveryDerives n nb toState InSync := by
  intro hto img c hreach hsync
  obtain _ | ⟨hrange, hcom⟩ := inv_reachable hreach
  obtain ⟨t, hrun, hrec⟩ := recovery_recovered toState hrange hcom
  refine ⟨t, hrun, fun s hs => ?_⟩
  have hstate : t.getSegmentState s = recoveredState nb img toState c s :=
    (hrec.arrays hsync).getSegmentState (hrec.nrMain ▸ hs)
  rw [hstate]
  exact ⟨rfl, recoveredState_eq_initial hto c s⟩

/-- A plain store of an open batch that was written back before the crash. -/
def evictedImage : NvmImage :=
  Function.update (initialImage 0) (.segmentState 1 0) .main

/-- Without the condition a recovery takes over a state that was never committed. -/
theorem not_recoveryDerives :
    ¬ ∀ n nb toState, RecoveryDerives n nb toState fun _ _ _ _ _ => True := by
  intro h
  let opened : CheckpointImage := { create 1 0 with segmentStateUpdate := true }
  have hbegin : Reachable 1 0 .back (fun _ _ _ _ _ => True)
      (.running opened ⟨fun _ => .initial, fun _ => .initial⟩) :=
    .step (.created (by decide)) (.call .begin trivial rfl)
  have hmid : (setSegmentState 0 .main).Mid opened (writeRecord 1 0 .main opened) :=
    Or.inr ⟨rfl, Or.inr ⟨rfl, Or.inr ⟨rfl, Or.inr ⟨rfl, rfl⟩⟩⟩⟩
  have hevicted : (writeRecord 1 0 .main opened).mem.CrashTo evictedImage :=
    (Memory.crashTo_ofImage (initialImage 0)).store (.segmentState 1 0) .main
  have hcrash : Reachable 1 0 .back (fun _ _ _ _ _ => True)
      (.stopped evictedImage fun _ => .initial) :=
    .step hbegin (.crash (.set 0 .main) Nat.zero_lt_one hmid hevicted)
  obtain ⟨t, hrun, hstate⟩ := h 1 0 .back (by decide) evictedImage _ hcrash trivial
  have hshown : ((recovery .back).run (openImage 1 0 evictedImage)).map
      (fun r => r.2.getSegmentState 0) = some .main := by
    rfl
  rw [hrun] at hshown
  have hinitial := (hstate 0 (by decide)).2.mpr rfl
  rw [Option.map_some, hinitial] at hshown
  exact absurd hshown (by decide)

end Libcrpm.CheckpointImage
