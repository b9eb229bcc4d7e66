import Libcrpm.UndoLogThreadsCheckpoint

/-!
# Runs of the undo log engine

Epochs, checkpoints, crashes and recoveries in any order.  The pool always restores the data of the
last checkpoint that emptied the log on the medium.
-/

namespace Libcrpm.UndoLogEngine

open Libcrpm.Persistence Libcrpm.Program
open Threads (EpochInv Idle)

/-- Threads that have opened the pool, or what the machine left on the medium when it stopped. -/
inductive Moment where
  | running (s : Threads)
  | stopped (img : Image Loc fun _ => Nat)

def mounted (optionCapacity : Nat) (img : Image Loc fun _ => Nat) : UndoLogEngine :=
  construct (nrBlocksFor optionCapacity) (nrBlocksFor optionCapacity <<< kBlockShift)
    (Memory.ofImage img)

/-- A run of a pool of `optionCapacity` bytes whose checkpoints are called by `nrThreads` threads,
with the data of its last checkpoint.  A new epoch begins when all calls have returned.  A checkpoint
that a crash interrupts counts if the crash shows its empty log. -/
inductive Run (optionCapacity nrThreads : Nat) : Moment → (Nat → Nat) → Prop
  | created : Run optionCapacity nrThreads (.running (.opened (openNew optionCapacity))) fun _ => 0
  | epoch {s t : Threads} {X : Nat → Nat} (hrun : Run optionCapacity nrThreads (.running s) X)
      (hepoch : (Threads.epoch s).Reaches Threads.Admitted t) :
      Run optionCapacity nrThreads (.running t) X
  | checkpoint {s t : Threads} {X : Nat → Nat} (hrun : Run optionCapacity nrThreads (.running s) X)
      (hidle : Idle s) (hpos : 0 < nrThreads)
      (flushSchedule endSchedule : List Nat)
      (hret : (Threads.checkpoint nrThreads flushSchedule endSchedule).run s = some ((), t)) :
      Run optionCapacity nrThreads (.running t.nextEpoch) s.content
  | crash {s : Threads} {X : Nat → Nat} {img : Image Loc fun _ => Nat}
      (hrun : Run optionCapacity nrThreads (.running s) X) (hcrash : s.mem.CrashTo img) :
      Run optionCapacity nrThreads (.stopped img) X
  | checkpointCrash {s t : Threads} {X : Nat → Nat} {img : Image Loc fun _ => Nat}
      (hrun : Run optionCapacity nrThreads (.running s) X) (hidle : Idle s)
      (hpos : 0 < nrThreads) (flushSchedule endSchedule : List Nat)
      (hmid : (Threads.checkpoint nrThreads flushSchedule endSchedule).Mid s t)
      (hcrash : t.mem.CrashTo img) :
      Run optionCapacity nrThreads (.stopped img) (if img .logHead = 0 then s.content else X)
  | recoverCrash {X : Nat → Nat} {img img' : Image Loc fun _ => Nat} {u : UndoLogEngine}
      (hrun : Run optionCapacity nrThreads (.stopped img) X)
      (hmid : recover.Mid (mounted optionCapacity img) u) (hcrash : u.mem.CrashTo img') :
      Run optionCapacity nrThreads (.stopped img') X
  | reopen {X : Nat → Nat} {img : Image Loc fun _ => Nat} {u : UndoLogEngine}
      (hrun : Run optionCapacity nrThreads (.stopped img) X)
      (hret : openExisting.run (mounted optionCapacity img) = some ((), u)) :
      Run optionCapacity nrThreads (.running (.opened u)) X

variable {X : Nat → Nat} {optionCapacity nrThreads : Nat} {img : Image Loc fun _ => Nat} {u : UndoLogEngine}

theorem openExisting_spec (optionCapacity : Nat) (himage : LogImage X img) :
    ∃ (m : File) (snapshot : Bool),
      openExisting.run (mounted optionCapacity img) =
        some ((), { mounted optionCapacity img with mem := m, hasSnapshot := snapshot }) ∧
      ∀ l, (m l).Only (recovered X img l) := by
  obtain ⟨hwp, v, hv⟩ := recover_spec himage (t := mounted optionCapacity img) rfl
  have hret : openExisting.run (mounted optionCapacity img) =
      some ((), { v with hasSnapshot := existSnapshot v }) := by
    simp only [openExisting, Prog.run_bind, hv, Option.bind_some, Prog.run_read, Prog.run_act]
  obtain ⟨m, snapshot, hshape, -⟩ := Prog.run_of_wp (wp_openExisting _) hret
  refine ⟨m, snapshot, hret.trans (congrArg (fun u => some ((), u)) hshape), ?_⟩
  have hmem : v.mem = m := congrArg mem hshape
  rw [← hmem]
  exact Prog.run_of_wp hwp hv

def MomentInv (X : Nat → Nat) : Moment → Prop
  | .running s => EpochInv X s
  | .stopped img => LogImage X img

theorem fresh_reopened {m : File} (snapshot : Bool) (h : ∀ l, (m l).Only (recovered X img l)) :
    Threads.Fresh X (.opened { mounted optionCapacity img with mem := m, hasSnapshot := snapshot }) := by
  have hcontent : X = fun o => m.load (.data o) := funext fun o => (h (.data o)).cur_eq.symm
  rw [hcontent]
  exact Threads.fresh_opened _ _ snapshot (h .logHead).cur_eq

theorem Run.momentInv {moment : Moment} (h : Run optionCapacity nrThreads moment X) :
    MomentInv X moment := by
  induction h with
  | created =>
      have hload : Memory.load (Memory.ofImage fun _ => 0 : File) .logHead = 0 := rfl
      exact (Threads.fresh_opened _ _ false hload).epochInv
  | epoch _ hepoch ih => exact Threads.EpochInv.reaches ih hepoch
  | checkpoint _ hidle hpos flushSchedule endSchedule hret ih =>
      exact (Prog.run_of_wp (ih.wp_checkpoint hidle hpos flushSchedule endSchedule) hret).epochInv
  | crash _ hcrash ih =>
      obtain ⟨slots, hinv⟩ := ih.inv
      exact hinv.logImage hcrash
  | checkpointCrash _ hidle hpos flushSchedule endSchedule hmid hcrash ih =>
      obtain ⟨slots, hinv⟩ := ih.inv
      have hstart := hinv.restores fun _ => rfl
      exact Prog.mid_of_wp (ih.wp_checkpoint hidle hpos flushSchedule endSchedule) hstart hmid _
        hcrash
  | recoverCrash _ hmid hcrash ih =>
      exact Prog.mid_of_wp (recover_spec ih rfl).1 (fun _ hc => ih.remounted hc) hmid _ hcrash
  | reopen _ hret ih =>
      obtain ⟨m, snapshot, hopen, honly⟩ := openExisting_spec optionCapacity ih
      obtain rfl := congrArg Prod.snd (Option.some.inj (hopen.symm.trans hret))
      exact (fresh_reopened snapshot honly).epochInv

/-- Whatever the threads were doing when the machine stopped, the pool opens with the data of its
last checkpoint. -/
theorem run_restored (h : Run optionCapacity nrThreads (.stopped img) X) :
    ∃ u, openExisting.run (mounted optionCapacity img) = some ((), u) ∧
      ∀ o, (u.mem (.data o)).Only (X o) := by
  obtain ⟨m, snapshot, hopen, honly⟩ := openExisting_spec optionCapacity h.momentInv
  exact ⟨_, hopen, fun o => honly (.data o)⟩

/-! ## Two threads, a checkpoint and a crash -/

/-- The leader has emptied the log before thread 1 clears anything. -/
def leaderFirst : Prog Threads Unit :=
  Threads.checkpoint 2 (List.replicate 150 0 ++ List.replicate 150 1)
    (List.replicate 300 0 ++ List.replicate 300 1)

theorem twoStores_tid {value : Nat} : ∀ l ∈ twoStores value, l.tid < 2 := by
  intro l hl
  simp only [twoStores, List.mem_append, List.mem_flatten, List.mem_replicate] at hl
  rcases hl with (hl | ⟨_, ⟨-, rfl⟩, hl⟩) | hl <;>
    simp only [List.mem_cons, List.not_mem_nil, or_false] at hl <;>
    rcases hl with rfl | rfl <;> simp [Threads.Label.tid]

theorem reaches_afterStores {value : Nat} {s s' : Threads} (h : afterStores value s = some s') :
    (Threads.epoch s).Reaches Threads.Admitted s' := by
  refine Machine.Reaches.init.exec_of_admits (fun l hl _ => ?_) h
  have hmax : 2 < kMaxThreads := by decide
  exact Nat.lt_trans (twoStores_tid l hl) hmax

theorem afterStores_pc {value t : Nat} {s s' : Threads} (h : afterStores value s = some s')
    (ht : 2 ≤ t) : s'.pc t = s.pc t :=
  Threads.exec_pc_of_ne h fun l hl =>
    (Nat.ne_of_lt (Nat.lt_of_lt_of_le (twoStores_tid l hl) ht)).symm

theorem leaderFirst_values :
    ((afterStores 5 (.opened (openNew 0))).bind fun s => (leaderFirst.run s).bind fun r =>
      (afterStores 7 r.2.nextEpoch).map fun t =>
        ((s.content 0, s.content 32, s.pc 0, s.pc 1), t.content 0, t.content 32, t.head)) =
      some ((5, 6, .app, .app), 7, 8, 640) := by
  decide +kernel

/-- The values 7 and 8 are on the medium, and so is the log. -/
theorem run_restored_leaderFirst :
    ∃ t : Threads, (t.content 0, t.content 32, t.head) = (7, 8, 640) ∧
      ∃ u, openExisting.run (mounted 0 t.mem.load) = some ((), u) ∧
        (u.mem (.data 0)).Only 5 ∧ (u.mem (.data 32)).Only 6 := by
  obtain ⟨s, hs, hrest⟩ := Option.bind_eq_some_iff.mp leaderFirst_values
  obtain ⟨⟨⟨⟩, r⟩, hr, hrest⟩ := Option.bind_eq_some_iff.mp hrest
  obtain ⟨t, ht, hvalues⟩ := Option.map_eq_some_iff.mp hrest
  obtain ⟨hfirst, hsecond⟩ := Prod.mk.inj hvalues
  simp only [Prod.mk.injEq] at hfirst
  obtain ⟨h₀, h₁, hpc₀, hpc₁⟩ := hfirst
  have hidle : Idle s := by
    intro i
    match i with
    | 0 => exact hpc₀
    | 1 => exact hpc₁
    | i + 2 => exact afterStores_pc hs (Nat.le_add_left 2 i)
  have hstored : Run 0 2 (.running s) fun _ => 0 := Run.created.epoch (reaches_afterStores hs)
  have hrun := ((hstored.checkpoint hidle Nat.zero_lt_two _ _ hr).epoch
    (reaches_afterStores ht)).crash (SharedMemory.crashTo_load _)
  obtain ⟨u, hu, hdata⟩ := run_restored hrun
  exact ⟨t, hsecond, u, hu, h₀ ▸ hdata 0, h₁ ▸ hdata 32⟩

end Libcrpm.UndoLogEngine
