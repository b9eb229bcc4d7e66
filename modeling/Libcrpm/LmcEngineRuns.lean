import Libcrpm.LmcEngineCheckpoint

/-!
# Runs of the LMC engine

Epochs, checkpoints, crashes and recoveries in any order.  A pool always opens with the data of the
last checkpoint that has taken effect, and knows whether there is one.
-/

namespace Libcrpm.LmcEngine

open Libcrpm.Persistence Libcrpm.Program

/-- Threads that have opened the pool, or what the machine left on the medium when it stopped. -/
inductive Moment where
  | running (s : LmcEngine)
  | stopped (img : Loc → Nat)

/-- A run of a pool of `optionCapacity` bytes whose checkpoints are called by `nrThreads` threads,
with the data of its last checkpoint, and whether there has been one.  A new epoch begins when all
calls have returned.  Of a checkpoint that a crash interrupts the blocks without the tag of the epoch
count. -/
inductive Run (optionCapacity nrThreads : Nat) : Moment → (Nat → Nat) → Bool → Prop
  | created : Run optionCapacity nrThreads (.running (openNew optionCapacity)) (fun _ => 0) false
  | epoch {s t : LmcEngine} {X : Nat → Nat} {committed : Bool}
      (hrun : Run optionCapacity nrThreads (.running s) X committed)
      (hepoch : (threads s).Reaches Admitted t) :
      Run optionCapacity nrThreads (.running t) X committed
  | checkpoint {s t : LmcEngine} {X : Nat → Nat} {committed : Bool}
      (hrun : Run optionCapacity nrThreads (.running s) X committed) (hidle : Idle s)
      (hpos : 0 < nrThreads) (schedule : List Nat)
      (hret : (LmcEngine.checkpoint nrThreads schedule).run s = some ((), t)) :
      Run optionCapacity nrThreads (.running t.nextEpoch) s.content
        (committed || FlushLists.determineFlushMode s.flushBlocks ≠ .noAction)
  | crash {s : LmcEngine} {X : Nat → Nat} {committed : Bool} {img : Loc → Nat}
      (hrun : Run optionCapacity nrThreads (.running s) X committed) (hcrash : s.mem.CrashTo img) :
      Run optionCapacity nrThreads (.stopped img) X committed
  | checkpointCrash {s t : LmcEngine} {X : Nat → Nat} {committed : Bool} {img : Loc → Nat}
      (hrun : Run optionCapacity nrThreads (.running s) X committed) (hidle : Idle s)
      (hpos : 0 < nrThreads) (schedule : List Nat)
      (hmid : (LmcEngine.checkpoint nrThreads schedule).Mid s t) (hcrash : t.mem.CrashTo img) :
      Run optionCapacity nrThreads (.stopped img) (outcome X s.content img)
        (Commits committed s.epoch img)
  | recoverCrash {X : Nat → Nat} {committed : Bool} {img img' : Loc → Nat} {u : LmcEngine}
      (hrun : Run optionCapacity nrThreads (.stopped img) X committed)
      (hmid : recover.Mid (mounted optionCapacity img) u) (hcrash : u.mem.CrashTo img') :
      Run optionCapacity nrThreads (.stopped img') X committed
  | reopen {X : Nat → Nat} {committed : Bool} {img : Loc → Nat} {u : LmcEngine}
      (hrun : Run optionCapacity nrThreads (.stopped img) X committed)
      (hret : openExisting.run (mounted optionCapacity img) = some ((), u)) :
      Run optionCapacity nrThreads (.running u) X committed

variable {X : Nat → Nat} {committed : Bool} {optionCapacity nrThreads : Nat} {img : Loc → Nat}
  {s t u : LmcEngine}

/-! ## What a step leaves alone -/

theorem step_frame {l : Label} (h : step l s = some t) :
    t.nrBlocks = s.nrBlocks ∧ ∀ i, i ≠ l.tid → t.pc i = s.pc i := by
  cases l with
  | hook tid =>
      change s.hookStep tid = some t at h
      unfold hookStep at h
      cases hpc : s.pc tid with
      | app =>
          rw [hpc] at h
          cases h
      | acquire b =>
          rw [hpc] at h
          dsimp only at h
          split at h
          · cases h
          · obtain rfl := Option.some.inj h
            exact ⟨rfl, fun _ hi => Function.update_of_ne hi _ _⟩
      | copy b copied =>
          rw [hpc] at h
          obtain rfl := Option.some.inj h
          split <;> exact ⟨rfl, fun _ hi => Function.update_of_ne hi _ _⟩
      | _ =>
          rw [hpc] at h
          obtain rfl := Option.some.inj h
          exact ⟨rfl, fun _ hi => Function.update_of_ne hi _ _⟩
  | call tid addr =>
      rw [step] at h
      split at h
      · obtain rfl := Option.some.inj h
        exact ⟨rfl, fun _ hi => Function.update_of_ne hi _ _⟩
      · cases h
  | store tid o value =>
      rw [step] at h
      split at h
      · obtain rfl := Option.some.inj h
        exact ⟨rfl, fun _ _ => rfl⟩
      · cases h

theorem exec_pc_of_ne {s₀ : LmcEngine} {labels : List Label} {i : Nat}
    (h : (threads s₀).exec labels s = some u) (hi : ∀ l ∈ labels, i ≠ l.tid) : u.pc i = s.pc i := by
  induction labels generalizing s with
  | nil =>
      obtain rfl := Option.some.inj h
      rfl
  | cons l rest ih =>
      obtain ⟨v, hv, hrest⟩ := Option.bind_eq_some_iff.mp h
      have hpc := ih hrest fun l' hl' => hi l' (List.mem_cons_of_mem _ hl')
      exact hpc.trans ((step_frame hv).2 i (hi l List.mem_cons_self))

def MomentInv (nrBlocks : Nat) (X : Nat → Nat) (committed : Bool) : Moment → Prop
  | .running s => s.nrBlocks = nrBlocks ∧ ∃ e, Inv X e committed s
  | .stopped img => Restores X (FlagIf committed) nrBlocks img

theorem fresh_openNew (optionCapacity : Nat) :
    Fresh (fun _ => 0) 1 false (openNew optionCapacity) where
  pos := Nat.zero_lt_one
  le := by decide
  epoch := SharedCell.durably_settled rfl
  flag hno := hno.elim (fun h => absurd h (by decide)) fun h => absurd h Bool.false_ne_true
  clean _ _ := SharedCell.durably_settled Nat.zero_lt_one
  kept _ _ _ _ := SharedCell.durably_settled rfl
  idle _ := rfl
  unhooked _ := rfl

theorem Restores.remounted {P : Nat → Prop} {n : Nat} {img' : Loc → Nat}
    (h : Restores X P n img) (hcrash : SharedMemory.CrashTo (.ofImage img) img') :
    Restores X P n img' :=
  (recovering_mounted h).restores h hcrash

theorem Run.momentInv {moment : Moment} (h : Run optionCapacity nrThreads moment X committed) :
    MomentInv (nrBlocksFor optionCapacity) X committed moment := by
  induction h with
  | created => exact ⟨rfl, 1, (fresh_openNew _).inv⟩
  | epoch _ hepoch ih =>
      obtain ⟨hsize, e, hinv⟩ := ih
      refine ⟨?_, e, hinv.reaches hepoch⟩
      refine hepoch.invariant (I := fun s => s.nrBlocks = nrBlocksFor optionCapacity) hsize ?_
      exact fun s l t hs _ hstep => (step_frame hstep).1.trans hs
  | checkpoint _ hidle hpos schedule hret ih =>
      obtain ⟨hsize, e, hinv⟩ := ih
      obtain ⟨hsame, v, hfresh⟩ := Prog.run_of_wp (hinv.wp_checkpoint hidle hpos schedule) hret
      exact ⟨hsame.trans hsize, v, hfresh.inv⟩
  | crash _ hcrash ih =>
      obtain ⟨hsize, e, hinv⟩ := ih
      have hrestores := hinv.restores hcrash
      rwa [hsize] at hrestores
  | checkpointCrash _ hidle hpos schedule hmid hcrash ih =>
      obtain ⟨hsize, e, hinv⟩ := ih
      have hends := Prog.mid_of_wp (hinv.wp_checkpoint hidle hpos schedule)
        (fun img hc => hinv.ends hc) hmid _ hcrash
      have hepoch : LmcEngine.epoch _ = e := hinv.epoch.load
      have hrestores := hends.restores
      rwa [hsize, ← hepoch] at hrestores
  | recoverCrash _ hmid hcrash ih =>
      exact Prog.mid_of_wp (wp_recover (s := mounted optionCapacity _) ih rfl)
        (fun _ hc => ih.remounted hc) hmid _ hcrash
  | reopen _ hret ih =>
      obtain ⟨u, v, hopen, hsize, hfresh, -⟩ := openExisting_spec ih
      obtain rfl := congrArg Prod.snd (Option.some.inj (hopen.symm.trans hret))
      exact ⟨hsize, v, hfresh.inv⟩

/-- Whatever the threads were doing when the machine stopped, the pool opens with the data of its
last checkpoint, and `exist_snapshot` holds if there has been one. -/
theorem run_recovers (h : Run optionCapacity nrThreads (.stopped img) X committed) :
    ∃ u, openExisting.run (mounted optionCapacity img) = some ((), u) ∧
      (∀ o, o / kWordsPerBlock < nrBlocksFor optionCapacity →
        (u.mem (.working o)).Durably (· = X o)) ∧
      (committed = true → u.hasSnapshot = true) := by
  obtain ⟨u, v, hopen, hsize, hfresh, hsnapshot⟩ := openExisting_spec h.momentInv
  exact ⟨u, hopen, fun o ho => hfresh.kept _ (hsize ▸ ho) o rfl, hsnapshot⟩

/-- Threads 0 and 1 save blocks 0 and 1 side by side and store to their first words. -/
def twoStores (value : Nat) : List Label :=
  [.call 0 0, .call 1 256] ++ (List.replicate 41 [.hook 0, .hook 1]).flatten ++
    [.store 0 0 value, .store 1 32 (value + 1)]

def afterStores (value : Nat) (s : LmcEngine) : Option LmcEngine :=
  (threads s).exec (twoStores value) s

def twoThreads : Prog LmcEngine Unit :=
  checkpoint 2 (List.replicate 150 0 ++ List.replicate 150 1)

theorem twoStores_tid {value : Nat} : ∀ l ∈ twoStores value, l.tid < 2 := by
  intro l hl
  simp only [twoStores, List.mem_append, List.mem_flatten, List.mem_replicate] at hl
  rcases hl with (hl | ⟨_, ⟨-, rfl⟩, hl⟩) | hl <;>
    simp only [List.mem_cons, List.not_mem_nil, or_false] at hl <;>
    rcases hl with rfl | rfl <;> simp [Label.tid]

theorem reaches_afterStores {value : Nat} (h : afterStores value s = some t) :
    (threads s).Reaches Admitted t := by
  refine Machine.Reaches.init.exec_of_admits (fun l hl _ => ?_) h
  have hmax : 2 < kMaxThreads := by decide
  exact Nat.lt_trans (twoStores_tid l hl) hmax

theorem afterStores_idle {value : Nat} (h : afterStores value s = some t) (hidle : Idle s)
    (h₀ : t.pc 0 = .app) (h₁ : t.pc 1 = .app) : Idle t := by
  intro i
  match i with
  | 0 => exact h₀
  | 1 => exact h₁
  | i + 2 =>
      refine (exec_pc_of_ne h fun l hl => ?_).trans (hidle _)
      exact (Nat.ne_of_lt (Nat.lt_of_lt_of_le (twoStores_tid l hl) (Nat.le_add_left 2 i))).symm

theorem twoThreads_values :
    ((afterStores 5 (openNew 0)).bind fun s => (twoThreads.run s).bind fun r =>
      (afterStores 7 r.2.nextEpoch).map fun t =>
        ((s.content 0, s.content 32, s.pc 0, s.pc 1, FlushLists.determineFlushMode s.flushBlocks),
          t.content 0, t.content 32, t.epoch)) =
      some ((5, 6, .app, .app, .useFlushBlocks), 7, 8, 2) := by
  decide +kernel

/-- The values 7 and 8 are on the medium, and so are the tags. -/
theorem run_recovers_twoThreads :
    ∃ t : LmcEngine, (t.content 0, t.content 32, t.epoch) = (7, 8, 2) ∧
      ∃ u, openExisting.run (mounted 0 t.mem.load) = some ((), u) ∧
        (u.mem (.working 0)).Durably (· = 5) ∧ (u.mem (.working 32)).Durably (· = 6) ∧
        u.hasSnapshot = true := by
  obtain ⟨s, hs, hrest⟩ := Option.bind_eq_some_iff.mp twoThreads_values
  obtain ⟨⟨⟨⟩, r⟩, hr, hrest⟩ := Option.bind_eq_some_iff.mp hrest
  obtain ⟨t, ht, hvalues⟩ := Option.map_eq_some_iff.mp hrest
  obtain ⟨hfirst, hsecond⟩ := Prod.mk.inj hvalues
  simp only [Prod.mk.injEq] at hfirst
  obtain ⟨h₀, h₁, hpc₀, hpc₁, hmode⟩ := hfirst
  have hidle : Idle s := afterStores_idle hs (fun _ => rfl) hpc₀ hpc₁
  have hstored : Run 0 2 (.running s) (fun _ => 0) false :=
    Run.created.epoch (reaches_afterStores hs)
  have hrun := ((hstored.checkpoint hidle Nat.zero_lt_two _ hr).epoch
    (reaches_afterStores ht)).crash (SharedMemory.crashTo_load _)
  obtain ⟨u, hu, hdata, hsnapshot⟩ := run_recovers hrun
  refine ⟨t, hsecond, u, hu, h₀ ▸ hdata 0 (by decide), h₁ ▸ hdata 32 (by decide), hsnapshot ?_⟩
  rw [hmode]
  decide

/-- A checkpoint that a crash interrupts takes effect as a whole or not at all, unless the tags have
to be reset for the epoch behind it. -/
theorem checkpoint_whole (hrun : Run optionCapacity nrThreads (.running s) X committed)
    (hidle : Idle s) (hpos : 0 < nrThreads) (schedule : List Nat)
    (hmid : (checkpoint nrThreads schedule).Mid s t) (hcrash : t.mem.CrashTo img)
    (hepoch : s.epoch ≠ kMaxEpoch) :
    ∃ u, openExisting.run (mounted optionCapacity img) = some ((), u) ∧
      ∀ o, o / kWordsPerBlock < nrBlocksFor optionCapacity → (u.mem (.working o)).Durably
        (· = if img .currentEpoch = s.epoch then X o else s.content o) := by
  obtain ⟨u, v, hopen, hsize, hfresh, -⟩ :=
    openExisting_spec (hrun.checkpointCrash hidle hpos schedule hmid hcrash).momentInv
  refine ⟨u, hopen, fun o ho => ?_⟩
  obtain ⟨hsize', e, hinv⟩ := hrun.momentInv
  have hload : s.epoch = e := hinv.epoch.load
  have hends := Prog.mid_of_wp (hinv.wp_checkpoint hidle hpos schedule)
    (fun img hc => hinv.ends hc) hmid _ hcrash
  have hwhole := hends.whole (hload ▸ hepoch) o (hsize' ▸ ho)
  rw [hload, ← hwhole]
  exact hfresh.kept _ (hsize ▸ ho) o rfl

theorem twoThreads_stored :
    ((afterStores 5 (openNew 0)).map fun s =>
      ((s.content 0, s.epoch, s.pc 0, s.pc 1), (twoThreads.after 270 s).content 0,
        ((twoThreads.after 270 s).mem .currentEpoch).durable,
        ((twoThreads.after 270 s).mem .currentEpoch).last,
        ((twoThreads.after 270 s).mem .currentEpoch).value 0,
        ((twoThreads.after 270 s).mem .currentEpoch).value 1)) =
      some ((5, 1, .app, .app), 5, 0, 1, 1, 2) := by
  decide +kernel

/-- Whether the store of the epoch is lost decides between the old content and the new one, both of
which the medium has. -/
theorem checkpoint_whole_twoThreads :
    ∃ t : LmcEngine, t.content 0 = 5 ∧ ∀ e, e = 1 ∨ e = 2 →
      t.mem.CrashTo (Function.update t.mem.load .currentEpoch e) ∧
      ∃ u, openExisting.run (mounted 0 (Function.update t.mem.load .currentEpoch e)) =
          some ((), u) ∧
        (u.mem (.working 0)).Durably (· = if e = 1 then 0 else 5) := by
  obtain ⟨s, hs, hvalues⟩ := Option.map_eq_some_iff.mp twoThreads_stored
  simp only [Prod.mk.injEq] at hvalues
  obtain ⟨⟨hold, hepoch, hpc₀, hpc₁⟩, hnew, hdurable, hlast, hzero, hone⟩ := hvalues
  have hidle : Idle s := afterStores_idle hs (fun _ => rfl) hpc₀ hpc₁
  have hstored : Run 0 2 (.running s) (fun _ => 0) false :=
    Run.created.epoch (reaches_afterStores hs)
  refine ⟨twoThreads.after 270 s, hnew, fun e he => ?_⟩
  have hcrash : (twoThreads.after 270 s).mem.CrashTo
      (Function.update (twoThreads.after 270 s).mem.load .currentEpoch e) := by
    intro l
    by_cases hl : l = .currentEpoch
    · subst hl
      rw [Function.update_self]
      rcases he with rfl | rfl
      · exact ⟨0, hdurable.le, Nat.zero_le _, hzero.symm⟩
      · exact ⟨1, hdurable.le.trans (Nat.zero_le 1), hlast.ge, hone.symm⟩
    · rw [Function.update_of_ne hl]
      exact SharedMemory.crashTo_load _ l
  obtain ⟨u, hu, hdata⟩ := checkpoint_whole hstored hidle Nat.zero_lt_two _
    (Prog.mid_after 270 _ s) hcrash (by rw [hepoch]; decide)
  refine ⟨hcrash, u, hu, ?_⟩
  have hword := hdata 0 (by decide)
  rwa [Function.update_self, hepoch, hold] at hword

end Libcrpm.LmcEngine
