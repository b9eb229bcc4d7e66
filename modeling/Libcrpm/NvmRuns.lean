import Libcrpm.NvmCheckpoint

/-!
# Runs of the NVM engine

Hooked stores, checkpoints that use the flush lists and orderly reopenings, in any
order, from a pool that was just created.  Every state of a run is quiet, which decides
what a crash inside the next call leaves behind.
-/

namespace Libcrpm.NvmInst

open Libcrpm.Persistence Libcrpm.Program CheckpointImage

variable {n nb : Nat} {X : Snapshot} {e : Nat} {W : Nat → Prop} {c : Nat → SegmentState}
  {t u : NvmInst}

/-! ## Calls -/

/-- A store of thread `tid` to some words of `len` bytes at `addr`. -/
structure StoreCall where
  tid : Nat
  addr : Nat
  len : Nat
  words : List WordStore

namespace StoreCall

def prog (call : StoreCall) : Prog NvmInst Unit :=
  hookedStore call.tid call.addr call.len call.words

structure Valid (n : Nat) (call : StoreCall) : Prop where
  tid : call.tid < kMaxThreads
  pos : 0 < call.len
  inPool : call.addr + call.len ≤ n * kSegmentSize
  words : ∀ w ∈ call.words, w.Within call.addr call.len

/-- No hook of the call reaches a segment that lost its back segment. -/
def Safe (call : StoreCall) (t : NvmInst) : Prop :=
  SafeHooks call.tid (hookedSegments call.addr call.len) t

end StoreCall

structure CheckpointCall where
  leader : Nat
  nrThreads : Nat
  flushSchedule : List Nat
  writeBackSchedule : List Nat

namespace CheckpointCall

def prog (call : CheckpointCall) : Prog NvmInst Unit :=
  checkpoint call.leader call.nrThreads call.flushSchedule call.writeBackSchedule

structure Valid (call : CheckpointCall) : Prop where
  leader : call.leader < kMaxThreads
  threads : 0 < call.nrThreads

/-- No flush list is full, so that the checkpoint does not use `FMODE_WBINVD`. -/
def UsesFlushBlocks (call : CheckpointCall) (t : NvmInst) : Prop :=
  ∀ mode u, (beginCheckpoint call.leader).run t = some (mode, u) → mode ≠ .wbinvd

end CheckpointCall

/-! ## Runs -/

/-- A run has led to `t` with snapshot `X`; `W` are the blocks written so far. -/
inductive Run (n nb : Nat) : NvmInst → Snapshot → (Nat → Prop) → Prop
  | created : Run n nb (openNew n nb) ⟨fun _ _ => 0#64, fun _ => False⟩ fun _ => False
  | store {t u : NvmInst} {X : Snapshot} {W : Nat → Prop} (hrun : Run n nb t X W) (call : StoreCall) (hvalid : call.Valid n)
      (hret : call.prog.run t = some ((), u)) : Run n nb u X (written W call.words)
  | checkpoint {t u : NvmInst} {X : Snapshot} {W : Nat → Prop} (hrun : Run n nb t X W) (call : CheckpointCall) (hvalid : call.Valid)
      (hmode : call.UsesFlushBlocks t) (hret : call.prog.run t = some ((), u)) :
      Run n nb u (snapshotOf t W) W
  | reopen {t u : NvmInst} {X : Snapshot} {W : Nat → Prop} (hrun : Run n nb t X W)
      (hret : openExisting.run (construct (openImage n nb t.image.mem.shutdown)) =
        some ((), u)) :
      Run n nb u X X.written

def Inv (n nb : Nat) (X : Snapshot) (W : Nat → Prop) (t : NvmInst) : Prop :=
  ∃ e c, Quiet n nb X e W c t

theorem quiet_construct {i : CheckpointImage} {flag : Bool}
    (h : Steady n nb X e c (fun _ => False) (fun _ => False) NoFresh i) :
    Quiet n nb X e X.written c { construct i with hasSnapshot := flag } := by
  have htouched : ∀ block, ¬ Touched { construct i with hasSnapshot := flag } block := by
    rintro block (hb | ⟨id, hid, addr, hin, -⟩)
    · simp [construct] at hb
    · simp [construct] at hin
  refine ⟨?_, fun block hb => Or.inl hb, fun _ block hb => ?_, fun block hb => ?_,
    fun block hb => absurd hb (htouched block), ?_, ?_, rfl⟩
  · refine h.grow (fun _ hf => False.elim hf) (fun block hb => absurd hb (htouched block))
      fun s _ hd => ?_
    simp [Dirty, construct] at hd
  · simp [construct] at hb
  · simp [construct, listedBlocks] at hb
  · change 0 < nb ∨ nb = 0
    omega
  · simp [construct]

theorem inv_created (hnb : nb ≤ n) :
    Inv n nb ⟨fun _ _ => 0#64, fun _ => False⟩ (fun _ => False) (openNew n nb) := by
  have hinj : InjOwners nb (initialImage nb) := by
    intro b hb b' hb' s hs hs'
    exact (initialImage_backToMain.mp hs).2.trans (initialImage_backToMain.mp hs').2.symm
  have hbound : ∀ s b, openMainToBack (initialImage nb) nb s = some b ↔ b < nb ∧ b = s := by
    intro s b
    rw [openMainToBack_eq_some hinj, initialImage_backToMain]
    omega
  refine ⟨0, fun _ => .initial, quiet_construct ?_⟩
  refine ⟨⟨rfl, rfl, fun _ => rfl, fun s b => ?_, fun b hb s hs => ?_⟩, arrays_create n nb,
    fun _ _ => Or.inl rfl, fun _ _ _ _ hw => False.elim hw, fun _ _ _ _ _ _ hw => False.elim hw,
    fun _ _ _ _ hw => False.elim hw, fun _ hf => False.elim hf, fun _ _ hf => False.elim hf, ?_⟩
  · exact openMainToBack_eq_some hinj
  · have howner := (initialImage_backToMain.mp hs).2
    omega
  · rintro rfl s hs
    have hsome : openMainToBack (initialImage n) n s = some s := (hbound s s).mpr ⟨hs, rfl⟩
    change openMainToBack (initialImage n) n s ≠ none
    simp [hsome]

/-- What an orderly shutdown leaves. -/
theorem Steady.inSync {dirty touched : Nat → Prop} {i : CheckpointImage}
    (h : Steady n nb X e c dirty touched NoFresh i) :
    InSync n nb i.mem.shutdown .back c := by
  intro s hs
  left
  have hepoch : i.mem.shutdown .committedEpoch = e := h.arrays.epoch
  rw [otherState, hepoch]
  exact h.arrays.other s (h.nrMain.symm ▸ hs)

theorem Steady.recoveredState_eq {dirty touched : Nat → Prop} {i : CheckpointImage}
    (h : Steady n nb X e c dirty touched NoFresh i) (img : NvmImage) {s : Nat} (hs : s < n) :
    recoveredState nb img .back c s = c s := by
  rw [recoveredState]
  split
  · rename_i howned
    exact ((h.states s hs).resolve_left howned.2).symm
  · rfl

theorem Steady.reopened {dirty touched : Nat → Prop} {i j : CheckpointImage}
    (h : Steady n nb X e c dirty touched NoFresh i)
    (hj : Recovered n nb i.mem.shutdown .back e c j) :
    Steady n nb X (nextEpoch e) c (fun _ => False) (fun _ => False) NoFresh j := by
  have hc : i.mem.CrashTo i.mem.shutdown := Memory.crashTo_shutdown i.mem
  have howners := h.toBindings.sameOwners fun l _ => hc l
  have hinj := h.toBindings.injOwners howners
  have hbind : j.mainToBack = i.mainToBack :=
    hj.mainToBack.trans (funext (h.toBindings.openMainToBack_eq howners))
  have hload : ∀ b, j.mem.load (.backToMain b) = i.mem.load (.backToMain b) := hj.bound
  refine ⟨⟨hj.nrMain, hj.nrBack, hj.boundSettled, fun s b => ?_, fun b hb s hs => ?_⟩, ?_,
    h.states, h.written, fun s b hb _ o ho hw => ?_, fun s hs o ho hw _ => ?_,
    fun _ hf => False.elim hf, fun _ _ hf => False.elim hf, fun heq s hs => ?_⟩
  · rw [hbind, hload]
    exact h.inverse s b
  · exact h.range b hb s ((hload b).symm.trans hs)
  · exact (hj.arrays h.inSync).congr
      (fun s hs => (h.recoveredState_eq _ (hj.nrMain ▸ hs)).symm)
      fun s hs => (h.recoveredState_eq _ (hj.nrMain ▸ hs)).symm
  · rw [hbind] at hb
    obtain ⟨hlt, hown⟩ := (h.inverse s b).mp hb
    have hstate : c s ≠ .main := by
      rcases h.states s (h.mainToBack_lt hb).2 with hc | hc <;> simp [hc]
    have hcopy := hj.back hinj b hlt s hown o ho
    rw [if_pos (List.mem_range.mpr hlt), recoveredBack, if_neg hstate] at hcopy
    have hold : i.mem.shutdown (.word .back b o) = X.content s o :=
      (h.back s b hb id o ho hw).cur_eq
    have honly := (hj.settled .back b o).only
    rwa [show (j.mem (.word .back b o)).cur = X.content s o from hcopy.trans hold] at honly
  · have hcopy := hj.load_main hinj s ho
    rw [h.recoveredMain_eq (fun l _ => hc l) hs ho hw rfl] at hcopy
    have honly := (hj.settled .main s o).only
    rwa [show (j.mem (.word .main s o)).cur = X.content s o from hcopy] at honly
  · rw [hbind]
    exact h.allBound heq s hs

theorem inv_reopen (h : Inv n nb X W t)
    (hret : openExisting.run (construct (openImage n nb t.image.mem.shutdown)) = some ((), u)) :
    Inv n nb X X.written u := by
  obtain ⟨e, c, hq⟩ := h
  have hsteady := hq.steady
  have hc : t.image.mem.CrashTo t.image.mem.shutdown := Memory.crashTo_shutdown _
  have hcom := hsteady.arrays.committed hc
  rw [hsteady.nrMain] at hcom
  have hrange := hsteady.toBindings.ownersInRange (hsteady.toBindings.sameOwners fun l _ => hc l)
  have hopen : Prog.wp (fun _ => True) openExisting (fun _ v => Inv n nb X X.written v)
      (construct (openImage n nb t.image.mem.shutdown)) := by
    rw [openExisting, Prog.wp_bind]
    apply wp_onImage
    refine Prog.wp_mono (Prog.wp_weaken (fun _ _ => trivial) (wp_recovery .back hrange hcom))
      fun _ j hj => ?_
    exact Prog.wp_act.mpr ⟨trivial, nextEpoch e, c, quiet_construct (hsteady.reopened hj)⟩
  have hinv := Prog.run_of_wp hopen hret
  exact hinv

theorem inv_run (hnb : nb ≤ n) (h : Run n nb t X W) : Inv n nb X W t := by
  induction h with
  | created => exact inv_created hnb
  | store _ call hvalid hret ih =>
      obtain ⟨e, c, hq⟩ := ih
      have hwp := wp_hookedStore (P := False) hq hvalid.tid hvalid.pos hvalid.inPool hvalid.words
        False.elim
      obtain ⟨c', hq'⟩ := Prog.run_of_wp hwp hret
      exact ⟨e, c', hq'⟩
  | checkpoint _ call hvalid hmode hret ih =>
      obtain ⟨e, c, hq⟩ := ih
      have hpost := Prog.run_of_wp (wp_checkpoint hq hvalid.leader hvalid.threads _ _ hmode) hret
      exact hpost
  | reopen _ hret ih => exact inv_reopen ih hret

/-! ## A pool with two back segments -/

/-- Segment 0 is written and checkpointed, then a store to segment 2 takes its back
segment away; the next store to segment 0 stops right after it has bound another one. -/
def firstStore : StoreCall := ⟨0, 0, 8, [⟨0, 0, 1#64⟩]⟩
def takingStore : StoreCall := ⟨0, 2 * kSegmentSize, 8, [⟨2, 0, 1#64⟩]⟩
def oneThread : CheckpointCall := ⟨0, 1, List.replicate 300 0, List.replicate 300 0⟩

def storedPool : Option NvmInst := (firstStore.prog.run (openNew 8 2)).map Prod.snd
def committedPool : Option NvmInst :=
  storedPool.bind fun t => (oneThread.prog.run t).map Prod.snd
def takenPool : Option NvmInst :=
  committedPool.bind fun t => (takingStore.prog.run t).map Prod.snd

theorem firstStore_valid : firstStore.Valid 8 := by
  refine ⟨by decide, by decide, by decide, fun w hw => ?_⟩
  obtain rfl : w = ⟨0, 0, 1#64⟩ := by simpa [firstStore] using hw
  exact ⟨by decide, by decide, by decide⟩

theorem takingStore_valid : takingStore.Valid 8 := by
  refine ⟨by decide, by decide, by decide, fun w hw => ?_⟩
  obtain rfl : w = ⟨2, 0, 1#64⟩ := by simpa [takingStore] using hw
  exact ⟨by decide, by decide, by decide⟩

theorem oneThread_valid : oneThread.Valid := ⟨by decide, by decide⟩

theorem run_storedPool {t : NvmInst} (h : storedPool = some t) :
    Run 8 2 t ⟨fun _ _ => 0#64, fun _ => False⟩ (written (fun _ => False) firstStore.words) := by
  rw [storedPool, Option.map_eq_some_iff] at h
  obtain ⟨⟨_, _⟩, hret, rfl⟩ := h
  exact .store .created firstStore firstStore_valid hret

theorem oneThread_usesFlushBlocks {t : NvmInst} (h : storedPool = some t) :
    oneThread.UsesFlushBlocks t := by
  have hmode : (storedPool.bind fun t => ((beginCheckpoint 0).run t).map Prod.fst) =
      some .useFlushBlocks := by decide +kernel
  intro mode u hrun
  change (beginCheckpoint 0).run t = some (mode, u) at hrun
  rw [h, Option.bind_some, hrun] at hmode
  simp only [Option.map_some, Option.some.injEq] at hmode
  simp [hmode]

theorem run_takenPool {t u : NvmInst} (h : storedPool = some t) (hu : takenPool = some u) :
    ∃ W', Run 8 2 u (snapshotOf t (written (fun _ => False) firstStore.words)) W' := by
  rw [takenPool, committedPool, h, Option.bind_some, Option.bind_eq_some_iff] at hu
  obtain ⟨v, hv, hu⟩ := hu
  rw [Option.map_eq_some_iff] at hv hu
  obtain ⟨⟨_, _⟩, hcheckpoint, rfl⟩ := hv
  obtain ⟨⟨_, _⟩, hstore, rfl⟩ := hu
  have hcommitted := (run_storedPool h).checkpoint oneThread oneThread_valid
    (oneThread_usesFlushBlocks h) hcheckpoint
  exact ⟨_, hcommitted.store takingStore takingStore_valid hstore⟩

/-! ## Atomicity of a checkpoint -/

/-- A crash inside a checkpoint leaves the previous snapshot as long as the first epoch
store of the checkpoint is not durable, and the new one from then on. -/
theorem checkpoint_atomic (hnb : nb ≤ n) (hrun : Run n nb t X W) (call : CheckpointCall)
    (hvalid : call.Valid) (hmode : call.UsesFlushBlocks t) {v : NvmInst}
    (hmid : call.prog.Mid t v) {img : NvmImage} (hcrash : v.image.mem.CrashTo img) :
    (img .committedEpoch = t.image.committedEpoch → Restores n nb X img) ∧
      (img .committedEpoch ≠ t.image.committedEpoch → Restores n nb (snapshotOf t W) img) := by
  obtain ⟨e, c, hq⟩ := inv_run hnb hrun
  have hepoch : t.image.committedEpoch = e := hq.steady.arrays.epoch
  have hatomic := Prog.mid_of_wp (wp_checkpoint hq hvalid.leader hvalid.threads _ _ hmode)
    hq.steady.recoverable.atomic hmid
  obtain ⟨hold, hnew⟩ := hatomic img hcrash
  rw [hepoch]
  refine ⟨fun heq => ?_, fun hne => ?_⟩
  · obtain ⟨c', hholds⟩ := hold heq
    exact hholds.restores
  · obtain ⟨c', hholds⟩ := hnew hne
    exact hholds.restores

theorem checkpoint_atomic_storedPool : ∃ t, storedPool = some t ∧
    Restores 8 2 (snapshotOf t (written (fun _ => False) firstStore.words))
      (oneThread.prog.after 5000 t).image.mem.shutdown := by
  have hepochs : storedPool.map (fun t => ((oneThread.prog.after 5000 t).image.committedEpoch,
      t.image.committedEpoch)) = some (2, 0) := by
    decide +kernel
  rw [Option.map_eq_some_iff] at hepochs
  obtain ⟨t, ht, hepoch⟩ := hepochs
  rw [Prod.mk.injEq] at hepoch
  refine ⟨t, ht, (checkpoint_atomic (by decide) (run_storedPool ht) oneThread oneThread_valid
    (oneThread_usesFlushBlocks ht) (Prog.mid_after 5000 _ t) (Memory.crashTo_shutdown _)).2 ?_⟩
  change (oneThread.prog.after 5000 t).image.committedEpoch ≠ t.image.committedEpoch
  rw [hepoch.1, hepoch.2]
  decide

/-! ## Crashes between two checkpoints -/

/-- Which calls a run may stop in. -/
abbrev AdmitsStore := StoreCall → NvmInst → Prop

/-- The machine stopped with content `img`, at a moment when `X` was the last snapshot
that had been committed. -/
inductive Stopped (n nb : Nat) (admits : AdmitsStore) : NvmImage → Snapshot → Prop
  | store {t v : NvmInst} {X : Snapshot} {W : Nat → Prop} {img : NvmImage}
      (hrun : Run n nb t X W) (call : StoreCall) (hvalid : call.Valid n)
      (hadmits : admits call t) (hmid : call.prog.Mid t v) (hcrash : v.image.mem.CrashTo img) :
      Stopped n nb admits img X
  | checkpoint {t v : NvmInst} {X : Snapshot} {W : Nat → Prop} {img : NvmImage}
      (hrun : Run n nb t X W) (call : CheckpointCall) (hvalid : call.Valid) (hmode : call.UsesFlushBlocks t) (hmid : call.prog.Mid t v)
      (hcrash : v.image.mem.CrashTo img)
      (hepoch : img .committedEpoch = t.image.committedEpoch) : Stopped n nb admits img X

/-- Whatever the machine stops in before the next commit, reopening restores the last
snapshot. -/
def HooksRecover (n nb : Nat) (admits : AdmitsStore) : Prop :=
  nb ≤ n → ∀ img X, Stopped n nb admits img X → Restores n nb X img

theorem hooksRecover_of_safe (n nb : Nat) : HooksRecover n nb fun call t => call.Safe t := by
  intro hnb img X hstop
  cases hstop with
  | store hrun call hvalid hsafe hmid hcrash =>
      obtain ⟨e, c, hq⟩ := inv_run hnb hrun
      have hwp := wp_hookedStore (P := True) hq hvalid.tid hvalid.pos hvalid.inPool hvalid.words
        fun _ => hsafe
      have hrec := Prog.mid_of_wp hwp (hq.crashSafe rfl) hmid trivial
      obtain ⟨-, c', hholds⟩ := hrec img hcrash
      exact hholds.restores
  | checkpoint hrun call hvalid hmode hmid hcrash hepoch =>
      obtain ⟨e, c, hq⟩ := inv_run hnb hrun
      have hatomic := Prog.mid_of_wp (wp_checkpoint hq hvalid.leader hvalid.threads _ _ hmode)
        hq.steady.recoverable.atomic hmid
      obtain ⟨c', hholds⟩ := (hatomic img hcrash).1 (hepoch.trans hq.steady.arrays.epoch)
      exact hholds.restores

/-- Without the condition a hook can destroy the snapshot of its segment. -/
theorem not_hooksRecover : ¬ ∀ n nb, HooksRecover n nb fun _ _ => True := by
  intro hrecover
  have hstored : storedPool.map (fun t => t.image.mem.load (.word .main 0 0)) = some 1#64 := by
    decide +kernel
  have hreopened : (takenPool.bind fun t =>
      ((recovery .back).run (openImage 8 2 (firstStore.prog.after 19 t).image.mem.shutdown)).map
        fun r => r.2.mem.load (.word .main 0 0)) = some 0#64 := by
    decide +kernel
  rw [Option.map_eq_some_iff] at hstored
  obtain ⟨t, ht, hone⟩ := hstored
  rw [Option.bind_eq_some_iff] at hreopened
  obtain ⟨u, hu, hreopened⟩ := hreopened
  obtain ⟨W', hrun⟩ := run_takenPool ht hu
  have hstop : Stopped 8 2 (fun _ _ => True) (firstStore.prog.after 19 u).image.mem.shutdown
      (snapshotOf t (written (fun _ => False) firstStore.words)) :=
    .store hrun firstStore firstStore_valid trivial (Prog.mid_after 19 _ u)
      (Memory.crashTo_shutdown _)
  obtain ⟨v, hret, hcontent⟩ := hrecover 8 2 (by decide) _ _ hstop
  rw [hret, Option.map_some, Option.some.injEq] at hreopened
  have hzero := hcontent 0 (by decide) 0 (by decide) (Or.inr ⟨⟨0, 0, 1#64⟩, by simp [firstStore], rfl⟩)
  rw [hreopened] at hzero
  change 0#64 = t.image.mem.load (.word .main 0 0) at hzero
  rw [hone] at hzero
  exact absurd hzero (by decide)

end Libcrpm.NvmInst
