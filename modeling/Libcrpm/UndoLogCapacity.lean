import Libcrpm.UndoLog
import Mathlib.Data.Finset.Card
import Mathlib.Data.Finset.Filter
import Mathlib.Data.Finset.Image
import Mathlib.Data.Finset.Range

/-!
# The log of the undo log engine

The log of a pool has room for fewer entries than the pool has blocks.  Between two
checkpoints a hook terminates the process exactly when the blocks that were hooked fill it.
-/

namespace Libcrpm.UndoLogEngine

open Libcrpm.Persistence Libcrpm.Program

variable {t u v : UndoLogEngine} {tid addr blockId : Nat}

/-! ## Between two hooks -/

def dirtyBlocks (t : UndoLogEngine) : Finset Nat :=
  (Finset.range t.nrBlocks).filter fun block => t.blockDirty.test block = true

theorem mem_dirtyBlocks {block : Nat} :
    block ∈ t.dirtyBlocks ↔ block < t.nrBlocks ∧ t.blockDirty.test block = true := by
  simp [dirtyBlocks]

def Listed (t : UndoLogEngine) (block : Nat) : Prop :=
  ∃ id < kMaxThreads, block ∈ t.flushBlocks id

def Full (t : UndoLogEngine) : Prop :=
  ∃ id < kMaxThreads, (t.flushBlocks id).length = kMaxFlushBlocks

structure Quiet (t : UndoLogEngine) : Prop where
  locks : ∀ l, t.segmentLocks l = false
  published : t.mem.load .logHead = t.logHead
  space : t.logHead = logSize * t.dirtyBlocks.card
  room : t.logHead < t.logCapacity
  listed : ∀ block ∈ t.dirtyBlocks, Listed t block ∨ Full t

/-- `u` belongs to the same pool as `t`. -/
def SamePool (t u : UndoLogEngine) : Prop :=
  u.nrBlocks = t.nrBlocks ∧ u.logCapacity = t.logCapacity

theorem SamePool.refl (t : UndoLogEngine) : SamePool t t := ⟨rfl, rfl⟩

theorem SamePool.trans (h : SamePool t u) (h' : SamePool u v) : SamePool t v :=
  ⟨h'.1.trans h.1, h'.2.trans h.2⟩

/-! ## A hook -/

theorem run_writeEntry (lastLogHead blockId : Nat) (t : UndoLogEngine) :
    ∃ m : File, (writeEntry lastLogHead blockId).run t = some ((), { t with mem := m }) ∧
      m.load .logHead = t.mem.load .logHead :=
  ⟨_, rfl, rfl⟩

theorem run_publish {lastLogHead : Nat} (h : t.mem.load .logHead = lastLogHead) :
    ∃ m : File, (publish lastLogHead).run t = some ((), { t with mem := m }) ∧
      m.load .logHead = lastLogHead + logSize := by
  let m := ((t.mem.store .logHead (lastLogHead + logSize)).flushAll fun l => l = .logHead).fence
  refine ⟨m, ?_, rfl⟩
  rw [publish, Prog.run_bind, Prog.run, if_pos (by simp [h]), if_pos h]
  simp only [h, decide_true]
  rfl

theorem run_hookRoutine_dirty (h : t.blockDirty.test (addr >>> kBlockShift) = true) :
    (hookRoutine tid addr).run t = some ((), t) := by
  simp only [hookRoutine, Prog.run_bind, Prog.run_read, Option.bind_some, h, if_true]
  rfl

def reserved (blockId : Nat) (t : UndoLogEngine) : UndoLogEngine :=
  { t with
    segmentLocks := Function.update t.segmentLocks (lockOf blockId) true
    logHead := t.logHead + logSize }

theorem hookRoutine_clean (hq : Quiet t) (h : t.blockDirty.test (addr >>> kBlockShift) = false) :
    ((hookRoutine tid addr).Exits t ↔
      (logBlock tid (addr >>> kBlockShift) t.logHead).Exits (reserved (addr >>> kBlockShift) t)) ∧
    (hookRoutine tid addr).run t =
      (logBlock tid (addr >>> kBlockShift) t.logHead).run (reserved (addr >>> kBlockShift) t) := by
  have hacquire : (acquireLock (addr >>> kBlockShift)).run t = some ((), { t with
      segmentLocks := Function.update t.segmentLocks (lockOf (addr >>> kBlockShift)) true }) :=
    Prog.run_await _ (by simp [hq.locks])
  constructor
  · rw [hookRoutine, Prog.exits_bind_of_run (Prog.run_read _ t)]
    rw [if_neg (by simp [h]), Prog.exits_bind_of_run hacquire,
      Prog.exits_bind_of_run (Prog.run_read _ _), if_neg (by simp [h]),
      Prog.exits_bind_of_run (Prog.run_fetch _ _ _)]
    rfl
  · simp only [hookRoutine, Prog.run_bind, Prog.run_read, Option.bind_some]
    rw [if_neg (by simp [h]), Prog.run_bind, hacquire]
    simp only [Option.bind_some, Prog.run_bind, Prog.run_read]
    rw [if_neg (by simp [h])]
    rfl

theorem exits_hookRoutine (hq : Quiet t) (h : t.blockDirty.test (addr >>> kBlockShift) = false)
    (hfull : t.logCapacity ≤ t.logHead + logSize) : (hookRoutine tid addr).Exits t := by
  have hcapacity : (reserved (addr >>> kBlockShift) t).logCapacity ≤ t.logHead + logSize := hfull
  rw [(hookRoutine_clean hq h).1, logBlock, Prog.exits_bind_of_run (Prog.run_read _ _),
    if_pos hcapacity]
  exact Prog.exits_exit

def logged (tid blockId : Nat) (m : File) (t : UndoLogEngine) : UndoLogEngine :=
  { t with
    mem := m
    logHead := t.logHead + logSize
    blockDirty := t.blockDirty.set blockId
    flushBlocks :=
      if (t.flushBlocks tid).length ≠ kMaxFlushBlocks then
        Function.update t.flushBlocks tid (t.flushBlocks tid ++ [blockId])
      else t.flushBlocks }

theorem run_hookRoutine_clean (tid : Nat) (hq : Quiet t)
    (h : t.blockDirty.test (addr >>> kBlockShift) = false)
    (hroom : t.logHead + logSize < t.logCapacity) :
    ∃ m : File, (hookRoutine tid addr).run t =
        some ((), logged tid (addr >>> kBlockShift) m t) ∧
      m.load .logHead = t.logHead + logSize := by
  obtain ⟨m, hm, hload⟩ := run_writeEntry t.logHead (addr >>> kBlockShift)
    (reserved (addr >>> kBlockShift) t)
  obtain ⟨m', hm', hload'⟩ := run_publish
    (t := { reserved (addr >>> kBlockShift) t with mem := m }) (hload.trans hq.published)
  refine ⟨m', ?_, hload'⟩
  have hcapacity : ¬ (reserved (addr >>> kBlockShift) t).logCapacity ≤ t.logHead + logSize :=
    Nat.not_le.mpr hroom
  rw [(hookRoutine_clean hq h).2, logBlock]
  simp only [Prog.run_bind, Prog.run_read, Option.bind_some]
  rw [if_neg hcapacity]
  simp only [Prog.run_bind, hm, hm', Option.bind_some, Prog.run_act, releaseLock, recordBlock]
  have hrelease : Function.update (Function.update t.segmentLocks
      (lockOf (addr >>> kBlockShift)) true) (lockOf (addr >>> kBlockShift)) false =
      t.segmentLocks := by
    rw [Function.update_idem, ← hq.locks (lockOf (addr >>> kBlockShift)), Function.update_eq_self]
  simp only [reserved, logged, hrelease]
  split <;> rfl

theorem dirtyBlocks_logged {m : File} (hblock : blockId < t.nrBlocks) :
    (logged tid blockId m t).dirtyBlocks = insert blockId t.dirtyBlocks := by
  ext block
  simp only [Finset.mem_insert, mem_dirtyBlocks, logged, AtomicBitSet.test_set, Bool.or_eq_true,
    decide_eq_true_eq]
  constructor
  · rintro ⟨hlt, rfl | hdirty⟩
    · exact Or.inl rfl
    · exact Or.inr ⟨hlt, hdirty⟩
  · rintro (rfl | ⟨hlt, hdirty⟩)
    · exact ⟨hblock, Or.inl rfl⟩
    · exact ⟨hlt, Or.inr hdirty⟩

theorem listed_logged {m : File} (hq : Quiet t) (htid : tid < kMaxThreads) {block : Nat}
    (h : block = blockId ∨ block ∈ t.dirtyBlocks) :
    Listed (logged tid blockId m t) block ∨ Full (logged tid blockId m t) := by
  by_cases hfull : (t.flushBlocks tid).length = kMaxFlushBlocks
  · refine Or.inr ⟨tid, htid, ?_⟩
    simp only [logged, hfull, ne_eq, not_true_eq_false, if_false]
  have hlists : (logged tid blockId m t).flushBlocks =
      Function.update t.flushBlocks tid (t.flushBlocks tid ++ [blockId]) := if_pos hfull
  rcases h with rfl | hdirty
  · exact Or.inl ⟨tid, htid, by simp [hlists]⟩
  · rcases hq.listed block hdirty with ⟨id, hid, hin⟩ | ⟨id, hid, hlength⟩
    · refine Or.inl ⟨id, hid, ?_⟩
      rw [hlists]
      by_cases heq : id = tid
      · subst heq
        rw [Function.update_self]
        exact List.mem_append_left _ hin
      · rwa [Function.update_of_ne heq]
    · refine Or.inr ⟨id, hid, ?_⟩
      have hne : id ≠ tid := fun heq => hfull (heq ▸ hlength)
      rw [hlists, Function.update_of_ne hne, hlength]

theorem Quiet.logged {m : File} (hq : Quiet t) (htid : tid < kMaxThreads)
    (hblock : blockId < t.nrBlocks) (hclean : t.blockDirty.test blockId = false)
    (hroom : t.logHead + logSize < t.logCapacity) (hload : m.load .logHead = t.logHead + logSize) :
    Quiet (logged tid blockId m t) := by
  have hnew : blockId ∉ t.dirtyBlocks := fun hin => by
    rw [(mem_dirtyBlocks.mp hin).2] at hclean
    cases hclean
  refine ⟨hq.locks, hload, ?_, hroom, fun block hin => ?_⟩
  · rw [dirtyBlocks_logged hblock, Finset.card_insert_of_notMem hnew, Nat.mul_succ, ← hq.space]
    rfl
  · rw [dirtyBlocks_logged hblock, Finset.mem_insert] at hin
    exact listed_logged hq htid hin

/-! ## An epoch -/

inductive Call where
  | hook (tid addr : Nat)
  | store (o value : Nat)
deriving DecidableEq, Repr

def Call.perform : Call → Prog UndoLogEngine Unit
  | .hook tid addr => hookRoutine tid addr
  | .store o value => Prog.act (onMem fun m => m.store (.data o) value)

/-- A thread of the process hooks an address of the pool. -/
def Call.InPool (nrBlocks : Nat) : Call → Prop
  | .hook tid addr => tid < kMaxThreads ∧ addr < nrBlocks * kBlockSize
  | .store _ _ => True

def Call.block? : Call → Option Nat
  | .hook _ addr => some (addr >>> kBlockShift)
  | .store _ _ => none

/-- What the application does between two checkpoints. -/
def epoch (calls : List Call) : Prog UndoLogEngine Unit := Prog.forEach calls Call.perform

def hookedBlocks (calls : List Call) : Finset Nat := (calls.filterMap Call.block?).toFinset

theorem shiftRight_kBlockShift_lt {n : Nat} (h : addr < n * kBlockSize) :
    addr >>> kBlockShift < n := by
  rw [Nat.shiftRight_eq_div_pow]
  exact Nat.div_lt_of_lt_mul (by rw [Nat.mul_comm]; exact h)

theorem perform_cases (hq : Quiet t) {call : Call} (hcall : call.InPool t.nrBlocks) :
    (call.perform.Exits t ∧ ∃ block, call.block? = some block ∧ block ∉ t.dirtyBlocks ∧
      t.logCapacity ≤ t.logHead + logSize) ∨
    ∃ u, call.perform.run t = some ((), u) ∧ Quiet u ∧ SamePool t u ∧
      u.dirtyBlocks = t.dirtyBlocks ∪ hookedBlocks [call] := by
  cases call with
  | store o value =>
      refine Or.inr ⟨_, rfl, ⟨hq.locks, hq.published, hq.space, hq.room, hq.listed⟩, .refl t, ?_⟩
      exact (Finset.union_empty _).symm
  | hook tid addr =>
      obtain ⟨htid, haddr⟩ := hcall
      have hblock := shiftRight_kBlockShift_lt haddr
      have hhooked : hookedBlocks [.hook tid addr] = {addr >>> kBlockShift} := rfl
      cases hbit : t.blockDirty.test (addr >>> kBlockShift) with
      | true =>
          refine Or.inr ⟨t, run_hookRoutine_dirty hbit, hq, .refl t, ?_⟩
          rw [hhooked, Finset.union_eq_left.mpr]
          exact Finset.singleton_subset_iff.mpr (mem_dirtyBlocks.mpr ⟨hblock, hbit⟩)
      | false =>
          by_cases hfull : t.logCapacity ≤ t.logHead + logSize
          · refine Or.inl ⟨exits_hookRoutine hq hbit hfull, _, rfl, fun hin => ?_, hfull⟩
            rw [(mem_dirtyBlocks.mp hin).2] at hbit
            cases hbit
          · have hroom := Nat.not_le.mp hfull
            obtain ⟨m, hm, hload⟩ := run_hookRoutine_clean tid hq hbit hroom
            refine Or.inr ⟨_, hm, hq.logged htid hblock hbit hroom hload, ⟨rfl, rfl⟩, ?_⟩
            rw [dirtyBlocks_logged hblock, hhooked, Finset.insert_eq, Finset.union_comm]

theorem hookedBlocks_cons (call : Call) (calls : List Call) :
    hookedBlocks (call :: calls) = hookedBlocks [call] ∪ hookedBlocks calls := by
  rw [hookedBlocks, hookedBlocks, hookedBlocks, ← List.toFinset_append, ← List.filterMap_append]
  rfl

theorem epoch_cases (hq : Quiet t) {calls : List Call}
    (hcalls : ∀ call ∈ calls, call.InPool t.nrBlocks) :
    ((epoch calls).Exits t ∧
      t.logCapacity ≤ logSize * (t.dirtyBlocks ∪ hookedBlocks calls).card) ∨
    ∃ u, (epoch calls).run t = some ((), u) ∧ Quiet u ∧ SamePool t u ∧
      u.dirtyBlocks = t.dirtyBlocks ∪ hookedBlocks calls := by
  induction calls generalizing t with
  | nil => exact Or.inr ⟨t, rfl, hq, .refl t, (Finset.union_empty _).symm⟩
  | cons call rest ih =>
      rcases perform_cases hq (hcalls call (by simp)) with
        ⟨hexits, block, hblock, hnew, hfull⟩ | ⟨u, hu, hqu, hpool, hdirty⟩
      · refine Or.inl ⟨Prog.exits_forEach_cons rest hexits, hfull.trans ?_⟩
        have hsub : insert block t.dirtyBlocks ⊆ t.dirtyBlocks ∪ hookedBlocks (call :: rest) := by
          refine Finset.insert_subset (Finset.mem_union_right _ ?_) Finset.subset_union_left
          simp [hookedBlocks, hblock]
        calc t.logHead + logSize = logSize * (insert block t.dirtyBlocks).card := by
              rw [Finset.card_insert_of_notMem hnew, Nat.mul_succ, ← hq.space]
          _ ≤ _ := Nat.mul_le_mul_left _ (Finset.card_le_card hsub)
      · have hunion : u.dirtyBlocks ∪ hookedBlocks rest =
            t.dirtyBlocks ∪ hookedBlocks (call :: rest) := by
          rw [hdirty, hookedBlocks_cons call rest, Finset.union_assoc]
        rcases ih hqu (fun c hc => hpool.1 ▸ hcalls c (by simp [hc])) with
          ⟨hexits, hfull⟩ | ⟨v, hv, hqv, hpool', hdirty'⟩
        · rw [hunion, hpool.2] at hfull
          exact Or.inl ⟨(Prog.exits_forEach_cons_of_run hu).mpr hexits, hfull⟩
        · refine Or.inr ⟨v, ?_, hqv, hpool.trans hpool', hdirty'.trans hunion⟩
          simp only [epoch] at hv ⊢
          simp [hu, hv]

/-! ## A checkpoint -/

/-- What the flushing section may do. -/
def FlushStep (t u : UndoLogEngine) : Prop :=
  ∃ m : File, u = { t with mem := m } ∧ m.load .logHead = t.mem.load .logHead

theorem FlushStep.refl (t : UndoLogEngine) : FlushStep t t := ⟨t.mem, rfl, rfl⟩

theorem FlushStep.trans (h : FlushStep t u) (h' : FlushStep u v) : FlushStep t v := by
  obtain ⟨m, rfl, hm⟩ := h
  obtain ⟨m', rfl, hm'⟩ := h'
  exact ⟨m', rfl, hm'.trans hm⟩

theorem flushStep_drains {f : File → File} (hf : ∀ m : File, m.Drains (f m)) :
    (Prog.act (onMem f)).Within FlushStep :=
  Prog.within_act.mpr fun t => ⟨f t.mem, rfl, (hf t.mem .logHead).cur⟩

theorem flushStep_flushParallel (i nrThreads : Nat) :
    (flushParallel i nrThreads).Within FlushStep := by
  have hfence : (Prog.act (onMem Memory.fence)).Within FlushStep :=
    flushStep_drains Memory.drains_fence
  have hflush : ∀ sel, (Prog.act (onMem fun m => m.flushAll sel)).Within FlushStep :=
    fun sel => flushStep_drains fun m => Memory.drains_flushAll m sel
  refine Prog.within_bind (Prog.within_read FlushStep.refl _) fun mode => ?_
  dsimp only
  split
  · split
    · exact Prog.within_bind (hflush _) fun _ => hfence
    · exact hfence
  · refine Prog.within_bind (Prog.within_forEach fun id _ => ?_) fun _ => hfence
    refine Prog.within_bind (Prog.within_read FlushStep.refl _) fun bucket => ?_
    exact Prog.within_forEach fun block _ => hflush _

/-- What the clearing section may do.  With `guarded` a flush list is emptied only when its
blocks are clean. -/
structure ClearStep (guarded : Prop) (t u : UndoLogEngine) : Prop where
  same : u = { t with blockDirty := u.blockDirty, flushBlocks := u.flushBlocks }
  clean : ∀ block, t.blockDirty.test block = false → u.blockDirty.test block = false
  lists : ∀ id, u.flushBlocks id = t.flushBlocks id ∨ (u.flushBlocks id = [] ∧
    (guarded → ∀ block ∈ t.flushBlocks id, u.blockDirty.test block = false))

section Clear

variable {guarded : Prop}

theorem ClearStep.refl (t : UndoLogEngine) : ClearStep guarded t t :=
  ⟨rfl, fun _ h => h, fun _ => Or.inl rfl⟩

theorem ClearStep.trans (h : ClearStep guarded t u) (h' : ClearStep guarded u v) :
    ClearStep guarded t v where
  same := by rw [h'.same, h.same]
  clean block hb := h'.clean block (h.clean block hb)
  lists id := by
    rcases h'.lists id with heq | ⟨hnil, hclean'⟩
    · rcases h.lists id with heq' | ⟨hnil', hclean⟩
      · exact Or.inl (heq.trans heq')
      · exact Or.inr ⟨heq.trans hnil', fun hg block hb => h'.clean block (hclean hg block hb)⟩
    · refine Or.inr ⟨hnil, fun hg block hb => ?_⟩
      rcases h.lists id with heq' | ⟨-, hclean⟩
      · exact hclean' hg block (heq' ▸ hb)
      · exact h'.clean block (hclean hg block hb)

theorem ClearStep.emptied (h : ClearStep guarded t u) {id : Nat} (hnil : t.flushBlocks id = []) :
    u.flushBlocks id = [] := by
  rcases h.lists id with heq | ⟨hnil', -⟩
  · exact heq.trans hnil
  · exact hnil'

theorem rg_clearWord (id : Nat) (s : UndoLogEngine) :
    (clearWord id).rg (ClearStep guarded) (ClearStep guarded)
      (fun _ u => ClearStep guarded s u ∧
        ∀ block, block / 64 = id / 64 → u.blockDirty.test block = false) s := by
  have hstep : ∀ a : UndoLogEngine,
      ClearStep guarded a { a with blockDirty := a.blockDirty.clearAll id } := by
    refine fun a => ⟨rfl, fun block hb => ?_, fun _ => Or.inl rfl⟩
    rw [AtomicBitSet.test_clearAll, hb, Bool.and_false]
  refine Prog.rg_act fun a ha => ⟨hstep a, fun b hb => ⟨(ha.trans (hstep a)).trans hb, ?_⟩⟩
  refine fun block hword => hb.clean block ?_
  rw [AtomicBitSet.test_clearAll, decide_eq_true hword]
  rfl

theorem rg_emptyBucket (id : Nat) {s : UndoLogEngine}
    (h : guarded → ∀ block ∈ s.flushBlocks id, s.blockDirty.test block = false) :
    (emptyBucket id).rg (ClearStep guarded) (ClearStep guarded)
      (fun _ u => ClearStep guarded s u ∧ u.flushBlocks id = []) s := by
  have hstep : ∀ a, ClearStep guarded s a → ClearStep guarded a
      { a with flushBlocks := Function.update a.flushBlocks id [] } := by
    refine fun a ha => ⟨rfl, fun _ hb => hb, fun id' => ?_⟩
    by_cases heq : id' = id
    · subst heq
      refine Or.inr ⟨Function.update_self .., fun hg block hb => ?_⟩
      rcases ha.lists id' with hsame | ⟨hnil, -⟩
      · exact ha.clean block (h hg block (hsame ▸ hb))
      · rw [hnil] at hb
        cases hb
    · exact Or.inl (Function.update_of_ne heq ..)
  refine Prog.rg_act fun a ha => ⟨hstep a ha, fun b hb => ⟨(ha.trans (hstep a ha)).trans hb, ?_⟩⟩
  exact hb.emptied (Function.update_self ..)

theorem rg_clearBucket (id : Nat) (s : UndoLogEngine) :
    (clearBucket id).rg (ClearStep guarded) (ClearStep guarded)
      (fun _ u => ClearStep guarded s u ∧ u.flushBlocks id = []) s := by
  refine Prog.rg_bind .refl (Prog.rg_read fun a ha => ⟨.refl a, fun b hb => ?_⟩)
  refine Prog.rg_bind .refl (Prog.rg_mono (Prog.rg_forEach_each (i := a)
    (D := fun block u => u.blockDirty.test block = false) .refl (fun _ _ _ => .trans)
    (fun block _ _ hclean hc => hc.clean block hclean) (fun block _ c _ => ?_) hb) ?_)
  · exact Prog.rg_mono (rg_clearWord block c) fun _ u hu => ⟨hu.1, hu.2 block rfl⟩
  · intro _ u ⟨hu, hclean⟩
    have hsu := ha.trans (hb.trans hu)
    refine Prog.rg_mono (rg_emptyBucket id fun _ block hblock => ?_)
      fun _ v hv => ⟨hsu.trans hv.1, hv.2⟩
    rcases (hb.trans hu).lists id with heq | ⟨hnil, -⟩
    · exact hclean block (heq ▸ hblock)
    · rw [hnil] at hblock
      cases hblock

end Clear

/-- What thread `i` achieves in the clearing section. -/
def Cleared (i nrThreads : Nat) (s u : UndoLogEngine) : Prop :=
  (∀ id ∈ bucketsOf i nrThreads, u.flushBlocks id = []) ∧
    (s.flushMode = .wbinvd → ∀ w ∈ indicesOf s.nrWords i nrThreads, ∀ block, block / 64 = w →
      u.blockDirty.test block = false)

theorem rg_clearDirtyBitsParallel (i nrThreads : Nat) (s : UndoLogEngine) :
    (clearDirtyBitsParallel i nrThreads).rg (ClearStep (s.flushMode ≠ .wbinvd))
      (ClearStep (s.flushMode ≠ .wbinvd))
      (fun _ u => ClearStep (s.flushMode ≠ .wbinvd) s u ∧ Cleared i nrThreads s u) s := by
  refine Prog.rg_bind .refl (Prog.rg_read fun a ha => ⟨.refl a, fun b hb => ?_⟩)
  have hmode : a.flushMode = s.flushMode := by rw [ha.same]
  have hempty : ∀ c d id, c.flushBlocks id = [] → ClearStep (s.flushMode ≠ .wbinvd) c d →
      d.flushBlocks id = [] := fun c d id hnil hcd => hcd.emptied hnil
  split
  · rename_i hwbinvd
    rw [hmode] at hwbinvd
    have hwords : b.nrWords = s.nrWords := by rw [(ha.trans hb).same]; rfl
    refine Prog.rg_bind .refl (Prog.rg_read fun c hc => ⟨.refl c, fun d hd => ?_⟩)
    have hcount : c.nrWords = s.nrWords := by rw [hc.same]; exact hwords
    rw [hcount]
    refine Prog.rg_bind .refl (Prog.rg_mono (Prog.rg_forEach_each (i := d)
      (D := fun w u => ∀ block, block / 64 = w → u.blockDirty.test block = false) .refl
      (fun _ _ _ => .trans) (fun w _ _ hclean hc block hw => hc.clean block (hclean block hw))
      (fun w _ e _ => ?_) (.refl d)) ?_)
    · refine Prog.rg_mono (rg_clearWord (w * AtomicBitSet.kBitWidth) e) fun _ u hu => ⟨hu.1, ?_⟩
      intro block hw
      exact hu.2 block (by simp only [AtomicBitSet.kBitWidth]; omega)
    · intro _ e ⟨hde, hclean⟩
      refine Prog.rg_mono (Prog.rg_forEach_each (i := e) (D := fun id u => u.flushBlocks id = [])
        .refl (fun _ _ _ => .trans) (fun id _ _ hnil hcd => hempty _ _ id hnil hcd)
        (fun id _ f _ => rg_emptyBucket id fun hg => absurd hwbinvd hg) (.refl e)) ?_
      intro _ u ⟨heu, hnil⟩
      have hsu := (ha.trans hb).trans ((hc.trans hd).trans (hde.trans heu))
      exact ⟨hsu, hnil, fun _ w hw block hblock => heu.clean block (hclean w hw block hblock)⟩
  · rename_i hno
    rw [hmode] at hno
    refine Prog.rg_mono (Prog.rg_forEach_each (i := b) (D := fun id u => u.flushBlocks id = [])
      .refl (fun _ _ _ => .trans) (fun id _ _ hnil hcd => hempty _ _ id hnil hcd)
      (fun id _ f _ => rg_clearBucket id f) (.refl b)) ?_
    exact fun _ u ⟨hbu, hnil⟩ => ⟨(ha.trans hb).trans hbu, hnil, fun hwbinvd => absurd hwbinvd hno⟩

theorem wp_flushSection (nrThreads : Nat) (schedule : List Nat) (s : UndoLogEngine) :
    Prog.wp (fun _ => True) (Prog.par nrThreads schedule fun i => flushParallel i nrThreads)
      (fun _ u => FlushStep s u) s :=
  Prog.wp_of_within FlushStep.refl (fun _ _ _ => .trans) (fun _ _ _ _ => trivial)
    (Prog.within_par FlushStep.refl fun i _ => flushStep_flushParallel i nrThreads) trivial

theorem wp_clearSection (nrThreads : Nat) (schedule : List Nat) (s : UndoLogEngine) :
    Prog.wp (fun _ => True)
      (Prog.par nrThreads schedule fun i => clearDirtyBitsParallel i nrThreads)
      (fun _ u => ∀ i < nrThreads, ClearStep (s.flushMode ≠ .wbinvd) s u ∧ Cleared i nrThreads s u)
      s :=
  Prog.wp_par_same .refl (fun _ _ _ => .trans) (fun _ _ _ _ => trivial) trivial
    fun i _ => rg_clearDirtyBitsParallel i nrThreads s

/-- Where an epoch begins. -/
structure Fresh (t : UndoLogEngine) : Prop extends Quiet t where
  clean : t.dirtyBlocks = ∅

theorem mem_words {block n : Nat} (h : block < n) :
    block / 64 < (n + (AtomicBitSet.kBitWidth - 1)) / AtomicBitSet.kBitWidth := by
  simp only [AtomicBitSet.kBitWidth]
  omega

theorem clean_of_cleared {nrThreads : Nat} (hpos : 0 < nrThreads)
    (hlisted : t.flushMode ≠ .wbinvd → ∀ block ∈ t.dirtyBlocks, Listed t block)
    (h : ∀ i < nrThreads, ClearStep (t.flushMode ≠ .wbinvd) t u ∧ Cleared i nrThreads t u) :
    u.dirtyBlocks = ∅ := by
  refine Finset.eq_empty_of_forall_notMem fun block hin => ?_
  obtain ⟨hlt, hdirty⟩ := mem_dirtyBlocks.mp hin
  have hstep := (h 0 hpos).1
  have hnr : u.nrBlocks = t.nrBlocks := by rw [hstep.same]
  suffices hclean : u.blockDirty.test block = false by
    rw [hclean] at hdirty
    cases hdirty
  by_cases hmode : t.flushMode = .wbinvd
  · have hw : block / 64 < t.nrWords := mem_words (hnr ▸ hlt)
    exact (h _ (Nat.mod_lt _ hpos)).2.2 hmode _ (mem_indicesOf nrThreads hw) block rfl
  · by_contra hbit
    have hold : block ∈ t.dirtyBlocks := by
      refine mem_dirtyBlocks.mpr ⟨hnr ▸ hlt, ?_⟩
      by_contra hno
      exact hbit (hstep.clean block (by simpa using hno))
    obtain ⟨id, hid, hlist⟩ := hlisted hmode block hold
    have hnil := (h _ (Nat.mod_lt _ hpos)).2.1 id (mem_bucketsOf nrThreads hid)
    rcases hstep.lists id with heq | ⟨-, hclean⟩
    · rw [← heq, hnil] at hlist
      cases hlist
    · exact hbit (hclean hmode block hlist)

theorem wp_finishCheckpoint {C : UndoLogEngine → Prop} (hC : ∀ t, C t) (s : UndoLogEngine) :
    Prog.wp C finishCheckpoint (fun _ u => u.logHead = 0 ∧ u.mem.load .logHead = 0 ∧
      u.segmentLocks = s.segmentLocks ∧ u.blockDirty = s.blockDirty ∧ SamePool s u) s := by
  rw [finishCheckpoint, Prog.wp_bind, Prog.wp_read]
  refine ⟨hC _, ?_⟩
  split
  · simp only [Prog.wp_bind, Prog.wp_act]
    exact ⟨hC _, hC _, hC _, trivial, rfl, rfl, rfl, rfl, rfl⟩
  · simp only [Prog.wp_bind, Prog.wp_act]
    exact ⟨hC _, hC _, hC _, hC _, hC _, trivial, rfl, rfl, rfl, rfl, rfl⟩

theorem determineFlushMode_noAction (h : determineFlushMode t = .noAction) :
    ∀ block, ¬ Listed t block := by
  rintro block ⟨id, hid, hin⟩
  have hall : (List.range kMaxThreads).all (fun id => (t.flushBlocks id).length = 0) = true := by
    by_contra hno
    rw [determineFlushMode, if_neg hno] at h
    split at h <;> cases h
  have hnil := List.all_eq_true.mp hall id (List.mem_range.mpr hid)
  rw [List.length_eq_zero_iff.mp (of_decide_eq_true hnil)] at hin
  cases hin

theorem not_full_of_mode (h : determineFlushMode t ≠ .wbinvd) : ¬ Full t := by
  rintro ⟨id, hid, hlength⟩
  have hpos : (t.flushBlocks id).length ≠ 0 := by rw [hlength]; decide
  rw [determineFlushMode, if_neg, if_pos] at h
  · exact h rfl
  · exact List.any_eq_true.mpr ⟨id, List.mem_range.mpr hid, decide_eq_true hlength⟩
  · intro hall
    exact hpos (of_decide_eq_true (List.all_eq_true.mp hall id (List.mem_range.mpr hid)))

theorem Quiet.checkpoint {nrThreads : Nat} {flushSchedule clearSchedule : List Nat} (hq : Quiet t)
    (hpos : 0 < nrThreads)
    (hrun : (checkpoint nrThreads flushSchedule clearSchedule).run t = some ((), u)) :
    Fresh u ∧ SamePool t u := by
  let s : UndoLogEngine := { t with flushMode := determineFlushMode t }
  have hlisted : s.flushMode ≠ .wbinvd → ∀ block ∈ t.dirtyBlocks, Listed t block :=
    fun hmode block hin => (hq.listed block hin).resolve_right (not_full_of_mode hmode)
  refine Prog.run_of_wp (C := fun _ => True) (Q := fun _ u => Fresh u ∧ SamePool t u) ?_ hrun
  simp only [UndoLogEngine.checkpoint, Prog.wp_bind, Prog.wp_act, Prog.wp_read, true_and]
  split
  · rename_i hmode
    refine Prog.wp_pure.mpr ⟨⟨⟨hq.locks, hq.published, hq.space, hq.room, hq.listed⟩, ?_⟩, rfl, rfl⟩
    refine Finset.eq_empty_of_forall_notMem fun block hin => ?_
    exact determineFlushMode_noAction hmode block (hlisted (by simp [s, hmode]) block hin)
  · simp only [Prog.wp_bind]
    refine Prog.wp_mono (wp_flushSection nrThreads flushSchedule s) fun _ a ha => ?_
    obtain ⟨m, rfl, hm⟩ := ha
    refine Prog.wp_mono (wp_clearSection nrThreads clearSchedule _) fun _ b hb => ?_
    have hclean : b.dirtyBlocks = ∅ :=
      clean_of_cleared (t := { s with mem := m }) hpos hlisted hb
    have hsame := (hb 0 hpos).1.same
    refine Prog.wp_mono (wp_finishCheckpoint (fun _ => trivial) b) ?_
    rintro _ c ⟨hhead, hload, hlocks, hdirty, hpool⟩
    have hblocks : c.dirtyBlocks = ∅ := by
      rw [dirtyBlocks, hdirty, hpool.1]
      exact hclean
    have hpool' : SamePool t c :=
      SamePool.trans (u := b) ⟨by rw [hsame], by rw [hsame]⟩ hpool
    have hcapacity : 0 < c.logCapacity := by
      rw [hpool'.2]
      exact Nat.lt_of_le_of_lt (Nat.zero_le _) hq.room
    refine ⟨⟨⟨?_, hload.trans hhead.symm, ?_, hhead ▸ hcapacity, ?_⟩, hblocks⟩, hpool'⟩
    · rw [hlocks, hsame]
      exact hq.locks
    · rw [hhead, hblocks]
      rfl
    · intro block hin
      rw [hblocks] at hin
      cases hin

/-! ## Opening -/

theorem le_nrBlocksFor (optionCapacity : Nat) : 65536 ≤ nrBlocksFor optionCapacity := by
  have hmin : kMinContainerSize ≤ max optionCapacity kMinContainerSize := le_max_right ..
  have hshift : 65536 ≤ max optionCapacity kMinContainerSize >>> kBlockShift := by
    rw [Nat.shiftRight_eq_div_pow, Nat.le_div_iff_mul_le (by decide)]
    exact hmin
  unfold nrBlocksFor
  dsimp only
  split <;> omega

theorem fresh_construct (nrBlocks : Nat) {logCapacity : Nat} {mem : File}
    (hload : mem.load .logHead = 0) (hcapacity : 0 < logCapacity) :
    Fresh (construct nrBlocks logCapacity mem) := by
  have hclean : (construct nrBlocks logCapacity mem).dirtyBlocks = ∅ := by
    refine Finset.eq_empty_of_forall_notMem fun block hin => ?_
    have hbit := (mem_dirtyBlocks.mp hin).2
    simp [construct] at hbit
  refine ⟨⟨fun _ => rfl, hload, ?_, hcapacity, fun block hin => ?_⟩, hclean⟩
  · rw [hclean]
    rfl
  · rw [hclean] at hin
    cases hin

/-- Recovery writes the file only. -/
def OnlyMem (t u : UndoLogEngine) : Prop := ∃ m : File, u = { t with mem := m }

theorem OnlyMem.refl (t : UndoLogEngine) : OnlyMem t t := ⟨t.mem, rfl⟩

theorem OnlyMem.trans (h : OnlyMem t u) (h' : OnlyMem u v) : OnlyMem t v := by
  obtain ⟨m, rfl⟩ := h
  obtain ⟨m', rfl⟩ := h'
  exact ⟨m', rfl⟩

theorem onlyMem_recoverLoop (fuel cursor : Nat) : (recoverLoop fuel cursor).Within OnlyMem := by
  induction fuel generalizing cursor with
  | zero => trivial
  | succ fuel ih =>
      refine Prog.within_bind (Prog.within_read OnlyMem.refl _) fun head => ?_
      split
      · trivial
      · refine Prog.within_bind (Prog.within_read OnlyMem.refl _) fun magic => ?_
        split
        · trivial
        · refine Prog.within_bind (Prog.within_read OnlyMem.refl _) fun offset =>
            Prog.within_bind (Prog.within_read OnlyMem.refl _) fun size =>
              Prog.within_bind ?_ fun _ => ih _
          exact Prog.within_act.mpr fun t => ⟨_, rfl⟩

theorem wp_openExisting (s : UndoLogEngine) :
    Prog.wp (fun _ => True) openExisting (fun _ u => ∃ (m : File) (snapshot : Bool),
      u = { s with mem := m, hasSnapshot := snapshot } ∧ m.load .logHead = 0) s := by
  have hloop : ∀ fuel, Prog.wp (fun _ => True) (recoverLoop fuel 0)
      (fun _ u => OnlyMem s u) s := fun fuel =>
    Prog.wp_of_within OnlyMem.refl (fun _ _ _ => .trans) (fun _ _ _ _ => trivial)
      (onlyMem_recoverLoop fuel 0) trivial
  simp only [openExisting, recover, Prog.wp_bind, Prog.wp_read, Prog.wp_act, true_and]
  refine Prog.wp_mono (hloop _) ?_
  rintro _ _ ⟨m, rfl⟩
  exact ⟨_, _, rfl, rfl⟩

/-- The states of a pool of `optionCapacity` bytes in which an epoch begins. -/
inductive Begins (optionCapacity : Nat) : UndoLogEngine → Prop
  | new : Begins optionCapacity (openNew optionCapacity)
  | reopened {img : Image Loc fun _ => Nat} {t : UndoLogEngine}
      (hopen : openExisting.run (construct (nrBlocksFor optionCapacity)
        (nrBlocksFor optionCapacity <<< kBlockShift) (Memory.ofImage img)) = some ((), t)) :
      Begins optionCapacity t
  | checkpointed {t u v : UndoLogEngine} {calls : List Call} {nrThreads : Nat}
      {flushSchedule clearSchedule : List Nat} (hbegins : Begins optionCapacity t)
      (hcalls : ∀ call ∈ calls, call.InPool t.nrBlocks) (hepoch : (epoch calls).run t = some ((), u))
      (hpos : 0 < nrThreads)
      (hcheckpoint : (checkpoint nrThreads flushSchedule clearSchedule).run u = some ((), v)) :
      Begins optionCapacity v

theorem Begins.fresh {optionCapacity : Nat} (h : Begins optionCapacity t) :
    Fresh t ∧ t.nrBlocks = nrBlocksFor optionCapacity ∧
      t.logCapacity = nrBlocksFor optionCapacity * kBlockSize := by
  have hblocks := le_nrBlocksFor optionCapacity
  have hshift : nrBlocksFor optionCapacity <<< kBlockShift =
      nrBlocksFor optionCapacity * kBlockSize := Nat.shiftLeft_eq ..
  have hpos : 0 < nrBlocksFor optionCapacity <<< kBlockShift := by
    rw [hshift, kBlockSize_eq]
    omega
  induction h with
  | new => exact ⟨fresh_construct _ rfl hpos, rfl, hshift⟩
  | reopened hopen =>
      obtain ⟨m, snapshot, rfl, hload⟩ := Prog.run_of_wp (wp_openExisting _) hopen
      obtain ⟨⟨hlocks, hpub, hspace, hroom, hlisted⟩, hclean⟩ :=
        fresh_construct (nrBlocksFor optionCapacity) hload hpos
      exact ⟨⟨⟨hlocks, hpub, hspace, hroom, hlisted⟩, hclean⟩, rfl, hshift⟩
  | checkpointed hbegins hcalls hepoch hpos' hcheckpoint ih =>
      rcases epoch_cases ih.1.toQuiet hcalls with ⟨hexits, -⟩ | ⟨u, hu, hq, hpool, -⟩
      · rw [Prog.run_of_exits hexits] at hepoch
        cases hepoch
      · obtain rfl := congrArg Prod.snd (Option.some.inj (hu.symm.trans hepoch))
        obtain ⟨hfresh, hpool'⟩ := hq.checkpoint hpos' hcheckpoint
        have hsame := hpool.trans hpool'
        exact ⟨hfresh, hsame.1.trans ih.2.1, hsame.2.trans ih.2.2⟩

/-! ## The capacity of the log -/

/-- However many blocks of the pool are hooked, the process is not terminated. -/
def LogSuffices (t : UndoLogEngine) : Prop :=
  ∀ calls : List Call, (∀ call ∈ calls, call.InPool t.nrBlocks) → ¬ (epoch calls).Exits t

/-- One hook for each of the first `n` blocks of a pool. -/
def hookAll (n : Nat) : List Call :=
  (List.range n).map fun block => .hook 0 (block * kBlockSize)

theorem hookAll_inPool {n nrBlocks : Nat} (h : n ≤ nrBlocks) :
    ∀ call ∈ hookAll n, call.InPool nrBlocks := by
  intro call hin
  obtain ⟨block, hblock, rfl⟩ := List.mem_map.mp hin
  have hlt : block < nrBlocks := Nat.lt_of_lt_of_le (List.mem_range.mp hblock) h
  exact ⟨by decide, Nat.mul_lt_mul_of_pos_right hlt (by decide)⟩

theorem card_hookAll (n : Nat) : (hookedBlocks (hookAll n)).card = n := by
  have hblocks : (hookAll n).filterMap Call.block? = List.range n := by
    rw [hookAll, List.filterMap_map]
    refine (List.filterMap_congr fun block _ => ?_).trans List.filterMap_some
    change some ((block * kBlockSize) >>> kBlockShift) = some block
    rw [Nat.shiftRight_eq_div_pow, kBlockSize_eq]
    exact congrArg some (Nat.mul_div_cancel block (by decide))
  rw [hookedBlocks, hblocks, List.toFinset_card_of_nodup List.nodup_range, List.length_range]

/-- An epoch terminates the process exactly if the entries of the blocks it hooks take as
many bytes as the pool has; otherwise it returns. -/
theorem epoch_exits_iff {optionCapacity : Nat} {calls : List Call} (h : Begins optionCapacity t)
    (hcalls : ∀ call ∈ calls, call.InPool t.nrBlocks) :
    ((epoch calls).Exits t ↔
      nrBlocksFor optionCapacity * kBlockSize ≤ logSize * (hookedBlocks calls).card) ∧
    (¬ (epoch calls).Exits t → ∃ u, (epoch calls).run t = some ((), u)) := by
  obtain ⟨hfresh, -, hcapacity⟩ := h.fresh
  have hunion : t.dirtyBlocks ∪ hookedBlocks calls = hookedBlocks calls := by
    rw [hfresh.clean, Finset.empty_union]
  rcases epoch_cases hfresh.toQuiet hcalls with ⟨hexits, hfull⟩ | ⟨u, hu, hq, hpool, hdirty⟩
  · rw [hunion, hcapacity] at hfull
    exact ⟨iff_of_true hexits hfull, fun hno => absurd hexits hno⟩
  · refine ⟨iff_of_false (fun hexits => ?_) (Nat.not_le.mpr ?_), fun _ => ⟨u, hu⟩⟩
    · rw [Prog.run_of_exits hexits] at hu
      cases hu
    · rw [← hunion, ← hdirty, ← hq.space, ← hcapacity, ← hpool.2]
      exact hq.room

/-- Four fifths of the blocks of the smallest pool fit into its log, one more does not. -/
theorem epoch_exits_iff_boundary :
    (∃ u, (epoch (hookAll 52428)).run (openNew 0) = some ((), u)) ∧
      (epoch (hookAll 52429)).Exits (openNew 0) := by
  have hbegins : Begins 0 (openNew 0) := .new
  have hexits : ∀ n, n ≤ (openNew 0).nrBlocks →
      ((epoch (hookAll n)).Exits (openNew 0) ↔ nrBlocksFor 0 * kBlockSize ≤ logSize * n) ∧
      (¬ (epoch (hookAll n)).Exits (openNew 0) →
        ∃ u, (epoch (hookAll n)).run (openNew 0) = some ((), u)) := by
    intro n hn
    have hiff := epoch_exits_iff hbegins (hookAll_inPool hn)
    rwa [card_hookAll] at hiff
  have hfits := hexits 52428 (by decide)
  have hfull := hexits 52429 (by decide)
  have hroom : ¬ nrBlocksFor 0 * kBlockSize ≤ logSize * 52428 := by decide
  refine ⟨hfits.2 (mt hfits.1.mp hroom), ?_⟩
  rw [hfull.1]
  decide

theorem exits_hookAll {optionCapacity : Nat} (h : Begins optionCapacity t) :
    (epoch (hookAll t.nrBlocks)).Exits t := by
  obtain ⟨hfresh, hblocks, hcapacity⟩ := h.fresh
  rcases epoch_cases hfresh.toQuiet (hookAll_inPool (Nat.le_refl _)) with
    ⟨hexits, -⟩ | ⟨u, -, hq, hpool, hdirty⟩
  · exact hexits
  · have hroom := hq.room
    rw [hpool.2, hcapacity, hq.space, hdirty, hfresh.clean, Finset.empty_union, card_hookAll,
      hblocks, kBlockSize_eq, logSize_eq] at hroom
    omega

theorem not_logSuffices :
    ¬ ∀ (optionCapacity : Nat) (t : UndoLogEngine), Begins optionCapacity t → LogSuffices t := by
  intro hall
  have hno : ∀ {t : UndoLogEngine}, Begins 0 t → ¬ LogSuffices t := fun h hsuffices =>
    hsuffices _ (hookAll_inPool (Nat.le_refl _)) (exits_hookAll h)
  exact hno .new (hall 0 _ .new)

end Libcrpm.UndoLogEngine
