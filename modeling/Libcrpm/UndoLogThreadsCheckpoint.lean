import Libcrpm.UndoLogCapacity
import Libcrpm.UndoLogThreadsRuns

/-!
# Checkpoints of the undo log engine between its epochs

Between two epochs the blocks that were logged are on the flush lists unless one of them is full.
A checkpoint makes the data durable first, then it empties the log: whatever a crash leaves restores
the data of the checkpoint if the log is empty, and the data of the one before otherwise.
-/

namespace Libcrpm.UndoLogEngine.Threads

open Libcrpm.Persistence Libcrpm.Program

variable {X : Nat → Nat} {slots : List Nat} {s s' u v : Threads} {t b : Nat} {p : HookPc}

/-! ## The flush lists -/

/-- The thread is between the bit of the block and its flush list. -/
def Unlisted (s : Threads) (b : Nat) : Prop := ∃ t, s.pc t = .release b ∨ s.pc t = .record b

def ListInv (s : Threads) : Prop :=
  ∀ b, s.blockDirty.test b = true →
    FlushLists.Listed s.flushBlocks b ∨ FlushLists.Full s.flushBlocks ∨ Unlisted s b

theorem Fresh.listInv (h : Fresh X s) : ListInv s := by
  intro b hdirty
  rw [h.clean b] at hdirty
  cases hdirty

theorem ListInv.keep (h : ListInv s) (hdirty : s'.blockDirty = s.blockDirty)
    (hlists : s'.flushBlocks = s.flushBlocks) (hother : ∀ t' ≠ t, s'.pc t' = s.pc t')
    (hown : ∀ b, s.pc t ≠ .release b ∧ s.pc t ≠ .record b) : ListInv s' := by
  intro b hb
  rw [hdirty] at hb
  rw [hlists]
  rcases h b hb with hlisted | hfull | ⟨t', hpc⟩
  · exact Or.inl hlisted
  · exact Or.inr (Or.inl hfull)
  · refine Or.inr (Or.inr ⟨t', ?_⟩)
    by_cases ht : t' = t
    · subst ht
      exact absurd hpc (not_or.mpr (hown b))
    · rwa [hother t' ht]

theorem ListInv.setDirty (h : ListInv s) (hpc : s.pc t = .setDirty b) :
    ListInv ({ s with blockDirty := s.blockDirty.set b }.goto t (.release b)) := by
  intro b' hb'
  have hcases : b' = b ∨ s.blockDirty.test b' = true := by
    have hset : (s.blockDirty.set b).test b' = true := hb'
    rwa [AtomicBitSet.test_set, Bool.or_eq_true, decide_eq_true_iff] at hset
  rcases hcases with rfl | hold
  · exact Or.inr (Or.inr ⟨t, Or.inl (goto_pc_self ..)⟩)
  · rcases h b' hold with hlisted | hfull | ⟨t', hpc'⟩
    · exact Or.inl hlisted
    · exact Or.inr (Or.inl hfull)
    · refine Or.inr (Or.inr ⟨t', ?_⟩)
      have ht : t' ≠ t := by
        rintro rfl
        rw [hpc] at hpc'
        rcases hpc' with hpc' | hpc' <;> cases hpc'
      rwa [goto_pc_of_ne _ _ _ ht]

theorem ListInv.release (h : ListInv s) (hpc : s.pc t = .release b) :
    ListInv ((s.setLock b false).goto t (.record b)) := by
  intro b' hb'
  rcases h b' hb' with hlisted | hfull | ⟨t', hpc'⟩
  · exact Or.inl hlisted
  · exact Or.inr (Or.inl hfull)
  · by_cases ht : t' = t
    · subst ht
      obtain rfl : b' = b := by
        rw [hpc] at hpc'
        rcases hpc' with hpc' | hpc'
        · exact (HookPc.release.inj hpc').symm
        · cases hpc'
      exact Or.inr (Or.inr ⟨t', Or.inr (goto_pc_self ..)⟩)
    · refine Or.inr (Or.inr ⟨t', ?_⟩)
      rwa [goto_pc_of_ne _ _ _ ht]

theorem ListInv.record (h : ListInv s) (ht : t < kMaxThreads) (hpc : s.pc t = .record b) :
    ListInv ((s.recordBlock t b).ret t b) := by
  intro b' hb'
  rcases h b' hb' with hlisted | hfull | ⟨t', hpc'⟩
  · exact Or.inl hlisted.append
  · exact Or.inr (Or.inl hfull.append)
  · by_cases heq : t' = t
    · subst heq
      obtain rfl : b' = b := by
        rw [hpc] at hpc'
        rcases hpc' with hpc' | hpc'
        · cases hpc'
        · exact (HookPc.record.inj hpc').symm
      exact (FlushLists.listed_append ht s.flushBlocks b').imp id Or.inl
    · refine Or.inr (Or.inr ⟨t', ?_⟩)
      rwa [ret_pc_of_ne _ _ _ heq]

theorem hookStep_frame (hstep : s.hookStep t = some s')
    (hown : ∀ b, s.pc t ≠ .setDirty b ∧ s.pc t ≠ .release b ∧ s.pc t ≠ .record b) :
    s'.blockDirty = s.blockDirty ∧ s'.flushBlocks = s.flushBlocks ∧
      ∀ t' ≠ t, s'.pc t' = s.pc t' := by
  unfold Threads.hookStep at hstep
  cases hpc : s.pc t with
  | setDirty b => exact absurd hpc (hown b).1
  | release b => exact absurd hpc (hown b).2.1
  | record b => exact absurd hpc (hown b).2.2
  | acquire b =>
      rw [hpc] at hstep
      dsimp only at hstep
      split at hstep
      · cases hstep
      · obtain rfl := Option.some.inj hstep
        exact ⟨rfl, rfl, fun _ ht => Function.update_of_ne ht _ _⟩
  | _ =>
      rw [hpc] at hstep
      first
      | cases hstep; done
      | obtain rfl := Option.some.inj hstep
        first
        | exact ⟨rfl, rfl, fun _ ht => Function.update_of_ne ht _ _⟩
        | split <;> exact ⟨rfl, rfl, fun _ ht => Function.update_of_ne ht _ _⟩

theorem ListInv.hookStep (h : ListInv s) (ht : t < kMaxThreads) (hstep : s.hookStep t = some s') :
    ListInv s' := by
  by_cases hown : ∀ b, s.pc t ≠ .setDirty b ∧ s.pc t ≠ .release b ∧ s.pc t ≠ .record b
  · obtain ⟨hdirty, hlists, hother⟩ := hookStep_frame hstep hown
    exact h.keep hdirty hlists hother fun b => (hown b).2
  · unfold Threads.hookStep at hstep
    cases hpc : s.pc t with
    | setDirty b =>
        rw [hpc] at hstep
        obtain rfl := Option.some.inj hstep
        exact h.setDirty hpc
    | release b =>
        rw [hpc] at hstep
        obtain rfl := Option.some.inj hstep
        exact h.release hpc
    | record b =>
        rw [hpc] at hstep
        obtain rfl := Option.some.inj hstep
        exact h.record ht hpc
    | _ => exact absurd (fun b => by simp [hpc]) hown

/-! ## Blocks of the pool -/

/-- No other blocks are hooked. -/
structure BoundInv (s : Threads) : Prop where
  block : ∀ t b, (s.pc t).block = some b → b < s.nrBlocks
  dirty : ∀ b, s.blockDirty.test b = true → b < s.nrBlocks

theorem hookStep_block (hstep : s.hookStep t = some s') :
    s'.nrBlocks = s.nrBlocks ∧
      (∃ p : HookPc, s'.pc = Function.update s.pc t p ∧
        ∀ b, p.block = some b → (s.pc t).block = some b) ∧
      (s'.blockDirty = s.blockDirty ∨
        ∃ b, (s.pc t).block = some b ∧ s'.blockDirty = s.blockDirty.set b) := by
  unfold Threads.hookStep at hstep
  cases hpc : s.pc t with
  | setDirty b =>
      rw [hpc] at hstep
      obtain rfl := Option.some.inj hstep
      exact ⟨rfl, ⟨_, rfl, fun _ => id⟩, Or.inr ⟨b, rfl, rfl⟩⟩
  | acquire b =>
      rw [hpc] at hstep
      dsimp only at hstep
      split at hstep
      · cases hstep
      · obtain rfl := Option.some.inj hstep
        exact ⟨rfl, ⟨_, rfl, fun _ => id⟩, Or.inl rfl⟩
  | _ =>
      rw [hpc] at hstep
      first
      | cases hstep; done
      | obtain rfl := Option.some.inj hstep
        first
        | exact ⟨rfl, ⟨_, rfl, fun _ => id⟩, Or.inl rfl⟩
        | exact ⟨rfl, ⟨_, rfl, by rintro _ ⟨⟩⟩, Or.inl rfl⟩
        | split <;> first
            | exact ⟨rfl, ⟨_, rfl, fun _ => id⟩, Or.inl rfl⟩
            | exact ⟨rfl, ⟨_, rfl, by rintro _ ⟨⟩⟩, Or.inl rfl⟩

theorem BoundInv.hookStep (h : BoundInv s) (hstep : s.hookStep t = some s') : BoundInv s' := by
  obtain ⟨hblocks, ⟨p, hpcs, hp⟩, hdirty⟩ := hookStep_block hstep
  constructor
  · intro t' b hb
    rw [hpcs] at hb
    rw [hblocks]
    by_cases ht : t' = t
    · subst ht
      rw [Function.update_self] at hb
      exact h.block t' b (hp b hb)
    · rw [Function.update_of_ne ht] at hb
      exact h.block t' b hb
  · intro b hb
    rw [hblocks]
    rcases hdirty with hsame | ⟨b', hb', hset⟩
    · exact h.dirty b (hsame ▸ hb)
    · rw [hset, AtomicBitSet.test_set, Bool.or_eq_true, decide_eq_true_iff] at hb
      rcases hb with rfl | hold
      · exact h.block t b hb'
      · exact h.dirty b hold

def Label.tid : Label → Nat
  | .call tid _ | .hook tid | .store tid _ _ => tid

theorem step_pc_of_ne {l : Label} (h : step l s = some s') (ht : t ≠ l.tid) : s'.pc t = s.pc t := by
  cases l with
  | hook t' =>
      obtain ⟨-, ⟨p, hpcs, -⟩, -⟩ := hookStep_block h
      rw [hpcs]
      exact Function.update_of_ne ht _ _
  | call t' addr =>
      rw [Threads.step] at h
      split at h
      · obtain rfl := Option.some.inj h
        exact goto_pc_of_ne _ _ _ ht
      · cases h
  | store t' o value =>
      rw [Threads.step] at h
      split at h
      · obtain rfl := Option.some.inj h
        rfl
      · cases h

theorem exec_pc_of_ne {s₀ : Threads} {labels : List Label} (h : (epoch s₀).exec labels s = some u)
    (ht : ∀ l ∈ labels, t ≠ l.tid) : u.pc t = s.pc t := by
  induction labels generalizing s with
  | nil =>
      obtain rfl := Option.some.inj h
      rfl
  | cons l rest ih =>
      obtain ⟨v, hv, hrest⟩ := Option.bind_eq_some_iff.mp h
      have hpc := ih hrest fun l' hl' => ht l' (List.mem_cons_of_mem _ hl')
      exact hpc.trans (step_pc_of_ne hv (ht l List.mem_cons_self))

theorem ListInv.step (h : ListInv s) {l : Label} (hl : l.tid < kMaxThreads)
    (hstep : step l s = some s') : ListInv s' := by
  cases l with
  | hook t => exact h.hookStep hl hstep
  | call t addr =>
      rw [Threads.step] at hstep
      split at hstep
      · rename_i hcall
        obtain rfl := Option.some.inj hstep
        refine h.keep rfl rfl (fun _ ht => Function.update_of_ne ht _ _) fun b => ?_
        rw [hcall.1]
        exact ⟨by simp, by simp⟩
      · cases hstep
  | store t o value =>
      rw [Threads.step] at hstep
      split at hstep
      · obtain rfl := Option.some.inj hstep
        exact h
      · cases hstep

theorem BoundInv.step (h : BoundInv s) {l : Label} (hstep : step l s = some s') : BoundInv s' := by
  cases l with
  | hook t => exact h.hookStep hstep
  | call t addr =>
      rw [Threads.step] at hstep
      split at hstep
      · rename_i hcall
        obtain rfl := Option.some.inj hstep
        refine ⟨fun t' b hb => ?_, h.dirty⟩
        by_cases ht : t' = t
        · subst ht
          rw [goto_pc_self] at hb
          obtain rfl := Option.some.inj hb
          have hlt : addr < s.nrBlocks * 2 ^ kBlockShift := Nat.shiftLeft_eq .. ▸ hcall.2
          change addr >>> kBlockShift < s.nrBlocks
          rw [Nat.shiftRight_eq_div_pow]
          exact Nat.div_lt_of_lt_mul (by rwa [Nat.mul_comm])
        · rw [goto_pc_of_ne _ _ _ ht] at hb
          exact h.block t' b hb
      · cases hstep
  | store t o value =>
      rw [Threads.step] at hstep
      split at hstep
      · obtain rfl := Option.some.inj hstep
        exact ⟨h.block, h.dirty⟩
      · cases hstep

def Admitted (l : Label) (_ : Threads) : Prop := l.tid < kMaxThreads

/-- What holds in every epoch whose last checkpoint contained `X`. -/
structure EpochInv (X : Nat → Nat) (s : Threads) : Prop where
  inv : ∃ slots, Inv X slots s
  lists : ListInv s
  bound : BoundInv s

theorem Fresh.epochInv (h : Fresh X s) : EpochInv X s where
  inv := ⟨[], h.inv⟩
  lists := h.listInv
  bound := by
    constructor
    · intro t b hb
      rw [h.idle t] at hb
      cases hb
    · intro b hb
      rw [h.clean b] at hb
      cases hb

theorem EpochInv.reaches {s₀ : Threads} (hs₀ : EpochInv X s₀)
    (h : (epoch s₀).Reaches Admitted s) : EpochInv X s := by
  refine h.invariant (I := EpochInv X) hs₀ fun s l s' hs hl hstep => ?_
  obtain ⟨slots, hinv⟩ := hs.inv
  exact ⟨hinv.step hstep, hs.lists.step hl hstep, hs.bound.step hstep⟩

/-! ## What a crash of a checkpoint leaves -/

/-- The log is empty and the data is that of this checkpoint, or the log restores the data of the
one before. -/
def Restores (X Y : Nat → Nat) (m : SharedMemory Loc Nat) : Prop :=
  ∀ img, m.CrashTo img → LogImage (if img .logHead = 0 then Y else X) img

theorem Restores.drains {m m' : SharedMemory Loc Nat} (h : Restores X Y m) (hm : m.Drains m') :
    Restores X Y m' :=
  fun img hc => h img (hm.crashTo hc)

/-- The log is only empty while nothing has changed. -/
theorem Inv.restores (h : Inv X slots s) (hY : ∀ o, s.mem.load (.data o) = Y o) : Restores X Y s.mem := by
  intro img hc
  have himage := h.logImage hc
  split
  · rename_i hzero
    refine logImage_of_empty hzero fun o => ?_
    rcases h.log.data o with hdurable | ⟨k, -, hcovered⟩
    · have heq : X o = Y o := hdurable.load.symm.trans (hY o)
      exact (hdurable.may (hc _)).trans heq
    · have hle : logSize * (k + 1) ≤ img .logHead := hcovered.may (hc .logHead)
      rw [hzero, logSize_eq] at hle
      omega
  · exact himage

theorem Restores.attributes {m : SharedMemory Loc Nat} (h : Restores X Y m) (tid value : Nat) :
    Restores X Y (m.ntStore tid .attributes value) := by
  intro img hc
  have hcrash : m.CrashTo (Function.update img .attributes (m.load .attributes)) := by
    intro l
    by_cases hl : l = .attributes
    · subst hl
      rw [Function.update_self]
      exact SharedMemory.crashTo_load m _
    · rw [Function.update_of_ne hl, ← SharedMemory.ntStore_of_ne m tid value hl]
      exact hc l
  obtain ⟨blocks, hhead, hentries, hdata⟩ := h _ hcrash
  exact ⟨blocks, hhead, hentries, hdata⟩

/-- The data is durable when the log is emptied. -/
theorem Restores.empty {m : SharedMemory Loc Nat} (h : Restores X Y m)
    (hdata : ∀ o, (m (.data o)).Durably (· = Y o)) (tid : Nat) :
    Restores X Y (m.ntStore tid .logHead 0) := by
  intro img hc
  have hother : ∀ l, l ≠ .logHead → (m l).May (img l) := by
    intro l hl
    rw [← SharedMemory.ntStore_of_ne m tid 0 hl]
    exact hc l
  by_cases hzero : img .logHead = 0
  · rw [if_pos hzero]
    exact logImage_of_empty hzero fun o => (hdata o).may (hother _ (by simp))
  · refine h img fun l => ?_
    by_cases hl : l = .logHead
    · subst hl
      have hhead := hc .logHead
      rw [SharedMemory.ntStore_self] at hhead
      exact hhead.of_ntStore hzero
    · exact hother l hl

/-! ## A checkpoint -/

def content (s : Threads) : Nat → Nat := fun o => s.mem.load (.data o)

def SameHeader (s u : Threads) : Prop :=
  u.mem = s.mem ∧ u.logHead = s.logHead ∧ u.hasSnapshot = s.hasSnapshot

/-- What threads do behind the barrier of `flush_parallel`. -/
structure Ends (guarded : Prop) (s u : Threads) : Prop where
  same : u = { s with
    mem := u.mem
    logHead := u.logHead
    hasSnapshot := u.hasSnapshot
    blockDirty := u.blockDirty
    flushBlocks := u.flushBlocks }
  clear : ClearStep guarded s.clearView u.clearView

/-- What all of them but the leader do. -/
def Clears (guarded : Prop) (s u : Threads) : Prop := Ends guarded s u ∧ SameHeader s u

section End

variable {guarded : Prop}

theorem Ends.refl (s : Threads) : Ends guarded s s := ⟨rfl, .refl _⟩

theorem Ends.trans (h : Ends guarded s u) (h' : Ends guarded u v) : Ends guarded s v where
  same := by rw [h'.same, h.same]
  clear := h.clear.trans h'.clear

theorem Clears.refl (s : Threads) : Clears guarded s s := ⟨.refl s, rfl, rfl, rfl⟩

theorem Clears.trans (h : Clears guarded s u) (h' : Clears guarded u v) : Clears guarded s v := by
  obtain ⟨hends, hmem, hhead, hsnapshot⟩ := h
  obtain ⟨hends', hmem', hhead', hsnapshot'⟩ := h'
  exact ⟨hends.trans hends', hmem'.trans hmem, hhead'.trans hhead, hsnapshot'.trans hsnapshot⟩

theorem clearView_setBlocks {a : UndoLogEngine} (h : ClearStep guarded s.clearView a) :
    (s.setBlocks a).clearView = a := by
  rw [h.same]
  rfl

theorem clears_setBlocks {a : UndoLogEngine} (h : ClearStep guarded s.clearView a) :
    Clears guarded s (s.setBlocks a) :=
  ⟨⟨rfl, (clearView_setBlocks h).symm ▸ h⟩, rfl, rfl, rfl⟩

theorem rg_clearDirtyBits (i nrThreads : Nat) {R : Threads → Threads → Prop}
    (hR : ∀ a b, R a b → Ends (s.flushMode ≠ .wbinvd) a b) :
    (clearDirtyBitsParallel i nrThreads).rg R (Clears (s.flushMode ≠ .wbinvd))
      (fun _ u => ClearStep (s.flushMode ≠ .wbinvd) s.clearView u.clearView ∧
        Cleared i nrThreads s.clearView u.clearView) s :=
  Prog.rg_through_frame (fun _ _ => clearView_setBlocks) (fun a b h => (hR a b h).clear)
    (fun _ _ => clears_setBlocks) (rg_clearDirtyBitsParallel i nrThreads s.clearView)

/-- What the leader has written so far. -/
structure Written (guarded : Prop) (s : Threads) (m : SharedMemory Loc Nat) (head : Nat)
    (snapshot : Bool) (u : Threads) : Prop where
  ends : Ends guarded s u
  mem : u.mem = m
  head : u.logHead = head
  snapshot : u.hasSnapshot = snapshot

variable {C : SharedMemory Loc Nat → Prop} {m m' : SharedMemory Loc Nat} {head head' : Nat}
  {snapshot snapshot' : Bool}

theorem Written.clears (h : Written guarded s m head snapshot u) (hv : Clears guarded u v) :
    Written guarded s m head snapshot v where
  ends := h.ends.trans hv.1
  mem := hv.2.1.trans h.mem
  head := hv.2.2.1.trans h.head
  snapshot := hv.2.2.2.trans h.snapshot

/-- The leader writes while the others clear. -/
theorem rg_write {f : Threads → Threads}
    (hf : ∀ u, Written guarded s m head snapshot u → Ends guarded u (f u) ∧ (f u).mem = m' ∧
      (f u).logHead = head' ∧ (f u).hasSnapshot = snapshot')
    (hC : C m') (h : Written guarded s m head snapshot u) :
    (Prog.act f).rg (Clears guarded) (fun a b => Ends guarded a b ∧ (C a.mem → C b.mem))
      (fun _ v => Written guarded s m' head' snapshot' v) u := by
  refine Prog.rg_act fun a ha => ?_
  have hwritten := h.clears ha
  obtain ⟨hends, hmem, hhead, hsnapshot⟩ := hf a hwritten
  refine ⟨⟨hends, fun _ => hmem ▸ hC⟩, fun b hb => ?_⟩
  exact Written.clears ⟨hwritten.ends.trans hends, hmem, hhead, hsnapshot⟩ hb

theorem rg_writeMem (f : SharedMemory Loc Nat → SharedMemory Loc Nat) (hC : C (f m))
    (h : Written guarded s m head snapshot u) :
    (Prog.act (onMem f)).rg (Clears guarded) (fun a b => Ends guarded a b ∧ (C a.mem → C b.mem))
      (fun _ v => Written guarded s (f m) head snapshot v) u :=
  rg_write (fun _ ha => ⟨⟨rfl, .refl _⟩, congrArg f ha.mem, ha.head, ha.snapshot⟩) hC h

/-- The leader's part is atomic with the store that empties the log. -/
theorem rg_finishCheckpoint (h : Restores X Y s.mem)
    (hdata : ∀ o, (s.mem (.data o)).Durably (· = Y o))
    (hu : Written guarded s s.mem s.logHead s.hasSnapshot u) :
    finishCheckpoint.rg (Clears guarded)
      (fun a b => Ends guarded a b ∧ (Restores X Y a.mem → Restores X Y b.mem))
      (fun _ v => Ends guarded s v ∧ v.logHead = 0 ∧ (v.mem .logHead).Durably (· = 0) ∧
        ∀ o, (v.mem (.data o)).Durably (· = Y o)) u := by
  -- From the store to the head on.
  have hrest : ∀ (m : SharedMemory Loc Nat) (snapshot : Bool) (w : Threads), Restores X Y m →
      (∀ o, (m (.data o)).Durably (· = Y o)) → Written guarded s m s.logHead snapshot w →
      Prog.rg (Clears guarded)
        (fun a b => Ends guarded a b ∧ (Restores X Y a.mem → Restores X Y b.mem))
        (do
          Prog.act (onMem fun m => m.ntStore 0 .logHead 0)
          Prog.act (onMem fun m => m.fence 0)
          Prog.act fun s => { s with logHead := 0 })
        (fun _ v => Ends guarded s v ∧ v.logHead = 0 ∧ (v.mem .logHead).Durably (· = 0) ∧
          ∀ o, (v.mem (.data o)).Durably (· = Y o)) w := by
    intro m snapshot w hm hdurable hw
    have hempty := hm.empty hdurable 0
    have hfenced := hempty.drains (SharedMemory.drains_fence _ 0)
    refine Prog.rg_bind .refl (Prog.rg_mono (rg_writeMem _ hempty hw) fun _ a ha => ?_)
    refine Prog.rg_bind .refl (Prog.rg_mono (rg_writeMem _ hfenced ha) fun _ b hb => ?_)
    refine Prog.rg_mono (rg_write (fun a ha =>
      ⟨⟨rfl, .refl _⟩, ha.mem, rfl, ha.snapshot⟩) hfenced hb) fun _ v hv => ?_
    refine ⟨hv.ends, hv.head, ?_, fun o => ?_⟩
    · have hcell : m.ntStore 0 .logHead 0 .logHead = (m .logHead).ntStore 0 0 :=
        SharedMemory.ntStore_self _ _ _ _
      have hpending := SharedCell.pending_ntStore (m .logHead) 0 (v := 0) (p := (· = 0)) rfl
      rw [← hcell] at hpending
      exact hv.mem ▸ hpending.fence
    · have hcell : m.ntStore 0 .logHead 0 (.data o) = m (.data o) :=
        SharedMemory.ntStore_of_ne _ _ _ (by simp)
      have hold := hdurable o
      rw [← hcell] at hold
      exact hv.mem ▸ hold.fence 0
  refine Prog.rg_bind .refl (Prog.rg_read fun a ha => ⟨⟨.refl a, id⟩, fun b hb => ?_⟩)
  have hb' : Written guarded s s.mem s.logHead s.hasSnapshot b := (hu.clears ha).clears hb
  split
  · exact hrest s.mem s.hasSnapshot b h hdata hb'
  · have hattributes := h.attributes 0 kAttributeHasSnapshot
    refine Prog.rg_bind .refl (Prog.rg_mono (rg_writeMem _ hattributes hb') fun _ c hc => ?_)
    refine Prog.rg_bind .refl (Prog.rg_mono (rg_write (fun d hd =>
      ⟨⟨rfl, .refl _⟩, hd.mem, hd.head, rfl⟩) hattributes hc) fun _ d hd => ?_)
    refine hrest _ true d hattributes (fun o => ?_) hd
    have hcell : s.mem.ntStore 0 .attributes kAttributeHasSnapshot (.data o) = s.mem (.data o) :=
      SharedMemory.ntStore_of_ne _ _ _ (by simp)
    have hold := hdata o
    rw [← hcell] at hold
    exact hold

/-- What the leader has done when it returns. -/
def Emptied (guarded : Prop) (Y : Nat → Nat) (s u : Threads) : Prop :=
  Ends guarded s u ∧ u.logHead = 0 ∧ (u.mem .logHead).Durably (· = 0) ∧
    ∀ o, (u.mem (.data o)).Durably (· = Y o)

/-- What a thread may expect of the others: the leader, that none of them writes the header. -/
def Rely (guarded : Prop) : Nat → Threads → Threads → Prop
  | 0 => Clears guarded
  | _ + 1 => Ends guarded

def Guarantee (guarded : Prop) (C : SharedMemory Loc Nat → Prop) : Nat → Threads → Threads → Prop
  | 0 => fun a b => Ends guarded a b ∧ (C a.mem → C b.mem)
  | _ + 1 => Clears guarded

theorem Rely.ends {i : Nat} (h : Rely guarded i u v) : Ends guarded u v := by
  cases i with
  | zero => exact h.1
  | succ i => exact h

theorem Rely.refl (i : Nat) (s : Threads) : Rely guarded i s s := by
  cases i with
  | zero => exact Clears.refl s
  | succ i => exact Ends.refl s

theorem Rely.trans {i : Nat} (h : Rely guarded i s u) (h' : Rely guarded i u v) :
    Rely guarded i s v := by
  cases i with
  | zero => exact Clears.trans h h'
  | succ i => exact Ends.trans h h'

theorem Guarantee.rely {i j : Nat} (h : Guarantee guarded C j u v) (hne : i ≠ j) :
    Rely guarded i u v := by
  cases j with
  | zero =>
      cases i with
      | zero => exact absurd rfl hne
      | succ i => exact h.1
  | succ j =>
      cases i with
      | zero => exact h
      | succ i => exact h.1

theorem Guarantee.keeps {i : Nat} (h : Guarantee guarded C i u v) (hu : C u.mem) : C v.mem := by
  cases i with
  | zero => exact h.2 hu
  | succ i => exact h.2.1 ▸ hu

theorem guarantee_of_clears (i : Nat) (h : Clears guarded u v) : Guarantee guarded C i u v := by
  cases i with
  | zero => exact ⟨h.1, fun hu => h.2.1 ▸ hu⟩
  | succ i => exact h

end End

theorem Cleared.ends {guarded : Prop} {i nrThreads : Nat} {a : UndoLogEngine}
    (h : Cleared i nrThreads a u.clearView) (hv : Ends guarded u v) :
    Cleared i nrThreads a v.clearView :=
  ⟨fun id hid => hv.clear.emptied (h.1 id hid),
    fun hmode w hw block hblock => hv.clear.clean block (h.2 hmode w hw block hblock)⟩

theorem rg_endCheckpoint (i nrThreads : Nat) (h : Restores X Y s.mem)
    (hdata : ∀ o, (s.mem (.data o)).Durably (· = Y o)) :
    (endCheckpoint i nrThreads).rg (Rely (s.flushMode ≠ .wbinvd) i)
      (Guarantee (s.flushMode ≠ .wbinvd) (Restores X Y) i)
      (fun _ u => (ClearStep (s.flushMode ≠ .wbinvd) s.clearView u.clearView ∧
          Cleared i nrThreads s.clearView u.clearView) ∧
        (i = 0 → Emptied (s.flushMode ≠ .wbinvd) Y s u)) s := by
  have hclear := rg_clearDirtyBits (s := s) i nrThreads
    (R := Rely (s.flushMode ≠ .wbinvd) i) fun _ _ h => h.ends
  cases i with
  | succ i =>
      refine Prog.rg_bind (Rely.refl _) (Prog.rg_mono hclear fun _ u hu => ?_)
      rw [if_neg (Nat.succ_ne_zero i)]
      intro v hv
      refine ⟨⟨hu.1.trans (Rely.ends hv).clear, Cleared.ends hu.2 (Rely.ends hv)⟩, fun hzero => ?_⟩
      cases hzero
  | zero =>
      have hown := Prog.rg_within (S := Clears (s.flushMode ≠ .wbinvd)) (i := s)
        (fun _ _ _ => Clears.trans) (fun _ _ hab => hab) (fun _ _ hab => hab) (.refl s) hclear
      refine Prog.rg_bind (Rely.refl _) (Prog.rg_mono
        (Prog.rg_weaken (fun _ _ => guarantee_of_clears 0) hown) fun _ u hu => ?_)
      obtain ⟨⟨hstep, hcleared⟩, hends, hmem, hhead, hsnapshot⟩ := hu
      rw [if_pos rfl]
      have hfinish := Prog.rg_within (S := Ends (s.flushMode ≠ .wbinvd)) (i := u)
        (fun _ _ _ => Ends.trans) (fun _ _ hab => hab.1) (fun _ _ hab => hab.1) (.refl u)
        (rg_finishCheckpoint h hdata ⟨hends, hmem, hhead, hsnapshot⟩)
      refine Prog.rg_mono hfinish fun _ v hv => ⟨?_, fun _ => hv.1⟩
      exact ⟨hstep.trans hv.2.clear, Cleared.ends hcleared hv.2⟩

theorem wp_endSection {nrThreads : Nat} (hpos : 0 < nrThreads) (schedule : List Nat)
    (h : Restores X Y s.mem) (hdata : ∀ o, (s.mem (.data o)).Durably (· = Y o)) :
    Prog.wp (fun u : Threads => Restores X Y u.mem)
      (Prog.par nrThreads schedule fun i => endCheckpoint i nrThreads)
      (fun _ u => (∀ i < nrThreads,
          ClearStep (s.flushMode ≠ .wbinvd) s.clearView u.clearView ∧
            Cleared i nrThreads s.clearView u.clearView) ∧
        Emptied (s.flushMode ≠ .wbinvd) Y s u) s := by
  refine Prog.wp_mono (Prog.wp_par (R := Rely (s.flushMode ≠ .wbinvd))
    (G := Guarantee (s.flushMode ≠ .wbinvd) (Restores X Y)) Rely.refl (fun _ _ _ _ => Rely.trans)
    (fun _ _ hne _ _ hab => hab.rely hne) (fun _ _ _ hu hab => hab.keeps hu) h
    fun i _ => rg_endCheckpoint i nrThreads h hdata) fun _ u hu => ?_
  exact ⟨fun i hi => (hu i hi).1, (hu 0 hpos).2 rfl⟩

def Idle (s : Threads) : Prop := ∀ t, s.pc t = .app

theorem Inv.slots_dirty (h : Inv X slots s) (hidle : Idle s) (hin : b ∈ slots) :
    s.blockDirty.test b = true := by
  rcases h.blocks.listed b hin with hdirty | ⟨t, hlogging⟩
  · exact hdirty
  · rw [hidle t] at hlogging
    cases hlogging

theorem Inv.durable_of_clean (h : Inv X slots s) (hidle : Idle s) {o : Nat}
    (hclean : s.blockDirty.test (o / kWordsPerBlock) = false) :
    (s.mem (.data o)).Durably (· = X o) := by
  rcases h.log.data o with hdurable | ⟨k, hslot, -⟩
  · exact hdurable
  · have hdirty := h.slots_dirty hidle (List.mem_of_getElem? hslot)
    rw [hclean] at hdirty
    cases hdirty

theorem ListInv.listed (h : ListInv s) (hidle : Idle s) (hdirty : s.blockDirty.test b = true) :
    FlushLists.Listed s.flushBlocks b ∨ FlushLists.Full s.flushBlocks := by
  rcases h b hdirty with hlisted | hfull | ⟨t, hpc⟩
  · exact Or.inl hlisted
  · exact Or.inr hfull
  · rw [hidle t] at hpc
    rcases hpc with hpc | hpc <;> cases hpc

theorem EpochInv.fresh_of_noAction (h : EpochInv X s) (hidle : Idle s)
    (hmode : FlushLists.determineFlushMode s.flushBlocks = .noAction) :
    Fresh s.content s.nextEpoch := by
  obtain ⟨slots, hinv⟩ := h.inv
  have hclean : ∀ b, s.blockDirty.test b = false := by
    refine fun b => Bool.eq_false_iff.mpr fun hdirty => ?_
    have hnotFull := FlushLists.not_full_of_mode (hmode.trans_ne (by decide))
    exact FlushLists.not_listed_of_noAction hmode b
      ((h.lists.listed hidle hdirty).resolve_right hnotFull)
  obtain rfl : slots = [] := by
    refine List.eq_nil_iff_forall_not_mem.mpr fun b hin => ?_
    have hdirty := hinv.slots_dirty hidle hin
    rw [hclean b] at hdirty
    cases hdirty
  have hload : s.mem.load .logHead = 0 := by
    obtain ⟨n, hn, hhead⟩ := hinv.log.head
    rw [hhead, Nat.le_zero.mp hn]
    rfl
  refine ⟨hinv.log.reserved, fun i hle hlast => ?_, fun o => ?_, hclean, hidle, fun _ => rfl⟩
  · have hmay := hinv.log.grows.may_le ⟨i, hle, hlast, rfl⟩
    exact Nat.le_zero.mp (Nat.le_trans hmay (Nat.le_of_eq hload))
  · have hdurable := hinv.durable_of_clean hidle (o := o) (hclean _)
    exact hdurable.mono fun v hv => hv.trans hdurable.load.symm

theorem EpochInv.durable_of_flushed (h : EpochInv X s) (hidle : Idle s) {nrThreads : Nat}
    (hpos : 0 < nrThreads) (hmode : s.flushMode = FlushLists.determineFlushMode s.flushBlocks)
    (hflushed : ∀ i < nrThreads,
      FlushState.Flushed .data s.content i nrThreads s.flushView u.flushView) (o : Nat) :
    (u.mem (.data o)).Durably (· = s.content o) := by
  refine FlushState.durable_of_flushed hpos hmode hflushed ?_
  obtain ⟨slots, hinv⟩ := h.inv
  by_cases hdirty : s.blockDirty.test (o / kWordsPerBlock) = true
  · exact Or.inr (h.lists.listed hidle hdirty)
  · have hdurable := hinv.durable_of_clean hidle (Bool.eq_false_iff.mpr hdirty)
    exact Or.inl (hdurable.mono fun v hv => hv.trans hdurable.load.symm)

theorem wp_flushSection (nrThreads : Nat) (schedule : List Nat) (h : Restores X Y s.mem)
    (hY : ∀ o, s.mem.load (.data o) = Y o) :
    Prog.wp (fun u : Threads => Restores X Y u.mem)
      (Prog.par nrThreads schedule fun i => flushParallel i nrThreads)
      (fun _ u => ∀ i < nrThreads,
        FlushState.Flushed .data Y i nrThreads s.flushView u.flushView ∧
          u = setFlushed u.flushView s) s :=
  FlushState.wp_flushSection (fun _ => decide_eq_true rfl) flushView (fun a b => setFlushed a b)
    (fun _ _ => rfl) (fun _ _ _ => rfl) (fun _ => rfl)
    (C := fun u => Restores X Y u.mem) (fun _ _ ha hdrains => ha.drains hdrains) h hY
    nrThreads schedule

theorem clean_of_cleared (hlists : ListInv s) (hbound : BoundInv s) (hidle : Idle s)
    {nrThreads : Nat} (hpos : 0 < nrThreads)
    (hmode : s.flushMode = FlushLists.determineFlushMode s.flushBlocks)
    (hcleared : ∀ i < nrThreads, ClearStep (s.flushMode ≠ .wbinvd) s.clearView u.clearView ∧
      Cleared i nrThreads s.clearView u.clearView) (b : Nat) : u.blockDirty.test b = false := by
  have hlisted : s.clearView.flushMode ≠ .wbinvd → ∀ block ∈ s.clearView.dirtyBlocks,
      Listed s.clearView block := by
    intro hno block hin
    have hmode' : s.flushMode ≠ .wbinvd := hno
    have hnotFull := FlushLists.not_full_of_mode (hmode ▸ hmode')
    exact (hlists.listed hidle (mem_dirtyBlocks.mp hin).2).resolve_right hnotFull
  have hempty : u.clearView.dirtyBlocks = ∅ :=
    UndoLogEngine.clean_of_cleared hpos hlisted hcleared
  have hstep := (hcleared 0 hpos).1
  refine Bool.eq_false_iff.mpr fun hdirty => ?_
  have hold : s.blockDirty.test b = true := by
    by_contra hno
    have hclean := hstep.clean b (Bool.eq_false_iff.mpr hno)
    exact Bool.false_ne_true (hclean.symm.trans hdirty)
  have hblocks : u.clearView.nrBlocks = s.nrBlocks := by
    rw [hstep.same]
    rfl
  have hin : b ∈ u.clearView.dirtyBlocks :=
    mem_dirtyBlocks.mpr ⟨hblocks.symm ▸ hbound.dirty b hold, hdirty⟩
  rw [hempty] at hin
  exact absurd hin (Finset.notMem_empty b)

theorem EpochInv.wp_checkpoint (h : EpochInv X s) (hidle : Idle s) {nrThreads : Nat}
    (hpos : 0 < nrThreads) (flushSchedule endSchedule : List Nat) :
    Prog.wp (fun u : Threads => Restores X s.content u.mem)
      (checkpoint nrThreads flushSchedule endSchedule)
      (fun _ u => Fresh s.content u.nextEpoch) s := by
  let a : Threads := { s with flushMode := FlushLists.determineFlushMode s.flushBlocks }
  have ha : EpochInv X a := by
    obtain ⟨slots, hlog, hlocks, hblocks, hat⟩ := h.inv
    exact ⟨⟨slots, hlog, hlocks, hblocks, hat⟩, h.lists, h.bound.block, h.bound.dirty⟩
  have hrestores : Restores X s.content s.mem := by
    obtain ⟨slots, hinv⟩ := h.inv
    exact hinv.restores fun _ => rfl
  simp only [checkpoint, Prog.wp_bind, Prog.wp_act, Prog.wp_read]
  refine ⟨hrestores, hrestores, ?_⟩
  split
  · rename_i hmode
    exact Prog.wp_pure.mpr (ha.fresh_of_noAction hidle hmode)
  · simp only [Prog.wp_bind]
    refine Prog.wp_mono (Prog.wp_crash (C := fun u : Threads => Restores X s.content u.mem) hrestores
      (wp_flushSection (s := a) nrThreads flushSchedule hrestores fun _ => rfl)) fun _ u hu => ?_
    obtain ⟨hrestoresU, hflushed⟩ := hu
    have hdata := ha.durable_of_flushed hidle hpos rfl fun i hi => (hflushed i hi).1
    obtain ⟨m, rfl⟩ : ∃ m, u = { a with mem := m } := by
      obtain ⟨⟨m, hview, -⟩, hu⟩ := (hflushed 0 hpos).imp FlushState.Flushed.flushes id
      rw [hview] at hu
      exact ⟨m, hu⟩
    refine Prog.wp_mono (wp_endSection hpos endSchedule hrestoresU hdata) ?_
    rintro _ v ⟨hcleared, hends, hhead, hempty, hdurable⟩
    have hclean := clean_of_cleared (s := { a with mem := m }) h.lists
      ⟨h.bound.block, h.bound.dirty⟩ hidle hpos rfl hcleared
    refine ⟨hhead, hempty, hdurable, hclean, ?_, fun _ => rfl⟩
    have hpc : v.pc = s.pc := by
      rw [hends.same]
    exact fun t => (congrFun hpc t).trans (hidle t)

end Libcrpm.UndoLogEngine.Threads
