import Libcrpm.Engine
import Libcrpm.Metadata
import Libcrpm.Program.Machine

/-!
# The end of a checkpoint

From `clear_dirty_bits_parallel` to the return of `checkpoint` in `UndoLogEngine` and
`MProtectEngine`, as a machine that interleaves the threads.  Between the two stands no
barrier: a thread may still clear while the leader goes on.
-/

namespace Libcrpm.EndOfCheckpoint

open Libcrpm.Program

inductive Engine where
  | undoLog | mprotect
deriving DecidableEq, Repr

/-- A checkpoint whose threads enter `clear_dirty_bits_parallel`; units are the blocks of
`UndoLogEngine` and the regions of `MProtectEngine`. -/
structure Checkpoint where
  engine : Engine
  flushMode : FlushMode
  nrThreads : Nat
  nrUnits : Nat
  dirty : AtomicBitSet
  bucket : Nat → Nat → Nat
  count : Nat → Nat

namespace Checkpoint

variable (c : Checkpoint)

/-- The length of a flush list. -/
def capacity : Nat :=
  match c.engine with
  | .undoLog => kMaxFlushBlocks
  | .mprotect => kMaxFlushRegions

/-- The words of the bitmap that a thread clears in `FMODE_WBINVD`. -/
def words (tid : Nat) : List Nat :=
  indicesOf ((c.nrUnits + 63) / AtomicBitSet.kBitWidth) tid c.nrThreads

/-- The dirty bits that a thread has to clear. -/
def Assigned (tid unit : Nat) : Prop :=
  if c.flushMode = .wbinvd then unit / 64 ∈ c.words tid
  else ∃ id ∈ bucketsOf tid c.nrThreads, ∃ k < c.count id, c.bucket id k = unit

end Checkpoint

inductive Pc where
  /-- The loops of `FMODE_WBINVD` over the words and, in `UndoLogEngine`, over the counts. -/
  | words (ws : List Nat)
  | counts (ids : List Nat)
  /-- The loop over the flush lists. -/
  | buckets (ids : List Nat)
  | entries (id i size : Nat) (ids : List Nat)
  | clear (unit id i size : Nat) (ids : List Nat)
  /-- In `UndoLogEngine`, before the count of a list is set to zero. -/
  | zero (id : Nat) (ids : List Nat)
  /-- Behind `clear_dirty_bits_parallel`. -/
  | cleared
  /-- The leader of `MProtectEngine`, which sets all counts to zero. -/
  | zeroAll (ids : List Nat)
  | waiting
  | returned
  /-- In a hook, before the unit is recorded. -/
  | push (unit : Nat)
deriving DecidableEq, Repr

namespace Pc

def inside : Pc → Bool
  | .words _ | .counts _ | .buckets _ | .entries .. | .clear .. | .zero .. => true
  | _ => false

def back : Pc → Bool
  | .returned | .push _ => true
  | _ => false

theorem back_of_inside {pc : Pc} (h : pc.inside = true) : pc.back = false := by
  cases pc <;> first | rfl | cases h

end Pc

structure State where
  dirty : AtomicBitSet
  bucket : Nat → Nat → Nat
  count : Nat → Nat
  pc : Nat → Pc
  /-- The leader has called `latch_add`. -/
  released : Bool
  /-- The units hooked since, and those recorded with the list they are in. -/
  hooked : List Nat
  recorded : List (Nat × Nat)

namespace State

def goto (tid : Nat) (pc : Pc) (s : State) : State := { s with pc := Function.update s.pc tid pc }

def clearAll (unit : Nat) (s : State) : State := { s with dirty := s.dirty.clearAll unit }

def zeroCount (id : Nat) (s : State) : State := { s with count := Function.update s.count id 0 }

def init (c : Checkpoint) : State where
  dirty := c.dirty
  bucket := c.bucket
  count := c.count
  pc tid := if c.flushMode = .wbinvd then .words (c.words tid) else .buckets (bucketsOf tid c.nrThreads)
  released := false
  hooked := []
  recorded := []

def record (capacity tid unit : Nat) (s : State) : State :=
  if s.count tid ≠ capacity then
    { s with
      bucket := Function.update s.bucket tid (Function.update (s.bucket tid) (s.count tid) unit)
      count := Function.update s.count tid (s.count tid + 1)
      recorded := (tid, unit) :: s.recorded }
  else s

def advance (c : Checkpoint) (tid : Nat) (s : State) : Option State :=
  match s.pc tid with
  | .words [] =>
      match c.engine with
      | .undoLog => some (s.goto tid (.counts (bucketsOf tid c.nrThreads)))
      | .mprotect => some (s.goto tid .cleared)
  | .words (w :: ws) => some ((s.clearAll (w * AtomicBitSet.kBitWidth)).goto tid (.words ws))
  | .counts [] => some (s.goto tid .cleared)
  | .counts (id :: ids) => some ((s.zeroCount id).goto tid (.counts ids))
  | .buckets [] => some (s.goto tid .cleared)
  | .buckets (id :: ids) => some (s.goto tid (.entries id 0 (s.count id) ids))
  | .entries id i size ids =>
      if i < size then some (s.goto tid (.clear (s.bucket id i) id i size ids))
      else match c.engine with
        | .undoLog => some (s.goto tid (.zero id ids))
        | .mprotect => some (s.goto tid (.buckets ids))
  | .clear unit id i size ids => some ((s.clearAll unit).goto tid (.entries id (i + 1) size ids))
  | .zero id ids => some ((s.zeroCount id).goto tid (.buckets ids))
  | .cleared =>
      if tid = 0 then
        match c.engine with
        | .undoLog => some ({ s with released := true }.goto tid .waiting)
        | .mprotect => some (s.goto tid (.zeroAll (List.range kMaxThreads)))
      else some (s.goto tid .waiting)
  | .zeroAll [] => some ({ s with released := true }.goto tid .waiting)
  | .zeroAll (id :: ids) => some ((s.zeroCount id).goto tid (.zeroAll ids))
  | .waiting => if s.released then some (s.goto tid .returned) else none
  | .returned => none
  | .push unit => some ((s.record c.capacity tid unit).goto tid .returned)

/-- A hook of `UndoLogEngine` or a fault of `MProtectEngine`. -/
def hook (c : Checkpoint) (tid unit : Nat) (s : State) : Option State :=
  match s.pc tid with
  | .returned =>
      if c.engine = .undoLog ∧ s.dirty.test unit = true then
        some { s with hooked := unit :: s.hooked }
      else some ({ s with dirty := s.dirty.set unit, hooked := unit :: s.hooked }.goto tid (.push unit))
  | _ => none

end State

inductive Label where
  | advance (tid : Nat)
  | hook (tid unit : Nat)
deriving DecidableEq, Repr

def machine (c : Checkpoint) : Machine State Label where
  init := .init c
  step
    | .advance tid, s => if tid < c.nrThreads then s.advance c tid else none
    | .hook tid unit, s => if tid < c.nrThreads then s.hook c tid unit else none

/-! ## Safety -/

/-- What was hooked after the release keeps its dirty bit and its place in a flush list, and
the threads that are through have cleared the dirty bits of the finished checkpoint. -/
structure State.Safe (c : Checkpoint) (s : State) : Prop where
  kept : ∀ unit ∈ s.hooked, s.dirty.test unit = true
  listed : ∀ entry ∈ s.recorded, ∃ k < s.count entry.1, s.bucket entry.1 k = entry.2
  cleaned : ∀ tid < c.nrThreads, (s.pc tid).inside = false → ∀ unit, c.Assigned tid unit →
    s.dirty.test unit = true → unit ∈ s.hooked

/-- Every state of every run that `admits` allows is safe. -/
def EndSafe (c : Checkpoint) (admits : Label → State → Prop) : Prop :=
  ∀ s, (machine c).Reaches admits s → s.Safe c

/-- The leader goes on only after all threads have left `clear_dirty_bits_parallel`. -/
def LeaderWaits (c : Checkpoint) (label : Label) (s : State) : Prop :=
  label = .advance 0 → s.pc 0 = .cleared → ∀ tid < c.nrThreads, (s.pc tid).inside = false

/-! ## What the threads have done -/

/-- The dirty bit of the finished checkpoint is gone. -/
def Done (s : State) (unit : Nat) : Prop := s.dirty.test unit = true → unit ∈ s.hooked

def DoneList (c : Checkpoint) (s : State) (id : Nat) : Prop :=
  ∀ k < c.count id, Done s (c.bucket id k)

/-- The lists a thread has before it. -/
structure Lists (c : Checkpoint) (s : State) (tid : Nat) (ids : List Nat) : Prop where
  mode : c.flushMode ≠ .wbinvd
  within : ids ⊆ bucketsOf tid c.nrThreads
  nodup : ids.Nodup
  same : ∀ id ∈ ids, s.count id = c.count id

/-- How much of its share a thread has cleared. -/
def Progress (c : Checkpoint) (s : State) (tid : Nat) : Pc → Prop
  | .words ws => c.flushMode = .wbinvd ∧
      ∀ w ∈ c.words tid, w ∈ ws ∨ ∀ unit, unit / 64 = w → Done s unit
  | .counts ids => ids ⊆ bucketsOf tid c.nrThreads ∧ ∀ unit, c.Assigned tid unit → Done s unit
  | .buckets ids => Lists c s tid ids ∧ ∀ id ∈ bucketsOf tid c.nrThreads, id ∈ ids ∨ DoneList c s id
  | .entries id i size ids => Lists c s tid (id :: ids) ∧ size = c.count id ∧
      (∀ k < i, Done s (c.bucket id k)) ∧
      ∀ id' ∈ bucketsOf tid c.nrThreads, id' ∈ id :: ids ∨ DoneList c s id'
  | .clear unit id i size ids => Lists c s tid (id :: ids) ∧ size = c.count id ∧
      unit = c.bucket id i ∧ (∀ k < i, Done s (c.bucket id k)) ∧
      ∀ id' ∈ bucketsOf tid c.nrThreads, id' ∈ id :: ids ∨ DoneList c s id'
  | .zero id ids => Lists c s tid (id :: ids) ∧
      ∀ id' ∈ bucketsOf tid c.nrThreads, id' ∈ ids ∨ DoneList c s id'
  | _ => ∀ unit, c.Assigned tid unit → Done s unit

structure Inv (c : Checkpoint) (s : State) : Prop where
  /-- Nobody clears once the latch is released or the counts are set to zero. -/
  released : s.released = true → ∀ i < c.nrThreads, (s.pc i).inside = false
  zeroing : ∀ i < c.nrThreads, ∀ ids, s.pc i = .zeroAll ids →
    i = 0 ∧ s.released = false ∧ ∀ j < c.nrThreads, (s.pc j).inside = false
  leader : s.released = true → s.pc 0 = .waiting ∨ (s.pc 0).back = true
  back : ∀ i < c.nrThreads, (s.pc i).back = true → s.released = true
  quiet : s.released = false → s.hooked = [] ∧ s.recorded = [] ∧ s.bucket = c.bucket
  kept : ∀ unit ∈ s.hooked, s.dirty.test unit = true
  listed : ∀ entry ∈ s.recorded, ∃ k < s.count entry.1, s.bucket entry.1 k = entry.2
  progress : ∀ i < c.nrThreads, Progress c s i (s.pc i)

variable {c : Checkpoint} {s t : State} {tid : Nat} {pc : Pc}

theorem Progress.outside (h : Progress c s tid pc) (hpc : pc.inside = false) :
    ∀ unit, c.Assigned tid unit → Done s unit := by
  cases pc <;> first | exact h | cases hpc

theorem progress_of_outside (hpc : pc.inside = false)
    (h : ∀ unit, c.Assigned tid unit → Done s unit) : Progress c s tid pc := by
  cases pc <;> first | exact h | cases hpc

theorem Inv.safe (h : Inv c s) : s.Safe c where
  kept := h.kept
  listed := h.listed
  cleaned i hi hpc := (h.progress i hi).outside hpc

theorem Lists.stable {ids : List Nat} (h : Lists c s tid ids)
    (hcount : ∀ id ∈ bucketsOf tid c.nrThreads, t.count id = s.count id) : Lists c t tid ids where
  mode := h.mode
  within := h.within
  nodup := h.nodup
  same id hid := (hcount id (h.within hid)).trans (h.same id hid)

theorem Progress.stable (h : Progress c s tid pc) (hdone : ∀ unit, Done s unit → Done t unit)
    (hcount : pc.inside = true → ∀ id ∈ bucketsOf tid c.nrThreads, t.count id = s.count id) :
    Progress c t tid pc := by
  have hlist : ∀ {id}, DoneList c s id → DoneList c t id := fun hid k hk => hdone _ (hid k hk)
  cases pc with
  | words ws =>
      refine ⟨h.1, fun w hw => ?_⟩
      exact (h.2 w hw).imp_right fun hunits unit hunit => hdone unit (hunits unit hunit)
  | buckets ids => exact ⟨h.1.stable (hcount rfl), fun id hid => (h.2 id hid).imp_right hlist⟩
  | entries id i size ids =>
      obtain ⟨hlists, hsize, hbelow, hrest⟩ := h
      exact ⟨hlists.stable (hcount rfl), hsize, fun k hk => hdone _ (hbelow k hk),
        fun id' hid' => (hrest id' hid').imp_right hlist⟩
  | clear unit id i size ids =>
      obtain ⟨hlists, hsize, hunit, hbelow, hrest⟩ := h
      exact ⟨hlists.stable (hcount rfl), hsize, hunit, fun k hk => hdone _ (hbelow k hk),
        fun id' hid' => (hrest id' hid').imp_right hlist⟩
  | zero id ids => exact ⟨h.1.stable (hcount rfl), fun id' hid' => (h.2 id' hid').imp_right hlist⟩
  | counts ids => exact ⟨h.1, fun unit hunit => hdone unit (h.2 unit hunit)⟩
  | cleared | zeroAll | waiting | returned | push =>
      exact fun unit hunit => hdone unit (h unit hunit)

theorem done_clearAll {unit unit' : Nat} (h : Done s unit) : Done (s.clearAll unit') unit := by
  intro htest
  rw [State.clearAll, AtomicBitSet.test_clearAll, Bool.and_eq_true] at htest
  exact h htest.2

theorem done_clearAll_self {unit unit' : Nat} (h : unit / 64 = unit' / 64) :
    Done (s.clearAll unit') unit := by
  intro htest
  rw [State.clearAll, AtomicBitSet.test_clearAll, Bool.and_eq_true] at htest
  simp [h] at htest

/-! ## Steps -/

theorem Inv.inside_step (h : Inv c s) (htid : tid < c.nrThreads) (hin : (s.pc tid).inside = true)
    (hpc : t.pc = Function.update s.pc tid pc) (hnew : pc.inside = true ∨ pc = .cleared)
    (hreleased : t.released = s.released) (hhooked : t.hooked = s.hooked)
    (hrecorded : t.recorded = s.recorded) (hbucket : t.bucket = s.bucket)
    (hdone : ∀ unit, Done s unit → Done t unit)
    (hcount : ∀ i < c.nrThreads, i ≠ tid → ∀ id ∈ bucketsOf i c.nrThreads, t.count id = s.count id)
    (hprogress : Progress c t tid pc) : Inv c t := by
  have hopen : s.released = false := by
    refine Bool.eq_false_iff.mpr fun hreleased => ?_
    rw [h.released hreleased tid htid] at hin
    cases hin
  obtain ⟨hnone, hnothing, hsame⟩ := h.quiet hopen
  have hself : t.pc tid = pc := by rw [hpc, Function.update_self]
  have hother : ∀ i ≠ tid, t.pc i = s.pc i := fun i hi => by rw [hpc, Function.update_of_ne hi]
  refine ⟨fun htrue => ?_, fun i hi ids hzero => ?_, fun htrue => ?_, fun i hi hback => ?_,
    fun _ => ?_, ?_, ?_, fun i hi => ?_⟩
  · rw [hreleased, hopen] at htrue
    cases htrue
  · by_cases hitid : i = tid
    · subst hitid
      rw [hself] at hzero
      rcases hnew with hnew | hnew <;> rw [hzero] at hnew <;> cases hnew
    · rw [hother i hitid] at hzero
      rw [(h.zeroing i hi ids hzero).2.2 tid htid] at hin
      cases hin
  · rw [hreleased, hopen] at htrue
    cases htrue
  · by_cases hitid : i = tid
    · subst hitid
      rw [hself] at hback
      rcases hnew with hnew | rfl
      · rw [Pc.back_of_inside hnew] at hback
        cases hback
      · cases hback
    · rw [hother i hitid] at hback
      rw [h.back i hi hback] at hopen
      cases hopen
  · exact ⟨hhooked.trans hnone, hrecorded.trans hnothing, hbucket.trans hsame⟩
  · rw [hhooked, hnone]
    intro unit hmem
    cases hmem
  · rw [hrecorded, hnothing]
    intro entry hmem
    cases hmem
  · by_cases hitid : i = tid
    · subst hitid
      rw [hself]
      exact hprogress
    · rw [hother i hitid]
      exact (h.progress i hi).stable hdone fun _ => hcount i hi hitid

theorem Inv.progress_outside (h : Inv c s) (hout : (s.pc tid).inside = false)
    (hpc : t.pc = Function.update s.pc tid pc) (hnew : pc.inside = false)
    (hdone : ∀ unit, Done s unit → Done t unit)
    (hcount : (∃ j < c.nrThreads, (s.pc j).inside = true) → t.count = s.count) :
    ∀ i < c.nrThreads, Progress c t i (t.pc i) := by
  intro i hi
  by_cases hitid : i = tid
  · subst hitid
    rw [hpc, Function.update_self]
    refine progress_of_outside hnew fun unit hunit => hdone unit ?_
    exact (h.progress i hi).outside hout unit hunit
  · rw [hpc, Function.update_of_ne hitid]
    exact (h.progress i hi).stable hdone fun hinside id _ => by rw [hcount ⟨i, hi, hinside⟩]

theorem inside_update {i : Nat} (hpc : t.pc = Function.update s.pc tid pc) (hnew : pc.inside = false)
    (hi : (s.pc i).inside = false) : (t.pc i).inside = false := by
  rw [hpc]
  by_cases hitid : i = tid
  · subst hitid
    rwa [Function.update_self]
  · rwa [Function.update_of_ne hitid]

theorem Lists.tail {id : Nat} {ids : List Nat} (h : Lists c s tid (id :: ids)) :
    Lists c s tid ids where
  mode := h.mode
  within := fun _ hmem => h.within (List.mem_cons_of_mem _ hmem)
  nodup := (List.nodup_cons.mp h.nodup).2
  same id' hid' := h.same id' (List.mem_cons_of_mem _ hid')

theorem bucketsOf_disjoint {i j n id : Nat} (hi : i < n) (hj : j < n) (hne : i ≠ j)
    (h : id ∈ bucketsOf i n) : id ∉ bucketsOf j n :=
  fun hid => hne ((mem_indicesOf_mod h hi).symm.trans (mem_indicesOf_mod hid hj))

theorem count_zeroCount_of_ne {id id' : Nat} (h : id' ≠ id) :
    (s.zeroCount id).count id' = s.count id' := Function.update_of_ne h _ _

theorem count_zeroCount_other {id : Nat} (htid : tid < c.nrThreads)
    (hid : id ∈ bucketsOf tid c.nrThreads) :
    ∀ i < c.nrThreads, i ≠ tid → ∀ id' ∈ bucketsOf i c.nrThreads,
      (s.zeroCount id).count id' = s.count id' := by
  intro i hi hne id' hid'
  refine count_zeroCount_of_ne ?_
  rintro rfl
  exact bucketsOf_disjoint hi htid hne hid' hid

theorem assigned_of_wbinvd (hmode : c.flushMode = .wbinvd) {unit : Nat} :
    c.Assigned tid unit ↔ unit / 64 ∈ c.words tid := by
  rw [Checkpoint.Assigned, if_pos hmode]

theorem assigned_of_lists (hmode : c.flushMode ≠ .wbinvd) {unit : Nat} :
    c.Assigned tid unit ↔
      ∃ id ∈ bucketsOf tid c.nrThreads, ∃ k < c.count id, c.bucket id k = unit := by
  rw [Checkpoint.Assigned, if_neg hmode]

theorem Inv.advance_inside (h : Inv c s) (htid : tid < c.nrThreads)
    (hin : (s.pc tid).inside = true) (hstep : s.advance c tid = some t) : Inv c t := by
  have hprogress := h.progress tid htid
  have hsame : s.bucket = c.bucket := by
    refine (h.quiet (Bool.eq_false_iff.mpr fun hreleased => ?_)).2.2
    rw [h.released hreleased tid htid] at hin
    cases hin
  have hmove : ∀ pc, (pc.inside = true ∨ pc = .cleared) → Progress c s tid pc →
      Inv c (s.goto tid pc) := fun pc hnew hpc =>
    h.inside_step htid hin rfl hnew rfl rfl rfl rfl (fun _ hd => hd) (fun _ _ _ _ _ => rfl)
      (hpc.stable (fun _ hd => hd) fun _ _ _ => rfl)
  unfold State.advance at hstep
  cases hpc : s.pc tid with
  | words ws =>
      rw [hpc] at hprogress
      obtain ⟨hmode, hwords⟩ := hprogress
      cases ws with
      | nil =>
          have hall : ∀ unit, c.Assigned tid unit → Done s unit := by
            intro unit hunit
            have hword := (assigned_of_wbinvd hmode).mp hunit
            exact (hwords _ hword).resolve_left List.not_mem_nil unit rfl
          simp only [hpc] at hstep
          cases hengine : c.engine with
          | undoLog =>
              rw [hengine] at hstep
              obtain rfl := Option.some.inj hstep
              exact hmove _ (Or.inl rfl) ⟨fun _ hmem => hmem, hall⟩
          | mprotect =>
              rw [hengine] at hstep
              obtain rfl := Option.some.inj hstep
              exact hmove _ (Or.inr rfl) hall
      | cons w ws =>
          simp only [hpc] at hstep
          obtain rfl := Option.some.inj hstep
          refine h.inside_step htid hin rfl (Or.inl rfl) rfl rfl rfl rfl
            (fun _ hd => done_clearAll hd) (fun _ _ _ _ _ => rfl) ⟨hmode, fun w' hw' => ?_⟩
          rcases hwords w' hw' with hbefore | hcleared
          · rcases List.mem_cons.mp hbefore with rfl | hlater
            · exact Or.inr fun unit hunit => done_clearAll_self
                (by rw [hunit, AtomicBitSet.kBitWidth, Nat.mul_div_cancel _ (by decide)])
            · exact Or.inl hlater
          · exact Or.inr fun unit hunit => done_clearAll (hcleared unit hunit)
  | counts ids =>
      rw [hpc] at hprogress
      obtain ⟨hwithin, hall⟩ := hprogress
      cases ids with
      | nil =>
          simp only [hpc] at hstep
          obtain rfl := Option.some.inj hstep
          exact hmove _ (Or.inr rfl) hall
      | cons id ids =>
          simp only [hpc] at hstep
          obtain rfl := Option.some.inj hstep
          exact h.inside_step htid hin rfl (Or.inl rfl) rfl rfl rfl rfl (fun _ hd => hd)
            (count_zeroCount_other htid (hwithin List.mem_cons_self))
            ⟨fun _ hmem => hwithin (List.mem_cons_of_mem _ hmem), hall⟩
  | buckets ids =>
      rw [hpc] at hprogress
      obtain ⟨hlists, hrest⟩ := hprogress
      cases ids with
      | nil =>
          simp only [hpc] at hstep
          obtain rfl := Option.some.inj hstep
          refine hmove _ (Or.inr rfl) fun unit hunit => ?_
          obtain ⟨id, hid, k, hk, rfl⟩ := (assigned_of_lists hlists.mode).mp hunit
          exact (hrest id hid).resolve_left List.not_mem_nil k hk
      | cons id ids =>
          simp only [hpc] at hstep
          obtain rfl := Option.some.inj hstep
          exact hmove _ (Or.inl rfl) ⟨hlists, hlists.same id List.mem_cons_self,
            fun k hk => absurd hk (Nat.not_lt_zero k), hrest⟩
  | entries id i size ids =>
      rw [hpc] at hprogress
      obtain ⟨hlists, hsize, hbelow, hrest⟩ := hprogress
      simp only [hpc] at hstep
      split at hstep
      · obtain rfl := Option.some.inj hstep
        exact hmove _ (Or.inl rfl) ⟨hlists, hsize, by rw [hsame], hbelow, hrest⟩
      · rename_i hend
        have hlist : DoneList c s id := fun k hk => hbelow k (by omega)
        have hothers : ∀ id' ∈ bucketsOf tid c.nrThreads, id' ∈ ids ∨ DoneList c s id' := by
          intro id' hid'
          rcases hrest id' hid' with hlater | hdone
          · rcases List.mem_cons.mp hlater with rfl | hlater
            · exact Or.inr hlist
            · exact Or.inl hlater
          · exact Or.inr hdone
        cases hengine : c.engine with
        | undoLog =>
            simp only [hengine] at hstep
            obtain rfl := Option.some.inj hstep
            exact hmove _ (Or.inl rfl) ⟨hlists, hothers⟩
        | mprotect =>
            simp only [hengine] at hstep
            obtain rfl := Option.some.inj hstep
            exact hmove _ (Or.inl rfl) ⟨hlists.tail, hothers⟩
  | clear unit id i size ids =>
      rw [hpc] at hprogress
      obtain ⟨hlists, hsize, hunit, hbelow, hrest⟩ := hprogress
      simp only [hpc] at hstep
      obtain rfl := Option.some.inj hstep
      refine h.inside_step htid hin rfl (Or.inl rfl) rfl rfl rfl rfl (fun _ hd => done_clearAll hd)
        (fun _ _ _ _ _ => rfl) ⟨hlists.stable fun _ _ => rfl, hsize, fun k hk => ?_,
          fun id' hid' => (hrest id' hid').imp_right fun hdone k hk => done_clearAll (hdone k hk)⟩
      rcases Nat.lt_succ_iff_lt_or_eq.mp hk with hlt | rfl
      · exact done_clearAll (hbelow k hlt)
      · exact done_clearAll_self (by rw [hunit])
  | zero id ids =>
      rw [hpc] at hprogress
      obtain ⟨hlists, hrest⟩ := hprogress
      simp only [hpc] at hstep
      obtain rfl := Option.some.inj hstep
      have hid := hlists.within List.mem_cons_self
      have hfresh := (List.nodup_cons.mp hlists.nodup).1
      refine h.inside_step htid hin rfl (Or.inl rfl) rfl rfl rfl rfl (fun _ hd => hd)
        (count_zeroCount_other htid hid) ⟨⟨hlists.mode, hlists.tail.within, hlists.tail.nodup,
          fun id' hid' => ?_⟩, hrest⟩
      refine (count_zeroCount_of_ne ?_).trans (hlists.tail.same id' hid')
      rintro rfl
      exact hfresh hid'
  | cleared | zeroAll | waiting | returned | push =>
      rw [hpc] at hin
      cases hin

theorem Inv.outside_step (h : Inv c s) (hout : (s.pc tid).inside = false)
    (hpc : t.pc = Function.update s.pc tid pc) (hnew : pc.inside = false)
    (hdone : ∀ unit, Done s unit → Done t unit)
    (hcount : (∃ j < c.nrThreads, (s.pc j).inside = true) → t.count = s.count)
    (hreleased : t.released = true → ∀ i < c.nrThreads, (s.pc i).inside = false)
    (hzeroing : ∀ i < c.nrThreads, ∀ ids, t.pc i = .zeroAll ids →
      i = 0 ∧ t.released = false ∧ ∀ j < c.nrThreads, (s.pc j).inside = false)
    (hleader : t.released = true → t.pc 0 = .waiting ∨ (t.pc 0).back = true)
    (hback : ∀ i < c.nrThreads, (t.pc i).back = true → t.released = true)
    (hquiet : t.released = false → t.hooked = [] ∧ t.recorded = [] ∧ t.bucket = c.bucket)
    (hkept : ∀ unit ∈ t.hooked, t.dirty.test unit = true)
    (hlisted : ∀ entry ∈ t.recorded, ∃ k < t.count entry.1, t.bucket entry.1 k = entry.2) :
    Inv c t where
  released htrue i hi := inside_update hpc hnew (hreleased htrue i hi)
  zeroing i hi ids hids := by
    obtain ⟨hzero, hopen, hnone⟩ := hzeroing i hi ids hids
    exact ⟨hzero, hopen, fun j hj => inside_update hpc hnew (hnone j hj)⟩
  leader := hleader
  back := hback
  quiet := hquiet
  kept := hkept
  listed := hlisted
  progress := h.progress_outside hout hpc hnew hdone hcount

theorem State.goto_pc_self : (s.goto tid pc).pc tid = pc := Function.update_self _ _ _

theorem State.goto_pc_of_ne {i : Nat} (h : i ≠ tid) : (s.goto tid pc).pc i = s.pc i :=
  Function.update_of_ne h _ _

theorem Inv.move_outside (h : Inv c s) (hout : (s.pc tid).inside = false)
    (hnew : pc.inside = false) (hzero : ∀ ids, pc ≠ .zeroAll ids)
    (hleader : tid = 0 → s.released = true → pc = .waiting ∨ pc.back = true)
    (hback : pc.back = true → s.released = true) : Inv c (s.goto tid pc) := by
  refine h.outside_step hout rfl hnew (fun _ hd => hd) (fun _ => rfl) h.released
    (fun i hi ids hids => ?_) (fun hreleased => ?_) (fun i hi hibk => ?_) h.quiet h.kept h.listed
  · by_cases hitid : i = tid
    · subst hitid
      rw [State.goto_pc_self] at hids
      exact absurd hids (hzero ids)
    · rw [State.goto_pc_of_ne hitid] at hids
      exact h.zeroing i hi ids hids
  · by_cases htid : 0 = tid
    · subst htid
      rw [State.goto_pc_self]
      exact hleader rfl hreleased
    · rw [State.goto_pc_of_ne htid]
      exact h.leader hreleased
  · by_cases hitid : i = tid
    · subst hitid
      rw [State.goto_pc_self] at hibk
      exact hback hibk
    · rw [State.goto_pc_of_ne hitid] at hibk
      exact h.back i hi hibk

theorem Inv.release (h : Inv c s) (hnone : ∀ i < c.nrThreads, (s.pc i).inside = false)
    (hleader : 0 < c.nrThreads) :
    Inv c ({ s with released := true }.goto 0 .waiting) := by
  refine h.outside_step (hnone 0 hleader) rfl rfl (fun _ hd => hd) (fun _ => rfl) (fun _ => hnone)
    (fun i hi ids hids => ?_) (fun _ => Or.inl State.goto_pc_self) (fun i hi hibk => rfl)
    (fun hopen => by cases hopen) h.kept h.listed
  by_cases hi0 : i = 0
  · subst hi0
    rw [State.goto_pc_self] at hids
    cases hids
  · rw [State.goto_pc_of_ne hi0] at hids
    exact absurd (h.zeroing i hi ids hids).1 hi0

theorem Inv.zeroing_step (h : Inv c s) {ids : List Nat} (hleader : 0 < c.nrThreads)
    (hpc : t.pc = Function.update s.pc 0 (.zeroAll ids)) (hopen : s.released = false)
    (hnone : ∀ i < c.nrThreads, (s.pc i).inside = false) (hdirty : t.dirty = s.dirty)
    (hreleased : t.released = s.released) (hhooked : t.hooked = s.hooked)
    (hrecorded : t.recorded = s.recorded) (hbucket : t.bucket = s.bucket) : Inv c t := by
  obtain ⟨hempty, hnothing, hsame⟩ := h.quiet hopen
  have hfalse : ¬ t.released = true := by
    rw [hreleased, hopen]
    decide
  refine h.outside_step (hnone 0 hleader) hpc rfl (fun unit hd => ?_) (fun hex => ?_)
    (fun htrue => absurd htrue hfalse) (fun i hi ids' hids => ?_) (fun htrue => absurd htrue hfalse)
    (fun i hi hback => ?_) (fun _ => ?_) ?_ ?_
  · rwa [Done, hdirty, hhooked]
  · obtain ⟨j, hj, hinside⟩ := hex
    rw [hnone j hj] at hinside
    cases hinside
  · by_cases hi0 : i = 0
    · exact ⟨hi0, hreleased.trans hopen, hnone⟩
    · rw [hpc, Function.update_of_ne hi0] at hids
      exact absurd (h.zeroing i hi ids' hids).1 hi0
  · by_cases hi0 : i = 0
    · subst hi0
      rw [hpc, Function.update_self] at hback
      cases hback
    · rw [hpc, Function.update_of_ne hi0] at hback
      rw [h.back i hi hback] at hopen
      cases hopen
  · exact ⟨hhooked.trans hempty, hrecorded.trans hnothing, hbucket.trans hsame⟩
  · rw [hhooked, hempty]
    intro unit hmem
    cases hmem
  · rw [hrecorded, hnothing]
    intro entry hmem
    cases hmem

theorem Inv.back_step (h : Inv c s) (htid : tid < c.nrThreads) (hin : (s.pc tid).back = true)
    (hpc : t.pc = Function.update s.pc tid pc) (hnew : pc.back = true)
    (hdone : ∀ unit, Done s unit → Done t unit) (hreleased : t.released = s.released)
    (hkept : ∀ unit ∈ t.hooked, t.dirty.test unit = true)
    (hlisted : ∀ entry ∈ t.recorded, ∃ k < t.count entry.1, t.bucket entry.1 k = entry.2) :
    Inv c t := by
  have hopened := h.back tid htid hin
  have hnone := h.released hopened
  have htrue : t.released = true := hreleased.trans hopened
  have hout : pc.inside = false := by
    cases hpcin : pc.inside with
    | false => rfl
    | true =>
        rw [Pc.back_of_inside hpcin] at hnew
        cases hnew
  refine h.outside_step (hnone tid htid) hpc hout hdone (fun hex => ?_) (fun _ => hnone)
    (fun i hi ids hids => ?_) (fun _ => ?_) (fun _ _ _ => htrue) (fun hopen => ?_) hkept hlisted
  · obtain ⟨j, hj, hinside⟩ := hex
    rw [hnone j hj] at hinside
    cases hinside
  · by_cases hitid : i = tid
    · subst hitid
      rw [hpc, Function.update_self] at hids
      rw [hids] at hnew
      cases hnew
    · rw [hpc, Function.update_of_ne hitid] at hids
      have hopen := (h.zeroing i hi ids hids).2.1
      rw [hopened] at hopen
      cases hopen
  · rw [hpc]
    by_cases htid0 : 0 = tid
    · subst htid0
      rw [Function.update_self]
      exact Or.inr hnew
    · rw [Function.update_of_ne htid0]
      exact h.leader hopened
  · rw [htrue] at hopen
    cases hopen

theorem listed_record {capacity unit : Nat}
    (h : ∀ entry ∈ s.recorded, ∃ k < s.count entry.1, s.bucket entry.1 k = entry.2) :
    ∀ entry ∈ (s.record capacity tid unit).recorded,
      ∃ k < (s.record capacity tid unit).count entry.1,
        (s.record capacity tid unit).bucket entry.1 k = entry.2 := by
  intro entry hmem
  unfold State.record at hmem ⊢
  by_cases hfull : s.count tid ≠ capacity
  · rw [if_pos hfull] at hmem ⊢
    rcases List.mem_cons.mp hmem with rfl | hold
    · refine ⟨s.count tid, ?_, ?_⟩
      · simp
      · simp
    · obtain ⟨k, hk, hentry⟩ := h entry hold
      by_cases hown : entry.1 = tid
      · rw [hown] at hk hentry
        refine ⟨k, ?_, ?_⟩
        · simp only [hown, Function.update_self]
          omega
        · simp only [hown, Function.update_self]
          rw [Function.update_of_ne (by omega), hentry]
      · refine ⟨k, ?_, ?_⟩
        · simpa only [Function.update_of_ne hown] using hk
        · simpa only [Function.update_of_ne hown] using hentry
  · rw [if_neg hfull] at hmem ⊢
    exact h entry hmem

theorem record_dirty {capacity unit : Nat} : (s.record capacity tid unit).dirty = s.dirty := by
  unfold State.record
  split <;> rfl

theorem record_hooked {capacity unit : Nat} : (s.record capacity tid unit).hooked = s.hooked := by
  unfold State.record
  split <;> rfl

theorem record_released {capacity unit : Nat} :
    (s.record capacity tid unit).released = s.released := by
  unfold State.record
  split <;> rfl

theorem record_pc {capacity unit : Nat} : (s.record capacity tid unit).pc = s.pc := by
  unfold State.record
  split <;> rfl

theorem Inv.advance_outside (h : Inv c s) (htid : tid < c.nrThreads)
    (hout : (s.pc tid).inside = false)
    (hwaits : tid = 0 → s.pc 0 = .cleared → ∀ i < c.nrThreads, (s.pc i).inside = false)
    (hstep : s.advance c tid = some t) : Inv c t := by
  unfold State.advance at hstep
  cases hpc : s.pc tid with
  | cleared =>
      simp only [hpc] at hstep
      by_cases hleader : tid = 0
      · subst hleader
        have hnone := hwaits rfl hpc
        cases hengine : c.engine with
        | undoLog =>
            simp only [hengine, if_true] at hstep
            obtain rfl := Option.some.inj hstep
            exact h.release hnone htid
        | mprotect =>
            simp only [hengine, if_true] at hstep
            obtain rfl := Option.some.inj hstep
            have hopen : s.released = false := by
              refine Bool.eq_false_iff.mpr fun hreleased => ?_
              rcases h.leader hreleased with hwait | hback
              · rw [hpc] at hwait
                cases hwait
              · rw [hpc] at hback
                cases hback
            exact h.zeroing_step htid rfl hopen hnone rfl rfl rfl rfl rfl
      · rw [if_neg hleader] at hstep
        obtain rfl := Option.some.inj hstep
        exact h.move_outside hout rfl (fun _ hzero => by cases hzero)
          (fun hzero => absurd hzero hleader) (fun hback => by cases hback)
  | zeroAll ids =>
      obtain ⟨hleader, hopen, hnone⟩ := h.zeroing tid htid ids hpc
      subst hleader
      cases ids with
      | nil =>
          simp only [hpc] at hstep
          obtain rfl := Option.some.inj hstep
          exact h.release hnone htid
      | cons id ids =>
          simp only [hpc] at hstep
          obtain rfl := Option.some.inj hstep
          exact h.zeroing_step htid rfl hopen hnone rfl rfl rfl rfl rfl
  | waiting =>
      simp only [hpc] at hstep
      by_cases hreleased : s.released = true
      · rw [if_pos hreleased] at hstep
        obtain rfl := Option.some.inj hstep
        exact h.move_outside hout rfl (fun _ hzero => by cases hzero) (fun _ _ => Or.inr rfl)
          fun _ => hreleased
      · rw [if_neg hreleased] at hstep
        cases hstep
  | returned =>
      simp only [hpc] at hstep
      cases hstep
  | push unit =>
      simp only [hpc] at hstep
      obtain rfl := Option.some.inj hstep
      have hmoved : ((s.record c.capacity tid unit).goto tid .returned).pc =
          Function.update s.pc tid .returned := by
        simp only [State.goto, record_pc]
      refine h.back_step htid (by rw [hpc]; rfl) hmoved rfl (fun unit' hd => ?_)
        record_released (fun unit' hmem => ?_) (listed_record h.listed)
      · simpa only [Done, State.goto, record_dirty, record_hooked] using hd
      · simp only [State.goto, record_hooked] at hmem
        simpa only [State.goto, record_dirty] using h.kept unit' hmem
  | words | counts | buckets | entries | clear | zero =>
      rw [hpc] at hout
      cases hout

theorem Inv.hook (h : Inv c s) (htid : tid < c.nrThreads) {unit : Nat}
    (hstep : s.hook c tid unit = some t) : Inv c t := by
  unfold State.hook at hstep
  cases hpc : s.pc tid with
  | returned =>
      have hback : (s.pc tid).back = true := by
        rw [hpc]
        rfl
      simp only [hpc] at hstep
      by_cases hold : c.engine = .undoLog ∧ s.dirty.test unit = true
      · rw [if_pos hold] at hstep
        obtain rfl := Option.some.inj hstep
        refine h.back_step htid hback (Function.update_eq_self tid s.pc).symm hback
          (fun unit' hd htest => List.mem_cons_of_mem _ (hd htest)) rfl (fun unit' hmem => ?_) h.listed
        rcases List.mem_cons.mp hmem with rfl | hmem
        · exact hold.2
        · exact h.kept unit' hmem
      · rw [if_neg hold] at hstep
        obtain rfl := Option.some.inj hstep
        refine h.back_step htid hback rfl rfl (fun unit' hd htest => ?_) rfl (fun unit' hmem => ?_)
          h.listed
        · change (s.dirty.set unit).test unit' = true at htest
          rw [AtomicBitSet.test_set, Bool.or_eq_true, decide_eq_true_eq] at htest
          rcases htest with rfl | htest
          · exact List.mem_cons_self
          · exact List.mem_cons_of_mem _ (hd htest)
        · change (s.dirty.set unit).test unit' = true
          rw [AtomicBitSet.test_set, Bool.or_eq_true, decide_eq_true_eq]
          rcases List.mem_cons.mp hmem with rfl | hmem
          · exact Or.inl rfl
          · exact Or.inr (h.kept unit' hmem)
  | words | counts | buckets | entries | clear | zero | cleared | zeroAll | waiting | push =>
      simp only [hpc] at hstep
      cases hstep

/-! ## Runs -/

theorem inv_init (c : Checkpoint) : Inv c (.init c) := by
  have hpc : ∀ i, ((State.init c).pc i).inside = true := by
    intro i
    change (if c.flushMode = .wbinvd then Pc.words (c.words i)
      else .buckets (bucketsOf i c.nrThreads)).inside = true
    split <;> rfl
  refine ⟨fun hreleased => (by cases hreleased), fun i _ ids hids => ?_,
    fun hreleased => (by cases hreleased), fun i _ hback => ?_, fun _ => ⟨rfl, rfl, rfl⟩,
    fun unit hmem => (by cases hmem), fun entry hmem => (by cases hmem), fun i _ => ?_⟩
  · have hinside := hpc i
    rw [hids] at hinside
    cases hinside
  · rw [Pc.back_of_inside (hpc i)] at hback
    cases hback
  · change Progress c (.init c) i (if c.flushMode = .wbinvd then .words (c.words i)
      else .buckets (bucketsOf i c.nrThreads))
    by_cases hmode : c.flushMode = .wbinvd
    · rw [if_pos hmode]
      exact ⟨hmode, fun w hw => Or.inl hw⟩
    · rw [if_neg hmode]
      exact ⟨⟨hmode, fun _ hid => hid, List.nodup_range.filter _, fun _ _ => rfl⟩, fun id hid => Or.inl hid⟩

theorem inv_of_reaches (h : (machine c).Reaches (LeaderWaits c) s) : Inv c s := by
  refine h.invariant (inv_init c) fun u label v hu hadmits hstep => ?_
  cases label with
  | advance tid =>
      change (if tid < c.nrThreads then u.advance c tid else none) = some v at hstep
      split at hstep
      · rename_i htid
        cases hin : (u.pc tid).inside with
        | true => exact hu.advance_inside htid hin hstep
        | false =>
            refine hu.advance_outside htid hin (fun hleader hcleared => ?_) hstep
            exact hadmits (by rw [hleader]) hcleared
      · cases hstep
  | hook tid unit =>
      change (if tid < c.nrThreads then u.hook c tid unit else none) = some v at hstep
      split at hstep
      · rename_i htid
        exact hu.hook htid hstep
      · cases hstep

/-- Nothing of the new epoch is lost when the leader waits for the others. -/
theorem endSafe_of_leaderWaits (c : Checkpoint) : EndSafe c (LeaderWaits c) := fun _ h =>
  (inv_of_reaches h).safe

/-! ## A thread that still clears -/

/-- As many threads as there are flush lists, of which two have a dirty block. -/
def twoBlocks : Checkpoint where
  engine := .undoLog
  flushMode := .useFlushBlocks
  nrThreads := kMaxThreads
  nrUnits := 64
  dirty := (AtomicBitSet.allocate.set 0).set 1
  bucket id _ := id
  count id := if id < 2 then 1 else 0

/-- Thread 1 is about to clear the bit of block 1 when the leader returns and writes block 0. -/
def lateClear : List Label :=
  List.replicate 2 (.advance 1) ++ List.replicate 8 (.advance 0) ++
    [.hook 0 0, .advance 0, .advance 1]

theorem exec_lateClear : ∃ t, (machine twoBlocks).exec lateClear (.init twoBlocks) = some t ∧
    0 ∈ t.hooked ∧ t.dirty.test 0 = false := by
  refine ⟨_, rfl, ?_, rfl⟩
  exact List.mem_singleton_self 0

/-- Block 0 has lost its dirty bit. -/
theorem not_endSafe : ¬ ∀ c, EndSafe c fun _ _ => True := by
  intro h
  obtain ⟨t, hexec, hmem, hlost⟩ := exec_lateClear
  have hreaches := Machine.Reaches.exec Machine.Reaches.init hexec
  have hkept := (h twoBlocks t hreaches).kept 0 hmem
  rw [hlost] at hkept
  cases hkept

end Libcrpm.EndOfCheckpoint
