import Libcrpm.Common
import Libcrpm.Program.Machine
import Mathlib.Data.Finset.Card

/-!
# Thread ids

`ThreadInfo` of `common.cpp`.  A thread that starts looks for a free entry of `g_bitmap` and takes it
with an exchange, and gives it back when it ends.  Other threads start and end meanwhile, so that an
entry may become free behind a thread that has found it taken.
-/

namespace Libcrpm.ThreadInfo

open Libcrpm.Program

inductive Pc where
  /-- The thread has not started, or it has ended. -/
  | absent
  /-- The condition of the loop and `!g_bitmap[i]`. -/
  | test (i : Nat)
  | exchange (i : Nat)
  | running (id : Nat)
  /-- In `exit`. -/
  | exited
deriving DecidableEq

/-- `g_bitmap` and the threads of a process. -/
structure Process where
  bitmap : Nat → Bool
  alive : Finset Nat
  pc : Nat → Pc

namespace Process

def goto (s : Process) (t : Nat) (pc : Pc) : Process :=
  { s with pc := Function.update s.pc t pc }

def setBit (s : Process) (i : Nat) (taken : Bool) : Process :=
  { s with bitmap := Function.update s.bitmap i taken }

def construct (s : Process) (t : Nat) : Option Process :=
  match s.pc t with
  | .test i =>
      some (s.goto t
        (if i < kMaxThreads then if s.bitmap i then .test (i + 1) else .exchange i else .exited))
  | .exchange i =>
      some (if s.bitmap i then s.goto t (.test (i + 1)) else (s.setBit i true).goto t (.running i))
  | .absent | .running _ | .exited => none

inductive Label where
  | start (t : Nat)
  | construct (t : Nat)
  /-- A thread ends, in `ThreadInfo::~ThreadInfo`. -/
  | stop (t : Nat)
deriving DecidableEq

def step : Label → Process → Option Process
  | .start t, s =>
      if s.pc t = .absent then some ({ s with alive := insert t s.alive }.goto t (.test 0)) else none
  | .construct t, s => s.construct t
  | .stop t, s =>
      match s.pc t with
      | .running id => some ({ s with alive := s.alive.erase t }.setBit id false |>.goto t .absent)
      | _ => none

def init : Process := ⟨fun _ => false, ∅, fun _ => .absent⟩

def machine : Machine Process Label := ⟨init, step⟩

/-- At most `kMaxThreads` threads are there at a time. -/
def Admitted : Label → Process → Prop
  | .start _, s => s.alive.card < kMaxThreads
  | _, _ => True

/-! ## Entries for all -/

/-- The thread still needs an entry, and will not look at one below `j` any more. -/
def waits (j : Nat) : Pc → Bool
  | .test i | .exchange i => j ≤ i
  | .exited => true
  | .absent | .running _ => false

def waiting (s : Process) (j : Nat) : Finset Nat := s.alive.filter fun t => waits j (s.pc t)

def free (s : Process) (j : Nat) : Finset Nat :=
  (Finset.range kMaxThreads).filter fun i => j ≤ i ∧ s.bitmap i = false

structure Inv (s : Process) : Prop where
  /-- From every entry on there are as many free ones as threads that need one. -/
  enough : ∀ j, (s.waiting j).card ≤ (s.free j).card
  alive : ∀ t, s.pc t ≠ .absent → t ∈ s.alive
  owner : ∀ i, s.bitmap i = true → ∃ t ∈ s.alive, s.pc t = .running i
  taken : ∀ t id, s.pc t = .running id → s.bitmap id = true ∧ id < kMaxThreads
  distinct : ∀ t t' id, s.pc t = .running id → s.pc t' = .running id → t = t'
  bound : ∀ t i, s.pc t = .exchange i → i < kMaxThreads

variable {s s' : Process} {t t' i j id : Nat} {p : Pc}

theorem mem_waiting : t ∈ s.waiting j ↔ t ∈ s.alive ∧ waits j (s.pc t) = true := by
  simp [waiting]

theorem mem_free : i ∈ s.free j ↔ i < kMaxThreads ∧ j ≤ i ∧ s.bitmap i = false := by
  simp [free]

theorem goto_pc_self (s : Process) (t : Nat) (p : Pc) : (s.goto t p).pc t = p :=
  Function.update_self ..

theorem goto_pc_of_ne (s : Process) (p : Pc) (h : t' ≠ t) : (s.goto t p).pc t' = s.pc t' :=
  Function.update_of_ne h _ _

theorem inv_init : Inv init where
  enough j := by
    have hnone : init.waiting j = ∅ := Finset.filter_empty _
    rw [hnone, Finset.card_empty]
    exact Nat.zero_le _
  alive t h := absurd rfl h
  owner i h := absurd h Bool.false_ne_true
  taken t id h := by cases h
  distinct t t' id h := by cases h
  bound t i h := by cases h

/-- No thread can run out of entries. -/
theorem Inv.not_waits (h : Inv s) (ht : t ∈ s.alive) : waits kMaxThreads (s.pc t) = false := by
  rw [Bool.eq_false_iff]
  intro hwaits
  have hpos : 0 < (s.waiting kMaxThreads).card := by
    apply Finset.card_pos.mpr
    exact ⟨t, mem_waiting.mpr ⟨ht, hwaits⟩⟩
  have hnone : s.free kMaxThreads = ∅ := by
    apply Finset.eq_empty_of_forall_notMem
    intro i hi
    obtain ⟨hlt, hle, -⟩ := mem_free.mp hi
    omega
  have henough := h.enough kMaxThreads
  rw [hnone, Finset.card_empty] at henough
  omega

theorem Inv.room (h : Inv s) (hroom : s.alive.card < kMaxThreads) :
    (s.waiting 0).card < (s.free 0).card := by
  let running := s.alive.filter fun t => ¬ waits 0 (s.pc t)
  let taken := (Finset.range kMaxThreads).filter fun i => ¬ (0 ≤ i ∧ s.bitmap i = false)
  have hthreads : (s.waiting 0).card + running.card = s.alive.card :=
    Finset.card_filter_add_card_filter_not _
  have hentries : (s.free 0).card + taken.card = kMaxThreads := by
    have hsum := Finset.card_filter_add_card_filter_not (s := Finset.range kMaxThreads)
      fun i => 0 ≤ i ∧ s.bitmap i = false
    rwa [Finset.card_range] at hsum
  -- Every entry that is taken is the id of a running thread.
  have howners : taken.card ≤ running.card := by
    apply Finset.card_le_card_of_surjOn fun t => match s.pc t with | .running id => id | _ => 0
    intro i hi
    have hbit : s.bitmap i = true := by
      have hi' : i < kMaxThreads ∧ s.bitmap i = true := by simpa [taken] using hi
      exact hi'.2
    obtain ⟨t, ht, hpc⟩ := h.owner i hbit
    refine ⟨t, ?_, ?_⟩
    · have hmem : t ∈ running := by simp [running, ht, hpc, waits]
      exact hmem
    · simp [hpc]
  omega

/-! ## The steps -/

theorem Inv.start (h : Inv s) (hroom : s.alive.card < kMaxThreads) (hpc : s.pc t = .absent) :
    Inv ({ s with alive := insert t s.alive }.goto t (.test 0)) := by
  let u : Process := { s with alive := insert t s.alive }.goto t (.test 0)
  have hself : u.pc t = .test 0 := goto_pc_self _ t _
  have hother : ∀ t' ≠ t, u.pc t' = s.pc t' := fun t' ht => goto_pc_of_ne _ _ ht
  refine ⟨fun j => ?_, fun t' ht => ?_, fun i hi => ?_, fun t' id ht => ?_,
    fun t₁ t₂ id h₁ h₂ => ?_, fun t' i ht => ?_⟩
  · cases j with
    | zero =>
        have hsub : u.waiting 0 ⊆ insert t (s.waiting 0) := by
          intro t' ht
          obtain ⟨hin, hwaits⟩ := mem_waiting.mp ht
          by_cases heq : t' = t
          · exact Finset.mem_insert.mpr (Or.inl heq)
          · rw [hother t' heq] at hwaits
            have hold := (Finset.mem_insert.mp hin).resolve_left heq
            exact Finset.mem_insert_of_mem (mem_waiting.mpr ⟨hold, hwaits⟩)
        calc (u.waiting 0).card ≤ (insert t (s.waiting 0)).card := Finset.card_le_card hsub
          _ ≤ (s.waiting 0).card + 1 := Finset.card_insert_le _ _
          _ ≤ (s.free 0).card := h.room hroom
    | succ j =>
        have hsub : u.waiting (j + 1) ⊆ s.waiting (j + 1) := by
          intro t' ht
          obtain ⟨hin, hwaits⟩ := mem_waiting.mp ht
          by_cases heq : t' = t
          · rw [heq, hself] at hwaits
            simp [waits] at hwaits
          · rw [hother t' heq] at hwaits
            have hold := (Finset.mem_insert.mp hin).resolve_left heq
            exact mem_waiting.mpr ⟨hold, hwaits⟩
        exact Nat.le_trans (Finset.card_le_card hsub) (h.enough (j + 1))
  · by_cases heq : t' = t
    · exact Finset.mem_insert.mpr (Or.inl heq)
    · rw [hother t' heq] at ht
      exact Finset.mem_insert_of_mem (h.alive t' ht)
  · obtain ⟨t', ht, hrunning⟩ := h.owner i hi
    have hne : t' ≠ t := by
      rintro rfl
      rw [hpc] at hrunning
      cases hrunning
    exact ⟨t', Finset.mem_insert_of_mem ht, (hother t' hne).trans hrunning⟩
  · have hne : t' ≠ t := by
      rintro rfl
      rw [hself] at ht
      cases ht
    exact h.taken t' id (hother t' hne ▸ ht)
  · have hne : ∀ {t'}, u.pc t' = .running id → t' ≠ t := by
      rintro t' ht rfl
      rw [hself] at ht
      cases ht
    exact h.distinct t₁ t₂ id (hother t₁ (hne h₁) ▸ h₁) (hother t₂ (hne h₂) ▸ h₂)
  · have hne : t' ≠ t := by
      rintro rfl
      rw [hself] at ht
      cases ht
    exact h.bound t' i (hother t' hne ▸ ht)

theorem Inv.move (h : Inv s) (ht : t ∈ s.alive) (hold : ∀ id, s.pc t ≠ .running id)
    (hnew : ∀ id, p ≠ .running id) (hbound : ∀ i, p = .exchange i → i < kMaxThreads)
    (henough : ∀ j, ((s.goto t p).waiting j).card ≤ (s.free j).card) : Inv (s.goto t p) := by
  have hself : (s.goto t p).pc t = p := goto_pc_self _ t _
  have hother : ∀ t' ≠ t, (s.goto t p).pc t' = s.pc t' := fun t' ht => goto_pc_of_ne _ _ ht
  have hne : ∀ {t' id}, (s.goto t p).pc t' = .running id → t' ≠ t := by
    rintro t' id hrunning rfl
    rw [hself] at hrunning
    exact hnew id hrunning
  refine ⟨henough, fun t' ht' => ?_, fun i hi => ?_, fun t' id ht' => ?_,
    fun t₁ t₂ id h₁ h₂ => ?_, fun t' i ht' => ?_⟩
  · by_cases heq : t' = t
    · exact heq ▸ ht
    · exact h.alive t' (hother t' heq ▸ ht')
  · obtain ⟨t', ht', hrunning⟩ := h.owner i hi
    have hne' : t' ≠ t := by
      rintro rfl
      exact hold i hrunning
    exact ⟨t', ht', (hother t' hne').trans hrunning⟩
  · exact h.taken t' id (hother t' (hne ht') ▸ ht')
  · exact h.distinct t₁ t₂ id (hother t₁ (hne h₁) ▸ h₁) (hother t₂ (hne h₂) ▸ h₂)
  · by_cases heq : t' = t
    · rw [heq, hself] at ht'
      exact hbound i ht'
    · exact h.bound t' i (hother t' heq ▸ ht')

theorem Inv.advance (h : Inv s) (hpc : s.pc t = .test i ∨ s.pc t = .exchange i)
    (hbit : s.bitmap i = true) : Inv (s.goto t (.test (i + 1))) := by
  have hwaits : ∀ j, waits j (s.pc t) = decide (j ≤ i) := by
    intro j
    rcases hpc with hpc | hpc <;> rw [hpc] <;> rfl
  have ht : t ∈ s.alive := by
    apply h.alive
    rcases hpc with hpc | hpc <;> rw [hpc] <;> simp
  have hold : ∀ id, s.pc t ≠ .running id := by
    intro id
    rcases hpc with hpc | hpc <;> rw [hpc] <;> simp
  refine h.move ht hold (by simp) (by simp) fun j => ?_
  have hmem : ∀ t' ∈ (s.goto t (.test (i + 1))).waiting j,
      t' ∈ s.waiting j ∨ t' = t ∧ j = i + 1 := by
    intro t' ht'
    obtain ⟨hin, hwaits'⟩ := mem_waiting.mp ht'
    by_cases heq : t' = t
    · subst heq
      rw [goto_pc_self] at hwaits'
      have hle : j ≤ i + 1 := by simpa [waits] using hwaits'
      by_cases hj : j = i + 1
      · exact Or.inr ⟨rfl, hj⟩
      · refine Or.inl (mem_waiting.mpr ⟨ht, ?_⟩)
        rw [hwaits, decide_eq_true_iff]
        omega
    · rw [goto_pc_of_ne _ _ heq] at hwaits'
      exact Or.inl (mem_waiting.mpr ⟨hin, hwaits'⟩)
  by_cases hj : j = i + 1
  · subst hj
    have hsub : (s.goto t (.test (i + 1))).waiting (i + 1) ⊆ s.waiting i := by
      intro t' ht'
      rcases hmem t' ht' with hin | ⟨rfl, -⟩
      · obtain ⟨halive, hwaits'⟩ := mem_waiting.mp hin
        refine mem_waiting.mpr ⟨halive, ?_⟩
        revert hwaits'
        cases s.pc t' <;> simp [waits] <;> omega
      · refine mem_waiting.mpr ⟨ht, ?_⟩
        rw [hwaits, decide_eq_true_iff]
    have hfree : s.free i ⊆ s.free (i + 1) := by
      intro i' hi'
      obtain ⟨hlt, hle, hbit'⟩ := mem_free.mp hi'
      have hne : i' ≠ i := by
        rintro rfl
        rw [hbit] at hbit'
        cases hbit'
      exact mem_free.mpr ⟨hlt, by omega, hbit'⟩
    calc ((s.goto t (.test (i + 1))).waiting (i + 1)).card ≤ (s.waiting i).card :=
          Finset.card_le_card hsub
      _ ≤ (s.free i).card := h.enough i
      _ ≤ (s.free (i + 1)).card := Finset.card_le_card hfree
  · have hsub : (s.goto t (.test (i + 1))).waiting j ⊆ s.waiting j := by
      intro t' ht'
      exact (hmem t' ht').resolve_right fun hno => hj hno.2
    exact Nat.le_trans (Finset.card_le_card hsub) (h.enough j)

theorem Inv.found (h : Inv s) (hpc : s.pc t = .test i) (hi : i < kMaxThreads) :
    Inv (s.goto t (.exchange i)) := by
  have ht : t ∈ s.alive := by
    apply h.alive
    rw [hpc]
    simp
  refine h.move ht (by simp [hpc]) (by simp) (fun i' hi' => ?_) fun j => ?_
  · obtain rfl := Pc.exchange.inj hi'
    exact hi
  · have hsub : (s.goto t (.exchange i)).waiting j ⊆ s.waiting j := by
      intro t' ht'
      obtain ⟨hin, hwaits⟩ := mem_waiting.mp ht'
      refine mem_waiting.mpr ⟨hin, ?_⟩
      by_cases heq : t' = t
      · rw [heq, goto_pc_self] at hwaits
        rw [heq, hpc]
        exact hwaits
      · rwa [goto_pc_of_ne _ _ heq] at hwaits
    exact Nat.le_trans (Finset.card_le_card hsub) (h.enough j)

theorem Inv.take (h : Inv s) (hpc : s.pc t = .exchange i) (hbit : s.bitmap i = false) :
    Inv ((s.setBit i true).goto t (.running i)) := by
  let u : Process := (s.setBit i true).goto t (.running i)
  have hi : i < kMaxThreads := h.bound t i hpc
  have ht : t ∈ s.alive := by
    apply h.alive
    rw [hpc]
    simp
  have hself : u.pc t = .running i := goto_pc_self _ t _
  have hother : ∀ t' ≠ t, u.pc t' = s.pc t' := fun t' ht => goto_pc_of_ne _ _ ht
  have hnobody : ∀ t', s.pc t' ≠ .running i := by
    intro t' hrunning
    rw [(h.taken t' i hrunning).1] at hbit
    cases hbit
  have hset : ∀ i', u.bitmap i' = if i' = i then true else s.bitmap i' := by
    intro i'
    exact Function.update_apply ..
  refine ⟨fun j => ?_, fun t' ht' => ?_, fun i' hi' => ?_, fun t' id ht' => ?_,
    fun t₁ t₂ id h₁ h₂ => ?_, fun t' i' ht' => ?_⟩
  · have hsub : u.waiting j ⊆ (s.waiting j).erase t := by
      intro t' ht'
      obtain ⟨hin, hwaits⟩ := mem_waiting.mp ht'
      have hne : t' ≠ t := by
        rintro rfl
        rw [hself] at hwaits
        cases hwaits
      rw [hother t' hne] at hwaits
      exact Finset.mem_erase.mpr ⟨hne, mem_waiting.mpr ⟨hin, hwaits⟩⟩
    have hfree : (s.free j).erase i ⊆ u.free j := by
      intro i' hi'
      obtain ⟨hne, hin⟩ := Finset.mem_erase.mp hi'
      obtain ⟨hlt, hle, hbit'⟩ := mem_free.mp hin
      exact mem_free.mpr ⟨hlt, hle, by rw [hset, if_neg hne, hbit']⟩
    have henough := h.enough j
    have hwaiting := Finset.card_le_card hsub
    have hleft := Finset.card_le_card hfree
    by_cases hj : j ≤ i
    · have hin : t ∈ s.waiting j := by
        refine mem_waiting.mpr ⟨ht, ?_⟩
        rw [hpc]
        exact decide_eq_true hj
      rw [Finset.card_erase_of_mem hin] at hwaiting
      have hpos : 0 < (s.waiting j).card := Finset.card_pos.mpr ⟨t, hin⟩
      have herase : (s.free j).card - 1 ≤ ((s.free j).erase i).card := Finset.pred_card_le_card_erase
      change (u.waiting j).card ≤ (u.free j).card
      omega
    · have hout : i ∉ s.free j := fun hin => hj (mem_free.mp hin).2.1
      rw [Finset.erase_eq_of_notMem hout] at hleft
      have herase : ((s.waiting j).erase t).card ≤ (s.waiting j).card := Finset.card_erase_le
      change (u.waiting j).card ≤ (u.free j).card
      omega
  · by_cases heq : t' = t
    · exact heq ▸ ht
    · exact h.alive t' (hother t' heq ▸ ht')
  · rw [hset] at hi'
    split at hi'
    · rename_i heq
      subst heq
      exact ⟨t, ht, hself⟩
    · obtain ⟨t', ht', hrunning⟩ := h.owner i' hi'
      have hne : t' ≠ t := by
        rintro rfl
        rw [hpc] at hrunning
        cases hrunning
      exact ⟨t', ht', (hother t' hne).trans hrunning⟩
  · by_cases heq : t' = t
    · rw [heq, hself] at ht'
      obtain rfl := Pc.running.inj ht'
      exact ⟨by rw [hset, if_pos rfl], hi⟩
    · obtain ⟨hbit', hlt⟩ := h.taken t' id (hother t' heq ▸ ht')
      refine ⟨?_, hlt⟩
      rw [hset]
      split
      · rfl
      · exact hbit'
  · by_cases heq₁ : t₁ = t
    · by_cases heq₂ : t₂ = t
      · rw [heq₁, heq₂]
      · rw [heq₁, hself] at h₁
        rw [hother t₂ heq₂, ← Pc.running.inj h₁] at h₂
        exact absurd h₂ (hnobody t₂)
    · by_cases heq₂ : t₂ = t
      · rw [heq₂, hself] at h₂
        rw [hother t₁ heq₁, ← Pc.running.inj h₂] at h₁
        exact absurd h₁ (hnobody t₁)
      · exact h.distinct t₁ t₂ id (hother t₁ heq₁ ▸ h₁) (hother t₂ heq₂ ▸ h₂)
  · have hne : t' ≠ t := by
      rintro rfl
      rw [hself] at ht'
      cases ht'
    exact h.bound t' i' (hother t' hne ▸ ht')

theorem Inv.stop (h : Inv s) (hpc : s.pc t = .running id) :
    Inv (({ s with alive := s.alive.erase t }.setBit id false).goto t .absent) := by
  let u : Process := ({ s with alive := s.alive.erase t }.setBit id false).goto t .absent
  have hself : u.pc t = .absent := goto_pc_self _ t _
  have hother : ∀ t' ≠ t, u.pc t' = s.pc t' := fun t' ht => goto_pc_of_ne _ _ ht
  have hset : ∀ i', u.bitmap i' = if i' = id then false else s.bitmap i' := by
    intro i'
    exact Function.update_apply ..
  have hne : ∀ {t' p}, u.pc t' = p → p ≠ .absent → t' ≠ t := by
    rintro t' p ht' hp rfl
    exact hp (ht'.symm.trans hself)
  refine ⟨fun j => ?_, fun t' ht' => ?_, fun i' hi' => ?_, fun t' id' ht' => ?_,
    fun t₁ t₂ id' h₁ h₂ => ?_, fun t' i' ht' => ?_⟩
  · have hsub : u.waiting j ⊆ s.waiting j := by
      intro t' ht'
      obtain ⟨hin, hwaits⟩ := mem_waiting.mp ht'
      obtain ⟨hne', hin'⟩ := Finset.mem_erase.mp hin
      rw [hother t' hne'] at hwaits
      exact mem_waiting.mpr ⟨hin', hwaits⟩
    have hfree : s.free j ⊆ u.free j := by
      intro i' hi'
      obtain ⟨hlt, hle, hbit⟩ := mem_free.mp hi'
      refine mem_free.mpr ⟨hlt, hle, ?_⟩
      rw [hset, hbit, ite_self]
    calc (u.waiting j).card ≤ (s.waiting j).card := Finset.card_le_card hsub
      _ ≤ (s.free j).card := h.enough j
      _ ≤ (u.free j).card := Finset.card_le_card hfree
  · have hne' := hne rfl ht'
    rw [hother t' hne'] at ht'
    exact Finset.mem_erase.mpr ⟨hne', h.alive t' ht'⟩
  · rw [hset] at hi'
    split at hi'
    · cases hi'
    · rename_i hid
      obtain ⟨t', ht', hrunning⟩ := h.owner i' hi'
      have hne' : t' ≠ t := by
        rintro rfl
        rw [hpc] at hrunning
        exact hid (Pc.running.inj hrunning).symm
      exact ⟨t', Finset.mem_erase.mpr ⟨hne', ht'⟩, (hother t' hne').trans hrunning⟩
  · have hne' := hne ht' (by simp)
    rw [hother t' hne'] at ht'
    obtain ⟨hbit, hlt⟩ := h.taken t' id' ht'
    refine ⟨?_, hlt⟩
    rw [hset, if_neg, hbit]
    rintro rfl
    exact hne' (h.distinct t' t id' ht' hpc)
  · have hne₁ := hne h₁ (by simp)
    have hne₂ := hne h₂ (by simp)
    exact h.distinct t₁ t₂ id' (hother t₁ hne₁ ▸ h₁) (hother t₂ hne₂ ▸ h₂)
  · have hne' := hne ht' (by simp)
    exact h.bound t' i' (hother t' hne' ▸ ht')

theorem Inv.construct (h : Inv s) (hstep : s.construct t = some s') : Inv s' := by
  unfold Process.construct at hstep
  cases hpc : s.pc t with
  | absent =>
      rw [hpc] at hstep
      cases hstep
  | running id =>
      rw [hpc] at hstep
      cases hstep
  | exited =>
      rw [hpc] at hstep
      cases hstep
  | test i =>
      rw [hpc] at hstep
      obtain rfl := Option.some.inj hstep
      have ht : t ∈ s.alive := h.alive t (by simp [hpc])
      have hi : i < kMaxThreads := by
        have hno := h.not_waits ht
        rw [hpc] at hno
        simpa [waits] using hno
      rw [if_pos hi]
      by_cases hbit : s.bitmap i = true
      · rw [if_pos hbit]
        exact h.advance (Or.inl hpc) hbit
      · rw [if_neg hbit]
        exact h.found hpc hi
  | exchange i =>
      rw [hpc] at hstep
      obtain rfl := Option.some.inj hstep
      by_cases hbit : s.bitmap i = true
      · rw [if_pos hbit]
        exact h.advance (Or.inr hpc) hbit
      · rw [if_neg hbit]
        exact h.take hpc (Bool.eq_false_iff.mpr hbit)

theorem Inv.step (h : Inv s) {l : Label} (hl : Admitted l s) (hstep : step l s = some s') :
    Inv s' := by
  cases l with
  | start t =>
      rw [Process.step] at hstep
      split at hstep
      · rename_i hpc
        obtain rfl := Option.some.inj hstep
        exact h.start hl hpc
      · cases hstep
  | construct t => exact h.construct hstep
  | stop t =>
      rw [Process.step] at hstep
      split at hstep
      · rename_i id hpc
        obtain rfl := Option.some.inj hstep
        exact h.stop hpc
      · cases hstep

/-- While at most `kMaxThreads` threads are there at a time, every thread finds an entry, and no two
of them have the same id. -/
theorem ids_of_reaches (h : machine.Reaches Admitted s) :
    (∀ t, s.pc t ≠ .exited) ∧ (∀ t id, s.pc t = .running id → id < kMaxThreads) ∧
      ∀ t t' id, s.pc t = .running id → s.pc t' = .running id → t = t' := by
  have hinv : Inv s := h.invariant inv_init fun s l s' hs hl hstep => hs.step hl hstep
  refine ⟨fun t ht => ?_, fun t id ht => (hinv.taken t id ht).2, hinv.distinct⟩
  have hno := hinv.not_waits (hinv.alive t (by simp [ht]))
  rw [ht] at hno
  cases hno

/-- Two threads find entry 0 free, and one of them loses the exchange. -/
theorem ids_of_reaches_race : ∃ s, machine.Reaches Admitted s ∧ s.pc 0 = .running 0 ∧
    s.pc 1 = .running 1 ∧ (∀ t, s.pc t ≠ .exited) ∧
    (∀ t id, s.pc t = .running id → id < kMaxThreads) ∧
    ∀ t t' id, s.pc t = .running id → s.pc t' = .running id → t = t' := by
  have h₁ : machine.Reaches Admitted _ := .step .init (.start 0) (by decide : 0 < kMaxThreads) rfl
  have h₂ := h₁.step (.start 1) (by decide : 1 < kMaxThreads) rfl
  have h₃ := h₂.step (.construct 0) trivial rfl
  have h₄ := h₃.step (.construct 1) trivial rfl
  have h₅ := h₄.step (.construct 0) trivial rfl
  have h₆ := h₅.step (.construct 1) trivial rfl
  have h₇ := h₆.step (.construct 1) trivial rfl
  have h₈ := h₇.step (.construct 1) trivial rfl
  exact ⟨_, h₈, rfl, rfl, ids_of_reaches h₈⟩

end Process

end Libcrpm.ThreadInfo
