import Mathlib.Logic.Function.Basic
import Mathlib.Order.Lattice

/-!
# Memory behind a write-back cache, shared by threads

As in `Memory`, but a flush or a non-temporal store only counts for the fence of the thread that
issued it.  A cell keeps all the values it has had; the medium holds one of them from `durable` on.
-/

namespace Libcrpm.Persistence

/-- `value i` is the `i`-th value, and `queued t` the newest one that the next fence of thread `t`
makes durable. -/
structure SharedCell (V : Type) where
  value : Nat → V
  last : Nat
  durable : Nat
  queued : Nat → Nat
  durable_le : durable ≤ last
  queued_le : ∀ t, queued t ≤ last

namespace SharedCell

variable {V : Type}

/-- A cell that has not been written since the medium was mapped. -/
def settled (v : V) : SharedCell V where
  value _ := v
  last := 0
  durable := 0
  queued _ := 0
  durable_le := Nat.le_refl _
  queued_le _ := Nat.le_refl _

def load (c : SharedCell V) : V := c.value c.last

def store (c : SharedCell V) (v : V) : SharedCell V where
  value := Function.update c.value (c.last + 1) v
  last := c.last + 1
  durable := c.durable
  queued := c.queued
  durable_le := Nat.le_succ_of_le c.durable_le
  queued_le t := Nat.le_succ_of_le (c.queued_le t)

theorem queued_flush_le (c : SharedCell V) (t t' : Nat) :
    Function.update c.queued t c.last t' ≤ c.last := by
  rw [Function.update_apply]
  split
  · exact Nat.le_refl _
  · exact c.queued_le t'

def flush (c : SharedCell V) (t : Nat) : SharedCell V :=
  { c with queued := Function.update c.queued t c.last, queued_le := c.queued_flush_le t }

def ntStore (c : SharedCell V) (t : Nat) (v : V) : SharedCell V := (c.store v).flush t

def fence (c : SharedCell V) (t : Nat) : SharedCell V :=
  { c with durable := max c.durable (c.queued t),
           durable_le := Nat.max_le.mpr ⟨c.durable_le, c.queued_le t⟩ }

def May (c : SharedCell V) (v : V) : Prop := ∃ i, c.durable ≤ i ∧ i ≤ c.last ∧ v = c.value i

/-- A crash leaves a value that meets `p`. -/
def Durably (c : SharedCell V) (p : V → Prop) : Prop :=
  ∀ i, c.durable ≤ i → i ≤ c.last → p (c.value i)

/-- After the next fence of thread `t` a crash leaves a value that meets `p`. -/
def Pending (c : SharedCell V) (t : Nat) (p : V → Prop) : Prop := (c.fence t).Durably p

variable {c c' c'' : SharedCell V} {t t' : Nat} {v : V} {p : V → Prop}

@[simp] theorem load_settled (v : V) : (settled v).load = v := rfl
@[simp] theorem load_store (c : SharedCell V) (v : V) : (c.store v).load = v :=
  Function.update_self ..
@[simp] theorem load_flush (c : SharedCell V) (t : Nat) : (c.flush t).load = c.load := rfl
@[simp] theorem load_ntStore (c : SharedCell V) (t : Nat) (v : V) : (c.ntStore t v).load = v :=
  load_store c v
@[simp] theorem load_fence (c : SharedCell V) (t : Nat) : (c.fence t).load = c.load := rfl

theorem value_store_of_le (c : SharedCell V) (v : V) {i : Nat} (h : i ≤ c.last) :
    (c.store v).value i = c.value i :=
  Function.update_of_ne (Nat.ne_of_lt (Nat.lt_succ_of_le h)) _ _

theorem Durably.may (h : c.Durably p) (hv : c.May v) : p v := by
  obtain ⟨i, hle, hlast, rfl⟩ := hv
  exact h i hle hlast

theorem Durably.load (h : c.Durably p) : p c.load := h c.last c.durable_le (Nat.le_refl _)

theorem durably_settled (h : p v) : (settled v).Durably p := fun _ _ _ => h

theorem Durably.mono {q : V → Prop} (h : c.Durably p) (hpq : ∀ v, p v → q v) : c.Durably q :=
  fun i hle hlast => hpq _ (h i hle hlast)

theorem Durably.store (h : c.Durably p) (hv : p v) : (c.store v).Durably p := by
  intro i hle hlast
  rcases Nat.le_or_eq_of_le_succ hlast with hold | rfl
  · rw [value_store_of_le c v hold]
    exact h i hle hold
  · have hnew : (c.store v).value c.last.succ = v := load_store c v
    rw [hnew]
    exact hv

theorem Durably.flush (h : c.Durably p) (t : Nat) : (c.flush t).Durably p := h

theorem Durably.fence (h : c.Durably p) (t : Nat) : (c.fence t).Durably p :=
  fun i hle hlast => h i (Nat.le_trans (Nat.le_max_left _ _) hle) hlast

theorem Durably.pending (h : c.Durably p) (t : Nat) : c.Pending t p := h.fence t

theorem pending_flush (t : Nat) (h : p c.load) : (c.flush t).Pending t p := by
  intro i hle hlast
  have hqueued : (c.flush t).queued t = c.last := Function.update_self ..
  have hi : i = c.last := by
    refine Nat.le_antisymm hlast ?_
    rw [← hqueued]
    exact Nat.le_trans (Nat.le_max_right _ _) hle
  rw [hi]
  exact h

theorem pending_ntStore (c : SharedCell V) (t : Nat) (h : p v) : (c.ntStore t v).Pending t p :=
  pending_flush t ((load_store c v).symm ▸ h)

theorem May.of_store {w : V} (h : (c.store v).May w) (hne : w ≠ v) : c.May w := by
  obtain ⟨i, hle, hlast, rfl⟩ := h
  rcases Nat.le_or_eq_of_le_succ hlast with hold | rfl
  · exact ⟨i, hle, hold, value_store_of_le c v hold⟩
  · exact absurd (load_store c v) hne

theorem May.of_ntStore {w : V} (h : (c.ntStore t v).May w) (hne : w ≠ v) : c.May w :=
  May.of_store (c := c) h hne

theorem Pending.store (h : c.Pending t p) (hv : p v) : (c.store v).Pending t p :=
  Durably.store (c := c.fence t) h hv

theorem Pending.fence (h : c.Pending t p) : (c.fence t).Durably p := h

/-! ## Flushes and fences -/

/-- `c'` arises from `c` by flushes and fences of any threads. -/
structure DrainsTo (c c' : SharedCell V) : Prop where
  load : c'.load = c.load
  durably : ∀ p : V → Prop, c.Durably p → c'.Durably p
  pending : ∀ (t : Nat) (p : V → Prop), c.Pending t p → c'.Pending t p

theorem DrainsTo.refl (c : SharedCell V) : DrainsTo c c := ⟨rfl, fun _ h => h, fun _ _ h => h⟩

theorem DrainsTo.trans (h : DrainsTo c c') (h' : DrainsTo c' c'') : DrainsTo c c'' where
  load := h'.load.trans h.load
  durably p hc := h'.durably p (h.durably p hc)
  pending t p hc := h'.pending t p (h.pending t p hc)

theorem DrainsTo.may (h : DrainsTo c c') (hv : c'.May v) : c.May v :=
  Durably.may (h.durably c.May fun i hle hlast => ⟨i, hle, hlast, rfl⟩) hv

theorem drainsTo_flush (c : SharedCell V) (t : Nat) : DrainsTo c (c.flush t) where
  load := rfl
  durably p h := h.flush t
  pending t' p h := by
    by_cases ht : t' = t
    · subst ht
      exact pending_flush t' (Durably.load (c := c.fence t') h)
    · intro i hle hlast
      have hqueued : (c.flush t).queued t' = c.queued t' := Function.update_of_ne ht _ _
      refine h i (Nat.max_le.mpr ⟨Nat.le_trans (Nat.le_max_left _ _) hle, ?_⟩) hlast
      rw [← hqueued]
      exact Nat.le_trans (Nat.le_max_right _ _) hle

theorem drainsTo_fence (c : SharedCell V) (t : Nat) : DrainsTo c (c.fence t) where
  load := rfl
  durably p h := h.fence t
  pending t' p h i hle hlast := by
    refine h i (Nat.max_le.mpr ⟨?_, Nat.le_trans (Nat.le_max_right _ _) hle⟩) hlast
    exact Nat.le_trans (Nat.le_max_left _ _) (Nat.le_trans (Nat.le_max_left _ _) hle)

end SharedCell

abbrev SharedMemory (Loc V : Type) := Loc → SharedCell V

namespace SharedMemory

variable {Loc V : Type} {m m' : SharedMemory Loc V} {l l' : Loc}

def load (m : SharedMemory Loc V) (l : Loc) : V := (m l).load

def store [DecidableEq Loc] (m : SharedMemory Loc V) (l : Loc) (v : V) : SharedMemory Loc V :=
  Function.update m l ((m l).store v)

def ntStore [DecidableEq Loc] (m : SharedMemory Loc V) (t : Nat) (l : Loc) (v : V) :
    SharedMemory Loc V :=
  Function.update m l ((m l).ntStore t v)

def flushAll (m : SharedMemory Loc V) (t : Nat) (sel : Loc → Bool) : SharedMemory Loc V :=
  fun l => if sel l then (m l).flush t else m l

def fence (m : SharedMemory Loc V) (t : Nat) : SharedMemory Loc V := fun l => (m l).fence t

def CrashTo (m : SharedMemory Loc V) (img : Loc → V) : Prop := ∀ l, (m l).May (img l)

def ofImage (img : Loc → V) : SharedMemory Loc V := fun l => .settled (img l)

theorem crashTo_load (m : SharedMemory Loc V) : m.CrashTo m.load :=
  fun l => ⟨(m l).last, (m l).durable_le, Nat.le_refl _, rfl⟩

section Stores

variable [DecidableEq Loc] (m)

theorem store_self (l : Loc) (v : V) : m.store l v l = (m l).store v := Function.update_self ..

theorem store_of_ne (v : V) (h : l' ≠ l) : m.store l v l' = m l' := Function.update_of_ne h _ _

theorem ntStore_self (t : Nat) (l : Loc) (v : V) : m.ntStore t l v l = (m l).ntStore t v :=
  Function.update_self ..

theorem ntStore_of_ne (t : Nat) (v : V) (h : l' ≠ l) : m.ntStore t l v l' = m l' :=
  Function.update_of_ne h _ _

end Stores

theorem flushAll_of (m : SharedMemory Loc V) (t : Nat) {sel : Loc → Bool} (h : sel l = true) :
    m.flushAll t sel l = (m l).flush t := by
  rw [flushAll, h]
  rfl

/-- `m'` arises from `m` by flushes and fences. -/
def Drains (m m' : SharedMemory Loc V) : Prop := ∀ l, (m l).DrainsTo (m' l)

theorem Drains.refl (m : SharedMemory Loc V) : Drains m m := fun _ => .refl _

theorem Drains.trans {m'' : SharedMemory Loc V} (h : Drains m m') (h' : Drains m' m'') :
    Drains m m'' :=
  fun l => (h l).trans (h' l)

theorem Drains.crashTo (h : Drains m m') {img : Loc → V} (hc : m'.CrashTo img) : m.CrashTo img :=
  fun l => (h l).may (hc l)

theorem drains_flushAll (m : SharedMemory Loc V) (t : Nat) (sel : Loc → Bool) :
    Drains m (m.flushAll t sel) := by
  intro l
  unfold flushAll
  split
  · exact SharedCell.drainsTo_flush _ t
  · exact .refl _

theorem drains_fence (m : SharedMemory Loc V) (t : Nat) : Drains m (m.fence t) :=
  fun _ => SharedCell.drainsTo_fence _ t

end SharedMemory

/-! ## Cells that only grow -/

namespace SharedCell

/-- No value that a crash may leave is followed by a smaller one. -/
def Grows (c : SharedCell Nat) : Prop :=
  ∀ i j, c.durable ≤ i → i ≤ j → j ≤ c.last → c.value i ≤ c.value j

variable {c c' : SharedCell Nat} {t v : Nat}

theorem Durably.grows (h : c.Durably fun w => w = v) : c.Grows := by
  intro i j hle hij hj
  rw [h i hle (Nat.le_trans hij hj), h j (Nat.le_trans hle hij) hj]

theorem Grows.store (h : c.Grows) (hv : c.load ≤ v) : (c.store v).Grows := by
  intro i j hle hij hj
  rcases Nat.le_or_eq_of_le_succ hj with hold | rfl
  · rw [value_store_of_le c v (Nat.le_trans hij hold), value_store_of_le c v hold]
    exact h i j hle hij hold
  · rcases Nat.le_or_eq_of_le_succ hij with hold | rfl
    · have hnew : (c.store v).value (c.last + 1) = v := load_store c v
      rw [value_store_of_le c v hold, hnew]
      exact Nat.le_trans (h i c.last hle hold (Nat.le_refl _)) hv
    · exact Nat.le_refl _

theorem Grows.flush (h : c.Grows) (t : Nat) : (c.flush t).Grows := h

theorem Grows.fence (h : c.Grows) (t : Nat) : (c.fence t).Grows :=
  fun i j hle => h i j (Nat.le_trans (Nat.le_max_left _ _) hle)

theorem Grows.may_le (h : c.Grows) (hv : c.May v) : v ≤ c.load := by
  obtain ⟨i, hle, hlast, rfl⟩ := hv
  exact h i c.last hle hlast (Nat.le_refl _)

/-- `c'` arises from `c` by flushes, fences and stores of values that are not smaller. -/
structure Raises (c c' : SharedCell Nat) : Prop where
  load : c.load ≤ c'.load
  durably : ∀ n, c.Durably (n ≤ ·) → c'.Durably (n ≤ ·)
  pending : ∀ t n, c.Pending t (n ≤ ·) → c'.Pending t (n ≤ ·)

theorem DrainsTo.raises (h : DrainsTo c c') : Raises c c' where
  load := Nat.le_of_eq h.load.symm
  durably _ hc := h.durably _ hc
  pending t _ hc := h.pending t _ hc

theorem Raises.refl (c : SharedCell Nat) : Raises c c := (DrainsTo.refl c).raises

theorem raises_store (h : c.load ≤ v) : Raises c (c.store v) where
  load := Nat.le_trans h (Nat.le_of_eq (load_store c v).symm)
  durably _ hc := hc.store (Nat.le_trans hc.load h)
  pending t _ hc := hc.store (Nat.le_trans (Durably.load (c := c.fence t) hc) h)

end SharedCell

end Libcrpm.Persistence
