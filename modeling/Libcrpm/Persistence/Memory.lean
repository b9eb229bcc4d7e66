import Mathlib.Logic.Function.Basic
import Mathlib.Data.List.Basic

/-!
# Memory behind a write-back cache

A cell of byte-addressable persistent memory holds the value a load returns and
every older value the medium may still contain.  A plain store may reach the
medium at any time; a flush or a non-temporal store only queues the value, and a
store fence makes every queued value durable.  Nothing orders two cells with
respect to each other, so a crash chooses a candidate of each cell on its own.

The addresses and the types of the values stored at them are parameters.
-/

namespace Libcrpm.Persistence

/-- One aligned location of at most eight bytes.  `older` lists the values the
medium may still hold instead of `cur`, newest first, each with the information
whether it was queued for write-back. -/
structure Cell (V : Type) where
  cur : V
  queued : Bool
  older : List (V × Bool)
deriving Repr, DecidableEq

namespace Cell

variable {V : Type}

/-- A cell whose value is durable. -/
def durable (v : V) : Cell V := ⟨v, false, []⟩

def store (c : Cell V) (v : V) : Cell V := ⟨v, false, (c.cur, c.queued) :: c.older⟩

def flush (c : Cell V) : Cell V := { c with queued := true }

def ntStore (c : Cell V) (v : V) : Cell V := (c.store v).flush

/-- The candidates that survive a fence: those up to the newest queued one. -/
def keepQueued : List (V × Bool) → List (V × Bool)
  | [] => []
  | (v, true) :: _ => [(v, true)]
  | (v, false) :: rest => (v, false) :: keepQueued rest

def fence (c : Cell V) : Cell V :=
  { c with older := if c.queued then [] else keepQueued c.older }

/-- The values a crash may leave in the cell. -/
def May (c : Cell V) (v : V) : Prop := v = c.cur ∨ v ∈ c.older.map Prod.fst

instance [DecidableEq V] (c : Cell V) (v : V) : Decidable (c.May v) :=
  inferInstanceAs (Decidable (_ ∨ _))

def Settled (c : Cell V) : Prop := c.older = []

def Pending (c : Cell V) : Prop := c.queued = true ∨ c.older = []

@[simp] theorem cur_durable (v : V) : (durable v).cur = v := rfl
@[simp] theorem cur_store (c : Cell V) (v : V) : (c.store v).cur = v := rfl
@[simp] theorem cur_flush (c : Cell V) : c.flush.cur = c.cur := rfl
@[simp] theorem cur_ntStore (c : Cell V) (v : V) : (c.ntStore v).cur = v := rfl
@[simp] theorem cur_fence (c : Cell V) : c.fence.cur = c.cur := rfl

theorem may_cur (c : Cell V) : c.May c.cur := Or.inl rfl

@[simp] theorem settled_durable (v : V) : (durable v).Settled := rfl

theorem Settled.may_iff {c : Cell V} (h : c.Settled) {v : V} : c.May v ↔ v = c.cur := by
  simp only [Settled] at h
  simp [May, h]

theorem Settled.eq {c : Cell V} (h : c.Settled) {v : V} (hv : c.May v) : v = c.cur :=
  h.may_iff.mp hv

theorem Settled.pending {c : Cell V} (h : c.Settled) : c.Pending := Or.inr h

@[simp] theorem may_durable {v w : V} : (durable v).May w ↔ w = v := by
  simp [May, durable]

@[simp] theorem may_flush {c : Cell V} {v : V} : c.flush.May v ↔ c.May v := Iff.rfl

theorem may_store {c : Cell V} {v w : V} : (c.store v).May w ↔ w = v ∨ c.May w := by
  simp [May, store]

theorem may_ntStore {c : Cell V} {v w : V} : (c.ntStore v).May w ↔ w = v ∨ c.May w := by
  simp [ntStore, may_store]

@[simp] theorem settled_flush {c : Cell V} : c.flush.Settled ↔ c.Settled := Iff.rfl

@[simp] theorem pending_flush (c : Cell V) : c.flush.Pending := Or.inl rfl

@[simp] theorem pending_ntStore (c : Cell V) (v : V) : (c.ntStore v).Pending := Or.inl rfl

theorem keepQueued_sublist (l : List (V × Bool)) : (keepQueued l).Sublist l := by
  induction l with
  | nil => exact List.Sublist.refl []
  | cons entry rest ih =>
      obtain ⟨v, queued⟩ := entry
      cases queued with
      | true => simp [keepQueued]
      | false => simpa [keepQueued] using ih

theorem May.of_fence {c : Cell V} {v : V} (h : c.fence.May v) : c.May v := by
  rcases h with h | h
  · exact Or.inl h
  · right
    simp only [fence] at h
    split at h
    · simp at h
    · exact ((keepQueued_sublist c.older).map Prod.fst).subset h

theorem Pending.settled_fence {c : Cell V} (h : c.Pending) : c.fence.Settled := by
  rcases h with h | h
  · simp [Settled, fence, h]
  · simp [Settled, fence, h, keepQueued]

theorem Settled.fence {c : Cell V} (h : c.Settled) : c.fence.Settled :=
  h.pending.settled_fence

/-- `c'` arises from `c` by flushes and fences: a load is unchanged, no new
candidate appears, and what the next fence settles stays so. -/
structure DrainsTo (c c' : Cell V) : Prop where
  cur : c'.cur = c.cur
  may : ∀ v, c'.May v → c.May v
  settled : c.Settled → c'.Settled
  pending : c.Pending → c'.Pending

theorem DrainsTo.refl (c : Cell V) : DrainsTo c c := ⟨rfl, fun _ h => h, id, id⟩

theorem DrainsTo.trans {c c' c'' : Cell V} (h : DrainsTo c c') (h' : DrainsTo c' c'') :
    DrainsTo c c'' where
  cur := h'.cur.trans h.cur
  may v hv := h.may v (h'.may v hv)
  settled hc := h'.settled (h.settled hc)
  pending hc := h'.pending (h.pending hc)

theorem drainsTo_flush (c : Cell V) : DrainsTo c c.flush :=
  ⟨rfl, fun _ h => h, id, fun _ => pending_flush c⟩

theorem drainsTo_fence (c : Cell V) : DrainsTo c c.fence :=
  ⟨rfl, fun _ h => h.of_fence, Settled.fence, fun h => h.settled_fence.pending⟩

/-- A crash can only leave `v`. -/
def Only (c : Cell V) (v : V) : Prop := ∀ w, c.May w → w = v

theorem Only.cur_eq {c : Cell V} {v : V} (h : c.Only v) : c.cur = v := h _ c.may_cur

theorem Settled.only {c : Cell V} (h : c.Settled) : c.Only c.cur := fun _ hw => h.eq hw

theorem DrainsTo.only {c c' : Cell V} (h : DrainsTo c c') {v : V} (hv : c.Only v) : c'.Only v :=
  fun w hw => hv w (h.may w hw)

theorem Only.ntStore {c : Cell V} {v : V} (h : c.Only v) : (c.ntStore v).Only v := by
  intro w hw
  rcases may_ntStore.mp hw with heq | hold
  · exact heq
  · exact h w hold

/-- `c'` arises from `c` by flushes, fences and non-temporal stores of `v`. -/
structure Refills (v : V) (c c' : Cell V) : Prop where
  cur : c.cur = v → c'.cur = v
  pending : c.Pending → c'.Pending
  only : c.Only v → c'.Only v

theorem Refills.trans {v : V} {c c' c'' : Cell V} (h : Refills v c c') (h' : Refills v c' c'') :
    Refills v c c'' where
  cur hc := h'.cur (h.cur hc)
  pending hp := h'.pending (h.pending hp)
  only hc := h'.only (h.only hc)

theorem DrainsTo.refills {c c' : Cell V} (h : DrainsTo c c') (v : V) : Refills v c c' where
  cur hc := h.cur.trans hc
  pending hp := h.pending hp
  only hc := h.only hc

theorem refills_ntStore (c : Cell V) (v : V) : Refills v c (c.ntStore v) where
  cur _ := rfl
  pending _ := pending_ntStore c v
  only hc := hc.ntStore

end Cell

abbrev Memory (Loc : Type) (Val : Loc → Type) := (l : Loc) → Cell (Val l)

/-- What is left on the medium after a crash. -/
abbrev Image (Loc : Type) (Val : Loc → Type) := (l : Loc) → Val l

namespace Memory

variable {Loc : Type} {Val : Loc → Type}

def load (m : Memory Loc Val) (l : Loc) : Val l := (m l).cur

/-- The memory of a medium that was mapped after a crash or an orderly shutdown. -/
def ofImage (img : Image Loc Val) : Memory Loc Val := fun l => Cell.durable (img l)

def store [DecidableEq Loc] (m : Memory Loc Val) (l : Loc) (v : Val l) : Memory Loc Val :=
  Function.update m l ((m l).store v)

def flushAll (m : Memory Loc Val) (sel : Loc → Bool) : Memory Loc Val :=
  fun l => if sel l then (m l).flush else m l

/-- Write the values selected by `f` with non-temporal stores. -/
def ntStoreAll (m : Memory Loc Val) (f : (l : Loc) → Option (Val l)) : Memory Loc Val :=
  fun l => match f l with
    | none => m l
    | some v => (m l).ntStore v

def fence (m : Memory Loc Val) : Memory Loc Val := fun l => (m l).fence

/-- `img` is a possible content of the medium if the machine stops in `m`. -/
def CrashTo (m : Memory Loc Val) (img : Image Loc Val) : Prop := ∀ l, (m l).May (img l)

/-- The content of the medium once every store has been written back. -/
def shutdown (m : Memory Loc Val) : Image Loc Val := fun l => (m l).cur

theorem crashTo_shutdown (m : Memory Loc Val) : m.CrashTo m.shutdown :=
  fun l => (m l).may_cur

@[simp] theorem load_ofImage (img : Image Loc Val) (l : Loc) : (ofImage img).load l = img l := rfl

@[simp] theorem settled_ofImage (img : Image Loc Val) (l : Loc) : (ofImage img l).Settled := rfl

theorem store_self [DecidableEq Loc] (m : Memory Loc Val) (l : Loc) (v : Val l) :
    m.store l v l = (m l).store v := by
  simp [store]

theorem store_of_ne [DecidableEq Loc] (m : Memory Loc Val) {l l' : Loc} (v : Val l)
    (h : l' ≠ l) : m.store l v l' = m l' := by
  simp [store, Function.update_of_ne h]

theorem CrashTo.store [DecidableEq Loc] {m : Memory Loc Val} {img : Image Loc Val}
    (h : m.CrashTo img) (l : Loc) (v : Val l) :
    (m.store l v).CrashTo (Function.update img l v) := by
  intro l'
  by_cases hl : l' = l
  · subst hl
    rw [Function.update_self, store_self]
    exact Cell.may_store.mpr (Or.inl rfl)
  · rw [Function.update_of_ne hl, store_of_ne m v hl]
    exact h l'

theorem crashTo_ofImage (img : Image Loc Val) : (ofImage img).CrashTo img :=
  crashTo_shutdown (ofImage img)

theorem ntStoreAll_none (m : Memory Loc Val) {f : (l : Loc) → Option (Val l)} {l : Loc}
    (h : f l = none) : m.ntStoreAll f l = m l := by
  simp [ntStoreAll, h]

theorem ntStoreAll_some (m : Memory Loc Val) {f : (l : Loc) → Option (Val l)} {l : Loc}
    {v : Val l} (h : f l = some v) : m.ntStoreAll f l = (m l).ntStore v := by
  simp [ntStoreAll, h]

/-- `m'` arises from `m` by flushes and fences. -/
def Drains (m m' : Memory Loc Val) : Prop := ∀ l, (m l).DrainsTo (m' l)

theorem Drains.refl (m : Memory Loc Val) : Drains m m := fun _ => .refl _

theorem Drains.trans {m m' m'' : Memory Loc Val} (h : Drains m m') (h' : Drains m' m'') :
    Drains m m'' :=
  fun l => (h l).trans (h' l)

theorem drains_flushAll (m : Memory Loc Val) (sel : Loc → Bool) : Drains m (m.flushAll sel) := by
  intro l
  unfold flushAll
  split
  · exact Cell.drainsTo_flush _
  · exact .refl _

theorem drains_fence (m : Memory Loc Val) : Drains m m.fence := fun _ => Cell.drainsTo_fence _

theorem Drains.crashTo {m m' : Memory Loc Val} (h : Drains m m') {img : Image Loc Val}
    (hc : m'.CrashTo img) : m.CrashTo img :=
  fun l => (h l).may _ (hc l)

def ntStore [DecidableEq Loc] (m : Memory Loc Val) (l : Loc) (v : Val l) : Memory Loc Val :=
  Function.update m l ((m l).ntStore v)

theorem ntStore_self [DecidableEq Loc] (m : Memory Loc Val) (l : Loc) (v : Val l) :
    m.ntStore l v l = (m l).ntStore v := by
  simp [ntStore]

theorem ntStore_of_ne [DecidableEq Loc] (m : Memory Loc Val) {l l' : Loc} (v : Val l)
    (h : l' ≠ l) : m.ntStore l v l' = m l' := by
  simp [ntStore, Function.update_of_ne h]

/-- `m'` arises from `m` by flushes, fences and non-temporal stores of the values in `f`. -/
def Fills (f : (l : Loc) → Option (Val l)) (m m' : Memory Loc Val) : Prop :=
  ∀ l, (f l = none → (m l).DrainsTo (m' l)) ∧ ∀ v, f l = some v → (m l).Refills v (m' l)

section Fills

variable {f : (l : Loc) → Option (Val l)} {m m' m'' : Memory Loc Val}

theorem Drains.fills (h : Drains m m') : Fills f m m' :=
  fun l => ⟨fun _ => h l, fun v _ => (h l).refills v⟩

theorem Fills.refl (m : Memory Loc Val) : Fills f m m := (Drains.refl m).fills

theorem Fills.trans (h : Fills f m m') (h' : Fills f m' m'') : Fills f m m'' :=
  fun l => ⟨fun hno => ((h l).1 hno).trans ((h' l).1 hno),
    fun v hv => ((h l).2 v hv).trans ((h' l).2 v hv)⟩

theorem fills_ntStoreAll {g : (l : Loc) → Option (Val l)}
    (hsub : ∀ l v, g l = some v → f l = some v) (m : Memory Loc Val) :
    Fills f m (m.ntStoreAll g) := by
  intro l
  cases hg : g l with
  | none =>
      rw [ntStoreAll_none m hg]
      exact Fills.refl m l
  | some v =>
      have hf := hsub l v hg
      rw [ntStoreAll_some m hg]
      refine ⟨fun hno => ?_, fun w hw => ?_⟩
      · rw [hno] at hf
        cases hf
      · obtain rfl : v = w := Option.some.inj (hf.symm.trans hw)
        exact Cell.refills_ntStore _ _

theorem fills_fence (m : Memory Loc Val) : Fills f m m.fence := (drains_fence m).fills

theorem Fills.cur (h : Fills f m m') {l : Loc} (hno : f l = none) : (m' l).cur = (m l).cur :=
  ((h l).1 hno).cur

theorem Fills.only (h : Fills f m m') {l : Loc} {v : Val l} (hf : ∀ w, f l = some w → w = v)
    (hv : (m l).Only v) : (m' l).Only v := by
  cases hl : f l with
  | none => exact ((h l).1 hl).only hv
  | some w =>
      obtain rfl := hf w hl
      exact ((h l).2 w hl).only hv

def Queued (m : Memory Loc Val) (l : Loc) (v : Val l) : Prop := (m l).Pending ∧ (m l).cur = v

theorem Queued.fence {l : Loc} {v : Val l} (h : Queued m l v) : (m.fence l).Only v := by
  have hcur : (m.fence l).cur = v := h.2
  exact hcur ▸ h.1.settled_fence.only

theorem Fills.queued (h : Fills f m m') {l : Loc} {v : Val l} (hf : ∀ w, f l = some w → w = v)
    (hq : Queued m l v) : Queued m' l v := by
  cases hl : f l with
  | none => exact ⟨((h l).1 hl).pending hq.1, (h.cur hl).trans hq.2⟩
  | some w =>
      obtain rfl := hf w hl
      exact ⟨((h l).2 w hl).pending hq.1, ((h l).2 w hl).cur hq.2⟩

theorem queued_ntStoreAll (m : Memory Loc Val) {g : (l : Loc) → Option (Val l)} {l : Loc}
    {v : Val l} (hg : g l = some v) : Queued (m.ntStoreAll g) l v := by
  rw [Queued, ntStoreAll_some m hg]
  exact ⟨Cell.pending_ntStore _ v, rfl⟩

/-- After the next fence a crash can only leave `v`. -/
def Secured (m : Memory Loc Val) (l : Loc) (v : Val l) : Prop := Queued m l v ∨ (m l).Only v

theorem Secured.cur_eq {l : Loc} {v : Val l} (h : Secured m l v) : (m l).cur = v :=
  h.elim (·.2) (·.cur_eq)

theorem Secured.fence {l : Loc} {v : Val l} (h : Secured m l v) : (m.fence l).Only v :=
  h.elim Queued.fence fun ho => (drains_fence m l).only ho

theorem Fills.secured (h : Fills f m m') {l : Loc} {v : Val l} (hf : ∀ w, f l = some w → w = v)
    (hs : Secured m l v) : Secured m' l v :=
  hs.imp (h.queued hf) (h.only hf)

end Fills

theorem Drains.secured {m m' : Memory Loc Val} (h : Drains m m') {l : Loc} {v : Val l}
    (hs : Secured m l v) : Secured m' l v :=
  Fills.secured (f := fun _ => none) h.fills (fun _ hw => by cases hw) hs

theorem secured_flushAll (m : Memory Loc Val) {sel : Loc → Bool} {l : Loc} (hl : sel l = true) :
    Secured (m.flushAll sel) l (m.load l) := by
  have hcell : m.flushAll sel l = (m l).flush := by simp [flushAll, hl]
  left
  rw [Queued, hcell]
  exact ⟨Cell.pending_flush _, rfl⟩

end Memory

end Libcrpm.Persistence
