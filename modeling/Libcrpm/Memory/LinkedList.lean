import Mathlib.Data.List.Nodup
import Mathlib.Logic.Function.Basic

/-!
# Linked lists in a memory

`Segment next head l stop`: following `next` from `head` passes through the nodes `l` and
arrives at `stop`.  A list that ends in the null pointer is a segment with `stop = none`.
-/

namespace Libcrpm.Memory

variable {α : Type} {next next' : α → Option α} {head stop : Option α} {l l' : List α} {x : α}

def Segment (next : α → Option α) : Option α → List α → Option α → Prop
  | head, [], stop => head = stop
  | head, x :: rest, stop => head = some x ∧ Segment next (next x) rest stop

@[simp] theorem segment_nil : Segment next head [] stop ↔ head = stop := Iff.rfl

@[simp] theorem segment_cons :
    Segment next head (x :: l) stop ↔ head = some x ∧ Segment next (next x) l stop := Iff.rfl

theorem segment_append : Segment next head (l ++ l') stop ↔
    ∃ mid, Segment next head l mid ∧ Segment next mid l' stop := by
  induction l generalizing head with
  | nil => simp
  | cons y rest ih => simp [ih, and_assoc]

theorem Segment.congr (h : Segment next head l stop) (heq : ∀ y ∈ l, next' y = next y) :
    Segment next' head l stop := by
  induction l generalizing head with
  | nil => exact h
  | cons y rest ih =>
      refine ⟨h.1, ?_⟩
      rw [heq y (by simp)]
      exact ih h.2 fun z hz => heq z (by simp [hz])

theorem Segment.map {β : Type} {next' : β → Option β} (f : α → β) (h : Segment next head l stop)
    (hnext : ∀ y ∈ l, next' (f y) = (next y).map f) :
    Segment next' (head.map f) (l.map f) (stop.map f) := by
  induction l generalizing head with
  | nil => exact congrArg (Option.map f) h
  | cons y rest ih =>
      obtain ⟨rfl, hrest⟩ := h
      refine ⟨rfl, ?_⟩
      rw [hnext y (by simp)]
      exact ih hrest fun z hz => hnext z (by simp [hz])

theorem Segment.eq_nil (h : Segment next none l stop) : l = [] := by
  cases l with
  | nil => rfl
  | cons y rest => exact absurd h.1 (by simp)

theorem Segment.uncons (h : Segment next (some x) l none) :
    ∃ rest, l = x :: rest ∧ Segment next (next x) rest none := by
  cases l with
  | nil => exact absurd h (by simp)
  | cons y rest =>
      obtain ⟨hhead, hrest⟩ := h
      obtain rfl := Option.some.inj hhead
      exact ⟨rest, rfl, hrest⟩

theorem Segment.unique (h : Segment next head l none) (h' : Segment next head l' none) : l = l' := by
  induction l generalizing head l' with
  | nil =>
      obtain rfl : head = none := h
      exact h'.eq_nil.symm
  | cons y rest ih =>
      obtain ⟨rfl, hrest⟩ := h
      obtain ⟨rest', rfl, hrest'⟩ := h'.uncons
      rw [ih hrest hrest']

theorem Segment.head_eq (h : Segment next head l none) : head = l.head? := by
  cases l with
  | nil => exact h
  | cons y rest => exact h.1

theorem Segment.next_eq {rest : List α} (h : Segment next head (l ++ x :: rest) none) :
    next x = rest.head? := by
  obtain ⟨mid, -, htail⟩ := segment_append.mp h
  exact htail.2.head_eq

theorem Segment.suffix (h : Segment next head (l ++ l') none) : Segment next l'.head? l' none := by
  obtain ⟨mid, -, htail⟩ := segment_append.mp h
  exact htail.head_eq ▸ htail

theorem segment_range' (next : Nat → Option Nat) {start count : Nat}
    (h : ∀ x, start ≤ x → x < start + count → next x = some (x + 1)) :
    Segment next (some start) (List.range' start (count + 1)) (next (start + count)) := by
  induction count generalizing start with
  | zero => exact ⟨rfl, rfl⟩
  | succ count ih =>
      rw [List.range'_succ]
      refine ⟨rfl, ?_⟩
      rw [h start (Nat.le_refl _) (by omega)]
      have hrest : Segment next (some (start + 1)) (List.range' (start + 1) (count + 1))
          (next (start + 1 + count)) := ih fun x hle hlt => h x (by omega) (by omega)
      have hlast : start + 1 + count = start + (count + 1) := by omega
      rwa [hlast] at hrest

/-- The first `n` nodes of a list. -/
def follow (next : α → Option α) : Nat → Option α → List α
  | n + 1, some x => x :: follow next n (next x)
  | _, _ => []

theorem Segment.follow_eq (h : Segment next head l stop) : follow next l.length head = l := by
  induction l generalizing head with
  | nil => cases head <;> rfl
  | cons y rest ih =>
      obtain ⟨rfl, hrest⟩ := h
      rw [List.length_cons, follow, ih hrest]

variable [DecidableEq α]

instance Segment.decidable (next : α → Option α) (head : Option α) (l : List α)
    (stop : Option α) : Decidable (Segment next head l stop) :=
  match l with
  | [] => inferInstanceAs (Decidable (head = stop))
  | x :: rest =>
      have : Decidable (Segment next (next x) rest stop) := Segment.decidable next _ rest stop
      inferInstanceAs (Decidable (head = some x ∧ Segment next (next x) rest stop))

theorem Segment.update (h : Segment next head l stop) (hx : x ∉ l) (v : Option α) :
    Segment (Function.update next x v) head l stop := by
  refine h.congr fun y hy => Function.update_of_ne ?_ _ _
  rintro rfl
  exact hx hy

theorem Segment.push (h : Segment next head l stop) (hx : x ∉ l) :
    Segment (Function.update next x head) (some x) (x :: l) stop := by
  refine ⟨rfl, ?_⟩
  rw [Function.update_self]
  exact h.update hx head

theorem Segment.relink (h : Segment next head (l ++ [x]) stop) (hx : x ∉ l) (v : Option α) :
    Segment (Function.update next x v) head (l ++ [x]) v := by
  obtain ⟨mid, hl, hlast⟩ := segment_append.mp h
  exact segment_append.mpr ⟨mid, hl.update hx v, hlast.1, Function.update_self ..⟩

theorem Segment.splice {stop' : Option α} {mid : Option α} (h : Segment next head (l ++ [x]) stop)
    (hx : x ∉ l) (h' : Segment next mid l' stop') (hx' : x ∉ l') :
    Segment (Function.update next x mid) head (l ++ [x] ++ l') stop' :=
  segment_append.mpr ⟨mid, h.relink hx mid, h'.update hx' mid⟩

end Libcrpm.Memory
