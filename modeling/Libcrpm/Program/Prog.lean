import Mathlib.Logic.Function.Basic
import Mathlib.Data.List.Basic

/-!
# Programs over a shared state

A program is a tree of atomic steps on a state.  A step may wait for a guard,
which models a lock or a barrier, and the program that follows may depend on the
state the step found.  `run` executes a program alone, `Mid` gives every state it
passes through, which is where a crash may stop it, and `par` runs several
programs under a schedule.

`rg` is a rely-guarantee precondition: under interference `R` of the others every
step of the program is in `G`, and it ends in the postcondition.  `wp` is the case
without interference, with a condition `C` that every state passed through meets.
-/

namespace Libcrpm.Program

inductive Prog (σ α : Type) : Type where
  | pure (a : α)
  | step (guard : σ → Bool) (update : σ → σ) (next : σ → Prog σ α)
  /-- The process terminates itself. -/
  | exit

/-- Access to a component of a state. -/
structure Lens (σ τ : Type) where
  get : σ → τ
  set : τ → σ → σ
  get_set : ∀ t s, get (set t s) = t
  set_set : ∀ t t' s, set t (set t' s) = set t s
  set_get : ∀ s, set (get s) s = s

namespace Prog

variable {σ τ α β : Type}

protected def bind : Prog σ α → (α → Prog σ β) → Prog σ β
  | .pure a, k => k a
  | .step g f next, k => .step g f fun s => (next s).bind k
  | .exit, _ => .exit

instance : Monad (Prog σ) where
  pure := .pure
  bind := Prog.bind

def act (f : σ → σ) : Prog σ Unit := .step (fun _ => true) f fun _ => .pure ()

def read (f : σ → α) : Prog σ α := .step (fun _ => true) id fun s => .pure (f s)

def fetch (f : σ → α) (upd : σ → σ) : Prog σ α :=
  .step (fun _ => true) upd fun s => .pure (f s)

def await (guard : σ → Bool) (f : σ → σ) : Prog σ Unit := .step guard f fun _ => .pure ()

def forEach : List β → (β → Prog σ Unit) → Prog σ Unit
  | [], _ => .pure ()
  | x :: rest, body => (body x).bind fun _ => forEach rest body

def zoom (l : Lens σ τ) : Prog τ α → Prog σ α
  | .pure a => .pure a
  | .step g f next => .step (fun s => g (l.get s)) (fun s => l.set (f (l.get s)) s)
      fun s => (next (l.get s)).zoom l
  | .exit => .exit

/-- Run a program on what `get` shows of the state; `put` makes its updates. -/
def through (get : τ → σ) (put : σ → τ → τ) : Prog σ α → Prog τ α
  | .pure a => .pure a
  | .step g f next => .step (fun t => g (get t)) (fun t => put (f (get t)) t)
      fun t => (next (get t)).through get put
  | .exit => .exit

theorem forEach_singleton (x : β) (body : β → Prog σ Unit) : forEach [x] body = body x := by
  have hbind : ∀ p : Prog σ Unit, p.bind (fun _ => .pure ()) = p := by
    intro p
    induction p with
    | pure a => rfl
    | step g f next ih => simp only [Prog.bind, ih]
    | exit => rfl
  exact hbind (body x)

/-! ## Execution -/

/-- The result of running alone; `none` if the program blocks or exits. -/
def run : Prog σ α → σ → Option (α × σ)
  | .pure a, s => some (a, s)
  | .step g f next, s => if g s then (next s).run (f s) else none
  | .exit, _ => none

@[simp] theorem run_pure (a : α) (s : σ) : (pure a : Prog σ α).run s = some (a, s) := rfl

@[simp] theorem run_bind (p : Prog σ α) (k : α → Prog σ β) (s : σ) :
    (p >>= k).run s = (p.run s).bind fun r => (k r.1).run r.2 := by
  change (p.bind k).run s = _
  induction p generalizing s with
  | pure a => rfl
  | step g f next ih =>
      simp only [Prog.bind, run, ih]
      split <;> rfl
  | exit => rfl

@[simp] theorem run_act (f : σ → σ) (s : σ) : (act f).run s = some ((), f s) := rfl

@[simp] theorem run_read (f : σ → α) (s : σ) : (read f).run s = some (f s, s) := rfl

@[simp] theorem run_fetch (f : σ → α) (upd : σ → σ) (s : σ) :
    (fetch f upd).run s = some (f s, upd s) := rfl

theorem run_await {guard : σ → Bool} (f : σ → σ) {s : σ} (h : guard s = true) :
    (await guard f).run s = some ((), f s) := by
  simp [await, run, h]

/-- A program on a component runs as on its own, beside the rest of the state. -/
theorem run_zoom (l : Lens σ τ) (p : Prog τ α) (s : σ) :
    (p.zoom l).run s = (p.run (l.get s)).map fun r => (r.1, l.set r.2 s) := by
  induction p generalizing s with
  | pure a => simp [zoom, run, l.set_get]
  | step g f next ih =>
      simp only [zoom, run]
      split
      · rw [ih, l.get_set]
        simp only [l.set_set]
      · rfl
  | exit => rfl

@[simp] theorem run_forEach_nil (body : β → Prog σ Unit) (s : σ) :
    (forEach [] body).run s = some ((), s) := rfl

@[simp] theorem run_forEach_cons (x : β) (rest : List β) (body : β → Prog σ Unit) (s : σ) :
    (forEach (x :: rest) body).run s = ((body x).run s).bind fun r => (forEach rest body).run r.2 :=
  run_bind (body x) (fun _ => forEach rest body) s

theorem run_forEach_append (l l' : List β) (body : β → Prog σ Unit) (s : σ) :
    (forEach (l ++ l') body).run s =
      ((forEach l body).run s).bind fun r => (forEach l' body).run r.2 := by
  induction l generalizing s with
  | nil => rfl
  | cons x rest ih => simp only [List.cons_append, run_forEach_cons, ih, Option.bind_assoc]

theorem run_forEach_isSome (I : σ → Prop) {l : List β} {body : β → Prog σ Unit}
    (hbody : ∀ x ∈ l, ∀ t, I t → ∃ u, (body x).run t = some ((), u) ∧ I u) {s : σ} (hs : I s) :
    ∃ t, (forEach l body).run s = some ((), t) ∧ I t := by
  induction l generalizing s with
  | nil => exact ⟨s, rfl, hs⟩
  | cons x rest ih =>
      obtain ⟨t, ht, hI⟩ := hbody x (by simp) s hs
      obtain ⟨u, hu, hIu⟩ := ih (fun y hy => hbody y (by simp [hy])) hI
      exact ⟨u, by simp [ht, hu], hIu⟩

/-- Running alone, the program terminates the process. -/
def Exits : Prog σ α → σ → Prop
  | .pure _, _ => False
  | .step g f next, s => g s = true ∧ (next s).Exits (f s)
  | .exit, _ => True

section Exits

variable {s : σ}

@[simp] theorem exits_pure (a : α) : ¬ (pure a : Prog σ α).Exits s := id

@[simp] theorem exits_exit : (Prog.exit : Prog σ α).Exits s := trivial

theorem exits_bind {p : Prog σ α} {k : α → Prog σ β} :
    (p >>= k).Exits s ↔ p.Exits s ∨ ∃ r, p.run s = some r ∧ (k r.1).Exits r.2 := by
  change (p.bind k).Exits s ↔ _
  induction p generalizing s with
  | pure a => simp [Prog.bind, Exits, run]
  | step g f next ih =>
      simp only [Prog.bind, Exits, run, ih]
      cases g s <;> simp
  | exit => simp [Prog.bind, Exits]

theorem run_of_exits {p : Prog σ α} (h : p.Exits s) : p.run s = none := by
  induction p generalizing s with
  | pure a => exact h.elim
  | step g f next ih => rw [run, if_pos h.1, ih s h.2]
  | exit => rfl

theorem exits_bind_of_run {p : Prog σ α} {k : α → Prog σ β} {a : α} {t : σ}
    (h : p.run s = some (a, t)) : (p >>= k).Exits s ↔ (k a).Exits t := by
  have hno : ¬ p.Exits s := by
    intro hexits
    rw [run_of_exits hexits] at h
    cases h
  rw [exits_bind, h]
  simp [hno]

theorem exits_forEach_cons_of_run {x : β} {rest : List β} {body : β → Prog σ Unit} {t : σ}
    (h : (body x).run s = some ((), t)) :
    (forEach (x :: rest) body).Exits s ↔ (forEach rest body).Exits t :=
  exits_bind_of_run h

theorem exits_forEach_cons {x : β} (rest : List β) {body : β → Prog σ Unit}
    (h : (body x).Exits s) : (forEach (x :: rest) body).Exits s :=
  exits_bind.mpr (Or.inl h)

end Exits

/-- The states a program passes through, its first and last one included. -/
def Mid : Prog σ α → σ → σ → Prop
  | .pure _, s, t => t = s
  | .step g f next, s, t => t = s ∨ (g s = true ∧ (next s).Mid (f s) t)
  | .exit, s, t => t = s

theorem mid_self (p : Prog σ α) (s : σ) : p.Mid s s := by
  cases p with
  | pure a => rfl
  | step g f next => exact Or.inl rfl
  | exit => rfl

/-- The state after at most `k` steps. -/
def after : Nat → Prog σ α → σ → σ
  | k + 1, .step g f next, s => if g s then (next s).after k (f s) else s
  | _, _, s => s

theorem mid_after (k : Nat) (p : Prog σ α) (s : σ) : p.Mid s (p.after k s) := by
  induction k generalizing p s with
  | zero => cases p <;> exact mid_self _ s
  | succ k ih =>
      cases p with
      | step g f next =>
          rw [after]
          split
          · rename_i hg
            exact Or.inr ⟨hg, ih (next s) (f s)⟩
          · exact Or.inl rfl
      | _ => exact mid_self _ s

/-! ## Rely and guarantee -/

section Rely

variable (R G : σ → σ → Prop)

def rg : Prog σ α → (α → σ → Prop) → σ → Prop
  | .pure a, Q, s => ∀ t, R s t → Q a t
  | .step g f next, Q, s =>
      ∀ t, R s t → g t = true → G t (f t) ∧ (next t).rg Q (f t)
  | .exit, _, _ => True

variable {R G}

theorem rg_mono {p : Prog σ α} {Q Q' : α → σ → Prop} {s : σ} (h : p.rg R G Q s)
    (hq : ∀ a t, Q a t → Q' a t) : p.rg R G Q' s := by
  induction p generalizing s with
  | pure a => exact fun t ht => hq a t (h t ht)
  | step g f next ih => exact fun t ht hg => ⟨(h t ht hg).1, ih t (h t ht hg).2⟩
  | exit => trivial

theorem rg_stable (htrans : ∀ a b c, R a b → R b c → R a c) {p : Prog σ α}
    {Q : α → σ → Prop} {s s' : σ} (h : p.rg R G Q s) (hs : R s s') : p.rg R G Q s' := by
  cases p with
  | pure a => exact fun t ht => h t (htrans s s' t hs ht)
  | step g f next => exact fun t ht hg => h t (htrans s s' t hs ht) hg
  | exit => trivial

theorem rg_bind (hrefl : ∀ a, R a a) {p : Prog σ α} {k : α → Prog σ β} {Q : β → σ → Prop}
    {s : σ} (h : p.rg R G (fun a t => (k a).rg R G Q t) s) : (p >>= k).rg R G Q s := by
  change (p.bind k).rg R G Q s
  induction p generalizing s with
  | pure a => exact h s (hrefl s)
  | step g f next ih => exact fun t ht hg => ⟨(h t ht hg).1, ih t (h t ht hg).2⟩
  | exit => trivial

theorem rg_act {f : σ → σ} {Q : Unit → σ → Prop} {s : σ}
    (h : ∀ t, R s t → G t (f t) ∧ ∀ u, R (f t) u → Q () u) : (act f).rg R G Q s :=
  fun t ht _ => h t ht

theorem rg_read {f : σ → α} {Q : α → σ → Prop} {s : σ}
    (h : ∀ t, R s t → G t t ∧ ∀ u, R t u → Q (f t) u) : (read f).rg R G Q s :=
  fun t ht _ => h t ht

theorem rg_forEach (hrefl : ∀ a, R a a) {l : List β}
    {body : β → Prog σ Unit} {I : List β → σ → Prop} {s : σ}
    (hbody : ∀ done x rest t, l = done ++ x :: rest → I done t →
      (body x).rg R G (fun _ => I (done ++ [x])) t)
    (hstable : ∀ t u, I l t → R t u → I l u) (hs : I [] s) :
    (forEach l body).rg R G (fun _ => I l) s := by
  suffices h : ∀ rest done t, l = done ++ rest → I done t →
      (forEach rest body).rg R G (fun _ => I l) t from h l [] s rfl hs
  intro rest
  induction rest with
  | nil =>
      intro done t hl ht u hu
      have hdone : l = done := by simpa using hl
      subst hdone
      exact hstable t u ht hu
  | cons x rest ih =>
      intro done t hl ht
      apply rg_bind hrefl
      refine rg_mono (hbody done x rest t hl ht) fun _ u hu => ?_
      exact ih (done ++ [x]) u (by simp [hl]) hu

/-- The loop rule when each round achieves something that stays. -/
theorem rg_forEach_each {R : σ → σ → Prop} (hrefl : ∀ a, R a a)
    (htrans : ∀ a b c, R a b → R b c → R a c) {l : List β} {body : β → Prog σ Unit}
    {D : β → σ → Prop} {i s : σ} (hstable : ∀ x a b, D x a → R a b → D x b)
    (hbody : ∀ x ∈ l, ∀ a, R i a → (body x).rg R R (fun _ b => R a b ∧ D x b) a)
    (hs : R i s) : (forEach l body).rg R R (fun _ b => R s b ∧ ∀ x ∈ l, D x b) s := by
  refine rg_forEach hrefl (I := fun done b => R s b ∧ ∀ x ∈ done, D x b) ?_ ?_
    ⟨hrefl s, by simp⟩
  · intro done x rest a hl ⟨ha, hdone⟩
    refine rg_mono (hbody x (by simp [hl]) a (htrans _ _ _ hs ha)) fun _ b ⟨hab, hx⟩ => ?_
    refine ⟨htrans _ _ _ ha hab, fun y hy => ?_⟩
    rcases List.mem_append.mp hy with hin | hin
    · exact hstable y a b (hdone y hin) hab
    · obtain rfl : y = x := by simpa using hin
      exact hx
  · intro a b ⟨ha, hall⟩ hab
    exact ⟨htrans _ _ _ ha hab, fun x hx => hstable x a b (hall x hx) hab⟩

/-- A step in `R` of what `get` shows, with the rest of the state unchanged. -/
def Through (get : τ → σ) (put : σ → τ → τ) (R : σ → σ → Prop) (t u : τ) : Prop :=
  R (get t) (get u) ∧ u = put (get u) t

theorem rg_through {get : τ → σ} {put : σ → τ → τ}
    (hget : ∀ t a, G (get t) a → get (put a t) = a)
    (hput : ∀ a b t, put a (put b t) = put a t) {p : Prog σ α} {Q : α → σ → Prop} {t : τ}
    (h : p.rg R G Q (get t)) :
    (p.through get put).rg (Through get put R) (Through get put G)
      (fun a u => Q a (get u) ∧ u = put (get u) t) t := by
  induction p generalizing t with
  | pure a => exact fun u hu => ⟨h (get u) hu.1, hu.2⟩
  | step g f next ih =>
      intro u hu hg
      obtain ⟨hG, hnext⟩ := h (get u) hu.1 hg
      have hstep : get (put (f (get u)) u) = f (get u) := hget u _ hG
      refine ⟨⟨hstep ▸ hG, by rw [hstep]⟩, rg_mono (ih (get u) (hstep ▸ hnext)) fun a v hv => ?_⟩
      refine ⟨hv.1, hv.2.trans ?_⟩
      rw [hput, hu.2, hput]
  | exit => trivial

/-- A program that works on a part of the state, among threads that may change the rest. -/
theorem rg_through_frame {R' G' : τ → τ → Prop} {get : τ → σ} {put : σ → τ → τ}
    (hget : ∀ t a, G (get t) a → get (put a t) = a) (hrely : ∀ t u, R' t u → R (get t) (get u))
    (hguarantee : ∀ t a, G (get t) a → G' t (put a t)) {p : Prog σ α} {Q : α → σ → Prop} {t : τ}
    (h : p.rg R G Q (get t)) : (p.through get put).rg R' G' (fun a u => Q a (get u)) t := by
  induction p generalizing t with
  | pure a => exact fun u hu => h (get u) (hrely t u hu)
  | step g f next ih =>
      intro u hu hg
      obtain ⟨hG, hnext⟩ := h (get u) (hrely t u hu) hg
      have hstep : get (put (f (get u)) u) = f (get u) := hget u _ hG
      exact ⟨hguarantee u _ hG, ih (get u) (hstep.symm ▸ hnext)⟩
  | exit => trivial

/-- What all steps keep, those of the program and those of the others, is kept by the whole. -/
theorem rg_within {S : σ → σ → Prop} (htrans : ∀ a b c, S a b → S b c → S a c)
    (hR : ∀ a b, R a b → S a b) (hG : ∀ a b, G a b → S a b) {p : Prog σ α} {Q : α → σ → Prop}
    {i s : σ} (hs : S i s) (h : p.rg R G Q s) : p.rg R G (fun a u => Q a u ∧ S i u) s := by
  induction p generalizing s with
  | pure a => exact fun u hu => ⟨h u hu, htrans i s u hs (hR s u hu)⟩
  | step g f next ih =>
      intro u hu hg
      obtain ⟨hstep, hnext⟩ := h u hu hg
      have hto : S i (f u) := htrans i u _ (htrans i s u hs (hR s u hu)) (hG u _ hstep)
      exact ⟨hstep, ih u hto hnext⟩
  | exit => trivial

theorem rg_weaken {G' : σ → σ → Prop} (hG : ∀ a b, G a b → G' a b) {p : Prog σ α}
    {Q : α → σ → Prop} {s : σ} (h : p.rg R G Q s) : p.rg R G' Q s := by
  induction p generalizing s with
  | pure a => exact h
  | step g f next ih => exact fun u hu hg => ⟨hG u _ (h u hu hg).1, ih u (h u hu hg).2⟩
  | exit => trivial

end Rely

/-! ## Without interference -/

/-- Started in `s`, the program keeps `C` after each of its steps and ends in `Q`. -/
def wp (C : σ → Prop) (p : Prog σ α) (Q : α → σ → Prop) (s : σ) : Prop :=
  p.rg Eq (fun _ t => C t) Q s

variable {C : σ → Prop}

@[simp] theorem wp_pure {a : α} {Q : α → σ → Prop} {s : σ} :
    wp C (pure a) Q s ↔ Q a s := by
  constructor
  · intro h
    exact h s rfl
  · intro h t ht
    exact ht ▸ h

@[simp] theorem wp_pure' {a : α} {Q : α → σ → Prop} {s : σ} :
    wp C (.pure a) Q s ↔ Q a s := wp_pure

theorem wp_step {g : σ → Bool} {f : σ → σ} {next : σ → Prog σ α} {Q : α → σ → Prop} {s : σ} :
    wp C (.step g f next) Q s ↔ (g s = true → C (f s) ∧ wp C (next s) Q (f s)) := by
  constructor
  · intro h
    exact h s rfl
  · intro h t ht
    exact ht ▸ h

@[simp] theorem wp_exit {Q : α → σ → Prop} {s : σ} : wp C (.exit : Prog σ α) Q s ↔ True :=
  Iff.rfl

@[simp] theorem wp_bind {p : Prog σ α} {k : α → Prog σ β} {Q : β → σ → Prop} {s : σ} :
    wp C (p >>= k) Q s ↔ wp C p (fun a t => wp C (k a) Q t) s := by
  change wp C (p.bind k) Q s ↔ _
  induction p generalizing s with
  | pure a => simp [Prog.bind]
  | step g f next ih => simp only [Prog.bind, wp_step, ih]
  | exit => simp [Prog.bind]

@[simp] theorem wp_act {f : σ → σ} {Q : Unit → σ → Prop} {s : σ} :
    wp C (act f) Q s ↔ C (f s) ∧ Q () (f s) := by
  simp [act, wp_step]

@[simp] theorem wp_read {f : σ → α} {Q : α → σ → Prop} {s : σ} :
    wp C (read f) Q s ↔ C s ∧ Q (f s) s := by
  simp [read, wp_step]

@[simp] theorem wp_fetch {f : σ → α} {upd : σ → σ} {Q : α → σ → Prop} {s : σ} :
    wp C (fetch f upd) Q s ↔ C (upd s) ∧ Q (f s) (upd s) := by
  simp [fetch, wp_step]

@[simp] theorem wp_await {g : σ → Bool} {f : σ → σ} {Q : Unit → σ → Prop} {s : σ} :
    wp C (await g f) Q s ↔ (g s = true → C (f s) ∧ Q () (f s)) := by
  simp [await, wp_step]

theorem wp_mono {p : Prog σ α} {Q Q' : α → σ → Prop} {s : σ} (h : wp C p Q s)
    (hq : ∀ a t, Q a t → Q' a t) : wp C p Q' s :=
  rg_mono h hq

theorem wp_weaken {C' : σ → Prop} (hc : ∀ t, C t → C' t) {p : Prog σ α}
    {Q : α → σ → Prop} {s : σ} (h : wp C p Q s) : wp C' p Q s := by
  induction p generalizing s with
  | pure a => simpa using h
  | step g f next ih =>
      rw [wp_step] at h ⊢
      exact fun hg => ⟨hc _ (h hg).1, ih s (h hg).2⟩
  | exit => trivial

theorem wp_crash {p : Prog σ α} {Q : α → σ → Prop} {s : σ} (hs : C s) (h : wp C p Q s) :
    wp C p (fun a t => C t ∧ Q a t) s := by
  induction p generalizing s with
  | pure a => simpa using ⟨hs, by simpa using h⟩
  | step g f next ih =>
      rw [wp_step] at h ⊢
      exact fun hg => ⟨(h hg).1, ih s (h hg).1 (h hg).2⟩
  | exit => trivial

/-- The loop rule: `I` relates the elements already handled to the state. -/
theorem wp_forEach {l : List β} {body : β → Prog σ Unit} (I : List β → σ → Prop)
    {Q : Unit → σ → Prop} {s : σ} (hs : I [] s)
    (hbody : ∀ done x rest t, l = done ++ x :: rest → I done t →
      wp C (body x) (fun _ => I (done ++ [x])) t)
    (hq : ∀ t, I l t → Q () t) : wp C (forEach l body) Q s := by
  refine wp_mono ?_ fun _ t ht => hq t ht
  exact rg_forEach (fun _ => rfl) hbody (fun t u ht htu => htu ▸ ht) hs

/-- The postcondition may speak of the run that led to it. -/
theorem wp_run {p : Prog σ α} {Q : α → σ → Prop} {s : σ} (h : wp C p Q s) :
    wp C p (fun a t => p.run s = some (a, t) ∧ Q a t) s := by
  induction p generalizing s with
  | pure a => simpa [run] using h
  | step g f next ih =>
      rw [wp_step] at h ⊢
      intro hg
      refine ⟨(h hg).1, wp_mono (ih s (h hg).2) fun a t ht => ⟨?_, ht.2⟩⟩
      rw [run, if_pos hg]
      exact ht.1
  | exit => trivial

theorem mid_of_wp {p : Prog σ α} {Q : α → σ → Prop} {s t : σ} (h : wp C p Q s) (hs : C s)
    (ht : p.Mid s t) : C t := by
  induction p generalizing s with
  | pure a => simp only [Mid] at ht; exact ht ▸ hs
  | step g f next ih =>
      rw [wp_step] at h
      rcases ht with rfl | ⟨hg, ht⟩
      · exact hs
      · exact ih s (h hg).2 (h hg).1 ht
  | exit => simp only [Mid] at ht; exact ht ▸ hs

theorem run_of_wp {p : Prog σ α} {Q : α → σ → Prop} {s t : σ} {a : α} (h : wp C p Q s)
    (hr : p.run s = some (a, t)) : Q a t := by
  induction p generalizing s with
  | pure b =>
      simp only [run, Option.some.injEq, Prod.mk.injEq] at hr
      obtain ⟨rfl, rfl⟩ := hr
      simpa using h
  | step g f next ih =>
      rw [wp_step] at h
      simp only [run] at hr
      split at hr
      · rename_i hg
        exact ih s (h hg).2 hr
      · simp at hr
  | exit => simp [run] at hr

theorem wp_zoom (l : Lens σ τ) {p : Prog τ α} {Q : α → σ → Prop} {s : σ}
    (h : wp (fun t => C (l.set t s)) p (fun a t => Q a (l.set t s)) (l.get s)) :
    wp C (p.zoom l) Q s := by
  suffices hgen : ∀ t, wp (fun t => C (l.set t s)) p (fun a t => Q a (l.set t s)) t →
      wp C (p.zoom l) Q (l.set t s) by
    simpa only [l.set_get] using hgen (l.get s) h
  clear h
  intro t ht
  induction p generalizing t with
  | pure a => simpa [zoom] using ht
  | step g f next ih =>
      rw [zoom, wp_step]
      rw [wp_step] at ht
      simp only [l.get_set, l.set_set]
      exact fun hg => ⟨(ht hg).1, ih t (f t) (ht hg).2⟩
  | exit => trivial

theorem wp_top (p : Prog σ α) (s : σ) : wp (fun _ => True) p (fun _ _ => True) s := by
  induction p generalizing s with
  | pure a => simp
  | step g f next ih => exact wp_step.mpr fun _ => ⟨trivial, ih s (f s)⟩
  | exit => trivial

/-- A program that does not terminate itself is followed whatever it does. -/
theorem wp_bind_top {p : Prog σ α} {k : α → Prog σ β} {Q : β → σ → Prop} {s : σ}
    (h : ∀ a t, wp (fun _ => True) (k a) Q t) : wp (fun _ => True) (p >>= k) Q s :=
  wp_bind.mpr (wp_mono (wp_top p s) fun a t _ => h a t)

/-! ## What every step does -/

/-- Every step of the program, whatever state it finds, is in `R`. -/
def Within (R : σ → σ → Prop) : Prog σ α → Prop
  | .pure _ => True
  | .step _ f next => (∀ s, R s (f s)) ∧ ∀ s, (next s).Within R
  | .exit => True

section Within

variable {R : σ → σ → Prop}

@[simp] theorem within_pure (a : α) : (pure a : Prog σ α).Within R := trivial

@[simp] theorem within_exit : (Prog.exit : Prog σ α).Within R := trivial

@[simp] theorem within_act {f : σ → σ} : (act f).Within R ↔ ∀ s, R s (f s) := by
  simp [act, Within]

theorem within_read (hrefl : ∀ s, R s s) (f : σ → α) : (read f).Within R :=
  ⟨hrefl, fun _ => trivial⟩

@[simp] theorem within_fetch {f : σ → α} {upd : σ → σ} :
    (fetch f upd).Within R ↔ ∀ s, R s (upd s) := by
  simp [fetch, Within]

@[simp] theorem within_await {g : σ → Bool} {f : σ → σ} :
    (await g f).Within R ↔ ∀ s, R s (f s) := by
  simp [await, Within]

theorem within_bind {p : Prog σ α} {k : α → Prog σ β} (hp : p.Within R)
    (hk : ∀ a, (k a).Within R) : (p >>= k).Within R := by
  change (p.bind k).Within R
  induction p with
  | pure a => exact hk a
  | step g f next ih => exact ⟨hp.1, fun s => ih s (hp.2 s)⟩
  | exit => trivial

theorem within_forEach {l : List β} {body : β → Prog σ Unit}
    (h : ∀ x ∈ l, (body x).Within R) : (forEach l body).Within R := by
  induction l with
  | nil => trivial
  | cons x rest ih =>
      exact within_bind (h x (by simp)) fun _ => ih fun y hy => h y (by simp [hy])

theorem within_mono {S : σ → σ → Prop} {p : Prog σ α} (hrel : ∀ s t, R s t → S s t)
    (h : p.Within R) : p.Within S := by
  induction p with
  | pure a => trivial
  | step g f next ih => exact ⟨fun s => hrel s _ (h.1 s), fun s => ih s (h.2 s)⟩
  | exit => trivial

theorem within_zoom {l : Lens τ σ} {S : τ → τ → Prop} {p : Prog σ α}
    (hrel : ∀ s t, R (l.get s) t → S s (l.set t s)) (h : p.Within R) :
    (p.zoom l).Within S := by
  induction p with
  | pure a => trivial
  | step g f next ih =>
      exact ⟨fun s => hrel s _ (h.1 (l.get s)), fun s => ih (l.get s) (h.2 (l.get s))⟩
  | exit => trivial

theorem wp_within (hrefl : ∀ s, R s s) (htrans : ∀ a b c, R a b → R b c → R a c)
    {p : Prog σ α} {Q : α → σ → Prop} {s : σ} (hp : p.Within R) (h : wp C p Q s) :
    wp C p (fun a t => R s t ∧ Q a t) s := by
  induction p generalizing s with
  | pure a => exact wp_pure.mpr ⟨hrefl s, wp_pure.mp h⟩
  | step g f next ih =>
      rw [wp_step] at h ⊢
      refine fun hg => ⟨(h hg).1, wp_mono (ih s (hp.2 s) (h hg).2) fun a t ht => ⟨?_, ht.2⟩⟩
      exact htrans _ _ _ (hp.1 s) ht.1
  | exit => trivial

theorem wp_of_within (hrefl : ∀ s, R s s) (htrans : ∀ a b c, R a b → R b c → R a c)
    (hstable : ∀ a b, C a → R a b → C b) {p : Prog σ α} {s : σ} (hp : p.Within R) (hs : C s) :
    wp C p (fun _ t => R s t) s := by
  suffices hwp : wp C p (fun _ _ => True) s from
    wp_mono (wp_within hrefl htrans hp hwp) fun _ _ h => h.1
  induction p generalizing s with
  | pure a => exact wp_pure.mpr trivial
  | step g f next ih =>
      refine wp_step.mpr fun _ => ⟨hstable _ _ hs (hp.1 s), ?_⟩
      exact ih s (hp.2 s) (hstable _ _ hs (hp.1 s))
  | exit => trivial

end Within

/-! ## Programs an update commutes with -/

/-- Every step of the program does the same whether `upd` has been made or not, and `upd` may
as well be made after it. -/
def Commutes (upd : σ → σ) : Prog σ α → Prop
  | .pure _ => True
  | .step g f next => ∀ s, g (upd s) = g s ∧ f (upd s) = upd (f s) ∧ next (upd s) = next s ∧
      (next s).Commutes upd
  | .exit => True

section Commutes

variable {upd : σ → σ}

@[simp] theorem commutes_pure (a : α) : (pure a : Prog σ α).Commutes upd := trivial

@[simp] theorem commutes_exit : (Prog.exit : Prog σ α).Commutes upd := trivial

theorem commutes_act {f : σ → σ} (h : ∀ s, f (upd s) = upd (f s)) : (act f).Commutes upd :=
  fun s => ⟨rfl, h s, rfl, trivial⟩

theorem commutes_read {f : σ → α} (h : ∀ s, f (upd s) = f s) : (read f).Commutes upd := by
  intro s
  exact ⟨rfl, rfl, by simp only [h], trivial⟩

theorem commutes_fetch {f : σ → α} {g : σ → σ} (hf : ∀ s, f (upd s) = f s)
    (hg : ∀ s, g (upd s) = upd (g s)) : (fetch f g).Commutes upd := by
  intro s
  exact ⟨rfl, hg s, by simp only [hf], trivial⟩

theorem commutes_await {guard : σ → Bool} {f : σ → σ} (hguard : ∀ s, guard (upd s) = guard s)
    (hf : ∀ s, f (upd s) = upd (f s)) : (await guard f).Commutes upd :=
  fun s => ⟨hguard s, hf s, rfl, trivial⟩

theorem commutes_bind {p : Prog σ α} {k : α → Prog σ β} (hp : p.Commutes upd)
    (hk : ∀ a, (k a).Commutes upd) : (p >>= k).Commutes upd := by
  change (p.bind k).Commutes upd
  induction p with
  | pure a => exact hk a
  | step g f next ih =>
      intro s
      obtain ⟨hguard, hf, hnext, hrest⟩ := hp s
      exact ⟨hguard, hf, by simp only [hnext], ih s hrest⟩
  | exit => trivial

theorem commutes_forEach {l : List β} {body : β → Prog σ Unit}
    (h : ∀ x ∈ l, (body x).Commutes upd) : (forEach l body).Commutes upd := by
  induction l with
  | nil => trivial
  | cons x rest ih =>
      exact commutes_bind (h x (by simp)) fun _ => ih fun y hy => h y (by simp [hy])

theorem commutes_zoom {l : Lens τ σ} {upd : τ → τ} (hget : ∀ t, l.get (upd t) = l.get t)
    (hset : ∀ s t, l.set s (upd t) = upd (l.set s t)) (p : Prog σ α) :
    (p.zoom l).Commutes upd := by
  induction p with
  | pure a => trivial
  | step g f next ih =>
      intro t
      exact ⟨by simp only [hget], by simp only [hget, hset], by simp only [hget], ih (l.get t)⟩
  | exit => trivial

theorem Commutes.run {p : Prog σ α} (h : p.Commutes upd) (s : σ) :
    p.run (upd s) = (p.run s).map fun r => (r.1, upd r.2) := by
  induction p generalizing s with
  | pure a => rfl
  | step g f next ih =>
      obtain ⟨hguard, hf, hnext, hrest⟩ := h s
      simp only [Prog.run, hguard, hf, hnext]
      split
      · exact ih s hrest (f s)
      · rfl
  | exit => rfl

end Commutes

/-! ## Programs that always return -/

/-- The program neither waits nor terminates itself. -/
def Total : Prog σ α → Prop
  | .pure _ => True
  | .step g _ next => (∀ s, g s = true) ∧ ∀ s, (next s).Total
  | .exit => False

@[simp] theorem total_pure (a : α) : (pure a : Prog σ α).Total := trivial

@[simp] theorem total_act (f : σ → σ) : (act f).Total := by
  simp [act, Total]

@[simp] theorem total_read (f : σ → α) : (read f).Total := by
  simp [read, Total]

theorem total_bind {p : Prog σ α} {k : α → Prog σ β} (hp : p.Total) (hk : ∀ a, (k a).Total) :
    (p >>= k).Total := by
  change (p.bind k).Total
  induction p with
  | pure a => exact hk a
  | step g f next ih => exact ⟨hp.1, fun s => ih s (hp.2 s)⟩
  | exit => exact hp.elim

@[simp] theorem total_forEach {l : List β} {body : β → Prog σ Unit} (h : ∀ x ∈ l, (body x).Total) :
    (forEach l body).Total := by
  induction l with
  | nil => trivial
  | cons x rest ih =>
      exact total_bind (h x (by simp)) fun _ => ih fun y hy => h y (by simp [hy])

theorem Total.run_isSome {p : Prog σ α} (hp : p.Total) (s : σ) :
    ∃ a t, p.run s = some (a, t) := by
  induction p generalizing s with
  | pure a => exact ⟨a, s, rfl⟩
  | step g f next ih =>
      obtain ⟨a, t, h⟩ := ih s (hp.2 s) (f s)
      exact ⟨a, t, by rw [run, if_pos (hp.1 s), h]⟩
  | exit => exact hp.elim

/-! ## Several programs under a schedule -/

/-- Run `n` programs; the schedule names the one that takes the next step.  A
schedule that ends before all of them have finished leaves the section blocked. -/
def par (n : Nat) : List Nat → (Nat → Prog σ Unit) → Prog σ Unit
  | [], threads =>
      if (List.range n).all fun i => match threads i with | .pure _ => true | _ => false
      then .pure () else .step (fun _ => false) id fun _ => .pure ()
  | i :: schedule, threads =>
      if i < n then
        match threads i with
        | .pure _ => par n schedule threads
        | .step g f next =>
            .step g f fun s => par n schedule (Function.update threads i (next s))
        | .exit => .exit
      else par n schedule threads

theorem within_par {R : σ → σ → Prop} (hrefl : ∀ s, R s s) {n : Nat} {schedule : List Nat}
    {threads : Nat → Prog σ Unit} (h : ∀ i < n, (threads i).Within R) :
    (par n schedule threads).Within R := by
  induction schedule generalizing threads with
  | nil =>
      rw [par]
      split
      · trivial
      · exact ⟨hrefl, fun _ => trivial⟩
  | cons i schedule ih =>
      rw [par]
      split
      · rename_i hi
        have hthread := h i hi
        revert hthread
        cases threads i with
        | pure a => exact fun _ => ih h
        | step g f next =>
            intro hthread
            refine ⟨hthread.1, fun s => ih fun j hj => ?_⟩
            by_cases hji : j = i
            · subst hji
              rw [Function.update_self]
              exact hthread.2 s
            · rw [Function.update_of_ne hji]
              exact h j hj
        | exit => exact fun _ => trivial
      · exact ih h

/-- The parallel rule: each program guarantees what the others rely on. -/
theorem wp_par {n : Nat} {schedule : List Nat} {threads : Nat → Prog σ Unit}
    {R G : Nat → σ → σ → Prop} {Q : Nat → σ → Prop} {s : σ}
    (hrefl : ∀ i a, R i a a) (htrans : ∀ i a b c, R i a b → R i b c → R i a c)
    (hother : ∀ i j, i ≠ j → ∀ a b, G j a b → R i a b)
    (hcrash : ∀ i a b, C a → G i a b → C b) (hs : C s)
    (hthread : ∀ i < n, (threads i).rg (R i) (G i) (fun _ => Q i) s) :
    wp C (par n schedule threads) (fun _ t => ∀ i < n, Q i t) s := by
  induction schedule generalizing threads s with
  | nil =>
      rw [par]
      split
      · rename_i hdone
        rw [wp_pure']
        intro i hi
        have hfin := (List.all_eq_true.mp hdone) i (List.mem_range.mpr hi)
        have hrg := hthread i hi
        revert hfin hrg
        cases threads i with
        | pure a => exact fun _ hrg => hrg s (hrefl i s)
        | step g f next => exact fun hfin => absurd hfin (by simp)
        | exit => exact fun hfin => absurd hfin (by simp)
      · rw [wp_step]
        exact fun hg => absurd hg (by simp)
  | cons i schedule ih =>
      rw [par]
      split
      · rename_i hi
        have hrg := hthread i hi
        revert hrg
        cases hti : threads i with
        | pure a => exact fun _ => ih hs hthread
        | step g f next =>
            intro hrg
            rw [wp_step]
            intro hg
            obtain ⟨hG, hnext⟩ := hrg s (hrefl i s) hg
            have hC : C (f s) := hcrash i s (f s) hs hG
            refine ⟨hC, ih hC fun j hj => ?_⟩
            by_cases hji : j = i
            · subst hji
              simpa using hnext
            · rw [Function.update_of_ne hji]
              exact rg_stable (htrans j) (hthread j hj) (hother j i hji s (f s) hG)
        | exit => exact fun _ => trivial
      · exact ih hs hthread

theorem wp_par_same {n : Nat} {schedule : List Nat} {threads : Nat → Prog σ Unit}
    {R : σ → σ → Prop} {Q : Nat → σ → Prop} {s : σ} (hrefl : ∀ a, R a a)
    (htrans : ∀ a b c, R a b → R b c → R a c) (hcrash : ∀ a b, C a → R a b → C b) (hs : C s)
    (hthread : ∀ i < n, (threads i).rg R R (fun _ => Q i) s) :
    wp C (par n schedule threads) (fun _ t => ∀ i < n, Q i t) s :=
  wp_par (R := fun _ => R) (G := fun _ => R) (fun _ => hrefl) (fun _ => htrans)
    (fun _ _ _ _ _ h => h) (fun _ => hcrash) hs hthread

end Prog

end Libcrpm.Program
