import Mathlib.Logic.Relation

/-!
# Control flow of a function

Basic blocks with their predecessors, the positions of the instructions in them, the steps
an execution takes and the dominance of instructions.
-/

namespace Libcrpm

open Relation

/-- An instruction: its block and its position there. -/
structure Inst (B : Type) where
  parent : B
  pos : Nat
deriving DecidableEq

structure ControlFlow (B : Type) where
  entry : B
  predecessors : B → List B
  size : B → Nat

namespace ControlFlow

variable {B : Type} (f : ControlFlow B)

def first : Inst B := ⟨f.entry, 0⟩

inductive Step : Inst B → Inst B → Prop
  | next {b : B} {pos : Nat} (h : pos + 1 < f.size b) : Step ⟨b, pos⟩ ⟨b, pos + 1⟩
  | jump {b b' : B} {pos : Nat} (h : pos + 1 = f.size b) (hpred : b ∈ f.predecessors b') :
      Step ⟨b, pos⟩ ⟨b', 0⟩

/-- A step that does not come to `avoided`. -/
def StepAvoiding (avoided x y : Inst B) : Prop := f.Step x y ∧ y ≠ avoided

def Reachable (x : Inst B) : Prop := ReflTransGen f.Step f.first x

/-- Every execution that comes to `b` has been at `a`. -/
def Dominates (a b : Inst B) : Prop :=
  a = f.first ∨ ¬ ReflTransGen (f.StepAvoiding a) f.first b

def StrictlyDominates (a b : Inst B) : Prop := a ≠ b ∧ f.Dominates a b

/-- An execution comes to `start` and goes on to `stop` without passing `start` again, and
`call` is strictly between them. -/
structure Between (start call stop : Inst B) : Prop where
  reachable : f.Reachable start
  before : TransGen (f.StepAvoiding start) start call
  after : TransGen (f.StepAvoiding start) call stop

variable {f}

theorem StepAvoiding.step {a x y : Inst B} (h : f.StepAvoiding a x y) : f.Step x y := h.1

theorem reachable_of_avoiding {a x y : Inst B} (hx : f.Reachable x)
    (h : ReflTransGen (f.StepAvoiding a) x y) : f.Reachable y :=
  hx.trans (ReflTransGen.mono (fun _ _ (hstep : f.StepAvoiding a _ _) => hstep.1) _ _ h)

theorem Between.reachable_call {start call stop : Inst B} (h : f.Between start call stop) :
    f.Reachable call :=
  reachable_of_avoiding h.reachable h.before.to_reflTransGen

theorem Between.reachable_stop {start call stop : Inst B} (h : f.Between start call stop) :
    f.Reachable stop :=
  reachable_of_avoiding h.reachable_call h.after.to_reflTransGen

theorem Between.pos_lt {start call stop : Inst B} (h : f.Between start call stop) :
    start.pos < f.size start.parent := by
  obtain ⟨y, hstep, _⟩ := TransGen.head'_iff.mp h.before
  cases hstep.1 with
  | next hlt => exact Nat.lt_of_succ_lt hlt
  | jump heq _ => simp only; omega

/-! ## Inside one block -/

/-- Not on the part of the block of `a` that begins at `a`. -/
def Behind (a x : Inst B) : Prop := x.parent = a.parent → x.pos < a.pos

theorem behind_top {a : Inst B} {b : B} (hne : (⟨b, 0⟩ : Inst B) ≠ a) : Behind a ⟨b, 0⟩ := by
  intro hparent
  refine Nat.pos_of_ne_zero fun hzero => hne ?_
  cases a
  simp_all

theorem Behind.step {a x y : Inst B} (hx : Behind a x) (h : f.StepAvoiding a x y) : Behind a y := by
  obtain ⟨hstep, hne⟩ := h
  cases hstep with
  | @next b pos _ =>
      intro hparent
      have hold := hx hparent
      refine Nat.lt_of_le_of_ne hold fun heq => hne ?_
      cases a
      simp_all
  | jump _ _ => exact behind_top hne

theorem Behind.steps {a x y : Inst B} (hx : Behind a x)
    (h : ReflTransGen (f.StepAvoiding a) x y) : Behind a y := by
  induction h with
  | refl => exact hx
  | tail _ hstep ih => exact ih.step hstep

theorem dominates_of_pos_lt {a b : Inst B} (hparent : a.parent = b.parent) (hlt : a.pos < b.pos) :
    f.Dominates a b := by
  by_cases hfirst : a = f.first
  · exact Or.inl hfirst
  · refine Or.inr fun hsteps => ?_
    have hbehind := (behind_top (Ne.symm hfirst)).steps hsteps hparent.symm
    omega

/-- Where a path goes from `call` before it is back at `start`. -/
def Beyond (start call x : Inst B) : Prop :=
  Behind start x ∨ x.parent = start.parent ∧ call.pos < x.pos

theorem beyond_step {start call x y : Inst B} (hx : Beyond start call x ∨ x = call)
    (h : f.StepAvoiding start x y) : Beyond start call y := by
  by_cases hbehind : Behind start x
  · exact Or.inl (hbehind.step h)
  have hpos : x.parent = start.parent ∧ call.pos ≤ x.pos := by
    obtain ⟨hparent, _⟩ := Classical.not_imp.mp hbehind
    rcases hx with (hbehind' | ⟨_, hlt⟩) | rfl
    · exact absurd hbehind' hbehind
    · exact ⟨hparent, Nat.le_of_lt hlt⟩
    · exact ⟨hparent, Nat.le_refl _⟩
  cases h.1 with
  | next _ => exact Or.inr ⟨hpos.1, Nat.lt_succ_of_le hpos.2⟩
  | jump _ _ => exact Or.inl (behind_top h.2)

theorem beyond_steps {start call x : Inst B} (h : TransGen (f.StepAvoiding start) call x) :
    Beyond start call x := by
  induction h with
  | single hstep => exact beyond_step (Or.inr rfl) hstep
  | tail _ hstep ih => exact beyond_step (Or.inl ih) hstep

theorem Between.same_block {start call stop : Inst B} (h : f.Between start call stop)
    (hparent : stop.parent = start.parent) (hlt : start.pos < stop.pos) :
    call.parent = start.parent ∧ start.pos < call.pos ∧ call.pos < stop.pos := by
  have hstop : ¬ Behind start stop := fun hbehind => by
    have := hbehind hparent
    omega
  have hcall : ¬ Behind start call := fun hbehind => hstop (hbehind.steps h.after.to_reflTransGen)
  rcases beyond_steps h.before with hbehind | ⟨hcallParent, hcallPos⟩
  · exact absurd hbehind hcall
  · rcases beyond_steps h.after with hbehind | ⟨_, hstopPos⟩
    · exact absurd hbehind hstop
    · exact ⟨hcallParent, hcallPos, hstopPos⟩

/-- An execution that is in the block of `start` before `start` does not leave the block
without passing it. -/
theorem before_steps {start x y : Inst B} (hvalid : start.pos < f.size start.parent)
    (hx : x.parent = start.parent ∧ x.pos < start.pos)
    (h : ReflTransGen (f.StepAvoiding start) x y) :
    y.parent = start.parent ∧ y.pos < start.pos := by
  induction h with
  | refl => exact hx
  | tail _ hstep ih =>
      obtain ⟨hparent, hlt⟩ := ih
      cases hstep.1 with
      | next _ =>
          refine ⟨hparent, Nat.lt_of_le_of_ne hlt fun heq => hstep.2 ?_⟩
          cases start
          simp_all
      | jump hend _ =>
          simp only at hparent hlt
          subst hparent
          omega

/-! ## Dominance -/

theorem avoiding_from_top {a x : Inst B} (h : ReflTransGen (f.StepAvoiding a) f.first x) :
    ∀ p ≤ x.pos, ReflTransGen (f.StepAvoiding a) f.first ⟨x.parent, p⟩ := by
  induction h with
  | refl =>
      intro p hp
      obtain rfl : p = 0 := Nat.le_zero.mp hp
      exact .refl
  | tail hsteps hstep ih =>
      intro p hp
      cases hstep.1 with
      | next _ =>
          rcases Nat.lt_or_eq_of_le hp with hlt | rfl
          · exact ih p (Nat.le_of_lt_succ hlt)
          · exact hsteps.tail hstep
      | jump _ _ =>
          obtain rfl : p = 0 := Nat.le_zero.mp hp
          exact hsteps.tail hstep

theorem avoiding_or_arrives {a x : Inst B} (h : f.Reachable x) :
    ReflTransGen (f.StepAvoiding a) f.first x ∨ a = f.first ∨
      ∃ z, ReflTransGen (f.StepAvoiding a) f.first z ∧ f.Step z a := by
  induction h with
  | refl => exact Or.inl .refl
  | @tail y z _ hstep ih =>
      rcases ih with hsteps | harrived
      · by_cases hz : z = a
        · exact Or.inr (Or.inr ⟨y, hsteps, hz ▸ hstep⟩)
        · exact Or.inl (hsteps.tail ⟨hstep, hz⟩)
      · exact Or.inr harrived

theorem Dominates.pos_le {a b : Inst B} (h : f.Dominates a b) (ha : f.Reachable a)
    (hparent : a.parent = b.parent) : a.pos ≤ b.pos := by
  refine Nat.le_of_not_lt fun hlt => ?_
  have hne : a ≠ f.first := by
    rintro rfl
    exact absurd hlt (Nat.not_lt_zero _)
  have havoid : ¬ ReflTransGen (f.StepAvoiding a) f.first b := h.resolve_left hne
  obtain ⟨z, hz, hstep⟩ : ∃ z, ReflTransGen (f.StepAvoiding a) f.first z ∧ f.Step z a := by
    rcases avoiding_or_arrives (a := a) ha with hsteps | hfirst | harrives
    · rcases ReflTransGen.cases_tail hsteps with heq | ⟨_, _, hlast⟩
      · exact absurd heq hne
      · exact absurd rfl hlast.2
    · exact absurd hfirst hne
    · exact harrives
  cases hstep with
  | next _ =>
      refine havoid ?_
      have htop := avoiding_from_top hz b.pos (by simp only at hlt ⊢; omega)
      simp only at hparent htop
      subst hparent
      exact htop
  | jump _ _ =>
      simp only at hlt
      omega

/-- An execution that comes to what `a` dominates has a last time at `a`. -/
theorem Dominates.steps {a b : Inst B} (h : f.Dominates a b) (hb : f.Reachable b) :
    f.Reachable a ∧ ReflTransGen (f.StepAvoiding a) a b := by
  have hlast : ∀ x, f.Reachable x → ReflTransGen (f.StepAvoiding a) f.first x ∨
      f.Reachable a ∧ ReflTransGen (f.StepAvoiding a) a x := by
    intro x hx
    induction hx with
    | refl => exact Or.inl .refl
    | @tail y z hy hstep ih =>
        by_cases hz : z = a
        · exact Or.inr ⟨hz ▸ hy.tail hstep, hz ▸ .refl⟩
        · rcases ih with hsteps | ⟨ha, hsteps⟩
          · exact Or.inl (hsteps.tail ⟨hstep, hz⟩)
          · exact Or.inr ⟨ha, hsteps.tail ⟨hstep, hz⟩⟩
  rcases hlast b hb with hsteps | hlast
  · rcases h with rfl | havoid
    · exact ⟨.refl, hsteps⟩
    · exact absurd hsteps havoid
  · exact hlast

theorem through_block {a x : Inst B} (h : ReflTransGen (f.StepAvoiding a) a x)
    (hparent : x.parent ≠ a.parent) : ∀ p ≤ x.pos, TransGen (f.StepAvoiding a) a ⟨x.parent, p⟩ ∧
      ReflTransGen (f.StepAvoiding a) ⟨x.parent, p⟩ x := by
  induction h with
  | refl => exact absurd rfl hparent
  | tail hsteps hstep ih =>
      intro p hp
      have hlast := TransGen.tail' hsteps hstep
      cases hstep.1 with
      | next _ =>
          rcases Nat.lt_or_eq_of_le hp with hlt | rfl
          · obtain ⟨hbefore, hafter⟩ := ih hparent p (Nat.le_of_lt_succ hlt)
            exact ⟨hbefore, hafter.tail hstep⟩
          · exact ⟨hlast, .refl⟩
      | jump _ _ =>
          obtain rfl : p = 0 := Nat.le_zero.mp hp
          exact ⟨hlast, .refl⟩

/-- What stands before `stop` in its block is between `stop` and what dominates it from
another block. -/
theorem between_of_dominates {start call stop : Inst B} (h : f.Dominates start stop)
    (hstop : f.Reachable stop) (hblock : start.parent ≠ stop.parent)
    (hparent : call.parent = stop.parent) (hlt : call.pos < stop.pos) :
    f.Between start call stop := by
  obtain ⟨hstart, hsteps⟩ := h.steps hstop
  obtain ⟨hbefore, hafter⟩ := through_block hsteps (Ne.symm hblock) call.pos (Nat.le_of_lt hlt)
  rw [← hparent] at hbefore hafter
  refine ⟨hstart, hbefore, ?_⟩
  rcases ReflTransGen.cases_head_iff.mp hafter with heq | ⟨y, hstep, hrest⟩
  · have hpos := congrArg Inst.pos heq
    simp only at hpos
    omega
  · exact TransGen.head' hstep hrest

theorem avoiding_or_passes {a b x : Inst B} (h : ReflTransGen (f.StepAvoiding a) f.first x) :
    ReflTransGen (f.StepAvoiding b) f.first x ∨ ReflTransGen (f.StepAvoiding a) f.first b := by
  induction h with
  | refl => exact Or.inl .refl
  | @tail y z hsteps hstep ih =>
      rcases ih with havoid | hpasses
      · by_cases hz : z = b
        · exact Or.inr (hz ▸ hsteps.tail hstep)
        · exact Or.inl (havoid.tail ⟨hstep.1, hz⟩)
      · exact Or.inr hpasses

theorem Dominates.trans {a b x : Inst B} (hab : f.Dominates a b) (hbx : f.Dominates b x) :
    f.Dominates a x := by
  refine Classical.or_iff_not_imp_left.mpr fun hne hsteps => ?_
  have hblocks := hab.resolve_left hne
  rcases avoiding_or_passes hsteps with havoid | hpasses
  · rcases hbx with rfl | hdom
    · exact hblocks .refl
    · exact hdom havoid
  · exact hblocks hpasses

/-- A path to what `a` dominates passes `a`. -/
theorem Dominates.on_path {a b x : Inst B} (h : f.Dominates a x)
    (hsteps : ReflTransGen (f.StepAvoiding b) f.first x) :
    ReflTransGen (f.StepAvoiding b) f.first a ∧ ReflTransGen (f.StepAvoiding b) a x := by
  have hsplit : ∀ y, ReflTransGen (f.StepAvoiding b) f.first y →
      ReflTransGen (f.StepAvoiding a) f.first y ∨
        ReflTransGen (f.StepAvoiding b) f.first a ∧ ReflTransGen (f.StepAvoiding b) a y := by
    intro y hy
    induction hy with
    | refl => exact Or.inl .refl
    | @tail y z hy hstep ih =>
        rcases ih with havoid | ⟨hbefore, hafter⟩
        · by_cases hz : z = a
          · subst hz
            exact Or.inr ⟨hy.tail hstep, .refl⟩
          · exact Or.inl (havoid.tail ⟨hstep.1, hz⟩)
        · exact Or.inr ⟨hbefore, hafter.tail hstep⟩
  rcases h with rfl | hdom
  · exact ⟨.refl, hsteps⟩
  · exact (hsplit x hsteps).resolve_left hdom

theorem not_dominates_back {a b : Inst B} (hne : a ≠ b) (hab : f.Dominates a b)
    (ha : f.Reachable a) : ¬ f.Dominates b a := by
  intro hba
  have hfirst : b ≠ f.first := by
    rintro rfl
    rcases hab with heq | hdom
    · exact hne heq
    · exact hdom .refl
  have hnever := hba.resolve_left hfirst
  rcases avoiding_or_arrives (a := b) ha with hsteps | heq | ⟨z, hz, hstep⟩
  · exact hnever hsteps
  · exact hfirst heq
  -- the execution that comes to `b` first has been at `a`
  rcases avoiding_or_passes (b := a) hz with havoid | hpasses
  · rcases hab with rfl | hdom
    · exact hnever .refl
    · exact hdom (havoid.tail ⟨hstep, hne.symm⟩)
  · exact hnever hpasses

theorem StrictlyDominates.trans {a b x : Inst B} (hab : f.StrictlyDominates a b)
    (hbx : f.StrictlyDominates b x) (hb : f.Reachable b) : f.StrictlyDominates a x := by
  refine ⟨?_, hab.2.trans hbx.2⟩
  rintro rfl
  exact not_dominates_back hbx.1 hbx.2 hb hab.2

/-- What stands behind a definition in its block dominates what the definition dominates, when
nothing of that comes before it. -/
theorem dominates_of_behind {d new x : Inst B} (hdom : f.StrictlyDominates d x)
    (hx : f.Reachable x) (hparent : new.parent = d.parent) (hlt : d.pos < new.pos)
    (hvalid : new.pos < f.size new.parent)
    (hnone : x.parent = d.parent → d.pos < x.pos → new.pos ≤ x.pos) : f.Dominates new x := by
  refine Or.inr fun hsteps => ?_
  obtain ⟨-, hfrom⟩ := hdom.2.on_path hsteps
  obtain ⟨hblock, hbefore⟩ := before_steps hvalid ⟨hparent.symm, hlt⟩ hfrom
  have hle := hdom.2.pos_le (hdom.2.steps hx).1 (hparent.symm.trans hblock.symm)
  have hne : d.pos ≠ x.pos := by
    intro heq
    refine hdom.1 ?_
    cases d
    cases x
    simp_all
  have hfar := hnone (hblock.trans hparent) (by omega)
  omega

theorem dominates_self (x : Inst B) : f.Dominates x x := by
  refine Classical.or_iff_not_imp_left.mpr fun hne hsteps => ?_
  rcases ReflTransGen.cases_tail hsteps with heq | ⟨_, _, hlast⟩
  · exact hne heq
  · exact hlast.2 rfl

theorem Between.start_ne_stop {start call stop : Inst B} (h : f.Between start call stop) :
    start ≠ stop := by
  obtain ⟨_, _, hlast⟩ := TransGen.tail'_iff.mp h.after
  exact hlast.2.symm

theorem comes_or_avoids {a x y : Inst B} (b : Inst B) (h : TransGen (f.StepAvoiding a) x y) :
    TransGen (f.StepAvoiding a) x b ∨ TransGen (f.StepAvoiding b) x y := by
  induction h with
  | @single y hstep =>
      by_cases hy : y = b
      · exact Or.inl (hy ▸ .single hstep)
      · exact Or.inr (.single ⟨hstep.1, hy⟩)
  | @tail y z hsteps hstep ih =>
      rcases ih with hcomes | havoids
      · exact Or.inl hcomes
      · by_cases hz : z = b
        · exact Or.inl (hz ▸ hsteps.tail hstep)
        · exact Or.inr (havoids.tail ⟨hstep.1, hz⟩)

theorem Between.split {a b call x : Inst B} (h : f.Between a call x) (hdom : f.Dominates b x) :
    f.Between a call b ∨ call = b ∨ f.Between b call x := by
  rcases comes_or_avoids b h.after with hcomes | havoids
  · exact Or.inl ⟨h.reachable, h.before, hcomes⟩
  by_cases heq : call = b
  · exact Or.inr (Or.inl heq)
  have hcall : f.Dominates b call := by
    rcases hdom with hfirst | hdom
    · exact Or.inl hfirst
    · exact Or.inr fun hsteps => hdom (hsteps.trans havoids.to_reflTransGen)
  obtain ⟨hb, hsteps⟩ := hcall.steps h.reachable_call
  refine Or.inr (Or.inr ⟨hb, ?_, havoids⟩)
  rcases ReflTransGen.cases_head_iff.mp hsteps with hsame | ⟨y, hstep, hrest⟩
  · exact absurd hsame.symm heq
  · exact TransGen.head' hstep hrest

end ControlFlow

end Libcrpm
