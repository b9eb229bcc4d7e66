import Libcrpm.LmcEngine
import Libcrpm.Program.SpinLocks

/-!
# What the threads know of the tags

In an epoch that began with the data `X` a block is clean, or its shadow is durable, and its tag is
only set behind the shadow.  Nobody stores to a block before its tag is durable, so that a crash
leaves either a tag of the epoch and a whole shadow, or an older tag and the working state as it was.
-/

namespace Libcrpm.LmcEngine

open Libcrpm.Persistence Libcrpm.Program

namespace HookPc

def block : HookPc → Option Nat
  | .app => none
  | .acquire b | .test b | .giveUp b | .copy b _ | .fenceCopy b | .setTag b | .flushTag b
  | .fenceTag b | .release b | .record b => some b

def locked : HookPc → Option Nat
  | .app | .acquire _ | .record _ => none
  | .test b | .giveUp b | .copy b _ | .fenceCopy b | .setTag b | .flushTag b | .fenceTag b
  | .release b => some b

/-- The block whose tag the thread has set and not fenced yet. -/
def tagging : HookPc → Option Nat
  | .flushTag b | .fenceTag b => some b
  | _ => none

/-- The block that the thread has tagged and not put on its flush list yet. -/
def unlisted : HookPc → Option Nat
  | .release b | .record b => some b
  | _ => none

variable {pc : HookPc} {b : Nat}

theorem locked_of_tagging (h : pc.tagging = some b) : pc.locked = some b := by
  cases pc <;> first | exact h | cases h

/-- A thread at `q` may go to `p` if it takes no lock, gives none back, and sets no tag. -/
structure Moves (q p : HookPc) : Prop where
  locked : p.locked = q.locked
  block : ∀ b, p.block = some b → q.block = some b
  tagging : ∀ b, q.tagging = some b → p.tagging = some b
  unlisted : ∀ b, q.unlisted = some b → p.unlisted = some b

end HookPc

/-! ## The state of a block -/

section Blocks

variable (X : Nat → Nat) (e : Nat) (m : SharedMemory Loc Nat) (b : Nat)

/-- No crash leaves the tag of the epoch. -/
def Clean : Prop := (m (.tagmap b)).Durably (· < e)

def Tagged : Prop := (m (.tagmap b)).Durably (e ≤ ·)

def Kept : Prop := ∀ o, o / kWordsPerBlock = b → (m (.working o)).Durably (· = X o)

def Shadowed : Prop := ∀ o, o / kWordsPerBlock = b → (m (.shadow o)).Durably (· = X o)

structure BlockInv : Prop where
  bounded : (m (.tagmap b)).Durably (· ≤ e)
  kept : Kept X m b ∨ Tagged e m b
  shadowed : Clean e m b ∨ Shadowed X m b

/-- The first `n` words of the shadow of `b` are durable at the next fence of thread `tid`. -/
def Copied (tid n : Nat) : Prop :=
  ∀ i < n, (m (.shadow (b * kWordsPerBlock + i))).Pending tid (· = X (b * kWordsPerBlock + i))

/-- Every block with the tag of the epoch is on a flush list, or will be. -/
inductive Status (lists : Nat → List Nat) (pc : Nat → HookPc) : Prop
  | clean (h : Clean e m b)
  | tagging (t : Nat) (h : (pc t).tagging = some b)
  | unlisted (h : Tagged e m b) (t : Nat) (hpc : (pc t).unlisted = some b)
  | listed (h : Tagged e m b) (hlist : FlushLists.Listed lists b ∨ FlushLists.Full lists)

def At (tid : Nat) : HookPc → Prop
  | .app | .acquire _ | .test _ => True
  | .giveUp b | .release b | .record b => Tagged e m b
  | .copy b copied => copied ≤ kWordsPerBlock ∧ Clean e m b ∧ Copied X m b tid copied
  | .fenceCopy b => Clean e m b ∧ Copied X m b tid kWordsPerBlock
  | .setTag b => Clean e m b ∧ Shadowed X m b
  | .flushTag b => e ≤ m.load (.tagmap b)
  | .fenceTag b => (m (.tagmap b)).Pending tid (e ≤ ·)

end Blocks

/-- The flag says that the file contains a snapshot. -/
def Flag (attributes : Nat) : Prop := attributes &&& kAttributeHasSnapshot ≠ 0

/-- `committed` if some checkpoint has taken effect. -/
structure Inv (X : Nat → Nat) (e : Nat) (committed : Bool) (s : LmcEngine) : Prop where
  pos : 0 < e
  le : e ≤ kMaxEpoch
  epoch : (s.mem .currentEpoch).Durably (· = e)
  flag : committed = true ∨ s.hasSnapshot = true → (s.mem .attributes).Durably Flag
  blocks : ∀ b < s.nrBlocks, BlockInv X e s.mem b
  status : ∀ b < s.nrBlocks, Status e s.mem b s.flushBlocks s.pc
  locks : LocksInv lockOf HookPc.locked s.segmentLocks s.pc
  inPool : ∀ t b, (s.pc t).block = some b → b < s.nrBlocks
  hooked : ∀ t, ∀ b ∈ s.hooked t, Tagged e s.mem b
  at_pc : ∀ t, At X e s.mem t (s.pc t)

/-- Where an epoch begins: no tag is the epoch, and the working state durably contains `X`. -/
structure Fresh (X : Nat → Nat) (e : Nat) (committed : Bool) (s : LmcEngine) : Prop where
  pos : 0 < e
  le : e ≤ kMaxEpoch
  epoch : (s.mem .currentEpoch).Durably (· = e)
  flag : committed = true ∨ s.hasSnapshot = true → (s.mem .attributes).Durably Flag
  clean : ∀ b < s.nrBlocks, Clean e s.mem b
  kept : ∀ b < s.nrBlocks, Kept X s.mem b
  idle : ∀ t, s.pc t = .app
  unhooked : ∀ t, s.hooked t = []

variable {X : Nat → Nat} {e : Nat} {committed : Bool} {s : LmcEngine}
  {m m' : SharedMemory Loc Nat} {b t n : Nat} {p q : HookPc} {lists lists' : Nat → List Nat}
  {pc : Nat → HookPc}

theorem Fresh.inv (h : Fresh X e committed s) : Inv X e committed s where
  pos := h.pos
  le := h.le
  epoch := h.epoch
  flag := h.flag
  blocks b hb :=
    ⟨(h.clean b hb).mono fun _ => Nat.le_of_lt, Or.inl (h.kept b hb), Or.inl (h.clean b hb)⟩
  status b hb := .clean (h.clean b hb)
  locks := locksInv_of_none fun t => by rw [h.idle t]; rfl
  inPool t b hb := by
    rw [h.idle t] at hb
    cases hb
  hooked t b hb := by
    rw [h.unhooked t] at hb
    cases hb
  at_pc t := by
    rw [h.idle t]
    trivial

theorem Clean.not_le (h : Clean e m b) (hle : e ≤ m.load (.tagmap b)) : False :=
  Nat.not_lt.mpr hle h.load

theorem Clean.not_tagged (h : Clean e m b) (htagged : Tagged e m b) : False :=
  h.not_le htagged.load

theorem BlockInv.kept_of_clean (h : BlockInv X e m b) (hclean : Clean e m b) : Kept X m b :=
  h.kept.resolve_right hclean.not_tagged

theorem word_of_block {o : Nat} (ho : o / kWordsPerBlock = b) :
    ∃ i < kWordsPerBlock, b * kWordsPerBlock + i = o :=
  ⟨o % kWordsPerBlock, Nat.mod_lt _ (by decide), by rw [← ho]; exact Nat.div_add_mod' ..⟩

theorem div_word {i : Nat} (hi : i < kWordsPerBlock) :
    (b * kWordsPerBlock + i) / kWordsPerBlock = b := by
  rw [kWordsPerBlock_eq] at hi ⊢
  omega

theorem Copied.fence (h : Copied X m b t kWordsPerBlock) : Shadowed X (m.fence t) b := by
  intro o ho
  obtain ⟨i, hi, rfl⟩ := word_of_block ho
  exact (h i hi).fence

/-! ## What is left when another thread has taken a step -/

/-- What a step leaves of a block, its working state apart. -/
structure Leaves (e : Nat) (m m' : SharedMemory Loc Nat) (b : Nat) : Prop where
  bounded : (m (.tagmap b)).Durably (· ≤ e) → (m' (.tagmap b)).Durably (· ≤ e)
  tag : (m (.tagmap b)).Raises (m' (.tagmap b))
  clean : Clean e m b → Clean e m' b
  shadow : ∀ o, o / kWordsPerBlock = b → (m (.shadow o)).DrainsTo (m' (.shadow o))

theorem Leaves.of_drains (h : m.Drains m') (b : Nat) : Leaves e m m' b where
  bounded := (h _).durably _
  tag := (h _).raises
  clean := (h _).durably _
  shadow _ _ := h _

theorem Leaves.of_eq (htag : m' (.tagmap b) = m (.tagmap b))
    (hshadow : ∀ o, o / kWordsPerBlock = b → m' (.shadow o) = m (.shadow o)) :
    Leaves e m m' b where
  bounded h := htag ▸ h
  tag := htag ▸ .refl _
  clean h := by
    unfold Clean
    rw [htag]
    exact h
  shadow o ho := hshadow o ho ▸ .refl _

theorem Tagged.raise (h : Tagged e m b) (htag : (m (.tagmap b)).Raises (m' (.tagmap b))) :
    Tagged e m' b :=
  htag.durably _ h

theorem Shadowed.leaves (h : Shadowed X m b) (hl : Leaves e m m' b) : Shadowed X m' b :=
  fun o ho => (hl.shadow o ho).durably _ (h o ho)

theorem Copied.leaves (h : Copied X m b t n) (hn : n ≤ kWordsPerBlock) (hl : Leaves e m m' b) :
    Copied X m' b t n :=
  fun i hi => (hl.shadow _ (div_word (Nat.lt_of_lt_of_le hi hn))).pending t _ (h i hi)

theorem BlockInv.leaves (h : BlockInv X e m b) (hl : Leaves e m m' b)
    (hkept : Kept X m b → Kept X m' b ∨ Tagged e m b) : BlockInv X e m' b where
  bounded := hl.bounded h.bounded
  kept := by
    rcases h.kept with hkept' | htagged
    · exact (hkept hkept').imp id (Tagged.raise · hl.tag)
    · exact Or.inr (htagged.raise hl.tag)
  shadowed := h.shadowed.imp hl.clean (Shadowed.leaves · hl)

theorem At.leaves (h : At X e m t p)
    (htags : ∀ b, (m (.tagmap b)).Raises (m' (.tagmap b)))
    (hl : ∀ b, p.locked = some b → Leaves e m m' b) : At X e m' t p := by
  cases p with
  | app => trivial
  | acquire => trivial
  | test => trivial
  | giveUp b => exact Tagged.raise h (htags b)
  | release b => exact Tagged.raise h (htags b)
  | record b => exact Tagged.raise h (htags b)
  | copy b copied =>
      obtain ⟨hle, hclean, hcopied⟩ := h
      exact ⟨hle, (hl b rfl).clean hclean, hcopied.leaves hle (hl b rfl)⟩
  | fenceCopy b =>
      obtain ⟨hclean, hcopied⟩ := h
      exact ⟨(hl b rfl).clean hclean, hcopied.leaves (Nat.le_refl _) (hl b rfl)⟩
  | setTag b =>
      obtain ⟨hclean, hshadowed⟩ := h
      exact ⟨(hl b rfl).clean hclean, hshadowed.leaves (hl b rfl)⟩
  | flushTag b => exact Nat.le_trans h (htags b).load
  | fenceTag b => exact (htags b).pending t _ h

theorem Status.update (h : Status e m b lists pc) (hclean : Clean e m b → Clean e m' b)
    (htag : (m (.tagmap b)).Raises (m' (.tagmap b)))
    (hlists : FlushLists.Listed lists b ∨ FlushLists.Full lists →
      FlushLists.Listed lists' b ∨ FlushLists.Full lists')
    (htagging : (pc t).tagging = some b → p.tagging = some b)
    (hunlisted : (pc t).unlisted = some b → p.unlisted = some b) :
    Status e m' b lists' (Function.update pc t p) := by
  cases h with
  | clean h => exact .clean (hclean h)
  | tagging t' h =>
      refine .tagging t' ?_
      by_cases ht : t' = t
      · subst ht
        rw [Function.update_self]
        exact htagging h
      · rwa [Function.update_of_ne ht]
  | unlisted h t' hpc =>
      refine .unlisted (h.raise htag) t' ?_
      by_cases ht : t' = t
      · subst ht
        rw [Function.update_self]
        exact hunlisted hpc
      · rwa [Function.update_of_ne ht]
  | listed h hlist => exact .listed (h.raise htag) (hlists hlist)

/-- A step of thread `t` that only writes to the block it has locked. -/
structure StepOf (e t : Nat) (p : HookPc) (s s' : LmcEngine) : Prop where
  nrBlocks : s'.nrBlocks = s.nrBlocks
  hasSnapshot : s'.hasSnapshot = s.hasSnapshot
  pc : s'.pc = Function.update s.pc t p
  block : ∀ b, p.block = some b → b < s.nrBlocks
  epoch : (s.mem .currentEpoch).DrainsTo (s'.mem .currentEpoch)
  attributes : (s.mem .attributes).DrainsTo (s'.mem .attributes)
  tags : ∀ b, (s.mem (.tagmap b)).Raises (s'.mem (.tagmap b))
  others : ∀ b, (s.pc t).locked ≠ some b → Leaves e s.mem s'.mem b

theorem Inv.of_step {s' : LmcEngine} (h : Inv X e committed s) (hstep : StepOf e t p s s')
    (hblocks : ∀ b < s.nrBlocks, BlockInv X e s'.mem b)
    (hstatus : ∀ b < s.nrBlocks, Status e s'.mem b s'.flushBlocks s'.pc)
    (hlocks : LocksInv lockOf HookPc.locked s'.segmentLocks s'.pc)
    (hhooked : ∀ t, ∀ b ∈ s'.hooked t, Tagged e s'.mem b) (hat : At X e s'.mem t p) :
    Inv X e committed s' where
  pos := h.pos
  le := h.le
  epoch := hstep.epoch.durably _ h.epoch
  flag hflag := hstep.attributes.durably _ (h.flag (hstep.hasSnapshot ▸ hflag))
  blocks b hb := hblocks b (hstep.nrBlocks ▸ hb)
  status b hb := hstatus b (hstep.nrBlocks ▸ hb)
  locks := hlocks
  inPool t' b hb := by
    rw [hstep.pc] at hb
    rw [hstep.nrBlocks]
    by_cases ht : t' = t
    · subst ht
      rw [Function.update_self] at hb
      exact hstep.block b hb
    · rw [Function.update_of_ne ht] at hb
      exact h.inPool t' b hb
  hooked := hhooked
  at_pc t' := by
    rw [hstep.pc]
    by_cases ht : t' = t
    · subst ht
      rw [Function.update_self]
      exact hat
    · rw [Function.update_of_ne ht]
      refine (h.at_pc t').leaves hstep.tags fun b hb => hstep.others b fun hb' => ?_
      exact ht (h.locks.exclusive t' t b b hb hb' rfl)

end Libcrpm.LmcEngine
