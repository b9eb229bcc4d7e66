import Libcrpm.Binding

/-!
# Copying blocks to their homes

A checkpoint brings one copy of the data up to date: for each segment `s` of some blocks
it writes given values to the segment `home s` of one area, with non-temporal stores
that several threads may issue.
-/

namespace Libcrpm.CheckpointImage

open Libcrpm.Persistence

/-- No two segments have the same home. -/
def InjHome (home : Nat → Option Nat) : Prop :=
  ∀ s s' d, home s = some d → home s' = some d → s = s'

theorem Bindings.injHome {n nb : Nat} {i : CheckpointImage} (h : Bindings n nb i) :
    InjHome i.mainToBack := by
  intro s s' b hs hs'
  have hfst := ((h.inverse s b).mp hs).2
  have hsnd := ((h.inverse s' b).mp hs').2
  exact Option.some.inj (hfst.symm.trans hsnd)

theorem injHome_some : InjHome some := by
  intro s s' d hs hs'
  exact (Option.some.inj hs).trans (Option.some.inj hs').symm

section

variable (area : Area) (home : Nat → Option Nat) (value : Nat → Nat → Word) (sel : Nat → Prop)

def AtHome (l : Loc) : Prop :=
  ∃ s d o, l = .word area d o ∧ home s = some d ∧ o < kWordsPerSegment ∧ sel (blockOf s o)

/-- Memory changes by flushes, fences, and stores of the values to the homes of the
selected blocks. -/
structure RefillMem (m m' : Nvm) : Prop where
  others : ∀ l, ¬ AtHome area home sel l → (m l).DrainsTo (m' l)
  refills : ∀ s d o, home s = some d → o < kWordsPerSegment → sel (blockOf s o) →
    Cell.Refills (value s o) (m (.word area d o)) (m' (.word area d o))

/-- A property of the values of one block and of the cells at its home. -/
def HomeWords (P : Word → Cell Word → Prop) (block : Nat) (m : Nvm) : Prop :=
  ∀ s d, home s = some d → ∀ o < kWordsPerSegment, blockOf s o = block →
    P (value s o) (m (.word area d o))

end

def Queued (v : Word) (cell : Cell Word) : Prop := cell.cur = v ∧ cell.Pending

def Filled (v : Word) (cell : Cell Word) : Prop := cell.Only v

variable {area : Area} {home : Nat → Option Nat} {value : Nat → Nat → Word} {sel : Nat → Prop}
  {m m' m'' : Nvm}

theorem not_atHome_of_ne {l : Loc} (hl : ∀ d o, l ≠ .word area d o) : ¬ AtHome area home sel l := by
  rintro ⟨s, d, o, rfl, -⟩
  exact hl d o rfl

theorem not_atHome_word (hinj : InjHome home) {s d o : Nat} (hd : home s = some d)
    (hsel : ¬ sel (blockOf s o)) : ¬ AtHome area home sel (.word area d o) := by
  rintro ⟨s', d', o', heq, hd', ho', hsel'⟩
  injection heq with _ hdd hoo
  subst hdd hoo
  obtain rfl := hinj s s' d hd hd'
  exact hsel hsel'

theorem RefillMem.of_drains (h : m.Drains m') : RefillMem area home value sel m m' :=
  ⟨fun l _ => h l, fun _ d o _ _ _ => Cell.DrainsTo.refills (h (.word area d o)) _⟩

theorem RefillMem.refl (m : Nvm) : RefillMem area home value sel m m := .of_drains (.refl m)

theorem RefillMem.trans (h : RefillMem area home value sel m m')
    (h' : RefillMem area home value sel m' m'') : RefillMem area home value sel m m'' :=
  ⟨fun l hl => (h.others l hl).trans (h'.others l hl),
    fun s d o hd ho hs => (h.refills s d o hd ho hs).trans (h'.refills s d o hd ho hs)⟩

theorem RefillMem.ntStoreAll {f : (l : Loc) → Option (Val l)}
    (hothers : ∀ l, ¬ AtHome area home sel l → f l = none)
    (hvalue : ∀ s d o, home s = some d → o < kWordsPerSegment → sel (blockOf s o) →
      f (.word area d o) = none ∨ f (.word area d o) = some (value s o)) :
    RefillMem area home value sel m (m.ntStoreAll f) := by
  constructor
  · intro l hl
    rw [Memory.ntStoreAll_none m (hothers l hl)]
    exact .refl _
  · intro s d o hd ho hs
    rcases hvalue s d o hd ho hs with hnone | hsome
    · rw [Memory.ntStoreAll_none m hnone]
      exact (Cell.DrainsTo.refl _).refills _
    · rw [Memory.ntStoreAll_some m hsome]
      exact Cell.refills_ntStore _ _

theorem HomeWords.queued {block : Nat} (h : HomeWords area home value Queued block m)
    (hsel : sel block) (hm : RefillMem area home value sel m m') :
    HomeWords area home value Queued block m' := by
  intro s d hd o ho hblock
  obtain ⟨hcur, hp⟩ := h s d hd o ho hblock
  have hr := hm.refills s d o hd ho (hblock ▸ hsel)
  exact ⟨hr.cur hcur, hr.pending hp⟩

theorem HomeWords.filled {block : Nat} (h : HomeWords area home value Filled block m)
    (hsel : sel block) (hm : RefillMem area home value sel m m') :
    HomeWords area home value Filled block m' :=
  fun s d hd o ho hblock => (hm.refills s d o hd ho (hblock ▸ hsel)).only (h s d hd o ho hblock)

theorem HomeWords.fence {block : Nat} (h : HomeWords area home value Queued block m) :
    HomeWords area home value Filled block m.fence := by
  intro s d hd o ho hblock
  obtain ⟨hcur, hp⟩ := h s d hd o ho hblock
  have honly := hp.settled_fence.only
  rwa [Cell.cur_fence, hcur] at honly

theorem blockOf_of_wholeBlock {block o : Nat}
    (h : wholeBlock (block % kBlocksPerSegment) o = true) :
    blockOf (segmentOf block) o = block ∧ o < kWordsPerSegment := by
  have hidx : o / kWordsPerBlock = block % kBlocksPerSegment := by simpa [wholeBlock] using h
  rw [segmentOf_eq, blockOf]
  rw [kWordsPerBlock_eq, kBlocksPerSegment_eq] at *
  rw [kWordsPerSegment_eq]
  omega

theorem wholeBlock_of_blockOf {s o block : Nat} (ho : o < kWordsPerSegment)
    (h : blockOf s o = block) : wholeBlock (block % kBlocksPerSegment) o = true := by
  have hidx := ((blockOf_eq_iff ho).mp h).2
  simp [wholeBlock, hidx]

end Libcrpm.CheckpointImage
