import Libcrpm.HybridInst
import Libcrpm.Refill

/-!
# Rounds and the copies they leave

In the state between two rounds one copy of the data holds working memory as it was at
the last round, and the other one does so except for the blocks a round in `FMODE_WBINVD`
has left stale.
-/

namespace Libcrpm.HybridInst

open Libcrpm.Persistence Libcrpm.Program CheckpointImage

abbrev Content := Nat → Nat → Word

variable {n nb : Nat} {X : Content} {e e' : Nat} {c : Nat → SegmentState} {i j : CheckpointImage}
  {t u : HybridInst}

/-! ## Reopening -/

/-- Reopening `img` restores working memory, whatever the flush mode starts with. -/
def Restores (n nb : Nat) (X : Content) (img : NvmImage) : Prop :=
  ∀ mode, ∃ t, openExisting.run (construct mode (openImage n nb img)) = some ((), t) ∧
    ∀ s < n, ∀ o < kWordsPerSegment, t.work s o = X s o

/-- The copies that the committed states of an image name hold `X`. -/
structure Holds (n nb : Nat) (X : Content) (img : NvmImage) (c : Nat → SegmentState) : Prop where
  range : OwnersInRange n nb img
  inj : InjOwners nb img
  committed : Committed n img (img .committedEpoch) c
  initial : ∀ s < n, c s = .initial → ∀ o < kWordsPerSegment, X s o = 0#64
  content : ∀ s < n, c s ≠ .initial → ∀ o < kWordsPerSegment, recoveredMain nb img c s o = X s o

def committedOf (img : NvmImage) (s : Nat) : SegmentState :=
  img (.segmentState (img .committedEpoch % 2) s)

def Agrees (n : Nat) (img : NvmImage) : Prop :=
  ∀ s < n, otherState img s = .initial ↔ committedOf img s = .initial

theorem Agrees.committedStates {img : NvmImage} (h : Agrees n img)
    (hc : Committed n img (img .committedEpoch) c) {s : Nat} (hs : s < n) :
    committedStates nb img .main c s = .initial ↔ c s = .initial := by
  rw [CheckpointImage.committedStates, ← hc.2 s hs]
  split
  · rename_i hw
    refine iff_of_false (by simp) ?_
    rw [hc.2 s hs]
    exact hw.2.1
  · exact h s hs

/-- Working memory after its preparation. -/
def prepared (t : HybridInst) (done : List Nat) : HybridInst :=
  { t with
    work := fun s => if s ∈ done ∧ t.image.getSegmentState s ≠ .initial then
      fun o => t.image.mem.load (.word .main s o) else t.work s }

theorem run_prepareWorkingMemory (t : HybridInst) :
    prepareWorkingMemory.run t = some ((), prepared t (List.range t.nrSegments)) := by
  have hseg : ∀ (s : Nat) (done : List Nat), (prepareSegment s).run (prepared t done) =
      some ((), prepared t (done ++ [s])) := by
    intro s done
    simp only [prepareSegment, Prog.run_bind, Prog.run_read, Option.bind_some]
    by_cases hinit : t.image.getSegmentState s = .initial
    · have hsame : prepared t (done ++ [s]) = prepared t done := by
        simp only [prepared]
        congr 1
        funext s'
        by_cases hs : s' = s
        · subst hs
          simp [hinit]
        · simp [hs]
      rw [if_neg (by exact not_not.mpr hinit), hsame]
      rfl
    · rw [if_pos (by exact hinit), Prog.run_act]
      simp only [prepared, Option.some.injEq, Prod.mk.injEq, true_and]
      congr 1
      funext s'
      by_cases hs : s' = s
      · subst hs
        simp [hinit]
      · simp [hs]
  have hloop : ∀ (rest done : List Nat), (Prog.forEach rest prepareSegment).run (prepared t done) =
      some ((), prepared t (done ++ rest)) := by
    intro rest
    induction rest with
    | nil => simp
    | cons s rest ih =>
        intro done
        rw [Prog.run_forEach_cons, hseg, Option.bind_some, ih]
        simp
  have hstart : prepared t [] = t := by simp [prepared]
  have hall := hloop (List.range t.nrSegments) []
  rw [hstart, List.nil_append] at hall
  simpa [prepareWorkingMemory] using hall

/-- What `Open` makes of an existing file. -/
structure Opened (n nb : Nat) (mode : FlushMode) (img : NvmImage) (e : Nat)
    (c : Nat → SegmentState) (t : HybridInst) : Prop where
  recovered : Recovered n nb img .main e c t.image
  opened : ∃ work flag, t = { construct mode t.image with work := work, hasSnapshot := flag }
  work : ∀ s < n, ∀ o, t.work s o =
    if t.image.getSegmentState s = .initial then 0#64 else t.image.mem.load (.word .main s o)

theorem run_onImage {α : Type} (p : Prog CheckpointImage α) (t : HybridInst) :
    (onImage p).run t = (p.run t.image).map fun r => (r.1, { t with image := r.2 }) := by
  rw [onImage]
  suffices h : ∀ i : CheckpointImage, (p.zoom imageLens).run { t with image := i } =
      (p.run i).map fun r => (r.1, { t with image := r.2 }) from h t.image
  induction p with
  | pure a => exact fun i => rfl
  | step g f next ih =>
      intro i
      simp only [Prog.zoom, Prog.run]
      change (if g i = true then ((next i).zoom imageLens).run { t with image := f i } else none) = _
      split
      · rw [ih]
      · rfl
  | exit => exact fun i => rfl

theorem wp_onImage {α : Type} {C : HybridInst → Prop} {p : Prog CheckpointImage α}
    {Q : α → HybridInst → Prop}
    (h : Prog.wp (fun i => C { t with image := i }) p (fun a i => Q a { t with image := i })
      t.image) : Prog.wp C (onImage p) Q t :=
  Prog.wp_zoom imageLens h

theorem openExisting_of_recovered (mode : FlushMode) {img : NvmImage}
    (hrun : (recovery .main).run i = some ((), j)) (hrec : Recovered n nb img .main e c j) :
    ∃ t, openExisting.run (construct mode i) = some ((), t) ∧ Opened n nb mode img e c t := by
  have himage : (onImage (recovery .main)).run (construct mode i) = some ((), construct mode j) := by
    rw [run_onImage]
    change ((recovery .main).run i).map _ = _
    rw [hrun]
    rfl
  let v := prepared (construct mode j) (List.range (construct mode j).nrSegments)
  refine ⟨{ v with hasSnapshot := v.existSnapshot }, ?_, hrec, ⟨_, _, rfl⟩, fun s hs o => ?_⟩
  · simp only [openExisting, Prog.run_bind, himage, Option.bind_some, run_prepareWorkingMemory,
      Prog.run_act]
    rfl
  · have hmem : s < j.nrMain := hrec.nrMain.symm ▸ hs
    change (if s ∈ List.range j.nrMain ∧ j.getSegmentState s ≠ .initial then
      fun o => j.mem.load (.word .main s o) else fun _ => 0#64) o =
      if j.getSegmentState s = .initial then 0#64 else j.mem.load (.word .main s o)
    by_cases hinit : j.getSegmentState s = .initial
    · simp [hinit]
    · simp [hinit, hmem]

theorem openExisting_opened (mode : FlushMode) {img : NvmImage} (hrange : OwnersInRange n nb img)
    (hc : Committed n img e c) :
    ∃ t, openExisting.run (construct mode (openImage n nb img)) = some ((), t) ∧
      Opened n nb mode img e c t := by
  obtain ⟨j, hrun, hrec⟩ := recovery_recovered .main hrange hc
  exact openExisting_of_recovered mode hrun hrec

theorem Holds.opened_work {img : NvmImage} (h : Holds n nb X img c) (hagree : Agrees n img)
    {mode : FlushMode} (ht : Opened n nb mode img (img .committedEpoch) c t) {s o : Nat}
    (hs : s < n) (ho : o < kWordsPerSegment) : t.work s o = X s o := by
  have hstate : t.image.getSegmentState s = .initial ↔ c s = .initial := by
    rw [ht.recovered.current.getSegmentState (ht.recovered.nrMain.symm ▸ hs)]
    exact hagree.committedStates h.committed hs
  rw [ht.work s hs o]
  by_cases hinit : c s = .initial
  · rw [if_pos (hstate.mpr hinit)]
    exact (h.initial s hs hinit o ho).symm
  · rw [if_neg fun heq => hinit (hstate.mp heq), ht.recovered.load_main h.inj s ho]
    exact h.content s hs hinit o ho

theorem Holds.restores {img : NvmImage} (h : Holds n nb X img c) (hagree : Agrees n img) :
    Restores n nb X img := by
  intro mode
  obtain ⟨t, hrun, ht⟩ := openExisting_opened mode h.range h.committed
  exact ⟨t, hrun, fun s hs o ho => h.opened_work hagree ht hs ho⟩

/-! ## The copies between two rounds -/

/-- The state that names a copy. -/
def stateOf : Area → SegmentState
  | .main => .main
  | .back => .back

def areaOf : SegmentState → Area
  | .back => .back
  | _ => .main

/-- Where a copy of a segment is kept. -/
def home (i : CheckpointImage) : Area → Nat → Option Nat
  | .main => some
  | .back => i.mainToBack

theorem targetState_eq (epoch : Nat) : targetState epoch = stateOf (targetArea epoch) := by
  unfold targetState targetArea
  split <;> rfl

theorem areaOf_stateOf (area : Area) : areaOf (stateOf area) = area := by cases area <;> rfl

theorem stateOf_ne_initial (area : Area) : stateOf area ≠ .initial := by cases area <;> simp [stateOf]

theorem stateOf_inj {area area' : Area} (h : stateOf area = stateOf area') : area = area' := by
  rw [← areaOf_stateOf area, h, areaOf_stateOf]

theorem home_congr (h : j.mainToBack = i.mainToBack) : home j = home i := by
  funext area
  cases area with
  | main => rfl
  | back => exact h

theorem injHome_home (h : Bindings n nb i) (area : Area) : InjHome (home i area) := by
  cases area with
  | main => exact injHome_some
  | back => exact h.injHome

/-- Every copy that the states `c` name is durable. -/
structure NamedCopies (n nb : Nat) (X : Content) (c : Nat → SegmentState)
    (i : CheckpointImage) : Prop extends Bindings n nb i where
  states : ∀ s < n, c s = .initial ∨ ∃ area, c s = stateOf area
  unbound : ∀ s < n, i.mainToBack s = none → c s = .initial
  initial : ∀ s < n, c s = .initial → ∀ o < kWordsPerSegment, X s o = 0#64
  named : ∀ area, ∀ s < n, c s = stateOf area → ∀ d, home i area s = some d →
    ∀ o < kWordsPerSegment, (i.mem (.word area d o)).Only (X s o)

/-- Every copy that a committed state names is durable. -/
structure Named (n nb : Nat) (X : Content) (e : Nat) (c : Nat → SegmentState)
    (i : CheckpointImage) : Prop extends NamedCopies n nb X c i where
  current : Current i e c

theorem NamedCopies.holds (h : NamedCopies n nb X c i) {img : NvmImage}
    (hdata : ∀ l, IsData l → (i.mem l).May (img l))
    (hcom : Committed n img (img .committedEpoch) c) : Holds n nb X img c := by
  have howners := h.toBindings.sameOwners hdata
  refine ⟨h.toBindings.ownersInRange howners, h.toBindings.injOwners howners, hcom, h.initial,
    fun s hs hne o ho => ?_⟩
  obtain ⟨area, harea⟩ := (h.states s hs).resolve_left hne
  rw [recoveredMain, h.toBindings.openMainToBack_eq howners]
  cases hb : i.mainToBack s with
  | none => exact absurd (h.unbound s hs hb) hne
  | some b =>
      cases area with
      | main =>
          have hmain : c s = .main := harea
          simp only [hmain, reduceCtorEq, if_false]
          exact h.named .main s hs harea s rfl o ho _ (hdata _ (isData_word .main s o))
      | back =>
          have hback : c s = .back := harea
          simp only [hback, if_true]
          exact h.named .back s hs harea b hb o ho _ (hdata _ (isData_word .back b o))

theorem Named.holds (h : Named n nb X e c i) {img : NvmImage} (hc : i.mem.CrashTo img) :
    img .committedEpoch = e ∧ Holds n nb X img c := by
  have hcom := h.current.committed hc
  rw [h.nrMain] at hcom
  exact ⟨hcom.1, h.toNamedCopies.holds (fun l _ => hc l) hcom.self⟩

/-- What every round keeps up, whatever the copies hold. -/
structure Sound (n nb : Nat) (e : Nat) (c : Nat → SegmentState) (i : CheckpointImage) : Prop
    extends Bindings n nb i where
  arrays : Arrays i e c c
  pending : ∀ area d o, (i.mem (.word area d o)).Pending

theorem Sound.keeps {c' : Nat → SegmentState} (h : Sound n nb e c i) (hk : Keeps i j)
    (ha : Arrays j e' c' c') : Sound n nb e' c' j where
  toBindings := h.toBindings.keeps hk
  arrays := ha
  pending area d o := (hk.data _ (isData_word area d o)).pending (h.pending area d o)

/-- `j` is `i` up to the attributes, flushes and fences. -/
structure Unchanged (i j : CheckpointImage) : Prop where
  nrMain : j.nrMain = i.nrMain
  nrBack : j.nrBack = i.nrBack
  mainToBack : j.mainToBack = i.mainToBack
  flags : j.segmentStateDirty = i.segmentStateDirty
  mem : ∀ l, l ≠ .attributes → (i.mem l).DrainsTo (j.mem l)

theorem Unchanged.refl (i : CheckpointImage) : Unchanged i i :=
  ⟨rfl, rfl, rfl, rfl, fun _ _ => .refl _⟩

theorem Sound.unchanged (h : Sound n nb e c i) (hj : Unchanged i j) : Sound n nb e c j where
  nrMain := hj.nrMain.trans h.nrMain
  nrBack := hj.nrBack.trans h.nrBack
  settled b := (hj.mem _ (by simp)).settled (h.settled b)
  inverse s b := by
    rw [hj.mainToBack, Memory.load, (hj.mem (.backToMain b) (by simp)).cur]
    exact h.inverse s b
  range b hb s hs := h.range b hb s ((hj.mem _ (by simp)).cur.symm.trans hs)
  arrays := h.arrays.of_drains hj.nrMain
    (fun l hl => hj.mem l (by rintro rfl; exact hl trivial)) hj.flags
  pending area d o := (hj.mem _ (by simp)).pending (h.pending area d o)

/-- The copies between two rounds: the one in `fresh` holds `X`, the other one holds it
except for the blocks in `stale`. -/
structure Steady (n nb : Nat) (X : Content) (e : Nat) (c : Nat → SegmentState) (fresh : Area)
    (stale : Nat → Prop) (i : CheckpointImage) : Prop extends Sound n nb e c i where
  states : ∀ s < n, c s = .initial ∨ ∃ area, c s = stateOf area
  unbound : ∀ s < n, i.mainToBack s = none → c s = .initial
  initial : ∀ s < n, c s = .initial → ∀ o < kWordsPerSegment, X s o = 0#64
  copies : ∀ area, ∀ s < n, ∀ d, home i area s = some d → ∀ o < kWordsPerSegment,
    (area = fresh ∨ ¬ stale (blockOf s o)) → (i.mem (.word area d o)).Only (X s o)
  staleNamed : ∀ block, stale block → c (segmentOf block) = stateOf fresh

variable {fresh : Area} {stale : Nat → Prop}

theorem Steady.named (h : Steady n nb X e c fresh stale i) : Named n nb X e c i := by
  refine ⟨⟨h.toBindings, h.states, h.unbound, h.initial,
    fun area s hs harea d hd o ho => ?_⟩, h.arrays.toCurrent⟩
  refine h.copies area s hs d hd o ho ?_
  by_cases hstale : stale (blockOf s o)
  · have hnamed := h.staleNamed _ hstale
    rw [segmentOf_blockOf ho, harea] at hnamed
    exact Or.inl (stateOf_inj hnamed)
  · exact Or.inr hstale

theorem Steady.unchanged (h : Steady n nb X e c fresh stale i) (hj : Unchanged i j) :
    Steady n nb X e c fresh stale j where
  toSound := h.toSound.unchanged hj
  states := h.states
  unbound s hs hb := h.unbound s hs (hj.mainToBack ▸ hb)
  initial := h.initial
  copies area s hs d hd o ho hf :=
    (hj.mem _ (by simp)).only (h.copies area s hs d (home_congr hj.mainToBack ▸ hd) o ho hf)
  staleNamed := h.staleNamed

/-! ## Filling a copy -/

theorem RefillMem.bindings {area : Area} {home : Nat → Option Nat} {value : Content}
    {sel : Nat → Prop} {m : Nvm} (h : Bindings n nb i) (hm : RefillMem area home value sel i.mem m) :
    Bindings n nb (onMem (fun _ => m) i) := by
  have hkeep : ∀ b, (i.mem (.backToMain b)).DrainsTo (m (.backToMain b)) :=
    fun b => hm.others _ (not_atHome_of_ne (by simp))
  refine ⟨h.nrMain, h.nrBack, fun b => (hkeep b).settled (h.settled b), fun s b => ?_,
    fun b hb s hs => h.range b hb s ((hkeep b).cur.symm.trans hs)⟩
  rw [mem_onMem, Memory.load, (hkeep b).cur]
  exact h.inverse s b

theorem Named.refill {area : Area} {value : Content} {sel : Nat → Prop} {m : Nvm}
    (h : Named n nb X e c i) (hm : RefillMem area (home i area) value sel i.mem m)
    (hsel : ∀ block, sel block → c (segmentOf block) ≠ stateOf area) :
    Named n nb X e c (onMem (fun _ => m) i) := by
  have hkeep : ∀ l, (∀ d o, l ≠ .word area d o) → (i.mem l).DrainsTo (m l) :=
    fun l hl => hm.others l (not_atHome_of_ne hl)
  refine ⟨⟨RefillMem.bindings h.toBindings hm, h.states, h.unbound, h.initial,
    fun area' s hs harea d hd o ho => ?_⟩, ?_⟩
  · have hnot : ¬ AtHome area (home i area) sel (.word area' d o) := by
      by_cases heq : area' = area
      · subst heq
        refine not_atHome_word (injHome_home h.toBindings area') hd fun hin => hsel _ hin ?_
        rw [segmentOf_blockOf ho]
        exact harea
      · exact not_atHome_of_ne fun d' o' hl => heq (by injection hl)
    exact (hm.others _ hnot).only (h.named area' s hs harea d hd o ho)
  · exact h.current.of_drains rfl (hkeep _ (by simp)) fun s _ => hkeep _ (by simp)

/-- Both copies of an image once a copy was filled: `value` in the copy that was written
and the old content in the other one. -/
structure Refilled (n nb : Nat) (X value : Content) (e : Nat) (c : Nat → SegmentState)
    (area : Area) (i : CheckpointImage) : Prop extends Sound n nb e c i where
  states : ∀ s < n, c s = .initial ∨ ∃ area, c s = stateOf area
  unbound : ∀ s < n, i.mainToBack s = none → c s = .initial
  initial : ∀ s < n, c s = .initial → ∀ o < kWordsPerSegment, X s o = 0#64
  filled : ∀ s < n, ∀ d, home i area s = some d → ∀ o < kWordsPerSegment,
    (i.mem (.word area d o)).Only (value s o)
  others : ∀ area' ≠ area, ∀ s < n, ∀ d, home i area' s = some d → ∀ o < kWordsPerSegment,
    (i.mem (.word area' d o)).Only (X s o)

theorem RefillMem.pending {area : Area} {home : Nat → Option Nat} {value : Content}
    {sel : Nat → Prop} {m m' : Nvm} (h : RefillMem area home value sel m m') {a : Area} {d o : Nat}
    (hp : (m (.word a d o)).Pending) : (m' (.word a d o)).Pending := by
  by_cases hat : AtHome area home sel (.word a d o)
  · obtain ⟨s, d', o', heq, hd, ho, hs⟩ := hat
    injection heq with ha hdd hoo
    subst ha hdd hoo
    exact (h.refills s d o hd ho hs).pending hp
  · exact (h.others _ hat).pending hp

theorem Sound.refill {area : Area} {home : Nat → Option Nat} {value : Content}
    {sel : Nat → Prop} {m : Nvm} (h : Sound n nb e c i)
    (hm : RefillMem area home value sel i.mem m) : Sound n nb e c (onMem (fun _ => m) i) where
  toBindings := RefillMem.bindings h.toBindings hm
  arrays := by
    refine h.arrays.of_drains rfl (fun l hl => hm.others l (not_atHome_of_ne ?_)) rfl
    rintro d o rfl
    exact hl (isData_word area d o)
  pending _ _ _ := RefillMem.pending hm (h.pending _ _ _)

/-- The target copy is complete once the selected blocks have been filled: the other
blocks are neither stale nor changed. -/
theorem Steady.refilled {value : Content} {sel : Nat → Prop} {m : Nvm} {area : Area}
    (h : Steady n nb X e c fresh stale i) (hfresh : area ≠ fresh)
    (hm : RefillMem area (home i area) value sel i.mem m)
    (hfilled : ∀ block, sel block → HomeWords area (home i area) value Filled block m)
    (hstale : ∀ block, stale block → sel block)
    (hsame : ∀ s < n, ∀ o < kWordsPerSegment, ¬ sel (blockOf s o) → value s o = X s o) :
    Refilled n nb X value e c area (onMem (fun _ => m) i) where
  toSound := h.toSound.refill hm
  states := h.states
  unbound := h.unbound
  initial := h.initial
  filled s hs d hd o ho := by
    have hd' : home i area s = some d := home_congr rfl ▸ hd
    by_cases hin : sel (blockOf s o)
    · exact hfilled _ hin s d hd' o ho rfl
    · rw [hsame s hs o ho hin]
      have hnot : ¬ AtHome area (home i area) sel (.word area d o) :=
        not_atHome_word (injHome_home h.toBindings area) hd' hin
      exact (hm.others _ hnot).only
        (h.copies area s hs d hd' o ho (Or.inr fun hst => hin (hstale _ hst)))
  others area' hne s hs d hd o ho := by
    have hd' : home i area' s = some d := home_congr rfl ▸ hd
    have hf : area' = fresh := by
      cases area <;> cases fresh <;> cases area' <;> simp_all
    have hnot : ¬ AtHome area (home i area) sel (.word area' d o) :=
      not_atHome_of_ne fun d' o' hl => hne (by injection hl)
    exact (hm.others _ hnot).only (h.copies area' s hs d hd' o ho (Or.inl hf))

theorem Refilled.settle {area : Area} (h : Refilled n nb X X e c area i) (fresh : Area) :
    Steady n nb X e c fresh (fun _ => False) i where
  toSound := h.toSound
  states := h.states
  unbound := h.unbound
  initial := h.initial
  copies area' s hs d hd o ho _ := by
    by_cases heq : area' = area
    · subst heq
      exact h.filled s hs d hd o ho
    · exact h.others area' heq s hs d hd o ho
  staleNamed _ hs := False.elim hs

section Commit

variable {value : Content} {area : Area} {segments : List Nat} {dirty : Nat → Prop}
  (h : Refilled n nb X value e c area i) (hbound : ∀ s ∈ segments, i.mainToBack s ≠ none)
  (hdirty : ∀ block, dirty block → segmentOf block ∈ segments)
  (hsame : ∀ s < n, ∀ o < kWordsPerSegment, ¬ dirty (blockOf s o) → value s o = X s o)

include h hbound hdirty hsame

theorem Refilled.namedCopies : NamedCopies n nb value (setAll c segments (stateOf area)) i where
  toBindings := h.toBindings
  states s hs := by
    unfold setAll
    split
    · exact Or.inr ⟨area, rfl⟩
    · exact h.states s hs
  unbound s hs hb := by
    unfold setAll
    split
    · rename_i hin
      exact absurd hb (hbound s hin)
    · exact h.unbound s hs hb
  initial s hs hinit o ho := by
    unfold setAll at hinit
    split at hinit
    · exact absurd hinit (stateOf_ne_initial area)
    · rename_i hno
      have hclean : ¬ dirty (blockOf s o) := by
        intro hd
        have hin := hdirty _ hd
        rw [segmentOf_blockOf ho] at hin
        exact hno hin
      rw [hsame s hs o ho hclean]
      exact h.initial s hs hinit o ho
  named area' s hs harea d hd o ho := by
    by_cases heq : area' = area
    · subst heq
      exact h.filled s hs d hd o ho
    · have hclean : ¬ dirty (blockOf s o) := by
        intro hd
        have hin := hdirty _ hd
        rw [segmentOf_blockOf ho] at hin
        rw [setAll, if_pos hin] at harea
        exact heq (stateOf_inj harea).symm
      rw [hsame s hs o ho hclean]
      exact h.others area' heq s hs d hd o ho

/-- The copies after the commit of a round: what was dirty is stale in the copy that was
not written. -/
theorem Refilled.steady (hk : Keeps i j)
    (ha : Arrays j e' (setAll c segments (stateOf area)) (setAll c segments (stateOf area))) :
    Steady n nb value e' (setAll c segments (stateOf area)) area dirty j where
  toSound := h.toSound.keeps hk ha
  states := (h.namedCopies hbound hdirty hsame).states
  unbound s hs hb := (h.namedCopies hbound hdirty hsame).unbound s hs (hk.mainToBack ▸ hb)
  initial := (h.namedCopies hbound hdirty hsame).initial
  copies area' s hs d hd o ho hf := by
    have hd' : home i area' s = some d := home_congr hk.mainToBack ▸ hd
    refine (hk.data _ (isData_word area' d o)).only ?_
    by_cases heq : area' = area
    · subst heq
      exact h.filled s hs d hd' o ho
    · rw [hsame s hs o ho (hf.resolve_left heq)]
      exact h.others area' heq s hs d hd' o ho
  staleNamed block hd := by simp only [setAll, if_pos (hdirty block hd)]

end Commit

end Libcrpm.HybridInst
