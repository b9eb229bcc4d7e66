import Libcrpm.StateCommit

/-!
# Recovery

What `recovery` makes of an image that a crash or a shutdown left: the states and the
data of each segment.  The data comes from the copy that the committed state names;
the states of the records that it does not rewrite come from the other array.
-/

namespace Libcrpm.CheckpointImage

open Libcrpm.Persistence Libcrpm.Program

/-! ## Copies -/

theorem ntCopy_sel (m : Nvm) {dst : Area} {d : Nat} (src : Area) (s : Nat) {sel : Nat → Bool}
    {o : Nat} (ho : sel o = true) :
    ntCopy m dst d src s sel (.word dst d o) =
      (m (.word dst d o)).ntStore (m.load (.word src s o)) := by
  simp [ntCopy, Memory.ntStoreAll, ho]

theorem ntCopy_of_not (m : Nvm) {dst : Area} {d : Nat} (src : Area) (s : Nat)
    {sel : Nat → Bool} {l : Loc} (hl : ∀ o, sel o = true → l ≠ .word dst d o) :
    ntCopy m dst d src s sel l = m l := by
  cases l with
  | word a n o =>
      have hno : ¬ (a = dst ∧ n = d ∧ sel o = true) := by
        rintro ⟨rfl, rfl, ho⟩
        exact hl o ho rfl
      simp only [ntCopy, Memory.ntStoreAll, hno, if_false]
  | _ => rfl

theorem ntCopy_cases (m : Nvm) (dst : Area) (d : Nat) (src : Area) (s : Nat)
    (sel : Nat → Bool) (l : Loc) :
    ntCopy m dst d src s sel l = m l ∨
      ∃ o, l = .word dst d o ∧ sel o = true := by
  by_cases h : ∃ o, l = .word dst d o ∧ sel o = true
  · exact Or.inr h
  · exact Or.inl (ntCopy_of_not m src s fun o ho hl => h ⟨o, hl, ho⟩)

theorem ntCopy_pending (m : Nvm) (dst : Area) (d : Nat) (src : Area) (s : Nat)
    (sel : Nat → Bool) {l : Loc} (h : (m l).Pending) :
    (ntCopy m dst d src s sel l).Pending := by
  rcases ntCopy_cases m dst d src s sel l with heq | ⟨o, rfl, ho⟩
  · rwa [heq]
  · rw [ntCopy_sel m src s ho]
    exact Cell.pending_ntStore _ _

theorem load_eq_of_not_lineDiffers {m : Nvm} {dst : Area} {d : Nat} {src : Area} {s o : Nat}
    (h : lineDiffers m dst d src s o = false) :
    m.load (.word dst d o) = m.load (.word src s o) := by
  simp only [lineDiffers, List.any_eq_false, List.mem_range, kWordsPerCacheLine_eq] at h
  have hsame : m.load (.word dst d (o / 8 * 8 + o % 8)) =
      m.load (.word src s (o / 8 * 8 + o % 8)) := by
    have hbne := h (o % 8) (Nat.mod_lt o (by decide))
    rw [bne_iff_ne] at hbne
    exact not_not.mp hbne
  have hword : o / 8 * 8 + o % 8 = o := by omega
  rwa [hword] at hsame

theorem load_ntCopyWithWriteElimination (m : Nvm) (dst : Area) (d : Nat) (src : Area) (s : Nat)
    (sel : Nat → Bool) (o : Nat) (ho : sel o = true) :
    (ntCopyWithWriteElimination m dst d src s sel).load (.word dst d o) =
      m.load (.word src s o) := by
  rw [ntCopyWithWriteElimination, Memory.load]
  rcases Bool.eq_false_or_eq_true (lineDiffers m dst d src s o) with hdiff | hsame
  · rw [ntCopy_sel m src s (by simp [ho, hdiff])]
    rfl
  · rw [ntCopy_of_not m src s]
    · exact load_eq_of_not_lineDiffers hsame
    · intro o' ho' heq
      injection heq with _ _ heq
      subst heq
      simp [hsame] at ho'

theorem ntCopyWithWriteElimination_of_not (m : Nvm) {dst : Area} {d : Nat} (src : Area)
    (s : Nat) {sel : Nat → Bool} {l : Loc} (hl : ∀ o, sel o = true → l ≠ .word dst d o) :
    ntCopyWithWriteElimination m dst d src s sel l = m l := by
  refine ntCopy_of_not m src s fun o ho => hl o ?_
  simp only [Bool.and_eq_true] at ho
  exact ho.1

theorem wholeSegment_eq_true {o : Nat} : wholeSegment o = true ↔ o < kWordsPerSegment := by
  simp [wholeSegment]

/-! ## Owners of back segments -/

/-- No segment owns two back segments. -/
def InjOwners (nrBack : Nat) (img : NvmImage) : Prop :=
  ∀ b < nrBack, ∀ b' < nrBack, ∀ s, img (.backToMain b) = some s →
    img (.backToMain b') = some s → b = b'

def Owned (nrBack : Nat) (img : NvmImage) (s : Nat) : Prop :=
  ∃ b < nrBack, img (.backToMain b) = some s

instance (nrBack : Nat) (img : NvmImage) (s : Nat) : Decidable (Owned nrBack img s) :=
  inferInstanceAs (Decidable (∃ b < nrBack, img (.backToMain b) = some s))

theorem openMainToBack_succ (img : NvmImage) (nrBack : Nat) :
    openMainToBack img (nrBack + 1) = match img (.backToMain nrBack) with
      | none => openMainToBack img nrBack
      | some s => Function.update (openMainToBack img nrBack) s (some nrBack) := by
  rw [openMainToBack, List.range_succ, List.foldl_append]
  rfl

theorem openMainToBack_some {img : NvmImage} {nrBack s b : Nat}
    (h : openMainToBack img nrBack s = some b) : b < nrBack ∧ img (.backToMain b) = some s := by
  induction nrBack with
  | zero => simp [openMainToBack] at h
  | succ k ih =>
      rw [openMainToBack_succ] at h
      cases hk : img (.backToMain k) with
      | none =>
          simp only [hk] at h
          obtain ⟨hlt, howner⟩ := ih h
          exact ⟨by omega, howner⟩
      | some s' =>
          simp only [hk] at h
          by_cases hs : s = s'
          · subst hs
            rw [Function.update_self] at h
            obtain rfl : k = b := by simpa using h
            exact ⟨by omega, hk⟩
          · rw [Function.update_of_ne hs] at h
            obtain ⟨hlt, howner⟩ := ih h
            exact ⟨by omega, howner⟩

theorem openMainToBack_ne_none {img : NvmImage} {nrBack s b : Nat} (hb : b < nrBack)
    (h : img (.backToMain b) = some s) : openMainToBack img nrBack s ≠ none := by
  induction nrBack with
  | zero => omega
  | succ k ih =>
      rw [openMainToBack_succ]
      by_cases hk : b = k
      · subst hk
        simp [h]
      · have hprev := ih (by omega)
        cases hown : img (.backToMain k) with
        | none => exact hprev
        | some s' =>
            simp only [Function.update_apply]
            split
            · simp
            · exact hprev

theorem openMainToBack_eq_some {img : NvmImage} {nrBack : Nat} (hinj : InjOwners nrBack img)
    {s b : Nat} :
    openMainToBack img nrBack s = some b ↔ b < nrBack ∧ img (.backToMain b) = some s := by
  refine ⟨openMainToBack_some, fun ⟨hb, howner⟩ => ?_⟩
  cases h : openMainToBack img nrBack s with
  | none => exact absurd h (openMainToBack_ne_none hb howner)
  | some b' =>
      obtain ⟨hb', howner'⟩ := openMainToBack_some h
      rw [hinj b' hb' b hb s howner' howner]

theorem initialImage_backToMain {nb b s : Nat} :
    initialImage nb (.backToMain b) = some s ↔ b < nb ∧ b = s := by
  change (if b < nb then some b else none) = some s ↔ _
  split
  · rename_i hb
    rw [Option.some_inj]
    exact ⟨fun heq => ⟨hb, heq⟩, fun h => h.2⟩
  · rename_i hb
    exact ⟨fun heq => (by cases heq), fun h => absurd h.1 hb⟩

theorem arrays_create (n nb : Nat) :
    Arrays (create n nb) 0 (fun _ => .initial) (fun _ => .initial) where
  epoch := rfl
  epochSettled := rfl
  state _ _ := rfl
  stateSettled _ _ := rfl
  other _ _ := rfl
  draining _ _ := Or.inr (Or.inr rfl)
  inStep _ _ := Or.inr rfl

/-! ## What recovery leaves -/

/-- The state recovery gives a segment whose committed state is `c s`. -/
def recoveredState (nrBack : Nat) (img : NvmImage) (toState : SegmentState)
    (c : Nat → SegmentState) (s : Nat) : SegmentState :=
  if Owned nrBack img s ∧ c s ≠ .initial then toState else c s

/-- Recovery writes a new record for `s`. -/
def Rewritten (nrBack : Nat) (img : NvmImage) (toState : SegmentState)
    (c : Nat → SegmentState) (s : Nat) : Prop :=
  Owned nrBack img s ∧ c s ≠ .initial ∧ c s ≠ toState

instance (nrBack : Nat) (img : NvmImage) (toState : SegmentState) (c : Nat → SegmentState)
    (s : Nat) : Decidable (Rewritten nrBack img toState c s) :=
  inferInstanceAs (Decidable (_ ∧ _ ∧ _))

def otherState (img : NvmImage) (s : Nat) : SegmentState :=
  img (.segmentState (1 - img .committedEpoch % 2) s)

/-- The records recovery leaves as they are agree in both arrays. -/
def InSync (nrMain nrBack : Nat) (img : NvmImage) (toState : SegmentState)
    (c : Nat → SegmentState) : Prop :=
  ∀ s < nrMain, otherState img s = c s ∨
    (Rewritten nrBack img toState c s ∧ otherState img s ≠ toState)

def recoveredMain (nrBack : Nat) (img : NvmImage) (c : Nat → SegmentState) (s o : Nat) : Word :=
  match openMainToBack img nrBack s with
  | some b => if c s = .back then img (.word .back b o) else img (.word .main s o)
  | none => img (.word .main s o)

def recoveredBack (img : NvmImage) (c : Nat → SegmentState) (s b o : Nat) : Word :=
  if c s = .main then img (.word .main s o) else img (.word .back b o)

/-! ## The loop over the back segments -/

/-- The owners of back segments are segments of main memory. -/
def OwnersInRange (nrMain nrBack : Nat) (img : NvmImage) : Prop :=
  ∀ b < nrBack, ∀ s, img (.backToMain b) = some s → s < nrMain

/-- The data after the back segments in `done` were handled. -/
structure Copied (n nb : Nat) (img : NvmImage) (c : Nat → SegmentState)
    (done : List Nat) (t : CheckpointImage) : Prop where
  nrMain : t.nrMain = n
  nrBack : t.nrBack = nb
  mainToBack : t.mainToBack = openMainToBack img nb
  attributes : t.mem.load .attributes = img .attributes
  attributesSettled : (t.mem .attributes).Settled
  bound : ∀ b, t.mem.load (.backToMain b) = img (.backToMain b)
  boundSettled : ∀ b, (t.mem (.backToMain b)).Settled
  pending : ∀ area s o, (t.mem (.word area s o)).Pending
  main : InjOwners nb img → ∀ s, ∀ o < kWordsPerSegment,
    t.mem.load (.word .main s o) =
      if ∀ b ∈ openMainToBack img nb s, b ∈ done then recoveredMain nb img c s o
      else img (.word .main s o)
  back : InjOwners nb img → ∀ b < nb, ∀ s, img (.backToMain b) = some s →
    ∀ o < kWordsPerSegment, t.mem.load (.word .back b o) =
      if b ∈ done then recoveredBack img c s b o else img (.word .back b o)

theorem Copied.keeps {n nb : Nat} {img : NvmImage} {c : Nat → SegmentState} {done : List Nat}
    {t u : CheckpointImage} (h : Copied n nb img c done t) (hk : Keeps t u) :
    Copied n nb img c done u where
  nrMain := hk.nrMain.trans h.nrMain
  nrBack := hk.nrBack.trans h.nrBack
  mainToBack := hk.mainToBack.trans h.mainToBack
  attributes := (hk.load isData_attributes).trans h.attributes
  attributesSettled := (hk.data _ isData_attributes).settled h.attributesSettled
  bound b := (hk.load (isData_backToMain b)).trans (h.bound b)
  boundSettled b := (hk.data _ (isData_backToMain b)).settled (h.boundSettled b)
  pending area s o := (hk.data _ (isData_word area s o)).pending (h.pending area s o)
  main hinj s o ho := (hk.load (isData_word .main s o)).trans (h.main hinj s o ho)
  back hinj b hb s hs o ho := (hk.load (isData_word .back b o)).trans (h.back hinj b hb s hs o ho)

theorem copied_open (n nb : Nat) (img : NvmImage) (c : Nat → SegmentState) :
    Copied n nb img c [] (openImage n nb img) where
  nrMain := rfl
  nrBack := rfl
  mainToBack := rfl
  attributes := rfl
  attributesSettled := rfl
  bound _ := rfl
  boundSettled _ := rfl
  pending _ _ _ := Or.inr rfl
  main _ s o _ := by
    cases h : openMainToBack img nb s with
    | none => simp [openImage, recoveredMain, h]
    | some b => simp [openImage]
  back _ _ _ _ _ _ _ := rfl

/-- The copy that recovery makes for a segment in state `state`. -/
def copyOf (state : SegmentState) (s b : Nat) (m : Nvm) : Nvm :=
  match state with
  | .main => ntCopyWithWriteElimination m .back b .main s wholeSegment
  | .back => ntCopyWithWriteElimination m .main s .back b wholeSegment
  | _ => m

theorem copyOf_of_not_word (state : SegmentState) (s b : Nat) (m : Nvm) {l : Loc}
    (hl : ∀ area n o, l ≠ .word area n o) : copyOf state s b m l = m l := by
  cases state with
  | main => exact ntCopyWithWriteElimination_of_not m _ _ fun o _ => hl _ _ o
  | back => exact ntCopyWithWriteElimination_of_not m _ _ fun o _ => hl _ _ o
  | _ => rfl

theorem copyOf_pending (state : SegmentState) (s b : Nat) (m : Nvm) {l : Loc}
    (h : (m l).Pending) : (copyOf state s b m l).Pending := by
  cases state with
  | main => exact ntCopy_pending _ _ _ _ _ _ h
  | back => exact ntCopy_pending _ _ _ _ _ _ h
  | _ => exact h

theorem copyOf_other_main (state : SegmentState) {s s' : Nat} (b : Nat) (m : Nvm) (o : Nat)
    (h : s' ≠ s) : copyOf state s b m (.word .main s' o) = m (.word .main s' o) := by
  cases state with
  | main => exact ntCopyWithWriteElimination_of_not m _ _ (by simp)
  | back => exact ntCopyWithWriteElimination_of_not m _ _ (by simp [h])
  | _ => rfl

theorem copyOf_other_back (state : SegmentState) {b b' : Nat} (s : Nat) (m : Nvm) (o : Nat)
    (h : b' ≠ b) : copyOf state s b m (.word .back b' o) = m (.word .back b' o) := by
  cases state with
  | main => exact ntCopyWithWriteElimination_of_not m _ _ (by simp [h])
  | back => exact ntCopyWithWriteElimination_of_not m _ _ (by simp)
  | _ => rfl

theorem load_copyOf_main (state : SegmentState) (s b : Nat) (m : Nvm) {o : Nat}
    (ho : o < kWordsPerSegment) :
    (copyOf state s b m).load (.word .main s o) =
      if state = .back then m.load (.word .back b o) else m.load (.word .main s o) := by
  cases state with
  | main =>
      exact congrArg Cell.cur (ntCopyWithWriteElimination_of_not m _ _ (by simp))
  | back => exact load_ntCopyWithWriteElimination m _ _ _ _ _ o (wholeSegment_eq_true.mpr ho)
  | _ => rfl

theorem load_copyOf_back (state : SegmentState) (s b : Nat) (m : Nvm) {o : Nat}
    (ho : o < kWordsPerSegment) :
    (copyOf state s b m).load (.word .back b o) =
      if state = .main then m.load (.word .main s o) else m.load (.word .back b o) := by
  cases state with
  | main => exact load_ntCopyWithWriteElimination m _ _ _ _ _ o (wholeSegment_eq_true.mpr ho)
  | back =>
      exact congrArg Cell.cur (ntCopyWithWriteElimination_of_not m _ _ (by simp))
  | _ => rfl

theorem Copied.skip {n nb : Nat} {img : NvmImage} {c : Nat → SegmentState} {done : List Nat}
    {t : CheckpointImage} (h : Copied n nb img c done t) {b : Nat}
    (hb : img (.backToMain b) = none) : Copied n nb img c (done ++ [b]) t := by
  refine { h with main := fun hinj s o ho => ?_, back := fun hinj b' hb' s hs o ho => ?_ }
  · rw [h.main hinj s o ho]
    have hmem : (∀ b' ∈ openMainToBack img nb s, b' ∈ done ++ [b]) ↔
        ∀ b' ∈ openMainToBack img nb s, b' ∈ done := by
      refine forall₂_congr fun b' hb' => ?_
      have hne : b' ≠ b := by
        rintro rfl
        have howner := (openMainToBack_some hb').2
        rw [hb] at howner
        simp at howner
      simp [hne]
    simp only [hmem]
  · have hne : b' ≠ b := by
      rintro rfl
      rw [hb] at hs
      simp at hs
    rw [h.back hinj b' hb' s hs o ho]
    simp [hne]

theorem Copied.copy {n nb : Nat} {img : NvmImage} {c : Nat → SegmentState} {done : List Nat}
    {t : CheckpointImage} (h : Copied n nb img c done t) {b s : Nat} (hlt : b < nb)
    (hb : img (.backToMain b) = some s) (hdone : b ∉ done) :
    Copied n nb img c (done ++ [b]) (onMem (copyOf (c s) s b) t) := by
  have hkeep : ∀ l, (∀ area n o, l ≠ .word area n o) →
      (onMem (copyOf (c s) s b) t).mem l = t.mem l :=
    fun l hl => copyOf_of_not_word (c s) s b t.mem hl
  have hword : ∀ l : Loc, t.mem.load l = (t.mem l).cur := fun _ => rfl
  refine ⟨h.nrMain, h.nrBack, h.mainToBack, ?_, ?_, fun b' => ?_, fun b' => ?_,
    fun area s' o => copyOf_pending _ _ _ _ (h.pending area s' o),
    fun hinj s' o ho => ?_, fun hinj b' hb' s' hs' o ho => ?_⟩
  · rw [Memory.load, hkeep _ (by simp)]
    exact h.attributes
  · rw [hkeep _ (by simp)]
    exact h.attributesSettled
  · rw [Memory.load, hkeep _ (by simp)]
    exact h.bound b'
  · rw [hkeep _ (by simp)]
    exact h.boundSettled b'
  · by_cases hs : s' = s
    · subst hs
      have hown : openMainToBack img nb s' = some b := (openMainToBack_eq_some hinj).mpr ⟨hlt, hb⟩
      have hmain := h.main hinj s' o ho
      have hback := h.back hinj b hlt s' hb o ho
      simp only [hown, Option.mem_def, Option.some.injEq, forall_eq', hdone, if_false] at hmain hback
      simp only [hown, Option.mem_def, Option.some.injEq, forall_eq', List.mem_append,
        List.mem_singleton, or_true, if_true]
      rw [onMem, load_copyOf_main _ _ _ _ ho, hmain, hback]
      simp [recoveredMain, hown]
    · have hmem : (∀ b' ∈ openMainToBack img nb s', b' ∈ done ++ [b]) ↔
          ∀ b' ∈ openMainToBack img nb s', b' ∈ done := by
        refine forall₂_congr fun b' hb' => ?_
        have hne : b' ≠ b := by
          rintro rfl
          have howner := (openMainToBack_some hb').2
          rw [hb] at howner
          exact hs (by simpa using howner.symm)
        simp [hne]
      rw [Memory.load, mem_onMem, copyOf_other_main _ _ _ _ hs, ← hword, h.main hinj s' o ho]
      simp only [hmem]
  · by_cases hbb : b' = b
    · subst hbb
      obtain rfl : s = s' := by
        rw [hb] at hs'
        simpa using hs'
      have hown : openMainToBack img nb s = some b' :=
        (openMainToBack_eq_some hinj).mpr ⟨hlt, hb⟩
      have hmain := h.main hinj s o ho
      have hback := h.back hinj b' hlt s hb o ho
      simp only [hown, Option.mem_def, Option.some.injEq, forall_eq', hdone, if_false] at hmain hback
      simp only [List.mem_append, List.mem_singleton, or_true, if_true]
      rw [onMem, load_copyOf_back _ _ _ _ ho, hmain, hback]
      rfl
    · rw [Memory.load, mem_onMem, copyOf_other_back _ _ _ _ hbb, ← hword,
        h.back hinj b' hb' s' hs' o ho]
      simp [hbb]

/-! ## The states after the loop -/

def Handled (img : NvmImage) (toState : SegmentState) (c : Nat → SegmentState)
    (done : List Nat) (s : Nat) : Prop :=
  (∃ b ∈ done, img (.backToMain b) = some s) ∧ c s ≠ .initial ∧ c s ≠ toState

instance (img : NvmImage) (toState : SegmentState) (c : Nat → SegmentState) (done : List Nat)
    (s : Nat) : Decidable (Handled img toState c done s) :=
  inferInstanceAs (Decidable (_ ∧ _ ∧ _))

/-- The batch of recovery after the back segments in `done`. -/
def recoveryBatch (img : NvmImage) (toState : SegmentState) (c : Nat → SegmentState)
    (done : List Nat) (s : Nat) : SegmentState :=
  if Handled img toState c done s then toState else otherState img s

theorem handled_range {img : NvmImage} {toState : SegmentState} {c : Nat → SegmentState}
    {nb s : Nat} :
    Handled img toState c (List.range nb) s ↔ Rewritten nb img toState c s := by
  simp [Handled, Rewritten, Owned]

theorem handled_append {img : NvmImage} {toState : SegmentState} {c : Nat → SegmentState}
    {done : List Nat} {b s : Nat} :
    Handled img toState c (done ++ [b]) s ↔ Handled img toState c done s ∨
      (img (.backToMain b) = some s ∧ c s ≠ .initial ∧ c s ≠ toState) := by
  simp only [Handled, List.mem_append, List.mem_singleton, or_and_right, exists_or,
    exists_eq_left]

/-- The state of the loop of recovery. -/
structure Recovering (n nb : Nat) (img : NvmImage) (toState : SegmentState) (e : Nat)
    (c : Nat → SegmentState) (done : List Nat) (t : CheckpointImage) : Prop
    extends Copied n nb img c done t where
  staged : Staged t e c (recoveryBatch img toState c done)
  update : t.segmentStateUpdate = true
  flagged : ∀ s, Handled img toState c done s →
    t.segmentStateDirty (s / kRecordsPerCacheLine) = true ∨ otherState img s = toState

/-- The epoch, the current array and the bindings are those of the image. -/
structure Recoverable (n : Nat) (img : NvmImage) (e : Nat) (c : Nat → SegmentState)
    (t : CheckpointImage) : Prop where
  nrMain : t.nrMain = n
  current : Current t e c
  bound : ∀ b, t.mem.load (.backToMain b) = img (.backToMain b)
  boundSettled : ∀ b, (t.mem (.backToMain b)).Settled

theorem Recovering.recoverable {n nb : Nat} {img : NvmImage} {toState : SegmentState} {e : Nat}
    {c : Nat → SegmentState} {done : List Nat} {t : CheckpointImage}
    (h : Recovering n nb img toState e c done t) : Recoverable n img e c t :=
  ⟨h.nrMain, h.staged.toCurrent, h.bound, h.boundSettled⟩

theorem Recoverable.of_staging {n : Nat} {img : NvmImage} {e : Nat} {c : Nat → SegmentState}
    {t u : CheckpointImage} (h : Recoverable n img e c t) (hs : Staging t e c u) :
    Recoverable n img e c u where
  nrMain := hs.keeps.nrMain.trans h.nrMain
  current := hs.current
  bound b := (hs.keeps.load (isData_backToMain b)).trans (h.bound b)
  boundSettled b := (hs.keeps.data _ (isData_backToMain b)).settled (h.boundSettled b)

theorem recovering_open {n nb : Nat} {img : NvmImage} (toState : SegmentState) {e : Nat}
    {c : Nat → SegmentState} (h : Committed n img e c) :
    Recovering n nb img toState e c []
      { openImage n nb img with segmentStateUpdate := true } where
  toCopied := (copied_open n nb img c).keeps (keeps_of_eq rfl rfl rfl fun _ _ => rfl)
  staged := {
    epoch := h.1
    epochSettled := rfl
    state := h.2
    stateSettled := fun _ _ => rfl
    other := fun s _ => by
      have hno : ¬ Handled img toState c [] s := by simp [Handled]
      rw [recoveryBatch, if_neg hno, otherState, h.1]
      rfl
    draining := fun _ _ => Or.inr (Or.inr rfl) }
  update := rfl
  flagged s hs := by simp [Handled] at hs

theorem Recovering.stay {n nb : Nat} {img : NvmImage} {toState : SegmentState} {e : Nat}
    {c : Nat → SegmentState} {done : List Nat} {t u : CheckpointImage} {b : Nat}
    (h : Recovering n nb img toState e c done t) (hd : Copied n nb img c (done ++ [b]) u)
    (hm : ∀ l, ¬ IsData l → u.mem l = t.mem l)
    (hf : u.segmentStateDirty = t.segmentStateDirty)
    (hu : u.segmentStateUpdate = t.segmentStateUpdate)
    (hb : ∀ s, img (.backToMain b) = some s → c s = .initial ∨ c s = toState) :
    Recovering n nb img toState e c (done ++ [b]) u := by
  have hsame : ∀ s, Handled img toState c (done ++ [b]) s ↔ Handled img toState c done s := by
    intro s
    rw [handled_append, or_iff_left_iff_imp]
    rintro ⟨howner, hinit, hto⟩
    exact ((hb s howner).elim hinit hto).elim
  refine ⟨hd, ?_, hu.trans h.update, fun s hs => ?_⟩
  · refine (h.staged.of_eq (hd.nrMain.trans h.nrMain.symm) hm hf).congr fun s _ => ?_
    simp only [recoveryBatch, hsame]
  · rw [hf]
    exact h.flagged s ((hsame s).mp hs)

theorem wp_recoverCopy {C : CheckpointImage → Prop} {t : CheckpointImage} {s b : Nat}
    {state : SegmentState} (hcopy : C (onMem (copyOf state s b) t)) :
    Prog.wp C (recoverCopy s b state) (fun _ u => u = onMem (copyOf state s b) t) t := by
  cases state with
  | main => exact Prog.wp_act.mpr ⟨hcopy, rfl⟩
  | back => exact Prog.wp_act.mpr ⟨hcopy, rfl⟩
  | _ => exact Prog.wp_pure.mpr rfl

theorem wp_recoverBack {n nb : Nat} {img : NvmImage} {toState : SegmentState} {e : Nat}
    {c : Nat → SegmentState} {done : List Nat} {t : CheckpointImage} {b : Nat}
    (hrange : OwnersInRange n nb img) (h : Recovering n nb img toState e c done t)
    (hlt : b < nb) (hdone : b ∉ done) :
    Prog.wp (Recoverable n img e c) (recoverBack toState (e % 2) b)
      (fun _ => Recovering n nb img toState e c (done ++ [b])) t := by
  have hstart := h.recoverable
  simp only [recoverBack, Prog.wp_bind, Prog.wp_read, getBackToMain, h.bound b]
  refine ⟨hstart, ?_⟩
  cases howner : img (.backToMain b) with
  | none =>
      refine Prog.wp_pure.mpr (h.stay (h.skip howner) (fun _ _ => rfl) rfl rfl fun s hs => ?_)
      rw [howner] at hs
      simp at hs
  | some s =>
      have hs : s < n := hrange b hlt s howner
      have hstate : t.mem.load (.segmentState (e % 2) s) = c s :=
        h.staged.state s (h.nrMain ▸ hs)
      have hcopied := h.toCopied.copy hlt howner hdone
      have hnodata : ∀ l, ¬ IsData l → (onMem (copyOf (c s) s b) t).mem l = t.mem l := by
        intro l hl
        refine copyOf_of_not_word _ _ _ _ fun area n o hword => hl ?_
        rw [hword]
        trivial
      have hmid : Recoverable n img e c (onMem (copyOf (c s) s b) t) :=
        ⟨hcopied.nrMain, h.staged.toCurrent.of_eq rfl (hnodata _ id) fun s _ => hnodata _ id,
          hcopied.bound, hcopied.boundSettled⟩
      have hself : ∀ s', img (.backToMain b) = some s' → s' = s := by
        intro s' hs'
        rw [howner] at hs'
        simpa using hs'.symm
      simp only [Prog.wp_bind, Prog.wp_read, hstate]
      refine ⟨hstart, ?_⟩
      split
      · rename_i hinit
        have hskip : Copied n nb img c (done ++ [b]) t := by
          rw [hinit] at hcopied
          exact hcopied
        refine Prog.wp_pure.mpr (h.stay hskip (fun _ _ => rfl) rfl rfl fun s' hs' => ?_)
        exact Or.inl (hself s' hs' ▸ hinit)
      rename_i hinit
      rw [Prog.wp_bind]
      refine Prog.wp_mono (wp_recoverCopy hmid) ?_
      rintro _ u rfl
      split
      · rename_i hwrite
        have hwrite : c s ≠ .initial ∧ c s ≠ toState := ⟨hinit, fun heq => hwrite heq.symm⟩
        have hstaged : Staged (onMem (copyOf (c s) s b) t) e c (recoveryBatch img toState c done) :=
          h.staged.of_eq rfl hnodata rfl
        have hwp := wp_setSegmentState_staged (.refl _) hstaged h.update
          (hcopied.nrMain ▸ hs) toState
        refine Prog.wp_mono (Prog.wp_weaken (fun u hu => hmid.of_staging hu) hwp) ?_
        rintro _ u ⟨hk, hst, hn, hw⟩
        have hto : ∀ s', Handled img toState c (done ++ [b]) s' ↔
            Handled img toState c done s' ∨ s' = s := by
          intro s'
          rw [handled_append]
          refine or_congr_right ⟨fun hs' => hself s' hs'.1, ?_⟩
          rintro rfl
          exact ⟨howner, hwrite⟩
        refine ⟨hcopied.keeps hk, hst.congr fun s' _ => ?_, hw.update, fun s' hs' => ?_⟩
        · by_cases hss : s' = s
          · subst hss
            rw [Function.update_self, recoveryBatch, if_pos ((hto s').mpr (Or.inr rfl))]
          · rw [Function.update_of_ne hss, recoveryBatch, recoveryBatch]
            simp only [hto, hss, or_false]
        · by_cases hold : Handled img toState c done s'
          · exact (h.flagged s' hold).imp_left (hw.flags _)
          · obtain rfl : s' = s := ((hto s').mp hs').resolve_left hold
            refine hw.flagged.imp_right fun heq => ?_
            rwa [recoveryBatch, if_neg hold] at heq
      · rename_i hkeep
        refine Prog.wp_pure.mpr (h.stay hcopied hnodata rfl rfl fun s' hs' => ?_)
        exact Or.inr (hself s' hs' ▸ (not_not.mp hkeep).symm)

/-! ## The whole of recovery -/

/-- The states that recovery commits. -/
def committedStates (nrBack : Nat) (img : NvmImage) (toState : SegmentState)
    (c : Nat → SegmentState) (s : Nat) : SegmentState :=
  if Rewritten nrBack img toState c s then toState else otherState img s

theorem InSync.committedStates_eq {n nb : Nat} {img : NvmImage} {toState : SegmentState}
    {c : Nat → SegmentState} (h : InSync n nb img toState c) {s : Nat} (hs : s < n) :
    committedStates nb img toState c s = recoveredState nb img toState c s := by
  unfold committedStates recoveredState
  by_cases hw : Rewritten nb img toState c s
  · rw [if_pos hw, if_pos ⟨hw.1, hw.2.1⟩]
  · have hother : otherState img s = c s := (h s hs).resolve_right fun hr => hw hr.1
    rw [if_neg hw, hother]
    split
    · rename_i howned
      by_contra hne
      exact hw ⟨howned.1, howned.2, hne⟩
    · rfl

/-- The image after recovery. -/
structure Recovered (n nb : Nat) (img : NvmImage) (toState : SegmentState) (e : Nat)
    (c : Nat → SegmentState) (t : CheckpointImage) : Prop
    extends Copied n nb img c (List.range nb) t where
  current : Current t (nextEpoch e) (committedStates nb img toState c)
  arrays : InSync n nb img toState c →
    Arrays t (nextEpoch e) (recoveredState nb img toState c) (recoveredState nb img toState c)
  settled : ∀ area s o, (t.mem (.word area s o)).Settled

theorem Recovered.load_main {n nb : Nat} {img : NvmImage} {toState : SegmentState} {e : Nat}
    {c : Nat → SegmentState} {t : CheckpointImage} (h : Recovered n nb img toState e c t)
    (hinj : InjOwners nb img) (s : Nat) {o : Nat} (ho : o < kWordsPerSegment) :
    t.mem.load (.word .main s o) = recoveredMain nb img c s o := by
  have hdone : ∀ b ∈ openMainToBack img nb s, b ∈ List.range nb :=
    fun b hb => List.mem_range.mpr (openMainToBack_some hb).1
  rw [h.main hinj s o ho, if_pos hdone]

/-- A crash inside recovery shows the states before it or those it commits. -/
def RecoveryCrash (n nb : Nat) (img : NvmImage) (toState : SegmentState) (e : Nat)
    (c : Nat → SegmentState) (t : CheckpointImage) : Prop :=
  ∀ img', t.mem.CrashTo img' →
    (Committed n img' e c ∨ Committed n img' (nextEpoch e) (committedStates nb img toState c)) ∧
      ∀ b, img' (.backToMain b) = img (.backToMain b)

theorem Recoverable.recoveryCrash {n nb : Nat} {img : NvmImage} {toState : SegmentState}
    {e : Nat} {c : Nat → SegmentState} {t : CheckpointImage} (h : Recoverable n img e c t) :
    RecoveryCrash n nb img toState e c t := by
  intro img' hc
  have hcom := h.current.committed hc
  rw [h.nrMain] at hcom
  exact ⟨Or.inl hcom, fun b => ((h.boundSettled b).eq (hc _)).trans (h.bound b)⟩

theorem wp_recovery_of {n nb : Nat} {img : NvmImage} (toState : SegmentState) {e : Nat}
    {c : Nat → SegmentState} (hrange : OwnersInRange n nb img) {i : CheckpointImage}
    (hopen : Recovering n nb img toState e c [] { i with segmentStateUpdate := true }) :
    Prog.wp (RecoveryCrash n nb img toState e c) (recovery toState)
      (fun _ t => Recovered n nb img toState e c t) i := by
  have hcrash : ∀ t, Recoverable n img e c t → RecoveryCrash n nb img toState e c t := fun t ht =>
    ht.recoveryCrash
  have hepoch : biEpoch { i with segmentStateUpdate := true } = e % 2 := hopen.staged.biEpoch
  simp only [recovery, Prog.wp_bind, wp_beginSegmentStateUpdate, Prog.wp_read, hepoch]
  have hfirst := hcrash _ hopen.recoverable
  refine ⟨hfirst, hfirst, hfirst, ?_⟩
  have hback : i.nrBack = nb := hopen.nrBack
  refine Prog.wp_forEach (fun done => Recovering n nb img toState e c done) hopen ?_ ?_
  · intro done b rest t hl ht
    have hnodup : (done ++ b :: rest).Nodup := hl ▸ List.nodup_range
    have hmem : b ∈ List.range nb := by
      change List.range i.nrBack = _ at hl
      rw [← hback, hl]
      simp
    refine Prog.wp_weaken hcrash (wp_recoverBack hrange ht (List.mem_range.mp hmem) fun hb => ?_)
    exact (List.nodup_append.mp hnodup).2.2 b hb b (by simp) rfl
  · intro t ht
    change Recovering n nb img toState e c (List.range i.nrBack) t at ht
    rw [hback] at ht
    have hbatch : recoveryBatch img toState c (List.range nb) = committedStates nb img toState c := by
      funext s
      simp only [recoveryBatch, committedStates, handled_range]
    have hstaged := ht.staged
    rw [hbatch] at hstaged
    refine Prog.wp_mono (Prog.wp_weaken ?_ (wp_commitSegmentStateUpdate hstaged)) ?_
    · intro u hu img' hc'
      have hbound : ∀ b, img' (.backToMain b) = img (.backToMain b) := by
        intro b
        have hd := hu.keeps.data _ (isData_backToMain b)
        rw [(hd.settled (ht.boundSettled b)).eq (hc' _), hd.cur]
        exact ht.bound b
      refine ⟨(hu.crash img' hc').imp (fun hold => ?_) (fun hnew => ?_), hbound⟩
      · rwa [ht.nrMain] at hold
      · have hcom := hnew.committed
        rwa [ht.nrMain] at hcom
    · intro _ u hu
      refine ⟨ht.toCopied.keeps hu.keeps, hu.current, fun hsync => ?_, fun area s o => ?_⟩
      · have hn : u.nrMain = n := hu.keeps.nrMain.trans ht.nrMain
        have harr : Arrays t e c (committedStates nb img toState c) := by
          refine ⟨hstaged, fun s hs => ?_⟩
          rw [ht.nrMain] at hs
          by_cases hw : Rewritten nb img toState c s
          · refine (ht.flagged s (handled_range.mpr hw)).imp_right fun hother => ?_
            rcases hsync s hs with heq | ⟨-, hne⟩
            · exact absurd (heq.symm.trans hother) hw.2.2
            · exact absurd hother hne
          · right
            rw [committedStates, if_neg hw]
            exact (hsync s hs).resolve_right fun hr => hw hr.1
        have hsame : ∀ s < u.nrMain,
            recoveredState nb img toState c s = committedStates nb img toState c s :=
          fun s hs => (hsync.committedStates_eq (hn ▸ hs)).symm
        exact (hu.arrays harr).congr hsame hsame
      · exact hu.drained _ (isData_word area s o) (ht.pending area s o)

theorem wp_recovery {n nb : Nat} {img : NvmImage} (toState : SegmentState) {e : Nat}
    {c : Nat → SegmentState} (hrange : OwnersInRange n nb img) (hc : Committed n img e c) :
    Prog.wp (RecoveryCrash n nb img toState e c) (recovery toState)
      (fun _ t => Recovered n nb img toState e c t) (openImage n nb img) :=
  wp_recovery_of toState hrange (recovering_open toState hc)

/-! ## Recovery returns -/

theorem recoverBack_returns (toState : SegmentState) (bi b : Nat) {i : CheckpointImage}
    (hu : i.segmentStateUpdate = true) :
    ∃ t, (recoverBack toState bi b).run i = some ((), t) ∧ t.segmentStateUpdate = true := by
  have hset : ∀ (s : Nat) (j : CheckpointImage), j.segmentStateUpdate = true →
      ∃ t, (setSegmentState s toState).run j = some ((), t) ∧ t.segmentStateUpdate = true := by
    intro s j hj
    simp only [setSegmentState, Prog.run_bind, Prog.run_read, Option.bind_some, hj, if_true]
    split
    · exact ⟨j, rfl, hj⟩
    · exact ⟨writeRecord (1 - j.biEpoch) s toState j, rfl, hj⟩
  have hcopy : ∀ (s : Nat) (state : SegmentState),
      ∃ t, (recoverCopy s b state).run i = some ((), t) ∧ t.segmentStateUpdate = true := by
    intro s state
    cases state <;> exact ⟨_, rfl, hu⟩
  simp only [recoverBack, Prog.run_bind, Prog.run_read, Option.bind_some]
  cases i.getBackToMain b with
  | none => exact ⟨i, rfl, hu⟩
  | some s =>
      simp only [Prog.run_bind, Prog.run_read, Option.bind_some]
      split
      · exact ⟨i, rfl, hu⟩
      · obtain ⟨t, ht, htu⟩ := hcopy s (i.mem.load (.segmentState bi s))
        simp only [Prog.run_bind, ht, Option.bind_some]
        split
        · exact hset s t htu
        · exact ⟨t, rfl, htu⟩

theorem recovery_returns (toState : SegmentState) (i : CheckpointImage) :
    ∃ t, (recovery toState).run i = some ((), t) := by
  obtain ⟨t, ht, -⟩ := Prog.run_forEach_isSome (fun t => t.segmentStateUpdate = true)
    (l := List.range i.nrBack)
    (fun b _ t ht => recoverBack_returns toState _ b ht)
    (s := { i with segmentStateUpdate := true }) rfl
  refine ⟨committedImage t.committedEpoch
    (storeFence (flush (dirtyLines t (nextEpoch t.committedEpoch % 2)) t)), ?_⟩
  have hloop : (Prog.forEach (List.range i.nrBack) (recoverBack toState i.biEpoch)).run
      { i with segmentStateUpdate := true } = some ((), t) := ht
  simp only [recovery, beginSegmentStateUpdate, Prog.run_bind, Prog.run_act, Prog.run_read,
    Option.bind_some]
  change ((Prog.forEach (List.range i.nrBack) (recoverBack toState i.biEpoch)).run
    { i with segmentStateUpdate := true }).bind _ = _
  rw [hloop]
  rfl

/-- Recovery from an image returns, and leaves what `Recovered` says. -/
theorem recovery_recovered {n nb : Nat} {img : NvmImage} (toState : SegmentState) {e : Nat}
    {c : Nat → SegmentState} (hrange : OwnersInRange n nb img) (hc : Committed n img e c) :
    ∃ t, (recovery toState).run (openImage n nb img) = some ((), t) ∧
      Recovered n nb img toState e c t := by
  obtain ⟨t, ht⟩ := recovery_returns toState (openImage n nb img)
  have hrec := Prog.run_of_wp (wp_recovery toState hrange hc) ht
  exact ⟨t, ht, hrec⟩

end Libcrpm.CheckpointImage
