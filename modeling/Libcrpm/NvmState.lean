import Libcrpm.Binding
import Libcrpm.NvmInst

/-!
# Snapshots and the copies that hold them

Which of the two copies of a block holds the last checkpoint, in the states the NVM
engine is in between its calls when every checkpoint uses the flush lists.
-/

namespace Libcrpm

open Libcrpm.Persistence Libcrpm.Program CheckpointImage

/-- What a checkpoint has to restore: the content of main memory and the blocks that
had been written. -/
structure Snapshot where
  content : Nat → Nat → Word
  written : Nat → Prop

namespace NvmInst

/-- Reopening `img` restores a snapshot in main memory. -/
def Restores (n nb : Nat) (X : Snapshot) (img : NvmImage) : Prop :=
  ∃ t, (recovery .back).run (openImage n nb img) = some ((), t) ∧
    ∀ s < n, ∀ o < kWordsPerSegment, X.written (blockOf s o) →
      t.mem.load (.word .main s o) = X.content s o

/-- The committed states of an image name copies that hold the snapshot. -/
structure Holds (n nb : Nat) (X : Snapshot) (img : NvmImage) (c : Nat → SegmentState) : Prop where
  range : OwnersInRange n nb img
  inj : InjOwners nb img
  committed : Committed n img (img .committedEpoch) c
  content : ∀ s < n, ∀ o < kWordsPerSegment, X.written (blockOf s o) →
    recoveredMain nb img c s o = X.content s o

theorem Holds.restores {n nb : Nat} {X : Snapshot} {img : NvmImage} {c : Nat → SegmentState}
    (h : Holds n nb X img c) : Restores n nb X img := by
  obtain ⟨t, hrun, hrec⟩ := recovery_recovered .back h.range h.committed
  refine ⟨t, hrun, fun s hs o ho hw => ?_⟩
  rw [hrec.load_main h.inj s ho]
  exact h.content s hs o ho hw

/-! ## Between two calls -/

/-- The image between two calls, with snapshot `X` committed under epoch `e` and states
`c`.  The blocks in `touched` may have changed since; only segments in `dirty` have such
blocks, and these keep their back segment.  The back copy of the segments in `fresh`
has not been filled yet. -/
structure Steady (n nb : Nat) (X : Snapshot) (e : Nat) (c : Nat → SegmentState)
    (dirty touched fresh : Nat → Prop) (i : CheckpointImage) : Prop
    extends Bindings n nb i where
  arrays : Arrays i e c c
  states : ∀ s < n, c s = .initial ∨ c s = .back
  written : ∀ s < n, ∀ o < kWordsPerSegment, X.written (blockOf s o) → c s ≠ .initial
  back : ∀ s b, i.mainToBack s = some b → ¬ fresh s → ∀ o < kWordsPerSegment,
    X.written (blockOf s o) → (i.mem (.word .back b o)).Only (X.content s o)
  main : ∀ s < n, ∀ o < kWordsPerSegment, X.written (blockOf s o) → ¬ touched (blockOf s o) →
    (i.mem (.word .main s o)).Only (X.content s o)
  touchedDirty : ∀ block, touched block → dirty (segmentOf block)
  dirtyBound : ∀ s < n, dirty s → i.mainToBack s ≠ none
  allBound : n = nb → ∀ s < n, i.mainToBack s ≠ none

variable {n nb : Nat} {X : Snapshot} {e : Nat} {c : Nat → SegmentState}
  {dirty touched fresh : Nat → Prop} {i : CheckpointImage}

def NoFresh : Nat → Prop := fun _ => False

theorem Steady.mainToBack_lt (h : Steady n nb X e c dirty touched fresh i) {s b : Nat}
    (hs : i.mainToBack s = some b) : b < nb ∧ s < n := by
  obtain ⟨hb, howner⟩ := (h.inverse s b).mp hs
  exact ⟨hb, h.range b hb s howner⟩

theorem Steady.recoveredMain_eq (h : Steady n nb X e c dirty touched NoFresh i) {img : NvmImage}
    (hdata : ∀ l, IsData l → (i.mem l).May (img l)) {c' : Nat → SegmentState} {s o : Nat}
    (hs : s < n) (ho : o < kWordsPerSegment) (hw : X.written (blockOf s o)) (hc : c' s = c s) :
    recoveredMain nb img c' s o = X.content s o := by
  have howners := h.toBindings.sameOwners hdata
  have hstate : c s = .back := (h.states s hs).resolve_left (h.written s hs o ho hw)
  rw [recoveredMain, h.toBindings.openMainToBack_eq howners]
  cases hb : i.mainToBack s with
  | none =>
      have hclean : ¬ touched (blockOf s o) := by
        intro htouched
        have hdirty := h.touchedDirty _ htouched
        rw [segmentOf_blockOf ho] at hdirty
        exact h.dirtyBound s hs hdirty hb
      exact h.main s hs o ho hw hclean _ (hdata _ (isData_word .main s o))
  | some b =>
      simp only [hc, hstate, if_true]
      exact h.back s b hb id o ho hw _ (hdata _ (isData_word .back b o))

theorem Steady.holds (h : Steady n nb X e c dirty touched NoFresh i) {img : NvmImage}
    (hdata : ∀ l, IsData l → (i.mem l).May (img l)) {c' : Nat → SegmentState}
    (hcom : Committed n img (img .committedEpoch) c')
    (hc : ∀ s < n, ∀ o < kWordsPerSegment, X.written (blockOf s o) → c' s = c s) :
    Holds n nb X img c' where
  range := h.toBindings.ownersInRange (h.toBindings.sameOwners hdata)
  inj := h.toBindings.injOwners (h.toBindings.sameOwners hdata)
  committed := hcom
  content s hs o ho hw := h.recoveredMain_eq hdata hs ho hw (hc s hs o ho hw)

/-- A crash under the epoch `e` leaves the snapshot. -/
def Recoverable (n nb : Nat) (X : Snapshot) (e : Nat) (i : CheckpointImage) : Prop :=
  ∀ img, i.mem.CrashTo img → img .committedEpoch = e ∧ ∃ c, Holds n nb X img c

theorem Steady.recoverable (h : Steady n nb X e c dirty touched NoFresh i) :
    Recoverable n nb X e i := by
  intro img hc
  have hcom := h.arrays.committed hc
  rw [h.nrMain] at hcom
  exact ⟨hcom.1, c, h.holds (fun l _ => hc l) hcom.self fun _ _ _ _ _ => rfl⟩

/-! ## Changes that keep the invariant -/

theorem Steady.grow {dirty' touched' : Nat → Prop}
    (h : Steady n nb X e c dirty touched fresh i)
    (htouched : ∀ block, touched block → touched' block)
    (hdirty : ∀ block, touched' block → dirty' (segmentOf block))
    (hbound : ∀ s < n, dirty' s → i.mainToBack s ≠ none) :
    Steady n nb X e c dirty' touched' fresh i where
  toBindings := h.toBindings
  arrays := h.arrays
  states := h.states
  written := h.written
  back := h.back
  main s hs o ho hw hno := h.main s hs o ho hw fun ht => hno (htouched _ ht)
  touchedDirty := hdirty
  dirtyBound := hbound
  allBound := h.allBound

theorem Steady.keeps {t : CheckpointImage} {c' : Nat → SegmentState}
    (h : Steady n nb X e c dirty touched fresh i) (hk : Keeps i t) (ha : Arrays t e c' c')
    (hstates : ∀ s < n, c' s = .initial ∨ c' s = .back)
    (hwritten : ∀ s < n, c s ≠ .initial → c' s ≠ .initial) :
    Steady n nb X e c' dirty touched fresh t where
  toBindings := h.toBindings.keeps hk
  arrays := ha
  states := hstates
  written s hs o ho hw := hwritten s hs (h.written s hs o ho hw)
  back s b hb hf o ho hw :=
    (hk.data _ (isData_word .back b o)).only (h.back s b (hk.mainToBack ▸ hb) hf o ho hw)
  main s hs o ho hw hno := (hk.data _ (isData_word .main s o)).only (h.main s hs o ho hw hno)
  touchedDirty := h.touchedDirty
  dirtyBound s hs hd := hk.mainToBack ▸ h.dirtyBound s hs hd
  allBound hnb s hs := hk.mainToBack ▸ h.allBound hnb s hs

theorem Steady.fence (h : Steady n nb X e c dirty touched fresh i) :
    Steady n nb X e c dirty touched fresh (onMem Memory.fence i) :=
  h.keeps (keeps_storeFence i)
    (h.arrays.of_drains rfl (fun l _ => Memory.drains_fence i.mem l) rfl) h.states fun _ _ => id

theorem Steady.storeMain (h : Steady n nb X e c dirty touched fresh i) {s o : Nat}
    (ht : touched (blockOf s o)) (v : Word) :
    Steady n nb X e c dirty touched fresh (onMem (fun m => m.store (.word .main s o) v) i) := by
  have hother : ∀ l, l ≠ .word .main s o →
      (onMem (fun m => m.store (.word .main s o) v) i).mem l = i.mem l :=
    fun l hl => Memory.store_of_ne _ _ hl
  have hload : ∀ b, (onMem (fun m => m.store (.word .main s o) v) i).mem.load (.backToMain b) =
      i.mem.load (.backToMain b) :=
    fun b => congrArg Cell.cur (hother _ (by simp))
  refine { h with settled := fun b => ?_, inverse := fun s' b => ?_, range := fun b hb s' hs' => ?_,
                  arrays := ?_, back := fun s' b hb hf o' ho' hw => ?_,
                  main := fun s' hs' o' ho' hw hno => ?_ }
  · rw [hother _ (by simp)]
    exact h.settled b
  · rw [hload b]
    exact h.inverse s' b
  · exact h.range b hb s' ((hload b).symm.trans hs')
  · refine h.arrays.of_eq rfl (fun l hl => hother l ?_) rfl
    rintro rfl
    exact hl (isData_word .main s o)
  · rw [hother _ (by simp)]
    exact h.back s' b hb hf o' ho' hw
  · rw [hother _ ?_]
    · exact h.main s' hs' o' ho' hw hno
    · intro heq
      injection heq with _ hs ho
      rw [hs, ho] at hno
      exact hno ht

/-- Taking a back segment away from a clean segment leaves it to main memory. -/
theorem Steady.rebound {t : CheckpointImage} {s b : Nat}
    (h : Steady n nb X e c dirty touched NoFresh i) (ht : Rebound i s b t) (hb : b < nb)
    (hs : s < n) (hfree : i.mainToBack s = none)
    (hclean : ∀ o, i.mem.load (.backToMain b) = some o → ¬ dirty o) :
    Steady n nb X e c dirty touched (fun s' => s' = s) t where
  toBindings := ht.bindings h.toBindings hb hs hfree
  arrays := h.arrays.of_drains ht.nrMain (fun l hl => ht.others l (by rintro rfl; exact hl trivial))
    ht.flags
  states := h.states
  written := h.written
  back s' b' hb' hne o ho hw := by
    have hkept : i.mainToBack s' = some b' := by
      by_cases hown : i.mem.load (.backToMain b) = some s'
      · rw [ht.lost s' hne hown] at hb'
        simp at hb'
      · exact (ht.kept s' hne hown).symm.trans hb'
    exact (ht.others _ (by simp)).only (h.back s' b' hkept id o ho hw)
  main s' hs' o ho hw hno := (ht.others _ (by simp)).only (h.main s' hs' o ho hw hno)
  touchedDirty := h.touchedDirty
  dirtyBound s' hs' hd := by
    by_cases hss : s' = s
    · subst hss
      rw [ht.self]
      simp
    · rw [ht.kept s' hss fun hown => hclean s' hown hd]
      exact h.dirtyBound s' hs' hd
  allBound hnb := absurd hfree (h.allBound hnb s hs)

/-- Nothing has to be filled for a segment without a snapshot. -/
theorem Steady.of_initial {s : Nat} (h : Steady n nb X e c dirty touched (fun s' => s' = s) i)
    (hinit : c s = .initial) : Steady n nb X e c dirty touched NoFresh i :=
  { h with
    back := fun s' b hb _ o ho hw => by
      have hne : s' ≠ s := by
        rintro rfl
        exact h.written s' (h.mainToBack_lt hb).2 o ho hw hinit
      exact h.back s' b hb hne o ho hw }

theorem Steady.fill {s b : Nat} (h : Steady n nb X e c dirty touched (fun s' => s' = s) i)
    (hb : i.mainToBack s = some b) (hclean : ¬ dirty s) :
    Steady n nb X e c dirty touched NoFresh
      (onMem Memory.fence (onMem (fun m => ntCopy m .back b .main s wholeSegment) i)) := by
  have hlt := h.mainToBack_lt hb
  have hother : ∀ l, (∀ o, l ≠ .word .back b o) → (i.mem l).DrainsTo
      ((onMem Memory.fence (onMem (fun m => ntCopy m .back b .main s wholeSegment) i)).mem l) := by
    intro l hl
    have hsame : ntCopy i.mem .back b .main s wholeSegment l = i.mem l :=
      ntCopy_of_not i.mem .main s fun o _ => hl o
    change (i.mem l).DrainsTo (ntCopy i.mem .back b .main s wholeSegment l).fence
    rw [hsame]
    exact Cell.drainsTo_fence _
  refine { h with settled := fun b' => ?_, inverse := fun s' b' => ?_,
                  range := fun b' hb' s' hs' => ?_, arrays := ?_,
                  back := fun s' b' hb' _ o ho hw => ?_, main := fun s' hs' o ho hw hno => ?_ }
  · exact (hother _ (by simp)).settled (h.settled b')
  · rw [Memory.load, (hother _ (by simp)).cur]
    exact h.inverse s' b'
  · exact h.range b' hb' s' ((hother _ (by simp)).cur.symm.trans hs')
  · refine h.arrays.of_drains rfl (fun l hl => hother l fun o => ?_) rfl
    rintro rfl
    exact hl (isData_word .back b o)
  · by_cases hss : s' = s
    · subst hss
      obtain rfl : b = b' := by
        have hsome : i.mainToBack s' = some b' := hb'
        rw [hb] at hsome
        exact Option.some.inj hsome
      have hno : ¬ touched (blockOf s' o) := by
        intro htouched
        have hdirty := h.touchedDirty _ htouched
        rw [segmentOf_blockOf ho] at hdirty
        exact hclean hdirty
      have hmain := (h.main s' hlt.2 o ho hw hno).cur_eq
      have hcell : (onMem Memory.fence
          (onMem (fun m => ntCopy m .back b .main s' wholeSegment) i)).mem (.word .back b o) =
          ((i.mem (.word .back b o)).ntStore (i.mem.load (.word .main s' o))).fence :=
        congrArg Cell.fence (ntCopy_sel i.mem .main s' (wholeSegment_eq_true.mpr ho))
      rw [hcell, Memory.load, hmain]
      exact (Cell.pending_ntStore _ _).settled_fence.only
    · refine (hother _ fun o' heq => ?_).only (h.back s' b' hb' hss o ho hw)
      injection heq with _ hbb
      subst hbb
      have hfst := (h.inverse s' b').mp hb'
      have hsnd := (h.inverse s b').mp hb
      exact hss (Option.some.inj (hfst.2.symm.trans hsnd.2))
  · exact (hother _ (by simp)).only (h.main s' hs' o ho hw hno)

theorem Steady.bindCrash {t : CheckpointImage} {s b : Nat}
    (h : Steady n nb X e c dirty touched NoFresh i) (ht : BindCrash i s b t) (hb : b < nb)
    (hs : s < n) (hfree : i.mainToBack s = none) (hinit : c s = .initial)
    (hclean : ∀ o, i.mem.load (.backToMain b) = some o → ¬ dirty o) :
    Recoverable n nb X e t := by
  intro img hc
  obtain ⟨img₀, hc₀, hold | hnew⟩ := ht img hc
  · exact hold ▸ h.recoverable img₀ hc₀
  · -- the medium on which the new owner is durable
    let bound : CheckpointImage := { i with
      mem := Function.update i.mem (.backToMain b) (Cell.durable (some s))
      mainToBack := fun s' => if s' = s then some b
        else if i.mem.load (.backToMain b) = some s' then none else i.mainToBack s' }
    have hbound : Rebound i s b bound := by
      refine ⟨rfl, rfl, rfl, rfl, ?_, ?_, fun l hl => ?_, by simp [bound],
        fun s' hs' hown => by simp [bound, hs', hown], fun s' hs' hown => by simp [bound, hs', hown]⟩
      · simp [bound, Memory.load, Cell.durable]
      · simp [bound]
      · rw [show bound.mem l = i.mem l from Function.update_of_ne hl _ _]
        exact .refl _
    have hcrash : bound.mem.CrashTo img := by
      intro l
      rw [hnew]
      by_cases hl : l = .backToMain b
      · subst hl
        simp [bound, Cell.may_durable]
      · rw [show bound.mem l = i.mem l from Function.update_of_ne hl _ _, Function.update_of_ne hl]
        exact hc₀ l
    exact ((h.rebound hbound hb hs hfree hclean).of_initial hinit).recoverable img hcrash

theorem Steady.atomicCrash {t : CheckpointImage} {s : Nat}
    (h : Steady n nb X e c dirty touched NoFresh i) (ht : AtomicWrite i e c s .back t) :
    Recoverable n nb X e t := by
  intro img hc
  have hdata := ht.keeps.data_may hc
  rcases ht.crash img hc with hold | hnew
  · rw [h.nrMain] at hold
    exact ⟨hold.1, c, h.holds hdata hold.self fun _ _ _ _ _ => rfl⟩
  · rw [h.nrMain] at hnew
    refine ⟨hnew.1, _, h.holds hdata hnew.self fun s' hs' o ho hw => ?_⟩
    by_cases hss : s' = s
    · subst hss
      rw [Function.update_self]
      exact ((h.states s' hs').resolve_left (h.written s' hs' o ho hw)).symm
    · rw [Function.update_of_ne hss]

end NvmInst

end Libcrpm
