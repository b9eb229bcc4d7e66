import Libcrpm.Common
import Libcrpm.Persistence.Memory
import Libcrpm.Program.Prog

/-!
# The checkpoint image

`internal/checkpoint.h` and `checkpoint.cpp`: two arrays of segment states of which
the parity of `committed_epoch` selects the current one, the owner of each back
segment, and the main and back copies of the data.
-/

namespace Libcrpm

open Libcrpm.Persistence Libcrpm.Program

abbrev Word := BitVec 64

/-- `SS_Initial`, `SS_Main`, `SS_Back` and `SS_Identical`. -/
inductive SegmentState where
  | initial | main | back | identical
deriving DecidableEq, Repr

inductive Area where
  | main | back
deriving DecidableEq, Repr

/-- The locations of the mapped file that change after its creation.  A data word is
named by its copy, its segment in that copy and its offset in the segment. -/
inductive Loc where
  | attributes
  | committedEpoch
  | segmentState (bi s : Nat)
  | backToMain (b : Nat)
  | word (area : Area) (s o : Nat)
deriving DecidableEq, Repr

/-- The type of the value at each location; `kNullSegmentIndex` is `none`. -/
@[reducible] def Val : Loc → Type
  | .attributes => Nat
  | .committedEpoch => Nat
  | .segmentState _ _ => SegmentState
  | .backToMain _ => Option Nat
  | .word _ _ _ => Word

abbrev Nvm := Memory Loc Val
abbrev NvmImage := Image Loc Val

/-- `CheckpointImage` with its volatile fields. -/
structure CheckpointImage where
  nrMain : Nat
  nrBack : Nat
  mem : Nvm
  mainToBack : Nat → Option Nat
  segmentStateDirty : Nat → Bool
  segmentStateUpdate : Bool

namespace CheckpointImage

/-! ## Copies -/

/-- Copy the selected words of one segment to another with non-temporal stores. -/
def ntCopy (m : Nvm) (dst : Area) (d : Nat) (src : Area) (s : Nat) (sel : Nat → Bool) : Nvm :=
  m.ntStoreAll fun l => match l with
    | .word a n o => if a = dst ∧ n = d ∧ sel o then some (m.load (.word src s o)) else none
    | _ => none

def wholeSegment (o : Nat) : Bool := o < kWordsPerSegment

def wholeBlock (index o : Nat) : Bool := o / kWordsPerBlock = index

def lineDiffers (m : Nvm) (dst : Area) (d : Nat) (src : Area) (s o : Nat) : Bool :=
  (List.range kWordsPerCacheLine).any fun k =>
    let w := o / kWordsPerCacheLine * kWordsPerCacheLine + k
    (m.load (.word dst d w) : Word) != m.load (.word src s w)

/-- `NonTemporalCopyWithWriteElimination`: cache lines that already agree are skipped. -/
def ntCopyWithWriteElimination (m : Nvm) (dst : Area) (d : Nat) (src : Area) (s : Nat)
    (sel : Nat → Bool) : Nvm :=
  ntCopy m dst d src s fun o => sel o && lineDiffers m dst d src s o

/-! ## Accessors -/

def committedEpoch (i : CheckpointImage) : Nat := i.mem.load .committedEpoch

def biEpoch (i : CheckpointImage) : Nat := i.committedEpoch % 2

def getSegmentState (i : CheckpointImage) (s : Nat) : SegmentState :=
  i.mem.load (.segmentState i.biEpoch s)

def getBackToMain (i : CheckpointImage) (b : Nat) : Option Nat := i.mem.load (.backToMain b)

def getMainToBack (i : CheckpointImage) (s : Nat) : Option Nat := i.mainToBack s

def getAttributes (i : CheckpointImage) : Nat := i.mem.load .attributes

/-- The record of a segment shares its cache line with `kRecordsPerCacheLine` others. -/
def kRecordsPerCacheLine : Nat := kCacheLineSize

theorem kRecordsPerCacheLine_eq : kRecordsPerCacheLine = 64 := rfl

def onMem (f : Nvm → Nvm) (i : CheckpointImage) : CheckpointImage := { i with mem := f i.mem }

@[simp] theorem mem_onMem (f : Nvm → Nvm) (i : CheckpointImage) : (onMem f i).mem = f i.mem := rfl

def flush (sel : Loc → Bool) : CheckpointImage → CheckpointImage := onMem (·.flushAll sel)

def storeFence : CheckpointImage → CheckpointImage := onMem Memory.fence

def recordLine (bi s : Nat) : Loc → Bool
  | .segmentState bi' s' => bi' = bi && s' / kRecordsPerCacheLine = s / kRecordsPerCacheLine
  | _ => false

/-- The cache lines of one state array that are flagged dirty. -/
def dirtyLines (i : CheckpointImage) (bi : Nat) : Loc → Bool
  | .segmentState bi' s =>
      bi' = bi && (s / kRecordsPerCacheLine * kRecordsPerCacheLine < i.nrMain &&
        i.segmentStateDirty (s / kRecordsPerCacheLine))
  | _ => false

/-! ## Opening -/

/-- The loop of `Open` that inverts `back_to_main`; a later back segment wins. -/
def openMainToBack (img : NvmImage) (nrBack : Nat) : Nat → Option Nat :=
  (List.range nrBack).foldl (fun m2b b => match img (.backToMain b) with
    | none => m2b
    | some s => Function.update m2b s (some b)) fun _ => none

/-- `Open` of an existing file. -/
def openImage (nrMain nrBack : Nat) (img : NvmImage) : CheckpointImage where
  nrMain := nrMain
  nrBack := nrBack
  mem := Memory.ofImage img
  mainToBack := openMainToBack img nrBack
  segmentStateDirty := fun _ => false
  segmentStateUpdate := false

/-- The content of a file that `Open` has just initialized. -/
def initialImage (nrBack : Nat) : NvmImage
  | .attributes => 0
  | .committedEpoch => 0
  | .segmentState _ _ => .initial
  | .backToMain b => if b < nrBack then some b else none
  | .word _ _ _ => 0#64

def create (nrMain nrBack : Nat) : CheckpointImage :=
  openImage nrMain nrBack (initialImage nrBack)

/-! ## Segment states -/

def writeSlot (bi s : Nat) (state : SegmentState) : CheckpointImage → CheckpointImage :=
  onMem fun m => m.store (.segmentState bi s) state

def setSegmentStateAtomic (s : Nat) (state : SegmentState) : Prog CheckpointImage Unit := do
  let bi ← Prog.read biEpoch
  Prog.act (writeSlot bi s state)
  Prog.act (flush (recordLine bi s))
  Prog.act storeFence
  Prog.act (writeSlot (1 - bi) s state)
  Prog.act (flush (recordLine (1 - bi) s))

def beginSegmentStateUpdate : Prog CheckpointImage Unit :=
  Prog.act fun i => { i with segmentStateUpdate := true }

/-- Write a record of the inactive array and flag its line. -/
def writeRecord (bi s : Nat) (state : SegmentState) (i : CheckpointImage) : CheckpointImage :=
  { i with
    mem := i.mem.store (.segmentState bi s) state
    segmentStateDirty := Function.update i.segmentStateDirty (s / kRecordsPerCacheLine) true }

def setSegmentState (s : Nat) (state : SegmentState) : Prog CheckpointImage Unit := do
  let update ← Prog.read segmentStateUpdate
  if update then
    let bi ← Prog.read biEpoch
    let slot ← Prog.read fun i => i.mem.load (.segmentState (1 - bi) s)
    if slot = state then pure () else Prog.act (writeRecord (1 - bi) s state)
  else .exit

/-- The second loop of a commit: copy the flagged lines to the other array. -/
def copyDirtyLines (bi : Nat) (i : CheckpointImage) : CheckpointImage :=
  { i with
    mem := i.mem.ntStoreAll fun l => match l with
      | .segmentState bi' s =>
          if dirtyLines i (1 - bi) (.segmentState bi' s) then
            some (i.mem.load (.segmentState bi s)) else none
      | _ => none
    segmentStateDirty := fun line =>
      if line * kRecordsPerCacheLine < i.nrMain then false else i.segmentStateDirty line
    segmentStateUpdate := false }

/-- `next_epoch` is a `uint32_t`. -/
def nextEpoch (e : Nat) : Nat := (e + 1) % 2 ^ 32

def storeEpoch (e : Nat) : CheckpointImage → CheckpointImage :=
  onMem fun m => m.ntStoreAll fun l => match l with
    | .committedEpoch => some e
    | _ => none

def commitSegmentStateUpdate : Prog CheckpointImage Unit := do
  let next ← Prog.read fun i => nextEpoch i.committedEpoch
  Prog.act fun i => flush (dirtyLines i (next % 2)) i
  Prog.act storeFence
  Prog.act (storeEpoch next)
  Prog.act storeFence
  Prog.act (copyDirtyLines (next % 2))

/-- A batch that sets one state, from `begin` to the end of its commit. -/
def commitBatch (segments : List Nat) (state : SegmentState) : Prog CheckpointImage Unit := do
  beginSegmentStateUpdate
  Prog.forEach segments fun s => setSegmentState s state
  commitSegmentStateUpdate

def setAttributes (value : Nat) : Prog CheckpointImage Unit := do
  Prog.act (onMem fun m => m.ntStoreAll fun l => match l with
    | .attributes => some value
    | _ => none)
  Prog.act storeFence

def resetCommittedEpoch (e : Nat) : Prog CheckpointImage Unit := do
  Prog.act (storeEpoch e)
  Prog.act storeFence

/-! ## Back segments -/

/-- Clear the `main_to_back` entry of the previous owner. -/
def unbindOwner : Option Nat → Prog CheckpointImage Unit
  | none => pure ()
  | some o => Prog.act fun i => { i with mainToBack := Function.update i.mainToBack o none }

def storeOwner (s b : Nat) : CheckpointImage → CheckpointImage :=
  onMem fun m => m.ntStoreAll fun l => match l with
    | .backToMain b' => if b' = b then some (some s) else none
    | _ => none

def bindBackSegment (s b : Nat) : Prog CheckpointImage Unit := do
  let old ← Prog.read fun i => i.getBackToMain b
  unbindOwner old
  Prog.act (storeOwner s b)
  Prog.act fun i => { i with mainToBack := Function.update i.mainToBack s (some b) }
  Prog.act storeFence

/-! ## Recovery -/

/-- Copy the valid copy of a segment over the other one. -/
def recoverCopy (s b : Nat) : SegmentState → Prog CheckpointImage Unit
  | .main => Prog.act (onMem fun m => ntCopyWithWriteElimination m .back b .main s wholeSegment)
  | .back => Prog.act (onMem fun m => ntCopyWithWriteElimination m .main s .back b wholeSegment)
  | _ => pure ()

/-- One round of the loop of `recovery`; `bi` is the state array that was current when
`recovery` was called. -/
def recoverBack (toState : SegmentState) (bi b : Nat) : Prog CheckpointImage Unit := do
  let owner ← Prog.read fun i => i.getBackToMain b
  match owner with
  | none => pure ()
  | some s =>
      let state ← Prog.read fun i => i.mem.load (.segmentState bi s)
      if state = .initial then pure () else
        recoverCopy s b state
        if toState ≠ state then setSegmentState s toState

def recovery (toState : SegmentState) : Prog CheckpointImage Unit := do
  beginSegmentStateUpdate
  let bi ← Prog.read biEpoch
  let nrBack ← Prog.read nrBack
  Prog.forEach (List.range nrBack) (recoverBack toState bi)
  commitSegmentStateUpdate

/-! ## Calls that keep the number of segments -/

def SameMain (i j : CheckpointImage) : Prop := j.nrMain = i.nrMain

theorem sameMain_read {α : Type} (f : CheckpointImage → α) : (Prog.read f).Within SameMain :=
  Prog.within_read (R := SameMain) (fun _ => rfl) f

theorem sameMain_bindBackSegment (s b : Nat) : (bindBackSegment s b).Within SameMain := by
  refine Prog.within_bind (sameMain_read _) fun old => ?_
  refine Prog.within_bind ?_ fun _ => ?_
  · cases old with
    | none => exact Prog.within_pure _
    | some oldMain => exact Prog.within_act.mpr fun _ => rfl
  · refine Prog.within_bind (by simp [storeOwner, SameMain, onMem]) fun _ => ?_
    refine Prog.within_bind (by simp [SameMain]) fun _ => ?_
    simp [storeFence, onMem, SameMain]

theorem sameMain_setSegmentStateAtomic (s : Nat) (state : SegmentState) :
    (setSegmentStateAtomic s state).Within SameMain := by
  refine Prog.within_bind (sameMain_read _) fun bi => ?_
  refine Prog.within_bind (by simp [writeSlot, onMem, SameMain]) fun _ => ?_
  refine Prog.within_bind (by simp [flush, onMem, SameMain]) fun _ => ?_
  refine Prog.within_bind (by simp [storeFence, onMem, SameMain]) fun _ => ?_
  refine Prog.within_bind (by simp [writeSlot, onMem, SameMain]) fun _ => ?_
  simp [flush, onMem, SameMain]

theorem sameMain_setSegmentState (s : Nat) (state : SegmentState) :
    (setSegmentState s state).Within SameMain := by
  refine Prog.within_bind (sameMain_read _) fun update => ?_
  split
  · refine Prog.within_bind (sameMain_read _) fun bi => ?_
    refine Prog.within_bind (sameMain_read _) fun slot => ?_
    split
    · exact Prog.within_pure _
    · exact Prog.within_act.mpr fun _ => rfl
  · exact Prog.within_exit

theorem sameMain_commitSegmentStateUpdate : commitSegmentStateUpdate.Within SameMain := by
  refine Prog.within_bind (sameMain_read _) fun next => ?_
  refine Prog.within_bind (Prog.within_act.mpr fun _ => rfl) fun _ => ?_
  refine Prog.within_bind (Prog.within_act.mpr fun _ => rfl) fun _ => ?_
  refine Prog.within_bind (Prog.within_act.mpr fun _ => rfl) fun _ => ?_
  refine Prog.within_bind (Prog.within_act.mpr fun _ => rfl) fun _ => ?_
  exact Prog.within_act.mpr fun _ => rfl

theorem sameMain_commitBatch (segments : List Nat) (state : SegmentState) :
    (commitBatch segments state).Within SameMain := by
  refine Prog.within_bind (Prog.within_act.mpr fun _ => rfl) fun _ => ?_
  refine Prog.within_bind (Prog.within_forEach fun s _ => sameMain_setSegmentState s state)
    fun _ => sameMain_commitSegmentStateUpdate

theorem sameMain_recoverBack (toState : SegmentState) (bi b : Nat) :
    (recoverBack toState bi b).Within SameMain := by
  refine Prog.within_bind (sameMain_read _) fun owner => ?_
  cases owner with
  | none => exact Prog.within_pure _
  | some s =>
      refine Prog.within_bind (sameMain_read _) fun state => ?_
      split
      · exact Prog.within_pure _
      refine Prog.within_bind ?_ fun _ => ?_
      · cases state with
        | main | back => exact Prog.within_act.mpr fun _ => rfl
        | initial | identical => exact Prog.within_pure _
      · split
        · exact sameMain_setSegmentState s toState
        · exact Prog.within_pure _

theorem sameMain_recovery (toState : SegmentState) : (recovery toState).Within SameMain := by
  refine Prog.within_bind (Prog.within_act.mpr fun _ => rfl) fun _ => ?_
  refine Prog.within_bind (sameMain_read _) fun bi => ?_
  refine Prog.within_bind (sameMain_read _) fun nrBack => ?_
  refine Prog.within_bind (Prog.within_forEach fun b _ => sameMain_recoverBack toState bi b)
    fun _ => sameMain_commitSegmentStateUpdate

theorem sameMain_setAttributes (value : Nat) : (setAttributes value).Within SameMain :=
  Prog.within_bind (Prog.within_act.mpr fun _ => rfl) fun _ => Prog.within_act.mpr fun _ => rfl

end CheckpointImage

end Libcrpm
