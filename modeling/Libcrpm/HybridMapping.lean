import Libcrpm.BackMapping
import Libcrpm.Engine
import Libcrpm.Program.Machine

/-!
# Back segments under parallel apply

`apply_dram_to_main_parallel` and `apply_dram_to_back_parallel` of `HybridInstEngine`, as a
machine that interleaves the atomic steps of the worker threads: `find_back_segment` tests
`main_to_back` before `allocate_back_segment` takes its lock.
-/

namespace Libcrpm.HybridApply

open Libcrpm.Program CheckpointImage

/-- A call of one of the two functions by `nrThreads` threads, with what it finds. -/
structure Apply where
  toBack : Bool
  flushMode : FlushMode
  nrThreads : Nat
  nrSegments : Nat
  nrBack : Nat
  segmentDirty : Nat → Bool
  flushBlocks : Nat → List Nat
  mapping : BackMapping Nat Nat
  segmentState : Nat → SegmentState
  nextBackSegment : Nat

namespace Apply

variable (apply : Apply)

/-- The segments a thread comes to, one for each segment or block that it works on. -/
def work (tid : Nat) : List Nat :=
  if apply.flushMode = .wbinvd then
    (indicesOf apply.nrSegments tid apply.nrThreads).filter apply.segmentDirty
  else if apply.toBack then
    if tid = 0 then
      ((List.range kMaxThreads).flatMap apply.flushBlocks).map (· / kBlocksPerSegment)
    else []
  else ((bucketsOf tid apply.nrThreads).flatMap apply.flushBlocks).map (· / kBlocksPerSegment)

/-- The maps are inverse when the call begins, and the hooks have marked the segments of the
blocks that they recorded. -/
structure Starts : Prop where
  inverse : apply.mapping.Inverse
  tracked : ∀ id, ∀ block ∈ apply.flushBlocks id,
    apply.segmentDirty (block / kBlocksPerSegment) = true

end Apply

/-- How far a thread is; `rest` are the segments it has not come to. -/
inductive Pc where
  | next (rest : List Nat)
  /-- In `find_back_segment`, before its test. -/
  | test (m : Nat) (rest : List Nat)
  | acquire (m : Nat) (rest : List Nat)
  /-- In the loop of `allocate_back_segment`. -/
  | probe (m loopCount : Nat) (rest : List Nat)
  /-- Before the three writes of `bind_back_segment`. -/
  | unbind (m b : Nat) (rest : List Nat)
  | storeOwner (m b : Nat) (rest : List Nat)
  | storeMain (m b : Nat) (rest : List Nat)
  | advance (m : Nat) (rest : List Nat)
  | release (m : Nat) (rest : List Nat)
  /-- Back in `find_back_segment`. -/
  | reread (m : Nat) (rest : List Nat)
  | copy (m b : Nat) (created : Bool) (rest : List Nat)
  /-- Before `set_segment_state_atomic`. -/
  | copied (m : Nat) (rest : List Nat)
deriving DecidableEq, Repr

namespace Pc

def segments : Pc → List Nat
  | .next rest => rest
  | .test m rest | .acquire m rest | .probe m _ rest | .unbind m _ rest | .storeOwner m _ rest
  | .storeMain m _ rest | .advance m rest | .release m rest | .reread m rest | .copy m _ _ rest
  | .copied m rest => m :: rest

def holdsLock : Pc → Bool
  | .probe .. | .unbind .. | .storeOwner .. | .storeMain .. | .advance .. | .release .. => true
  | _ => false

def midBind : Pc → Bool
  | .storeOwner .. | .storeMain .. => true
  | _ => false

theorem holdsLock_of_midBind {pc : Pc} (h : pc.midBind = true) : pc.holdsLock = true := by
  cases pc <;> simp_all [midBind, holdsLock]

end Pc

/-- A copy between a segment and its back segment, into the given area. -/
structure SegmentCopy where
  segment : Nat
  back : Nat
  into : Area
deriving DecidableEq, Repr

structure State where
  mapping : BackMapping Nat Nat
  segmentState : Nat → SegmentState
  backMemoryLock : Bool
  nextBackSegment : Nat
  pc : Nat → Pc
  copies : List SegmentCopy
  /-- `exit` was called. -/
  exited : Bool

namespace State

def goto (tid : Nat) (pc : Pc) (s : State) : State := { s with pc := Function.update s.pc tid pc }

@[simp] theorem goto_pc_self {tid : Nat} {pc : Pc} {s : State} : (s.goto tid pc).pc tid = pc :=
  Function.update_self _ _ _

theorem goto_pc_of_ne {tid i : Nat} {pc : Pc} {s : State} (h : i ≠ tid) :
    (s.goto tid pc).pc i = s.pc i := Function.update_of_ne h _ _

def advanceNextBackSegment (nrBack : Nat) (s : State) : State :=
  { s with nextBackSegment := (s.nextBackSegment + 1) % nrBack }

def init (apply : Apply) : State where
  mapping := apply.mapping
  segmentState := apply.segmentState
  backMemoryLock := false
  nextBackSegment := apply.nextBackSegment
  pc tid := .next (apply.work tid)
  copies := []
  exited := false

def advance (apply : Apply) (tid : Nat) (s : State) : Option State :=
  match s.pc tid with
  | .next [] => none
  | .next (m :: rest) =>
      if apply.toBack || s.segmentState m = .main then some (s.goto tid (.test m rest))
      else some (s.goto tid (.next rest))
  | .test m rest =>
      match s.mapping.mainToBack m with
      | some b => some (s.goto tid (.copy m b false rest))
      | none => some (s.goto tid (.acquire m rest))
  | .acquire m rest =>
      if s.backMemoryLock then none
      else some ({ s with backMemoryLock := true }.goto tid (.probe m 0 rest))
  | .probe m loopCount rest =>
      if loopCount < apply.nrBack then
        match s.mapping.backToMain s.nextBackSegment with
        | none => some (s.goto tid (.unbind m s.nextBackSegment rest))
        | some owner =>
            if apply.segmentDirty owner then
              some ((s.advanceNextBackSegment apply.nrBack).goto tid (.probe m (loopCount + 1) rest))
            else some (s.goto tid (.unbind m s.nextBackSegment rest))
      -- the lock is not released
      else some (s.goto tid (.reread m rest))
  | .unbind m b rest =>
      some ({ s with mapping := s.mapping.unbindOwner b }.goto tid (.storeOwner m b rest))
  | .storeOwner m b rest =>
      some ({ s with mapping := s.mapping.storeOwner m b }.goto tid (.storeMain m b rest))
  | .storeMain m b rest =>
      some ({ s with mapping := s.mapping.storeMain m b }.goto tid (.advance m rest))
  | .advance m rest => some ((s.advanceNextBackSegment apply.nrBack).goto tid (.release m rest))
  | .release m rest => some ({ s with backMemoryLock := false }.goto tid (.reread m rest))
  | .reread m rest =>
      match s.mapping.mainToBack m with
      | some b => some (s.goto tid (.copy m b true rest))
      | none => some { s with exited := true }
  | .copy m b created rest =>
      if apply.toBack then
        some ({ s with copies := ⟨m, b, .back⟩ :: s.copies }.goto tid (.next rest))
      -- `apply_dram_to_main_parallel` copies what `find_back_segment` has created
      else if created then
        some ({ s with copies := ⟨m, b, .main⟩ :: s.copies }.goto tid (.copied m rest))
      else some (s.goto tid (.next rest))
  | .copied m rest =>
      some ({ s with segmentState := Function.update s.segmentState m .back }.goto tid (.next rest))

end State

def machine (apply : Apply) : Machine State Nat where
  init := .init apply
  step tid s := if s.exited || apply.nrThreads ≤ tid then none else s.advance apply tid

/-! ## What the calls should keep -/

def State.Finished (apply : Apply) (s : State) : Prop := ∀ tid < apply.nrThreads, s.pc tid = .next []

/-- Whenever no bind is half done the maps are inverse, in the runs that `admits` allows. -/
def OwnersKept (apply : Apply) (admits : Nat → State → Prop) : Prop :=
  ∀ s, (machine apply).Reaches admits s → (∀ tid, (s.pc tid).midBind = false) → s.mapping.Inverse

/-- The copies use the back segments that their segments own in the end. -/
def CopiesMatch (apply : Apply) (admits : Nat → State → Prop) : Prop :=
  ∀ s, (machine apply).Reaches admits s → s.Finished apply →
    ∀ copy ∈ s.copies, s.mapping.mainToBack copy.segment = some copy.back

/-- Every copy goes into the back segment. -/
def CopiesGoBack (apply : Apply) (admits : Nat → State → Prop) : Prop :=
  ∀ s, (machine apply).Reaches admits s → s.Finished apply → ∀ copy ∈ s.copies, copy.into = .back

/-- Whoever takes the lock for a segment finds it unbound still. -/
def BindsUnbound (tid : Nat) (s : State) : Prop :=
  ∀ m rest, s.pc tid = .acquire m rest → s.mapping.mainToBack m = none

/-- A segment that is looked up is bound already. -/
def FindsBound (tid : Nat) (s : State) : Prop :=
  ∀ m rest, s.pc tid = .test m rest → s.mapping.mainToBack m ≠ none

/-! ## Runs in which each bind finds its segment unbound -/

/-- What a thread knows about the maps where it is. -/
def Sound (apply : Apply) (k : BackMapping Nat Nat) : Pc → Prop
  | .probe m _ _ => k.mainToBack m = none
  | .unbind m b _ =>
      k.mainToBack m = none ∧ ∀ o, k.backToMain b = some o → apply.segmentDirty o = false
  | .storeOwner m b _ => k.InverseExcept b ∧ k.mainToBack m = none
  | .storeMain m b _ => k.InverseExcept b ∧ k.backToMain b = some m ∧ k.mainToBack m = none
  | .copy m b _ _ => k.mainToBack m = some b
  | _ => True

structure Inv (apply : Apply) (s : State) : Prop where
  dirty : ∀ i, ∀ m ∈ (s.pc i).segments, apply.segmentDirty m = true
  lock : ∀ i, (s.pc i).holdsLock = true → s.backMemoryLock = true
  unique : ∀ i j, (s.pc i).holdsLock = true → (s.pc j).holdsLock = true → i = j
  inverse : (∀ i, (s.pc i).midBind = false) → s.mapping.Inverse
  sound : ∀ i, Sound apply s.mapping (s.pc i)
  copies : ∀ copy ∈ s.copies, apply.segmentDirty copy.segment = true ∧
    s.mapping.mainToBack copy.segment = some copy.back

/-- The dirty segments keep their back segments. -/
def Keeps (apply : Apply) (k k' : BackMapping Nat Nat) : Prop :=
  ∀ m b, apply.segmentDirty m = true → k.mainToBack m = some b → k'.mainToBack m = some b

variable {apply : Apply} {s t : State} {tid : Nat} {pc : Pc}

theorem Sound.of_keeps {k k' : BackMapping Nat Nat} (h : Sound apply k pc)
    (hlock : pc.holdsLock = false) (hdirty : ∀ m ∈ pc.segments, apply.segmentDirty m = true)
    (hkeeps : Keeps apply k k') : Sound apply k' pc := by
  cases pc with
  | copy m b created rest => exact hkeeps m b (hdirty m List.mem_cons_self) h
  | next | test | acquire | advance | release | reread | copied => trivial
  | probe | unbind | storeOwner | storeMain => cases hlock

theorem Inv.goto (h : Inv apply s) (hpc : t.pc = Function.update s.pc tid pc)
    (hsegments : pc.segments ⊆ (s.pc tid).segments)
    (hlock : (∃ i, (t.pc i).holdsLock = true) → t.backMemoryLock = true)
    (hunique : pc.holdsLock = true → ∀ i ≠ tid, (s.pc i).holdsLock = false)
    (hinverse : (∀ i, (t.pc i).midBind = false) → t.mapping.Inverse)
    (hsound : Sound apply t.mapping pc) (hothers : ∀ i ≠ tid, Sound apply t.mapping (s.pc i))
    (hcopies : ∀ copy ∈ t.copies, apply.segmentDirty copy.segment = true ∧
      t.mapping.mainToBack copy.segment = some copy.back) : Inv apply t := by
  have hself : t.pc tid = pc := by rw [hpc, Function.update_self]
  have hother : ∀ i ≠ tid, t.pc i = s.pc i := fun i hi => by rw [hpc, Function.update_of_ne hi]
  refine ⟨fun i m hm => ?_, fun i hi => hlock ⟨i, hi⟩, fun i j hi hj => ?_, hinverse, fun i => ?_,
    hcopies⟩
  · by_cases hi : i = tid
    · subst hi
      rw [hself] at hm
      exact h.dirty i m (hsegments hm)
    · rw [hother i hi] at hm
      exact h.dirty i m hm
  · by_cases hitid : i = tid
    · subst hitid
      by_contra hne
      have hj' : j ≠ i := fun heq => hne heq.symm
      rw [hself] at hi
      rw [hother j hj', hunique hi j hj'] at hj
      cases hj
    · by_cases hjtid : j = tid
      · subst hjtid
        rw [hself] at hj
        rw [hother i hitid, hunique hj i hitid] at hi
        cases hi
      · rw [hother i hitid] at hi
        rw [hother j hjtid] at hj
        exact h.unique i j hi hj
  · by_cases hi : i = tid
    · subst hi
      rw [hself]
      exact hsound
    · rw [hother i hi]
      exact hothers i hi

theorem Inv.goto_same (h : Inv apply s) (hpc : t.pc = Function.update s.pc tid pc)
    (hmapping : t.mapping = s.mapping) (hsegments : pc.segments ⊆ (s.pc tid).segments)
    (hlock : (∃ i, (t.pc i).holdsLock = true) → t.backMemoryLock = true)
    (hunique : pc.holdsLock = true → ∀ i ≠ tid, (s.pc i).holdsLock = false)
    (hmid : (s.pc tid).midBind = false) (hsound : Sound apply s.mapping pc)
    (hcopies : ∀ copy ∈ t.copies, apply.segmentDirty copy.segment = true ∧
      s.mapping.mainToBack copy.segment = some copy.back) : Inv apply t := by
  refine h.goto hpc hsegments hlock hunique (fun hfree => ?_) (hmapping ▸ hsound)
    (fun i _ => hmapping ▸ h.sound i) (hmapping ▸ hcopies)
  rw [hmapping]
  refine h.inverse fun i => ?_
  by_cases hi : i = tid
  · exact hi ▸ hmid
  · have hfreei := hfree i
    rwa [hpc, Function.update_of_ne hi] at hfreei

theorem Inv.others_free (h : Inv apply s) (htid : (s.pc tid).holdsLock = true) :
    ∀ i ≠ tid, (s.pc i).holdsLock = false := by
  intro i hi
  refine Bool.eq_false_iff.mpr fun hholds => ?_
  exact hi (h.unique i tid hholds htid)

/-- Who holds the lock and has not begun to bind finds the maps inverse. -/
theorem Inv.inverse_of_holds (h : Inv apply s) (htid : (s.pc tid).holdsLock = true)
    (hmid : (s.pc tid).midBind = false) : s.mapping.Inverse := by
  refine h.inverse fun i => ?_
  by_cases hi : i = tid
  · exact hi ▸ hmid
  · refine Bool.eq_false_iff.mpr fun hbusy => ?_
    have hholds := Pc.holdsLock_of_midBind hbusy
    rw [h.others_free htid i hi] at hholds
    cases hholds

theorem Inv.lock_same (h : Inv apply s) (hpc : t.pc = Function.update s.pc tid pc)
    (hlock : t.backMemoryLock = s.backMemoryLock)
    (hholds : pc.holdsLock = true → (s.pc tid).holdsLock = true) :
    (∃ i, (t.pc i).holdsLock = true) → t.backMemoryLock = true := by
  rintro ⟨i, hi⟩
  rw [hlock]
  by_cases htid : i = tid
  · subst htid
    rw [hpc, Function.update_self] at hi
    exact h.lock i (hholds hi)
  · rw [hpc, Function.update_of_ne htid] at hi
    exact h.lock i hi

theorem Inv.goto_free (h : Inv apply s) (hsegments : pc.segments ⊆ (s.pc tid).segments)
    (hfree : pc.holdsLock = false) (hmid : (s.pc tid).midBind = false)
    (hsound : Sound apply s.mapping pc) : Inv apply (s.goto tid pc) :=
  h.goto_same rfl rfl hsegments
    (h.lock_same rfl rfl fun hholds => absurd hholds (by simp [hfree]))
    (fun hholds => absurd hholds (by simp [hfree])) hmid hsound h.copies

theorem Inv.goto_held (h : Inv apply s) {hand : Nat}
    (hsegments : pc.segments ⊆ (s.pc tid).segments) (hholds : (s.pc tid).holdsLock = true)
    (hmid : (s.pc tid).midBind = false) (hsound : Sound apply s.mapping pc) :
    Inv apply ({ s with nextBackSegment := hand }.goto tid pc) :=
  h.goto_same rfl rfl hsegments (h.lock_same rfl rfl fun _ => hholds)
    (fun _ => h.others_free hholds) hmid hsound h.copies

theorem Inv.goto_copied (h : Inv apply s) {copies : List SegmentCopy}
    (hsegments : pc.segments ⊆ (s.pc tid).segments) (hfree : pc.holdsLock = false)
    (hmid : (s.pc tid).midBind = false) (hsound : Sound apply s.mapping pc)
    (hcopies : ∀ copy ∈ copies, apply.segmentDirty copy.segment = true ∧
      s.mapping.mainToBack copy.segment = some copy.back) :
    Inv apply ({ s with copies := copies }.goto tid pc) :=
  h.goto_same rfl rfl hsegments
    (h.lock_same rfl rfl fun hholds => absurd hholds (by simp [hfree]))
    (fun hholds => absurd hholds (by simp [hfree])) hmid hsound hcopies

theorem Inv.goto_write (h : Inv apply s) {k : BackMapping Nat Nat}
    (hsegments : pc.segments ⊆ (s.pc tid).segments) (hholds : (s.pc tid).holdsLock = true)
    (hkeeps : Keeps apply s.mapping k) (hsound : Sound apply k pc)
    (hinverse : pc.midBind = false → k.Inverse) :
    Inv apply ({ s with mapping := k }.goto tid pc) := by
  have hothers := h.others_free hholds
  refine h.goto rfl hsegments (h.lock_same rfl rfl fun _ => hholds) (fun _ => hothers)
    (fun hfree => hinverse ?_) hsound
    (fun i hi => (h.sound i).of_keeps (hothers i hi) (h.dirty i) hkeeps) fun copy hmem => ?_
  · have hself := hfree tid
    rwa [State.goto_pc_self] at hself
  · obtain ⟨hdirty, hback⟩ := h.copies copy hmem
    exact ⟨hdirty, hkeeps _ _ hdirty hback⟩

theorem keeps_unbindOwner {k : BackMapping Nat Nat} {b : Nat}
    (h : ∀ o, k.backToMain b = some o → apply.segmentDirty o = false) :
    Keeps apply k (k.unbindOwner b) := by
  intro m b' hdirty hm
  rw [BackMapping.mainToBack_unbindOwner_of_ne, hm]
  intro howner
  rw [h m howner] at hdirty
  cases hdirty

theorem keeps_storeMain {k : BackMapping Nat Nat} {m b : Nat} (h : k.mainToBack m = none) :
    Keeps apply k (k.storeMain m b) := by
  intro m' b' _ hm'
  rw [BackMapping.mainToBack_storeMain_of_ne, hm']
  rintro rfl
  rw [h] at hm'
  cases hm'

theorem Inv.probe (h : Inv apply s) {m loopCount : Nat} {rest : List Nat}
    (hpc : s.pc tid = .probe m loopCount rest) (hstep : s.advance apply tid = some t) :
    Inv apply t := by
  have hholds : (s.pc tid).holdsLock = true := by rw [hpc]; rfl
  have hmid : (s.pc tid).midBind = false := by rw [hpc]; rfl
  have hunbound : s.mapping.mainToBack m = none := by
    have hsound := h.sound tid
    rwa [hpc] at hsound
  simp only [State.advance, hpc] at hstep
  split at hstep
  · cases howner : s.mapping.backToMain s.nextBackSegment with
    | none =>
        simp only [howner] at hstep
        obtain rfl := Option.some.inj hstep
        exact h.goto_held (by simp [hpc, Pc.segments]) hholds hmid ⟨hunbound, by simp [howner]⟩
    | some owner =>
        simp only [howner] at hstep
        split at hstep
        · obtain rfl := Option.some.inj hstep
          exact h.goto_held (by simp [hpc, Pc.segments]) hholds hmid hunbound
        · rename_i hclean
          obtain rfl := Option.some.inj hstep
          refine h.goto_held (by simp [hpc, Pc.segments]) hholds hmid ⟨hunbound, fun o ho => ?_⟩
          obtain rfl : owner = o := Option.some.inj (howner.symm.trans ho)
          simpa using hclean
  · obtain rfl := Option.some.inj hstep
    exact h.goto_free (by simp [hpc, Pc.segments]) rfl hmid trivial

theorem Inv.release (h : Inv apply s) {m : Nat} {rest : List Nat}
    (hpc : s.pc tid = .release m rest) :
    Inv apply ({ s with backMemoryLock := false }.goto tid (.reread m rest)) := by
  have hholds : (s.pc tid).holdsLock = true := by rw [hpc]; rfl
  refine h.goto_same rfl rfl (by simp [hpc, Pc.segments]) ?_ (fun hlater => by cases hlater)
    (by rw [hpc]; rfl) trivial h.copies
  rintro ⟨i, hi⟩
  by_cases htid : i = tid
  · subst htid
    rw [State.goto_pc_self] at hi
    cases hi
  · rw [State.goto_pc_of_ne htid] at hi
    change (s.pc i).holdsLock = true at hi
    rw [h.others_free hholds i htid] at hi
    cases hi

theorem Inv.copy (h : Inv apply s) {m b : Nat} {created : Bool} {rest : List Nat}
    (hpc : s.pc tid = .copy m b created rest) (hstep : s.advance apply tid = some t) :
    Inv apply t := by
  have hmid : (s.pc tid).midBind = false := by rw [hpc]; rfl
  have hsound := h.sound tid
  have hsegs := h.dirty tid
  rw [hpc] at hsound hsegs
  have hcopied : ∀ into, ∀ copy ∈ (⟨m, b, into⟩ : SegmentCopy) :: s.copies,
      apply.segmentDirty copy.segment = true ∧
        s.mapping.mainToBack copy.segment = some copy.back := by
    intro into copy hmem
    rcases List.mem_cons.mp hmem with rfl | hold
    · exact ⟨hsegs m List.mem_cons_self, hsound⟩
    · exact h.copies copy hold
  simp only [State.advance, hpc] at hstep
  split at hstep
  · obtain rfl := Option.some.inj hstep
    exact h.goto_copied (by simp [hpc, Pc.segments]) rfl hmid trivial (hcopied .back)
  · split at hstep
    · obtain rfl := Option.some.inj hstep
      exact h.goto_copied (by simp [hpc, Pc.segments]) rfl hmid trivial (hcopied .main)
    · obtain rfl := Option.some.inj hstep
      exact h.goto_free (by simp [hpc, Pc.segments]) rfl hmid trivial

theorem Inv.advance (h : Inv apply s) (hbinds : BindsUnbound tid s)
    (hstep : s.advance apply tid = some t) : Inv apply t := by
  cases hpc : s.pc tid with
  | next rest =>
      cases rest with
      | nil => simp [State.advance, hpc] at hstep
      | cons m rest =>
          simp only [State.advance, hpc] at hstep
          split at hstep
          · obtain rfl := Option.some.inj hstep
            exact h.goto_free (by simp [hpc, Pc.segments]) rfl (by rw [hpc]; rfl) trivial
          · obtain rfl := Option.some.inj hstep
            exact h.goto_free (by simp [hpc, Pc.segments]) rfl (by rw [hpc]; rfl) trivial
  | test m rest =>
      simp only [State.advance, hpc] at hstep
      cases hback : s.mapping.mainToBack m with
      | some b =>
          rw [hback] at hstep
          obtain rfl := Option.some.inj hstep
          exact h.goto_free (by simp [hpc, Pc.segments]) rfl (by rw [hpc]; rfl) hback
      | none =>
          rw [hback] at hstep
          obtain rfl := Option.some.inj hstep
          exact h.goto_free (by simp [hpc, Pc.segments]) rfl (by rw [hpc]; rfl) trivial
  | acquire m rest =>
      simp only [State.advance, hpc] at hstep
      split at hstep
      · cases hstep
      · rename_i hlock
        obtain rfl := Option.some.inj hstep
        have hfree : ∀ i, (s.pc i).holdsLock = false := fun i =>
          Bool.eq_false_iff.mpr fun hi => hlock (h.lock i hi)
        exact h.goto_same rfl rfl (by simp [hpc, Pc.segments]) (fun _ => rfl)
          (fun _ i _ => hfree i) (by rw [hpc]; rfl) (hbinds m rest hpc) h.copies
  | probe m loopCount rest => exact h.probe hpc hstep
  | unbind m b rest =>
      have hsound := h.sound tid
      rw [hpc] at hsound
      have hholds : (s.pc tid).holdsLock = true := by rw [hpc]; rfl
      have hinverse := h.inverse_of_holds hholds (by rw [hpc]; rfl)
      simp only [State.advance, hpc] at hstep
      obtain rfl := Option.some.inj hstep
      exact h.goto_write (by simp [hpc, Pc.segments]) hholds (keeps_unbindOwner hsound.2)
        ⟨hinverse.unbindOwner b, BackMapping.mainToBack_unbindOwner_of_none hsound.1⟩
        (by simp [Pc.midBind])
  | storeOwner m b rest =>
      have hsound := h.sound tid
      rw [hpc] at hsound
      have hholds : (s.pc tid).holdsLock = true := by rw [hpc]; rfl
      simp only [State.advance, hpc] at hstep
      obtain rfl := Option.some.inj hstep
      exact h.goto_write (by simp [hpc, Pc.segments]) hholds (fun _ _ _ hm => hm)
        ⟨hsound.1.storeOwner m, BackMapping.backToMain_storeOwner_self, hsound.2⟩
        (by simp [Pc.midBind])
  | storeMain m b rest =>
      have hsound := h.sound tid
      rw [hpc] at hsound
      have hholds : (s.pc tid).holdsLock = true := by rw [hpc]; rfl
      simp only [State.advance, hpc] at hstep
      obtain rfl := Option.some.inj hstep
      exact h.goto_write (by simp [hpc, Pc.segments]) hholds (keeps_storeMain hsound.2.2) trivial
        fun _ => hsound.1.storeMain hsound.2.1 hsound.2.2
  | advance m rest =>
      simp only [State.advance, hpc] at hstep
      obtain rfl := Option.some.inj hstep
      exact h.goto_held (by simp [hpc, Pc.segments]) (by rw [hpc]; rfl) (by rw [hpc]; rfl) trivial
  | release m rest =>
      simp only [State.advance, hpc] at hstep
      obtain rfl := Option.some.inj hstep
      exact h.release hpc
  | reread m rest =>
      simp only [State.advance, hpc] at hstep
      cases hback : s.mapping.mainToBack m with
      | some b =>
          rw [hback] at hstep
          obtain rfl := Option.some.inj hstep
          exact h.goto_free (by simp [hpc, Pc.segments]) rfl (by rw [hpc]; rfl) hback
      | none =>
          rw [hback] at hstep
          obtain rfl := Option.some.inj hstep
          exact ⟨h.dirty, h.lock, h.unique, h.inverse, h.sound, h.copies⟩
  | copy m b created rest => exact h.copy hpc hstep
  | copied m rest =>
      simp only [State.advance, hpc] at hstep
      obtain rfl := Option.some.inj hstep
      exact h.goto_same rfl rfl (by simp [hpc, Pc.segments])
        (h.lock_same rfl rfl fun hholds => by cases hholds) (fun hholds => by cases hholds)
        (by rw [hpc]; rfl) trivial h.copies

theorem Apply.Starts.dirty (h : apply.Starts) (tid : Nat) :
    ∀ m ∈ apply.work tid, apply.segmentDirty m = true := by
  have hlisted : ∀ ids : List Nat,
      ∀ m ∈ (ids.flatMap apply.flushBlocks).map (· / kBlocksPerSegment),
        apply.segmentDirty m = true := by
    intro ids m hm
    obtain ⟨block, hblock, rfl⟩ := List.mem_map.mp hm
    obtain ⟨id, _, hid⟩ := List.mem_flatMap.mp hblock
    exact h.tracked id block hid
  intro m hm
  unfold Apply.work at hm
  split at hm
  · exact (List.mem_filter.mp hm).2
  · split at hm
    · split at hm
      · exact hlisted _ m hm
      · cases hm
    · exact hlisted _ m hm

theorem inv_init (h : apply.Starts) : Inv apply (.init apply) where
  dirty i m hm := h.dirty i m hm
  lock i hi := by cases hi
  unique i j hi _ := by cases hi
  inverse _ := h.inverse
  sound _ := trivial
  copies copy hmem := by cases hmem

/-- What holds in the runs in which each bind finds its segment unbound. -/
theorem inv_of_reaches (h : apply.Starts) (hs : (machine apply).Reaches BindsUnbound s) :
    Inv apply s := by
  refine hs.invariant (inv_init h) fun u tid t hu hbinds hstep => ?_
  change (if u.exited || apply.nrThreads ≤ tid then none else u.advance apply tid) = some t at hstep
  split at hstep
  · cases hstep
  · exact hu.advance hbinds hstep

theorem ownersKept_of_bindsUnbound (h : apply.Starts) : OwnersKept apply BindsUnbound :=
  fun _ hs hfree => (inv_of_reaches h hs).inverse hfree

theorem copiesMatch_of_bindsUnbound (h : apply.Starts) : CopiesMatch apply BindsUnbound :=
  fun _ hs _ copy hmem => ((inv_of_reaches h hs).copies copy hmem).2

/-! ## Segments dealt to one thread each -/

/-- No segment is dealt to two threads. -/
def Apply.Disjoint (apply : Apply) : Prop :=
  ∀ i < apply.nrThreads, ∀ j < apply.nrThreads, i ≠ j → ∀ m ∈ apply.work i, m ∉ apply.work j

theorem advance_moves (hstep : s.advance apply tid = some t) :
    (∀ m, s.mapping.mainToBack m = none → m ∉ (s.pc tid).segments →
      t.mapping.mainToBack m = none) ∧
    ∃ pc, t.pc = Function.update s.pc tid pc ∧ pc.segments ⊆ (s.pc tid).segments ∧
      ∀ m rest, pc = .acquire m rest → t.mapping.mainToBack m = none := by
  unfold State.advance at hstep
  cases hpc : s.pc tid with
  | next rest =>
      cases rest with
      | nil => simp [hpc] at hstep
      | cons m rest =>
          simp only [hpc] at hstep
          split at hstep
          · obtain rfl := Option.some.inj hstep
            exact ⟨fun _ hm _ => hm, _, rfl, by simp [Pc.segments], by simp⟩
          · obtain rfl := Option.some.inj hstep
            exact ⟨fun _ hm _ => hm, _, rfl, by simp [Pc.segments], by simp⟩
  | test m rest =>
      simp only [hpc] at hstep
      cases hback : s.mapping.mainToBack m with
      | some b =>
          rw [hback] at hstep
          obtain rfl := Option.some.inj hstep
          exact ⟨fun _ hm _ => hm, _, rfl, by simp [Pc.segments], by simp⟩
      | none =>
          rw [hback] at hstep
          obtain rfl := Option.some.inj hstep
          refine ⟨fun _ hm _ => hm, _, rfl, by simp [Pc.segments], fun m' rest' heq => ?_⟩
          obtain ⟨rfl, rfl⟩ : m = m' ∧ rest = rest' := by simpa using heq
          exact hback
  | acquire m rest =>
      simp only [hpc] at hstep
      split at hstep
      · cases hstep
      · obtain rfl := Option.some.inj hstep
        exact ⟨fun _ hm _ => hm, _, rfl, by simp [Pc.segments], by simp⟩
  | probe m loopCount rest =>
      simp only [hpc] at hstep
      split at hstep
      · cases howner : s.mapping.backToMain s.nextBackSegment with
        | none =>
            simp only [howner] at hstep
            obtain rfl := Option.some.inj hstep
            exact ⟨fun _ hm _ => hm, _, rfl, by simp [Pc.segments], by simp⟩
        | some owner =>
            simp only [howner] at hstep
            split at hstep
            · obtain rfl := Option.some.inj hstep
              exact ⟨fun _ hm _ => hm, _, rfl, by simp [Pc.segments], by simp⟩
            · obtain rfl := Option.some.inj hstep
              exact ⟨fun _ hm _ => hm, _, rfl, by simp [Pc.segments], by simp⟩
      · obtain rfl := Option.some.inj hstep
        exact ⟨fun _ hm _ => hm, _, rfl, by simp [Pc.segments], by simp⟩
  | unbind m b rest =>
      simp only [hpc] at hstep
      obtain rfl := Option.some.inj hstep
      exact ⟨fun _ hm _ => BackMapping.mainToBack_unbindOwner_of_none hm, _, rfl,
        by simp [Pc.segments], by simp⟩
  | storeMain m b rest =>
      simp only [hpc] at hstep
      obtain rfl := Option.some.inj hstep
      refine ⟨fun m' hm' hother => ?_, _, rfl, by simp [Pc.segments], by simp⟩
      refine (BackMapping.mainToBack_storeMain_of_ne ?_).trans hm'
      rintro rfl
      exact hother List.mem_cons_self
  | storeOwner m b rest =>
      simp only [hpc] at hstep
      obtain rfl := Option.some.inj hstep
      exact ⟨fun _ hm _ => hm, _, rfl, by simp [Pc.segments], by simp⟩
  | advance m rest | release m rest | copied m rest =>
      simp only [hpc] at hstep
      obtain rfl := Option.some.inj hstep
      exact ⟨fun _ hm _ => hm, _, rfl, by simp [Pc.segments], by simp⟩
  | reread m rest =>
      simp only [hpc] at hstep
      cases hback : s.mapping.mainToBack m with
      | some b =>
          rw [hback] at hstep
          obtain rfl := Option.some.inj hstep
          exact ⟨fun _ hm _ => hm, _, rfl, by simp [Pc.segments], by simp⟩
      | none =>
          rw [hback] at hstep
          obtain rfl := Option.some.inj hstep
          exact ⟨fun _ hm _ => hm, s.pc tid, (Function.update_eq_self _ _).symm, by simp [hpc],
            by simp [hpc]⟩
  | copy m b created rest =>
      simp only [hpc] at hstep
      split at hstep
      · obtain rfl := Option.some.inj hstep
        exact ⟨fun _ hm _ => hm, _, rfl, by simp [Pc.segments], by simp⟩
      · split at hstep
        · obtain rfl := Option.some.inj hstep
          exact ⟨fun _ hm _ => hm, _, rfl, by simp [Pc.segments], by simp⟩
        · obtain rfl := Option.some.inj hstep
          exact ⟨fun _ hm _ => hm, _, rfl, by simp [Pc.segments], by simp⟩

/-- The threads work on different segments, and what one is about to bind is unbound. -/
structure Apart (apply : Apply) (s : State) : Prop where
  disjoint : ∀ i < apply.nrThreads, ∀ j < apply.nrThreads, i ≠ j →
    ∀ m ∈ (s.pc i).segments, m ∉ (s.pc j).segments
  unbound : ∀ i < apply.nrThreads, ∀ m rest, s.pc i = .acquire m rest →
    s.mapping.mainToBack m = none

theorem Apart.advance (h : Apart apply s) (htid : tid < apply.nrThreads)
    (hstep : s.advance apply tid = some t) : Apart apply t := by
  obtain ⟨hnone, pc, hpc, hsegments, hacquire⟩ := advance_moves hstep
  have hself : t.pc tid = pc := by rw [hpc, Function.update_self]
  have hother : ∀ i ≠ tid, t.pc i = s.pc i := fun i hi => by rw [hpc, Function.update_of_ne hi]
  constructor
  · intro i hi j hj hij m hmi hmj
    by_cases hitid : i = tid
    · subst hitid
      rw [hself] at hmi
      rw [hother j (Ne.symm hij)] at hmj
      exact h.disjoint i hi j hj hij m (hsegments hmi) hmj
    · rw [hother i hitid] at hmi
      by_cases hjtid : j = tid
      · subst hjtid
        rw [hself] at hmj
        exact h.disjoint i hi j hj hij m hmi (hsegments hmj)
      · rw [hother j hjtid] at hmj
        exact h.disjoint i hi j hj hij m hmi hmj
  · intro i hi m rest hm
    by_cases hitid : i = tid
    · subst hitid
      exact hacquire m rest (hself.symm.trans hm)
    · rw [hother i hitid] at hm
      refine hnone m (h.unbound i hi m rest hm) fun hmem => ?_
      exact h.disjoint i hi tid htid hitid m (by simp [hm, Pc.segments]) hmem

/-- Segments dealt to one thread each are found unbound. -/
theorem reaches_bindsUnbound (h : apply.Disjoint)
    (hs : (machine apply).Reaches (fun _ _ => True) s) :
    (machine apply).Reaches BindsUnbound s ∧ Apart apply s := by
  induction hs with
  | init => exact ⟨.init, h, fun i _ m rest hm => by cases hm⟩
  | @step u t _ tid _ hstep ih =>
      obtain ⟨hreaches, hapart⟩ := ih
      have htaken := hstep
      change (if u.exited || apply.nrThreads ≤ tid then none else u.advance apply tid) = some t
        at hstep
      split at hstep
      · cases hstep
      · rename_i hrun
        have htid : tid < apply.nrThreads := by
          simp only [Bool.or_eq_true, decide_eq_true_eq, not_or, Nat.not_le] at hrun
          exact hrun.2
        exact ⟨hreaches.step tid (hapart.unbound tid htid) htaken, hapart.advance htid hstep⟩

/-- `FMODE_WBINVD` deals segments, and the flush lists are written back by one thread. -/
theorem disjoint_of_toBack (h : apply.flushMode = .wbinvd ∨ apply.toBack = true) :
    apply.Disjoint := by
  intro i hi j hj hij m hmi hmj
  unfold Apply.work at hmi hmj
  by_cases hmode : apply.flushMode = .wbinvd
  · rw [if_pos hmode] at hmi hmj
    have hmodi := mem_indicesOf_mod (List.mem_filter.mp hmi).1 hi
    have hmodj := mem_indicesOf_mod (List.mem_filter.mp hmj).1 hj
    exact hij (hmodi.symm.trans hmodj)
  · have hback := h.resolve_left hmode
    rw [if_neg hmode, if_pos hback] at hmi hmj
    split at hmi
    · rename_i hi0
      split at hmj
      · rename_i hj0
        exact hij (hi0.trans hj0.symm)
      · cases hmj
    · cases hmi

/-! ## Where the copies go -/

theorem advance_copies (hstep : s.advance apply tid = some t) : t.copies = s.copies ∨
    ∃ m b created rest into, s.pc tid = .copy m b created rest ∧
      t.copies = ⟨m, b, into⟩ :: s.copies ∧ (apply.toBack = true → into = .back) ∧
      (apply.toBack = false → created = true) := by
  unfold State.advance at hstep
  cases hpc : s.pc tid with
  | copy m b created rest =>
      simp only [hpc] at hstep
      split at hstep
      · rename_i hback
        obtain rfl := Option.some.inj hstep
        exact Or.inr ⟨m, b, created, rest, .back, rfl, rfl, fun _ => rfl, by simp [hback]⟩
      · rename_i hmain
        split at hstep
        · rename_i hcreated
          obtain rfl := Option.some.inj hstep
          exact Or.inr ⟨m, b, created, rest, .main, rfl, rfl, by simp [hmain], fun _ => hcreated⟩
        · obtain rfl := Option.some.inj hstep
          exact Or.inl rfl
  | next rest =>
      cases rest with
      | nil => simp [hpc] at hstep
      | cons m rest =>
          simp only [hpc] at hstep
          split at hstep <;> obtain rfl := Option.some.inj hstep <;> exact Or.inl rfl
  | test m rest | reread m rest =>
      simp only [hpc] at hstep
      split at hstep <;> obtain rfl := Option.some.inj hstep <;> exact Or.inl rfl
  | acquire m rest =>
      simp only [hpc] at hstep
      split at hstep
      · cases hstep
      · obtain rfl := Option.some.inj hstep
        exact Or.inl rfl
  | probe m loopCount rest =>
      simp only [hpc] at hstep
      split at hstep
      · split at hstep
        · obtain rfl := Option.some.inj hstep
          exact Or.inl rfl
        · split at hstep <;> obtain rfl := Option.some.inj hstep <;> exact Or.inl rfl
      · obtain rfl := Option.some.inj hstep
        exact Or.inl rfl
  | unbind m b rest | storeOwner m b rest | storeMain m b rest | advance m rest | release m rest
  | copied m rest =>
      simp only [hpc] at hstep
      obtain rfl := Option.some.inj hstep
      exact Or.inl rfl

theorem copiesGoBack_of_toBack (h : apply.toBack = true) (admits : Nat → State → Prop) :
    CopiesGoBack apply admits := by
  intro s hs _
  refine hs.invariant (I := fun u => ∀ copy ∈ u.copies, copy.into = .back)
    (fun _ hmem => by cases hmem) fun u tid t hu _ hstep => ?_
  change (if u.exited || apply.nrThreads ≤ tid then none else u.advance apply tid) = some t at hstep
  split at hstep
  · cases hstep
  · intro copy hmem
    rcases advance_copies hstep with hsame | ⟨m, b, created, rest, into, -, hcons, hinto, -⟩
    · exact hu copy (hsame ▸ hmem)
    · rw [hcons] at hmem
      rcases List.mem_cons.mp hmem with rfl | hold
      · exact hinto h
      · exact hu copy hold

/-- A thread of `apply_dram_to_main_parallel` that has bound nothing. -/
def Pc.quiet : Pc → Bool
  | .next _ | .test .. | .copy _ _ false _ => true
  | _ => false

theorem advance_quiet (hmain : apply.toBack = false) (hquiet : (s.pc tid).quiet = true)
    (hbound : FindsBound tid s) (hstep : s.advance apply tid = some t) :
    ∃ pc, t.pc = Function.update s.pc tid pc ∧ pc.quiet = true ∧ t.copies = s.copies := by
  unfold State.advance at hstep
  cases hpc : s.pc tid with
  | next rest =>
      cases rest with
      | nil => simp [hpc] at hstep
      | cons m rest =>
          simp only [hpc] at hstep
          split at hstep <;> obtain rfl := Option.some.inj hstep <;> exact ⟨_, rfl, rfl, rfl⟩
  | test m rest =>
      simp only [hpc] at hstep
      cases hback : s.mapping.mainToBack m with
      | some b =>
          rw [hback] at hstep
          obtain rfl := Option.some.inj hstep
          exact ⟨_, rfl, rfl, rfl⟩
      | none => exact absurd hback (hbound m rest hpc)
  | copy m b created rest =>
      rw [hpc] at hquiet
      cases created with
      | true => cases hquiet
      | false =>
          simp only [hpc, hmain] at hstep
          obtain rfl := Option.some.inj hstep
          exact ⟨_, rfl, rfl, rfl⟩
  | acquire | probe | unbind | storeOwner | storeMain | advance | release | reread | copied =>
      rw [hpc] at hquiet
      cases hquiet

theorem reaches_quiet (hmain : apply.toBack = false) (hs : (machine apply).Reaches FindsBound s) :
    (∀ i, (s.pc i).quiet = true) ∧ s.copies = [] ∧ (machine apply).Reaches BindsUnbound s := by
  induction hs with
  | init => exact ⟨fun _ => rfl, rfl, .init⟩
  | @step u t _ tid hadmits hstep ih =>
      obtain ⟨hquiet, hcopies, hreaches⟩ := ih
      have hbinds : BindsUnbound tid u := by
        intro m rest hpc
        have hat := hquiet tid
        rw [hpc] at hat
        cases hat
      have htaken := hstep
      change (if u.exited || apply.nrThreads ≤ tid then none else u.advance apply tid) = some t
        at hstep
      split at hstep
      · cases hstep
      · obtain ⟨pc, hpc, hpcQuiet, hsame⟩ := advance_quiet hmain (hquiet tid) hadmits hstep
        refine ⟨fun i => ?_, hsame.trans hcopies, hreaches.step tid hbinds htaken⟩
        rw [hpc]
        by_cases hi : i = tid
        · subst hi
          rwa [Function.update_self]
        · rw [Function.update_of_ne hi]
          exact hquiet i

/-! ## The mapping is kept -/

/-- In the runs that `admits` allows the maps stay inverse, and the copy made for a segment goes
to the back segment that it owns in the end. -/
def MappingKept (apply : Apply) (admits : Nat → State → Prop) : Prop :=
  apply.Starts → OwnersKept apply admits ∧ CopiesMatch apply admits ∧ CopiesGoBack apply admits

/-- The mapping is kept where `apply_dram_to_main_parallel` finds every segment bound.  The
ownership alone is kept where each bind finds its segment unbound, so always in `FMODE_WBINVD`. -/
theorem mappingKept_of_findsBound (apply : Apply) :
    MappingKept apply (fun tid s => apply.toBack = true ∨ FindsBound tid s) ∧
    (apply.Starts → OwnersKept apply BindsUnbound ∧ CopiesMatch apply BindsUnbound ∧
      (apply.flushMode = .wbinvd → OwnersKept apply fun _ _ => True)) := by
  refine ⟨fun h => ?_, fun h => ⟨ownersKept_of_bindsUnbound h,
    copiesMatch_of_bindsUnbound h, fun hmode s hs => ?_⟩⟩
  · rcases Bool.eq_false_or_eq_true apply.toBack with hback | hback
    · have hunbound : ∀ {admits : Nat → State → Prop} {s : State},
          (machine apply).Reaches admits s → (machine apply).Reaches BindsUnbound s :=
        fun hs => (reaches_bindsUnbound (disjoint_of_toBack (Or.inr hback))
          (hs.weaken fun _ _ _ => trivial)).1
      exact ⟨fun s hs => ownersKept_of_bindsUnbound h s (hunbound hs),
        fun s hs => copiesMatch_of_bindsUnbound h s (hunbound hs), copiesGoBack_of_toBack hback _⟩
    · have hquiet : ∀ {s : State}, (machine apply).Reaches (fun tid s => apply.toBack = true ∨
          FindsBound tid s) s → s.copies = [] ∧ (machine apply).Reaches BindsUnbound s :=
        fun hs => (reaches_quiet hback
          (hs.weaken fun _ _ hor => hor.resolve_left (by simp [hback]))).2
      refine ⟨fun s hs => ownersKept_of_bindsUnbound h s (hquiet hs).2,
        fun s hs => copiesMatch_of_bindsUnbound h s (hquiet hs).2, fun s hs _ copy hmem => ?_⟩
      rw [(hquiet hs).1] at hmem
      cases hmem
  · exact ownersKept_of_bindsUnbound h s (reaches_bindsUnbound (disjoint_of_toBack (Or.inl hmode)) hs).1

/-! ## Two threads with blocks of one segment -/

/-- Two of three segments have a back segment.  The third one is in `SS_Main`, and two threads
have recorded a block of it. -/
def sharedSegment : Apply where
  toBack := false
  flushMode := .useFlushBlocks
  nrThreads := 2
  nrSegments := 3
  nrBack := 2
  segmentDirty m := m = 2
  flushBlocks id :=
    if id = 0 then [2 * kBlocksPerSegment]
    else if id = 1 then [2 * kBlocksPerSegment + 1] else []
  mapping := ⟨fun m => if m < 2 then some m else none, fun b => if b < 2 then some b else none⟩
  segmentState m := if m = 2 then .main else .initial
  nextBackSegment := 0

theorem sharedSegment_starts : sharedSegment.Starts where
  inverse m b := by
    simp only [sharedSegment]
    split <;> split <;> simp <;> omega
  tracked id block hmem := by
    by_cases h0 : id = 0
    · obtain rfl : block = 2 * kBlocksPerSegment := by simpa [sharedSegment, h0] using hmem
      rfl
    · by_cases h1 : id = 1
      · obtain rfl : block = 2 * kBlocksPerSegment + 1 := by simpa [sharedSegment, h1] using hmem
        rfl
      · simp [sharedSegment, h0, h1] at hmem

/-- Both threads test before one of them binds. -/
def bothBind : List Nat :=
  [0, 0, 1, 1, 0, 0, 0, 0, 0, 0, 0, 1, 1, 1, 1, 1, 1, 1]

theorem exec_bothBind : ∃ t, (machine sharedSegment).exec bothBind (.init sharedSegment) = some t ∧
    t.mapping.backToMain 0 = some 2 ∧ t.mapping.mainToBack 2 = some 1 ∧
    ∀ tid, (t.pc tid).midBind = false := by
  refine ⟨_, rfl, rfl, rfl, fun tid => ?_⟩
  match tid with
  | 0 => rfl
  | 1 => rfl
  | _ + 2 => rfl

/-- The segment is left with two back segments. -/
theorem not_mappingKept : ¬ ∀ apply, MappingKept apply fun _ _ => True := by
  intro hkept
  obtain ⟨t, hexec, howner, hback, hfree⟩ := exec_bothBind
  have hstart : (machine sharedSegment).Reaches (fun _ _ => True) (.init sharedSegment) := .init
  have hinverse := (hkept sharedSegment sharedSegment_starts).1 t (hstart.exec hexec) hfree
  have hback' := (hinverse 2 0).mpr howner
  rw [hback] at hback'
  cases hback'

end Libcrpm.HybridApply
