import Libcrpm.NvmInst

/-!
# Finding a free back segment

The ring scan of `allocate_back_segment`, run by a thread that holds the lock of the
segment it allocates for, as `lazy_write_back` does.
-/

namespace Libcrpm.NvmInst

open Libcrpm.Program CheckpointImage

variable {t : NvmInst} {tid mainId : Nat}

/-- Thread `tid` holds the lock of `mainId`; no other thread is active and no checkpoint
runs. -/
structure Alone (tid mainId : Nat) (t : NvmInst) : Prop where
  outside : t.checkpointInProgress = false
  locks : t.segmentLocks = Function.update (fun _ => none) (lockOf mainId) (some tid)
  backMemory : t.backMemoryLock = false
  next : t.nextBackId < t.image.nrBack ∨ t.image.nrBack = 0

/-- Back segment `b` is unbound, or its owner is clean. -/
def Reusable (t : NvmInst) (b : Nat) : Prop :=
  ∀ o, t.image.getBackToMain b = some o → t.segmentDirty.test o = false

/-- The scan can take `b`: the lock of its owner is not the one that is held. -/
def Takeable (t : NvmInst) (mainId b : Nat) : Prop :=
  ∀ o, t.image.getBackToMain b = some o →
    lockOf o ≠ lockOf mainId ∧ t.segmentDirty.test o = false

/-- A back segment is found if there is one, and `allocate_back_segment`, which runs only
for a segment without a back segment, returns with `back_memory_lock` released. -/
def AllocatesBack (tid mainId : Nat) (t : NvmInst) : Prop :=
  ((∃ b < t.image.nrBack, Reusable t b) →
    ∃ b created u, (findBackSegment tid mainId).run t = some ((b, created), u) ∧
      u.image.getMainToBack mainId = some b) ∧
  (t.image.getMainToBack mainId = none →
    ∀ u, (allocateBackSegment tid mainId).run t = some ((), u) → u.backMemoryLock = false)

/-! ## One round of the scan -/

theorem run_bindBackSegment (s b : Nat) (i : CheckpointImage) :
    ∃ j, (bindBackSegment s b).run i = some ((), j) ∧ j.getMainToBack s = some b := by
  rw [bindBackSegment, Prog.run_bind, Prog.run_read]
  cases h : i.getBackToMain b with
  | none => exact ⟨_, rfl, Function.update_self ..⟩
  | some o => exact ⟨_, rfl, Function.update_self ..⟩

theorem run_takeBackSegment (mainId b : Nat) (t : NvmInst) :
    ∃ u, (takeBackSegment mainId b).run t = some ((), u) ∧
      u.image.getMainToBack mainId = some b := by
  obtain ⟨j, hj, hbound⟩ := run_bindBackSegment mainId b t.image
  have hrun : (onImage (bindBackSegment mainId b)).run t = some ((), { t with image := j }) := by
    rw [onImage, Prog.run_zoom]
    exact congrArg (Option.map _) hj
  refine ⟨{ t with image := j, nextBackId := (t.nextBackId + 1) % j.nrBack }, ?_, hbound⟩
  rw [takeBackSegment, Prog.run_bind, hrun]
  rfl

def advanced (t : NvmInst) : NvmInst :=
  { t with nextBackId := (t.nextBackId + 1) % t.image.nrBack }

section Scan

variable (hout : t.checkpointInProgress = false)
  (hlocks : t.segmentLocks = Function.update (fun _ => none) (lockOf mainId) (some tid))

include hout hlocks

theorem run_allocateLoop_taken (rounds : Nat) (h : Takeable t mainId t.nextBackId) :
    ∃ u, (allocateLoop tid mainId (rounds + 1)).run t = some ((), u) ∧
      u.image.getMainToBack mainId = some t.nextBackId ∧ u.backMemoryLock = false := by
  rw [allocateLoop]
  simp only [Prog.run_bind, Prog.run_read, Option.bind_some]
  cases hown : t.image.getBackToMain t.nextBackId with
  | none =>
      obtain ⟨u, hu, hbound⟩ := run_takeBackSegment mainId t.nextBackId t
      refine ⟨{ u with backMemoryLock := false }, ?_, hbound, rfl⟩
      simp only [Prog.run_bind, hu]
      rfl
  | some o =>
      obtain ⟨hlock, hclean⟩ := h o hown
      have hfree : t.segmentLocks (lockOf o) = none := by
        rw [hlocks, Function.update_of_ne hlock]
      simp only [Prog.run_bind, Prog.run_read, Option.bind_some]
      rw [if_neg (by simp [hout])]
      simp only [Prog.run_bind, Prog.run_read, Option.bind_some, tryAcquireSegmentLock,
        Prog.run_fetch, hfree, Option.isNone_none, if_true, hclean, Bool.false_eq_true, if_false]
      obtain ⟨u, hu, hbound⟩ := run_takeBackSegment mainId t.nextBackId
        { t with segmentLocks := Function.update t.segmentLocks (lockOf o) (some tid) }
      rw [hu]
      exact ⟨_, rfl, hbound, rfl⟩

theorem run_allocateLoop_skipped (rounds : Nat) (h : ¬ Takeable t mainId t.nextBackId) :
    (allocateLoop tid mainId (rounds + 1)).run t =
      (allocateLoop tid mainId rounds).run (advanced t) := by
  rw [allocateLoop]
  simp only [Prog.run_bind, Prog.run_read, Option.bind_some]
  cases hown : t.image.getBackToMain t.nextBackId with
  | none =>
      refine absurd (fun o ho => ?_) h
      rw [hown] at ho
      cases ho
  | some o =>
      simp only [Prog.run_bind, Prog.run_read, Option.bind_some]
      rw [if_neg (by simp [hout])]
      simp only [Prog.run_bind, tryAcquireSegmentLock, Prog.run_fetch, Option.bind_some]
      by_cases hlock : lockOf o = lockOf mainId
      · have hheld : (t.segmentLocks (lockOf o)).isNone = false := by
          rw [hlocks, hlock, Function.update_self]
          rfl
        simp only [hheld, Bool.false_eq_true, if_false, Prog.run_bind]
        rfl
      · have hfree : t.segmentLocks (lockOf o) = none := by
          rw [hlocks, Function.update_of_ne hlock]
        have hdirty : t.segmentDirty.test o = true := by
          by_contra hclean
          refine h fun o' ho' => ?_
          obtain rfl : o = o' := Option.some.inj (hown.symm.trans ho')
          exact ⟨hlock, by simpa using hclean⟩
        -- The lock is taken and given back, so the state is the one before.
        have hback : Function.update (Function.update t.segmentLocks (lockOf o) (some tid))
            (lockOf o) none = t.segmentLocks := by
          rw [Function.update_idem, ← hfree, Function.update_eq_self]
        simp only [hfree, Option.isNone_none, if_true, Prog.run_bind, Prog.run_read,
          Option.bind_some, hdirty, releaseSegmentLock, Prog.run_act, hback]
        rfl

end Scan

/-! ## The whole scan -/

def candidate (t : NvmInst) (k : Nat) : Nat := (t.nextBackId + k) % t.image.nrBack

theorem candidate_advanced (t : NvmInst) (k : Nat) :
    candidate (advanced t) k = candidate t (k + 1) := by
  rw [candidate, candidate, advanced, Nat.mod_add_mod]
  congr 1
  omega

theorem candidate_zero (h : t.nextBackId < t.image.nrBack) : candidate t 0 = t.nextBackId := by
  rw [candidate, Nat.add_zero, Nat.mod_eq_of_lt h]

theorem exists_candidate (h : t.nextBackId < t.image.nrBack) {b : Nat} (hb : b < t.image.nrBack) :
    ∃ k < t.image.nrBack, candidate t k = b := by
  by_cases hle : t.nextBackId ≤ b
  · refine ⟨b - t.nextBackId, by omega, ?_⟩
    rw [candidate, Nat.add_sub_cancel' hle, Nat.mod_eq_of_lt hb]
  · refine ⟨b + t.image.nrBack - t.nextBackId, by omega, ?_⟩
    have hsum : t.nextBackId + (b + t.image.nrBack - t.nextBackId) = b + t.image.nrBack := by omega
    rw [candidate, hsum, Nat.add_mod_right, Nat.mod_eq_of_lt hb]

/-- `p` binds a back segment to `mainId` and releases `back_memory_lock`. -/
def Finds (mainId : Nat) (p : Prog NvmInst Unit) (t : NvmInst) : Prop :=
  ∃ b u, p.run t = some ((), u) ∧ u.image.getMainToBack mainId = some b ∧ u.backMemoryLock = false

/-- `p` returns with no back segment bound and `back_memory_lock` as it was. -/
def Misses (p : Prog NvmInst Unit) (t : NvmInst) : Prop :=
  ∃ u, p.run t = some ((), u) ∧ u.image = t.image ∧ u.backMemoryLock = t.backMemoryLock

theorem run_allocateLoop (rounds : Nat) (hout : t.checkpointInProgress = false)
    (hlocks : t.segmentLocks = Function.update (fun _ => none) (lockOf mainId) (some tid))
    (hnext : t.nextBackId < t.image.nrBack) :
    (∃ k < rounds, Takeable t mainId (candidate t k)) ∧
        Finds mainId (allocateLoop tid mainId rounds) t ∨
      (∀ k < rounds, ¬ Takeable t mainId (candidate t k)) ∧
        Misses (allocateLoop tid mainId rounds) t := by
  induction rounds generalizing t with
  | zero => exact Or.inr ⟨fun k hk => by omega, t, rfl, rfl, rfl⟩
  | succ rounds ih =>
      by_cases htake : Takeable t mainId t.nextBackId
      · obtain ⟨u, hu⟩ := run_allocateLoop_taken hout hlocks rounds htake
        exact Or.inl ⟨⟨0, by omega, (candidate_zero hnext).symm ▸ htake⟩, _, u, hu⟩
      · have hskip := run_allocateLoop_skipped hout hlocks rounds htake
        rcases ih (t := advanced t) hout hlocks (Nat.mod_lt _ (by omega)) with
          ⟨⟨k, hk, htk⟩, b, u, hu⟩ | ⟨hnone, u, hu⟩
        · exact Or.inl ⟨⟨k + 1, by omega, candidate_advanced t k ▸ htk⟩, b, u, hskip ▸ hu⟩
        · refine Or.inr ⟨fun k hk htk => ?_, u, hskip ▸ hu⟩
          cases k with
          | zero => exact htake (candidate_zero hnext ▸ htk)
          | succ k => exact hnone k (by omega) (candidate_advanced t k ▸ htk)

/-! ## The allocation -/

theorem run_allocateBackSegment (h : Alone tid mainId t) :
    (∃ b < t.image.nrBack, Takeable t mainId b) ∧
        Finds mainId (allocateBackSegment tid mainId) t ∨
      (∀ b < t.image.nrBack, ¬ Takeable t mainId b) ∧
        ∃ u, (allocateBackSegment tid mainId).run t = some ((), u) ∧
          u.image = t.image ∧ u.backMemoryLock = true := by
  have hrun : (allocateBackSegment tid mainId).run t =
      (allocateLoop tid mainId t.image.nrBack).run { t with backMemoryLock := true } := by
    rw [allocateBackSegment, Prog.run_bind, acquireBackMemoryLock,
      Prog.run_await _ (by simp [h.backMemory])]
    rfl
  rcases h.next with hnext | hzero
  · have hloop : _ ∨ _ := run_allocateLoop (t := { t with backMemoryLock := true })
      t.image.nrBack h.outside h.locks hnext
    rcases hloop with ⟨⟨k, hk, htake⟩, b, u, hu⟩ | ⟨hnone, u, hu⟩
    · exact Or.inl ⟨⟨candidate t k, Nat.mod_lt _ (by omega), htake⟩, b, u, hrun ▸ hu⟩
    · refine Or.inr ⟨fun b hb htake => ?_, u, hrun ▸ hu⟩
      obtain ⟨k, hk, rfl⟩ := exists_candidate hnext hb
      exact hnone k hk htake
  · rw [hzero] at hrun ⊢
    exact Or.inr ⟨fun b hb => by omega, _, hrun, rfl, rfl⟩

/-- The allocation does what its callers rely on exactly if the segment is bound already or
the scan can take a back segment. -/
theorem allocatesBack_iff (h : Alone tid mainId t) :
    AllocatesBack tid mainId t ↔
      t.image.getMainToBack mainId ≠ none ∨ ∃ b < t.image.nrBack, Takeable t mainId b := by
  cases hmain : t.image.getMainToBack mainId with
  | some b =>
      have hrun : (findBackSegment tid mainId).run t = some ((b, false), t) := by
        rw [findBackSegment, Prog.run_bind, Prog.run_read, Option.bind_some, hmain]
        rfl
      simp only [ne_eq, reduceCtorEq, not_false_eq_true, true_or, iff_true]
      exact ⟨fun _ => ⟨b, false, t, hrun, hmain⟩, fun hnone => by rw [hmain] at hnone; cases hnone⟩
  | none =>
      simp only [ne_eq, not_true_eq_false, false_or]
      rcases run_allocateBackSegment h with ⟨hany, b, u, hu, hbound, hfree⟩ | ⟨hnone, u, hu, -, hheld⟩
      · refine iff_of_true ⟨fun _ => ⟨b, true, u, ?_, hbound⟩, fun _ v hv => ?_⟩ hany
        · rw [findBackSegment, Prog.run_bind, Prog.run_read, Option.bind_some, hmain]
          simp only [Prog.run_bind, hu, Prog.run_read, Option.bind_some, hbound]
          rfl
        · obtain rfl : u = v := congrArg Prod.snd (Option.some.inj (hu.symm.trans hv))
          exact hfree
      · refine iff_of_false (fun hallocates => ?_) fun ⟨b, hb, htake⟩ => hnone b hb htake
        rw [hallocates.2 hmain u hu] at hheld
        cases hheld

/-- A fresh pool in which thread 0 is about to allocate for `mainId`. -/
def freshPool (nrMain nrBack mainId : Nat) : NvmInst :=
  { openNew nrMain nrBack with
    segmentLocks := Function.update (fun _ => none) (lockOf mainId) (some 0) }

theorem alone_freshPool (nrMain nrBack mainId : Nat) :
    Alone 0 mainId (freshPool nrMain nrBack mainId) :=
  ⟨rfl, rfl, rfl, (Nat.eq_zero_or_pos nrBack).symm⟩

theorem allocatesBack_iff_fresh : AllocatesBack 0 9 (freshPool 10 8 9) :=
  (allocatesBack_iff (alone_freshPool 10 8 9)).mpr
    (Or.inr ⟨0, by decide, fun o ho => by
      obtain rfl : 0 = o := Option.some.inj ho
      exact ⟨by decide, rfl⟩⟩)

/-- The only back segment belongs to segment 0, which shares its lock with segment 1024. -/
theorem not_allocatesBack :
    ¬ ∀ (t : NvmInst) (tid mainId : Nat), Alone tid mainId t → AllocatesBack tid mainId t := by
  intro hall
  have halone := alone_freshPool 2048 1 1024
  have hreusable : Reusable (freshPool 2048 1 1024) 0 := by
    intro o ho
    obtain rfl : 0 = o := Option.some.inj ho
    rfl
  obtain ⟨b, created, u, hu, -⟩ := (hall _ 0 1024 halone).1 ⟨0, by decide, hreusable⟩
  rcases run_allocateBackSegment halone with ⟨⟨b, hb, htake⟩, -⟩ | ⟨-, v, hv, himage, -⟩
  · obtain rfl : b = 0 := Nat.lt_one_iff.mp hb
    exact (htake 0 rfl).1 (by decide)
  · have hunbound : (freshPool 2048 1 1024).image.getMainToBack 1024 = none := rfl
    rw [findBackSegment, Prog.run_bind, Prog.run_read, Option.bind_some, hunbound] at hu
    simp only [Prog.run_bind, hv, Prog.run_read, Option.bind_some, himage, hunbound] at hu
    cases hu

end Libcrpm.NvmInst
