import Libcrpm.MProtectCheckpoint

/-!
# Runs of the write protection engine

Stores, single-threaded checkpoints and crashes in any order; a recovery may be
interrupted itself, any number of times.
-/

namespace Libcrpm.MProtectEngine

open Libcrpm.Persistence Libcrpm.Program
open MetadataV1 (Data Flagged Intact Holds Recovered recoverData PoolImage)

variable {n : Nat} {X : Data} {t u v : MProtectEngine} {img img' : PoolImage}

/-- An engine that is open, or what the machine left on the medium when it stopped. -/
inductive Moment where
  | running (t : MProtectEngine)
  | stopped (img : PoolImage)

/-- Which images a recovery that is interrupted may turn an image into. -/
abbrev AdmitsCrash := PoolImage → PoolImage → Prop

/-- A run of a pool of `n` regions, with the data of the last checkpoint the `kMainData`
of which became durable. -/
inductive Run (n : Nat) (admits : AdmitsCrash) : Moment → Data → Prop
  | created : Run n admits (.running (openNew n)) fun _ => 0#64
  | store {t u : MProtectEngine} {X : Data} (hrun : Run n admits (.running t) X) {tid o : Nat}
      (value : Word) (htid : tid < kMaxThreads) (ho : o < poolWords n)
      (hret : (storeWord tid o value).run t = some ((), u)) : Run n admits (.running u) X
  | checkpoint {t u : MProtectEngine} {X : Data} (hrun : Run n admits (.running t) X)
      (order : Schedules) (hret : (checkpoint 1 order).run t = some ((), u)) :
      Run n admits (.running u) t.content
  | storeCrash {t v : MProtectEngine} {X : Data} {img : PoolImage}
      (hrun : Run n admits (.running t) X) {tid o : Nat} (value : Word) (htid : tid < kMaxThreads)
      (ho : o < poolWords n) (hmid : (storeWord tid o value).Mid t v) (hcrash : v.mem.CrashTo img) :
      Run n admits (.stopped img) X
  | publishCrash {t v : MProtectEngine} {X : Data} {img : PoolImage}
      (hrun : Run n admits (.running t) X) (order : Schedules)
      (hmid : (publishMain 1 order).Mid t v) (hcrash : v.mem.CrashTo img) :
      Run n admits (.stopped img) (if img .consistentData = .main then t.content else X)
  | updateCrash {t u v : MProtectEngine} {X : Data} {img : PoolImage}
      (hrun : Run n admits (.running t) X) (order : Schedules) {mode : FlushMode}
      (hret : (publishMain 1 order).run t = some (mode, u)) (hmode : mode ≠ .noAction)
      (hmid : (updateBack 1 order).Mid u v) (hcrash : v.mem.CrashTo img) :
      Run n admits (.stopped img) t.content
  | recoverCrash {X : Data} {img img' : PoolImage} {v : MetadataV1}
      (hrun : Run n admits (.stopped img) X) (hadmits : admits img img')
      (hmid : recoverData.Mid (mounted n img) v) (hcrash : v.mem.CrashTo img') :
      Run n admits (.stopped img') X
  | reopen {u : MProtectEngine} {X : Data} {img : PoolImage} (hrun : Run n admits (.stopped img) X)
      (hret : openExisting.run (construct n (mounted n img)) = some ((), u)) :
      Run n admits (.running u) X

/-- Recovery makes both copies equal to the data of the last checkpoint. -/
def RecoversData (n : Nat) (admits : AdmitsCrash) : Prop :=
  ∀ img X, Run n admits (.stopped img) X →
    ∃ u, recoverData.run (mounted n img) = some ((), u) ∧
      ∀ o < poolWords n, u.load .main o = X o ∧ u.load .back o = X o

/-- An interrupted recovery from main memory did not leave the back copy named while a
part of it is missing. -/
def Ordered (n : Nat) : AdmitsCrash := fun img img' =>
  img .consistentData = .main → img' .consistentData = .back →
    ∀ o < poolWords n, img' (.data .back o) = img' (.data .main o)

/-! ## Recovery -/

theorem wp_recoverData (hlen : n * kRegionSize < 2 ^ 31) (h : Holds (poolWords n) X img) :
    Prog.wp (fun v => ∀ img', v.mem.CrashTo img' → Ordered n img img' →
        Holds (poolWords n) X img') recoverData (fun _ v => Recovered n X v) (mounted n img) := by
  have hpending : ∀ area o, ((mounted n img).mem (.data area o)).Pending :=
    fun _ _ => (Memory.settled_ofImage img _).pending
  refine Prog.wp_mono (Prog.wp_weaken (fun v hv img' hc hord o ho => ?_)
    (MetadataV1.wp_recoverData_named rfl hlen (MetadataV1.named_mounted h) hpending))
    fun _ v hv => hv.1
  have hnamed := hv.1.image hc ho
  cases hflag : img .consistentData with
  | main =>
      rw [hflag] at hnamed
      cases hnew : img' .consistentData with
      | main => exact hnamed
      | back => exact (hord hflag hnew o ho).trans hnamed
  | back =>
      rw [hflag] at hnamed
      have hnew : img' .consistentData = .back := hv.2 hflag _ (hc .consistentData)
      rw [hnew]
      exact hnamed

theorem quiet_construct {m : MetadataV1} (h : Recovered n X m) (snapshot : Bool) :
    Quiet n X { construct n m with hasSnapshot := snapshot } where
  nrRegions := rfl
  capacity := h.capacity
  flagged := h.flagged
  back := h.back
  main o ho _ := h.main o ho
  recorded region hw := by simp [construct] at hw
  inRange region hw := by simp [construct] at hw

theorem quiet_reopen (hlen : n * kRegionSize < 2 ^ 31) (h : Holds (poolWords n) X img)
    (hret : openExisting.run (construct n (mounted n img)) = some ((), u)) : Quiet n X u := by
  have hwp : Prog.wp (fun _ => True) openExisting (fun _ v => Quiet n X v)
      (construct n (mounted n img)) := by
    rw [openExisting, Prog.wp_bind]
    apply Prog.wp_zoom
    refine Prog.wp_mono (Prog.wp_weaken (fun _ _ => trivial) (wp_recoverData hlen h))
      fun _ m hm => ?_
    exact Prog.wp_act.mpr ⟨trivial, quiet_construct hm _⟩
  have hquiet := Prog.run_of_wp hwp hret
  exact hquiet

/-! ## Runs -/

def Sound (n : Nat) (X : Data) : Moment → Prop
  | .running t => Quiet n X t
  | .stopped img => Holds (poolWords n) X img

theorem sound_run (hlen : n * kRegionSize < 2 ^ 31) {m : Moment}
    (h : Run n (Ordered n) m X) : Sound n X m := by
  induction h with
  | created => exact quiet_openNew n
  | store hrun value htid ho hret ih =>
      have hquiet := Prog.run_of_wp (wp_storeWord ih htid ho value) hret
      exact hquiet
  | checkpoint hrun order hret ih =>
      have hquiet := Prog.run_of_wp (wp_checkpoint ih (Nat.zero_lt_one) order) hret
      exact hquiet
  | @storeCrash t v Z img hrun tid o value htid ho hmid hcrash ih =>
      have hnamed := Prog.mid_of_wp (wp_storeWord ih htid ho value) ih.named hmid
      have hholds := (guarded_of_back hnamed Z).holds hcrash
      rwa [ite_self] at hholds
  | publishCrash hrun order hmid hcrash ih =>
      have hguard := Prog.mid_of_wp (wp_publishMain ih Nat.zero_lt_one order)
        (guarded_of_back ih.named _) hmid
      exact hguard.holds hcrash
  | updateCrash hrun order hret hmode hmid hcrash ih =>
      have hpub := Prog.run_of_wp (wp_publishMain ih Nat.zero_lt_one order) hret
      have hnamed := (hpub.resolve_left fun hno => hmode hno.1).2
      have hguard := Prog.mid_of_wp (wp_updateBack hnamed Nat.zero_lt_one order)
        (guarded_of_main (hnamed.paired.named_main hnamed.flagged) _) hmid
      have hholds := hguard.holds hcrash
      rwa [ite_self] at hholds
  | recoverCrash hrun hadmits hmid hcrash ih =>
      have hwp := wp_recoverData hlen ih
      refine Prog.mid_of_wp hwp (fun img' hc _ => ?_) hmid _ hcrash hadmits
      have hsame : img' = _ := funext fun l => Cell.may_durable.mp (hc l)
      exact hsame ▸ ih
  | reopen hrun hret ih => exact quiet_reopen hlen ih hret

/-- Recovery restores the last checkpoint in every run of a pool of less than 2 GiB in
which no interrupted recovery left the back copy named before it was complete. -/
theorem recoversData_of_ordered (n : Nat) (hlen : n * kRegionSize < 2 ^ 31) :
    RecoversData n (Ordered n) := by
  intro img X hrun
  have hholds : Holds (poolWords n) X img := sound_run hlen hrun
  obtain ⟨⟨_⟩, u, hret⟩ := MetadataV1.total_recoverData.run_isSome (mounted n img)
  have hrec := Prog.run_of_wp (wp_recoverData hlen hholds) hret
  exact ⟨u, hret, fun o ho => ⟨(hrec.main o ho).cur_eq, hrec.back.load_eq ho⟩⟩

theorem recoversData_of_ordered_smallest : RecoversData 4096 (Ordered 4096) :=
  recoversData_of_ordered 4096 (by decide)

/-! ## A pool of the smallest size -/

/-- One word is stored and the checkpoint stops when main memory is named.  The recovery
stops while its flag store is durable and none of its copies is. -/
def storedPool : Option MProtectEngine :=
  ((storeWord 0 0 1#64).run (openNew 4096)).map Prod.snd

def oneThread : Schedules :=
  ⟨List.replicate 300 0, List.replicate 300 0, List.replicate 300 0⟩

def publishedImage (t : MProtectEngine) : PoolImage :=
  ((publishMain 1 oneThread).after 2000 t).mem.shutdown

/-- The flag of the copy that recovery has not made durable. -/
def hasty (img : PoolImage) : PoolImage := Function.update img .consistentData .back

theorem crashTo_hasty (hflag : img .consistentData = .main) :
    (recoverData.after 4 (mounted n img)).mem.CrashTo (hasty img) := by
  have hstopped : (recoverData.after 4 (mounted n img)).mem =
      (MetadataV1.nonTemporalCopyWithWriteElimination (mounted n img).mem .back .main
        (mounted n img).capacity).ntStore .consistentData .back := by
    have hread : (mounted n img).consistentData = .main := hflag
    unfold recoverData
    simp only [Prog.read, bind, Prog.bind, Prog.after, if_true, id_eq, hread]
    rfl
  intro l
  rw [hstopped]
  by_cases hl : l = .consistentData
  · subst hl
    rw [Memory.ntStore_self, hasty, Function.update_self]
    exact Cell.may_ntStore.mpr (Or.inl rfl)
  · rw [Memory.ntStore_of_ne _ _ hl, hasty, Function.update_of_ne hl]
    unfold MetadataV1.nonTemporalCopyWithWriteElimination MetadataV1.ntCopy Memory.ntStoreAll
    split
    · exact Cell.may_cur _
    · exact Cell.may_ntStore.mpr (Or.inr (Cell.may_cur _))

theorem not_recoversData : ¬ RecoversData 4096 fun _ _ => True := by
  intro hrecover
  have hpublished : storedPool.map (fun t => (t.content 0, publishedImage t .consistentData,
      publishedImage t (.data .back 0))) = some (1#64, .main, 0#64) := by
    decide +kernel
  obtain ⟨t, ht, hval⟩ := Option.map_eq_some_iff.mp hpublished
  rw [Prod.mk.injEq, Prod.mk.injEq] at hval
  obtain ⟨hnew, hflag, hold⟩ := hval
  obtain ⟨⟨⟨⟩, t'⟩, hret, hsame⟩ := Option.map_eq_some_iff.mp ht
  obtain rfl : t' = t := hsame
  have hcreated : Run 4096 (fun _ _ => True) _ _ := .created
  have hrun := hcreated.store 1#64 (by decide) (by decide) hret
  have hstopped : Run 4096 (fun _ _ => True) (.stopped (publishedImage t')) t'.content := by
    have hcrash := hrun.publishCrash oneThread (Prog.mid_after 2000 _ _)
      (Memory.crashTo_shutdown _)
    change Run _ _ (.stopped (publishedImage t'))
      (if publishedImage t' .consistentData = .main then t'.content else _) at hcrash
    rwa [if_pos hflag] at hcrash
  have hhasty := hstopped.recoverCrash trivial (Prog.mid_after 4 _ _) (crashTo_hasty hflag)
  obtain ⟨u, hrecovered, hcopies⟩ := hrecover _ _ hhasty
  have hback : u.load .back 0 = t'.content 0 := (hcopies 0 (by decide)).2
  -- the back copy is believed as it is
  have hself : Holds (poolWords 4096) (fun o => hasty (publishedImage t') (.data .back o))
      (hasty (publishedImage t')) :=
    fun o _ => rfl
  have hkept : u.load .back 0 = hasty (publishedImage t') (.data .back 0) :=
    (Prog.run_of_wp (wp_recoverData (by decide) hself) hrecovered).back.load_eq (by decide)
  have hzero : hasty (publishedImage t') (.data .back 0) = 0#64 := hold
  rw [hback, hnew, hzero] at hkept
  exact absurd hkept (by decide)

end Libcrpm.MProtectEngine
