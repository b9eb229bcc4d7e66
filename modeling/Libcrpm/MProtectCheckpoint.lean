import Libcrpm.MProtectSections

/-!
# Stores and checkpoints of the write protection engine

Of the two copies the one that the flag names is complete at every instant.
-/

namespace Libcrpm.MProtectEngine

open Libcrpm.Persistence Libcrpm.Program
open MetadataV1 (Data Flagged Intact Named Paired into Holds)

variable {n : Nat} {X Y : Data} {s t u v : MProtectEngine}

theorem regionOf_lt {o : Nat} (ho : o < poolWords n) : regionOf o < n := by
  rw [poolWords, kWordsPerRegion_eq] at ho
  rw [regionOf, kWordsPerRegion_eq]
  omega

/-! ## Crash images -/

/-- Whichever copy the flag of a crash names holds `X` or `Y`. -/
def Guarded (n : Nat) (X Y : Data) (m : MetadataV1.Nvm) : Prop :=
  (Flagged .back m ∨ Intact (poolWords n) .main Y m) ∧
    (Flagged .main m ∨ Intact (poolWords n) .back X m)

theorem Guarded.holds {m : MetadataV1.Nvm} (h : Guarded n X Y m) {img : MetadataV1.PoolImage}
    (hc : m.CrashTo img) :
    Holds (poolWords n) (if img .consistentData = .main then Y else X) img := by
  intro o ho
  cases hflag : img .consistentData with
  | main =>
      rw [if_pos rfl]
      refine (h.1.resolve_left fun hback => ?_).image hc ho
      have heq := hback _ (hc .consistentData)
      rw [hflag] at heq
      cases heq
  | back =>
      rw [if_neg (by decide)]
      refine (h.2.resolve_left fun hmain => ?_).image hc ho
      have heq := hmain _ (hc .consistentData)
      rw [hflag] at heq
      cases heq

theorem guarded_of_back {m : MetadataV1.Nvm} (h : Named (poolWords n) .back X m) (Y : Data) :
    Guarded n X Y m :=
  ⟨Or.inl h.flagged, Or.inr h.intact⟩

theorem guarded_of_main {m : MetadataV1.Nvm} (h : Named (poolWords n) .main Y m) (X : Data) :
    Guarded n X Y m :=
  ⟨Or.inr h.intact, Or.inl h.flagged⟩

theorem guarded_of_paired {m : MetadataV1.Nvm} (h : Paired (poolWords n) X Y m) : Guarded n X Y m :=
  ⟨Or.inr h.main, Or.inr h.back⟩

/-! ## Between two calls -/

/-- The region is in a bucket, or a bucket is full. -/
def Found (t : MProtectEngine) (region : Nat) : Prop :=
  (∃ id < kMaxThreads, region ∈ t.flushRegions id) ∨
    ∃ id < kMaxThreads, (t.flushRegions id).length = kMaxFlushRegions

/-- Every region that was written to is marked and found. -/
def Recorded (t : MProtectEngine) : Prop :=
  ∀ region, t.writable region = true → t.regionDirty.test region = true ∧ Found t region

/-- The engine between two calls when `X` is the data of the last checkpoint. -/
structure Quiet (n : Nat) (X : Data) (t : MProtectEngine) : Prop where
  nrRegions : t.nrRegions = n
  capacity : t.metadata.capacity = n * kRegionSize
  flagged : Flagged .back t.mem
  back : Intact (poolWords n) .back X t.mem
  main : ∀ o < poolWords n, t.writable (regionOf o) = false →
    Memory.Secured t.mem (.data .main o) (X o)
  recorded : Recorded t
  inRange : ∀ region, t.writable region = true → region < n

theorem Quiet.named (h : Quiet n X t) : Named (poolWords n) .back X t.mem := ⟨h.flagged, h.back⟩

theorem Quiet.congr (h : Quiet n X t) (hsame : ∀ o < poolWords n, Y o = X o) : Quiet n Y t :=
  { h with
    back := fun o ho => hsame o ho ▸ h.back o ho
    main := fun o ho hw => hsame o ho ▸ h.main o ho hw }

theorem quiet_openNew (n : Nat) : Quiet n (fun _ => 0#64) (openNew n) where
  nrRegions := rfl
  capacity := rfl
  flagged := fun _ hw => Cell.may_durable.mp hw
  back := fun _ _ _ hw => Cell.may_durable.mp hw
  main := fun _ _ _ => Or.inr fun _ hw => Cell.may_durable.mp hw
  recorded := fun _ hw => by simp [openNew, construct] at hw
  inRange := fun _ hw => by simp [openNew, construct] at hw

/-! ## Stores -/

theorem listRegion_frame (tid region : Nat) (t : MProtectEngine) :
    ∃ b, listRegion tid region t = { t with flushRegions := b } := by
  unfold listRegion
  split
  · exact ⟨_, rfl⟩
  · exact ⟨t.flushRegions, rfl⟩

theorem found_listRegion {tid : Nat} (htid : tid < kMaxThreads) (region : Nat)
    (t : MProtectEngine) : Found (listRegion tid region t) region := by
  unfold listRegion
  split
  · refine Or.inl ⟨tid, htid, ?_⟩
    simp
  · rename_i hfull
    exact Or.inr ⟨tid, htid, Decidable.not_not.mp hfull⟩

theorem Found.listRegion {r : Nat} (h : Found t r) (tid region : Nat) :
    Found (listRegion tid region t) r := by
  unfold MProtectEngine.listRegion
  split
  · rename_i hroom
    rcases h with ⟨id, hid, hin⟩ | ⟨id, hid, hfull⟩
    · refine Or.inl ⟨id, hid, ?_⟩
      by_cases heq : id = tid
      · subst heq
        simp [hin]
      · simpa [Function.update_of_ne heq] using hin
    · have hne : id ≠ tid := by
        rintro rfl
        exact hroom hfull
      refine Or.inr ⟨id, hid, ?_⟩
      simpa [Function.update_of_ne hne] using hfull
  · exact h

/-- What a fault does: the region is recorded and can be written to. -/
structure Faulted (t u : MProtectEngine) (region : Nat) : Prop where
  metadata : u.metadata = t.metadata
  nrRegions : u.nrRegions = t.nrRegions
  writable : ∀ r, u.writable r = (t.writable r || decide (r = region))
  recorded : Recorded u

theorem wp_faultOn (h : Recorded t) {tid : Nat} (htid : tid < kMaxThreads) (o : Nat) :
    Prog.wp (fun v => v.metadata = t.metadata) (faultOn tid o)
      (fun _ v => Faulted t v (regionOf o)) t := by
  rw [faultOn, Prog.wp_bind, Prog.wp_read]
  refine ⟨rfl, ?_⟩
  cases hw : t.writable (regionOf o) with
  | true =>
      refine Prog.wp_pure'.mpr ⟨rfl, rfl, fun r => ?_, h⟩
      by_cases hr : r = regionOf o
      · subst hr
        simp [hw]
      · simp [hr]
  | false =>
      rw [if_neg (by decide), sigfaultHandler, shiftRight_kRegionShift]
      refine Prog.wp_bind.mpr (Prog.wp_act.mpr ⟨rfl, ?_⟩)
      refine Prog.wp_bind.mpr (Prog.wp_act.mpr ⟨rfl, ?_⟩)
      -- the region is marked and writable, and not yet listed
      let marked : MProtectEngine := { t with
        regionDirty := t.regionDirty.set (regionOf o)
        writable := fun r => if regionOf o ≤ r ∧ r < regionOf o + 1 then true else t.writable r }
      have hwritable : ∀ r, marked.writable r = (t.writable r || decide (r = regionOf o)) := by
        intro r
        by_cases hr : r = regionOf o
        · simp [marked, hr]
        · have hno : ¬ (regionOf o ≤ r ∧ r < regionOf o + 1) := by omega
          change (if regionOf o ≤ r ∧ r < regionOf o + 1 then true else t.writable r) = _
          rw [if_neg hno, decide_eq_false hr, Bool.or_false]
      have hdirty : ∀ r, marked.writable r = true → marked.regionDirty.test r = true := by
        intro r hr
        rw [hwritable, Bool.or_eq_true] at hr
        rw [AtomicBitSet.test_set, Bool.or_eq_true]
        rcases hr with hr | hr
        · exact Or.inr (h r hr).1
        · exact Or.inl hr
      have hfound : ∀ r, marked.writable r = true → Found (listRegion tid (regionOf o) marked) r := by
        intro r hr
        rw [hwritable, Bool.or_eq_true] at hr
        rcases hr with hr | hr
        · have hold : Found marked r := (h r hr).2
          exact hold.listRegion tid (regionOf o)
        · rw [of_decide_eq_true hr]
          exact found_listRegion htid (regionOf o) marked
      refine Prog.wp_act.mpr ?_
      change (listRegion tid (regionOf o) marked).metadata = t.metadata ∧
        Faulted t (listRegion tid (regionOf o) marked) (regionOf o)
      obtain ⟨b, hb⟩ := listRegion_frame tid (regionOf o) marked
      rw [hb] at hfound ⊢
      exact ⟨rfl, rfl, rfl, hwritable, fun r hr => ⟨hdirty r hr, hfound r hr⟩⟩

theorem wp_storeWord (h : Quiet n X t) {tid o : Nat} (htid : tid < kMaxThreads)
    (ho : o < poolWords n) (value : Word) :
    Prog.wp (fun v => Named (poolWords n) .back X v.mem) (storeWord tid o value)
      (fun _ v => Quiet n X v) t := by
  rw [storeWord, Prog.wp_bind]
  refine Prog.wp_mono (Prog.wp_weaken (fun v hv => ?_) (wp_faultOn h.recorded htid o))
    fun _ u hu => ?_
  · rw [mem, hv]
    exact h.named
  · have hmem : u.mem = t.mem := by rw [mem, mem, hu.metadata]
    have hother : ∀ l, l ≠ .data .main o → (onNvm (fun m => m.store (.data .main o) value) u).mem l =
        t.mem l := by
      intro l hl
      rw [← hmem]
      exact Memory.store_of_ne u.mem value hl
    have hquiet : Quiet n X (onNvm (fun m => m.store (.data .main o) value) u) := by
      refine ⟨hu.nrRegions.trans h.nrRegions, ?_, ?_, ?_, fun o' ho' hw => ?_, hu.recorded,
        fun r hr => ?_⟩
      · rw [← h.capacity, ← hu.metadata]
        rfl
      · rw [Flagged, hother _ (by simp)]
        exact h.flagged
      · intro o' ho'
        rw [hother _ (by simp)]
        exact h.back o' ho'
      · have hold : u.writable (regionOf o') = false := hw
        rw [hu.writable, Bool.or_eq_false_iff] at hold
        have hne : MetadataV1.Loc.data .main o' ≠ .data .main o := by
          rintro heq
          obtain rfl : o' = o := by injection heq
          exact absurd hold.2 (by simp)
        rw [Memory.Secured, Memory.Queued, hother _ hne]
        exact h.main o' ho' hold.1
      · have hwritable : u.writable r = true := hr
        rw [hu.writable, Bool.or_eq_true] at hwritable
        rcases hwritable with hold | hnew
        · exact h.inRange r hold
        · rw [of_decide_eq_true hnew]
          exact regionOf_lt ho
    exact Prog.wp_act.mpr ⟨hquiet.named, hquiet⟩

/-! ## Main memory becomes durable -/

/-- What the sections of a checkpoint with data `Y` rely on: the back copy is up to date
or will be copied. -/
structure Ready (n : Nat) (Y : Data) (t : MProtectEngine) : Prop where
  nrRegions : t.nrRegions = n
  capacity : t.metadata.capacity = n * kRegionSize
  content : t.content = Y
  back : ∀ o < poolWords n, Memory.Secured t.mem (.data .back o) (Y o) ∨ Behind t (regionOf o)
  inRange : ∀ region, t.writable region = true → region < n

theorem determineFlushMode_noAction (h : determineFlushMode t = .noAction) (region : Nat) :
    ¬ Found t region := by
  have hempty : ∀ id < kMaxThreads, (t.flushRegions id).length = 0 := by
    unfold determineFlushMode at h
    split at h
    · rename_i hall
      intro id hid
      exact of_decide_eq_true ((List.all_eq_true.mp hall) id (List.mem_range.mpr hid))
    · split at h <;> cases h
  rintro (⟨id, hid, hin⟩ | ⟨id, hid, hfull⟩)
  · rw [List.eq_nil_of_length_eq_zero (hempty id hid)] at hin
    cases hin
  · rw [hempty id hid, kMaxFlushRegions_eq] at hfull
    omega

/-- The mode reaches all recorded regions. -/
def Reaching (t : MProtectEngine) : Prop := ∀ region, Found t region → Listed t region

theorem reaching_determineFlushMode (h : t.flushMode = determineFlushMode t) : Reaching t := by
  rintro region (hin | ⟨id, hid, hfull⟩)
  · exact Or.inr hin
  · left
    rw [h]
    unfold determineFlushMode
    rw [if_neg, if_pos]
    · exact List.any_eq_true.mpr ⟨id, List.mem_range.mpr hid, decide_eq_true hfull⟩
    · intro hall
      have hzero := of_decide_eq_true ((List.all_eq_true.mp hall) id (List.mem_range.mpr hid))
      rw [hfull, kMaxFlushRegions_eq] at hzero
      omega

theorem Quiet.content_eq (h : Quiet n X t) {o : Nat} (ho : o < poolWords n)
    (hw : t.writable (regionOf o) = false) : t.content o = X o :=
  (h.main o ho hw).cur_eq

theorem Quiet.ready (h : Quiet n X t) (hreach : Reaching t) : Ready n t.content t := by
  refine ⟨h.nrRegions, h.capacity, rfl, fun o ho => ?_, h.inRange⟩
  cases hw : t.writable (regionOf o) with
  | true =>
      obtain ⟨hdirty, hfound⟩ := h.recorded _ hw
      exact Or.inr ⟨h.nrRegions.symm ▸ regionOf_lt ho, hdirty, hreach _ hfound⟩
  | false =>
      rw [h.content_eq ho hw]
      exact Or.inl (Or.inr (h.back o ho))

theorem Listed.works {f : Fill} {region : Nat} (h : Listed t region) (hw : Works f t u) :
    Listed u region := by
  rw [Listed, hw.flushMode, hw.flushRegions]
  exact h

theorem Ready.works (h : Ready n Y t) (hw : Works noFill t u) : Ready n Y u := by
  have hfields : u.metadata.capacity = t.metadata.capacity ∧ u.writable = t.writable := by
    obtain ⟨m, -, rfl⟩ := hw
    exact ⟨rfl, rfl⟩
  refine ⟨hw.nrRegions.trans h.nrRegions, hfields.1.trans h.capacity, ?_, fun o ho => ?_,
    fun r hr => h.inRange r (hfields.2 ▸ hr)⟩
  · exact (funext fun o => hw.load_drains _).trans h.content
  · refine (h.back o ho).imp hw.secured fun ⟨hlt, hdirty, hlisted⟩ => ?_
    exact ⟨hw.nrRegions.symm ▸ hlt, hw.regionDirty.symm ▸ hdirty, hlisted.works hw⟩

/-- Main memory holds `Y` while the back copy with `X` is still the one that is named. -/
structure Persisted (n : Nat) (X Y : Data) (t : MProtectEngine) : Prop extends Ready n Y t where
  flagged : Flagged .back t.mem
  paired : Paired (poolWords n) X Y t.mem

theorem wp_persist (h : Quiet n X t) (hreach : Reaching t) {nrThreads : Nat}
    (hpos : 0 < nrThreads) (order : Schedules) :
    Prog.wp (fun v => Named (poolWords n) .back X v.mem) (flushSection nrThreads order)
      (fun _ v => Persisted n X t.content v) t := by
  refine Prog.wp_mono (wp_flushSection (fun a b ha hab => ha.drains hab.drains) h.named hpos order)
    fun _ v ⟨hwork, hflushed⟩ => ?_
  have hnamed := h.named.drains hwork.drains
  refine ⟨(h.ready hreach).works hwork, hnamed.flagged, hnamed.intact, fun o ho => ?_⟩
  apply hflushed
  cases hw : t.writable (regionOf o) with
  | true => exact Or.inr (hreach _ (h.recorded _ hw).2)
  | false =>
      have hsec := h.main o ho hw
      rw [← h.content_eq ho hw] at hsec
      exact Or.inl hsec

/-! ## The flag moves -/

theorem Ready.header (h : Ready n Y t) {l : MetadataV1.Loc} (hl : ∀ a o, l ≠ .data a o)
    (x : MetadataV1.Val l) : Ready n Y (onNvm (fun m => (m.ntStore l x).fence) t) := by
  have hkept : ∀ a o, t.mem.ntStore l x (.data a o) = t.mem (.data a o) :=
    fun a o => Memory.ntStore_of_ne t.mem x (hl a o).symm
  have hstored : Ready n Y (onNvm (fun m => m.ntStore l x) t) := by
    refine ⟨h.nrRegions, h.capacity, ?_, fun o ho => ?_, h.inRange⟩
    · rw [← h.content]
      exact funext fun o => congrArg Cell.cur (hkept .main o)
    · refine (h.back o ho).imp (fun hsec => ?_) id
      rw [Memory.Secured, Memory.Queued, mem_onNvm, hkept]
      exact hsec
  have hfence : Works noFill (onNvm (fun m => m.ntStore l x) t)
      (onNvm (fun m => (m.ntStore l x).fence) t) :=
    works_onNvm (g := Memory.fence) (Memory.fills_fence _)
  exact hstored.works hfence

theorem wp_setConsistentData {flag : ConsistentData} {C : MProtectEngine → Prop}
    {Q : Unit → MProtectEngine → Prop}
    (hstored : C (onNvm (fun m => m.ntStore .consistentData flag) t))
    (hfenced : C (onNvm (fun m => (m.ntStore .consistentData flag).fence) t))
    (hq : Q () (onNvm (fun m => (m.ntStore .consistentData flag).fence) t)) :
    Prog.wp C (onMetadata (MetadataV1.setConsistentData flag)) Q t := by
  apply Prog.wp_zoom
  rw [MetadataV1.setConsistentData, Prog.wp_bind, Prog.wp_act, Prog.wp_act]
  exact ⟨hstored, hfenced, hq⟩

/-- Main memory is named and holds `Y`; the back copy still holds `X`. -/
structure Published (n : Nat) (X Y : Data) (t : MProtectEngine) : Prop extends Ready n Y t where
  flagged : Flagged .main t.mem
  paired : Paired (poolWords n) X Y t.mem

theorem wp_nameMain (h : Persisted n X Y t) :
    Prog.wp (fun v => Paired (poolWords n) X Y v.mem)
      (onMetadata (MetadataV1.setConsistentData .main)) (fun _ v => Published n X Y v) t := by
  have hstored : Paired (poolWords n) X Y (t.mem.ntStore .consistentData .main) :=
    h.paired.ntStore (by simp) _
  have hfenced := hstored.drains (Memory.drains_fence _)
  exact wp_setConsistentData hstored hfenced
    ⟨h.toReady.header (by simp) _, MetadataV1.flagged_set .main t.mem, hfenced⟩

/-! ## The back copy catches up -/

/-- Both copies hold `Y`. -/
structure Agreed (n : Nat) (Y : Data) (t : MProtectEngine) : Prop where
  nrRegions : t.nrRegions = n
  capacity : t.metadata.capacity = n * kRegionSize
  paired : Paired (poolWords n) Y Y t.mem
  writable : ∀ region, t.writable region = false

theorem Agreed.quiet (h : Agreed n Y t) (hflag : Flagged .back t.mem) : Quiet n Y t where
  nrRegions := h.nrRegions
  capacity := h.capacity
  flagged := hflag
  back := h.paired.back
  main o ho _ := Or.inr (h.paired.main o ho)
  recorded region hw := by simp [h.writable region] at hw
  inRange region hw := by simp [h.writable region] at hw

theorem Agreed.header (h : Agreed n Y t) {l : MetadataV1.Loc} (hl : ∀ a o, l ≠ .data a o)
    (x : MetadataV1.Val l) :
    Agreed n Y (onNvm (fun m => m.ntStore l x) t) ∧
      Agreed n Y (onNvm (fun m => (m.ntStore l x).fence) t) := by
  have hstored := h.paired.ntStore hl x
  exact ⟨⟨h.nrRegions, h.capacity, hstored, h.writable⟩, h.nrRegions, h.capacity,
    hstored.drains (Memory.drains_fence _), h.writable⟩

theorem Ready.protected (h : Ready n Y t) (r : Nat) :
    (if 0 ≤ r ∧ r < 0 + t.nrRegions then false else t.writable r) = false := by
  split
  · rfl
  · rename_i hout
    by_contra hw
    have hlt := h.inRange r (by simpa using hw)
    rw [h.nrRegions] at hout
    omega

theorem wp_copies (h : Ready n Y t) (hnamed : Named (poolWords n) .main Y t.mem)
    (hw : ∀ r, t.writable r = false) {nrThreads : Nat} (hpos : 0 < nrThreads) (order : Schedules) :
    Prog.wp (fun v => Named (poolWords n) .main Y v.mem) (writeBackSection nrThreads order)
      (fun _ v => Flagged .main v.mem ∧ Agreed n Y v) t := by
  have hworks : ∀ a b, Named (poolWords n) .main Y a.mem → Works (backFill t) a b →
      Named (poolWords n) .main Y b.mem := by
    intro a b ha hab
    exact ⟨ha.flagged.fills hab.fills, ha.intact.fills hab.fills fun heq => by cases heq⟩
  have hclears : ∀ a b, Named (poolWords n) .main Y a.mem → Clears a b →
      Named (poolWords n) .main Y b.mem := by
    rintro a b ha ⟨d, rfl⟩
    exact ha
  refine Prog.wp_mono (wp_writeBackSection hworks hclears hnamed hpos order) fun _ v hv => ?_
  obtain ⟨u, hwork, ⟨d, rfl⟩, hback⟩ := hv
  rw [h.content] at hback
  have hfields : u.nrRegions = t.nrRegions ∧ u.metadata.capacity = t.metadata.capacity ∧
      u.writable = t.writable := by
    obtain ⟨m, -, rfl⟩ := hwork
    exact ⟨rfl, rfl, rfl⟩
  have hnamed' := hworks t u hnamed hwork
  exact ⟨hnamed'.flagged, hfields.1.trans h.nrRegions, hfields.2.1.trans h.capacity,
    ⟨fun o ho => hback o (h.back o ho), hnamed'.intact⟩,
    fun r => (congrFun hfields.2.2 r).trans (hw r)⟩

theorem wp_writeBack (h : Published n X Y t) {nrThreads : Nat} (hpos : 0 < nrThreads)
    (order : Schedules) :
    Prog.wp (fun v => Named (poolWords n) .main Y v.mem) (updateCopies nrThreads order)
      (fun _ v => Flagged .main v.mem ∧ Agreed n Y v) t := by
  have hnamed := h.paired.named_main h.flagged
  have hfalse := h.toReady.protected
  rw [updateCopies, Prog.wp_bind, protectAll, Prog.wp_bind, Prog.wp_read]
  refine ⟨hnamed, Prog.wp_act.mpr ⟨hnamed, ?_⟩⟩
  have hready : Ready n Y { t with
      writable := fun r => if 0 ≤ r ∧ r < 0 + t.nrRegions then false else t.writable r } := by
    refine ⟨h.nrRegions, h.capacity, h.content, h.back, fun r hw => ?_⟩
    change (if 0 ≤ r ∧ r < 0 + t.nrRegions then false else t.writable r) = true at hw
    rw [hfalse r] at hw
    cases hw
  exact wp_copies hready hnamed hfalse hpos order

theorem wp_nameBack (h : Agreed n Y t) :
    Prog.wp (fun v => Paired (poolWords n) Y Y v.mem)
      (onMetadata (MetadataV1.setConsistentData .back))
      (fun _ v => Flagged .back v.mem ∧ Agreed n Y v) t := by
  obtain ⟨hstored, hfenced⟩ := h.header (l := .consistentData) (by simp) .back
  exact wp_setConsistentData hstored.paired hfenced.paired
    ⟨MetadataV1.flagged_set .back t.mem, hfenced⟩

theorem wp_finishCheckpoint (h : Agreed n Y t) (hflag : Flagged .back t.mem) :
    Prog.wp (fun v => Named (poolWords n) .back Y v.mem) finishCheckpoint
      (fun _ v => Quiet n Y v) t := by
  have hnamed := h.paired.named_back hflag
  have hreset : Agreed n Y { t with flushRegions := fun _ => [] } :=
    ⟨h.nrRegions, h.capacity, h.paired, h.writable⟩
  rw [finishCheckpoint, Prog.wp_bind, Prog.wp_act]
  refine ⟨hnamed, Prog.wp_bind.mpr (Prog.wp_read.mpr ⟨hnamed, ?_⟩)⟩
  split
  · exact Prog.wp_pure.mpr (hreset.quiet hflag)
  · obtain ⟨hstored, hfenced⟩ := hreset.header (l := .attributes) (by simp) kAttributeHasSnapshot
    have hflag' : Flagged .back (t.mem.ntStore .attributes kAttributeHasSnapshot) := by
      rw [Flagged, Memory.ntStore_of_ne t.mem _ (by simp)]
      exact hflag
    have hflag'' := hflag'.drains (Memory.drains_fence _)
    rw [Prog.wp_bind]
    apply Prog.wp_zoom
    rw [MetadataV1.setAttributes, Prog.wp_bind, Prog.wp_act, Prog.wp_act]
    have hfenced' := hfenced.paired.named_back hflag''
    refine ⟨hstored.paired.named_back hflag', hfenced', Prog.wp_act.mpr ⟨hfenced', ?_⟩⟩
    exact Agreed.quiet ⟨h.nrRegions, h.capacity, hfenced.paired, h.writable⟩ hflag''

/-! ## The two halves of a checkpoint -/

theorem wp_publishMain (h : Quiet n X t) {nrThreads : Nat} (hpos : 0 < nrThreads)
    (order : Schedules) :
    Prog.wp (fun v => Guarded n X t.content v.mem) (publishMain nrThreads order)
      (fun mode v => (mode = .noAction ∧ Quiet n t.content v) ∨
        (mode ≠ .noAction ∧ Published n X t.content v)) t := by
  let chosen : MProtectEngine := { t with flushMode := determineFlushMode t }
  have hchosen : Quiet n X chosen := ⟨h.nrRegions, h.capacity, h.flagged, h.back, h.main,
    h.recorded, h.inRange⟩
  have hguard : Guarded n X t.content chosen.mem := guarded_of_back h.named _
  rw [publishMain, Prog.wp_bind, Prog.wp_act]
  refine ⟨hguard, Prog.wp_bind.mpr (Prog.wp_read.mpr ⟨hguard, ?_⟩)⟩
  change Prog.wp _ (if chosen.flushMode = .noAction then _ else _) _ chosen
  by_cases hnone : chosen.flushMode = .noAction
  · rw [if_pos hnone]
    refine Prog.wp_pure.mpr (Or.inl ⟨hnone, hchosen.congr fun o ho => ?_⟩)
    cases hw : chosen.writable (regionOf o) with
    | true => exact absurd (hchosen.recorded _ hw).2 (determineFlushMode_noAction hnone _)
    | false => exact hchosen.content_eq ho hw
  · rw [if_neg hnone, Prog.wp_bind]
    refine Prog.wp_mono (Prog.wp_weaken (fun v hv => guarded_of_back hv _)
      (wp_persist hchosen (reaching_determineFlushMode rfl) hpos order)) fun _ v hv => ?_
    rw [Prog.wp_bind]
    refine Prog.wp_mono (Prog.wp_weaken (fun w hw => guarded_of_paired hw) (wp_nameMain hv))
      fun _ w hw => ?_
    exact Prog.wp_pure.mpr (Or.inr ⟨hnone, hw⟩)

theorem wp_updateBack (h : Published n X Y t) {nrThreads : Nat} (hpos : 0 < nrThreads)
    (order : Schedules) :
    Prog.wp (fun v => Guarded n Y Y v.mem) (updateBack nrThreads order)
      (fun _ v => Quiet n Y v) t := by
  rw [updateBack, Prog.wp_bind]
  refine Prog.wp_mono (Prog.wp_weaken (fun v hv => guarded_of_main hv _)
    (wp_writeBack h hpos order)) fun _ v hv => ?_
  rw [Prog.wp_bind]
  refine Prog.wp_mono (Prog.wp_weaken (fun w hw => guarded_of_paired hw) (wp_nameBack hv.2))
    fun _ w hw => ?_
  exact Prog.wp_weaken (fun x hx => guarded_of_back hx _) (wp_finishCheckpoint hw.2 hw.1)

theorem wp_checkpoint (h : Quiet n X t) {nrThreads : Nat} (hpos : 0 < nrThreads)
    (order : Schedules) :
    Prog.wp (fun _ => True) (checkpoint nrThreads order) (fun _ v => Quiet n t.content v) t := by
  rw [checkpoint, Prog.wp_bind]
  refine Prog.wp_mono (Prog.wp_weaken (fun _ _ => trivial) (wp_publishMain h hpos order))
    fun mode v hv => ?_
  rcases hv with ⟨hnone, hquiet⟩ | ⟨hsome, hpub⟩
  · rw [if_pos hnone]
    exact Prog.wp_pure.mpr hquiet
  · rw [if_neg hsome]
    exact Prog.wp_weaken (fun _ _ => trivial) (wp_updateBack hpub hpos order)

end Libcrpm.MProtectEngine
