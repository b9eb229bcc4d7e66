import Libcrpm.HookCoverage

/-!
# Hooks for a range

`__crpm_hook_rt_range_store` beside `__crpm_hook_rt_store` on every byte of the range.  A block
that was recorded for a dirty segment commutes with the copy-on-write of the other segments, so
both come down to the same copies followed by records of the same blocks.
-/

namespace Libcrpm.NvmInst

open Libcrpm.Persistence Libcrpm.Program CheckpointImage

/-! ## Recording blocks -/

def mark (m : AtomicBitSet × List Nat) (block : Nat) : AtomicBitSet × List Nat :=
  if m.1.test block then m
  else (m.1.set block, if m.2.length ≠ kMaxFlushBlocks then m.2 ++ [block] else m.2)

def marks (blocks : List Nat) (m : AtomicBitSet × List Nat) : AtomicBitSet × List Nat :=
  blocks.foldl mark m

/-- Record blocks as thread `tid`, and leave `buffer` in its address buffer. -/
def record (tid : Nat) (blocks buffer : List Nat) (t : NvmInst) : NvmInst :=
  { t with
    blockDirty := (marks blocks (t.blockDirty, t.flushBlocks tid)).1
    flushBlocks := Function.update t.flushBlocks tid
      (marks blocks (t.blockDirty, t.flushBlocks tid)).2
    addressBuffer := Function.update t.addressBuffer tid buffer }

/-- The blocks of the addresses that lie in the pool. -/
def pooledBlocks (t : NvmInst) (addresses : List Nat) : List Nat :=
  (addresses.filter fun addr => addr < t.capacity).map (· >>> kBlockShift)

@[simp] theorem marks_nil (m : AtomicBitSet × List Nat) : marks [] m = m := rfl

theorem record_self (tid : Nat) (t : NvmInst) : record tid [] (t.addressBuffer tid) t = t := by
  simp only [record, marks_nil, Function.update_eq_self]

theorem record_record (tid : Nat) (blocks blocks' buffer buffer' : List Nat) (t : NvmInst) :
    record tid blocks' buffer' (record tid blocks buffer t) =
      record tid (blocks ++ blocks') buffer' t := by
  simp only [record, marks, Function.update_self, Function.update_idem, List.foldl_append]

theorem record_buffer (tid : Nat) (blocks buffer : List Nat) (t : NvmInst) :
    (record tid blocks buffer t).addressBuffer tid = buffer := Function.update_self ..

theorem run_hookRoutine (tid addr : Nat) (t : NvmInst) : (hookRoutine tid addr).run t =
    some ((), record tid [addr >>> kBlockShift] (t.addressBuffer tid) t) := by
  simp only [hookRoutine, Prog.run_bind, Prog.run_read, Option.bind_some]
  split
  · rename_i hdirty
    simp only [record, marks, List.foldl_cons, List.foldl_nil, mark, hdirty, if_true,
      Function.update_eq_self]
    rfl
  · rename_i hclean
    simp only [Prog.run_bind, Prog.run_act, Option.bind_some, record, marks, List.foldl_cons,
      List.foldl_nil, mark, hclean, Bool.false_eq_true, if_false, Function.update_eq_self]
    split <;> simp

theorem run_hookRoutines (tid : Nat) (addresses : List Nat) (t : NvmInst) :
    (Prog.forEach addresses (hookRoutine tid)).run t =
      some ((), record tid (addresses.map (· >>> kBlockShift)) (t.addressBuffer tid) t) := by
  induction addresses generalizing t with
  | nil =>
      rw [List.map_nil, record_self]
      rfl
  | cons addr rest ih =>
      rw [Prog.run_forEach_cons, run_hookRoutine, Option.bind_some]
      simp only []
      rw [ih, record_buffer, record_record]
      rfl

theorem run_addressBufferClear (tid : Nat) (t : NvmInst) : (addressBufferClear tid tid).run t =
    some ((), record tid (pooledBlocks t (t.addressBuffer tid)) [] t) := by
  have hloop : ∀ (limit : Nat) (addresses : List Nat) (u : NvmInst),
      (Prog.forEach addresses fun addr =>
        if addr < limit then hookRoutine tid addr else pure ()).run u =
      some ((), record tid ((addresses.filter fun addr => addr < limit).map (· >>> kBlockShift))
        (u.addressBuffer tid) u) := by
    intro limit addresses u
    induction addresses generalizing u with
    | nil =>
        rw [List.filter_nil, List.map_nil, record_self]
        rfl
    | cons addr rest ih =>
        rw [Prog.run_forEach_cons]
        by_cases hlt : addr < limit
        · rw [if_pos hlt, run_hookRoutine, Option.bind_some]
          simp only []
          rw [ih, record_buffer, record_record, List.filter_cons_of_pos (by simpa using hlt)]
          rfl
        · rw [if_neg hlt, List.filter_cons_of_neg (by simpa using hlt)]
          exact ih u
  simp only [addressBufferClear, Prog.run_bind, Prog.run_read, Option.bind_some, hloop,
    Prog.run_act, pooledBlocks]
  simp only [record, Function.update_idem]

/-! ## The copy-on-write of another segment -/

theorem buf_set (b : AtomicBitSet) (block : Nat) {off : Nat} (h : block / 64 ≠ off) :
    (b.set block).buf off = b.buf off := by
  rw [AtomicBitSet.set, AtomicBitSet.word_eq]
  exact Function.update_of_ne (Ne.symm h) _ _

theorem set_clearRegion (b : AtomicBitSet) {start stop block : Nat}
    (h : ¬ (start / 64 ≤ block / 64 ∧ block / 64 < stop / 64)) :
    (b.clearRegion start stop).set block = (b.set block).clearRegion start stop := by
  simp only [AtomicBitSet.set, AtomicBitSet.clearRegion, AtomicBitSet.word_eq,
    AtomicBitSet.mk.injEq]
  funext off
  by_cases hoff : off = block / 64
  · subst hoff
    simp [h]
  · simp [Function.update_of_ne hoff]

theorem marks_clearRegion {blocks : List Nat} {start stop : Nat} (m : AtomicBitSet × List Nat)
    (h : ∀ block ∈ blocks, ¬ (start / 64 ≤ block / 64 ∧ block / 64 < stop / 64)) :
    marks blocks (m.1.clearRegion start stop, m.2) =
      ((marks blocks m).1.clearRegion start stop, (marks blocks m).2) := by
  induction blocks generalizing m with
  | nil => rfl
  | cons block rest ih =>
      have hout := h block (by simp)
      have htest : (m.1.clearRegion start stop).test block = m.1.test block := by
        rw [AtomicBitSet.test_clearRegion]
        simp [hout]
      have hmark : mark (m.1.clearRegion start stop, m.2) block =
          ((mark m block).1.clearRegion start stop, (mark m block).2) := by
        simp only [mark, htest]
        split
        · rfl
        · rw [set_clearRegion _ hout]
      simp only [marks, List.foldl_cons, hmark]
      exact ih (mark m block) fun b hb => h b (by simp [hb])

theorem buf_marks {blocks : List Nat} {off : Nat} (m : AtomicBitSet × List Nat)
    (h : ∀ block ∈ blocks, block / 64 ≠ off) : (marks blocks m).1.buf off = m.1.buf off := by
  induction blocks generalizing m with
  | nil => rfl
  | cons block rest ih =>
      have hmark : (mark m block).1.buf off = m.1.buf off := by
        rw [mark]
        split
        · rfl
        · exact buf_set _ _ (h block (by simp))
      exact (ih (mark m block) fun b hb => h b (by simp [hb])).trans hmark

section Commutes

variable {tid tid' s : Nat} {blocks buffer : List Nat}

theorem commutes_onNvm (f : Nvm → Nvm) :
    (Prog.act (onNvm f)).Commutes (record tid blocks buffer) :=
  Prog.commutes_act fun _ => rfl

theorem commutes_onImage {α : Type} (p : Prog CheckpointImage α) :
    (onImage p).Commutes (record tid blocks buffer) := by
  refine Prog.commutes_zoom ?_ ?_ p
  · exact fun _ => rfl
  · exact fun _ _ => rfl

theorem commutes_advanceNextBackSegment :
    advanceNextBackSegment.Commutes (record tid blocks buffer) :=
  Prog.commutes_act fun _ => rfl

theorem commutes_releaseBackMemoryLock :
    releaseBackMemoryLock.Commutes (record tid blocks buffer) :=
  Prog.commutes_act fun _ => rfl

theorem commutes_releaseSegmentLock (s : Nat) :
    (releaseSegmentLock s).Commutes (record tid blocks buffer) :=
  Prog.commutes_act fun _ => rfl

theorem commutes_tryAcquireSegmentLock (s : Nat) :
    (tryAcquireSegmentLock tid' s).Commutes (record tid blocks buffer) := by
  refine Prog.commutes_fetch (fun _ => rfl) fun t => ?_
  change (if (t.segmentLocks (lockOf s)).isNone then _ else _) = _
  split <;> rfl

theorem commutes_takeBackSegment (s b : Nat) :
    (takeBackSegment s b).Commutes (record tid blocks buffer) :=
  Prog.commutes_bind (commutes_onImage _) fun _ => commutes_advanceNextBackSegment

theorem commutes_allocateLoop (s rounds : Nat) :
    (allocateLoop tid' s rounds).Commutes (record tid blocks buffer) := by
  induction rounds with
  | zero => trivial
  | succ rounds ih =>
      have hskip : (advanceNextBackSegment >>= fun _ => allocateLoop tid' s rounds).Commutes
          (record tid blocks buffer) :=
        Prog.commutes_bind commutes_advanceNextBackSegment fun _ => ih
      unfold allocateLoop
      refine Prog.commutes_bind (Prog.commutes_read fun _ => rfl) fun b => ?_
      refine Prog.commutes_bind (Prog.commutes_read fun _ => rfl) fun old => ?_
      cases old with
      | none =>
          exact Prog.commutes_bind (commutes_takeBackSegment s b) fun _ =>
            commutes_releaseBackMemoryLock
      | some oldMain =>
          refine Prog.commutes_bind (Prog.commutes_read fun _ => rfl) fun inProgress => ?_
          split
          · refine Prog.commutes_bind (Prog.commutes_read fun _ => rfl) fun dirty => ?_
            split
            · exact hskip
            · exact Prog.commutes_bind (commutes_takeBackSegment s b) fun _ =>
                commutes_releaseBackMemoryLock
          · refine Prog.commutes_bind (commutes_tryAcquireSegmentLock oldMain) fun acquired => ?_
            split
            · refine Prog.commutes_bind (Prog.commutes_read fun _ => rfl) fun dirty => ?_
              split
              · exact Prog.commutes_bind (commutes_releaseSegmentLock oldMain) fun _ => hskip
              · refine Prog.commutes_bind (commutes_takeBackSegment s b) fun _ => ?_
                exact Prog.commutes_bind (commutes_releaseSegmentLock oldMain) fun _ =>
                  commutes_releaseBackMemoryLock
            · exact hskip

theorem commutes_findBackSegment (s : Nat) :
    (findBackSegment tid' s).Commutes (record tid blocks buffer) := by
  refine Prog.commutes_bind (Prog.commutes_read fun _ => rfl) fun back => ?_
  cases back with
  | some b => exact Prog.commutes_pure _
  | none =>
      refine Prog.commutes_bind ?_ fun _ =>
        Prog.commutes_bind (Prog.commutes_read fun _ => rfl) fun bound => ?_
      · refine Prog.commutes_bind (Prog.commutes_await (fun _ => rfl) fun _ => rfl) fun _ => ?_
        exact Prog.commutes_bind (Prog.commutes_read fun _ => rfl) fun rounds =>
          commutes_allocateLoop s rounds
      · cases bound with
        | some b => exact Prog.commutes_pure _
        | none => exact Prog.commutes_exit

theorem commutes_copyBlocks (s b : Nat) (indices : List Nat) :
    (copyBlocks s b indices).Commutes (record tid blocks buffer) :=
  Prog.commutes_forEach fun _ _ => commutes_onNvm _

theorem commutes_pushAddresses (s b : Nat) (indices list : List Nat) :
    (pushAddresses s b indices list).Commutes (record tid blocks buffer) := by
  induction indices generalizing list with
  | nil => exact Prog.commutes_pure _
  | cons index rest ih =>
      rw [pushAddresses]
      split
      · exact Prog.commutes_bind (commutes_copyBlocks s b _) fun _ => ih []
      · exact ih _

/-! The steps that look at the dirty bits of segment `s` -/

variable (hs : ∀ block ∈ blocks, segmentOf block ≠ s)

include hs

theorem outside_region : ∀ block ∈ blocks,
    ¬ (startBlock s / 64 ≤ block / 64 ∧ block / 64 < stopBlock s / 64) :=
  fun block hb hin => hs block hb (segmentOf_of_region hin)

theorem commutes_copyDirtyBlocks (b : Nat) {words : List Nat}
    (hwords : ∀ w ∈ words, w < kWordsPerBitmap) (list : List Nat) :
    (copyDirtyBlocks s b words list).Commutes (record tid blocks buffer) := by
  induction words generalizing list with
  | nil => exact commutes_copyBlocks s b list
  | cons w rest ih =>
      refine Prog.commutes_bind (Prog.commutes_read fun t => ?_) fun bitset => ?_
      · have hw : w < 128 := hwords w (by simp)
        refine buf_marks _ fun block hb hoff => outside_region hs block hb ?_
        rw [AtomicBitSet.word_eq] at hoff
        rw [hoff, stopBlock, startBlock, kBlocksPerSegment_eq, AtomicBitSet.kBitWidth]
        omega
      · exact Prog.commutes_bind (commutes_pushAddresses s b _ _) fun list =>
          ih (fun w' hw' => hwords w' (by simp [hw'])) list

theorem commutes_copyToBack (b : Nat) (created : Bool) (state : SegmentState) :
    (copyToBack s b created state).Commutes (record tid blocks buffer) := by
  unfold copyToBack
  split
  · split
    · exact commutes_onNvm _
    · exact Prog.commutes_pure _
  · exact commutes_copyDirtyBlocks hs b (fun w hw => List.mem_range.mp hw) _

theorem commutes_clearBlockDirty : (clearBlockDirty s).Commutes (record tid blocks buffer) := by
  refine Prog.commutes_act fun t => ?_
  have hmarks := marks_clearRegion (t.blockDirty, t.flushBlocks tid) (outside_region hs)
  simp only at hmarks
  simp only [record, hmarks]

theorem commutes_finishWriteBack (b : Nat) (created : Bool) (state : SegmentState) :
    (finishWriteBack s b created state true).Commutes (record tid blocks buffer) := by
  unfold finishWriteBack
  refine Prog.commutes_bind (commutes_copyToBack hs b created state) fun _ => ?_
  refine Prog.commutes_bind (commutes_onNvm _) fun _ => ?_
  refine Prog.commutes_bind (commutes_onImage _) fun _ => ?_
  refine Prog.commutes_bind (commutes_clearBlockDirty hs) fun _ => ?_
  simp only [if_true]
  refine Prog.commutes_bind (Prog.commutes_act fun _ => rfl) fun _ => ?_
  exact Prog.commutes_bind (commutes_releaseSegmentLock s) fun _ => Prog.commutes_pure _

theorem commutes_lazyWriteBack :
    (lazyWriteBack tid' s true).Commutes (record tid blocks buffer) := by
  unfold lazyWriteBack
  refine Prog.commutes_bind (Prog.commutes_await (fun _ => rfl) fun _ => rfl) fun _ => ?_
  refine Prog.commutes_bind (Prog.commutes_read fun _ => rfl) fun state => ?_
  refine Prog.commutes_bind (Prog.commutes_read fun _ => rfl) fun back => ?_
  cases back with
  | some b =>
      simp only
      split
      · simp only [if_true]
        refine Prog.commutes_bind (Prog.commutes_act fun _ => rfl) fun _ => ?_
        exact Prog.commutes_bind (commutes_releaseSegmentLock s) fun _ => Prog.commutes_pure _
      · exact commutes_finishWriteBack hs b false state
  | none =>
      exact Prog.commutes_bind (commutes_findBackSegment s) fun found =>
        commutes_finishWriteBack hs found.1 found.2 state

theorem commutes_hookSegment :
    (hookSegment tid' s).Commutes (record tid blocks buffer) := by
  refine Prog.commutes_bind (Prog.commutes_read fun _ => rfl) fun dirty => ?_
  split
  · exact Prog.commutes_pure _
  · refine Prog.commutes_bind (Prog.commutes_read fun _ => rfl) fun skip => ?_
    split
    · exact Prog.commutes_act fun _ => rfl
    · exact Prog.commutes_bind (commutes_lazyWriteBack hs) fun _ => Prog.commutes_pure _

end Commutes

/-! ## The hooks of a list of segments -/

theorem beside_hookSegment (tid s : Nat) : (hookSegment tid s).Within (Beside s) := by
  refine Prog.within_bind (Prog.within_read (.refl s) _) fun dirty => ?_
  split
  · exact Prog.within_pure _
  · refine Prog.within_bind (Prog.within_read (.refl s) _) fun skip => ?_
    split
    · exact beside_setSegmentDirty s s
    · exact Prog.within_bind (beside_lazyWriteBack tid s) fun _ => Prog.within_pure _

theorem run_hookSegment_keeps {tid s : Nat} {t u : NvmInst}
    (h : (hookSegment tid s).run t = some ((), u)) :
    Preserves t u ∧ u.addressBuffer = t.addressBuffer ∧ Dirty u s := by
  have hwp := Prog.wp_within (.refl s) (fun _ _ _ => .trans) (beside_hookSegment tid s)
    (wp_hookSegment_dirty tid s t)
  obtain ⟨hbeside, hpres, hdirty⟩ := Prog.run_of_wp hwp h
  exact ⟨hpres, hbeside.addressBuffer, hdirty⟩

theorem run_hookSegments_keeps {tid : Nat} {segments : List Nat} {t u : NvmInst}
    (h : (Prog.forEach segments (hookSegment tid)).run t = some ((), u)) :
    Preserves t u ∧ u.addressBuffer = t.addressBuffer ∧ ∀ s ∈ segments, Dirty u s := by
  induction segments generalizing t with
  | nil =>
      obtain rfl : t = u := by simpa using h
      exact ⟨.refl t, rfl, by simp⟩
  | cons s rest ih =>
      rw [Prog.run_forEach_cons] at h
      obtain ⟨⟨⟨⟩, v⟩, hv, hrest⟩ := Option.bind_eq_some_iff.mp h
      obtain ⟨hpres, hbuf, hdirty⟩ := run_hookSegment_keeps hv
      obtain ⟨hpres', hbuf', hall⟩ := ih hrest
      refine ⟨hpres.trans hpres', hbuf'.trans hbuf, fun s' hs' => ?_⟩
      rcases List.mem_cons.mp hs' with rfl | hin
      · exact hpres'.dirty _ hdirty
      · exact hall s' hin

theorem run_hookSegment_of_dirty {tid s : Nat} {t : NvmInst} (h : Dirty t s) :
    (hookSegment tid s).run t = some ((), t) := by
  have htest : t.segmentDirty.test s = true := h
  simp only [hookSegment, Prog.run_bind, Prog.run_read, Option.bind_some, htest, if_true]
  rfl

theorem run_hookSegments_record {tid : Nat} {blocks buffer segments : List Nat} {t : NvmInst}
    (h : ∀ block ∈ blocks, Dirty t (segmentOf block)) :
    (Prog.forEach segments (hookSegment tid)).run (record tid blocks buffer t) =
      ((Prog.forEach segments (hookSegment tid)).run t).map fun r =>
        ((), record tid blocks buffer r.2) := by
  induction segments generalizing t with
  | nil => rfl
  | cons s rest ih =>
      have hstep : (hookSegment tid s).run (record tid blocks buffer t) =
          ((hookSegment tid s).run t).map fun r => (r.1, record tid blocks buffer r.2) := by
        by_cases hd : Dirty t s
        · have hd' : Dirty (record tid blocks buffer t) s := hd
          rw [run_hookSegment_of_dirty hd, run_hookSegment_of_dirty hd', Option.map_some]
        · refine (commutes_hookSegment fun block hb heq => hd ?_).run t
          exact heq ▸ h block hb
      rw [Prog.run_forEach_cons, Prog.run_forEach_cons, hstep]
      cases hrun : (hookSegment tid s).run t with
      | none => rfl
      | some r =>
          obtain ⟨⟨⟩, u⟩ := r
          have hpres := (run_hookSegment_keeps hrun).1
          exact ih fun block hb => hpres.dirty _ (h block hb)

/-! ## Byte by byte -/

/-- The buffered addresses of thread `tid` that lie in the pool lie in dirty segments. -/
def Settled (tid : Nat) (t : NvmInst) : Prop :=
  ∀ addr ∈ t.addressBuffer tid, addr < t.capacity → Dirty t (addr >>> kSegmentShift)

theorem Preserves.capacity {t u : NvmInst} (h : Preserves t u) : u.capacity = t.capacity := by
  rw [NvmInst.capacity, NvmInst.capacity, h.nrSegments]

theorem Preserves.pooledBlocks {t u : NvmInst} (h : Preserves t u) :
    pooledBlocks u = pooledBlocks t := by
  funext addresses
  rw [NvmInst.pooledBlocks, NvmInst.pooledBlocks, h.capacity]

theorem pooledBlocks_record (tid : Nat) (blocks buffer : List Nat) (t : NvmInst) :
    pooledBlocks (record tid blocks buffer t) = pooledBlocks t := rfl

theorem pooledBlocks_append_singleton {t : NvmInst} (addresses : List Nat) {addr : Nat}
    (h : addr < t.capacity) :
    pooledBlocks t (addresses ++ [addr]) = pooledBlocks t addresses ++ [addr >>> kBlockShift] := by
  simp [pooledBlocks, h]

theorem Settled.dirty {tid : Nat} {t : NvmInst} (h : Settled tid t) :
    ∀ block ∈ pooledBlocks t (t.addressBuffer tid), Dirty t (segmentOf block) := by
  intro block hin
  obtain ⟨addr, haddr, rfl⟩ := List.mem_map.mp hin
  obtain ⟨hbuf, hlt⟩ := List.mem_filter.mp haddr
  rw [segmentOf_block]
  exact h addr hbuf (of_decide_eq_true hlt)

theorem run_hookRtStore_eq (tid addr : Nat) (t : NvmInst) : (hookRtStore tid addr).run t =
    ((if addr < t.capacity then hookSegment tid (addr >>> kSegmentShift)
      else pure ()).run t).map fun r =>
      ((), if (t.addressBuffer tid ++ [addr]).length = kNumBufferedAddresses then
          record tid (pooledBlocks t (t.addressBuffer tid ++ [addr])) [] r.2
        else record tid [] (t.addressBuffer tid ++ [addr]) r.2) := by
  have hrest : ∀ u, Preserves t u → u.addressBuffer = t.addressBuffer →
      (Prog.act (fun u => { u with
          addressBuffer := Function.update u.addressBuffer tid (u.addressBuffer tid ++ [addr]) })
          >>= fun _ =>
        Prog.read (fun u => (u.addressBuffer tid).length) >>= fun length =>
        if length = kNumBufferedAddresses then addressBufferClear tid tid else pure ()).run u =
      some ((), if (t.addressBuffer tid ++ [addr]).length = kNumBufferedAddresses then
          record tid (pooledBlocks t (t.addressBuffer tid ++ [addr])) [] u
        else record tid [] (t.addressBuffer tid ++ [addr]) u) := by
    intro u hpres hbuf
    have hpush : { u with
        addressBuffer := Function.update t.addressBuffer tid (t.addressBuffer tid ++ [addr]) } =
        record tid [] (t.addressBuffer tid ++ [addr]) u := by
      simp only [record, marks_nil, Function.update_eq_self, hbuf]
    simp only [Option.bind_some, Prog.run_bind, Prog.run_act, Prog.run_read,
      Function.update_self, hbuf]
    rw [hpush]
    split
    · rw [run_addressBufferClear, record_buffer, pooledBlocks_record, hpres.pooledBlocks,
        record_record]
      rfl
    · rfl
  unfold hookRtStore
  rw [Prog.run_bind, Prog.run_read, Option.bind_some]
  simp only []
  by_cases hlt : addr < t.capacity
  · rw [if_pos hlt, if_pos hlt, Prog.run_bind, hookCopyOnWriteRoutine]
    cases hrun : (hookSegment tid (addr >>> kSegmentShift)).run t with
    | none => rfl
    | some r =>
        obtain ⟨⟨⟩, u⟩ := r
        obtain ⟨hpres, hbuf, -⟩ := run_hookSegment_keeps hrun
        exact hrest u hpres hbuf
  · rw [if_neg hlt, if_neg hlt]
    exact hrest t (.refl t) rfl

theorem run_hookRtStores {tid : Nat} {addresses : List Nat} {t : NvmInst}
    (hin : ∀ addr ∈ addresses, addr < t.capacity) (hs : Settled tid t) :
    (Prog.forEach addresses (hookRtStore tid) >>= fun _ => addressBufferClear tid tid).run t =
      ((Prog.forEach (addresses.map (· >>> kSegmentShift)) (hookSegment tid)).run t).map fun r =>
        ((), record tid (pooledBlocks t (t.addressBuffer tid) ++
          addresses.map (· >>> kBlockShift)) [] r.2) := by
  induction addresses generalizing t with
  | nil =>
      rw [Prog.run_bind, Prog.run_forEach_nil, Option.bind_some, run_addressBufferClear,
        List.map_nil, List.map_nil, List.append_nil]
      rfl
  | cons addr rest ih =>
      have hlt := hin addr (by simp)
      have hassoc : ∀ v, (Prog.forEach (addr :: rest) (hookRtStore tid) >>= fun _ =>
          addressBufferClear tid tid).run v = ((hookRtStore tid addr).run v).bind fun r =>
          (Prog.forEach rest (hookRtStore tid) >>= fun _ => addressBufferClear tid tid).run r.2 := by
        intro v
        simp only [Prog.run_bind, Prog.run_forEach_cons, Option.bind_assoc]
      rw [hassoc, run_hookRtStore_eq, if_pos hlt, pooledBlocks_append_singleton _ hlt,
        List.map_cons, List.map_cons, Prog.run_forEach_cons]
      cases hrun : (hookSegment tid (addr >>> kSegmentShift)).run t with
      | none => rfl
      | some r =>
          obtain ⟨⟨⟩, u⟩ := r
          obtain ⟨hpres, hbuf, hdirty⟩ := run_hookSegment_keeps hrun
          have hin' : ∀ a ∈ rest, a < u.capacity := by
            intro a ha
            rw [hpres.capacity]
            exact hin a (by simp [ha])
          simp only [Option.map_some, Option.bind_some]
          split
          · -- The drain records blocks of dirty segments, so the copies to come commute with it.
            have hblocks : ∀ block ∈ pooledBlocks t (t.addressBuffer tid) ++ [addr >>> kBlockShift],
                Dirty u (segmentOf block) := by
              intro block hin
              rcases List.mem_append.mp hin with hold | hnew
              · exact hpres.dirty _ (hs.dirty block hold)
              · rw [List.mem_singleton.mp hnew, segmentOf_block]
                exact hdirty
            have hsettled : Settled tid
                (record tid (pooledBlocks t (t.addressBuffer tid) ++ [addr >>> kBlockShift]) [] u) := by
              intro a ha
              rw [record_buffer] at ha
              exact absurd ha List.not_mem_nil
            rw [ih (t := record tid _ _ u) hin' hsettled, run_hookSegments_record hblocks,
              Option.map_map]
            refine congrArg (fun f => Option.map f _) (funext fun r => ?_)
            simp only [Function.comp_apply, record_buffer, record_record]
            simp [NvmInst.pooledBlocks]
          · have hsettled : Settled tid (record tid [] (t.addressBuffer tid ++ [addr]) u) := by
              intro a ha hcap
              rw [record_buffer] at ha
              rcases List.mem_append.mp ha with hold | hnew
              · exact hpres.dirty _ (hs a hold (hpres.capacity ▸ hcap))
              · rw [List.mem_singleton.mp hnew]
                exact hdirty
            rw [ih (t := record tid _ _ u) hin' hsettled, run_hookSegments_record (by simp),
              Option.map_map]
            refine congrArg (fun f => Option.map f _) (funext fun r => ?_)
            simp only [Function.comp_apply, record_buffer, record_record, pooledBlocks_record,
              hpres.pooledBlocks, pooledBlocks_append_singleton _ hlt]
            simp

/-! ## The whole range at once -/

theorem segmentRange_succ (addr : Nat) {len : Nat} (hlen : 0 < len) :
    segmentRange addr (len + 1) = segmentRange addr len ∧
        (addr + len) >>> kSegmentShift ∈ segmentRange addr len ∨
      segmentRange addr (len + 1) = segmentRange addr len ++ [(addr + len) >>> kSegmentShift] := by
  simp only [segmentRange, Nat.shiftRight_eq_div_pow, kSegmentSize_eq, kSegmentShift, List.mem_map,
    List.mem_range]
  by_cases hmid : (addr + len) % 2097152 = 0
  · refine Or.inr ?_
    have hcount : (addr + (len + 1) + (2097152 - 1)) / 2 ^ 21 - addr / 2 ^ 21 =
        (addr + len + (2097152 - 1)) / 2 ^ 21 - addr / 2 ^ 21 + 1 := by omega
    have hlast : addr / 2 ^ 21 + ((addr + len + (2097152 - 1)) / 2 ^ 21 - addr / 2 ^ 21) =
        (addr + len) / 2 ^ 21 := by omega
    rw [hcount, List.range_succ, List.map_append, List.map_singleton, hlast]
  · refine Or.inl ⟨?_, (addr + len) / 2 ^ 21 - addr / 2 ^ 21, by omega, by omega⟩
    congr 2
    omega

theorem segmentRange_one (addr : Nat) : segmentRange addr 1 = [addr >>> kSegmentShift] := by
  simp only [segmentRange, Nat.shiftRight_eq_div_pow, kSegmentSize_eq, kSegmentShift]
  have hcount : (addr + 1 + (2097152 - 1)) / 2 ^ 21 - addr / 2 ^ 21 = 1 := by omega
  rw [hcount]
  rfl

theorem run_hookSegments_bytes (tid addr : Nat) {len : Nat} (hlen : 0 < len) (t : NvmInst) :
    (Prog.forEach (((List.range len).map (addr + ·)).map (· >>> kSegmentShift))
        (hookSegment tid)).run t =
      (Prog.forEach (segmentRange addr len) (hookSegment tid)).run t := by
  induction len, hlen using Nat.le_induction with
  | base => rw [segmentRange_one]; rfl
  | succ len hlen ih =>
      rw [List.range_succ, List.map_append, List.map_append, Prog.run_forEach_append, ih]
      rcases segmentRange_succ addr hlen with ⟨heq, hin⟩ | heq
      · rw [heq]
        cases hrun : (Prog.forEach (segmentRange addr len) (hookSegment tid)).run t with
        | none => rfl
        | some r =>
            obtain ⟨⟨⟩, u⟩ := r
            have hdirty := (run_hookSegments_keeps hrun).2.2 _ hin
            rw [Option.bind_some, List.map_singleton, List.map_singleton, Prog.forEach_singleton]
            exact run_hookSegment_of_dirty hdirty
      · rw [heq, Prog.run_forEach_append]
        rfl

/-- `__crpm_hook_rt_range_store`, then the drain. -/
def rangeThenDrain (tid addr len : Nat) : Prog NvmInst Unit := do
  hookRtRangeStore tid addr len
  addressBufferClear tid tid

/-- `__crpm_hook_rt_store` on every byte, then the drain. -/
def storesThenDrain (tid addr len : Nat) : Prog NvmInst Unit := do
  Prog.forEach ((List.range len).map (addr + ·)) (hookRtStore tid)
  addressBufferClear tid tid

def byteBlocks (addr len : Nat) : List Nat :=
  ((List.range len).map (addr + ·)).map (· >>> kBlockShift)

theorem run_storesThenDrain {tid addr len : Nat} {t : NvmInst} (hlen : 0 < len)
    (hin : addr + len ≤ t.capacity) (hs : Settled tid t) :
    (storesThenDrain tid addr len).run t =
      ((Prog.forEach (segmentRange addr len) (hookSegment tid)).run t).map fun r =>
        ((), record tid (pooledBlocks t (t.addressBuffer tid) ++ byteBlocks addr len) [] r.2) := by
  have hbytes : ∀ a ∈ (List.range len).map (addr + ·), a < t.capacity := by
    intro a ha
    obtain ⟨k, hk, rfl⟩ := List.mem_map.mp ha
    have hk' : k < len := List.mem_range.mp hk
    omega
  rw [← run_hookSegments_bytes tid addr hlen t]
  exact run_hookRtStores hbytes hs

/-- The blocks that the hook for a range and the drain after it record, in their order. -/
def rangeBlocks (t : NvmInst) (tid addr len : Nat) : List Nat :=
  if addr % kBlockSize + len ≤ kBlockSize then
    pooledBlocks t (t.addressBuffer tid) ++ byteBlocks addr 1
  else (blockAddresses addr len).map (· >>> kBlockShift) ++ pooledBlocks t (t.addressBuffer tid)

theorem segmentRange_of_one_block {addr len : Nat} (hlen : 0 < len)
    (h : addr % kBlockSize + len ≤ kBlockSize) : segmentRange addr len = segmentRange addr 1 := by
  rw [kBlockSize_eq] at h
  simp only [segmentRange, Nat.shiftRight_eq_div_pow, kSegmentSize_eq, kSegmentShift]
  congr 2
  omega

theorem run_rangeThenDrain {tid addr len : Nat} {t : NvmInst} (hlen : 0 < len)
    (hin : addr + len ≤ t.capacity) (hs : Settled tid t) :
    (rangeThenDrain tid addr len).run t =
      ((Prog.forEach (segmentRange addr len) (hookSegment tid)).run t).map fun r =>
        ((), record tid (rangeBlocks t tid addr len) [] r.2) := by
  rw [rangeThenDrain, hookRtRangeStore, rangeBlocks]
  split
  · rename_i hone
    rw [segmentRange_of_one_block hlen hone,
      ← run_storesThenDrain Nat.one_pos (by omega) hs, storesThenDrain]
    simp only [Prog.run_bind, List.range_one, List.map_singleton, Nat.add_zero,
      Prog.forEach_singleton]
  · rw [Prog.run_bind, Prog.run_bind, Prog.run_read, Option.bind_some]
    simp only []
    rw [if_pos (by omega), Prog.run_bind, hookCopyOnWriteRange]
    cases hrun : (Prog.forEach (segmentRange addr len) (hookSegment tid)).run t with
    | none => rfl
    | some r =>
        obtain ⟨⟨⟩, u⟩ := r
        obtain ⟨hpres, hbuf, -⟩ := run_hookSegments_keeps hrun
        rw [Option.bind_some, hookRoutineRange, run_hookRoutines, Option.bind_some,
          run_addressBufferClear, record_buffer, pooledBlocks_record, hpres.pooledBlocks,
          record_record, hbuf]
        rfl

/-! ## Records of the same blocks -/

/-- The blocks that get recorded, each at its first occurrence. -/
def fresh (dirty : AtomicBitSet) : List Nat → List Nat
  | [] => []
  | block :: rest =>
      if dirty.test block then fresh dirty rest else block :: fresh (dirty.set block) rest

def appendBlock (bucket : List Nat) (block : Nat) : List Nat :=
  if bucket.length ≠ kMaxFlushBlocks then bucket ++ [block] else bucket

def appendBlocks (bucket blocks : List Nat) : List Nat := blocks.foldl appendBlock bucket

theorem mem_fresh {dirty : AtomicBitSet} {blocks : List Nat} {block : Nat} :
    block ∈ fresh dirty blocks ↔ block ∈ blocks ∧ dirty.test block = false := by
  induction blocks generalizing dirty with
  | nil => simp [fresh]
  | cons b rest ih =>
      rw [fresh]
      split
      · rename_i hb
        rw [ih, List.mem_cons]
        constructor
        · exact fun h => ⟨Or.inr h.1, h.2⟩
        · rintro ⟨rfl | hin, hclean⟩
          · simp [hb] at hclean
          · exact ⟨hin, hclean⟩
      · rename_i hb
        rw [List.mem_cons, List.mem_cons, ih, AtomicBitSet.test_set]
        by_cases heq : block = b
        · subst heq
          simpa using hb
        · simp [heq]

theorem nodup_fresh (dirty : AtomicBitSet) (blocks : List Nat) : (fresh dirty blocks).Nodup := by
  induction blocks generalizing dirty with
  | nil => simp [fresh]
  | cons b rest ih =>
      rw [fresh]
      split
      · exact ih dirty
      · refine List.nodup_cons.mpr ⟨fun hin => ?_, ih _⟩
        have hclean := (mem_fresh.mp hin).2
        rw [AtomicBitSet.test_set] at hclean
        simp at hclean

theorem marks_snd (m : AtomicBitSet × List Nat) (blocks : List Nat) :
    (marks blocks m).2 = appendBlocks m.2 (fresh m.1 blocks) := by
  induction blocks generalizing m with
  | nil => rfl
  | cons b rest ih =>
      rw [fresh]
      change (marks rest (mark m b)).2 = _
      rw [ih, mark]
      split <;> rfl

theorem test_marks (m : AtomicBitSet × List Nat) (blocks : List Nat) (block : Nat) :
    (marks blocks m).1.test block = true ↔ m.1.test block = true ∨ block ∈ blocks := by
  induction blocks generalizing m with
  | nil => simp
  | cons b rest ih =>
      change (marks rest (mark m b)).1.test block = true ↔ _
      rw [ih, mark, List.mem_cons]
      split
      · rename_i hb
        constructor
        · exact fun h => h.imp_right Or.inr
        · rintro (hold | rfl | hin)
          · exact Or.inl hold
          · exact Or.inl hb
          · exact Or.inr hin
      · rw [AtomicBitSet.test_set, Bool.or_eq_true, decide_eq_true_iff]
        tauto

theorem length_appendBlocks {bucket bucket' blocks blocks' : List Nat}
    (h : bucket.length = bucket'.length) (h' : blocks.length = blocks'.length) :
    (appendBlocks bucket blocks).length = (appendBlocks bucket' blocks').length := by
  induction blocks generalizing bucket bucket' blocks' with
  | nil =>
      obtain rfl := List.length_eq_zero_iff.mp h'.symm
      exact h
  | cons b rest ih =>
      cases blocks' with
      | nil => simp at h'
      | cons b' rest' =>
          have hstep : (appendBlock bucket b).length = (appendBlock bucket' b').length := by
            rw [appendBlock, appendBlock, h]
            split
            · simp [h]
            · exact h
          change (appendBlocks (appendBlock bucket b) rest).length =
            (appendBlocks (appendBlock bucket' b') rest').length
          exact ih hstep (by simpa using h')

theorem length_le_appendBlocks (bucket blocks : List Nat) :
    bucket.length ≤ (appendBlocks bucket blocks).length := by
  induction blocks generalizing bucket with
  | nil => exact Nat.le_refl _
  | cons b rest ih =>
      refine Nat.le_trans ?_ (ih (appendBlock bucket b))
      rw [appendBlock]
      split
      · simp
      · exact Nat.le_refl _

theorem appendBlocks_of_lt {bucket blocks : List Nat}
    (h : (appendBlocks bucket blocks).length < kMaxFlushBlocks) :
    appendBlocks bucket blocks = bucket ++ blocks := by
  induction blocks generalizing bucket with
  | nil => simp [appendBlocks]
  | cons b rest ih =>
      have hroom : bucket.length ≠ kMaxFlushBlocks := by
        have hle := length_le_appendBlocks bucket (b :: rest)
        omega
      have hstep : appendBlocks bucket (b :: rest) = appendBlocks (bucket ++ [b]) rest := by
        rw [appendBlocks, List.foldl_cons, appendBlock, if_pos hroom]
        rfl
      rw [hstep] at h ⊢
      rw [ih h, List.append_assoc]
      rfl

theorem eq_of_test {b b' : AtomicBitSet} (h : ∀ block, b.test block = b'.test block) : b = b' := by
  cases b with
  | mk buf =>
      cases b' with
      | mk buf' =>
          congr
          funext off
          refine BitVec.eq_of_getLsbD_eq fun i hi => ?_
          have hbit := h (off * 64 + i)
          rw [AtomicBitSet.test_eq, AtomicBitSet.test_eq] at hbit
          have hdiv : (off * 64 + i) / 64 = off := by omega
          have hmod : (off * 64 + i) % 64 = i := by omega
          rwa [hdiv, hmod] at hbit

/-! ## The two ways to hook a range -/

theorem mem_byteBlocks {addr len block : Nat} (hlen : 0 < len) :
    block ∈ byteBlocks addr len ↔ Covers addr len block := by
  simp only [byteBlocks, List.map_map, List.mem_map, List.mem_range, Function.comp_apply, Covers,
    Nat.shiftRight_eq_div_pow, kBlockShift, kBlockSize_eq]
  constructor
  · rintro ⟨k, hk, rfl⟩
    omega
  · rintro ⟨hlow, hhigh⟩
    by_cases hstart : block * 256 ≤ addr
    · exact ⟨0, hlen, by omega⟩
    · exact ⟨block * 256 - addr, by omega, by omega⟩

theorem mem_rangeBlocks {t : NvmInst} {tid addr len block : Nat} (hlen : 0 < len) :
    block ∈ rangeBlocks t tid addr len ↔
      block ∈ pooledBlocks t (t.addressBuffer tid) ++ byteBlocks addr len := by
  rw [rangeBlocks]
  split
  · rename_i hone
    rw [List.mem_append, List.mem_append, mem_byteBlocks Nat.one_pos, mem_byteBlocks hlen]
    simp only [Covers, Nat.shiftRight_eq_div_pow, kBlockShift, kBlockSize_eq] at hone ⊢
    refine or_congr_right ⟨fun h => ?_, fun h => ?_⟩
    · omega
    · omega
  · rw [List.mem_append, List.mem_append, mem_byteBlocks hlen, or_comm]
    refine or_congr_right ⟨fun h => ?_, fun h => ?_⟩
    · obtain ⟨a, ha, rfl⟩ := List.mem_map.mp h
      exact covers_of_mem_blockAddresses ha
    · obtain ⟨a, ha, rfl⟩ := blockAddresses_covers h
      exact List.mem_map_of_mem ha

/-- Everything is the same but the order in the bucket of `tid`.  A full bucket is not read: the
checkpoint writes back the whole cache then, so a full one need not hold the same blocks. -/
structure SameEffect (tid : Nat) (u v : NvmInst) : Prop where
  rest : { u with flushBlocks := v.flushBlocks } = v
  others : ∀ id, id ≠ tid → u.flushBlocks id = v.flushBlocks id
  length : (u.flushBlocks tid).length = (v.flushBlocks tid).length
  recorded : (u.flushBlocks tid).length < kMaxFlushBlocks →
    ∀ block, block ∈ u.flushBlocks tid ↔ block ∈ v.flushBlocks tid

theorem sameEffect_record {blocks blocks' : List Nat} (tid : Nat) (buffer : List Nat) (t : NvmInst)
    (h : ∀ block, block ∈ blocks ↔ block ∈ blocks') :
    SameEffect tid (record tid blocks buffer t) (record tid blocks' buffer t) := by
  have hfresh : ∀ block, block ∈ fresh t.blockDirty blocks ↔ block ∈ fresh t.blockDirty blocks' := by
    intro block
    rw [mem_fresh, mem_fresh, h]
  have hlength : (appendBlocks (t.flushBlocks tid) (fresh t.blockDirty blocks)).length =
      (appendBlocks (t.flushBlocks tid) (fresh t.blockDirty blocks')).length := by
    refine length_appendBlocks rfl ?_
    exact ((List.perm_ext_iff_of_nodup (nodup_fresh _ _) (nodup_fresh _ _)).mpr hfresh).length_eq
  have hdirty : (marks blocks (t.blockDirty, t.flushBlocks tid)).1 =
      (marks blocks' (t.blockDirty, t.flushBlocks tid)).1 := by
    refine eq_of_test fun block => Bool.eq_iff_iff.mpr ?_
    rw [test_marks, test_marks, h]
  refine ⟨?_, fun id hne => ?_, ?_, fun hlt block => ?_⟩
  · simp only [record, hdirty]
  · simp only [record, Function.update_of_ne hne]
  · simpa only [record, Function.update_self, marks_snd] using hlength
  · simp only [record, Function.update_self, marks_snd] at hlt ⊢
    rw [appendBlocks_of_lt hlt, appendBlocks_of_lt (hlength ▸ hlt), List.mem_append,
      List.mem_append, hfresh]

/-- Both ways of hooking return, with outcomes in the given relation, or neither returns. -/
def Agree (R : NvmInst → NvmInst → Prop) (tid addr len : Nat) (t : NvmInst) : Prop :=
  Option.Rel (fun r r' => R r.2 r'.2) ((rangeThenDrain tid addr len).run t)
    ((storesThenDrain tid addr len).run t)

/-- The range hook does what single hooks of all bytes do, up to the contents of a full bucket. -/
theorem range_hook_agrees {tid addr len : Nat} {t : NvmInst} (hlen : 0 < len)
    (hin : addr + len ≤ t.capacity) (hs : Settled tid t) :
    Agree (SameEffect tid) tid addr len t := by
  rw [Agree, run_rangeThenDrain hlen hin hs, run_storesThenDrain hlen hin hs]
  cases (Prog.forEach (segmentRange addr len) (hookSegment tid)).run t with
  | none => exact .none
  | some r => exact .some (sameEffect_record tid [] r.2 fun _ => mem_rangeBlocks hlen)

theorem appendBlocks_full {bucket : List Nat} (h : bucket.length = kMaxFlushBlocks)
    (blocks : List Nat) : appendBlocks bucket blocks = bucket := by
  induction blocks with
  | nil => rfl
  | cons b rest ih =>
      rw [appendBlocks, List.foldl_cons, appendBlock, if_neg (by simp [h])]
      exact ih

theorem appendBlocks_last {bucket : List Nat} (h : bucket.length + 1 = kMaxFlushBlocks)
    (block : Nat) (rest : List Nat) : appendBlocks bucket (block :: rest) = bucket ++ [block] := by
  rw [appendBlocks, List.foldl_cons, appendBlock, if_pos (by omega)]
  exact appendBlocks_full (by simpa using h) rest

/-- Segments 0 to 16 are dirty, and the blocks of the segments 1 to 16 are recorded, the last one
apart.  An address of block 5 waits in the buffer. -/
def nearlyFull : NvmInst :=
  { openNew 18 18 with
    segmentDirty := ⟨fun w => if w = 0 then 0x1ffff#64 else 0#64⟩
    blockDirty := ⟨fun w =>
      if 128 ≤ w ∧ w < 2175 then BitVec.allOnes 64
      else if w = 2175 then BitVec.allOnes 64 >>> 1 else 0#64⟩
    flushBlocks := fun id => if id = 0 then List.range' 8192 131071 else []
    addressBuffer := fun id => if id = 0 then [1280] else [] }

/-- Segment 1 is dirty.  An address of the clean segment 2 waits in the buffer, and the only back
segment belongs to segment 0. -/
def unsettled : NvmInst :=
  { openNew 3 1 with
    segmentDirty := AtomicBitSet.allocate.set 1
    addressBuffer := fun id => if id = 0 then [2 * kSegmentSize + 1280] else [] }

/-- The same segments copied and dirty, the same blocks dirty, the same blocks recorded. -/
structure SameSets (tid : Nat) (u v : NvmInst) : Prop where
  image : u.image = v.image
  segmentDirty : u.segmentDirty = v.segmentDirty
  blockDirty : u.blockDirty = v.blockDirty
  recorded : ∀ block, block ∈ u.flushBlocks tid ↔ block ∈ v.flushBlocks tid

theorem run_nearlyFull :
    (rangeThenDrain 0 1792 257).run nearlyFull =
        some ((), record 0 (rangeBlocks nearlyFull 0 1792 257) [] nearlyFull) ∧
      (storesThenDrain 0 1792 257).run nearlyFull =
        some ((), record 0 (5 :: byteBlocks 1792 257) [] nearlyFull) := by
  have hsettled : Settled 0 nearlyFull := by
    intro addr hin _
    obtain rfl : addr = 1280 := by simpa [nearlyFull] using hin
    exact (by decide : nearlyFull.segmentDirty.test 0 = true)
  have hin : 1792 + 257 ≤ nearlyFull.capacity := by decide
  have hsegments : (Prog.forEach (segmentRange 1792 257) (hookSegment 0)).run nearlyFull =
      some ((), nearlyFull) := by
    have hrange : segmentRange 1792 257 = [0] := by decide
    rw [hrange, Prog.forEach_singleton]
    exact run_hookSegment_of_dirty (by decide : nearlyFull.segmentDirty.test 0 = true)
  have hpool : pooledBlocks nearlyFull (nearlyFull.addressBuffer 0) = [5] := by decide
  rw [run_rangeThenDrain (by decide) hin hsettled, run_storesThenDrain (by decide) hin hsettled,
    hsegments, hpool]
  exact ⟨rfl, rfl⟩

/-- When the bucket has room for one more block, the two ways record different ones. -/
theorem not_agree_nearlyFull : ¬ Agree (SameSets 0) 0 1792 257 nearlyFull := by
  intro h
  rw [Agree, run_nearlyFull.1, run_nearlyFull.2] at h
  cases h with
  | some hsame =>
      have hblocks : rangeBlocks nearlyFull 0 1792 257 = [7, 8, 5] := by decide
      have hroom : (List.range' 8192 131071).length + 1 = kMaxFlushBlocks := by
        rw [List.length_range']
        rfl
      have hseven : ∀ rest, (record 0 (7 :: rest) [] nearlyFull).flushBlocks 0 =
          List.range' 8192 131071 ++ [7] := by
        intro rest
        simp only [record, Function.update_self, marks_snd, fresh]
        rw [if_neg (by decide)]
        exact appendBlocks_last hroom 7 _
      have hfive : ∀ rest, (record 0 (5 :: rest) [] nearlyFull).flushBlocks 0 =
          List.range' 8192 131071 ++ [5] := by
        intro rest
        simp only [record, Function.update_self, marks_snd, fresh]
        rw [if_neg (by decide)]
        exact appendBlocks_last hroom 5 _
      have hrec := hsame.recorded 7
      simp only [hblocks, hseven, hfive, List.mem_append, List.mem_range'_1,
        List.mem_singleton] at hrec
      have hcases := hrec.mp (Or.inr trivial)
      omega

/-- A block recorded for a clean segment is forgotten by the copy-on-write of that segment, and
single hooks drain the buffer before they copy. -/
theorem not_agree_unsettled :
    ¬ Agree (SameSets 0) 0 (2 * kSegmentSize - 200) 300 unsettled := by
  have hrange : ((rangeThenDrain 0 (2 * kSegmentSize - 200) 300).run unsettled).map
      (fun r => r.2.blockDirty.test 16389) = some true := by decide +kernel
  have hstores : ((storesThenDrain 0 (2 * kSegmentSize - 200) 300).run unsettled).map
      (fun r => r.2.blockDirty.test 16389) = some false := by decide +kernel
  intro h
  obtain ⟨r, hr, htrue⟩ := Option.map_eq_some_iff.mp hrange
  obtain ⟨r', hr', hfalse⟩ := Option.map_eq_some_iff.mp hstores
  rw [Agree, hr, hr'] at h
  cases h with
  | some hsame =>
      rw [hsame.blockDirty, hfalse] at htrue
      exact absurd htrue (by decide)

theorem not_agree_always :
    (1792 + 257 ≤ nearlyFull.capacity ∧ ¬ Agree (SameSets 0) 0 1792 257 nearlyFull) ∧
      2 * kSegmentSize - 200 + 300 ≤ unsettled.capacity ∧
      ¬ Agree (SameSets 0) 0 (2 * kSegmentSize - 200) 300 unsettled :=
  ⟨⟨by decide, not_agree_nearlyFull⟩, by decide, not_agree_unsettled⟩

theorem settled_construct (image : CheckpointImage) (tid : Nat) : Settled tid (construct image) :=
  fun _ h => absurd h List.not_mem_nil

theorem range_hook_agrees_new : 0 < 300 ∧ kSegmentSize - 200 + 300 ≤ (openNew 2 2).capacity ∧
    Settled 0 (openNew 2 2) ∧ Agree (SameEffect 0) 0 (kSegmentSize - 200) 300 (openNew 2 2) := by
  have hsettled : Settled 0 (openNew 2 2) := settled_construct _ 0
  exact ⟨by decide, by decide, hsettled, range_hook_agrees (by decide) (by decide) hsettled⟩

/-! ## Hooks keep buffers settled -/

theorem Settled.mono {t u : NvmInst} {tid : Nat} (h : Settled tid t) (hpres : Preserves t u)
    (hbuf : u.addressBuffer tid = t.addressBuffer tid) : Settled tid u := by
  intro addr hin hlt
  rw [hbuf] at hin
  rw [hpres.capacity] at hlt
  exact hpres.dirty _ (h addr hin hlt)

theorem Settled.hookRtStore {t u : NvmInst} {tid addr id : Nat} (h : Settled id t)
    (hrun : (hookRtStore tid addr).run t = some ((), u)) : Settled id u := by
  rw [run_hookRtStore_eq] at hrun
  obtain ⟨⟨⟨⟩, v⟩, hv, heq⟩ := Option.map_eq_some_iff.mp hrun
  have hkeeps : Preserves t v ∧ v.addressBuffer = t.addressBuffer ∧
      (addr < t.capacity → Dirty v (addr >>> kSegmentShift)) := by
    split at hv
    · obtain ⟨hpres, hbuf, hdirty⟩ := run_hookSegment_keeps hv
      exact ⟨hpres, hbuf, fun _ => hdirty⟩
    · rename_i hlt
      obtain rfl : t = v := congrArg Prod.snd (Option.some.inj hv)
      exact ⟨.refl t, rfl, fun h => absurd h hlt⟩
  obtain ⟨hpres, hbuf, hdirty⟩ := hkeeps
  obtain rfl : _ = u := congrArg Prod.snd heq
  intro a ha hlt
  by_cases hid : id = tid
  · subst hid
    split at ha
    · rw [record_buffer] at ha
      exact absurd ha List.not_mem_nil
    · rename_i hroom
      simp only [if_neg hroom] at hlt ⊢
      rw [record_buffer] at ha
      have hcap : a < t.capacity := hpres.capacity ▸ hlt
      rcases List.mem_append.mp ha with hold | hnew
      · exact hpres.dirty _ (h a hold hcap)
      · obtain rfl := List.mem_singleton.mp hnew
        exact hdirty hcap
  · have hother : a ∈ t.addressBuffer id := by
      split at ha
      all_goals simpa only [record, Function.update_of_ne hid, hbuf] using ha
    have hcap : a < t.capacity := by
      split at hlt
      all_goals exact hpres.capacity ▸ hlt
    split
    all_goals exact hpres.dirty _ (h a hother hcap)

theorem Settled.hookRtRangeStore {t u : NvmInst} {tid addr len id : Nat} (h : Settled id t)
    (hrun : (hookRtRangeStore tid addr len).run t = some ((), u)) : Settled id u := by
  rw [NvmInst.hookRtRangeStore] at hrun
  split at hrun
  · exact h.hookRtStore hrun
  · rw [Prog.run_bind, Prog.run_read, Option.bind_some] at hrun
    simp only [] at hrun
    split at hrun
    · rw [Prog.run_bind, hookCopyOnWriteRange] at hrun
      obtain ⟨⟨⟨⟩, v⟩, hv, hrest⟩ := Option.bind_eq_some_iff.mp hrun
      obtain ⟨hpres, hbuf, -⟩ := run_hookSegments_keeps hv
      rw [hookRoutineRange, run_hookRoutines] at hrest
      obtain rfl : _ = u := congrArg Prod.snd (Option.some.inj hrest)
      have hv := h.mono hpres (congrFun hbuf id)
      intro a ha
      simp only [record, Function.update_eq_self] at ha
      exact hv a ha
    · obtain rfl : t = u := congrArg Prod.snd (Option.some.inj hrun)
      exact h

theorem Settled.hooksOf {stores : List (Nat × Nat × Nat)} {t u : NvmInst} {id : Nat}
    (h : Settled id t) (hrun : (hooksOf stores).run t = some ((), u)) : Settled id u := by
  induction stores generalizing t with
  | nil =>
      obtain rfl : t = u := by simpa [NvmInst.hooksOf] using hrun
      exact h
  | cons store rest ih =>
      rw [NvmInst.hooksOf, Prog.run_forEach_cons] at hrun
      obtain ⟨⟨⟨⟩, v⟩, hv, hrest⟩ := Option.bind_eq_some_iff.mp hrun
      exact ih (h.hookRtRangeStore hv) hrest

end Libcrpm.NvmInst
