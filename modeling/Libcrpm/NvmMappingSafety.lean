import Libcrpm.NvmMapping

/-!
# The mapping of the NVM engine is kept

What a thread knows at its place holds whatever the others do: they change neither the
entries of segments whose lock it holds nor, while it holds `back_memory_lock`, the maps.
All threads being in a checkpoint, none of them steals then.
-/

namespace Libcrpm.NvmMapping

open Libcrpm.Program CheckpointImage NvmInst

variable {pool : Pool} {s t : State} {tid i : Nat} {pc : Pc}

def Dirty (s : State) (m : Nat) : Prop := s.segmentDirty.test m = true

def Holds (s : State) (i m : Nat) : Prop := s.segmentLocks (lockOf m) = some i

/-! ## What a thread knows -/

/-- The hook has come to all segments but those in `left`. -/
structure HookSound (pool : Pool) (s : State) (left : List Nat) (call : HookCall) : Prop where
  valid : ∀ m ∈ call.segments, m < pool.nrSegments
  within : left ⊆ call.segments
  covered : ∀ m ∈ call.segments, m ∈ left ∨ Dirty s m

def NextSound (pool : Pool) (s : State) (w : WriteBack) : Prop :=
  match w.next with
  | .idle => True
  | .cleaner => w.onDemand = false
  | .hook segments call => w.onDemand = true ∧ HookSound pool s (w.segment :: segments) call

/-- A call of `lazy_write_back`. -/
structure CallSound (pool : Pool) (s : State) (w : WriteBack) : Prop where
  segment : w.onDemand = true → w.segment < pool.nrSegments
  next : NextSound pool s w

def LazySound (s : State) (i : Nat) (w : WriteBack) : LazyPc → Prop
  | .acquire => True
  | .readState | .readBack _ => Holds s i w.segment
  | .find => Holds s i w.segment ∧ w.onDemand = true
  | .setState | .clearBlocks =>
      Holds s i w.segment ∧ (w.onDemand = true → s.mapping.mainToBack w.segment ≠ none)
  | .setDirty =>
      Holds s i w.segment ∧ w.onDemand = true ∧ s.mapping.mainToBack w.segment ≠ none
  | .release => Holds s i w.segment ∧ (w.onDemand = true → Dirty s w.segment)

/-- The thread has the lock of a second segment. -/
def HoldsToo (s : State) (i m old : Nat) : Prop := Holds s i old ∧ lockOf old ≠ lockOf m

/-- The thread is between the locks of `back_memory_lock` and has bound nothing. -/
def Searching (s : State) (i m : Nat) : Prop :=
  s.backMemoryLock = some i ∧ s.mapping.mainToBack m = none

/-- Where nobody else can have taken the next back segment. -/
def Vacant (s : State) (i m b : Nat) : Option Nat → Prop
  | none => s.mapping.backToMain b = none
  | some old => s.mapping.backToMain b = some old ∧ HoldsToo s i m old ∧ ¬ Dirty s old

def AllocSound (s : State) (i m : Nat) : AllocPc → Prop
  | .acquire => s.mapping.mainToBack m = none
  | .probe _ | .skip _ => Searching s i m
  | .owner old _ | .tryLock old _ =>
      Searching s i m ∧ s.mapping.backToMain s.nextBackId = some old
  | .testLocked old _ =>
      Searching s i m ∧ s.mapping.backToMain s.nextBackId = some old ∧ HoldsToo s i m old
  | .unlock old _ => Searching s i m ∧ HoldsToo s i m old
  | .testFree _ _ => False
  | .unbind b victim => Searching s i m ∧ Vacant s i m b victim
  | .storeOwner b victim =>
      Searching s i m ∧ s.mapping.InverseExcept b ∧
        (∀ old, s.mapping.backToMain b = some old → s.mapping.mainToBack old = none) ∧
        ∀ old ∈ victim, HoldsToo s i m old
  | .storeMain b victim =>
      Searching s i m ∧ s.mapping.InverseExcept b ∧ s.mapping.backToMain b = some m ∧
        ∀ old ∈ victim, HoldsToo s i m old
  | .advance victim =>
      s.backMemoryLock = some i ∧ s.mapping.mainToBack m ≠ none ∧ ∀ old ∈ victim, HoldsToo s i m old
  | .releaseVictim old =>
      s.backMemoryLock = some i ∧ s.mapping.mainToBack m ≠ none ∧ HoldsToo s i m old
  | .release => s.backMemoryLock = some i ∧ s.mapping.mainToBack m ≠ none
  | .reread => True

/-- What thread `i` knows where it is. -/
def PcSound (pool : Pool) (s : State) (i : Nat) : Pc → Prop
  | .hook segments call => HookSound pool s segments call
  | .mark m segments call =>
      HookSound pool s (m :: segments) call ∧ pool.nrBack = pool.nrSegments
  | .record blocks _ | .lead (.drain blocks) | .writeBack _ blocks =>
      ∀ block ∈ blocks, Dirty s (segmentOf block)
  | .lazy place w => CallSound pool s w ∧ LazySound s i w place
  | .alloc place (.lazy w) => CallSound pool s w ∧ w.onDemand = true ∧ Holds s i w.segment ∧
      pool.nrBack ≠ pool.nrSegments ∧ AllocSound s i w.segment place
  | .alloc _ (.writeBack ..) => False
  | _ => True

/-! ## What the others do -/

/-- What a thread may rely on when another one has taken a step. -/
structure Rely (pool : Pool) (i : Nat) (s t : State) : Prop where
  locks : ∀ l, s.segmentLocks l = some i → t.segmentLocks l = some i
  back : s.backMemoryLock = some i →
    t.backMemoryLock = some i ∧ t.mapping = s.mapping ∧ t.nextBackId = s.nextBackId
  bound : ∀ m, Holds s i m → t.mapping.mainToBack m = s.mapping.mainToBack m
  clean : pool.nrBack ≠ pool.nrSegments → ∀ m, Holds s i m → ¬ Dirty s m → ¬ Dirty t m
  dirty : ∀ m, Dirty s m → Dirty t m

theorem Rely.holds (h : Rely pool i s t) {m : Nat} (hm : Holds s i m) : Holds t i m := h.locks _ hm

theorem Rely.holdsToo (h : Rely pool i s t) {m old : Nat} (ho : HoldsToo s i m old) :
    HoldsToo t i m old := ⟨h.holds ho.1, ho.2⟩

theorem Rely.searching (h : Rely pool i s t) {m : Nat} (hm : Searching s i m) : Searching t i m := by
  obtain ⟨hback, hmapping, -⟩ := h.back hm.1
  exact ⟨hback, by rw [hmapping]; exact hm.2⟩

theorem HookSound.mono {left : List Nat} {call : HookCall} (h : HookSound pool s left call)
    (hdirty : ∀ m, Dirty s m → Dirty t m) : HookSound pool t left call :=
  ⟨h.valid, h.within, fun m hm => (h.covered m hm).imp_right (hdirty m)⟩

theorem CallSound.mono {w : WriteBack} (h : CallSound pool s w)
    (hdirty : ∀ m, Dirty s m → Dirty t m) : CallSound pool t w := by
  refine ⟨h.segment, ?_⟩
  have hnext := h.next
  unfold NextSound at hnext ⊢
  cases hw : w.next with
  | idle => trivial
  | cleaner =>
      rw [hw] at hnext
      exact hnext
  | hook segments call =>
      rw [hw] at hnext
      exact ⟨hnext.1, hnext.2.mono hdirty⟩

theorem LazySound.rely {w : WriteBack} {place : LazyPc} (h : LazySound s i w place)
    (hr : Rely pool i s t) : LazySound t i w place := by
  cases place with
  | acquire => trivial
  | readState | readBack => exact hr.holds h
  | find => exact ⟨hr.holds h.1, h.2⟩
  | setState | clearBlocks =>
      refine ⟨hr.holds h.1, fun hdemand => ?_⟩
      rw [hr.bound _ h.1]
      exact h.2 hdemand
  | setDirty =>
      refine ⟨hr.holds h.1, h.2.1, ?_⟩
      rw [hr.bound _ h.1]
      exact h.2.2
  | release => exact ⟨hr.holds h.1, fun hdemand => hr.dirty _ (h.2 hdemand)⟩

theorem AllocSound.rely {m : Nat} {place : AllocPc} (h : AllocSound s i m place)
    (hheld : Holds s i m) (hfew : pool.nrBack ≠ pool.nrSegments) (hr : Rely pool i s t) :
    AllocSound t i m place := by
  cases place with
  | acquire => exact (hr.bound m hheld).trans h
  | probe | skip => exact hr.searching h
  | owner old loopCount | tryLock old loopCount =>
      obtain ⟨-, hmapping, hnext⟩ := hr.back h.1.1
      exact ⟨hr.searching h.1, by rw [hmapping, hnext]; exact h.2⟩
  | testLocked old loopCount =>
      obtain ⟨-, hmapping, hnext⟩ := hr.back h.1.1
      exact ⟨hr.searching h.1, by rw [hmapping, hnext]; exact h.2.1, hr.holdsToo h.2.2⟩
  | unlock => exact ⟨hr.searching h.1, hr.holdsToo h.2⟩
  | testFree => exact h
  | unbind b victim =>
      obtain ⟨-, hmapping, -⟩ := hr.back h.1.1
      refine ⟨hr.searching h.1, ?_⟩
      have hvacant := h.2
      cases victim with
      | none =>
          change t.mapping.backToMain b = none
          rw [hmapping]
          exact hvacant
      | some old =>
          obtain ⟨howner, hholds, hclean⟩ := hvacant
          exact ⟨by rw [hmapping]; exact howner, hr.holdsToo hholds,
            hr.clean hfew old hholds.1 hclean⟩
  | storeOwner b victim =>
      obtain ⟨-, hmapping, -⟩ := hr.back h.1.1
      exact ⟨hr.searching h.1, by rw [hmapping]; exact h.2.1, by rw [hmapping]; exact h.2.2.1,
        fun old hold => hr.holdsToo (h.2.2.2 old hold)⟩
  | storeMain b victim =>
      obtain ⟨-, hmapping, -⟩ := hr.back h.1.1
      exact ⟨hr.searching h.1, by rw [hmapping]; exact h.2.1, by rw [hmapping]; exact h.2.2.1,
        fun old hold => hr.holdsToo (h.2.2.2 old hold)⟩
  | advance victim =>
      obtain ⟨hback, hmapping, -⟩ := hr.back h.1
      exact ⟨hback, by rw [hmapping]; exact h.2.1, fun old hold => hr.holdsToo (h.2.2 old hold)⟩
  | releaseVictim old =>
      obtain ⟨hback, hmapping, -⟩ := hr.back h.1
      exact ⟨hback, by rw [hmapping]; exact h.2.1, hr.holdsToo h.2.2⟩
  | release =>
      obtain ⟨hback, hmapping, -⟩ := hr.back h.1
      exact ⟨hback, by rw [hmapping]; exact h.2⟩
  | reread => trivial

theorem PcSound.rely (h : PcSound pool s i pc) (hr : Rely pool i s t) : PcSound pool t i pc := by
  cases pc with
  | idle | asleep | scan | arrived | written => trivial
  | hook segments call => exact HookSound.mono h hr.dirty
  | mark m segments call => exact ⟨h.1.mono hr.dirty, h.2⟩
  | record blocks buffered => exact fun block hb => hr.dirty _ (h block hb)
  | writeBack id blocks => exact fun block hb => hr.dirty _ (h block hb)
  | lead place =>
      cases place with
      | drain blocks => exact fun block hb => hr.dirty _ (h block hb)
      | busy | choose | mutex | commit => trivial
  | lazy place w => exact ⟨h.1.mono hr.dirty, h.2.rely hr⟩
  | alloc place caller =>
      cases caller with
      | lazy w =>
          obtain ⟨hcall, hdemand, hheld, hfew, halloc⟩ := h
          exact ⟨hcall.mono hr.dirty, hdemand, hr.holds hheld, hfew, halloc.rely hheld hfew hr⟩
      | writeBack => exact h

/-- What a step of thread `tid` does to what the others rely on. -/
structure Guarantee (pool : Pool) (tid : Nat) (s t : State) : Prop where
  locks : ∀ l j, s.segmentLocks l = some j → j ≠ tid → t.segmentLocks l = some j
  back : ∀ j, s.backMemoryLock = some j → j ≠ tid → t.backMemoryLock = some j
  mapping : (t.mapping = s.mapping ∧ t.nextBackId = s.nextBackId) ∨ s.backMemoryLock = some tid
  bound : ∀ m, t.mapping.mainToBack m = s.mapping.mainToBack m ∨ Holds s tid m
  clean : ∀ m, ¬ Dirty s m → Dirty t m → pool.nrBack = pool.nrSegments ∨ Holds s tid m
  dirty : ∀ m, Dirty s m → Dirty t m

theorem Guarantee.rely {j : Nat} (h : Guarantee pool tid s t) (hj : j ≠ tid) : Rely pool j s t where
  locks l hl := h.locks l j hl hj
  back hback := by
    refine ⟨h.back j hback hj, h.mapping.resolve_right fun hmine => ?_⟩
    exact hj (Option.some.inj (hback.symm.trans hmine))
  bound m hm := by
    refine (h.bound m).resolve_right fun hmine => ?_
    exact hj (Option.some.inj (hm.symm.trans hmine))
  clean hfew m hm hclean hdirty := by
    rcases h.clean m hclean hdirty with hfull | hmine
    · exact hfew hfull
    · exact hj (Option.some.inj (hm.symm.trans hmine))
  dirty := h.dirty

/-! ## The invariant -/

namespace Pc

/-- Where the cleaner may be. -/
def background : Pc → Bool
  | .idle | .asleep _ | .scan _ => true
  | .lazy _ w => !w.onDemand
  | _ => false

/-- The leader has emptied the buffers. -/
def drained : Pc → Bool
  | .lead (.drain _) => false
  | .lead _ => true
  | pc => pc.writes

/-- `checkpoint_in_progress` is set. -/
def progresses : Pc → Bool
  | .lead .mutex | .lead .commit => true
  | pc => pc.writes

def SameRole (old pc : Pc) : Prop :=
  pc.hasArrived = old.hasArrived ∧ pc.leads = old.leads ∧ pc.writes = old.writes ∧
    pc.progresses = old.progresses

def outside (pc : Pc) : Prop := pc.hasArrived = false ∧ pc.leads = false ∧ pc.writes = false

theorem leads_or_writes_of_drained {pc : Pc} (h : pc.drained = true) :
    pc.leads = true ∨ pc.writes = true := by
  cases pc with
  | lead => exact Or.inl rfl
  | _ => exact Or.inr h

theorem leads_or_writes_of_progresses {pc : Pc} (h : pc.progresses = true) :
    pc.leads = true ∨ pc.writes = true := by
  cases pc with
  | lead => exact Or.inl rfl
  | _ => exact Or.inr h

end Pc

/-- The application threads go through a checkpoint together. -/
structure Coordinated (pool : Pool) (pcs : Nat → Pc) (inProgress : Bool) : Prop where
  leading : ∀ i < pool.nrThreads, (pcs i).leads = true →
    ∀ j < pool.nrThreads, j ≠ i → (pcs j).hasArrived = true
  writing : ∀ i < pool.nrThreads, (pcs i).writes = true →
    ∀ j < pool.nrThreads, (pcs j).writes = true
  progress : inProgress = true → ∃ i < pool.nrThreads, (pcs i).progresses = true

theorem Coordinated.update {pcs : Nat → Pc} {inProgress : Bool} (h : Coordinated pool pcs inProgress)
    (hrole : Pc.SameRole (pcs tid) pc) : Coordinated pool (Function.update pcs tid pc) inProgress := by
  have hsame : ∀ i, Pc.SameRole (pcs i) (Function.update pcs tid pc i) := by
    intro i
    by_cases hi : i = tid
    · subst hi
      rwa [Function.update_self]
    · rw [Function.update_of_ne hi]
      exact ⟨rfl, rfl, rfl, rfl⟩
  refine ⟨fun i hi hlead j hj hne => ?_, fun i hi hwrite j hj => ?_, fun hprogress => ?_⟩
  · rw [(hsame j).1]
    exact h.leading i hi ((hsame i).2.1 ▸ hlead) j hj hne
  · rw [(hsame j).2.2.1]
    exact h.writing i hi ((hsame i).2.2.1 ▸ hwrite) j hj
  · obtain ⟨i, hi, hin⟩ := h.progress hprogress
    exact ⟨i, hi, (hsame i).2.2.2.trans hin⟩

theorem Coordinated.free {pcs : Nat → Pc} {inProgress : Bool} (h : Coordinated pool pcs inProgress)
    (htid : tid < pool.nrThreads) (hout : (pcs tid).outside) :
    inProgress = false ∧ ∀ i < pool.nrThreads, (pcs i).leads = false ∧ (pcs i).writes = false := by
  have hnone : ∀ i < pool.nrThreads, (pcs i).leads = false ∧ (pcs i).writes = false := by
    refine fun i hi => ⟨Bool.eq_false_iff.mpr fun hlead => ?_, Bool.eq_false_iff.mpr fun hwrite => ?_⟩
    · by_cases hne : tid = i
      · rw [← hne, hout.2.1] at hlead
        cases hlead
      · have harrived := h.leading i hi hlead tid htid hne
        rw [hout.1] at harrived
        cases harrived
    · have hwrites := h.writing i hi hwrite tid htid
      rw [hout.2.2] at hwrites
      cases hwrites
  refine ⟨Bool.eq_false_iff.mpr fun hprogress => ?_, hnone⟩
  obtain ⟨i, hi, hin⟩ := h.progress hprogress
  rcases Pc.leads_or_writes_of_progresses hin with hin | hin
  · rw [(hnone i hi).1] at hin
    cases hin
  · rw [(hnone i hi).2] at hin
    cases hin

theorem coordinated_of_none {pcs : Nat → Pc}
    (h : ∀ i < pool.nrThreads, (pcs i).leads = false ∧ (pcs i).writes = false) :
    Coordinated pool pcs false := by
  refine ⟨fun i hi hlead => ?_, fun i hi hwrite => ?_, fun hprogress => by cases hprogress⟩
  · rw [(h i hi).1] at hlead
    cases hlead
  · rw [(h i hi).2] at hwrite
    cases hwrite

structure Inv (pool : Pool) (s : State) : Prop where
  sound : ∀ i, PcSound pool s i (s.pc i)
  inverse : (∀ i, (s.pc i).midBind = false) → s.mapping.Inverse
  owned : ∀ b < pool.nrBack, ∃ m < pool.nrSegments, s.mapping.backToMain b = some m
  bound : ∀ m, Dirty s m → s.mapping.mainToBack m ≠ none
  full : pool.nrBack = pool.nrSegments → ∀ m < pool.nrSegments, s.mapping.mainToBack m ≠ none
  listed : ∀ id, ∀ block ∈ s.flushBlocks id, Dirty s (segmentOf block)
  buffered : ∀ id, ∀ addr ∈ s.addressBuffer id, Dirty s (segmentOf (addr >>> kBlockShift))
  drained : ∀ i < pool.nrThreads, (s.pc i).drained = true → ∀ id, s.addressBuffer id = []
  skip : s.skipCopyOnWrite = true → pool.nrBack = pool.nrSegments
  behind : ∀ i, pool.nrThreads ≤ i → (s.pc i).background = true
  coordinated : Coordinated pool s.pc s.checkpointInProgress

theorem Inv.lt_of_background (h : Inv pool s) {old : Pc} (hold : s.pc tid = old)
    (hfore : old.background = false) : tid < pool.nrThreads := by
  by_contra hge
  have hback := h.behind tid (Nat.le_of_not_lt hge)
  rw [hold, hfore] at hback
  cases hback

theorem Inv.back_of_midBind (h : Inv pool s) (hmid : (s.pc i).midBind = true) :
    s.backMemoryLock = some i := by
  have hsound := h.sound i
  cases hpc : s.pc i with
  | alloc place caller =>
      rw [hpc] at hsound hmid
      cases caller with
      | writeBack => exact hsound.elim
      | lazy w =>
          obtain ⟨-, -, -, -, halloc⟩ := hsound
          cases place with
          | storeOwner | storeMain => exact halloc.1.1
          | _ => cases hmid
  | _ =>
      rw [hpc] at hmid
      cases hmid

theorem Inv.inverse_of_back (h : Inv pool s) (hback : s.backMemoryLock = some tid)
    (hmid : (s.pc tid).midBind = false) : s.mapping.Inverse := by
  refine h.inverse fun i => Bool.eq_false_iff.mpr fun hi => ?_
  have heq := h.back_of_midBind hi
  rw [hback] at heq
  obtain rfl := Option.some.inj heq
  rw [hmid] at hi
  cases hi

theorem Inv.step (h : Inv pool s) (hpc : t.pc = Function.update s.pc tid pc)
    (hg : Guarantee pool tid s t) (hsound : PcSound pool t tid pc)
    (hinverse : (∀ i, (t.pc i).midBind = false) → t.mapping.Inverse)
    (howned : ∀ b < pool.nrBack, ∃ m < pool.nrSegments, t.mapping.backToMain b = some m)
    (hbound : ∀ m, Dirty t m → t.mapping.mainToBack m ≠ none)
    (hfull : pool.nrBack = pool.nrSegments →
      ∀ m < pool.nrSegments, t.mapping.mainToBack m ≠ none)
    (hlisted : ∀ id, ∀ block ∈ t.flushBlocks id, Dirty t (segmentOf block))
    (hbuffered : ∀ id, ∀ addr ∈ t.addressBuffer id, Dirty t (segmentOf (addr >>> kBlockShift)))
    (hdrained : ∀ i < pool.nrThreads, (t.pc i).drained = true → ∀ id, t.addressBuffer id = [])
    (hskip : t.skipCopyOnWrite = true → pool.nrBack = pool.nrSegments)
    (hbehind : pool.nrThreads ≤ tid → (s.pc tid).background = true → pc.background = true)
    (hcoordinated : Coordinated pool t.pc t.checkpointInProgress) : Inv pool t where
  sound j := by
    rw [hpc]
    by_cases hj : j = tid
    · subst hj
      rwa [Function.update_self]
    · rw [Function.update_of_ne hj]
      exact (h.sound j).rely (hg.rely hj)
  inverse := hinverse
  owned := howned
  bound := hbound
  full := hfull
  listed := hlisted
  buffered := hbuffered
  drained := hdrained
  skip := hskip
  behind j hj := by
    rw [hpc]
    by_cases hjt : j = tid
    · subst hjt
      rw [Function.update_self]
      exact hbehind hj (h.behind j hj)
    · rw [Function.update_of_ne hjt]
      exact h.behind j hj
  coordinated := hcoordinated

/-- The part of the state on which the invariant depends, up to the locks. -/
structure Untouched (s t : State) : Prop where
  mapping : t.mapping = s.mapping
  segmentDirty : t.segmentDirty = s.segmentDirty
  flushBlocks : t.flushBlocks = s.flushBlocks
  addressBuffer : t.addressBuffer = s.addressBuffer
  skipCopyOnWrite : t.skipCopyOnWrite = s.skipCopyOnWrite
  checkpointInProgress : t.checkpointInProgress = s.checkpointInProgress

theorem Untouched.dirty (h : Untouched s t) : Dirty t = Dirty s := by
  funext m
  rw [Dirty, Dirty, h.segmentDirty]

theorem midBind_update (hpc : t.pc = Function.update s.pc tid pc) (hmid : (s.pc tid).midBind = false)
    (h : ∀ i, (t.pc i).midBind = false) : ∀ i, (s.pc i).midBind = false := by
  intro i
  by_cases hi : i = tid
  · exact hi ▸ hmid
  · have hfree := h i
    rwa [hpc, Function.update_of_ne hi] at hfree

theorem drained_update (h : Inv pool s) (hpc : t.pc = Function.update s.pc tid pc)
    (hdrained : pc.drained = true → (s.pc tid).drained = true) :
    ∀ i < pool.nrThreads, (t.pc i).drained = true → ∀ id, s.addressBuffer id = [] := by
  intro i hi hd
  rw [hpc] at hd
  by_cases hit : i = tid
  · subst hit
    rw [Function.update_self] at hd
    exact h.drained i hi (hdrained hd)
  · rw [Function.update_of_ne hit] at hd
    exact h.drained i hi hd

theorem Inv.stay (h : Inv pool s) {old : Pc} (hold : s.pc tid = old)
    (hpc : t.pc = Function.update s.pc tid pc) (hu : Untouched s t)
    (hlocks : ∀ l j, s.segmentLocks l = some j → j ≠ tid → t.segmentLocks l = some j)
    (hback : ∀ j, s.backMemoryLock = some j → j ≠ tid → t.backMemoryLock = some j)
    (hnext : t.nextBackId = s.nextBackId ∨ s.backMemoryLock = some tid)
    (hsound : PcSound pool t tid pc) (hmid : old.midBind = false) (hrole : Pc.SameRole old pc)
    (hdrained : pc.drained = true → old.drained = true)
    (hbehind : old.background = true → pc.background = true) : Inv pool t := by
  have hd := hu.dirty
  subst hold
  refine h.step hpc ⟨hlocks, hback, ?_, fun m => Or.inl (by rw [hu.mapping]), fun m hclean hdirty => ?_,
    fun m hm => by rw [hd]; exact hm⟩ hsound (fun hfree => ?_) ?_ ?_ ?_ ?_ ?_ ?_ ?_
    (fun _ => hbehind) ?_
  · exact hnext.imp_left fun hsame => ⟨hu.mapping, hsame⟩
  · rw [hd] at hdirty
    exact absurd hdirty hclean
  · rw [hu.mapping]
    exact h.inverse (midBind_update hpc hmid hfree)
  · rw [hu.mapping]
    exact h.owned
  · rw [hu.mapping, hd]
    exact h.bound
  · rw [hu.mapping]
    exact h.full
  · rw [hu.flushBlocks, hd]
    exact h.listed
  · rw [hu.addressBuffer, hd]
    exact h.buffered
  · rw [hu.addressBuffer]
    exact drained_update h hpc hdrained
  · rw [hu.skipCopyOnWrite]
    exact h.skip
  · rw [hpc, hu.checkpointInProgress]
    exact h.coordinated.update hrole

theorem Inv.move (h : Inv pool s) {old : Pc} (hold : s.pc tid = old) (hsound : PcSound pool s tid pc)
    (hmid : old.midBind = false) (hrole : Pc.SameRole old pc)
    (hdrained : pc.drained = true → old.drained = true)
    (hbehind : old.background = true → pc.background = true) : Inv pool (s.goto tid pc) :=
  h.stay hold rfl ⟨rfl, rfl, rfl, rfl, rfl, rfl⟩ (fun _ _ hl _ => hl) (fun _ hl _ => hl) (Or.inl rfl)
    (hsound.rely ⟨fun _ hl => hl, fun hl => ⟨hl, rfl, rfl⟩, fun _ _ => rfl, fun _ _ _ hl => hl,
      fun _ hl => hl⟩) hmid hrole hdrained hbehind

/-! ## Locks and dirty bits -/

theorem holds_lock_self {m : Nat} : Holds (s.lock (lockOf m) (some i)) i m :=
  Function.update_self _ _ _

theorem Holds.lock_of_ne {m l : Nat} {holder : Option Nat} (h : Holds s i m) (hne : l ≠ lockOf m) :
    Holds (s.lock l holder) i m :=
  (Function.update_of_ne hne.symm _ _).trans h

theorem locks_lock {l : Nat} {holder : Option Nat} (hmine : ∀ j, s.segmentLocks l = some j → j = tid) :
    ∀ l' j, s.segmentLocks l' = some j → j ≠ tid → (s.lock l holder).segmentLocks l' = some j := by
  intro l' j hl' hj
  refine (Function.update_of_ne ?_ _ _).trans hl'
  rintro rfl
  exact hj (hmine j hl')

theorem Inv.lock (h : Inv pool s) {old : Pc} (hold : s.pc tid = old) {l : Nat} {holder : Option Nat}
    (hmine : ∀ j, s.segmentLocks l = some j → j = tid) (hsound : PcSound pool (s.lock l holder) tid pc)
    (hmid : old.midBind = false) (hrole : Pc.SameRole old pc)
    (hdrained : pc.drained = true → old.drained = true)
    (hbehind : old.background = true → pc.background = true) :
    Inv pool ((s.lock l holder).goto tid pc) :=
  h.stay hold rfl ⟨rfl, rfl, rfl, rfl, rfl, rfl⟩ (locks_lock hmine) (fun _ hl _ => hl) (Or.inl rfl)
    (hsound.rely ⟨fun _ hl => hl, fun hl => ⟨hl, rfl, rfl⟩, fun _ _ => rfl, fun _ _ _ hl => hl,
      fun _ hl => hl⟩) hmid hrole hdrained hbehind

theorem dirty_setDirty {m m' : Nat} : Dirty (s.setDirty m) m' ↔ m' = m ∨ Dirty s m' := by
  rw [Dirty, State.setDirty, AtomicBitSet.test_set, Bool.or_eq_true, decide_eq_true_eq, Dirty]

theorem Inv.setDirty (h : Inv pool s) {old : Pc} (hold : s.pc tid = old) {m : Nat}
    (hm : s.mapping.mainToBack m ≠ none)
    (hallowed : pool.nrBack = pool.nrSegments ∨ Holds s tid m)
    (hsound : PcSound pool (s.setDirty m) tid pc) (hmid : old.midBind = false)
    (hrole : Pc.SameRole old pc) (hdrained : pc.drained = true → old.drained = true)
    (hbehind : old.background = true → pc.background = true) :
    Inv pool ((s.setDirty m).goto tid pc) := by
  have hmono : ∀ m', Dirty s m' → Dirty ((s.setDirty m).goto tid pc) m' := fun m' hd =>
    dirty_setDirty.mpr (Or.inr hd)
  have hsound' : PcSound pool ((s.setDirty m).goto tid pc) tid pc :=
    hsound.rely ⟨fun _ hl => hl, fun hl => ⟨hl, rfl, rfl⟩, fun _ _ => rfl, fun _ _ _ hl => hl,
      fun _ hl => hl⟩
  subst hold
  have hempty := drained_update (t := (s.setDirty m).goto tid pc) h rfl hdrained
  refine h.step rfl ⟨fun _ _ hl _ => hl, fun _ hl _ => hl, Or.inl ⟨rfl, rfl⟩, fun _ => Or.inl rfl,
    fun m' hclean hd => ?_, hmono⟩ hsound' (fun hfree => h.inverse (midBind_update rfl hmid hfree))
    h.owned (fun m' hd => ?_) h.full (fun id block hb => hmono _ (h.listed id block hb))
    (fun id addr ha => hmono _ (h.buffered id addr ha)) hempty h.skip (fun _ => hbehind)
    (h.coordinated.update hrole)
  · rcases dirty_setDirty.mp hd with rfl | hd
    · exact hallowed
    · exact absurd hd hclean
  · rcases dirty_setDirty.mp hd with rfl | hd
    · exact hm
    · exact h.bound m' hd

/-! ## The steps of `lazy_write_back` -/

theorem Inv.returned (h : Inv pool s) {w : WriteBack} (hold : s.pc tid = .lazy .release w) :
    Inv pool ((s.lock (lockOf w.segment) none).returned pool tid w) := by
  have hsound := h.sound tid
  rw [hold] at hsound
  obtain ⟨hcall, hholds, hdirty⟩ := hsound
  have hmine : ∀ j, s.segmentLocks (lockOf w.segment) = some j → j = tid := fun j hj =>
    Option.some.inj (hj.symm.trans hholds)
  have hnext := hcall.next
  unfold NextSound at hnext
  unfold State.returned
  cases hw : w.next with
  | idle =>
      exact h.lock hold hmine trivial rfl ⟨rfl, rfl, rfl, rfl⟩ (fun hd => by cases hd) fun _ => rfl
  | hook segments call =>
      rw [hw] at hnext
      obtain ⟨hdemand, hhook⟩ := hnext
      refine h.lock hold hmine ⟨hhook.valid, fun m hm => hhook.within (List.mem_cons_of_mem _ hm),
        fun m hm => ?_⟩ rfl ⟨rfl, rfl, rfl, rfl⟩ (fun hd => by cases hd) fun hback => ?_
      · rcases hhook.covered m hm with hleft | hd
        · rcases List.mem_cons.mp hleft with rfl | hleft
          · exact Or.inr (hdirty hdemand)
          · exact Or.inl hleft
        · exact Or.inr hd
      · simp [Pc.background, hdemand] at hback
  | cleaner =>
      dsimp only
      split
      · exact h.stay hold rfl ⟨rfl, rfl, rfl, rfl, rfl, rfl⟩ (locks_lock hmine) (fun _ hl _ => hl)
          (Or.inl rfl) trivial rfl ⟨rfl, rfl, rfl, rfl⟩ (fun hd => by cases hd) fun _ => rfl
      · exact h.lock hold hmine trivial rfl ⟨rfl, rfl, rfl, rfl⟩ (fun hd => by cases hd) fun _ => rfl

theorem Inv.lazyStep (h : Inv pool s) {place : LazyPc} {w : WriteBack}
    (hold : s.pc tid = .lazy place w) (hstep : s.lazyStep pool tid w place = some t) :
    Inv pool t ∧ t.mapping = s.mapping := by
  have hsound := h.sound tid
  rw [hold] at hsound
  obtain ⟨hcall, hplace⟩ := hsound
  have hmove : ∀ place', LazySound s tid w place' → Inv pool (s.goto tid (.lazy place' w)) :=
    fun place' hsound => h.move hold ⟨hcall, hsound⟩ rfl ⟨rfl, rfl, rfl, rfl⟩ (fun hd => hd) fun hb => hb
  cases place with
  | acquire =>
      simp only [State.lazyStep] at hstep
      split at hstep
      · cases hstep
      · rename_i hfree
        obtain rfl := Option.some.inj hstep
        refine ⟨h.lock hold (fun j hj => ?_) ⟨hcall.mono fun _ hd => hd, holds_lock_self⟩ rfl
          ⟨rfl, rfl, rfl, rfl⟩ (fun hd => hd) fun hb => hb, rfl⟩
        rw [hfree] at hj
        cases hj
  | readState =>
      simp only [State.lazyStep] at hstep
      obtain rfl := Option.some.inj hstep
      exact ⟨hmove _ hplace, rfl⟩
  | readBack state =>
      simp only [State.lazyStep] at hstep
      cases hback : s.mapping.mainToBack w.segment with
      | some b =>
          have hne : s.mapping.mainToBack w.segment ≠ none := by simp [hback]
          simp only [hback] at hstep
          split at hstep
          · split at hstep
            · rename_i hdemand
              obtain rfl := Option.some.inj hstep
              exact ⟨hmove _ ⟨hplace, hdemand, hne⟩, rfl⟩
            · rename_i hdemand
              obtain rfl := Option.some.inj hstep
              exact ⟨hmove _ ⟨hplace, fun htrue => absurd htrue hdemand⟩, rfl⟩
          · obtain rfl := Option.some.inj hstep
            exact ⟨hmove _ ⟨hplace, fun _ => hne⟩, rfl⟩
      | none =>
          simp only [hback] at hstep
          split at hstep
          · rename_i hdemand
            obtain rfl := Option.some.inj hstep
            exact ⟨hmove _ ⟨hplace, hdemand⟩, rfl⟩
          · rename_i hdemand
            obtain rfl := Option.some.inj hstep
            exact ⟨hmove _ ⟨hplace, fun htrue => absurd htrue hdemand⟩, rfl⟩
  | find =>
      simp only [State.lazyStep] at hstep
      cases hback : s.mapping.mainToBack w.segment with
      | some b =>
          simp only [hback] at hstep
          obtain rfl := Option.some.inj hstep
          exact ⟨hmove _ ⟨hplace.1, fun _ => by simp [hback]⟩, rfl⟩
      | none =>
          simp only [hback] at hstep
          obtain rfl := Option.some.inj hstep
          refine ⟨h.move hold ⟨hcall, hplace.2, hplace.1, fun hfull => ?_, hback⟩ rfl ⟨rfl, rfl, rfl, rfl⟩
            (fun hd => hd) fun hb => ?_, rfl⟩
          · exact h.full hfull _ (hcall.segment hplace.2) hback
          · simp [Pc.background, hplace.2] at hb
  | setState =>
      simp only [State.lazyStep] at hstep
      obtain rfl := Option.some.inj hstep
      exact ⟨h.stay hold rfl ⟨rfl, rfl, rfl, rfl, rfl, rfl⟩ (fun _ _ hl _ => hl) (fun _ hl _ => hl)
        (Or.inl rfl) ⟨hcall.mono fun _ hd => hd, hplace⟩ rfl ⟨rfl, rfl, rfl, rfl⟩ (fun hd => hd)
        fun hb => hb, rfl⟩
  | clearBlocks =>
      simp only [State.lazyStep] at hstep
      obtain rfl := Option.some.inj hstep
      refine ⟨h.stay hold rfl ⟨rfl, rfl, rfl, rfl, rfl, rfl⟩ (fun _ _ hl _ => hl) (fun _ hl _ => hl)
        (Or.inl rfl) ⟨hcall.mono fun _ hd => hd, ?_⟩ rfl ⟨rfl, rfl, rfl, rfl⟩ (fun hd => hd)
        fun hb => hb, rfl⟩
      split
      · rename_i hdemand
        exact ⟨hplace.1, hdemand, hplace.2 hdemand⟩
      · rename_i hdemand
        exact ⟨hplace.1, fun htrue => absurd htrue hdemand⟩
  | setDirty =>
      simp only [State.lazyStep] at hstep
      obtain rfl := Option.some.inj hstep
      exact ⟨h.setDirty hold hplace.2.2 (Or.inr hplace.1)
        ⟨hcall.mono fun _ hd => dirty_setDirty.mpr (Or.inr hd), hplace.1,
          fun _ => dirty_setDirty.mpr (Or.inl rfl)⟩ rfl ⟨rfl, rfl, rfl, rfl⟩ (fun hd => hd) fun hb => hb, rfl⟩
  | release =>
      simp only [State.lazyStep] at hstep
      obtain rfl := Option.some.inj hstep
      refine ⟨h.returned hold, ?_⟩
      unfold State.returned
      split
      · rfl
      · rfl
      · split <;> rfl

/-! ## The steps of `allocate_back_segment` -/

/-- No dirty segment loses its back segment. -/
def Keeps (s t : State) : Prop :=
  ∀ m b, Dirty s m → s.mapping.mainToBack m = some b → t.mapping.mainToBack m = some b

theorem keeps_of_same (h : t.mapping = s.mapping) : Keeps s t := by
  intro m b _ hm
  rw [h]
  exact hm

theorem Inv.backLock (h : Inv pool s) {old : Pc} (hold : s.pc tid = old) {holder : Option Nat}
    (hmine : ∀ j, s.backMemoryLock = some j → j = tid)
    (hsound : PcSound pool { s with backMemoryLock := holder } tid pc)
    (hmid : old.midBind = false) (hrole : Pc.SameRole old pc)
    (hdrained : pc.drained = true → old.drained = true)
    (hbehind : old.background = true → pc.background = true) :
    Inv pool ({ s with backMemoryLock := holder }.goto tid pc) :=
  h.stay hold rfl ⟨rfl, rfl, rfl, rfl, rfl, rfl⟩ (fun _ _ hl _ => hl)
    (fun j hj hne => absurd (hmine j hj) hne) (Or.inl rfl)
    (hsound.rely ⟨fun _ hl => hl, fun hl => ⟨hl, rfl, rfl⟩, fun _ _ => rfl, fun _ _ _ hl => hl,
      fun _ hl => hl⟩) hmid hrole hdrained hbehind

theorem Inv.advanceRing (h : Inv pool s) {old : Pc} (hold : s.pc tid = old) {next : Nat}
    (hback : s.backMemoryLock = some tid)
    (hsound : PcSound pool { s with nextBackId := next } tid pc)
    (hmid : old.midBind = false) (hrole : Pc.SameRole old pc)
    (hdrained : pc.drained = true → old.drained = true)
    (hbehind : old.background = true → pc.background = true) :
    Inv pool ({ s with nextBackId := next }.goto tid pc) :=
  h.stay hold rfl ⟨rfl, rfl, rfl, rfl, rfl, rfl⟩ (fun _ _ hl _ => hl) (fun _ hl _ => hl) (Or.inr hback)
    (hsound.rely ⟨fun _ hl => hl, fun hl => ⟨hl, rfl, rfl⟩, fun _ _ => rfl, fun _ _ _ hl => hl,
      fun _ hl => hl⟩) hmid hrole hdrained hbehind

theorem Inv.write (h : Inv pool s) {old : Pc} (hold : s.pc tid = old) {k : BackMapping Nat Nat}
    (hfew : pool.nrBack ≠ pool.nrSegments) (hback : s.backMemoryLock = some tid)
    (hentry : ∀ m, k.mainToBack m = s.mapping.mainToBack m ∨ Holds s tid m)
    (howned : ∀ b < pool.nrBack, ∃ m < pool.nrSegments, k.backToMain b = some m)
    (hkeeps : ∀ m b, Dirty s m → s.mapping.mainToBack m = some b → k.mainToBack m = some b)
    (hinverse : pc.midBind = false → k.Inverse)
    (hsound : PcSound pool { s with mapping := k } tid pc) (hrole : Pc.SameRole old pc)
    (hdrained : pc.drained = true → old.drained = true)
    (hbehind : old.background = true → pc.background = true) :
    Inv pool ({ s with mapping := k }.goto tid pc) ∧
      Keeps s ({ s with mapping := k }.goto tid pc) := by
  have hsound' : PcSound pool ({ s with mapping := k }.goto tid pc) tid pc :=
    hsound.rely ⟨fun _ hl => hl, fun hl => ⟨hl, rfl, rfl⟩, fun _ _ => rfl, fun _ _ _ hl => hl,
      fun _ hl => hl⟩
  subst hold
  have hempty := drained_update (t := { s with mapping := k }.goto tid pc) h rfl hdrained
  refine ⟨h.step rfl ⟨fun _ _ hl _ => hl, fun _ hl _ => hl, Or.inr hback, hentry,
    fun m hclean hd => absurd hd hclean, fun _ hd => hd⟩ hsound' (fun hfree => hinverse ?_) howned
    (fun m hd => ?_) (fun hfull => absurd hfull hfew) h.listed h.buffered hempty h.skip (fun _ => hbehind)
    (h.coordinated.update hrole), hkeeps⟩
  · have hself := hfree tid
    change (Function.update s.pc tid pc tid).midBind = false at hself
    rwa [Function.update_self] at hself
  · obtain ⟨b, hb⟩ := Option.ne_none_iff_exists'.mp (h.bound m hd)
    change k.mainToBack m ≠ none
    rw [hkeeps m b hd hb]
    simp

theorem Vacant.owner {m b : Nat} {victim : Option Nat} (h : Vacant s i m b victim) {old : Nat}
    (hold : s.mapping.backToMain b = some old) : Holds s i old ∧ ¬ Dirty s old := by
  cases victim with
  | none =>
      rw [h] at hold
      cases hold
  | some old' =>
      obtain ⟨howner, hholds, hclean⟩ := h
      obtain rfl := Option.some.inj (howner.symm.trans hold)
      exact ⟨hholds.1, hclean⟩

theorem Inv.alloc_sound (h : Inv pool s) {place : AllocPc} {w : WriteBack}
    (hold : s.pc tid = .alloc place (.lazy w)) :
    CallSound pool s w ∧ w.onDemand = true ∧ Holds s tid w.segment ∧
      pool.nrBack ≠ pool.nrSegments ∧ AllocSound s tid w.segment place := by
  have hpc := h.sound tid
  rwa [hold] at hpc

theorem Inv.allocMove (h : Inv pool s) {place place' : AllocPc} {w : WriteBack}
    (hold : s.pc tid = .alloc place (.lazy w)) (hsound : AllocSound s tid w.segment place')
    (hmid : (Pc.alloc place (.lazy w)).midBind = false) :
    Inv pool (s.goto tid (.alloc place' (.lazy w))) ∧
      Keeps s (s.goto tid (.alloc place' (.lazy w))) := by
  obtain ⟨hcall, hdemand, hheld, hfew, -⟩ := h.alloc_sound hold
  exact ⟨h.move hold ⟨hcall, hdemand, hheld, hfew, hsound⟩ hmid ⟨rfl, rfl, rfl, rfl⟩
    (fun hd => hd) fun hb => hb, keeps_of_same rfl⟩

/-- The locks of the two segments differ, hence releasing the victim's keeps the other. -/
theorem Inv.allocUnlock (h : Inv pool s) {place place' : AllocPc} {w : WriteBack} {old : Nat}
    (hold : s.pc tid = .alloc place (.lazy w)) (htoo : HoldsToo s tid w.segment old)
    (hsound : AllocSound (s.lock (lockOf old) none) tid w.segment place')
    (hmid : (Pc.alloc place (.lazy w)).midBind = false) :
    Inv pool ((s.lock (lockOf old) none).goto tid (.alloc place' (.lazy w))) ∧
      Keeps s ((s.lock (lockOf old) none).goto tid (.alloc place' (.lazy w))) := by
  obtain ⟨hcall, hdemand, hheld, hfew, -⟩ := h.alloc_sound hold
  exact ⟨h.lock hold (fun j hj => Option.some.inj (hj.symm.trans htoo.1))
    ⟨hcall.mono fun _ hd => hd, hdemand, hheld.lock_of_ne htoo.2, hfew, hsound⟩ hmid
    ⟨rfl, rfl, rfl, rfl⟩ (fun hd => hd) fun hb => hb, keeps_of_same rfl⟩

theorem Inv.allocRing (h : Inv pool s) {place place' : AllocPc} {w : WriteBack} {next : Nat}
    (hold : s.pc tid = .alloc place (.lazy w)) (hback : s.backMemoryLock = some tid)
    (hsound : AllocSound { s with nextBackId := next } tid w.segment place')
    (hmid : (Pc.alloc place (.lazy w)).midBind = false) :
    Inv pool ({ s with nextBackId := next }.goto tid (.alloc place' (.lazy w))) ∧
      Keeps s ({ s with nextBackId := next }.goto tid (.alloc place' (.lazy w))) := by
  obtain ⟨hcall, hdemand, hheld, hfew, -⟩ := h.alloc_sound hold
  exact ⟨h.advanceRing hold hback ⟨hcall.mono fun _ hd => hd, hdemand, hheld, hfew, hsound⟩ hmid
    ⟨rfl, rfl, rfl, rfl⟩ (fun hd => hd) fun hb => hb, keeps_of_same rfl⟩

/-! ### The writes of `bind_back_segment` -/

theorem Inv.unbindOwner (h : Inv pool s) {b : Nat} {victim : Option Nat} {w : WriteBack}
    (hold : s.pc tid = .alloc (.unbind b victim) (.lazy w)) :
    Inv pool ({ s with mapping := s.mapping.unbindOwner b }.goto tid
        (.alloc (.storeOwner b victim) (.lazy w))) ∧
      Keeps s ({ s with mapping := s.mapping.unbindOwner b }.goto tid
        (.alloc (.storeOwner b victim) (.lazy w))) := by
  obtain ⟨hcall, hdemand, hheld, hfew, hplace⟩ := h.alloc_sound hold
  obtain ⟨hsearch, hvacant⟩ := hplace
  have hinverse : s.mapping.Inverse := h.inverse_of_back hsearch.1 (by rw [hold]; rfl)
  have hsame : ∀ m, s.mapping.backToMain b ≠ some m →
      (s.mapping.unbindOwner b).mainToBack m = s.mapping.mainToBack m := fun m hm =>
    BackMapping.mainToBack_unbindOwner_of_ne hm
  refine h.write hold hfew hsearch.1 (fun m => ?_) ?_ (fun m b' hd hb' => ?_)
    (fun hmid => by cases hmid) ⟨hcall.mono fun _ hd => hd, hdemand, hheld, hfew,
      ⟨hsearch.1, BackMapping.mainToBack_unbindOwner_of_none hsearch.2⟩,
      hinverse.unbindOwner b, fun old howner => ?_, fun old hvictim => ?_⟩ ⟨rfl, rfl, rfl, rfl⟩
    (fun hd => hd) fun hb => hb
  · by_cases hm : s.mapping.backToMain b = some m
    · exact Or.inr (hvacant.owner hm).1
    · exact Or.inl (hsame m hm)
  · rw [BackMapping.backToMain_unbindOwner]
    exact h.owned
  · by_cases hm : s.mapping.backToMain b = some m
    · exact absurd hd (hvacant.owner hm).2
    · rw [hsame m hm]
      exact hb'
  · rw [BackMapping.backToMain_unbindOwner] at howner
    exact BackMapping.mainToBack_unbindOwner_self howner
  · obtain rfl := Option.mem_def.mp hvictim
    exact hvacant.2.1

theorem Inv.storeOwner (h : Inv pool s) {b : Nat} {victim : Option Nat} {w : WriteBack}
    (hold : s.pc tid = .alloc (.storeOwner b victim) (.lazy w)) :
    Inv pool ({ s with mapping := s.mapping.storeOwner w.segment b }.goto tid
        (.alloc (.storeMain b victim) (.lazy w))) ∧
      Keeps s ({ s with mapping := s.mapping.storeOwner w.segment b }.goto tid
        (.alloc (.storeMain b victim) (.lazy w))) := by
  obtain ⟨hcall, hdemand, hheld, hfew, hplace⟩ := h.alloc_sound hold
  obtain ⟨hsearch, hexcept, -, hvictim⟩ := hplace
  refine h.write hold hfew hsearch.1 (fun _ => Or.inl rfl) (fun b' hb' => ?_)
    (fun _ _ _ hb' => hb') (fun hmid => by cases hmid) ⟨hcall.mono fun _ hd => hd, hdemand, hheld,
      hfew, hsearch, hexcept.storeOwner _, BackMapping.backToMain_storeOwner_self, hvictim⟩
    ⟨rfl, rfl, rfl, rfl⟩ (fun hd => hd) fun hb => hb
  by_cases hbb : b' = b
  · subst hbb
    exact ⟨w.segment, hcall.segment hdemand, BackMapping.backToMain_storeOwner_self⟩
  · rw [BackMapping.backToMain_storeOwner_of_ne hbb]
    exact h.owned b' hb'

theorem Inv.storeMain (h : Inv pool s) {b : Nat} {victim : Option Nat} {w : WriteBack}
    (hold : s.pc tid = .alloc (.storeMain b victim) (.lazy w)) :
    Inv pool ({ s with mapping := s.mapping.storeMain w.segment b }.goto tid
        (.alloc (.advance victim) (.lazy w))) ∧
      Keeps s ({ s with mapping := s.mapping.storeMain w.segment b }.goto tid
        (.alloc (.advance victim) (.lazy w))) := by
  obtain ⟨hcall, hdemand, hheld, hfew, hplace⟩ := h.alloc_sound hold
  obtain ⟨hsearch, hexcept, howner, hvictim⟩ := hplace
  have hother : ∀ m, m ≠ w.segment → (s.mapping.storeMain w.segment b).mainToBack m =
      s.mapping.mainToBack m := fun m hm => BackMapping.mainToBack_storeMain_of_ne hm
  refine h.write hold hfew hsearch.1 (fun m => ?_) h.owned (fun m b' _ hb' => ?_)
    (fun _ => hexcept.storeMain howner hsearch.2) ⟨hcall.mono fun _ hd => hd, hdemand, hheld,
      hfew, hsearch.1, ?_, hvictim⟩ ⟨rfl, rfl, rfl, rfl⟩ (fun hd => hd) fun hb => hb
  · by_cases hm : m = w.segment
    · exact Or.inr (hm ▸ hheld)
    · exact Or.inl (hother m hm)
  · change (s.mapping.storeMain w.segment b).mainToBack m = some b'
    rw [hother m]
    · exact hb'
    · rintro rfl
      rw [hsearch.2] at hb'
      cases hb'
  · change (s.mapping.storeMain w.segment b).mainToBack w.segment ≠ none
    rw [BackMapping.mainToBack_storeMain_self]
    simp

/-! ### The steps -/

/-- The lock of the owner is another one than the lock of the segment, which is held. -/
theorem Inv.tryLock (h : Inv pool s) {old loopCount : Nat} {w : WriteBack}
    (hold : s.pc tid = .alloc (.tryLock old loopCount) (.lazy w))
    (hstep : s.allocStep pool tid (.lazy w) (.tryLock old loopCount) = some t) :
    Inv pool t ∧ Keeps s t := by
  obtain ⟨hcall, hdemand, hheld, hfew, hplace⟩ := h.alloc_sound hold
  simp only [State.allocStep] at hstep
  split at hstep
  · obtain rfl := Option.some.inj hstep
    exact h.allocMove hold hplace.1 rfl
  · rename_i hfree
    obtain rfl := Option.some.inj hstep
    have hne : lockOf old ≠ lockOf w.segment := by
      intro heq
      rw [heq] at hfree
      rw [Holds, hfree] at hheld
      cases hheld
    refine ⟨h.lock hold (fun j hj => ?_) ⟨hcall.mono fun _ hd => hd, hdemand,
      hheld.lock_of_ne hne, hfew, hplace.1, hplace.2, holds_lock_self, hne⟩ rfl ⟨rfl, rfl, rfl, rfl⟩
      (fun hd => hd) fun hb => hb, keeps_of_same rfl⟩
    rw [hfree] at hj
    cases hj

theorem Inv.reread (h : Inv pool s) {w : WriteBack}
    (hold : s.pc tid = .alloc .reread (.lazy w))
    (hstep : s.allocStep pool tid (.lazy w) .reread = some t) : Inv pool t ∧ Keeps s t := by
  obtain ⟨hcall, hdemand, hheld, hfew, hplace⟩ := h.alloc_sound hold
  simp only [State.allocStep] at hstep
  cases hback : s.mapping.mainToBack w.segment with
  | some b =>
      simp only [Caller.segment, hback] at hstep
      obtain rfl := Option.some.inj hstep
      exact ⟨h.move hold ⟨hcall, hheld, fun _ => by simp [hback]⟩ rfl ⟨rfl, rfl, rfl, rfl⟩
        (fun hd => hd) fun hb => (by cases hb), keeps_of_same rfl⟩
  | none =>
      simp only [Caller.segment, hback] at hstep
      obtain rfl := Option.some.inj hstep
      refine ⟨h.stay hold (Function.update_eq_self tid s.pc).symm ⟨rfl, rfl, rfl, rfl, rfl, rfl⟩
        (fun _ _ hl _ => hl) (fun _ hl _ => hl) (Or.inl rfl) ?_ rfl ⟨?_, ?_, ?_, ?_⟩ (fun hd => ?_)
        fun hb => ?_, keeps_of_same rfl⟩
      · rw [hold]
        exact ⟨hcall.mono fun _ hd => hd, hdemand, hheld, hfew, trivial⟩
      · rw [hold]
      · rw [hold]
      · rw [hold]
      · rw [hold]
      · rwa [hold] at hd
      · rwa [hold]

theorem Inv.allocStep (h : Inv pool s) {place : AllocPc} {caller : Caller}
    (hold : s.pc tid = .alloc place caller) (hstep : s.allocStep pool tid caller place = some t) :
    Inv pool t ∧ Keeps s t := by
  cases caller with
  | writeBack =>
      have hpc := h.sound tid
      rw [hold] at hpc
      exact hpc.elim
  | lazy w =>
  obtain ⟨hcall, hdemand, hheld, hfew, hplace⟩ := h.alloc_sound hold
  cases place with
  | acquire =>
      simp only [State.allocStep] at hstep
      split at hstep
      · cases hstep
      · rename_i hfree
        obtain rfl := Option.some.inj hstep
        refine ⟨h.backLock hold (fun j hj => ?_)
          ⟨hcall.mono fun _ hd => hd, hdemand, hheld, hfew, rfl, hplace⟩ rfl ⟨rfl, rfl, rfl, rfl⟩
          (fun hd => hd) fun hb => hb, keeps_of_same rfl⟩
        rw [hfree] at hj
        cases hj
  | probe loopCount =>
      simp only [State.allocStep] at hstep
      split at hstep
      · split at hstep
        · rename_i hvacant
          obtain rfl := Option.some.inj hstep
          exact h.allocMove hold ⟨hplace, hvacant⟩ rfl
        · rename_i old howner
          obtain rfl := Option.some.inj hstep
          exact h.allocMove hold ⟨hplace, howner⟩ rfl
      · obtain rfl := Option.some.inj hstep
        exact h.allocMove hold trivial rfl
  | owner old loopCount =>
      have hin : tid < pool.nrThreads := h.lt_of_background hold rfl
      have hidle := (h.coordinated.free hin (by rw [hold]; exact ⟨rfl, rfl, rfl⟩)).1
      simp only [State.allocStep, hidle, Bool.false_eq_true, if_false] at hstep
      obtain rfl := Option.some.inj hstep
      exact h.allocMove hold hplace rfl
  | tryLock old loopCount => exact h.tryLock hold hstep
  | testLocked old loopCount =>
      simp only [State.allocStep] at hstep
      split at hstep
      · obtain rfl := Option.some.inj hstep
        exact h.allocMove hold ⟨hplace.1, hplace.2.2⟩ rfl
      · rename_i hclean
        obtain rfl := Option.some.inj hstep
        exact h.allocMove hold ⟨hplace.1, hplace.2.1, hplace.2.2, hclean⟩ rfl
  | unlock old loopCount =>
      simp only [State.allocStep] at hstep
      obtain rfl := Option.some.inj hstep
      exact h.allocUnlock hold hplace.2 hplace.1 rfl
  | testFree => exact hplace.elim
  | skip loopCount =>
      simp only [State.allocStep] at hstep
      obtain rfl := Option.some.inj hstep
      exact h.allocRing hold hplace.1 hplace rfl
  | unbind b victim =>
      simp only [State.allocStep] at hstep
      obtain rfl := Option.some.inj hstep
      exact h.unbindOwner hold
  | storeOwner b victim =>
      simp only [State.allocStep] at hstep
      obtain rfl := Option.some.inj hstep
      exact h.storeOwner hold
  | storeMain b victim =>
      simp only [State.allocStep] at hstep
      obtain rfl := Option.some.inj hstep
      exact h.storeMain hold
  | advance victim =>
      simp only [State.allocStep] at hstep
      obtain rfl := Option.some.inj hstep
      obtain ⟨hback, hbound, hvictim⟩ := hplace
      cases victim with
      | none => exact h.allocRing hold hback ⟨hback, hbound⟩ rfl
      | some old => exact h.allocRing hold hback ⟨hback, hbound, hvictim old rfl⟩ rfl
  | releaseVictim old =>
      simp only [State.allocStep] at hstep
      obtain rfl := Option.some.inj hstep
      exact h.allocUnlock hold hplace.2.2 ⟨hplace.1, hplace.2.1⟩ rfl
  | release =>
      simp only [State.allocStep] at hstep
      obtain rfl := Option.some.inj hstep
      exact ⟨h.backLock hold (fun j hj => Option.some.inj (hj.symm.trans hplace.1))
        ⟨hcall.mono fun _ hd => hd, hdemand, hheld, hfew, trivial⟩ rfl ⟨rfl, rfl, rfl, rfl⟩
        (fun hd => hd) fun hb => hb, keeps_of_same rfl⟩
  | reread => exact h.reread hold hstep

end Libcrpm.NvmMapping
