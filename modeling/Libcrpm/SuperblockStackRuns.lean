import Libcrpm.SuperblockStackInv

/-!
# Runs over the stack of superblocks

What each step does to the stack, and what follows for runs in which no exchange is 256 exchanges
late.
-/

namespace Libcrpm

open Program Memory

theorem StampedPtr.compareExchange_of_eq {p : StampedPtr} {expected desired : Option Nat}
    {expectedStamp desiredStamp : BitVec 8} (h : p = ⟨expected, expectedStamp⟩) :
    p.compareExchange expected desired expectedStamp desiredStamp =
      ⟨true, ⟨desired, desiredStamp⟩, expected, expectedStamp⟩ := by
  subst h
  exact compareExchange_self _ _ _

theorem StampedPtr.compareExchange_of_ne {p : StampedPtr} {expected desired : Option Nat}
    {expectedStamp desiredStamp : BitVec 8} (hne : p ≠ ⟨expected, expectedStamp⟩) :
    p.compareExchange expected desired expectedStamp desiredStamp =
      ⟨false, p, p.ptr, if p.ptr = none then expectedStamp else p.stamp⟩ := by
  have hdiffer : ¬ (p.ptr = expected ∧ p.stamp = expectedStamp) := by
    rintro ⟨rfl, rfl⟩
    exact hne rfl
  rw [compareExchange, if_neg hdiffer]
  cases p.ptr with
  | none => rfl
  | some found => rfl

namespace SuperblockStack

variable {s : SuperblockStack} {l : List Nat} {tid : Nat} {p : Push}

/-! ## Taking from the stack -/

theorem Inv.allocSmallSb (h : Inv s l) : Inv (s.allocSmallSb tid) l := by
  refine h.load ⟨?_, fun desc hdesc _ => ?_⟩
  · rw [recordLoad_self]
    exact h.stamp
  · rw [← h.chain.head_eq]
    exact hdesc

theorem Inv.allocLargeSb {count : Nat} (h : Inv s l) (hcount : 0 < count) :
    Inv (s.allocLargeSb tid count) l := by
  refine h.load ?_
  cases hptr : s.availSb.ptr with
  | none => trivial
  | some descStart =>
      refine ⟨?_, ⟨Nat.one_pos, hcount, rfl⟩, fun _ => ?_⟩
      · rw [recordLoad_self]
        exact h.stamp
      · have hchain := h.chain
        rw [hptr] at hchain
        obtain ⟨rest, rfl, -⟩ := hchain.uncons
        exact ⟨rest, rfl⟩

theorem Inv.smallTop {oldDesc : Nat} {oldStamp : BitVec 8} (h : Inv s l)
    (hpc : s.pc tid = .smallTop (some oldDesc) oldStamp) :
    Inv (s.goto tid (.smallExchange oldDesc (s.nextFree oldDesc) oldStamp)) l := by
  obtain ⟨hstamp, hhead⟩ := h.pcOk hpc
  refine h.goto ⟨hstamp, fun hnow => ?_⟩
  obtain ⟨rest, rfl⟩ : ∃ rest, l = oldDesc :: rest := by
    have hfirst := hhead oldDesc rfl hnow
    cases l with
    | nil => simp at hfirst
    | cons x rest => exact ⟨rest, by rw [Option.some.inj hfirst]⟩
  exact ⟨rest, rfl, Segment.next_eq (l := []) h.chain⟩

theorem Inv.largeWalk {descStart desc i count : Nat} {oldStamp : BitVec 8} (h : Inv s l)
    (hpc : s.pc tid = .largeWalk descStart desc i count oldStamp) :
    Inv (s.goto tid
      (if i < count then
        if s.nextFree desc ≠ some (desc + 1) then .largeBulk count
        else .largeWalk descStart (desc + 1) (i + 1) count oldStamp
      else .largeExchange descStart (s.nextFree desc) count oldStamp)) l := by
  obtain ⟨hstamp, ⟨hpos, hle, hdesc⟩, hsnap⟩ := h.pcOk hpc
  obtain ⟨j, rfl⟩ : ∃ j, i = j + 1 := ⟨i - 1, by omega⟩
  obtain rfl : desc = descStart + j := by omega
  -- What the thread has walked over ends in `desc`.
  have hnext : s.loaded tid = s.version → ∃ rest, l = List.range' descStart (j + 1) ++ rest ∧
      s.nextFree (descStart + j) = rest.head? := by
    intro hnow
    obtain ⟨rest, rfl⟩ := hsnap hnow
    have hchain := h.chain
    rw [List.range'_concat, Nat.one_mul, List.append_assoc] at hchain
    exact ⟨rest, rfl, hchain.next_eq⟩
  apply h.goto
  split
  · rename_i hlt
    split
    · trivial
    · rename_i hlinked
      refine ⟨hstamp, ⟨by omega, by omega, by omega⟩, fun hnow => ?_⟩
      obtain ⟨rest, rfl, hhead⟩ := hnext hnow
      rw [not_not.mp hlinked] at hhead
      cases rest with
      | nil => simp at hhead
      | cons x rest =>
          obtain rfl := Option.some.inj hhead
          refine ⟨rest, ?_⟩
          rw [List.range'_concat (n := j + 1), Nat.one_mul, List.append_assoc, Nat.add_assoc]
          rfl
  · obtain rfl : j + 1 = count := by omega
    exact ⟨hstamp, hpos, hnext⟩

/-- An exchange that is not late and finds the stamp it loaded sees the stack as it was loaded. -/
theorem Inv.current {stamp : BitVec 8} (h : Inv s l) (hstamp : stamp = BitVec.ofNat 8 (s.loaded tid))
    (hfound : s.availSb.stamp = stamp) (htimely : s.version < s.loaded tid + 256) :
    s.loaded tid = s.version := by
  have hle := h.loaded tid
  rw [h.stamp, hstamp] at hfound
  have hmod := congrArg BitVec.toNat hfound
  rw [BitVec.toNat_ofNat, BitVec.toNat_ofNat] at hmod
  omega

theorem Inv.pop {nodes rest : List Nat} {value : StampedPtr} (h : Inv s (nodes ++ rest))
    (hvalue : value = ⟨rest.head?, s.availSb.stamp + 1⟩) :
    Inv (((s.exchange value (nodes.map SbEvent.handed)).give nodes .program).goto tid .idle)
      rest := by
  subst hvalue
  have hnodup := List.nodup_append.mp h.nodup
  have hdisjoint : ∀ sb ∈ rest, sb ∉ nodes := fun sb hrest hnodes => hnodup.2.2 sb hnodes sb hrest rfl
  apply h.exchange h.chain.suffix hnodup.2.1 rfl
  · intro sb hsb
    exact Or.inl ((h.owner sb).mpr (List.mem_append_left _ hsb))
  · intro sb
    split
    · rename_i hmem
      exact iff_of_false (by simp) fun hrest => hdisjoint sb hrest hmem
    · rename_i hmem
      rw [h.owner sb, List.mem_append, or_iff_right hmem]
  · intro sb
    rw [available_handed, h.available sb, List.mem_append]
    constructor
    · rintro ⟨hmem | hrest, hnot⟩
      · exact absurd hmem hnot
      · exact hrest
    · intro hrest
      exact ⟨Or.inr hrest, hdisjoint sb hrest⟩
  · apply h.once.handed hnodup.1
    intro sb hsb _
    exact (h.available sb).mpr (List.mem_append_left _ hsb)
  · intro e he
    obtain ⟨sb, hsb, rfl⟩ := List.mem_map.mp he
    exact hsb
  · trivial

theorem Inv.exchangeSmall {oldDesc : Nat} {newDesc : Option Nat} {oldStamp : BitVec 8}
    (h : Inv s l) (hpc : s.pc tid = .smallExchange oldDesc newDesc oldStamp)
    (htimely : s.availSb = ⟨some oldDesc, oldStamp⟩ → s.version < s.loaded tid + 256) :
    ∃ l', Inv (s.exchangeSmall tid oldDesc newDesc oldStamp) l' := by
  obtain ⟨hstamp, hsnap⟩ := h.pcOk hpc
  unfold SuperblockStack.exchangeSmall
  by_cases hfound : s.availSb = ⟨some oldDesc, oldStamp⟩
  · have hnow := h.current hstamp (congrArg StampedPtr.stamp hfound) (htimely hfound)
    obtain ⟨rest, rfl, rfl⟩ := hsnap hnow
    refine ⟨rest, ?_⟩
    rw [StampedPtr.compareExchange_of_eq hfound, if_pos rfl]
    exact h.pop (by rw [hfound])
  · refine ⟨l, ?_⟩
    rw [StampedPtr.compareExchange_of_ne hfound, if_neg Bool.false_ne_true]
    cases hptr : s.availSb.ptr with
    | none =>
        simp only [if_true]
        exact h.goto ⟨hstamp, fun desc hdesc => by simp at hdesc⟩
    | some found =>
        simp only [reduceCtorEq, if_false]
        rw [← hptr]
        exact h.allocSmallSb

theorem Inv.exchangeLarge {descStart count : Nat} {desc : Option Nat} {oldStamp : BitVec 8}
    (h : Inv s l) (hpc : s.pc tid = .largeExchange descStart desc count oldStamp)
    (htimely : s.availSb = ⟨some descStart, oldStamp⟩ → s.version < s.loaded tid + 256) :
    ∃ l', Inv (s.exchangeLarge tid descStart desc count oldStamp) l' := by
  obtain ⟨hstamp, -, hsnap⟩ := h.pcOk hpc
  unfold SuperblockStack.exchangeLarge
  by_cases hfound : s.availSb = ⟨some descStart, oldStamp⟩
  · have hnow := h.current hstamp (congrArg StampedPtr.stamp hfound) (htimely hfound)
    obtain ⟨rest, rfl, rfl⟩ := hsnap hnow
    refine ⟨rest, ?_⟩
    rw [StampedPtr.compareExchange_of_eq hfound]
    exact h.pop (by rw [hfound])
  · refine ⟨l, ?_⟩
    rw [StampedPtr.compareExchange_of_ne hfound]
    exact h.goto trivial

/-! ## Pushing -/

theorem PushOk.retryPush (hpush : PushOk s tid p (p.count - 1)) (head : Option Nat)
    (stamp : BitVec 8) : PcOk s l tid (.retryPush p head stamp) := by
  unfold SbPc.retryPush
  split
  · exact hpush
  · exact hpush

theorem Inv.push {value : StampedPtr} (h : Inv s l) (hpush : PushOk s tid p (p.count - 1))
    (hlast : s.nextFree p.last = s.availSb.ptr)
    (hvalue : value = ⟨some p.start, s.availSb.stamp + 1⟩) :
    Inv (((s.exchange value (p.nodes.map SbEvent.pushed)).give p.nodes .stack).goto tid
      (.afterPush p)) (p.nodes ++ l) := by
  subst hvalue
  have hown : ∀ sb ∈ p.nodes, sb ∉ l := by
    intro sb hsb hmem
    have hstack := (h.owner sb).mpr hmem
    rw [hpush.owner sb hsb] at hstack
    simp at hstack
  have hchain : Segment s.nextFree (some p.start) (p.nodes ++ l) none :=
    segment_append.mpr ⟨_, segment_range' s.nextFree hpush.links, hlast ▸ h.chain⟩
  apply h.exchange hchain _ rfl
  · intro sb hsb
    exact Or.inr (hpush.owner sb hsb)
  · intro sb
    rw [List.mem_append, ← h.owner sb]
    split
    · rename_i hmem
      exact iff_of_true rfl (Or.inl hmem)
    · rename_i hmem
      exact (or_iff_right hmem).symm
  · intro sb
    rw [available_pushed, h.available sb, List.mem_append]
  · exact h.once.pushed
  · intro e he
    obtain ⟨sb, hsb, rfl⟩ := List.mem_map.mp he
    exact hsb
  · unfold SbPc.afterPush
    split
    · rename_i oldStamp hcaller
      refine ⟨hpush.stamp oldStamp hcaller, fun _ _ hnow => ?_⟩
      have hle := h.loaded tid
      have hnow' : s.loaded tid = s.version + 1 := hnow
      omega
    · trivial
  · refine List.nodup_append.mpr ⟨List.nodup_range', h.nodup, ?_⟩
    rintro sb hsb _ hmem rfl
    exact hown sb hsb hmem

theorem Inv.exchangePush {oldHead : Option Nat} {oldStamp : BitVec 8} (h : Inv s l)
    (hpc : s.pc tid = .pushExchange p oldHead oldStamp) :
    ∃ l', Inv (s.exchangePush tid p oldHead oldStamp) l' := by
  obtain ⟨hpush, hlast⟩ := h.pcOk hpc
  unfold SuperblockStack.exchangePush
  by_cases hfound : s.availSb = ⟨oldHead, oldStamp⟩
  · refine ⟨p.nodes ++ l, ?_⟩
    have hhead : s.nextFree p.last = s.availSb.ptr := by rw [hlast, hfound]
    rw [StampedPtr.compareExchange_of_eq hfound]
    exact h.push hpush hhead (by rw [hfound])
  · refine ⟨l, ?_⟩
    rw [StampedPtr.compareExchange_of_ne hfound]
    exact h.goto (hpush.retryPush _ _)

theorem PushOk.setNextFree {linked desc : Nat} {next : Option Nat} (hpush : PushOk s tid p linked)
    (hdesc : desc < p.start ∨ p.start + linked ≤ desc) :
    PushOk (s.setNextFree desc next) tid p linked := by
  refine ⟨hpush.le, hpush.owner, fun sb hfirst hlast => ?_, hpush.stamp⟩
  rw [← hpush.links sb hfirst hlast]
  exact Function.update_of_ne (by omega) _ _

theorem PushOk.node {linked i : Nat} (hpush : PushOk s tid p linked) (hi : i ≤ p.count - 1) :
    s.owner (p.start + i) = .thread tid :=
  hpush.owner _ (Push.mem_nodes.mpr ⟨by omega, by unfold Push.last; omega⟩)

theorem Inv.construct {i : Nat} (h : Inv s l) (hpc : s.pc tid = .construct p i) :
    Inv ((s.setNextFree (p.start + i) none).goto tid
      (if i + 1 < p.count then .link p i else .loadHead p)) l := by
  have hpush : PushOk s tid p i := h.pcOk hpc
  have hle := hpush.le
  apply h.store (hpush.node hle)
  have hnext : PushOk (s.setNextFree (p.start + i) none) tid p i :=
    hpush.setNextFree (Or.inr (Nat.le_refl _))
  split
  · rename_i hlt
    exact ⟨hnext, hlt⟩
  · have hall : i = p.count - 1 := by omega
    exact hall ▸ hnext

theorem Inv.link {i : Nat} (h : Inv s l) (hpc : s.pc tid = .link p i) :
    Inv ((s.setNextFree (p.start + i) (some (p.start + i + 1))).goto tid
      (.construct p (i + 1))) l := by
  obtain ⟨hpush, hlt⟩ : PushOk s tid p i ∧ i + 1 < p.count := h.pcOk hpc
  apply h.store (hpush.node hpush.le)
  refine ⟨by omega, hpush.owner, fun sb hfirst hlast => ?_, hpush.stamp⟩
  by_cases hnew : sb = p.start + i
  · subst hnew
    exact Function.update_self ..
  · rw [← hpush.links sb hfirst (by omega)]
    exact Function.update_of_ne hnew _ _

theorem Inv.storeNext {oldHead : Option Nat} {oldStamp : BitVec 8} (h : Inv s l)
    (hpc : s.pc tid = .storeNext p oldHead oldStamp) :
    Inv ((s.setNextFree p.last oldHead).goto tid (.pushExchange p oldHead oldStamp)) l := by
  have hpush : PushOk s tid p (p.count - 1) := h.pcOk hpc
  apply h.store (hpush.node (Nat.le_refl _))
  exact ⟨hpush.setNextFree (Or.inr (Nat.le_refl _)), Function.update_self ..⟩

/-! ## Superblocks that change hands -/

theorem Inv.not_available {sb : Nat} (h : Inv s l) (hsb : s.bulkTail ≤ sb) :
    ¬ Available s.history sb := by
  intro havailable
  have hstack := (h.owner sb).mpr ((h.available sb).mp havailable)
  rw [h.unused sb hsb] at hstack
  simp at hstack

theorem Inv.retire {start count : Nat} {caller : PushCaller} (h : Inv s l)
    (hnodes : ∀ sb ∈ Push.nodes ⟨start, count, caller⟩, s.owner sb = .program)
    (hcaller : ∀ oldStamp, caller ≠ .allocSmallSb oldStamp) :
    Inv (s.fillSbList tid start count caller) l := by
  refine h.claim (Nat.le_refl _) (by simp) ?_ (fun _ => Iff.rfl) h.once h.events ?_
  · intro sb hsb
    refine ⟨?_, Or.inl (hnodes sb hsb)⟩
    by_contra hge
    have hunused := h.unused sb (by omega)
    rw [hnodes sb hsb] at hunused
    simp at hunused
  · refine ⟨Nat.zero_le _, fun sb hsb => if_pos hsb, fun sb hfirst hlast => ?_, ?_⟩
    · dsimp only at hfirst hlast
      omega
    · intro oldStamp hstamp
      exact absurd hstamp (hcaller oldStamp)

theorem Inv.bulkSmall {oldStamp : BitVec 8} (h : Inv s l)
    (hpc : s.pc tid = .smallTop none oldStamp) :
    Inv ({ s with bulkTail := s.bulkTail + bulkCount }.fillSbList tid s.bulkTail bulkCount
      (.allocSmallSb oldStamp)) l := by
  obtain ⟨hstamp, -⟩ := h.pcOk hpc
  have hcount : bulkCount = 32 := rfl
  refine h.claim (Nat.le_add_right _ _) (by simp) ?_ (fun _ => Iff.rfl) h.once ?_ ?_
  · intro sb hsb
    obtain ⟨hfirst, hlast⟩ := Push.mem_nodes.mp hsb
    simp only [Push.last] at hfirst hlast
    exact ⟨by omega, Or.inr (h.unused sb hfirst)⟩
  · intro e he
    have hlt := h.events e he
    omega
  · refine ⟨Nat.zero_le _, fun sb hsb => if_pos hsb, fun sb hfirst hlast => ?_, ?_⟩
    · dsimp only at hfirst hlast
      omega
    · intro oldStamp' hcaller
      rw [← PushCaller.allocSmallSb.inj hcaller]
      exact hstamp

theorem Inv.bulkLarge {count : Nat} (h : Inv s l) :
    Inv (({ s with
      bulkTail := s.bulkTail + count
      history := s.history ++ (List.range' s.bulkTail count).map SbEvent.handed }.give
        (List.range' s.bulkTail count) .program).goto tid .idle) l := by
  refine h.claim (Nat.le_add_right _ _) (by simp) ?_ ?_ ?_ ?_ trivial
  · intro sb hsb
    rw [List.mem_range'_1] at hsb
    exact ⟨hsb.2, Or.inr (h.unused sb hsb.1)⟩
  · intro sb
    rw [available_handed, and_iff_left_iff_imp]
    intro havailable hmem
    exact h.not_available (List.mem_range'_1.mp hmem).1 havailable
  · apply h.once.handed List.nodup_range'
    intro sb hsb hevent
    have hlt : sb < s.bulkTail := h.events _ hevent
    have hge := (List.mem_range'_1.mp hsb).1
    omega
  · intro e he
    rcases List.mem_append.mp he with hold | hnew
    · have hlt := h.events e hold
      omega
    · obtain ⟨sb, hsb, rfl⟩ := List.mem_map.mp hnew
      exact (List.mem_range'_1.mp hsb).2

/-! ## Every step -/

variable {t : SuperblockStack} {limit : Nat}

theorem Inv.advance (h : Inv s l) (htimely : Timely (.advance tid) s) (hstep : s.advance tid = some t) :
    ∃ l', Inv t l' := by
  unfold SuperblockStack.advance at hstep
  unfold Timely at htimely
  cases hpc : s.pc tid with
  | idle => simp [hpc] at hstep
  | smallTop oldDesc oldStamp =>
      cases oldDesc with
      | none => simp [hpc] at hstep
      | some oldDesc =>
          simp only [hpc, Option.some.injEq] at hstep
          exact ⟨l, hstep ▸ h.smallTop hpc⟩
  | smallExchange oldDesc newDesc oldStamp =>
      simp only [hpc, Option.some.injEq] at hstep htimely
      exact hstep ▸ h.exchangeSmall hpc htimely
  | largeWalk descStart desc i count oldStamp =>
      simp only [hpc, Option.some.injEq] at hstep
      exact ⟨l, hstep ▸ h.largeWalk hpc⟩
  | largeExchange descStart desc count oldStamp =>
      simp only [hpc, Option.some.injEq] at hstep htimely
      exact hstep ▸ h.exchangeLarge hpc htimely
  | largeBulk count => simp [hpc] at hstep
  | construct p i =>
      simp only [hpc, Option.some.injEq] at hstep
      exact ⟨l, hstep ▸ h.construct hpc⟩
  | link p i =>
      simp only [hpc, Option.some.injEq] at hstep
      exact ⟨l, hstep ▸ h.link hpc⟩
  | loadHead p =>
      simp only [hpc, Option.some.injEq] at hstep
      have hpush : PcOk s l tid (.loadHead p) := h.pcOk hpc
      exact ⟨l, hstep ▸ h.goto hpush⟩
  | storeNext p oldHead oldStamp =>
      simp only [hpc, Option.some.injEq] at hstep
      exact ⟨l, hstep ▸ h.storeNext hpc⟩
  | pushExchange p oldHead oldStamp =>
      simp only [hpc, Option.some.injEq] at hstep
      exact hstep ▸ h.exchangePush hpc

theorem Inv.failSpuriously (h : Inv s l) (hstep : s.failSpuriously tid = some t) : Inv t l := by
  unfold SuperblockStack.failSpuriously at hstep
  split at hstep
  · rename_i p oldHead oldStamp hpc
    obtain ⟨hpush, -⟩ : PcOk s l tid (.pushExchange p oldHead oldStamp) := h.pcOk hpc
    split at hstep
    · rw [← Option.some.inj hstep]
      exact h.goto (hpush.retryPush _ _)
    · simp at hstep
  · simp at hstep

theorem Inv.bulkAllocate {code : BulkCode} (h : Inv s l)
    (hstep : bulkAllocate limit s tid code = some t) : Inv t l := by
  unfold SuperblockStack.bulkAllocate at hstep
  split at hstep
  · rename_i oldStamp hpc
    split at hstep
    · rw [← Option.some.inj hstep]
      exact h.bulkSmall hpc
    · simp at hstep
  · rwa [← Option.some.inj hstep]
  · split at hstep
    · rw [← Option.some.inj hstep]
      exact h.bulkLarge
    · simp at hstep
  · split at hstep
    · simp at hstep
    · rw [← Option.some.inj hstep]
      exact h.goto trivial
  · rwa [← Option.some.inj hstep]
  · simp at hstep

theorem Inv.step {label : SbLabel} (h : Inv s l) (htimely : Timely label s)
    (hstep : step limit label s = some t) : ∃ l', Inv t l' := by
  cases label with
  | allocSmallSb tid =>
      simp only [SuperblockStack.step, Option.ite_none_right_eq_some, Option.some.injEq] at hstep
      exact ⟨l, hstep.2 ▸ h.allocSmallSb⟩
  | allocLargeSb tid count =>
      simp only [SuperblockStack.step, Option.ite_none_right_eq_some, Option.some.injEq] at hstep
      exact ⟨l, hstep.2 ▸ h.allocLargeSb hstep.1.2⟩
  | retireSmallSb tid sb =>
      simp only [SuperblockStack.step, Option.ite_none_right_eq_some, Option.some.injEq] at hstep
      refine ⟨l, hstep.2 ▸ h.retire (fun x hx => ?_) (by simp)⟩
      obtain rfl : x = sb := by simpa [Push.nodes] using hx
      exact hstep.1.2
  | retireLargeSb tid sb count =>
      simp only [SuperblockStack.step, Option.ite_none_right_eq_some, Option.some.injEq] at hstep
      exact ⟨l, hstep.2 ▸ h.retire hstep.1.2 (by simp)⟩
  | advance tid => exact h.advance htimely hstep
  | failSpuriously tid => exact ⟨l, h.failSpuriously hstep⟩
  | bulkAllocate tid code => exact ⟨l, h.bulkAllocate hstep⟩

/-! ## Runs -/

theorem setup_inv : Inv setup (List.range' 1 (bulkCount - 1)) := by
  have hcount : bulkCount = 32 := rfl
  have hused : ∀ sb ∈ List.range' 1 (bulkCount - 1), sb < bulkCount := by
    intro sb hsb
    have hlt := (List.mem_range'_1.mp hsb).2
    omega
  refine ⟨?_, List.nodup_range', rfl, ?_, ?_, ?_, ?_, ?_, fun _ => Nat.zero_le _, fun _ => trivial⟩
  · have hlinked : ∀ sb, 1 ≤ sb → sb < 1 + 30 → setup.nextFree sb = some (sb + 1) := by
      intro sb hfirst hlast
      exact if_pos ⟨hfirst, by omega⟩
    exact segment_range' setup.nextFree hlinked
  · intro sb
    simp only [setup]
    split
    · rename_i hmem
      exact iff_of_true rfl hmem
    · rename_i hmem
      exact iff_of_false (by simp) hmem
  · intro sb
    have hpushed : Available ([] ++ setup.history) sb ↔
        sb ∈ List.range' 1 (bulkCount - 1) ∨ Available [] sb := available_pushed
    rw [List.nil_append] at hpushed
    exact hpushed.trans (or_iff_left not_since_nil)
  · have honce : HandedOnce [] := fun _ => separated_nil
    have hpushed : HandedOnce ([] ++ setup.history) := honce.pushed
    rwa [List.nil_append] at hpushed
  · intro sb hsb
    exact if_neg fun hmem => absurd (hused sb hmem) (Nat.not_lt_of_le hsb)
  · intro e he
    obtain ⟨sb, hsb, rfl⟩ := List.mem_map.mp he
    exact hused sb hsb

theorem reaches_inv (h : (machine limit).Reaches Timely s) : ∃ l, Inv s l := by
  apply h.invariant (I := fun s => ∃ l, Inv s l)
  · exact ⟨_, setup_inv⟩
  · rintro s label t ⟨l, hinv⟩ htimely hstep
    exact hinv.step htimely hstep

/-- Without late exchanges no superblock is handed out twice, and none is lost. -/
theorem superblocks_of_reaches (h : (machine limit).Reaches Timely s) :
    HandedOnce s.history ∧ NoneLost s := by
  obtain ⟨l, hinv⟩ := reaches_inv h
  exact ⟨hinv.once, l, hinv.chain, fun sb => (hinv.available sb).mp⟩

theorem timely_of_version (h : s.version < 256) (label : SbLabel) : Timely label s := by
  cases label with
  | advance tid =>
      rw [Timely]
      split <;> first | exact fun _ => Nat.lt_add_left _ h | trivial
  | _ => trivial

theorem version_of_advance (h : s.advance tid = some t) : t.version ≤ s.version + 1 := by
  unfold SuperblockStack.advance at h
  cases hpc : s.pc tid with
  | smallTop oldDesc oldStamp =>
      rw [hpc] at h
      cases oldDesc with
      | none => cases h
      | some d =>
          obtain rfl := Option.some.inj h
          exact Nat.le_succ _
  | smallExchange oldDesc newDesc oldStamp =>
      rw [hpc] at h
      obtain rfl := Option.some.inj h
      unfold SuperblockStack.exchangeSmall
      dsimp only
      split
      · exact Nat.le_refl _
      · split <;> exact Nat.le_succ _
  | largeExchange descStart desc count oldStamp =>
      rw [hpc] at h
      obtain rfl := Option.some.inj h
      unfold SuperblockStack.exchangeLarge
      dsimp only
      split
      · exact Nat.le_refl _
      · exact Nat.le_succ _
  | pushExchange p oldHead oldStamp =>
      rw [hpc] at h
      obtain rfl := Option.some.inj h
      unfold SuperblockStack.exchangePush
      dsimp only
      split
      · exact Nat.le_refl _
      · exact Nat.le_succ _
  | idle | largeBulk =>
      rw [hpc] at h
      cases h
  | _ =>
      rw [hpc] at h
      obtain rfl := Option.some.inj h
      exact Nat.le_succ _

theorem version_of_step {label : SbLabel} (h : step limit label s = some t) :
    t.version ≤ s.version + 1 := by
  cases label with
  | advance tid => exact version_of_advance h
  | failSpuriously tid =>
      simp only [SuperblockStack.step, SuperblockStack.failSpuriously] at h
      split at h
      · split at h
        · obtain rfl := Option.some.inj h
          exact Nat.le_succ _
        · cases h
      · cases h
  | bulkAllocate tid code =>
      simp only [SuperblockStack.step, SuperblockStack.bulkAllocate] at h
      split at h <;> (try split at h) <;> first
        | cases h; done
        | (obtain rfl := Option.some.inj h; exact Nat.le_succ _)
  | _ =>
      simp only [SuperblockStack.step, Option.ite_none_right_eq_some, Option.some.injEq] at h
      obtain ⟨-, rfl⟩ := h
      exact Nat.le_succ _

/-- No exchange of a short run is late. -/
theorem reaches_exec {labels : List SbLabel} (hs : (machine limit).Reaches Timely s)
    (hversion : s.version + labels.length ≤ 256) (h : (machine limit).exec labels s = some t) :
    (machine limit).Reaches Timely t := by
  induction labels generalizing s with
  | nil =>
      obtain rfl := Option.some.inj h
      exact hs
  | cons label rest ih =>
      obtain ⟨u, hu, hrest⟩ := Option.bind_eq_some_iff.mp h
      rw [List.length_cons] at hversion
      have hstep := version_of_step hu
      exact ih (hs.step label (timely_of_version (by omega) label) hu) (by omega) hrest

/-- Thread 1 takes superblock 1 before the exchange of thread 0, which then takes superblock 2.
Thread 1 gives superblock 1 back, and thread 0 takes it. -/
def twoTake : List SbLabel :=
  [.allocSmallSb 0, .allocSmallSb 1, .advance 0, .advance 1, .advance 1, .advance 0, .advance 0,
    .advance 0, .retireSmallSb 1 1, .advance 1, .advance 1, .advance 1, .advance 1,
    .allocSmallSb 0, .advance 0, .advance 0]

theorem exec_twoTake : ((machine 64).exec twoTake setup).map (fun s =>
    (s.availSb, s.history.drop 31)) =
      some (⟨some 3, 5#8⟩, [.handed 1, .handed 2, .pushed 1, .handed 1]) := by
  decide +kernel

theorem superblocks_of_reaches_twoTake : ∃ s, (machine 64).exec twoTake setup = some s ∧
    s.history.drop 31 = [.handed 1, .handed 2, .pushed 1, .handed 1] ∧
    HandedOnce s.history ∧ NoneLost s := by
  obtain ⟨s, hs, hvalues⟩ := Option.map_eq_some_iff.mp exec_twoTake
  have hreaches : (machine 64).Reaches Timely s := reaches_exec .init (by decide) hs
  exact ⟨s, hs, (Prod.mk.inj hvalues).2, superblocks_of_reaches hreaches⟩

/-! ## A late exchange -/

theorem goto_pc (s : SuperblockStack) (tid : Nat) (pc : SbPc) : (s.goto tid pc).pc tid = pc :=
  Function.update_self ..

theorem exchangeSmall_of_eq {d : Nat} {newDesc : Option Nat} {stamp : BitVec 8}
    (hfound : s.availSb = ⟨some d, stamp⟩) : s.exchangeSmall tid d newDesc stamp =
      ((s.exchange ⟨newDesc, stamp + 1⟩ [.handed d]).give [d] .program).goto tid .idle := by
  rw [SuperblockStack.exchangeSmall, StampedPtr.compareExchange_of_eq hfound, if_pos rfl]

theorem pop_undisturbed {d : Nat} (h : (machine limit).Reaches (fun _ _ => True) s)
    (hpc : s.pc tid = .idle) (hptr : s.availSb.ptr = some d) :
    ∃ t, (machine limit).Reaches (fun _ _ => True) t ∧
      t.availSb = ⟨s.nextFree d, s.availSb.stamp + 1⟩ ∧ t.nextFree = s.nextFree ∧ t.pc = s.pc ∧
      (∀ x, x = d ∨ s.owner x = .program → t.owner x = .program) ∧
      t.history = s.history ++ [.handed d] := by
  let stamp := s.availSb.stamp
  have hload : (machine limit).Reaches (fun _ _ => True) (s.allocSmallSb tid) := by
    refine h.step (.allocSmallSb tid) trivial ?_
    exact if_pos hpc
  have hnext : (machine limit).Reaches (fun _ _ => True)
      ((s.allocSmallSb tid).goto tid (.smallExchange d (s.nextFree d) stamp)) := by
    refine hload.step (.advance tid) trivial ?_
    change SuperblockStack.advance _ tid = _
    rw [SuperblockStack.advance, SuperblockStack.allocSmallSb, goto_pc, hptr]
    rfl
  have hexchange := hnext.step (.advance tid) trivial (show SuperblockStack.advance _ tid = _ by
    rw [SuperblockStack.advance, goto_pc])
  have hfound : ((s.allocSmallSb tid).goto tid
      (.smallExchange d (s.nextFree d) stamp)).availSb = ⟨some d, stamp⟩ := by
    rw [← hptr]
    rfl
  rw [exchangeSmall_of_eq hfound] at hexchange
  refine ⟨_, hexchange, rfl, rfl, ?_, ?_, rfl⟩
  · funext x
    by_cases hx : x = tid
    · subst hx
      rw [goto_pc, hpc]
    · simp only [SuperblockStack.goto, SuperblockStack.give, SuperblockStack.exchange,
        SuperblockStack.allocSmallSb, recordLoad, Function.update_of_ne hx]
  · intro x hx
    by_cases hd : x = d
    · exact if_pos (List.mem_singleton.mpr hd)
    · exact (if_neg (fun hmem => hd (List.mem_singleton.mp hmem))).trans (hx.resolve_left hd)

/-- Steps of the thread, up to `pc`, that leave the stack and the history. -/
structure Quiet (tid : Nat) (pc : SbPc) (s t : SuperblockStack) : Prop where
  availSb : t.availSb = s.availSb
  history : t.history = s.history
  pc : t.pc = Function.update s.pc tid pc

theorem Quiet.at_pc {pc : SbPc} (h : Quiet tid pc s t) : t.pc tid = pc := by
  rw [h.pc, Function.update_self]

theorem Quiet.trans {pc pc' : SbPc} {u : SuperblockStack} (h : Quiet tid pc s t)
    (h' : Quiet tid pc' t u) : Quiet tid pc' s u := by
  refine ⟨h'.availSb.trans h.availSb, h'.history.trans h.history, ?_⟩
  rw [h'.pc, h.pc, Function.update_idem]

theorem reaches_advance (h : (machine limit).Reaches (fun _ _ => True) s)
    (hstep : s.advance tid = some t) : (machine limit).Reaches (fun _ _ => True) t :=
  h.step (.advance tid) trivial hstep

theorem push_undisturbed {d : Nat} (h : (machine limit).Reaches (fun _ _ => True) s)
    (hpc : s.pc tid = .idle) (howner : s.owner d = .program) :
    ∃ t, (machine limit).Reaches (fun _ _ => True) t ∧
      t.availSb = ⟨some d, s.availSb.stamp + 1⟩ ∧ t.pc = s.pc ∧
      t.history = s.history ++ [.pushed d] := by
  let p : Push := ⟨d, 1, .retireSmallSb⟩
  obtain ⟨s₁, h₁, hcall⟩ : ∃ t, (machine limit).Reaches (fun _ _ => True) t ∧
      Quiet tid (.construct p 0) s t :=
    ⟨_, h.step (.retireSmallSb tid d) trivial (if_pos ⟨hpc, howner⟩), rfl, rfl, rfl⟩
  obtain ⟨s₂, h₂, hconstruct⟩ : ∃ t, (machine limit).Reaches (fun _ _ => True) t ∧
      Quiet tid (.loadHead p) s₁ t :=
    ⟨(s₁.setNextFree d none).goto tid (.loadHead p),
      reaches_advance h₁ (by rw [SuperblockStack.advance, hcall.at_pc]; rfl), rfl, rfl, rfl⟩
  obtain ⟨s₃, h₃, hload⟩ : ∃ t, (machine limit).Reaches (fun _ _ => True) t ∧
      Quiet tid (.storeNext p s₂.availSb.ptr s₂.availSb.stamp) s₂ t :=
    ⟨s₂.goto tid (.storeNext p s₂.availSb.ptr s₂.availSb.stamp),
      reaches_advance h₂ (by rw [SuperblockStack.advance, hconstruct.at_pc]), rfl, rfl, rfl⟩
  obtain ⟨s₄, h₄, hstore⟩ : ∃ t, (machine limit).Reaches (fun _ _ => True) t ∧
      Quiet tid (.pushExchange p s₂.availSb.ptr s₂.availSb.stamp) s₃ t :=
    ⟨(s₃.setNextFree d s₂.availSb.ptr).goto tid
        (.pushExchange p s₂.availSb.ptr s₂.availSb.stamp),
      reaches_advance h₃ (by rw [SuperblockStack.advance, hload.at_pc]; rfl), rfl, rfl, rfl⟩
  have hquiet := ((hcall.trans hconstruct).trans hload).trans hstore
  have hfound : s₄.availSb = ⟨s₂.availSb.ptr, s₂.availSb.stamp⟩ := by
    rw [hstore.availSb, hload.availSb]
  have hexchange := reaches_advance h₄ (by rw [SuperblockStack.advance, hstore.at_pc])
  rw [SuperblockStack.exchangePush, StampedPtr.compareExchange_of_eq hfound, if_pos rfl] at hexchange
  refine ⟨_, hexchange, ?_, ?_, ?_⟩
  · change StampedPtr.mk (some d) (s₂.availSb.stamp + 1) = _
    rw [hconstruct.availSb, hcall.availSb]
  · change Function.update s₄.pc tid .idle = s.pc
    rw [hquiet.pc, Function.update_idem, ← hpc, Function.update_eq_self]
  · change s₄.history ++ [.pushed d] = _
    rw [hquiet.history]

/-- A thread waits with its exchange of the first superblock for the second one, which another
thread has got; `version` exchanges were made. -/
structure Stalled (s : SuperblockStack) (version : Nat) : Prop where
  reaches : (machine 64).Reaches (fun _ _ => True) s
  availSb : s.availSb = ⟨some 1, BitVec.ofNat 8 version⟩
  waiting : s.pc 0 = .smallExchange 1 (some 2) 1#8
  other : s.pc 1 = .idle
  handed : Since (· = .handed 2) (· = .pushed 2) s.history

theorem Stalled.round {version : Nat} (h : Stalled s version) : ∃ t, Stalled t (version + 2) := by
  have hptr : s.availSb.ptr = some 1 := by rw [h.availSb]
  obtain ⟨t, ht, havail, -, hpc, howner, hhistory⟩ := pop_undisturbed h.reaches h.other hptr
  have hidle : t.pc 1 = .idle := by rw [hpc, h.other]
  obtain ⟨u, hu, havail', hpc', hhistory'⟩ := push_undisturbed ht hidle (howner 1 (Or.inl rfl))
  refine ⟨u, hu, ?_, ?_, ?_, ?_⟩
  · rw [havail', havail, h.availSb, BitVec.ofNat_add]
    simp only [BitVec.add_assoc]
    rfl
  · rw [hpc', hpc, h.waiting]
  · rw [hpc', hpc, h.other]
  · rw [hhistory', hhistory, since_snoc, since_snoc]
    exact Or.inr ⟨Or.inr ⟨h.handed, by simp⟩, by simp⟩

theorem Stalled.rounds {version : Nat} (h : Stalled s version) (n : Nat) :
    ∃ t, Stalled t (version + 2 * n) := by
  induction n with
  | zero => exact ⟨s, h⟩
  | succ n ih =>
      obtain ⟨t, ht⟩ := ih
      exact ht.round

theorem exists_stalled : ∃ s, Stalled s 5 := by
  have hload : (machine 64).Reaches (fun _ _ => True) (setup.allocSmallSb 0) :=
    Machine.Reaches.init.step (.allocSmallSb 0) trivial rfl
  have hnext : (machine 64).Reaches (fun _ _ => True)
      ((setup.allocSmallSb 0).goto 0 (.smallExchange 1 (some 2) 1#8)) :=
    hload.step (.advance 0) trivial rfl
  have hidle : ((setup.allocSmallSb 0).goto 0 (.smallExchange 1 (some 2) 1#8)).pc 1 = .idle := rfl
  obtain ⟨s₁, h₁, havail₁, hnext₁, hpc₁, howner₁, hhistory₁⟩ :=
    pop_undisturbed (d := 1) hnext hidle rfl
  obtain ⟨s₂, h₂, havail₂, hnext₂, hpc₂, howner₂, hhistory₂⟩ :=
    pop_undisturbed (d := 2) h₁ (show s₁.pc 1 = .idle by rw [hpc₁]; rfl) (by rw [havail₁]; rfl)
  obtain ⟨s₃, h₃, havail₃, hnext₃, hpc₃, howner₃, hhistory₃⟩ :=
    pop_undisturbed (d := 3) h₂ (show s₂.pc 1 = .idle by rw [hpc₂, hpc₁]; rfl)
      (by rw [havail₂, hnext₁]; rfl)
  obtain ⟨s₄, h₄, havail₄, hpc₄, hhistory₄⟩ := push_undisturbed h₃
    (show s₃.pc 1 = .idle by rw [hpc₃, hpc₂, hpc₁]; rfl)
    (howner₃ 1 (Or.inr (howner₂ 1 (Or.inr (howner₁ 1 (Or.inl rfl))))))
  refine ⟨s₄, h₄, ?_, ?_, ?_, ?_⟩
  · rw [havail₄, havail₃, havail₂, havail₁]
    rfl
  · rw [hpc₄, hpc₃, hpc₂, hpc₁]
    rfl
  · rw [hpc₄, hpc₃, hpc₂, hpc₁]
    rfl
  · rw [hhistory₄, hhistory₃, hhistory₂, since_snoc, since_snoc, since_snoc]
    exact Or.inr ⟨Or.inr ⟨Or.inl rfl, by simp⟩, by simp⟩

/-- An exchange that comes after 256 others hands out a superblock that is not on the stack. -/
theorem not_handedOnce : ∃ s, (machine 64).Reaches (fun _ _ => True) s ∧ ¬ HandedOnce s.history := by
  obtain ⟨s₀, hstalled⟩ := exists_stalled
  obtain ⟨s, h⟩ := hstalled.rounds 126
  have hlate := reaches_advance h.reaches (by rw [SuperblockStack.advance, h.waiting])
  have hfound : s.availSb = ⟨some 1, 1#8⟩ := h.availSb
  rw [exchangeSmall_of_eq hfound] at hlate
  obtain ⟨t, ht, -, -, -, -, hhistory⟩ := pop_undisturbed (d := 2) hlate (goto_pc _ 0 _) rfl
  refine ⟨t, ht, fun honce => ?_⟩
  obtain ⟨before, x, after, hsplit, rfl, hkept⟩ := h.handed
  have hmem := honce 2 before (after ++ [.handed 1]) [] (by
    rw [hhistory]
    change (s.history ++ [.handed 1]) ++ [.handed 2] = _
    rw [hsplit]
    simp)
  rcases List.mem_append.mp hmem with hafter | hlast
  · exact hkept _ hafter rfl
  · simp at hlast

end SuperblockStack

end Libcrpm
