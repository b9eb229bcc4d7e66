import Libcrpm.SuperblockStack

/-!
# What the threads know of the stack

A thread whose stamp was loaded after the last exchange sees the stack as it is.  The invariant
says so for every thread, and that nobody else writes the descriptors that a thread is about to push.
-/

namespace Libcrpm

open Program Memory

theorem Push.mem_nodes {p : Push} {sb : Nat} : sb ∈ p.nodes ↔ p.start ≤ sb ∧ sb ≤ p.last := by
  rw [nodes, last, List.mem_range'_1]
  omega

namespace SuperblockStack

/-! ## Histories -/

section Histories

variable {history : List SbEvent} {nodes : List Nat} {sb : Nat}

theorem available_pushed : Available (history ++ nodes.map SbEvent.pushed) sb ↔
    sb ∈ nodes ∨ Available history sb := by
  induction nodes using List.reverseRecOn with
  | nil => simp
  | append_singleton nodes x ih =>
      unfold Available at ih ⊢
      rw [List.map_append, ← List.append_assoc, List.map_singleton, since_snoc, ih]
      simp only [SbEvent.pushed.injEq, reduceCtorEq, not_false_eq_true, and_true, List.mem_append,
        List.mem_singleton]
      rw [or_left_comm, or_assoc, eq_comm]

theorem available_handed : Available (history ++ nodes.map SbEvent.handed) sb ↔
    Available history sb ∧ sb ∉ nodes := by
  induction nodes using List.reverseRecOn with
  | nil => simp
  | append_singleton nodes x ih =>
      unfold Available at ih ⊢
      rw [List.map_append, ← List.append_assoc, List.map_singleton, since_snoc, ih]
      simp only [SbEvent.handed.injEq, reduceCtorEq, false_or, List.mem_append, List.mem_singleton,
        not_or]
      rw [and_assoc, eq_comm]

theorem HandedOnce.pushed (h : HandedOnce history) :
    HandedOnce (history ++ nodes.map SbEvent.pushed) := by
  induction nodes using List.reverseRecOn with
  | nil => simpa using h
  | append_singleton nodes x ih =>
      intro sb
      rw [List.map_append, ← List.append_assoc]
      exact (ih sb).snoc (by simp) (fun hx => by simp at hx)

theorem HandedOnce.handed (h : HandedOnce history) (hnodup : nodes.Nodup)
    (hnodes : ∀ sb ∈ nodes, .handed sb ∈ history → Available history sb) :
    HandedOnce (history ++ nodes.map SbEvent.handed) := by
  induction nodes using List.reverseRecOn with
  | nil => simpa using h
  | append_singleton nodes x ih =>
      rw [List.nodup_append] at hnodup
      have hnew : x ∉ nodes := fun hx => hnodup.2.2 x hx x (by simp) rfl
      have hold := ih hnodup.1 fun sb hsb => hnodes sb (by simp [hsb])
      intro sb
      rw [List.map_append, ← List.append_assoc]
      refine (hold sb).snoc (by simp) fun hx hin => ?_
      obtain rfl : x = sb := by simpa using hx
      apply available_handed.mpr
      refine ⟨hnodes x (by simp) ?_, hnew⟩
      simpa [hnew] using hin

end Histories

/-! ## Threads -/

/-- The superblocks of a push are the thread's, and the first ones are linked. -/
structure PushOk (s : SuperblockStack) (tid : Nat) (p : Push) (linked : Nat) : Prop where
  le : linked ≤ p.count - 1
  owner : ∀ sb ∈ p.nodes, s.owner sb = .thread tid
  links : ∀ sb, p.start ≤ sb → sb < p.start + linked → s.nextFree sb = some (sb + 1)
  stamp : ∀ oldStamp, p.caller = .allocSmallSb oldStamp →
    oldStamp = BitVec.ofNat 8 (s.loaded tid)

/-- What holds of a thread at `pc`, where the stack is `l`. -/
def PcOk (s : SuperblockStack) (l : List Nat) (tid : Nat) : SbPc → Prop
  | .idle | .largeBulk _ => True
  | .smallTop oldDesc oldStamp => oldStamp = BitVec.ofNat 8 (s.loaded tid) ∧
      ∀ desc, oldDesc = some desc → s.loaded tid = s.version → l.head? = some desc
  | .smallExchange oldDesc newDesc oldStamp => oldStamp = BitVec.ofNat 8 (s.loaded tid) ∧
      (s.loaded tid = s.version → ∃ rest, l = [oldDesc] ++ rest ∧ newDesc = rest.head?)
  | .largeWalk descStart desc i count oldStamp => oldStamp = BitVec.ofNat 8 (s.loaded tid) ∧
      (0 < i ∧ i ≤ count ∧ desc + 1 = descStart + i) ∧
      (s.loaded tid = s.version → ∃ rest, l = List.range' descStart i ++ rest)
  | .largeExchange descStart desc count oldStamp => oldStamp = BitVec.ofNat 8 (s.loaded tid) ∧
      0 < count ∧
      (s.loaded tid = s.version →
        ∃ rest, l = List.range' descStart count ++ rest ∧ desc = rest.head?)
  | .construct p i => PushOk s tid p i
  | .link p i => PushOk s tid p i ∧ i + 1 < p.count
  | .loadHead p | .storeNext p _ _ => PushOk s tid p (p.count - 1)
  | .pushExchange p oldHead _ => PushOk s tid p (p.count - 1) ∧ s.nextFree p.last = oldHead

structure Inv (s : SuperblockStack) (l : List Nat) : Prop where
  chain : Segment s.nextFree s.availSb.ptr l none
  nodup : l.Nodup
  stamp : s.availSb.stamp = BitVec.ofNat 8 s.version
  owner : ∀ sb, s.owner sb = .stack ↔ sb ∈ l
  available : ∀ sb, Available s.history sb ↔ sb ∈ l
  once : HandedOnce s.history
  unused : ∀ sb, s.bulkTail ≤ sb → s.owner sb = .unused
  events : ∀ e ∈ s.history, e.sb < s.bulkTail
  loaded : ∀ tid, s.loaded tid ≤ s.version
  pc : ∀ tid, PcOk s l tid (s.pc tid)

variable {s s' : SuperblockStack} {l l' : List Nat} {tid : Nat} {pc : SbPc} {p : Push}

theorem Inv.pcOk (h : Inv s l) (hpc : s.pc tid = pc) : PcOk s l tid pc :=
  hpc ▸ h.pc tid

theorem PushOk.frame {linked : Nat} (h : PushOk s tid p linked)
    (hloaded : s'.loaded tid = s.loaded tid)
    (howner : ∀ sb, s.owner sb = .thread tid →
      s'.owner sb = .thread tid ∧ s'.nextFree sb = s.nextFree sb) : PushOk s' tid p linked := by
  refine ⟨h.le, fun sb hsb => (howner sb (h.owner sb hsb)).1, fun sb hfirst hlast => ?_, ?_⟩
  · have hle := h.le
    have hmem : sb ∈ p.nodes := Push.mem_nodes.mpr ⟨hfirst, by unfold Push.last; omega⟩
    rw [(howner _ (h.owner _ hmem)).2, h.links sb hfirst hlast]
  · rw [hloaded]
    exact h.stamp

theorem PcOk.frame (h : PcOk s l tid pc) (hloaded : s'.loaded tid = s.loaded tid)
    (hcurrent : s'.loaded tid = s'.version → s.loaded tid = s.version ∧ l' = l)
    (howner : ∀ sb, s.owner sb = .thread tid →
      s'.owner sb = .thread tid ∧ s'.nextFree sb = s.nextFree sb) : PcOk s' l' tid pc := by
  cases pc with
  | idle => trivial
  | largeBulk count => trivial
  | smallTop oldDesc oldStamp =>
      obtain ⟨hstamp, hhead⟩ := h
      refine ⟨hloaded ▸ hstamp, fun desc hdesc hnow => ?_⟩
      obtain ⟨hwas, rfl⟩ := hcurrent hnow
      exact hhead desc hdesc hwas
  | smallExchange oldDesc newDesc oldStamp =>
      obtain ⟨hstamp, hsnap⟩ := h
      refine ⟨hloaded ▸ hstamp, fun hnow => ?_⟩
      obtain ⟨hwas, rfl⟩ := hcurrent hnow
      exact hsnap hwas
  | largeWalk descStart desc i count oldStamp =>
      obtain ⟨hstamp, hi, hsnap⟩ := h
      refine ⟨hloaded ▸ hstamp, hi, fun hnow => ?_⟩
      obtain ⟨hwas, rfl⟩ := hcurrent hnow
      exact hsnap hwas
  | largeExchange descStart desc count oldStamp =>
      obtain ⟨hstamp, hcount, hsnap⟩ := h
      refine ⟨hloaded ▸ hstamp, hcount, fun hnow => ?_⟩
      obtain ⟨hwas, rfl⟩ := hcurrent hnow
      exact hsnap hwas
  | construct p i => exact PushOk.frame h hloaded howner
  | link p i => exact ⟨h.1.frame hloaded howner, h.2⟩
  | loadHead p => exact PushOk.frame h hloaded howner
  | storeNext p oldHead oldStamp => exact PushOk.frame h hloaded howner
  | pushExchange p oldHead oldStamp =>
      refine ⟨h.1.frame hloaded howner, ?_⟩
      have hlast : p.last ∈ p.nodes := Push.mem_nodes.mpr ⟨by unfold Push.last; omega, Nat.le_refl _⟩
      rw [(howner _ (h.1.owner _ hlast)).2, h.2]

/-! ## Steps of one thread -/

theorem recordLoad_self (s : SuperblockStack) (tid : Nat) :
    (s.recordLoad tid).loaded tid = s.version :=
  Function.update_self ..

theorem Inv.move {nextFree : Nat → Option Nat} {loaded : Nat → Nat} (h : Inv s l)
    (hnext : ∀ sb, s.owner sb ≠ .thread tid → nextFree sb = s.nextFree sb)
    (hloaded : ∀ t, t ≠ tid → loaded t = s.loaded t) (hle : loaded tid ≤ s.version)
    (hpc : PcOk { s with nextFree := nextFree, loaded := loaded } l tid pc) :
    Inv ({ s with nextFree := nextFree, loaded := loaded }.goto tid pc) l := by
  have hchain : Segment nextFree s.availSb.ptr l none := by
    refine h.chain.congr fun sb hsb => hnext sb ?_
    rw [(h.owner sb).mpr hsb]
    simp
  have hloaded' : ∀ t, loaded t ≤ s.version := by
    intro t
    by_cases ht : t = tid
    · exact ht ▸ hle
    · exact hloaded t ht ▸ h.loaded t
  refine ⟨hchain, h.nodup, h.stamp, h.owner, h.available, h.once, h.unused, h.events, hloaded', ?_⟩
  intro t
  simp only [goto]
  by_cases ht : t = tid
  · subst ht
    rw [Function.update_self]
    exact hpc.frame rfl (fun hnow => ⟨hnow, rfl⟩) fun _ howner => ⟨howner, rfl⟩
  · rw [Function.update_of_ne ht]
    refine (h.pc t).frame (hloaded t ht) ?_ ?_
    · intro hnow
      exact ⟨(hloaded t ht).symm.trans hnow, rfl⟩
    · intro sb howner
      refine ⟨howner, hnext sb ?_⟩
      rw [howner]
      simpa using ht

theorem Inv.goto (h : Inv s l) (hpc : PcOk s l tid pc) : Inv (s.goto tid pc) l :=
  h.move (fun _ _ => rfl) (fun _ _ => rfl) (h.loaded tid) hpc

theorem Inv.load (h : Inv s l) (hpc : PcOk (s.recordLoad tid) l tid pc) :
    Inv ((s.recordLoad tid).goto tid pc) l := by
  refine h.move (fun _ _ => rfl) (fun t ht => Function.update_of_ne ht _ _) ?_ hpc
  rw [Function.update_self]

theorem Inv.store {desc : Nat} {next : Option Nat} (h : Inv s l)
    (hdesc : s.owner desc = .thread tid) (hpc : PcOk (s.setNextFree desc next) l tid pc) :
    Inv ((s.setNextFree desc next).goto tid pc) l := by
  refine h.move (fun sb hsb => Function.update_of_ne ?_ _ _) (fun _ _ => rfl) (h.loaded tid) hpc
  rintro rfl
  exact hsb hdesc

theorem Inv.exchange {nodes : List Nat} {owner : SbOwner} {events : List SbEvent}
    {value : StampedPtr} (h : Inv s l) (hchain : Segment s.nextFree value.ptr l' none)
    (hnodup : l'.Nodup) (hstamp : value.stamp = s.availSb.stamp + 1)
    (hnodes : ∀ sb ∈ nodes, s.owner sb = .stack ∨ s.owner sb = .thread tid)
    (howner : ∀ sb, (if sb ∈ nodes then owner else s.owner sb) = .stack ↔ sb ∈ l')
    (havailable : ∀ sb, Available (s.history ++ events) sb ↔ sb ∈ l')
    (honce : HandedOnce (s.history ++ events)) (hevents : ∀ e ∈ events, e.sb ∈ nodes)
    (hpc : PcOk ((s.exchange value events).give nodes owner) l' tid pc) :
    Inv (((s.exchange value events).give nodes owner).goto tid pc) l' := by
  have hused : ∀ sb ∈ nodes, sb < s.bulkTail := by
    intro sb hsb
    by_contra hge
    have hunused := h.unused sb (by omega)
    rcases hnodes sb hsb with hstack | hthread
    · rw [hunused] at hstack
      simp at hstack
    · rw [hunused] at hthread
      simp at hthread
  have hstamp' : value.stamp = BitVec.ofNat 8 (s.version + 1) := by
    rw [hstamp, h.stamp, BitVec.ofNat_add]
    rfl
  have hunused : ∀ sb, s.bulkTail ≤ sb → (if sb ∈ nodes then owner else s.owner sb) = .unused := by
    intro sb hsb
    rw [if_neg (fun hmem => absurd (hused sb hmem) (by omega)), h.unused sb hsb]
  have hall : ∀ e ∈ s.history ++ events, e.sb < s.bulkTail := by
    intro e he
    rcases List.mem_append.mp he with hold | hnew
    · exact h.events e hold
    · exact hused _ (hevents e hnew)
  have hloaded : ∀ t, s.loaded t ≤ s.version + 1 := fun t => Nat.le_succ_of_le (h.loaded t)
  refine ⟨hchain, hnodup, hstamp', howner, havailable, honce, hunused, hall, hloaded, ?_⟩
  intro t
  simp only [SuperblockStack.goto]
  by_cases ht : t = tid
  · subst ht
    rw [Function.update_self]
    exact hpc.frame rfl (fun hnow => ⟨hnow, rfl⟩) fun _ howner => ⟨howner, rfl⟩
  · rw [Function.update_of_ne ht]
    refine (h.pc t).frame rfl ?_ ?_
    · intro hnow
      have hle := h.loaded t
      have hnow' : s.loaded t = s.version + 1 := hnow
      omega
    · intro sb hthread
      refine ⟨?_, rfl⟩
      have hnot : sb ∉ nodes := by
        intro hmem
        rcases hnodes sb hmem with hstack | hother
        · rw [hthread] at hstack
          simp at hstack
        · rw [hthread] at hother
          exact ht (SbOwner.thread.inj hother)
      exact (if_neg hnot).trans hthread

theorem Inv.claim {nodes : List Nat} {owner : SbOwner} {history : List SbEvent} {tail : Nat}
    (h : Inv s l) (htail : s.bulkTail ≤ tail) (howner : owner ≠ .stack)
    (hnodes : ∀ sb ∈ nodes, sb < tail ∧ (s.owner sb = .program ∨ s.owner sb = .unused))
    (havailable : ∀ sb, Available history sb ↔ Available s.history sb)
    (honce : HandedOnce history) (hevents : ∀ e ∈ history, e.sb < tail)
    (hpc : PcOk ({ s with bulkTail := tail, history := history }.give nodes owner) l tid pc) :
    Inv (({ s with bulkTail := tail, history := history }.give nodes owner).goto tid pc) l := by
  have hother : ∀ sb o, (o = .stack ∨ ∃ t, o = .thread t) → s.owner sb = o → sb ∉ nodes := by
    intro sb o ho hsb hmem
    rcases (hnodes sb hmem).2 with hprogram | hunused
    · rw [hsb] at hprogram
      subst hprogram
      simp at ho
    · rw [hsb] at hunused
      subst hunused
      simp at ho
  have howner' : ∀ sb, (if sb ∈ nodes then owner else s.owner sb) = .stack ↔ sb ∈ l := by
    intro sb
    rw [← h.owner sb]
    by_cases hmem : sb ∈ nodes
    · rw [if_pos hmem]
      exact iff_of_false howner fun hstack => hother sb _ (Or.inl rfl) hstack hmem
    · rw [if_neg hmem]
  have hunused : ∀ sb, tail ≤ sb → (if sb ∈ nodes then owner else s.owner sb) = .unused := by
    intro sb hsb
    rw [if_neg (fun hmem => absurd (hnodes sb hmem).1 (by omega)), h.unused sb (by omega)]
  refine ⟨h.chain, h.nodup, h.stamp, howner', fun sb => (havailable sb).trans (h.available sb), honce,
    hunused, hevents, h.loaded, ?_⟩
  intro t
  simp only [SuperblockStack.goto]
  by_cases ht : t = tid
  · subst ht
    rw [Function.update_self]
    exact hpc.frame rfl (fun hnow => ⟨hnow, rfl⟩) fun _ howner => ⟨howner, rfl⟩
  · rw [Function.update_of_ne ht]
    refine (h.pc t).frame rfl (fun hnow => ⟨hnow, rfl⟩) fun sb hthread => ⟨?_, rfl⟩
    exact (if_neg (hother sb _ (Or.inr ⟨t, rfl⟩) hthread)).trans hthread

end SuperblockStack

end Libcrpm
