import Libcrpm.FlushLists
import Libcrpm.Persistence.SharedMemory
import Libcrpm.Program.Prog

/-!
# The flushing section of a checkpoint

`flush_parallel` as the undo log engine and the LMC engine have it.  Each thread writes the blocks
in its buckets back and waits for them, or thread 0 writes all caches back.  `lines` selects the
cache lines of a block, and `word o` is where word `o` of the data area is.
-/

namespace Libcrpm

open Libcrpm.Persistence Libcrpm.Program

structure FlushState (Loc : Type) where
  mem : SharedMemory Loc Nat
  flushBlocks : Nat → List Nat
  flushMode : FlushMode

namespace FlushState

variable {Loc : Type} {s u v : FlushState Loc}

def onMem (f : SharedMemory Loc Nat → SharedMemory Loc Nat) (s : FlushState Loc) :
    FlushState Loc :=
  { s with mem := f s.mem }

section Section

variable (lines : Nat → Loc → Bool)

def flushBucket (tid id : Nat) : Prog (FlushState Loc) Unit := do
  let bucket ← Prog.read fun s => s.flushBlocks id
  Prog.forEach bucket fun block => Prog.act (onMem fun m => m.flushAll tid (lines block))

def flushParallel (tid nrThreads : Nat) : Prog (FlushState Loc) Unit := do
  let mode ← Prog.read flushMode
  if mode = .wbinvd then
    if tid = 0 then Prog.act (onMem fun m => m.flushAll tid fun _ => true)
  else Prog.forEach (bucketsOf tid nrThreads) (flushBucket lines tid)
  Prog.act (onMem fun m => m.fence tid)

end Section

/-! ## Only flushes and fences -/

def Flushes (s u : FlushState Loc) : Prop := ∃ m, u = { s with mem := m } ∧ s.mem.Drains m

theorem Flushes.refl (s : FlushState Loc) : Flushes s s := ⟨s.mem, rfl, .refl _⟩

theorem Flushes.trans (h : Flushes s u) (h' : Flushes u v) : Flushes s v := by
  obtain ⟨m, rfl, hm⟩ := h
  obtain ⟨m', rfl, hm'⟩ := h'
  exact ⟨m', rfl, hm.trans hm'⟩

theorem Flushes.drains (h : Flushes s u) : s.mem.Drains u.mem := by
  obtain ⟨m, rfl, hm⟩ := h
  exact hm

theorem Flushes.flushBlocks (h : Flushes s u) : u.flushBlocks = s.flushBlocks := by
  obtain ⟨m, rfl, -⟩ := h
  rfl

theorem Flushes.flushMode (h : Flushes s u) : u.flushMode = s.flushMode := by
  obtain ⟨m, rfl, -⟩ := h
  rfl

theorem flushes_onMem {f : SharedMemory Loc Nat → SharedMemory Loc Nat}
    (hf : ∀ m : SharedMemory Loc Nat, m.Drains (f m)) (s : FlushState Loc) :
    Flushes s (s.onMem f) :=
  ⟨f s.mem, rfl, hf s.mem⟩

/-! ## What becomes durable -/

variable (word : Nat → Loc) (Y : Nat → Nat)

def Contains (s : FlushState Loc) : Prop := ∀ o, s.mem.load (word o) = Y o

def BlockPending (tid block : Nat) (s : FlushState Loc) : Prop :=
  ∀ o, o / kWordsPerBlock = block → (s.mem (word o)).Pending tid (· = Y o)

def BlockDurable (block : Nat) (s : FlushState Loc) : Prop :=
  ∀ o, o / kWordsPerBlock = block → (s.mem (word o)).Durably (· = Y o)

/-- What the section of thread `tid` achieves. -/
structure Flushed (tid nrThreads : Nat) (s u : FlushState Loc) : Prop where
  flushes : Flushes s u
  all : s.flushMode = .wbinvd → tid = 0 → ∀ block, BlockDurable word Y block u
  listed : s.flushMode ≠ .wbinvd → ∀ id ∈ bucketsOf tid nrThreads, ∀ block ∈ s.flushBlocks id,
    BlockDurable word Y block u

variable {word Y} {lines : Nat → Loc → Bool}

theorem Contains.flushes (h : Contains word Y s) (hf : Flushes s u) : Contains word Y u :=
  fun o => (hf.drains (word o)).load.trans (h o)

theorem BlockPending.flushes {tid block : Nat} (h : BlockPending word Y tid block s)
    (hf : Flushes s u) : BlockPending word Y tid block u :=
  fun o ho => (hf.drains _).pending tid _ (h o ho)

theorem BlockDurable.flushes {block : Nat} (h : BlockDurable word Y block s) (hf : Flushes s u) :
    BlockDurable word Y block u :=
  fun o ho => (hf.drains _).durably _ (h o ho)

theorem rg_flush (tid : Nat) {sel : Loc → Bool} (blocks : Nat → Prop)
    (hsel : ∀ o, blocks (o / kWordsPerBlock) → sel (word o) = true) (hY : Contains word Y s) :
    (Prog.act (onMem fun m => m.flushAll tid sel)).rg Flushes Flushes
      (fun _ u => Flushes s u ∧ ∀ block, blocks block → BlockPending word Y tid block u) s := by
  have hstep : ∀ a : FlushState Loc, Flushes a (a.onMem fun m => m.flushAll tid sel) :=
    flushes_onMem fun m => SharedMemory.drains_flushAll m tid sel
  refine Prog.rg_act fun a ha => ⟨hstep a, fun u hu => ⟨(ha.trans (hstep a)).trans hu, ?_⟩⟩
  intro block hblock
  refine BlockPending.flushes (fun o ho => ?_) hu
  have hcell : (a.onMem fun m => m.flushAll tid sel).mem (word o) = (a.mem (word o)).flush tid :=
    SharedMemory.flushAll_of a.mem tid (hsel o (ho ▸ hblock))
  rw [hcell]
  exact SharedCell.pending_flush tid (hY.flushes ha o)

variable (word Y) in
theorem rg_fence (tid : Nat) (a : FlushState Loc) :
    (Prog.act (onMem fun m => m.fence tid)).rg Flushes Flushes
      (fun _ u => Flushes a u ∧
        ∀ block, BlockPending word Y tid block a → BlockDurable word Y block u) a := by
  have hstep : ∀ b : FlushState Loc, Flushes b (b.onMem fun m => m.fence tid) :=
    flushes_onMem fun m => SharedMemory.drains_fence m tid
  refine Prog.rg_act fun b hb => ⟨hstep b, fun u hu => ⟨(hb.trans (hstep b)).trans hu, ?_⟩⟩
  intro block hpending
  refine BlockDurable.flushes (fun o ho => ?_) hu
  exact (hpending.flushes hb o ho).fence

section Lines

variable (hlines : ∀ o, lines (o / kWordsPerBlock) (word o) = true)

include hlines

theorem rg_flushBucket (tid id : Nat) (hY : Contains word Y s) :
    (flushBucket lines tid id).rg Flushes Flushes
      (fun _ u => Flushes s u ∧ ∀ block ∈ s.flushBlocks id, BlockPending word Y tid block u) s := by
  refine Prog.rg_bind .refl (Prog.rg_read fun a ha => ⟨.refl a, fun b hb => ?_⟩)
  rw [ha.flushBlocks]
  refine Prog.rg_mono (Prog.rg_forEach_each (i := s)
    (D := fun block u => BlockPending word Y tid block u)
    .refl (fun _ _ _ => .trans) (fun _ _ _ hp hf => hp.flushes hf) (fun block _ c hc => ?_)
    (ha.trans hb)) fun _ u hu => ⟨(ha.trans hb).trans hu.1, hu.2⟩
  refine Prog.rg_mono (rg_flush tid (fun b => b = block) (fun o ho => ?_)
    (hY.flushes hc)) fun _ u hu => ⟨hu.1, hu.2 block rfl⟩
  exact ho ▸ hlines o

theorem rg_flushParallel (tid nrThreads : Nat) (hY : Contains word Y s) :
    (flushParallel lines tid nrThreads).rg Flushes Flushes
      (fun _ u => Flushed word Y tid nrThreads s u) s := by
  refine Prog.rg_bind .refl (Prog.rg_read fun a ha => ⟨.refl a, fun b hb => ?_⟩)
  have hsb := ha.trans hb
  rw [ha.flushMode]
  dsimp only
  split
  · rename_i hmode
    split
    · rename_i hzero
      refine Prog.rg_bind .refl (Prog.rg_mono (rg_flush tid (fun _ => True)
        (fun _ _ => rfl) (hY.flushes hsb)) fun _ c hc => ?_)
      refine Prog.rg_mono (rg_fence word Y tid c) fun _ u hu =>
        ⟨hsb.trans (hc.1.trans hu.1), fun _ _ block => ?_, fun hno => ?_⟩
      · exact hu.2 block (hc.2 block trivial)
      · exact absurd hmode hno
    · rename_i hzero
      refine Prog.rg_mono (rg_fence word Y tid b) fun _ u hu =>
        ⟨hsb.trans hu.1, fun _ hno => ?_, fun hno => ?_⟩
      · exact absurd hno hzero
      · exact absurd hmode hno
  · rename_i hmode
    refine Prog.rg_bind .refl (Prog.rg_mono (Prog.rg_forEach_each (i := s)
      (D := fun id u => ∀ block ∈ s.flushBlocks id, BlockPending word Y tid block u) .refl
      (fun _ _ _ => .trans) (fun _ _ _ hp hf block hblock => (hp block hblock).flushes hf)
      (fun id _ c hc => ?_) hsb) fun _ c hc => ?_)
    · refine Prog.rg_mono (rg_flushBucket hlines tid id (hY.flushes hc)) fun _ u hu => ⟨hu.1, ?_⟩
      rw [← hc.flushBlocks]
      exact hu.2
    · refine Prog.rg_mono (rg_fence word Y tid c) fun _ u hu =>
        ⟨hsb.trans (hc.1.trans hu.1), fun hno => absurd hno hmode, ?_⟩
      exact fun _ id hid block hblock => hu.2 block (hc.2 id hid block hblock)

/-! ## The section of an engine -/

theorem wp_flushSection {S : Type} (get : S → FlushState Loc) (put : FlushState Loc → S → S)
    (hget : ∀ s a, get (put a s) = a) (hput : ∀ a b s, put a (put b s) = put a s)
    (hself : ∀ s, s = put (get s) s) {C : S → Prop}
    (hC : ∀ a b, C a → (get a).mem.Drains (get b).mem → C b) {s : S} (hs : C s)
    (hY : Contains word Y (get s)) (nrThreads : Nat) (schedule : List Nat) :
    Prog.wp C
      (Prog.par nrThreads schedule fun i => (flushParallel lines i nrThreads).through get put)
      (fun _ u => ∀ i < nrThreads, Flushed word Y i nrThreads (get s) (get u) ∧
        u = put (get u) s) s := by
  refine Prog.wp_par_same (R := Prog.Through get put Flushes) (fun a => ⟨.refl _, hself a⟩)
    (fun a b c hab hbc => ⟨hab.1.trans hbc.1, hbc.2.trans ?_⟩)
    (fun a b ha hab => hC a b ha hab.1.drains) hs fun i _ => ?_
  · rw [hab.2, hput]
  · exact Prog.rg_through (fun t a _ => hget t a) hput (rg_flushParallel hlines i nrThreads hY)

end Lines

theorem durable_of_flushed {nrThreads : Nat} (hpos : 0 < nrThreads)
    (hmode : s.flushMode = FlushLists.determineFlushMode s.flushBlocks)
    (hflushed : ∀ i < nrThreads, Flushed word Y i nrThreads s u) {o : Nat}
    (h : (s.mem (word o)).Durably (· = Y o) ∨ FlushLists.Listed s.flushBlocks (o / kWordsPerBlock) ∨
      FlushLists.Full s.flushBlocks) : (u.mem (word o)).Durably (· = Y o) := by
  by_cases hwbinvd : s.flushMode = .wbinvd
  · exact (hflushed 0 hpos).all hwbinvd rfl _ o rfl
  · rcases h with hdurable | hlisted | hfull
    · exact ((hflushed 0 hpos).flushes.drains _).durably _ hdurable
    · obtain ⟨id, hid, hin⟩ := hlisted
      exact (hflushed _ (Nat.mod_lt _ hpos)).listed hwbinvd id (mem_bucketsOf nrThreads hid) _ hin o rfl
    · exact absurd hfull (FlushLists.not_full_of_mode (hmode ▸ hwbinvd))

end FlushState

end Libcrpm
