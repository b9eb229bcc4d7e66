import Libcrpm.LRMallocCalls
import Libcrpm.Program.Machine

/-!
# Runs of the allocator

Calls of any threads, one at a time, and stores of the application to the memory it holds.
-/

namespace Libcrpm.LRMalloc

open Libcrpm.Memory Libcrpm.Program SizeClass

variable {P : Pool} {s t : LRMalloc} {live : Live} {g : Layout}

structure World where
  alloc : LRMalloc
  live : Live

/-- `malloc` comes with the rounds that its loops take. -/
inductive Call where
  | malloc (tid size fuel : Nat)
  | free (tid : Nat) (ptr : Option Nat)
  | store (ptr address : Nat) (value : Option Nat)

namespace World

/-- The pointer that `pmalloc` returned is live. -/
def give (live : Live) (size : Nat) : Option Nat → Live
  | none => live
  | some p => Function.update live p (some size)

def step (P : Pool) : Call → World → Option World
  | .malloc tid size fuel, w =>
      if size < 2 ^ 64 then
        (pmalloc P fuel w.alloc tid size).map fun result => ⟨result.2, give w.live size result.1⟩
      else none
  | .free tid none, w => some { w with alloc := pfree P w.alloc tid none }
  | .free tid (some p), w =>
      if (w.live p).isSome then
        some ⟨pfree P w.alloc tid (some p), Function.update w.live p none⟩
      else none
  | .store p a v, w =>
      if (w.live p).any fun size => p ≤ a ∧ a < p + size then
        some { w with alloc := w.alloc.setLink a v }
      else none

end World

def machine (P : Pool) (start : LRMalloc) : Machine World Call := ⟨⟨start, fun _ => none⟩, World.step P⟩

/-- No call asks for a size that wraps. -/
def Fits : Call → World → Prop
  | .malloc _ size _, w => NoWrap w.alloc size
  | _, _ => True

/-- No call asks for a size that wraps, and no size from 4 GiB on is freed. -/
def Keeps : Call → World → Prop
  | .malloc _ size _, w => NoWrap w.alloc size
  | .free _ (some p), w => Restored w.live p
  | _, _ => True

/-! ## The invariant -/

theorem Pool.lookupSb_zero_lt (P : Pool) : lookupSb P 0 + 32 * kSuperBlockSize < 2 ^ 64 := by
  have hfits := P.fits
  have hmeta := roundUp_lt kMetadataSize (b := kPageSize) (by decide)
  have hdescs := roundUp_lt (P.capacity / kSuperBlockSize * kDescriptorSize) (b := kPageSize)
    (by decide)
  have hle : P.capacity / kSuperBlockSize * kDescriptorSize ≤ P.capacity := by
    have hmul := Nat.div_mul_le_self P.capacity kSuperBlockSize
    have hsize : kDescriptorSize ≤ kSuperBlockSize := by decide
    exact (Nat.mul_le_mul_left _ hsize).trans hmul
  have hconst : kMetadataSize + kPageSize + kPageSize + 32 * kSuperBlockSize < 2 ^ 22 := by decide
  rw [lookupSb_eq, Nat.zero_mul, Nat.add_zero, Pool.firstSb]
  omega

/-- The first superblocks of a new pool, before they are put onto the stack. -/
def newLayout : Layout where
  owner sb := if sb = 0 then .reserved else if sb < 32 then .held else .unused
  stack := []
  partials _ := []
  cached _ _ := []
  free _ := []
  place _ := none

theorem newLayout_inv (hlimit : lookupSb P 32 ≤ P.limit) :
    Inv P { blank P with bulkTail := lookupSb P 32 } (fun _ => none) newLayout := by
  have howner : ∀ sb v, newLayout.owner sb = v → v = .reserved ∨ v = .held ∨ v = .unused := by
    rintro sb v rfl
    simp only [newLayout]
    split
    · exact Or.inl rfl
    · split
      · exact Or.inr (Or.inl rfl)
      · exact Or.inr (Or.inr rfl)
  have hnot : ∀ sb v, ¬ (v = .reserved ∨ v = .held ∨ v = .unused) → newLayout.owner sb ≠ v :=
    fun sb v hv heq => hv (howner sb v heq)
  refine ⟨⟨⟨32, rfl, fun sb => ?_⟩, hlimit, fun sb => ?_⟩, ⟨rfl, List.nodup_nil, fun sb => ?_⟩,
    ⟨fun sb c hsb => ?_, fun sb c hsb => ?_, fun _ => rfl, fun _ => List.nodup_nil, fun c sb => ?_⟩,
    ⟨fun _ _ => ⟨none, rfl⟩, fun _ _ => rfl, fun _ _ => List.nodup_nil, fun _ _ _ => ?_⟩,
    ⟨fun x => ?_, fun x tid c hx => ?_, fun sb x => ?_, fun _ => List.nodup_nil⟩,
    ⟨fun x => ?_, by simp, by simp, fun sb q hsb => ?_⟩⟩
  · simp only [newLayout]
    split
    · exact iff_of_false (by simp) (by omega)
    · split
      · exact iff_of_false (by simp) (by omega)
      · exact iff_of_true rfl (by omega)
  · simp only [newLayout]
    split
    · exact iff_of_true rfl (by assumption)
    · split
      · exact iff_of_false (by simp) (by assumption)
      · exact iff_of_false (by simp) (by assumption)
  · exact iff_of_false (by simp [newLayout]) (hnot sb .stack (by simp))
  · exact absurd hsb (hnot sb (.small c) (by simp))
  · simp [blank, Descriptor.new] at hsb
  · exact iff_of_false (by simp [newLayout]) fun h => hnot sb (.small c) (by simp) h.1
  · exact iff_of_false (by simp [newLayout]) (by simp [newLayout])
  · refine iff_of_false (by simp [newLayout]) ?_
    rintro ⟨sb, c, k, hsb, -⟩
    exact hnot sb (.small c) (by simp) hsb
  · simp [newLayout] at hx
  · exact iff_of_false (by simp [newLayout]) (by simp [newLayout])
  · exact iff_of_false (by simp [newLayout]) (by simp)
  · exact absurd hsb (hnot sb (.large q) (by simp))

theorem blank_tail (P : Pool) : (blank P).bulkTail = lookupSb P 0 := by
  rw [lookupSb_eq, Nat.zero_mul, Nat.add_zero, blank]

theorem setup_inv (h : setupMetadata P = some s) : ∃ g, Inv P s (fun _ => none) g ∧ Whole g := by
  have htail := blank_tail P
  have hlast := lookupSb_add P 0 32
  have hfirst := lookupSb_add P 0 1
  rw [Nat.one_mul] at hfirst
  have hdiv : 32 * kSuperBlockSize / kSuperBlockSize - 1 = 31 := by decide
  rw [setupMetadata, fillFirst, kMinAllocateSuperBlockSize_mul] at h
  by_cases hroom : BulkRoom P (blank P) (32 * kSuperBlockSize)
  · rw [bulkAllocate_room htail hroom] at h
    simp only [Nat.zero_add, hdiv, hfirst, Option.some.injEq] at h
    rw [BulkRoom, htail, hlast] at hroom
    have hheld : ∀ sb, 1 ≤ sb → sb < 1 + (31 - 1 + 1) → newLayout.owner sb = .held := by
      intro sb hle hlt
      simp only [newLayout]
      rw [if_neg (by omega), if_pos (by omega)]
    have hfill := (newLayout_inv hroom).fill hheld
    rw [h] at hfill
    refine ⟨_, hfill, fun sb => ?_⟩
    simp only [reown, newLayout]
    split
    · simp
    · split
      · simp
      · rw [if_neg (by omega)]
        simp
  · have hlt := Pool.lookupSb_zero_lt P
    rw [bulkAllocate_full htail hroom (htail ▸ hlt)] at h
    simp at h

theorem setupMetadata_eq (hroom : lookupSb P 32 ≤ P.limit) : setupMetadata P =
    some (fillSbList P { blank P with bulkTail := lookupSb P 32 } (lookupSb P 1) 31) := by
  have htail := blank_tail P
  have hlast := lookupSb_add P 0 32
  have hfirst := lookupSb_add P 0 1
  rw [Nat.one_mul] at hfirst
  rw [setupMetadata, fillFirst, kMinAllocateSuperBlockSize_mul,
    bulkAllocate_room htail (by rwa [BulkRoom, htail, hlast])]
  simp only [Nat.zero_add, hfirst]
  rfl

theorem setup_room (hroom : lookupSb P 32 ≤ P.limit) :
    ∃ s, setupMetadata P = some s ∧ s.bulkTail = lookupSb P 32 :=
  ⟨_, setupMetadata_eq hroom, by rw [fillSbList_eq]⟩

/-- A call keeps the invariant, and loses nothing if it keeps to what `Keeps` asks for. -/
theorem step_inv {w w' : World} {l : Call} (h : Inv P w.alloc w.live g) (hfits : Fits l w)
    (hstep : w.step P l = some w') :
    ∃ g', Inv P w'.alloc w'.live g' ∧ (Keeps l w → Whole g → Whole g') := by
  cases l with
  | malloc tid size fuel =>
      rw [World.step] at hstep
      split at hstep
      · obtain ⟨result, hcall, rfl⟩ := Option.map_eq_some_iff.mp hstep
        obtain ⟨r, u⟩ := result
        rcases h.pmalloc hfits hcall with ⟨rfl, rfl⟩ | ⟨p, g', rfl, halloc⟩
        · exact ⟨g, h, fun _ hwhole => hwhole⟩
        · exact ⟨g', halloc.inv, fun _ => halloc.whole⟩
      · simp at hstep
  | free tid ptr =>
      cases ptr with
      | none =>
          obtain rfl := Option.some.inj hstep
          exact ⟨g, h, fun _ hwhole => hwhole⟩
      | some p =>
          rw [World.step] at hstep
          split at hstep
          · rename_i hlive
            obtain ⟨size, hsize⟩ := Option.isSome_iff_exists.mp hlive
            obtain rfl := Option.some.inj hstep
            obtain ⟨g', h', hwhole⟩ := h.pfree tid hsize
            exact ⟨g', h', hwhole⟩
          · simp at hstep
  | store p a v =>
      rw [World.step] at hstep
      split at hstep
      · rename_i hin
        obtain rfl := Option.some.inj hstep
        cases hlive : w.live p with
        | none => simp [hlive] at hin
        | some size =>
            simp only [hlive, Option.any_some, decide_eq_true_eq] at hin
            exact ⟨g, h.store hlive hin.1 hin.2 v, fun _ hwhole => hwhole⟩
      · simp at hstep

theorem step_malloc {w : World} {tid size fuel p : Nat} (hlt : size < 2 ^ 64)
    (hcall : pmalloc P fuel w.alloc tid size = some (some p, t)) :
    World.step P (.malloc tid size fuel) w = some ⟨t, Function.update w.live p (some size)⟩ := by
  simp only [World.step, if_pos hlt, hcall, Option.map_some, World.give]

theorem Keeps.fits {w : World} {l : Call} (h : Keeps l w) : Fits l w := by
  cases l with
  | malloc => exact h
  | free tid ptr => exact trivial
  | store => exact trivial

section

variable {start : LRMalloc} {w : World}

theorem reaches_inv (hstart : setupMetadata P = some start)
    (hw : (machine P start).Reaches Fits w) : ∃ g, Inv P w.alloc w.live g := by
  refine hw.invariant (I := fun w => ∃ g, Inv P w.alloc w.live g) ?_ ?_
  · obtain ⟨g, h, -⟩ := setup_inv hstart
    exact ⟨g, h⟩
  · rintro w l w' ⟨g, h⟩ hfits hstep
    obtain ⟨g', h', -⟩ := step_inv h hfits hstep
    exact ⟨g', h'⟩

theorem reaches_whole (hstart : setupMetadata P = some start)
    (hw : (machine P start).Reaches Keeps w) : ∃ g, Inv P w.alloc w.live g ∧ Whole g := by
  refine hw.invariant (I := fun w => ∃ g, Inv P w.alloc w.live g ∧ Whole g) (setup_inv hstart) ?_
  rintro w l w' ⟨g, h, hwhole⟩ hkeeps hstep
  obtain ⟨g', h', hwhole'⟩ := step_inv h hkeeps.fits hstep
  exact ⟨g', h', hwhole' hkeeps hwhole⟩

end

end Libcrpm.LRMalloc
