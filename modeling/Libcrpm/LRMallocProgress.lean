import Libcrpm.LRMallocRuns

/-!
# Calls that do not return

`alloc_small_sb` asks for memory until it gets some.
-/

namespace Libcrpm.LRMalloc

open Libcrpm.Memory Libcrpm.Program SizeClass

variable {P : Pool} {s t : LRMalloc} {live : Live} {g : Layout} {w : World}

/-- In every state of a run, `pmalloc` returns if memory can be had or the size is a large one. -/
theorem pmalloc_ends_iff {start : LRMalloc} (hstart : setupMetadata P = some start)
    (hw : (machine P start).Reaches Fits w) (tid : Nat) {size : Nat} (hlt : size < 2 ^ 64) :
    (∃ fuel r t, pmalloc P fuel w.alloc tid size = some (r, t) ∧
      (r = none ↔ ¬ Obtainable P w.alloc tid size)) ↔
    Obtainable P w.alloc tid size ∨ kMaxSize < size ∧ NoWrap w.alloc size := by
  obtain ⟨g, h⟩ := reaches_inv hstart hw
  exact h.call_ends_iff hlt

/-! ## A pool of 4 MiB -/

theorem smallPool_aligned : 2 ^ 40 % kPageSize = 0 := by decide
theorem smallPool_fits : 2 ^ 40 + 2 ^ 22 < 2 ^ 63 := by decide

/-- Its bulk area has less than 2 MiB left once it is set up. -/
def smallPool : Pool := ⟨2 ^ 40, 2 ^ 22, smallPool_aligned, smallPool_fits⟩

theorem smallPool_firstSb : smallPool.firstSb = 2 ^ 40 + 16384 := by decide

theorem smallPool_room : lookupSb smallPool 32 ≤ smallPool.limit := by
  have hlimit : smallPool.limit = 2 ^ 40 + 2 ^ 22 := rfl
  rw [lookupSb_eq, smallPool_firstSb]
  omega

theorem pmalloc_ends_iff_new : ∃ start fuel r t, setupMetadata smallPool = some start ∧
    pmalloc smallPool fuel start 0 8 = some (r, t) := by
  have hstart := setupMetadata_eq smallPool_room
  have hiff := pmalloc_ends_iff hstart .init 0 (show 8 < 2 ^ 64 by omega)
  obtain ⟨fuel, r, t, hcall, -⟩ := hiff.mpr (Or.inl (by
    rw [Obtainable, if_neg (by decide)]
    refine Or.inr (Or.inr (Or.inl ?_))
    simp [machine, fillSbList_eq]))
  exact ⟨_, fuel, r, t, hstart, hcall⟩

theorem walkStack_of_neighbours {ds : Nat → Descriptor} {rounds desc : Nat}
    (h : ∀ sb, desc ≤ sb → sb < desc + rounds → (ds sb).nextFree = some (sb + 1)) :
    walkStack ds rounds desc = some (desc + rounds) := by
  induction rounds generalizing desc with
  | zero => rfl
  | succ rounds ih =>
      rw [walkStack, if_pos (h desc (Nat.le_refl _) (by omega)),
        ih fun sb hle hlt => h sb (by omega) (by omega)]
      congr 1
      omega

theorem smallPool_start : ∃ start, setupMetadata smallPool = some start ∧
    start.availSb.ptr = some 1 ∧ walkStack start.descriptors 30 1 = some 31 ∧
    (start.descriptors 31).nextFree = none ∧
    start.bulkTail = 2 ^ 40 + 16384 + 32 * 65536 ∧
    (∀ c, (start.partialList c).ptr = none) ∧ ∀ tid c, (start.caches tid c).blockNum = 0 := by
  have hstart := setupMetadata_eq smallPool_room
  rw [fillSbList_eq] at hstart
  refine ⟨_, hstart, rfl, ?_, ?_, ?_, fun _ => rfl, fun _ _ => rfl⟩
  · refine walkStack_of_neighbours fun sb hle hlt => ?_
    simp only [linkedDescriptors]
    rw [if_pos (by omega)]
  · simp [linkedDescriptors, blank]
  · simp only [lookupSb_eq, smallPool_firstSb]

/-- One large allocation takes all superblocks of the new pool, and then no call for a small size
returns. -/
theorem pmalloc_exhausted : ∃ start w, setupMetadata smallPool = some start ∧
    (machine smallPool start).exec [.malloc 0 (31 * 65536) 1] ⟨start, fun _ => none⟩ = some w ∧
    ∀ fuel, pmalloc smallPool fuel w.alloc 0 8 = none := by
  obtain ⟨start, hstart, hptr, hwalk, hlast, htail, hlists, hcache⟩ := smallPool_start
  have hround : roundUp (31 * 65536) kSuperBlockSize = 31 * 65536 := by decide
  have hwrap : NoWrap start (31 * 65536) := by
    intro _
    rw [hround, htail]
    omega
  have hcall := pmalloc_of_stack (P := smallPool) 0 (show kMaxSize < 31 * 65536 by decide) hwrap
    hptr hwalk 1
  obtain ⟨t, ht⟩ : ∃ t, t = setDescriptor
      { start with availSb := ⟨(start.descriptors 31).nextFree, start.availSb.stamp + 1⟩ } 1
      (largeDescriptor (start.descriptors 1) (roundUp (31 * 65536) kSuperBlockSize)
        (lookupSb smallPool 1)) := ⟨_, rfl⟩
  rw [← ht] at hcall
  have hstep : (machine smallPool start).step (.malloc 0 (31 * 65536) 1) ⟨start, fun _ => none⟩ =
      some ⟨t, Function.update (fun _ => none) (lookupSb smallPool 1) (some (31 * 65536))⟩ :=
    step_malloc (w := ⟨start, fun _ => none⟩) (show 31 * 65536 < 2 ^ 64 by omega) hcall
  have hw : (machine smallPool start).Reaches Fits
      ⟨t, Function.update (fun _ => none) (lookupSb smallPool 1) (some (31 * 65536))⟩ :=
    .step .init (.malloc 0 (31 * 65536) 1) hwrap hstep
  obtain ⟨g, h⟩ := reaches_inv hstart hw
  have hnot : ¬ Obtainable smallPool t 0 8 := by
    have hlimit : smallPool.limit = 2 ^ 40 + 2 ^ 22 := rfl
    rw [Obtainable, if_neg (by decide), ht]
    rintro (hne | hne | hne | hroom)
    · exact hne (hcache 0 _)
    · exact hne (hlists _)
    · exact hne hlast
    · change start.bulkTail + kMinAllocateSuperBlockSize ≤ smallPool.limit at hroom
      rw [htail, hlimit, kMinAllocateSuperBlockSize_eq] at hroom
      omega
  refine ⟨start, ⟨t, Function.update (fun _ => none) (lookupSb smallPool 1) (some (31 * 65536))⟩,
    hstart, ?_, fun fuel => ?_⟩
  · rw [Machine.exec, hstep, Option.bind_some, Machine.exec]
  · by_contra hne
    obtain ⟨result, hsome⟩ := Option.ne_none_iff_exists'.mp hne
    exact hnot ((h.pmallocSmall_returns_iff _ (by decide)).mp ⟨fuel, result.1, result.2, hsome⟩)

end Libcrpm.LRMalloc
