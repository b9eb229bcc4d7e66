import Libcrpm.Common
import Mathlib.Data.List.GetD

/-!
# Size classes

`lrmalloc_util.h` and `lrmalloc_util.cpp`: the table of the size classes and the bins of the
thread caches.
-/

namespace Libcrpm

def kSuperBlockShift : Nat := 16
def kSuperBlockSize : Nat := 1 <<< kSuperBlockShift
def kMaxSizeClasses : Nat := 40
def kMaxSize : Nat := (1 <<< 13) + (1 <<< 11) * 3

theorem kSuperBlockSize_eq : kSuperBlockSize = 65536 := rfl
theorem kMaxSizeClasses_eq : kMaxSizeClasses = 40 := rfl
theorem kMaxSize_eq : kMaxSize = 14336 := rfl

structure SizeClassEntry where
  blockSize : Nat
  sbSize : Nat
  blockNum : Nat
  cacheBlockNum : Nat
deriving DecidableEq

namespace SizeClass

/-- `lg_grp`, `lg_delta` and `ndelta` of the rows of `SIZE_CLASSES` that are bins. -/
def binRows : List (Nat × Nat × Nat) :=
  [(3, 3, 0), (3, 3, 1), (3, 3, 2), (3, 3, 3),
    (5, 3, 1), (5, 3, 2), (5, 3, 3), (5, 3, 4),
    (6, 4, 1), (6, 4, 2), (6, 4, 3), (6, 4, 4),
    (7, 5, 1), (7, 5, 2), (7, 5, 3), (7, 5, 4),
    (8, 6, 1), (8, 6, 2), (8, 6, 3), (8, 6, 4),
    (9, 7, 1), (9, 7, 2), (9, 7, 3), (9, 7, 4),
    (10, 8, 1), (10, 8, 2), (10, 8, 3), (10, 8, 4),
    (11, 9, 1), (11, 9, 2), (11, 9, 3), (11, 9, 4),
    (12, 10, 1), (12, 10, 2), (12, 10, 3), (12, 10, 4),
    (13, 11, 1), (13, 11, 2), (13, 11, 3)]

def binEntry (row : Nat × Nat × Nat) : SizeClassEntry :=
  let blockSize := (1 <<< row.1) + (row.2.2 <<< row.2.1)
  ⟨blockSize, kSuperBlockSize, kSuperBlockSize / blockSize, kSuperBlockSize / blockSize⟩

def sizeClasses : List SizeClassEntry := ⟨0, 0, 0, 0⟩ :: binRows.map binEntry

def getEntry (idx : Nat) : SizeClassEntry := sizeClasses.getD idx ⟨0, 0, 0, 0⟩

/-- The loops that fill `size_class_lookup`: entry `idx` serves the sizes from `sizeIdx` up to its
block size. -/
def fillLookup : List SizeClassEntry → Nat → Nat → List Nat
  | [], _, _ => []
  | entry :: rest, idx, sizeIdx =>
      List.replicate (entry.blockSize + 1 - sizeIdx) idx ++
        fillLookup rest (idx + 1) (max sizeIdx (entry.blockSize + 1))

def sizeClassLookup : List Nat := fillLookup (binRows.map binEntry) 1 0

def lookup (size : Nat) : Nat := sizeClassLookup.getD size 0

/-! ## What the allocator relies on -/

/-- A class whose blocks fit into a superblock. -/
structure Bin (c : Nat) : Prop where
  pos : 0 < c
  lt : c < kMaxSizeClasses
  blockSize : 8 ≤ (getEntry c).blockSize
  sbSize : (getEntry c).sbSize = kSuperBlockSize
  blockNum : 4 ≤ (getEntry c).blockNum
  blockNum_le : (getEntry c).blockNum ≤ 8192
  fits : (getEntry c).blockNum * (getEntry c).blockSize ≤ kSuperBlockSize
  cacheBlockNum : (getEntry c).cacheBlockNum = (getEntry c).blockNum

theorem bin_of_lt {c : Nat} (hpos : 0 < c) (hlt : c < kMaxSizeClasses) : Bin c := by
  have hall : ∀ c < kMaxSizeClasses, 0 < c → 8 ≤ (getEntry c).blockSize ∧
      (getEntry c).sbSize = kSuperBlockSize ∧ 4 ≤ (getEntry c).blockNum ∧
      (getEntry c).blockNum ≤ 8192 ∧
      (getEntry c).blockNum * (getEntry c).blockSize ≤ kSuperBlockSize ∧
      (getEntry c).cacheBlockNum = (getEntry c).blockNum := by decide
  obtain ⟨h1, h2, h3, h4, h5, h6⟩ := hall c hlt hpos
  exact ⟨hpos, hlt, h1, h2, h3, h4, h5, h6⟩

theorem mem_fillLookup {entries : List SizeClassEntry} {idx sizeIdx c : Nat}
    (h : c ∈ fillLookup entries idx sizeIdx) : idx ≤ c ∧ c < idx + entries.length := by
  induction entries generalizing idx sizeIdx with
  | nil => simp [fillLookup] at h
  | cons entry rest ih =>
      rw [fillLookup, List.mem_append] at h
      rw [List.length_cons]
      rcases h with h | h
      · have heq := List.eq_of_mem_replicate h
        omega
      · have hrest := ih h
        omega

theorem length_fillLookup (entries : List SizeClassEntry) (idx sizeIdx : Nat) :
    sizeIdx + (fillLookup entries idx sizeIdx).length =
      entries.foldl (fun n entry => max n (entry.blockSize + 1)) sizeIdx := by
  induction entries generalizing idx sizeIdx with
  | nil => rfl
  | cons entry rest ih =>
      rw [fillLookup, List.length_append, List.length_replicate, List.foldl_cons,
        ← ih (idx + 1) (max sizeIdx (entry.blockSize + 1))]
      omega

theorem length_sizeClassLookup : sizeClassLookup.length = kMaxSize + 1 := by
  have hlen := length_fillLookup (binRows.map binEntry) 1 0
  rw [Nat.zero_add] at hlen
  exact hlen.trans (by decide)

theorem bin_lookup {size : Nat} (h : size ≤ kMaxSize) : Bin (lookup size) := by
  have hlt : size < sizeClassLookup.length := by
    rw [length_sizeClassLookup]
    omega
  have hmem : lookup size ∈ sizeClassLookup := by
    rw [lookup, List.getD_eq_getElem _ _ hlt]
    exact List.getElem_mem hlt
  obtain ⟨hpos, hlt⟩ := mem_fillLookup hmem
  exact bin_of_lt (by omega) (by simpa [binRows, kMaxSizeClasses_eq] using hlt)

theorem le_blockSize_fillLookup {entries : List SizeClassEntry} {idx sizeIdx i : Nat}
    (h : i < (fillLookup entries idx sizeIdx).length) :
    ∃ k entry, entries[k]? = some entry ∧ (fillLookup entries idx sizeIdx)[i]? = some (idx + k) ∧
      sizeIdx + i ≤ entry.blockSize := by
  induction entries generalizing idx sizeIdx i with
  | nil => simp [fillLookup] at h
  | cons entry rest ih =>
      rw [fillLookup] at h ⊢
      by_cases hfirst : i < entry.blockSize + 1 - sizeIdx
      · refine ⟨0, entry, rfl, ?_, by omega⟩
        rw [List.getElem?_append_left (by simpa using hfirst),
          List.getElem?_replicate_of_lt (by simpa using hfirst)]
        rfl
      · rw [List.length_append, List.length_replicate] at h
        have hlen : (List.replicate (entry.blockSize + 1 - sizeIdx) idx).length ≤ i := by
          rw [List.length_replicate]
          omega
        have hrest : i - (entry.blockSize + 1 - sizeIdx) <
            (fillLookup rest (idx + 1) (max sizeIdx (entry.blockSize + 1))).length := by omega
        obtain ⟨k, found, hk, hvalue, hle⟩ := ih hrest
        refine ⟨k + 1, found, hk, ?_, by omega⟩
        rw [List.getElem?_append_right hlen, List.length_replicate, hvalue]
        congr 1
        omega

theorem le_blockSize_lookup {size : Nat} (h : size ≤ kMaxSize) :
    size ≤ (getEntry (lookup size)).blockSize := by
  obtain ⟨k, entry, hk, hvalue, hle⟩ := le_blockSize_fillLookup
    (show size < (fillLookup (binRows.map binEntry) 1 0).length from length_sizeClassLookup ▸ by omega)
  have hlookup : lookup size = 1 + k := by
    rw [lookup, sizeClassLookup, List.getD_eq_getElem?_getD, hvalue]
    rfl
  have hentry : getEntry (1 + k) = entry := by
    rw [getEntry, sizeClasses, Nat.add_comm, List.getD_cons_succ, List.getD_eq_getElem?_getD, hk]
    rfl
  rw [hlookup, hentry]
  omega

/-- In a table whose blocks grow, the size of a block leads to its own entry. -/
theorem fillLookup_blockSize {entries : List SizeClassEntry} {idx sizeIdx k : Nat}
    {entry : SizeClassEntry} (hsorted : entries.Pairwise fun a b => a.blockSize < b.blockSize)
    (hle : ∀ e ∈ entries, sizeIdx ≤ e.blockSize) (hk : entries[k]? = some entry) :
    (fillLookup entries idx sizeIdx)[entry.blockSize - sizeIdx]? = some (idx + k) := by
  induction entries generalizing idx sizeIdx k with
  | nil => simp at hk
  | cons first rest ih =>
      obtain ⟨hfirst, hrest⟩ := List.pairwise_cons.mp hsorted
      have hstart := hle first (by simp)
      rw [fillLookup]
      cases k with
      | zero =>
          obtain rfl : first = entry := by simpa using hk
          have hlt : first.blockSize - sizeIdx < first.blockSize + 1 - sizeIdx := by omega
          rw [List.getElem?_append_left (by simpa using hlt), List.getElem?_replicate_of_lt hlt]
          rfl
      | succ k =>
          rw [List.getElem?_cons_succ] at hk
          have hlater := hfirst entry (List.mem_of_getElem? hk)
          have hmax : max sizeIdx (first.blockSize + 1) = first.blockSize + 1 := by omega
          have htail := @ih (idx + 1) _ _ hrest (fun e he => hfirst e he) hk
          rw [List.getElem?_append_right (by simp; omega), List.length_replicate, hmax]
          have hindex : entry.blockSize - sizeIdx - (first.blockSize + 1 - sizeIdx) =
              entry.blockSize - (first.blockSize + 1) := by omega
          rw [hindex]
          refine htail.trans ?_
          congr 1
          omega

theorem lookup_blockSize {c : Nat} (h : Bin c) : lookup (getEntry c).blockSize = c := by
  obtain ⟨k, rfl⟩ : ∃ k, c = k + 1 := ⟨c - 1, by have hpos := h.pos; omega⟩
  have hlt : k < (binRows.map binEntry).length := by
    have hlt := h.lt
    rw [kMaxSizeClasses_eq] at hlt
    have hlen : (binRows.map binEntry).length = 39 := rfl
    omega
  have hsorted : (binRows.map binEntry).Pairwise fun a b => a.blockSize < b.blockSize := by decide
  have hentry : (binRows.map binEntry)[k]? = some (getEntry (k + 1)) := by
    rw [getEntry, sizeClasses, List.getD_cons_succ, List.getD_eq_getElem?_getD,
      List.getElem?_eq_getElem hlt, Option.getD_some]
  have hfound := @fillLookup_blockSize _ 1 _ _ _ hsorted (fun _ _ => Nat.zero_le _) hentry
  rw [lookup, sizeClassLookup, List.getD_eq_getElem?_getD]
  rw [Nat.sub_zero] at hfound
  rw [hfound, Option.getD_some, Nat.add_comm]

theorem blockSize_le {c : Nat} (h : Bin c) : (getEntry c).blockSize ≤ kMaxSize := by
  have hall : ∀ c < kMaxSizeClasses, (getEntry c).blockSize ≤ kMaxSize := by decide
  exact hall c h.lt

end SizeClass

/-! ## Thread caches -/

/-- A `TCacheBin`.  Blocks are given by their address. -/
structure TCacheBin where
  block : Option Nat
  blockNum : Nat

namespace TCacheBin

def empty : TCacheBin := ⟨none, 0⟩

def pushList (bin : TCacheBin) (head : Option Nat) (count : Nat) : TCacheBin :=
  { bin with block := head, blockNum := count }

def popList (bin : TCacheBin) (head : Option Nat) (count : Nat) : TCacheBin :=
  { bin with block := head, blockNum := bin.blockNum - count }

end TCacheBin

end Libcrpm
