import Libcrpm.Common

/-!
# Copy with write elimination

`NonTemporalCopyWithWriteElimination` of `internal/common.h`: a vector is written only if it
differs from what is there.  The loop counter is an `int`, and the source leaves undefined what
happens once it overflows.
-/

namespace Libcrpm

abbrev Bytes := Nat → BitVec 8

/-- The vectors of the two builds, with `USE_AVX512` and without. -/
inductive VectorUnit where
  | avx512 | avx2

namespace VectorUnit

def bytes : VectorUnit → Nat
  | avx512 => 64
  | avx2 => 32

/-- The mask of two equal vectors, `UINT8_MAX` or `15`. -/
def allEqual : VectorUnit → Nat
  | avx512 => 255
  | avx2 => 15

theorem bytes_cases (u : VectorUnit) : u.bytes = 64 ∧ u.allEqual = 2 ^ 8 - 1 ∨
    u.bytes = 32 ∧ u.allEqual = 2 ^ 4 - 1 := by
  cases u
  · exact Or.inl ⟨rfl, rfl⟩
  · exact Or.inr ⟨rfl, rfl⟩

end VectorUnit

namespace WriteElimination

def sameWord (mem : Bytes) (a b : Nat) : Bool :=
  (List.range 8).all fun k => mem (a + k) == mem (b + k)

/-- `cmpeq_epi64_mask`: one bit for each 64-bit lane. -/
def cmpeqMask (mem : Bytes) (a b : Nat) : Nat → Nat
  | 0 => 0
  | lanes + 1 => cmpeqMask mem a b lanes +
      if sameWord mem (a + 8 * lanes) (b + 8 * lanes) then 2 ^ lanes else 0

def streamVector (mem : Bytes) (dst src size : Nat) : Bytes :=
  fun a => if dst ≤ a ∧ a < dst + size then mem (src + (a - dst)) else mem a

def intMax : Int := 2147483647

structure CopyState where
  mem : Bytes
  i : Int
  dstAddr : Nat
  srcAddr : Nat

def copyVector (u : VectorUnit) (s : CopyState) : Bytes :=
  if cmpeqMask s.mem s.srcAddr s.dstAddr (u.bytes / 8) ≠ u.allEqual then
    streamVector s.mem s.dstAddr s.srcAddr u.bytes
  else s.mem

/-- A round, and `none` where the counter overflows behind its vector. -/
def copyRound (u : VectorUnit) (s : CopyState) : Option CopyState :=
  if intMax < s.i + u.bytes then none
  else some ⟨copyVector u s, s.i + u.bytes, s.dstAddr + u.bytes, s.srcAddr + u.bytes⟩

/-- How the loop ends, if it does: with the memory it leaves, or in undefined behaviour. -/
inductive CopyResult where
  | done (mem : Bytes)
  | undefined

/-- The loop.  For the comparison the counter is converted to `size_t`. -/
def copyLoop (u : VectorUnit) (len : Nat) : Nat → CopyState → Option CopyResult
  | 0, _ => none
  | fuel + 1, s =>
      if (BitVec.ofInt 64 s.i).toNat < len then
        match copyRound u s with
        | none => some .undefined
        | some s' => copyLoop u len fuel s'
      else some (.done s.mem)

def nonTemporalCopyWithWriteElimination (u : VectorUnit) (fuel : Nat) (mem : Bytes)
    (dst src len : Nat) : Option CopyResult :=
  copyLoop u len fuel ⟨mem, 0, dst, src⟩

/-! ## One round -/

theorem cmpeqMask_lt (mem : Bytes) (a b lanes : Nat) : cmpeqMask mem a b lanes < 2 ^ lanes := by
  induction lanes with
  | zero => simp [cmpeqMask]
  | succ lanes ih =>
      rw [cmpeqMask, Nat.pow_succ]
      split <;> omega

/-- The mask is full exactly if all bytes are equal. -/
theorem cmpeqMask_full {mem : Bytes} {a b lanes : Nat} :
    cmpeqMask mem a b lanes = 2 ^ lanes - 1 ↔ ∀ k < 8 * lanes, mem (a + k) = mem (b + k) := by
  induction lanes with
  | zero => simp [cmpeqMask]
  | succ lanes ih =>
      have hlt := cmpeqMask_lt mem a b lanes
      have hpos : 0 < 2 ^ lanes := Nat.two_pow_pos lanes
      rw [cmpeqMask, Nat.pow_succ]
      split
      · rename_i hsame
        simp only [sameWord, List.all_eq_true, List.mem_range, beq_iff_eq] at hsame
        constructor
        · intro hfull k hk
          by_cases hlow : k < 8 * lanes
          · exact ih.mp (by omega) k hlow
          · have hlane := hsame (k - 8 * lanes) (by omega)
            have hk' : 8 * lanes + (k - 8 * lanes) = k := by omega
            rwa [Nat.add_assoc, Nat.add_assoc, hk'] at hlane
        · intro hall
          have hlow := ih.mpr fun k hk => hall k (by omega)
          omega
      · rename_i hdiffer
        refine iff_of_false (by omega) fun hall => hdiffer ?_
        simp only [sameWord, List.all_eq_true, List.mem_range, beq_iff_eq]
        intro k hk
        have hlane := hall (8 * lanes + k) (by omega)
        rwa [← Nat.add_assoc, ← Nat.add_assoc] at hlane

/-- The first `n` bytes of the destination are those of the source, and nothing else changed. -/
structure Copied (mem mem' : Bytes) (dst src n : Nat) : Prop where
  copied : ∀ k < n, mem' (dst + k) = mem (src + k)
  frame : ∀ a, ¬ (dst ≤ a ∧ a < dst + n) → mem' a = mem a

def Disjoint (dst src len : Nat) : Prop := dst + len ≤ src ∨ src + len ≤ dst

theorem copyVector_copied (u : VectorUnit) (s : CopyState) :
    Copied s.mem (copyVector u s) s.dstAddr s.srcAddr u.bytes := by
  rw [copyVector]
  split
  · refine ⟨fun k hk => ?_, fun a ha => if_neg ha⟩
    rw [streamVector, if_pos (by omega), Nat.add_sub_cancel_left]
  · rename_i hequal
    have hlanes : u.allEqual = 2 ^ (u.bytes / 8) - 1 ∧ 8 * (u.bytes / 8) = u.bytes := by
      rcases u.bytes_cases with ⟨hbytes, hmask⟩ | ⟨hbytes, hmask⟩
      · rw [hbytes, hmask]
        exact ⟨rfl, rfl⟩
      · rw [hbytes, hmask]
        exact ⟨rfl, rfl⟩
    rw [not_not, hlanes.1, cmpeqMask_full, hlanes.2] at hequal
    exact ⟨fun k hk => (hequal k hk).symm, fun _ _ => rfl⟩

theorem Copied.extend {mem mem₁ mem₂ : Bytes} {dst src len n size : Nat}
    (h : Copied mem mem₁ dst src n) (hnext : Copied mem₁ mem₂ (dst + n) (src + n) size)
    (hdisjoint : Disjoint dst src len) (hlen : n + size ≤ len) :
    Copied mem mem₂ dst src (n + size) := by
  refine ⟨fun k hk => ?_, fun a ha => ?_⟩
  · by_cases hold : k < n
    · rw [hnext.frame _ (by omega), h.copied k hold]
    · have hnew := hnext.copied (k - n) (by omega)
      have hk' : n + (k - n) = k := by omega
      rw [Nat.add_assoc, Nat.add_assoc, hk'] at hnew
      rw [hnew]
      unfold Disjoint at hdisjoint
      exact h.frame _ (by omega)
  · rw [hnext.frame a (by omega), h.frame a (by omega)]

/-- The state after the first `n` bytes. -/
structure CopyInv (u : VectorUnit) (mem : Bytes) (dst src len n : Nat) (s : CopyState) : Prop where
  mem : Copied mem s.mem dst src n
  counter : s.i = n
  dstAddr : s.dstAddr = dst + n
  srcAddr : s.srcAddr = src + n
  dvd : u.bytes ∣ n
  le : n ≤ len
  range : n < 2 ^ 31

variable {u : VectorUnit} {mem : Bytes} {dst src len n : Nat} {s : CopyState}

theorem CopyInv.start (u : VectorUnit) (mem : Bytes) (dst src len : Nat) :
    CopyInv u mem dst src len 0 ⟨mem, 0, dst, src⟩ where
  mem := ⟨fun _ hk => absurd hk (Nat.not_lt_zero _), fun _ _ => rfl⟩
  counter := rfl
  dstAddr := rfl
  srcAddr := rfl
  dvd := ⟨0, rfl⟩
  le := Nat.zero_le _
  range := by decide

theorem CopyInv.counter_toNat (h : CopyInv u mem dst src len n s) :
    (BitVec.ofInt 64 s.i).toNat = n := by
  have hrange := h.range
  rw [h.counter, BitVec.ofInt_natCast, BitVec.toNat_ofNat, Nat.mod_eq_of_lt (by omega)]

theorem CopyInv.vector_le (h : CopyInv u mem dst src len n s) {limit : Nat} (hlimit : 64 ∣ limit)
    (hlt : n < limit) : n + u.bytes ≤ limit := by
  obtain ⟨k, hk⟩ := h.dvd
  obtain ⟨m, hm⟩ := hlimit
  rcases u.bytes_cases with ⟨hbytes, -⟩ | ⟨hbytes, -⟩
  · rw [hbytes] at hk ⊢
    omega
  · rw [hbytes] at hk ⊢
    omega

theorem CopyInv.round (h : CopyInv u mem dst src len n s) (hdisjoint : Disjoint dst src len)
    (hlen : 64 ∣ len) (hlt : n < len) :
    n + u.bytes = 2 ^ 31 ∧ copyRound u s = none ∨
      ∃ s', copyRound u s = some s' ∧ CopyInv u mem dst src len (n + u.bytes) s' := by
  have hfits := h.vector_le hlen hlt
  have hrange := h.vector_le (show 64 ∣ 2 ^ 31 by decide) h.range
  have hcounter := h.counter
  rcases Nat.lt_or_eq_of_le hrange with hin | hout
  · refine Or.inr ⟨_, if_neg ?_, ?_⟩
    · rw [intMax]
      omega
    have hvector := copyVector_copied u s
    rw [h.dstAddr, h.srcAddr] at hvector
    exact {
      mem := h.mem.extend hvector hdisjoint hfits
      counter := by simp only; omega
      dstAddr := by simp only [h.dstAddr, Nat.add_assoc]
      srcAddr := by simp only [h.srcAddr, Nat.add_assoc]
      dvd := Nat.dvd_add h.dvd (Nat.dvd_refl _)
      le := hfits
      range := hin }
  · refine Or.inl ⟨hout, if_pos ?_⟩
    rw [intMax]
    omega

/-! ## The loop -/

/-- The loop ends: behind the buffer if that is smaller than 2 GiB, and otherwise with an
overflow. -/
theorem CopyInv.ends (h : CopyInv u mem dst src len n s) (hdisjoint : Disjoint dst src len)
    (hlen : 64 ∣ len) : ∃ fuel result, copyLoop u len fuel s = some result ∧
      (len < 2 ^ 31 ∧ (∃ mem', result = .done mem' ∧ Copied mem mem' dst src len) ∨
        2 ^ 31 ≤ len ∧ result = .undefined) := by
  have hpos : 0 < u.bytes := by rcases u.bytes_cases with ⟨hbytes, -⟩ | ⟨hbytes, -⟩ <;> omega
  obtain ⟨rest, hrest⟩ : ∃ rest, len - n ≤ rest := ⟨_, Nat.le_refl _⟩
  induction rest generalizing n s with
  | zero =>
      have hend : n = len := Nat.le_antisymm h.le (by omega)
      refine ⟨1, .done s.mem, ?_, Or.inl ⟨hend ▸ h.range, s.mem, rfl, hend ▸ h.mem⟩⟩
      rw [copyLoop, h.counter_toNat, if_neg (by omega)]
  | succ rest ih =>
      by_cases hend : n = len
      · exact ih h (by omega)
      have hlt : n < len := Nat.lt_of_le_of_ne h.le hend
      rcases h.round hdisjoint hlen hlt with ⟨hout, hround⟩ | ⟨s', hround, hnext⟩
      · have hfits := h.vector_le hlen hlt
        refine ⟨1, .undefined, ?_, Or.inr ⟨by omega, rfl⟩⟩
        rw [copyLoop, h.counter_toNat, if_pos hlt, hround]
      · obtain ⟨fuel, result, hrun, hresult⟩ := ih hnext (by omega)
        refine ⟨fuel + 1, result, ?_, hresult⟩
        rw [copyLoop, h.counter_toNat, if_pos hlt, hround]
        exact hrun

theorem copyLoop_mono {fuel fuel' : Nat} {result : CopyResult} (hle : fuel ≤ fuel')
    (hrun : copyLoop u len fuel s = some result) : copyLoop u len fuel' s = some result := by
  induction fuel generalizing s fuel' with
  | zero => cases hrun
  | succ fuel ih =>
      obtain ⟨more, rfl⟩ : ∃ more, fuel' = more + 1 := ⟨fuel' - 1, by omega⟩
      rw [copyLoop] at hrun ⊢
      split
      · rename_i hlt
        rw [if_pos hlt] at hrun
        cases hround : copyRound u s with
        | none =>
            rw [hround] at hrun
            exact hrun
        | some s' =>
            rw [hround] at hrun
            exact ih (by omega) hrun
      · rename_i hdone
        rwa [if_neg hdone] at hrun

theorem copyLoop_unique {fuel fuel' : Nat} {result result' : CopyResult}
    (hrun : copyLoop u len fuel s = some result) (hrun' : copyLoop u len fuel' s = some result') :
    result = result' := by
  have hmax := copyLoop_mono (Nat.le_max_left fuel fuel') hrun
  have hmax' := copyLoop_mono (Nat.le_max_right fuel fuel') hrun'
  exact Option.some.inj (hmax.symm.trans hmax')

/-- The copy is complete, and its counter stays in range, exactly for less than 2 GiB. -/
theorem copy_complete_iff (u : VectorUnit) (mem : Bytes) {dst src len : Nat} (hlen : 64 ∣ len)
    (hdisjoint : Disjoint dst src len) :
    (∃ fuel mem', nonTemporalCopyWithWriteElimination u fuel mem dst src len =
      some (.done mem') ∧ Copied mem mem' dst src len) ↔ len < 2 ^ 31 := by
  obtain ⟨fuel, result, hrun, hresult⟩ := (CopyInv.start u mem dst src len).ends hdisjoint hlen
  constructor
  · rintro ⟨fuel', mem', hrun', -⟩
    obtain rfl := copyLoop_unique hrun' hrun
    rcases hresult with ⟨hlt, -⟩ | ⟨-, hundefined⟩
    · exact hlt
    · cases hundefined
  · intro hlt
    rcases hresult with ⟨-, mem', rfl, hcopied⟩ | ⟨hlarge, -⟩
    · exact ⟨fuel, mem', hrun, hcopied⟩
    · omega

theorem copy_complete_iff_segment : ∃ fuel mem',
    nonTemporalCopyWithWriteElimination .avx512 fuel (fun a => BitVec.ofNat 8 a) 0 kSegmentSize
      kSegmentSize = some (.done mem') ∧
    Copied (fun a => BitVec.ofNat 8 a) mem' 0 kSegmentSize kSegmentSize :=
  (copy_complete_iff .avx512 _ (by decide) (Or.inl (by decide))).mpr (by decide)

/-- A region of 4 GiB: its copy has zeros and it has ones. -/
def halves : Bytes := fun a => if a < 2 ^ 32 then 0#8 else 1#8

/-- The counter overflows, and nothing is promised of the copy. -/
theorem not_copy_complete :
    (∃ fuel, nonTemporalCopyWithWriteElimination .avx512 fuel halves 0 (2 ^ 32) (2 ^ 32) =
      some .undefined) ∧
    ¬ ∃ fuel mem', nonTemporalCopyWithWriteElimination .avx512 fuel halves 0 (2 ^ 32) (2 ^ 32) =
      some (.done mem') := by
  obtain ⟨fuel, result, hrun, ⟨hlt, -⟩ | ⟨-, rfl⟩⟩ :=
    (CopyInv.start .avx512 halves 0 (2 ^ 32) (2 ^ 32)).ends (Or.inl (by decide)) (by decide)
  · exact absurd hlt (by decide)
  · refine ⟨⟨fuel, hrun⟩, ?_⟩
    rintro ⟨fuel', mem', hrun'⟩
    cases copyLoop_unique hrun' hrun

end WriteElimination

end Libcrpm
