import Libcrpm.Checkpoint

/-!
# The main and the back copy of a pool

`MetadataV1` of `metadata.h` and `metadata.cpp`: two copies of the whole pool and a
flag that names the one recovery has to believe.  The engines that track dirty pages
share it.
-/

namespace Libcrpm

open Libcrpm.Persistence Libcrpm.Program

def kRegionShift : Nat := 12
def kRegionSize : Nat := 1 <<< kRegionShift
def kMaxFlushRegions : Nat := (32 <<< 20) >>> kRegionShift
def kWordsPerRegion : Nat := kRegionSize / kWordSize

theorem kRegionSize_eq : kRegionSize = 4096 := rfl
theorem kMaxFlushRegions_eq : kMaxFlushRegions = 8192 := rfl
theorem kWordsPerRegion_eq : kWordsPerRegion = 512 := rfl

/-- `kMainData` and `kBackData`. -/
inductive ConsistentData where
  | main | back
deriving DecidableEq, Repr

namespace MetadataV1

/-- The locations of the mapped file that change after its creation.  A data word is
named by its copy and its offset in the copy. -/
inductive Loc where
  | attributes
  | consistentData
  | data (area : Area) (o : Nat)
deriving DecidableEq, Repr

@[reducible] def Val : Loc → Type
  | .attributes => Nat
  | .consistentData => ConsistentData
  | .data _ _ => Word

abbrev Nvm := Memory Loc Val
abbrev PoolImage := Image Loc Val

end MetadataV1

/-- `MetadataV1` with two copies of `capacity` bytes. -/
structure MetadataV1 where
  capacity : Nat
  mem : MetadataV1.Nvm

namespace MetadataV1

def onMem (f : Nvm → Nvm) (t : MetadataV1) : MetadataV1 := { t with mem := f t.mem }

@[simp] theorem mem_onMem (f : Nvm → Nvm) (t : MetadataV1) : (onMem f t).mem = f t.mem := rfl

@[simp] theorem capacity_onMem (f : Nvm → Nvm) (t : MetadataV1) :
    (onMem f t).capacity = t.capacity := rfl

/-! ## Copies -/

/-- The selected words of `src`, to be stored at the same offsets of `dst`. -/
def copied (m : Nvm) (dst src : Area) (sel : Nat → Bool) : (l : Loc) → Option (Val l)
  | .data a o => if a = dst ∧ sel o then some (m.load (.data src o)) else none
  | _ => none

/-- A copy with non-temporal stores.  Nothing orders them, so that the crashes in the
middle of the copy are among those after it. -/
def ntCopy (m : Nvm) (dst src : Area) (sel : Nat → Bool) : Nvm := m.ntStoreAll (copied m dst src sel)

/-- The bytes a copy loop over `len` bytes reaches before its index, an `int`, overflows at 2 GiB.
What comes after that is undefined, and no result here is about it. -/
def reachedBytes (len : Nat) : Nat := min len (2 ^ 31)

/-- The cache line of word `o` differs in the two copies. -/
def lineDiffers (m : Nvm) (dst src : Area) (o : Nat) : Bool :=
  (List.range kWordsPerCacheLine).any fun k =>
    let w := o / kWordsPerCacheLine * kWordsPerCacheLine + k
    (m.load (.data dst w) : Word) != m.load (.data src w)

def cacheLineDiffers (x y : Nat → Word) (o : Nat) : Bool :=
  (List.range kWordsPerCacheLine).any fun k =>
    let w := o / kWordsPerCacheLine * kWordsPerCacheLine + k
    x w != y w

/-- `NonTemporalCopyWithWriteElimination`: cache lines that already agree are skipped. -/
def nonTemporalCopyWithWriteElimination (m : Nvm) (dst src : Area) (len : Nat) : Nvm :=
  ntCopy m dst src fun o => o * kWordSize < reachedBytes len && lineDiffers m dst src o

/-! ## The header -/

def consistentData (t : MetadataV1) : ConsistentData := t.mem.load .consistentData

def attributes (t : MetadataV1) : Nat := t.mem.load .attributes

def setConsistentData (flag : ConsistentData) : Prog MetadataV1 Unit := do
  Prog.act (onMem fun m => m.ntStore .consistentData flag)
  Prog.act (onMem Memory.fence)

def setAttributes (value : Nat) : Prog MetadataV1 Unit := do
  Prog.act (onMem fun m => m.ntStore .attributes value)
  Prog.act (onMem Memory.fence)

def recoverData : Prog MetadataV1 Unit := do
  let flag ← Prog.read consistentData
  let len ← Prog.read capacity
  if flag = .main then
    Prog.act (onMem fun m => nonTemporalCopyWithWriteElimination m .back .main len)
    setConsistentData .back
  else
    Prog.act (onMem fun m => nonTemporalCopyWithWriteElimination m .main .back len)

/-- `Open` with `create`, on a file of zeros. -/
def create (capacity : Nat) : MetadataV1 where
  capacity := capacity
  mem := Memory.ofImage fun l => match l with
    | .attributes => 0
    | .consistentData => .back
    | .data _ _ => 0#64

/-- `Open` of an existing file. -/
def mount (capacity : Nat) (img : PoolImage) : MetadataV1 := ⟨capacity, Memory.ofImage img⟩

/-! ## What the copies hold -/

def nrWords (t : MetadataV1) : Nat := t.capacity / kWordSize

abbrev Data := Nat → Word

def load (t : MetadataV1) (area : Area) : Data := fun o => t.mem.load (.data area o)

def Intact (k : Nat) (area : Area) (X : Data) (m : Nvm) : Prop :=
  ∀ o < k, (m (.data area o)).Only (X o)

def areaOf : ConsistentData → Area
  | .main => .main
  | .back => .back

def Holds (k : Nat) (X : Data) (img : PoolImage) : Prop :=
  ∀ o < k, img (.data (areaOf (img .consistentData)) o) = X o

/-- The stores of a copy of `X` into one area. -/
def into (area : Area) (X : Data) : (l : Loc) → Option (Val l)
  | .data a o => if a = area then some (X o) else none
  | _ => none

section Into

variable {area : Area} {X Y : Data} {k : Nat} {m m' : Nvm}

@[simp] theorem into_attributes : into area X .attributes = none := rfl
@[simp] theorem into_consistentData : into area X .consistentData = none := rfl
@[simp] theorem into_self (o : Nat) : into area X (.data area o) = some (X o) := by simp [into]

theorem into_of_ne {a : Area} (h : a ≠ area) (o : Nat) : into area X (.data a o) = none := by
  simp [into, h]

theorem Intact.load_eq (h : Intact k area X m) {o : Nat} (ho : o < k) :
    m.load (.data area o) = X o :=
  (h o ho).cur_eq

theorem Intact.image (h : Intact k area X m) {img : PoolImage} (hc : m.CrashTo img) {o : Nat}
    (ho : o < k) : img (.data area o) = X o :=
  h o ho _ (hc _)

theorem Intact.drains (h : Intact k area X m) (hd : m.Drains m') : Intact k area X m' :=
  fun o ho => (hd _).only (h o ho)

/-- A copy survives when nothing else than its own content is stored in it. -/
theorem Intact.fills (h : Intact k area X m) {a : Area} (hd : Memory.Fills (into a Y) m m')
    (hsame : a = area → ∀ o < k, Y o = X o) : Intact k area X m' := by
  refine fun o ho => hd.only (fun w hw => ?_) (h o ho)
  by_cases ha : area = a
  · subst ha
    rw [into_self] at hw
    exact (Option.some.inj hw).symm.trans (hsame rfl o ho)
  · rw [into_of_ne ha] at hw
    cases hw

theorem Intact.ntStore (h : Intact k area X m) {l : Loc} (hl : ∀ o, l ≠ .data area o) (v : Val l) :
    Intact k area X (m.ntStore l v) := by
  intro o ho
  rw [Memory.ntStore_of_ne m v (hl o).symm]
  exact h o ho

theorem intact_of_queued (h : ∀ o < k, Memory.Queued m (.data area o) (X o)) :
    Intact k area X m.fence :=
  fun o ho => (h o ho).fence

theorem intact_ofImage {img : PoolImage} (h : ∀ o < k, img (.data area o) = X o) :
    Intact k area X (Memory.ofImage img) := by
  intro o ho w hw
  have hval : w = img (.data area o) := Cell.may_durable.mp hw
  exact hval.trans (h o ho)

theorem copied_into {m : Nvm} {dst src : Area} {sel : Nat → Bool}
    (hsrc : ∀ o, sel o = true → m.load (.data src o) = X o) (l : Loc) (v : Val l)
    (h : copied m dst src sel l = some v) : into dst X l = some v := by
  cases l with
  | attributes => cases h
  | consistentData => cases h
  | data a o =>
      simp only [copied] at h
      split at h
      · rename_i hsel
        rw [hsel.1, into_self, ← hsrc o hsel.2]
        exact h
      · cases h

theorem fills_ntCopy {m : Nvm} {dst src : Area} {sel : Nat → Bool}
    (hsrc : ∀ o, sel o = true → m.load (.data src o) = X o) :
    Memory.Fills (into dst X) m (ntCopy m dst src sel) :=
  Memory.fills_ntStoreAll (copied_into hsrc) m

theorem queued_ntCopy (m : Nvm) {dst src : Area} {sel : Nat → Bool} {o : Nat}
    (ho : sel o = true) :
    Memory.Queued (ntCopy m dst src sel) (.data dst o) (m.load (.data src o)) :=
  Memory.queued_ntStoreAll m (by simp [copied, ho])

theorem eq_of_cacheLineDiffers {x y : Data} {o : Nat} (h : cacheLineDiffers x y o = false) :
    x o = y o := by
  have hmod : o % kWordsPerCacheLine < kWordsPerCacheLine := Nat.mod_lt _ (by decide)
  have hall := (List.any_eq_false.mp h) (o % kWordsPerCacheLine) (List.mem_range.mpr hmod)
  have hword : o / kWordsPerCacheLine * kWordsPerCacheLine + o % kWordsPerCacheLine = o := by
    rw [Nat.mul_comm]
    exact Nat.div_add_mod o kWordsPerCacheLine
  simp only [bne_iff_ne, ne_eq, Decidable.not_not] at hall
  rwa [hword] at hall

theorem queued_writeElimination {m : Nvm} {dst src : Area} {len o : Nat}
    (ho : o * kWordSize < reachedBytes len) (hdst : (m (.data dst o)).Pending) :
    Memory.Queued (nonTemporalCopyWithWriteElimination m dst src len) (.data dst o)
      (m.load (.data src o)) := by
  cases hline : lineDiffers m dst src o with
  | true => exact queued_ntCopy m (by simp [ho, hline])
  | false =>
      have hskip : nonTemporalCopyWithWriteElimination m dst src len (.data dst o) =
          m (.data dst o) :=
        Memory.ntStoreAll_none m (by simp [copied, hline])
      have hequal : cacheLineDiffers (fun w => m.load (.data dst w)) (fun w => m.load (.data src w)) o =
          false := hline
      rw [Memory.Queued, hskip]
      exact ⟨hdst, eq_of_cacheLineDiffers hequal⟩

end Into

/-! ## Recovery -/

def Flagged (flag : ConsistentData) (m : Nvm) : Prop := (m .consistentData).Only flag

section Recovery

variable {flag : ConsistentData} {m m' : Nvm} {X : Data} {t : MetadataV1}

theorem Flagged.eq (h : Flagged flag m) : m.load .consistentData = flag := h.cur_eq

theorem Flagged.drains (h : Flagged flag m) (hd : m.Drains m') : Flagged flag m' := (hd _).only h

theorem Flagged.fills (h : Flagged flag m) {area : Area} {Y : Data}
    (hd : Memory.Fills (into area Y) m m') : Flagged flag m' :=
  hd.only (fun _ hw => by cases hw) h

theorem flagged_set (flag : ConsistentData) (m : Nvm) :
    Flagged flag (m.ntStore .consistentData flag).fence := by
  have hcell : (m.ntStore .consistentData flag).fence .consistentData =
      ((m .consistentData).ntStore flag).fence :=
    congrArg Cell.fence (Memory.ntStore_self m Loc.consistentData flag)
  rw [Flagged, hcell]
  exact (Cell.pending_ntStore _ flag).settled_fence.only

/-- The flag is durable and the copy it names holds `X`. -/
structure Named (k : Nat) (flag : ConsistentData) (X : Data) (m : Nvm) : Prop where
  flagged : Flagged flag m
  intact : Intact k (areaOf flag) X m

theorem Named.drains {k : Nat} (h : Named k flag X m) (hd : m.Drains m') : Named k flag X m' :=
  ⟨h.flagged.drains hd, h.intact.drains hd⟩

/-- Each copy holds the data of a checkpoint. -/
structure Paired (k : Nat) (X Y : Data) (m : Nvm) : Prop where
  back : Intact k .back X m
  main : Intact k .main Y m

theorem Paired.drains {k : Nat} {Y : Data} (h : Paired k X Y m) (hd : m.Drains m') :
    Paired k X Y m' :=
  ⟨h.back.drains hd, h.main.drains hd⟩

theorem Paired.ntStore {k : Nat} {Y : Data} (h : Paired k X Y m) {l : Loc}
    (hl : ∀ a o, l ≠ .data a o) (v : Val l) : Paired k X Y (m.ntStore l v) :=
  ⟨h.back.ntStore (hl .back) v, h.main.ntStore (hl .main) v⟩

theorem Paired.named_back {k : Nat} {Y : Data} (h : Paired k X Y m) (hf : Flagged .back m) :
    Named k .back X m :=
  ⟨hf, h.back⟩

theorem Paired.named_main {k : Nat} {Y : Data} (h : Paired k X Y m) (hf : Flagged .main m) :
    Named k .main Y m :=
  ⟨hf, h.main⟩

theorem mul_kWordSize_lt {o : Nat} (ho : o < t.nrWords) : o * kWordSize < t.capacity := by
  rw [nrWords] at ho
  simp only [kWordSize] at ho ⊢
  omega

theorem reached {o : Nat} (hlen : t.capacity < 2 ^ 31) (ho : o < t.nrWords) :
    o * kWordSize < reachedBytes t.capacity := by
  have hlt := mul_kWordSize_lt ho
  rw [reachedBytes]
  omega

theorem wp_recoverData_main {P : Prop} (hflag : t.consistentData = .main)
    (hX : Intact t.nrWords .main X t.mem) (hback : ∀ o, (t.mem (.data .back o)).Pending)
    (hlen : P → t.capacity < 2 ^ 31) :
    Prog.wp (fun v => v.capacity = t.capacity ∧ Intact t.nrWords .main X v.mem) recoverData
      (fun _ v => v.capacity = t.capacity ∧ Flagged .back v.mem ∧ Intact t.nrWords .main X v.mem ∧
        (P → Intact t.nrWords .back X v.mem)) t := by
  let m₁ := nonTemporalCopyWithWriteElimination t.mem .back .main t.capacity
  have hfill : Memory.Fills (into .back (fun o => t.mem.load (.data .main o))) t.mem m₁ :=
    fills_ntCopy fun _ _ => rfl
  have hmain : Intact t.nrWords .main X m₁ := hX.fills hfill (by simp)
  have hmain₂ : Intact t.nrWords .main X (m₁.ntStore .consistentData .back) :=
    hmain.ntStore (fun _ => by simp) _
  have hback₁ : P → Intact t.nrWords .back X (m₁.ntStore .consistentData .back).fence := by
    intro hp
    apply intact_of_queued
    intro o ho
    rw [Memory.Queued, Memory.ntStore_of_ne m₁ _ (by simp)]
    have hq : Memory.Queued m₁ (.data .back o) (t.mem.load (.data .main o)) :=
      queued_writeElimination (reached (hlen hp) ho) (hback o)
    rwa [hX.load_eq ho] at hq
  rw [recoverData, Prog.wp_bind, Prog.wp_read]
  refine ⟨⟨rfl, hX⟩, Prog.wp_bind.mpr (Prog.wp_read.mpr ⟨⟨rfl, hX⟩, ?_⟩)⟩
  rw [if_pos hflag, Prog.wp_bind, Prog.wp_act]
  refine ⟨⟨rfl, hmain⟩, ?_⟩
  rw [setConsistentData, Prog.wp_bind, Prog.wp_act, Prog.wp_act]
  have hfenced := hmain₂.drains (Memory.drains_fence _)
  exact ⟨⟨rfl, hmain₂⟩, ⟨rfl, hfenced⟩, rfl, flagged_set .back m₁, hfenced, hback₁⟩

theorem wp_recoverData_back {P : Prop} (hflag : Flagged .back t.mem)
    (hX : Intact t.nrWords .back X t.mem) (hmain : ∀ o, (t.mem (.data .main o)).Pending)
    (hlen : P → t.capacity < 2 ^ 31) :
    Prog.wp (fun v => v.capacity = t.capacity ∧ Flagged .back v.mem ∧
        Intact t.nrWords .back X v.mem) recoverData
      (fun _ v => v.capacity = t.capacity ∧ Flagged .back v.mem ∧ Intact t.nrWords .back X v.mem ∧
        (P → ∀ o < t.nrWords, Memory.Queued v.mem (.data .main o) (X o))) t := by
  have hfill : Memory.Fills (into .main (fun o => t.mem.load (.data .back o))) t.mem
      (nonTemporalCopyWithWriteElimination t.mem .main .back t.capacity) :=
    fills_ntCopy fun _ _ => rfl
  have hne : t.consistentData ≠ .main := by
    rw [show t.consistentData = .back from hflag.eq]
    decide
  rw [recoverData, Prog.wp_bind, Prog.wp_read]
  refine ⟨⟨rfl, hflag, hX⟩, Prog.wp_bind.mpr (Prog.wp_read.mpr ⟨⟨rfl, hflag, hX⟩, ?_⟩)⟩
  rw [if_neg hne, Prog.wp_act]
  have hflag' := hflag.fills hfill
  have hX' := hX.fills hfill (by simp)
  refine ⟨⟨rfl, hflag', hX'⟩, rfl, hflag', hX', fun hp o ho => ?_⟩
  have hq : Memory.Queued (nonTemporalCopyWithWriteElimination t.mem .main .back t.capacity)
      (.data .main o) (t.mem.load (.data .back o)) :=
    queued_writeElimination (reached (hlen hp) ho) (hmain o)
  rwa [hX.load_eq ho] at hq

end Recovery

end MetadataV1

/-! ## Pools of whole pages -/

def poolWords (n : Nat) : Nat := n * kWordsPerRegion

theorem nrWords_metadata {n : Nat} {m : MetadataV1} (h : m.capacity = n * kRegionSize) :
    m.nrWords = poolWords n := by
  rw [MetadataV1.nrWords, h, poolWords, kRegionSize_eq, kWordsPerRegion_eq, kWordSize]
  omega

def mounted (n : Nat) (img : MetadataV1.PoolImage) : MetadataV1 := MetadataV1.mount (n * kRegionSize) img

namespace MetadataV1

/-- What recovery establishes if all of the pool is copied. -/
structure Recovered (n : Nat) (X : Data) (m : MetadataV1) : Prop where
  capacity : m.capacity = n * kRegionSize
  flagged : Flagged .back m.mem
  back : Intact (poolWords n) .back X m.mem
  main : ∀ o < poolWords n, Memory.Secured m.mem (.data .main o) (X o)

/-- Recovery from the copy that a durable flag names. -/
theorem wp_recoverData_named {n : Nat} {X : Data} {flag : ConsistentData} {t : MetadataV1}
    (hcap : t.capacity = n * kRegionSize) (hlen : n * kRegionSize < 2 ^ 31)
    (hnamed : Named (poolWords n) flag X t.mem)
    (hpending : ∀ area o, (t.mem (.data area o)).Pending) :
    Prog.wp (fun v => Intact (poolWords n) (areaOf flag) X v.mem ∧
        (flag = .back → Flagged .back v.mem)) recoverData
      (fun _ v => Recovered n X v ∧ Intact (poolWords n) (areaOf flag) X v.mem) t := by
  have hwords := nrWords_metadata hcap
  have hlen' : True → t.capacity < 2 ^ 31 := fun _ => hcap.symm ▸ hlen
  obtain ⟨hflag, hX⟩ := hnamed
  cases flag with
  | main =>
      have hwp := wp_recoverData_main (P := True) (X := X) hflag.eq (hwords.symm ▸ hX)
        (hpending .back) hlen'
      rw [hwords] at hwp
      refine Prog.wp_mono (Prog.wp_weaken (fun v hv => ⟨hv.2, fun heq => by cases heq⟩) hwp)
        fun _ v hv => ⟨⟨hv.1.trans hcap, hv.2.1, hv.2.2.2 trivial, fun o ho => ?_⟩, hv.2.2.1⟩
      exact Or.inr (hv.2.2.1 o ho)
  | back =>
      have hwp := wp_recoverData_back (P := True) hflag (hwords.symm ▸ hX) (hpending .main) hlen'
      rw [hwords] at hwp
      refine Prog.wp_mono (Prog.wp_weaken (fun v hv => ⟨hv.2.2, fun _ => hv.2.1⟩) hwp)
        fun _ v hv => ⟨⟨hv.1.trans hcap, hv.2.1, hv.2.2.1, fun o ho => ?_⟩, hv.2.2.1⟩
      exact Or.inl (hv.2.2.2 trivial o ho)

theorem named_mounted {n : Nat} {X : Data} {img : PoolImage} (h : Holds (poolWords n) X img) :
    Named (poolWords n) (img .consistentData) X (mounted n img).mem :=
  ⟨fun _ hw => Cell.may_durable.mp hw, intact_ofImage h⟩

theorem total_recoverData : recoverData.Total := by
  refine Prog.total_bind (Prog.total_read _) fun flag => ?_
  refine Prog.total_bind (Prog.total_read _) fun len => ?_
  split
  · exact Prog.total_bind (Prog.total_act _) fun _ =>
      Prog.total_bind (Prog.total_act _) fun _ => Prog.total_act _
  · exact Prog.total_act _

end MetadataV1

end Libcrpm
