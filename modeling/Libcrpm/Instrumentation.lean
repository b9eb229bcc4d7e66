import Libcrpm.HookCoverage
import Libcrpm.Optimization

/-!
# From an instruction to its hook

`FunctionContext::findMemoryStore` and `transform` of the instrumentation pass, and what the
calls they insert do to a pool of the NVM engine.
-/

namespace Libcrpm

open Libcrpm.Program NvmInst

/-- The functions in `ExternalFuncs`. -/
inductive ExternalFunc where
  | read | fread | mpiRecv | mpiIrecv
deriving DecidableEq

namespace ExternalFunc

/-- The argument that points to what the call writes. -/
def argument : ExternalFunc → Nat
  | .read => 1
  | .fread | .mpiRecv | .mpiIrecv => 0

end ExternalFunc

/-- An instruction with operands of type `V`; `width` counts the bytes of the value that is
stored. -/
inductive Instruction (V : Type) where
  | store (pointer : V) (width : Nat)
  | atomicCmpXchg (pointer : V) (width : Nat)
  | atomicRmw (pointer : V) (width : Nat)
  | memIntrinsic (dest length : V)
  | call (callee : Option ExternalFunc) (args : List V)
  | other

namespace Instruction

variable {V : Type}

def getStorePointer : Instruction V → Option V
  | .store pointer _ | .atomicCmpXchg pointer _ | .atomicRmw pointer _ => some pointer
  | _ => none

def width : Instruction V → Nat
  | .store _ width | .atomicCmpXchg _ width | .atomicRmw _ width => width
  | _ => 0

end Instruction

structure FunctionBody (B V : Type) where
  blocks : List B
  body : B → List (Instruction V)
  nodup : blocks.Nodup

/-- The length that a range hook is called with. -/
inductive Length (V : Type) where
  | value (length : V)
  | mul (lhs rhs : V)
  | mulTypeSize (count dataType : V)

/-- A call that `transform` inserts. -/
inductive RtCall (V : Type) where
  | store (pointer : V)
  | rangeStore (pointer : V) (length : Length V)

/-- `MemoryStore`, `MemoryBulkStore` and `ProtectedExternalCalls` of a function. -/
structure Hooks (B V : Type) where
  memoryStore : List (FunctionContext.MemoryStoreHook B V)
  memoryBulkStore : List (Inst B × V × V)
  protectedExternalCalls : List (V × Inst B × ExternalFunc × List V)

namespace FunctionBody

variable {B V : Type} (f : FunctionBody B V)

/-- The hooks of one block from its instruction number `pos` on; `new` names them. -/
def storesFrom (new : Inst B → Nat) (b : B) :
    Nat → List (Instruction V) → List (FunctionContext.MemoryStoreHook B V)
  | _, [] => []
  | pos, inst :: rest =>
      (match inst.getStorePointer with
        | some pointer => [⟨new ⟨b, pos⟩, ⟨b, pos⟩, pointer, false⟩]
        | none => []) ++ storesFrom new b (pos + 1) rest

def bulkStoresFrom (b : B) : Nat → List (Instruction V) → List (Inst B × V × V)
  | _, [] => []
  | pos, .memIntrinsic dest length :: rest => (⟨b, pos⟩, dest, length) :: bulkStoresFrom b (pos + 1) rest
  | pos, _ :: rest => bulkStoresFrom b (pos + 1) rest

def externalCallsFrom [DecidableEq V] (b : B) : Nat → List (Instruction V) →
    List (V × Inst B × ExternalFunc × List V) → List (V × Inst B × ExternalFunc × List V)
  | _, [], calls => calls
  | pos, .call (some callee) args :: rest, calls =>
      match args[callee.argument]? with
      | some arg => externalCallsFrom b (pos + 1) rest
          ((calls.filter fun call => call.1 ≠ arg) ++ [(arg, ⟨b, pos⟩, callee, args)])
      | none => externalCallsFrom b (pos + 1) rest calls
  | pos, _ :: rest, calls => externalCallsFrom b (pos + 1) rest calls

def findMemoryStore [DecidableEq V] (new : Inst B → Nat) : Hooks B V where
  memoryStore := f.blocks.flatMap fun b => storesFrom new b 0 (f.body b)
  memoryBulkStore := f.blocks.flatMap fun b => bulkStoresFrom b 0 (f.body b)
  protectedExternalCalls := f.blocks.foldl (fun calls b => externalCallsFrom b 0 (f.body b) calls) []

end FunctionBody

namespace Hooks

variable {B V : Type} [DecidableEq B]

def externalLength : ExternalFunc → List V → Option (Length V)
  | .read, args => (args[2]?).map .value
  | .fread, args => do return .mul (← args[1]?) (← args[2]?)
  | .mpiRecv, args | .mpiIrecv, args => do return .mulTypeSize (← args[1]?) (← args[2]?)

/-- The calls that `transform` inserts before the instruction at `x`. -/
def transform (hooks : Hooks B V) (x : Inst B) : List (RtCall V) :=
  (hooks.memoryStore.filter fun hook => hook.insertionPt = x).map (fun hook => .store hook.pointer) ++
  (hooks.memoryBulkStore.filter fun hook => hook.1 = x).map
    (fun hook => .rangeStore hook.2.1 (.value hook.2.2)) ++
  (hooks.protectedExternalCalls.filter fun call => call.2.1 = x).filterMap fun call =>
    (externalLength call.2.2.1 call.2.2.2).map (.rangeStore call.1)

end Hooks

/-! ## The calls before a store -/

section Stores

variable {B V : Type} {f : FunctionBody B V} {new : Inst B → Nat}

open FunctionBody

theorem mem_storesFrom {b : B} {k : Nat} {l : List (Instruction V)}
    {hook : FunctionContext.MemoryStoreHook B V} (h : hook ∈ storesFrom new b k l) :
    ∃ j, hook.insertionPt = ⟨b, k + j⟩ := by
  induction l generalizing k with
  | nil => simp [storesFrom] at h
  | cons head rest ih =>
      rw [storesFrom, List.mem_append] at h
      rcases h with hhead | hrest
      · split at hhead
        · exact ⟨0, by rw [List.mem_singleton.mp hhead]; rfl⟩
        · simp at hhead
      · obtain ⟨j, hj⟩ := ih hrest
        exact ⟨j + 1, by rw [hj]; congr 1; omega⟩

theorem mem_bulkStoresFrom {b : B} {k : Nat} {l : List (Instruction V)} {hook : Inst B × V × V}
    (h : hook ∈ bulkStoresFrom b k l) :
    ∃ j, hook.1 = ⟨b, k + j⟩ ∧ l[j]? = some (.memIntrinsic hook.2.1 hook.2.2) := by
  induction l generalizing k with
  | nil => simp [bulkStoresFrom] at h
  | cons head rest ih =>
      have hlater : hook ∈ bulkStoresFrom b (k + 1) rest →
          ∃ j, hook.1 = ⟨b, k + j⟩ ∧ (head :: rest)[j]? = some (.memIntrinsic hook.2.1 hook.2.2) := by
        intro hrest
        obtain ⟨j, hpos, hinst⟩ := ih hrest
        exact ⟨j + 1, by rw [hpos]; congr 1; omega, by simpa using hinst⟩
      cases head with
      | memIntrinsic dest length =>
          rcases List.mem_cons.mp h with rfl | hrest
          · exact ⟨0, rfl, rfl⟩
          · exact hlater hrest
      | _ => exact hlater h

theorem mem_externalCallsFrom [DecidableEq V] {b : B} {k : Nat} {l : List (Instruction V)}
    {calls : List (V × Inst B × ExternalFunc × List V)} {call : V × Inst B × ExternalFunc × List V}
    (h : call ∈ externalCallsFrom b k l calls) : call ∈ calls ∨
      ∃ j, call.2.1 = ⟨b, k + j⟩ ∧ l[j]? = some (.call (some call.2.2.1) call.2.2.2) := by
  induction l generalizing k calls with
  | nil => exact Or.inl h
  | cons head rest ih =>
      have hlater : ∀ calls', call ∈ externalCallsFrom b (k + 1) rest calls' → call ∈ calls' ∨
          ∃ j, call.2.1 = ⟨b, k + j⟩ ∧
            (head :: rest)[j]? = some (.call (some call.2.2.1) call.2.2.2) := by
        intro calls' hrest
        rcases ih hrest with hold | ⟨j, hpos, hinst⟩
        · exact Or.inl hold
        · exact Or.inr ⟨j + 1, by rw [hpos]; congr 1; omega, by simpa using hinst⟩
      cases head with
      | call callee args =>
          cases callee with
          | none => exact hlater _ h
          | some callee =>
              simp only [externalCallsFrom] at h
              split at h
              · rcases hlater _ h with hmem | hfound
                · rcases List.mem_append.mp hmem with hold | hnew
                  · exact Or.inl (List.mem_of_mem_filter hold)
                  · obtain rfl := List.mem_singleton.mp hnew
                    exact Or.inr ⟨0, rfl, rfl⟩
                · exact Or.inr hfound
              · exact hlater _ h
      | _ => exact hlater _ h

theorem flatMap_eq_of_nodup {β γ : Type} {l : List β} {a : β} {g : β → List γ} (hnodup : l.Nodup)
    (hmem : a ∈ l) (hother : ∀ b ∈ l, b ≠ a → g b = []) : l.flatMap g = g a := by
  induction l with
  | nil => simp at hmem
  | cons head rest ih =>
      rw [List.flatMap_cons]
      obtain ⟨hnot, hrest⟩ := List.nodup_cons.mp hnodup
      by_cases heq : head = a
      · subst heq
        have hnil : rest.flatMap g = [] := by
          rw [List.flatMap_eq_nil_iff]
          refine fun b hb => hother b (List.mem_cons_of_mem _ hb) ?_
          rintro rfl
          exact hnot hb
        rw [hnil, List.append_nil]
      · have hmem' : a ∈ rest := (List.mem_cons.mp hmem).resolve_left (Ne.symm heq)
        rw [hother head List.mem_cons_self heq, List.nil_append,
          ih hrest hmem' fun b hb => hother b (List.mem_cons_of_mem _ hb)]

theorem mem_protectedExternalCalls [DecidableEq V] {call : V × Inst B × ExternalFunc × List V}
    (h : call ∈ (f.findMemoryStore new).protectedExternalCalls) :
    (f.body call.2.1.parent)[call.2.1.pos]? = some (.call (some call.2.2.1) call.2.2.2) := by
  have hall : ∀ (blocks : List B) (calls : List (V × Inst B × ExternalFunc × List V)),
      (∀ c ∈ calls, (f.body c.2.1.parent)[c.2.1.pos]? = some (.call (some c.2.2.1) c.2.2.2)) →
      ∀ c ∈ blocks.foldl (fun calls b => externalCallsFrom b 0 (f.body b) calls) calls,
        (f.body c.2.1.parent)[c.2.1.pos]? = some (.call (some c.2.2.1) c.2.2.2) := by
    intro blocks
    induction blocks with
    | nil => exact fun calls hcalls => hcalls
    | cons b rest ih =>
        intro calls hcalls
        refine ih _ fun c hc => ?_
        rcases mem_externalCallsFrom hc with hold | ⟨j, hpos, hinst⟩
        · exact hcalls c hold
        · rw [hpos]
          simpa using hinst
  exact hall f.blocks [] (by simp) call h

variable [DecidableEq B]

variable (new) in
theorem filter_storesFrom {b : B} {l : List (Instruction V)} {inst : Instruction V} {pointer : V}
    {j : Nat} (k : Nat) (hinst : l[j]? = some inst) (hptr : inst.getStorePointer = some pointer) :
    (storesFrom new b k l).filter (fun hook => hook.insertionPt = ⟨b, k + j⟩) =
      [⟨new ⟨b, k + j⟩, ⟨b, k + j⟩, pointer, false⟩] := by
  induction l generalizing k j with
  | nil => simp at hinst
  | cons head rest ih =>
      rw [storesFrom, List.filter_append]
      cases j with
      | zero =>
          obtain rfl : head = inst := by simpa using hinst
          have hrest : (storesFrom new b (k + 1) rest).filter
              (fun hook => hook.insertionPt = ⟨b, k + 0⟩) = [] := by
            rw [List.filter_eq_nil_iff]
            intro hook hmem
            obtain ⟨i, hi⟩ := mem_storesFrom hmem
            rw [hi, decide_eq_true_iff, Inst.mk.injEq, not_and]
            intro _
            omega
          rw [hrest, hptr]
          simp
      | succ j =>
          have hnext : k + (j + 1) = k + 1 + j := by omega
          have hhead : ((match head.getStorePointer with
              | some pointer => [⟨new ⟨b, k⟩, ⟨b, k⟩, pointer, false⟩]
              | none => []) : List (FunctionContext.MemoryStoreHook B V)).filter
                (fun hook => hook.insertionPt = ⟨b, k + (j + 1)⟩) = [] := by
            split <;> simp
          rw [hhead, hnext]
          exact ih (k + 1) (by simpa using hinst)

theorem transform_of_store [DecidableEq V] {x : Inst B} {inst : Instruction V} {pointer : V}
    (hx : x.parent ∈ f.blocks) (hinst : (f.body x.parent)[x.pos]? = some inst)
    (hptr : inst.getStorePointer = some pointer) :
    (f.findMemoryStore new).transform x = [.store pointer] := by
  have hstores : (f.findMemoryStore new).memoryStore.filter (fun hook => hook.insertionPt = x) =
      [⟨new x, x, pointer, false⟩] := by
    simp only [findMemoryStore]
    rw [List.filter_flatMap, flatMap_eq_of_nodup f.nodup hx]
    · have hown := filter_storesFrom new (b := x.parent) 0 hinst hptr
      simpa using hown
    · intro b _ hne
      rw [List.filter_eq_nil_iff]
      intro hook hmem
      obtain ⟨j, hj⟩ := mem_storesFrom hmem
      rw [hj, decide_eq_true_iff]
      rintro rfl
      exact hne rfl
  have hbulk : (f.findMemoryStore new).memoryBulkStore.filter (fun hook => hook.1 = x) = [] := by
    rw [List.filter_eq_nil_iff]
    intro hook hmem
    obtain ⟨b, _, hin⟩ := List.mem_flatMap.mp hmem
    obtain ⟨j, hpos, hmemInst⟩ := mem_bulkStoresFrom hin
    rw [decide_eq_true_iff]
    rintro rfl
    rw [hpos] at hinst
    simp only [Nat.zero_add] at hinst
    rw [hmemInst] at hinst
    obtain rfl := Option.some.inj hinst
    simp [Instruction.getStorePointer] at hptr
  have hcalls : (f.findMemoryStore new).protectedExternalCalls.filter
      (fun call => call.2.1 = x) = [] := by
    rw [List.filter_eq_nil_iff]
    intro call hmem
    rw [decide_eq_true_iff]
    rintro rfl
    rw [mem_protectedExternalCalls hmem] at hinst
    obtain rfl := Option.some.inj hinst
    simp [Instruction.getStorePointer] at hptr
  rw [Hooks.transform, hstores, hbulk, hcalls]
  rfl

end Stores

/-! ## Execution -/

section Execution

variable {V : Type} (typeSize : Nat → Nat) (value : V → Nat)

def Length.eval : Length V → Nat
  | .value length => value length
  | .mul lhs rhs => value lhs * value rhs
  | .mulTypeSize count dataType => value count * typeSize (value dataType)

/-- An inserted call of thread `tid` where the operands have the given values; pointers are
offsets from the start of main memory. -/
def RtCall.prog (tid : Nat) : RtCall V → Prog NvmInst Unit
  | .store pointer => hookRtStore tid (value pointer)
  | .rangeStore pointer length => hookRtRangeStore tid (value pointer) (length.eval typeSize value)

/-- What runs right before an instruction. -/
def runHooks (tid : Nat) (calls : List (RtCall V)) : Prog NvmInst Unit :=
  Prog.forEach calls (RtCall.prog typeSize value tid)

end Execution

/-! ## Coverage of the bytes that are written -/

def CoversSegment (addr len s : Nat) : Prop :=
  addr >>> kSegmentShift ≤ s ∧ s * kSegmentSize < addr + len

/-- Whatever a pool of `n` segments holds and whichever thread comes to the access: the hook
leaves every segment it meets dirty, and when later stores have run their hooks and a
checkpoint has emptied the address buffers, every block it meets is recorded. -/
def CoversAccess (n addr len : Nat) (hook : Nat → Prog NvmInst Unit) : Prop :=
  ∀ tid < kMaxThreads, ∀ t u : NvmInst, t.nrSegments = n → (hook tid).run t = some ((), u) →
    (∀ s, CoversSegment addr len s → Dirty u s) ∧
    ∀ later leader v w, (hooksOf later).run u = some ((), v) →
      (addressBufferClearAll leader).run v = some ((), w) →
      ∀ block, Covers addr len block → w.blockDirty.test block = true

theorem covers_of_within {addr len block : Nat} (h : addr % kBlockSize + len ≤ kBlockSize)
    (hb : Covers addr len block) : block = addr >>> kBlockShift := by
  obtain ⟨hlow, hhigh⟩ := hb
  rw [Nat.shiftRight_eq_div_pow] at hlow ⊢
  simp only [kBlockShift, kBlockSize_eq] at hlow hhigh h ⊢
  omega

theorem coversSegment_of_within {addr len s : Nat} (h : addr % kBlockSize + len ≤ kBlockSize)
    (hs : CoversSegment addr len s) : s = addr >>> kSegmentShift := by
  obtain ⟨hlow, hhigh⟩ := hs
  rw [Nat.shiftRight_eq_div_pow] at hlow ⊢
  simp only [kSegmentShift, kSegmentSize_eq, kBlockSize_eq] at hlow hhigh h ⊢
  omega

theorem hookRtStore_covers {n addr len : Nat} (haddr : addr < n * kSegmentSize)
    (hlen : addr % kBlockSize + len ≤ kBlockSize) :
    CoversAccess n addr len fun tid => hookRtStore tid addr := by
  intro tid htid t u hn hrun
  have hcap : addr < t.capacity := by rwa [capacity, hn]
  obtain ⟨-, hhook⟩ := Prog.run_of_wp (wp_hookRtStore_preserves tid addr t) hrun
  obtain ⟨hd, hrecord⟩ := hhook hcap
  refine ⟨fun s hs => coversSegment_of_within hlen hs ▸ hd, ?_⟩
  intro later leader v w hlater hclear block hb
  rw [covers_of_within hlen hb]
  refine recorded_of_touched ?_ (hrecord htid) hlater hclear
  rwa [segmentOf_block]

/-- The hook of the first access to a new pool in which every segment has a back segment. -/
def firstHooked (n tid addr : Nat) : NvmInst :=
  { openNew n n with
    segmentDirty := AtomicBitSet.allocate.set (addr >>> kSegmentShift)
    addressBuffer := Function.update (fun _ => []) tid [addr] }

theorem hookRtStore_openNew {n addr : Nat} (tid : Nat) (haddr : addr < n * kSegmentSize) :
    (hookRtStore tid addr).run (openNew n n) = some ((), firstHooked n tid addr) := by
  have hs : addr >>> kSegmentShift < n := shiftRight_kSegmentShift_lt haddr
  have hbound : (openNew n n).image.mainToBack (addr >>> kSegmentShift) =
      some (addr >>> kSegmentShift) := by
    refine (CheckpointImage.openMainToBack_eq_some ?_).mpr
      ⟨hs, CheckpointImage.initialImage_backToMain.mpr ⟨hs, rfl⟩⟩
    intro b _ b' _ s howner howner'
    rw [(CheckpointImage.initialImage_backToMain.mp howner).2,
      (CheckpointImage.initialImage_backToMain.mp howner').2]
  have hclean : (openNew n n).segmentDirty.test (addr >>> kSegmentShift) = false :=
    AtomicBitSet.test_allocate _
  have hinitial : (openNew n n).image.getSegmentState (addr >>> kSegmentShift) ≠ .main := by
    have hstate : (openNew n n).image.getSegmentState (addr >>> kSegmentShift) = .initial := rfl
    rw [hstate]
    decide
  have hcow : (hookCopyOnWriteRoutine tid addr).run (openNew n n) = some ((), { openNew n n with
      segmentDirty := AtomicBitSet.allocate.set (addr >>> kSegmentShift) }) := by
    have hlazy := run_lazyWriteBack_bound rfl hbound hinitial tid
    have hskip : (openNew n n).skipCopyOnWrite = false := rfl
    simp only [hookCopyOnWriteRoutine, hookSegment, Prog.run_bind, Prog.run_read, Option.bind_some,
      hclean, hskip, Bool.false_eq_true, if_false]
    rw [hlazy]
    rfl
  have hnr : (openNew n n).nrSegments = n := rfl
  have hlt : addr < (openNew n n).capacity := by
    rw [capacity, hnr]
    exact haddr
  exact run_hookRtStore hlt hcow (by simp [openNew, construct, kNumBufferedAddresses])

theorem hookRtStore_not_covers {n addr len : Nat} (haddr : addr < n * kSegmentSize)
    (hlen : kBlockSize < addr % kBlockSize + len) :
    ¬ CoversAccess n addr len fun tid => hookRtStore tid addr := by
  intro hcovers
  obtain ⟨-, hblocks⟩ := hcovers 0 (by decide) (openNew n n) _ rfl (hookRtStore_openNew 0 haddr)
  obtain ⟨_, w, hclear⟩ := (total_addressBufferClearAll 0).run_isSome (firstHooked n 0 addr)
  have hnext : Covers addr len (addr >>> kBlockShift + 1) := by
    rw [Covers, Nat.shiftRight_eq_div_pow]
    simp only [kBlockShift, kBlockSize_eq] at hlen ⊢
    omega
  have hrecorded := hblocks [] 0 (firstHooked n 0 addr) w rfl hclear _ hnext
  rcases touched_of_recorded hclear hrecorded with hblock | ⟨id, _, a, hin, -, hshift⟩
  · simp [firstHooked, openNew, construct] at hblock
  · have ha : a = addr := by
      simp only [firstHooked, Function.update_apply] at hin
      split at hin
      · simpa using hin
      · simp at hin
    subst ha
    omega

theorem runHooks_of_store {B V : Type} [DecidableEq B] [DecidableEq V] {f : FunctionBody B V}
    {new : Inst B → Nat} (typeSize : Nat → Nat) (value : V → Nat) {x : Inst B}
    {inst : Instruction V} {pointer : V} (hx : x.parent ∈ f.blocks)
    (hinst : (f.body x.parent)[x.pos]? = some inst)
    (hptr : inst.getStorePointer = some pointer) (tid : Nat) :
    runHooks typeSize value tid ((f.findMemoryStore new).transform x) =
      hookRtStore tid (value pointer) := by
  rw [transform_of_store hx hinst hptr]
  exact Prog.forEach_singleton _ _

/-- The hooks of an instruction cover the bytes it writes if and only if these lie in one
block. -/
theorem hooks_cover_iff {B V : Type} [DecidableEq B] [DecidableEq V] (f : FunctionBody B V)
    (new : Inst B → Nat) (typeSize : Nat → Nat) (value : V → Nat) {x : Inst B}
    {inst : Instruction V} {pointer : V} {n : Nat} (hx : x.parent ∈ f.blocks)
    (hinst : (f.body x.parent)[x.pos]? = some inst)
    (hptr : inst.getStorePointer = some pointer) (hwidth : 0 < inst.width)
    (hpool : value pointer + inst.width ≤ n * kSegmentSize) :
    CoversAccess n (value pointer) inst.width
      (fun tid => runHooks typeSize value tid ((f.findMemoryStore new).transform x)) ↔
    value pointer % kBlockSize + inst.width ≤ kBlockSize := by
  have haddr : value pointer < n * kSegmentSize := by omega
  simp only [runHooks_of_store typeSize value hx hinst hptr]
  constructor
  · intro hcovers
    exact Nat.le_of_not_lt fun hlt => hookRtStore_not_covers haddr hlt hcovers
  · exact hookRtStore_covers haddr

/-- A function that only stores eight bytes. -/
def singleStore : FunctionBody Unit Nat where
  blocks := [()]
  body _ := [.store 0 8]
  nodup := by decide

theorem singleStore_first : (singleStore.body (Inst.mk () 0).parent)[(Inst.mk () 0).pos]? =
    some (.store 0 8) := rfl

theorem hooks_cover_singleStore :
    CoversAccess 1 248 8 (fun tid => runHooks id (fun _ => 248) tid
      ((singleStore.findMemoryStore Inst.pos).transform ⟨(), 0⟩)) ↔ 248 % kBlockSize + 8 ≤ kBlockSize :=
  hooks_cover_iff singleStore Inst.pos id (fun _ => 248) List.mem_cons_self singleStore_first rfl
    (by decide) (by decide)

/-- The second half of a store across the end of a block is not recorded. -/
theorem not_hooks_cover :
    ¬ CoversAccess 1 252 8 (fun tid => runHooks id (fun _ => 252) tid
      ((singleStore.findMemoryStore Inst.pos).transform ⟨(), 0⟩)) := by
  have hcalls : ∀ tid, runHooks id (fun _ => 252) tid
      ((singleStore.findMemoryStore Inst.pos).transform ⟨(), 0⟩) = hookRtStore tid 252 :=
    runHooks_of_store id (fun _ => 252) List.mem_cons_self singleStore_first rfl
  simp only [hcalls]
  exact hookRtStore_not_covers (by decide) (by decide)

end Libcrpm
