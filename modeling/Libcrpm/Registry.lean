import Mathlib.Data.Finset.Sort

/-!
# The registry of engines

`NvmInstEngine::Registry`, `HybridInstEngine::Registry`, `UndoLogEngine::Registry`,
`LmcEngine::Registry` and `MProtectEngine::Registry` are one class over their type of
engines `E`.  An element of `E` is a pointer to an engine, and a `std::set` of pointers is
scanned in their order.
-/

namespace Libcrpm

/-- The `address_range` of an engine.  `Open` never maps an empty pool. -/
structure AddressRange where
  first : Nat
  second : Nat
  first_lt : first < second

def AddressRange.Contains (range : AddressRange) (addr : Nat) : Prop :=
  range.first ≤ addr ∧ addr < range.second

instance (range : AddressRange) (addr : Nat) : Decidable (range.Contains addr) :=
  inferInstanceAs (Decidable (_ ∧ _))

theorem AddressRange.contains_first (range : AddressRange) : range.Contains range.first :=
  ⟨Nat.le_refl _, range.first_lt⟩

/-- A `std::set` of pointers, in the order of its iterators. -/
def inOrder {E : Type} [LinearOrder E] (s : Finset E) : List E := s.sort (· ≤ ·)

@[simp] theorem mem_inOrder {E : Type} [LinearOrder E] {s : Finset E} {e : E} :
    e ∈ inOrder s ↔ e ∈ s :=
  Finset.mem_sort _

structure Registry (E : Type) where
  engines : Finset E
  defaultEngine : Option E

namespace Registry

variable {E σ : Type}

/-! ## Histories of calls -/

inductive Call (E : Type) where
  | doRegister (engine : E)
  | doUnregister (engine : E)

/-- An engine is open from its registration to its removal. -/
def Open (calls : List (Call E)) (engine : E) : Prop :=
  calls.foldl (fun isOpen call => match call with
    | .doRegister other => isOpen ∨ other = engine
    | .doUnregister other => isOpen ∧ other ≠ engine) False

@[simp] theorem not_open_nil (engine : E) : ¬ Open [] engine := id

@[simp] theorem open_snoc_register (calls : List (Call E)) (other engine : E) :
    Open (calls ++ [.doRegister other]) engine ↔ Open calls engine ∨ other = engine := by
  simp [Open]

@[simp] theorem open_snoc_unregister (calls : List (Call E)) (other engine : E) :
    Open (calls ++ [.doUnregister other]) engine ↔ Open calls engine ∧ other ≠ engine := by
  simp [Open]

/-! ## The registry -/

def init : Registry E := ⟨∅, none⟩

variable [LinearOrder E]

def doRegister (r : Registry E) (engine : E) : Registry E where
  engines := insert engine r.engines
  defaultEngine := if r.defaultEngine = none then some engine else r.defaultEngine

def doUnregister (r : Registry E) (engine : E) : Registry E where
  engines := r.engines.erase engine
  defaultEngine := if some engine = r.defaultEngine then none else r.defaultEngine

section Find

variable (range : E → AddressRange)

/-- The scan at the end of `find`, behind its shortcut for a single engine. -/
def scan (r : Registry E) (addr : Nat) : Option E :=
  if r.engines.card = 1 then none
  else (r.engines.sort (· ≤ ·)).find? fun engine => decide ((range engine).Contains addr)

def find (r : Registry E) (addr : Nat) : Option E :=
  match r.defaultEngine with
  | some engine => if (range engine).Contains addr then some engine else r.scan range addr
  | none => r.scan range addr

def hookRoutine (r : Registry E) (routine : E → Nat → σ → σ) (addr : Nat) (s : σ) : σ :=
  match r.find range addr with
  | some engine => routine engine addr s
  | none => s

/-- `MProtectEngine::Registry::SegfaultHandlerProc`: a fault at an address that no engine
claims ends the process. -/
def segfaultHandlerProc (r : Registry E) (sigfaultHandler : E → Nat → σ → σ) (addr : Nat)
    (s : σ) : Option σ :=
  (r.find range addr).map fun engine => sigfaultHandler engine addr s

end Find

def step (r : Registry E) : Call E → Registry E
  | .doRegister engine => r.doRegister engine
  | .doUnregister engine => r.doUnregister engine

def after (calls : List (Call E)) : Registry E := calls.foldl step init

@[simp] theorem after_nil : after ([] : List (Call E)) = init := rfl

@[simp] theorem after_snoc (calls : List (Call E)) (call : Call E) :
    after (calls ++ [call]) = (after calls).step call := by
  simp [after]

theorem mem_engines_after (calls : List (Call E)) (engine : E) :
    engine ∈ (after calls).engines ↔ Open calls engine := by
  induction calls using List.reverseRecOn with
  | nil => simp [init]
  | append_singleton calls call ih =>
      rw [after_snoc]
      cases call with
      | doRegister other =>
          rw [open_snoc_register, ← ih]
          simp only [step, doRegister, Finset.mem_insert]
          rw [or_comm, eq_comm]
      | doUnregister other =>
          rw [open_snoc_unregister, ← ih]
          simp only [step, doUnregister, Finset.mem_erase]
          rw [and_comm, ne_comm]

theorem default_mem_engines (calls : List (Call E)) :
    ∀ engine ∈ (after calls).defaultEngine, engine ∈ (after calls).engines := by
  induction calls using List.reverseRecOn with
  | nil => simp [init]
  | append_singleton calls call ih =>
      intro engine hdefault
      rw [after_snoc] at hdefault ⊢
      cases call with
      | doRegister other =>
          simp only [step, doRegister, Finset.mem_insert] at hdefault ⊢
          split at hdefault
          · exact Or.inl (Option.some.inj hdefault).symm
          · exact Or.inr (ih engine hdefault)
      | doUnregister other =>
          simp only [step, doUnregister, Finset.mem_erase] at hdefault ⊢
          split at hdefault
          · simp at hdefault
          · rename_i hother
            refine ⟨?_, ih engine hdefault⟩
            rintro rfl
            exact hother hdefault.symm

/-! ## The shortcut -/

/-- One engine is left and it is not the cached one: `find` gives up at the shortcut. -/
def Stranded (r : Registry E) : Prop := r.engines.card = 1 ∧ r.defaultEngine = none

section Scan

variable {range : E → AddressRange} {r : Registry E}

theorem scan_some {addr : Nat} {engine : E} (h : r.scan range addr = some engine) :
    engine ∈ r.engines ∧ (range engine).Contains addr := by
  unfold scan at h
  split at h
  · simp at h
  · have hmem := List.mem_of_find?_eq_some h
    have hin := List.find?_some h
    exact ⟨(Finset.mem_sort _).mp hmem, of_decide_eq_true hin⟩

theorem scan_isSome {addr : Nat} {engine : E} (hcard : r.engines.card ≠ 1)
    (hmem : engine ∈ r.engines) (hin : (range engine).Contains addr) :
    (r.scan range addr).isSome := by
  rw [scan, if_neg hcard, List.find?_isSome]
  exact ⟨engine, (Finset.mem_sort _).mpr hmem, decide_eq_true hin⟩

theorem find_some {addr : Nat} {engine : E} (hdefault : ∀ e ∈ r.defaultEngine, e ∈ r.engines)
    (h : r.find range addr = some engine) :
    engine ∈ r.engines ∧ (range engine).Contains addr := by
  unfold find at h
  split at h
  · rename_i cached hcached
    split at h
    · rename_i hin
      obtain rfl := Option.some.inj h
      exact ⟨hdefault cached hcached, hin⟩
    · exact scan_some h
  · exact scan_some h

theorem find_isSome {addr : Nat} {engine : E} (hdefault : ∀ e ∈ r.defaultEngine, e ∈ r.engines)
    (hstranded : ¬ r.Stranded) (hmem : engine ∈ r.engines) (hin : (range engine).Contains addr) :
    (r.find range addr).isSome := by
  unfold find
  split
  · rename_i cached hcached
    split
    · rfl
    · rename_i hout
      refine scan_isSome (fun hcard => hout ?_) hmem hin
      have hsame : engine = cached :=
        Finset.card_le_one.mp (Nat.le_of_eq hcard) _ hmem _ (hdefault cached hcached)
      exact hsame ▸ hin
  · rename_i hnone
    exact scan_isSome (fun hcard => hstranded ⟨hcard, hnone⟩) hmem hin

theorem find_of_stranded (h : r.Stranded) (addr : Nat) : r.find range addr = none := by
  rw [find, h.2]
  exact if_pos h.1

end Scan

/-! ## Reaching the engine of an address -/

/-- No address belongs to two engines that are open at the same time. -/
def DisjointRanges (range : E → AddressRange) (calls : List (Call E)) : Prop :=
  ∀ before, before <+: calls → ∀ e e' addr, Open before e → Open before e' →
    (range e).Contains addr → (range e').Contains addr → e = e'

/-- After these calls `find` names the open engine of every address, and the hooks and the
fault handler get to it. -/
structure Reaches (range : E → AddressRange) (calls : List (Call E)) : Prop where
  find : ∀ addr engine, (after calls).find range addr = some engine ↔
    Open calls engine ∧ (range engine).Contains addr
  null : ∀ addr, (after calls).find range addr = none ↔
    ∀ engine, Open calls engine → ¬ (range engine).Contains addr
  hook : ∀ (σ : Type) (routine : E → Nat → σ → σ) (s : σ) addr engine, Open calls engine →
    (range engine).Contains addr →
    (after calls).hookRoutine range routine addr s = routine engine addr s
  fault : ∀ (σ : Type) (handler : E → Nat → σ → σ) (s : σ) addr engine, Open calls engine →
    (range engine).Contains addr →
    (after calls).segfaultHandlerProc range handler addr s = some (handler engine addr s)

theorem reaches_of_find {range : E → AddressRange} {calls : List (Call E)}
    (h : ∀ addr engine, (after calls).find range addr = some engine ↔
      Open calls engine ∧ (range engine).Contains addr) : Reaches range calls where
  find := h
  null addr := by
    rw [Option.eq_none_iff_forall_ne_some]
    exact forall_congr' fun engine => by rw [Ne, h, not_and]
  hook σ routine s addr engine hopen hin := by
    rw [hookRoutine, (h addr engine).mpr ⟨hopen, hin⟩]
  fault σ handler s addr engine hopen hin := by
    rw [segfaultHandlerProc, (h addr engine).mpr ⟨hopen, hin⟩]
    rfl

theorem reaches_iff {range : E → AddressRange} {calls : List (Call E)}
    (hdisjoint : DisjointRanges range calls) :
    Reaches range calls ↔ ¬ (after calls).Stranded := by
  constructor
  · intro h hstranded
    obtain ⟨engine, hengine⟩ := Finset.card_eq_one.mp hstranded.1
    have hopen : Open calls engine := by
      rw [← mem_engines_after, hengine]
      exact Finset.mem_singleton_self _
    have hfound := (h.find _ engine).mpr ⟨hopen, (range engine).contains_first⟩
    rw [find_of_stranded hstranded] at hfound
    simp at hfound
  · intro hstranded
    refine reaches_of_find fun addr engine => ⟨fun h => ?_, fun ⟨hopen, hin⟩ => ?_⟩
    · have hsound := find_some (default_mem_engines calls) h
      exact ⟨(mem_engines_after calls engine).mp hsound.1, hsound.2⟩
    · obtain ⟨other, hother⟩ := Option.isSome_iff_exists.mp (find_isSome (default_mem_engines calls)
        hstranded ((mem_engines_after calls engine).mpr hopen) hin)
      have hsound := find_some (default_mem_engines calls) hother
      have hsame := hdisjoint calls (List.prefix_refl calls) other engine addr
        ((mem_engines_after calls other).mp hsound.1) hopen hsound.2 hin
      rw [hother, hsame]

/-- A removal that leaves one engine leaves it as the cached one. -/
def KeepsDefault (r : Registry E) : Call E → Prop
  | .doRegister _ => True
  | .doUnregister engine => (r.engines.erase engine).card = 1 →
      r.defaultEngine ≠ none ∧ r.defaultEngine ≠ some engine

theorem stranded_step_iff (r : Registry E) (call : Call E) :
    (r.step call).Stranded ↔ ¬ r.KeepsDefault call := by
  cases call with
  | doRegister engine =>
      simp only [KeepsDefault, not_true_eq_false, iff_false]
      rintro ⟨_, hnone⟩
      simp only [step, doRegister] at hnone
      split at hnone
      · simp at hnone
      · contradiction
  | doUnregister engine =>
      simp only [Stranded, step, doUnregister, KeepsDefault, Classical.not_imp]
      refine and_congr_right fun _ => ?_
      split
      · rename_i hcached
        simp [← hcached]
      · rename_i hcached
        have hne : r.defaultEngine ≠ some engine := fun h => hcached h.symm
        simp [hne]

/-- `find` is right after each of a sequence of calls if and only if each call keeps the
cached engine when one engine is left. -/
theorem reaches_all_iff (range : E → AddressRange) (calls : List (Call E))
    (hdisjoint : DisjointRanges range calls) :
    (∀ before, before <+: calls → Reaches range before) ↔
      ∀ before call, before ++ [call] <+: calls → (after before).KeepsDefault call := by
  have hbeforeRange : ∀ before, before <+: calls → DisjointRanges range before :=
    fun before hbefore part hpart => hdisjoint part (hpart.trans hbefore)
  constructor
  · intro h before call hbefore
    have hreaches := (reaches_iff (hbeforeRange _ hbefore)).mp (h _ hbefore)
    rw [after_snoc, stranded_step_iff, not_not] at hreaches
    exact hreaches
  · intro h before hbefore
    rw [reaches_iff (hbeforeRange _ hbefore)]
    cases before using List.reverseRecOn with
    | nil => exact fun hstranded => Nat.zero_ne_one hstranded.1
    | append_singleton before call =>
        rw [after_snoc, stranded_step_iff, not_not]
        exact h before call hbefore

/-- Two pools that follow each other in memory. -/
def poolRange (engine : Nat) : AddressRange where
  first := engine * 100
  second := engine * 100 + 100
  first_lt := Nat.lt_add_of_pos_right (by decide)

theorem poolRange_disjoint (calls : List (Call Nat)) : DisjointRanges poolRange calls := by
  intro _ _ e e' addr _ _ h h'
  simp only [AddressRange.Contains, poolRange] at h h'
  omega

/-- Opening pools never loses one. -/
theorem reaches_all_opened : Reaches poolRange [Call.doRegister 1, .doRegister 2] := by
  refine (reaches_all_iff poolRange [Call.doRegister 1, .doRegister 2]
    (poolRange_disjoint _)).mpr (fun before call hbefore => ?_) _ (List.prefix_refl _)
  have hcall : call ∈ [Call.doRegister 1, .doRegister 2] := hbefore.subset (by simp)
  rcases List.mem_pair.mp hcall with rfl | rfl
  · trivial
  · trivial

/-- Two pools are open and the one that was opened first is closed: the hooks of the other
one are lost. -/
theorem not_reaches_all : DisjointRanges poolRange
      [Call.doRegister 1, .doRegister 2, .doUnregister 1] ∧
    ¬ Reaches poolRange [Call.doRegister 1, .doRegister 2, .doUnregister 1] := by
  refine ⟨poolRange_disjoint _, fun h => ?_⟩
  have hopen : Open [Call.doRegister 1, .doRegister 2, .doUnregister 1] 2 := by
    simp [Open]
  have hfind := (h.find 200 2).mpr ⟨hopen, by decide⟩
  exact absurd hfind (by decide)

end Registry

end Libcrpm
