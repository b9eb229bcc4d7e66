import Libcrpm.Engine

/-!
# Flush lists

Each thread keeps the blocks it has hooked first in a bucket of `kMaxFlushBlocks` entries.  While
no bucket is full, a checkpoint finds every such block in one of them.
-/

namespace Libcrpm.FlushLists

def append (lists : Nat → List Nat) (tid blockId : Nat) : Nat → List Nat :=
  if (lists tid).length ≠ kMaxFlushBlocks then
    Function.update lists tid (lists tid ++ [blockId])
  else lists

def Listed (lists : Nat → List Nat) (block : Nat) : Prop :=
  ∃ id < kMaxThreads, block ∈ lists id

def Full (lists : Nat → List Nat) : Prop :=
  ∃ id < kMaxThreads, (lists id).length = kMaxFlushBlocks

def determineFlushMode (lists : Nat → List Nat) : FlushMode :=
  if (List.range kMaxThreads).all fun id => (lists id).length = 0 then .noAction
  else if (List.range kMaxThreads).any fun id => (lists id).length = kMaxFlushBlocks then .wbinvd
  else .useFlushBlocks

variable {lists : Nat → List Nat} {tid blockId block : Nat}

theorem append_of_full (h : (lists tid).length = kMaxFlushBlocks) :
    append lists tid blockId = lists := by
  rw [append, if_neg (not_not.mpr h)]

theorem append_of_room (h : (lists tid).length ≠ kMaxFlushBlocks) (id : Nat) :
    append lists tid blockId id = if id = tid then lists tid ++ [blockId] else lists id := by
  rw [append, if_pos h, Function.update_apply]

theorem mem_append {id : Nat} (h : block ∈ lists id) : block ∈ append lists tid blockId id := by
  by_cases hroom : (lists tid).length = kMaxFlushBlocks
  · rwa [append_of_full hroom]
  · rw [append_of_room hroom]
    split
    · rename_i heq
      exact List.mem_append_left _ (heq ▸ h)
    · exact h

theorem Listed.append (h : Listed lists block) : Listed (append lists tid blockId) block := by
  obtain ⟨id, hid, hin⟩ := h
  exact ⟨id, hid, mem_append hin⟩

theorem Full.append (h : Full lists) : Full (append lists tid blockId) := by
  by_cases hroom : (lists tid).length = kMaxFlushBlocks
  · rwa [append_of_full hroom]
  · obtain ⟨id, hid, hlength⟩ := h
    refine ⟨id, hid, ?_⟩
    have hne : id ≠ tid := by
      rintro rfl
      exact hroom hlength
    rw [append_of_room hroom, if_neg hne]
    exact hlength

theorem listed_append (ht : tid < kMaxThreads) (lists : Nat → List Nat) (blockId : Nat) :
    Listed (append lists tid blockId) blockId ∨ Full (append lists tid blockId) := by
  by_cases hroom : (lists tid).length = kMaxFlushBlocks
  · refine Or.inr ⟨tid, ht, ?_⟩
    rw [append_of_full hroom]
    exact hroom
  · refine Or.inl ⟨tid, ht, ?_⟩
    rw [append_of_room hroom, if_pos rfl]
    exact List.mem_append_right _ (List.mem_singleton_self blockId)

theorem not_listed_of_noAction (h : determineFlushMode lists = .noAction) (block : Nat) :
    ¬ Listed lists block := by
  rintro ⟨id, hid, hin⟩
  have hall : (List.range kMaxThreads).all (fun id => (lists id).length = 0) = true := by
    by_contra hno
    rw [determineFlushMode, if_neg hno] at h
    split at h <;> cases h
  have hnil := List.all_eq_true.mp hall id (List.mem_range.mpr hid)
  rw [List.length_eq_zero_iff.mp (of_decide_eq_true hnil)] at hin
  cases hin

theorem not_full_of_mode (h : determineFlushMode lists ≠ .wbinvd) : ¬ Full lists := by
  rintro ⟨id, hid, hlength⟩
  have hpos : (lists id).length ≠ 0 := by rw [hlength]; decide
  rw [determineFlushMode, if_neg, if_pos] at h
  · exact h rfl
  · exact List.any_eq_true.mpr ⟨id, List.mem_range.mpr hid, decide_eq_true hlength⟩
  · intro hall
    exact hpos (of_decide_eq_true (List.all_eq_true.mp hall id (List.mem_range.mpr hid)))

end Libcrpm.FlushLists
