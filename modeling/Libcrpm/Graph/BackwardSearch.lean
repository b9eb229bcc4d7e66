import Mathlib.Data.Fintype.Card
import Mathlib.Logic.Relation

/-!
# Breadth-first search against the edges

A work list over a finite graph that never goes on from `start`, and that ends at the
first predecessor that meets `hit`.
-/

namespace Libcrpm.Graph

variable {B : Type}

def search [Fintype B] [DecidableEq B] (preds : B → List B) (start : B) (hit : B → Bool)
    (visited : Finset B) : List B → Bool
  | [] => false
  | cur :: queue =>
      if cur ∈ visited then search preds start hit visited queue
      else if cur = start then search preds start hit (insert cur visited) queue
      else (preds cur).any hit || search preds start hit (insert cur visited) (queue ++ preds cur)
termination_by queue => (Fintype.card B - visited.card, queue.length)
decreasing_by
  · exact Prod.Lex.right _ (by simp)
  all_goals
    rename_i hnew _
    have hlt := Finset.card_lt_univ_of_notMem hnew
    have hcard := Finset.card_insert_of_notMem hnew
    exact Prod.Lex.left _ _ (by omega)

/-- The vertices from which `stop` can be reached without going through `start`. -/
inductive Visits (preds : B → List B) (start stop : B) : B → Prop
  | stop : Visits preds start stop stop
  | pred {b p : B} (hb : Visits preds start stop b) (hne : b ≠ start) (hp : p ∈ preds b) :
      Visits preds start stop p

def Finds (preds : B → List B) (start stop : B) (hit : B → Bool) : Prop :=
  ∃ b, Visits preds start stop b ∧ b ≠ start ∧ ∃ p ∈ preds b, hit p = true

/-- Every predecessor of a vertex that was expanded is known and not a hit. -/
def Expanded (preds : B → List B) (start : B) (hit : B → Bool) (known expanded : B → Prop) : Prop :=
  ∀ b, expanded b → b ≠ start → ∀ p ∈ preds b, hit p = false ∧ known p

section

variable {preds : B → List B} {start stop : B} {hit : B → Bool}

theorem visits_of_closed {closed : B → Prop} (hstop : closed stop)
    (hclosed : Expanded preds start hit closed closed) {b : B} (hb : Visits preds start stop b) :
    closed b := by
  induction hb with
  | stop => exact hstop
  | pred _ hne hp ih => exact (hclosed _ ih hne _ hp).2

variable [Fintype B] [DecidableEq B]

theorem finds_of_search {visited : Finset B} {queue : List B}
    (hqueue : ∀ b ∈ queue, Visits preds start stop b)
    (h : search preds start hit visited queue = true) : Finds preds start stop hit := by
  fun_induction search preds start hit visited queue with
  | case1 => simp at h
  | case2 visited cur queue hvisited ih =>
      exact ih (fun b hb => hqueue b (List.mem_cons_of_mem _ hb)) h
  | case3 visited queue hvisited ih =>
      exact ih (fun b hb => hqueue b (List.mem_cons_of_mem _ hb)) h
  | case4 visited cur queue hvisited hne ih =>
      have hcur := hqueue cur List.mem_cons_self
      rcases Bool.or_eq_true_iff.mp h with hany | hrest
      · exact ⟨cur, hcur, hne, List.any_eq_true.mp hany⟩
      · refine ih (fun b hb => ?_) hrest
        rcases List.mem_append.mp hb with hq | hp
        · exact hqueue b (List.mem_cons_of_mem _ hq)
        · exact hcur.pred hne hp

/-- A search that finds nothing leaves a set that is closed under predecessors. -/
theorem exists_closed_of_search {visited : Finset B} {queue : List B}
    (hexp : Expanded preds start hit (fun p => p ∈ visited ∨ p ∈ queue) (· ∈ visited))
    (h : search preds start hit visited queue = false) :
    ∃ closed : B → Prop, (∀ b, b ∈ visited ∨ b ∈ queue → closed b) ∧
      Expanded preds start hit closed closed := by
  fun_induction search preds start hit visited queue with
  | case1 visited =>
      refine ⟨(· ∈ visited), by simp, fun b hb hne p hp => ?_⟩
      simpa using hexp b hb hne p hp
  | case2 visited cur queue hvisited ih =>
      have hkeep : Expanded preds start hit (fun p => p ∈ visited ∨ p ∈ queue) (· ∈ visited) := by
        intro b hb hne p hp
        have hold := hexp b hb hne p hp
        grind
      obtain ⟨closed, hsub, hclosed⟩ := ih hkeep h
      exact ⟨closed, fun b hb => hsub b (by grind), hclosed⟩
  | case3 visited queue hvisited ih =>
      have hkeep : Expanded preds start hit (fun p => p ∈ insert start visited ∨ p ∈ queue)
          (· ∈ insert start visited) := by
        intro b hb hne p hp
        have hold := hexp b (by grind) hne p hp
        grind
      obtain ⟨closed, hsub, hclosed⟩ := ih hkeep h
      exact ⟨closed, fun b hb => hsub b (by grind), hclosed⟩
  | case4 visited cur queue hvisited hne ih =>
      rw [Bool.or_eq_false_iff] at h
      have hmiss : ∀ p ∈ preds cur, hit p = false := fun p hp => by
        simpa using List.any_eq_false.mp h.1 p hp
      have hkeep : Expanded preds start hit
          (fun p => p ∈ insert cur visited ∨ p ∈ queue ++ preds cur) (· ∈ insert cur visited) := by
        intro b hb hne p hp
        rcases Finset.mem_insert.mp hb with rfl | hold
        · exact ⟨hmiss p hp, Or.inr (List.mem_append_right _ hp)⟩
        · have hknown := hexp b hold hne p hp
          grind
      obtain ⟨closed, hsub, hclosed⟩ := ih hkeep h.2
      exact ⟨closed, fun b hb => hsub b (by grind), hclosed⟩

theorem search_eq_true_iff : search preds start hit ∅ [stop] = true ↔ Finds preds start stop hit := by
  constructor
  · refine finds_of_search fun b hb => ?_
    obtain rfl := List.mem_singleton.mp hb
    exact .stop
  · rintro ⟨b, hb, hne, p, hp, hhit⟩
    by_contra hfalse
    obtain ⟨closed, hsub, hclosed⟩ := exists_closed_of_search
      (fun b hb => absurd hb (Finset.notMem_empty b)) (Bool.eq_false_iff.mpr hfalse)
    have hin := visits_of_closed (hsub stop (by simp)) hclosed hb
    have hmiss := (hclosed b hin hne p hp).1
    rw [hhit] at hmiss
    exact absurd hmiss (by decide)

end

end Libcrpm.Graph
