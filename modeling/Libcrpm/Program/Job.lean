import Libcrpm.Program.Prog

/-!
# Jobs of processes that meet at barriers

Each process works on a state of its own, and all of them meet at barriers.  Between
two barriers a process is in a phase, numbered by the barriers it has reached.  If the
state of each process meets the condition of its phase, and a stronger one from where
it reaches the next barrier until all others have reached it too, then at every instant
there is one phase the condition of which all processes meet.
-/

namespace Libcrpm.Program

structure Job (σ γ : Type) where
  rank : Nat → σ
  /-- How many barriers each process has reached. -/
  arrived : Nat → Nat
  shared : γ

namespace Job

variable {σ γ α β : Type}

def lens (i : Nat) : Lens (Job σ γ) σ where
  get J := J.rank i
  set s J := { J with rank := Function.update J.rank i s }
  get_set _ _ := by simp
  set_set _ _ _ := by simp
  set_get _ := by simp

def onRank (i : Nat) (p : Prog σ α) : Prog (Job σ γ) α := p.zoom (lens i)

def arrive (i : Nat) (J : Job σ γ) : Job σ γ :=
  { J with arrived := Function.update J.arrived i (J.arrived i + 1) }

def allReached (n i : Nat) (J : Job σ γ) : Bool :=
  (List.range n).all fun j => J.arrived i ≤ J.arrived j

def barrier (n i : Nat) : Prog (Job σ γ) Unit := do
  Prog.act (arrive i)
  Prog.await (allReached n i) id

/-! ## Phases -/

/-- The conditions of the phases, and those from the end of the phase before a barrier on. -/
structure Phases (σ : Type) where
  during : Nat → Nat → σ → Prop
  reached : Nat → Nat → σ → Prop
  starts : ∀ m i s, reached (m + 1) i s → during (m + 1) i s
  ends : ∀ m i s, reached (m + 1) i s → during m i s

/-- The invariant of a job of `n` processes. -/
structure Inv (n : Nat) (P : Phases σ) (S : γ → Prop) (J : Job σ γ) : Prop where
  during : ∀ i < n, P.during (J.arrived i) i (J.rank i)
  reached : ∀ i < n, ∀ j < n, J.arrived j < J.arrived i → P.reached (J.arrived i) i (J.rank i)
  near : ∀ i < n, ∀ j < n, J.arrived i ≤ J.arrived j + 1
  shared : S J.shared

/-- What the other processes may do. -/
structure Others (S : γ → Prop) (i : Nat) (a b : Job σ γ) : Prop where
  rank : b.rank i = a.rank i
  arrived : b.arrived i = a.arrived i
  le : ∀ j, a.arrived j ≤ b.arrived j
  shared : S a.shared → S b.shared

/-- What process `i` does. -/
structure Own (n : Nat) (P : Phases σ) (S : γ → Prop) (i : Nat) (a b : Job σ γ) : Prop where
  rank : ∀ j, j ≠ i → b.rank j = a.rank j
  arrived : ∀ j, j ≠ i → b.arrived j = a.arrived j
  le : a.arrived i ≤ b.arrived i
  shared : S a.shared → S b.shared
  inv : Inv n P S a → Inv n P S b

/-- Process `i` is in phase `m`, and all others have reached it. -/
def At (n i m : Nat) (J : Job σ γ) : Prop := J.arrived i = m ∧ ∀ j < n, m ≤ J.arrived j

section Rules

variable {n i m : Nat} {P : Phases σ} {S : γ → Prop} {a b c J : Job σ γ}

theorem Others.refl (a : Job σ γ) : Others S i a a := ⟨rfl, rfl, fun _ => Nat.le_refl _, id⟩

theorem Others.trans (h : Others S i a b) (h' : Others S i b c) : Others S i a c where
  rank := h'.rank.trans h.rank
  arrived := h'.arrived.trans h.arrived
  le j := Nat.le_trans (h.le j) (h'.le j)
  shared hs := h'.shared (h.shared hs)

theorem Own.refl (a : Job σ γ) : Own n P S i a a :=
  ⟨fun _ _ => rfl, fun _ _ => rfl, Nat.le_refl _, id, id⟩

theorem Own.others {j : Nat} (h : Own n P S j a b) (hne : i ≠ j) : Others S i a b where
  rank := h.rank i hne
  arrived := h.arrived i hne
  le k := by
    by_cases hk : k = j
    · exact hk ▸ h.le
    · exact Nat.le_of_eq (h.arrived k hk).symm
  shared := h.shared

theorem At.others (h : At n i m a) (ho : Others S i a b) : At n i m b :=
  ⟨ho.arrived.trans h.1, fun j hj => Nat.le_trans (h.2 j hj) (ho.le j)⟩

theorem own_update (hi : i < n) (hat : At n i m a) {s : σ} (hs : P.during m i s) :
    Own n P S i a ((lens i).set s a) where
  rank j hj := Function.update_of_ne hj _ _
  arrived _ _ := rfl
  le := Nat.le_refl _
  shared := id
  inv hinv := by
    refine ⟨fun j hj => ?_, fun j hj k hk hlt => ?_, hinv.near, hinv.shared⟩
    · by_cases hji : j = i
      · subst hji
        simpa [lens, hat.1] using hs
      · simpa [lens, Function.update_of_ne hji] using hinv.during j hj
    · by_cases hji : j = i
      · subst hji
        have hle := hat.2 k hk
        have heq : a.arrived j = m := hat.1
        change a.arrived k < a.arrived j at hlt
        omega
      · simpa [lens, Function.update_of_ne hji] using hinv.reached j hj k hk hlt

theorem rg_onRank (hi : i < n) (hat : At n i m J) {p : Prog σ α} {Q : α → σ → Prop}
    (hwp : Prog.wp (P.during m i) p Q (J.rank i)) :
    (onRank i p).rg (Others S i) (Own n P S i) (fun r K => At n i m K ∧ Q r (K.rank i)) J := by
  suffices hgen : ∀ s J, At n i m J → J.rank i = s → Prog.wp (P.during m i) p Q s →
      (onRank i p).rg (Others S i) (Own n P S i) (fun r K => At n i m K ∧ Q r (K.rank i)) J from
    hgen _ J hat rfl hwp
  clear hwp hat
  intro s J hat hs hwp
  induction p generalizing s J with
  | pure r =>
      intro K hK
      refine ⟨hat.others hK, ?_⟩
      rw [hK.rank, hs]
      exact Prog.wp_pure.mp hwp
  | step g f next ih =>
      intro K hK hg
      have hrank : K.rank i = s := hK.rank.trans hs
      have hg' : g s = true := hrank ▸ hg
      obtain ⟨hC, hnext⟩ := Prog.wp_step.mp hwp hg'
      have hatK := hat.others hK
      have hget : (lens i).get K = s := hrank
      refine ⟨own_update hi hatK (hget.symm ▸ hC), ?_⟩
      change (onRank i (next ((lens i).get K))).rg _ _ _ ((lens i).set (f ((lens i).get K)) K)
      rw [hget]
      exact ih s (f s) ((lens i).set (f s) K) ⟨hatK.1, hatK.2⟩ (by simp [lens]) hnext
  | exit => trivial

theorem own_arrive (hi : i < n) (hat : At n i m a) (hr : P.reached (m + 1) i (a.rank i)) :
    Own n P S i a (arrive i a) where
  rank _ _ := rfl
  arrived j hj := Function.update_of_ne hj _ _
  le := by simp [arrive]
  shared := id
  inv hinv := by
    have hself : (arrive i a).arrived i = m + 1 := by simp [arrive, hat.1]
    have hother : ∀ j, j ≠ i → (arrive i a).arrived j = a.arrived j :=
      fun j hj => Function.update_of_ne hj _ _
    refine ⟨fun j hj => ?_, fun j hj k hk hlt => ?_, fun j hj k hk => ?_, hinv.shared⟩
    · by_cases hji : j = i
      · subst hji
        rw [hself]
        exact P.starts m j _ hr
      · rw [hother j hji]
        exact hinv.during j hj
    · by_cases hji : j = i
      · subst hji
        rw [hself]
        exact hr
      · rw [hother j hji] at hlt ⊢
        refine hinv.reached j hj k hk ?_
        by_cases hki : k = i
        · subst hki
          have hold : a.arrived k = m := hat.1
          omega
        · rwa [hother k hki] at hlt
    · have hnear := hinv.near j hj k hk
      have hback := hinv.near k hk j hj
      have hmj := hat.2 j hj
      have hmk := hat.2 k hk
      have hold : a.arrived i = m := hat.1
      by_cases hji : j = i <;> by_cases hki : k = i
      · subst hji hki
        omega
      · subst hji
        rw [hself, hother k hki]
        omega
      · subst hki
        rw [hself, hother j hji]
        omega
      · rw [hother j hji, hother k hki]
        exact hnear

theorem rg_barrier (hi : i < n) (hat : At n i m J) (hr : P.reached (m + 1) i (J.rank i)) :
    (barrier n i).rg (Others S i) (Own n P S i)
      (fun _ K => At n i (m + 1) K ∧ K.rank i = J.rank i) J := by
  refine Prog.rg_bind .refl (Prog.rg_act fun a ha => ?_)
  have hrank := ha.rank
  refine ⟨own_arrive hi (hat.others ha) (hrank.symm ▸ hr), fun b hb c hc hg => ⟨.refl c, ?_⟩⟩
  have hbc := hb.trans hc
  have harrived : c.arrived i = m + 1 := by
    rw [hbc.arrived]
    simp [arrive, (hat.others ha).1]
  have hall : At n i (m + 1) c := by
    refine ⟨harrived, fun j hj => ?_⟩
    have hreached := (List.all_eq_true.mp hg) j (List.mem_range.mpr hj)
    rw [← harrived]
    exact of_decide_eq_true hreached
  intro d hd
  exact ⟨hall.others hd, hd.rank.trans (hbc.rank.trans hrank)⟩

theorem own_share {g : γ} (hg : S g) (a : Job σ γ) : Own n P S i a { a with shared := g } where
  rank _ _ := rfl
  arrived _ _ := rfl
  le := Nat.le_refl _
  shared _ := hg
  inv h := ⟨h.during, h.reached, h.near, hg⟩

theorem rg_shared (hs : S J.shared) {p : Prog (Job σ γ) α} {Q : α → Job σ γ → Prop}
    (h : p.rg (Others S i) (Own n P S i) Q J) :
    p.rg (Others S i) (Own n P S i) (fun r K => Q r K ∧ S K.shared) J := by
  induction p generalizing J with
  | pure r => exact fun K hK => ⟨h K hK, hK.shared hs⟩
  | step g f next ih =>
      intro K hK hg
      obtain ⟨hG, hnext⟩ := h K hK hg
      exact ⟨hG, ih K (hG.shared (hK.shared hs)) hnext⟩
  | exit => trivial

theorem exists_least (f : Nat → Nat) (hn : 0 < n) : ∃ k < n, ∀ j < n, f k ≤ f j := by
  induction n with
  | zero => omega
  | succ n ih =>
      by_cases hzero : n = 0
      · subst hzero
        refine ⟨0, hn, fun j hj => ?_⟩
        obtain rfl : j = 0 := by omega
        exact Nat.le_refl _
      · obtain ⟨k, hk, hmin⟩ := ih (by omega)
        by_cases hle : f k ≤ f n
        · refine ⟨k, by omega, fun j hj => ?_⟩
          by_cases hjn : j = n
          · exact hjn ▸ hle
          · exact hmin j (by omega)
        · refine ⟨n, by omega, fun j hj => ?_⟩
          by_cases hjn : j = n
          · exact hjn ▸ Nat.le_refl _
          · have := hmin j (by omega)
            omega

theorem Inv.aligned (h : Inv n P S J) (hn : 0 < n) : ∃ m, ∀ i < n, P.during m i (J.rank i) := by
  obtain ⟨k, hk, hmin⟩ := exists_least J.arrived hn
  refine ⟨J.arrived k, fun i hi => ?_⟩
  by_cases heq : J.arrived i = J.arrived k
  · exact heq ▸ h.during i hi
  · have hle := hmin i hi
    have hnear := h.near i hi k hk
    have hnext : J.arrived i = J.arrived k + 1 := by omega
    have hreached := h.reached i hi k hk (by omega)
    rw [hnext] at hreached
    exact P.ends _ i _ hreached

/-- The processes of a job, under any schedule. -/
theorem wp_job {schedule : List Nat} {threads : Nat → Prog (Job σ γ) Unit}
    {Q : Nat → Job σ γ → Prop} (hinv : Inv n P S J)
    (hthread : ∀ i < n, (threads i).rg (Others S i) (Own n P S i) (fun _ => Q i) J) :
    Prog.wp (Inv n P S) (Prog.par n schedule threads) (fun _ K => ∀ i < n, Q i K) J :=
  Prog.wp_par (fun _ => .refl) (fun _ _ _ _ => .trans) (fun _ _ hne _ _ h => h.others hne)
    (fun _ _ _ ha hab => hab.inv ha) hinv hthread

end Rules

end Job

end Libcrpm.Program
