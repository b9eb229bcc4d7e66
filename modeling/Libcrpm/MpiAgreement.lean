import Libcrpm.Mpi

/-!
# Agreement of the ranks of a job

The two barriers around each store to the flag keep all ranks in the same phase of a
round, in which the flag of rank 0 and the copies of all ranks fit together.
-/

namespace Libcrpm.MpiEngine

open Libcrpm.Persistence Libcrpm.Program
open MetadataV1 (Data PoolImage Flagged Intact Named Paired Recovered)

variable {E : Type}

/-- What the parts of an engine have to establish for one rank.  A crash inside each of
them leaves the copies that the protocol relies on. -/
structure Lawful (e : MpiEngine E) where
  /-- Between two calls, when `X` is the data of the last round. -/
  Quiet : Nat → Data → E → Prop
  /-- Main memory holds the data of the round as well. -/
  Persisted : Nat → Data → Data → E → Prop
  /-- Main memory is named. -/
  Published : Nat → Data → Data → E → Prop
  /-- Both copies hold the data of the round. -/
  Agreed : Nat → Data → E → Prop
  quiet_create : ∀ n, Quiet n (fun _ => 0#64)
    (e.construct n (MetadataV1.create (n * kRegionSize)))
  get_construct : ∀ n m, e.metadata.get (e.construct n m) = m
  named : ∀ {n X x}, Quiet n X x → Named (poolWords n) .back X (e.mem x)
  persisted : ∀ {n X Y x}, Persisted n X Y x →
    Flagged .back (e.mem x) ∧ Paired (poolWords n) X Y (e.mem x)
  published : ∀ {n X Y x}, Published n X Y x →
    Flagged .main (e.mem x) ∧ Paired (poolWords n) X Y (e.mem x)
  agreed : ∀ {n Y x}, Agreed n Y x → Paired (poolWords n) Y Y (e.mem x)
  wp_prepare : ∀ {n X m m₀}, n * kRegionSize < 2 ^ 31 → Recovered n X m →
    Prog.wp (fun v => e.mem v = m.mem) e.prepare
      (fun _ v => Quiet n X v ∧ ∀ o < poolWords n, e.content v o = X o ∧
        (e.metadata.get v).load .main o = X o ∧ (e.metadata.get v).load .back o = X o)
      (e.metadata.set m (e.construct n m₀))
  wp_store : ∀ {n X x call}, Quiet n X x → e.Valid n call →
    Prog.wp (fun v => Named (poolWords n) .back X (e.mem v)) (e.store call)
      (fun _ v => Quiet n X v) x
  wp_persist : ∀ {n X x order}, Quiet n X x → e.Ordered order →
    Prog.wp (fun v => Named (poolWords n) .back X (e.mem v)) (e.persist order)
      (fun _ v => Persisted n X (e.content x) v) x
  wp_nameMain : ∀ {n X Y x}, Persisted n X Y x →
    Prog.wp (fun v => Paired (poolWords n) X Y (e.mem v))
      ((MetadataV1.setConsistentData .main).zoom e.metadata) (fun _ v => Published n X Y v) x
  wp_updateCopies : ∀ {n X Y x order}, Published n X Y x → e.Ordered order →
    Prog.wp (fun v => Named (poolWords n) .main Y (e.mem v)) (e.updateCopies order)
      (fun _ v => Flagged .main (e.mem v) ∧ Agreed n Y v) x
  wp_nameBack : ∀ {n Y x}, Agreed n Y x →
    Prog.wp (fun v => Paired (poolWords n) Y Y (e.mem v))
      ((MetadataV1.setConsistentData .back).zoom e.metadata)
      (fun _ v => Flagged .back (e.mem v) ∧ Agreed n Y v) x
  wp_finish : ∀ {n Y x}, Agreed n Y x → Flagged .back (e.mem x) →
    Prog.wp (fun v => Named (poolWords n) .back Y (e.mem v)) e.finish (fun _ v => Quiet n Y v) x

/-! ## The phases of a round -/

/-- The data of the `r`-th round since the start of the job, which began with `X`. -/
def roundData (X : Data) (entered : List Data) : Nat → Data
  | 0 => X
  | r + 1 => entered.getD r X

section Phases

variable (e : MpiEngine E) (pages : Nat → Nat) (base : Nat → Data) (flag : ConsistentData)

/-- Rank `i` has entered round `r + 1` and both copies hold what they should. -/
def InRound (r i : Nat) (back main : Nat) (s : Rank E) : Prop :=
  s.opened = true ∧ s.entered.length = r + 1 ∧
    Paired (poolWords (pages i)) (roundData (base i) s.entered back)
      (roundData (base i) s.entered main) (e.mem s.engine)

/-- Rank `i` is between the rounds `r` and `r + 1`, or still opens its pool with the flag
it got from rank 0. -/
def BetweenRounds (r i : Nat) (s : Rank E) : Prop :=
  (s.entered.length = r ∨ s.entered.length = r + 1) ∧
    (s.opened = true → Named (poolWords (pages i)) .back (roundData (base i) s.entered r)
      (e.mem s.engine)) ∧
    (s.opened = false → r = 0 ∧
      Intact (poolWords (pages i)) (MetadataV1.areaOf flag) (base i) (e.mem s.engine) ∧
      (flag = .back → i = 0 → Flagged .back (e.mem s.engine)))

/-- The condition of the `stage`-th phase after round `r`: between two rounds, while the
main copies are named, while the back copies are updated, while these are named. -/
def During (r i : Nat) (s : Rank E) : Nat → Prop
  | 0 => BetweenRounds e pages base flag r i s
  | 1 => InRound e pages base r i r (r + 1) s
  | 2 => s.opened = true ∧ s.entered.length = r + 1 ∧
      Named (poolWords (pages i)) .main (roundData (base i) s.entered (r + 1)) (e.mem s.engine)
  | _ => InRound e pages base r i (r + 1) (r + 1) s

/-- What holds where the `stage`-th phase ends. -/
def AtEnd (r i : Nat) (s : Rank E) : Nat → Prop
  | 0 => Flagged .back (e.mem s.engine) ∧ InRound e pages base r i r (r + 1) s
  | 1 => Flagged .main (e.mem s.engine) ∧ InRound e pages base r i r (r + 1) s
  | 2 => Flagged .main (e.mem s.engine) ∧ InRound e pages base r i (r + 1) (r + 1) s
  | _ => Flagged .back (e.mem s.engine) ∧ InRound e pages base r i (r + 1) (r + 1) s

variable {e pages base flag} {r i k : Nat} {s : Rank E}

theorem betweenRounds_of_opened (ho : s.opened = true)
    (hlen : s.entered.length = r ∨ s.entered.length = r + 1)
    (hnamed : Named (poolWords (pages i)) .back (roundData (base i) s.entered r)
      (e.mem s.engine)) : BetweenRounds e pages base flag r i s := by
  refine ⟨hlen, fun _ => hnamed, fun hno => ?_⟩
  rw [ho] at hno
  cases hno

theorem InRound.between {back main : Nat} (h : InRound e pages base r i back main s)
    (hflag : Flagged .back (e.mem s.engine)) (hr : back = r ∨ back = r + 1) :
    BetweenRounds e pages base flag back i s := by
  have hlen := h.2.1
  exact betweenRounds_of_opened h.1 (by omega) (h.2.2.named_back hflag)

theorem AtEnd.during (h : AtEnd e pages base r i s k) (hk : k < 4) :
    During e pages base flag r i s k := by
  match k with
  | 0 => exact h.2.between h.1 (Or.inl rfl)
  | 1 => exact h.2
  | 2 => exact ⟨h.2.1, h.2.2.1, h.2.2.2.named_main h.1⟩
  | 3 => exact h.2
  | k + 4 => omega

theorem AtEnd.next (h : AtEnd e pages base r i s k) (hk : k < 4) :
    During e pages base flag (r + (k + 1) / 4) i s ((k + 1) % 4) := by
  match k with
  | 0 => exact h.2
  | 1 => exact ⟨h.2.1, h.2.2.1, h.2.2.2.named_main h.1⟩
  | 2 => exact h.2
  | 3 => exact h.2.between h.1 (Or.inr rfl)
  | k + 4 => omega

variable (e pages base flag)

/-- The phases of all rounds: four in each. -/
def phases : Job.Phases (Rank E) where
  during m i s := During e pages base flag (m / 4) i s (m % 4)
  reached m i s := AtEnd e pages base ((m - 1) / 4) i s ((m - 1) % 4)
  starts m i s h := by
    rw [Nat.add_sub_cancel] at h
    have hnext : During e pages base flag (m / 4 + (m % 4 + 1) / 4) i s ((m % 4 + 1) % 4) :=
      h.next (Nat.mod_lt m (by decide))
    have hround : m / 4 + (m % 4 + 1) / 4 = (m + 1) / 4 := by omega
    have hstage : (m % 4 + 1) % 4 = (m + 1) % 4 := by omega
    rwa [hround, hstage] at hnext
  ends m i s h := by
    rw [Nat.add_sub_cancel] at h
    exact h.during (Nat.mod_lt m (by decide))

theorem during_phases (hk : k < 4) :
    (phases e pages base flag).during (4 * r + k) i s = During e pages base flag r i s k := by
  have hround : (4 * r + k) / 4 = r := by omega
  have hstage : (4 * r + k) % 4 = k := by omega
  simp only [phases, hround, hstage]

theorem during_between : (phases e pages base flag).during (4 * r) i s =
    BetweenRounds e pages base flag r i s :=
  during_phases e pages base flag (k := 0) (by decide)

theorem reached_phases (hk : k < 4) :
    (phases e pages base flag).reached (4 * r + k + 1) i s = AtEnd e pages base r i s k := by
  have hround : (4 * r + k + 1 - 1) / 4 = r := by omega
  have hstage : (4 * r + k + 1 - 1) % 4 = k := by omega
  simp only [phases, hround, hstage]

end Phases

/-! ## One rank -/

section OneRank

variable {e : MpiEngine E} {pages : Nat → Nat} {base : Nat → Data} {flag : ConsistentData}
  {n r i : Nat} {s : Rank E} {J : MpiJob E}

/-- A part of the engine in a phase. -/
theorem wp_onEngine {C : Rank E → Prop} {D : E → Prop} {p : Prog E Unit} {Q : Unit → E → Prop}
    (hwp : Prog.wp D p Q s.engine) (hC : ∀ x, D x → C { s with engine := x }) :
    Prog.wp C (onEngine p) (fun _ t => ∃ x, t = { s with engine := x } ∧ Q () x) s := by
  apply Prog.wp_zoom
  refine Prog.wp_mono (Prog.wp_weaken hC hwp) fun _ x hx => ⟨x, rfl, hx⟩

/-- Rank `i` is about to start a call, after `r` rounds. -/
structure Resting (he : e.Lawful) (pages : Nat → Nat) (base : Nat → Data) (i r : Nat)
    (s : Rank E) : Prop where
  opened : s.opened = true
  length : s.entered.length = r
  quiet : he.Quiet (pages i) (roundData (base i) s.entered r) s.engine

theorem roundData_append (X : Data) {entered : List Data} (Y : Data) {k : Nat}
    (hk : k ≤ entered.length) : roundData X (entered ++ [Y]) k = roundData X entered k := by
  cases k with
  | zero => rfl
  | succ k => simp [roundData, List.getD_eq_getElem?_getD, List.getElem?_append_left hk]

theorem roundData_last (X : Data) (entered : List Data) (Y : Data) :
    roundData X (entered ++ [Y]) (entered.length + 1) = Y := by
  simp [roundData]

/-- The shared flag is the one rank 0 has found. -/
def SameFlag (flag : ConsistentData) (shared : Option ConsistentData) : Prop :=
  shared = none ∨ shared = some flag

/-- What the other ranks may do, and what rank `i` does. -/
abbrev Others (flag : ConsistentData) (i : Nat) : MpiJob E → MpiJob E → Prop :=
  Job.Others (SameFlag flag) i

abbrev Own (e : MpiEngine E) (n : Nat) (pages : Nat → Nat) (base : Nat → Data)
    (flag : ConsistentData) (i : Nat) : MpiJob E → MpiJob E → Prop :=
  Job.Own n (phases e pages base flag) (SameFlag flag) i

theorem rg_store (he : e.Lawful) (hi : i < n) (hat : Job.At n i (4 * r) J)
    (hs : Resting he pages base i r (J.rank i)) {call : e.StoreCall}
    (hvalid : e.Valid (pages i) call) :
    (Job.onRank i (onEngine (e.store call))).rg (Others flag i) (Own e n pages base flag i)
      (fun _ K => Job.At n i (4 * r) K ∧ Resting he pages base i r (K.rank i)) J := by
  refine Prog.rg_mono (Job.rg_onRank hi hat (wp_onEngine (he.wp_store hs.quiet hvalid)
    fun x hx => ?_)) fun _ K ⟨hK, x, hx, hq⟩ => ⟨hK, ?_⟩
  · rw [during_between]
    exact betweenRounds_of_opened hs.opened (Or.inl hs.length) hx
  · rw [hx]
    exact ⟨hs.opened, hs.length, hq⟩

/-- Rank `i` is in round `r + 1`, with the engine in `P`. -/
structure Entered (pages : Nat → Nat) (base : Nat → Data) (i r : Nat)
    (P : Nat → Data → Data → E → Prop) (s : Rank E) : Prop where
  opened : s.opened = true
  length : s.entered.length = r + 1
  engine : P (pages i) (roundData (base i) s.entered r) (roundData (base i) s.entered (r + 1))
    s.engine

theorem rg_part {k : Nat} (hk : k < 4) {P Q : Nat → Data → Data → E → Prop} {D : Data → Data → E → Prop}
    {p : Prog E Unit} (hi : i < n) (hat : Job.At n i (4 * r + k) J)
    (hs : Entered pages base i r P (J.rank i))
    (hwp : ∀ {X Y x}, P (pages i) X Y x → Prog.wp (D X Y) p (fun _ v => Q (pages i) X Y v) x)
    (hD : ∀ s : Rank E, s.opened = true → s.entered.length = r + 1 →
      D (roundData (base i) s.entered r) (roundData (base i) s.entered (r + 1)) s.engine →
      During e pages base flag r i s k) :
    (Job.onRank i (onEngine p)).rg (Others flag i) (Own e n pages base flag i)
      (fun _ K => Job.At n i (4 * r + k) K ∧ Entered pages base i r Q (K.rank i)) J := by
  refine Prog.rg_mono (Job.rg_onRank hi hat (wp_onEngine (hwp hs.engine) fun x hx => ?_))
    fun _ K ⟨hK, x, hx, hq⟩ => ⟨hK, ?_⟩
  · rw [during_phases e pages base flag hk]
    exact hD _ hs.opened hs.length hx
  · rw [hx]
    exact ⟨hs.opened, hs.length, hq⟩

theorem rg_endPhase {k : Nat} (hk : k < 4) {P : Nat → Data → Data → E → Prop} (hi : i < n)
    (hat : Job.At n i (4 * r + k) J) (hs : Entered pages base i r P (J.rank i))
    (hend : AtEnd e pages base r i (J.rank i) k) :
    (Job.barrier n i).rg (Others flag i) (Own e n pages base flag i)
      (fun _ K => Job.At n i (4 * r + k + 1) K ∧ Entered pages base i r P (K.rank i)) J := by
  refine Prog.rg_mono (Job.rg_barrier hi hat ?_) fun _ K ⟨hK, hrank⟩ => ⟨hK, hrank.symm ▸ hs⟩
  rw [reached_phases e pages base flag hk]
  exact hend

theorem rg_enterRound (he : e.Lawful) (hi : i < n) (hat : Job.At n i (4 * r) J)
    (hs : Resting he pages base i r (J.rank i)) :
    (Job.onRank i (Prog.act fun s => { s with entered := s.entered ++ [e.content s.engine] })).rg
      (Others flag i) (Own e n pages base flag i)
      (fun _ K => Job.At n i (4 * r + 0) K ∧ Entered pages base i r
        (fun n X Y x => he.Quiet n X x ∧ e.content x = Y) (K.rank i)) J := by
  have hlen := hs.length
  have hold := roundData_append (base i) (e.content (J.rank i).engine) (Nat.le_of_eq hlen.symm)
  have hnew := roundData_last (base i) (J.rank i).entered (e.content (J.rank i).engine)
  rw [hlen] at hnew
  refine Prog.rg_mono (Job.rg_onRank hi hat
    (Q := fun _ s => Entered pages base i r (fun n X Y x => he.Quiet n X x ∧ e.content x = Y) s)
    (Prog.wp_act.mpr ⟨?_, hs.opened, by simp [hlen], ?_, hnew.symm⟩)) fun _ K hK => hK
  · rw [during_between]
    refine betweenRounds_of_opened hs.opened (Or.inr (by simp [hlen])) ?_
    change Named _ _ (roundData _ (_ ++ [_]) r) _
    rw [hold]
    exact he.named hs.quiet
  · change he.Quiet _ (roundData _ (_ ++ [_]) r) _
    rw [hold]
    exact hs.quiet

theorem rg_finish (he : e.Lawful) (hi : i < n) (hat : Job.At n i (4 * r + 3 + 1) J)
    (hs : Entered pages base i r (fun n _ Y x => Flagged .back (e.mem x) ∧ he.Agreed n Y x)
      (J.rank i)) :
    (Job.onRank i (onEngine e.finish)).rg (Others flag i) (Own e n pages base flag i)
      (fun _ K => Job.At n i (4 * (r + 1)) K ∧ Resting he pages base i (r + 1) (K.rank i)) J := by
  have hnext : Job.At n i (4 * (r + 1)) J := by
    have heq : 4 * r + 3 + 1 = 4 * (r + 1) := by omega
    exact heq ▸ hat
  refine Prog.rg_mono (Job.rg_onRank hi hnext
    (wp_onEngine (he.wp_finish hs.engine.2 hs.engine.1) fun x hx => ?_))
    fun _ K ⟨hK, x, hx, hq⟩ => ⟨hK, ?_⟩
  · rw [during_between]
    exact betweenRounds_of_opened hs.opened (Or.inl hs.length) hx
  · rw [hx]
    exact ⟨hs.opened, hs.length, hq⟩

theorem rg_checkpointForMpi (he : e.Lawful) (hi : i < n) (hat : Job.At n i (4 * r) J)
    (hs : Resting he pages base i r (J.rank i)) {order : e.Order} (hvalid : e.Ordered order) :
    (e.checkpointForMpi n i order).rg (Others flag i) (Own e n pages base flag i)
      (fun _ K => Job.At n i (4 * (r + 1)) K ∧ Resting he pages base i (r + 1) (K.rank i)) J := by
  have hrefl : ∀ K : MpiJob E, Others flag i K K := Job.Others.refl
  refine Prog.rg_bind hrefl (Prog.rg_mono (rg_enterRound he hi hat hs) fun _ J₁ ⟨hat₁, hs₁⟩ => ?_)
  -- main memory becomes durable
  refine Prog.rg_bind hrefl (Prog.rg_mono (rg_part (k := 0) (Q := he.Persisted)
    (D := fun X _ v => Named (poolWords (pages i)) .back X (e.mem v)) (by decide) hi hat₁ hs₁
    (fun {X Y x} hx => hx.2 ▸ he.wp_persist hx.1 hvalid) fun s ho hl hd =>
      betweenRounds_of_opened ho (Or.inr hl) hd) fun _ J₂ ⟨hat₂, hs₂⟩ => ?_)
  have hend₂ := he.persisted hs₂.engine
  refine Prog.rg_bind hrefl (Prog.rg_mono (rg_endPhase (k := 0) (by decide) hi hat₂ hs₂
    ⟨hend₂.1, hs₂.opened, hs₂.length, hend₂.2⟩) fun _ J₃ ⟨hat₃, hs₃⟩ => ?_)
  -- the main copies are named
  refine Prog.rg_bind hrefl (Prog.rg_mono (rg_part (k := 1) (Q := he.Published)
    (D := fun X Y v => Paired (poolWords (pages i)) X Y (e.mem v)) (by decide) hi hat₃ hs₃
    he.wp_nameMain fun s ho hl hd => ⟨ho, hl, hd⟩) fun _ J₄ ⟨hat₄, hs₄⟩ => ?_)
  have hend₄ := he.published hs₄.engine
  refine Prog.rg_bind hrefl (Prog.rg_mono (rg_endPhase (k := 1) (by decide) hi hat₄ hs₄
    ⟨hend₄.1, hs₄.opened, hs₄.length, hend₄.2⟩) fun _ J₅ ⟨hat₅, hs₅⟩ => ?_)
  -- the back copies catch up
  refine Prog.rg_bind hrefl (Prog.rg_mono (rg_part (k := 2)
    (Q := fun n _ Y x => Flagged .main (e.mem x) ∧ he.Agreed n Y x)
    (D := fun _ Y v => Named (poolWords (pages i)) .main Y (e.mem v)) (by decide) hi hat₅ hs₅
    (fun hx => he.wp_updateCopies hx hvalid) fun s ho hl hd => ⟨ho, hl, hd⟩)
    fun _ J₆ ⟨hat₆, hs₆⟩ => ?_)
  refine Prog.rg_bind hrefl (Prog.rg_mono (rg_endPhase (k := 2) (by decide) hi hat₆ hs₆
    ⟨hs₆.engine.1, hs₆.opened, hs₆.length, he.agreed hs₆.engine.2⟩) fun _ J₇ ⟨hat₇, hs₇⟩ => ?_)
  -- the back copies are named
  refine Prog.rg_bind hrefl (Prog.rg_mono (rg_part (k := 3)
    (Q := fun n _ Y x => Flagged .back (e.mem x) ∧ he.Agreed n Y x)
    (D := fun _ Y v => Paired (poolWords (pages i)) Y Y (e.mem v)) (by decide) hi hat₇ hs₇
    (fun hx => he.wp_nameBack hx.2) fun s ho hl hd => ⟨ho, hl, hd⟩) fun _ J₈ ⟨hat₈, hs₈⟩ => ?_)
  refine Prog.rg_bind hrefl (Prog.rg_mono (rg_endPhase (k := 3) (by decide) hi hat₈ hs₈
    ⟨hs₈.engine.1, hs₈.opened, hs₈.length, he.agreed hs₈.engine.2⟩) fun _ J₉ ⟨hat₉, hs₉⟩ => ?_)
  exact rg_finish he hi hat₉ hs₉

theorem rg_runCall (he : e.Lawful) (hi : i < n) (hat : Job.At n i (4 * r) J)
    (hs : Resting he pages base i r (J.rank i)) {call : e.Call} (hvalid : call.Valid (pages i)) :
    (e.runCall n i call).rg (Others flag i) (Own e n pages base flag i)
      (fun _ K => ∃ r', Job.At n i (4 * r') K ∧ Resting he pages base i r' (K.rank i)) J := by
  cases call with
  | store call => exact Prog.rg_mono (rg_store he hi hat hs hvalid) fun _ K hK => ⟨r, hK⟩
  | checkpoint order =>
      exact Prog.rg_mono (rg_checkpointForMpi he hi hat hs hvalid) fun _ K hK => ⟨r + 1, hK⟩

theorem rg_runCalls (he : e.Lawful) (hi : i < n) (hat : Job.At n i (4 * r) J)
    (hs : Resting he pages base i r (J.rank i)) {calls : List e.Call}
    (hvalid : ∀ c ∈ calls, c.Valid (pages i)) :
    (e.runCalls n i calls).rg (Others flag i) (Own e n pages base flag i)
      (fun _ K => ∃ r', Job.At n i (4 * r') K ∧ Resting he pages base i r' (K.rank i)) J := by
  refine Prog.rg_forEach (I := fun _ K => ∃ r', Job.At n i (4 * r') K ∧
    Resting he pages base i r' (K.rank i)) Job.Others.refl ?_ ?_ ⟨r, hat, hs⟩
  · intro done call rest K hcalls ⟨r', hK, hrest⟩
    exact rg_runCall he hi hK hrest (hvalid call (by simp [hcalls]))
  · intro K L ⟨r', hK, hrest⟩ hKL
    exact ⟨r', hK.others hKL, hKL.rank.symm ▸ hrest⟩

/-! ## Opening -/

theorem wp_onMetadata {C : Rank E → Prop} {D : MetadataV1 → Prop} {p : Prog MetadataV1 Unit}
    {Q : Unit → MetadataV1 → Prop} (hwp : Prog.wp D p Q (e.metadata.get s.engine))
    (hC : ∀ m, D m → C { s with engine := e.metadata.set m s.engine }) :
    Prog.wp C (onEngine (p.zoom e.metadata))
      (fun _ t => ∃ m, t = { s with engine := e.metadata.set m s.engine } ∧ Q () m) s := by
  apply Prog.wp_zoom
  apply Prog.wp_zoom
  exact Prog.wp_mono (Prog.wp_weaken hC hwp) fun _ m hm => ⟨m, rfl, hm⟩

def Opening (pages : Nat → Nat) (base : Nat → Data) (flag : ConsistentData) (i : Nat)
    (m : MetadataV1.Nvm) : Prop :=
  Intact (poolWords (pages i)) (MetadataV1.areaOf flag) (base i) m ∧
    (flag = .back → i = 0 → Flagged .back m)

theorem during_opening {x : E} (h : Opening pages base flag i (e.mem x)) :
    (phases e pages base flag).during (4 * 0) i ⟨x, false, []⟩ := by
  rw [during_between]
  exact ⟨Or.inl rfl, (by decide : ¬ false = true).elim, fun _ => ⟨rfl, h⟩⟩

theorem wp_recoverRank (he : e.Lawful) (hlen : pages i * kRegionSize < 2 ^ 31) {img : PoolImage}
    (hX : ∀ o < poolWords (pages i), img (.data (MetadataV1.areaOf flag) o) = base i o)
    (hroot : i = 0 → img .consistentData = flag) :
    Prog.wp ((phases e pages base flag).during (4 * 0) i) (e.recoverRank flag)
      (fun _ s => Resting he pages base i 0 s ∧ e.HoldsData (pages i) s (base i))
      ⟨e.construct (pages i) (mounted (pages i) img), false, []⟩ := by
  let m := mounted (pages i) img
  let x := e.construct (pages i) m
  have hmem : ∀ m', e.mem (e.metadata.set m' x) = m'.mem :=
    fun m' => congrArg MetadataV1.mem (e.metadata.get_set m' x)
  have hintact : Intact (poolWords (pages i)) (MetadataV1.areaOf flag) (base i) m.mem :=
    MetadataV1.intact_ofImage hX
  have hflagged : flag = .back → i = 0 → Flagged .back m.mem := by
    intro hback hi w hw
    exact (Cell.may_durable.mp hw).trans ((hroot hi).trans hback)
  -- the own flag is set to that of rank 0
  let stored := m.mem.ntStore .consistentData flag
  have hstored : Opening pages base flag i stored := by
    refine ⟨hintact.ntStore (fun _ => by simp) _, fun hback hi => ?_⟩
    subst hback
    have hcell : stored .consistentData = (m.mem .consistentData).ntStore .back :=
      Memory.ntStore_self m.mem _ _
    rw [Flagged, hcell]
    exact (hflagged rfl hi).ntStore
  have hfenced : Opening pages base flag i stored.fence :=
    ⟨hstored.1.drains (Memory.drains_fence _),
      fun hback hi => (hstored.2 hback hi).drains (Memory.drains_fence _)⟩
  have hcrash : ∀ m' : MetadataV1, Opening pages base flag i m'.mem →
      (phases e pages base flag).during (4 * 0) i ⟨e.metadata.set m' x, false, []⟩ := by
    intro m' hm'
    exact during_opening ((hmem m').symm ▸ hm')
  rw [recoverRank, Prog.wp_bind]
  have hget : e.metadata.get x = m := he.get_construct _ _
  refine Prog.wp_mono (wp_onMetadata (Q := fun _ m' => m' = MetadataV1.onMem (fun _ => stored.fence) m)
    (D := fun m' => Opening pages base flag i m'.mem) ?_ hcrash) ?_
  · change Prog.wp _ (MetadataV1.setConsistentData flag) _ (e.metadata.get x)
    rw [hget, MetadataV1.setConsistentData, Prog.wp_bind, Prog.wp_act, Prog.wp_act]
    exact ⟨hstored, hfenced, rfl⟩
  rintro _ _ ⟨m₁, rfl, rfl⟩
  -- recovery
  have hpending : ∀ area o, (stored.fence (.data area o)).Pending := by
    intro area o
    have hcell : stored (.data area o) = m.mem (.data area o) :=
      Memory.ntStore_of_ne m.mem _ (by simp)
    have hsettled : (stored (.data area o)).Settled := by
      rw [hcell]
      exact Memory.settled_ofImage img _
    exact hsettled.fence.pending
  rw [Prog.wp_bind]
  refine Prog.wp_mono (wp_onMetadata (Q := fun _ m' => Recovered (pages i) (base i) m' ∧
      Intact (poolWords (pages i)) (MetadataV1.areaOf flag) (base i) m'.mem)
    (D := fun m' => Intact (poolWords (pages i)) (MetadataV1.areaOf flag) (base i) m'.mem ∧
      (flag = .back → Flagged .back m'.mem)) ?_ fun m' hm' => ?_) ?_
  · rw [e.metadata.get_set]
    exact MetadataV1.wp_recoverData_named rfl hlen
      ⟨MetadataV1.flagged_set flag m.mem, hfenced.1⟩ hpending
  · rw [e.metadata.set_set]
    exact hcrash m' ⟨hm'.1, fun hback _ => hm'.2 hback⟩
  rintro _ _ ⟨m₂, rfl, hrec, hkept⟩
  rw [e.metadata.set_set]
  -- the rest only changes volatile state
  rw [Prog.wp_bind]
  refine Prog.wp_mono (wp_onEngine (he.wp_prepare hlen hrec) fun v hv => ?_) ?_
  · refine during_opening ?_
    rw [hv]
    exact ⟨hkept, fun _ _ => hrec.flagged⟩
  rintro _ _ ⟨v, rfl, hquiet, hdata⟩
  have hrest : Resting he pages base i 0 ⟨v, true, []⟩ := ⟨rfl, rfl, hquiet⟩
  refine Prog.wp_act.mpr ⟨?_, hrest, hdata⟩
  rw [during_between]
  exact betweenRounds_of_opened rfl (Or.inl rfl) (he.named hquiet)

theorem rg_bcastConsistentData (hi : i < n) (hat : Job.At n i (4 * 0) J) (hs : J.rank i = s)
    (hshared : SameFlag flag J.shared)
    (hroot : i = 0 → (e.metadata.get s.engine).consistentData = flag)
    (hduring : (phases e pages base flag).during (4 * 0) i s) :
    (e.bcastConsistentData i).rg (Others flag i) (Own e n pages base flag i)
      (fun f K => f = flag ∧ Job.At n i (4 * 0) K ∧ K.rank i = s) J := by
  have hrefl : ∀ K : MpiJob E, Others flag i K K := Job.Others.refl
  unfold bcastConsistentData
  by_cases hzero : i = 0
  · subst hzero
    rw [if_pos rfl]
    refine Prog.rg_bind hrefl (Prog.rg_mono (Job.rg_onRank hi hat
      (Q := fun f t => f = flag ∧ t = s) ?_) fun f K ⟨hatK, hf, hK⟩ => ?_)
    · rw [hs]
      exact Prog.wp_read.mpr ⟨hduring, hroot rfl, rfl⟩
    · refine Prog.rg_bind hrefl (Prog.rg_act fun a ha => ?_)
      subst hf
      have hself : SameFlag f (some f) := Or.inr rfl
      refine ⟨Job.own_share hself a, fun b hb c hc => ⟨rfl, ?_, ?_⟩⟩
      · have hata : Job.At n 0 (4 * 0) a := hatK.others ha
        have hshared' : Job.At n 0 (4 * 0) { a with shared := some f } := hata
        exact (hshared'.others hb).others hc
      · exact hc.rank.trans (hb.rank.trans (ha.rank.trans hK))
  · rw [if_neg hzero]
    intro a ha hg
    refine ⟨Job.Own.refl a, fun b hb => ⟨?_, hat.others (ha.trans hb), ?_⟩⟩
    · rcases ha.shared hshared with hnone | hsome
      · have hsome : a.shared.isSome = true := hg
        rw [hnone] at hsome
        cases hsome
      · rw [hsome]
        rfl
    · exact (ha.trans hb).rank.trans hs

theorem rg_openForMpi (he : e.Lawful) (hi : i < n) (hlen : pages i * kRegionSize < 2 ^ 31)
    {img : PoolImage} (hat : Job.At n i (4 * 0) J)
    (hs : J.rank i = ⟨e.construct (pages i) (mounted (pages i) img), false, []⟩)
    (hX : ∀ o < poolWords (pages i), img (.data (MetadataV1.areaOf flag) o) = base i o)
    (hroot : i = 0 → img .consistentData = flag) (hshared : SameFlag flag J.shared) :
    (e.openForMpi i).rg (Others flag i) (Own e n pages base flag i)
      (fun _ K => Job.At n i (4 * 0) K ∧ Resting he pages base i 0 (K.rank i) ∧
        e.HoldsData (pages i) (K.rank i) (base i)) J := by
  have hget := he.get_construct (pages i) (mounted (pages i) img)
  have hopening : Opening pages base flag i (e.mem (e.construct (pages i) (mounted (pages i) img))) := by
    rw [mem, hget]
    refine ⟨MetadataV1.intact_ofImage hX, fun hback hzero w hw => ?_⟩
    exact (Cell.may_durable.mp hw).trans ((hroot hzero).trans hback)
  refine Prog.rg_bind Job.Others.refl (Prog.rg_mono (rg_bcastConsistentData hi hat hs hshared ?_
    (during_opening hopening)) fun f K ⟨hf, hatK, hK⟩ => ?_)
  · intro hzero
    change (e.metadata.get (e.construct (pages i) (mounted (pages i) img))).consistentData = flag
    rw [hget]
    exact hroot hzero
  · subst hf
    exact Job.rg_onRank hi hatK (hK.symm ▸ wp_recoverRank he hlen hX hroot)

theorem rg_session (he : e.Lawful) (hi : i < n) (hlen : pages i * kRegionSize < 2 ^ 31)
    {img : PoolImage} (hat : Job.At n i (4 * 0) J)
    (hs : J.rank i = ⟨e.construct (pages i) (mounted (pages i) img), false, []⟩)
    (hX : ∀ o < poolWords (pages i), img (.data (MetadataV1.areaOf flag) o) = base i o)
    (hroot : i = 0 → img .consistentData = flag) (hshared : SameFlag flag J.shared)
    {calls : List e.Call} (hvalid : ∀ c ∈ calls, c.Valid (pages i)) :
    (e.session n i calls).rg (Others flag i) (Own e n pages base flag i) (fun _ _ => True) J := by
  refine Prog.rg_bind Job.Others.refl (Prog.rg_mono
    (rg_openForMpi he hi hlen hat hs hX hroot hshared) fun _ K ⟨hatK, hrest, _⟩ => ?_)
  exact Prog.rg_mono (rg_runCalls he hi hatK hrest hvalid) fun _ _ _ => trivial

end OneRank

/-! ## Whole jobs -/

section Jobs

variable {e : MpiEngine E} {n : Nat} {pages : Nat → Nat} {base : Nat → Data}
  {flag : ConsistentData} {imgs imgs' : Nat → PoolImage} {J : MpiJob E}
  {rounds : (Nat → Data) → Prop}

/-- The copies that the flag of rank 0 names hold `base`. -/
def Snapshot (n : Nat) (pages : Nat → Nat) (base : Nat → Data) (imgs : Nat → PoolImage) : Prop :=
  ∀ i < n, ∀ o < poolWords (pages i),
    imgs i (.data (MetadataV1.areaOf (imgs 0 .consistentData)) o) = base i o

/-- The condition on a crash, whatever the flag was. -/
def CrashInStep (n : Nat) (pages : Nat → Nat) (base : Nat → Data) (flag : ConsistentData)
    (J : MpiJob E) (imgs' : Nat → PoolImage) : Prop :=
  flag = .main → (∃ i < n, (J.rank i).opened = false) →
    match imgs' 0 .consistentData with
    | .main => ∀ i < n, (J.rank i).opened = true →
        ∀ o < poolWords (pages i), imgs' i (.data .main o) = base i o
    | .back => ∀ i < n, (J.rank i).opened = false →
        ∀ o < poolWords (pages i), imgs' i (.data .back o) = imgs' i (.data .main o)

theorem isRound_roundData (hbase : rounds base) {r : Nat}
    (hr : ∀ i < n, r ≤ (J.rank i).entered.length) :
    IsRound n J rounds fun i => roundData (base i) (J.rank i).entered r := by
  cases r with
  | zero => exact Or.inl hbase
  | succ r =>
      refine Or.inr ⟨r, fun i hi => ?_⟩
      have hlt : r < (J.rank i).entered.length := hr i hi
      simp [roundData, List.getElem?_eq_getElem hlt]

/-- A crash between two rounds. -/
theorem crash_between {r : Nat} (hn : 0 < n)
    (hduring : ∀ i < n, BetweenRounds e pages base flag r i (J.rank i))
    (hcrash : e.CrashTo n J imgs') (hstep : CrashInStep n pages base flag J imgs') :
    Snapshot n pages (fun i => roundData (base i) (J.rank i).entered r) imgs' := by
  have hopened : ∀ i < n, (J.rank i).opened = true → ∀ o < poolWords (pages i),
      imgs' i (.data .back o) = roundData (base i) (J.rank i).entered r o :=
    fun i hi ho o hlt => ((hduring i hi).2.1 ho).intact.image (hcrash i hi) hlt
  have hroot : (J.rank 0).opened = true → imgs' 0 .consistentData = .back :=
    fun ho => ((hduring 0 hn).2.1 ho).flagged _ (hcrash 0 hn .consistentData)
  by_cases hall : ∀ i < n, (J.rank i).opened = true
  · intro i hi o ho
    rw [hroot (hall 0 hn)]
    exact hopened i hi (hall i hi) o ho
  · -- some rank is still inside `OpenForMPI`
    have hlate : ∃ i < n, (J.rank i).opened = false := by
      by_contra hno
      refine hall fun i hi => ?_
      cases hval : (J.rank i).opened with
      | true => rfl
      | false => exact absurd ⟨i, hi, hval⟩ hno
    have hzero : r = 0 := by
      obtain ⟨i, hi, hno⟩ := hlate
      exact ((hduring i hi).2.2 hno).1
    subst hzero
    have hopening : ∀ i < n, (J.rank i).opened = false → ∀ o < poolWords (pages i),
        imgs' i (.data (MetadataV1.areaOf flag) o) = base i o :=
      fun i hi hno o hlt => ((hduring i hi).2.2 hno).2.1.image (hcrash i hi) hlt
    intro i hi o ho
    change _ = base i o
    cases hflag : flag with
    | back =>
        have hback : imgs' 0 .consistentData = .back := by
          cases hval : (J.rank 0).opened with
          | true => exact hroot hval
          | false =>
              exact ((hduring 0 hn).2.2 hval).2.2 hflag rfl _ (hcrash 0 hn .consistentData)
        rw [hback]
        cases hval : (J.rank i).opened with
        | true => exact hopened i hi hval o ho
        | false =>
            have hkept := hopening i hi hval o ho
            rwa [hflag] at hkept
    | main =>
        have hcond := hstep hflag hlate
        cases hnew : imgs' 0 .consistentData with
        | main =>
            rw [hnew] at hcond
            cases hval : (J.rank i).opened with
            | true => exact hcond i hi hval o ho
            | false =>
                have hkept := hopening i hi hval o ho
                rwa [hflag] at hkept
        | back =>
            rw [hnew] at hcond
            cases hval : (J.rank i).opened with
            | true => exact hopened i hi hval o ho
            | false =>
                have hkept := hopening i hi hval o ho
                rw [hflag] at hkept
                exact (hcond i hi hval o ho).trans hkept

theorem crash_snapshot (hinv : Job.Inv n (phases e pages base flag) (SameFlag flag) J)
    (hn : 0 < n) (hbase : rounds base) (hcrash : e.CrashTo n J imgs')
    (hstep : CrashInStep n pages base flag J imgs') :
    ∃ X, IsRound n J rounds X ∧ Snapshot n pages X imgs' := by
  obtain ⟨m, hall⟩ := hinv.aligned hn
  have hduring : ∀ i < n, During e pages base flag (m / 4) i (J.rank i) (m % 4) := hall
  have hstage : m % 4 < 4 := Nat.mod_lt _ (by decide)
  revert hduring hstage
  generalize m % 4 = k
  generalize m / 4 = r
  intro hduring hk
  match k with
  | 0 =>
      refine ⟨_, isRound_roundData hbase (r := r) fun i hi => ?_,
        crash_between hn hduring hcrash hstep⟩
      have hlen := (hduring i hi).1
      omega
  | 1 =>
      cases hflag : imgs' 0 .consistentData with
      | main =>
          refine ⟨_, isRound_roundData hbase (r := r + 1) fun i hi =>
            Nat.le_of_eq (hduring i hi).2.1.symm, fun i hi o ho => ?_⟩
          rw [hflag]
          exact (hduring i hi).2.2.main.image (hcrash i hi) ho
      | back =>
          refine ⟨_, isRound_roundData hbase (r := r) fun i hi =>
            Nat.le_of_lt (Nat.lt_of_lt_of_eq (Nat.lt_succ_self r) (hduring i hi).2.1.symm),
            fun i hi o ho => ?_⟩
          rw [hflag]
          exact (hduring i hi).2.2.back.image (hcrash i hi) ho
  | 2 =>
      have hflag : imgs' 0 .consistentData = .main :=
        (hduring 0 hn).2.2.flagged _ (hcrash 0 hn .consistentData)
      refine ⟨_, isRound_roundData hbase (r := r + 1) fun i hi =>
        Nat.le_of_eq (hduring i hi).2.1.symm, fun i hi o ho => ?_⟩
      rw [hflag]
      exact (hduring i hi).2.2.intact.image (hcrash i hi) ho
  | 3 =>
      refine ⟨_, isRound_roundData hbase (r := r + 1) fun i hi =>
        Nat.le_of_eq (hduring i hi).2.1.symm, fun i hi o ho => ?_⟩
      cases hflag : imgs' 0 .consistentData with
      | main => exact (hduring i hi).2.2.main.image (hcrash i hi) ho
      | back => exact (hduring i hi).2.2.back.image (hcrash i hi) ho
  | k + 4 => omega

theorem inv_started (hlegal : Snapshot n pages base imgs) (he : e.Lawful) :
    Job.Inv n (phases e pages base (imgs 0 .consistentData))
      (SameFlag (imgs 0 .consistentData)) (e.startedJob pages imgs) where
  during i hi := by
    refine during_opening ⟨?_, fun hback hzero w hw => ?_⟩
    · rw [mem, he.get_construct]
      exact MetadataV1.intact_ofImage (hlegal i hi)
    · rw [mem, he.get_construct] at hw
      subst hzero
      exact (Cell.may_durable.mp hw).trans hback
  reached i hi j hj hlt := absurd hlt (Nat.lt_irrefl 0)
  near _ _ _ _ := Nat.zero_le _
  shared := Or.inl rfl

theorem at_zero (i : Nat) (J : MpiJob E) (h : ∀ j, J.arrived j = 0) : Job.At n i (4 * 0) J :=
  ⟨h i, fun _ _ => Nat.zero_le _⟩

theorem wp_sessions (he : e.Lawful) (hlen : ∀ i < n, pages i * kRegionSize < 2 ^ 31)
    (hlegal : Snapshot n pages base imgs) {calls : Nat → List e.Call}
    (hvalid : ∀ i, ∀ c ∈ calls i, c.Valid (pages i)) (schedule : List Nat) :
    Prog.wp (Job.Inv n (phases e pages base (imgs 0 .consistentData))
        (SameFlag (imgs 0 .consistentData)))
      (Prog.par n schedule fun i => e.session n i (calls i)) (fun _ _ => True)
      (e.startedJob pages imgs) :=
  Prog.wp_mono (Job.wp_job (Q := fun _ _ => True) (inv_started hlegal he) fun i hi =>
    rg_session he hi (hlen i hi) (at_zero i _ fun _ => rfl) rfl (hlegal i hi)
      (fun hzero => congrArg (fun k => imgs k .consistentData) hzero) (Or.inl rfl) (hvalid i))
    fun _ _ _ => trivial

theorem wp_openings (he : e.Lawful) (hlen : ∀ i < n, pages i * kRegionSize < 2 ^ 31)
    (hlegal : Snapshot n pages base imgs) (schedule : List Nat) :
    Prog.wp (fun _ => True) (Prog.par n schedule e.openForMpi)
      (fun _ K => ∀ i < n, e.HoldsData (pages i) (K.rank i) (base i)) (e.startedJob pages imgs) :=
  Prog.wp_mono (Prog.wp_weaken (fun _ _ => trivial) (Job.wp_job (inv_started hlegal he)
    fun i hi => rg_openForMpi he hi (hlen i hi) (at_zero i _ fun _ => rfl) rfl (hlegal i hi)
      (fun hzero => congrArg (fun k => imgs k .consistentData) hzero) (Or.inl rfl)))
    fun _ _ hall i hi => (hall i hi).2.2

theorem inv_created (he : e.Lawful) (flag : ConsistentData) :
    Job.Inv n (phases e pages (fun _ _ => 0#64) flag) (SameFlag flag) (e.createdJob pages) where
  during i hi := by
    change (phases e pages (fun _ _ => 0#64) flag).during (4 * 0) i _
    rw [during_between]
    exact betweenRounds_of_opened rfl (Or.inl rfl) (he.named (he.quiet_create (pages i)))
  reached i hi j hj hlt := absurd hlt (Nat.lt_irrefl 0)
  near _ _ _ _ := Nat.zero_le _
  shared := Or.inl rfl

theorem wp_created (he : e.Lawful) (flag : ConsistentData) {calls : Nat → List e.Call}
    (hvalid : ∀ i, ∀ c ∈ calls i, c.Valid (pages i)) (schedule : List Nat) :
    Prog.wp (Job.Inv n (phases e pages (fun _ _ => 0#64) flag) (SameFlag flag))
      (Prog.par n schedule fun i => e.runCalls n i (calls i))
      (fun _ K => ∀ i < n, (K.rank i).opened = true) (e.createdJob pages) :=
  Prog.wp_mono (Job.wp_job (inv_created he flag) fun i hi =>
    rg_runCalls he hi (at_zero i _ fun _ => rfl) (r := 0)
      ⟨rfl, rfl, he.quiet_create (pages i)⟩ (hvalid i))
    fun _ _ hall i hi => (hall i hi).elim fun _ h => h.2.opened

theorem run_snapshot (he : e.Lawful) (hn : 0 < n)
    (hlen : ∀ i < n, pages i * kRegionSize < 2 ^ 31)
    (hrun : e.Run n pages (InStep n pages) imgs rounds) :
    ∃ X, rounds X ∧ Snapshot n pages X imgs := by
  induction hrun with
  | created calls hvalid schedule hmid hcrash =>
      have hinv := Prog.mid_of_wp (wp_created he .back hvalid schedule) (inv_created he .back) hmid
      exact crash_snapshot hinv hn rfl hcrash fun hmain => by cases hmain
  | started hrun calls hvalid schedule hmid hadmits hcrash ih =>
      obtain ⟨X, hround, hlegal⟩ := ih
      have hinv := Prog.mid_of_wp (wp_sessions he hlen hlegal hvalid schedule)
        (inv_started hlegal he) hmid
      refine crash_snapshot hinv hn hround hcrash fun hmain hlate => ?_
      have hcond := hadmits hmain hlate
      rename_i imgs₂ _
      cases hnew : imgs₂ 0 .consistentData with
      | main =>
          rw [hnew] at hcond
          intro i hi ho o hlt
          have hold := hlegal i hi o hlt
          rw [hmain] at hold
          exact (hcond i hi ho o hlt).trans hold
      | back =>
          rw [hnew] at hcond
          exact hcond

theorem run_nonempty {admits : AdmitsCrash E} (hrun : e.Run n pages admits imgs rounds) :
    ∃ X, rounds X := by
  induction hrun with
  | created => exact ⟨_, Or.inl rfl⟩
  | started _ _ _ _ _ _ _ ih => exact ih.imp fun _ h => Or.inl h

theorem agrees_of_lawful (he : e.Lawful) (hlen : ∀ i < n, pages i * kRegionSize < 2 ^ 31) :
    e.Agrees n pages (InStep n pages) := by
  intro imgs rounds hrun schedule J hret
  by_cases hn : 0 < n
  · obtain ⟨X, hround, hlegal⟩ := run_snapshot he hn hlen hrun
    exact ⟨X, hround, Prog.run_of_wp (wp_openings he hlen hlegal schedule) hret⟩
  · obtain ⟨X, hround⟩ := run_nonempty hrun
    exact ⟨X, hround, fun i hi => absurd (Nat.lt_of_le_of_lt (Nat.zero_le i) hi) hn⟩

end Jobs

end Libcrpm.MpiEngine
