import Libcrpm.Recovery

/-!
# Bindings of back segments

`main_to_back` is the volatile inverse of the persistent `back_to_main`.  Binding a
back segment that belongs to another segment takes it away from that segment, and a
crash in between shows the old owner or the new one.
-/

namespace Libcrpm.CheckpointImage

open Libcrpm.Persistence Libcrpm.Program

/-- `main_to_back` inverts a durable `back_to_main`. -/
structure Bindings (n nb : Nat) (i : CheckpointImage) : Prop where
  nrMain : i.nrMain = n
  nrBack : i.nrBack = nb
  settled : ∀ b, (i.mem (.backToMain b)).Settled
  inverse : ∀ s b, i.mainToBack s = some b ↔ b < nb ∧ i.mem.load (.backToMain b) = some s
  range : ∀ b < nb, ∀ s, i.mem.load (.backToMain b) = some s → s < n

theorem Bindings.keeps {n nb : Nat} {i t : CheckpointImage} (h : Bindings n nb i)
    (hk : Keeps i t) : Bindings n nb t where
  nrMain := hk.nrMain.trans h.nrMain
  nrBack := hk.nrBack.trans h.nrBack
  settled b := (hk.data _ (isData_backToMain b)).settled (h.settled b)
  inverse s b := by
    rw [hk.mainToBack, hk.load (isData_backToMain b)]
    exact h.inverse s b
  range b hb s hs := h.range b hb s ((hk.load (isData_backToMain b)).symm.trans hs)

structure SameOwners (nb : Nat) (i : CheckpointImage) (img : NvmImage) : Prop where
  owner : ∀ b, img (.backToMain b) = i.mem.load (.backToMain b)

theorem Bindings.segments_lt {n nb : Nat} {i : CheckpointImage} (h : Bindings n nb i)
    {segments : List Nat} (hs : ∀ s ∈ segments, s < n) : ∀ s ∈ segments, s < i.nrMain :=
  h.nrMain.symm ▸ hs

theorem Bindings.sameOwners {n nb : Nat} {i : CheckpointImage} (h : Bindings n nb i)
    {img : NvmImage} (hc : ∀ l, IsData l → (i.mem l).May (img l)) : SameOwners nb i img :=
  ⟨fun b => (h.settled b).eq (hc _ (isData_backToMain b))⟩

theorem Bindings.ownersInRange {n nb : Nat} {i : CheckpointImage} (h : Bindings n nb i)
    {img : NvmImage} (hs : SameOwners nb i img) : OwnersInRange n nb img :=
  fun b hb s howner => h.range b hb s ((hs.owner b).symm.trans howner)

theorem Bindings.injOwners {n nb : Nat} {i : CheckpointImage} (h : Bindings n nb i)
    {img : NvmImage} (hs : SameOwners nb i img) : InjOwners nb img := by
  intro b hb b' hb' s howner howner'
  have hfst := (h.inverse s b).mpr ⟨hb, (hs.owner b).symm.trans howner⟩
  have hsnd := (h.inverse s b').mpr ⟨hb', (hs.owner b').symm.trans howner'⟩
  simpa [hfst] using hsnd

theorem Bindings.openMainToBack_eq {n nb : Nat} {i : CheckpointImage} (h : Bindings n nb i)
    {img : NvmImage} (hs : SameOwners nb i img) (s : Nat) :
    openMainToBack img nb s = i.mainToBack s := by
  apply Option.ext
  intro b
  rw [openMainToBack_eq_some (h.injOwners hs), h.inverse, hs.owner b]

theorem Keeps.data_may {i t : CheckpointImage} (hk : Keeps i t) {img : NvmImage} (hc : t.mem.CrashTo img) :
    ∀ l, IsData l → (i.mem l).May (img l) :=
  fun l hl => (hk.data l hl).may _ (hc l)

/-! ## Binding -/

structure Rebound (i : CheckpointImage) (s b : Nat) (t : CheckpointImage) : Prop where
  nrMain : t.nrMain = i.nrMain
  nrBack : t.nrBack = i.nrBack
  flags : t.segmentStateDirty = i.segmentStateDirty
  update : t.segmentStateUpdate = i.segmentStateUpdate
  owner : t.mem.load (.backToMain b) = some s
  settled : (t.mem (.backToMain b)).Settled
  others : ∀ l, l ≠ .backToMain b → (i.mem l).DrainsTo (t.mem l)
  self : t.mainToBack s = some b
  lost : ∀ s', s' ≠ s → i.mem.load (.backToMain b) = some s' → t.mainToBack s' = none
  kept : ∀ s', s' ≠ s → i.mem.load (.backToMain b) ≠ some s' → t.mainToBack s' = i.mainToBack s'

theorem Rebound.bindings {n nb : Nat} {i t : CheckpointImage} {s b : Nat}
    (h : Rebound i s b t) (hi : Bindings n nb i) (hb : b < nb) (hs : s < n)
    (hfree : i.mainToBack s = none) : Bindings n nb t := by
  have hother : ∀ b', b' ≠ b → t.mem.load (.backToMain b') = i.mem.load (.backToMain b') :=
    fun b' hne => (h.others _ (by simpa using hne)).cur
  refine ⟨h.nrMain.trans hi.nrMain, h.nrBack.trans hi.nrBack, fun b' => ?_, fun s' b' => ?_,
    fun b' hb' s' howner => ?_⟩
  · by_cases hbb : b' = b
    · exact hbb ▸ h.settled
    · exact (h.others _ (by simpa using hbb)).settled (hi.settled b')
  · by_cases hbb : b' = b
    · subst hbb
      rw [h.owner]
      by_cases hss : s' = s
      · subst hss
        simp [h.self, hb]
      · have hne : t.mainToBack s' ≠ some b' := by
          intro hcontra
          by_cases hown : i.mem.load (.backToMain b') = some s'
          · rw [h.lost s' hss hown] at hcontra
            simp at hcontra
          · rw [h.kept s' hss hown] at hcontra
            exact hown ((hi.inverse s' b').mp hcontra).2
        constructor
        · exact fun heq => absurd heq hne
        · rintro ⟨-, heq⟩
          exact absurd (Option.some.inj heq).symm hss
    · rw [hother b' hbb]
      by_cases hss : s' = s
      · subst hss
        have hnot : i.mem.load (.backToMain b') ≠ some s' ∨ ¬ b' < nb := by
          by_contra hcontra
          rw [not_or, not_not, not_not] at hcontra
          have hbound := (hi.inverse s' b').mpr ⟨hcontra.2, hcontra.1⟩
          rw [hfree] at hbound
          simp at hbound
        constructor
        · intro heq
          rw [h.self] at heq
          exact absurd (Option.some.inj heq).symm hbb
        · rintro ⟨hlt, heq⟩
          exact hnot.elim (fun hne => absurd heq hne) fun hge => absurd hlt hge
      · by_cases hown : i.mem.load (.backToMain b) = some s'
        · rw [h.lost s' hss hown]
          constructor
          · exact fun heq => absurd heq (by simp)
          · rintro ⟨hlt, heq⟩
            have hfst := (hi.inverse s' b').mpr ⟨hlt, heq⟩
            have hsnd := (hi.inverse s' b).mpr ⟨hb, hown⟩
            rw [hfst] at hsnd
            exact absurd (Option.some.inj hsnd) hbb
        · rw [h.kept s' hss hown]
          exact hi.inverse s' b'
  · by_cases hbb : b' = b
    · subst hbb
      rw [h.owner] at howner
      exact (Option.some.inj howner) ▸ hs
    · exact hi.range b' hb' s' ((hother b' hbb).symm.trans howner)

/-- A crash while `b` is bound to `s` shows the old owner of `b` or the new one. -/
def BindCrash (i : CheckpointImage) (s b : Nat) (t : CheckpointImage) : Prop :=
  ∀ img, t.mem.CrashTo img → ∃ img₀, i.mem.CrashTo img₀ ∧
    (img = img₀ ∨ img = Function.update img₀ (.backToMain b) (some s))

theorem bindCrash_of_mem {i t : CheckpointImage} {s b : Nat} (h : t.mem = i.mem) :
    BindCrash i s b t :=
  fun img hc => ⟨img, h ▸ hc, Or.inl rfl⟩

theorem storeOwner_self (s b : Nat) (i : CheckpointImage) :
    (storeOwner s b i).mem (.backToMain b) = (i.mem (.backToMain b)).ntStore (some s) := by
  simp [storeOwner, Memory.ntStoreAll]

theorem storeOwner_of_ne {s b : Nat} (i : CheckpointImage) {l : Loc} (hl : l ≠ .backToMain b) :
    (storeOwner s b i).mem l = i.mem l := by
  cases l with
  | backToMain b' =>
      have hne : b' ≠ b := by simpa using hl
      simp [storeOwner, Memory.ntStoreAll, hne]
  | _ => rfl

theorem bindCrash_storeOwner {i t : CheckpointImage} {s b : Nat}
    (hset : (i.mem (.backToMain b)).Settled) (ht : (storeOwner s b i).mem.Drains t.mem) :
    BindCrash i s b t := by
  intro img hc
  have hback := ht.crashTo hc
  have hmay := hback (.backToMain b)
  rw [storeOwner_self, Cell.may_ntStore] at hmay
  refine ⟨Function.update img (.backToMain b) (i.mem.load (.backToMain b)), fun l => ?_, ?_⟩
  · by_cases hl : l = .backToMain b
    · subst hl
      rw [Function.update_self]
      exact Cell.may_cur _
    · rw [Function.update_of_ne hl, ← storeOwner_of_ne i hl]
      exact hback l
  · rcases hmay with hnew | hold
    · right
      rw [Function.update_idem, ← hnew, Function.update_eq_self]
    · left
      have heq : i.mem.load (.backToMain b) = img (.backToMain b) := (hset.eq hold).symm
      rw [heq, Function.update_eq_self]

/-- `u` is `i` with the volatile entry of the owner of `b` cleared. -/
structure Unowned (i : CheckpointImage) (b : Nat) (u : CheckpointImage) : Prop where
  mem : u.mem = i.mem
  nrMain : u.nrMain = i.nrMain
  nrBack : u.nrBack = i.nrBack
  flags : u.segmentStateDirty = i.segmentStateDirty
  update : u.segmentStateUpdate = i.segmentStateUpdate
  lost : ∀ s, i.mem.load (.backToMain b) = some s → u.mainToBack s = none
  kept : ∀ s, i.mem.load (.backToMain b) ≠ some s → u.mainToBack s = i.mainToBack s

theorem wp_unbindOwner {C : CheckpointImage → Prop} {i : CheckpointImage} {b : Nat}
    (hC : ∀ u : CheckpointImage, u.mem = i.mem → C u) :
    Prog.wp C (unbindOwner (i.getBackToMain b)) (fun _ u => Unowned i b u) i := by
  rw [getBackToMain]
  cases hown : i.mem.load (.backToMain b) with
  | none => exact Prog.wp_pure.mpr ⟨rfl, rfl, rfl, rfl, rfl, by simp [hown], fun _ _ => rfl⟩
  | some o =>
      refine Prog.wp_act.mpr ⟨hC _ rfl, ⟨rfl, rfl, rfl, rfl, rfl, fun s hs => ?_, fun s hs => ?_⟩⟩
      · obtain rfl : o = s := Option.some.inj (hown.symm.trans hs)
        exact Function.update_self _ _ _
      · refine Function.update_of_ne ?_ _ _
        rintro rfl
        exact hs hown

theorem rebound_of_unowned {i u : CheckpointImage} {s b : Nat} (h : Unowned i b u) :
    Rebound i s b (storeFence { storeOwner s b u with
      mainToBack := Function.update u.mainToBack s (some b) }) where
  nrMain := h.nrMain
  nrBack := h.nrBack
  flags := h.flags
  update := h.update
  owner := by
    change ((storeOwner s b u).mem (.backToMain b)).fence.cur = some s
    rw [storeOwner_self]
    rfl
  settled := by
    apply Cell.Pending.settled_fence
    change ((storeOwner s b u).mem (.backToMain b)).Pending
    rw [storeOwner_self]
    exact Cell.pending_ntStore _ _
  others l hl := by
    rw [← h.mem, ← storeOwner_of_ne (s := s) u hl]
    exact Cell.drainsTo_fence _
  self := Function.update_self _ _ _
  lost s' hs' hown := (Function.update_of_ne hs' _ _).trans (h.lost s' hown)
  kept s' hs' hown := (Function.update_of_ne hs' _ _).trans (h.kept s' hown)

theorem wp_bindBackSegment {i : CheckpointImage} {s b : Nat}
    (hset : (i.mem (.backToMain b)).Settled) :
    Prog.wp (BindCrash i s b) (bindBackSegment s b) (fun _ t => Rebound i s b t) i := by
  simp only [bindBackSegment, Prog.wp_bind, Prog.wp_read]
  refine ⟨bindCrash_of_mem rfl, ?_⟩
  refine Prog.wp_mono (wp_unbindOwner fun u hu => bindCrash_of_mem hu) fun _ u hu => ?_
  have hdrain : (storeOwner s b i).mem.Drains (storeOwner s b u).mem := by
    have hsame : (storeOwner s b u).mem = (storeOwner s b i).mem := by
      simp only [storeOwner, mem_onMem, hu.mem]
    exact hsame ▸ .refl _
  simp only [Prog.wp_act]
  exact ⟨bindCrash_storeOwner hset hdrain, bindCrash_storeOwner hset hdrain,
    bindCrash_storeOwner hset (hdrain.trans (Memory.drains_fence _)), rebound_of_unowned hu⟩

end Libcrpm.CheckpointImage
