import Libcrpm.PPtr
import Libcrpm.StampedPtr

/-!
# Compare-exchange on a stamped word

`atomic_stamped_pptr` of `internal/pptr.h` with the 64-bit word it stores.  The stamp is or-ed into
the lowest byte; a failed exchange decodes what it found.
-/

namespace Libcrpm

namespace AtomicStampedPPtr

open PPtr

/-- What the constructors, `operator=` and `store` put into the word at `this`. -/
def store (v this : Address) : BitVec 64 := toPptrOff v this

def load (off : BitVec 64) (this : Address) : Address × BitVec 8 :=
  (fromPptrOff off this, stampOf off)

/-- The result, the word, and the arguments `expected` and `expected_stamp` after a call. -/
structure Exchange where
  ret : Bool
  off : BitVec 64
  expected : Address
  expectedStamp : BitVec 8

def exchangeOff (off : BitVec 64) (this expected desired : Address)
    (expectedStamp desiredStamp : BitVec 8) : Exchange :=
  let oldOff := toPptrOff expected this ||| expectedStamp.setWidth 64
  let newOff := toPptrOff desired this ||| desiredStamp.setWidth 64
  if off = oldOff then ⟨true, newOff, expected, expectedStamp⟩
  else if isNullPptr off then ⟨false, off, 0#64, expectedStamp⟩
  else ⟨false, off, fromPptrOff off this, stampOf off⟩

/-- `compare_exchange_weak` where it does not fail spuriously. -/
def compareExchangeWeak := exchangeOff

def compareExchangeStrong := exchangeOff

/-- The two calls. -/
inductive Variant where
  | weak | strong

def Variant.call : Variant → BitVec 64 → Address → Address → Address → BitVec 8 → BitVec 8 →
    Exchange
  | .weak => compareExchangeWeak
  | .strong => compareExchangeStrong

theorem Variant.call_eq (x : Variant) : x.call = exchangeOff := by
  cases x
  · rfl
  · rfl

/-- The words that the operations on the pointer at `this` leave. -/
inductive Produced (this : Address) : BitVec 64 → Prop where
  | store {v : Address} (hv : Near v this) : Produced this (store v this)
  | exchange (x : Variant) {off : BitVec 64} {expected desired : Address}
      (expectedStamp desiredStamp : BitVec 8) (h : Produced this off)
      (hexpected : Near expected this) (hdesired : Near desired this) :
      Produced this (x.call off this expected desired expectedStamp desiredStamp).off

variable {this : Address} {off : BitVec 64}

/-! ## Words -/

theorem load_stamped {v : Address} (stamp : BitVec 8) (h : Near v this) :
    load (stamped v this stamp) this = (v, stamp) := by
  rw [load, fromPptrOff_stamped stamp h, stampOf_stamped stamp h]

theorem Produced.stamped (h : Produced this off) :
    ∃ v stamp, Near v this ∧ off = PPtr.stamped v this stamp := by
  induction h with
  | store hv => exact ⟨_, 0#8, hv, toPptrOff_eq _ _⟩
  | exchange x expectedStamp desiredStamp h hexpected hdesired ih =>
      rw [x.call_eq, exchangeOff]
      split
      · exact ⟨_, desiredStamp, hdesired, rfl⟩
      · split
        · exact ih
        · exact ih

theorem isNullPptr_stamped {v : Address} (stamp : BitVec 8) (h : Near v this) :
    isNullPptr (stamped v this stamp) = true ↔ v = 0#64 := by
  constructor
  · intro hnull
    rw [← fromPptrOff_stamped stamp h, fromPptrOff_null (isNullPptr_iff.mp hnull)]
  · rintro rfl
    have hstamp := stamp.isLt
    rw [isNullPptr_iff]
    rcases toNat_stamped stamp h with ⟨-, hword⟩ | ⟨hne, -⟩ | ⟨hne, -⟩
    · omega
    · exact absurd rfl hne
    · exact absurd rfl hne

theorem stamped_eq_iff {v w : Address} {stamp stamp' : BitVec 8} (hv : Near v this)
    (hw : Near w this) : stamped v this stamp = stamped w this stamp' ↔ v = w ∧ stamp = stamp' := by
  constructor
  · exact stamped_inj hv hw
  · rintro ⟨rfl, rfl⟩
    rfl

theorem exchangeOff_stamped {v expected desired : Address}
    (stamp expectedStamp desiredStamp : BitVec 8) (hv : Near v this)
    (hexpected : Near expected this) :
    exchangeOff (stamped v this stamp) this expected desired expectedStamp desiredStamp =
      if v = expected ∧ stamp = expectedStamp then
        ⟨true, stamped desired this desiredStamp, expected, expectedStamp⟩
      else if v = 0#64 then ⟨false, stamped v this stamp, 0#64, expectedStamp⟩
      else ⟨false, stamped v this stamp, v, stamp⟩ := by
  have hfield : stamped v this stamp = toPptrOff expected this ||| expectedStamp.setWidth 64 ↔
      v = expected ∧ stamp = expectedStamp := stamped_eq_iff hv hexpected
  rw [exchangeOff, fromPptrOff_stamped stamp hv, stampOf_stamped stamp hv]
  by_cases hsame : v = expected ∧ stamp = expectedStamp
  · rw [if_pos hsame, if_pos (hfield.mpr hsame)]
    rfl
  · rw [if_neg hsame, if_neg (fun h => hsame (hfield.mp h))]
    by_cases hnull : v = 0#64
    · rw [if_pos hnull, if_pos ((isNullPptr_stamped stamp hv).mpr hnull)]
    · rw [if_neg hnull, if_neg (fun h => hnull ((isNullPptr_stamped stamp hv).mp h))]

/-! ## The contract -/

/-- The call succeeds if and only if the word is the expected one, and then stores the desired one.
A failed call leaves the word and reports it, and the next attempt with what it reported
succeeds, whatever pointer and stamp it then stores. -/
structure Contract (x : Variant) (off : BitVec 64) (this expected desired : Address)
    (expectedStamp desiredStamp : BitVec 8) (r : Exchange) : Prop where
  success : r.ret = true ↔ load off this = (expected, expectedStamp)
  stored : r.ret = true → load r.off this = (desired, desiredStamp)
  unchanged : r.ret = false → r.off = off
  reported : r.ret = false → load off this = (r.expected, r.expectedStamp)
  retry : r.ret = false → ∀ desired' stamp', Near desired' this →
    (x.call r.off this r.expected desired' r.expectedStamp stamp').ret = true

/-- The contract holds exactly if the call does not find a null pointer with another stamp. -/
theorem compareExchange_contract_iff (x : Variant) (h : Produced this off)
    {expected desired : Address} (expectedStamp desiredStamp : BitVec 8)
    (hexpected : Near expected this) (hdesired : Near desired this) :
    Contract x off this expected desired expectedStamp desiredStamp
        (x.call off this expected desired expectedStamp desiredStamp) ↔
      ((load off this).1 = 0#64 → (load off this).2 = expectedStamp) := by
  obtain ⟨v, stamp, hv, rfl⟩ := h.stamped
  rw [x.call_eq, exchangeOff_stamped stamp expectedStamp desiredStamp hv hexpected,
    load_stamped stamp hv]
  by_cases hsame : v = expected ∧ stamp = expectedStamp
  · rw [if_pos hsame]
    obtain ⟨rfl, rfl⟩ := hsame
    refine iff_of_true ?_ (fun _ => rfl)
    exact ⟨by simp [load_stamped stamp hv], fun _ => load_stamped desiredStamp hdesired,
      fun hret => by simp at hret, fun hret => by simp at hret, fun hret => by simp at hret⟩
  · rw [if_neg hsame]
    by_cases hnull : v = 0#64
    · rw [if_pos hnull]
      constructor
      · intro hcontract _
        have hreported := hcontract.reported rfl
        rw [load_stamped stamp hv] at hreported
        exact congrArg Prod.snd hreported
      · intro hstamp
        have hstamp : stamp = expectedStamp := hstamp hnull
        refine ⟨?_, fun hret => by simp at hret, fun _ => rfl, fun _ => ?_, ?_⟩
        · rw [load_stamped stamp hv]
          simpa using hsame
        · rw [load_stamped stamp hv, hnull, hstamp]
        · intro _ desired' stamp' _
          rw [x.call_eq, exchangeOff_stamped stamp _ _ hv (Or.inl rfl), if_pos ⟨hnull, hstamp⟩]
    · rw [if_neg hnull]
      refine iff_of_true ?_ (fun hv' => absurd hv' hnull)
      refine ⟨?_, fun hret => by simp at hret, fun _ => rfl, fun _ => ?_, ?_⟩
      · rw [load_stamped stamp hv]
        simpa using hsame
      · exact load_stamped stamp hv
      · intro _ desired' stamp' _
        rw [x.call_eq, exchangeOff_stamped stamp _ _ hv hv, if_pos ⟨rfl, rfl⟩]

/-- A word that points to itself, where null with the stamp 7 is expected. -/
theorem compareExchange_contract_iff_self :
    Contract .weak (store 0x1000#64 0x1000#64) 0x1000#64 0#64 0x2000#64 7#8 8#8
      (Variant.weak.call (store 0x1000#64 0x1000#64) 0x1000#64 0#64 0x2000#64 7#8 8#8) := by
  have hself : Near 0x1000#64 0x1000#64 := Or.inr ⟨by decide, by decide⟩
  have hdesired : Near 0x2000#64 0x1000#64 := Or.inr ⟨by decide, by decide⟩
  refine (compareExchange_contract_iff .weak (.store hself) 7#8 8#8 (Or.inl rfl) hdesired).mpr ?_
  intro hnull
  exact absurd hnull (by decide)

/-- The word after the last node was popped: null with the stamp 1. -/
def popped : BitVec 64 :=
  (Variant.strong.call (store 0x2000#64 0x1000#64) 0x1000#64 0x2000#64 0#64 0#8 1#8).off

/-- A call that expects the node and its stamp 0 finds null and reports the stamp 0. -/
theorem not_contract_popped : Produced 0x1000#64 popped ∧ Near 0x2000#64 0x1000#64 ∧
    ¬ Contract .weak popped 0x1000#64 0x2000#64 0x3000#64 0#8 1#8
      (Variant.weak.call popped 0x1000#64 0x2000#64 0x3000#64 0#8 1#8) := by
  have hnode : Near 0x2000#64 0x1000#64 := Or.inr ⟨by decide, by decide⟩
  refine ⟨.exchange .strong 0#8 1#8 (.store hnode) hnode (Or.inl rfl), hnode, fun hcontract => ?_⟩
  have hreported := hcontract.reported (by decide)
  exact absurd hreported (by decide)

/-! ## The loop that pushes -/

/-- The loop of `fill_sb_list`, with no other thread that writes the word. -/
def pushLoop (x : Variant) (this newHead : Address) :
    Nat → BitVec 64 → Address → BitVec 8 → Option (BitVec 64)
  | 0, _, _, _ => none
  | fuel + 1, off, oldHead, oldStamp =>
      let r := x.call off this oldHead newHead oldStamp (oldStamp + 1)
      if r.ret then some r.off else pushLoop x this newHead fuel r.off r.expected r.expectedStamp

theorem pushLoop_null (x : Variant) {newHead oldHead : Address} {stamp oldStamp : BitVec 8}
    (hold : Near oldHead this) (hne : stamp ≠ oldStamp) (fuel : Nat) :
    pushLoop x this newHead fuel (stamped 0#64 this stamp) oldHead oldStamp = none := by
  induction fuel generalizing oldHead with
  | zero => rfl
  | succ fuel ih =>
      have hcall : x.call (stamped 0#64 this stamp) this oldHead newHead oldStamp (oldStamp + 1) =
          ⟨false, stamped 0#64 this stamp, 0#64, oldStamp⟩ := by
        rw [x.call_eq, exchangeOff_stamped stamp oldStamp _ (Or.inl rfl) hold,
          if_neg (fun hsame => hne hsame.2), if_pos rfl]
      rw [pushLoop, hcall]
      exact ih (Or.inl rfl)

theorem pushLoop_ends_iff (x : Variant) (h : Produced this off) {newHead oldHead : Address}
    (oldStamp : BitVec 8) (hold : Near oldHead this) (hnew : Near newHead this) :
    (∃ fuel off', pushLoop x this newHead fuel off oldHead oldStamp = some off') ↔
      ((load off this).1 = 0#64 → (load off this).2 = oldStamp) := by
  constructor
  · rintro ⟨fuel, off', hloop⟩ hnull
    obtain ⟨v, stamp, hv, rfl⟩ := h.stamped
    rw [load_stamped stamp hv] at hnull ⊢
    obtain rfl : v = 0#64 := hnull
    by_contra hne
    rw [pushLoop_null x hold hne fuel] at hloop
    simp at hloop
  · intro hnull
    have hcontract := (compareExchange_contract_iff x h oldStamp (oldStamp + 1) hold hnew).mpr hnull
    cases hret : (x.call off this oldHead newHead oldStamp (oldStamp + 1)).ret with
    | true => exact ⟨1, _, by rw [pushLoop, hret, if_pos rfl]⟩
    | false =>
        have hretry := hcontract.retry hret newHead
          ((x.call off this oldHead newHead oldStamp (oldStamp + 1)).expectedStamp + 1) hnew
        exact ⟨2, _, by
          rw [pushLoop, hret, if_neg Bool.false_ne_true, pushLoop, hretry, if_pos rfl]⟩

/-! ## Words of nodes -/

def addressOf (address : Nat → Address) (node : Option Nat) : Address := node.elim 0#64 address

def wordOf (address : Nat → Address) (this : Address) (p : StampedPtr) : BitVec 64 :=
  stamped (addressOf address p.ptr) this p.stamp

/-- Nodes are at different addresses near the word, and not at 0. -/
structure Placed (address : Nat → Address) (this : Address) (count : Nat) : Prop where
  inj : ∀ m < count, ∀ n < count, address m = address n → m = n
  ne_null : ∀ n < count, address n ≠ 0#64
  near : ∀ n < count, Near (address n) this

variable {address : Nat → Address} {count : Nat}

theorem Placed.near_addressOf (h : Placed address this count) {node : Option Nat}
    (hnode : ∀ n ∈ node, n < count) : Near (addressOf address node) this := by
  cases node with
  | none => exact Or.inl rfl
  | some n => exact h.near n (hnode n rfl)

theorem Placed.addressOf_inj (h : Placed address this count) {m n : Option Nat}
    (hm : ∀ k ∈ m, k < count) (hn : ∀ k ∈ n, k < count) :
    addressOf address m = addressOf address n ↔ m = n := by
  constructor
  · intro heq
    cases m with
    | none =>
        cases n with
        | none => rfl
        | some n => exact absurd heq.symm (h.ne_null n (hn n rfl))
    | some m =>
        cases n with
        | none => exact absurd heq (h.ne_null m (hm m rfl))
        | some n => rw [h.inj m (hm m rfl) n (hn n rfl) heq]
  · rintro rfl
    rfl

theorem call_refines (x : Variant) (h : Placed address this count) {p : StampedPtr}
    {expected desired : Option Nat} (expectedStamp desiredStamp : BitVec 8)
    (hp : ∀ n ∈ p.ptr, n < count) (hexpected : ∀ n ∈ expected, n < count) :
    x.call (wordOf address this p) this (addressOf address expected) (addressOf address desired)
        expectedStamp desiredStamp =
      ⟨(p.compareExchange expected desired expectedStamp desiredStamp).success,
        wordOf address this (p.compareExchange expected desired expectedStamp desiredStamp).value,
        addressOf address (p.compareExchange expected desired expectedStamp desiredStamp).expected,
        (p.compareExchange expected desired expectedStamp desiredStamp).stamp⟩ := by
  have hnull : addressOf address p.ptr = 0#64 ↔ p.ptr = none :=
    h.addressOf_inj (n := none) hp (by simp)
  have hsame : addressOf address p.ptr = addressOf address expected ∧ p.stamp = expectedStamp ↔
      p.ptr = expected ∧ p.stamp = expectedStamp := by
    rw [h.addressOf_inj hp hexpected]
  rw [x.call_eq, wordOf, exchangeOff_stamped p.stamp expectedStamp desiredStamp
    (h.near_addressOf hp) (h.near_addressOf hexpected), StampedPtr.compareExchange]
  by_cases hequal : p.ptr = expected ∧ p.stamp = expectedStamp
  · rw [if_pos (hsame.mpr hequal), if_pos hequal]
    rfl
  · rw [if_neg (fun h => hequal (hsame.mp h)), if_neg hequal]
    cases hptr : p.ptr with
    | none =>
        rw [hptr] at hnull
        rw [if_pos (hnull.mpr rfl), wordOf, hptr]
        rfl
    | some n =>
        rw [hptr] at hnull
        rw [if_neg (fun h => by simpa using hnull.mp h), wordOf, hptr]

end AtomicStampedPPtr

end Libcrpm
