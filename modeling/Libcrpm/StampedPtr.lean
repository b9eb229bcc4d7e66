import Mathlib.Data.BitVec

/-!
# Stamped pointers

`atomic_stamped_pptr` of `internal/pptr.h`: a pointer and a stamp of eight bits that are
exchanged together.  Nodes are given by their index.
-/

namespace Libcrpm

structure StampedPtr where
  ptr : Option Nat
  stamp : BitVec 8
deriving DecidableEq

namespace StampedPtr

/-- What a call of `compare_exchange` leaves in the word and in its arguments `expected` and
`expected_stamp`. -/
structure Exchange where
  success : Bool
  value : StampedPtr
  expected : Option Nat
  stamp : BitVec 8

/-- `compare_exchange_strong`.  A failed exchange that finds the null pointer does not report
the stamp it found. -/
def compareExchange (p : StampedPtr) (expected desired : Option Nat)
    (expectedStamp desiredStamp : BitVec 8) : Exchange :=
  if p.ptr = expected ∧ p.stamp = expectedStamp then
    ⟨true, ⟨desired, desiredStamp⟩, expected, expectedStamp⟩
  else
    match p.ptr with
    | none => ⟨false, p, none, expectedStamp⟩
    | some found => ⟨false, p, some found, p.stamp⟩

theorem compareExchange_self (p : StampedPtr) (desired : Option Nat) (desiredStamp : BitVec 8) :
    p.compareExchange p.ptr desired p.stamp desiredStamp =
      ⟨true, ⟨desired, desiredStamp⟩, p.ptr, p.stamp⟩ := by
  rw [compareExchange, if_pos ⟨rfl, rfl⟩]

end StampedPtr

end Libcrpm
