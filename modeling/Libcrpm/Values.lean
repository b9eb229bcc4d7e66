import Libcrpm.Optimization
import Mathlib.Algebra.Ring.Int.Defs

/-!
# Pointers in the instrumentation pass

How `FunctionContext` looks through casts, address computations and loads, and what it asks
the alias analysis.
-/

namespace Libcrpm

/-- An index of an address computation: of an element of `size` bytes, or of a field, whose
index is constant. -/
inductive GepIndex (V : Type) where
  | element (index : V) (size : Nat)
  | field (offset : Nat)

structure GetElementPtr (V : Type) where
  isInBounds : Bool
  pointerOperand : V
  indices : List (GepIndex V)

def GetElementPtr.offset {V : Type} (gep : GetElementPtr V) (value : V → Int) : Int :=
  (gep.indices.map fun index =>
    match index with
    | .element index size => value index * size
    | .field offset => (offset : Int)).sum

/-- What LLVM knows of the values of a function.  `storeInsts` lists the instructions that
store through a pointer, `definition` the places of the instructions that define values. -/
structure ValueInfo (B V : Type) where
  castOperand : V → Option V
  gepOf : V → Option (GetElementPtr V)
  loadOf : V → Option V
  definition : V → Option (Inst B)
  storeInsts : List (Inst B × V)
  isMustAlias : V → V → Bool
  isNoAlias : V → V → Bool

namespace ValueInfo

variable {B V : Type} (info : ValueInfo B V)

def getUncastPointer (pointer : V) : V := (info.castOperand pointer).getD pointer

def getUnaryPointer (pointer : V) (nullIfFailed : Bool) : Option V :=
  match info.gepOf (info.getUncastPointer pointer) with
  | some gep => some gep.pointerOperand
  | none => if nullIfFailed then none else some (info.getUncastPointer pointer)

def getLoadPointer (pointer : V) (nullIfFailed : Bool) : Option V :=
  match info.loadOf (info.getUncastPointer pointer) with
  | some source => some source
  | none => if nullIfFailed then none else some (info.getUncastPointer pointer)

variable [DecidableEq B] (ctx : FunctionContext B)

/-- A store of the block that dominates the load may change what it loads. -/
def hasPotentialStoreIn (load : V) (block : B) : Bool :=
  info.storeInsts.any fun store =>
    store.1.parent = block &&
      (info.definition load).any (fun target => ctx.dt.dominates store.1 target) &&
      (info.loadOf load).any fun source => !info.isNoAlias store.2 source

/-- A store of the function that dominates the load may change what it loads. -/
def hasPotentialStore (load : V) : Bool :=
  info.storeInsts.any fun store => info.hasPotentialStoreIn ctx load store.1.parent

end ValueInfo

end Libcrpm
