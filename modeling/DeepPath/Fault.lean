import DeepPath.Path.Dialect

/-!
# Faults

A fault is one way in which a single step can go wrong.  A failure is a fault together with the
place on the path where it arose and the direction of the walk: the descent from the root to the
leaf, which writes nothing, or the ascent that carries a new leaf back up.
-/

namespace DeepPath

/-- The kinds of failure, without their details. -/
inductive Reason where
  | malformed
  | noMember
  | noContainer
  | outOfRange
  | wrongType
  deriving DecidableEq

/-- The name of a kind of failure. -/
def Reason.label : Reason → String
  | .malformed => "MalformedPath"
  | .noMember => "NoSuchMember"
  | .noContainer => "NotIndexable"
  | .outOfRange => "IndexOutOfRange"
  | .wrongType => "TypeMismatch"

/-- What can go wrong with one member or element. -/
inductive Fault where
  /-- A value of this type has no such member. -/
  | noMember (typeName : String)
  /-- A value of this type is not a container of fixed size. -/
  | noContainer (typeName : String)
  /-- A container of this length has no element at this position. -/
  | outOfRange (index : UInt64) (length : Nat)
  /-- A value of one type stands where another type is expected. -/
  | wrongType (expected found : String)
  deriving DecidableEq

namespace Fault

/-- The kind of a fault. -/
def reason : Fault → Reason
  | .noMember _ => .noMember
  | .noContainer _ => .noContainer
  | .outOfRange _ _ => .outOfRange
  | .wrongType _ _ => .wrongType

/-- A fault in words. -/
def message : Fault → String
  | .noMember typeName => s!"`{typeName}` has no member with this name"
  | .noContainer typeName => s!"`{typeName}` is not an indexable container"
  | .outOfRange index length =>
    s!"index {index.toNat} is out of range for a container of length {length}"
  | .wrongType expected found => s!"expected a value of type `{expected}`, found `{found}`"

end Fault

/-- The two directions of a walk. -/
inductive Direction where
  /-- From the root to the leaf. -/
  | descent
  /-- From the leaf back to the root. -/
  | ascent
  deriving DecidableEq

/-- The name of a direction. -/
def Direction.label : Direction → String
  | .descent => "unfold"
  | .ascent => "fold"

/-- A fault and where it arose. -/
structure Failure where
  /-- What went wrong. -/
  fault : Fault
  /-- The step that could not be done. -/
  step : Step
  /-- The number of steps in front of it. -/
  depth : Nat
  /-- The direction of the walk. -/
  direction : Direction
  deriving DecidableEq

/-- A failure in words. -/
def Failure.message (f : Failure) : String :=
  s!"Error accessing `{f.step.text}` (segment {f.depth}) during {f.direction.label}: {f.fault.message}"

end DeepPath
