import DeepPath.Action
import DeepPath.Fault

/-!
# Models of values

A model says what the values of some world can be asked: which members they have, what these hold,
which of them are containers of fixed size.  The walks are written once, over any model.

Every question is an action, for a model may keep its values in a state, and may report what it
does.  Writing a member hands the written value back: for a model whose values are owned trees it
is a new value, for one whose values are handles it is the same handle.

A view lays a fixed-size container out as the list of its elements.  It has two operations, which
fail alike outside the range: the element at a position, and the elements with one of them
replaced.  Replacing leaves the view as it is.
-/

namespace DeepPath

/-! ## Views of containers -/

/-- A container and its elements. -/
structure View (V : Type) where
  /-- The container. -/
  source : V
  /-- Its elements in order. -/
  elements : List V

namespace View

variable {V : Type}

/-- The number of elements. -/
def length (v : View V) : Nat :=
  v.elements.length

/-- Whether there is no element. -/
def isEmpty (v : View V) : Bool :=
  v.elements.isEmpty

/-- The element at a position. -/
def get (v : View V) (index : UInt64) : Except Fault V :=
  match v.elements[index.toNat]? with
  | some element => .ok element
  | none => .error (.outOfRange index v.length)

/-- The elements with `value` at a position. -/
def replaced (v : View V) (index : UInt64) (value : V) : Except Fault (List V) :=
  (v.get index).map fun _ => v.elements.set index.toNat value

/-- The sum of words, modulo 2 ^ 64. -/
def sum (v : View Int64) : Int64 :=
  v.elements.foldl (· + ·) 0

theorem get_of_lt (v : View V) {index : UInt64} (h : index.toNat < v.elements.length) :
    v.get index = .ok v.elements[index.toNat] := by
  simp [get, h]

theorem get_of_le (v : View V) {index : UInt64} (h : v.elements.length ≤ index.toNat) :
    v.get index = .error (.outOfRange index v.length) := by
  simp [get, h]

theorem replaced_of_lt (v : View V) {index : UInt64} (value : V)
    (h : index.toNat < v.elements.length) :
    v.replaced index value = .ok (v.elements.set index.toNat value) := by
  simp [replaced, v.get_of_lt h, Except.map]

theorem replaced_of_le (v : View V) {index : UInt64} (value : V)
    (h : v.elements.length ≤ index.toNat) :
    v.replaced index value = .error (.outOfRange index v.length) := by
  simp [replaced, v.get_of_le h, Except.map]

end View

/-! ## Models -/

/-- What can be asked of values of type `V` in a world of states `σ`. -/
structure Model (σ V : Type) where
  /-- The name of the type of a value. -/
  typeName : V → Action σ String
  /-- Whether a value has a member of this name. -/
  hasMember : V → String → Action σ Bool
  /-- What a member holds. -/
  getMember : V → String → Action σ (Except Fault V)
  /-- Writes a member; the value afterwards and whether the write succeeded. -/
  setMember : V → String → V → Action σ (V × Except Fault Unit)
  /-- Whether a value is a container of fixed size. -/
  isContainer : V → Action σ Bool
  /-- The elements of a container. -/
  view : V → Action σ (Except Fault (View V))
  /-- A new container, with one element replaced. -/
  rebuild : View V → UInt64 → V → Action σ (Except Fault V)

end DeepPath
