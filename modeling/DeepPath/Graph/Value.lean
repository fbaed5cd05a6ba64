import DeepPath.Decimal.Binary64
import DeepPath.Graph.ObjectType

/-!
# Values

A value is a scalar, a handle on an object, or an array.  Objects live in a store and are shared by
their handles; arrays never change, so an array is its elements, together with a number that tells
one array from another with the same content.
-/

namespace DeepPath

/-- A handle on an object: where it lives, and its type. -/
structure Handle where
  id : Nat
  type : ObjectType

/-- A value. -/
inductive Value where
  | null
  | bool (value : Bool)
  | int (value : Int64)
  | float (value : Binary64)
  | str (value : String)
  | object (handle : Handle)
  /-- An array: its number, the type of its elements, and these. -/
  | array (id : Nat) (element : Ty) (items : List Value)

/-- The kinds of values. -/
inductive Kind where
  | null
  | bool
  | int
  | float
  | str
  | object
  | array
  deriving DecidableEq

namespace Kind

/-- The name of a kind. -/
def label : Kind → String
  | .null => "Null"
  | .bool => "Bool"
  | .int => "Int"
  | .float => "Float"
  | .str => "Str"
  | .object => "Object"
  | .array => "Array"

/-- All kinds. -/
def all : List Kind :=
  [.null, .bool, .int, .float, .str, .object, .array]

end Kind

namespace Value

/-- The kind of a value. -/
def kind : Value → Kind
  | .null => .null
  | .bool _ => .bool
  | .int _ => .int
  | .float _ => .float
  | .str _ => .str
  | .object _ => .object
  | .array _ _ _ => .array

/-- The type of a value; of `null` nothing is known. -/
def ty : Value → Ty
  | .null => .any
  | .bool _ => .bool
  | .int _ => .int
  | .float _ => .float
  | .str _ => .str
  | .object handle => .ofObjects handle.type
  | .array _ element _ => .array element

/-- The name of the type of a value. -/
def typeName : Value → String
  | .null => "null"
  | v => v.ty.text

/-- Whether a value is `null`. -/
def isNull : Value → Bool
  | .null => true
  | _ => false

/-- The object a value is a handle on. -/
def handle? : Value → Option Handle
  | .object handle => some handle
  | _ => none

/-- The elements of an array. -/
def items? : Value → Option (List Value)
  | .array _ _ items => some items
  | _ => none

/-- Whether two values are the same object or the same array; other values have no identity. -/
def sameIdentity? : Value → Value → Option Bool
  | .object a, .object b => some (a.id == b.id)
  | .array i _ _, .array j _ _ => some (i == j)
  | _, _ => none

mutual

/-- Equality of values.  Objects are equal if they are the same; arrays also if they have the same
element type and equal elements. -/
def equal : Value → Value → Bool
  | .null, .null => true
  | .bool a, .bool b => a == b
  | .int a, .int b => a == b
  | .float a, .float b => a.equal b
  | .str a, .str b => a == b
  | .object a, .object b => a.id == b.id
  | .array i a xs, .array j b ys => i == j || a.same b && equalItems xs ys
  | _, _ => false

/-- Equality of the elements of arrays. -/
def equalItems : List Value → List Value → Bool
  | [], [] => true
  | x :: xs, y :: ys => x.equal y && equalItems xs ys
  | _, _ => false

end

end Value

namespace Ty

/-- Whether a slot takes a value. -/
def admits : Ty → Value → Bool
  | .any, _ => true
  | .anyObject, .null | .object _, .null | .array _, .null => true
  | .bool, .bool _ | .int, .int _ | .float, .float _ | .str, .str _ => true
  | .anyObject, .object _ => true
  | .object type, .object handle => handle.type.lineage.descendsFrom type
  | .array element, .array _ other _ => element.includes other
  | _, _ => false

end Ty

end DeepPath
