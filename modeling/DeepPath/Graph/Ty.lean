/-!
# Types of slots

A type says which values a slot takes.  Types of objects are known by name: an object type is of the
lineage that lists its own name and those of its ancestors, and it is a subtype of every type named
there.  Arrays are covariant: an array type admits what the type of its elements admits elementwise.
-/

namespace DeepPath

/-- The name of an object type, and the names of its ancestors, nearest first. -/
structure Lineage where
  name : String
  ancestors : List String
  deriving DecidableEq

namespace Lineage

/-- All names of a lineage, the type's own name first. -/
def names (l : Lineage) : List String :=
  l.name :: l.ancestors

/-- Whether a type is named in the lineage. -/
def descendsFrom (l m : Lineage) : Bool :=
  l.names.contains m.name

theorem descendsFrom_iff {l m : Lineage} : l.descendsFrom m ↔ m.name ∈ l.names := by
  simp [descendsFrom]

theorem descendsFrom_self (l : Lineage) : l.descendsFrom l :=
  descendsFrom_iff.mpr (List.mem_cons_self ..)

end Lineage

/-- The type of a slot. -/
inductive Ty where
  /-- Every value. -/
  | any
  | bool
  | int
  | float
  | str
  /-- Objects of every type. -/
  | anyObject
  /-- Objects of a type and its subtypes. -/
  | object (type : Lineage)
  /-- Arrays whose elements have a type. -/
  | array (element : Ty)
  deriving DecidableEq

namespace Ty

/-- A type as it is written. -/
def text : Ty → String
  | .any => "any"
  | .bool => "bool"
  | .int => "int"
  | .float => "float"
  | .str => "str"
  | .anyObject => "object"
  | .object type => type.name
  | .array element => element.text ++ "[]"

/-- Whether two types are the same, where object types are known by name. -/
def same : Ty → Ty → Bool
  | .any, .any | .bool, .bool | .int, .int | .float, .float | .str, .str => true
  | .anyObject, .anyObject => true
  | .object a, .object b => a.name == b.name
  | .array a, .array b => a.same b
  | _, _ => false

/-- Whether a slot of the first type takes what is of the second type. -/
def includes : Ty → Ty → Bool
  | .any, _ => true
  | .bool, .bool | .int, .int | .float, .float | .str, .str => true
  | .anyObject, .anyObject => true
  | .anyObject, .object _ => true
  | .object a, .object b => b.descendsFrom a
  | .array a, .array b => a.includes b
  | _, _ => false

theorem same_self (a : Ty) : a.same a := by
  induction a <;> simp_all [same]

theorem includes_self (a : Ty) : a.includes a := by
  induction a <;> simp_all [includes, Lineage.descendsFrom_self]

end Ty

end DeepPath
