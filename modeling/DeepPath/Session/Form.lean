import DeepPath.Decimal.Binary64

/-!
# Forms

A session names types and values by forms, which are evaluated when a statement runs.  Each
evaluation of a form that makes objects or arrays makes new ones.
-/

namespace DeepPath.Session

/-- A form that stands for a slot type. -/
inductive TyForm where
  | any
  | bool
  | int
  | float
  | str
  | anyObject
  /-- Objects of the type declared under a name. -/
  | object (id : String)
  | array (element : TyForm)

/-- A form that stands for a value. -/
inductive ValueForm where
  | null
  | bool (value : Bool)
  | int (value : Int64)
  | float (value : Binary64)
  | str (value : String)
  /-- What a variable holds. -/
  | held (name : String)
  /-- A new object of the type declared under a name. -/
  | create (type : String)
  /-- An object, after one of its members has been written. -/
  | having (object : ValueForm) (name : String) (value : ValueForm)
  /-- A new array. -/
  | array (element : TyForm) (items : List ValueForm)
  /-- A new array without elements. -/
  | empty (element : TyForm)
  /-- The default value of a type. -/
  | default (ty : TyForm)
  /-- A deep copy. -/
  | copy (value : ValueForm)
  /-- What a written path leads to. -/
  | read (root : ValueForm) (path : String)

end DeepPath.Session
