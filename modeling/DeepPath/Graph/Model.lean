import DeepPath.Graph.Store
import DeepPath.Model.Basic

/-!
# Objects as values to walk on

Members of an object are read and written in its cell, so every handle on it sees the change.
Arrays are the containers of fixed size: replacing an element makes a new array.

The new array takes the type of the new element, if all other elements fit it, and keeps the old
element type otherwise; `null` has no type of its own and always keeps it.
-/

namespace DeepPath.Graph

/-- What a member of a value holds. -/
def getMember (s : Store) (v : Value) (name : String) : Except Fault Value :=
  match v.handle?.bind fun handle => s.get? handle name with
  | some found => .ok found
  | none => .error (.noMember v.typeName)

/-- The elements of a value. -/
def viewOf (v : Value) : Except Fault (View Value) :=
  match v.items? with
  | some items => .ok ⟨v, items⟩
  | none => .error (.noContainer v.typeName)

/-- The element type that a view vouches for. -/
def vouchedTy (view : View Value) : Ty :=
  match view.source with
  | .array _ element _ => element
  | _ => .any

/-- A new array: the elements of a view, one of them replaced. -/
def rebuild (view : View Value) (index : UInt64) (value : Value) :
    Action Store (Except Fault Value) := do
  let wide := vouchedTy view
  let narrow := if value.isNull then wide else value.ty
  match view.replaced index value with
  | .error fault => return .error fault
  | .ok items =>
    if items.all narrow.admits then
      return .ok (← Action.change fun s => s.newArray narrow items)
    else if wide.admits value then
      Action.emit (.widened narrow.text wide.text)
      return .ok (← Action.change fun s => s.newArray wide items)
    else
      return .error (.wrongType wide.text value.typeName)

/-- Writes a member of an object. -/
def write (h : Handle) (name : String) (value : Value) : Action Store (Except Fault Unit) := do
  match (← Action.get).set h name value with
  | .error fault => return .error fault
  | .ok store =>
    Action.set store
    return .ok ()

/-- The values over a store. -/
def model : Model Store Value where
  typeName v := return v.typeName
  hasMember v name := return (v.handle?.map fun handle => handle.type.has name).getD false
  getMember v name := do return getMember (← Action.get) v name
  setMember v name value := do
    match v.handle? with
    | some handle => return (v, ← write handle name value)
    | none => return (v, .error (.noMember v.typeName))
  isContainer v := return v.items?.isSome
  view v := return viewOf v
  rebuild := rebuild

end DeepPath.Graph
