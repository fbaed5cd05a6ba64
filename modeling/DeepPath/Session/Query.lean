import DeepPath.Graph.Undo
import DeepPath.Graph.Text
import DeepPath.Problem
import DeepPath.Session.Dump
import DeepPath.Session.Form

/-!
# Queries

A session holds a store, types and values under names, and the numbers given out by dumps.  A query
is an action on a session that may end in a problem; evaluating forms and showing values are queries.
-/

namespace DeepPath

/-- The state of a session. -/
structure Session where
  store : Store := {}
  /-- The types declared, the latest first. -/
  types : List (String × ObjectType) := []
  /-- The values, the latest first. -/
  values : List (String × Value) := []
  numbered : Session.Numbering := {}

namespace Session

/-- An action on a session that may end in a problem. -/
abbrev Query : Type → Type :=
  ExceptT Problem (Action Session)

/-- An action on the store, which always has a result. -/
def inStore {α : Type} (x : Action Store α) : Query α :=
  ExceptT.lift (Action.within Session.store (fun store session => { session with store }) x)

/-- The session as it is. -/
def current : Query Session :=
  ExceptT.lift Action.get

/-- Changes the session. -/
def change {α : Type} (f : Session → α × Session) : Query α :=
  ExceptT.lift (Action.change f)

/-- The type declared under a name. -/
def typeNamed (id : String) : Query ObjectType := do
  match (← current).types.lookup id with
  | some type => return type
  | none => throw (.meaningless id)

/-- What a variable holds. -/
def valueOf (name : String) : Query Value := do
  match (← current).values.lookup name with
  | some value => return value
  | none => throw (.meaningless name)

/-- Lets a variable hold a value. -/
def bind (name : String) (value : Value) : Query Unit :=
  change fun session =>
    ((), { session with values := (name, value) :: session.values })

/-- Declares a type under a name. -/
def declare (id : String) (type : ObjectType) : Query Unit :=
  change fun session => ((), { session with types := (id, type) :: session.types })

/-- The object that a value is a handle on. -/
def objectOf (value : Value) : Query Handle :=
  match value.handle? with
  | some handle => return handle
  | none => throw (.meaningless value.typeName)

/-- Goes on with the result of a single access. -/
def accessed {α : Type} (result : Except Fault α) : Query α :=
  match result with
  | .ok a => return a
  | .error fault => throw (.fault fault)

/-! ## Forms -/

/-- The type a form stands for. -/
def TyForm.eval : TyForm → Query Ty
  | .any => return .any
  | .bool => return .bool
  | .int => return .int
  | .float => return .float
  | .str => return .str
  | .anyObject => return .anyObject
  | .object id => return .ofObjects (← typeNamed id)
  | .array element => return .array (← element.eval)

/-- Makes an array. -/
def makeArray (element : Ty) (items : List Value) : Query Value := do
  let (array, store) ← accessed ((← current).store.makeArray element items)
  inStore (Action.set store)
  return array

mutual

/-- The value a form stands for. -/
def ValueForm.eval : ValueForm → Query Value
  | .null => return .null
  | .bool value => return .bool value
  | .int value => return .int value
  | .float value => return .float value
  | .str value => return .str value
  | .held name => valueOf name
  | .create type => do
    let type ← typeNamed type
    return .object (← inStore (Action.change fun s => s.create type))
  | .having object name value => do
    let object ← object.eval
    let value ← value.eval
    accessed (← inStore (Graph.write (← objectOf object) name value))
    return object
  | .array element items => do
    let element ← element.eval
    makeArray element (← evalAll items)
  | .empty element => do makeArray (← element.eval) []
  | .default ty => do
    let ty ← ty.eval
    inStore (Action.change fun s => s.default ty)
  | .copy value => do
    let value ← value.eval
    inStore (Graph.copy value)
  | .read root path => do
    let root ← root.eval
    match ← inStore (Graph.model.readGiven (.text .standard path) root) with
    | .ok value => return value
    | .error error => throw (.ofError error)

/-- The values that forms stand for, from left to right. -/
def evalAll : List ValueForm → Query (List Value)
  | [] => return []
  | form :: rest => do
    let value ← form.eval
    return value :: (← evalAll rest)

end

/-- The object a form stands for. -/
def ValueForm.evalObject (form : ValueForm) : Query Handle := do
  objectOf (← form.eval)

/-! ## Showing values -/

/-- A value as an answer shows it. -/
inductive Shown where
  | dump (dump : Dump)
  | text (text : String)

/-- Writes a value out. -/
def showDump (value : Value) : Query Dump :=
  change fun session =>
    let (d, numbered) := dump session.store session.numbered value
    (d, { session with numbered })

/-- Writes values out in one dump. -/
def showDumps (values : List Value) : Query (List Dump) :=
  change fun session =>
    let (dumps, numbered) := dumpAll session.store session.numbered values
    (dumps, { session with numbered })

/-- Shows a value, by its short text if `brief` is set. -/
def showValue (brief : Bool) (value : Value) : Query Shown := do
  if brief then return .text value.text else return .dump (← showDump value)

end Session

end DeepPath
