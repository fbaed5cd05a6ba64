import DeepPath.Session.Query

/-!
# Changes of leaves

A change writes members of objects first, and then makes a new leaf of the old one.  What it writes
and what it makes are given by forms, which are evaluated before the edit begins.
-/

namespace DeepPath.Session

/-- What becomes of a leaf; a transformation made for another kind of leaf leaves it alone. -/
inductive Transform (V : Type) where
  /-- The leaf itself. -/
  | keep
  /-- This value. -/
  | const (value : V)
  /-- The sum with a number, modulo 2 ^ 64. -/
  | add (amount : Int64)
  /-- A text extended. -/
  | append (suffix : String)
  /-- The other truth value. -/
  | negate
  /-- A deep copy. -/
  | copy
  /-- The object, after one of its members has been written if that is possible. -/
  | write (name : String) (value : V)

/-- A change of a leaf: members to write, and what becomes of the leaf. -/
structure Change (O V : Type) where
  writes : List (O × String × V)
  transform : Transform V

namespace Transform

/-- The transformation whose forms have been evaluated. -/
def eval : Transform ValueForm → Query (Transform Value)
  | .keep => return .keep
  | .const value => return .const (← value.eval)
  | .add amount => return .add amount
  | .append suffix => return .append suffix
  | .negate => return .negate
  | .copy => return .copy
  | .write name value => return .write name (← value.eval)

/-- What a transformation makes of a leaf. -/
def apply : Transform Value → Value → Action Store Value
  | .const value, _ => return value
  | .add amount, .int n => return .int (n + amount)
  | .append suffix, .str s => return .str (s ++ suffix)
  | .negate, .bool b => return .bool !b
  | .copy, leaf => Graph.copy leaf
  | .write name value, .object handle => do
    let _ ← Graph.write handle name value
    return .object handle
  | _, leaf => return leaf

end Transform

namespace Change

/-- The change whose forms have been evaluated: the transformation first, then the writes in order. -/
def eval (c : Change ValueForm ValueForm) : Query (Change Handle Value) := do
  let transform ← c.transform.eval
  let writes ← c.writes.mapM fun (object, name, value) => do
    let handle ← object.evalObject
    return (handle, name, ← value.eval)
  return ⟨writes, transform⟩

/-- What a change makes of a leaf, after its writes. -/
def apply (c : Change Handle Value) (leaf : Value) : Action Store Value := do
  for (handle, name, value) in c.writes do
    let _ ← Graph.write handle name value
  c.transform.apply leaf

/-- How the writes turn out that a change makes when it is given a leaf, its transformation included.
Whether a write succeeds is decided by types alone, so it does not depend on when it is done. -/
def results (c : Change Handle Value) (leaf : Value) : List (Except Fault Unit) :=
  let result (h : Handle) (name : String) (value : Value) : Except Fault Unit :=
    (h.check name value).map fun _ => ()
  let last :=
    match c.transform, leaf with
    | .write name value, .object handle => [result handle name value]
    | _, _ => []
  c.writes.map (fun (handle, name, value) => result handle name value) ++ last

end Change

end DeepPath.Session
