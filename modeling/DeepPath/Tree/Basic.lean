import DeepPath.Model.Basic

/-!
# Trees

Trees are owned values: whole numbers, texts, records of named members, tuples and bags.  Nothing is
shared, so writing a member makes a new tree.  Only tuples are containers of fixed size; what a bag
holds cannot be reached.  Among members of one name the first counts.

A member keeps its kind when it is written.  When an element of a tuple is replaced, all others must
have its kind.  Records called `Frozen` cannot be written at all.
-/

namespace DeepPath

/-- An owned value. -/
inductive Tree where
  | int (value : Int64)
  | text (value : String)
  | record (name : String) (members : List (String × Tree))
  | tuple (items : List Tree)
  | bag (items : List Tree)

namespace Tree

/-- The kind of a tree: for a record its name. -/
def kind : Tree → String
  | .int _ => "int"
  | .text _ => "text"
  | .record name _ => name
  | .tuple _ => "tuple"
  | .bag _ => "bag"

/-- The members of a tree. -/
def members : Tree → List (String × Tree)
  | .record _ members => members
  | _ => []

/-- What the first member of this name holds. -/
def getMember (t : Tree) (name : String) : Except Fault Tree :=
  match t.members.lookup name with
  | some value => .ok value
  | none => .error (.noMember t.kind)

/-- The members, with `value` in the first one of this name. -/
def writeFirst (name : String) (value : Tree) : List (String × Tree) → List (String × Tree)
  | [] => []
  | (other, old) :: rest =>
    if name = other then (other, value) :: rest else (other, old) :: writeFirst name value rest

/-- The kind of records that cannot be written. -/
def frozen : String :=
  "Frozen"

/-- The tree with `value` in the first member of this name. -/
def setMember (t : Tree) (name : String) (value : Tree) : Except Fault Tree :=
  if t.kind = frozen then
    .error (.wrongType "a writable record" t.kind)
  else
    match t with
    | .record type members =>
      match members.lookup name with
      | none => .error (.noMember type)
      | some old =>
        if old.kind = value.kind then
          .ok (.record type (writeFirst name value members))
        else
          .error (.wrongType old.kind value.kind)
    | _ => .error (.noMember t.kind)

/-- Whether a tree is a container of fixed size. -/
def isContainer : Tree → Bool
  | .tuple _ => true
  | _ => false

/-- The elements of a tuple. -/
def view : Tree → Except Fault (View Tree)
  | .tuple items => .ok ⟨.tuple items, items⟩
  | t => .error (.noContainer t.kind)

/-- A tuple of the elements of a view, one of them replaced. -/
def rebuild (v : View Tree) (index : UInt64) (value : Tree) : Except Fault Tree := do
  let items ← v.replaced index value
  match items.find? fun item => item.kind != value.kind with
  | some other => .error (.wrongType value.kind other.kind)
  | none => .ok (.tuple items)

/-- Trees as values to walk on.  They need no state and leave any state as it is. -/
def model {σ : Type} : Model σ Tree where
  typeName t := return t.kind
  hasMember t name := return (t.members.lookup name).isSome
  getMember t name := return t.getMember name
  setMember t name value :=
    return match t.setMember name value with
    | .ok written => (written, .ok ())
    | .error fault => (t, .error fault)
  isContainer t := return t.isContainer
  view t := return t.view
  rebuild v index value := return rebuild v index value

end Tree

end DeepPath
