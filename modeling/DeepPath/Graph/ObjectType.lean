import DeepPath.Graph.Ty

/-!
# Object types

An object type declares members and may extend a base type, whose members it inherits.  Its objects
have one slot for each member of the base and each member of its own, in this order.  A member may
have the name of an inherited one: both have a slot, and the name finds the most derived member.
-/

namespace DeepPath

/-- Whether a member is for everyone; nothing here depends on it. -/
inductive Visibility where
  | shown
  | hidden
  deriving DecidableEq

/-- The name of a visibility. -/
def Visibility.label : Visibility → String
  | .shown => "Public"
  | .hidden => "Private"

/-- A member of an object type. -/
structure Member where
  name : String
  /-- What its slot takes. -/
  ty : Ty
  visibility : Visibility
  deriving DecidableEq

namespace Member

/-- Whether two members are the same, where object types are known by name. -/
def same (m n : Member) : Bool :=
  m.name == n.name && m.ty.same n.ty && m.visibility == n.visibility

/-- Whether two lists of members are the same. -/
def sameAll : List Member → List Member → Bool
  | [], [] => true
  | m :: ms, n :: ns => m.same n && sameAll ms ns
  | _, _ => false

/-- The members with `m` declared: in the place of the first one of its name, or at the end. -/
def insert (m : Member) : List Member → List Member
  | [] => [m]
  | other :: rest => if other.name = m.name then m :: rest else other :: insert m rest

/-- The members that declarations, made one after the other, come to. -/
def ofDeclarations (declarations : List Member) : List Member :=
  declarations.foldl (fun members m => insert m members) []

/-- The last member of a name, and its position counted from `start`. -/
def findLast? (name : String) : Nat → List Member → Option (Nat × Member)
  | _, [] => none
  | start, m :: rest =>
    match findLast? name (start + 1) rest with
    | some hit => some hit
    | none => if m.name = name then some (start, m) else none

end Member

/-- The type of an object. -/
inductive ObjectType where
  /-- A type without a base. -/
  | root (name : String) (own : List Member)
  /-- A type that extends another. -/
  | extend (base : ObjectType) (name : String) (own : List Member)

namespace ObjectType

/-- The type that extends `base?`, if there is one, by the members that are declared. -/
def ofDeclarations (name : String) (base? : Option ObjectType) (declarations : List Member) :
    ObjectType :=
  let own := Member.ofDeclarations declarations
  match base? with
  | none => .root name own
  | some base => .extend base name own

/-- The name of a type. -/
def name : ObjectType → String
  | .root name _ => name
  | .extend _ name _ => name

/-- The type that a type extends. -/
def base? : ObjectType → Option ObjectType
  | .root _ _ => none
  | .extend base _ _ => some base

/-- The members that a type declares itself. -/
def own : ObjectType → List Member
  | .root _ own => own
  | .extend _ _ own => own

/-- The names of a type and its ancestors. -/
def lineage : ObjectType → Lineage
  | .root name _ => ⟨name, []⟩
  | .extend base name _ => ⟨name, base.lineage.names⟩

/-- The number of slots of an object. -/
def size : ObjectType → Nat
  | .root _ own => own.length
  | .extend base _ own => base.size + own.length

/-- The members of the slots of an object, in order. -/
def allMembers : ObjectType → List Member
  | .root _ own => own
  | .extend base _ own => base.allMembers ++ own

/-- The most derived member of a name, and its slot. -/
def find? (name : String) : ObjectType → Option (Nat × Member)
  | .root _ own => Member.findLast? name 0 own
  | .extend base _ own =>
    match Member.findLast? name base.size own with
    | some hit => some hit
    | none => base.find? name

/-- Whether an object has a member of a name. -/
def has (t : ObjectType) (name : String) : Bool :=
  (t.find? name).isSome

/-- The slots are numbered by the members. -/
@[simp] theorem length_allMembers (t : ObjectType) : t.allMembers.length = t.size := by
  induction t with
  | root => rfl
  | extend base name own ih => simp [allMembers, size, ih]

end ObjectType

/-- The type of slots that take objects of a type. -/
def Ty.ofObjects (t : ObjectType) : Ty :=
  .object t.lineage

end DeepPath
