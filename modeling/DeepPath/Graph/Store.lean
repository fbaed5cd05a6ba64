import DeepPath.Fault
import DeepPath.Graph.Value

/-!
# The store

Objects live in the cells of a store, one slot for each member.  An object is made with default
values in its slots; writing a member checks its type first, so that a failed write changes nothing.
The store also counts the arrays made, so that each gets a number of its own.
-/

namespace DeepPath

/-- Where an object lives. -/
structure Cell where
  type : ObjectType
  slots : List Value

/-- All objects, and the number for the next array. -/
structure Store where
  cells : Array Cell := #[]
  nextArray : Nat := 0

namespace Handle

/-- The slot that `value` may be written to, under the name of a member. -/
def check (h : Handle) (name : String) (value : Value) : Except Fault Nat :=
  match h.type.find? name with
  | none => .error (.noMember h.type.name)
  | some (slot, member) =>
    if member.ty.admits value then
      .ok slot
    else
      .error (.wrongType member.ty.text value.typeName)

end Handle

namespace Store

/-- The slots of the object at a place. -/
def slotsAt (s : Store) (id : Nat) : List Value :=
  match s.cells[id]? with
  | some cell => cell.slots
  | none => []

/-- What a member of an object holds. -/
def get? (s : Store) (h : Handle) (name : String) : Option Value :=
  match h.type.find? name with
  | none => none
  | some (slot, _) => (s.slotsAt h.id)[slot]?

/-- The store with other slots in an object. -/
def putSlots (s : Store) (id : Nat) (slots : List Value) : Store :=
  { s with cells := s.cells.modify id fun cell => { cell with slots } }

/-- The store with `value` in a slot of an object. -/
def write (s : Store) (id slot : Nat) (value : Value) : Store :=
  s.putSlots id ((s.slotsAt id).set slot value)

/-- The store after a member of an object has been written. -/
def set (s : Store) (h : Handle) (name : String) (value : Value) : Except Fault Store :=
  (h.check name value).map fun slot => s.write h.id slot value

/-- Gives `live` the slots of `saved`. -/
def revert (s : Store) (live saved : Handle) : Store :=
  if live.id = saved.id then s else s.putSlots live.id (s.slotsAt saved.id)

/-- A new array, unchecked. -/
def newArray (s : Store) (element : Ty) (items : List Value) : Value × Store :=
  (.array s.nextArray element items, { s with nextArray := s.nextArray + 1 })

/-- A new array of values that all fit the type of its elements. -/
def makeArray (s : Store) (element : Ty) (items : List Value) : Except Fault (Value × Store) :=
  match items.find? fun item => !element.admits item with
  | some item => .error (.wrongType element.text item.typeName)
  | none => .ok (s.newArray element items)

/-- The default value of a type; for an array type it is a new empty array. -/
def default (s : Store) : Ty → Value × Store
  | .any | .anyObject | .object _ => (.null, s)
  | .bool => (.bool false, s)
  | .int => (.int 0, s)
  | .float => (.float .zero, s)
  | .str => (.str "", s)
  | .array element => s.newArray element []

/-- The default values of some members, in order. -/
def defaults (s : Store) : List Member → List Value × Store
  | [] => ([], s)
  | m :: rest =>
    let (value, s) := s.default m.ty
    let (values, s) := defaults s rest
    (value :: values, s)

/-- A new object of a type, with default values. -/
def create (s : Store) (type : ObjectType) : Handle × Store :=
  let (slots, s) := s.defaults type.allMembers
  (⟨s.cells.size, type⟩, { s with cells := s.cells.push ⟨type, slots⟩ })

/-! ## What a write changes -/

@[simp] theorem size_putSlots (s : Store) (id : Nat) (slots : List Value) :
    (s.putSlots id slots).cells.size = s.cells.size := by
  simp [putSlots]

@[simp] theorem nextArray_putSlots (s : Store) (id : Nat) (slots : List Value) :
    (s.putSlots id slots).nextArray = s.nextArray := rfl

theorem slotsAt_putSlots_self (s : Store) {id : Nat} (slots : List Value) (h : id < s.cells.size) :
    (s.putSlots id slots).slotsAt id = slots := by
  simp [slotsAt, putSlots, h, Array.getElem_modify]

theorem slotsAt_putSlots_of_ne (s : Store) {id other : Nat} (slots : List Value)
    (h : other ≠ id) : (s.putSlots id slots).slotsAt other = s.slotsAt other := by
  simp [slotsAt, putSlots, Array.getElem?_modify, h.symm]

/-- A write succeeds exactly if its check does, and it changes one slot. -/
theorem set_eq_ok_iff {s t : Store} {h : Handle} {name : String} {value : Value} :
    s.set h name value = .ok t ↔
      ∃ slot, h.check name value = .ok slot ∧ s.write h.id slot value = t := by
  rw [set]
  cases h.check name value <;> simp [Except.map]

end Store

end DeepPath
