import DeepPath.Graph.Store

/-!
# Dumps

A dump writes out everything that can be reached from a value.  Objects and arrays are numbered, each
sort by itself, in the order in which they first appear in any dump; in one dump each is written out
once, and is only its number where it is met again.
-/

namespace DeepPath.Session

/-- A value written out. -/
inductive Dump where
  | null
  | bool (value : Bool)
  | int (value : Int64)
  | float (value : Binary64)
  | str (value : String)
  /-- An object: its number, its type, and what its members hold, as far as they have a slot. -/
  | object (number : Nat) (type : String) (members : List (String × Option Dump))
  /-- An array: its number, the type of its elements, and these. -/
  | array (number : Nat) (element : String) (items : List Dump)
  /-- An object that is met again. -/
  | objectAgain (number : Nat)
  /-- An array that is met again. -/
  | arrayAgain (number : Nat)

/-- The objects and the arrays that have a number, in the order of their numbers. -/
structure Numbering where
  objects : List Nat := []
  arrays : List Nat := []

/-- The numbering, and what has been met in the current dump. -/
structure Tally where
  numbered : Numbering
  metObjects : List Nat := []
  metArrays : List Nat := []

/-- The number of `id`, and the list with `id` numbered. -/
def number (numbered : List Nat) (id : Nat) : Nat × List Nat :=
  match numbered.idxOf? id with
  | some n => (n, numbered)
  | none => (numbered.length, numbered ++ [id])

namespace Tally

/-- Meets an object; its number, and whether it had been met before. -/
def meetObject (id : Nat) : StateM Tally (Nat × Bool) := fun t =>
  let (n, objects) := number t.numbered.objects id
  ((n, t.metObjects.contains id),
    { t with numbered := { t.numbered with objects }, metObjects := id :: t.metObjects })

/-- Meets an array; its number, and whether it had been met before. -/
def meetArray (id : Nat) : StateM Tally (Nat × Bool) := fun t =>
  let (n, arrays) := number t.numbered.arrays id
  ((n, t.metArrays.contains id),
    { t with numbered := { t.numbered with arrays }, metArrays := id :: t.metArrays })

end Tally

mutual

/-- Writes a value out, with `object` for the objects in it. -/
def dumpWith (object : Handle → StateM Tally Dump) : Value → StateM Tally Dump
  | .null => return .null
  | .bool value => return .bool value
  | .int value => return .int value
  | .float value => return .float value
  | .str value => return .str value
  | .object handle => object handle
  | .array id element items => do
    let (n, again) ← Tally.meetArray id
    if again then
      return .arrayAgain n
    else
      return .array n element.text (← dumpItemsWith object items)

/-- Writes values out in turn. -/
def dumpItemsWith (object : Handle → StateM Tally Dump) : List Value → StateM Tally (List Dump)
  | [] => return []
  | v :: rest => do
    let d ← dumpWith object v
    return d :: (← dumpItemsWith object rest)

end

/-- Writes an object out.  Objects nested in each other are different ones, so the number of cells
bounds the depth. -/
def dumpObject (s : Store) : Nat → Handle → StateM Tally Dump
  | 0, handle => do return .objectAgain (← Tally.meetObject handle.id).1
  | depth + 1, handle => do
    let (n, again) ← Tally.meetObject handle.id
    if again then
      return .objectAgain n
    else
      let names := (handle.type.allMembers.map Member.name).eraseDups
      let members ← names.mapM fun name => do
        match s.get? handle name with
        | none => return (name, none)
        | some v => return (name, some (← dumpWith (dumpObject s depth) v))
      return .object n handle.type.name members

/-- Writes values out in one dump. -/
def dumpAll (s : Store) (numbered : Numbering) (values : List Value) : List Dump × Numbering :=
  let (dumps, tally) := dumpItemsWith (dumpObject s (s.cells.size + 1)) values ⟨numbered, [], []⟩
  (dumps, tally.numbered)

/-- Writes a value out. -/
def dump (s : Store) (numbered : Numbering) (v : Value) : Dump × Numbering :=
  let (d, tally) := dumpWith (dumpObject s (s.cells.size + 1)) v ⟨numbered, [], []⟩
  (d, tally.numbered)

end DeepPath.Session
