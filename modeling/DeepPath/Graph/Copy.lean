import DeepPath.Graph.Store

/-!
# Deep copies

A deep copy of a value copies every object that can be reached from it, once.  The copies are linked
like the originals, through shared objects and cycles alike; arrays are built at each place where
they stand.

The objects to copy are found by closing a list of places under the places that their slots lead
to.  The copy of the `k`-th of them gets the `k`-th new place, and all slots are renamed at once.
-/

namespace DeepPath

namespace Value

mutual

/-- The places of the objects that a value holds directly. -/
def places : Value → List Nat
  | .object handle => [handle.id]
  | .array _ _ items => placesOfItems items
  | _ => []

/-- The places of the objects that some values hold directly. -/
def placesOfItems : List Value → List Nat
  | [] => []
  | v :: rest => v.places ++ placesOfItems rest

end

mutual

/-- A value with its objects renamed and its arrays made anew, numbered from `next`; the number after
the last. -/
def rename (ρ : Nat → Nat) (next : Nat) : Value → Value × Nat
  | .object handle => (.object { handle with id := ρ handle.id }, next)
  | .array _ element items =>
    let (items, next) := renameItems ρ next items
    (.array next element items, next + 1)
  | v => (v, next)

/-- Values with their objects renamed and their arrays made anew. -/
def renameItems (ρ : Nat → Nat) (next : Nat) : List Value → List Value × Nat
  | [] => ([], next)
  | v :: rest =>
    let (v, next) := v.rename ρ next
    let (rest, next) := renameItems ρ next rest
    (v :: rest, next)

end

end Value

namespace Store

/-- The places that the slots of an object lead to. -/
def successors (s : Store) (id : Nat) : List Nat :=
  Value.placesOfItems (s.slotsAt id)

/-- The places that `seen` leads to in one step and does not hold. -/
def frontier (s : Store) (seen : List Nat) : List Nat :=
  (seen.flatMap s.successors).eraseDups.filter fun id => id < s.cells.size && !seen.contains id

/-- The places of the store that are not in `seen`. -/
def unseen (s : Store) (seen : List Nat) : List Nat :=
  (List.range s.cells.size).filter fun id => !seen.contains id

theorem unseen_append (s : Store) (seen more : List Nat) :
    s.unseen (seen ++ more) = (s.unseen seen).filter fun id => !more.contains id := by
  simp [unseen, List.filter_filter, Bool.and_comm]

/-- Seeing the frontier leaves less unseen. -/
theorem length_unseen_lt (s : Store) (seen : List Nat) (h : s.frontier seen ≠ []) :
    (s.unseen (seen ++ s.frontier seen)).length < (s.unseen seen).length := by
  obtain ⟨x, hx⟩ := List.exists_mem_of_ne_nil _ h
  rw [unseen_append, List.length_filter_lt_length_iff_exists]
  refine ⟨x, ?_, by simpa using hx⟩
  simp only [frontier, List.mem_filter, Bool.and_eq_true, decide_eq_true_eq] at hx
  exact List.mem_filter.mpr ⟨List.mem_range.mpr hx.2.1, hx.2.2⟩

/-- All places that can be reached from `seen`. -/
def closure (s : Store) (seen : List Nat) : List Nat :=
  if s.frontier seen = [] then seen else s.closure (seen ++ s.frontier seen)
termination_by (s.unseen seen).length
decreasing_by exact s.length_unseen_lt seen ‹_›

/-- The places of the objects that can be reached from a value. -/
def reach (s : Store) (v : Value) : List Nat :=
  s.closure (v.places.eraseDups.filter fun id => id < s.cells.size)

/-- The new place of each of the places `old`, when these are copied to the end of the store. -/
def copyPlace (s : Store) (old : List Nat) (id : Nat) : Nat :=
  match old.idxOf? id with
  | some k => s.cells.size + k
  | none => id

/-- The copies of the objects at some places, and the number after the last array made. -/
def copyCells (s : Store) (ρ : Nat → Nat) (next : Nat) : List Nat → List Cell × Nat
  | [] => ([], next)
  | id :: rest =>
    match s.cells[id]? with
    | none => s.copyCells ρ next rest
    | some cell =>
      let (slots, next) := Value.renameItems ρ next cell.slots
      let (cells, next) := s.copyCells ρ next rest
      (⟨cell.type, slots⟩ :: cells, next)

/-- A deep copy of a value. -/
def copy (s : Store) (v : Value) : Value × Store :=
  let old := s.reach v
  let ρ := s.copyPlace old
  let (cells, next) := s.copyCells ρ s.nextArray old
  let (v, next) := v.rename ρ next
  (v, ⟨s.cells ++ cells, next⟩)

end Store

end DeepPath
