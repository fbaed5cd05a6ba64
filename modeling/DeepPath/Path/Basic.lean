/-!
# Steps and paths

A step leads from a value to one of its parts: to the member of a given name, or to the element of
a fixed-size container at a given position.  Positions are 64-bit words.

A path is a non-empty sequence of steps from a root to a leaf.  It is a first step and the steps
after it, so an empty path cannot be written down.  `steps` is the view as a list: concatenation
is concatenation of steps (`steps_append`), and a path is determined by its steps (`steps_inj`).
-/

namespace DeepPath

/-- One step into a value. -/
inductive Step where
  /-- To the member called `name`. -/
  | member (name : String)
  /-- To the element at `index`. -/
  | element (index : UInt64)
  deriving DecidableEq

namespace Step

/-- Members come before elements; members are ordered by name, elements by position. -/
def order : Step → Step → Ordering
  | .member a, .member b => compare a b
  | .member _, .element _ => .lt
  | .element _, .member _ => .gt
  | .element i, .element j => compare i j

instance : Ord Step := ⟨order⟩

/-- Whether a step asks for a member. -/
def isMember : Step → Bool
  | .member _ => true
  | .element _ => false

@[simp] theorem isMember_member (name : String) : (member name).isMember = true := rfl

@[simp] theorem isMember_element (index : UInt64) : (element index).isMember = false := rfl

end Step

/-- A non-empty sequence of steps. -/
structure Path where
  /-- The step applied to the root. -/
  first : Step
  /-- The steps after the first. -/
  rest : List Step
  deriving DecidableEq

namespace Path

/-- The steps of a path, root first. -/
def steps (p : Path) : List Step :=
  p.first :: p.rest

/-- The path with these steps, if there are any. -/
def ofSteps? : List Step → Option Path
  | [] => none
  | first :: rest => some ⟨first, rest⟩

/-- The number of steps. -/
def length (p : Path) : Nat :=
  p.rest.length + 1

/-- The step that addresses the leaf. -/
def last (p : Path) : Step :=
  p.rest.getLastD p.first

/-- The path to the container of the leaf; a path of one step has none. -/
def parent? (p : Path) : Option Path :=
  ofSteps? p.steps.dropLast

/-- The path that goes on with `q` where `p` ends. -/
def append (p q : Path) : Path :=
  ⟨p.first, p.rest ++ q.steps⟩

instance : Append Path := ⟨append⟩

/-- Paths are ordered lexicographically by their steps. -/
def order (p q : Path) : Ordering :=
  List.compareLex compare p.steps q.steps

instance : Ord Path := ⟨order⟩

/-! ## The list of steps -/

@[simp] theorem steps_mk (first : Step) (rest : List Step) :
    (Path.mk first rest).steps = first :: rest := rfl

theorem steps_ne_nil (p : Path) : p.steps ≠ [] :=
  List.cons_ne_nil _ _

@[simp] theorem length_steps (p : Path) : p.steps.length = p.length := rfl

theorem length_pos (p : Path) : 0 < p.length :=
  Nat.succ_pos _

@[simp] theorem getLast?_steps (p : Path) : p.steps.getLast? = some p.last := by
  rw [steps, List.getLast?_cons, last, List.getLastD_eq_getLast?]

@[simp] theorem ofSteps?_steps (p : Path) : ofSteps? p.steps = some p := rfl

theorem ofSteps?_eq_some_iff {l : List Step} {p : Path} : ofSteps? l = some p ↔ l = p.steps := by
  cases l with
  | nil => simp [ofSteps?, steps]
  | cons first rest =>
    cases p
    simp [ofSteps?, steps]

theorem steps_inj {p q : Path} : p.steps = q.steps ↔ p = q := by
  rw [← ofSteps?_eq_some_iff, ofSteps?_steps, Option.some.injEq]

/-! ## Concatenation -/

@[simp] theorem steps_append (p q : Path) : (p ++ q).steps = p.steps ++ q.steps := rfl

@[simp] theorem first_append (p q : Path) : (p ++ q).first = p.first := rfl

@[simp] theorem rest_append (p q : Path) : (p ++ q).rest = p.rest ++ q.steps := rfl

@[simp] theorem length_append (p q : Path) : (p ++ q).length = p.length + q.length := by
  simp [← length_steps]

protected theorem append_assoc (p q r : Path) : p ++ q ++ r = p ++ (q ++ r) := by
  simp [← steps_inj]

end Path

end DeepPath
