import DeepPath.Model.Read

/-!
# Trails

A trail is what a walk down passes through: for each step the value it started from, and the leaf
at the end.  It has one value more than the path has steps.
-/

namespace DeepPath

/-- The values on the way from a root to a leaf. -/
structure Trail (V : Type) where
  /-- The values that the steps started from, root first. -/
  parents : List V
  /-- The value at the end. -/
  leaf : V

namespace Trail

variable {V : Type}

/-- All values, from the root to the leaf. -/
def values (t : Trail V) : List V :=
  t.parents ++ [t.leaf]

/-- The number of values. -/
def length (t : Trail V) : Nat :=
  t.parents.length + 1

/-- The value in front of the step at `depth`; at the number of steps it is the leaf. -/
def get? (t : Trail V) (depth : Nat) : Option V :=
  t.values[depth]?

/-- The trail that starts one value earlier. -/
def after (parent : V) (t : Trail V) : Trail V :=
  ⟨parent :: t.parents, t.leaf⟩

@[simp] theorem length_values (t : Trail V) : t.values.length = t.length := by
  simp [values, length]

@[simp] theorem values_after (parent : V) (t : Trail V) :
    (t.after parent).values = parent :: t.values := rfl

@[simp] theorem leaf_after (parent : V) (t : Trail V) : (t.after parent).leaf = t.leaf := rfl

@[simp] theorem length_after (parent : V) (t : Trail V) :
    (t.after parent).length = t.length + 1 := rfl

end Trail

namespace Model

variable {σ V : Type}

/-- The trail of some steps, of which the first is at `depth`. -/
def trailFrom (M : Model σ V) : Nat → List Step → V → Action σ (Except Failure (Trail V))
  | _, [], current => return .ok ⟨[], current⟩
  | depth, step :: rest, current => do
    match ← M.visit depth current step with
    | .error failure => return .error failure
    | .ok next => return (← M.trailFrom (depth + 1) rest next).map (Trail.after current)

/-- The trail of a path. -/
def trail (M : Model σ V) (path : Path) (root : V) : Action σ (Except Failure (Trail V)) := do
  let result ← M.trailFrom 0 path.steps root
  if let .error failure := result then
    Action.emit (.trailFailed path failure)
  return result

end Model

end DeepPath
