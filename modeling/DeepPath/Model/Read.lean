import DeepPath.Model.Basic

/-!
# The walk down

A step down asks for a member or an element; it succeeds only if the model says first that there
is one to ask for.  Reading a path does its steps in turn, starting with the root, and stops at
the first that fails.
-/

namespace DeepPath.Model

variable {σ V : Type}

/-- One step down from a value. -/
def step (M : Model σ V) (current : V) : Step → Action σ (Except Fault V)
  | .member name => do
    if ← M.hasMember current name then
      M.getMember current name
    else
      return .error (.noMember (← M.typeName current))
  | .element index => do
    if ← M.isContainer current then
      return (← M.view current).bind fun view => view.get index
    else
      return .error (.noContainer (← M.typeName current))

/-- One step down, reported, with the place of a fault. -/
def visit (M : Model σ V) (depth : Nat) (current : V) (step : Step) :
    Action σ (Except Failure V) := do
  let result ← M.step current step
  Action.emit (.descended step depth result.isOk)
  return result.mapError fun fault => ⟨fault, step, depth, .descent⟩

/-- The value at the end of some steps, of which the first is at `depth`. -/
def readFrom (M : Model σ V) : Nat → List Step → V → Action σ (Except Failure V)
  | _, [], current => return .ok current
  | depth, step :: rest, current => do
    match ← M.visit depth current step with
    | .error failure => return .error failure
    | .ok next => M.readFrom (depth + 1) rest next

/-- The value a path leads to. -/
def read (M : Model σ V) (path : Path) (root : V) : Action σ (Except Failure V) := do
  let result ← M.readFrom 0 path.steps root
  if let .error failure := result then
    Action.emit (.readFailed path failure)
  return result

theorem read_value (M : Model σ V) (path : Path) (root : V) (s : σ) :
    (M.read path root s).value = (M.readFrom 0 path.steps root s).value := by
  rw [read, Action.value_bind]
  cases (M.readFrom 0 path.steps root s).value <;> rfl

end DeepPath.Model
