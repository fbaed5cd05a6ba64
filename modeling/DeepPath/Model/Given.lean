import DeepPath.Model.Update

/-!
# Walks along given paths

A path is given as a text in some dialect or as its steps.  Reading a text reports every token that
is read as a member, also when the text turns out to be malformed further on.

Each walk also takes its path as it is given.  If that is malformed, the walk ends before the root is
looked at.
-/

namespace DeepPath

/-! ## Where paths come from -/

/-- Reads a text as a path and reports the members read. -/
def Dialect.read {σ : Type} (d : Dialect) (raw : String) : Action σ (Except Malformed Path) := do
  Action.emitAll (d.events raw)
  return d.parse raw

@[simp] theorem Dialect.read_apply {σ : Type} (d : Dialect) (raw : String) (s : σ) :
    d.read raw s = ⟨d.parse raw, s, d.events raw⟩ := by
  simp [read, Action.bind_apply]

/-- A way to give a path. -/
inductive PathSource where
  /-- As a text in a dialect. -/
  | text (dialect : Dialect) (raw : String)
  /-- As its steps. -/
  | steps (list : List Step)

/-- The path that is given. -/
def PathSource.read {σ : Type} : PathSource → Action σ (Except Malformed Path)
  | .text dialect raw => dialect.read raw
  | .steps list => return Path.ofSteps list

/-! ## Walks -/

/-- What can go wrong between a given path and the value it leads to. -/
inductive Error where
  | malformed (fault : Malformed)
  | failed (failure : Failure)

namespace Error

/-- The kind of an error. -/
def reason : Error → Reason
  | .malformed _ => .malformed
  | .failed failure => failure.fault.reason

/-- An error in words. -/
def message : Error → String
  | .malformed fault => fault.message
  | .failed failure => failure.message

end Error

namespace Model

variable {σ V ε : Type}

/-- The value a given path leads to. -/
def readGiven (M : Model σ V) (source : PathSource) (root : V) : Action σ (Except Error V) := do
  match ← source.read with
  | .error fault => return .error (.malformed fault)
  | .ok path => return (← M.read path root).mapError .failed

/-- The trail of a given path. -/
def trailGiven (M : Model σ V) (source : PathSource) (root : V) :
    Action σ (Except Error (Trail V)) := do
  match ← source.read with
  | .error fault => return .error (.malformed fault)
  | .ok path => return (← M.trail path root).mapError .failed

/-- Replaces the leaf of a given path by what `change` makes of it, unless `change` declines. -/
def updateGiven (M : Model σ V) (source : PathSource) (change : V → Action σ (Except ε V))
    (root : V) : Action σ (Except Malformed (Revision V ε)) := do
  match ← source.read with
  | .error fault => return .error fault
  | .ok path => return .ok (← M.update path change root)

/-- Replaces the leaf of a given path by what `change` makes of it. -/
def modifyGiven (M : Model σ V) (source : PathSource) (change : V → Action σ V) (root : V) :
    Action σ (Except Malformed (Revision V Empty)) := do
  match ← source.read with
  | .error fault => return .error fault
  | .ok path => return .ok (← M.modify path change root)

/-- Replaces the leaf of a given path by `value`. -/
def replaceGiven (M : Model σ V) (source : PathSource) (value root : V) :
    Action σ (Except Malformed (Revision V Empty)) :=
  M.modifyGiven source (fun _ => return value) root

end Model

end DeepPath
