import DeepPath.Graph.Copy
import DeepPath.Graph.Model
import DeepPath.Model.Given

/-!
# Edits that can be taken back

A reversible edit makes a deep copy of the root first.  If the ascent fails, an object as root gets the
slots of its copy, and keeps its identity; any other root is replaced by the copy.
-/

namespace DeepPath.Graph

/-- Makes a deep copy. -/
def copy (v : Value) : Action Store Value :=
  Action.change fun s => s.copy v

/-- Puts the root back to its copy; the root afterwards. -/
def takeBack (root saved : Value) : Action Store Value :=
  match root, saved with
  | .object live, .object copied => do
    Action.set ((← Action.get).revert live copied)
    return root
  | _, _ => return saved

/-- Edits the leaf of a path, and takes the edit back if its ascent fails. -/
def modifyOrUndo (path : Path) (change : Value → Action Store Value) (root : Value) :
    Action Store (Revision Value Empty) := do
  let saved ← copy root
  let revision ← model.modify path change root
  match revision.outcome with
  | .error (.failed ⟨_, _, _, .ascent⟩) =>
    Action.emit (.restored path)
    return { revision with root := ← takeBack revision.root saved }
  | _ => return revision

/-- Edits the leaf of a given path, and takes the edit back if its ascent fails. -/
def modifyOrUndoGiven (source : PathSource) (change : Value → Action Store Value) (root : Value) :
    Action Store (Except Malformed (Revision Value Empty)) := do
  match ← source.read with
  | .error fault => return .error fault
  | .ok path => return .ok (← modifyOrUndo path change root)

end DeepPath.Graph
