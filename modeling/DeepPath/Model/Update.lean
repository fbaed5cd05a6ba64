import DeepPath.Model.Trail

/-!
# Edits

An edit walks down to a leaf, recording the trail, replaces the leaf, and carries the new value
back up: a member step writes the member and hands its parent on, an element step builds a new
container and hands that on instead.  The step at the root works on the root itself.  If the path
starts with an element, the root is not written; the new container is handed out, to be stored or
dropped.

The ascent takes no write back.  If it fails, the members below the failing step stay written, and
the log says how many there were.
-/

namespace DeepPath

/-- Where the outcome of an edit is found. -/
inductive Placement (V : Type) where
  /-- In the root, which was written. -/
  | written
  /-- In a new container, to be stored in place of the old one. -/
  | built (container : V)

namespace Placement

variable {V : Type}

/-- The value to go on with: the new container if there is one. -/
def settle (root : V) : Placement V → V
  | .written => root
  | .built container => container

/-- Whether the root was written. -/
def isWritten : Placement V → Bool
  | .written => true
  | .built _ => false

/-- The new container. -/
def built? : Placement V → Option V
  | .written => none
  | .built container => some container

/-- The number of members written: one, unless a container was built. -/
def writes : Placement V → Nat
  | .written => 1
  | .built _ => 0

end Placement

/-- Why there is no edit: a step failed, or the change declined the leaf. -/
inductive Refusal (ε : Type) where
  | failed (failure : Failure)
  | declined (reason : ε)

/-- Renames the reasons to decline. -/
def Refusal.map {ε δ : Type} (f : ε → δ) : Refusal ε → Refusal δ
  | .failed failure => .failed failure
  | .declined reason => .declined (f reason)

/-- A refusal in words. -/
def Refusal.message : Refusal String → String
  | .failed failure => failure.message
  | .declined reason => s!"edit callback failed: {reason}"

/-- What an edit comes to. -/
structure Revision (V ε : Type) where
  /-- The root afterwards. -/
  root : V
  /-- The leaf the change was given, if the walk down reached it. -/
  leaf : Option V
  /-- Where the outcome is, or why there is none. -/
  outcome : Except (Refusal ε) (Placement V)

namespace Revision

variable {V ε : Type}

/-- The root after the outcome has been stored. -/
def stored (r : Revision V ε) : V :=
  match r.outcome with
  | .ok placement => placement.settle r.root
  | .error _ => r.root

/-- Renames the reasons to decline. -/
def mapReason {δ : Type} (f : ε → δ) (r : Revision V ε) : Revision V δ :=
  ⟨r.root, r.leaf, r.outcome.mapError (.map f)⟩

end Revision

/-- How far an ascent has come. -/
structure Climb (V : Type) where
  /-- The members written so far. -/
  written : Nat
  /-- The value to hand further up, or the failure that ended the ascent. -/
  result : Except Failure V

namespace Model

variable {σ V ε : Type}

/-- Puts `child` where a step leads from `parent`; the parent afterwards and the outcome. -/
def put (M : Model σ V) (parent : V) (step : Step) (child : V) :
    Action σ (V × Except Fault (Placement V)) :=
  match step with
  | .member name => do
    let (parent, result) ← M.setMember parent name child
    return (parent, result.map fun _ => .written)
  | .element index => do
    match ← M.view parent with
    | .error fault => return (parent, .error fault)
    | .ok view => return (parent, (← M.rebuild view index child).map .built)

/-- Carries a leaf up through steps and the values they started from, of which the first is at
`depth`; the deepest step comes first. -/
def ascend (M : Model σ V) : Nat → List (Step × V) → V → Action σ (Climb V)
  | _, [], leaf => return ⟨0, .ok leaf⟩
  | depth, (step, parent) :: deeper, leaf => do
    let climb ← M.ascend (depth + 1) deeper leaf
    match climb.result with
    | .error _ => return climb
    | .ok child =>
      let (parent, result) ← M.put parent step child
      match result with
      | .error fault => return ⟨climb.written, .error ⟨fault, step, depth, .ascent⟩⟩
      | .ok placement =>
        Action.emit (.ascended step depth)
        return ⟨climb.written + placement.writes, .ok (placement.settle parent)⟩

/-- Ends an ascent that failed after some members had been written. -/
def giveUp (path : Path) (root : V) (written : Nat) (failure : Failure) :
    Action σ (V × Except Failure (Placement V)) := do
  Action.emit (.ascentFailed path written failure)
  return (root, .error failure)

/-- Carries a leaf up a trail and into the root; the root afterwards and the outcome. -/
def carry (M : Model σ V) (path : Path) (trail : Trail V) (leaf root : V) :
    Action σ (V × Except Failure (Placement V)) := do
  let climb ← M.ascend 1 (path.rest.zip trail.parents.tail) leaf
  match climb.result with
  | .error failure => giveUp path root climb.written failure
  | .ok child =>
    let (root, result) ← M.put root path.first child
    match result with
    | .error fault => giveUp path root climb.written ⟨fault, path.first, 0, .ascent⟩
    | .ok placement => return (root, .ok placement)

/-- Replaces the leaf of a path by what `change` makes of it, unless `change` declines. -/
def update (M : Model σ V) (path : Path) (change : V → Action σ (Except ε V)) (root : V) :
    Action σ (Revision V ε) := do
  match ← M.trail path root with
  | .error failure => return ⟨root, none, .error (.failed failure)⟩
  | .ok trail =>
    match ← change trail.leaf with
    | .error reason => return ⟨root, some trail.leaf, .error (.declined reason)⟩
    | .ok leaf =>
      let (root, result) ← M.carry path trail leaf root
      return ⟨root, some trail.leaf, result.mapError .failed⟩

/-- Replaces the leaf of a path by what `change` makes of it. -/
def modify (M : Model σ V) (path : Path) (change : V → Action σ V) (root : V) :
    Action σ (Revision V Empty) :=
  M.update path (fun leaf => do return .ok (← change leaf)) root

/-- Replaces the leaf of a path by `value`. -/
def replace (M : Model σ V) (path : Path) (value root : V) : Action σ (Revision V Empty) :=
  M.modify path (fun _ => return value) root

end Model

end DeepPath
