import DeepPath.Model.Restricted
import DeepPath.Problem
import DeepPath.Tree.Basic

/-!
# Scripts over trees

A script reads and edits one root.  Its statements run in turn; each is answered on its own,
together with the events it reported.
-/

namespace DeepPath.Tree

/-- What is done to a leaf. -/
inductive Mutation where
  /-- Nothing. -/
  | keep
  /-- It is replaced. -/
  | const (value : Tree)
  /-- A number is added to a number, modulo 2 ^ 64. -/
  | add (amount : Int64)
  /-- A text is extended. -/
  | append (suffix : String)
  /-- A tuple is turned around. -/
  | reverse

/-- The leaf after a mutation; a mutation made for another kind of leaf leaves it alone. -/
def Mutation.apply : Mutation → Tree → Tree
  | .const value, _ => value
  | .add amount, .int value => .int (value + amount)
  | .append suffix, .text value => .text (value ++ suffix)
  | .reverse, .tuple items => .tuple items.reverse
  | _, leaf => leaf

/-- A statement of a script. -/
inductive Statement where
  /-- Read a value. -/
  | read (path : PathSource)
  /-- Record the way to a value. -/
  | trail (path : PathSource)
  /-- Replace a leaf by a value. -/
  | replace (path : PathSource) (value : Tree) (store : Bool)
  /-- Change a leaf. -/
  | modify (path : PathSource) (mutation : Mutation) (store : Bool)
  /-- Change a leaf, unless it is declined for the reason given. -/
  | attempt (path : PathSource) (mutation : Mutation) (decline : Option String) (store : Bool)

/-- The answer to a statement. -/
inductive Reply where
  | value (result : Except Problem Tree)
  /-- A trail and the type names of its values. -/
  | trail (result : Except Problem (Trail Tree × List String))
  | edited (report : EditReport Tree)

/-- Runs a statement; its answer and the root afterwards. -/
def Statement.run (M : Model Unit Tree) (root : Tree) : Statement → Action Unit (Reply × Tree)
  | .read path => do
    return (.value ((← M.readGiven path root).mapError .ofError), root)
  | .trail path => do
    match ← M.trailGiven path root with
    | .error error => return (.trail (.error (.ofError error)), root)
    | .ok found => return (.trail (.ok (found, ← found.values.mapM M.typeName)), root)
  | .replace path value store => do
    let result ← M.replaceGiven path value root
    let report := EditReport.ofRevision store root (result.map (.mapReason Empty.elim))
    return (.edited { report with leaf := none }, report.root)
  | .modify path mutation store => do
    let result ← M.modifyGiven path (fun leaf => return mutation.apply leaf) root
    let report := EditReport.ofRevision store root (result.map (.mapReason Empty.elim))
    return (.edited report, report.root)
  | .attempt path mutation decline store => do
    let change (leaf : Tree) : Action Unit (Except String Tree) :=
      return match decline with
      | some reason => .error reason
      | none => .ok (mutation.apply leaf)
    let report := EditReport.ofRevision store root (← M.updateGiven path change root)
    return (.edited report, report.root)

/-- Runs a script; the answer to each statement and what it reported. -/
def runScript (M : Model Unit Tree) : Tree → List Statement → List (Reply × List Event)
  | _, [] => []
  | root, statement :: rest =>
    let done := statement.run M root ()
    (done.value.1, done.log) :: runScript M done.value.2 rest

end DeepPath.Tree
