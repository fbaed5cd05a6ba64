import DeepPath.Session.Change

/-!
# Statements

A session is a list of statements, run in turn.  A statement that ends in a problem is answered by
it, keeps what it had done so far, and does not stop the session.
-/

namespace DeepPath.Session

/-- A member in the declaration of a type. -/
structure MemberForm where
  name : String
  ty : TyForm
  visibility : Visibility

/-- A question put to the model of values directly. -/
inductive Question where
  | typeName
  | hasMember (name : String)
  | isContainer
  | getMember (name : String)
  | setMember (name : String) (value : ValueForm)
  | view
  /-- Replace an element, in the view of the value or in one with other elements. -/
  | rebuild (index : UInt64) (value : ValueForm) (elements : Option (List ValueForm))
    (into : Option String)

/-- A way to edit. -/
inductive EditForm where
  | replace (value : ValueForm)
  | modify (change : Change ValueForm ValueForm)
  /-- The leaf is declined if a reason for it is given. -/
  | attempt (change : Change ValueForm ValueForm) (decline : Option String)
  | modifyOrUndo (change : Change ValueForm ValueForm)

/-- A statement. -/
inductive Statement where
  /-- Declare a type. -/
  | declare (id name : String) (base : Option String) (members : List MemberForm)
  /-- Let a variable hold a value. -/
  | bind (name : String) (value : ValueForm) (brief : Bool)
  /-- Write a value out. -/
  | dump (value : ValueForm)
  /-- Read what a path leads to, and let a variable hold it. -/
  | read (root : ValueForm) (path : PathSource) (into : Option String) (brief : Bool)
  /-- Record the way along a path. -/
  | trail (root : ValueForm) (path : PathSource)
  /-- Read a member of an object. -/
  | get (object : ValueForm) (name : String)
  /-- Ask whether an object has a member. -/
  | has (object : ValueForm) (name : String)
  /-- Write a member of an object. -/
  | set (object : ValueForm) (name : String) (value : ValueForm) (brief : Bool)
  /-- Give an object the slots of another. -/
  | revert (live saved : ValueForm)
  /-- Tell everything about a value that needs no store. -/
  | describe (value : ValueForm)
  /-- Lay out the short text of a value. -/
  | format (value : ValueForm) (layout : Layout)
  /-- Look at an array and one of its elements. -/
  | elements (array : ValueForm) (index : UInt64)
  /-- Compare values. -/
  | compare (a b : ValueForm)
  /-- Ask whether a type admits a value. -/
  | admits (ty : TyForm) (value : ValueForm)
  /-- Compare types of slots. -/
  | compareTypes (a b : TyForm)
  /-- Ask whether a type is a subtype of another. -/
  | descends (a b : String)
  /-- Look up a member of a type. -/
  | find (type name : String)
  /-- Ask whether two types declare the same members. -/
  | sameMembers (a b : String)
  /-- Ask the model. -/
  | ask (object : ValueForm) (question : Question)
  /-- Edit what a variable holds.  A container that was built is held by the variable `into`; then
  the edited variable holds the root, or the outcome if `store` is set. -/
  | edit (root : String) (path : PathSource) (form : EditForm) (store : Bool)
    (into : Option String) (brief : Bool)

/-- What an edit is answered with. -/
structure EditAnswer where
  /-- Where the outcome is, or what went wrong. -/
  outcome : Except Problem (Placement Shown)
  /-- The leaf that was to be changed. -/
  leaf : Option Shown
  /-- How the writes of the change turned out. -/
  writes : List (Except Fault Unit)
  /-- The root afterwards, unless the answer is to be brief. -/
  root : Option Dump

/-- What a statement is answered with. -/
inductive Answer where
  | type (type : ObjectType)
  | shown (value : Shown)
  | written
  | text (text : String)
  | truth (value : Bool)
  | found (value : Option Dump)
  /-- A trail, and its values written out in one dump. -/
  | trail (trail : Trail Value) (values : List Dump)
  | value (value : Value)
  /-- The type of the elements of an array, these, and the one looked for. -/
  | elements (element : Ty) (items : List Value) (found : Option Dump)
  /-- Whether two values are equal, and whether they are the same. -/
  | comparison (equal : Bool) (same : Option Bool)
  | types (a b : Ty)
  | slot (found : Option (Nat × Member))
  /-- A container and its elements, written out in one dump. -/
  | view (dumps : View Dump)
  | edited (answer : EditAnswer)

/-! ## Running statements -/

/-- An edit that cannot be declined, as one that could be declined for a reason. -/
def ofEdit (result : Except Malformed (Revision Value Empty)) :
    Except Malformed (Revision Value String) :=
  result.map (.mapReason Empty.elim)

/-- Edits a root; the report, and the change unless there was none to make. -/
def EditForm.run (path : PathSource) (store : Bool) (root : Value) :
    EditForm → Query (EditReport Value × Option (Change Handle Value))
  | .replace form => do
    let value ← form.eval
    let result ← inStore (Graph.model.replaceGiven path value root)
    return ({ EditReport.ofRevision store root (ofEdit result) with leaf := none }, none)
  | .modify change => do
    let change ← change.eval
    let result ← inStore (Graph.model.modifyGiven path change.apply root)
    return (EditReport.ofRevision store root (ofEdit result), some change)
  | .attempt change decline => do
    let change ← change.eval
    let attempt (leaf : Value) : Action Store (Except String Value) :=
      match decline with
      | some reason => return .error reason
      | none => return .ok (← change.apply leaf)
    let result ← inStore (Graph.model.updateGiven path attempt root)
    return (EditReport.ofRevision store root result, if decline.isNone then some change else none)
  | .modifyOrUndo change => do
    let change ← change.eval
    let result ← inStore (Graph.modifyOrUndoGiven path change.apply root)
    return (EditReport.ofRevision store root (ofEdit result), some change)

/-- Shows where the outcome of an edit is. -/
def showPlacement (brief : Bool) : Placement Value → Query (Placement Shown)
  | .written => return .written
  | .built container => return .built (← showValue brief container)

/-- Shows a report: the leaf, then the outcome, then the root. -/
def showReport (brief : Bool) (report : EditReport Value) (change : Option (Change Handle Value)) :
    Query EditAnswer := do
  let writes :=
    match change, report.leaf with
    | some change, some leaf => change.results leaf
    | _, _ => []
  let leaf ← report.leaf.mapM (showValue brief)
  let outcome : Except Problem (Placement Shown) ←
    match report.outcome with
    | .ok placement => do pure (Except.ok (← showPlacement brief placement))
    | .error problem => pure (Except.error problem)
  let root ← if brief then pure none else some <$> showDump report.root
  return ⟨outcome, leaf, writes, root⟩

/-- Puts a question to the model. -/
def Question.run (object : Value) : Question → Query Answer
  | .typeName => return .text (← inStore (Graph.model.typeName object))
  | .hasMember name => return .truth (← inStore (Graph.model.hasMember object name))
  | .isContainer => return .truth (← inStore (Graph.model.isContainer object))
  | .getMember name => do
    let value ← accessed (← inStore (Graph.model.getMember object name))
    return .shown (.dump (← showDump value))
  | .setMember name form => do
    let value ← form.eval
    let (object, result) ← inStore (Graph.model.setMember object name value)
    accessed result
    return .shown (.dump (← showDump object))
  | .view => do
    let view ← accessed (← inStore (Graph.model.view object))
    match ← showDumps (view.source :: view.elements) with
    | [] => throw (.meaningless "view")
    | source :: elements => return .view ⟨source, elements⟩
  | .rebuild index form elements into => do
    let value ← form.eval
    let view ←
      match elements with
      | some forms => pure ⟨object, ← evalAll forms⟩
      | none => accessed (← inStore (Graph.model.view object))
    let array ← accessed (← inStore (Graph.model.rebuild view index value))
    if let some name := into then
      bind name array
    return .shown (.dump (← showDump array))

/-- Runs a statement. -/
def Statement.run : Statement → Query Answer
  | .declare id name base members => do
    let base ← base.mapM typeNamed
    let declarations ← members.mapM fun m => do return ⟨m.name, ← m.ty.eval, m.visibility⟩
    let type := ObjectType.ofDeclarations name base declarations
    Session.declare id type
    return .type type
  | .bind name form brief => do
    let value ← form.eval
    Session.bind name value
    return .shown (← showValue brief value)
  | .dump form => return .shown (.dump (← showDump (← form.eval)))
  | .read root path into brief => do
    let root ← root.eval
    match ← inStore (Graph.model.readGiven path root) with
    | .error error => throw (.ofError error)
    | .ok value =>
      if let some name := into then
        Session.bind name value
      return .shown (← showValue brief value)
  | .trail root path => do
    let root ← root.eval
    match ← inStore (Graph.model.trailGiven path root) with
    | .error error => throw (.ofError error)
    | .ok found => return .trail found (← showDumps found.values)
  | .get object name => do
    let handle ← object.evalObject
    return .found (← ((← current).store.get? handle name).mapM showDump)
  | .has object name => return .truth ((← object.evalObject).type.has name)
  | .set object name form brief => do
    let handle ← object.evalObject
    let value ← form.eval
    accessed (← inStore (Graph.write handle name value))
    if brief then return .written else return .shown (.dump (← showDump (.object handle)))
  | .revert live saved => do
    let live ← live.evalObject
    let saved ← saved.evalObject
    inStore (Action.change fun s => ((), s.revert live saved))
    return .shown (.dump (← showDump (.object live)))
  | .describe form => return .value (← form.eval)
  | .format form layout => return .text ((← form.eval).textIn layout)
  | .elements form index => do
    match ← form.eval with
    | .array _ element items =>
      return .elements element items (← items[index.toNat]?.mapM showDump)
    | other => throw (.meaningless other.typeName)
  | .compare a b => do
    let a ← a.eval
    let b ← b.eval
    return .comparison (a.equal b) (a.sameIdentity? b)
  | .admits ty form => return .truth ((← ty.eval).admits (← form.eval))
  | .compareTypes a b => return .types (← a.eval) (← b.eval)
  | .descends a b => do
    let a ← typeNamed a
    return .truth (a.lineage.descendsFrom (← typeNamed b).lineage)
  | .find type name => return .slot ((← typeNamed type).find? name)
  | .sameMembers a b => do
    let a ← typeNamed a
    let b ← typeNamed b
    return .truth (Member.sameAll a.own b.own)
  | .ask object question => do question.run (← object.eval)
  | .edit root path form store into brief => do
    let (report, change) ← form.run path store (← valueOf root)
    if let some name := into then
      if let .ok (.built container) := report.outcome then
        Session.bind name container
    Session.bind root report.root
    return .edited (← showReport brief report change)

/-- Runs statements in turn; the answer to each and what it reported. -/
def runAll : Session → List Statement → List (Except Problem Answer × List Event)
  | _, [] => []
  | session, statement :: rest =>
    let done := statement.run.run session
    (done.value, done.log) :: runAll done.state rest

end DeepPath.Session
