import DeepPath.Model.Given

/-!
# Problems

A script goes on after a statement that fails; what went wrong is its answer.
-/

namespace DeepPath

/-- What can go wrong with a statement of a script. -/
inductive Problem where
  /-- A path is malformed. -/
  | malformed (fault : Malformed)
  /-- A single access failed, outside a walk. -/
  | fault (fault : Fault)
  /-- A walk failed. -/
  | failed (failure : Failure)
  /-- A change declined its leaf. -/
  | declined (reason : String)
  /-- The statement makes no sense: it names what is not defined, or treats as an object what is none. -/
  | meaningless (what : String)

namespace Problem

/-- The error of a walk as a problem. -/
def ofError : Error → Problem
  | .malformed m => .malformed m
  | .failed f => .failed f

/-- The refusal of an edit as a problem. -/
def ofRefusal : Refusal String → Problem
  | .failed f => .failed f
  | .declined reason => .declined reason

end Problem

/-- What an edit in a script comes to. -/
structure EditReport (V : Type) where
  /-- Where the outcome is, or what went wrong. -/
  outcome : Except Problem (Placement V)
  /-- The leaf that was to be changed. -/
  leaf : Option V
  /-- The root afterwards. -/
  root : V

namespace EditReport

variable {V : Type}

/-- The report on an edit along a given path, whose outcome is stored if `store` is set. -/
def ofRevision (store : Bool) (root : V) :
    Except Malformed (Revision V String) → EditReport V
  | .error m => ⟨.error (.malformed m), none, root⟩
  | .ok revision =>
    ⟨revision.outcome.mapError .ofRefusal, revision.leaf,
      if store then revision.stored else revision.root⟩

end EditReport

end DeepPath
