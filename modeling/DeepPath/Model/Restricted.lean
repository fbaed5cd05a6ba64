import DeepPath.Model.Basic

/-!
# Restricted models

A restriction takes some of a model's operations away: reading or writing members of certain names,
laying out containers, building new ones.  What the model says about its values stays as it is, so
a walk gets as far as the operation itself before it fails.
-/

namespace DeepPath

/-- The operations that are denied. -/
structure Restriction where
  /-- The members that cannot be read. -/
  unreadable : List String := []
  /-- The members that cannot be written. -/
  unwritable : List String := []
  /-- Whether containers cannot be laid out. -/
  noViews : Bool := false
  /-- Whether no container can be built. -/
  noRebuilds : Bool := false

/-- The type name that stands in the faults of denied operations. -/
def Restriction.typeName : String :=
  "denied"

/-- The model without the operations that `r` denies. -/
def Model.restricted {σ V : Type} (M : Model σ V) (r : Restriction) : Model σ V where
  typeName := M.typeName
  hasMember := M.hasMember
  getMember object name :=
    if name ∈ r.unreadable then
      return .error (.noMember Restriction.typeName)
    else
      M.getMember object name
  setMember object name value :=
    if name ∈ r.unwritable then
      return (object, .error (.noMember Restriction.typeName))
    else
      M.setMember object name value
  isContainer := M.isContainer
  view object :=
    if r.noViews then
      return .error (.noContainer Restriction.typeName)
    else
      M.view object
  rebuild view index value :=
    if r.noRebuilds then
      return .error (.outOfRange index view.length)
    else
      M.rebuild view index value

end DeepPath
