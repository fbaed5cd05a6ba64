import DeepPath.Path.Basic

/-!
# Written paths

A dialect fixes how paths are written.  A written path is a row of tokens with a separator between
neighbours.  A member is written as its name; an element takes two tokens, the marker and then the
element word with the position in brackets.  In the standard dialect `items.Array.data[1].label` leads to the member
`items`, to its element 1, and there to the member `label`.

Main statement: writing commutes with concatenation (`render_append`).
-/

namespace DeepPath

/-- How paths are written. -/
structure Dialect where
  /-- Separates tokens. -/
  separator : Char := '.'
  /-- The token that announces an element. -/
  marker : String := "Array"
  /-- The word in front of the bracketed position. -/
  element : String := "data"
  deriving DecidableEq

namespace Dialect

/-- The standard dialect: `.`, `Array` and `data`. -/
def standard : Dialect := {}

/-- The second token of an element: the element word and the position in brackets. -/
def elementToken (d : Dialect) (index : UInt64) : List Char :=
  d.element.toList ++ '[' :: Nat.toDigits 10 index.toNat ++ [']']

/-- A step as it is written. -/
def stepChars (d : Dialect) : Step → List Char
  | .member name => name.toList
  | .element index => d.marker.toList ++ d.separator :: d.elementToken index

/-- Steps as they are written, each behind a separator. -/
def tailChars (d : Dialect) (steps : List Step) : List Char :=
  steps.flatMap fun s => d.separator :: d.stepChars s

/-- A path as it is written, as a list of characters. -/
def pathChars (d : Dialect) (p : Path) : List Char :=
  d.stepChars p.first ++ d.tailChars p.rest

/-- A step as it is written. -/
def renderStep (d : Dialect) (s : Step) : String :=
  String.ofList (d.stepChars s)

/-- A path as it is written. -/
def render (d : Dialect) (p : Path) : String :=
  String.ofList (d.pathChars p)

@[simp] theorem stepChars_member (d : Dialect) (name : String) :
    d.stepChars (.member name) = name.toList := rfl

@[simp] theorem tailChars_nil (d : Dialect) : d.tailChars [] = [] := rfl

@[simp] theorem tailChars_cons (d : Dialect) (s : Step) (l : List Step) :
    d.tailChars (s :: l) = d.separator :: d.stepChars s ++ d.tailChars l := by
  simp [tailChars]

@[simp] theorem tailChars_append (d : Dialect) (l m : List Step) :
    d.tailChars (l ++ m) = d.tailChars l ++ d.tailChars m := by
  simp [tailChars]

theorem pathChars_append (d : Dialect) (p q : Path) :
    d.pathChars (p ++ q) = d.pathChars p ++ d.separator :: d.pathChars q := by
  simp [pathChars, Path.steps]

/-- A concatenation is written as its two parts with a separator between them. -/
theorem render_append (d : Dialect) (p q : Path) :
    d.render (p ++ q) = d.render p ++ d.separator.toString ++ d.render q := by
  apply String.toList_injective
  simp [render, pathChars_append]

end Dialect

/-- A step in the standard dialect. -/
def Step.text (s : Step) : String :=
  Dialect.standard.renderStep s

/-- A path in the standard dialect. -/
def Path.text (p : Path) : String :=
  Dialect.standard.render p

end DeepPath
