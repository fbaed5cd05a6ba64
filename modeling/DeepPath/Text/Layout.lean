/-!
# Layout of texts

A text stands in a field of some width, at the left, at the right or in the middle; an odd number of
blanks around a centred text leaves one more behind it than in front.  Widths count characters.  A
text wider than its field is not cut; what cuts words is the precision, their greatest length.
-/

namespace DeepPath

/-- Where a text stands in its field. -/
inductive Alignment where
  | left
  | centre
  | right
  deriving DecidableEq

/-- How a text is laid out. -/
structure Layout where
  /-- The least number of characters. -/
  width : Nat := 0
  /-- Where the text stands, if that is asked for. -/
  alignment : Option Alignment := none
  /-- The greatest number of characters of a text, or the number of places of a number. -/
  precision : Option Nat := none

namespace Layout

/-- The blanks in front of a text, of `missing` blanks in all. -/
def leading (missing : Nat) : Alignment → Nat
  | .left => 0
  | .centre => missing / 2
  | .right => missing

/-- A text in its field, at `side` unless the layout asks otherwise. -/
def fill (l : Layout) (side : Alignment) (cs : List Char) : List Char :=
  let missing := l.width - cs.length
  let front := leading missing (l.alignment.getD side)
  List.replicate front ' ' ++ cs ++ List.replicate (missing - front) ' '

/-- At most as many characters as the precision allows. -/
def cut (l : Layout) (cs : List Char) : List Char :=
  match l.precision with
  | none => cs
  | some most => cs.take most

/-- A word, cut to the precision, at the left of its field. -/
def word (l : Layout) (s : String) : String :=
  String.ofList (l.fill .left (l.cut s.toList))

/-- A number, at the right of its field; the precision is not for the layout to apply. -/
def number (l : Layout) (s : String) : String :=
  String.ofList (l.fill .right s.toList)

theorem leading_le (missing : Nat) (side : Alignment) : leading missing side ≤ missing := by
  cases side <;> simp only [leading] <;> omega

/-- A field is as wide as asked for, and never narrower than its text. -/
theorem length_fill (l : Layout) (side : Alignment) (cs : List Char) :
    (l.fill side cs).length = max l.width cs.length := by
  have := leading_le (l.width - cs.length) (l.alignment.getD side)
  simp [fill]
  omega

end Layout

end DeepPath
