import DeepPath.Decimal.Notation
import DeepPath.Graph.Value
import DeepPath.Text.Layout
import DeepPath.Text.Quoted

/-!
# Texts of values

A value has two texts.  The short one stands for scalars as they are, for an object with the name of
its type, and for an array with the type and number of its elements; only truth values and numbers
take part in the layout.  The long one names the kind and spells arrays out.
-/

namespace DeepPath

/-- A truth value in words. -/
def boolText (b : Bool) : String :=
  if b then "true" else "false"

/-- A whole number in decimal digits. -/
def intText (n : Int64) : String :=
  toString n.toInt

namespace Value

/-- The short text of a value, laid out. -/
def textIn (l : Layout) : Value → String
  | .null => "null"
  | .bool value => l.word (boolText value)
  | .int value => l.number (intText value)
  | .float value =>
    l.number <|
      match l.precision with
      | none => value.plain
      | some places => value.fixed places
  | .str value => quoted value
  | .object handle => handle.type.name
  | .array _ element items => element.text ++ "[" ++ toString items.length ++ "]"

/-- The short text of a value. -/
def text (v : Value) : String :=
  v.textIn {}

/-- A text in parentheses behind the name of a kind. -/
def tagged (kind : Kind) (inner : String) : String :=
  kind.label ++ "(" ++ inner ++ ")"

mutual

/-- The long text of a value; where an object lives is not shown. -/
def longText : Value → String
  | .null => Kind.null.label
  | .bool value => tagged .bool (boolText value)
  | .int value => tagged .int (intText value)
  | .float value => tagged .float value.literal
  | .str value => tagged .str (quoted value)
  | .object handle => tagged .object ("ObjectRef(" ++ handle.type.name ++ " @ _)")
  | .array _ element items =>
    tagged .array (element.text ++ "[] [" ++ ", ".intercalate (longTexts items) ++ "]")

/-- The long texts of values. -/
def longTexts : List Value → List String
  | [] => []
  | v :: rest => v.longText :: longTexts rest

end

end Value

end DeepPath
