import DeepPath.Path.Dialect

/-!
# Tokens of a written path

The tokens of a text are its longest non-empty stretches without a separator.  Each carries the
offset of its first byte in the UTF-8 encoding of the text.
-/

namespace DeepPath

/-- A token and the byte of the text at which it starts. -/
structure Token where
  /-- The bytes in front of the token. -/
  offset : Nat
  /-- The characters of the token. -/
  text : List Char
  deriving DecidableEq

/-- The number of bytes that encode these characters. -/
def byteLength : List Char → Nat
  | [] => 0
  | c :: cs => c.utf8Size + byteLength cs

@[simp] theorem byteLength_nil : byteLength [] = 0 := rfl

@[simp] theorem byteLength_cons (c : Char) (cs : List Char) :
    byteLength (c :: cs) = c.utf8Size + byteLength cs := rfl

@[simp] theorem byteLength_append (cs ds : List Char) :
    byteLength (cs ++ ds) = byteLength cs + byteLength ds := by
  induction cs with
  | nil => simp
  | cons c cs ih => simp [ih, Nat.add_assoc]

namespace Token

/-- The pieces of a text, the first at byte `start`, with `gap` bytes between neighbours. -/
def locate (gap : Nat) : Nat → List (List Char) → List Token
  | _, [] => []
  | start, piece :: rest => ⟨start, piece⟩ :: locate gap (start + byteLength piece + gap) rest

@[simp] theorem map_text_locate (gap start : Nat) (pieces : List (List Char)) :
    (locate gap start pieces).map text = pieces := by
  induction pieces generalizing start with
  | nil => rfl
  | cons piece rest ih => simp [locate, ih]

end Token

/-- The tokens of a text, from left to right. -/
def Dialect.tokens (d : Dialect) (raw : List Char) : List Token :=
  (Token.locate d.separator.utf8Size 0 (raw.splitOn d.separator)).filter fun t => !t.text.isEmpty

theorem Dialect.map_text_tokens (d : Dialect) (raw : List Char) :
    (d.tokens raw).map Token.text = (raw.splitOn d.separator).filter fun piece => !piece.isEmpty := by
  rw [← Token.map_text_locate d.separator.utf8Size 0 (raw.splitOn d.separator), tokens,
    List.filter_map]
  simp [Function.comp_def]

end DeepPath
