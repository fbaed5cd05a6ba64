import DeepPath.Path.Malformed
import DeepPath.Path.Token

/-!
# Reading a written path

The tokens are read from left to right.  The marker and a following token that opens with the
element word and a bracket are one element step, and the text between the brackets has to be a
position; every other token is the name of a member.  The first bad position ends the reading.

A scan also remembers which tokens were read as members, also when the reading fails: these are
the tokens that the log reports.
-/

namespace DeepPath

/-- What reading the tokens of a path comes to. -/
structure Scan where
  /-- The steps, or the offset of the first bad token and what is wrong with it. -/
  steps : Except (Nat × Malformed.Cause) (List Step)
  /-- The tokens that were read as members. -/
  members : List Token

namespace Scan

/-- Nothing left to read. -/
def done : Scan :=
  ⟨.ok [], []⟩

/-- The token `t` cannot be read. -/
def stop (t : Token) (cause : Malformed.Cause) : Scan :=
  ⟨.error (t.offset, cause), []⟩

/-- The token `t` is a member, in front of what follows. -/
def member (t : Token) (rest : Scan) : Scan :=
  ⟨rest.steps.map (.member (String.ofList t.text) :: ·), t :: rest.members⟩

/-- An element, in front of what follows. -/
def element (index : UInt64) (rest : Scan) : Scan :=
  ⟨rest.steps.map (.element index :: ·), rest.members⟩

end Scan

/-- The position written between brackets: one or more decimal digits, of a value that fits. -/
def readPosition (digits : List Char) : Except Malformed.Cause UInt64 :=
  if digits.isEmpty || !digits.all Char.isDigit then
    .error .notDecimal
  else if fits : Nat.ofDigitChars 10 digits 0 < UInt64.size then
    .ok (UInt64.ofNatLT _ fits)
  else
    .error .tooLarge

/-- The digits of a position are read as that position. -/
@[simp] theorem readPosition_toDigits (index : UInt64) :
    readPosition (Nat.toDigits 10 index.toNat) = .ok index := by
  have hd : (Nat.toDigits 10 index.toNat).all Char.isDigit := by
    simp only [List.all_eq_true]
    exact fun c hc => Nat.isDigit_of_mem_toDigits (by decide) (by decide) hc
  have hn : Nat.toDigits 10 index.toNat ≠ [] := Nat.toDigits_ne_nil
  simp [readPosition, hd, hn, UInt64.toNat_lt_size]

namespace Dialect

/-- How a token that stands for an element begins: the element word and a bracket. -/
def opening (d : Dialect) : List Char :=
  d.element.toList ++ ['[']

/-- The position in an element token; `none` if the token does not open like one. -/
def position? (d : Dialect) (token : List Char) : Option (Except Malformed.Cause UInt64) :=
  (d.opening.isPrefixOf? token).map fun inside =>
    match [']'].isSuffixOf? inside with
    | none => .error .unclosed
    | some digits => readPosition digits

/-- The position of the element that two neighbouring tokens stand for, if they do. -/
def pairPosition? (d : Dialect) (t u : Token) : Option (Except Malformed.Cause UInt64) :=
  if t.text = d.marker.toList then d.position? u.text else none

/-- Reads tokens as steps. -/
def scan (d : Dialect) : List Token → Scan
  | [] => .done
  | [t] => .member t .done
  | t :: u :: rest =>
    match d.pairPosition? t u with
    | none => .member t (scan d (u :: rest))
    | some (.ok index) => .element index (scan d rest)
    | some (.error cause) => .stop u cause

/-- Reads a text as a path. -/
def parse (d : Dialect) (raw : String) : Except Malformed Path :=
  match (d.scan (d.tokens raw.toList)).steps with
  | .error (offset, cause) => .error ⟨raw, offset, cause⟩
  | .ok steps =>
    match Path.ofSteps? steps with
    | none => .error ⟨raw, 0, .noSteps⟩
    | some p => .ok p

/-- The tokens of a text that are read as members, up to the first bad token. -/
def memberTokens (d : Dialect) (raw : String) : List Token :=
  (d.scan (d.tokens raw.toList)).members

end Dialect

/-- The path with these steps; without a step there is no path. -/
def Path.ofSteps (steps : List Step) : Except Malformed Path :=
  match Path.ofSteps? steps with
  | none => .error ⟨"", 0, .noSteps⟩
  | some p => .ok p

end DeepPath
