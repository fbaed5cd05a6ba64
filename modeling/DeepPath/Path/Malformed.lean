/-!
# Malformed paths

Why a text is no path, where in the text the fault lies, and the message that tells so.
-/

namespace DeepPath

/-- What can be wrong with a written path. -/
inductive Malformed.Cause where
  /-- There is no token at all. -/
  | noSteps
  /-- The position of an element is not closed by a bracket. -/
  | unclosed
  /-- The position of an element is not a string of decimal digits. -/
  | notDecimal
  /-- The position of an element does not fit a 64-bit word. -/
  | tooLarge
  deriving DecidableEq

/-- A text that is no path. -/
structure Malformed where
  /-- The text that was read. -/
  raw : String
  /-- The byte at which the offending token starts. -/
  offset : Nat
  /-- What is wrong there. -/
  cause : Malformed.Cause
  deriving DecidableEq

namespace Malformed

/-- What is wrong, in words. -/
def Cause.message : Cause → String
  | .noSteps => "path has no segments"
  | .unclosed => "unterminated element index"
  | .notDecimal => "element index must be a non-negative base-10 integer"
  | .tooLarge => "element index is too large"

/-- What is wrong and where, in words. -/
def message (m : Malformed) : String :=
  s!"Encountered an error at offset {m.offset} while parsing `{m.raw}`: {m.cause.message}"

end Malformed

end DeepPath
