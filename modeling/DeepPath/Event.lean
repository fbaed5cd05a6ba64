import DeepPath.Fault
import DeepPath.Path.Parse

/-!
# The log

What reading, walking and editing report while they work.  Every event has a level and a text;
paths and steps appear in it in the standard dialect.
-/

namespace DeepPath

/-- How much an event matters. -/
inductive Level where
  | trace
  | debug
  | warn
  deriving DecidableEq

/-- The name of a level. -/
def Level.label : Level → String
  | .trace => "TRACE"
  | .debug => "DEBUG"
  | .warn => "WARN"

/-- What is reported. -/
inductive Event where
  /-- While reading `raw`, a token was read as a member. -/
  | memberRead (raw : String) (token : Token)
  /-- A step down was tried. -/
  | descended (step : Step) (depth : Nat) (succeeded : Bool)
  /-- A value could not be read. -/
  | readFailed (path : Path) (failure : Failure)
  /-- The values on the way to a leaf could not be recorded. -/
  | trailFailed (path : Path) (failure : Failure)
  /-- A step back up succeeded below the root. -/
  | ascended (step : Step) (depth : Nat)
  /-- The ascent failed, after `written` members had been written. -/
  | ascentFailed (path : Path) (written : Nat) (failure : Failure)
  /-- A new array keeps the element type `wide` of the old one, since `narrow` does not admit all its
  elements. -/
  | widened (narrow wide : String)
  /-- The root is put back after a failed ascent. -/
  | restored (path : Path)
  deriving DecidableEq

namespace Event

/-- The level of an event: a failure that leaves members written is a warning. -/
def level : Event → Level
  | .memberRead _ _ | .descended _ _ _ | .ascended _ _ | .widened _ _ => .trace
  | .readFailed _ _ | .trailFailed _ _ | .restored _ => .debug
  | .ascentFailed _ written _ => if written = 0 then .debug else .warn

/-- An event in words. -/
def text : Event → String
  | .memberRead raw token =>
    s!"path `{raw}`: field token `{String.ofList token.text}` at offset {token.offset}"
  | .descended step depth succeeded =>
    s!"unfold `{step.text}` at segment {depth}: ok = {succeeded}"
  | .readFailed path failure => s!"resolving `{path.text}` failed: {failure.message}"
  | .trailFailed path failure => s!"unfolding `{path.text}` failed: {failure.message}"
  | .ascended step depth => s!"fold `{step.text}` at segment {depth}"
  | .ascentFailed path written failure =>
    if written = 0 then
      s!"editing `{path.text}` failed: {failure.message}"
    else
      s!"editing `{path.text}` stopped after {written} ancestor write(s), " ++
        s!"which are not rolled back: {failure.message}"
  | .widened narrow wide => s!"array element `{narrow}` widened to `{wide}`"
  | .restored path => s!"restoring `{path.text}` root after a failed fold"

end Event

/-- The events of reading `raw` in a dialect. -/
def Dialect.events (d : Dialect) (raw : String) : List Event :=
  (d.memberTokens raw).map (.memberRead raw)

end DeepPath
