import Lox.Resolution.Walk
import Lox.Token.Cursor
import Lox.Token.Scan
import Lox.Value.Error

/-!
# Diagnostics

What is told about a source that is not accepted, or about a run that fails. The first three kinds
are *static*: they are found before anything is run.
-/

namespace Lox

/-- What is wrong with a run, in words. -/
def RuntimeError.message : RuntimeError → String
  | raised _ cause => cause.message
  | sink cause => cause.message

/-- Something that is wrong with a source or with a run. -/
inductive Diagnostic where
  /-- With the spelling of the source. -/
  | scan (e : ScanError)
  /-- With its grammar. -/
  | parse (e : ParseError)
  /-- With the static rules. -/
  | resolve (e : ResolveError)
  /-- With the run. -/
  | runtime (e : RuntimeError)
  deriving DecidableEq, Repr

namespace Diagnostic

/-- What is wrong, in words. -/
def message : Diagnostic → String
  | scan e => e.cause.message
  | parse e => e.cause.message
  | resolve e => e.cause.message
  | runtime e => e.message

/-- A static error: the line, the place on it, and what is wrong. -/
def located (line : Nat) (place message : String) : String :=
  "[line " ++ line.repr ++ "] Error" ++ place ++ ": " ++ message

/-- A diagnostic as it is told. Errors of a run name their line last, on a line of its own; those of
    the output have none. -/
def text : Diagnostic → String
  | scan e => located e.line "" e.cause.message
  | parse e => located e.place.line e.place.words e.cause.message
  | resolve e => located e.lexeme.line (Place.at e.lexeme).words e.cause.message
  | runtime (.raised line cause) => cause.message ++ "\n[line " ++ line.repr ++ "]"
  | runtime (.sink cause) => cause.message

/-- Whether it is found before anything is run. -/
def isStatic : Diagnostic → Bool
  | runtime _ => false
  | _ => true

end Diagnostic

end Lox
