import Lox.Token.Basic

/-!
# Places

Where an error of the grammar or of the static rules is reported: at a token, or at the end of the
source.
-/

namespace Lox

/-- A place in the source. -/
inductive Place where
  /-- At a lexeme. -/
  | at (lexeme : Lexeme)
  /-- At the end of the source, which is on the given line. -/
  | atEnd (line : Nat)
  deriving DecidableEq, Repr

namespace Place

/-- The line of a place. -/
def line : Place → Nat
  | .at lexeme => lexeme.line
  | .atEnd line => line

/-- A place in words. -/
def words : Place → String
  | .at lexeme => " at '" ++ lexeme.text ++ "'"
  | .atEnd _ => " at end"

end Place

/-- The place of a token. -/
def Token.place (t : Token) : Place := if t.isEof then .atEnd t.line else .at t.toLexeme

end Lox
