import Lox.Expr.Basic
import Lox.Token.Place

/-!
# Reading a list of tokens

A cursor stands in a list of tokens. What lies before it is gone; the tokens from it on up to the
end of the source are `rest`, and the end itself is never read over. Beside the tokens, a cursor
counts the identities of expressions and collects the errors that do not stop the reading.

A reader (`Read`) moves the cursor and either succeeds or fails; a failure leaves the cursor where
it arose, since what was read before it stays read.

* `Cursor.ofTokens` stands at the first token;
* `Read.accept`, `Read.expect` read one token of a given kind;
* `Cursor.recover` goes on after a failure: it skips to where the next statement may start.
-/

namespace Lox

/-- Functions and methods are declared alike, but errors name which is meant. -/
inductive FunctionKind where
  | function
  | method
  deriving DecidableEq, Repr

/-- A function or method in words. -/
def FunctionKind.words : FunctionKind → String
  | function => "function"
  | method => "method"

/-- Why tokens do not fit the grammar. -/
inductive ParseError.Cause where
  | expectedClassName
  | expectedSuperclassName
  | expectedClassBody
  | expectedClassEnd
  | expectedFunctionName (kind : FunctionKind)
  | expectedParameters (kind : FunctionKind)
  | tooManyParameters
  | expectedParameterName
  | expectedParametersEnd
  | expectedFunctionBody (kind : FunctionKind)
  | expectedVariableName
  | expectedDeclarationEnd
  | expectedForClauses
  | expectedLoopConditionEnd
  | expectedForClausesEnd
  | expectedValueEnd
  | expectedExpressionEnd
  | expectedIfCondition
  | expectedWhileCondition
  | expectedConditionEnd
  | expectedReturnEnd
  | expectedBlockEnd
  | invalidAssignmentTarget
  | tooManyArguments
  | expectedArgumentsEnd
  | expectedPropertyName
  | expectedSuperDot
  | expectedSuperMethod
  | expectedGroupingEnd
  | expectedExpression
  | expectedEnd
  /-- The tokens are nested deeper than the reader goes. -/
  | tooDeep
  deriving DecidableEq, Repr

/-- What is wrong, in words. -/
def ParseError.Cause.message : ParseError.Cause → String
  | expectedClassName => "Expected class name"
  | expectedSuperclassName => "Expected superclass name"
  | expectedClassBody => "Expected '\x7b' before class body"
  | expectedClassEnd => "Expected '\x7d' after class body"
  | expectedFunctionName kind => "Expected " ++ kind.words ++ " name"
  | expectedParameters kind => "Expected '(' after " ++ kind.words ++ " name"
  | tooManyParameters => "Can't have more than 255 parameters"
  | expectedParameterName => "Expected parameter name"
  | expectedParametersEnd => "Expected ')' after parameters"
  | expectedFunctionBody kind => "Expected '\x7b' before " ++ kind.words ++ " body"
  | expectedVariableName => "Expected variable name"
  | expectedDeclarationEnd => "Expected ';' after variable declaration"
  | expectedForClauses => "Expected '(' after 'for'"
  | expectedLoopConditionEnd => "Expected ';' after loop condition"
  | expectedForClausesEnd => "Expected ')' after for clauses"
  | expectedValueEnd => "Expected ';' after value"
  | expectedExpressionEnd => "Expected ';' after expression"
  | expectedIfCondition => "Expected '(' after 'if'"
  | expectedWhileCondition => "Expected '(' after 'while'"
  | expectedConditionEnd => "Expected ')' after condition"
  | expectedReturnEnd => "Expected ';' after return value"
  | expectedBlockEnd => "Expected '\x7d' after block"
  | invalidAssignmentTarget => "Invalid assignment target"
  | tooManyArguments => "Can't have more than 255 arguments"
  | expectedArgumentsEnd => "Expected ')' after arguments"
  | expectedPropertyName => "Expected property name after '.'"
  | expectedSuperDot => "Expected '.' after 'super'"
  | expectedSuperMethod => "Expected superclass method name"
  | expectedGroupingEnd => "Expected ')' after expression"
  | expectedExpression => "Expected expression"
  | expectedEnd => "Expected end of expression"
  | tooDeep => "Nested too deeply"

/-- An error in the arrangement of tokens. -/
structure ParseError where
  /-- Where it is reported. -/
  place : Place
  /-- What is wrong. -/
  cause : ParseError.Cause
  deriving DecidableEq, Repr

/-- The most parameters that a function can have, and the most arguments of a call. -/
def maxArity : Nat := 255

/-- A position in a list of tokens, with what the reading has produced on the side. -/
structure Cursor where
  /-- The tokens that are still to be read, up to the end. -/
  rest : List Token
  /-- The end of the source. -/
  eof : Token
  /-- The identity of the next expression. -/
  nextId : Nat
  /-- The errors that did not stop the reading, in the order in which they were found. -/
  errors : Array ParseError
  /-- How many tokens there were at the start, and so a bound on how deep they are nested. -/
  size : Nat
  deriving Repr

namespace Cursor

/-- A cursor at the start of `tokens`. The first end of the source among them is the end; if there
    is none, it is added on the line of the last token. -/
def ofTokens (tokens : List Token) (firstId : Nat) : Cursor :=
  let rest := tokens.takeWhile fun t => !t.isEof
  let eof :=
    match tokens.dropWhile fun t => !t.isEof with
    | eof :: _ => eof
    | [] => ⟨.eof, "", (tokens.getLast?.map Token.line).getD 1⟩
  { rest, eof, nextId := firstId, errors := #[], size := rest.length }

/-- The token at the cursor. -/
def peek (s : Cursor) : Token := s.rest.headD s.eof

/-- Whether the cursor is at the end. -/
def atEnd (s : Cursor) : Bool := s.rest.isEmpty

/-- Whether the token at the cursor is of the given kind. -/
def sees (kind : Token.Kind) (s : Cursor) : Bool :=
  match s.rest with
  | [] => false
  | t :: _ => t.kind = kind

/-- How deep readers may nest. A token is passed on through at most four of them, so this is more
    than they need. -/
def fuel (s : Cursor) : Nat := 4 * s.size + 8

/-- Whether a statement with a keyword of its own starts here. -/
def startsStatement : List Token → Bool
  | [] => false
  | t :: _ =>
    match t.kind with
    | .keyword .class | .keyword .fun | .keyword .var | .keyword .for | .keyword .if
    | .keyword .while | .keyword .print | .keyword .return => true
    | _ => false

/-- Drops one token, and then more, up to behind a semicolon or in front of a keyword that starts a
    statement. -/
def skipStatement : List Token → List Token
  | [] => []
  | t :: rest =>
    if t.kind = .punctuator .semicolon ∨ startsStatement rest then rest else skipStatement rest

/-- Goes on after the failure `e`: it is kept, and the reading starts again where the next statement
    may start. -/
def recover (e : ParseError) (s : Cursor) : Cursor :=
  { s with rest := skipStatement s.rest, errors := s.errors.push e }

end Cursor

/-- Something that reads tokens. -/
abbrev Read (α : Type) := EStateM ParseError Cursor α

namespace Read

/-- Fails at the token at the cursor. -/
def fail {α : Type} (cause : ParseError.Cause) : Read α := fun s => .error ⟨s.peek.place, cause⟩ s

/-- Keeps an error and goes on. -/
def report (place : Place) (cause : ParseError.Cause) : Read Unit := fun s =>
  .ok () { s with errors := s.errors.push ⟨place, cause⟩ }

/-- The token at the cursor. -/
def peek : Read Token := fun s => .ok s.peek s

/-- Moves the cursor over a token. -/
def skip : Read Unit := fun s => .ok () { s with rest := s.rest.tail }

/-- The identity for a new expression. -/
def freshId : Read Nat := fun s => .ok s.nextId { s with nextId := s.nextId + 1 }

/-- Reads a token of the given kind, if the cursor is at one. -/
def accept (kind : Token.Kind) : Read (Option Token) := fun s =>
  match s.rest with
  | [] => .ok none s
  | t :: rest => if t.kind = kind then .ok (some t) { s with rest } else .ok none s

/-- Reads a token of the given kind, or fails. -/
def expect (kind : Token.Kind) (cause : ParseError.Cause) : Read Lexeme := fun s =>
  match s.rest with
  | [] => .error ⟨s.eof.place, cause⟩ s
  | t :: rest =>
    if t.kind = kind then .ok t.toLexeme { s with rest } else .error ⟨t.place, cause⟩ s

/-- Reads a given punctuator, or fails. -/
def expectMark (mark : Punctuator) (cause : ParseError.Cause) : Read Lexeme :=
  expect (.punctuator mark) cause

/-- Whether the cursor is at a given punctuator. -/
def seesMark (mark : Punctuator) : Read Bool := fun s => .ok (s.sees (.punctuator mark)) s

end Read

end Lox
