import Lox.Expr.Parser
import Lox.Stmt.Basic

/-!
# Reading programs

A program is a list of declarations, and so is a block. A declaration that cannot be read is an
error, but not the end: the reading goes on where the next statement may start (`Cursor.recover`),
so all errors of a program are found at once. Inside an expression, a function head or a class body
nothing is skipped; a failure there makes the whole declaration fail.

* `Read.declaration` reads one declaration and never fails;
* `Read.statement` reads one statement;
* `Program.parse` reads a whole program.
-/

namespace Lox

namespace Read

/-- Whether the cursor is at a closing brace or at the end, so that a list in braces ends. -/
def atBraceEnd : Read Bool := fun s => .ok (s.sees (.punctuator .rightBrace) || s.atEnd) s

/-- Reads parameters after those in `done`. -/
def moreParameters : (fuel : Nat) → (done : Array Lexeme) → Read (List Lexeme)
  | 0, _ => fail .tooDeep
  | fuel + 1, done => do
    if maxArity ≤ done.size then
      report (← peek).place .tooManyParameters
    let done := done.push (← expect .identifier .expectedParameterName)
    if (← accept (.punctuator .comma)).isSome then moreParameters fuel done
    else return done.toList

/-- Reads the parameters of a function, up to the closing parenthesis. -/
def parameters (fuel : Nat) : Read (List Lexeme) := do
  if ← seesMark .rightParen then return []
  else moreParameters fuel #[]

/-- Reads an expression if the cursor is not yet at the given punctuator. -/
def expressionUnless (mark : Punctuator) : Read (Option Expr) := do
  if ← seesMark mark then return none
  else return some (← expression)

/-- Reads a variable declaration after `var`. -/
def varDeclaration : Read Stmt := do
  let name ← expect .identifier .expectedVariableName
  let initial ← if (← accept (.punctuator .equal)).isSome then some <$> expression else pure none
  let _ ← expectMark .semicolon .expectedDeclarationEnd
  return .var name initial

/-- Reads an expression that stands as a statement. -/
def expressionStatement : Read Stmt := do
  let e ← expression
  let _ ← expectMark .semicolon .expectedExpressionEnd
  return .expression e

/-- Reads the superclass of a class, if there is one. -/
def superclass : Read (Option VarRef) := do
  if (← accept (.punctuator .less)).isSome then
    let name ← expect .identifier .expectedSuperclassName
    return some ⟨← freshId, name⟩
  else return none

/-- Reads a condition in parentheses. -/
def condition (opening : ParseError.Cause) : Read Expr := do
  let _ ← expectMark .leftParen opening
  let e ← expression
  let _ ← expectMark .rightParen .expectedConditionEnd
  return e

/-- What stands in the parentheses of a `for`. -/
structure ForClauses where
  /-- What is done first, in a scope of its own. -/
  initial : Option Stmt
  /-- Whether the body is done once more. -/
  condition : Expr
  /-- What is done after each time. -/
  increment : Option Expr

/-- Reads what a `for` does first. -/
def forInitial : Read (Option Stmt) := do
  match (← peek).kind with
  | .punctuator .semicolon =>
    skip
    return none
  | .keyword .var =>
    skip
    some <$> varDeclaration
  | _ => some <$> expressionStatement

/-- Reads the condition of a `for`. One that is left out is `true`. -/
def forCondition : Read Expr := do
  match ← expressionUnless .semicolon with
  | some e => return e
  | none => return .literal (← freshId) (.bool true)

/-- Reads the clauses of a `for`. -/
def forClauses : Read ForClauses := do
  let _ ← expectMark .leftParen .expectedForClauses
  let initial ← forInitial
  let condition ← forCondition
  let _ ← expectMark .semicolon .expectedLoopConditionEnd
  let increment ← expressionUnless .rightParen
  let _ ← expectMark .rightParen .expectedForClausesEnd
  return { initial, condition, increment }

/-- The loop that a `for` stands for: a `while` whose body ends with the increment, in a block that
    starts with what is done first. -/
def ForClauses.toLoop (clauses : ForClauses) (body : Stmt) : Stmt :=
  let body :=
    match clauses.increment with
    | some increment => .block [body, .expression increment]
    | none => body
  let loop := .loop clauses.condition body
  match clauses.initial with
  | some initial => .block [initial, loop]
  | none => loop

mutual

/-- Reads a declaration. If it cannot be read, there is none; the error is kept, and the cursor is
    moved on. -/
def declaration : (fuel : Nat) → Cursor → Option Stmt × Cursor
  | 0, s => (none, s.recover ⟨s.peek.place, .tooDeep⟩)
  | fuel + 1, s =>
    match declarationOrError fuel s with
    | .ok stmt s => (some stmt, s)
    | .error e s => (none, s.recover e)

/-- Reads a declaration, or fails. -/
def declarationOrError : (fuel : Nat) → Read Stmt
  | 0 => fail .tooDeep
  | fuel + 1 => do
    match (← peek).kind with
    | .keyword .class =>
      skip
      let name ← expect .identifier .expectedClassName
      let superclass ← superclass
      let _ ← expectMark .leftBrace .expectedClassBody
      let methods ← methods fuel #[]
      let _ ← expectMark .rightBrace .expectedClassEnd
      return .classDecl name superclass methods
    | .keyword .fun =>
      skip
      return .function (← function fuel .function)
    | .keyword .var =>
      skip
      varDeclaration
    | _ => statement fuel

/-- Reads a function or method from its name on. -/
def function : (fuel : Nat) → FunctionKind → Read (FunctionDecl Stmt)
  | 0, _ => fail .tooDeep
  | fuel + 1, kind => do
    let name ← expect .identifier (.expectedFunctionName kind)
    let _ ← expectMark .leftParen (.expectedParameters kind)
    let params ← parameters fuel
    let _ ← expectMark .rightParen .expectedParametersEnd
    let _ ← expectMark .leftBrace (.expectedFunctionBody kind)
    let body ← block fuel #[]
    return { name, params, body }

/-- Reads the methods of a class after those in `done`. -/
def methods : (fuel : Nat) → (done : Array (FunctionDecl Stmt)) → Read (List (FunctionDecl Stmt))
  | 0, _ => fail .tooDeep
  | fuel + 1, done => do
    if ← atBraceEnd then return done.toList
    else methods fuel (done.push (← function fuel .method))

/-- Reads a block after its opening brace and the statements in `done`. -/
def block : (fuel : Nat) → (done : Array Stmt) → Read (List Stmt)
  | 0, _ => fail .tooDeep
  | fuel + 1, done => do
    if ← atBraceEnd then
      let _ ← expectMark .rightBrace .expectedBlockEnd
      return done.toList
    else
      match ← (fun s => let (stmt, s) := declaration fuel s; .ok stmt s : Read (Option Stmt)) with
      | some stmt => block fuel (done.push stmt)
      | none => block fuel done

/-- Reads a statement. -/
def statement : (fuel : Nat) → Read Stmt
  | 0 => fail .tooDeep
  | fuel + 1 => do
    let t ← peek
    match t.kind with
    | .keyword .for =>
      skip
      let clauses ← forClauses
      return clauses.toLoop (← statement fuel)
    | .keyword .if =>
      skip
      let e ← condition .expectedIfCondition
      let yes ← statement fuel
      if (← accept (.keyword .else)).isSome then return .branch e yes (some (← statement fuel))
      else return .branch e yes none
    | .keyword .while =>
      skip
      let e ← condition .expectedWhileCondition
      return .loop e (← statement fuel)
    | .keyword .return =>
      skip
      let value ← expressionUnless .semicolon
      let _ ← expectMark .semicolon .expectedReturnEnd
      return .ret t.toLexeme value
    | .punctuator .leftBrace =>
      skip
      return .block (← block fuel #[])
    | .keyword .print =>
      skip
      let e ← expression
      let _ ← expectMark .semicolon .expectedValueEnd
      return .print e
    | _ => expressionStatement

end

/-- Reads declarations up to the end, after those in `done`. -/
def declarations : (fuel : Nat) → (done : Array Stmt) → Cursor → Array Stmt × Cursor
  | 0, done, s => (done, s)
  | fuel + 1, done, s =>
    if s.atEnd then (done, s)
    else
      match declaration s.fuel s with
      | (some stmt, s) => declarations fuel (done.push stmt) s
      | (none, s) => declarations fuel done s

end Read

/-- Reads the tokens as a program. All errors that were found are reported, and dropped. (A
    declaration takes at least one token, so there are at most as many as tokens.) -/
def Program.parse (s : Cursor) : Except (List ParseError) Program × Cursor :=
  let (statements, s) := Read.declarations s.size #[] s
  if s.errors.isEmpty then (.ok statements.toList, s)
  else (.error s.errors.toList, { s with errors := #[] })

end Lox
