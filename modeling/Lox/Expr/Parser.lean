import Lox.Token.Cursor

/-!
# Reading expressions

The grammar of expressions, from the loosest binding to the tightest:

* assignment `target = value`, which groups to the right;
* the operators with two operands, which group to the left: `or`, `and`, equality, comparison, sums,
  products (`Operator.level`);
* the operators with one operand;
* calls and property reads, which follow what they are applied to;
* literals, names, `this`, `super` and parentheses.

An operand that is followed by operators is read once, and then takes in the operators from some
level on (`Read.operators`), so one reader serves all levels of the second kind. An expression gets
its identity when it is complete, that is after its parts.

All readers count down a fuel. It is a bound on nesting that `Cursor.fuel` chooses larger than the
nesting of any list of tokens.
-/

namespace Lox

/-- An operator between two operands. -/
inductive Operator where
  /-- One that evaluates both operands. -/
  | binary (op : BinaryOp)
  /-- One that may leave the right operand out. -/
  | logical (op : LogicalOp)
  deriving DecidableEq, Repr

namespace Operator

/-- The operator between operands that a token is, if it is one. -/
def ofKind? : Token.Kind → Option Operator
  | .keyword .or => some (.logical .or)
  | .keyword .and => some (.logical .and)
  | .punctuator .bangEqual => some (.binary .notEqual)
  | .punctuator .equalEqual => some (.binary .equal)
  | .punctuator .greater => some (.binary .greater)
  | .punctuator .greaterEqual => some (.binary .greaterEqual)
  | .punctuator .less => some (.binary .less)
  | .punctuator .lessEqual => some (.binary .lessEqual)
  | .punctuator .minus => some (.binary .subtract)
  | .punctuator .plus => some (.binary .add)
  | .punctuator .star => some (.binary .multiply)
  | .punctuator .slash => some (.binary .divide)
  | _ => none

/-- How tightly an operator binds. -/
def level : Operator → Nat
  | logical .or => 0
  | logical .and => 1
  | binary .equal | binary .notEqual => 2
  | binary .greater | binary .greaterEqual | binary .less | binary .lessEqual => 3
  | binary .add | binary .subtract => 4
  | binary .multiply | binary .divide => 5

/-- The expression that applies an operator. -/
def apply (op : Operator) (id : Nat) (mark : Lexeme) (left right : Expr) : Expr :=
  match op with
  | binary op => .binary id op mark left right
  | logical op => .logical id op mark left right

end Operator

/-- The operator with one operand that a token is, if it is one. -/
def UnaryOp.ofKind? : Token.Kind → Option UnaryOp
  | .punctuator .bang => some .not
  | .punctuator .minus => some .negate
  | _ => none

/-- The literal that a token is, if it is one. -/
def Literal.ofKind? : Token.Kind → Option Literal
  | .keyword .false => some (.bool false)
  | .keyword .true => some (.bool true)
  | .keyword .nil => some .nil
  | .number value => some (.number value)
  | .string contents => some (.string contents)
  | _ => none

namespace Read

/-- Reads an operator that binds at least as tightly as `level`, if the cursor is at one. -/
def acceptOperator (level : Nat) : Read (Option (Operator × Lexeme)) := fun s =>
  match s.rest with
  | [] => .ok none s
  | t :: rest =>
    match Operator.ofKind? t.kind with
    | none => .ok none s
    | some op => if level ≤ op.level then .ok (some (op, t.toLexeme)) { s with rest }
        else .ok none s

/-- Reads an operator with one operand, if the cursor is at one. -/
def acceptUnary : Read (Option (UnaryOp × Lexeme)) := fun s =>
  match s.rest with
  | [] => .ok none s
  | t :: rest =>
    match UnaryOp.ofKind? t.kind with
    | none => .ok none s
    | some op => .ok (some (op, t.toLexeme)) { s with rest }

/-- What `target = value` is, where `mark` is the `=`. A target that cannot be assigned to is an
    error, but what follows can be read; the target stands in for the assignment. -/
def assignTo (target : Expr) (mark : Lexeme) (value : Expr) : Read Expr := do
  match target with
  | .var _ name => return .assign (← freshId) name value
  | .get _ object name => return .set (← freshId) object name value
  | _ =>
    report (.at mark) .invalidAssignmentTarget
    return target

/-- Reads `.method` after `super`. -/
def superMethod (keyword : Lexeme) : Read Expr := do
  let _ ← expectMark .dot .expectedSuperDot
  let method ← expect .identifier .expectedSuperMethod
  return .super (← freshId) keyword method

mutual

/-- Reads an expression. -/
def assignment : (fuel : Nat) → Read Expr
  | 0 => fail .tooDeep
  | fuel + 1 => do
    let left ← operand fuel 0
    match ← accept (.punctuator .equal) with
    | none => return left
    | some mark => assignTo left mark.toLexeme (← assignment fuel)

/-- Reads an operand of operators below `level`: what a tighter operator joins is one operand. -/
def operand : (fuel level : Nat) → Read Expr
  | 0, _ => fail .tooDeep
  | fuel + 1, level => do operators fuel level (← unary fuel)

/-- Reads the operators from `level` on that follow the operand `left`, with their operands. -/
def operators : (fuel level : Nat) → (left : Expr) → Read Expr
  | 0, _, _ => fail .tooDeep
  | fuel + 1, level, left => do
    match ← acceptOperator level with
    | none => return left
    | some (op, mark) =>
      let right ← operand fuel (op.level + 1)
      operators fuel level (op.apply (← freshId) mark left right)

/-- Reads an operand with the operators in front of it. -/
def unary : (fuel : Nat) → Read Expr
  | 0 => fail .tooDeep
  | fuel + 1 => do
    match ← acceptUnary with
    | some (op, mark) =>
      let right ← unary fuel
      return .unary (← freshId) op mark right
    | none => calls fuel (← primary fuel)

/-- Reads the argument lists and properties that follow `callee`. -/
def calls : (fuel : Nat) → (callee : Expr) → Read Expr
  | 0, _ => fail .tooDeep
  | fuel + 1, callee => do
    match (← peek).kind with
    | .punctuator .leftParen =>
      skip
      let arguments ← arguments fuel
      let paren ← expectMark .rightParen .expectedArgumentsEnd
      calls fuel (.call (← freshId) callee paren arguments)
    | .punctuator .dot =>
      skip
      let name ← expect .identifier .expectedPropertyName
      calls fuel (.get (← freshId) callee name)
    | _ => return callee

/-- Reads the arguments of a call, up to the closing parenthesis. -/
def arguments : (fuel : Nat) → Read (List Expr)
  | 0 => fail .tooDeep
  | fuel + 1 => do
    if ← seesMark .rightParen then return []
    else moreArguments fuel #[]

/-- Reads the arguments after those in `done`, of which there is at least one. -/
def moreArguments : (fuel : Nat) → (done : Array Expr) → Read (List Expr)
  | 0, _ => fail .tooDeep
  | fuel + 1, done => do
    if maxArity ≤ done.size then
      report (← peek).place .tooManyArguments
    let done := done.push (← assignment fuel)
    if (← accept (.punctuator .comma)).isSome then moreArguments fuel done
    else return done.toList

/-- Reads an operand without anything around it. -/
def primary : (fuel : Nat) → Read Expr
  | 0 => fail .tooDeep
  | fuel + 1 => do
    let t ← peek
    match Literal.ofKind? t.kind with
    | some value =>
      skip
      return .literal (← freshId) value
    | none =>
      match t.kind with
      | .keyword .this =>
        skip
        return .this (← freshId) t.toLexeme
      | .keyword .super =>
        skip
        superMethod t.toLexeme
      | .identifier =>
        skip
        return .var (← freshId) t.toLexeme
      | .punctuator .leftParen =>
        skip
        let inner ← assignment fuel
        let _ ← expectMark .rightParen .expectedGroupingEnd
        return .grouping (← freshId) inner
      | _ => fail .expectedExpression

end

/-- Reads an expression. -/
def expression : Read Expr := fun s => assignment s.fuel s

end Read

/-- Reads the tokens as one expression. If it could be read, the errors that did not stop the
    reading count: the first is reported and all are dropped. -/
def Expr.parse (s : Cursor) : Except ParseError Expr × Cursor :=
  match Read.expression s with
  | .error e s => (.error e, s)
  | .ok e s =>
    match s.errors[0]? with
    | some first => (.error first, { s with errors := #[] })
    | none => if s.atEnd then (.ok e, s) else (.error ⟨s.peek.place, .expectedEnd⟩, s)

end Lox
