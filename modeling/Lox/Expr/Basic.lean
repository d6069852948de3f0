import Lox.Token.Basic

/-!
# Expressions

Expression trees as the grammar yields them. Every node has a number of its own, its identity, under
which later stages keep what they find out about it, and the nodes that can fail keep the lexeme at
which the failure is reported. Parentheses are nodes too, so a tree has no more than one reading.
-/

namespace Lox

/-- The values that can be written down. -/
inductive Literal where
  /-- A number. -/
  | number (value : Float)
  /-- A string. -/
  | string (contents : String)
  /-- A truth value. -/
  | bool (value : Bool)
  /-- No value. -/
  | nil
  deriving DecidableEq, Repr

/-- Operators with one operand. -/
inductive UnaryOp where
  | negate
  | not
  deriving DecidableEq, Repr

/-- Operators that always evaluate both operands. -/
inductive BinaryOp where
  | add
  | subtract
  | multiply
  | divide
  | equal
  | notEqual
  | greater
  | greaterEqual
  | less
  | lessEqual
  deriving DecidableEq, Repr

/-- Operators whose left operand decides whether the right one is evaluated. -/
inductive LogicalOp where
  | and
  | or
  deriving DecidableEq, Repr

/-- The punctuator that an operator is written as. -/
def UnaryOp.punctuator : UnaryOp → Punctuator
  | negate => .minus
  | not => .bang

/-- The punctuator that an operator is written as. -/
def BinaryOp.punctuator : BinaryOp → Punctuator
  | add => .plus
  | subtract => .minus
  | multiply => .star
  | divide => .slash
  | equal => .equalEqual
  | notEqual => .bangEqual
  | greater => .greater
  | greaterEqual => .greaterEqual
  | less => .less
  | lessEqual => .lessEqual

/-- The keyword that an operator is written as. -/
def LogicalOp.keyword : LogicalOp → Keyword
  | and => .and
  | or => .or

/-- An expression. -/
inductive Expr where
  /-- A value. -/
  | literal (id : Nat) (value : Literal)
  /-- `- right` or `! right`. -/
  | unary (id : Nat) (op : UnaryOp) (mark : Lexeme) (right : Expr)
  /-- `left op right`. -/
  | binary (id : Nat) (op : BinaryOp) (mark : Lexeme) (left right : Expr)
  /-- `left and right` or `left or right`. -/
  | logical (id : Nat) (op : LogicalOp) (mark : Lexeme) (left right : Expr)
  /-- `(inner)`. -/
  | grouping (id : Nat) (inner : Expr)
  /-- The value of a variable. -/
  | var (id : Nat) (name : Lexeme)
  /-- `name = value`. -/
  | assign (id : Nat) (name : Lexeme) (value : Expr)
  /-- `callee(arguments)`; `paren` closes the arguments. -/
  | call (id : Nat) (callee : Expr) (paren : Lexeme) (arguments : List Expr)
  /-- `object.name`. -/
  | get (id : Nat) (object : Expr) (name : Lexeme)
  /-- `object.name = value`. -/
  | set (id : Nat) (object : Expr) (name : Lexeme) (value : Expr)
  /-- The instance whose method is running. -/
  | this (id : Nat) (keyword : Lexeme)
  /-- `super.method`. -/
  | super (id : Nat) (keyword method : Lexeme)
  deriving Repr

/-- The identity of an expression. -/
def Expr.id : Expr → Nat
  | literal id _ => id
  | unary id _ _ _ => id
  | binary id _ _ _ _ => id
  | logical id _ _ _ _ => id
  | grouping id _ => id
  | var id _ => id
  | assign id _ _ => id
  | call id _ _ _ => id
  | get id _ _ => id
  | set id _ _ _ => id
  | this id _ => id
  | super id _ _ => id

end Lox
