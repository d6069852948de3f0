import Lox.Machine.State

/-!
# The machine

Programs are run by a machine that takes one small step after another. At each moment it has
something to do next (`Control`) and a stack of what is to be done with the result (`Pending`). The
stack is what makes the machine independent of how deep a program nests.

A result is either *delivered* to the top of the stack, or it *unwinds* the stack: a `return`
unwinds it up to the body of the running function, and an error unwinds all of it. Whatever has to
be put back when a block, a body or a call is left has an entry on the stack, so it is put back
however it is left.

* `Machine` is the machine with its state;
* `Outcome` is how a run ends.
-/

namespace Lox

/-- What leaves the usual order of a program. -/
inductive Abrupt where
  /-- A function returns a value. -/
  | returns (v : Value)
  /-- The program cannot go on. -/
  | fails (e : RuntimeError)
  deriving Repr

/-- How a run ends. -/
inductive Outcome where
  /-- With a value; that of a statement means nothing. -/
  | value (v : Value)
  /-- With a `return` that is in no function. -/
  | returned (v : Value)
  /-- With an error. -/
  | failed (e : RuntimeError)
  /-- With a fault, at once. -/
  | fault (f : Fault)
  deriving Repr

/-- The end of a run that something abrupt leaves altogether. -/
def Abrupt.outcome : Abrupt → Outcome
  | returns v => .returned v
  | fails e => .failed e

/-- What the machine does next. -/
inductive Control where
  /-- Evaluates an expression. -/
  | eval (e : Expr)
  /-- Executes a statement. -/
  | exec (s : Stmt)
  /-- Executes statements, one after another. -/
  | execAll (statements : List Stmt)
  /-- Hands a value to the top of the stack. -/
  | deliver (v : Value)
  /-- Goes down the stack. -/
  | unwind (a : Abrupt)
  /-- Nothing. -/
  | done (o : Outcome)
  deriving Repr

/-- What is done with a value, once it is there. -/
inductive Pending where
  /-- It is the operand of an operator. -/
  | unary (op : UnaryOp) (line : Nat)
  /-- It is a left operand, and the right one is evaluated next. -/
  | binaryLeft (op : BinaryOp) (line : Nat) (right : Expr)
  /-- It is a right operand. -/
  | binaryRight (op : BinaryOp) (line : Nat) (left : Value)
  /-- It is a left operand that may decide alone. -/
  | logical (op : LogicalOp) (right : Expr)
  /-- It is assigned to a variable. -/
  | assign (id : Nat) (name : Lexeme)
  /-- It is called, and the arguments are evaluated next. -/
  | callee (line : Nat) (arguments : List Expr)
  /-- It is an argument, after those in `before`, of which the last one comes first. -/
  | argument (callee : Value) (line : Nat) (before : List Value) (rest : List Expr)
  /-- A property of it is read. -/
  | get (name : Lexeme)
  /-- A field of it is set, and the value for it is evaluated next. -/
  | setObject (name : Lexeme) (value : Expr)
  /-- It is put into a field. -/
  | setValue (id : Nat) (name : Lexeme)
  /-- It is printed. -/
  | print
  /-- A variable is declared with it. -/
  | define (name : Lexeme)
  /-- It chooses what is executed. -/
  | branch (yes : Stmt) (no : Option Stmt)
  /-- It says whether a loop goes on. -/
  | loopTest (condition : Expr) (body : Stmt)
  /-- It is dropped, and a loop tests its condition again. -/
  | loopBody (condition : Expr) (body : Stmt)
  /-- It is dropped, and more statements are executed. -/
  | sequence (rest : List Stmt)
  /-- It is what a `return` returns. -/
  | returns
  /-- A block is left for the frame around it. -/
  | leaveBlock (frame : Nat)
  /-- The body of a function is left for the frame of its caller. -/
  | leaveBody (closure : Closure) (frame : Nat)
  /-- It is dropped: an instance is set up, and is the result. -/
  | construct (object : Value)
  /-- A call is over. -/
  | leaveCall
  deriving Repr

/-- What does not change during a run. -/
structure Config where
  /-- The distances of local names. -/
  distances : Distances
  /-- How many calls can be active at the same time. -/
  maxDepth : Nat
  /-- What native functions do, given the time and the arguments. -/
  natives : Native → Float → List Value → Except String Value

/-- The machine. -/
structure Machine where
  /-- What it does next. -/
  control : Control
  /-- What is done with the result. -/
  stack : List Pending
  /-- What it works on. -/
  state : State

namespace Machine

/-- Hands a value on. -/
def deliver (v : Value) (stack : List Pending) (st : State) : Machine := ⟨.deliver v, stack, st⟩

/-- Fails at a line. -/
def fail (line : Nat) (cause : RuntimeError.Cause) (stack : List Pending) (st : State) : Machine :=
  ⟨.unwind (.fails (.raised line cause)), stack, st⟩

/-- Hands a result on, or stops. -/
def finish (result : Except Stop Value) (stack : List Pending) (st : State) : Machine :=
  match result with
  | .ok v => ⟨.deliver v, stack, st⟩
  | .error (.error e) => ⟨.unwind (.fails e), stack, st⟩
  | .error (.fault f) => ⟨.done (.fault f), stack, st⟩

end Machine

end Lox
