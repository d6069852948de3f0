import Lox.Expr.Basic

/-!
# Statements

Statement trees. There is no `for`: it is read as the `while` loop and blocks that it stands for. A
function and a method are declared alike, so a declaration is a type of its own; it refers to the
statements of its body by a parameter, since statements in turn hold declarations.
-/

namespace Lox

/-- A variable that a superclass is read from. -/
structure VarRef where
  /-- The identity of the expression that reads it. -/
  id : Nat
  /-- The variable. -/
  name : Lexeme
  deriving DecidableEq, Repr

/-- The declaration of a function or method whose body consists of statements of type `σ`. -/
structure FunctionDecl (σ : Type) where
  /-- The name of the function. -/
  name : Lexeme
  /-- The names of its parameters. -/
  params : List Lexeme
  /-- What it does. -/
  body : List σ
  deriving Repr

/-- A statement. -/
inductive Stmt where
  /-- An expression whose value is dropped. -/
  | expression (e : Expr)
  /-- Prints a value on a line of its own. -/
  | print (e : Expr)
  /-- Declares a variable. -/
  | var (name : Lexeme) (initial : Option Expr)
  /-- Statements with a scope of their own. -/
  | block (body : List Stmt)
  /-- A choice. -/
  | branch (condition : Expr) (yes : Stmt) (no : Option Stmt)
  /-- A loop. -/
  | loop (condition : Expr) (body : Stmt)
  /-- Declares a function. -/
  | function (decl : FunctionDecl Stmt)
  /-- Ends the running function. -/
  | ret (keyword : Lexeme) (value : Option Expr)
  /-- Declares a class. -/
  | classDecl (name : Lexeme) (superclass : Option VarRef) (methods : List (FunctionDecl Stmt))
  deriving Repr

/-- A program: statements, one after another. -/
abbrev Program := List Stmt

end Lox
