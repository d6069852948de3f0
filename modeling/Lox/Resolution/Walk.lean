import Std.Data.ExtTreeMap
import Lox.Bindings
import Lox.Expr.Basic

/-!
# Scopes

Resolution goes through a program once and keeps track of the scopes that are open at each point:
which names each of them has declared, and which of these are defined, that is past their initial
value. Global names are not tracked. For a name that is declared in an open scope, the number of
scopes that lie between is written down, and errors against the static rules are collected on the
way.

This module holds the state of such a walk, and what can be done to it at one point of a program.

* `Walk.declare`, `Walk.define` introduce a name in the innermost scope;
* `Walk.resolveLocal` writes down how far out the scope of a name is.
-/

namespace Lox

/-- For expressions that refer to a local name, how many scopes lie between the expression and the
    scope of the name. -/
abbrev Distances := Std.ExtTreeMap Nat Nat

/-- Why a program breaks the static rules. -/
inductive ResolveError.Cause where
  | alreadyDeclared
  | ownInitializer
  | returnAtTop
  | returnFromInitializer
  | inheritFromItself
  | thisOutsideClass
  | superOutsideClass
  | superWithoutSuperclass
  deriving DecidableEq, Repr

/-- What is wrong, in words. -/
def ResolveError.Cause.message : ResolveError.Cause → String
  | alreadyDeclared => "Already a variable with this name in this scope."
  | ownInitializer => "Can't read local variable in its own initializer."
  | returnAtTop => "Can't return from top-level code."
  | returnFromInitializer => "Can't return a value from an initializer."
  | inheritFromItself => "A class can't inherit from itself."
  | thisOutsideClass => "Can't use 'this' outside of a class."
  | superOutsideClass => "Can't use 'super' outside of a class."
  | superWithoutSuperclass => "Can't use 'super' in a class with no superclass."

/-- A breach of the static rules. -/
structure ResolveError where
  /-- The name or keyword at which it is reported. -/
  lexeme : Lexeme
  /-- What is wrong. -/
  cause : ResolveError.Cause
  deriving DecidableEq, Repr

/-- The function body that a point lies in, directly. -/
inductive FunctionScope where
  /-- None. -/
  | none
  /-- That of a function. -/
  | function
  /-- That of a method which sets up an instance. -/
  | initializer
  /-- That of any other method. -/
  | method
  deriving DecidableEq, Repr

/-- The class body that a point lies in, directly. -/
inductive ClassScope where
  /-- None. -/
  | none
  /-- That of a class without a superclass. -/
  | base
  /-- That of a class with a superclass. -/
  | derived
  deriving DecidableEq, Repr

/-- The name of the method that sets up an instance. -/
def initializerName : String := "init"

/-- The names that a scope has declared. Those that are defined have the value `true`. -/
abbrev Scope := Bindings Bool

/-- The state of a walk through a program. -/
structure Walk where
  /-- The open scopes that are not global, from the innermost one outwards. -/
  scopes : List Scope
  /-- The function body that is gone through. -/
  function : FunctionScope
  /-- The class body that is gone through. -/
  inClass : ClassScope
  /-- What has been written down so far. -/
  distances : Distances
  /-- The errors so far, in the order in which they were found. -/
  errors : Array ResolveError

namespace Walk

/-- The state outside all scopes. -/
def start : Walk :=
  { scopes := [], function := .none, inClass := .none, distances := ∅, errors := #[] }

/-- Adds an error. -/
def report (w : Walk) (lexeme : Lexeme) (cause : ResolveError.Cause) : Walk :=
  { w with errors := w.errors.push ⟨lexeme, cause⟩ }

/-- Opens a scope. -/
def openScope (w : Walk) : Walk := { w with scopes := ∅ :: w.scopes }

/-- Closes the innermost scope. -/
def closeScope (w : Walk) : Walk := { w with scopes := w.scopes.tail }

/-- Binds a name in the innermost scope, if that is not the global one. -/
def bind (w : Walk) (name : String) (isDefined : Bool) : Walk :=
  match w.scopes with
  | [] => w
  | scope :: outer => { w with scopes := scope.insert name isDefined :: outer }

/-- Declares a name. A name can be declared only once in a scope, unless that is the global one. -/
def declare (w : Walk) (name : Lexeme) : Walk :=
  match w.scopes with
  | [] => w
  | scope :: _ =>
    if scope.contains name.text then w.report name .alreadyDeclared else w.bind name.text false

/-- Marks a declared name as defined. -/
def define (w : Walk) (name : Lexeme) : Walk := w.bind name.text true

/-- Declares a name that is defined from the start. -/
def introduce (w : Walk) (name : Lexeme) : Walk := (w.declare name).define name

/-- Introduces names one after another. -/
def introduceAll (w : Walk) (names : List Lexeme) : Walk := names.foldl introduce w

/-- How many scopes lie between this point and the innermost scope that has declared `name`. -/
def distance? (w : Walk) (name : String) : Option Nat := w.scopes.findIdx? (·.contains name)

/-- Writes down how far out the scope of the name is that the expression `id` refers to. A name that
    no open scope has declared is global, and nothing is written down. -/
def resolveLocal (w : Walk) (id : Nat) (name : String) : Walk :=
  match w.distance? name with
  | some distance => { w with distances := w.distances.insert id distance }
  | none => w

/-- Whether `name` is declared in the innermost scope and not yet defined. -/
def isUndefined (w : Walk) (name : String) : Bool :=
  match w.scopes with
  | [] => false
  | scope :: _ => scope.get? name == some false

/-- The variable `name` is read by the expression `id`. -/
def readVariable (w : Walk) (id : Nat) (name : Lexeme) : Walk :=
  let w := if w.isUndefined name.text then w.report name .ownInitializer else w
  w.resolveLocal id name.text

/-- What has been written down, if there are no errors. -/
def result (w : Walk) : Except (List ResolveError) Distances :=
  if w.errors.isEmpty then .ok w.distances else .error w.errors.toList

end Walk

end Lox
