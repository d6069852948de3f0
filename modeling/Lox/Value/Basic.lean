import Lox.Bindings
import Lox.Stmt.Basic

/-!
# Values

The values that programs compute with. What can change lies in the store (`Lox.Store.Basic`), and
values refer to it by number: functions refer to the frame they were made in, instances to their
fields. All else about a value is fixed when it is made, so a class carries its methods and its
superclass with it.

Functions, classes and native functions are equal only to themselves. So each gets a number as its
identity when it is made.

* `Value.equals` is the equality of the language;
* `Value.display` is a value as it is printed;
* `Class.findMethod` looks a method up in a class and in the classes above it.
-/

namespace Lox

/-- A function that is not written in the language. What it does is settled where it is called. -/
structure Native where
  /-- Its identity. -/
  identity : Nat
  /-- Its name. -/
  name : String
  /-- How many arguments it takes. -/
  arity : Nat
  deriving DecidableEq, Repr

/-- A function or method together with the frame that it was made in. -/
structure Closure where
  /-- How it was declared. -/
  decl : FunctionDecl Stmt
  /-- The frame in which its free names are found. -/
  frame : Nat
  /-- Whether it sets up an instance, and so yields that instance whatever it returns. -/
  isInitializer : Bool
  deriving Repr

/-- How many arguments a function takes. -/
def Closure.arity (c : Closure) : Nat := c.decl.params.length

/-- A class. -/
structure Class where
  /-- Its identity. -/
  identity : Nat
  /-- Its name. -/
  name : String
  /-- The class that it inherits from. -/
  superclass : Option Class
  /-- The methods that it declares. -/
  methods : Bindings Closure
  deriving Repr

namespace Class

/-- The method called `name`: that of the class itself if it has one, else that of the nearest class
    above it that has one. -/
def findMethod (name : String) : Class → Option Closure
  | ⟨_, _, superclass, methods⟩ =>
    match methods.get? name with
    | some method => some method
    | none =>
      match superclass with
      | some c => findMethod name c
      | none => none

end Class

/-- What can be called. -/
inductive Callable where
  /-- A function that is not written in the language. -/
  | native (f : Native)
  /-- A function, or a method bound to an instance. -/
  | function (identity : Nat) (closure : Closure)
  /-- A class; calling it makes an instance. -/
  | «class» (c : Class)
  deriving Repr

/-- A value. -/
inductive Value where
  /-- No value. -/
  | nil
  /-- A truth value. -/
  | bool (value : Bool)
  /-- A number. -/
  | number (value : Float)
  /-- A text. -/
  | string (text : String)
  /-- Something that can be called. -/
  | callable (c : Callable)
  /-- An instance of a class. -/
  | «instance» (id : Nat) (of : Class)
  deriving Repr

namespace Callable

/-- Whether two callables are the same one. -/
def same : Callable → Callable → Bool
  | native f, native g => f.identity == g.identity
  | function i _, function j _ => i == j
  | .class c, .class d => c.identity == d.identity
  | _, _ => false

/-- A callable as it is printed. -/
def display : Callable → String
  | native _ => "<native fn>"
  | function _ closure => "<fn " ++ closure.decl.name.text ++ ">"
  | .class c => c.name

end Callable

namespace Value

/-- A literal as a value. -/
def ofLiteral : Literal → Value
  | .number value => number value
  | .string contents => string contents
  | .bool value => bool value
  | .nil => nil

/-- Whether a value counts as true: all do but `nil` and `false`. -/
def isTruthy : Value → Bool
  | nil => false
  | bool value => value
  | _ => true

/-- The type of a value, in words. -/
def typeName : Value → String
  | nil => "nil"
  | bool _ => "boolean"
  | number _ => "number"
  | string _ => "string"
  | callable _ => "callable"
  | .instance _ _ => "instance"

/-- Equality of the language. Values of different types differ, numbers compare as doubles (so that
    not-a-number differs from itself), and callables and instances are equal only to themselves. -/
def equals : Value → Value → Bool
  | nil, nil => true
  | bool a, bool b => a == b
  | number a, number b => a == b
  | string a, string b => a == b
  | callable c, callable d => c.same d
  | .instance i _, .instance j _ => i == j
  | _, _ => false

/-- A value as it is printed. -/
def display : Value → String
  | nil => "nil"
  | bool value => if value then "true" else "false"
  | number value => Number.display value
  | string text => text
  | callable c => c.display
  | .instance _ c => c.name ++ " instance"

/-- A value in a listing, where strings have quotes. -/
def inspect : Value → String
  | string text => Text.quoted text
  | value => value.display

end Value

end Lox
