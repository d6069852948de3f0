/-!
# What can go wrong in a run

A run fails with a `RuntimeError`: the program did something that the language forbids, or its
output could not be written. Apart from that there are faults. A fault means that a run was started
with distances that do not fit the program; programs that were resolved have none.
-/

namespace Lox

/-- Why a program cannot go on. -/
inductive RuntimeError.Cause where
  | undefinedVariable (name : String)
  | undefinedProperty (name : String)
  | operandNotNumber
  | operandsNotNumbers
  | operandsNotAddable
  | notCallable
  | wrongArity (expected got : Nat)
  | stackOverflow
  | noProperties
  | noFields
  | superclassNotClass
  /-- A native function failed with a message of its own. -/
  | native (message : String)
  deriving DecidableEq, Repr

/-- What is wrong, in words. -/
def RuntimeError.Cause.message : RuntimeError.Cause → String
  | undefinedVariable name => "Undefined variable '" ++ name ++ "'."
  | undefinedProperty name => "Undefined property '" ++ name ++ "'."
  | operandNotNumber => "Operand must be a number."
  | operandsNotNumbers => "Operands must be numbers."
  | operandsNotAddable => "Operands must be two numbers or two strings."
  | notCallable => "Can only call functions and classes."
  | wrongArity expected got =>
    "Expected " ++ expected.repr ++ " arguments but got " ++ got.repr ++ "."
  | stackOverflow => "Stack overflow."
  | noProperties => "Only instances have properties."
  | noFields => "Only instances have fields."
  | superclassNotClass => "Superclass must be a class."
  | native message => message

/-- Why output cannot be written. -/
structure SinkError where
  /-- What is wrong, in words. -/
  message : String
  deriving DecidableEq, Repr

/-- There is no room left. -/
def SinkError.full : SinkError := ⟨"sink full"⟩

/-- It cannot be made sure that all is written. -/
def SinkError.flushFailed : SinkError := ⟨"flush failed"⟩

/-- An error that stops a run. -/
inductive RuntimeError where
  /-- The program cannot go on at the given line. -/
  | raised (line : Nat) (cause : RuntimeError.Cause)
  /-- The output cannot be written. -/
  | sink (cause : SinkError)
  deriving DecidableEq, Repr

/-- Why the distances of a program do not fit it. -/
inductive Fault where
  /-- There are only `hops` frames around a frame, fewer than `distance`. -/
  | chainEnded (hops distance : Nat)
  /-- The frame at the given distance does not bind the name. -/
  | nameMissing (name : String) (distance : Nat)
  /-- The expression needs a distance and has none. -/
  | neverResolved (id : Nat)
  /-- A `return` outside all functions. -/
  | returnEscaped
  /-- `super` is bound to something that is no class. -/
  | superNotClass (typeName : String)
  /-- `this` is bound to something that is no instance. -/
  | thisNotInstance (typeName : String)
  /-- `super` is bound in the current frame, so there is no frame inside it that binds `this`. -/
  | noReceiver
  deriving DecidableEq, Repr

/-- A fault in words. -/
def Fault.message : Fault → String
  | chainEnded hops distance =>
    "scope chain ended after " ++ hops.repr ++ " of " ++ distance.repr ++ " hops"
  | nameMissing name distance =>
    "resolved name '" ++ name ++ "' missing at distance " ++ distance.repr
  | neverResolved id => "Expr(" ++ id.repr ++ ") was never resolved"
  | returnEscaped => "'return' escaped to the top level"
  | superNotClass typeName => "'super' bound to " ++ typeName
  | thisNotInstance typeName => "'this' bound to " ++ typeName
  | noReceiver => "no frame inside the one that binds 'super'"

end Lox
