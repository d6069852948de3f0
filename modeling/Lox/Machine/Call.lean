import Lox.Machine.Basic
import Lox.Value.Operation

/-!
# Properties and calls

The larger parts of a step.

* `Machine.property`: fields come before methods, and a method is bound to its instance;
* `Machine.call`: calls are checked for what is called, for the number of arguments and for the
  depth of calls, in this order.
-/

namespace Lox

namespace Machine

/-- Reads a property of the instance `id` of the class `c`. -/
def property (id : Nat) (c : Class) (name : Lexeme) (stack : List Pending) (st : State) : Machine :=
  match st.store.field? id name.text with
  | some v => deliver v stack st
  | none =>
    match c.findMethod name.text with
    | some method =>
      match st.bound method (.instance id c) with
      | (v, st) => deliver v stack st
    | none => fail name.line (.undefinedProperty name.text) stack st

/-- Reads a method of the class that `super` is bound to, for the instance that `this` is bound to
    in the frame just inside. -/
def superMethod (cfg : Config) (id : Nat) (method : Lexeme) (stack : List Pending) (st : State) :
    Machine :=
  match cfg.distances[id]? with
  | none => finish (.error (.fault (.neverResolved id))) stack st
  | some distance =>
    match st.store.getAt st.frame distance "super" with
    | .error f => finish (.error (.fault f)) stack st
    | .ok (.callable (.class c)) =>
      match distance with
      | 0 => finish (.error (.fault .noReceiver)) stack st
      | inner + 1 =>
        match st.store.getAt st.frame inner "this" with
        | .error f => finish (.error (.fault f)) stack st
        | .ok (.instance i of) =>
          match c.findMethod method.text with
          | some found =>
            match st.bound found (.instance i of) with
            | (v, st) => deliver v stack st
          | none => fail method.line (.undefinedProperty method.text) stack st
        | .ok v => finish (.error (.fault (.thisNotInstance v.typeName))) stack st
    | .ok v => finish (.error (.fault (.superNotClass v.typeName))) stack st

/-- Starts the body of a function in a new frame that binds its parameters. -/
def enterBody (closure : Closure) (arguments : List Value) (stack : List Pending) (st : State) :
    Machine :=
  let bindings := (closure.decl.params.zip arguments).foldl
    (fun (b : Bindings Value) (param, v) => b.insert param.text v) ∅
  ⟨.execAll closure.decl.body, .leaveBody closure st.frame :: stack,
    st.enter bindings closure.frame⟩

/-- What a body yields that has ended with `v`: the instance if it sets one up, else `v`. -/
def bodyResult (closure : Closure) (v : Value) (store : Store) : Except Stop Value :=
  if closure.isInitializer then (store.getAt closure.frame 0 "this").mapError .fault else .ok v

/-- Makes an instance of a class, and sets it up if the class knows how to. -/
def instantiate (c : Class) (arguments : List Value) (stack : List Pending)
    (st : State) : Machine :=
  match st.newInstance with
  | (id, st) =>
    match c.findMethod initializerName with
    | none => deliver (.instance id c) stack st
    | some method =>
      match st.bind method (.instance id c) with
      | (closure, st) => enterBody closure arguments (.construct (.instance id c) :: stack) st

/-- Calls a native function. -/
def callNative (cfg : Config) (f : Native) (line : Nat) (arguments : List Value)
    (stack : List Pending) (st : State) : Machine :=
  match st.readClock with
  | (time, st) =>
    match cfg.natives f time arguments with
    | .ok v => deliver v stack st
    | .error message => fail line (.native message) stack st

/-- Runs what is called. -/
def enter (cfg : Config) (c : Callable) (line : Nat) (arguments : List Value)
    (stack : List Pending) (st : State) : Machine :=
  match c with
  | .native f => callNative cfg f line arguments stack st
  | .function _ closure => enterBody closure arguments stack st
  | .class c => instantiate c arguments stack st

end Machine

/-- How many arguments a callable takes. A class takes those of the method that sets up its
    instances. -/
def Callable.arity : Callable → Nat
  | native f => f.arity
  | function _ closure => closure.arity
  | .class c => ((c.findMethod initializerName).map Closure.arity).getD 0

namespace Machine

/-- Calls `callee`; `line` is where the call ends. -/
def call (cfg : Config) (callee : Value) (line : Nat) (arguments : List Value)
    (stack : List Pending) (st : State) : Machine :=
  match callee with
  | .callable c =>
    if arguments.length ≠ c.arity then
      fail line (.wrongArity c.arity arguments.length) stack st
    else if cfg.maxDepth ≤ st.depth then fail line .stackOverflow stack st
    else enter cfg c line arguments (.leaveCall :: stack) st.startCall
  | _ => fail line .notCallable stack st

/-- Evaluates the arguments that are left, and then calls. -/
def nextArgument (cfg : Config) (callee : Value) (line : Nat) (before : List Value)
    (rest : List Expr) (stack : List Pending) (st : State) : Machine :=
  match rest with
  | [] => call cfg callee line before.reverse stack st
  | e :: rest => ⟨.eval e, .argument callee line before rest :: stack, st⟩

end Machine

end Lox
