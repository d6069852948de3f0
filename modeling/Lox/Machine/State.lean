import Lox.Machine.Sink
import Lox.Resolution.Walk
import Lox.Store.Basic

/-!
# The state of a run

What a run works on: the store, the frame that it is in, the number of active calls, the output and
the clock.

* `State.lookUp` reads a variable and `State.assignee` finds the frame to assign to it: by distance
  if it is local, else in the global frame;
* `State.enter` makes a frame and goes into it;
* `State.bind` binds a method to an instance.
-/

namespace Lox

/-- Why something has no result. -/
inductive Stop where
  /-- The program cannot go on. -/
  | error (e : RuntimeError)
  /-- The run cannot go on. -/
  | fault (f : Fault)
  deriving Repr

/-- What a run works on. -/
structure State where
  /-- Frames and fields. -/
  store : Store
  /-- The frame that the run is in. -/
  frame : Nat
  /-- How many calls are active. -/
  depth : Nat
  /-- The output. -/
  sink : Sink
  /-- The time. -/
  clock : Clock

namespace State

/-- The value of a variable that the expression `id` refers to. -/
def lookUp (st : State) (distances : Distances) (id : Nat) (name : Lexeme) : Except Stop Value :=
  match distances[id]? with
  | some distance => (st.store.getAt st.frame distance name.text).mapError .fault
  | none =>
    match st.store.find? globalFrame name.text with
    | some v => .ok v
    | none => .error (.error (.raised name.line (.undefinedVariable name.text)))

/-- The frame in which the expression `id` assigns to a variable. -/
def assignee (st : State) (distances : Distances) (id : Nat) (name : Lexeme) : Except Stop Nat :=
  match distances[id]? with
  | some distance => (st.store.ancestor st.frame distance).mapError .fault
  | none =>
    match st.store.holder? globalFrame name.text with
    | some f => .ok f
    | none => .error (.error (.raised name.line (.undefinedVariable name.text)))

/-- Changes the store. (The state is taken apart first: nothing else then holds the store, and it is
    changed in place.) -/
@[inline]
def mapStore (st : State) (change : Store → Store) : State :=
  match st with
  | ⟨store, frame, depth, sink, clock⟩ => ⟨change store, frame, depth, sink, clock⟩

/-- Takes something new from the store. -/
@[inline]
def take {α : Type} (st : State) (change : Store → α × Store) : α × State :=
  match st with
  | ⟨store, frame, depth, sink, clock⟩ =>
    match change store with
    | (a, store) => (a, ⟨store, frame, depth, sink, clock⟩)

/-- Binds a name in a frame. -/
def defineIn (st : State) (f : Nat) (name : String) (v : Value) : State :=
  st.mapStore fun store => store.define f name v

/-- Binds a name in the current frame. -/
def define (st : State) (name : String) (v : Value) : State := st.defineIn st.frame name v

/-- Sets a field of an instance. -/
def setField (st : State) (i : Nat) (name : String) (v : Value) : State :=
  st.mapStore fun store => store.setField i name v

/-- Makes a frame. -/
def newFrame (st : State) (bindings : Bindings Value) (enclosing : Nat) : Nat × State :=
  st.take fun store => store.newFrame bindings enclosing

/-- An identity that nothing else has. -/
def newIdentity (st : State) : Nat × State := st.take Store.newIdentity

/-- Makes an instance without fields. -/
def newInstance (st : State) : Nat × State := st.take Store.newInstance

/-- Goes to a frame. -/
def goTo (st : State) (frame : Nat) : State :=
  match st with
  | ⟨store, _, depth, sink, clock⟩ => ⟨store, frame, depth, sink, clock⟩

/-- Makes a frame and goes into it. -/
def enter (st : State) (bindings : Bindings Value) (enclosing : Nat) : State :=
  match st.newFrame bindings enclosing with
  | (frame, st) => st.goTo frame

/-- A method bound to an instance: it runs in a frame of its own that binds `this`. -/
def bind (st : State) (method : Closure) (object : Value) : Closure × State :=
  match st.newFrame ((∅ : Bindings Value).insert "this" object) method.frame with
  | (frame, st) => ({ method with frame }, st)

/-- A method bound to an instance, as a value. -/
def bound (st : State) (method : Closure) (object : Value) : Value × State :=
  match st.bind method object with
  | (closure, st) =>
    match st.newIdentity with
    | (identity, st) => (.callable (.function identity closure), st)

/-- Prints a text. -/
def write (st : State) (text : String) : Option SinkError × State :=
  match st with
  | ⟨store, frame, depth, sink, clock⟩ =>
    match sink.write text with
    | (result, sink) => (result, ⟨store, frame, depth, sink, clock⟩)

/-- Reads the clock. -/
def readClock (st : State) : Float × State :=
  match st with
  | ⟨store, frame, depth, sink, clock⟩ =>
    match clock.read with
    | (time, clock) => (time, ⟨store, frame, depth, sink, clock⟩)

/-- One more call is active. -/
def startCall (st : State) : State :=
  match st with
  | ⟨store, frame, depth, sink, clock⟩ => ⟨store, frame, depth + 1, sink, clock⟩

/-- One call is over. -/
def endCall (st : State) : State :=
  match st with
  | ⟨store, frame, depth, sink, clock⟩ => ⟨store, frame, depth - 1, sink, clock⟩

/-! ### What operations change -/

/-- Binding a name changes the current frame. -/
theorem define_eq (st : State) (name : String) (v : Value) :
    st.define name v = { st with store := st.store.define st.frame name v } := rfl

/-- The end of a call changes the number of active calls. -/
theorem endCall_eq (st : State) : st.endCall = { st with depth := st.depth - 1 } := rfl

end State

end Lox
