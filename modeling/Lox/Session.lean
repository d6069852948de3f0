import Lox.Diagnostic
import Lox.Machine.Step
import Lox.Resolution.Resolve
import Lox.Stmt.Parser

/-!
# Sessions

A session takes one source after another. Each is scanned, parsed, resolved and run, and what a
source defines globally is there for the ones after it. A source that is rejected runs nothing, and
one that fails leaves what it has defined so far.

Functions outlive the source that declares them. So expressions are numbered through a whole
session, and the distances of all sources are kept together.

* `Session.load`, `Session.loadExpr`: from a source to a machine that is about to run it, or errors;
* `Session.conclude`, `Session.concludeExpr`: from a machine that has run to what is told about it;
* `Session.run`, `Session.evaluate`: all of it, for a program and for a single expression.
-/

namespace Lox

/-- How a session answers a source. -/
inductive Report (α : Type) where
  /-- It was run to its end. -/
  | success (result : α)
  /-- It was not run. -/
  | rejected (errors : List Diagnostic)
  /-- It was run and failed. -/
  | failed (e : RuntimeError)
  /-- It was run with distances that do not fit. -/
  | fault (f : Fault)
  /-- It was run, and was not at its end when the steps were used up. -/
  | unfinished
  deriving Repr

namespace Report

/-- The exit code: 65 for a source that is not run, 70 for a run that does not reach its end. -/
def code {α : Type} : Report α → Nat
  | success _ => 0
  | rejected _ => 65
  | _ => 70

/-- All that is wrong, in the order in which it is told. -/
def diagnostics {α : Type} : Report α → List Diagnostic
  | rejected errors => errors
  | failed e => [.runtime e]
  | _ => []

/-- Whether the source was run to its end. -/
def isSuccess {α : Type} : Report α → Bool
  | success _ => true
  | _ => false

end Report

/-- The function that reads the clock. -/
def Native.clock (identity : Nat) : Native := { identity, name := "clock", arity := 0 }

/-- What native functions do: the only one reads the clock. -/
def Native.standard (_ : Native) (time : Float) (_ : List Value) : Except String Value :=
  .ok (.number time)

/-- The state in which sessions begin: the global frame binds the native functions. -/
def State.initial (sink : Sink) (clock : Clock) : State :=
  let (identity, store) := Store.empty.newIdentity
  let f := Native.clock identity
  { store := store.define globalFrame f.name (.callable (.native f))
    frame := globalFrame
    depth := 0
    sink, clock }

/-- A session. -/
structure Session where
  /-- The identity of the next expression. -/
  nextId : Nat
  /-- The distances of local names, for all sources that were run. -/
  distances : Distances
  /-- How many calls can be active at the same time. -/
  maxDepth : Nat
  /-- What is left of the sources that were run. -/
  state : State

namespace Session

/-- How many calls can be active at the same time, if nothing else is said. -/
def defaultMaxDepth : Nat := 20000

/-- A new session. -/
def new (sink : Sink) (clock : Clock) (maxDepth : Nat) : Session :=
  { nextId := 0, distances := ∅, maxDepth, state := .initial sink clock }

/-- What does not change while a source is run. -/
def config (s : Session) : Config :=
  { distances := s.distances, maxDepth := s.maxDepth, natives := Native.standard }

/-- Adds distances; they count if there are others for the same expression. -/
def install (s : Session) (distances : Distances) : Session :=
  { s with distances := s.distances.insertMany distances.toList }

/-- Gets ready to run the statements of a program with the given distances. -/
def beginProgram (s : Session) (program : Program) (distances : Distances) : Machine × Session :=
  let s := s.install distances
  (⟨.execAll program, [], s.state⟩, s)

/-- Gets ready to evaluate an expression with the given distances. -/
def beginExpr (s : Session) (e : Expr) (distances : Distances) : Machine × Session :=
  let s := s.install distances
  (⟨.eval e, [], s.state⟩, s)

/-- From a source to a machine that is about to run it. All errors of spelling and grammar are told
    together. Identities of expressions are used up even if the source is rejected. -/
def load (s : Session) (source : List UInt8) : Except (List Diagnostic) Machine × Session :=
  let (tokens, scanErrors) := Token.scanAll source
  let (parsed, cursor) := Program.parse (.ofTokens tokens s.nextId)
  let s := { s with nextId := cursor.nextId }
  match parsed with
  | .error parseErrors => (.error (scanErrors.map .scan ++ parseErrors.map .parse), s)
  | .ok program =>
    if scanErrors = [] then
      match program.resolve with
      | .error errors => (.error (errors.map .resolve), s)
      | .ok distances =>
        let (m, s) := s.beginProgram program distances
        (.ok m, s)
    else (.error (scanErrors.map .scan), s)

/-- From a source that is one expression to a machine that is about to evaluate it. A source with
    errors of spelling is not parsed, and one error of grammar is told. -/
def loadExpr (s : Session) (source : List UInt8) : Except (List Diagnostic) Machine × Session :=
  let (tokens, scanErrors) := Token.scanAll source
  if scanErrors = [] then
    let (parsed, cursor) := Expr.parse (.ofTokens tokens s.nextId)
    let s := { s with nextId := cursor.nextId }
    match parsed with
    | .error e => (.error [.parse e], s)
    | .ok e =>
      match e.resolve with
      | .error errors => (.error (errors.map .resolve), s)
      | .ok distances =>
        let (m, s) := s.beginExpr e distances
        (.ok m, s)
  else (.error (scanErrors.map .scan), s)

/-- What is told about a program that has run. All output is made sure to be written if it has
    reached its end. -/
def conclude (s : Session) (m : Machine) : Report Unit × Session :=
  let report : Report Unit :=
    match m.outcome? with
    | none => .unfinished
    | some (.fault f) => .fault f
    | some (.failed e) => .failed e
    | some (.returned _) => .fault .returnEscaped
    | some (.value _) =>
      match m.state.sink.flush with
      | none => .success ()
      | some e => .failed (.sink e)
  (report, { s with state := m.state })

/-- What is told about an expression that was evaluated. -/
def concludeExpr (s : Session) (m : Machine) : Report Value × Session :=
  let report : Report Value :=
    match m.outcome? with
    | none => .unfinished
    | some (.fault f) => .fault f
    | some (.failed e) => .failed e
    | some (.returned _) => .fault .returnEscaped
    | some (.value v) => .success v
  (report, { s with state := m.state })

/-- Runs statements with the given distances, for at most `fuel` steps. -/
def interpret (s : Session) (fuel : Nat) (program : Program) (distances : Distances) :
    Report Unit × Session :=
  let (m, s) := s.beginProgram program distances
  s.conclude (m.run s.config fuel)

/-- Runs a source, for at most `fuel` steps. -/
def run (s : Session) (fuel : Nat) (source : List UInt8) : Report Unit × Session :=
  match s.load source with
  | (.error errors, s) => (.rejected errors, s)
  | (.ok m, s) => s.conclude (m.run s.config fuel)

/-- Evaluates a source that is one expression, for at most `fuel` steps. -/
def evaluate (s : Session) (fuel : Nat) (source : List UInt8) : Report Value × Session :=
  match s.loadExpr source with
  | (.error errors, s) => (.rejected errors, s)
  | (.ok m, s) => s.concludeExpr (m.run s.config fuel)

end Session

end Lox
