import Std.Time.DateTime.Timestamp
import Lox.Command

/-!
# The program

The command line. Commands that only look at a source are performed as `Command.perform` says.
Sources that are run may run for long, so here they run in slices: what a slice has printed is
written out before the next one starts, and every slice reads the clock anew.
-/

namespace Lox.Main

/-- The time, in seconds and to the millisecond. -/
def now : IO Float := do
  let time ← Std.Time.Timestamp.now
  return Float.ofInt time.toMillisecondsSinceUnixEpoch.val / 1000

/-- Why a file could not be opened. -/
def openError : IO.Error → FileError
  | .noFileOrDirectory _ _ _ => .missing
  | e => .notOpened (toString e)

/-- Why a file that was opened could not be read. -/
def readError : IO.Error → FileError
  | .inappropriateType _ _ _ => .directory
  | e => .notRead (toString e)

/-- The bytes of a file. -/
def readFile (file : String) : IO (Except FileError (List UInt8)) := do
  match ← (IO.FS.Handle.mk file .read).toBaseIO with
  | .error e => return .error (openError e)
  | .ok handle =>
    match ← handle.readBinToEnd.toBaseIO with
    | .error e => return .error (readError e)
    | .ok bytes => return .ok bytes.toList

/-- Writes out what was printed, and forgets it. -/
def emit (sink : Sink) : IO Sink := do
  let stdout ← IO.getStdout
  stdout.write sink.written
  stdout.flush
  return { sink with written := .empty }

/-- How many steps a slice has. -/
def slice : Nat := 10000

/-- Runs a machine to its end. -/
partial def drive (cfg : Config) (m : Machine) : IO Machine := do
  let m := Machine.run cfg slice { m with state.clock := .still (← now) }
  let m := { m with state.sink := ← emit m.state.sink }
  if m.outcome?.isSome then return m else drive cfg m

/-- Writes a response and yields its exit code. -/
def respond (response : Response) : IO UInt32 := do
  let stdout ← IO.getStdout
  stdout.write response.out
  stdout.flush
  IO.eprint response.err
  return UInt32.ofNat response.code

/-- Runs a source in a session and tells its errors. -/
def runIn (s : Session) (source : List UInt8) : IO (Report Unit × Session) := do
  let (report, s) ←
    match s.load source with
    | (.error errors, s) => pure (.rejected errors, s)
    | (.ok m, s) => do
      let m ← drive s.config m
      pure (s.conclude m)
  IO.eprint (Response.tell report.diagnostics)
  return (report, s)

/-- Evaluates a source and prints its value, or tells its errors. -/
def evaluate (s : Session) (source : List UInt8) : IO UInt32 := do
  match s.loadExpr source with
  | (.error errors, _) => respond (.rejected errors)
  | (.ok m, s) =>
    let m ← drive s.config m
    match s.concludeExpr m with
    | (.success v, _) => respond (.line v.display)
    | (report, s) => respond (.ofSession report s)

/-- The next line of the input, of which `reversed` was read, backwards. -/
partial def nextLine (stdin : IO.FS.Stream) (reversed : List UInt8) : IO (Option (List UInt8)) := do
  match (← stdin.read 1).toList with
  | [] => return if reversed = [] then none else some reversed.reverse
  | b :: _ =>
    if b = Lines.newline then return some (Lines.trim reversed)
    else nextLine stdin (b :: reversed)

/-- Runs the lines of the input, one after another. -/
partial def repl (stdin : IO.FS.Stream) (s : Session) : IO UInt32 := do
  IO.print Command.prompt
  (← IO.getStdout).flush
  match ← nextLine stdin [] with
  | none => respond (.line "")
  | some line =>
    if Lines.isText line then
      let (_, s) ← runIn s line
      repl stdin s
    else respond (.badLine .empty)

/-- Does what a command asks for. -/
def perform (command : Command) : IO UInt32 := do
  let s := Command.session (.still (← now))
  match command with
  | .run file =>
    match ← readFile file with
    | .ok source => return UInt32.ofNat (← runIn s source).1.code
    | .error e => respond (.noFile file e)
  | .evaluate file =>
    match ← readFile file with
    | .ok source => evaluate s source
    | .error e => respond (.noFile file e)
  | .repl => repl (← IO.getStdin) s
  | .tokenize asJson file =>
    respond (Command.withFile (Command.listTokens asJson) file (← readFile file))
  | .parse file => respond (Command.withFile Command.printTree file (← readFile file))

end Lox.Main

/-- The program. -/
def main (arguments : List String) : IO UInt32 := do
  match Lox.Command.ofArguments? arguments with
  | some command => Lox.Main.perform command
  | none =>
    IO.eprint Lox.Command.usage
    return 2
