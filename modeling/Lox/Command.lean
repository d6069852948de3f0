import Lox.Expr.Printer
import Lox.Session
import Lox.Text.Quoted

/-!
# Commands

What can be asked for on the command line. A command works on one file, or it reads lines and runs
one after another in one session (`repl`). What is done is a function of the command and of the
bytes that it reads; it yields a `Response`: an exit code, what is printed, and what is told about
errors.

* `Command.ofArguments?` reads a command line;
* `Command.perform` does what a command asks for;
* `Lines.split` divides the input into lines.
-/

namespace Lox

/-- What can be asked for. -/
inductive Command where
  /-- Lists the tokens of a file, as a JSON document if so wished. -/
  | tokenize (asJson : Bool) (file : String)
  /-- Prints the expression in a file with its structure made visible. -/
  | parse (file : String)
  /-- Prints the value of the expression in a file. -/
  | evaluate (file : String)
  /-- Runs the program in a file. -/
  | run (file : String)
  /-- Runs lines, one after another. -/
  | repl
  deriving DecidableEq, Repr

/-- Why the bytes of a file are not there. -/
inductive FileError where
  /-- The file cannot be opened, for a reason in words. -/
  | notOpened (reason : String)
  /-- The file was opened and cannot be read, for a reason in words. -/
  | notRead (reason : String)
  deriving DecidableEq, Repr

namespace FileError

/-- There is no such file. -/
def missing : FileError := notOpened "No such file or directory (os error 2)"

/-- What was opened is a directory. -/
def directory : FileError := notRead "Is a directory (os error 21)"

end FileError

/-- What a command does to the world around it. -/
structure Response where
  /-- The exit code. -/
  code : Nat
  /-- What is printed. -/
  out : ByteArray
  /-- What is told about errors. -/
  err : String

namespace Response

/-- Prints a text on a line of its own. -/
def line (text : String) : Response := { code := 0, out := (text ++ "\n").toUTF8, err := "" }

/-- Diagnostics, each on lines of its own. -/
def tell (diagnostics : List Diagnostic) : String :=
  String.join (diagnostics.map fun d => d.text ++ "\n")

/-- Tells static errors and prints nothing. -/
def rejected (errors : List Diagnostic) : Response :=
  { code := 65, out := .empty, err := tell errors }

/-- Tells why a command could not do its work, with the cause of it. -/
def stopped (out : ByteArray) (problem cause : String) : Response :=
  { code := 1, out, err := "Error: " ++ problem ++ "\n\nCaused by:\n    " ++ cause ++ "\n" }

/-- Tells that a file is not there. -/
def noFile (file : String) : FileError → Response
  | .notOpened reason => stopped .empty ("Failed to open file " ++ Text.quoted file) reason
  | .notRead reason => stopped .empty ("Failed to read file " ++ Text.quoted file) reason

/-- What a session has printed, and what it tells about the last source. -/
def ofSession {α : Type} (report : Report α) (s : Session) : Response :=
  { code := report.code, out := s.state.sink.written, err := tell report.diagnostics }

/-- Tells that a line of the input is not valid. -/
def badLine (out : ByteArray) : Response :=
  stopped out "Failed to read from stdin" "stream did not contain valid UTF-8"

end Response

namespace Lines

/-- The byte that ends a line. -/
def newline : UInt8 := 10

/-- The byte that may stand before the end of a line. -/
def carriageReturn : UInt8 := 13

/-- A line without its end; `reversed` holds it backwards, up to the byte that ends it. -/
def trim (reversed : List UInt8) : List UInt8 :=
  match reversed with
  | b :: rest => if b = carriageReturn then rest.reverse else reversed.reverse
  | [] => []

/-- The lines of an input, where `reversed` is what was read of the current line, backwards. The
    last line need not be ended. -/
def splitAfter (reversed : List UInt8) : List UInt8 → List (List UInt8)
  | [] => if reversed = [] then [] else [reversed.reverse]
  | b :: rest =>
    if b = newline then trim reversed :: splitAfter [] rest else splitAfter (b :: reversed) rest

/-- The lines of an input. -/
def split (input : List UInt8) : List (List UInt8) := splitAfter [] input

/-- Whether a line is text. -/
def isText (line : List UInt8) : Bool := (ByteArray.mk line.toArray).validateUTF8

end Lines

namespace Command

/-- Whether an argument names a file. -/
def isFile (argument : String) : Bool := !argument.startsWith "-" || argument = "-"

/-- A command that works on a file. -/
def onFile? (make : String → Command) (argument : String) : Option Command :=
  if isFile argument then some (make argument) else none

/-- Reads a command line. Logging may be asked for anywhere, and changes nothing here. -/
def ofArguments? (arguments : List String) : Option Command :=
  match arguments.filter (· ≠ "--log") with
  | ["tokenize", file] => onFile? (tokenize false) file
  | ["tokenize", "--json", file] => onFile? (tokenize true) file
  | ["tokenize", file, "--json"] => onFile? (tokenize true) file
  | ["parse", file] => onFile? parse file
  | ["evaluate", file] => onFile? evaluate file
  | ["run", file] => onFile? run file
  | ["repl"] => some repl
  | _ => none

/-- How to use the program. -/
def usage : String :=
  String.intercalate "\n"
    ["Usage: lox [--log] <COMMAND>", "", "Commands:", "  tokenize [--json] <FILENAME>",
      "  parse <FILENAME>", "  evaluate <FILENAME>", "  run <FILENAME>", "  repl", ""]

/-- Lists the tokens of a source. Errors are told beside them. -/
def listTokens (asJson : Bool) (source : List UInt8) : Response :=
  let (tokens, errors) := Token.scanAll source
  let text :=
    if asJson then Token.listing tokens ++ "\n"
    else String.join (tokens.map fun t => t.display ++ "\n")
  { code := if errors = [] then 0 else 65
    out := text.toUTF8
    err := Response.tell (errors.map .scan) }

/-- Prints the expression that a source is. -/
def printTree (source : List UInt8) : Response :=
  let (tokens, errors) := Token.scanAll source
  if errors = [] then
    match (Expr.parse (.ofTokens tokens 0)).1 with
    | .ok e => .line e.render
    | .error e => .rejected [.parse e]
  else .rejected (errors.map .scan)

/-- A session of the command line. -/
def session (clock : Clock) : Session := .new .unlimited clock Session.defaultMaxDepth

/-- Prints the value of the expression that a source is, for at most `fuel` steps. -/
def printValue (fuel : Nat) (clock : Clock) (source : List UInt8) : Response :=
  match (session clock).evaluate fuel source with
  | (.success v, s) =>
    { code := 0, out := s.state.sink.written ++ (v.display ++ "\n").toUTF8, err := "" }
  | (report, s) => .ofSession report s

/-- Runs a source, for at most `fuel` steps. -/
def runSource (fuel : Nat) (clock : Clock) (source : List UInt8) : Response :=
  let (report, s) := (session clock).run fuel source
  .ofSession report s

/-- What is printed before a line is read. -/
def prompt : String := "> "

/-- Prints a text in a session. -/
def say (s : Session) (text : String) : Session :=
  { s with state.sink := (s.state.sink.write text).2 }

/-- Runs lines one after another, each for at most `fuel` steps; `told` are the errors so far. -/
def runLines (fuel : Nat) (told : String) (s : Session) : List (List UInt8) → Response
  | [] => { code := 0, out := (say (say s prompt) "\n").state.sink.written, err := told }
  | line :: rest =>
    let s := say s prompt
    if Lines.isText line then
      let (report, s) := s.run fuel line
      runLines fuel (told ++ Response.tell report.diagnostics) s rest
    else
      let response := Response.badLine s.state.sink.written
      { response with err := told ++ response.err }

/-- Does what a command on a file asks for, or tells that the file is not there. -/
def withFile (work : List UInt8 → Response) (file : String) :
    Except FileError (List UInt8) → Response
  | .ok source => work source
  | .error e => .noFile file e

/-- Does what a command asks for. -/
def perform (fuel : Nat) (clock : Clock) (files : String → Except FileError (List UInt8))
    (input : List UInt8) : Command → Response
  | tokenize asJson file => withFile (listTokens asJson) file (files file)
  | parse file => withFile printTree file (files file)
  | evaluate file => withFile (printValue fuel clock) file (files file)
  | run file => withFile (runSource fuel clock) file (files file)
  | repl => runLines fuel "" (session clock) (Lines.split input)

end Command

end Lox
