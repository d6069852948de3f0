import Lox.Number.Text
import Lox.Text.Json

/-!
# Tokens

A token is a kind, the text it was written as, and the line on which it ends. Kinds are grouped by
what they are to the grammar: punctuators, keywords, names, and literals with their values.

* `Token.display` is the line of a token in a listing;
* `Token.json` is the token as a JSON document.
-/

namespace Lox

/-- The marks of the language. -/
inductive Punctuator where
  | leftParen
  | rightParen
  | leftBrace
  | rightBrace
  | comma
  | dot
  | minus
  | plus
  | semicolon
  | slash
  | star
  | bang
  | bangEqual
  | equal
  | equalEqual
  | greater
  | greaterEqual
  | less
  | lessEqual
  deriving DecidableEq, Repr

namespace Punctuator

/-- The name of a punctuator in listings. -/
def name : Punctuator → String
  | leftParen => "LEFT_PAREN"
  | rightParen => "RIGHT_PAREN"
  | leftBrace => "LEFT_BRACE"
  | rightBrace => "RIGHT_BRACE"
  | comma => "COMMA"
  | dot => "DOT"
  | minus => "MINUS"
  | plus => "PLUS"
  | semicolon => "SEMICOLON"
  | slash => "SLASH"
  | star => "STAR"
  | bang => "BANG"
  | bangEqual => "BANG_EQUAL"
  | equal => "EQUAL"
  | equalEqual => "EQUAL_EQUAL"
  | greater => "GREATER"
  | greaterEqual => "GREATER_EQUAL"
  | less => "LESS"
  | lessEqual => "LESS_EQUAL"

/-- The punctuator that consists of one character. -/
def ofChar? : Char → Option Punctuator
  | '(' => some leftParen
  | ')' => some rightParen
  | '\x7b' => some leftBrace
  | '\x7d' => some rightBrace
  | ',' => some comma
  | '.' => some dot
  | '-' => some minus
  | '+' => some plus
  | ';' => some semicolon
  | '/' => some slash
  | '*' => some star
  | '!' => some bang
  | '=' => some equal
  | '>' => some greater
  | '<' => some less
  | _ => none

/-- The punctuator made longer by a `=` right after it. -/
def withEqual? : Punctuator → Option Punctuator
  | bang => some bangEqual
  | equal => some equalEqual
  | greater => some greaterEqual
  | less => some lessEqual
  | _ => none

end Punctuator

/-- The words that are no names. -/
inductive Keyword where
  | «and»
  | «class»
  | «else»
  | «false»
  | «fun»
  | «for»
  | «if»
  | «nil»
  | «or»
  | «print»
  | «return»
  | «super»
  | «this»
  | «true»
  | «var»
  | «while»
  deriving DecidableEq, Repr

namespace Keyword

/-- The keyword that a word is, if it is one. -/
def ofText? : String → Option Keyword
  | "and" => some .and
  | "class" => some .class
  | "else" => some .else
  | "false" => some .false
  | "fun" => some .fun
  | "for" => some .for
  | "if" => some .if
  | "nil" => some .nil
  | "or" => some .or
  | "print" => some .print
  | "return" => some .return
  | "super" => some .super
  | "this" => some .this
  | "true" => some .true
  | "var" => some .var
  | "while" => some .while
  | _ => none

/-- The name of a keyword in listings. -/
def name : Keyword → String
  | .and => "AND"
  | .class => "CLASS"
  | .else => "ELSE"
  | .false => "FALSE"
  | .fun => "FUN"
  | .for => "FOR"
  | .if => "IF"
  | .nil => "NIL"
  | .or => "OR"
  | .print => "PRINT"
  | .return => "RETURN"
  | .super => "SUPER"
  | .this => "THIS"
  | .true => "TRUE"
  | .var => "VAR"
  | .while => "WHILE"

end Keyword

/-- What a token is to the grammar. -/
inductive Token.Kind where
  /-- A mark. -/
  | punctuator (mark : Punctuator)
  /-- A word of the language. -/
  | keyword (word : Keyword)
  /-- A name. -/
  | identifier
  /-- A string with its contents, which are what stands between the quotes. -/
  | string (contents : String)
  /-- A number with its value. -/
  | number (value : Float)
  /-- The end of the source. -/
  | eof
  deriving DecidableEq, Repr

/-- A token of a source text. -/
structure Token where
  /-- What it is. -/
  kind : Token.Kind
  /-- How it is written. -/
  lexeme : String
  /-- The line on which it ends. -/
  line : Nat
  deriving DecidableEq, Repr

/-- How a name, keyword or operator is written in the source, and on which line. -/
structure Lexeme where
  /-- How it is written. -/
  text : String
  /-- The line on which it stands. -/
  line : Nat
  deriving DecidableEq, Repr

namespace Token

/-- The name of a kind in listings. -/
def Kind.name : Kind → String
  | .punctuator mark => mark.name
  | .keyword word => word.name
  | .identifier => "IDENTIFIER"
  | .string _ => "STRING"
  | .number _ => "NUMBER"
  | .eof => "EOF"

/-- Text and line of a token. -/
def toLexeme (t : Token) : Lexeme := ⟨t.lexeme, t.line⟩

/-- Whether a token is the end of the source. -/
def isEof (t : Token) : Bool := t.kind matches .eof

/-- The line of a token in a listing: its name, its text, and its value if it has one. -/
def display (t : Token) : String :=
  let value :=
    match t.kind with
    | .string contents => contents
    | .number value => Number.inToken value
    | _ => "null"
  t.kind.name ++ " " ++ t.lexeme ++ " " ++ value

/-- A kind as a JSON document: its name, paired with its value if it has one. -/
def Kind.json : Kind → Json
  | .string contents => .object [("STRING", .string contents)]
  | .number value => .object [("NUMBER", .number (Number.json value))]
  | kind => .string kind.name

/-- A token as a JSON document. -/
def json (t : Token) : Json :=
  .object [("token_type", t.kind.json), ("lexeme", .string t.lexeme),
    ("line", .number t.line.repr)]

/-- Tokens as the text of a JSON document. -/
def listing (tokens : List Token) : String := (Json.array (tokens.map json)).pretty

end Token

end Lox
