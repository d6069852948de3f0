import Lox.Text.Quoted

/-!
# JSON documents

The documents that token listings are made of, with the two ways to lay them out: on one line
(`Json.compact`), or with one entry per line and two blanks per level (`Json.pretty`).
-/

namespace Lox

/-- A JSON document. Numbers come as text, since their form is chosen by whoever writes them. -/
inductive Json where
  /-- A string. -/
  | string (text : String)
  /-- A number, as it is to be written. -/
  | number (text : String)
  /-- A list of documents. -/
  | array (items : List Json)
  /-- Named documents, in the order in which they are written. -/
  | object (fields : List (String × Json))

namespace Json

mutual

/-- A document on one line, without blanks. -/
def compact : Json → String
  | .string text => Text.json text
  | .number text => text
  | .array items => "[" ++ String.intercalate "," (compactItems items) ++ "]"
  | .object fields => "\x7b" ++ String.intercalate "," (compactFields fields) ++ "\x7d"

/-- The entries of a list. -/
def compactItems : List Json → List String
  | [] => []
  | item :: items => compact item :: compactItems items

/-- The entries of an object. -/
def compactFields : List (String × Json) → List String
  | [] => []
  | (name, value) :: fields => (Text.json name ++ ":" ++ compact value) :: compactFields fields

end

/-- Entries between brackets, each on a line of its own, inside a document that starts at the
    given margin. -/
def lines (margin opening closing : String) : List String → String
  | [] => opening ++ closing
  | entries =>
    let inner := "\n" ++ margin ++ "  "
    opening ++ inner ++ String.intercalate ("," ++ inner) entries ++ "\n" ++ margin ++ closing

mutual

/-- A document with one entry per line. The lines after the first start at `margin`. -/
def prettyAt (margin : String) : Json → String
  | .string text => Text.json text
  | .number text => text
  | .array items => lines margin "[" "]" (prettyItems (margin ++ "  ") items)
  | .object fields => lines margin "\x7b" "\x7d" (prettyFields (margin ++ "  ") fields)

/-- The entries of a list. -/
def prettyItems (margin : String) : List Json → List String
  | [] => []
  | item :: items => prettyAt margin item :: prettyItems margin items

/-- The entries of an object. -/
def prettyFields (margin : String) : List (String × Json) → List String
  | [] => []
  | (name, value) :: fields =>
    (Text.json name ++ ": " ++ prettyAt margin value) :: prettyFields margin fields

end

/-- A document with one entry per line. -/
def pretty (document : Json) : String := prettyAt "" document

end Json

end Lox
