import Lox.Text.Visible

/-!
# Texts in quotes

Two ways to write a text between double quotes. They differ in what they escape:

* `Text.quoted` is for people: every character that does not show gets a short name or its number in
  braces, and names of files and string values in listings are written so;
* `Text.json` follows the JSON format: exactly the quote, the backslash and the characters below
  U+0020 are escaped.
-/

namespace Lox.Text

/-- A number in lower-case hexadecimal, without leading zeros. -/
def hex (n : Nat) : String := String.ofList (Nat.toDigits 16 n)

/-- A character between the quotes of `quoted`. -/
def escape (c : Char) : String :=
  if c = '"' then "\\\""
  else if c = '\\' then "\\\\"
  else if c = '\n' then "\\n"
  else if c = '\r' then "\\r"
  else if c = '\t' then "\\t"
  else if c.toNat = 0 then "\\0"
  else if isVisible c then c.toString
  else "\\u\x7b" ++ hex c.toNat ++ "\x7d"

/-- A text in quotes, with the characters that do not show made visible. -/
def quoted (text : String) : String :=
  "\"" ++ String.join (text.toList.map escape) ++ "\""

/-- A character between the quotes of a JSON string. -/
def escapeJson (c : Char) : String :=
  if c = '"' then "\\\""
  else if c = '\\' then "\\\\"
  else if c.toNat = 0x08 then "\\b"
  else if c.toNat = 0x0C then "\\f"
  else if c = '\n' then "\\n"
  else if c = '\r' then "\\r"
  else if c = '\t' then "\\t"
  else if c.toNat < 0x10 then "\\u000" ++ hex c.toNat
  else if c.toNat < 0x20 then "\\u00" ++ hex c.toNat
  else c.toString

/-- A text as a JSON string. -/
def json (text : String) : String :=
  "\"" ++ String.join (text.toList.map escapeJson) ++ "\""

end Lox.Text
