import Lox.Token.Segment

/-!
# Scanning

Scanning reads a source as tokens and errors. It goes through the segments of the source and counts
the lines: what a segment yields carries the line on which the segment ends. An error does not stop
the scan, so one scan finds every error, and the last item is the end of the source.

* `Token.scan` is the list of items of a source;
* `Token.scan_eq` states it without the accumulator, by recursion on the segments
  (`Token.itemsFrom`);
* `Token.scanAll` separates the tokens from the errors.
-/

namespace Lox

/-- Why a part of the source is no token. -/
inductive ScanError.Cause where
  /-- A byte, as the character of its number, that starts nothing. -/
  | unexpectedCharacter (c : Char)
  /-- A string that is not closed. -/
  | unterminatedString
  deriving DecidableEq, Repr

/-- An error in the spelling of the source. -/
structure ScanError where
  /-- The line on which the bad part ends. -/
  line : Nat
  /-- What is wrong with it. -/
  cause : ScanError.Cause
  deriving DecidableEq, Repr

/-- What is wrong, in words. -/
def ScanError.Cause.message : ScanError.Cause → String
  | unexpectedCharacter c => "Unexpected character: " ++ c.toString
  | unterminatedString => "Unterminated string."

namespace Token

/-- What a scan yields: a token, or an error in its place. -/
abbrev Item := Except ScanError Token

/-- What a segment that ends on the given line yields. -/
def item? (line : Nat) : Segment → Option Item
  | .blank _ => none
  | .comment _ => none
  | .token kind bytes => some (.ok ⟨kind, Text.decodeLossy bytes, line⟩)
  | .stray byte => some (.error ⟨line, .unexpectedCharacter (Segment.char byte)⟩)
  | .unterminated _ => some (.error ⟨line, .unterminatedString⟩)

/-- The items of segments that start on the given line, after the items in `done`. -/
def itemsAfter (done : Array Item) (line : Nat) : List Segment → Array Item
  | [] => done.push (.ok ⟨.eof, "", line⟩)
  | s :: segments =>
    match item? (line + s.newlines) s with
    | some item => itemsAfter (done.push item) (line + s.newlines) segments
    | none => itemsAfter done (line + s.newlines) segments

/-- The tokens and errors of a source, in order. -/
def scan (source : List UInt8) : List Item := (itemsAfter #[] 1 (Segment.split source)).toList

/-- The items of segments that start on the given line. -/
def itemsFrom (line : Nat) : List Segment → List Item
  | [] => [.ok ⟨.eof, "", line⟩]
  | s :: segments =>
    (item? (line + s.newlines) s).toList ++ itemsFrom (line + s.newlines) segments

theorem itemsAfter_eq (done : Array Item) (line : Nat) (segments : List Segment) :
    itemsAfter done line segments = done ++ (itemsFrom line segments).toArray := by
  induction segments generalizing done line with
  | nil => simp [itemsAfter, itemsFrom]
  | cons s segments ih =>
    rw [itemsAfter, itemsFrom]
    split
    · next item h => simp [ih, h]
    · next h => simp [ih, h]

/-- A scan reads off the segments of the source one after another, from the first line on. -/
theorem scan_eq (source : List UInt8) : scan source = itemsFrom 1 (Segment.split source) := by
  simp [scan, itemsAfter_eq]

/-- The tokens of a source and its errors, each in order. -/
def scanAll (source : List UInt8) : List Token × List ScanError :=
  let items := scan source
  (items.filterMap fun
    | .ok token => some token
    | .error _ => none,
   items.filterMap fun
    | .ok _ => none
    | .error e => some e)

end Token

end Lox
