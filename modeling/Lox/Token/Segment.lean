import Lox.Text.Utf8
import Lox.Token.Basic

/-!
# Segments of a source

A source is a list of bytes. From left to right it falls into segments without gap or overlap:
blanks, comments, tokens, and what is neither. Each segment is as long as it can be. Only ASCII
bytes have a meaning outside strings and comments, so a byte is looked at as the character of its
number.

* `Segment.next` splits the first segment off;
* `Segment.split` splits a whole source (`Segment.split_nil`, `Segment.split_cons`);
* the segments concatenate to the source (`Segment.flatMap_bytes_split`).
-/

namespace Lox

/-- A part of the source. -/
inductive Segment where
  /-- A blank: a space, a tabulator, a carriage return or a newline. -/
  | blank (byte : UInt8)
  /-- A comment: two slashes and all up to the end of the line. -/
  | comment (bytes : List UInt8)
  /-- A token of the given kind. -/
  | token (kind : Token.Kind) (bytes : List UInt8)
  /-- A byte that starts nothing else. -/
  | stray (byte : UInt8)
  /-- A quote, and the rest of the source if no other quote follows. -/
  | unterminated (bytes : List UInt8)
  deriving Repr

namespace Segment

/-- The bytes of a segment. -/
def bytes : Segment → List UInt8
  | blank byte => [byte]
  | comment bytes => bytes
  | token _ bytes => bytes
  | stray byte => [byte]
  | unterminated bytes => bytes

/-- A byte as the character of its number. -/
def char (b : UInt8) : Char := Char.ofNat b.toNat

/-- The byte that ends a line. -/
def newline : UInt8 := 10

/-- The byte around strings. -/
def quote : UInt8 := 34

/-- The number of line ends in a segment. -/
def newlines (s : Segment) : Nat := s.bytes.count newline

/-- Bytes between which a segment is separated and which mean nothing else. -/
def isBlank (b : UInt8) : Bool :=
  match char b with
  | ' ' | '\r' | '\t' | '\n' => true
  | _ => false

/-- The bytes of numbers. -/
def isDigit (b : UInt8) : Bool := (char b).isDigit

/-- The bytes that a word can start with. -/
def isLetter (b : UInt8) : Bool := (char b).isAlpha || char b == '_'

/-- The bytes of words. -/
def isWordByte (b : UInt8) : Bool := isLetter b || isDigit b

/-- The value of decimal digits after the digits of `high`. -/
def digitsValue (high : Nat) (digits : List UInt8) : Nat :=
  digits.foldl (fun n b => n * 10 + (b.toNat - 48)) high

/-- The number with the given digits before and after the point. -/
def numberKind (whole fraction : List UInt8) : Token.Kind :=
  let decimal : Decimal := ⟨digitsValue (digitsValue 0 whole) fraction, -fraction.length⟩
  .number (Binary64.ofPosition decimal.position)

/-- A word: a keyword if it is one, else a name. -/
def wordKind (word : List UInt8) : Token.Kind :=
  match Keyword.ofText? (Text.decodeLossy word) with
  | some keyword => .keyword keyword
  | none => .identifier

/-- A string after its opening quote. -/
def nextString (rest : List UInt8) : Segment × List UInt8 :=
  let contents := rest.takeWhile (· != quote)
  match rest.dropWhile (· != quote) with
  | [] => (unterminated (quote :: contents), [])
  | closing :: after =>
    (token (.string (Text.decodeLossy contents)) (quote :: contents ++ [closing]), after)

/-- A number that starts with the digit `b`. A point belongs to it only if a digit follows. -/
def nextNumber (b : UInt8) (rest : List UInt8) : Segment × List UInt8 :=
  let whole := b :: rest.takeWhile isDigit
  match rest.dropWhile isDigit with
  | point :: first :: more =>
    if char point = '.' ∧ isDigit first then
      let fraction := first :: more.takeWhile isDigit
      (token (numberKind whole fraction) (whole ++ point :: fraction), more.dropWhile isDigit)
    else (token (numberKind whole []) whole, point :: first :: more)
  | after => (token (numberKind whole []) whole, after)

/-- A word that starts with the byte `b`. -/
def nextWord (b : UInt8) (rest : List UInt8) : Segment × List UInt8 :=
  let word := b :: rest.takeWhile isWordByte
  (token (wordKind word) word, rest.dropWhile isWordByte)

/-- What the punctuator `mark`, written with the byte `b`, starts: a comment, a longer punctuator,
    or itself. -/
def nextMark (mark : Punctuator) (b : UInt8) (rest : List UInt8) : Segment × List UInt8 :=
  match rest with
  | [] => (token (.punctuator mark) [b], [])
  | c :: after =>
    if mark = .slash ∧ char c = '/' then
      (comment (b :: c :: after.takeWhile (· != newline)), after.dropWhile (· != newline))
    else
      match mark.withEqual? with
      | some longer =>
        if char c = '=' then (token (.punctuator longer) [b, c], after)
        else (token (.punctuator mark) [b], rest)
      | none => (token (.punctuator mark) [b], rest)

/-- The first segment of the source `b :: rest`, and the source after it. -/
def next (b : UInt8) (rest : List UInt8) : Segment × List UInt8 :=
  if isBlank b then (blank b, rest)
  else if b = quote then nextString rest
  else if isDigit b then nextNumber b rest
  else if isLetter b then nextWord b rest
  else
    match Punctuator.ofChar? (char b) with
    | some mark => nextMark mark b rest
    | none => (stray b, rest)

/-- The first `fuel` segments of a source, after those in `done`. -/
def splitAfter : (fuel : Nat) → (done : Array Segment) → List UInt8 → Array Segment
  | 0, done, _ => done
  | _ + 1, done, [] => done
  | fuel + 1, done, b :: rest =>
    splitAfter fuel (done.push (next b rest).1) (next b rest).2

/-- The segments of a source. (A segment has at least one byte, so there are at most as many
    segments as bytes.) -/
def split (source : List UInt8) : List Segment := (splitAfter source.length #[] source).toList

/-! ### What splitting keeps -/

/-- Nothing is lost when a segment is split off. -/
theorem next_bytes (b : UInt8) (rest : List UInt8) :
    (next b rest).1.bytes ++ (next b rest).2 = b :: rest := by
  unfold next
  split
  · rfl
  split
  · next hb =>
    have h := List.takeWhile_append_dropWhile (p := (· != quote)) (l := rest)
    unfold nextString
    split
    · next hnil => simpa [bytes, hb, hnil] using h
    · next c after hcons => simpa [bytes, hb, hcons] using h
  split
  · have h := List.takeWhile_append_dropWhile (p := isDigit) (l := rest)
    unfold nextNumber
    split
    · next point first more hcons =>
      split
      · rw [hcons, ← List.takeWhile_append_dropWhile (p := isDigit) (l := more)] at h
        simpa [bytes] using h
      · simpa [bytes, hcons] using h
    · simp [bytes]
  split
  · simp [nextWord, bytes]
  split
  · unfold nextMark
    split
    · rfl
    split
    · simp [bytes]
    repeat' split
    all_goals rfl
  · rfl

/-- A segment has at least one byte. -/
theorem next_length_lt (b : UInt8) (rest : List UInt8) :
    (next b rest).2.length < (b :: rest).length := by
  have h := congrArg List.length (next_bytes b rest)
  have hpos : 0 < (next b rest).1.bytes.length := by
    unfold next nextString nextNumber nextWord nextMark
    repeat' split
    all_goals simp [bytes]
  rw [List.length_append] at h
  omega

/-- More fuel than bytes changes nothing, and the segments found before stay in front. -/
theorem splitAfter_eq (fuel : Nat) (done : Array Segment) (source : List UInt8)
    (hf : source.length ≤ fuel) :
    splitAfter fuel done source = done ++ (split source).toArray := by
  suffices h : ∀ (n fuel : Nat) (done : Array Segment) (source : List UInt8), source.length ≤ n →
      source.length ≤ fuel → splitAfter fuel done source = done ++ splitAfter n #[] source by
    rw [h source.length fuel done source (Nat.le_refl _) hf, split, Array.toArray_toList]
  intro n
  induction n with
  | zero =>
    intro fuel done source hn _
    obtain rfl : source = [] := List.eq_nil_of_length_eq_zero (by omega)
    cases fuel <;> simp [splitAfter]
  | succ n ih =>
    intro fuel done source hn hf
    match source, fuel with
    | [], 0 => simp [splitAfter]
    | [], _ + 1 => simp [splitAfter]
    | b :: rest, fuel + 1 =>
      have hlt := next_length_lt b rest
      have h₁ : (next b rest).2.length ≤ n := by simp at hn hlt; omega
      have h₂ : (next b rest).2.length ≤ fuel := by simp at hf hlt; omega
      rw [splitAfter, splitAfter, ih fuel _ _ h₁ h₂, ih n (#[].push (next b rest).1) _ h₁ h₁]
      simp

@[simp]
theorem split_nil : split [] = [] := rfl

/-- A source is split segment by segment. -/
theorem split_cons (b : UInt8) (rest : List UInt8) :
    split (b :: rest) = (next b rest).1 :: split (next b rest).2 := by
  have hlt := next_length_lt b rest
  have h := splitAfter_eq rest.length #[(next b rest).1] (next b rest).2 (by simp at hlt; omega)
  have hs : split (b :: rest) =
      (splitAfter rest.length #[(next b rest).1] (next b rest).2).toList := rfl
  rw [hs, h]
  simp

/-- The segments of a source concatenate to it. -/
theorem flatMap_bytes_split (source : List UInt8) : (split source).flatMap bytes = source := by
  suffices h : ∀ (n : Nat) (source : List UInt8), source.length ≤ n →
      (split source).flatMap bytes = source from h _ _ (Nat.le_refl _)
  intro n
  induction n with
  | zero =>
    intro source hn
    obtain rfl : source = [] := List.eq_nil_of_length_eq_zero (by omega)
    rfl
  | succ n ih =>
    intro source hn
    match source with
    | [] => rfl
    | b :: rest =>
      have hlt := next_length_lt b rest
      rw [split_cons, List.flatMap_cons, ih _ (by simp at hn hlt; omega), next_bytes]

end Segment

end Lox
