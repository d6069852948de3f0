/-!
# Reading bytes as text

Source text arrives as bytes. A lexeme is shown as text, so its bytes are decoded as UTF-8, and
bytes that are no UTF-8 are replaced by U+FFFD. The replacement is made once for each *maximal
subpart*: a lead byte together with as many continuation bytes as could still have been the start
of a character. Decoding goes on at the first byte that does not fit, which may itself start a
character.

* `Text.decodeLossy`: the text of a list of bytes;
* `Text.nextChar_ascii`: a byte below `0x80` is the character of that number.
-/

namespace Lox.Text

/-- The character that stands for bytes which are no UTF-8. -/
def replacement : Char := '�'

/-- Continuation bytes of a character: `0x80` up to `0xBF`. -/
def isContinuation (b : UInt8) : Bool := 0x80 ≤ b && b ≤ 0xBF

/-- The continuation bytes allowed right after the lead byte `lead` of a character of three or
    four bytes. Overlong forms, surrogates and numbers above `0x10FFFF` are excluded here. -/
def isSecond (lead b : UInt8) : Bool :=
  if lead = 0xE0 then 0xA0 ≤ b && b ≤ 0xBF
  else if lead = 0xED then 0x80 ≤ b && b ≤ 0x9F
  else if lead = 0xF0 then 0x90 ≤ b && b ≤ 0xBF
  else if lead = 0xF4 then 0x80 ≤ b && b ≤ 0x8F
  else isContinuation b

/-- What a lead byte says of its character. -/
structure Lead where
  /-- The bits of the character's number that the lead byte holds. -/
  payload : Nat
  /-- For each byte that has to follow, which bytes are allowed there. -/
  tail : List (UInt8 → Bool)

/-- The lead byte `b`, if a character can start with it. -/
def lead? (b : UInt8) : Option Lead :=
  if b < 0x80 then some ⟨b.toNat, []⟩
  else if b < 0xC2 then none
  else if b ≤ 0xDF then some ⟨b.toNat % 32, [isContinuation]⟩
  else if b ≤ 0xEF then some ⟨b.toNat % 16, [isSecond b, isContinuation]⟩
  else if b ≤ 0xF4 then some ⟨b.toNat % 8, [isSecond b, isContinuation, isContinuation]⟩
  else none

/-- Splits off the bytes that pass the tests one after another, up to the first that does not. -/
def takeTail : List (UInt8 → Bool) → List UInt8 → List UInt8 × List UInt8
  | allowed :: tests, b :: bytes =>
    if allowed b then
      let (tail, rest) := takeTail tests bytes
      (b :: tail, rest)
    else ([], b :: bytes)
  | _, bytes => ([], bytes)

/-- The character with the bits `payload` followed by six bits of each continuation byte. -/
def join (payload : Nat) (tail : List UInt8) : Char :=
  Char.ofNat (tail.foldl (fun n b => n * 64 + b.toNat % 64) payload)

/-- The first character of the bytes `b :: rest`, and the bytes after it. -/
def nextChar (b : UInt8) (rest : List UInt8) : Char × List UInt8 :=
  match lead? b with
  | none => (replacement, rest)
  | some lead =>
    let (tail, rest) := takeTail lead.tail rest
    if tail.length = lead.tail.length then (join lead.payload tail, rest) else (replacement, rest)

/-- A byte below `0x80` is a character on its own. -/
theorem nextChar_ascii {b : UInt8} (hb : b < 0x80) (rest : List UInt8) :
    nextChar b rest = (Char.ofNat b.toNat, rest) := by
  simp [nextChar, lead?, hb, takeTail, join]

/-- Appends the first `fuel` characters of the bytes to `done`. -/
def decodeAfter : (fuel : Nat) → (done : String) → List UInt8 → String
  | 0, done, _ => done
  | _ + 1, done, [] => done
  | fuel + 1, done, b :: rest =>
    let (c, rest) := nextChar b rest
    decodeAfter fuel (done.push c) rest

/-- The text of `bytes`, with U+FFFD for every maximal subpart that is no UTF-8. (Every character
    takes at least one byte, so there are at most as many characters as bytes.) -/
def decodeLossy (bytes : List UInt8) : String := decodeAfter bytes.length "" bytes

@[simp]
theorem decodeLossy_nil : decodeLossy [] = "" := rfl

end Lox.Text
