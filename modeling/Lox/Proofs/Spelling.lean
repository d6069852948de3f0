import Mathlib
import Lox.Proofs.Decoding
import Lox.Token.Segment

/-!
# Spelling

The lexical grammar says which bytes are a token, and of which kind, without saying how the token is
found. A mark and a keyword are written in one way, a name is any other word, a string is closed by
the first quote in it, and a number has digits before a point and after it or no point at all.

* `Segment.Spelling`: the lexical grammar;
* `Segment.Spelling.shape`: the first byte of a token tells what kind it is of;
* `Segment.Spelling.next`: a token in front of a blank is split off as it is;
* `Segment.Spelling.kind_unique`: bytes are a token of one kind only.
-/

namespace Lox

/-- How a punctuator is written. -/
def Punctuator.text : Punctuator → String
  | leftParen => "("
  | rightParen => ")"
  | leftBrace => "\x7b"
  | rightBrace => "\x7d"
  | comma => ","
  | dot => "."
  | minus => "-"
  | plus => "+"
  | semicolon => ";"
  | slash => "/"
  | star => "*"
  | bang => "!"
  | bangEqual => "!="
  | equal => "="
  | equalEqual => "=="
  | greater => ">"
  | greaterEqual => ">="
  | less => "<"
  | lessEqual => "<="

/-- How a keyword is written. -/
def Keyword.text : Keyword → String
  | .and => "and"
  | .class => "class"
  | .else => "else"
  | .false => "false"
  | .fun => "fun"
  | .for => "for"
  | .if => "if"
  | .nil => "nil"
  | .or => "or"
  | .print => "print"
  | .return => "return"
  | .super => "super"
  | .this => "this"
  | .true => "true"
  | .var => "var"
  | .while => "while"

theorem Keyword.ofText?_eq_some {text : String} {word : Keyword} :
    Keyword.ofText? text = some word ↔ text = word.text := by
  constructor
  · intro h
    unfold ofText? at h
    split at h
    all_goals
      cases h
      try rfl
  · rintro rfl
    cases word <;> rfl

namespace Segment

/-- The byte between the digits of a number. -/
def point : UInt8 := 46

/-- The lexical grammar: bytes that are a token of some kind. -/
inductive Spelling : Token.Kind → List UInt8 → Prop
  | punctuator (mark : Punctuator) : Spelling (.punctuator mark) mark.text.toUTF8.toList
  | keyword (word : Keyword) : Spelling (.keyword word) word.text.toUTF8.toList
  | identifier {b : UInt8} {rest : List UInt8} : isLetter b = true →
      (∀ c ∈ rest, isWordByte c = true) →
      (∀ word : Keyword, b :: rest ≠ word.text.toUTF8.toList) → Spelling .identifier (b :: rest)
  | string {contents : List UInt8} : quote ∉ contents →
      Spelling (.string (Text.decodeLossy contents)) (quote :: contents ++ [quote])
  | whole {digits : List UInt8} : digits ≠ [] → (∀ d ∈ digits, isDigit d = true) →
      Spelling (numberKind digits []) digits
  | decimal {digits fraction : List UInt8} : digits ≠ [] → (∀ d ∈ digits, isDigit d = true) →
      fraction ≠ [] → (∀ d ∈ fraction, isDigit d = true) →
      Spelling (numberKind digits fraction) (digits ++ point :: fraction)

/-! ### Classes of bytes -/

/-- What holds of all bytes can be found out by going through them. -/
theorem forall_byte {P : UInt8 → Prop} (h : ∀ n < 256, P (UInt8.ofNat n)) (b : UInt8) : P b := by
  have := h b.toNat b.toNat_lt
  rwa [UInt8.ofNat_toNat] at this

/-- A byte that a punctuator is written with starts nothing else. -/
theorem class_of_mark (b : UInt8) : Punctuator.ofChar? (char b) ≠ none →
    isBlank b = false ∧ b ≠ quote ∧ isDigit b = false ∧ isLetter b = false := by
  revert b
  exact forall_byte (by decide +kernel)

theorem class_of_letter (b : UInt8) : isLetter b = true →
    isBlank b = false ∧ b ≠ quote ∧ isDigit b = false := by
  revert b
  exact forall_byte (by decide +kernel)

theorem class_of_digit (b : UInt8) : isDigit b = true → isBlank b = false ∧ b ≠ quote := by
  revert b
  exact forall_byte (by decide +kernel)

theorem class_of_blank (b : UInt8) : isBlank b = true →
    isWordByte b = false ∧ isDigit b = false ∧ b ≠ point ∧ char b ≠ '/' ∧ char b ≠ '=' := by
  revert b
  exact forall_byte (by decide +kernel)

theorem char_eq_point (b : UInt8) : char b = '.' ↔ b = point := by
  revert b
  exact forall_byte (by decide +kernel)

/-- Words are written with bytes below `0x80`. -/
theorem ascii_of_isWordByte (b : UInt8) : isWordByte b = true → b < 0x80 := by
  revert b
  exact forall_byte (by decide +kernel)

theorem isWordByte_of_isLetter {b : UInt8} (h : isLetter b = true) : isWordByte b = true := by
  rw [isWordByte, h, Bool.true_or]

/-- A word of a source is the keyword that it is written as. -/
theorem wordKind_eq_keyword {word : List UInt8} (hword : ∀ c ∈ word, isWordByte c = true)
    {keyword : Keyword} : wordKind word = .keyword keyword ↔ word = keyword.text.toUTF8.toList := by
  have hbytes := Text.toUTF8_decodeLossy_of_ascii fun c hc => ascii_of_isWordByte c (hword c hc)
  constructor
  · intro h
    unfold wordKind at h
    split at h
    · next hk =>
      cases h
      rw [← Keyword.ofText?_eq_some.1 hk, hbytes]
    · cases h
  · intro h
    have hk : Keyword.ofText? (Text.decodeLossy word) = some keyword := by
      rw [h, Text.decodeLossy_toUTF8, Keyword.ofText?_eq_some]
    rw [wordKind, hk]

theorem wordKind_eq_identifier {word : List UInt8} (hword : ∀ c ∈ word, isWordByte c = true)
    (h : ∀ keyword : Keyword, word ≠ keyword.text.toUTF8.toList) : wordKind word = .identifier := by
  cases hk : Keyword.ofText? (Text.decodeLossy word) with
  | none => rw [wordKind, hk]
  | some keyword => exact absurd ((wordKind_eq_keyword hword).1 (by rw [wordKind, hk])) (h keyword)

/-! ### What the first byte tells -/

/-- The lexical grammar, ordered by the first byte of a token. -/
inductive Shape : Token.Kind → UInt8 → List UInt8 → Prop
  | mark {mark : Punctuator} {b : UInt8} : Punctuator.ofChar? (char b) = some mark →
      Shape (.punctuator mark) b []
  | markEqual {mark longer : Punctuator} {b c : UInt8} : Punctuator.ofChar? (char b) = some mark →
      mark.withEqual? = some longer → char c = '=' → Shape (.punctuator longer) b [c]
  | word {b : UInt8} {rest : List UInt8} : isLetter b = true → (∀ c ∈ rest, isWordByte c = true) →
      Shape (wordKind (b :: rest)) b rest
  | string {contents : List UInt8} : quote ∉ contents →
      Shape (.string (Text.decodeLossy contents)) quote (contents ++ [quote])
  | whole {b : UInt8} {digits : List UInt8} : isDigit b = true → (∀ d ∈ digits, isDigit d = true) →
      Shape (numberKind (b :: digits) []) b digits
  | decimal {b c : UInt8} {digits fraction : List UInt8} : isDigit b = true →
      (∀ d ∈ digits, isDigit d = true) →
      isDigit c = true → (∀ d ∈ fraction, isDigit d = true) →
      Shape (numberKind (b :: digits) (c :: fraction)) b (digits ++ point :: c :: fraction)

variable {kind : Token.Kind} {b : UInt8} {bytes rest : List UInt8}

theorem shape_punctuator (mark : Punctuator) :
    ∃ b rest, mark.text.toUTF8.toList = b :: rest ∧ Shape (.punctuator mark) b rest := by
  rw [Text.toList_toUTF8]
  cases mark with
  | bangEqual | equalEqual | greaterEqual | lessEqual => exact ⟨_, _, rfl, .markEqual rfl rfl rfl⟩
  | _ => exact ⟨_, _, rfl, .mark rfl⟩

theorem shape_keyword (keyword : Keyword) :
    ∃ b rest, keyword.text.toUTF8.toList = b :: rest ∧ Shape (.keyword keyword) b rest := by
  have hletters : ∀ c ∈ keyword.text.toUTF8.toList, isLetter c = true := by
    cases keyword <;> decide +kernel
  have hne : keyword.text.toUTF8.toList ≠ [] := by cases keyword <;> decide +kernel
  obtain ⟨b, rest, htext⟩ := List.exists_cons_of_ne_nil hne
  rw [htext] at hletters
  have hword : ∀ c ∈ b :: rest, isWordByte c = true :=
    fun c hc => isWordByte_of_isLetter (hletters c hc)
  have hkind : wordKind (b :: rest) = .keyword keyword := (wordKind_eq_keyword hword).2 htext.symm
  exact ⟨b, rest, htext, hkind ▸ .word (hletters b (List.mem_cons_self ..))
    (List.forall_mem_cons.1 hword).2⟩

/-- A token has a first byte, and it has the shape that its first byte tells. -/
theorem Spelling.shape (h : Spelling kind bytes) : ∃ b rest, bytes = b :: rest ∧
    Shape kind b rest := by
  cases h with
  | punctuator mark => exact shape_punctuator mark
  | keyword keyword => exact shape_keyword keyword
  | @identifier b rest hb hrest hne =>
    refine ⟨b, rest, rfl, ?_⟩
    rw [← wordKind_eq_identifier (List.forall_mem_cons.2 ⟨isWordByte_of_isLetter hb, hrest⟩) hne]
    exact .word hb hrest
  | string hcontents => exact ⟨quote, _, rfl, .string hcontents⟩
  | whole hne hdigits =>
    obtain ⟨b, digits, rfl⟩ := List.exists_cons_of_ne_nil hne
    obtain ⟨hb, hdigits⟩ := List.forall_mem_cons.1 hdigits
    exact ⟨b, digits, rfl, .whole hb hdigits⟩
  | decimal hne hdigits hne' hfraction =>
    obtain ⟨b, digits, rfl⟩ := List.exists_cons_of_ne_nil hne
    obtain ⟨c, fraction, rfl⟩ := List.exists_cons_of_ne_nil hne'
    obtain ⟨hb, hdigits⟩ := List.forall_mem_cons.1 hdigits
    obtain ⟨hc, hfraction⟩ := List.forall_mem_cons.1 hfraction
    exact ⟨b, _, rfl, .decimal hb hdigits hc hfraction⟩

theorem text_of_ofChar? (b : UInt8) : ∀ mark ∈ Punctuator.ofChar? (char b),
    mark.text.toUTF8.toList = [b] ∧
      ∀ longer ∈ mark.withEqual?, ∀ c : UInt8, char c = '=' →
      longer.text.toUTF8.toList = [b, c] := by
  have hequal : ∀ c : UInt8, char c = '=' → c = 61 := forall_byte (by decide +kernel)
  have htable : ∀ b : UInt8, ∀ mark ∈ Punctuator.ofChar? (char b),
      mark.text.toUTF8.toList = [b] ∧ ∀ longer ∈ mark.withEqual?,
      longer.text.toUTF8.toList = [b, 61] :=
    forall_byte (by decide +kernel)
  intro mark hmark
  obtain ⟨htext, hlonger⟩ := htable b mark hmark
  exact ⟨htext, fun longer hl c hc => by rw [hequal c hc, hlonger longer hl]⟩

theorem Shape.spelling (h : Shape kind b rest) : Spelling kind (b :: rest) := by
  cases h with
  | @mark mark b hb => exact (text_of_ofChar? b mark hb).1 ▸ .punctuator mark
  | @markEqual mark longer b c hb hlonger hc =>
    exact (text_of_ofChar? b mark hb).2 longer hlonger c hc ▸ .punctuator longer
  | word hb hrest =>
    have hword : ∀ c ∈ b :: rest, isWordByte c = true :=
      List.forall_mem_cons.2 ⟨isWordByte_of_isLetter hb, hrest⟩
    by_cases hk : ∃ keyword : Keyword, b :: rest = keyword.text.toUTF8.toList
    · obtain ⟨keyword, hk⟩ := hk
      rw [(wordKind_eq_keyword hword).2 hk, hk]
      exact .keyword keyword
    · have hne : ∀ keyword : Keyword, b :: rest ≠ keyword.text.toUTF8.toList :=
        fun keyword h => hk ⟨keyword, h⟩
      rw [wordKind_eq_identifier hword hne]
      exact .identifier hb hrest hne
  | string hcontents => exact .string hcontents
  | whole hb hdigits => exact .whole (List.cons_ne_nil _ _) (List.forall_mem_cons.2 ⟨hb, hdigits⟩)
  | decimal hb hdigits hc hfraction =>
    exact .decimal (List.cons_ne_nil _ _) (List.forall_mem_cons.2 ⟨hb, hdigits⟩)
      (List.cons_ne_nil _ _)
      (List.forall_mem_cons.2 ⟨hc, hfraction⟩)

/-! ### The first segment, by its first byte -/

section

variable (rest : List UInt8)

theorem next_of_blank (hb : isBlank b = true) : next b rest = (blank b, rest) := by
  rw [next, if_pos hb]

theorem next_quote : next quote rest = nextString rest := by
  rw [next, if_neg (by decide), if_pos rfl]

theorem next_of_digit (hb : isDigit b = true) : next b rest = nextNumber b rest := by
  obtain ⟨hblank, hquote⟩ := class_of_digit b hb
  rw [next, if_neg (by simp [hblank]), if_neg hquote, if_pos hb]

theorem next_of_letter (hb : isLetter b = true) : next b rest = nextWord b rest := by
  obtain ⟨hblank, hquote, hdigit⟩ := class_of_letter b hb
  rw [next, if_neg (by simp [hblank]), if_neg hquote, if_neg (by simp [hdigit]), if_pos hb]

theorem next_of_mark {mark : Punctuator} (hb : Punctuator.ofChar? (char b) = some mark) :
    next b rest = nextMark mark b rest := by
  obtain ⟨hblank, hquote, hdigit, hletter⟩ := class_of_mark b (by simp [hb])
  rw [next, if_neg (by simp [hblank]), if_neg hquote, if_neg (by simp [hdigit]),
    if_neg (by simp [hletter]), hb]

end

/-! ### A token in front of a blank -/

section

variable {p : UInt8 → Bool} {xs : List UInt8}

/-- Bytes of one kind in front of another byte or the end. -/
theorem takeWhile_append_of_stop (hxs : ∀ x ∈ xs, p x = true)
    (hrest : ∀ c ∈ rest.head?, p c = false) : (xs ++ rest).takeWhile p = xs := by
  rw [List.takeWhile_append_of_pos hxs]
  cases rest with
  | nil => exact List.append_nil xs
  | cons c rest => rw [List.takeWhile_cons_of_neg (by simp [hrest c rfl]), List.append_nil]

theorem dropWhile_append_of_stop (hxs : ∀ x ∈ xs, p x = true)
    (hrest : ∀ c ∈ rest.head?, p c = false) : (xs ++ rest).dropWhile p = rest := by
  rw [List.dropWhile_append_of_pos hxs]
  cases rest with
  | nil => rfl
  | cons c rest => rw [List.dropWhile_cons_of_neg (by simp [hrest c rfl])]

end

/-- A string is split off behind its closing quote. -/
theorem nextString_of_notMem {contents : List UInt8} (h : quote ∉ contents) (rest : List UInt8) :
    nextString (contents ++ quote :: rest) =
      (token (.string (Text.decodeLossy contents)) (quote :: contents ++ [quote]), rest) := by
  have hne : ∀ c ∈ contents, (c != quote) = true := fun c hc => bne_iff_ne.2 fun heq => h (heq ▸ hc)
  have hstop : ∀ c ∈ (quote :: rest).head?, (c != quote) = false := by simp
  rw [nextString, takeWhile_append_of_stop hne hstop, dropWhile_append_of_stop hne hstop]

/-- A number is split off in front of anything but a digit and, if it has no point, a point. -/
theorem nextNumber_whole {digits : List UInt8} (hdigits : ∀ d ∈ digits, isDigit d = true)
    (hrest : ∀ c ∈ rest.head?, isDigit c = false ∧ c ≠ point) :
    nextNumber b (digits ++ rest) = (token (numberKind (b :: digits) []) (b :: digits), rest) := by
  have hstop : ∀ c ∈ rest.head?, isDigit c = false := fun c hc => (hrest c hc).1
  rw [nextNumber, takeWhile_append_of_stop hdigits hstop, dropWhile_append_of_stop hdigits hstop]
  rcases rest with - | ⟨c, - | ⟨d, rest⟩⟩
  · rfl
  · rfl
  · exact if_neg fun h => (hrest c rfl).2 ((char_eq_point c).1 h.1)

theorem nextNumber_decimal {c : UInt8} {digits fraction : List UInt8}
    (hdigits : ∀ d ∈ digits, isDigit d = true) (hc : isDigit c = true)
    (hfraction : ∀ d ∈ fraction, isDigit d = true) (hrest : ∀ c ∈ rest.head?, isDigit c = false) :
    nextNumber b (digits ++ point :: c :: (fraction ++ rest)) =
      (token (numberKind (b :: digits) (c :: fraction)) (b :: digits ++ point :: c :: fraction),
        rest) := by
  have hstop : ∀ d ∈ (point :: c :: (fraction ++ rest)).head?, isDigit d = false := by
    rintro d hd
    cases hd
    decide
  rw [nextNumber, takeWhile_append_of_stop hdigits hstop, dropWhile_append_of_stop hdigits hstop]
  dsimp only
  rw [if_pos ⟨(char_eq_point point).2 rfl, hc⟩, takeWhile_append_of_stop hfraction hrest,
    dropWhile_append_of_stop hfraction hrest]

/-- A token in front of a blank, or at the end of a source, is split off as it is. -/
theorem Shape.next (h : Shape kind b bytes) (hrest : ∀ c ∈ rest.head?, isBlank c = true) :
    Segment.next b (bytes ++ rest) = (token kind (b :: bytes), rest) := by
  have hdigit : ∀ c ∈ rest.head?, isDigit c = false :=
    fun c hc => (class_of_blank c (hrest c hc)).2.1
  cases h with
  | @mark mark b hb =>
    rw [List.nil_append, next_of_mark rest hb]
    cases rest with
    | nil => rfl
    | cons c rest =>
      obtain ⟨-, -, -, hslash, hequal⟩ := class_of_blank c (hrest c rfl)
      rw [nextMark, if_neg fun h => hslash h.2]
      cases mark.withEqual? with
      | none => rfl
      | some longer => exact if_neg hequal
  | @markEqual mark longer b c hb hlonger hc =>
    have hslash : mark ≠ .slash := by
      rintro rfl
      cases hlonger
    rw [next_of_mark _ hb, List.singleton_append, nextMark, if_neg fun h => hslash h.1, hlonger]
    exact if_pos hc
  | word hb hword =>
    have hstop : ∀ c ∈ rest.head?, isWordByte c = false :=
      fun c hc => (class_of_blank c (hrest c hc)).1
    rw [next_of_letter _ hb, nextWord, takeWhile_append_of_stop hword hstop,
      dropWhile_append_of_stop hword hstop]
  | string hcontents =>
    rw [next_quote, List.append_assoc, List.singleton_append, nextString_of_notMem hcontents]
    rfl
  | whole hb hdigits =>
    rw [next_of_digit _ hb, nextNumber_whole hdigits fun c hc =>
      ⟨hdigit c hc, (class_of_blank c (hrest c hc)).2.2.1⟩]
  | decimal hb hdigits hc hfraction =>
    rw [next_of_digit _ hb, List.append_assoc, List.cons_append, List.cons_append,
      nextNumber_decimal hdigits hc hfraction hdigit]
    rfl

/-- Bytes are a token of one kind only. -/
theorem Spelling.kind_unique {kind' : Token.Kind} (h : Spelling kind bytes)
    (h' : Spelling kind' bytes) : kind = kind' := by
  obtain ⟨b, rest, rfl, hshape⟩ := h.shape
  obtain ⟨b', rest', heq, hshape'⟩ := h'.shape
  cases heq
  have hnext : ∀ {kind : Token.Kind}, Shape kind b rest →
      Segment.next b (rest ++ []) = (token kind (b :: rest), []) :=
    fun h => h.next (by simp)
  have htoken := (hnext hshape).symm.trans (hnext hshape')
  cases htoken
  rfl

end Segment

end Lox
