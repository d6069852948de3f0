import Mathlib
import Lox.Proofs.MaximalMunch

/-!
# Lexemes that are scanned again

The lexemes of a source with spaces between them are a source with the same tokens. What is wrong
with the first source is no part of any token. A lexeme is a text even if its bytes are none: the
contents of a string and the string with its quotes are decoded each on its own, and both agree
since a quote is a character on its own.

* `Segment.Spelling.reencoded`: a token is still one if its bytes are decoded and encoded again;
* `Token.scanAll_lexemes`: the lexemes of a source are scanned as the same tokens.
-/

namespace Lox

namespace Segment

/-! ### Decoding a token and encoding it again -/

/-- The bytes of a string that was decoded have no quote if the string has none. -/
theorem quote_notMem_reencoded {contents : List UInt8} (h : quote ∉ contents) :
    quote ∉ (Text.decodeLossy contents).toUTF8.toList := by
  intro hmem
  obtain ⟨c, hc, hquote⟩ := Text.mem_of_mem_toUTF8 (by decide) hmem
  have hvalue : quote.toNat = 34 := rfl
  obtain ⟨b, hb, heq⟩ := Text.mem_of_mem_decodeLossy (by omega) (by omega) hc
  exact h (UInt8.toNat_inj.1 (heq.trans hquote) ▸ hb)

/-- A string is decoded as its quotes and its contents. -/
theorem reencoded_string (contents : List UInt8) :
    (Text.decodeLossy (quote :: contents ++ [quote])).toUTF8.toList =
      quote :: (Text.decodeLossy contents).toUTF8.toList ++ [quote] := by
  have hquote : quote < 0x80 := by decide
  have hbytes : (String.singleton (Char.ofNat quote.toNat)).toUTF8.toList = [quote] := by
    decide +kernel
  rw [List.cons_append, Text.decodeLossy_cons_ascii hquote, Text.decodeLossy_append hquote,
    Text.decodeLossy_cons_ascii hquote, Text.decodeLossy_nil, String.append_empty,
    Text.toList_toUTF8_append, Text.toList_toUTF8_append, hbytes]
  rfl

variable {kind : Token.Kind} {bytes : List UInt8}

theorem ascii_of_isDigit (b : UInt8) (h : isDigit b = true) : b < 0x80 :=
  ascii_of_isWordByte b (by rw [isWordByte, h, Bool.or_true])

/-- A token is still one if its bytes are decoded and encoded again. -/
theorem Spelling.reencoded (h : Spelling kind bytes) :
    Spelling kind (Text.decodeLossy bytes).toUTF8.toList := by
  cases h with
  | punctuator mark =>
    rw [Text.decodeLossy_toUTF8]
    exact .punctuator mark
  | keyword word =>
    rw [Text.decodeLossy_toUTF8]
    exact .keyword word
  | identifier hb hrest hne =>
    rw [Text.toUTF8_decodeLossy_of_ascii (List.forall_mem_cons.2
      ⟨ascii_of_isWordByte _ (isWordByte_of_isLetter hb),
        fun c hc => ascii_of_isWordByte c (hrest c hc)⟩)]
    exact .identifier hb hrest hne
  | string hcontents =>
    rw [reencoded_string]
    have hspelling := Spelling.string (quote_notMem_reencoded hcontents)
    rwa [Text.decodeLossy_toUTF8] at hspelling
  | whole hne hdigits =>
    rw [Text.toUTF8_decodeLossy_of_ascii fun d hd => ascii_of_isDigit d (hdigits d hd)]
    exact .whole hne hdigits
  | @decimal digits fraction hne hdigits hne' hfraction =>
    have hascii : ∀ b ∈ digits ++ point :: fraction, b < 0x80 := by
      intro b hb
      rcases List.mem_append.1 hb with hb | hb
      · exact ascii_of_isDigit b (hdigits b hb)
      rcases List.mem_cons.1 hb with rfl | hb
      · decide
      · exact ascii_of_isDigit b (hfraction b hb)
    rw [Text.toUTF8_decodeLossy_of_ascii hascii]
    exact .decimal hne hdigits hne' hfraction

/-- The byte between lexemes. -/
def space : UInt8 := 32

theorem isBlank_of_mem_head?_space (rest : List UInt8) : ∀ c ∈ (space :: rest).head?,
    isBlank c = true := by
  intro c hc
  cases hc
  decide

/-- A token in front of a blank, or at the end of a source, is its first segment. -/
theorem Spelling.split (h : Spelling kind bytes) {rest : List UInt8}
    (hrest : ∀ c ∈ rest.head?, isBlank c = true) :
    Segment.split (bytes ++ rest) = token kind bytes :: Segment.split rest := by
  obtain ⟨b, tail, rfl, hshape⟩ := h.shape
  rw [List.cons_append, split_cons, hshape.next hrest]

end Segment

namespace Token

/-! ### Tokens of a source -/

/-- A token that is written as the lexical grammar asks for. -/
def Spelled (t : Token) : Prop := Segment.Spelling t.kind t.lexeme.toUTF8.toList

theorem spelled_of_mem_within {source : List UInt8} {t : Token} (h : t ∈ within source) :
    t.Spelled := by
  obtain ⟨bytes, hbytes, hlexeme⟩ := exists_of_mem_within h
  have hmunch : ∀ s ∈ Segment.split source, ∃ rest, s.Munch rest := fun s =>
    Segment.of_mem_split (P := fun s => ∃ rest, s.Munch rest) fun b rest =>
      ⟨_, Segment.munch_next b rest⟩
  obtain ⟨rest, htoken⟩ := hmunch _ hbytes
  cases htoken with
  | token hspelling =>
    rw [Spelled, hlexeme]
    exact hspelling.reencoded

/-! ### Lexemes with spaces between them -/

/-- What a token is apart from where it stands. -/
def face (t : Token) : Kind × String := (t.kind, t.lexeme)

/-- The lexemes of tokens with spaces between them. -/
def spaced (tokens : List Token) : String := " ".intercalate (tokens.map lexeme)

theorem bytes_spaced_nil : (spaced []).toUTF8.toList = [] := by decide +kernel

theorem bytes_spaced_singleton (t : Token) :
    (spaced [t]).toUTF8.toList = t.lexeme.toUTF8.toList ++ [] := by
  rw [spaced, List.map_singleton, String.intercalate_singleton, List.append_nil]

theorem bytes_spaced_cons_cons (t t' : Token) (tokens : List Token) :
    (spaced (t :: t' :: tokens)).toUTF8.toList =
      t.lexeme.toUTF8.toList ++ Segment.space :: (spaced (t' :: tokens)).toUTF8.toList := by
  have hspace : " ".toUTF8.toList = [Segment.space] := by decide +kernel
  rw [spaced, List.map_cons, List.map_cons, String.intercalate_cons_cons, Text.toList_toUTF8_append,
    Text.toList_toUTF8_append, hspace, List.append_assoc]
  rfl

/-- What is scanned of a token and the blank or the end behind it. -/
theorem itemsWithin_token {t : Token} (ht : t.Spelled) {rest : List UInt8}
    (hrest : ∀ c ∈ rest.head?, Segment.isBlank c = true) (line : Nat) :
    ∃ t' line', itemsWithin line (Segment.split (t.lexeme.toUTF8.toList ++ rest)) =
      .ok t' :: itemsWithin line' (Segment.split rest) ∧ t'.face = t.face := by
  rw [ht.split hrest, itemsWithin]
  refine ⟨_, _, rfl, ?_⟩
  rw [face, Text.decodeLossy_toUTF8]
  rfl

/-- Tokens that are written with spaces between them are scanned as they are. -/
theorem itemsWithin_spaced {tokens : List Token} (h : ∀ t ∈ tokens, t.Spelled) (line : Nat) :
    ∃ tokens' : List Token, itemsWithin line (Segment.split (spaced tokens).toUTF8.toList) =
      tokens'.map .ok ∧
      tokens'.map face = tokens.map face := by
  induction tokens generalizing line with
  | nil =>
    rw [bytes_spaced_nil]
    exact ⟨[], rfl, rfl⟩
  | cons t tokens ih =>
    obtain ⟨ht, htokens⟩ := List.forall_mem_cons.1 h
    cases tokens with
    | nil =>
      have hend : ∀ c ∈ ([] : List UInt8).head?, Segment.isBlank c = true := by simp
      obtain ⟨u, line', hitems, hface⟩ := itemsWithin_token ht hend line
      rw [bytes_spaced_singleton, hitems]
      exact ⟨[u], rfl, congrArg (fun f => [f]) hface⟩
    | cons t' tokens =>
      obtain ⟨u, line', hitems, hface⟩ :=
        itemsWithin_token ht (Segment.isBlank_of_mem_head?_space _) line
      -- The space yields nothing.
      obtain ⟨tokens', htokens', hfaces⟩ := ih htokens line'
      refine ⟨u :: tokens', ?_, congrArg₂ List.cons hface hfaces⟩
      rw [bytes_spaced_cons_cons, hitems, Segment.split_cons,
        Segment.next_of_blank _ (by decide), itemsWithin]
      exact congrArg (Except.ok u :: ·) htokens'

/-- Where nothing but tokens is scanned, there are these tokens and no errors. -/
theorem filterMap_map_ok (tokens : List Token) :
    (tokens.map (Except.ok : Token → Item)).filterMap Item.token? = tokens ∧
      (tokens.map (Except.ok : Token → Item)).filterMap Item.error? = [] := by
  rw [List.filterMap_map, List.filterMap_map]
  exact ⟨List.filterMap_some .., List.filterMap_eq_nil_iff.2 fun _ _ => rfl⟩

/-- The lexemes of a source are scanned as the same tokens. All tokens but the end are taken,
    whatever is wrong between them, and their lexemes are written with single spaces between them.
    This text is scanned without an error, as tokens of the same kinds with the same values and
    lexemes, and the end. -/
theorem scanAll_lexemes (source : List UInt8) :
    (scanAll (spaced ((scanAll source).1.filter fun t => !t.isEof)).toUTF8.toList).2 = [] ∧
      (scanAll (spaced ((scanAll source).1.filter fun t => !t.isEof)).toUTF8.toList).1.map face =
        ((scanAll source).1.filter fun t => !t.isEof).map face ++ [(.eof, "")] := by
  have htokens : ((scanAll source).1.filter fun t => !t.isEof) = within source := by
    rw [scanAll_tokens, List.filter_append,
      List.filter_eq_self.2 fun t ht => by simp [isEof_of_mem_within ht]]
    exact List.append_nil _
  rw [htokens]
  have hspelled : ∀ t ∈ within source, t.Spelled := fun t => spelled_of_mem_within
  obtain ⟨tokens', hitems, hfaces⟩ := itemsWithin_spaced hspelled 1
  obtain ⟨hok, hnone⟩ := filterMap_map_ok tokens'
  constructor
  · rw [scanAll_errors, hitems, hnone]
  · rw [scanAll_tokens, within, hitems, hok, List.map_append]
    exact congrArg (· ++ [(Kind.eof, "")]) hfaces

end Token

end Lox
