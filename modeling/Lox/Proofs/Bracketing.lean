import Mathlib
import Lox.Expr.Printer
import Lox.Proofs.Rendering
import Lox.Proofs.NumberTexts

/-!
# Expressions in brackets are unambiguous

`Expr.render` writes an expression with a head in front of its parts and brackets around them. A
text in brackets is taken apart here in two steps. As a tree of words (`Bracketed`) it can be read
in one way only, because no word has a blank or a bracket in it (`Bracketed.append_inj`). A tree of
words then stands for at most one expression (`Bracketed.expr?`): heads and words are tokens, and
the kind of a token and the number of parts say which form is meant.

The second step goes back to the expression that was written (`Expr.reads_bracketed`), as long as
its names, operators and values have the spellings that a scanner accepts, and as long as its values
are legible: a string stands in the tree without quotes, and a number beyond all finite ones is
written like a name. So two expressions that are read from sources have one text only if they are
the same up to identities and lines (`Expr.render_eq_iff_bare_eq`).
-/

namespace Lox

open Segment (Spelling)

theorem Text.toUTF8_injective {text text' : String} (h : text.toUTF8.toList = text'.toUTF8.toList) :
    text = text' := by
  rw [← Text.decodeLossy_toUTF8 text, h, Text.decodeLossy_toUTF8]

/-- A text in brackets: a word, or a head and parts with brackets around them. -/
inductive Bracketed where
  /-- A word. -/
  | word (text : String)
  /-- A head and parts. -/
  | node (head : String) (parts : List Bracketed)

/-- The kind of the token that a text is, if it is one. -/
def Token.kindOf? (text : String) : Option Token.Kind :=
  match Segment.split text.toUTF8.toList with
  | [.token kind _] => some kind
  | _ => none

theorem Token.kindOf?_of_spelling {kind : Token.Kind} {text : String}
    (h : Spelling kind text.toUTF8.toList) : Token.kindOf? text = some kind := by
  have hsplit := h.split (show ∀ c ∈ ([] : List UInt8).head?, Segment.isBlank c = true by simp)
  rw [List.append_nil, Segment.split_nil] at hsplit
  rw [kindOf?, hsplit]

namespace Expr

/-- An expression without the identities of its nodes and without lines. -/
def bare (e : Expr) : Expr := (e.relabel .flat).unnumbered

/-- The expression that a word stands for. -/
def ofWord? (text : String) : Option Expr :=
  match Token.kindOf? text with
  | some .identifier => some (.var 0 ⟨text, 0⟩)
  | some (.keyword .this) => some (.this 0 ⟨text, 0⟩)
  | some kind => (Literal.ofKind? kind).map (.literal 0)
  | none => none

/-- The expression that a head and the expressions of its parts stand for. -/
def ofNode? : String → List Expr → Option Expr
  | "group", [inner] => some (.grouping 0 inner)
  | "call", callee :: arguments => some (.call 0 callee ⟨")", 0⟩ arguments)
  | "=", [.var _ name, value] => some (.assign 0 name value)
  | ".", [object, .var _ name] => some (.get 0 object name)
  | ".=", [object, .var _ name, value] => some (.set 0 object name value)
  | "super", [.var _ method] => some (.super 0 ⟨"super", 0⟩ method)
  | head, [right] =>
    ((Token.kindOf? head).bind UnaryOp.ofKind?).map fun op => .unary 0 op ⟨head, 0⟩ right
  | head, [left, right] =>
    ((Token.kindOf? head).bind Operator.ofKind?).map fun op => op.apply 0 ⟨head, 0⟩ left right
  | _, _ => none

end Expr

/-! ## Texts in brackets -/

namespace Bracketed

/-- The bytes between and around words. -/
def isDelimiter (b : UInt8) : Bool := b == Segment.space || b == 40 || b == 41

/-- A text that is one word: it has bytes, and none of them stands between or around words. -/
def IsWord (text : String) : Prop :=
  text.toUTF8.toList ≠ [] ∧ ∀ b ∈ text.toUTF8.toList, isDelimiter b = false

instance (text : String) : Decidable (IsWord text) := inferInstanceAs (Decidable (_ ∧ _))

mutual

/-- How a text in brackets is written. -/
def text : Bracketed → String
  | word text => text
  | node head parts => "(" ++ head ++ textAll parts ++ ")"

/-- Texts in brackets with a blank in front of each. -/
def textAll : List Bracketed → String
  | [] => ""
  | part :: rest => " " ++ part.text ++ textAll rest

end

/-- The bytes of a text. -/
abbrev encoded (text : String) : List UInt8 := text.toUTF8.toList

theorem encoded_node (head : String) (parts : List Bracketed) :
    encoded (node head parts).text = 40 :: (encoded head ++ (encoded (textAll parts) ++ [41])) := by
  have hopen : "(".toUTF8.toList = [40] := by decide +kernel
  have hclose : ")".toUTF8.toList = [41] := by decide +kernel
  rw [text, encoded, Text.toList_toUTF8_append, Text.toList_toUTF8_append,
    Text.toList_toUTF8_append, hopen, hclose, List.append_assoc, List.append_assoc]
  rfl

theorem encoded_nil : encoded (textAll []) = [] := by decide +kernel

theorem encoded_cons (part : Bracketed) (rest : List Bracketed) :
    encoded (textAll (part :: rest)) = Segment.space ::
      (encoded part.text ++ encoded (textAll rest)) := by
  have hspace : " ".toUTF8.toList = [Segment.space] := by decide +kernel
  rw [textAll, encoded, Text.toList_toUTF8_append, Text.toList_toUTF8_append, hspace,
    List.append_assoc]
  rfl

mutual

/-- Words and heads are words. -/
def Legal : Bracketed → Prop
  | word text => IsWord text
  | node head parts => IsWord head ∧ AllLegal parts

def AllLegal : List Bracketed → Prop
  | [] => True
  | part :: rest => part.Legal ∧ AllLegal rest

end

/-- What may follow a word: nothing, or a byte that is not part of a word. -/
def Follows (rest : List UInt8) : Prop := ∀ b ∈ rest.head?, isDelimiter b = true

variable {text text' : String} {rest rest' : List UInt8}

/-- A word ends where a delimiter follows. -/
theorem IsWord.append_inj (h : IsWord text) (h' : IsWord text') (hrest : Follows rest)
    (hrest' : Follows rest') (heq : text.toUTF8.toList ++ rest = text'.toUTF8.toList ++ rest') :
    text = text' ∧ rest = rest' := by
  have hword : ∀ b ∈ text.toUTF8.toList, (!isDelimiter b) = true :=
    fun b hb => by rw [h.2 b hb]; rfl
  have hword' : ∀ b ∈ text'.toUTF8.toList, (!isDelimiter b) = true :=
    fun b hb => by rw [h'.2 b hb]; rfl
  have hstop : ∀ b ∈ rest.head?, (!isDelimiter b) = false := fun b hb => by rw [hrest b hb]; rfl
  have hstop' : ∀ b ∈ rest'.head?, (!isDelimiter b) = false := fun b hb => by rw [hrest' b hb]; rfl
  constructor
  · apply Text.toUTF8_injective
    rw [← Segment.takeWhile_append_of_stop hword hstop, heq,
      Segment.takeWhile_append_of_stop hword' hstop']
  · rw [← Segment.dropWhile_append_of_stop hword hstop, heq,
      Segment.dropWhile_append_of_stop hword' hstop']

/-- What comes after the head of a node ends a word. -/
theorem follows_textAll (parts : List Bracketed) (rest : List UInt8) :
    Follows (encoded (textAll parts) ++ 41 :: rest) := by
  cases parts with
  | nil =>
    rw [encoded_nil]
    rintro b ⟨⟩
    rfl
  | cons part parts =>
    rw [encoded_cons]
    rintro b ⟨⟩
    rfl

/-- A word does not start with a bracket. -/
theorem IsWord.ne_node (h : IsWord text) (head : String) (parts : List Bracketed)
    (rest rest' : List UInt8) : encoded text ++ rest ≠ encoded (node head parts).text ++ rest' := by
  obtain ⟨hne, hbytes⟩ := h
  obtain ⟨b, bytes, hb⟩ := List.exists_cons_of_ne_nil hne
  have hword := hbytes b (by rw [hb]; exact List.mem_cons_self)
  intro heq
  rw [encoded, hb, encoded_node, List.cons_append, List.cons_append, List.cons.injEq] at heq
  rw [heq.1] at hword
  exact absurd hword (by decide)

mutual

/-- Where a text in brackets ends can be told in one way only, and it is the text of one tree. -/
theorem append_inj : ∀ (b b' : Bracketed) {rest rest' : List UInt8}, b.Legal → b'.Legal →
    Follows rest →
    Follows rest' → encoded b.text ++ rest = encoded b'.text ++ rest' → b = b' ∧ rest = rest'
  | word text, word text', rest, rest', h, h', hrest, hrest', heq => by
    obtain ⟨rfl, rfl⟩ := IsWord.append_inj h h' hrest hrest' heq
    exact ⟨rfl, rfl⟩
  | word text, node head parts, rest, rest', h, h', hrest, hrest', heq =>
    absurd heq (IsWord.ne_node h head parts rest rest')
  | node head parts, word text, rest, rest', h, h', hrest, hrest', heq =>
    absurd heq.symm (IsWord.ne_node h' head parts rest' rest)
  | node head parts, node head' parts', rest, rest', h, h', hrest, hrest', heq => by
    rw [encoded_node, encoded_node, List.cons_append, List.cons_append, List.cons.injEq,
      List.append_assoc, List.append_assoc, List.append_assoc, List.append_assoc] at heq
    -- The head ends at the blank of the first part, or at the closing bracket if there is none.
    obtain ⟨rfl, hparts⟩ :=
      IsWord.append_inj h.1 h'.1 (follows_textAll parts rest) (follows_textAll parts' rest') heq.2
    obtain ⟨rfl, rfl⟩ := appendAll_inj parts parts' h.2 h'.2 hparts
    exact ⟨rfl, rfl⟩

theorem appendAll_inj : ∀ (bs bs' : List Bracketed) {rest rest' : List UInt8}, AllLegal bs →
    AllLegal bs' →
    encoded (textAll bs) ++ 41 :: rest = encoded (textAll bs') ++ 41 :: rest' →
    bs = bs' ∧ rest = rest'
  | [], [], rest, rest', _, _, heq => by
    rw [encoded_nil, List.nil_append, List.nil_append, List.cons.injEq] at heq
    exact ⟨rfl, heq.2⟩
  | [], _ :: _, rest, rest', _, _, heq => by
    rw [encoded_nil, encoded_cons, List.nil_append, List.cons_append, List.cons.injEq] at heq
    exact absurd heq.1 (by decide)
  | _ :: _, [], rest, rest', _, _, heq => by
    rw [encoded_nil, encoded_cons, List.nil_append, List.cons_append, List.cons.injEq] at heq
    exact absurd heq.1 (by decide)
  | b :: bs, b' :: bs', rest, rest', h, h', heq => by
    rw [encoded_cons, encoded_cons, List.cons_append, List.cons_append, List.cons.injEq,
      List.append_assoc, List.append_assoc] at heq
    obtain ⟨rfl, htail⟩ :=
      append_inj b b' h.1 h'.1 (follows_textAll bs rest) (follows_textAll bs' rest') heq.2
    obtain ⟨rfl, rfl⟩ := appendAll_inj bs bs' h.2 h'.2 htail
    exact ⟨rfl, rfl⟩

end

/-- A text in brackets is the text of one tree. -/
theorem text_inj {b b' : Bracketed} (h : b.Legal) (h' : b'.Legal)
    (heq : b.text = b'.text) : b = b' :=
  (@append_inj b b' [] [] h h' (by simp [Follows]) (by simp [Follows]) (by rw [heq])).1

end Bracketed

/-! ## Expressions as texts in brackets -/

namespace Bracketed

mutual

/-- The expression that a text in brackets stands for. -/
def expr? : Bracketed → Option Expr
  | word text => Expr.ofWord? text
  | node head parts => (exprs? parts).bind (Expr.ofNode? head)

/-- The expressions that texts in brackets stand for. -/
def exprs? : List Bracketed → Option (List Expr)
  | [] => some []
  | part :: rest => part.expr?.bind fun e => (exprs? rest).map (e :: ·)

end

end Bracketed

namespace Expr

mutual

/-- An expression as a text in brackets. -/
def bracketed : Expr → Bracketed
  | literal _ value => .word value.render
  | unary _ _ mark right => .node mark.text [right.bracketed]
  | binary _ _ mark left right => .node mark.text [left.bracketed, right.bracketed]
  | logical _ _ mark left right => .node mark.text [left.bracketed, right.bracketed]
  | grouping _ inner => .node "group" [inner.bracketed]
  | var _ name => .word name.text
  | assign _ name value => .node "=" [.word name.text, value.bracketed]
  | call _ callee _ arguments => .node "call" (callee.bracketed :: bracketedAll arguments)
  | get _ object name => .node "." [object.bracketed, .word name.text]
  | set _ object name value => .node ".=" [object.bracketed, .word name.text, value.bracketed]
  | this _ _ => .word "this"
  | super _ _ method => .node "super" [.word method.text]

/-- Expressions as texts in brackets. -/
def bracketedAll : List Expr → List Bracketed
  | [] => []
  | e :: rest => e.bracketed :: bracketedAll rest

end

/-- The first part of a node, with what stands in front of it. -/
theorem text_node_cons (head : String) (part : Bracketed) (rest : List Bracketed) :
    (Bracketed.node head (part :: rest)).text =
      "(" ++ head ++ " " ++ part.text ++ Bracketed.textAll rest ++ ")" := by
  simp only [Bracketed.text, Bracketed.textAll, String.append_assoc]

mutual

/-- An expression is written as its text in brackets. -/
theorem text_bracketed : (e : Expr) → e.bracketed.text = e.render
  | literal _ _ => rfl
  | unary _ _ _ right => by
    rw [bracketed, text_node_cons, text_bracketed right, Bracketed.textAll,
      String.append_empty, render]
  | binary _ _ _ left right => by
    rw [bracketed, text_node_cons, text_bracketed left, Bracketed.textAll, text_bracketed right,
      Bracketed.textAll, String.append_empty, ← String.append_assoc, render]
  | logical _ _ _ left right => by
    rw [bracketed, text_node_cons, text_bracketed left, Bracketed.textAll, text_bracketed right,
      Bracketed.textAll, String.append_empty, ← String.append_assoc, render]
  | grouping _ inner => by
    have hhead : "(" ++ "group" ++ " " = "(group " := by decide
    rw [bracketed, text_node_cons, text_bracketed inner, Bracketed.textAll, String.append_empty,
      hhead, render]
  | var _ _ => rfl
  | assign _ _ value => by
    have hhead : "(" ++ "=" ++ " " = "(= " := by decide
    rw [bracketed, text_node_cons, Bracketed.text, Bracketed.textAll, text_bracketed value,
      Bracketed.textAll, String.append_empty, ← String.append_assoc, hhead, render]
  | call _ callee _ arguments => by
    have hhead : "(" ++ "call" ++ " " = "(call " := by decide
    rw [bracketed, text_node_cons, text_bracketed callee, textAll_bracketedAll arguments,
      hhead, render]
  | get _ object _ => by
    have hhead : "(" ++ "." ++ " " = "(. " := by decide
    rw [bracketed, text_node_cons, text_bracketed object, Bracketed.textAll, Bracketed.text,
      Bracketed.textAll, String.append_empty, ← String.append_assoc, hhead, render]
  | set _ object _ value => by
    have hhead : "(" ++ ".=" ++ " " = "(.= " := by decide
    rw [bracketed, text_node_cons, text_bracketed object, Bracketed.textAll, Bracketed.text,
      Bracketed.textAll,
      text_bracketed value, Bracketed.textAll, String.append_empty, ← String.append_assoc,
      ← String.append_assoc, ← String.append_assoc, hhead, render]
  | this _ _ => rfl
  | super _ _ _ => by
    have hhead : "(" ++ "super" ++ " " = "(super " := by decide
    rw [bracketed, text_node_cons, Bracketed.text, Bracketed.textAll, String.append_empty,
      hhead, render]

theorem textAll_bracketedAll : (es : List Expr) → Bracketed.textAll (bracketedAll es) = renderAll es
  | [] => rfl
  | e :: rest => by
    rw [bracketedAll, Bracketed.textAll, text_bracketed e, textAll_bracketedAll rest, renderAll]

end

/-! ## Reading a text in brackets -/

theorem ofNode?_unary (op : UnaryOp) (right : Expr) :
    ofNode? op.punctuator.text [right] = some (.unary 0 op ⟨op.punctuator.text, 0⟩ right) := by
  have hkind := Token.kindOf?_of_spelling (Spelling.punctuator op.punctuator)
  cases op <;> simp_all [ofNode?, UnaryOp.punctuator, Punctuator.text, UnaryOp.ofKind?]

theorem ofNode?_binary (op : BinaryOp) (left right : Expr) :
    ofNode? op.punctuator.text [left, right] =
      some (.binary 0 op ⟨op.punctuator.text, 0⟩ left right) := by
  have hkind := Token.kindOf?_of_spelling (Spelling.punctuator op.punctuator)
  cases op <;> simp_all [ofNode?, BinaryOp.punctuator, Punctuator.text, Operator.ofKind?,
    Operator.apply]

theorem ofNode?_logical (op : LogicalOp) (left right : Expr) :
    ofNode? op.keyword.text [left, right] =
      some (.logical 0 op ⟨op.keyword.text, 0⟩ left right) := by
  have hkind := Token.kindOf?_of_spelling (Spelling.keyword op.keyword)
  cases op <;> simp_all [ofNode?, LogicalOp.keyword, Keyword.text, Operator.ofKind?, Operator.apply]

end Expr

/-- The kinds of tokens that are words. -/
def Token.Kind.isWord : Token.Kind → Bool
  | .punctuator .leftParen | .punctuator .rightParen | .string _ | .eof => false
  | _ => true

namespace Bracketed

theorem isDelimiter_of_isWordByte (b : UInt8) : Segment.isWordByte b = true →
    isDelimiter b = false := by
  revert b
  exact Segment.forall_byte (by decide +kernel)

theorem isDelimiter_of_isDigit {b : UInt8} (h : Segment.isDigit b = true) : isDelimiter b = false :=
  isDelimiter_of_isWordByte b (by rw [Segment.isWordByte, h, Bool.or_true])

theorem isDelimiter_of_isLetter {b : UInt8} (h : Segment.isLetter b = true) :
    isDelimiter b = false :=
  isDelimiter_of_isWordByte b (Segment.isWordByte_of_isLetter h)

theorem isDelimiter_of_mark (b : UInt8) : ∀ mark ∈ Punctuator.ofChar? (Segment.char b),
    (Token.Kind.punctuator mark).isWord = true ∨ mark.withEqual? ≠ none →
    isDelimiter b = false := by
  revert b
  exact Segment.forall_byte (by decide +kernel)

theorem isDelimiter_of_equal (b : UInt8) : Segment.char b = '=' → isDelimiter b = false := by
  revert b
  exact Segment.forall_byte (by decide +kernel)

/-- Tokens, other than strings and brackets, are words. -/
theorem isWord_of_spelling {kind : Token.Kind} {text : String}
    (h : Spelling kind text.toUTF8.toList) (hkind : kind.isWord = true) : IsWord text := by
  obtain ⟨b, rest, hbytes, hshape⟩ := h.shape
  rw [IsWord, hbytes]
  refine ⟨List.cons_ne_nil _ _, List.forall_mem_cons.2 ?_⟩
  cases hshape with
  | mark hb => exact ⟨isDelimiter_of_mark b _ hb (.inl hkind), List.forall_mem_nil _⟩
  | markEqual hb hlonger hc =>
    have hne := Option.ne_none_iff_exists'.2 ⟨_, hlonger⟩
    exact ⟨isDelimiter_of_mark b _ hb (.inr hne),
      List.forall_mem_singleton.2 (isDelimiter_of_equal _ hc)⟩
  | word hletter hrest =>
    exact ⟨isDelimiter_of_isLetter hletter, fun c hc => isDelimiter_of_isWordByte c (hrest c hc)⟩
  | string => cases hkind
  | whole hdigit hdigits =>
    exact ⟨isDelimiter_of_isDigit hdigit, fun c hc => isDelimiter_of_isDigit (hdigits c hc)⟩
  | decimal hdigit hdigits hdigit' hfraction =>
    refine ⟨isDelimiter_of_isDigit hdigit, List.forall_mem_append.2
      ⟨fun c hc => isDelimiter_of_isDigit (hdigits c hc), List.forall_mem_cons.2 ⟨rfl, ?_⟩⟩⟩
    exact List.forall_mem_cons.2
      ⟨isDelimiter_of_isDigit hdigit', fun c hc => isDelimiter_of_isDigit (hfraction c hc)⟩

/-- The text in brackets can be taken apart, and it stands for the expression. -/
def Reads (b : Bracketed) (e : Expr) : Prop := b.Legal ∧ b.expr? = some e

theorem allLegal_of_reads {parts : List Bracketed} {es : List Expr}
    (h : List.Forall₂ Reads parts es) : AllLegal parts ∧ exprs? parts = some es := by
  induction h with
  | nil => exact ⟨trivial, rfl⟩
  | cons hpart _ ih =>
    refine ⟨⟨hpart.1, ih.1⟩, ?_⟩
    rw [exprs?, hpart.2, ih.2]
    rfl

theorem Reads.word {kind : Token.Kind} {text : String} {e : Expr}
    (h : Spelling kind text.toUTF8.toList) (hkind : kind.isWord = true)
    (he : Expr.ofWord? text = some e) : Reads (word text) e :=
  ⟨isWord_of_spelling h hkind, he⟩

theorem Reads.node {head : String} {parts : List Bracketed} {es : List Expr} {e : Expr}
    (hhead : IsWord head) (hparts : List.Forall₂ Reads parts es)
    (he : Expr.ofNode? head es = some e) : Reads (node head parts) e := by
  obtain ⟨hlegal, hexprs⟩ := allLegal_of_reads hparts
  refine ⟨⟨hhead, hlegal⟩, ?_⟩
  rw [expr?, hexprs]
  exact he

end Bracketed

/-! ## Expressions that are read from a source -/

/-- The symbol can be written down: some text is spelled as its kind, and it is the text of its
    lexeme. -/
def Symbol.IsSpelled (symbol : Symbol) : Prop :=
  ∃ text : String, Spelling symbol.kind text.toUTF8.toList ∧ ∀ l ∈ symbol.lexeme, l.text = text

theorem Symbol.isSpelled_of_spells {symbol : Symbol} {t : Token} (h : symbol.Spells t)
    (ht : t.Spelled) :
    symbol.IsSpelled :=
  ⟨t.lexeme, h.1 ▸ ht, fun l hl => by rw [← h.2 l hl]; rfl⟩

theorem Spelled.isSpelled {symbols : List Symbol} {tokens : List Token} (h : Spelled symbols tokens)
    (ht : ∀ t ∈ tokens, t.Spelled) : ∀ symbol ∈ symbols, symbol.IsSpelled := by
  induction h with
  | nil => exact List.forall_mem_nil _
  | cons hspells _ ih =>
    obtain ⟨ht, htokens⟩ := List.forall_mem_cons.1 ht
    exact List.forall_mem_cons.2 ⟨Symbol.isSpelled_of_spells hspells ht, ih htokens⟩

/-- The symbols of an expression that is read from a source can be written down. -/
theorem Expr.isSpelled_of_parse {source : List UInt8} {firstId : Nat} {e : Expr}
    (h : (parse (.ofTokens (Token.scanAll source).1 firstId)).1 = .ok e) :
    ∀ symbol ∈ e.yield, symbol.IsSpelled := by
  refine (wellFormed_of_parse h).2.isSpelled fun t ht => ?_
  have hmem := (List.takeWhile_sublist _).subset ht
  have heof := List.mem_takeWhile_imp ht
  rw [Token.scanAll_tokens, List.mem_append, List.mem_singleton] at hmem
  rcases hmem with hmem | rfl
  · exact Token.spelled_of_mem_within hmem
  · cases heof

namespace Segment

variable {bytes : List UInt8}

theorem Spelling.bytes_of_punctuator {mark : Punctuator} (h : Spelling (.punctuator mark) bytes) :
    bytes = mark.text.toUTF8.toList := by
  generalize hkind : Token.Kind.punctuator mark = kind at h
  cases h with
  | punctuator => cases hkind; rfl
  | keyword | identifier | string => cases hkind
  | whole | decimal => rw [numberKind] at hkind; cases hkind

theorem Spelling.bytes_of_keyword {word : Keyword} (h : Spelling (.keyword word) bytes) :
    bytes = word.text.toUTF8.toList := by
  generalize hkind : Token.Kind.keyword word = kind at h
  cases h with
  | keyword => cases hkind; rfl
  | punctuator | identifier | string => cases hkind
  | whole | decimal => rw [numberKind] at hkind; cases hkind

end Segment

namespace Symbol

variable {l : Lexeme}

theorem text_of_punctuator {mark : Punctuator} (h : IsSpelled ⟨.punctuator mark, some l⟩) :
    l.text = mark.text := by
  obtain ⟨text, hspelling, htext⟩ := h
  rw [htext l rfl]
  exact Text.toUTF8_injective hspelling.bytes_of_punctuator

theorem text_of_keyword {word : Keyword} (h : IsSpelled ⟨.keyword word, some l⟩) :
    l.text = word.text := by
  obtain ⟨text, hspelling, htext⟩ := h
  rw [htext l rfl]
  exact Text.toUTF8_injective hspelling.bytes_of_keyword

theorem spelling_of_name (h : IsSpelled (.name l)) : Spelling .identifier l.text.toUTF8.toList := by
  obtain ⟨text, hspelling, htext⟩ := h
  rw [htext l rfl]
  exact hspelling

end Symbol

/-- A value whose text can be told from those of all other values: no string, and no number beyond
    all finite ones. -/
def Literal.Legible : Literal → Prop
  | .number x => x.isFinite = true
  | .string _ => False
  | _ => True

theorem Literal.spelling_render {value : Literal} (hvalue : value.Legible)
    (h : Symbol.IsSpelled ⟨value.kind, none⟩) : Spelling value.kind value.render.toUTF8.toList := by
  obtain ⟨text, hspelling, -⟩ := h
  rcases value with x | contents | (_ | _) | _
  · exact Number.spelling_inTree hvalue (Segment.Spelling.isNegative_eq_false hspelling)
  · cases hvalue
  · exact .keyword .false
  · exact .keyword .true
  · exact .keyword .nil

namespace Expr

mutual

/-- All values in the expression are legible. -/
def Legible : Expr → Prop
  | literal _ value => value.Legible
  | unary _ _ _ right => right.Legible
  | binary _ _ _ left right => left.Legible ∧ right.Legible
  | logical _ _ _ left right => left.Legible ∧ right.Legible
  | grouping _ inner => inner.Legible
  | var _ _ => True
  | assign _ _ value => value.Legible
  | call _ callee _ arguments => callee.Legible ∧ AllLegible arguments
  | get _ object _ => object.Legible
  | set _ object _ value => object.Legible ∧ value.Legible
  | this _ _ => True
  | super _ _ _ => True

/-- All values in the expressions are legible. -/
def AllLegible : List Expr → Prop
  | [] => True
  | e :: rest => e.Legible ∧ AllLegible rest

end

/-- Expressions without the identities of their nodes and without lines. -/
def bareAll (es : List Expr) : List Expr := unnumberedAll (relabelAll .flat es)

theorem reads_name {name : Lexeme} (h : Symbol.IsSpelled (.name name)) :
    Bracketed.Reads (.word name.text) (.var 0 ⟨name.text, 0⟩) := by
  have hspelling := Symbol.spelling_of_name h
  refine .word hspelling rfl ?_
  rw [ofWord?, Token.kindOf?_of_spelling hspelling]

/-- A legible literal is read back. -/
theorem reads_literal {value : Literal} (hvalue : value.Legible)
    (h : Symbol.IsSpelled ⟨value.kind, none⟩) :
    Bracketed.Reads (.word value.render) (.literal 0 value) := by
  have hspelling := Literal.spelling_render hvalue h
  refine .word hspelling ?_ ?_
  · rcases value with x | contents | (_ | _) | _
    · rfl
    · cases hvalue
    all_goals rfl
  · rw [ofWord?, Token.kindOf?_of_spelling hspelling]
    rcases value with x | contents | (_ | _) | _
    all_goals rfl

mutual

/-- The text of an expression that can be written down stands for that expression. -/
theorem reads_bracketed : (e : Expr) → (∀ symbol ∈ e.yield, symbol.IsSpelled) → e.Legible →
    Bracketed.Reads e.bracketed e.bare
  | literal _ value, h, hl => reads_literal hl (h _ List.mem_cons_self)
  | unary _ op mark right, h, hl => by
    obtain ⟨hmark, hright⟩ := List.forall_mem_cons.1 h
    have htext := Symbol.text_of_punctuator hmark
    refine .node ?_ (.cons (reads_bracketed right hright hl) .nil) ?_
    · rw [htext]
      exact Bracketed.isWord_of_spelling (.punctuator _) (by cases op <;> rfl)
    · rw [htext, ofNode?_unary, ← htext]
      rfl
  | binary _ op mark left right, h, hl => by
    obtain ⟨hleft, hright⟩ := List.forall_mem_append.1 h
    obtain ⟨hmark, hright⟩ := List.forall_mem_cons.1 hright
    have htext := Symbol.text_of_punctuator hmark
    refine .node ?_
      (.cons (reads_bracketed left hleft hl.1) (.cons (reads_bracketed right hright hl.2) .nil)) ?_
    · rw [htext]
      exact Bracketed.isWord_of_spelling (.punctuator _) (by cases op <;> rfl)
    · rw [htext, ofNode?_binary, ← htext]
      rfl
  | logical _ op mark left right, h, hl => by
    obtain ⟨hleft, hright⟩ := List.forall_mem_append.1 h
    obtain ⟨hmark, hright⟩ := List.forall_mem_cons.1 hright
    have htext := Symbol.text_of_keyword hmark
    refine .node ?_
      (.cons (reads_bracketed left hleft hl.1) (.cons (reads_bracketed right hright hl.2) .nil)) ?_
    · rw [htext]
      exact Bracketed.isWord_of_spelling (.keyword _) rfl
    · rw [htext, ofNode?_logical, ← htext]
      rfl
  | grouping _ inner, h, hl => by
    have hinner := (List.forall_mem_append.1 (List.forall_mem_cons.1 h).2).1
    exact .node (by decide +kernel) (.cons (reads_bracketed inner hinner hl) .nil) rfl
  | var _ name, h, _ => reads_name (h _ List.mem_cons_self)
  | assign _ name value, h, hl => by
    obtain ⟨hname, hvalue⟩ := List.forall_mem_cons.1 h
    have hvalue := reads_bracketed value (List.forall_mem_cons.1 hvalue).2 hl
    exact .node (by decide +kernel) (.cons (reads_name hname) (.cons hvalue .nil)) rfl
  | call id callee paren arguments, h, hl => by
    obtain ⟨hcallee, harguments⟩ := List.forall_mem_append.1 h
    obtain ⟨harguments, hparen⟩ := List.forall_mem_append.1 (List.forall_mem_cons.1 harguments).2
    -- The closing bracket is not shown, but there is only one way to write it.
    have htext : paren.text = ")" := Symbol.text_of_punctuator (hparen _ List.mem_cons_self)
    refine .node (by decide +kernel)
      (.cons (reads_bracketed callee hcallee hl.1) (reads_bracketedAll arguments harguments hl.2))
        ?_
    have hbare : (call id callee paren arguments).bare =
        .call 0 callee.bare ⟨paren.text, 0⟩ (bareAll arguments) := rfl
    rw [hbare, htext]
    rfl
  | get _ object name, h, hl => by
    obtain ⟨hobject, hname⟩ := List.forall_mem_append.1 h
    have hname := reads_name ((List.forall_mem_cons.1 hname).2 _ List.mem_cons_self)
    exact .node (by decide +kernel)
      (.cons (reads_bracketed object hobject hl) (.cons hname .nil)) rfl
  | set _ object name value, h, hl => by
    obtain ⟨hobject, hname⟩ := List.forall_mem_append.1 h
    obtain ⟨hname, hvalue⟩ := List.forall_mem_cons.1 (List.forall_mem_cons.1 hname).2
    have hvalue := reads_bracketed value (List.forall_mem_cons.1 hvalue).2 hl.2
    exact .node (by decide +kernel)
      (.cons (reads_bracketed object hobject hl.1) (.cons (reads_name hname) (.cons hvalue .nil)))
        rfl
  | this id keyword, h, _ => by
    have htext : keyword.text = "this" := Symbol.text_of_keyword (h _ List.mem_cons_self)
    have hspelling : Spelling (.keyword .this) "this".toUTF8.toList := .keyword .this
    have hbare : (this id keyword).bare = .this 0 ⟨keyword.text, 0⟩ := rfl
    refine .word hspelling rfl ?_
    rw [hbare, htext, ofWord?, Token.kindOf?_of_spelling hspelling]
  | super id keyword method, h, _ => by
    obtain ⟨hkeyword, hmethod⟩ := List.forall_mem_cons.1 h
    have htext : keyword.text = "super" := Symbol.text_of_keyword hkeyword
    have hmethod := reads_name ((List.forall_mem_cons.1 hmethod).2 _ List.mem_cons_self)
    have hbare : (super id keyword method).bare = .super 0 ⟨keyword.text, 0⟩ ⟨method.text, 0⟩ := rfl
    refine .node (by decide +kernel) (.cons hmethod .nil) ?_
    rw [hbare, htext]
    rfl

theorem reads_bracketedAll : (es : List Expr) → (∀ symbol ∈ yieldAll es, symbol.IsSpelled) →
    AllLegible es →
    List.Forall₂ Bracketed.Reads (bracketedAll es) (bareAll es)
  | [], _, _ => .nil
  | [e], h, hl => .cons (reads_bracketed e h hl.1) .nil
  | e :: e' :: rest, h, hl => by
    rw [yieldAll_cons_cons] at h
    obtain ⟨he, hrest⟩ := List.forall_mem_append.1 h
    exact .cons (reads_bracketed e he hl.1)
      (reads_bracketedAll (e' :: rest) (List.forall_mem_cons.1 hrest).2 hl.2)

end

mutual

/-- Identities and lines are not written. -/
theorem render_bare : (e : Expr) → e.bare.render = e.render
  | literal _ _ | var _ _ | this _ _ | super _ _ _ => rfl
  | unary _ _ mark right => congrArg (fun text => "(" ++ mark.text ++ " " ++ text ++ ")")
      (render_bare right)
  | binary _ _ mark left right =>
    congrArg₂ (fun text text' => "(" ++ mark.text ++ " " ++ text ++ " " ++ text' ++ ")")
      (render_bare left)
      (render_bare right)
  | logical _ _ mark left right =>
    congrArg₂ (fun text text' => "(" ++ mark.text ++ " " ++ text ++ " " ++ text' ++ ")")
      (render_bare left)
      (render_bare right)
  | grouping _ inner => congrArg (fun text => "(group " ++ text ++ ")") (render_bare inner)
  | assign _ name value => congrArg (fun text => "(= " ++ name.text ++ " " ++ text ++ ")")
      (render_bare value)
  | call _ callee _ arguments =>
    congrArg₂ (fun text text' => "(call " ++ text ++ text' ++ ")") (render_bare callee)
      (renderAll_bareAll arguments)
  | get _ object name => congrArg (fun text => "(. " ++ text ++ " " ++ name.text ++ ")")
      (render_bare object)
  | set _ object name value =>
    congrArg₂ (fun text text' => "(.= " ++ text ++ " " ++ name.text ++ " " ++ text' ++ ")")
      (render_bare object)
      (render_bare value)

theorem renderAll_bareAll : (es : List Expr) → renderAll (bareAll es) = renderAll es
  | [] => rfl
  | e :: rest => congrArg₂ (fun text text' => " " ++ text ++ text') (render_bare e)
      (renderAll_bareAll rest)

end

/-- Expressions in brackets are unambiguous. Take two expressions that are read from sources,
    whatever errors were found in scanning these, and that have no strings and no numbers beyond all
    finite ones. They are written in the same way if and only if they are the same up to identities
    and lines. -/
theorem render_eq_iff_bare_eq {source source' : List UInt8} {firstId firstId' : Nat} {e e' : Expr}
    (h : (parse (.ofTokens (Token.scanAll source).1 firstId)).1 = .ok e)
    (h' : (parse (.ofTokens (Token.scanAll source').1 firstId')).1 = .ok e')
    (hl : e.Legible) (hl' : e'.Legible) : e.render = e'.render ↔ e.bare = e'.bare := by
  constructor
  · intro heq
    obtain ⟨hlegal, hread⟩ := reads_bracketed e (isSpelled_of_parse h) hl
    obtain ⟨hlegal', hread'⟩ := reads_bracketed e' (isSpelled_of_parse h') hl'
    rw [← text_bracketed, ← text_bracketed] at heq
    rw [Bracketed.text_inj hlegal hlegal' heq, hread'] at hread
    exact (Option.some.inj hread).symm
  · intro heq
    rw [← render_bare e, heq, render_bare e']

/-- One text on one line and on three, with names that look like heads. -/
theorem render_eq_iff_bare_eq_layout :
    ∃ e e', (parse (.ofTokens (Token.scanAll "call(group).x=-nil".toUTF8.toList).1 0)).1 = .ok e ∧
      (parse (.ofTokens (Token.scanAll "call(\ngroup) .x =\n-nil".toUTF8.toList).1 7)).1 = .ok e' ∧
      e.Legible ∧ e'.Legible ∧ e.render = e'.render ∧ e.bare = e'.bare := by
  have h : (parse (.ofTokens (Token.scanAll "call(group).x=-nil".toUTF8.toList).1 0)).1 =
      .ok (.set 6 (.call 2 (.var 0 ⟨"call", 1⟩) ⟨")", 1⟩ [.var 1 ⟨"group", 1⟩]) ⟨"x", 1⟩
        (.unary 5 .negate ⟨"-", 1⟩ (.literal 4 .nil))) := by
    cbv
  have h' : (parse (.ofTokens (Token.scanAll "call(\ngroup) .x =\n-nil".toUTF8.toList).1 7)).1 =
      .ok (.set 13 (.call 9 (.var 7 ⟨"call", 1⟩) ⟨")", 2⟩ [.var 8 ⟨"group", 2⟩]) ⟨"x", 2⟩
        (.unary 12 .negate ⟨"-", 3⟩ (.literal 11 .nil))) := by
    cbv
  refine ⟨_, _, h, h', ?_, ?_, rfl, (render_eq_iff_bare_eq h h' ?_ ?_).1 rfl⟩
  all_goals exact ⟨⟨trivial, trivial, trivial⟩, trivial⟩

end Expr

end Lox
