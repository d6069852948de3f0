import Mathlib
import Lox.Proofs.Fuel

/-!
# Expressions as they are written

The symbols of an expression, from left to right (`Expr.yield`), are what has to be written down for
it: kinds of tokens, and for names and operators also their lexemes. A tree can be written down
without adding parentheses if its parts bind tightly enough for their places (`Expr.WellFormed`).

Such trees and the lists of tokens that can be read as expressions are the same thing. Reading a
list of tokens yields a well-formed tree whose symbols the tokens spell (`Read.exprSound`).

* `Read.Yields`: what a reader takes if there are no errors in the end, and how this goes along with
  the steps of a reader (`Read.Yields.bind`, `Read.accept_bind_yields`, `Read.YieldsAt.skip_bind`);
* `Read.ExprSound`: what the readers of expressions take.
-/

namespace Lox

/-- What has to be written down: a kind of token, and its lexeme where the tree keeps it. -/
structure Symbol where
  /-- The kind. -/
  kind : Token.Kind
  /-- The lexeme, if it is known. -/
  lexeme : Option Lexeme

namespace Symbol

/-- A punctuator, however it is written. -/
def mark (mark : Punctuator) : Symbol := ⟨.punctuator mark, none⟩

/-- A name. -/
def name (lexeme : Lexeme) : Symbol := ⟨.identifier, some lexeme⟩

/-- The token is what the symbol asks for. -/
def Spells (symbol : Symbol) (t : Token) : Prop :=
  t.kind = symbol.kind ∧ ∀ l ∈ symbol.lexeme, t.toLexeme = l

end Symbol

/-- The tokens are what the symbols ask for, one by one. -/
abbrev Spelled (symbols : List Symbol) (tokens : List Token) : Prop :=
  List.Forall₂ Symbol.Spells symbols tokens

/-- The kind of token that a literal is. -/
def Literal.kind : Literal → Token.Kind
  | .number value => .number value
  | .string contents => .string contents
  | .bool true => .keyword .true
  | .bool false => .keyword .false
  | .nil => .keyword .nil

theorem Literal.kind_ne_eof (value : Literal) : value.kind ≠ .eof := by
  rcases value with _ | _ | (_ | _) | _ <;> simp [Literal.kind]

/-- A token is a literal if it is of the kind of that literal. -/
theorem Literal.ofKind?_eq_some {kind : Token.Kind} {value : Literal} :
    ofKind? kind = some value ↔ kind = value.kind := by
  refine ⟨fun h => ?_, ?_⟩
  · unfold ofKind? at h
    split at h <;> cases h <;> rfl
  · rintro rfl
    rcases value with _ | _ | (_ | _) | _ <;> rfl

/-- A token is an operator with one operand if it is the mark of that operator. -/
theorem UnaryOp.ofKind?_eq_some {kind : Token.Kind} {op : UnaryOp} :
    ofKind? kind = some op ↔ kind = .punctuator op.punctuator := by
  refine ⟨fun h => ?_, ?_⟩
  · unfold ofKind? at h
    split at h <;> cases h <;> rfl
  · rintro rfl
    cases op <;> rfl

namespace Operator

/-- The kind of token that an operator is written as. -/
def kind : Operator → Token.Kind
  | binary op => .punctuator op.punctuator
  | logical op => .keyword op.keyword

/-- A token is an operator with two operands if it is of the kind of that operator. -/
theorem ofKind?_eq_some {kind : Token.Kind} {op : Operator} :
    ofKind? kind = some op ↔ kind = op.kind := by
  refine ⟨fun h => ?_, ?_⟩
  · unfold ofKind? at h
    split at h <;> cases h <;> rfl
  · rintro rfl
    rcases op with op | op <;> cases op <;> rfl

theorem level_le (op : Operator) : op.level ≤ 5 := by
  rcases op with op | op <;> cases op <;> decide

end Operator

namespace Expr

mutual

/-- The symbols of an expression. -/
def yield : Expr → List Symbol
  | literal _ value => [⟨value.kind, none⟩]
  | unary _ op mark right => ⟨.punctuator op.punctuator, some mark⟩ :: right.yield
  | binary _ op mark left right =>
    left.yield ++ ⟨.punctuator op.punctuator, some mark⟩ :: right.yield
  | logical _ op mark left right => left.yield ++ ⟨.keyword op.keyword, some mark⟩ :: right.yield
  | grouping _ inner => .mark .leftParen :: (inner.yield ++ [.mark .rightParen])
  | var _ name => [.name name]
  | assign _ name value => .name name :: .mark .equal :: value.yield
  | call _ callee paren arguments =>
    callee.yield ++ .mark .leftParen ::
      (yieldAll arguments ++ [⟨.punctuator .rightParen, some paren⟩])
  | get _ object name => object.yield ++ [.mark .dot, .name name]
  | set _ object name value =>
    object.yield ++ .mark .dot :: .name name :: .mark .equal :: value.yield
  | this _ keyword => [⟨.keyword .this, some keyword⟩]
  | super _ keyword method => [⟨.keyword .super, some keyword⟩, .mark .dot, .name method]

/-- The symbols of expressions with commas between them. -/
def yieldAll : List Expr → List Symbol
  | [] => []
  | [e] => e.yield
  | e :: rest => e.yield ++ .mark .comma :: yieldAll rest

end

/-- How tightly an expression binds: an assignment the least, then the operators between operands by
    their levels, those in front of an operand, calls and properties, and all else. -/
def rank : Expr → Nat
  | assign _ _ _ => 0
  | set _ _ _ _ => 0
  | logical _ op _ _ _ => (Operator.logical op).level + 1
  | binary _ op _ _ _ => (Operator.binary op).level + 1
  | unary _ _ _ _ => 7
  | call _ _ _ _ => 8
  | get _ _ _ => 8
  | _ => 9

mutual

/-- Every part binds tightly enough for its place: operators between operands group to the left,
    assignments to the right, and no call has too many arguments. -/
def WellFormed : Expr → Prop
  | unary _ _ _ right => right.WellFormed ∧ 7 ≤ right.rank
  | binary _ op _ left right =>
    left.WellFormed ∧ right.WellFormed ∧ (Operator.binary op).level + 1 ≤ left.rank ∧
      (Operator.binary op).level + 2 ≤ right.rank
  | logical _ op _ left right =>
    left.WellFormed ∧ right.WellFormed ∧ (Operator.logical op).level + 1 ≤ left.rank ∧
      (Operator.logical op).level + 2 ≤ right.rank
  | grouping _ inner => inner.WellFormed
  | assign _ _ value => value.WellFormed
  | call _ callee _ arguments =>
    callee.WellFormed ∧ 8 ≤ callee.rank ∧ AllWellFormed arguments ∧ arguments.length ≤ maxArity
  | get _ object _ => object.WellFormed ∧ 8 ≤ object.rank
  | set _ object _ value => object.WellFormed ∧ 8 ≤ object.rank ∧ value.WellFormed
  | _ => True

/-- All of the expressions are well-formed. -/
def AllWellFormed : List Expr → Prop
  | [] => True
  | e :: rest => e.WellFormed ∧ AllWellFormed rest

end

mutual

/-- An expression without the identities of its nodes: they are all the same. -/
def unnumbered : Expr → Expr
  | literal _ value => literal 0 value
  | unary _ op mark right => unary 0 op mark right.unnumbered
  | binary _ op mark left right => binary 0 op mark left.unnumbered right.unnumbered
  | logical _ op mark left right => logical 0 op mark left.unnumbered right.unnumbered
  | grouping _ inner => grouping 0 inner.unnumbered
  | var _ name => var 0 name
  | assign _ name value => assign 0 name value.unnumbered
  | call _ callee paren arguments => call 0 callee.unnumbered paren (unnumberedAll arguments)
  | get _ object name => get 0 object.unnumbered name
  | set _ object name value => set 0 object.unnumbered name value.unnumbered
  | this _ keyword => this 0 keyword
  | super _ keyword method => super 0 keyword method

/-- Expressions without the identities of their nodes. -/
def unnumberedAll : List Expr → List Expr
  | [] => []
  | e :: rest => e.unnumbered :: unnumberedAll rest

end

/-- An operator stands between its operands. -/
theorem yield_apply (op : Operator) (id : Nat) (mark : Lexeme) (left right : Expr) :
    (op.apply id mark left right).yield = left.yield ++ ⟨op.kind, some mark⟩ :: right.yield := by
  cases op <;> rfl

theorem rank_apply (op : Operator) (id : Nat) (mark : Lexeme) (left right : Expr) :
    (op.apply id mark left right).rank = op.level + 1 := by
  cases op <;> rfl

/-- Operators group to the left: the operand on the right binds tighter, the one on the left as
    tight. -/
theorem wellFormed_apply {op : Operator} {id : Nat} {mark : Lexeme} {left right : Expr} :
    (op.apply id mark left right).WellFormed ↔
      left.WellFormed ∧ right.WellFormed ∧ op.level + 1 ≤ left.rank ∧
      op.level + 2 ≤ right.rank := by
  cases op <;> exact Iff.rfl

/-- A comma is written before every expression but the first. -/
theorem yieldAll_cons_cons (e e' : Expr) (rest : List Expr) :
    yieldAll (e :: e' :: rest) = e.yield ++ .mark .comma :: yieldAll (e' :: rest) := rfl

end Expr

/-- The tokens in front of `after` spell the symbols. -/
def Takes (before : List Token) (symbols : List Symbol) (after : List Token) : Prop :=
  ∃ tokens, before = tokens ++ after ∧ Spelled symbols tokens

namespace Takes

variable {before middle after : List Token} {symbols symbols' : List Symbol}

theorem nil (tokens : List Token) : Takes tokens [] tokens := ⟨[], rfl, .nil⟩

/-- What is taken in two parts is taken. -/
theorem append (h : Takes before symbols middle) (h' : Takes middle symbols' after) :
    Takes before (symbols ++ symbols') after := by
  obtain ⟨tokens, rfl, hs⟩ := h
  obtain ⟨tokens', rfl, hs'⟩ := h'
  exact ⟨tokens ++ tokens', (List.append_assoc _ _ _).symm, List.rel_append hs hs'⟩

/-- A token that spells a symbol is taken first. -/
theorem cons {t : Token} {symbol : Symbol} (ht : symbol.Spells t) (h : Takes middle symbols after) :
    Takes (t :: middle) (symbol :: symbols) after := by
  obtain ⟨tokens, rfl, hs⟩ := h
  exact ⟨t :: tokens, rfl, .cons ht hs⟩

theorem single {t : Token} {symbol : Symbol} (ht : symbol.Spells t) :
    Takes (t :: after) [symbol] after :=
  .cons ht (.nil after)

end Takes

variable {t : Token}

theorem Symbol.spells_mark {mark : Punctuator} :
    (Symbol.mark mark).Spells t ↔ t.kind = .punctuator mark := by
  simp [Symbol.mark, Spells]

theorem Symbol.spells_some {kind : Token.Kind} {l : Lexeme} :
    (Symbol.mk kind (some l)).Spells t ↔ t.kind = kind ∧ t.toLexeme = l := by
  simp [Spells]

theorem Symbol.spells_none {kind : Token.Kind} :
    (Symbol.mk kind none).Spells t ↔ t.kind = kind := by
  simp [Spells]

theorem Symbol.spells_name {l : Lexeme} :
    (Symbol.name l).Spells t ↔ t.kind = .identifier ∧ t.toLexeme = l :=
  spells_some

/-- No operator of the given level or a tighter one comes next. -/
def NoOperator (level : Nat) (rest : List Token) : Prop :=
  ∀ t rest' op, rest = t :: rest' → Operator.ofKind? t.kind = some op → op.level < level

namespace Read

variable {α β : Type}

variable {cause : ParseError.Cause} {Q : α → List Symbol → Prop} {r : Read α}
    {P : α → List Symbol → List Token → Prop}

/-- A token that was expected and is there is taken. -/
theorem takes_of_expect {kind : Token.Kind} {s s₁ : Cursor} {l : Lexeme}
    (h : expect kind cause s = .ok l s₁) : Takes s.rest [⟨kind, some l⟩] s₁.rest := by
  obtain ⟨t, rest, hr, hk, rfl, rfl⟩ := expect_eq_ok.1 h
  rw [hr]
  exact .single (Symbol.spells_some.2 ⟨hk, rfl⟩)

theorem takes_of_expectMark {mark : Punctuator} {s s₁ : Cursor} {l : Lexeme}
    (h : expectMark mark cause s = .ok l s₁) : Takes s.rest [.mark mark] s₁.rest := by
  obtain ⟨t, rest, hr, hk, rfl, rfl⟩ := expect_eq_ok.1 h
  rw [hr]
  exact .single (Symbol.spells_mark.2 hk)

/-! ### What is read is what is written -/

/-- A reading without errors takes symbols of which `P` holds, given also what was read and the
    tokens that are left. -/
structure YieldsThen (r : Read α) (P : α → List Symbol → List Token → Prop) : Prop where
  advances : r.Advances
  takes : ∀ ⦃s : Cursor⦄ ⦃a : α⦄ ⦃s₁ : Cursor⦄, s.Proper → r s = .ok a s₁ → s₁.errors = #[] →
    ∃ symbols, Takes s.rest symbols s₁.rest ∧ P a symbols s₁.rest

/-- The same for what does not depend on the tokens that are left. -/
def Yields (r : Read α) (P : α → List Symbol → Prop) : Prop :=
  YieldsThen r fun a symbols _ => P a symbols

section

variable {r r' : Read α} {P P' : α → List Symbol → List Token → Prop}
  {Q Q' : α → List Symbol → Prop}

/-- What a reader yields may be weakened. -/
theorem YieldsThen.mono (h : YieldsThen r P)
    (hp : ∀ a symbols rest, P a symbols rest → P' a symbols rest) : YieldsThen r P' where
  advances := h.advances
  takes _ _ _ hs hr he := by
    obtain ⟨symbols, ht, h⟩ := h.takes hs hr he
    exact ⟨symbols, ht, hp _ _ _ h⟩

theorem Yields.mono (h : Yields r Q) (hq : ∀ a symbols, Q a symbols → Q' a symbols) :
    Yields r Q' :=
  YieldsThen.mono h fun a symbols _ => hq a symbols

variable {f : α → Read β}

/-- The symbols of two readings, one after the other. -/
theorem Yields.bindThen {P : α → β → List Symbol → List Token → Prop} (hr : Yields r Q)
    (hf : ∀ a, YieldsThen (f a) (P a)) :
    YieldsThen (r >>= f) fun b symbols rest => ∃ a first second, symbols = first ++ second ∧
      Q a first ∧ P a b second rest where
  advances := hr.advances.bind fun a => (hf a).advances
  takes s b s₂ hs h he := by
    obtain ⟨a, s₁, h₁, h₂⟩ := bind_eq_ok.1 h
    have hm₁ := hr.advances.of_ok h₁
    have he₁ := ((hf a).advances.of_ok h₂).errors_eq he
    obtain ⟨first, ht₁, hq⟩ := hr.takes hs h₁ he₁
    obtain ⟨second, ht₂, hp⟩ := (hf a).takes (hm₁.proper hs) h₂ he
    exact ⟨first ++ second, ht₁.append ht₂, a, first, second, rfl, hq, hp⟩

/-- A reader after another takes its symbols after those of the first. -/
theorem Yields.bind {S : α → β → List Symbol → Prop} (hr : Yields r Q)
    (hf : ∀ a, Yields (f a) (S a)) :
    Yields (r >>= f) fun b symbols => ∃ a first second, symbols = first ++ second ∧
      Q a first ∧ S a b second :=
  hr.bindThen hf

/-- A reader that only has a result takes nothing. -/
theorem Yields.pure (a : α) : Yields (Pure.pure a) fun b symbols => b = a ∧ symbols = [] where
  advances := .pure a
  takes s b s₁ _ h _ := by
    obtain ⟨rfl, rfl⟩ := pure_eq_ok.1 h
    exact ⟨[], .nil _, rfl, rfl⟩

/-- A function of the result takes nothing more. -/
theorem Yields.map (f : α → β) (h : Yields r Q) :
    Yields (f <$> r) fun b symbols => ∃ a, b = f a ∧ Q a symbols where
  advances := h.advances.map f
  takes s b s₁ hs hr he := by
    rw [map_eq_ok] at hr
    obtain ⟨a, hr, rfl⟩ := hr
    obtain ⟨symbols, ht, hq⟩ := h.takes hs hr he
    exact ⟨symbols, ht, a, rfl, hq⟩

/-- A function of the result changes neither what is taken nor what is left. -/
theorem YieldsThen.bind_pure (f : α → β) (h : YieldsThen r P) :
    YieldsThen (r >>= fun a => pure (f a)) fun b symbols rest =>
      ∃ a, b = f a ∧ P a symbols rest where
  advances := h.advances.bind fun _ => .pure _
  takes s b s₁ hs hr he := by
    rw [bind_eq_ok] at hr
    obtain ⟨a, s₂, hr, hp⟩ := hr
    obtain ⟨rfl, rfl⟩ := pure_eq_ok.1 hp
    obtain ⟨symbols, ht, hp⟩ := h.takes hs hr he
    exact ⟨symbols, ht, a, rfl, hp⟩

theorem YieldsThen.fail (cause : ParseError.Cause) : YieldsThen (Read.fail cause) P where
  advances := fail_advances cause
  takes _ _ _ _ h := by cases h

end

/-- Numbering an expression takes nothing. -/
theorem freshId_yields : Yields freshId fun _ symbols => symbols = [] where
  advances := freshId_advances
  takes s _ s₁ _ h _ := by
    obtain ⟨-, rfl⟩ := freshId_eq_ok.1 h
    exact ⟨[], .nil _, rfl⟩

/-- A token that is expected is taken with its lexeme. -/
theorem expect_yields (kind : Token.Kind) (cause : ParseError.Cause) :
    Yields (expect kind cause) fun l symbols => symbols = [⟨kind, some l⟩] where
  advances := expect_advances kind cause
  takes _ _ _ _ h _ := ⟨_, takes_of_expect h, rfl⟩

/-- A mark that is expected is taken. -/
theorem expectMark_yields (mark : Punctuator) (cause : ParseError.Cause) :
    Yields (expectMark mark cause) fun _ symbols => symbols = [.mark mark] where
  advances := expectMark_advances mark cause
  takes _ _ _ _ h _ := ⟨_, takes_of_expectMark h, rfl⟩

/-- A count that is checked was not too large, or there is an error. -/
theorem checkCount_yields (count : Nat) (cause : ParseError.Cause) :
    Yields (checkCount count cause) fun _ symbols => count < maxArity ∧ symbols = [] where
  advances := checkCount_advances count cause
  takes _ _ _ _ h he := by
    obtain ⟨hr, -, hc⟩ := checkCount_eq_ok h
    exact ⟨[], hr ▸ .nil _, (hc he).1, rfl⟩

/-- What is read with the token if one of some kind comes next, and what is read else. -/
theorem accept_bind_yields {kind : Token.Kind} {f : Option Token → Read α}
    {P : Token → α → List Symbol → Prop} (h : ∀ t, Yields (f (some t)) (P t))
    (h' : Yields (f none) Q) :
    Yields (accept kind >>= f) fun a symbols =>
      (∃ t more, symbols = ⟨kind, none⟩ :: more ∧ P t a more) ∨ Q a symbols := by
  constructor
  · refine (accept_advances kind).bind fun found => ?_
    cases found with
    | some t => exact (h t).advances
    | none => exact h'.advances
  · intro s a s₁ hs hr he
    rw [bind_eq_ok] at hr
    obtain ⟨found, s₂, h₂, hr⟩ := hr
    have hm₂ := (accept_advances kind).of_ok h₂
    rcases accept_eq_ok.1 h₂ with ⟨rfl, rfl, -⟩ | ⟨t, rest, hrest, hk, rfl, rfl⟩
    · obtain ⟨symbols, ht, hq⟩ := h'.takes hs hr he
      exact ⟨symbols, ht, .inr hq⟩
    · obtain ⟨symbols, ht, hp⟩ := (h t).takes (hm₂.proper hs) hr he
      exact ⟨_, hrest ▸ .cons (Symbol.spells_none.2 hk) ht, .inl ⟨t, symbols, rfl, hp⟩⟩

/-- What is read if a token of some kind comes next, and what is read else. -/
theorem accept_yields {kind : Token.Kind} {r' : Read α} {P : α → List Symbol → Prop}
    (h : Yields r P) (h' : Yields r' Q) :
    Yields (accept kind >>= fun found => if found.isSome then r else r') fun a symbols =>
      (∃ more, symbols = ⟨kind, none⟩ :: more ∧ P a more) ∨ Q a symbols := by
  refine (accept_bind_yields (f := fun found => if found.isSome then r else r')
    (fun _ => h) h').mono ?_
  rintro a symbols (⟨_, hp⟩ | hq)
  · exact .inl hp
  · exact .inr hq

/-- What is read after an operator if one comes next, and what is read else. -/
theorem acceptUnary_bind_yields {f : Option (UnaryOp × Lexeme) → Read α}
    {P : UnaryOp → Lexeme → α → List Symbol → Prop}
    (h : ∀ op mark, Yields (f (some (op, mark))) (P op mark)) (h' : Yields (f none) Q) :
    Yields (acceptUnary >>= f) fun a symbols =>
      (∃ op mark more, symbols = ⟨.punctuator op.punctuator, some mark⟩ :: more ∧
        P op mark a more) ∨
        Q a symbols := by
  constructor
  · refine acceptUnary_advances.bind fun found => ?_
    rcases found with _ | ⟨op, mark⟩
    · exact h'.advances
    · exact (h op mark).advances
  · intro s a s₁ hs hr he
    rw [bind_eq_ok] at hr
    obtain ⟨found, s₂, h₂, hr⟩ := hr
    have hm₂ := acceptUnary_advances.of_ok h₂
    rcases acceptUnary_eq_ok.1 h₂ with ⟨rfl, rfl, -⟩ | ⟨t, rest, op, hrest, ho, rfl, rfl⟩
    · obtain ⟨symbols, ht, hq⟩ := h'.takes hs hr he
      exact ⟨symbols, ht, .inr hq⟩
    · obtain ⟨symbols, ht, hp⟩ := (h op t.toLexeme).takes (hm₂.proper hs) hr he
      have hsp : (Symbol.mk (.punctuator op.punctuator) (some t.toLexeme)).Spells t :=
        Symbol.spells_some.2 ⟨UnaryOp.ofKind?_eq_some.1 ho, rfl⟩
      exact ⟨_, hrest ▸ .cons hsp ht, .inl ⟨op, _, symbols, rfl, hp⟩⟩

/-- What is read depending on a test, which takes no token. -/
theorem test_yields {test : Read Bool} {p : Cursor → Bool} (htest : ∀ s, test s = .ok (p s) s)
    {r' : Read α} {Q' : α → List Symbol → Prop} (h : Yields r Q) (h' : Yields r' Q') :
    Yields (do if ← test then r else r') fun a symbols => Q a symbols ∨ Q' a symbols := by
  constructor
  · refine Advances.bind (fun s => ?_) fun seen => ?_
    · rw [after_of_ok (htest s)]
      exact .refl s
    · split
      · exact h.advances
      · exact h'.advances
  · intro s a s₁ hs hr he
    rw [bind_of_ok (htest s)] at hr
    split at hr
    · obtain ⟨symbols, ht, hq⟩ := h.takes hs hr he
      exact ⟨symbols, ht, .inl hq⟩
    · obtain ⟨symbols, ht, hq⟩ := h'.takes hs hr he
      exact ⟨symbols, ht, .inr hq⟩

/-- What is read at a given token. -/
structure YieldsAt (t : Token) (r : Read α) (P : α → List Symbol → List Token → Prop) : Prop where
  advances : r.Advances
  takes : ∀ ⦃s : Cursor⦄ ⦃a : α⦄ ⦃s₁ : Cursor⦄, s.Proper → s.peek = t → r s = .ok a s₁ →
    s₁.errors = #[] → ∃ symbols, Takes s.rest symbols s₁.rest ∧ P a symbols s₁.rest

theorem YieldsThen.at (h : YieldsThen r P) (t : Token) : YieldsAt t r P :=
  ⟨h.advances, fun _ _ _ hs _ hr he => h.takes hs hr he⟩

/-- The token that is skipped is taken. -/
theorem YieldsAt.skip_bind {t : Token} {symbol : Symbol} {f : Unit → Read α}
    {P' : α → List Symbol → List Token → Prop} (hsp : symbol.Spells t) (ht : t.kind ≠ .eof)
    (hf : YieldsThen (f ()) P)
    (hp : ∀ a symbols rest, P a symbols rest → P' a (symbol :: symbols) rest) :
    YieldsAt t (skip >>= f) P' where
  advances := skip_advances.bind fun _ => hf.advances
  takes s a s₁ hs hp' h he := by
    subst hp'
    have hr := hs.rest_eq ht
    rw [Read.skip_bind] at h
    obtain ⟨symbols, htakes, hP⟩ := hf.takes ((skip_advances s).proper hs) h he
    exact ⟨symbol :: symbols, hr ▸ .cons hsp htakes, hp _ _ _ hP⟩

/-- What is read may depend on the next token. -/
theorem YieldsThen.peek_bind {f : Token → Read α} (hf : ∀ t, YieldsAt t (f t) P) :
    YieldsThen (peek >>= f) P where
  advances := peek_advances.bind fun t => (hf t).advances
  takes s _ _ hs h he := (hf s.peek).takes hs rfl h he

/-! ### Expressions -/

/-- A value is assigned to a variable or to a property, or there is an error. -/
theorem assignTo_yields (target : Expr) (mark : Lexeme) (value : Expr) :
    Yields (assignTo target mark value) fun e symbols => symbols = [] ∧
      ((∃ id id' name, target = .var id name ∧ e = .assign id' name value) ∨
        ∃ id id' object name, target = .get id object name ∧ e = .set id' object name value) := by
  unfold assignTo
  split
  · refine (freshId_yields.bind fun id => .pure _).mono ?_
    rintro e _ ⟨id, _, _, rfl, rfl, rfl, rfl⟩
    exact ⟨rfl, .inl ⟨_, _, _, rfl, rfl⟩⟩
  · refine (freshId_yields.bind fun id => .pure _).mono ?_
    rintro e _ ⟨id, _, _, rfl, rfl, rfl, rfl⟩
    exact ⟨rfl, .inr ⟨_, _, _, _, rfl, rfl⟩⟩
  · -- There is an error then.
    refine ⟨(report_advances _ _).bind fun _ => .pure _, fun s e s₁ _ h he => ?_⟩
    obtain ⟨u, s₂, h₂, h⟩ := bind_eq_ok.1 h
    obtain ⟨-, rfl⟩ := pure_eq_ok.1 h
    rw [report_eq_ok] at h₂
    subst h₂
    exact absurd he (by simp)

/-- After `super`, a dot and the name of a method are taken. -/
theorem superMethod_yields (keyword : Lexeme) :
    Yields (superMethod keyword) fun e symbols => ∃ id method, e = .super id keyword method ∧
      symbols = [.mark .dot, .name method] := by
  refine ((expectMark_yields _ _).bind fun _ => (expect_yields _ _).bind fun method =>
    freshId_yields.bind fun id => .pure _).mono ?_
  rintro e _ ⟨_, _, _, rfl, rfl, method, _, _, rfl, rfl, id, _, _, rfl, rfl, rfl, rfl⟩
  exact ⟨id, method, rfl, rfl⟩

/-- What the readers of expressions have read, if there are no errors in the end. Operators follow
    an operand that has taken all tighter ones, so what they yield depends on the tokens in front of
    them. -/
structure ExprSound (fuel : Nat) : Prop where
  assignment : Yields (assignment fuel) fun e symbols => e.WellFormed ∧ symbols = e.yield
  operand : ∀ level ≤ 6, YieldsThen (operand fuel level) fun e symbols rest =>
    (e.WellFormed ∧ symbols = e.yield) ∧ level + 1 ≤ e.rank ∧ NoOperator level rest
  operators : ∀ ⦃level left s e s₁⦄, s.Proper → operators fuel level left s = .ok e s₁ →
    s₁.errors = #[] → left.WellFormed → level + 1 ≤ left.rank → NoOperator left.rank s.rest →
    ∃ symbols, Takes s.rest symbols s₁.rest ∧
      (e.WellFormed ∧ e.yield = left.yield ++ symbols) ∧ level + 1 ≤ e.rank ∧
      NoOperator level s₁.rest
  unary : Yields (unary fuel) fun e symbols => (e.WellFormed ∧ symbols = e.yield) ∧ 7 ≤ e.rank
  calls : ∀ callee, Yields (calls fuel callee) fun e symbols => callee.WellFormed →
      8 ≤ callee.rank →
    (e.WellFormed ∧ e.yield = callee.yield ++ symbols) ∧ 8 ≤ e.rank
  arguments : Yields (arguments fuel) fun es symbols =>
    Expr.AllWellFormed es ∧ es.length ≤ maxArity ∧ symbols = Expr.yieldAll es
  moreArguments : ∀ done, Yields (moreArguments fuel done) fun es symbols =>
    ∃ e more, es = done.toList ++ e :: more ∧ Expr.AllWellFormed (e :: more) ∧
    es.length ≤ maxArity ∧
      symbols = Expr.yieldAll (e :: more)
  primary : Yields (primary fuel) fun e symbols => (e.WellFormed ∧ symbols = e.yield) ∧ 8 ≤ e.rank

/-- What the readers of expressions have read is well-formed, by induction on the fuel. -/
theorem exprSound (fuel : Nat) : ExprSound fuel := by
  induction fuel with
  | zero =>
    constructor
    case operators =>
      intros
      contradiction
    all_goals
      intros
      exact .fail _
  | succ fuel ih =>
    have adv := exprAdvances fuel
    constructor
    case assignment =>
      have hleft : Yields (Read.operand fuel 0) fun e symbols => e.WellFormed ∧ symbols = e.yield :=
        (ih.operand 0 (by omega)).mono fun _ _ _ h => h.1
      refine (hleft.bind fun left => accept_bind_yields (fun mark => ih.assignment.bind fun value =>
        assignTo_yields left mark.toLexeme value) (.pure left)).mono ?_
      rintro e _ ⟨left, _, _, rfl, ⟨hw, rfl⟩, ⟨_, _, rfl, value, _, _, rfl, ⟨hv, rfl⟩, rfl,
        ⟨id, id', name, rfl, rfl⟩ | ⟨id, id', object, name, rfl, rfl⟩⟩ | ⟨rfl, rfl⟩⟩
      · exact ⟨hv, by simp [Expr.yield, Symbol.mark]⟩
      · exact ⟨⟨hw.1, hw.2, hv⟩, by simp [Expr.yield, Symbol.mark]⟩
      · exact ⟨hw, List.append_nil _⟩
    case operand =>
      intro level hl
      refine ⟨(exprAdvances (fuel + 1)).operand level, fun s e s' hs h he => ?_⟩
      rw [Read.operand, bind_eq_ok] at h
      obtain ⟨left, s₁, h₁, h⟩ := h
      have he₁ := ((adv.operators level left).of_ok h).errors_eq he
      obtain ⟨_, ht₁, ⟨hw₁, rfl⟩, hk₁⟩ := ih.unary.takes hs h₁ he₁
      have hno : NoOperator left.rank s₁.rest := fun t rest op _ _ => by
        have := op.level_le
        omega
      obtain ⟨symbols, ht, ⟨hw, hy⟩, hk⟩ :=
        ih.operators ((adv.unary.of_ok h₁).proper hs) h he hw₁ (by omega) hno
      exact ⟨_, ht₁.append ht, ⟨hw, hy.symm⟩, hk⟩
    case operators =>
      intro level left s e s' hs h he hw hk hn
      rw [Read.operators, bind_eq_ok] at h
      obtain ⟨found, s₁, h₁, h⟩ := h
      have hm₁ := (acceptOperator_advances level).of_ok h₁
      rcases acceptOperator_eq_ok.1 h₁ with ⟨rfl, rfl, hno⟩ | ⟨t, rest, op, hr, ho, hl, rfl, rfl⟩
      · obtain ⟨rfl, rfl⟩ := pure_eq_ok.1 h
        exact ⟨[], .nil _, ⟨hw, (List.append_nil _).symm⟩, hk, hno⟩
      · obtain ⟨right, s₂, h₂, h⟩ := bind_eq_ok.1 h
        rw [freshId_bind] at h
        have hm₂ := ((adv.operand (op.level + 1)).of_ok h₂).trans (freshId_advances s₂)
        have he₂ := ((adv.operators _ _).of_ok h).errors_eq he
        have hlt := op.level_le
        obtain ⟨_, ht₂, ⟨hw₂, rfl⟩, hk₂, hn₂⟩ :=
          (ih.operand (op.level + 1) (by omega)).takes (hm₁.proper hs) h₂ he₂
        -- The operand on the right has taken all tighter operators, so the next one is looser.
        obtain ⟨symbols, ht, ⟨hw', hy⟩, hk'⟩ :=
          ih.operators ((hm₁.trans hm₂).proper hs) h he
            (Expr.wellFormed_apply.2 ⟨hw, hw₂, hn t rest op hr ho, hk₂⟩)
            (by rw [Expr.rank_apply]; omega) (by rw [Expr.rank_apply]; exact hn₂)
        have hsp : (Symbol.mk op.kind (some t.toLexeme)).Spells t :=
          Symbol.spells_some.2 ⟨Operator.ofKind?_eq_some.1 ho, rfl⟩
        refine ⟨⟨op.kind, some t.toLexeme⟩ :: (right.yield ++ symbols), ?_, ⟨hw', ?_⟩, hk'⟩
        · rw [hr]
          exact .cons hsp (ht₂.append ht)
        · rw [hy, Expr.yield_apply, List.append_assoc, List.cons_append]
    case unary =>
      refine (acceptUnary_bind_yields (fun op mark => ih.unary.bind fun right =>
        freshId_yields.bind fun id => .pure _) (ih.primary.bind fun callee => ih.calls callee)).mono
          ?_
      rintro e _ (⟨op, mark, _, rfl, right, _, _, rfl, ⟨⟨hw, rfl⟩, hk⟩, id, _, _, rfl,
        rfl, rfl, rfl⟩ |
        ⟨callee, _, symbols, rfl, ⟨⟨hw, rfl⟩, hk⟩, h⟩)
      · exact ⟨⟨⟨hw, hk⟩, by simp [Expr.yield]⟩, Nat.le_refl _⟩
      · obtain ⟨⟨hw', hy⟩, hk'⟩ := h hw hk
        exact ⟨⟨hw', hy.symm⟩, by omega⟩
    case calls =>
      refine fun callee => .peek_bind fun t => ?_
      split
      · next hp =>
        refine .skip_bind (Symbol.spells_mark.2 hp) (by simp [hp])
          (ih.arguments.bind fun arguments =>
          (expect_yields _ _).bind fun paren => freshId_yields.bind fun id => ih.calls _) ?_
        rintro e _ _ ⟨arguments, _, _, rfl, ⟨hw₁, hl₁, rfl⟩, paren, _, _, rfl, rfl, id, _,
          symbols, rfl, rfl, h⟩
          hw hk
        obtain ⟨⟨hw', hy⟩, hk'⟩ := h ⟨hw, hk, hw₁, hl₁⟩ (Nat.le_refl _)
        exact ⟨⟨hw', by simp [hy, Expr.yield]⟩, hk'⟩
      · next hp =>
        refine .skip_bind (Symbol.spells_mark.2 hp) (by simp [hp])
          ((expect_yields _ _).bind fun name =>
          freshId_yields.bind fun id => ih.calls _) ?_
        rintro e _ _ ⟨name, _, _, rfl, rfl, id, _, symbols, rfl, rfl, h⟩ hw hk
        obtain ⟨⟨hw', hy⟩, hk'⟩ := h ⟨hw, hk⟩ (Nat.le_refl _)
        exact ⟨⟨hw', by simp [hy, Expr.yield, Symbol.name]⟩, hk'⟩
      · refine YieldsThen.at ((Yields.pure callee).mono ?_) t
        rintro e _ ⟨rfl, rfl⟩ hw hk
        exact ⟨⟨hw, (List.append_nil _).symm⟩, hk⟩
    case arguments =>
      refine (test_yields (fun _ => rfl) (.pure []) (ih.moreArguments #[])).mono ?_
      rintro es _ (⟨rfl, rfl⟩ | ⟨e, more, rfl, hw, hl, rfl⟩)
      · exact ⟨trivial, Nat.zero_le _, rfl⟩
      · exact ⟨hw, hl, rfl⟩
    case moreArguments =>
      intro done
      rw [moreArguments_succ]
      refine ((checkCount_yields _ _).bind fun _ => ih.assignment.bind fun e =>
        accept_yields (ih.moreArguments (done.push e)) (.pure _)).mono ?_
      rintro es _ ⟨_, _, _, rfl, ⟨hc, rfl⟩, e, _, _, rfl, ⟨hw, rfl⟩,
        ⟨_, rfl, e', more, rfl, hw', hl, rfl⟩ | ⟨rfl, rfl⟩⟩
      · exact ⟨e, e' :: more, by simp, ⟨hw, hw'⟩, hl, rfl⟩
      · exact ⟨e, [], by simp, ⟨hw, trivial⟩, by simpa using hc, List.append_nil _⟩
    case primary =>
      refine .peek_bind fun t => ?_
      split
      · next value hv =>
        rw [Literal.ofKind?_eq_some] at hv
        refine .skip_bind (Symbol.spells_none.2 hv) (hv ▸ value.kind_ne_eof)
          (freshId_yields.bind fun id => .pure _) ?_
        rintro e _ _ ⟨id, _, _, rfl, rfl, rfl, rfl⟩
        exact ⟨⟨trivial, rfl⟩, Nat.le_succ 8⟩
      split
      · next hk =>
        refine .skip_bind (Symbol.spells_some.2 ⟨hk, rfl⟩) (by simp [hk])
          (freshId_yields.bind fun id => .pure _) ?_
        rintro e _ _ ⟨id, _, _, rfl, rfl, rfl, rfl⟩
        exact ⟨⟨trivial, rfl⟩, Nat.le_succ 8⟩
      · next hk =>
        refine .skip_bind (Symbol.spells_some.2 ⟨hk, rfl⟩) (by simp [hk]) (superMethod_yields _) ?_
        rintro e _ _ ⟨id, method, rfl, rfl⟩
        exact ⟨⟨trivial, rfl⟩, Nat.le_succ 8⟩
      · next hk =>
        refine .skip_bind (Symbol.spells_name.2 ⟨hk, rfl⟩) (by simp [hk])
          (freshId_yields.bind fun id => .pure _) ?_
        rintro e _ _ ⟨id, _, _, rfl, rfl, rfl, rfl⟩
        exact ⟨⟨trivial, rfl⟩, Nat.le_succ 8⟩
      · next hk =>
        refine .skip_bind (Symbol.spells_mark.2 hk) (by simp [hk]) (ih.assignment.bind fun inner =>
          (expectMark_yields _ _).bind fun _ => freshId_yields.bind fun id => .pure _) ?_
        rintro e _ _ ⟨inner, _, _, rfl, ⟨hw, rfl⟩, _, _, _, rfl, rfl, id, _, _, rfl, rfl, rfl, rfl⟩
        exact ⟨⟨hw, rfl⟩, Nat.le_succ 8⟩
      · exact YieldsThen.at (.fail _) t

end Read

end Lox
