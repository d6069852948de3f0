import Mathlib
import Lox.Proofs.Infix

/-!
# Reading back what is written

The tokens of a well-formed expression are read as that expression, whatever follows them, as long
as it does not continue the expression (`Expr.readable`). What continues an expression depends on
how tightly it binds: an operator that binds less tightly than the expression is no part of it, but
a parenthesis or a dot always is.

Operators and calls are read from left to right, by readers that get the part on the left. So the
statement for them is not that the expression is read, but that its tokens can be replaced by it
(`Reads`): the reader is then where it would be if it had been given the expression.
-/

namespace Lox

namespace Cursor

/-- The cursor after some tokens have been read and some expressions numbered. -/
def skipTo (s : Cursor) (rest : List Token) (n : Nat) : Cursor := { s with rest, nextId := n }

variable {s : Cursor} {rest rest' : List Token} {n m : Nat}

@[simp]
theorem rest_skipTo : (s.skipTo rest n).rest = rest := rfl

theorem Proper.skipTo_of_le (hs : s.Proper) (h : rest.length ≤ s.rest.length) :
    (s.skipTo rest n).Proper :=
  ⟨hs.eof, Nat.le_trans h hs.size⟩

theorem Proper.skipTo (hs : s.Proper) (h : rest <:+ s.rest) : (s.skipTo rest n).Proper :=
  hs.skipTo_of_le h.length_le

theorem peek_of_rest {t : Token} (h : s.rest = t :: rest) : s.peek = t := by
  rw [peek, h]
  rfl

end Cursor

namespace Takes

variable {before after : List Token} {symbol : Symbol} {symbols symbols' : List Symbol}

theorem of_nil (h : Takes before [] after) : before = after := by
  obtain ⟨tokens, rfl, hs⟩ := h
  cases hs
  rfl

theorem of_cons (h : Takes before (symbol :: symbols) after) :
    ∃ t middle, before = t :: middle ∧ symbol.Spells t ∧ Takes middle symbols after := by
  obtain ⟨tokens, rfl, hs⟩ := h
  cases hs with
  | cons ht hs => exact ⟨_, _, rfl, ht, _, rfl, hs⟩

theorem of_append (h : Takes before (symbols ++ symbols') after) :
    ∃ middle, Takes before symbols middle ∧ Takes middle symbols' after := by
  induction symbols generalizing before with
  | nil => exact ⟨before, .nil _, h⟩
  | cons symbol symbols ih =>
    obtain ⟨t, before, rfl, ht, h⟩ := of_cons h
    obtain ⟨middle, h₁, h₂⟩ := ih h
    exact ⟨middle, .cons ht h₁, h₂⟩

theorem suffix (h : Takes before symbols after) : after <:+ before := by
  obtain ⟨tokens, rfl, -⟩ := h
  exact List.suffix_append tokens after

end Takes

/-- The kinds of tokens with which an expression can start. -/
def Token.Kind.startsExpr : Token.Kind → Bool
  | .identifier | .string _ | .number _ => true
  | .keyword .true | .keyword .false | .keyword .nil | .keyword .this | .keyword .super => true
  | .punctuator .leftParen | .punctuator .minus | .punctuator .bang => true
  | _ => false

/-- Every expression has a first token. -/
theorem Expr.exists_yield_cons (e : Expr) :
    ∃ symbol symbols, e.yield = symbol :: symbols ∧ symbol.kind.startsExpr = true := by
  have step : ∀ {e : Expr} {more : List Symbol},
      (∃ symbol symbols, e.yield = symbol :: symbols ∧ symbol.kind.startsExpr = true) →
        ∃ symbol symbols, e.yield ++ more = symbol :: symbols ∧ symbol.kind.startsExpr = true := by
    rintro e more ⟨symbol, symbols, hy, hk⟩
    exact ⟨symbol, symbols ++ more, by rw [hy, List.cons_append], hk⟩
  match e with
  | literal _ value =>
    refine ⟨_, _, rfl, ?_⟩
    rcases value with _ | _ | (_ | _) | _ <;> rfl
  | unary _ op _ _ => exact ⟨_, _, rfl, by cases op <;> rfl⟩
  | binary _ _ _ left _ => exact step left.exists_yield_cons
  | logical _ _ _ left _ => exact step left.exists_yield_cons
  | grouping _ _ => exact ⟨_, _, rfl, rfl⟩
  | var _ _ => exact ⟨_, _, rfl, rfl⟩
  | assign _ _ _ => exact ⟨_, _, rfl, rfl⟩
  | call _ callee _ _ => exact step callee.exists_yield_cons
  | get _ object _ => exact step object.exists_yield_cons
  | set _ object _ _ => exact step object.exists_yield_cons
  | this _ _ => exact ⟨_, _, rfl, rfl⟩
  | super _ _ _ => exact ⟨_, _, rfl, rfl⟩

/-! ### What can follow -/

/-- Neither arguments nor a property come next. -/
def NoCall (rest : List Token) : Prop :=
  ∀ t rest', rest = t :: rest' → t.kind ≠ .punctuator .leftParen ∧ t.kind ≠ .punctuator .dot

/-- Nothing that continues an expression comes next. -/
structure ExprEnds (rest : List Token) : Prop where
  call : NoCall rest
  operator : NoOperator 0 rest
  equal : ∀ t rest', rest = t :: rest' → t.kind ≠ .punctuator .equal

variable {t : Token} {rest tokens : List Token} {e : Expr}

theorem noCall_cons (hp : t.kind ≠ .punctuator .leftParen) (hd : t.kind ≠ .punctuator .dot) :
    NoCall (t :: rest) := by
  rintro t' rest' h
  cases h
  exact ⟨hp, hd⟩

theorem noOperator_cons {level : Nat}
    (h : ∀ op, Operator.ofKind? t.kind = some op → op.level < level) :
    NoOperator level (t :: rest) := by
  rintro t' rest' op h' ho
  cases h'
  exact h op ho

/-- A token that is no part of an expression ends it. -/
theorem exprEnds_cons (ho : Operator.ofKind? t.kind = none)
    (hk : ∀ mark ∈ [Punctuator.leftParen, .dot, .equal], t.kind ≠ .punctuator mark) :
    ExprEnds (t :: rest) where
  call := noCall_cons (hk _ (by simp)) (hk _ (by simp))
  operator := noOperator_cons fun op h => by
    rw [ho] at h
    cases h
  equal := by
    rintro t' rest' h
    cases h
    exact hk _ (by simp)

theorem exprEnds_nil : ExprEnds [] where
  call _ _ h := by cases h
  operator _ _ _ h := by cases h
  equal _ _ h := by cases h

theorem NoOperator.mono {level level' : Nat} (h : NoOperator level rest) (hl : level ≤ level') :
    NoOperator level' rest :=
  fun t rest' op hr ho => Nat.lt_of_lt_of_le (h t rest' op hr ho) hl

namespace Read

/-! ### Readers at given tokens -/

variable {s : Cursor} {t : Token} {rest : List Token} {kind : Token.Kind}

theorem accept_of_kind (hr : s.rest = t :: rest) (hk : t.kind = kind) :
    accept kind s = .ok (some t) (s.skipTo rest s.nextId) :=
  accept_eq_ok.2 (.inr ⟨t, rest, hr, hk, rfl, rfl⟩)

theorem accept_of_ne (h : ∀ t rest, s.rest = t :: rest → t.kind ≠ kind) :
    accept kind s = .ok none s := by
  refine accept_eq_ok.2 (.inl ⟨rfl, rfl, ?_⟩)
  rw [Bool.eq_false_iff, ne_eq, sees_eq_true]
  rintro ⟨t, rest, hr, hk⟩
  exact h t rest hr hk

theorem expect_of_kind (cause : ParseError.Cause) (hr : s.rest = t :: rest) (hk : t.kind = kind) :
    expect kind cause s = .ok t.toLexeme (s.skipTo rest s.nextId) :=
  expect_eq_ok.2 ⟨t, rest, hr, hk, rfl, rfl⟩

theorem expectMark_of_kind {mark : Punctuator} (cause : ParseError.Cause) (hr : s.rest = t :: rest)
    (hk : t.kind = .punctuator mark) :
    expectMark mark cause s = .ok t.toLexeme (s.skipTo rest s.nextId) :=
  expect_of_kind cause hr hk

theorem checkCount_of_lt {count : Nat} (cause : ParseError.Cause) (h : count < maxArity) :
    checkCount count cause = pure () := by
  rw [checkCount, if_neg (Nat.not_le.2 h)]

/-- Nothing is left to do for a reader of operators at what is no operator for it. -/
theorem freely_operators_end (hs : s.Proper) {level : Nat} (left : Expr)
    (h : NoOperator level s.rest) : freely (operators · level left) s = .ok left s := by
  have ha : acceptOperator level s = .ok none s := acceptOperator_eq_ok.2 (.inl ⟨rfl, rfl, h⟩)
  exact (freely_operators hs level left).trans (bind_of_ok ha)

theorem freely_calls_stop (hs : s.Proper) (callee : Expr) (h : NoCall s.rest) :
    freely (calls · callee) s = .ok callee s := by
  rcases hs.peek_cases with ⟨-, hk⟩ | ⟨rest, hr⟩
  · exact freely_calls_end callee (by simp [hk]) (by simp [hk])
  · obtain ⟨hp, hd⟩ := h _ _ hr
    exact freely_calls_end callee hp hd

/-- Without an operator in front, the reader goes on to calls. -/
theorem freely_unary_none (hs : s.Proper) (hr : s.rest = t :: rest)
    (ht : UnaryOp.ofKind? t.kind = none) :
    freely unary s = (do freely (calls · (← freely primary))) s := by
  have ha : acceptUnary s = .ok none s := by
    refine acceptUnary_eq_ok.2 (.inl ⟨rfl, rfl, fun t' rest' hr' => ?_⟩)
    cases hr.symm.trans hr'
    exact ht
  exact (freely_unary hs).trans (bind_of_ok ha)

/-! ### Expressions are read back -/

/-- The reader `r` at the tokens of `e` does what `k` does after them, which gets the expression
    that was read, if `ok` holds of the tokens that follow. -/
def Reads (e : Expr) (r : Read Expr) (k : Expr → Read Expr) (ok : List Token → Prop) : Prop :=
  ∀ ⦃s : Cursor⦄ ⦃rest : List Token⦄, s.Proper → Takes s.rest e.yield rest → ok rest →
    ∃ e' n, e'.unnumbered = e.unnumbered ∧ r s = k e' (s.skipTo rest n)

/-- How an expression is read in each place that it fits in. -/
structure Readable (e : Expr) : Prop where
  calls : 8 ≤ e.rank → Reads e (freely unary) (fun e' => freely (calls · e')) fun _ => True
  unary : 7 ≤ e.rank → Reads e (freely unary) pure NoCall
  operand : ∀ level, level + 1 ≤ e.rank →
    Reads e (freely (operand · level)) (fun e' => freely (operators · level e'))
      fun rest => NoCall rest ∧ NoOperator e.rank rest
  assignment : Reads e (freely assignment) pure ExprEnds

namespace Reads

variable {e : Expr}

/-- What ends with calls and properties is an operand of the operators in front. -/
theorem unary_of_calls (h : Reads e (freely unary) (fun e' => freely (calls · e')) fun _ => True) :
    Reads e (freely unary) pure NoCall := by
  intro s rest hs ht hok
  obtain ⟨e', n, he, hr⟩ := h hs ht trivial
  exact ⟨e', n, he, hr.trans (freely_calls_stop (hs.skipTo ht.suffix) e' hok)⟩

theorem operand_of_unary (h : Reads e (freely unary) pure NoCall) (level : Nat) :
    Reads e (freely (operand · level)) (fun e' => freely (operators · level e'))
      fun rest => NoCall rest ∧ NoOperator e.rank rest := by
  intro s rest hs ht hok
  obtain ⟨e', n, he, hr⟩ := h hs ht hok.1
  exact ⟨e', n, he, (freely_operand hs level).eq.trans (bind_of_ok hr)⟩

theorem assignment_of_operand
    (h : Reads e (freely (operand · 0)) (fun e' => freely (operators · 0 e'))
      fun rest => NoCall rest ∧ NoOperator e.rank rest) :
    Reads e (freely assignment) pure ExprEnds := by
  intro s rest hs ht hok
  obtain ⟨e', n, he, hr⟩ := h hs ht ⟨hok.call, hok.operator.mono (Nat.zero_le _)⟩
  have hs' : (s.skipTo rest n).Proper := hs.skipTo ht.suffix
  refine ⟨e', n, he, (freely_assignment hs).eq.trans ?_⟩
  refine (bind_of_ok (hr.trans (freely_operators_end hs' e' hok.operator))).trans ?_
  exact bind_of_ok (accept_of_ne hok.equal)

end Reads

namespace Readable

variable {e : Expr}

theorem of_calls (h : Reads e (freely Read.unary) (fun e' => freely (Read.calls · e'))
    fun _ => True) : Readable e where
  calls _ := h
  unary _ := h.unary_of_calls
  operand level _ := h.unary_of_calls.operand_of_unary level
  assignment := (h.unary_of_calls.operand_of_unary 0).assignment_of_operand

theorem of_unary (hr : e.rank < 8) (h : Reads e (freely Read.unary) pure NoCall) : Readable e where
  calls h8 := absurd h8 (Nat.not_le.2 hr)
  unary _ := h
  operand level _ := h.operand_of_unary level
  assignment := (h.operand_of_unary 0).assignment_of_operand

theorem of_operand (hr : 1 ≤ e.rank) (hu : e.rank < 7)
    (h : ∀ level, level + 1 ≤ e.rank →
      Reads e (freely (Read.operand · level)) (fun e' => freely (operators · level e'))
        fun rest => NoCall rest ∧ NoOperator e.rank rest) : Readable e where
  calls h8 := by omega
  unary h7 := by omega
  operand := h
  assignment := (h 0 hr).assignment_of_operand

theorem of_assignment (hr : e.rank = 0) (h : Reads e (freely Read.assignment) pure ExprEnds) :
    Readable e where
  calls h8 := by omega
  unary h7 := by omega
  operand level hl := by omega
  assignment := h

/-- An expression that is one operand is read without anything before it. -/
theorem of_primary
    (h : ∀ ⦃s : Cursor⦄ ⦃rest : List Token⦄, s.Proper → Takes s.rest e.yield rest →
      (∃ t rest', s.rest = t :: rest' ∧ UnaryOp.ofKind? t.kind = none) ∧
        ∃ e' n, e'.unnumbered = e.unnumbered ∧ freely primary s = .ok e' (s.skipTo rest n)) :
    Readable e := by
  refine of_calls fun s rest hs ht _ => ?_
  obtain ⟨⟨t, rest', hr, hk⟩, e', n, he, hp⟩ := h hs ht
  exact ⟨e', n, he, (freely_unary_none hs hr hk).trans (bind_of_ok hp)⟩

theorem literal (id : Nat) (value : Literal) : Readable (.literal id value) := by
  refine of_primary fun s rest hs ht => ?_
  obtain ⟨t, middle, hr, hk, ht⟩ := Takes.of_cons ht
  obtain rfl := ht.of_nil
  rw [Symbol.spells_none] at hk
  have hv : Literal.ofKind? s.peek.kind = some value := by
    rw [Cursor.peek_of_rest hr, Literal.ofKind?_eq_some, hk]
  refine ⟨⟨t, middle, hr, ?_⟩, .literal s.nextId value, s.nextId + 1, rfl, ?_⟩
  · rw [hk]
    rcases value with _ | _ | (_ | _) | _ <;> rfl
  · refine (freely_primary_literal hv).eq.trans ?_
    rw [skip_bind, freshId_bind, hr]
    rfl

theorem var (id : Nat) (name : Lexeme) : Readable (.var id name) := by
  refine of_primary fun s rest hs ht => ?_
  obtain ⟨t, middle, hr, hk, ht⟩ := Takes.of_cons ht
  obtain rfl := ht.of_nil
  rw [Symbol.spells_name] at hk
  obtain ⟨hk, rfl⟩ := hk
  have hp := Cursor.peek_of_rest hr
  refine ⟨⟨t, middle, hr, by rw [hk]; rfl⟩, .var s.nextId t.toLexeme, s.nextId + 1, rfl, ?_⟩
  refine (freely_primary_var (hp ▸ hk)).eq.trans ?_
  rw [skip_bind, freshId_bind, hr, hp]
  rfl

theorem this (id : Nat) (keyword : Lexeme) : Readable (.this id keyword) := by
  refine of_primary fun s rest hs ht => ?_
  obtain ⟨t, middle, hr, hk, ht⟩ := Takes.of_cons ht
  obtain rfl := ht.of_nil
  rw [Symbol.spells_some] at hk
  obtain ⟨hk, rfl⟩ := hk
  have hp := Cursor.peek_of_rest hr
  refine ⟨⟨t, middle, hr, by rw [hk]; rfl⟩, .this s.nextId t.toLexeme, s.nextId + 1, rfl, ?_⟩
  refine (freely_primary_this (hp ▸ hk)).eq.trans ?_
  rw [skip_bind, freshId_bind, hr, hp]
  rfl

theorem super (id : Nat) (keyword method : Lexeme) : Readable (.super id keyword method) := by
  refine of_primary fun s rest hs ht => ?_
  obtain ⟨t, rest₁, hr, hk, ht⟩ := Takes.of_cons ht
  obtain ⟨dot, rest₂, rfl, hdot, ht⟩ := Takes.of_cons ht
  obtain ⟨name, rest₃, rfl, hname, ht⟩ := Takes.of_cons ht
  obtain rfl := ht.of_nil
  rw [Symbol.spells_some] at hk
  obtain ⟨hk, rfl⟩ := hk
  rw [Symbol.spells_name] at hname
  obtain ⟨hname, rfl⟩ := hname
  have hp := Cursor.peek_of_rest hr
  refine ⟨⟨t, _, hr, by rw [hk]; rfl⟩, .super s.nextId t.toLexeme name.toLexeme,
    s.nextId + 1, rfl, ?_⟩
  refine (freely_primary_super (hp ▸ hk)).eq.trans ?_
  rw [skip_bind, hr, hp, superMethod]
  refine (bind_of_ok (expectMark_of_kind _ rfl (Symbol.spells_mark.1 hdot))).trans ?_
  exact bind_of_ok (expect_of_kind _ Cursor.rest_skipTo hname)

theorem grouping (id : Nat) {inner : Expr} (h : Readable inner) :
    Readable (.grouping id inner) := by
  refine of_primary fun s rest hs ht => ?_
  obtain ⟨t, rest₁, hr, hk, ht⟩ := Takes.of_cons ht
  obtain ⟨rest₂, ht₁, ht⟩ := ht.of_append
  obtain ⟨paren, rest₃, rfl, hparen, ht⟩ := Takes.of_cons ht
  obtain rfl := ht.of_nil
  rw [Symbol.spells_mark] at hk hparen
  have hp := Cursor.peek_of_rest hr
  have hs₁ : (s.skipTo rest₁ s.nextId).Proper := hs.skipTo (hr ▸ List.suffix_cons t rest₁)
  obtain ⟨e', n, he, hr'⟩ := h.assignment hs₁ ht₁
    (exprEnds_cons (by rw [hparen]; rfl) (by rw [hparen]; decide))
  refine ⟨⟨t, _, hr, by rw [hk]; rfl⟩, .grouping n e', n + 1, by rw [Expr.unnumbered, he,
    Expr.unnumbered], ?_⟩
  refine (freely_primary_paren hs (hp ▸ hk)).eq.trans ?_
  rw [skip_bind, hr]
  refine (bind_of_ok hr').trans ?_
  exact bind_of_ok (expectMark_of_kind _ rfl hparen)

theorem get (id : Nat) {object : Expr} (name : Lexeme) (hr : 8 ≤ object.rank)
    (h : Readable object) : Readable (.get id object name) := by
  refine of_calls fun s rest hs ht _ => ?_
  obtain ⟨rest₁, ht₁, ht⟩ := Takes.of_append ht
  obtain ⟨object', n, he, hr'⟩ := h.calls hr hs ht₁ trivial
  have hs₁ : (s.skipTo rest₁ n).Proper := hs.skipTo ht₁.suffix
  obtain ⟨dot, rest₂, rfl, hdot, ht⟩ := Takes.of_cons ht
  obtain ⟨t, rest₃, rfl, hk, ht⟩ := Takes.of_cons ht
  obtain rfl := ht.of_nil
  rw [Symbol.spells_name] at hk
  obtain ⟨hk, rfl⟩ := hk
  refine ⟨.get n object' t.toLexeme, n + 1, by rw [Expr.unnumbered, he, Expr.unnumbered], ?_⟩
  refine hr'.trans ((freely_calls_dot hs₁ object' (Symbol.spells_mark.1 hdot)).eq.trans ?_)
  rw [skip_bind]
  exact bind_of_ok (expect_of_kind _ rfl hk)

/-- What is read of a list of arguments, after those that are done. -/
theorem moreArguments {es : List Expr} (h : ∀ e ∈ es, Readable e) {done : Array Expr}
    (hne : es ≠ []) (hl : done.size + es.length ≤ maxArity) {s : Cursor} {paren : Token}
    {rest : List Token} (hs : s.Proper) (ht : Takes s.rest (Expr.yieldAll es) (paren :: rest))
    (hp : paren.kind = .punctuator .rightParen) :
    ∃ es' n, Expr.unnumberedAll es' = Expr.unnumberedAll es ∧
      freely (Read.moreArguments · done) s =
        .ok (done.toList ++ es') (s.skipTo (paren :: rest) n) := by
  induction es generalizing done s with
  | nil => exact absurd rfl hne
  | cons e es ih =>
    have he := h e (by simp)
    have hc : checkCount done.size .tooManyArguments = pure () :=
      checkCount_of_lt _ (by rw [List.length_cons] at hl; omega)
    match es, ih with
    | [], _ =>
      obtain ⟨e', n, he', hr⟩ := he.assignment hs ht
        (exprEnds_cons (by rw [hp]; rfl) (by rw [hp]; decide))
      refine ⟨[e'], n, by simp only [Expr.unnumberedAll, he'], ?_⟩
      refine (freely_moreArguments hs done).eq.trans ?_
      rw [hc]
      refine (bind_of_ok hr).trans ?_
      refine (bind_of_ok (accept_of_ne fun t rest' hr' => ?_)).trans ?_
      · cases hr'
        rw [hp]
        decide
      · rw [Option.isSome_none, if_neg (by decide), Array.toList_push]
        rfl
    | e₁ :: es, ih =>
      rw [Expr.yieldAll_cons_cons] at ht
      obtain ⟨rest₁, ht₁, ht⟩ := ht.of_append
      obtain ⟨comma, rest₂, rfl, hcomma, ht⟩ := ht.of_cons
      rw [Symbol.spells_mark] at hcomma
      obtain ⟨e', n, he', hr⟩ := he.assignment hs ht₁
        (exprEnds_cons (by rw [hcomma]; rfl) (by rw [hcomma]; decide))
      have hs₂ : (s.skipTo rest₂ n).Proper :=
        hs.skipTo ((List.suffix_cons comma rest₂).trans ht₁.suffix)
      have hl' : (done.push e').size + (e₁ :: es).length ≤ maxArity := by
        rw [List.length_cons] at hl
        rw [Array.size_push]
        omega
      obtain ⟨es', m, hes, hr'⟩ := ih (fun e he => h e (by simp_all)) (by simp) hl' hs₂ ht
      refine ⟨e' :: es', m, by rw [Expr.unnumberedAll, he', hes]; rfl, ?_⟩
      refine (freely_moreArguments hs done).eq.trans ?_
      rw [hc]
      refine (bind_of_ok hr).trans ?_
      refine (bind_of_ok (accept_of_kind rfl hcomma)).trans ?_
      refine hr'.trans ?_
      rw [Array.toList_push, List.append_assoc]
      rfl

/-- Arguments are read back before a parenthesis, if there are not too many. -/
theorem arguments {es : List Expr} (h : ∀ e ∈ es, Readable e) (hl : es.length ≤ maxArity)
    {s : Cursor} {paren : Token} {rest : List Token} (hs : s.Proper)
    (ht : Takes s.rest (Expr.yieldAll es) (paren :: rest))
    (hp : paren.kind = .punctuator .rightParen) :
    ∃ es' n, Expr.unnumberedAll es' = Expr.unnumberedAll es ∧
      freely Read.arguments s = .ok es' (s.skipTo (paren :: rest) n) := by
  have hf := (freely_arguments hs).eq
  rw [seesMark_bind] at hf
  match es with
  | [] =>
    have hr := ht.of_nil
    rw [sees_cons hr, decide_eq_true hp, if_pos rfl] at hf
    exact ⟨[], s.nextId, rfl, hf.trans (hr ▸ rfl)⟩
  | e :: es =>
    -- An argument does not start with a closing parenthesis.
    have hsees : s.sees (.punctuator .rightParen) = false := by
      obtain ⟨symbol, symbols, hy, hk⟩ := e.exists_yield_cons
      have hy' : ∃ more, Expr.yieldAll (e :: es) = symbol :: more := by
        cases es with
        | nil => exact ⟨symbols, hy⟩
        | cons e₁ es => exact ⟨_, by rw [Expr.yieldAll_cons_cons, hy, List.cons_append]⟩
      obtain ⟨more, hy'⟩ := hy'
      rw [hy'] at ht
      obtain ⟨t, middle, hr, ht, -⟩ := ht.of_cons
      rw [sees_cons hr, ht.1]
      refine decide_eq_false fun he => ?_
      rw [he] at hk
      cases hk
    rw [hsees, if_neg Bool.false_ne_true] at hf
    have hl' : (#[] : Array Expr).size + (e :: es).length ≤ maxArity := by simpa using hl
    obtain ⟨es', n, hes, hr⟩ := moreArguments h (List.cons_ne_nil e es) hl' hs ht hp
    exact ⟨es', n, hes, hf.trans hr⟩

/-- A call is read back if its parts are. -/
theorem call (id : Nat) {callee : Expr} (paren : Lexeme) {es : List Expr} (hr : 8 ≤ callee.rank)
    (h : Readable callee) (hes : ∀ e ∈ es, Readable e) (hl : es.length ≤ maxArity) :
    Readable (.call id callee paren es) := by
  refine of_calls fun s rest hs ht _ => ?_
  obtain ⟨rest₁, ht₁, ht⟩ := Takes.of_append ht
  obtain ⟨callee', n, he, hr'⟩ := h.calls hr hs ht₁ trivial
  have hs₁ : (s.skipTo rest₁ n).Proper := hs.skipTo ht₁.suffix
  obtain ⟨open', rest₂, rfl, hopen, ht⟩ := Takes.of_cons ht
  have hs₂ : (s.skipTo rest₂ n).Proper := hs₁.skipTo (List.suffix_cons open' rest₂)
  obtain ⟨rest₃, ht₂, ht⟩ := ht.of_append
  obtain ⟨close, rest₄, rfl, hclose, ht⟩ := Takes.of_cons ht
  obtain rfl := ht.of_nil
  rw [Symbol.spells_some] at hclose
  obtain ⟨hclose, rfl⟩ := hclose
  obtain ⟨es', m, hes', hargs⟩ := arguments hes hl hs₂ ht₂ hclose
  refine ⟨.call m callee' close.toLexeme es', m + 1,
    by rw [Expr.unnumbered, he, hes', Expr.unnumbered], ?_⟩
  refine hr'.trans ((freely_calls_paren hs₁ callee' (Symbol.spells_mark.1 hopen)).eq.trans ?_)
  rw [skip_bind]
  refine (bind_of_ok hargs).trans ?_
  exact bind_of_ok (expectMark_of_kind _ Cursor.rest_skipTo hclose)

theorem unaryOp (id : Nat) (op : UnaryOp) (mark : Lexeme) {right : Expr} (hr : 7 ≤ right.rank)
    (h : Readable right) : Readable (.unary id op mark right) := by
  refine of_unary (Nat.lt_succ_self 7) fun s rest hs ht hok => ?_
  obtain ⟨t, rest₁, hr₁, hk, ht₁⟩ := Takes.of_cons ht
  rw [Symbol.spells_some] at hk
  obtain ⟨hk, rfl⟩ := hk
  have hs₁ : (s.skipTo rest₁ s.nextId).Proper := hs.skipTo (hr₁ ▸ List.suffix_cons t rest₁)
  obtain ⟨right', n, he, hr'⟩ := h.unary hr hs₁ ht₁ hok
  have ha : acceptUnary s = .ok (some (op, t.toLexeme)) (s.skipTo rest₁ s.nextId) :=
    acceptUnary_eq_ok.2 (.inr ⟨t, rest₁, op, hr₁, UnaryOp.ofKind?_eq_some.2 hk, rfl, rfl⟩)
  refine ⟨.unary n op t.toLexeme right', n + 1, by rw [Expr.unnumbered, he, Expr.unnumbered], ?_⟩
  refine (freely_unary hs).eq.trans ((bind_of_ok ha).trans ?_)
  exact bind_of_ok hr'

theorem unnumbered_apply (op : Operator) (id : Nat) (mark : Lexeme) (left right : Expr) :
    (op.apply id mark left right).unnumbered =
      op.apply 0 mark left.unnumbered right.unnumbered := by
  cases op <;> rfl

/-- An operator between operands is read back if these bind tightly enough. -/
theorem apply (op : Operator) (id : Nat) (mark : Lexeme) {left right : Expr}
    (hl : op.level + 1 ≤ left.rank) (hr : op.level + 2 ≤ right.rank) (h : Readable left)
    (h' : Readable right) : Readable (op.apply id mark left right) := by
  have hlevel := op.level_le
  refine of_operand (by rw [Expr.rank_apply]; omega) (by rw [Expr.rank_apply]; omega) ?_
  intro level hlv s rest hs ht hok
  rw [Expr.rank_apply] at hlv hok
  rw [Expr.yield_apply] at ht
  obtain ⟨rest₁, ht₁, ht⟩ := ht.of_append
  obtain ⟨t, rest₂, rfl, hk, ht₂⟩ := Takes.of_cons ht
  rw [Symbol.spells_some] at hk
  obtain ⟨hk, rfl⟩ := hk
  have hop : Operator.ofKind? t.kind = some op := Operator.ofKind?_eq_some.2 hk
  -- The operand on the left is followed by the operator, which binds less tightly.
  have hok₁ : NoCall (t :: rest₂) ∧ NoOperator left.rank (t :: rest₂) := by
    refine ⟨noCall_cons ?_ ?_, noOperator_cons fun op' h => ?_⟩
    · rw [hk]; rcases op with op | op <;> cases op <;> decide
    · rw [hk]; rcases op with op | op <;> cases op <;> decide
    · cases hop.symm.trans h
      exact hl
  obtain ⟨left', n, he, hr₁⟩ := h.operand level (by omega) hs ht₁ hok₁
  have hs₁ : (s.skipTo (t :: rest₂) n).Proper := hs.skipTo ht₁.suffix
  have hs₂ : (s.skipTo rest₂ n).Proper := hs₁.skipTo (List.suffix_cons t rest₂)
  have ha : acceptOperator level (s.skipTo (t :: rest₂) n) =
      .ok (some (op, t.toLexeme)) (s.skipTo rest₂ n) :=
    acceptOperator_eq_ok.2 (.inr ⟨t, rest₂, op, rfl, hop, by omega, rfl, rfl⟩)
  obtain ⟨right', m, he', hr₂⟩ := h'.operand (op.level + 1) hr hs₂ ht₂
    ⟨hok.1, hok.2.mono (by omega)⟩
  have hs₃ : (s.skipTo rest m).Proper := hs₂.skipTo ht₂.suffix
  refine ⟨op.apply m t.toLexeme left' right', m + 1,
    by rw [unnumbered_apply, he, he', ← unnumbered_apply], ?_⟩
  refine hr₁.trans ((freely_operators hs₁ level left').eq.trans ((bind_of_ok ha).trans ?_))
  exact bind_of_ok (hr₂.trans (freely_operators_end hs₃ right' hok.2))

variable {value : Expr}

/-- An assignment is read as its target, which what is found afterwards turns into a target. -/
theorem assign_to {target : Expr} (hr : e.rank = 0) (ht : Readable target) (hv : Readable value)
    (htr : 1 ≤ target.rank) (hy : e.yield = target.yield ++ .mark .equal :: value.yield)
    (hto : ∀ target' value' mark s, target'.unnumbered = target.unnumbered →
      value'.unnumbered = value.unnumbered → ∃ e', e'.unnumbered = e.unnumbered ∧
      assignTo target' mark value' s = .ok e' (s.skipTo s.rest (s.nextId + 1))) :
    Readable e := by
  refine of_assignment hr fun s rest hs ht' hok => ?_
  rw [hy] at ht'
  obtain ⟨rest₁, ht₁, ht'⟩ := ht'.of_append
  obtain ⟨t, rest₂, rfl, hk, ht'⟩ := Takes.of_cons ht'
  rw [Symbol.spells_mark] at hk
  have hno : Operator.ofKind? t.kind = none := by rw [hk]; rfl
  have hok₁ : NoCall (t :: rest₂) := noCall_cons (by rw [hk]; decide) (by rw [hk]; decide)
  have hok₂ : ∀ level, NoOperator level (t :: rest₂) := fun level => noOperator_cons fun op h => by
    rw [hno] at h
    cases h
  obtain ⟨target', n, he, hr₁⟩ := ht.operand 0 htr hs ht₁ ⟨hok₁, hok₂ _⟩
  have hs₁ : (s.skipTo (t :: rest₂) n).Proper := hs.skipTo ht₁.suffix
  have hs₂ : (s.skipTo rest₂ n).Proper := hs₁.skipTo (List.suffix_cons t rest₂)
  obtain ⟨value', m, he', hr₂⟩ := hv.assignment hs₂ ht' hok
  obtain ⟨e', hee, hto⟩ := hto target' value' t.toLexeme (s.skipTo rest m) he he'
  refine ⟨e', m + 1, hee, (freely_assignment hs).eq.trans ?_⟩
  refine (bind_of_ok (hr₁.trans (freely_operators_end hs₁ target' (hok₂ 0)))).trans ?_
  refine (bind_of_ok (accept_of_kind rfl hk)).trans ?_
  exact (bind_of_ok hr₂).trans hto

theorem assign (id : Nat) (name : Lexeme) (h : Readable value) :
    Readable (.assign id name value) := by
  refine assign_to rfl (var 0 name) h (Nat.le_add_left 1 8) rfl
    fun target' value' mark s ht hv => ?_
  cases target' <;> cases ht
  exact ⟨_, by rw [Expr.unnumbered, hv]; rfl, rfl⟩

theorem set (id : Nat) {object : Expr} (name : Lexeme) (hr : 8 ≤ object.rank) (h : Readable object)
    (h' : Readable value) : Readable (.set id object name value) := by
  refine assign_to rfl (get 0 name hr h) h' (Nat.le_add_left 1 7) ?_
    fun target' value' mark s ht hv => ?_
  · simp [Expr.yield]
  · cases target' <;> simp only [Expr.unnumbered, Expr.get.injEq, reduceCtorEq] at ht
    obtain ⟨-, ho, rfl⟩ := ht
    exact ⟨_, by rw [Expr.unnumbered, ho, hv]; rfl, rfl⟩

end Readable

end Read

mutual

/-- Well-formed expressions are read back. -/
theorem Expr.readable : {e : Expr} → e.WellFormed → Read.Readable e
  | literal id value, _ => .literal id value
  | unary id op mark _, h => .unaryOp id op mark h.2 (readable h.1)
  | binary id op mark _ _, h =>
    .apply (.binary op) id mark h.2.2.1 h.2.2.2 (readable h.1) (readable h.2.1)
  | logical id op mark _ _, h =>
    .apply (.logical op) id mark h.2.2.1 h.2.2.2 (readable h.1) (readable h.2.1)
  | grouping id _, h => .grouping id (readable h)
  | var id name, _ => .var id name
  | assign id name _, h => .assign id name (readable h)
  | call id _ paren _, h => .call id paren h.2.1 (readable h.1) (allReadable h.2.2.1) h.2.2.2
  | get id _ name, h => .get id name h.2 (readable h.1)
  | set id _ name _, h => .set id name h.2.1 (readable h.1) (readable h.2.2)
  | this id keyword, _ => .this id keyword
  | super id keyword method, _ => .super id keyword method

theorem Expr.allReadable : {es : List Expr} → AllWellFormed es → ∀ e ∈ es, Read.Readable e
  | [], _ => fun _ h => nomatch h
  | _ :: _, h => List.forall_mem_cons.2 ⟨readable h.1, allReadable h.2⟩

end

/-- An expression is read back in front of anything that does not continue it. -/
theorem Expr.expression_eq_ok (hw : e.WellFormed) {s : Cursor} (hs : s.Proper)
    (ht : Takes s.rest e.yield rest) (hok : ExprEnds rest) :
    ∃ e' n, e'.unnumbered = e.unnumbered ∧ Read.expression s = .ok e' (s.skipTo rest n) := by
  obtain ⟨e', n, he, hr⟩ := (readable hw).assignment hs ht hok
  exact ⟨e', n, he, (Read.expression_eq_freely hs).eq.trans hr⟩

/-- What is read as an expression without an error is well-formed and written like that. -/
theorem Expr.wellFormed_of_expression_eq_ok {s s₁ : Cursor} (hs : s.Proper)
    (h : Read.expression s = .ok e s₁) (he : s₁.errors = #[]) :
    e.WellFormed ∧ Takes s.rest e.yield s₁.rest := by
  rw [Read.expression] at h
  obtain ⟨_, ht, hw, rfl⟩ := (Read.exprSound _).assignment.takes hs h he
  exact ⟨hw, ht⟩

theorem Cursor.rest_ofTokens (tokens : List Token) (firstId : Nat) :
    (ofTokens tokens firstId).rest = tokens.takeWhile fun t => !t.isEof := rfl

theorem Cursor.errors_ofTokens (tokens : List Token) (firstId : Nat) :
    (ofTokens tokens firstId).errors = #[] := rfl

mutual

/-- The end of the source is no part of an expression. -/
theorem Expr.kind_ne_eof : (e : Expr) → ∀ symbol ∈ e.yield, symbol.kind ≠ .eof
  | literal _ value => by rcases value with _ | _ | (_ | _) | _ <;> simp [yield, Literal.kind]
  | unary _ _ _ right => by simpa [yield] using right.kind_ne_eof
  | binary _ _ _ left right => by
    simpa [yield, or_imp, forall_and] using ⟨left.kind_ne_eof, right.kind_ne_eof⟩
  | logical _ _ _ left right => by
    simpa [yield, or_imp, forall_and] using ⟨left.kind_ne_eof, right.kind_ne_eof⟩
  | grouping _ inner => by
    simpa [yield, or_imp, forall_and, Symbol.mark] using inner.kind_ne_eof
  | var _ _ => by simp [yield, Symbol.name]
  | assign _ _ value => by simpa [yield, Symbol.name, Symbol.mark] using value.kind_ne_eof
  | call _ callee _ arguments => by
    simpa [yield, or_imp, forall_and, Symbol.mark] using
      ⟨callee.kind_ne_eof, kindAll_ne_eof arguments⟩
  | get _ object _ => by
    simpa [yield, or_imp, forall_and, Symbol.name, Symbol.mark] using object.kind_ne_eof
  | set _ object _ value => by
    simpa [yield, or_imp, forall_and, Symbol.name, Symbol.mark] using
      ⟨object.kind_ne_eof, value.kind_ne_eof⟩
  | this _ _ => by simp [yield]
  | super _ _ _ => by simp [yield, Symbol.name, Symbol.mark]

theorem Expr.kindAll_ne_eof : (es : List Expr) → ∀ symbol ∈ yieldAll es, symbol.kind ≠ .eof
  | [] => by simp [yieldAll]
  | [e] => e.kind_ne_eof
  | e :: e' :: es => by
    simpa [yieldAll_cons_cons, or_imp, forall_and, Symbol.mark] using
      ⟨e.kind_ne_eof, kindAll_ne_eof (e' :: es)⟩

end

/-- Up to the end of the source are the tokens before it. -/
theorem takeWhile_append_eof {eof : Token} (ht : ∀ t ∈ tokens, t.isEof = false)
    (he : eof.isEof = true) : ((tokens ++ [eof]).takeWhile fun t => !t.isEof) = tokens := by
  rw [List.takeWhile_append_of_pos (by simpa using ht)]
  simp [he]

/-- What is spelled by tokens has no end if the symbols have none. -/
theorem isEof_of_spelled {symbols : List Symbol} (h : Spelled symbols tokens)
    (hne : ∀ symbol ∈ symbols, symbol.kind ≠ .eof) : ∀ t ∈ tokens, t.isEof = false := by
  induction h with
  | nil => simp
  | cons ht _ ih =>
    rw [List.forall_mem_cons] at hne ⊢
    refine ⟨?_, ih hne.2⟩
    rw [Bool.eq_false_iff, ne_eq, Token.isEof_iff, ht.1]
    exact hne.1

/-- What the tokens of a source are read as is well-formed, and written as them. -/
theorem Expr.wellFormed_of_parse {firstId : Nat}
    (h : (parse (.ofTokens tokens firstId)).1 = .ok e) :
    e.WellFormed ∧ Spelled e.yield (tokens.takeWhile fun t => !t.isEof) := by
  have hs := Cursor.proper_ofTokens tokens firstId
  obtain ⟨hread, herrors, hrest⟩ := parse_eq_ok.1 (Prod.ext h rfl)
  obtain ⟨hw, used, hr, hsp⟩ := wellFormed_of_expression_eq_ok hs hread herrors
  rw [hrest, List.append_nil, Cursor.rest_ofTokens] at hr
  exact ⟨hw, hr ▸ hsp⟩

/-- Writing down an expression and reading it are inverse to each other. The tokens of a well-formed
    expression, up to the end of the source, are read as that expression up to identities; and
    whatever can be read is a well-formed expression, written as its symbols and nothing else. -/
theorem Expr.parse_inverse_yield (firstId : Nat) :
    (∀ (e : Expr) (tokens : List Token) (eof : Token), e.WellFormed → Spelled e.yield tokens →
      eof.isEof = true →
        ∃ e', (parse (.ofTokens (tokens ++ [eof]) firstId)).1 = .ok e' ∧
          e'.unnumbered = e.unnumbered) ∧
    ∀ (tokens : List Token) (e : Expr), (parse (.ofTokens tokens firstId)).1 = .ok e →
      e.WellFormed ∧ Spelled e.yield (tokens.takeWhile fun t => !t.isEof) := by
  refine ⟨fun e tokens eof hw hy heof => ?_, fun tokens e h => ?_⟩
  · have hs := Cursor.proper_ofTokens (tokens ++ [eof]) firstId
    have hr : (Cursor.ofTokens (tokens ++ [eof]) firstId).rest = tokens := by
      rw [Cursor.rest_ofTokens, takeWhile_append_eof (isEof_of_spelled hy e.kind_ne_eof) heof]
    obtain ⟨e', n, he, hread⟩ := expression_eq_ok hw hs
      ⟨tokens, by rw [hr, List.append_nil], hy⟩ exprEnds_nil
    refine ⟨e', ?_, he⟩
    rw [parse, hread]
    rfl
  · exact wellFormed_of_parse h

theorem Expr.parse_inverse_yield_sum :
    ∃ e', (parse (.ofTokens ([⟨.identifier, "a", 1⟩, ⟨.punctuator .plus, "+", 1⟩,
        ⟨.number 1, "1", 2⟩] ++ [⟨.eof, "", 2⟩]) 5)).1 = .ok e' ∧
      e'.unnumbered = .binary 0 .add ⟨"+", 1⟩ (.var 0 ⟨"a", 1⟩) (.literal 0 (.number 1)) ∧
      e'.WellFormed := by
  obtain ⟨e', hp, he⟩ := (parse_inverse_yield 5).1
    (.binary 0 .add ⟨"+", 1⟩ (.var 0 ⟨"a", 1⟩) (.literal 0 (.number 1)))
    [⟨.identifier, "a", 1⟩, ⟨.punctuator .plus, "+", 1⟩, ⟨.number 1, "1", 2⟩] ⟨.eof, "", 2⟩
    ⟨trivial, trivial, by decide, by decide⟩
    (.cons (Symbol.spells_name.2 ⟨rfl, rfl⟩) (.cons (Symbol.spells_some.2 ⟨rfl, rfl⟩)
      (.cons (Symbol.spells_none.2 rfl) .nil))) rfl
  exact ⟨e', hp, he, ((parse_inverse_yield 5).2 _ e' hp).1⟩

end Lox
