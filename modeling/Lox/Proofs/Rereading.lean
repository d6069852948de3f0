import Mathlib
import Lox.Proofs.Written

/-!
# Reading back statements

The tokens of a statement are read as that statement, whatever follows them; only an `else` must not
follow an open one (`Written.reads`). In a program and in a block the declarations are read one
after the other, so a whole program is read back (`Program.parse_of_written`).
-/

namespace Lox

namespace Stmt

mutual

/-- A statement without the identities of its expressions. -/
def unnumbered : Stmt → Stmt
  | expression e => expression e.unnumbered
  | print e => print e.unnumbered
  | var name initial => var name (initial.map Expr.unnumbered)
  | block body => block (unnumberedAll body)
  | branch condition yes no =>
    branch condition.unnumbered yes.unnumbered (unnumberedOption no)
  | loop condition body => loop condition.unnumbered body.unnumbered
  | function decl => function (unnumberedDecl decl)
  | ret keyword value => ret keyword (value.map Expr.unnumbered)
  | classDecl name superclass methods =>
    classDecl name (superclass.map fun ref => ⟨0, ref.name⟩) (unnumberedDecls methods)

def unnumberedAll : List Stmt → List Stmt
  | [] => []
  | stmt :: rest => stmt.unnumbered :: unnumberedAll rest

def unnumberedOption : Option Stmt → Option Stmt
  | none => none
  | some stmt => some stmt.unnumbered

def unnumberedDecl : FunctionDecl Stmt → FunctionDecl Stmt
  | ⟨name, params, body⟩ => ⟨name, params, unnumberedAll body⟩

def unnumberedDecls : List (FunctionDecl Stmt) → List (FunctionDecl Stmt)
  | [] => []
  | decl :: rest => unnumberedDecl decl :: unnumberedDecls rest

end

end Stmt

variable {rest : List Token} {symbols : List Symbol} {s : Cursor}

/-- A semicolon ends an expression. -/
theorem exprEnds_semicolon {t : Token} (h : t.kind = .punctuator .semicolon) :
    ExprEnds (t :: rest) :=
  exprEnds_cons (by rw [h]; rfl) (by rw [h]; decide)

/-- A closing parenthesis ends an expression. -/
theorem exprEnds_rightParen {t : Token} (h : t.kind = .punctuator .rightParen) :
    ExprEnds (t :: rest) :=
  exprEnds_cons (by rw [h]; rfl) (by rw [h]; decide)

/-- The first token of an expression. -/
theorem Takes.starts_expr {e : Expr} {before after : List Token}
    (h : Takes before (e.yield ++ symbols) after) :
    ∃ t rest, before = t :: rest ∧ t.kind.startsExpr = true := by
  obtain ⟨symbol, more, hy, hk⟩ := e.exists_yield_cons
  rw [hy, List.cons_append] at h
  obtain ⟨t, rest, rfl, ht, -⟩ := h.of_cons
  exact ⟨t, rest, rfl, ht.1 ▸ hk⟩

namespace Read

variable {α : Type} {s : Cursor} {t : Token} {rest : List Token}

/-! ### Parts of statements -/

theorem sees_eq_false {kind : Token.Kind} (hr : s.rest = t :: rest) (hk : t.kind ≠ kind) :
    s.sees kind = false := by
  rw [sees_cons hr, decide_eq_false hk]

/-- An expression that may be left out, in front of the punctuator that ends it. -/
theorem expressionUnless_of_takes {mark : Punctuator}
    (hmark : mark = .semicolon ∨ mark = .rightParen) {e : Option Expr}
    (hw : Expr.OptionWellFormed e) (hs : s.Proper)
    (ht : Takes s.rest (Expr.yieldOption e) (t :: rest)) (hk : t.kind = .punctuator mark) :
    ∃ e' n, e'.map Expr.unnumbered = e.map Expr.unnumbered ∧
      expressionUnless mark s = .ok e' (s.skipTo (t :: rest) n) := by
  have hends : ExprEnds (t :: rest) := by
    rcases hmark with rfl | rfl
    · exact exprEnds_semicolon hk
    · exact exprEnds_rightParen hk
  rw [expressionUnless, seesMark_bind]
  cases e with
  | none =>
    have hr := ht.of_nil
    rw [sees_cons hr, decide_eq_true hk, if_pos rfl]
    exact ⟨none, s.nextId, rfl, hr ▸ rfl⟩
  | some e =>
    have ht' : Takes s.rest (e.yield ++ []) (t :: rest) := by rwa [List.append_nil]
    obtain ⟨t', rest', hr, hstart⟩ := ht'.starts_expr
    have hne : t'.kind ≠ .punctuator mark := by
      intro h
      rw [h] at hstart
      rcases hmark with rfl | rfl <;> cases hstart
    rw [sees_eq_false hr hne, if_neg Bool.false_ne_true]
    obtain ⟨e', n, he, hread⟩ :=
      Expr.expression_eq_ok (Expr.optionWellFormed_some.1 hw) hs ht hends
    exact ⟨some e', n, by simp [he], bind_of_ok hread⟩

theorem varDeclaration_of_takes {name : Lexeme} {initial : Option Expr}
    (hw : Expr.OptionWellFormed initial) (hs : s.Proper)
    (ht : Takes s.rest (Expr.yieldInitial name initial ++ [.mark .semicolon]) rest) :
    ∃ initial' n, initial'.map Expr.unnumbered = initial.map Expr.unnumbered ∧
      varDeclaration s = .ok (.var name initial') (s.skipTo rest n) := by
  cases initial with
  | none =>
    obtain ⟨t, rest₁, hr, hk, ht⟩ := Takes.of_cons ht
    obtain ⟨semicolon, rest₂, rfl, hsemi, ht⟩ := Takes.of_cons ht
    obtain rfl := ht.of_nil
    rw [Symbol.spells_name] at hk
    rw [Symbol.spells_mark] at hsemi
    obtain ⟨hk, rfl⟩ := hk
    refine ⟨none, s.nextId, rfl, ?_⟩
    refine (bind_of_ok (expect_of_kind _ hr hk)).trans ?_
    refine (bind_of_ok (accept_of_ne fun t rest h => ?_)).trans ?_
    · cases h
      rw [hsemi]
      decide
    · exact bind_of_ok (expectMark_of_kind _ rfl hsemi)
  | some e =>
    obtain ⟨t, rest₁, hr, hk, ht⟩ := Takes.of_cons ht
    obtain ⟨equal, rest₂, rfl, hequal, ht⟩ := Takes.of_cons ht
    obtain ⟨rest₃, ht₁, ht⟩ := Takes.of_append ht
    obtain ⟨semicolon, rest₄, rfl, hsemi, ht⟩ := Takes.of_cons ht
    obtain rfl := ht.of_nil
    rw [Symbol.spells_name] at hk
    rw [Symbol.spells_mark] at hsemi hequal
    obtain ⟨hk, rfl⟩ := hk
    have hs₂ : (s.skipTo rest₂ s.nextId).Proper :=
      hs.skipTo (hr ▸ (List.suffix_cons _ _).trans (List.suffix_cons _ _))
    obtain ⟨e', n, he, hread⟩ := Expr.expression_eq_ok (Expr.optionWellFormed_some.1 hw) hs₂ ht₁
      (exprEnds_semicolon hsemi)
    refine ⟨some e', n, by simp [he], ?_⟩
    refine (bind_of_ok (expect_of_kind _ hr hk)).trans ?_
    refine (bind_of_ok (accept_of_kind rfl hequal)).trans ?_
    refine (bind_of_ok (map_of_ok hread)).trans ?_
    exact bind_of_ok (expectMark_of_kind _ Cursor.rest_skipTo hsemi)

theorem expressionStatement_of_takes {e : Expr} (hw : e.WellFormed) (hs : s.Proper)
    (ht : Takes s.rest (e.yield ++ [.mark .semicolon]) rest) :
    ∃ e' n, e'.unnumbered = e.unnumbered ∧
      expressionStatement s = .ok (.expression e') (s.skipTo rest n) := by
  obtain ⟨rest₁, ht₁, ht⟩ := ht.of_append
  obtain ⟨semicolon, rest₂, rfl, hsemi, ht⟩ := Takes.of_cons ht
  obtain rfl := ht.of_nil
  rw [Symbol.spells_mark] at hsemi
  obtain ⟨e', n, he, hread⟩ := Expr.expression_eq_ok hw hs ht₁ (exprEnds_semicolon hsemi)
  refine ⟨e', n, he, ?_⟩
  refine (bind_of_ok hread).trans ?_
  exact bind_of_ok (expectMark_of_kind _ Cursor.rest_skipTo hsemi)

variable {first symbols : List Symbol} {initial : Option Stmt} {written : Option Expr}
    {names : List Lexeme}

theorem condition_of_takes (opening : ParseError.Cause) {e : Expr} (hw : e.WellFormed)
    (hs : s.Proper)
    (ht : Takes s.rest (.mark .leftParen :: (e.yield ++ .mark .rightParen :: symbols)) rest) :
    ∃ e' n rest', e'.unnumbered = e.unnumbered ∧ Takes rest' symbols rest ∧
      rest'.length < s.rest.length ∧ condition opening s = .ok e' (s.skipTo rest' n) := by
  obtain ⟨left, rest₁, hr, hleft, ht⟩ := Takes.of_cons ht
  obtain ⟨rest₂, ht₁, ht⟩ := ht.of_append
  obtain ⟨right, rest₃, rfl, hright, ht⟩ := Takes.of_cons ht
  rw [Symbol.spells_mark] at hleft hright
  have hs₁ : (s.skipTo rest₁ s.nextId).Proper := hs.skipTo (hr ▸ List.suffix_cons _ _)
  obtain ⟨e', n, he, hread⟩ := Expr.expression_eq_ok hw hs₁ ht₁ (exprEnds_rightParen hright)
  have hle := ht₁.suffix.length_le
  refine ⟨e', n, rest₃, he, ht, ?_, ?_⟩
  · rw [hr, List.length_cons]
    rw [List.length_cons] at hle
    omega
  refine (bind_of_ok (expectMark_of_kind _ hr hleft)).trans ?_
  refine (bind_of_ok hread).trans ?_
  exact bind_of_ok (expectMark_of_kind _ Cursor.rest_skipTo hright)

theorem superclass_of_takes {ref : Option VarRef}
    (ht : Takes s.rest (yieldSuperclass ref) (t :: rest)) (hk : t.kind = .punctuator .leftBrace) :
    ∃ ref' n, ref'.map VarRef.name = ref.map VarRef.name ∧
      superclass s = .ok ref' (s.skipTo (t :: rest) n) := by
  cases ref with
  | none =>
    have hr := ht.of_nil
    refine ⟨none, s.nextId, rfl, ?_⟩
    refine (bind_of_ok (accept_of_ne fun t' rest' h => ?_)).trans (hr ▸ rfl)
    cases hr.symm.trans h
    rw [hk]
    decide
  | some ref =>
    obtain ⟨less, rest₁, hr, hless, ht⟩ := Takes.of_cons ht
    obtain ⟨name, rest₂, rfl, hname, ht⟩ := Takes.of_cons ht
    obtain rfl := ht.of_nil
    rw [Symbol.spells_name] at hname
    refine ⟨some ⟨s.nextId, ref.name⟩, s.nextId + 1, rfl, ?_⟩
    refine (bind_of_ok (accept_of_kind hr (Symbol.spells_mark.1 hless))).trans ?_
    refine (bind_of_ok (expect_of_kind _ Cursor.rest_skipTo hname.1)).trans ?_
    rw [← hname.2]
    rfl

/-- The first clause of a `for` is read by its first token. -/
theorem forInitial_of_takes (hf : WrittenFirst initial first) (hs : s.Proper)
    (ht : Takes s.rest first rest) :
    ∃ initial' n, initial'.map Stmt.unnumbered = initial.map Stmt.unnumbered ∧
      forInitial s = .ok initial' (s.skipTo rest n) := by
  cases hf with
  | none =>
    obtain ⟨semicolon, rest₁, hr, hsemi, ht⟩ := Takes.of_cons ht
    obtain rfl := ht.of_nil
    have hp : s.peek.kind = .punctuator .semicolon := by
      rw [Cursor.peek_of_rest hr, Symbol.spells_mark.1 hsemi]
    refine ⟨none, s.nextId, rfl, ?_⟩
    rw [forInitial, peek_bind]
    simp only [hp]
    rw [skip_bind, hr]
    rfl
  | @var name initial hw =>
    obtain ⟨word, rest₁, hr, hword, ht⟩ := Takes.of_cons ht
    have hp : s.peek.kind = .keyword .var := by
      rw [Cursor.peek_of_rest hr, Symbol.spells_word.1 hword]
    have hs₁ : (s.skipTo rest₁ s.nextId).Proper := hs.skipTo (hr ▸ List.suffix_cons _ _)
    obtain ⟨initial', n, he, hread⟩ := varDeclaration_of_takes hw hs₁ ht
    refine ⟨some (.var name initial'), n, by simp [Stmt.unnumbered, he], ?_⟩
    rw [forInitial, peek_bind]
    simp only [hp]
    rw [skip_bind, hr]
    exact map_of_ok hread
  | @expression e hw =>
    obtain ⟨t, rest₁, hr, hstart⟩ := ht.starts_expr
    obtain ⟨e', n, he, hread⟩ := expressionStatement_of_takes hw hs ht
    refine ⟨some (.expression e'), n, by simp [Stmt.unnumbered, he], ?_⟩
    rw [forInitial, peek_bind]
    have hp := Cursor.peek_of_rest hr
    refine Eq.trans (b := (some <$> expressionStatement) s) ?_ (map_of_ok hread)
    change AgreeAt s _ _
    split
    · next hk =>
      rw [hp] at hk
      rw [hk] at hstart
      cases hstart
    · next hk =>
      rw [hp] at hk
      rw [hk] at hstart
      cases hstart
    · exact .refl _ _

theorem forCondition_of_takes {condition : Expr} (hw : Expr.OptionWellFormed written)
    (hc : IsCondition written condition) (hs : s.Proper)
    (ht : Takes s.rest (Expr.yieldOption written) (t :: rest))
    (hk : t.kind = .punctuator .semicolon) :
    ∃ condition' n, condition'.unnumbered = condition.unnumbered ∧
      forCondition s = .ok condition' (s.skipTo (t :: rest) n) := by
  obtain ⟨written', n, hwr, hread⟩ := expressionUnless_of_takes (.inl rfl) hw hs ht hk
  cases hc with
  | none id =>
    obtain rfl := Option.map_eq_none_iff.1 hwr
    exact ⟨.literal n (.bool true), n + 1, rfl, (bind_of_ok hread).trans rfl⟩
  | some e =>
    obtain ⟨e', rfl, he⟩ := Option.map_eq_some_iff.1 hwr
    exact ⟨e', n, he, (bind_of_ok hread).trans rfl⟩

theorem forClauses_of_takes {increment : Option Expr} {condition : Expr}
    (hf : WrittenFirst initial first) (hw : Expr.OptionWellFormed written)
    (hw' : Expr.OptionWellFormed increment) (hc : IsCondition written condition) (hs : s.Proper)
    (ht : Takes s.rest
      (.mark .leftParen ::
        (first ++ (Expr.yieldOption written ++ .mark .semicolon ::
          (Expr.yieldOption increment ++ .mark .rightParen :: symbols)))) rest) :
    ∃ clauses n rest', clauses.initial.map Stmt.unnumbered = initial.map Stmt.unnumbered ∧
      clauses.condition.unnumbered = condition.unnumbered ∧
      clauses.increment.map Expr.unnumbered = increment.map Expr.unnumbered ∧
      Takes rest' symbols rest ∧ rest'.length < s.rest.length ∧
      forClauses s = .ok clauses (s.skipTo rest' n) := by
  obtain ⟨left, rest₁, hr, hleft, ht⟩ := Takes.of_cons ht
  obtain ⟨rest₂, ht₁, ht⟩ := ht.of_append
  obtain ⟨rest₃, ht₂, ht⟩ := ht.of_append
  obtain ⟨semicolon, rest₄, rfl, hsemi, ht⟩ := Takes.of_cons ht
  obtain ⟨rest₅, ht₃, ht⟩ := ht.of_append
  obtain ⟨right, rest₆, rfl, hright, ht₄⟩ := Takes.of_cons ht
  rw [Symbol.spells_mark] at hleft hright hsemi
  have hs₁ : (s.skipTo rest₁ s.nextId).Proper := hs.skipTo (hr ▸ List.suffix_cons _ _)
  have hs₂ : ∀ n, (s.skipTo rest₂ n).Proper := fun n => hs₁.skipTo ht₁.suffix
  have hs₄ : ∀ n, (s.skipTo rest₄ n).Proper := fun n =>
    (hs₂ 0).skipTo ((List.suffix_cons _ _).trans ht₂.suffix)
  have hle : rest₆.length < s.rest.length := by
    have h₁ := ht₁.suffix.length_le
    have h₂ := ht₂.suffix.length_le
    have h₃ := ht₃.suffix.length_le
    rw [hr, List.length_cons]
    rw [List.length_cons] at h₂ h₃
    omega
  obtain ⟨initial', n, hi, hread⟩ := forInitial_of_takes hf hs₁ ht₁
  obtain ⟨condition', m, he, hread'⟩ := forCondition_of_takes hw hc (hs₂ n) ht₂ hsemi
  obtain ⟨increment', k, he', hread''⟩ :=
    expressionUnless_of_takes (.inr rfl) hw' (hs₄ m) ht₃ hright
  refine ⟨⟨initial', condition', increment'⟩, k, rest₆, hi, he, he', ht₄, hle, ?_⟩
  refine (bind_of_ok (expectMark_of_kind _ hr hleft)).trans ?_
  refine (bind_of_ok hread).trans ?_
  refine (bind_of_ok hread').trans ?_
  refine (bind_of_ok (expectMark_of_kind _ Cursor.rest_skipTo hsemi)).trans ?_
  refine (bind_of_ok hread'').trans ?_
  exact bind_of_ok (expectMark_of_kind _ Cursor.rest_skipTo hright)

theorem moreParameters_of_takes {done : Array Lexeme} (hne : names ≠ [])
    (hl : done.size + names.length ≤ maxArity) {fuel : Nat} (hf : s.rest.length < fuel)
    (ht : Takes s.rest (yieldNames names) (t :: rest)) (hk : t.kind = .punctuator .rightParen) :
    moreParameters fuel done s = .ok (done.toList ++ names) (s.skipTo (t :: rest) s.nextId) := by
  induction names generalizing done s fuel with
  | nil => exact absurd rfl hne
  | cons name names ih =>
    obtain ⟨fuel, rfl⟩ : ∃ k, fuel = k + 1 := ⟨fuel - 1, by omega⟩
    have hc : checkCount done.size .tooManyParameters = pure () :=
      checkCount_of_lt _ (by rw [List.length_cons] at hl; omega)
    rw [moreParameters_succ, hc]
    cases names with
    | nil =>
      obtain ⟨t', rest', hr, hname, ht⟩ := Takes.of_cons ht
      obtain rfl := ht.of_nil
      obtain ⟨hkind, rfl⟩ := Symbol.spells_name.1 hname
      refine (bind_of_ok (expect_of_kind _ hr hkind)).trans ?_
      refine (bind_of_ok (accept_of_ne fun t rest h => ?_)).trans ?_
      · cases h
        rw [hk]
        decide
      · rw [Option.isSome_none, if_neg Bool.false_ne_true, Array.toList_push]
        rfl
    | cons name' names =>
      obtain ⟨t', rest', hr, hname, ht⟩ := Takes.of_cons ht
      obtain ⟨comma, rest₁, rfl, hcomma, ht⟩ := Takes.of_cons ht
      rw [Symbol.spells_mark] at hcomma
      rw [Symbol.spells_name] at hname
      obtain ⟨hkind, hname⟩ := hname
      refine (bind_of_ok (expect_of_kind _ hr hkind)).trans ?_
      refine (bind_of_ok (accept_of_kind rfl hcomma)).trans ?_
      have hl' : (done.push t'.toLexeme).size + (name' :: names).length ≤ maxArity := by
        rw [List.length_cons] at hl
        rw [Array.size_push]
        omega
      have hf' : (s.skipTo rest₁ s.nextId).rest.length < fuel := by
        rw [hr, List.length_cons, List.length_cons] at hf
        rw [Cursor.rest_skipTo]
        omega
      refine (ih (List.cons_ne_nil _ _) hl' hf' ht).trans ?_
      rw [Array.toList_push, hname, List.append_assoc]
      rfl

theorem parameters_of_takes (hl : names.length ≤ maxArity) {fuel : Nat} (hf : s.rest.length < fuel)
    (ht : Takes s.rest (yieldNames names) (t :: rest)) (hk : t.kind = .punctuator .rightParen) :
    parameters fuel s = .ok names (s.skipTo (t :: rest) s.nextId) := by
  rw [parameters, seesMark_bind]
  cases names with
  | nil =>
    have hr := ht.of_nil
    rw [sees_cons hr, decide_eq_true hk, if_pos rfl]
    exact hr ▸ rfl
  | cons name names =>
    have hl' : (#[] : Array Lexeme).size + (name :: names).length ≤ maxArity := by simpa using hl
    have hy : ∃ more, yieldNames (name :: names) = .name name :: more := by
      cases names with
      | nil => exact ⟨_, rfl⟩
      | cons name' names => exact ⟨_, rfl⟩
    obtain ⟨more, hy⟩ := hy
    have ht' := ht
    rw [hy] at ht'
    obtain ⟨t', rest', hr, hname, -⟩ := Takes.of_cons ht'
    have hne : t'.kind ≠ .punctuator .rightParen := by
      rw [(Symbol.spells_name.1 hname).1]
      decide
    rw [sees_eq_false hr hne, if_neg Bool.false_ne_true]
    exact moreParameters_of_takes (List.cons_ne_nil _ _) hl' hf ht hk

/-! ### Statements -/

/-- A statement that starts like an expression is one. -/
theorem statement_of_startsExpr (fuel : Nat) (hr : s.rest = t :: rest)
    (hk : t.kind.startsExpr = true) : AgreeAt s (statement (fuel + 1)) expressionStatement := by
  have hp := Cursor.peek_of_rest hr
  have h : statement (fuel + 1) s = (peek >>= fun _ => expressionStatement) s := by
    refine AgreeAt.bind rfl fun t' s₁ h₁ => ?_
    obtain ⟨rfl, rfl⟩ := peek_eq_ok.1 h₁
    rw [hp]
    split
    case h_7 => exact .refl _ _
    all_goals
      next hk' =>
        rw [hk'] at hk
        cases hk
  exact h

/-- A declaration that starts with no keyword of its own is a statement. -/
theorem declarationOrError_of_ne (fuel : Nat) (hr : s.rest = t :: rest)
    (hk : ∀ word ∈ [Keyword.class, .fun, .var], t.kind ≠ .keyword word) :
    AgreeAt s (declarationOrError (fuel + 1)) (statement fuel) := by
  have hp := Cursor.peek_of_rest hr
  have h : declarationOrError (fuel + 1) s = (peek >>= fun _ => statement fuel) s := by
    refine AgreeAt.bind rfl fun t' s₁ h₁ => ?_
    obtain ⟨rfl, rfl⟩ := peek_eq_ok.1 h₁
    rw [hp]
    split
    · next hk' => exact absurd hk' (hk _ (by simp))
    · next hk' => exact absurd hk' (hk _ (by simp))
    · next hk' => exact absurd hk' (hk _ (by simp))
    · exact .refl _ _
  exact h

end Read

/-- The kinds of tokens with which a statement can start. -/
def Token.Kind.startsStmt : Token.Kind → Bool
  | .keyword .print | .keyword .return | .keyword .if | .keyword .while | .keyword .for => true
  | .punctuator .leftBrace => true
  | kind => kind.startsExpr

/-- The first token of a statement. -/
theorem Written.starts_stmt {isOpen : Bool} {stmt : Stmt}
    (h : Written (.statement isOpen stmt) symbols) :
    ∃ symbol more, symbols = symbol :: more ∧ symbol.kind.startsStmt = true := by
  cases h
  case expression e _ =>
    obtain ⟨symbol, more, hy, hk⟩ := e.exists_yield_cons
    refine ⟨symbol, more ++ [.mark .semicolon], by rw [hy, List.cons_append], ?_⟩
    unfold Token.Kind.startsStmt
    split <;> first | rfl | exact hk
  all_goals exact ⟨_, _, rfl, rfl⟩

/-- The first token of a declaration neither ends a block nor belongs to an `if`. -/
theorem Written.starts_declaration {stmt : Stmt} (h : Written (.declaration stmt) symbols) :
    ∃ symbol more, symbols = symbol :: more ∧ symbol.kind ≠ .punctuator .rightBrace ∧
      symbol.kind ≠ .keyword .else := by
  cases h
  case statement isOpen h =>
    obtain ⟨symbol, more, rfl, hk⟩ := h.starts_stmt
    refine ⟨symbol, more, rfl, fun h => ?_, fun h => ?_⟩
    all_goals
      rw [h] at hk
      cases hk
  all_goals exact ⟨_, _, rfl, nofun, nofun⟩

/-- What reading a form back means, for each reader. -/
def Form.ReadsBack : Form → List Symbol → Prop
  | .statement isOpen stmt, symbols => ∀ ⦃s : Cursor⦄ ⦃rest : List Token⦄ ⦃fuel : Nat⦄, s.Proper →
    Takes s.rest symbols rest → (isOpen = true → Read.NoElse rest) →
    4 * s.rest.length + 1 ≤ fuel → ∃ stmt' n, stmt'.unnumbered = stmt.unnumbered ∧
      Read.statement fuel s = .ok stmt' (s.skipTo rest n)
  | .declaration stmt, symbols => ∀ ⦃s : Cursor⦄ ⦃rest : List Token⦄ ⦃fuel : Nat⦄, s.Proper →
    Takes s.rest symbols rest → Read.NoElse rest →
    4 * s.rest.length + 2 ≤ fuel → ∃ stmt' n, stmt'.unnumbered = stmt.unnumbered ∧
      Read.declarationOrError fuel s = .ok stmt' (s.skipTo rest n)
  | .function decl, symbols =>
    ∀ ⦃s : Cursor⦄ ⦃rest : List Token⦄ ⦃fuel : Nat⦄ (kind : FunctionKind),
    s.Proper → Takes s.rest symbols rest → 4 * s.rest.length + 2 ≤ fuel →
      ∃ decl' n, Stmt.unnumberedDecl decl' = Stmt.unnumberedDecl decl ∧
        Read.function fuel kind s = .ok decl' (s.skipTo rest n)
  | .body stmts, symbols => ∀ ⦃s : Cursor⦄ ⦃brace : Token⦄ ⦃rest : List Token⦄ ⦃fuel : Nat⦄
    (done : Array Stmt), s.Proper → Takes s.rest symbols (brace :: rest) →
    brace.kind = .punctuator .rightBrace → 4 * s.rest.length + 4 ≤ fuel →
      ∃ stmts' n, Stmt.unnumberedAll stmts' = Stmt.unnumberedAll stmts ∧
        Read.block fuel done s = .ok (done.toList ++ stmts') (s.skipTo rest n)
  | .methods decls, symbols => ∀ ⦃s : Cursor⦄ ⦃brace : Token⦄ ⦃rest : List Token⦄ ⦃fuel : Nat⦄
    (done : Array (FunctionDecl Stmt)), s.Proper → Takes s.rest symbols (brace :: rest) →
    brace.kind = .punctuator .rightBrace → 4 * s.rest.length + 3 ≤ fuel →
      ∃ decls' n, Stmt.unnumberedDecls decls' = Stmt.unnumberedDecls decls ∧
        Read.methods fuel done s = .ok (done.toList ++ decls') (s.skipTo (brace :: rest) n)

namespace Form.ReadsBack

open Read

variable {rest : List Token} {e : Expr} {symbols symbols' : List Symbol} {isOpen : Bool}
    {body stmt : Stmt} {name : Lexeme} {decl : FunctionDecl Stmt} {decls : List (FunctionDecl Stmt)}

/-- A statement with a keyword of its own is read on after it. -/
theorem peek_kind {s : Cursor} {t : Token} {kind : Token.Kind} (hr : s.rest = t :: rest)
    (hk : t.kind = kind) : s.peek.kind = kind := by
  rw [Cursor.peek_of_rest hr, hk]

theorem of_first {first : Symbol}
    (h : ∀ ⦃s : Cursor⦄ ⦃t : Token⦄ ⦃rest₁ rest : List Token⦄ ⦃fuel : Nat⦄, s.rest = t :: rest₁ →
      first.Spells t → (s.skipTo rest₁ s.nextId).Proper → Takes rest₁ symbols rest →
      (isOpen = true → NoElse rest) → 4 * rest₁.length + 4 ≤ fuel →
      ∃ stmt' n, stmt'.unnumbered = stmt.unnumbered ∧
        Read.statement (fuel + 1) s = .ok stmt' (s.skipTo rest n)) :
    ReadsBack (.statement isOpen stmt) (first :: symbols) := by
  intro s rest fuel hs ht hopen hf
  obtain ⟨fuel, rfl⟩ : ∃ k, fuel = k + 1 := ⟨fuel - 1, by omega⟩
  obtain ⟨t, rest₁, hr, hk, ht⟩ := Takes.of_cons ht
  rw [hr, List.length_cons] at hf
  exact h hr hk (hs.skipTo (hr ▸ List.suffix_cons _ _)) ht hopen (by omega)

theorem expression (hw : e.WellFormed) :
    ReadsBack (.statement false (.expression e)) (e.yield ++ [.mark .semicolon]) := by
  intro s rest fuel hs ht _ hf
  obtain ⟨fuel, rfl⟩ : ∃ k, fuel = k + 1 := ⟨fuel - 1, by omega⟩
  obtain ⟨t, rest₁, hr, hstart⟩ := ht.starts_expr
  obtain ⟨e', n, he, hread⟩ := expressionStatement_of_takes hw hs ht
  refine ⟨.expression e', n, by rw [Stmt.unnumbered, he, Stmt.unnumbered], ?_⟩
  exact (statement_of_startsExpr fuel hr hstart).eq.trans hread

theorem print (hw : e.WellFormed) :
    ReadsBack (.statement false (.print e)) (.word .print :: (e.yield ++ [.mark .semicolon])) := by
  refine of_first fun s t rest₁ rest fuel hr hk hs₁ ht _ hf => ?_
  obtain ⟨rest₂, ht₁, ht⟩ := ht.of_append
  obtain ⟨semicolon, rest₃, rfl, hsemi, ht⟩ := Takes.of_cons ht
  obtain rfl := ht.of_nil
  rw [Symbol.spells_mark] at hsemi
  obtain ⟨e', n, he, hread⟩ := Expr.expression_eq_ok hw hs₁ ht₁ (exprEnds_semicolon hsemi)
  refine ⟨.print e', n, by rw [Stmt.unnumbered, he, Stmt.unnumbered], ?_⟩
  rw [Read.statement, peek_bind]
  simp only [peek_kind hr (Symbol.spells_word.1 hk)]
  rw [skip_bind, hr]
  refine (bind_of_ok hread).trans ?_
  exact bind_of_ok (expectMark_of_kind _ Cursor.rest_skipTo hsemi)

theorem ret {keyword : Lexeme} {value : Option Expr} (hw : Expr.OptionWellFormed value) :
    ReadsBack (.statement false (.ret keyword value))
      (⟨.keyword .return, some keyword⟩ :: (Expr.yieldOption value ++ [.mark .semicolon])) := by
  refine of_first fun s t rest₁ rest fuel hr hk hs₁ ht _ hf => ?_
  obtain ⟨rest₂, ht₁, ht⟩ := ht.of_append
  obtain ⟨semicolon, rest₃, rfl, hsemi, ht⟩ := Takes.of_cons ht
  obtain rfl := ht.of_nil
  rw [Symbol.spells_mark] at hsemi
  obtain ⟨hk, hkeyword⟩ := Symbol.spells_some.1 hk
  obtain ⟨value', n, he, hread⟩ := expressionUnless_of_takes (.inl rfl) hw hs₁ ht₁ hsemi
  refine ⟨.ret keyword value', n, by rw [Stmt.unnumbered, he, Stmt.unnumbered], ?_⟩
  rw [Read.statement, peek_bind]
  simp only [peek_kind hr ‹t.kind = _›]
  rw [skip_bind, hr]
  refine (bind_of_ok hread).trans ?_
  refine (bind_of_ok (expectMark_of_kind _ Cursor.rest_skipTo hsemi)).trans ?_
  rw [Cursor.peek_of_rest hr, hkeyword]
  rfl

theorem block {body : List Stmt} (h : ReadsBack (.body body) symbols) :
    ReadsBack (.statement false (.block body))
      (.mark .leftBrace :: (symbols ++ [.mark .rightBrace])) := by
  refine of_first fun s t rest₁ rest fuel hr hk hs₁ ht _ hf => ?_
  obtain ⟨rest₂, ht₁, ht⟩ := ht.of_append
  obtain ⟨brace, rest₃, rfl, hbrace, ht⟩ := Takes.of_cons ht
  obtain rfl := ht.of_nil
  rw [Symbol.spells_mark] at hbrace
  obtain ⟨body', n, he, hread⟩ := h #[] hs₁ ht₁ hbrace
    (show 4 * rest₁.length + 4 ≤ fuel by omega)
  refine ⟨.block body', n, by rw [Stmt.unnumbered, he, Stmt.unnumbered], ?_⟩
  rw [Read.statement, peek_bind]
  simp only [peek_kind hr (Symbol.spells_mark.1 hk)]
  rw [skip_bind, hr]
  exact bind_of_ok hread

theorem branch {yes : Stmt} (hw : e.WellFormed) (h : ReadsBack (.statement isOpen yes) symbols) :
    ReadsBack (.statement true (.branch e yes none))
      (.word .if :: .mark .leftParen :: (e.yield ++ .mark .rightParen :: symbols)) := by
  refine of_first fun s t rest₁ rest fuel hr hk hs₁ ht hopen hf => ?_
  obtain ⟨e', n, rest₂, he, ht₂, hlt, hread⟩ :=
    condition_of_takes .expectedIfCondition hw hs₁ ht
  rw [Cursor.rest_skipTo] at hlt
  have hs₂ : (s.skipTo rest₂ n).Proper := hs₁.skipTo_of_le (Nat.le_of_lt hlt)
  obtain ⟨yes', m, he', hread'⟩ := h hs₂ ht₂ (fun _ => hopen rfl)
    (show 4 * rest₂.length + 1 ≤ fuel by omega)
  refine ⟨.branch e' yes' none, m, by simp only [Stmt.unnumbered, he, he', Stmt.unnumberedOption],
    ?_⟩
  rw [Read.statement, peek_bind]
  simp only [peek_kind hr (Symbol.spells_word.1 hk)]
  rw [skip_bind, hr]
  refine (bind_of_ok hread).trans ((bind_of_ok hread').trans ?_)
  exact bind_of_ok (accept_of_ne fun t' rest' hr' => hopen rfl t' rest' hr')

theorem branchElse {yes no : Stmt} (hw : e.WellFormed)
    (h : ReadsBack (.statement false yes) symbols)
    (h' : ReadsBack (.statement isOpen no) symbols') :
    ReadsBack (.statement isOpen (.branch e yes (some no)))
      (.word .if :: .mark .leftParen ::
        (e.yield ++ .mark .rightParen :: (symbols ++ .word .else :: symbols'))) := by
  refine of_first fun s t rest₁ rest fuel hr hk hs₁ ht hopen hf => ?_
  obtain ⟨e', n, rest₂, he, ht₂, hlt, hread⟩ :=
    condition_of_takes .expectedIfCondition hw hs₁ ht
  rw [Cursor.rest_skipTo] at hlt
  have hs₂ : (s.skipTo rest₂ n).Proper := hs₁.skipTo_of_le (Nat.le_of_lt hlt)
  obtain ⟨rest₃, ht₃, ht₄⟩ := ht₂.of_append
  obtain ⟨word, rest₄, rfl, hword, ht₄⟩ := Takes.of_cons ht₄
  have hle := ht₃.suffix.length_le
  rw [List.length_cons] at hle
  obtain ⟨yes', m, he', hread'⟩ := h hs₂ ht₃ nofun (show 4 * rest₂.length + 1 ≤ fuel by omega)
  have hs₃ : (s.skipTo rest₄ m).Proper :=
    hs₂.skipTo ((List.suffix_cons _ _).trans ht₃.suffix)
  obtain ⟨no', m', he'', hread''⟩ := h' hs₃ ht₄ hopen (show 4 * rest₄.length + 1 ≤ fuel by omega)
  refine ⟨.branch e' yes' (some no'), m',
    by simp only [Stmt.unnumbered, he, he', he'', Stmt.unnumberedOption], ?_⟩
  rw [Read.statement, peek_bind]
  simp only [peek_kind hr (Symbol.spells_word.1 hk)]
  rw [skip_bind, hr]
  refine (bind_of_ok hread).trans ((bind_of_ok hread').trans ?_)
  refine (bind_of_ok (accept_of_kind Cursor.rest_skipTo (Symbol.spells_word.1 hword))).trans ?_
  exact bind_of_ok hread''

theorem loop (hw : e.WellFormed) (h : ReadsBack (.statement isOpen body) symbols) :
    ReadsBack (.statement isOpen (.loop e body))
      (.word .while :: .mark .leftParen :: (e.yield ++ .mark .rightParen :: symbols)) := by
  refine of_first fun s t rest₁ rest fuel hr hk hs₁ ht hopen hf => ?_
  obtain ⟨e', n, rest₂, he, ht₂, hlt, hread⟩ :=
    condition_of_takes .expectedWhileCondition hw hs₁ ht
  rw [Cursor.rest_skipTo] at hlt
  have hs₂ : (s.skipTo rest₂ n).Proper := hs₁.skipTo_of_le (Nat.le_of_lt hlt)
  obtain ⟨body', m, he', hread'⟩ := h hs₂ ht₂ hopen (show 4 * rest₂.length + 1 ≤ fuel by omega)
  refine ⟨.loop e' body', m, by simp only [Stmt.unnumbered, he, he'], ?_⟩
  rw [Read.statement, peek_bind]
  simp only [peek_kind hr (Symbol.spells_word.1 hk)]
  rw [skip_bind, hr]
  exact (bind_of_ok hread).trans (bind_of_ok hread')

/-- The loop that a `for` stands for has the same parts. -/
theorem unnumbered_toLoop {clauses clauses' : ForClauses} {body' : Stmt}
    (hi : clauses'.initial.map Stmt.unnumbered = clauses.initial.map Stmt.unnumbered)
    (hc : clauses'.condition.unnumbered = clauses.condition.unnumbered)
    (hn : clauses'.increment.map Expr.unnumbered = clauses.increment.map Expr.unnumbered)
    (hb : body'.unnumbered = body.unnumbered) :
    (clauses'.toLoop body').unnumbered = (clauses.toLoop body).unnumbered := by
  obtain ⟨initial, condition, increment⟩ := clauses
  obtain ⟨initial', condition', increment'⟩ := clauses'
  cases initial <;> cases initial' <;> cases increment <;> cases increment' <;>
    simp_all [ForClauses.toLoop, Stmt.unnumbered, Stmt.unnumberedAll]

theorem forLoop {initial : Option Stmt} {first : List Symbol} {written increment : Option Expr}
    {condition : Expr} (hf : WrittenFirst initial first) (hw : Expr.OptionWellFormed written)
    (hw' : Expr.OptionWellFormed increment) (hc : IsCondition written condition)
    (h : ReadsBack (.statement isOpen body) symbols) :
    ReadsBack (.statement isOpen (ForClauses.toLoop ⟨initial, condition, increment⟩ body))
      (.word .for :: .mark .leftParen :: (first ++ (Expr.yieldOption written ++
        .mark .semicolon :: (Expr.yieldOption increment ++ .mark .rightParen :: symbols)))) := by
  refine of_first fun s t rest₁ rest fuel hr hk hs₁ ht hopen hfuel => ?_
  obtain ⟨clauses, n, rest₂, hi, hcond, hinc, ht₂, hlt, hread⟩ :=
    forClauses_of_takes hf hw hw' hc hs₁ ht
  rw [Cursor.rest_skipTo] at hlt
  have hs₂ : (s.skipTo rest₂ n).Proper := hs₁.skipTo_of_le (Nat.le_of_lt hlt)
  obtain ⟨body', m, he', hread'⟩ := h hs₂ ht₂ hopen (show 4 * rest₂.length + 1 ≤ fuel by omega)
  refine ⟨clauses.toLoop body', m, unnumbered_toLoop hi hcond hinc he', ?_⟩
  rw [Read.statement, peek_bind]
  simp only [peek_kind hr (Symbol.spells_word.1 hk)]
  rw [skip_bind, hr]
  exact (bind_of_ok hread).trans (bind_of_ok hread')

theorem statement (hw : Written (.statement isOpen stmt) symbols)
    (h : ReadsBack (.statement isOpen stmt) symbols) : ReadsBack (.declaration stmt) symbols := by
  intro s rest fuel hs ht hno hf
  obtain ⟨fuel, rfl⟩ : ∃ k, fuel = k + 1 := ⟨fuel - 1, by omega⟩
  obtain ⟨stmt', n, he, hread⟩ := h hs ht (fun _ => hno)
    (show 4 * s.rest.length + 1 ≤ fuel by omega)
  obtain ⟨symbol, more, rfl, hk⟩ := hw.starts_stmt
  obtain ⟨t, rest₁, hr, ht, -⟩ := Takes.of_cons ht
  refine ⟨stmt', n, he, (declarationOrError_of_ne fuel hr fun word hmem hword => ?_).eq.trans hread⟩
  have hno : ∀ word ∈ [Keyword.class, .fun, .var],
      (Token.Kind.keyword word).startsStmt = false := by
    decide
  rw [← ht.1, hword, hno word hmem] at hk
  cases hk

theorem var {initial : Option Expr} (hw : Expr.OptionWellFormed initial) :
    ReadsBack (.declaration (.var name initial)) (yieldVar name initial) := by
  intro s rest fuel hs ht _ hf
  obtain ⟨fuel, rfl⟩ : ∃ k, fuel = k + 1 := ⟨fuel - 1, by omega⟩
  obtain ⟨t, rest₁, hr, hk, ht⟩ := Takes.of_cons ht
  have hs₁ : (s.skipTo rest₁ s.nextId).Proper := hs.skipTo (hr ▸ List.suffix_cons _ _)
  obtain ⟨initial', n, he, hread⟩ := varDeclaration_of_takes hw hs₁ ht
  refine ⟨.var name initial', n, by simp only [Stmt.unnumbered, he], ?_⟩
  rw [declarationOrError, peek_bind]
  simp only [peek_kind hr (Symbol.spells_word.1 hk)]
  rw [skip_bind, hr]
  exact hread

theorem functionDecl (h : ReadsBack (.function decl) symbols) :
    ReadsBack (.declaration (.function decl)) (.word .fun :: symbols) := by
  intro s rest fuel hs ht _ hf
  obtain ⟨fuel, rfl⟩ : ∃ k, fuel = k + 1 := ⟨fuel - 1, by omega⟩
  obtain ⟨t, rest₁, hr, hk, ht⟩ := Takes.of_cons ht
  have hs₁ : (s.skipTo rest₁ s.nextId).Proper := hs.skipTo (hr ▸ List.suffix_cons _ _)
  rw [hr, List.length_cons] at hf
  obtain ⟨decl', n, he, hread⟩ := h .function hs₁ ht (show 4 * rest₁.length + 2 ≤ fuel by omega)
  refine ⟨.function decl', n, by simp only [Stmt.unnumbered, he], ?_⟩
  rw [declarationOrError, peek_bind]
  simp only [peek_kind hr (Symbol.spells_word.1 hk)]
  rw [skip_bind, hr]
  exact bind_of_ok hread

theorem classDecl {superclass : Option VarRef} (h : ReadsBack (.methods decls) symbols) :
    ReadsBack (.declaration (.classDecl name superclass decls))
      (.word .class :: .name name :: (yieldSuperclass superclass ++
        .mark .leftBrace :: (symbols ++ [.mark .rightBrace]))) := by
  intro s rest fuel hs ht _ hf
  obtain ⟨fuel, rfl⟩ : ∃ k, fuel = k + 1 := ⟨fuel - 1, by omega⟩
  obtain ⟨t, rest₁, hr, hk, ht⟩ := Takes.of_cons ht
  obtain ⟨t', rest₂, rfl, hname, ht⟩ := Takes.of_cons ht
  obtain ⟨rest₃, ht₁, ht⟩ := ht.of_append
  obtain ⟨left, rest₄, rfl, hleft, ht⟩ := Takes.of_cons ht
  obtain ⟨rest₅, ht₂, ht⟩ := ht.of_append
  obtain ⟨right, rest₆, rfl, hright, ht⟩ := Takes.of_cons ht
  obtain rfl := ht.of_nil
  rw [Symbol.spells_mark] at hleft hright
  obtain ⟨hkind, hname⟩ := Symbol.spells_name.1 hname
  have hle := ht₁.suffix.length_le
  rw [List.length_cons] at hle
  rw [hr, List.length_cons, List.length_cons] at hf
  have ht₁' : Takes (s.skipTo rest₂ s.nextId).rest (yieldSuperclass superclass) (left :: rest₄) :=
    ht₁
  obtain ⟨superclass', n, hsup, hread₁⟩ := superclass_of_takes ht₁' hleft
  have hs₂ : (s.skipTo rest₄ n).Proper := by
    refine hs.skipTo_of_le ?_
    rw [hr, List.length_cons, List.length_cons]
    omega
  obtain ⟨decls', m, he, hread₂⟩ := h #[] hs₂ ht₂ hright
    (show 4 * rest₄.length + 3 ≤ fuel by omega)
  refine ⟨.classDecl name superclass' decls', m, ?_, ?_⟩
  · have : superclass'.map (fun ref => VarRef.mk 0 ref.name) =
        superclass.map fun ref => VarRef.mk 0 ref.name := by
      cases superclass <;> cases superclass' <;> simp_all
    simp only [Stmt.unnumbered, he, this]
  rw [declarationOrError, peek_bind]
  simp only [peek_kind hr (Symbol.spells_word.1 hk)]
  rw [skip_bind, hr]
  refine (bind_of_ok (expect_of_kind _ rfl hkind)).trans ?_
  refine (bind_of_ok hread₁).trans ?_
  refine (bind_of_ok (expectMark_of_kind _ Cursor.rest_skipTo hleft)).trans ?_
  refine (bind_of_ok hread₂).trans ?_
  refine (bind_of_ok (expectMark_of_kind _ Cursor.rest_skipTo hright)).trans ?_
  rw [hname]
  rfl

theorem function {params : List Lexeme} {body : List Stmt} (hl : params.length ≤ maxArity)
    (h : ReadsBack (.body body) symbols) :
    ReadsBack (.function ⟨name, params, body⟩)
      (.name name :: .mark .leftParen :: (yieldNames params ++
        .mark .rightParen :: .mark .leftBrace :: (symbols ++ [.mark .rightBrace]))) := by
  intro s rest fuel kind hs ht hf
  obtain ⟨fuel, rfl⟩ : ∃ k, fuel = k + 1 := ⟨fuel - 1, by omega⟩
  obtain ⟨t, rest₁, hr, hname, ht⟩ := Takes.of_cons ht
  obtain ⟨left, rest₂, rfl, hleft, ht⟩ := Takes.of_cons ht
  obtain ⟨rest₃, ht₁, ht⟩ := ht.of_append
  obtain ⟨right, rest₄, rfl, hright, ht⟩ := Takes.of_cons ht
  obtain ⟨brace, rest₅, rfl, hbrace, ht⟩ := Takes.of_cons ht
  obtain ⟨rest₆, ht₂, ht⟩ := ht.of_append
  obtain ⟨brace', rest₇, rfl, hbrace', ht⟩ := Takes.of_cons ht
  obtain rfl := ht.of_nil
  rw [Symbol.spells_mark] at hleft hright hbrace hbrace'
  obtain ⟨hkind, hname⟩ := Symbol.spells_name.1 hname
  have hle := ht₁.suffix.length_le
  rw [List.length_cons, List.length_cons] at hle
  rw [hr, List.length_cons, List.length_cons] at hf
  have ht₁' : Takes (s.skipTo rest₂ s.nextId).rest (yieldNames params) (right :: brace :: rest₅) :=
    ht₁
  have hread₁ := parameters_of_takes hl (show rest₂.length < fuel by omega) ht₁' hright
  have hs₅ : (s.skipTo rest₅ s.nextId).Proper := by
    refine hs.skipTo_of_le ?_
    rw [hr, List.length_cons, List.length_cons]
    omega
  obtain ⟨body', n, he, hread₂⟩ := h #[] hs₅ ht₂ hbrace'
    (show 4 * rest₅.length + 4 ≤ fuel by omega)
  refine ⟨⟨name, params, body'⟩, n, by simp only [Stmt.unnumberedDecl, he], ?_⟩
  rw [Read.function]
  refine (bind_of_ok (expect_of_kind _ hr hkind)).trans ?_
  refine (bind_of_ok (expectMark_of_kind _ Cursor.rest_skipTo hleft)).trans ?_
  refine (bind_of_ok hread₁).trans ?_
  refine (bind_of_ok (expectMark_of_kind _ Cursor.rest_skipTo hright)).trans ?_
  refine (bind_of_ok (expectMark_of_kind _ Cursor.rest_skipTo hbrace)).trans ?_
  refine (bind_of_ok hread₂).trans ?_
  rw [hname]
  rfl

theorem bodyNil : ReadsBack (.body []) [] := by
  intro s brace rest fuel done hs ht hk hf
  obtain ⟨fuel, rfl⟩ : ∃ k, fuel = k + 1 := ⟨fuel - 1, by omega⟩
  have hr := ht.of_nil
  refine ⟨[], s.nextId, rfl, ?_⟩
  rw [Read.block, atBraceEnd_bind, sees_cons hr, decide_eq_true hk, Bool.true_or, if_pos rfl]
  refine (bind_of_ok (expectMark_of_kind _ hr hk)).trans ?_
  rw [List.append_nil]
  rfl

/-- Between declarations there is no `else`. -/
theorem noElse_of_takes {stmts : List Stmt} {before after : List Token}
    (h : Written (.body stmts) symbols) (ht : Takes before symbols after) (hno : NoElse after) :
    NoElse before := by
  cases h with
  | bodyNil => exact ht.of_nil ▸ hno
  | bodyCons h _ =>
    obtain ⟨symbol, more, rfl, -, hk⟩ := h.starts_declaration
    obtain ⟨t, rest, rfl, hsp, -⟩ := Takes.of_cons ht
    intro t' rest' hr
    cases hr
    rw [hsp.1]
    exact hk

/-- A declaration that is read back is no error. -/
theorem declaration_eq (h : ReadsBack (.declaration stmt) symbols) {s : Cursor} {fuel : Nat}
    (hs : s.Proper) (ht : Takes s.rest symbols rest) (hno : NoElse rest)
    (hf : 4 * s.rest.length + 3 ≤ fuel) :
    ∃ stmt' n, stmt'.unnumbered = stmt.unnumbered ∧
      Read.declaration fuel s = (some stmt', s.skipTo rest n) := by
  obtain ⟨fuel, rfl⟩ : ∃ k, fuel = k + 1 := ⟨fuel - 1, by omega⟩
  obtain ⟨stmt', n, he, hread⟩ := h hs ht hno (show 4 * s.rest.length + 2 ≤ fuel by omega)
  exact ⟨stmt', n, he, by rw [Read.declaration, hread]⟩

theorem bodyCons {stmts : List Stmt} (hw : Written (.declaration stmt) symbols)
    (hw' : Written (.body stmts) symbols') (h : ReadsBack (.declaration stmt) symbols)
    (h' : ReadsBack (.body stmts) symbols') :
    ReadsBack (.body (stmt :: stmts)) (symbols ++ symbols') := by
  intro s brace rest fuel done hs ht hk hf
  obtain ⟨fuel, rfl⟩ : ∃ k, fuel = k + 1 := ⟨fuel - 1, by omega⟩
  obtain ⟨rest₁, ht₁, ht₂⟩ := ht.of_append
  have hno : NoElse rest₁ := noElse_of_takes hw' ht₂ fun t' rest' hr => by
    cases hr
    rw [hk]
    decide
  obtain ⟨stmt', n, he, hread⟩ := declaration_eq h hs ht₁ hno
    (show 4 * s.rest.length + 3 ≤ fuel by omega)
  obtain ⟨symbol, more, rfl, hbrace, -⟩ := hw.starts_declaration
  obtain ⟨t, rest₂, hr, hsp, ht₃⟩ := Takes.of_cons ht₁
  have hle := ht₃.suffix.length_le
  have hs₁ : (s.skipTo rest₁ n).Proper := hs.skipTo ht₁.suffix
  rw [hr, List.length_cons] at hf
  obtain ⟨stmts', m, he', hread'⟩ := h' (done.push stmt') hs₁ ht₂ hk
    (show 4 * rest₁.length + 4 ≤ fuel by omega)
  refine ⟨stmt' :: stmts', m, by simp only [Stmt.unnumberedAll, he, he'], ?_⟩
  have hend : (s.sees (.punctuator .rightBrace) || s.atEnd) = false := by
    rw [sees_eq_false hr (hsp.1 ▸ hbrace), Cursor.atEnd, hr]
    rfl
  rw [Read.block, atBraceEnd_bind, hend, if_neg Bool.false_ne_true]
  refine (bind_of_ok (a := some stmt') (by rw [hread])).trans ?_
  refine hread'.trans ?_
  rw [Array.toList_push, List.append_assoc]
  rfl

theorem methodsNil : ReadsBack (.methods []) [] := by
  intro s brace rest fuel done hs ht hk hf
  obtain ⟨fuel, rfl⟩ : ∃ k, fuel = k + 1 := ⟨fuel - 1, by omega⟩
  have hr := ht.of_nil
  refine ⟨[], s.nextId, rfl, ?_⟩
  rw [Read.methods, atBraceEnd_bind, sees_cons hr, decide_eq_true hk, Bool.true_or, if_pos rfl,
    List.append_nil, ← hr]
  rfl

theorem methodsCons (hw : Written (.function decl) symbols) (h : ReadsBack (.function decl) symbols)
    (h' : ReadsBack (.methods decls) symbols') :
    ReadsBack (.methods (decl :: decls)) (symbols ++ symbols') := by
  intro s brace rest fuel done hs ht hk hf
  obtain ⟨fuel, rfl⟩ : ∃ k, fuel = k + 1 := ⟨fuel - 1, by omega⟩
  obtain ⟨rest₁, ht₁, ht₂⟩ := ht.of_append
  obtain ⟨decl', n, he, hread⟩ := h .method hs ht₁ (show 4 * s.rest.length + 2 ≤ fuel by omega)
  have hs₁ : (s.skipTo rest₁ n).Proper := hs.skipTo ht₁.suffix
  cases hw with
  | function hl hb =>
    obtain ⟨t, rest₂, hr, hsp, ht₃⟩ := Takes.of_cons ht₁
    have hle := ht₃.suffix.length_le
    rw [hr, List.length_cons] at hf
    obtain ⟨decls', m, he', hread'⟩ := h' (done.push decl') hs₁ ht₂ hk
      (show 4 * rest₁.length + 3 ≤ fuel by omega)
    refine ⟨decl' :: decls', m, by simp only [Stmt.unnumberedDecls, he, he'], ?_⟩
    have hne : t.kind ≠ .punctuator .rightBrace := by
      rw [(Symbol.spells_name.1 hsp).1]
      decide
    have hend : (s.sees (.punctuator .rightBrace) || s.atEnd) = false := by
      rw [sees_eq_false hr hne, Cursor.atEnd, hr]
      rfl
    rw [Read.methods, atBraceEnd_bind, hend, if_neg Bool.false_ne_true]
    refine (bind_of_ok hread).trans (hread'.trans ?_)
    rw [Array.toList_push, List.append_assoc]
    rfl

end Form.ReadsBack

/-- What is written is read back. -/
theorem Written.reads {form : Form} (h : Written form symbols) : form.ReadsBack symbols := by
  induction h with
  | expression hw => exact .expression hw
  | print hw => exact .print hw
  | ret hw => exact .ret hw
  | block _ ih => exact .block ih
  | branch hw _ ih => exact .branch hw ih
  | branchElse hw _ _ ih ih' => exact .branchElse hw ih ih'
  | loop hw _ ih => exact .loop hw ih
  | forLoop hf hw hw' hc _ ih => exact .forLoop hf hw hw' hc ih
  | statement hw ih => exact .statement hw ih
  | var hw => exact .var hw
  | functionDecl _ ih => exact .functionDecl ih
  | classDecl _ ih => exact .classDecl ih
  | function hl _ ih => exact .function hl ih
  | bodyNil => exact .bodyNil
  | bodyCons hw hw' ih ih' => exact .bodyCons hw hw' ih ih'
  | methodsNil => exact .methodsNil
  | methodsCons hw _ ih ih' => exact .methodsCons hw ih ih'

/-! ### Programs -/

/-- Declarations up to the end are read back one after the other. -/
theorem Written.declarations_eq {stmts : List Stmt} (h : Written (.body stmts) symbols) {fuel : Nat}
    (done : Array Stmt) (hs : s.Proper) (ht : Takes s.rest symbols []) (hf : s.rest.length ≤ fuel) :
    ∃ stmts' n, Stmt.unnumberedAll stmts' = Stmt.unnumberedAll stmts ∧
      Read.declarations fuel done s = (done ++ stmts'.toArray, s.skipTo [] n) := by
  induction stmts generalizing symbols s fuel done with
  | nil =>
    cases h
    have hr := ht.of_nil
    refine ⟨[], s.nextId, rfl, ?_⟩
    have hend : s.atEnd = true := by rw [Cursor.atEnd, hr]; rfl
    have hs' : s.skipTo [] s.nextId = s := by rw [← hr]; rfl
    cases fuel with
    | zero => rw [Read.declarations, hs']; simp
    | succ fuel => rw [Read.declarations, if_pos hend, hs']; simp
  | cons stmt stmts ih =>
    cases h with
    | @bodyCons _ _ symbols symbols' hw hw' =>
      obtain ⟨rest₁, ht₁, ht₂⟩ := ht.of_append
      have hno : Read.NoElse rest₁ :=
        Form.ReadsBack.noElse_of_takes hw' ht₂ fun t' rest' hr =>
          absurd hr.symm (List.cons_ne_nil _ _)
      have hfuel : 4 * s.rest.length + 3 ≤ s.fuel := by
        have := hs.size
        rw [Cursor.fuel]
        omega
      obtain ⟨stmt', n, he, hread⟩ := Form.ReadsBack.declaration_eq hw.reads hs ht₁ hno hfuel
      obtain ⟨symbol, more, rfl, -, -⟩ := hw.starts_declaration
      obtain ⟨t, rest₂, hr, -, ht₃⟩ := Takes.of_cons ht₁
      have hle := ht₃.suffix.length_le
      rw [hr, List.length_cons] at hf
      obtain ⟨fuel, rfl⟩ : ∃ k, fuel = k + 1 := ⟨fuel - 1, by omega⟩
      obtain ⟨stmts', m, he', hread'⟩ := ih hw' (done.push stmt') (hs.skipTo ht₁.suffix) ht₂
        (show rest₁.length ≤ fuel by omega)
      refine ⟨stmt' :: stmts', m, by simp only [Stmt.unnumberedAll, he, he'], ?_⟩
      have hend : ¬s.atEnd = true := by
        rw [Cursor.atEnd, hr]
        exact Bool.false_ne_true
      rw [Read.declarations, if_neg hend, hread]
      have hpush : done.push stmt' ++ stmts'.toArray = done ++ (stmt' :: stmts').toArray := by simp
      rw [hpush] at hread'
      exact hread'

/-- A list of declarations that are read without an error is written. -/
theorem Read.written_of_declarations {fuel : Nat} {done : Array Stmt} (hs : s.Proper)
    (hf : s.rest.length ≤ fuel) (he : (declarations fuel done s).2.errors = #[]) :
    ∃ stmts symbols, (declarations fuel done s).1 = done ++ stmts.toArray ∧
      Written (.body stmts) symbols ∧ Spelled symbols s.rest ∧ s.errors = #[] := by
  induction fuel generalizing done s with
  | zero =>
    have hr : s.rest = [] := List.length_eq_zero_iff.1 (Nat.le_zero.1 hf)
    exact ⟨[], [], by simp [declarations], .bodyNil, hr ▸ .nil, he⟩
  | succ fuel ih =>
    rw [declarations] at he ⊢
    split at he
    · next hend =>
      have hr : s.rest = [] := by rwa [Cursor.atEnd, List.isEmpty_iff] at hend
      rw [if_pos hend]
      exact ⟨[], [], by simp, .bodyNil, hr ▸ .nil, he⟩
    · next hend =>
      have hr : s.rest ≠ [] := by rwa [Cursor.atEnd, List.isEmpty_iff] at hend
      have hlt := length_declaration_lt s.fuel hs hr
      have hm := (stmtAdvances s.fuel).declaration s
      have hs₁ := hm.proper hs
      rw [if_neg hend]
      have hsound := (stmtSound s.fuel).declaration
      cases hd : declaration s.fuel s with
      | mk found s₁ =>
        rw [hd] at he hm hs₁ hlt
        cases found with
        | none =>
          obtain ⟨_, _, _, _, _, he₁⟩ := ih hs₁ (by omega) he
          obtain ⟨_, _, _, h, _⟩ := hsound.takes hs (by rw [hd]) he₁
          cases h
        | some stmt =>
          obtain ⟨stmts, symbols, hres, hw, hsp, he₁⟩ := ih hs₁ (by omega) he
          obtain ⟨first, ht, stmt', h, hw'⟩ := hsound.takes hs (by rw [hd]) he₁
          cases h
          obtain ⟨tokens, hrest, hsp'⟩ := ht
          refine ⟨stmt :: stmts, first ++ symbols, ?_, .bodyCons hw' hw, ?_, hm.errors_eq he₁⟩
          · exact hres.trans (by simp)
          · rw [hrest]
            exact List.rel_append hsp' hsp

/-- What is read as a program is written as the tokens. -/
theorem Program.written_of_parse (hs : s.Proper) {program : Program}
    (h : (Program.parse s).1 = .ok program) :
    ∃ symbols, Written (.body program) symbols ∧ Spelled symbols s.rest := by
  rw [Program.parse] at h
  dsimp only at h
  split at h
  · next he =>
    have he : (Read.declarations s.size #[] s).2.errors = #[] := by simpa using he
    obtain ⟨stmts, symbols, hstmts, hw, hsp, -⟩ := Read.written_of_declarations hs hs.size he
    cases h
    rw [hstmts]
    exact ⟨symbols, by simpa using hw, hsp⟩
  · cases h

/-- A program is read if and only if it is written, and then read back. -/
theorem Program.parse_eq_ok_iff {tokens : List Token} {eof : Token} (firstId : Nat)
    (ht : ∀ t ∈ tokens, t.isEof = false) (heof : eof.isEof = true) :
    (∃ program, (Program.parse (.ofTokens (tokens ++ [eof]) firstId)).1 = .ok program) ↔
      ∃ stmts symbols, Written (.body stmts) symbols ∧ Spelled symbols tokens := by
  have hs := Cursor.proper_ofTokens (tokens ++ [eof]) firstId
  have hr : (Cursor.ofTokens (tokens ++ [eof]) firstId).rest = tokens := by
    rw [Cursor.rest_ofTokens, takeWhile_append_eof ht heof]
  have hsize : (Cursor.ofTokens (tokens ++ [eof]) firstId).rest.length ≤
    (Cursor.ofTokens (tokens ++ [eof]) firstId).size := hs.size
  generalize hs₀ : Cursor.ofTokens (tokens ++ [eof]) firstId = s at hs hr hsize
  constructor
  · rintro ⟨program, h⟩
    obtain ⟨symbols, hw, hsp⟩ := Program.written_of_parse hs h
    exact ⟨program, symbols, hw, hr ▸ hsp⟩
  · rintro ⟨stmts, symbols, hw, hsp⟩
    obtain ⟨stmts', n, -, hread⟩ := hw.declarations_eq #[] hs
      ⟨tokens, by rw [hr, List.append_nil], hsp⟩ hsize
    have he : s.errors = #[] := hs₀ ▸ rfl
    refine ⟨stmts', ?_⟩
    rw [Program.parse, hread]
    simp [Cursor.skipTo, he]

end Lox
