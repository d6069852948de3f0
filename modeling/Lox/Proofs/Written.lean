import Mathlib
import Lox.Proofs.RoundTrip

/-!
# Programs as they are written

How statements are written down (`Written`), and that this is what readers of statements do: what is
read without an error is written (`Read.stmtSound`), and what is written is read (`Written.reads`).

A statement that ends with an `if` without `else` is *open*: an `else` that follows belongs to it.
So an open statement cannot stand between `if` and `else`, and every list of tokens is written in
one way only.
-/

namespace Lox

/-- A keyword. -/
def Symbol.word (word : Keyword) : Symbol := ⟨.keyword word, none⟩

theorem Symbol.spells_word {word : Keyword} {t : Token} :
    (Symbol.word word).Spells t ↔ t.kind = .keyword word :=
  spells_none

namespace Expr

/-- The symbols of an expression that can be left out. -/
def yieldOption : Option Expr → List Symbol
  | none => []
  | some e => e.yield

/-- The symbols of a name that can be given a value. -/
def yieldInitial (name : Lexeme) : Option Expr → List Symbol
  | none => [.name name]
  | some e => .name name :: .mark .equal :: e.yield

/-- An expression is well-formed, or left out. -/
def OptionWellFormed (e : Option Expr) : Prop := ∀ e' ∈ e, e'.WellFormed

theorem optionWellFormed_none : OptionWellFormed none := by simp [OptionWellFormed]

theorem optionWellFormed_some {e : Expr} : OptionWellFormed (some e) ↔ e.WellFormed := by
  simp [OptionWellFormed]

end Expr

/-- The symbols of names with commas between them. -/
def yieldNames : List Lexeme → List Symbol
  | [] => []
  | [name] => [.name name]
  | name :: rest => .name name :: .mark .comma :: yieldNames rest

theorem yieldNames_cons_cons (name name' : Lexeme) (rest : List Lexeme) :
    yieldNames (name :: name' :: rest) =
      .name name :: .mark .comma :: yieldNames (name' :: rest) := rfl

/-- The symbols of the superclass of a class. -/
def yieldSuperclass : Option VarRef → List Symbol
  | none => []
  | some ref => [.mark .less, .name ref.name]

/-- The symbols of a variable declaration. -/
def yieldVar (name : Lexeme) (initial : Option Expr) : List Symbol :=
  .word .var :: (Expr.yieldInitial name initial ++ [.mark .semicolon])

/-- How the first clause of a `for` is written. -/
inductive WrittenFirst : Option Stmt → List Symbol → Prop
  | none : WrittenFirst none [.mark .semicolon]
  | var {name : Lexeme} {initial : Option Expr} : Expr.OptionWellFormed initial →
      WrittenFirst (some (.var name initial)) (yieldVar name initial)
  | expression {e : Expr} : e.WellFormed →
      WrittenFirst (some (.expression e)) (e.yield ++ [.mark .semicolon])

/-- The condition of a `for`, which is `true` if it is left out. -/
inductive IsCondition : Option Expr → Expr → Prop
  | none (id : Nat) : IsCondition none (.literal id (.bool true))
  | some (e : Expr) : IsCondition (some e) e

/-- What can be written: a statement, which may be open, a declaration, a function from its name on,
    and lists of declarations and methods. -/
inductive Form where
  | statement (isOpen : Bool) (stmt : Stmt)
  | declaration (stmt : Stmt)
  | function (decl : FunctionDecl Stmt)
  | body (stmts : List Stmt)
  | methods (decls : List (FunctionDecl Stmt))

/-- How statements and declarations are written. -/
inductive Written : Form → List Symbol → Prop
  | expression {e : Expr} : e.WellFormed →
      Written (.statement false (.expression e)) (e.yield ++ [.mark .semicolon])
  | print {e : Expr} : e.WellFormed →
      Written (.statement false (.print e)) (.word .print :: (e.yield ++ [.mark .semicolon]))
  | ret {keyword : Lexeme} {value : Option Expr} : Expr.OptionWellFormed value →
      Written (.statement false (.ret keyword value))
        (⟨.keyword .return, some keyword⟩ :: (Expr.yieldOption value ++ [.mark .semicolon]))
  | block {body : List Stmt} {symbols : List Symbol} : Written (.body body) symbols →
      Written (.statement false (.block body))
        (.mark .leftBrace :: (symbols ++ [.mark .rightBrace]))
  | branch {e : Expr} {yes : Stmt} {isOpen : Bool} {symbols : List Symbol} : e.WellFormed →
      Written (.statement isOpen yes) symbols →
      Written (.statement true (.branch e yes none))
        (.word .if :: .mark .leftParen :: (e.yield ++ .mark .rightParen :: symbols))
  | branchElse {e : Expr} {yes no : Stmt} {isOpen : Bool} {symbols symbols' : List Symbol} :
      e.WellFormed → Written (.statement false yes) symbols →
      Written (.statement isOpen no) symbols' →
      Written (.statement isOpen (.branch e yes (some no)))
        (.word .if :: .mark .leftParen ::
          (e.yield ++ .mark .rightParen :: (symbols ++ .word .else :: symbols')))
  | loop {e : Expr} {body : Stmt} {isOpen : Bool} {symbols : List Symbol} : e.WellFormed →
      Written (.statement isOpen body) symbols →
      Written (.statement isOpen (.loop e body))
        (.word .while :: .mark .leftParen :: (e.yield ++ .mark .rightParen :: symbols))
  | forLoop {initial : Option Stmt} {first : List Symbol} {written increment : Option Expr}
      {condition : Expr} {body : Stmt} {isOpen : Bool} {symbols : List Symbol} :
      WrittenFirst initial first → Expr.OptionWellFormed written →
      Expr.OptionWellFormed increment → IsCondition written condition →
      Written (.statement isOpen body) symbols →
      Written (.statement isOpen (Read.ForClauses.toLoop ⟨initial, condition, increment⟩ body))
        (.word .for :: .mark .leftParen :: (first ++ (Expr.yieldOption written ++
          .mark .semicolon :: (Expr.yieldOption increment ++ .mark .rightParen :: symbols))))
  | statement {stmt : Stmt} {isOpen : Bool} {symbols : List Symbol} :
      Written (.statement isOpen stmt) symbols → Written (.declaration stmt) symbols
  | var {name : Lexeme} {initial : Option Expr} : Expr.OptionWellFormed initial →
      Written (.declaration (.var name initial)) (yieldVar name initial)
  | functionDecl {decl : FunctionDecl Stmt} {symbols : List Symbol} :
      Written (.function decl) symbols →
      Written (.declaration (.function decl)) (.word .fun :: symbols)
  | classDecl {name : Lexeme} {superclass : Option VarRef} {decls : List (FunctionDecl Stmt)}
      {symbols : List Symbol} : Written (.methods decls) symbols →
      Written (.declaration (.classDecl name superclass decls))
        (.word .class :: .name name :: (yieldSuperclass superclass ++
          .mark .leftBrace :: (symbols ++ [.mark .rightBrace])))
  | function {name : Lexeme} {params : List Lexeme} {body : List Stmt} {symbols : List Symbol} :
      params.length ≤ maxArity → Written (.body body) symbols →
      Written (.function ⟨name, params, body⟩)
        (.name name :: .mark .leftParen :: (yieldNames params ++
          .mark .rightParen :: .mark .leftBrace :: (symbols ++ [.mark .rightBrace])))
  | bodyNil : Written (.body []) []
  | bodyCons {stmt : Stmt} {stmts : List Stmt} {symbols symbols' : List Symbol} :
      Written (.declaration stmt) symbols → Written (.body stmts) symbols' →
      Written (.body (stmt :: stmts)) (symbols ++ symbols')
  | methodsNil : Written (.methods []) []
  | methodsCons {decl : FunctionDecl Stmt} {decls : List (FunctionDecl Stmt)}
      {symbols symbols' : List Symbol} : Written (.function decl) symbols →
      Written (.methods decls) symbols' → Written (.methods (decl :: decls)) (symbols ++ symbols')

namespace Read

/-! ### What is read is what is written -/

/-- An expression that is read is well-formed, and its symbols were taken. -/
theorem expression_yields :
    Yields expression fun e symbols => e.WellFormed ∧ symbols = e.yield where
  advances := expression_advances
  takes _ _ _ hs h he := by
    obtain ⟨hw, ht⟩ := Expr.wellFormed_of_expression_eq_ok hs h he
    exact ⟨_, ht, hw, rfl⟩

/-- An expression that may be missing is read, or nothing is. -/
theorem expressionUnless_yields (mark : Punctuator) :
    Yields (expressionUnless mark) fun e symbols =>
      Expr.OptionWellFormed e ∧ symbols = Expr.yieldOption e := by
  refine (test_yields (fun _ => rfl) (.pure none)
    (expression_yields.bind fun e => .pure (some e))).mono ?_
  rintro e _ (⟨rfl, rfl⟩ | ⟨e, _, _, rfl, ⟨hw, rfl⟩, rfl, rfl⟩)
  · exact ⟨Expr.optionWellFormed_none, rfl⟩
  · exact ⟨Expr.optionWellFormed_some.2 hw, List.append_nil _⟩

/-- After the keyword `var`, a name and perhaps an initial value are read, up to the semicolon. -/
theorem varDeclaration_yields :
    Yields varDeclaration fun stmt symbols => ∃ name initial, stmt = .var name initial ∧
      Expr.OptionWellFormed initial ∧
        symbols = Expr.yieldInitial name initial ++ [.mark .semicolon] := by
  have next : ∀ name initial, Yields (do
      let _ ← Read.expectMark .semicolon .expectedDeclarationEnd
      return Stmt.var name initial) _ := fun name initial =>
    (expectMark_yields _ _).bind fun _ => .pure _
  refine ((expect_yields _ _).bind fun name => accept_yields
    ((expression_yields.map some).bind (next name)) ((Yields.pure none).bind (next name))).mono ?_
  rintro stmt _ ⟨name, _, _, rfl, rfl,
    ⟨_, rfl, _, _, _, rfl, ⟨e, rfl, hw, rfl⟩, _, _, _, rfl, rfl, rfl, rfl⟩ |
    ⟨_, _, _, rfl, ⟨rfl, rfl⟩, _, _, _, rfl, rfl, rfl, rfl⟩⟩
  · refine ⟨name, some e, rfl, Expr.optionWellFormed_some.2 hw, ?_⟩
    simp [Expr.yieldInitial, Symbol.name, Symbol.mark]
  · exact ⟨name, none, rfl, Expr.optionWellFormed_none, rfl⟩

theorem expressionStatement_yields :
    Yields expressionStatement fun stmt symbols => ∃ e, stmt = .expression e ∧ e.WellFormed ∧
      symbols = e.yield ++ [.mark .semicolon] := by
  refine (expression_yields.bind fun e => (expectMark_yields _ _).bind fun _ => .pure _).mono ?_
  rintro stmt _ ⟨e, _, _, rfl, ⟨hw, rfl⟩, _, _, _, rfl, rfl, rfl, rfl⟩
  exact ⟨e, rfl, hw, rfl⟩

/-- After the name of a class, its superclass is read if there is one. -/
theorem superclass_yields :
    Yields superclass fun ref symbols => symbols = yieldSuperclass ref := by
  refine (accept_yields ((expect_yields _ _).bind fun name => freshId_yields.bind fun id =>
    .pure (some (VarRef.mk id name))) (.pure none)).mono ?_
  rintro ref _ (⟨_, rfl, name, _, _, rfl, rfl, id, _, _, rfl, rfl, rfl, rfl⟩ | ⟨rfl, rfl⟩)
  · rfl
  · rfl

/-- A condition is read between its parentheses. -/
theorem condition_yields (opening : ParseError.Cause) :
    Yields (condition opening) fun e symbols => e.WellFormed ∧
      symbols = .mark .leftParen :: (e.yield ++ [.mark .rightParen]) := by
  refine ((expectMark_yields _ _).bind fun _ => expression_yields.bind fun e =>
    (expectMark_yields _ _).bind fun _ => .pure e).mono ?_
  rintro e _ ⟨_, _, _, rfl, rfl, e', _, _, rfl, ⟨hw, rfl⟩, _, _, _, rfl, rfl, rfl, rfl⟩
  exact ⟨hw, rfl⟩

/-- The first clause of a `for` is read as it may be written. -/
theorem forInitial_yields : Yields forInitial WrittenFirst := by
  refine .peek_bind fun t => ?_
  split
  · next hk =>
    refine .skip_bind (Symbol.spells_mark.2 hk) (by simp [hk]) (Yields.pure none) ?_
    rintro initial _ _ ⟨rfl, rfl⟩
    exact .none
  · next hk =>
    refine .skip_bind (Symbol.spells_word.2 hk) (by simp [hk]) (varDeclaration_yields.map some) ?_
    rintro initial _ _ ⟨_, rfl, name, value, rfl, hv, rfl⟩
    exact .var hv
  · refine YieldsThen.at ((expressionStatement_yields.map some).mono ?_) t
    rintro initial _ ⟨_, rfl, e, rfl, hv, rfl⟩
    exact .expression hv

/-- The second clause of a `for` is read, and it is `true` where none is written. -/
theorem forCondition_yields :
    Yields forCondition fun condition symbols => ∃ written, Expr.OptionWellFormed written ∧
      IsCondition written condition ∧ symbols = Expr.yieldOption written := by
  refine ((expressionUnless_yields _).bind (S := fun written condition symbols =>
    IsCondition written condition ∧ symbols = []) fun written => ?_).mono ?_
  · cases written with
    | some e =>
      refine (Yields.pure e).mono ?_
      rintro condition _ ⟨rfl, rfl⟩
      exact ⟨.some _, rfl⟩
    | none =>
      refine (freshId_yields.bind fun id => .pure _).mono ?_
      rintro condition _ ⟨id, _, _, rfl, rfl, rfl, rfl⟩
      exact ⟨.none id, rfl⟩
  · rintro condition _ ⟨written, _, _, rfl, ⟨hw, rfl⟩, hc, rfl⟩
    exact ⟨written, hw, hc, List.append_nil _⟩

/-- All clauses of a `for` are read between their parentheses. -/
theorem forClauses_yields :
    Yields forClauses fun clauses symbols => ∃ first written, WrittenFirst clauses.initial first ∧
      Expr.OptionWellFormed written ∧ Expr.OptionWellFormed clauses.increment ∧
      IsCondition written clauses.condition ∧
      symbols = .mark .leftParen :: (first ++ (Expr.yieldOption written ++
        .mark .semicolon :: (Expr.yieldOption clauses.increment ++ [.mark .rightParen]))) := by
  refine ((expectMark_yields _ _).bind fun _ => forInitial_yields.bind fun initial =>
    forCondition_yields.bind fun condition => (expectMark_yields _ _).bind fun _ =>
    (expressionUnless_yields _).bind fun increment => (expectMark_yields _ _).bind fun _ =>
    .pure _).mono ?_
  rintro clauses _ ⟨_, _, _, rfl, rfl, initial, first, _, rfl, hf, condition, _, _, rfl,
    ⟨written, hw, hc, rfl⟩, _, _, _, rfl, rfl, increment, _, _, rfl, ⟨hw', rfl⟩, _, _, _, rfl, rfl,
    rfl, rfl⟩
  exact ⟨first, written, hf, hw, hw', hc, rfl⟩

/-- At least one more parameter is read, and there are not too many in the end. -/
theorem moreParameters_yields (fuel : Nat) (done : Array Lexeme) :
    Yields (moreParameters fuel done) fun names symbols =>
      ∃ name more, names = done.toList ++ name :: more ∧ names.length ≤ maxArity ∧
        symbols = yieldNames (name :: more) := by
  induction fuel generalizing done with
  | zero => exact .fail _
  | succ fuel ih =>
    rw [moreParameters_succ]
    refine ((checkCount_yields _ _).bind fun _ => (expect_yields _ _).bind fun name =>
      accept_yields (ih _) (.pure _)).mono ?_
    rintro names _ ⟨_, _, _, rfl, ⟨hc, rfl⟩, name, _, _, rfl, rfl,
      ⟨_, rfl, name', more, rfl, hl, rfl⟩ | ⟨rfl, rfl⟩⟩
    · exact ⟨name, name' :: more, by simp, hl, rfl⟩
    · exact ⟨name, [], by simp, by simpa using hc, rfl⟩

/-- Parameters are read up to the closing parenthesis, and there are not too many. -/
theorem parameters_yields (fuel : Nat) :
    Yields (parameters fuel) fun names symbols =>
      names.length ≤ maxArity ∧ symbols = yieldNames names := by
  refine (test_yields (fun _ => rfl) (.pure []) (moreParameters_yields fuel #[])).mono ?_
  rintro names _ (⟨rfl, rfl⟩ | ⟨name, more, rfl, hl, rfl⟩)
  · exact ⟨Nat.zero_le _, rfl⟩
  · exact ⟨hl, rfl⟩

/-- No `else` comes next. -/
def NoElse (rest : List Token) : Prop := ∀ t rest', rest = t :: rest' → t.kind ≠ .keyword .else

/-- What the readers of statements have read, if there are no errors in the end. -/
structure StmtSound (fuel : Nat) : Prop where
  declaration : Yields (fun s => .ok (declaration fuel s).1 (declaration fuel s).2)
    fun stmt symbols => ∃ stmt', stmt = some stmt' ∧ Written (.declaration stmt') symbols
  declarationOrError : Yields (declarationOrError fuel) fun stmt symbols =>
    Written (.declaration stmt) symbols
  function : ∀ kind, Yields (function fuel kind) fun decl symbols =>
      Written (.function decl) symbols
  methods : ∀ done, Yields (methods fuel done) fun decls symbols =>
    ∃ more, decls = done.toList ++ more ∧ Written (.methods more) symbols
  block : ∀ done, Yields (block fuel done) fun stmts symbols =>
    ∃ more symbols', stmts = done.toList ++ more ∧ Written (.body more) symbols' ∧
      symbols = symbols' ++ [.mark .rightBrace]
  statement : YieldsThen (statement fuel) fun stmt symbols rest =>
    ∃ isOpen, Written (.statement isOpen stmt) symbols ∧ (isOpen = true → NoElse rest)

/-- What follows the condition of an `if`: the `else` goes to the last `if` that can take it. -/
theorem branch_yields {r : Read Stmt} (e : Expr)
    (h : YieldsThen r fun stmt symbols rest =>
      ∃ isOpen, Written (.statement isOpen stmt) symbols ∧ (isOpen = true → NoElse rest)) :
    YieldsThen (do
      let yes ← r
      if (← Read.accept (.keyword .else)).isSome then return .branch e yes (some (← r))
      else return .branch e yes none) fun stmt symbols rest =>
        ∃ isOpen, (e.WellFormed → Written (.statement isOpen stmt)
          (.word .if :: .mark .leftParen :: (e.yield ++ .mark .rightParen :: symbols))) ∧
          (isOpen = true → NoElse rest) := by
  constructor
  · refine h.advances.bind fun yes => (accept_advances _).bind fun mark => ?_
    split
    · exact h.advances.bind fun no => .pure _
    · exact .pure _
  · intro s stmt s' hs hr he'
    rw [bind_eq_ok] at hr
    obtain ⟨yes, s₁, h₁, hr⟩ := hr
    rw [bind_eq_ok] at hr
    obtain ⟨found, s₂, h₂, hr⟩ := hr
    have hm₁ := h.advances.of_ok h₁
    have hm₂ := (accept_advances _).of_ok h₂
    rcases accept_eq_ok.1 h₂ with ⟨rfl, rfl, hno⟩ | ⟨t, rest, hrest, hk, rfl, rfl⟩
    · obtain ⟨rfl, rfl⟩ := pure_eq_ok.1 hr
      obtain ⟨symbols, ht, isOpen, hw, -⟩ := h.takes hs h₁ he'
      refine ⟨symbols, ht, true, fun he => .branch he hw, fun _ t rest hrest hk => ?_⟩
      rw [sees_cons hrest] at hno
      exact of_decide_eq_false hno hk
    · rw [Option.isSome_some, if_pos rfl, bind_eq_ok] at hr
      obtain ⟨no, s₃, h₃, hr⟩ := hr
      obtain ⟨rfl, rfl⟩ := pure_eq_ok.1 hr
      have he₂ := (h.advances.of_ok h₃).errors_eq he'
      obtain ⟨symbols, ht, isOpen, hw, hopen⟩ := h.takes hs h₁ he₂
      obtain ⟨symbols', ht', isOpen', hw', hopen'⟩ := h.takes ((hm₁.trans hm₂).proper hs) h₃ he'
      -- An open statement would have taken the `else`.
      have hclosed : isOpen = false := by
        cases isOpen with
        | false => rfl
        | true => exact absurd hk (hopen rfl t rest hrest)
      subst hclosed
      refine ⟨symbols ++ .word .else :: symbols', ?_, isOpen',
        fun he => .branchElse he hw hw', hopen'⟩
      rw [hrest] at ht
      exact ht.append (.cons (Symbol.spells_word.2 hk) ht')

/-- What the readers of statements have read is written so, by induction on the fuel. -/
theorem stmtSound (fuel : Nat) : StmtSound fuel := by
  induction fuel with
  | zero =>
    constructor
    case declaration =>
      refine ⟨fun s => s.moves_recover _, fun s stmt s₁ _ h he => ?_⟩
      cases h
      exact absurd he (by simp [Read.declaration, Cursor.recover])
    all_goals
      intros
      exact .fail _
  | succ fuel ih =>
    constructor
    case declaration =>
      refine ⟨fun s => (stmtAdvances (fuel + 1)).declaration s, fun s stmt s₁ hs h he => ?_⟩
      rw [Read.declaration] at h
      cases hd : Read.declarationOrError fuel s with
      | ok stmt' s' =>
        rw [hd] at h
        cases h
        obtain ⟨symbols, ht, hw⟩ := ih.declarationOrError.takes hs hd he
        exact ⟨symbols, ht, stmt', rfl, hw⟩
      | error e s' =>
        rw [hd] at h
        cases h
        exact absurd he (by simp [Cursor.recover])
    case declarationOrError =>
      refine .peek_bind fun t => ?_
      split
      · next hk =>
        refine .skip_bind (Symbol.spells_word.2 hk) (by simp [hk])
          ((expect_yields _ _).bind fun name => superclass_yields.bind fun superclass =>
            (expectMark_yields _ _).bind fun _ => (ih.methods #[]).bind fun methods =>
            (expectMark_yields _ _).bind fun _ => .pure _) ?_
        rintro stmt _ _ ⟨name, _, _, rfl, rfl, superclass, _, _, rfl, rfl, _, _, _, rfl, rfl, decls,
          _, _, rfl, ⟨more, hm, hw⟩, _, _, _, rfl, rfl, rfl, rfl⟩
        rw [Array.toList_empty, List.nil_append] at hm
        subst hm
        exact .classDecl hw
      · next hk =>
        refine .skip_bind (Symbol.spells_word.2 hk) (by simp [hk])
          ((ih.function _).bind fun decl => .pure _) ?_
        rintro stmt _ _ ⟨decl, _, _, rfl, hw, rfl, rfl⟩
        rw [List.append_nil]
        exact .functionDecl hw
      · next hk =>
        refine .skip_bind (Symbol.spells_word.2 hk) (by simp [hk]) varDeclaration_yields ?_
        rintro stmt _ _ ⟨name, initial, rfl, hw, rfl⟩
        exact .var hw
      · refine YieldsThen.at (ih.statement.mono ?_) t
        rintro stmt symbols rest ⟨isOpen, hw, -⟩
        exact .statement hw
    case function =>
      intro kind
      refine ((expect_yields _ _).bind fun name => (expectMark_yields _ _).bind fun _ =>
        (parameters_yields _).bind fun params => (expectMark_yields _ _).bind fun _ =>
        (expectMark_yields _ _).bind fun _ => (ih.block #[]).bind fun body => .pure _).mono ?_
      rintro decl _ ⟨name, _, _, rfl, rfl, _, _, _, rfl, rfl, params, _, _, rfl, ⟨hl, rfl⟩, _, _, _,
        rfl, rfl, _, _, _, rfl, rfl, body, _, _, rfl, ⟨more, symbols, hm, hw, rfl⟩, rfl, rfl⟩
      rw [Array.toList_empty, List.nil_append] at hm
      subst hm
      rw [List.append_nil]
      exact .function hl hw
    case methods =>
      intro done
      refine (test_yields (fun _ => rfl) (.pure _) ((ih.function _).bind fun decl =>
        ih.methods (done.push decl))).mono ?_
      rintro decls _ (⟨rfl, rfl⟩ | ⟨decl, _, _, rfl, hw, more, rfl, hw'⟩)
      · exact ⟨[], (List.append_nil _).symm, .methodsNil⟩
      · exact ⟨decl :: more, by simp, .methodsCons hw hw'⟩
    case block =>
      -- There are no errors in the end, so each declaration was read and none drops out.
      intro done
      refine (test_yields (fun _ => rfl) ((expectMark_yields _ _).bind fun _ => .pure _)
        (ih.declaration.bind (S := fun stmt stmts symbols => ∀ stmt', stmt = some stmt' →
          ∃ more symbols', stmts = done.toList ++ stmt' :: more ∧ Written (.body more) symbols' ∧
            symbols = symbols' ++ [.mark .rightBrace]) fun stmt => ?_)).mono ?_
      · cases stmt with
        | none => exact (ih.block done).mono fun _ _ _ _ h => absurd h.symm (Option.some_ne_none _)
        | some stmt =>
          refine (ih.block (done.push stmt)).mono ?_
          rintro stmts _ ⟨more, symbols, rfl, hw, rfl⟩ _ ⟨⟩
          exact ⟨more, symbols, by simp, hw, rfl⟩
      · rintro stmts _ (⟨_, _, _, rfl, rfl, rfl, rfl⟩ | ⟨_, _, _, rfl, ⟨stmt, rfl, hw⟩, h⟩)
        · exact ⟨[], [], (List.append_nil _).symm, .bodyNil, rfl⟩
        · obtain ⟨more, symbols, rfl, hw', rfl⟩ := h stmt rfl
          exact ⟨stmt :: more, _, rfl, .bodyCons hw hw', (List.append_assoc _ _ _).symm⟩
    case statement =>
      refine .peek_bind fun t => ?_
      split
      · next hk =>
        refine .skip_bind (Symbol.spells_word.2 hk) (by simp [hk])
          (forClauses_yields.bindThen fun clauses => ih.statement.bind_pure _) ?_
        rintro stmt _ rest ⟨clauses, _, symbols, rfl, ⟨first, written, hf, hw, hw', hc, rfl⟩, body,
          rfl, isOpen, hb, hopen⟩
        refine ⟨isOpen, ?_, hopen⟩
        have := Written.forLoop hf hw hw' hc hb
        simpa using this
      · next hk =>
        refine .skip_bind (Symbol.spells_word.2 hk) (by simp [hk])
          ((condition_yields _).bindThen fun e => branch_yields e ih.statement) ?_
        rintro stmt _ rest ⟨e, _, symbols, rfl, ⟨hw, rfl⟩, isOpen, hb, hopen⟩
        refine ⟨isOpen, ?_, hopen⟩
        simpa using hb hw
      · next hk =>
        refine .skip_bind (Symbol.spells_word.2 hk) (by simp [hk])
          ((condition_yields _).bindThen fun e => ih.statement.bind_pure _) ?_
        rintro stmt _ rest ⟨e, _, symbols, rfl, ⟨hw, rfl⟩, body, rfl, isOpen, hb, hopen⟩
        refine ⟨isOpen, ?_, hopen⟩
        simpa using Written.loop hw hb
      · next hk =>
        refine .skip_bind (Symbol.spells_some.2 ⟨hk, rfl⟩) (by simp [hk])
          ((expressionUnless_yields _).bind fun value =>
            (expectMark_yields _ _).bind fun _ => .pure _) ?_
        rintro stmt _ rest ⟨value, _, _, rfl, ⟨hw, rfl⟩, _, _, _, rfl, rfl, rfl, rfl⟩
        exact ⟨false, .ret hw, fun h => absurd h Bool.false_ne_true⟩
      · next hk =>
        refine .skip_bind (Symbol.spells_mark.2 hk) (by simp [hk])
          ((ih.block #[]).bind fun body => .pure _) ?_
        rintro stmt _ rest ⟨body, _, _, rfl, ⟨more, symbols, hm, hw, rfl⟩, rfl, rfl⟩
        rw [Array.toList_empty, List.nil_append] at hm
        subst hm
        rw [List.append_nil]
        exact ⟨false, .block hw, fun h => absurd h Bool.false_ne_true⟩
      · next hk =>
        refine .skip_bind (Symbol.spells_word.2 hk) (by simp [hk])
          (expression_yields.bind fun e => (expectMark_yields _ _).bind fun _ => .pure _) ?_
        rintro stmt _ rest ⟨e, _, _, rfl, ⟨hw, rfl⟩, _, _, _, rfl, rfl, rfl, rfl⟩
        exact ⟨false, .print hw, fun h => absurd h Bool.false_ne_true⟩
      · refine YieldsThen.at (YieldsThen.mono expressionStatement_yields ?_) t
        rintro stmt _ rest ⟨e, rfl, hw, rfl⟩
        exact ⟨false, .expression hw, fun h => absurd h Bool.false_ne_true⟩

end Read

end Lox
