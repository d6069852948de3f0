import Mathlib
import Lox.Proofs.Grammar
import Lox.Proofs.Recasting
import Lox.Proofs.Spelling

/-!
# Writing programs down

The symbols of a statement, from left to right (`Stmt.yield`), are what has to be written down for
it. There is no `for` among them: a loop is written with `while`, and what a `for` does first and
after each time stands in the blocks that it was read as. No parentheses and braces are written but
those of the tree and those that belong to a form.

A program that was read can be written down in this way although it may have been read from other
symbols (`Written.rendered`). The one thing that could go wrong is an `else` that goes to another
`if`; but a `for` that is written as a block or as a `while` is open only if the `for` was. So what
is written down is read back as the same program, on whatever lines it stands
(`Program.parse_render`).

* `Program.render`: the tokens of a program;
* `Program.Renders`: tokens that are these but for their lines;
* `Program.bare`: a program without the identities of its expressions and without lines.
-/

namespace Lox

theorem kindNames_ne_eof (names : List Lexeme) : ∀ symbol ∈ yieldNames names,
    symbol.kind ≠ .eof := by
  induction names with
  | nil => simp [yieldNames]
  | cons name rest ih =>
    cases rest with
    | nil => simp [yieldNames, Symbol.name]
    | cons name' rest =>
      rw [yieldNames_cons_cons, List.forall_mem_cons, List.forall_mem_cons]
      exact ⟨by simp [Symbol.name], by simp [Symbol.mark], ih⟩

namespace Stmt

mutual

/-- The symbols of a statement. -/
def yield : Stmt → List Symbol
  | expression e => e.yield ++ [.mark .semicolon]
  | print e => .word .print :: (e.yield ++ [.mark .semicolon])
  | var name initial => yieldVar name initial
  | block body => .mark .leftBrace :: (yieldAll body ++ [.mark .rightBrace])
  | branch condition yes no =>
    .word .if :: .mark .leftParen ::
      (condition.yield ++ .mark .rightParen :: (yes.yield ++ yieldElse no))
  | loop condition body =>
    .word .while :: .mark .leftParen :: (condition.yield ++ .mark .rightParen :: body.yield)
  | function decl => .word .fun :: yieldDecl decl
  | ret keyword value =>
    ⟨.keyword .return, some keyword⟩ :: (Expr.yieldOption value ++ [.mark .semicolon])
  | classDecl name superclass methods =>
    .word .class :: .name name :: (yieldSuperclass superclass ++
      .mark .leftBrace :: (yieldDecls methods ++ [.mark .rightBrace]))

/-- The symbols of statements, one after another. -/
def yieldAll : List Stmt → List Symbol
  | [] => []
  | stmt :: rest => stmt.yield ++ yieldAll rest

/-- The symbols of what is done else. -/
def yieldElse : Option Stmt → List Symbol
  | none => []
  | some stmt => .word .else :: stmt.yield

/-- The symbols of a function from its name on. -/
def yieldDecl : FunctionDecl Stmt → List Symbol
  | ⟨name, params, body⟩ =>
    .name name :: .mark .leftParen :: (yieldNames params ++
      .mark .rightParen :: .mark .leftBrace :: (yieldAll body ++ [.mark .rightBrace]))

/-- The symbols of methods, one after another. -/
def yieldDecls : List (FunctionDecl Stmt) → List Symbol
  | [] => []
  | decl :: rest => yieldDecl decl ++ yieldDecls rest

end

mutual

/-- The end of the source is no part of a statement. -/
theorem kind_ne_eof : (stmt : Stmt) → ∀ symbol ∈ stmt.yield, symbol.kind ≠ .eof
  | expression e => by simpa [yield, or_imp, forall_and, Symbol.mark] using e.kind_ne_eof
  | print e => by simpa [yield, or_imp, forall_and, Symbol.mark, Symbol.word] using e.kind_ne_eof
  | var _ none => by
      simp [yield, yieldVar, Expr.yieldInitial, Symbol.mark, Symbol.word, Symbol.name]
  | var _ (some e) => by
    simpa [yield, yieldVar, Expr.yieldInitial, or_imp, forall_and, Symbol.mark, Symbol.word,
      Symbol.name] using
      e.kind_ne_eof
  | block body => by simpa [yield, or_imp, forall_and, Symbol.mark] using kindAll_ne_eof body
  | branch condition yes no => by
    simpa [yield, or_imp, forall_and, Symbol.mark, Symbol.word] using
      ⟨condition.kind_ne_eof, kind_ne_eof yes, kindElse_ne_eof no⟩
  | loop condition body => by
    simpa [yield, or_imp, forall_and, Symbol.mark, Symbol.word] using
      ⟨condition.kind_ne_eof, kind_ne_eof body⟩
  | function decl => by simpa [yield, Symbol.word] using kindDecl_ne_eof decl
  | ret _ none => by simp [yield, Expr.yieldOption, Symbol.mark]
  | ret _ (some e) => by
    simpa [yield, Expr.yieldOption, or_imp, forall_and, Symbol.mark] using e.kind_ne_eof
  | classDecl _ superclass methods => by
    have hmethods := kindDecls_ne_eof methods
    cases superclass <;>
      simpa [yield, yieldSuperclass, or_imp, forall_and, Symbol.mark, Symbol.word, Symbol.name]
        using hmethods

theorem kindAll_ne_eof : (body : List Stmt) → ∀ symbol ∈ yieldAll body, symbol.kind ≠ .eof
  | [] => by simp [yieldAll]
  | stmt :: rest => by
    simpa [yieldAll, or_imp, forall_and] using ⟨kind_ne_eof stmt, kindAll_ne_eof rest⟩

theorem kindElse_ne_eof : (no : Option Stmt) → ∀ symbol ∈ yieldElse no, symbol.kind ≠ .eof
  | none => by simp [yieldElse]
  | some stmt => by simpa [yieldElse, Symbol.word] using kind_ne_eof stmt

theorem kindDecl_ne_eof : (decl : FunctionDecl Stmt) → ∀ symbol ∈ yieldDecl decl, symbol.kind ≠ .eof
  | ⟨_, params, body⟩ => by
    simpa [yieldDecl, or_imp, forall_and, Symbol.mark, Symbol.name] using
      ⟨kindNames_ne_eof params, kindAll_ne_eof body⟩

theorem kindDecls_ne_eof : (decls : List (FunctionDecl Stmt)) →
    ∀ symbol ∈ yieldDecls decls, symbol.kind ≠ .eof
  | [] => by simp [yieldDecls]
  | decl :: rest => by
    simpa [yieldDecls, or_imp, forall_and] using ⟨kindDecl_ne_eof decl, kindDecls_ne_eof rest⟩

end

end Stmt

/-! ### What is read can be written down -/

/-- What is written in some way is also written by its own symbols. A statement is then open only if
    it was. -/
def Form.Rendered : Form → Prop
  | statement isOpen stmt =>
    ∃ isOpen', (isOpen' = true → isOpen = true) ∧ Written (.statement isOpen' stmt) stmt.yield
  | declaration stmt => Written (.declaration stmt) stmt.yield
  | function decl => Written (.function decl) (Stmt.yieldDecl decl)
  | body stmts => Written (.body stmts) (Stmt.yieldAll stmts)
  | methods decls => Written (.methods decls) (Stmt.yieldDecls decls)

variable {symbols : List Symbol}

theorem WrittenFirst.declares {initial : Stmt} (h : WrittenFirst (some initial) symbols) :
    Written (.declaration initial) initial.yield := by
  cases h with
  | var hw => exact .var hw
  | expression hw => exact .statement (.expression hw)

theorem IsCondition.wellFormed {written : Option Expr} {condition : Expr}
    (h : IsCondition written condition) (hw : Expr.OptionWellFormed written) :
    condition.WellFormed := by
  cases h with
  | none id => trivial
  | some e => exact Expr.optionWellFormed_some.1 hw

namespace Form.Rendered

/-- Two declarations in a block of their own. -/
theorem pair {first second : Stmt} (h : Rendered (.declaration first))
    (h' : Rendered (.declaration second)) :
    Written (.statement false (.block [first, second])) (Stmt.block [first, second]).yield :=
  .block (.bodyCons h (.bodyCons h' .bodyNil))

variable {increment : Option Expr}

/-- The loop that a `for` stands for, with its increment at the end of the body. -/
theorem whileLoop {isOpen : Bool} {condition : Expr} {body : Stmt} (hc : condition.WellFormed)
    (hi : Expr.OptionWellFormed increment) (h : Rendered (.statement isOpen body)) :
    Rendered (.statement isOpen (Read.ForClauses.toLoop ⟨none, condition, increment⟩ body)) := by
  obtain ⟨isOpen', hopen, hw⟩ := h
  cases increment with
  | none => exact ⟨isOpen', hopen, .loop hc hw⟩
  | some e =>
    -- The block ends with a brace, so an `else` behind it is not for the body.
    refine ⟨false, fun h => absurd h Bool.false_ne_true, .loop hc (pair ?_ ?_)⟩
    · exact .statement hw
    · exact .statement (.expression (Expr.optionWellFormed_some.1 hi))

/-- The loop that a `for` stands for. -/
theorem forLoop {isOpen : Bool} {initial : Option Stmt} {first : List Symbol} {condition : Expr}
    {body : Stmt} (hf : WrittenFirst initial first) (hc : condition.WellFormed)
    (hi : Expr.OptionWellFormed increment) (h : Rendered (.statement isOpen body)) :
    Rendered (.statement isOpen (Read.ForClauses.toLoop ⟨initial, condition, increment⟩ body)) := by
  have hloop := whileLoop hc hi h
  cases initial with
  | none => exact hloop
  | some initial =>
    obtain ⟨isOpen', -, hw⟩ := hloop
    exact ⟨false, fun h => absurd h Bool.false_ne_true, pair hf.declares (.statement hw)⟩

end Form.Rendered

/-- What is written in some way can be written without `for`. -/
theorem Written.rendered {form : Form} (h : Written form symbols) : form.Rendered := by
  induction h with
  | expression hw => exact ⟨false, id, .expression hw⟩
  | print hw => exact ⟨false, id, .print hw⟩
  | ret hw => exact ⟨false, id, .ret hw⟩
  | block _ ih => exact ⟨false, id, .block ih⟩
  | branch hw _ ih =>
    obtain ⟨isOpen', -, ih⟩ := ih
    refine ⟨true, id, ?_⟩
    rw [Stmt.yield, Stmt.yieldElse, List.append_nil]
    exact .branch hw ih
  | branchElse hw _ _ ih ih' =>
    obtain ⟨isOpen, hopen, ih⟩ := ih
    obtain ⟨isOpen', hopen', ih'⟩ := ih'
    -- The `else` is still for this `if`: what stands before it was closed.
    obtain rfl : isOpen = false := Bool.eq_false_iff.2 fun h => absurd (hopen h) Bool.false_ne_true
    exact ⟨isOpen', hopen', .branchElse hw ih ih'⟩
  | loop hw _ ih =>
    obtain ⟨isOpen', hopen, ih⟩ := ih
    exact ⟨isOpen', hopen, .loop hw ih⟩
  | forLoop hf hw hi hc _ ih => exact .forLoop hf (hc.wellFormed hw) hi ih
  | statement _ ih =>
    obtain ⟨_, -, ih⟩ := ih
    exact .statement ih
  | var hw => exact .var hw
  | functionDecl _ ih => exact .functionDecl ih
  | classDecl _ ih => exact .classDecl ih
  | function hl _ ih => exact .function hl ih
  | bodyNil => exact .bodyNil
  | bodyCons _ _ ih ih' => exact .bodyCons ih ih'
  | methodsNil => exact .methodsNil
  | methodsCons _ _ ih ih' => exact .methodsCons ih ih'

/-! ### Symbols of relabelled trees -/

variable (L : Relabelling)

/-- The same symbol on another line. -/
def Symbol.relabel (symbol : Symbol) : Symbol := ⟨symbol.kind, symbol.lexeme.map (Lexeme.relabel L)⟩

theorem Symbol.relabel_mark (mark : Punctuator) : (Symbol.mark mark).relabel L = .mark mark := rfl

theorem Symbol.relabel_word (word : Keyword) : (Symbol.word word).relabel L = .word word := rfl

theorem Symbol.relabel_name (name : Lexeme) :
    (Symbol.name name).relabel L = .name (name.relabel L) := rfl

theorem Symbol.relabel_none (kind : Token.Kind) :
    Symbol.relabel L ⟨kind, none⟩ = ⟨kind, none⟩ := rfl

theorem Symbol.relabel_some (kind : Token.Kind) (lexeme : Lexeme) :
    Symbol.relabel L ⟨kind, some lexeme⟩ = ⟨kind, some (lexeme.relabel L)⟩ := rfl

attribute [local simp] Symbol.relabel_mark Symbol.relabel_word Symbol.relabel_name
    Symbol.relabel_none
  Symbol.relabel_some

mutual

/-- A relabelled expression has the same symbols, on other lines. -/
theorem Expr.yield_relabel : (e : Expr) → (e.relabel L).yield = e.yield.map (Symbol.relabel L)
  | .literal _ value => by simp [Expr.relabel, Expr.yield]
  | .unary _ op mark right => by simp [Expr.relabel, Expr.yield, Expr.yield_relabel right]
  | .binary _ op mark left right => by
    simp [Expr.relabel, Expr.yield, Expr.yield_relabel left, Expr.yield_relabel right]
  | .logical _ op mark left right => by
    simp [Expr.relabel, Expr.yield, Expr.yield_relabel left, Expr.yield_relabel right]
  | .grouping _ inner => by simp [Expr.relabel, Expr.yield, Expr.yield_relabel inner]
  | .var _ name => by simp [Expr.relabel, Expr.yield]
  | .assign _ name value => by simp [Expr.relabel, Expr.yield, Expr.yield_relabel value]
  | .call _ callee paren arguments => by
    simp [Expr.relabel, Expr.yield, Expr.yield_relabel callee, Expr.yieldAll_relabel arguments]
  | .get _ object name => by simp [Expr.relabel, Expr.yield, Expr.yield_relabel object]
  | .set _ object name value => by
    simp [Expr.relabel, Expr.yield, Expr.yield_relabel object, Expr.yield_relabel value]
  | .this _ keyword => by simp [Expr.relabel, Expr.yield]
  | .super _ keyword method => by simp [Expr.relabel, Expr.yield]

theorem Expr.yieldAll_relabel :
    (es : List Expr) → Expr.yieldAll (Expr.relabelAll L es) =
      (Expr.yieldAll es).map (Symbol.relabel L)
  | [] => rfl
  | [e] => Expr.yield_relabel e
  | e :: e' :: rest => by
    have hrest := Expr.yieldAll_relabel (e' :: rest)
    rw [Expr.relabelAll] at hrest
    rw [Expr.relabelAll, Expr.relabelAll, Expr.yieldAll_cons_cons, Expr.yieldAll_cons_cons, hrest,
      Expr.yield_relabel e, List.map_append, List.map_cons, Symbol.relabel_mark]

end

theorem Expr.yieldOption_relabel (e : Option Expr) :
    Expr.yieldOption (e.map (Expr.relabel L)) = (Expr.yieldOption e).map (Symbol.relabel L) := by
  cases e with
  | none => rfl
  | some e => exact e.yield_relabel L

theorem yieldVar_relabel (name : Lexeme) (initial : Option Expr) :
    yieldVar (name.relabel L) (initial.map (Expr.relabel L)) =
      (yieldVar name initial).map (Symbol.relabel L) := by
  cases initial with
  | none => rfl
  | some e => simp [yieldVar, Expr.yieldInitial, e.yield_relabel L]

/-- Relabelled names have the same symbols, on other lines. -/
theorem yieldNames_relabel (names : List Lexeme) :
    yieldNames (names.map (Lexeme.relabel L)) = (yieldNames names).map (Symbol.relabel L) := by
  induction names with
  | nil => rfl
  | cons name rest ih =>
    cases rest with
    | nil => rfl
    | cons name' rest =>
      rw [List.map_cons] at ih
      rw [List.map_cons, List.map_cons, yieldNames_cons_cons, yieldNames_cons_cons, ih,
        List.map_cons, List.map_cons, Symbol.relabel_name, Symbol.relabel_mark]

theorem yieldSuperclass_relabel (superclass : Option VarRef) :
    yieldSuperclass (superclass.map (VarRef.relabel L)) =
      (yieldSuperclass superclass).map (Symbol.relabel L) := by
  cases superclass <;> rfl

namespace Stmt

mutual

/-- A relabelled statement has the same symbols, on other lines. -/
theorem yield_relabel : (stmt : Stmt) → (stmt.relabel L).yield = stmt.yield.map (Symbol.relabel L)
  | .expression e => by simp [relabel, yield, e.yield_relabel L]
  | .print e => by simp [relabel, yield, e.yield_relabel L]
  | .var name initial => yieldVar_relabel L name initial
  | .block body => by simp [relabel, yield, yieldAll_relabel body]
  | .branch condition yes no => by
    simp [relabel, yield, condition.yield_relabel L, yield_relabel yes, yieldElse_relabel no]
  | .loop condition body => by simp [relabel, yield, condition.yield_relabel L, yield_relabel body]
  | .function decl => by simp [relabel, yield, yieldDecl_relabel decl]
  | .ret keyword value => by simp [relabel, yield, Expr.yieldOption_relabel]
  | .classDecl name superclass methods => by
    simp [relabel, yield, yieldSuperclass_relabel, yieldDecls_relabel methods]

theorem yieldAll_relabel :
    (body : List Stmt) → yieldAll (relabelAll L body) = (yieldAll body).map (Symbol.relabel L)
  | [] => rfl
  | stmt :: rest => by simp [relabelAll, yieldAll, yield_relabel stmt, yieldAll_relabel rest]

theorem yieldElse_relabel :
    (no : Option Stmt) → yieldElse (relabelOption L no) = (yieldElse no).map (Symbol.relabel L)
  | none => rfl
  | some stmt => by simp [relabelOption, yieldElse, yield_relabel stmt]

theorem yieldDecl_relabel :
    (decl : FunctionDecl Stmt) → yieldDecl (relabelDecl L decl) =
      (yieldDecl decl).map (Symbol.relabel L)
  | ⟨name, params, body⟩ => by
      simp [relabelDecl, yieldDecl, yieldNames_relabel, yieldAll_relabel body]

theorem yieldDecls_relabel :
    (decls : List (FunctionDecl Stmt)) →
      yieldDecls (relabelDecls L decls) = (yieldDecls decls).map (Symbol.relabel L)
  | [] => rfl
  | decl :: rest => by
      simp [relabelDecls, yieldDecls, yieldDecl_relabel decl, yieldDecls_relabel rest]

end

end Stmt

/-! ### Lines do not matter -/

/-- Everything stands on one line. -/
def Relabelling.flat : Relabelling := ⟨fun i => i, fun _ => 0⟩

/-- The token is what the symbol asks for, perhaps on another line. -/
def Symbol.Renders (symbol : Symbol) (t : Token) : Prop :=
  t.kind = symbol.kind ∧ ∀ l ∈ symbol.lexeme, t.lexeme = l.text

theorem Symbol.Renders.flat {symbol : Symbol} {t : Token} (h : symbol.Renders t) :
    (symbol.relabel .flat).Spells (t.relabel .flat) := by
  refine ⟨h.1, fun l hl => ?_⟩
  obtain ⟨l', hl', rfl⟩ := Option.mem_map.1 hl
  exact congrArg (Lexeme.mk · 0) (h.2 l' hl')

/-- The same tokens, all on one line. -/
def Cursor.flat (s : Cursor) : Cursor :=
  { s with rest := s.rest.map (Token.relabel .flat), eof := s.eof.relabel .flat }

theorem Cursor.recast_flat {s : Cursor} (h : s.errors = #[]) : s.Recast .flat none s.flat where
  rest := (List.append_nil _).symm
  eof _ := rfl
  nextId _ := rfl
  size := Nat.le_refl _
  errors := h

theorem Cursor.Proper.flat {s : Cursor} (hs : s.Proper) : s.flat.Proper where
  eof := hs.eof
  size := by simpa [Cursor.flat] using hs.size

namespace Program

/-- A program without the identities of its expressions and without lines. -/
def bare (program : Program) : Program := Stmt.unnumberedAll (Stmt.relabelAll .flat program)

/-- The tokens are what has to be written down for the program, on any lines. -/
def Renders (program : Program) (tokens : List Token) : Prop :=
  List.Forall₂ Symbol.Renders (Stmt.yieldAll program) tokens

end Program

/-- How a token is written whose lexeme is not kept. -/
def Token.Kind.text : Token.Kind → String
  | punctuator mark => mark.text
  | keyword word => word.text
  | identifier => ""
  | string contents => "\"" ++ contents ++ "\""
  | number value => Number.display value
  | eof => ""

/-- The token that a symbol asks for, on a given line. -/
def Symbol.token (line : Nat) (symbol : Symbol) : Token :=
  ⟨symbol.kind, (symbol.lexeme.map Lexeme.text).getD symbol.kind.text, line⟩

namespace Program

/-- The tokens of a program, on one line. -/
def render (program : Program) (line : Nat) : List Token :=
  (Stmt.yieldAll program).map (Symbol.token line)

theorem renders_render (program : Program) (line : Nat) :
    program.Renders (program.render line) := by
  rw [Renders, render, List.forall₂_map_right_iff, List.forall₂_same]
  intro symbol _
  refine ⟨rfl, fun l hl => ?_⟩
  rw [Symbol.token, Option.mem_def.1 hl, Option.map_some, Option.getD_some]

variable {program : Program} {s : Cursor}

/-- A program that was read can be written down without its lines. -/
theorem written_flat (hs : s.Proper) (he : s.errors = #[]) (h : (Program.parse s).1 = .ok program) :
    Written (.body (Stmt.relabelAll .flat program))
      ((Stmt.yieldAll program).map (Symbol.relabel .flat)) := by
  obtain ⟨_, hp, -⟩ := parse_recast hs (Prod.ext h rfl) (Cursor.recast_flat he)
  obtain ⟨symbols, hw, -⟩ := written_of_parse hs.flat (congrArg Prod.fst hp)
  rw [← Stmt.yieldAll_relabel]
  exact hw.rendered

variable {tokens : List Token} {symbols : List Symbol}

theorem renders_kinds (h : program.Renders tokens) :
    tokens.map Token.kind = (Stmt.yieldAll program).map Symbol.kind := by
  have hk : List.Forall₂ Eq ((Stmt.yieldAll program).map Symbol.kind) (tokens.map Token.kind) := by
    rw [List.forall₂_map_left_iff, List.forall₂_map_right_iff]
    exact List.Forall₂.imp (fun _ _ ht => ht.1.symm) h
  rw [List.forall₂_eq_eq_eq] at hk
  exact hk.symm

theorem spelled_flat (h : program.Renders tokens) :
    Spelled ((Stmt.yieldAll program).map (Symbol.relabel .flat))
      (tokens.map (Token.relabel .flat)) := by
  rw [Spelled, List.forall₂_map_left_iff, List.forall₂_map_right_iff]
  exact List.Forall₂.imp (fun _ _ => Symbol.Renders.flat) h

theorem isEof_of_renders (h : program.Renders tokens) : ∀ t ∈ tokens, t.isEof = false := by
  intro t ht
  obtain ⟨symbol, hs, hk⟩ := List.mem_map.1 (renders_kinds h ▸ List.mem_map_of_mem ht)
  rw [Bool.eq_false_iff, ne_eq, Token.isEof_iff, ← hk]
  exact Stmt.kindAll_ne_eof program symbol hs

/-- Tokens of what is written are read, whatever their lines and lexemes: only their kinds
    matter. -/
theorem exists_parse_of_kinds {stmts : List Stmt} {eof : Token} (firstId : Nat)
    (ht : ∀ t ∈ tokens, t.isEof = false) (heof : eof.isEof = true)
    (hw : Written (.body stmts) symbols) (hk : tokens.map Token.kind = symbols.map Symbol.kind) :
    ∃ program, (Program.parse (.ofTokens (tokens ++ [eof]) firstId)).1 = .ok program := by
  obtain ⟨ws, rfl, hws⟩ := hw.derives.holds Nonterminal.means_of_holds hk
  obtain ⟨stmts', symbols', hw', hs'⟩ := SpellsForm.body hws
  exact (parse_eq_ok_iff firstId ht heof).2 ⟨stmts', symbols', hw', hs'⟩

/-- What is read from tokens of a written program is that program, without identities. -/
theorem unnumbered_of_parse {program' : Program} (hs : s.Proper)
    (hw : Written (.body program) symbols) (hsp : Spelled symbols s.rest)
    (h : (Program.parse s).1 = .ok program') :
    Stmt.unnumberedAll program' = Stmt.unnumberedAll program := by
  obtain ⟨stmts', n, hstmts, hread⟩ :=
    hw.declarations_eq #[] hs ⟨s.rest, (List.append_nil _).symm, hsp⟩ hs.size
  obtain ⟨hd, -⟩ := parse_eq_ok.1 (Prod.ext h rfl)
  rw [hread, Array.empty_append, Prod.mk.injEq, Array.mk.injEq] at hd
  rw [← hd.1, hstmts]

/-- A program that was read is written down as tokens that are read as the same program, but for
    identities and lines. The tokens may stand on any lines, and the numbering may start
    anywhere. -/
theorem parse_render (tokens : List Token) (firstId firstId' line : Nat) (program : Program)
    (h : (Program.parse (.ofTokens tokens firstId)).1 = .ok program) :
    program.Renders (program.render line) ∧
      ∀ rendered eof, program.Renders rendered → eof.isEof = true →
        ∃ program', (Program.parse (.ofTokens (rendered ++ [eof]) firstId')).1 = .ok program' ∧
          program'.bare = program.bare := by
  have hs := Cursor.proper_ofTokens tokens firstId
  refine ⟨renders_render program line, fun rendered eof hr heof => ?_⟩
  have hw := written_flat hs (Cursor.errors_ofTokens tokens firstId) h
  have ht := isEof_of_renders hr
  have hk : rendered.map Token.kind =
      ((Stmt.yieldAll program).map (Symbol.relabel .flat)).map Symbol.kind := by
    rw [renders_kinds hr, List.map_map]
    rfl
  obtain ⟨program', hp'⟩ := exists_parse_of_kinds firstId' ht heof hw hk
  refine ⟨program', hp', ?_⟩
  have hs' := Cursor.proper_ofTokens (rendered ++ [eof]) firstId'
  obtain ⟨_, hflat, -⟩ := parse_recast hs' (Prod.ext hp' rfl)
    (Cursor.recast_flat (Cursor.errors_ofTokens _ firstId'))
  refine unnumbered_of_parse hs'.flat hw ?_ (congrArg Prod.fst hflat)
  rw [Cursor.flat, Cursor.rest_ofTokens, takeWhile_append_eof ht heof]
  exact spelled_flat hr

/-- `if (a) for (; ; i) if (b) x; else y;` is written down with a `while` and a block, and the
    `else` stays where it was. -/
theorem parse_render_for :
    ∃ tokens program, (Program.parse (.ofTokens tokens 0)).1 = .ok program ∧
      (program.render 1).map Token.lexeme = ["if", "(", "a", ")", "while", "(", "true", ")",
        "\x7b", "if", "(", "b", ")", "x", ";", "else", "y", ";", "i", ";", "\x7d"] ∧
      ∃ program',
        (Program.parse (.ofTokens (program.render 1 ++ [⟨.eof, "", 1⟩]) 7)).1 = .ok program' ∧
        program'.bare = program.bare := by
  obtain ⟨tokens, hread⟩ : ∃ tokens, (Program.parse (.ofTokens tokens 0)).1.toOption.map
      (fun program => (program.render 1).map Token.lexeme) = some ["if", "(", "a", ")",
        "while", "(", "true",
        ")", "\x7b", "if", "(", "b", ")", "x", ";", "else", "y", ";", "i", ";", "\x7d"] :=
    ⟨[⟨.keyword .if, "if", 1⟩, ⟨.punctuator .leftParen, "(", 1⟩, ⟨.identifier, "a", 1⟩,
      ⟨.punctuator .rightParen, ")", 1⟩, ⟨.keyword .for, "for", 2⟩,
      ⟨.punctuator .leftParen, "(", 2⟩,
      ⟨.punctuator .semicolon, ";", 2⟩, ⟨.punctuator .semicolon, ";", 2⟩, ⟨.identifier, "i", 2⟩,
      ⟨.punctuator .rightParen, ")", 2⟩, ⟨.keyword .if, "if", 3⟩, ⟨.punctuator .leftParen, "(", 3⟩,
      ⟨.identifier, "b", 3⟩, ⟨.punctuator .rightParen, ")", 3⟩, ⟨.identifier, "x", 3⟩,
      ⟨.punctuator .semicolon, ";", 3⟩, ⟨.keyword .else, "else", 4⟩, ⟨.identifier, "y", 4⟩,
      ⟨.punctuator .semicolon, ";", 4⟩, ⟨.eof, "", 4⟩], by decide +kernel⟩
  obtain ⟨program, hp, hlexemes⟩ := Option.map_eq_some_iff.1 hread
  have h : (Program.parse (.ofTokens tokens 0)).1 = .ok program := by
    generalize (Program.parse (.ofTokens tokens 0)).1 = result at hp
    cases result with
    | error es => cases hp
    | ok program' => exact congrArg _ (Option.some.inj hp)
  exact ⟨tokens, program, h, hlexemes,
    (parse_render tokens 0 7 1 program h).2 _ _ (renders_render program 1) rfl⟩

end Program

end Lox
