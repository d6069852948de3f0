import Mathlib
import Lox.Proofs.Rereading

/-!
# The grammar

The grammar of programs as a table of rules (`Nonterminal.rule`), with what derives from a rule
(`Derives`). It differs from the trees that readers build: operators are chains without a tree, an
assignment says in advance what its target is, and an `else` may belong to any `if` before it.

Still a program is read if and only if it derives from `program` (`Program.parse_ok_iff_derives`).
What is written derives from the grammar by the structure of the tree. The other way round, what
derives from a nonterminal can be written as a tree: the trees are closed under all the rules
(`Nonterminal.means_of_holds`), and the grammar is the least such thing (`Derives.holds`).
-/

namespace Lox

/-- The nonterminals. -/
inductive Nonterminal where
  | program | declaration | classDecl | funDecl | function | parameters | varDecl
  | statement | exprStmt | forStmt | ifStmt | printStmt | returnStmt | whileStmt | block
  | expression | assignment | logicOr | logicAnd | equality | comparison | term | factor
  | unary | call | arguments | primary
  deriving DecidableEq, Repr

/-- The right-hand side of a rule. -/
inductive Rule where
  /-- A token of the given kind. -/
  | kind (kind : Token.Kind)
  /-- Any number. -/
  | number
  /-- Any string. -/
  | string
  /-- What derives from a nonterminal. -/
  | ref (n : Nonterminal)
  /-- Nothing. -/
  | empty
  /-- One after the other. -/
  | seq (first second : Rule)
  /-- One or the other. -/
  | alt (first second : Rule)
  /-- Any number of times. -/
  | star (rule : Rule)
  /-- At most the given number of times. -/
  | atMost (count : Nat) (rule : Rule)

namespace Rule

/-- A punctuator. -/
def mark (mark : Punctuator) : Rule := kind (.punctuator mark)

/-- A keyword. -/
def word (word : Keyword) : Rule := kind (.keyword word)

/-- A name. -/
def ident : Rule := kind .identifier

/-- What can be left out. -/
def opt (rule : Rule) : Rule := alt rule empty

/-- All one after the other. -/
def all : List Rule → Rule
  | [] => empty
  | [rule] => rule
  | rule :: rules => seq rule (all rules)

/-- One of several. -/
def any : List Rule → Rule
  | [] => empty
  | [rule] => rule
  | rule :: rules => alt rule (any rules)

/-- Operands with operators between them. -/
def chain (next : Nonterminal) (operators : List Rule) : Rule :=
  seq (ref next) (star (seq (any operators) (ref next)))

end Rule

open Rule in
/-- The rules. There are at most as many parameters and arguments as `maxArity`. -/
def Nonterminal.rule : Nonterminal → Rule
  | program => seq (star (ref declaration)) (kind .eof)
  | declaration => any [ref classDecl, ref funDecl, ref varDecl, ref statement]
  | classDecl =>
    all [word .class, ident, opt (all [mark .less, ident]), mark .leftBrace, star (ref function),
      mark .rightBrace]
  | funDecl => all [word .fun, ref function]
  | function =>
    all [ident, mark .leftParen, opt (ref parameters), mark .rightParen, ref block]
  | parameters => all [ident, atMost (maxArity - 1) (all [mark .comma, ident])]
  | varDecl => all [word .var, ident, opt (all [mark .equal, ref expression]), mark .semicolon]
  | statement =>
    any [ref exprStmt, ref forStmt, ref ifStmt, ref printStmt, ref returnStmt, ref whileStmt,
      ref block]
  | exprStmt => all [ref expression, mark .semicolon]
  | forStmt =>
    all [word .for, mark .leftParen, any [ref varDecl, ref exprStmt, mark .semicolon],
      opt (ref expression), mark .semicolon, opt (ref expression), mark .rightParen, ref statement]
  | ifStmt =>
    all [word .if, mark .leftParen, ref expression, mark .rightParen, ref statement,
      opt (all [word .else, ref statement])]
  | printStmt => all [word .print, ref expression, mark .semicolon]
  | returnStmt => all [word .return, opt (ref expression), mark .semicolon]
  | whileStmt => all [word .while, mark .leftParen, ref expression, mark .rightParen, ref statement]
  | block => all [mark .leftBrace, star (ref declaration), mark .rightBrace]
  | expression => ref assignment
  | assignment =>
    any [all [opt (all [ref call, mark .dot]), ident, mark .equal, ref assignment], ref logicOr]
  | logicOr => chain logicAnd [word .or]
  | logicAnd => chain equality [word .and]
  | equality => chain comparison [mark .bangEqual, mark .equalEqual]
  | comparison => chain term [mark .greater, mark .greaterEqual, mark .less, mark .lessEqual]
  | term => chain factor [mark .minus, mark .plus]
  | factor => chain unary [mark .slash, mark .star]
  | unary => any [all [any [mark .bang, mark .minus], ref unary], ref call]
  | call =>
    all [ref primary, star (any [all [mark .leftParen, opt (ref arguments), mark .rightParen],
      all [mark .dot, ident]])]
  | arguments => all [ref expression, atMost (maxArity - 1) (all [mark .comma, ref expression])]
  | primary =>
    any [number, string, word .true, word .false, word .nil, word .this, ident,
      all [mark .leftParen, ref expression, mark .rightParen], all [word .super, mark .dot, ident]]

/-- The kinds of tokens that derive from a rule. -/
inductive Derives : Rule → List Token.Kind → Prop
  | kind (kind : Token.Kind) : Derives (.kind kind) [kind]
  | number (value : Float) : Derives .number [.number value]
  | string (contents : String) : Derives .string [.string contents]
  | ref {n : Nonterminal} {w : List Token.Kind} : Derives n.rule w → Derives (.ref n) w
  | empty : Derives .empty []
  | seq {a b : Rule} {u v : List Token.Kind} : Derives a u → Derives b v →
      Derives (.seq a b) (u ++ v)
  | left {a b : Rule} {w : List Token.Kind} : Derives a w → Derives (.alt a b) w
  | right {a b : Rule} {w : List Token.Kind} : Derives b w → Derives (.alt a b) w
  | starNil {a : Rule} : Derives (.star a) []
  | starCons {a : Rule} {u v : List Token.Kind} : Derives a u → Derives (.star a) v →
      Derives (.star a) (u ++ v)
  | atMostNil {a : Rule} {n : Nat} : Derives (.atMost n a) []
  | atMostCons {a : Rule} {n : Nat} {u v : List Token.Kind} : Derives a u →
      Derives (.atMost n a) v →
      Derives (.atMost (n + 1) a) (u ++ v)

/-- What a rule says about tokens if it is known what the nonterminals say. -/
def Rule.Holds (means : Nonterminal → List Token → Prop) : Rule → List Token → Prop
  | kind k, w => ∃ t, w = [t] ∧ t.kind = k
  | number, w => ∃ t value, w = [t] ∧ t.kind = .number value
  | string, w => ∃ t contents, w = [t] ∧ t.kind = .string contents
  | ref n, w => means n w
  | empty, w => w = []
  | seq a b, w => ∃ u v, w = u ++ v ∧ a.Holds means u ∧ b.Holds means v
  | alt a b, w => a.Holds means w ∨ b.Holds means w
  | star a, w => ∃ ws : List (List Token), w = ws.flatten ∧ ∀ u ∈ ws, a.Holds means u
  | atMost n a, w =>
    ∃ ws : List (List Token), w = ws.flatten ∧ ws.length ≤ n ∧ ∀ u ∈ ws, a.Holds means u

variable {w tokens : List Token} {t : Token} {symbols : List Symbol} {ws : List (List Token)}

/-- The grammar is least: whatever is closed under its rules holds of all that derives from them. -/
theorem Derives.holds {means : Nonterminal → List Token → Prop}
    (h : ∀ n w, n.rule.Holds means w → means n w) {rule : Rule} {w : List Token.Kind}
    (hd : Derives rule w) (ht : tokens.map Token.kind = w) : rule.Holds means tokens := by
  have single : ∀ {tokens : List Token} {k : Token.Kind}, tokens.map Token.kind = [k] →
      ∃ t, tokens = [t] ∧ t.kind = k := by
    intro tokens k ht
    obtain ⟨t, rest, rfl, hk, hr⟩ := List.map_eq_cons_iff.1 ht
    rw [List.map_eq_nil_iff] at hr
    exact ⟨t, by rw [hr], hk⟩
  induction hd generalizing tokens with
  | kind k => exact single ht
  | number value =>
    obtain ⟨t, rfl, hk⟩ := single ht
    exact ⟨t, value, rfl, hk⟩
  | string contents =>
    obtain ⟨t, rfl, hk⟩ := single ht
    exact ⟨t, contents, rfl, hk⟩
  | ref _ ih => exact h _ _ (ih ht)
  | empty => exact List.map_eq_nil_iff.1 ht
  | seq _ _ ih ih' =>
    obtain ⟨u, v, rfl, hu, hv⟩ := List.map_eq_append_iff.1 ht
    exact ⟨u, v, rfl, ih hu, ih' hv⟩
  | left _ ih => exact .inl (ih ht)
  | right _ ih => exact .inr (ih ht)
  | starNil => exact ⟨[], List.map_eq_nil_iff.1 ht, by simp⟩
  | starCons _ _ ih ih' =>
    obtain ⟨u, v, rfl, hu, hv⟩ := List.map_eq_append_iff.1 ht
    obtain ⟨ws, rfl, hws⟩ := ih' hv
    exact ⟨u :: ws, rfl, List.forall_mem_cons.2 ⟨ih hu, hws⟩⟩
  | atMostNil => exact ⟨[], List.map_eq_nil_iff.1 ht, Nat.zero_le _, by simp⟩
  | atMostCons _ _ ih ih' =>
    obtain ⟨u, v, rfl, hu, hv⟩ := List.map_eq_append_iff.1 ht
    obtain ⟨ws, rfl, hl, hws⟩ := ih' hv
    exact ⟨u :: ws, rfl, Nat.succ_le_succ hl, List.forall_mem_cons.2 ⟨ih hu, hws⟩⟩

/-! ### What derives can be written -/

/-- The tokens are those of an expression that binds at least as tightly as `rank`. -/
def SpellsExpr (rank : Nat) (w : List Token) : Prop :=
  ∃ e : Expr, e.WellFormed ∧ rank ≤ e.rank ∧ Spelled e.yield w

/-- The tokens are those of an expression that can be left out. -/
def SpellsOption (w : List Token) : Prop :=
  ∃ e : Option Expr, Expr.OptionWellFormed e ∧ Spelled (Expr.yieldOption e) w

/-- The tokens are those of the given form. -/
def SpellsForm (form : Form) (w : List Token) : Prop :=
  ∃ symbols, Written form symbols ∧ Spelled symbols w

/-- What the nonterminals say in terms of trees. -/
def Nonterminal.Means : Nonterminal → List Token → Prop
  | program, w => ∃ stmts u eof, w = u ++ [eof] ∧ eof.kind = .eof ∧ SpellsForm (.body stmts) u
  | declaration, w | classDecl, w | funDecl, w => ∃ stmt, SpellsForm (.declaration stmt) w
  | function, w => ∃ decl, SpellsForm (.function decl) w
  | parameters, w => ∃ names, names.length ≤ maxArity ∧ Spelled (yieldNames names) w
  | varDecl, w =>
    ∃ name initial, Expr.OptionWellFormed initial ∧ Spelled (yieldVar name initial) w
  | statement, w | forStmt, w | ifStmt, w | printStmt, w | returnStmt, w | whileStmt, w =>
    ∃ isOpen stmt, SpellsForm (.statement isOpen stmt) w
  | exprStmt, w => ∃ e : Expr, e.WellFormed ∧ Spelled (e.yield ++ [.mark .semicolon]) w
  | block, w => ∃ body symbols, Written (.body body) symbols ∧
    Spelled (.mark .leftBrace :: (symbols ++ [.mark .rightBrace])) w
  | expression, w | assignment, w => SpellsExpr 0 w
  | logicOr, w => SpellsExpr 1 w
  | logicAnd, w => SpellsExpr 2 w
  | equality, w => SpellsExpr 3 w
  | comparison, w => SpellsExpr 4 w
  | term, w => SpellsExpr 5 w
  | factor, w => SpellsExpr 6 w
  | unary, w => SpellsExpr 7 w
  | call, w => SpellsExpr 8 w
  | arguments, w => ∃ es, Expr.AllWellFormed es ∧ es.length ≤ maxArity ∧
      Spelled (Expr.yieldAll es) w
  | primary, w => SpellsExpr 9 w

theorem SpellsExpr.mono {rank rank' : Nat} (h : SpellsExpr rank w) (hr : rank' ≤ rank) :
    SpellsExpr rank' w := by
  obtain ⟨e, hw, hk, hs⟩ := h
  exact ⟨e, hw, Nat.le_trans hr hk, hs⟩

theorem spelled_mark {mark : Punctuator} (h : t.kind = .punctuator mark) :
    Spelled [.mark mark] [t] :=
  .cons (Symbol.spells_mark.2 h) .nil

theorem spelled_word {word : Keyword} (h : t.kind = .keyword word) : Spelled [.word word] [t] :=
  .cons (Symbol.spells_word.2 h) .nil

theorem spelled_name (h : t.kind = .identifier) : Spelled [.name t.toLexeme] [t] :=
  .cons (Symbol.spells_name.2 ⟨h, rfl⟩) .nil

theorem spelled_some {kind : Token.Kind} (h : t.kind = kind) :
    Spelled [⟨kind, some t.toLexeme⟩] [t] :=
  .cons (Symbol.spells_some.2 ⟨h, rfl⟩) .nil

theorem Spelled.append {a b : List Symbol} {u v : List Token} (h : Spelled a u) (h' : Spelled b v) :
    Spelled (a ++ b) (u ++ v) :=
  List.rel_append h h'

section

variable {u v : List Token} {t : Token}

/-- One more operator at the end of a chain of operators of its level. -/
theorem SpellsExpr.operator {op : Operator} (h : SpellsExpr (op.level + 1) u)
    (hk : t.kind = op.kind) (h' : SpellsExpr (op.level + 2) v) :
    SpellsExpr (op.level + 1) (u ++ ([t] ++ v)) := by
  obtain ⟨left, hw, hr, hs⟩ := h
  obtain ⟨right, hw', hr', hs'⟩ := h'
  refine ⟨op.apply 0 t.toLexeme left right, Expr.wellFormed_apply.2 ⟨hw, hw', hr, hr'⟩, ?_, ?_⟩
  · rw [Expr.rank_apply]
  · rw [Expr.yield_apply]
    exact Spelled.append hs (Spelled.append (spelled_some hk) hs')

/-- A chain of operators of one level, which group to the left. -/
theorem SpellsExpr.chain {level : Nat} (h : SpellsExpr (level + 2) u) {ws : List (List Token)}
    (hws : ∀ w ∈ ws, ∃ t op v, w = [t] ++ v ∧ t.kind = Operator.kind op ∧ op.level = level ∧
      SpellsExpr (level + 2) v) : SpellsExpr (level + 1) (u ++ ws.flatten) := by
  have step : ∀ u, SpellsExpr (level + 1) u → SpellsExpr (level + 1) (u ++ ws.flatten) := by
    intro u hu
    induction ws generalizing u with
    | nil => simpa using hu
    | cons w ws ih =>
      rw [List.forall_mem_cons] at hws
      obtain ⟨⟨t, op, v, rfl, hk, rfl, hv⟩, hws⟩ := hws
      rw [List.flatten_cons, ← List.append_assoc]
      exact ih hws _ (hu.operator hk hv)
  exact step u (h.mono (Nat.le_succ _))

theorem SpellsExpr.unaryOp (op : UnaryOp) (hk : t.kind = .punctuator op.punctuator)
    (h : SpellsExpr 7 v) : SpellsExpr 7 ([t] ++ v) := by
  obtain ⟨right, hw, hr, hs⟩ := h
  exact ⟨.unary 0 op t.toLexeme right, ⟨hw, hr⟩, Nat.le_refl _, Spelled.append (spelled_some hk) hs⟩

theorem SpellsExpr.get {dot : Token} (h : SpellsExpr 8 u) (hdot : dot.kind = .punctuator .dot)
    (hk : t.kind = .identifier) : SpellsExpr 8 (u ++ ([dot] ++ [t])) := by
  obtain ⟨object, hw, hr, hs⟩ := h
  exact ⟨.get 0 object t.toLexeme, ⟨hw, hr⟩, Nat.le_refl _,
    Spelled.append hs (Spelled.append (spelled_mark hdot) (spelled_name hk))⟩

theorem SpellsExpr.call {left : Token} (h : SpellsExpr 8 u)
    (hl : left.kind = .punctuator .leftParen) {es : List Expr} (hes : Expr.AllWellFormed es)
    (hlen : es.length ≤ maxArity) (hs : Spelled (Expr.yieldAll es) v)
    (hk : t.kind = .punctuator .rightParen) : SpellsExpr 8 (u ++ ([left] ++ (v ++ [t]))) := by
  obtain ⟨callee, hw, hr, hs'⟩ := h
  exact ⟨.call 0 callee t.toLexeme es, ⟨hw, hr, hes, hlen⟩, Nat.le_refl _,
    Spelled.append hs' (Spelled.append (spelled_mark hl) (Spelled.append hs (spelled_some hk)))⟩

theorem SpellsExpr.assign {name equal : Token} (hk : name.kind = .identifier)
    (he : equal.kind = .punctuator .equal) (h : SpellsExpr 0 v) :
    SpellsExpr 0 ([name] ++ ([equal] ++ v)) := by
  obtain ⟨value, hw, -, hs⟩ := h
  exact ⟨.assign 0 name.toLexeme value, hw, Nat.le_refl _,
    Spelled.append (spelled_name hk) (Spelled.append (spelled_mark he) hs)⟩

theorem SpellsExpr.set {dot name equal : Token} (h : SpellsExpr 8 u)
    (hdot : dot.kind = .punctuator .dot) (hk : name.kind = .identifier)
    (he : equal.kind = .punctuator .equal) (h' : SpellsExpr 0 v) :
    SpellsExpr 0 (u ++ [dot] ++ ([name] ++ ([equal] ++ v))) := by
  obtain ⟨object, hw, hr, hs⟩ := h
  obtain ⟨value, hw', -, hs'⟩ := h'
  refine ⟨.set 0 object name.toLexeme value, ⟨hw, hr, hw'⟩, Nat.le_refl _, ?_⟩
  rw [List.append_assoc]
  exact Spelled.append hs (Spelled.append (spelled_mark hdot)
    (Spelled.append (spelled_name hk) (Spelled.append (spelled_mark he) hs')))

end

/-- An open statement takes an `else`. -/
theorem Written.attach {stmt stmt' : Stmt} {isOpen : Bool} {symbols' : List Symbol}
    (h : Written (.statement true stmt) symbols) (h' : Written (.statement isOpen stmt') symbols') :
    ∃ isOpen' joined, Written (.statement isOpen' joined) (symbols ++ .word .else :: symbols') := by
  generalize hform : Form.statement true stmt = form at h
  induction h generalizing stmt with
  | @branch e yes isOpen₁ symbols₁ hw h₁ ih =>
    -- The `else` goes to the innermost `if` that can take it.
    cases isOpen₁ with
    | false => exact ⟨isOpen, _, by simpa using Written.branchElse hw h₁ h'⟩
    | true =>
      obtain ⟨_, _, hj⟩ := ih rfl
      exact ⟨true, _, by simpa using Written.branch hw hj⟩
  | branchElse hw h₁ _ _ ih =>
    cases hform
    obtain ⟨o, _, hj⟩ := ih rfl
    exact ⟨o, _, by simpa using Written.branchElse hw h₁ hj⟩
  | loop hw _ ih =>
    cases hform
    obtain ⟨o, _, hj⟩ := ih rfl
    exact ⟨o, _, by simpa using Written.loop hw hj⟩
  | forLoop hf hw hw' hc _ ih =>
    simp only [Form.statement.injEq] at hform
    obtain ⟨o, _, hj⟩ := ih (by rw [hform.1])
    exact ⟨o, _, by simpa using Written.forLoop hf hw hw' hc hj⟩
  | _ => cases hform

/-- Declarations one after the other. -/
theorem SpellsForm.body (h : ∀ w ∈ ws, ∃ stmt, SpellsForm (.declaration stmt) w) :
    ∃ stmts, SpellsForm (.body stmts) ws.flatten := by
  induction ws with
  | nil => exact ⟨[], [], .bodyNil, .nil⟩
  | cons w ws ih =>
    obtain ⟨⟨stmt, symbols, hw, hs⟩, hws⟩ := List.forall_mem_cons.1 h
    obtain ⟨stmts, symbols', hw', hs'⟩ := ih hws
    exact ⟨stmt :: stmts, _, .bodyCons hw hw', Spelled.append hs hs'⟩

theorem SpellsForm.methods (h : ∀ w ∈ ws, ∃ decl, SpellsForm (.function decl) w) :
    ∃ decls, SpellsForm (.methods decls) ws.flatten := by
  induction ws with
  | nil => exact ⟨[], [], .methodsNil, .nil⟩
  | cons w ws ih =>
    obtain ⟨⟨decl, symbols, hw, hs⟩, hws⟩ := List.forall_mem_cons.1 h
    obtain ⟨decls, symbols', hw', hs'⟩ := ih hws
    exact ⟨decl :: decls, _, .methodsCons hw hw', Spelled.append hs hs'⟩

/-- Names after commas. -/
theorem spelled_yieldNames {name : Lexeme} {u : List Token} (h : Spelled [.name name] u)
    {ws : List (List Token)}
    (hws : ∀ w ∈ ws, ∃ comma t, w = [comma] ++ [t] ∧ comma.kind = .punctuator .comma ∧
      t.kind = .identifier) :
    ∃ names, names.length = ws.length + 1 ∧ Spelled (yieldNames names) (u ++ ws.flatten) := by
  induction ws generalizing name u with
  | nil => exact ⟨[name], rfl, by simpa [yieldNames] using h⟩
  | cons w ws ih =>
    rw [List.forall_mem_cons] at hws
    obtain ⟨⟨comma, t, rfl, hc, hk⟩, hws⟩ := hws
    obtain ⟨names, hl, hs⟩ := ih (spelled_name hk) hws
    match names, hl with
    | name' :: names, hl =>
      refine ⟨name :: name' :: names, by simpa using hl, ?_⟩
      rw [List.flatten_cons, List.append_assoc]
      exact Spelled.append h (Spelled.append (spelled_mark hc) hs)

theorem spelled_yieldAll {e : Expr} {u : List Token} (hw : e.WellFormed) (h : Spelled e.yield u)
    {ws : List (List Token)}
    (hws : ∀ w ∈ ws, ∃ comma v, w = [comma] ++ v ∧ comma.kind = .punctuator .comma ∧
      SpellsExpr 0 v) :
    ∃ es, es.length = ws.length + 1 ∧ Expr.AllWellFormed es ∧
      Spelled (Expr.yieldAll es) (u ++ ws.flatten) := by
  induction ws generalizing e u with
  | nil => exact ⟨[e], rfl, ⟨hw, trivial⟩, by simpa [Expr.yieldAll] using h⟩
  | cons w ws ih =>
    rw [List.forall_mem_cons] at hws
    obtain ⟨⟨comma, v, rfl, hc, e', hw', -, hs'⟩, hws⟩ := hws
    obtain ⟨es, hl, hes, hs⟩ := ih hw' hs' hws
    match es, hl with
    | e₁ :: es, hl =>
      refine ⟨e :: e₁ :: es, by simpa using hl, ⟨hw, hes⟩, ?_⟩
      rw [List.flatten_cons, List.append_assoc, Expr.yieldAll_cons_cons]
      exact Spelled.append h (Spelled.append (spelled_mark hc) hs)

/-- A literal is an expression. -/
theorem spellsExpr_literal (value : Literal) (h : t.kind = value.kind) : SpellsExpr 9 [t] :=
  ⟨.literal 0 value, trivial, Nat.le_refl _, .cons (Symbol.spells_none.2 h) .nil⟩

theorem spellsOption_of_holds (h : (Rule.opt (.ref .expression)).Holds Nonterminal.Means w) :
    SpellsOption w := by
  rcases h with ⟨e, hw, -, hs⟩ | rfl
  · exact ⟨some e, Expr.optionWellFormed_some.2 hw, hs⟩
  · exact ⟨none, Expr.optionWellFormed_none, .nil⟩

namespace Nonterminal

open Rule

variable {w : List Token}

/-- The operators of each level of the grammar. -/
theorem means_chain {level : Nat} {next : Nonterminal} {operators : List Rule}
    (h : (chain next operators).Holds Means w)
    (hnext : ∀ w, next.Means w → SpellsExpr (level + 2) w)
    (hop : ∀ w, (any operators).Holds Means w → ∃ t op, w = [t] ∧ t.kind = Operator.kind op ∧
      op.level = level) :
    SpellsExpr (level + 1) w := by
  obtain ⟨u, _, rfl, hu, ws, rfl, hws⟩ := h
  refine (hnext u hu).chain fun w hw => ?_
  obtain ⟨_, v, rfl, ho, hv⟩ := hws w hw
  obtain ⟨t, op, rfl, hk, hl⟩ := hop _ ho
  exact ⟨t, op, v, rfl, hk, hl, hnext v hv⟩

theorem means_call (h : call.rule.Holds Means w) : SpellsExpr 8 w := by
  obtain ⟨u, _, rfl, hu, ws, rfl, hws⟩ := h
  have step : ∀ u, SpellsExpr 8 u → SpellsExpr 8 (u ++ ws.flatten) := by
    intro u hu
    induction ws generalizing u with
    | nil => simpa using hu
    | cons w ws ih =>
      rw [List.forall_mem_cons] at hws
      obtain ⟨hw, hws⟩ := hws
      rw [List.flatten_cons, ← List.append_assoc]
      refine ih hws _ ?_
      rcases hw with ⟨_, _, rfl, ⟨left, rfl, hl⟩, v, _, rfl, hv, right, rfl, hr⟩ |
        ⟨_, _, rfl, ⟨dot, rfl, hd⟩, t, rfl, hk⟩
      · rcases hv with ⟨es, hes, hlen, hs⟩ | rfl
        · exact hu.call hl hes hlen hs hr
        · exact hu.call hl (show Expr.AllWellFormed [] from trivial) (Nat.zero_le _) .nil hr
      · exact hu.get hd hk
  exact step u (SpellsExpr.mono hu (Nat.le_succ _))

theorem means_primary (h : primary.rule.Holds Means w) : SpellsExpr 9 w := by
  rcases h with ⟨t, value, rfl, hk⟩ | ⟨t, contents, rfl, hk⟩ | ⟨t, rfl, hk⟩ | ⟨t, rfl, hk⟩ |
    ⟨t, rfl, hk⟩ | ⟨t, rfl, hk⟩ | ⟨t, rfl, hk⟩ | h | h
  · exact spellsExpr_literal (.number value) hk
  · exact spellsExpr_literal (.string contents) hk
  · exact spellsExpr_literal (.bool true) hk
  · exact spellsExpr_literal (.bool false) hk
  · exact spellsExpr_literal .nil hk
  · exact ⟨.this 0 t.toLexeme, trivial, Nat.le_refl _, spelled_some hk⟩
  · exact ⟨.var 0 t.toLexeme, trivial, Nat.le_refl _, spelled_name hk⟩
  · obtain ⟨_, _, rfl, ⟨left, rfl, hl⟩, v, _, rfl, ⟨e, hw, -, hs⟩, right, rfl, hr⟩ := h
    exact ⟨.grouping 0 e, hw, Nat.le_refl _,
      Spelled.append (spelled_mark hl) (Spelled.append hs (spelled_mark hr))⟩
  · obtain ⟨_, _, rfl, ⟨t, rfl, hk⟩, _, _, rfl, ⟨dot, rfl, hd⟩, name, rfl, hn⟩ := h
    exact ⟨.super 0 t.toLexeme name.toLexeme, trivial, Nat.le_refl _,
      Spelled.append (spelled_some hk) (Spelled.append (spelled_mark hd) (spelled_name hn))⟩

theorem means_assignment (h : assignment.rule.Holds Means w) : SpellsExpr 0 w := by
  rcases h with ⟨_, _, rfl, ht, _, _, rfl, ⟨name, rfl, hk⟩, _, v, rfl, ⟨equal, rfl, he⟩, hv⟩ | h
  · rcases ht with ⟨u, _, rfl, hu, dot, rfl, hd⟩ | rfl
    · exact SpellsExpr.set hu hd hk he hv
    · exact SpellsExpr.assign hk he hv
  · exact SpellsExpr.mono h (Nat.zero_le _)

theorem means_classDecl (h : classDecl.rule.Holds Means w) :
    ∃ stmt, SpellsForm (.declaration stmt) w := by
  obtain ⟨_, _, rfl, ⟨t, rfl, hk⟩, _, _, rfl, ⟨name, rfl, hn⟩, u, _, rfl, hu, _, _, rfl,
    ⟨left, rfl, hl⟩, _, _, rfl, ⟨ws, rfl, hws⟩, right, rfl, hr⟩ := h
  obtain ⟨decls, symbols, hw, hs⟩ := SpellsForm.methods hws
  have hsup : ∃ superclass, Spelled (yieldSuperclass superclass) u := by
    rcases hu with ⟨_, _, rfl, ⟨less, rfl, hless⟩, t, rfl, ht⟩ | rfl
    · exact ⟨some ⟨0, t.toLexeme⟩, Spelled.append (spelled_mark hless) (spelled_name ht)⟩
    · exact ⟨none, .nil⟩
  obtain ⟨superclass, hsup⟩ := hsup
  exact ⟨_, _, .classDecl hw, Spelled.append (spelled_word hk) (Spelled.append (spelled_name hn)
    (Spelled.append hsup (Spelled.append (spelled_mark hl) (Spelled.append hs (spelled_mark hr)))))⟩

theorem means_function (h : function.rule.Holds Means w) :
    ∃ decl, SpellsForm (.function decl) w := by
  obtain ⟨_, _, rfl, ⟨name, rfl, hn⟩, _, _, rfl, ⟨left, rfl, hl⟩, u, _, rfl, hu, _, v, rfl,
    ⟨right, rfl, hr⟩, body, symbols, hw, hs⟩ := h
  have hparams : ∃ names, names.length ≤ maxArity ∧ Spelled (yieldNames names) u := by
    rcases hu with hu | rfl
    · exact hu
    · exact ⟨[], Nat.zero_le _, .nil⟩
  obtain ⟨params, hlen, hp⟩ := hparams
  exact ⟨_, _, .function hlen hw, Spelled.append (spelled_name hn) (Spelled.append (spelled_mark hl)
    (Spelled.append hp (Spelled.append (spelled_mark hr) hs)))⟩

theorem means_parameters (h : parameters.rule.Holds Means w) :
    ∃ names, names.length ≤ maxArity ∧ Spelled (yieldNames names) w := by
  obtain ⟨_, _, rfl, ⟨t, rfl, hk⟩, ws, rfl, hlen, hws⟩ := h
  have hnames : ∀ w ∈ ws, ∃ comma t, w = [comma] ++ [t] ∧ comma.kind = .punctuator .comma ∧
      t.kind = .identifier := fun w hw => by
    obtain ⟨_, _, rfl, ⟨comma, rfl, hc⟩, t, rfl, ht⟩ := hws w hw
    exact ⟨comma, t, rfl, hc, ht⟩
  obtain ⟨names, hl, hs⟩ := spelled_yieldNames (spelled_name hk) hnames
  have : maxArity = 254 + 1 := rfl
  exact ⟨names, by omega, hs⟩

theorem means_arguments (h : arguments.rule.Holds Means w) :
    ∃ es, Expr.AllWellFormed es ∧ es.length ≤ maxArity ∧ Spelled (Expr.yieldAll es) w := by
  obtain ⟨u, _, rfl, ⟨e, hw, -, hs⟩, ws, rfl, hlen, hws⟩ := h
  have hexprs : ∀ w ∈ ws, ∃ comma v, w = [comma] ++ v ∧ comma.kind = .punctuator .comma ∧
      SpellsExpr 0 v := fun w hw => by
    obtain ⟨_, v, rfl, ⟨comma, rfl, hc⟩, hv⟩ := hws w hw
    exact ⟨comma, v, rfl, hc, hv⟩
  obtain ⟨es, hl, hes, hs'⟩ := spelled_yieldAll hw hs hexprs
  have : maxArity = 254 + 1 := rfl
  exact ⟨es, hes, by omega, hs'⟩

theorem means_varDecl (h : varDecl.rule.Holds Means w) :
    ∃ name initial, Expr.OptionWellFormed initial ∧ Spelled (yieldVar name initial) w := by
  obtain ⟨_, _, rfl, ⟨t, rfl, hk⟩, _, _, rfl, ⟨name, rfl, hn⟩, _, _, rfl, hi, semicolon, rfl, hs⟩ :=
    h
  rcases hi with ⟨_, v, rfl, ⟨equal, rfl, he⟩, e, hw, -, hv⟩ | rfl
  · exact ⟨name.toLexeme, some e, Expr.optionWellFormed_some.2 hw, Spelled.append (spelled_word hk)
      (Spelled.append (Spelled.append (spelled_name hn) (Spelled.append (spelled_mark he) hv))
        (spelled_mark hs))⟩
  · exact ⟨name.toLexeme, none, Expr.optionWellFormed_none, Spelled.append (spelled_word hk)
      (Spelled.append (spelled_name hn) (spelled_mark hs))⟩

/-- The rule for `for` yields statements. -/
theorem means_forStmt (h : forStmt.rule.Holds Means w) :
    ∃ isOpen stmt, SpellsForm (.statement isOpen stmt) w := by
  obtain ⟨_, _, rfl, ⟨t, rfl, hk⟩, _, _, rfl, ⟨left, rfl, hl⟩, u, _, rfl, hu, _, _, rfl,
    hc, _, _, rfl,
    ⟨semicolon, rfl, hs⟩, _, _, rfl, hi, _, _, rfl, ⟨right, rfl, hr⟩, isOpen, body, symbols, hw,
    hb⟩ := h
  obtain ⟨condition, hwc, hsc⟩ := spellsOption_of_holds hc
  obtain ⟨increment, hwi, hsi⟩ := spellsOption_of_holds hi
  have hfirst : ∃ initial first, WrittenFirst initial first ∧ Spelled first u := by
    rcases hu with ⟨name, initial, hwv, hsv⟩ | ⟨e, hwe, hse⟩ | ⟨semicolon', rfl, hs'⟩
    · exact ⟨_, _, .var hwv, hsv⟩
    · exact ⟨_, _, .expression hwe, hse⟩
    · exact ⟨_, _, .none, spelled_mark hs'⟩
  obtain ⟨initial, first, hf, hsf⟩ := hfirst
  have hcond : ∃ e, IsCondition condition e := by
    cases condition with
    | none => exact ⟨_, .none 0⟩
    | some e => exact ⟨_, .some e⟩
  obtain ⟨e, hcond⟩ := hcond
  exact ⟨isOpen, _, _, .forLoop hf hwc hwi hcond hw, Spelled.append (spelled_word hk)
    (Spelled.append (spelled_mark hl) (Spelled.append hsf (Spelled.append hsc
      (Spelled.append (spelled_mark hs) (Spelled.append hsi
        (Spelled.append (spelled_mark hr) hb))))))⟩

theorem means_ifStmt (h : ifStmt.rule.Holds Means w) :
    ∃ isOpen stmt, SpellsForm (.statement isOpen stmt) w := by
  obtain ⟨_, _, rfl, ⟨t, rfl, hk⟩, _, _, rfl, ⟨left, rfl, hl⟩, u, _, rfl,
    ⟨e, hwe, -, hse⟩, _, _, rfl,
    ⟨right, rfl, hr⟩, v, _, rfl, ⟨isOpen, yes, symbols, hw, hs⟩, helse⟩ := h
  rcases helse with ⟨_, v', rfl, ⟨word, rfl, hword⟩, isOpen', no, symbols', hw', hs'⟩ | rfl
  · have hspelled : Spelled (.word .if :: .mark .leftParen ::
        (e.yield ++ .mark .rightParen :: (symbols ++ .word .else :: symbols'))) _ :=
      Spelled.append (spelled_word hk) (Spelled.append (spelled_mark hl) (Spelled.append hse
        (Spelled.append (spelled_mark hr) (Spelled.append hs
          (Spelled.append (spelled_word hword) hs')))))
    cases isOpen with
    | false => exact ⟨isOpen', _, _, .branchElse hwe hw hw', hspelled⟩
    | true =>
      obtain ⟨o, stmt, hj⟩ := (Written.branch hwe hw).attach hw'
      exact ⟨o, stmt, _, hj, by simpa using hspelled⟩
  · exact ⟨true, _, _, .branch hwe hw, Spelled.append (spelled_word hk) (Spelled.append
      (spelled_mark hl)
        (Spelled.append hse (Spelled.append (spelled_mark hr) (by simpa using hs))))⟩

theorem means_statement (h : statement.rule.Holds Means w) :
    ∃ isOpen stmt, SpellsForm (.statement isOpen stmt) w := by
  rcases h with ⟨e, hw, hs⟩ | h | h | h | h | h | ⟨body, symbols, hw, hs⟩
  · exact ⟨false, _, _, .expression hw, hs⟩
  · exact h
  · exact h
  · exact h
  · exact h
  · exact h
  · exact ⟨false, _, _, .block hw, hs⟩

/-- Trees are closed under the rules of the grammar. -/
theorem means_of_holds (n : Nonterminal) (w : List Token) (h : n.rule.Holds Means w) :
    n.Means w := by
  cases n with
  | program =>
    obtain ⟨_, _, rfl, ⟨ws, rfl, hws⟩, eof, rfl, hk⟩ := h
    obtain ⟨stmts, hs⟩ := SpellsForm.body hws
    exact ⟨stmts, _, eof, rfl, hk, hs⟩
  | declaration =>
    rcases h with h | h | ⟨name, initial, hw, hs⟩ | ⟨isOpen, stmt, symbols, hw, hs⟩
    · exact h
    · exact h
    · exact ⟨_, _, .var hw, hs⟩
    · exact ⟨stmt, symbols, .statement hw, hs⟩
  | classDecl => exact means_classDecl h
  | funDecl =>
    obtain ⟨_, _, rfl, ⟨t, rfl, hk⟩, decl, symbols, hw, hs⟩ := h
    exact ⟨_, _, .functionDecl hw, Spelled.append (spelled_word hk) hs⟩
  | function => exact means_function h
  | parameters => exact means_parameters h
  | varDecl => exact means_varDecl h
  | statement => exact means_statement h
  | exprStmt =>
    obtain ⟨_, _, rfl, ⟨e, hw, -, hs⟩, semicolon, rfl, hk⟩ := h
    exact ⟨e, hw, Spelled.append hs (spelled_mark hk)⟩
  | forStmt => exact means_forStmt h
  | ifStmt => exact means_ifStmt h
  | printStmt =>
    obtain ⟨_, _, rfl, ⟨t, rfl, hk⟩, _, _, rfl, ⟨e, hw, -, hs⟩, semicolon, rfl, hk'⟩ := h
    exact ⟨false, _, _, .print hw,
      Spelled.append (spelled_word hk) (Spelled.append hs (spelled_mark hk'))⟩
  | returnStmt =>
    obtain ⟨_, _, rfl, ⟨t, rfl, hk⟩, _, _, rfl, hv, semicolon, rfl, hk'⟩ := h
    obtain ⟨value, hw, hs⟩ := spellsOption_of_holds hv
    exact ⟨false, _, _, .ret hw,
      Spelled.append (spelled_some hk) (Spelled.append hs (spelled_mark hk'))⟩
  | whileStmt =>
    obtain ⟨_, _, rfl, ⟨t, rfl, hk⟩, _, _, rfl, ⟨left, rfl, hl⟩, _, _, rfl,
      ⟨e, hw, -, hs⟩, _, _, rfl, ⟨right, rfl, hr⟩, isOpen, body, symbols, hwb, hsb⟩ := h
    exact ⟨isOpen, _, _, .loop hw hwb, Spelled.append (spelled_word hk) (Spelled.append
      (spelled_mark hl) (Spelled.append hs (Spelled.append (spelled_mark hr) hsb)))⟩
  | block =>
    obtain ⟨_, _, rfl, ⟨left, rfl, hl⟩, _, _, rfl, ⟨ws, rfl, hws⟩, right, rfl, hr⟩ := h
    obtain ⟨stmts, symbols, hw, hs⟩ := SpellsForm.body hws
    exact ⟨stmts, symbols, hw,
      Spelled.append (spelled_mark hl) (Spelled.append hs (spelled_mark hr))⟩
  | expression => exact h
  | assignment => exact means_assignment h
  -- The levels of operators differ in the tokens between the operands only.
  | logicOr =>
    refine means_chain h (fun _ h => h) ?_
    rintro _ ⟨t, rfl, hk⟩
    exact ⟨t, .logical .or, rfl, hk, rfl⟩
  | logicAnd =>
    refine means_chain h (fun _ h => h) ?_
    rintro _ ⟨t, rfl, hk⟩
    exact ⟨t, .logical .and, rfl, hk, rfl⟩
  | equality =>
    refine means_chain h (fun _ h => h) ?_
    rintro _ (⟨t, rfl, hk⟩ | ⟨t, rfl, hk⟩)
    · exact ⟨t, .binary .notEqual, rfl, hk, rfl⟩
    · exact ⟨t, .binary .equal, rfl, hk, rfl⟩
  | comparison =>
    refine means_chain h (fun _ h => h) ?_
    rintro _ (⟨t, rfl, hk⟩ | ⟨t, rfl, hk⟩ | ⟨t, rfl, hk⟩ | ⟨t, rfl, hk⟩)
    · exact ⟨t, .binary .greater, rfl, hk, rfl⟩
    · exact ⟨t, .binary .greaterEqual, rfl, hk, rfl⟩
    · exact ⟨t, .binary .less, rfl, hk, rfl⟩
    · exact ⟨t, .binary .lessEqual, rfl, hk, rfl⟩
  | term =>
    refine means_chain h (fun _ h => h) ?_
    rintro _ (⟨t, rfl, hk⟩ | ⟨t, rfl, hk⟩)
    · exact ⟨t, .binary .subtract, rfl, hk, rfl⟩
    · exact ⟨t, .binary .add, rfl, hk, rfl⟩
  | factor =>
    refine means_chain h (fun _ h => h) ?_
    rintro _ (⟨t, rfl, hk⟩ | ⟨t, rfl, hk⟩)
    · exact ⟨t, .binary .divide, rfl, hk, rfl⟩
    · exact ⟨t, .binary .multiply, rfl, hk, rfl⟩
  | unary =>
    rcases h with ⟨_, v, rfl, ⟨t, rfl, hk⟩ | ⟨t, rfl, hk⟩, hv⟩ | h
    · exact SpellsExpr.unaryOp .not hk hv
    · exact SpellsExpr.unaryOp .negate hk hv
    · exact SpellsExpr.mono h (Nat.le_succ _)
  | call => exact means_call h
  | arguments => exact means_arguments h
  | primary => exact means_primary h

end Nonterminal

/-! ### What is written derives -/

namespace Derives

variable {a : Rule} {u v : List Token.Kind}

/-- One more at the end. -/
theorem starSnoc (h : Derives (.star a) u) (h' : Derives a v) : Derives (.star a) (u ++ v) := by
  generalize hr : Rule.star a = rule at h
  induction h with
  | starNil =>
    cases hr
    simpa using starCons h' .starNil
  | starCons h₁ _ _ ih =>
    cases hr
    rw [List.append_assoc]
    exact .starCons h₁ (ih rfl)
  | _ => cases hr

theorem mark (mark : Punctuator) : Derives (.mark mark) [.punctuator mark] := .kind _

theorem word (word : Keyword) : Derives (.word word) [.keyword word] := .kind _

theorem ident : Derives .ident [.identifier] := .kind _

/-- One more operator with its operand at the end of a chain. -/
theorem chainSnoc {next : Nonterminal} {operators : List Rule} {k : Token.Kind}
    (h : Derives (.chain next operators) u) (hk : Derives (.any operators) [k])
    (h' : Derives (.ref next) v) : Derives (.chain next operators) (u ++ k :: v) := by
  cases h with
  | seq h₁ h₂ =>
    rw [List.append_assoc]
    exact .seq h₁ (h₂.starSnoc (.seq hk h'))

theorem of_ref {n : Nonterminal} (h : Derives (.ref n) u) : Derives n.rule u := by
  cases h with
  | ref h => exact h

end Derives

/-- The nonterminal for expressions that bind at least as tightly as a rank. -/
def Nonterminal.ofRank : Nat → Nonterminal
  | 0 => assignment
  | 1 => logicOr
  | 2 => logicAnd
  | 3 => equality
  | 4 => comparison
  | 5 => term
  | 6 => factor
  | 7 => unary
  | 8 => call
  | _ => primary

namespace Derives

open Nonterminal

/-- What binds more tightly can stand for what binds less tightly. -/
theorem ofRank_of_le {rank rank' : Nat} {w : List Token.Kind} (h : Derives (.ref (ofRank rank')) w)
    (hr : rank ≤ rank') : Derives (.ref (ofRank rank)) w := by
  have step : ∀ rank, Derives (.ref (ofRank (rank + 1))) w → Derives (.ref (ofRank rank)) w := by
    intro rank h
    have hseq : ∀ {a b : Rule}, Derives a w → Derives (.seq a (.star b)) w := fun h => by
      simpa using Derives.seq h .starNil
    match rank, h with
    | 0, h | 7, h => exact .ref (.right h)
    | 1, h | 2, h | 3, h | 4, h | 5, h | 6, h | 8, h => exact .ref (hseq h)
    | _ + 9, h => exact h
  induction hr with
  | refl => exact h
  | step _ ih => exact ih (step _ h)

/-- The rule for the operators of a level. -/
theorem rule_ofRank {level : Nat} (h : level ≤ 5) :
    ∃ operators, (ofRank (level + 1)).rule = .chain (ofRank (level + 2)) operators ∧
      ∀ op : Operator, op.level = level → Derives (.any operators) [op.kind] := by
  match level, h with
  | 0, _ =>
    refine ⟨_, rfl, ?_⟩
    rintro (op | op) hop <;> cases op <;> cases hop
    exact .kind _
  | 1, _ =>
    refine ⟨_, rfl, ?_⟩
    rintro (op | op) hop <;> cases op <;> cases hop
    exact .kind _
  | 2, _ =>
    refine ⟨_, rfl, ?_⟩
    rintro (op | op) hop <;> cases op <;> cases hop
    · exact .right (.kind _)
    · exact .left (.kind _)
  | 3, _ =>
    refine ⟨_, rfl, ?_⟩
    rintro (op | op) hop <;> cases op <;> cases hop
    · exact .left (.kind _)
    · exact .right (.left (.kind _))
    · exact .right (.right (.left (.kind _)))
    · exact .right (.right (.right (.kind _)))
  | 4, _ =>
    refine ⟨_, rfl, ?_⟩
    rintro (op | op) hop <;> cases op <;> cases hop
    · exact .right (.kind _)
    · exact .left (.kind _)
  | 5, _ =>
    refine ⟨_, rfl, ?_⟩
    rintro (op | op) hop <;> cases op <;> cases hop
    · exact .right (.kind _)
    · exact .left (.kind _)

variable {u v w : List Token.Kind}

theorem apply (op : Operator) (h : Derives (.ref (ofRank (op.level + 1))) u)
    (h' : Derives (.ref (ofRank (op.level + 2))) v) :
    Derives (.ref (ofRank (op.level + 1))) (u ++ op.kind :: v) := by
  obtain ⟨operators, hrule, hop⟩ := rule_ofRank op.level_le
  refine .ref ?_
  have hu := h.of_ref
  rw [hrule] at hu ⊢
  exact hu.chainSnoc (hop op rfl) h'

theorem callSnoc (h : Derives (.ref call) u)
    (h' : Derives (.any [.all [.mark .leftParen, .opt (.ref arguments), .mark .rightParen],
      .all [.mark .dot, .ident]]) v) : Derives (.ref call) (u ++ v) := by
  cases h with
  | ref h =>
    cases h with
    | seq h₁ h₂ =>
      rw [List.append_assoc]
      exact .ref (.seq h₁ (h₂.starSnoc h'))

theorem literal (value : Literal) : Derives (.ref primary) [value.kind] := by
  refine .ref ?_
  match value with
  | .number value => exact .left (.number value)
  | .string contents => exact .right (.left (.string contents))
  | .bool true => exact .right (.right (.left (.word .true)))
  | .bool false => exact .right (.right (.right (.left (.word .false))))
  | .nil => exact .right (.right (.right (.right (.left (.word .nil)))))

theorem this : Derives (.ref primary) [.keyword .this] :=
  .ref (.right (.right (.right (.right (.right (.left (.word .this)))))))

theorem var : Derives (.ref primary) [.identifier] :=
  .ref (.right (.right (.right (.right (.right (.right (.left .ident)))))))

theorem grouping (h : Derives (.ref assignment) w) :
    Derives (.ref primary) (.punctuator .leftParen :: (w ++ [.punctuator .rightParen])) :=
  .ref (.right (.right (.right (.right (.right (.right (.right (.left
    (.seq (.mark .leftParen) (.seq (.ref h) (.mark .rightParen)))))))))))

theorem super :
    Derives (.ref primary) [.keyword .super, .punctuator .dot, .identifier] :=
  .ref (.right (.right (.right (.right (.right (.right (.right (.right
    (.seq (.word .super) (.seq (.mark .dot) .ident))))))))))

/-- Expressions with commas between them. -/
theorem arguments {e : Expr} {es : List Expr} {n : Nat} (hl : es.length ≤ n)
    (h : ∀ e' ∈ e :: es, Derives (.ref expression) (e'.yield.map Symbol.kind)) :
    Derives (.all [.ref expression, .atMost n (.all [.mark .comma, .ref expression])])
      ((Expr.yieldAll (e :: es)).map Symbol.kind) := by
  induction es generalizing e n with
  | nil =>
    have hseq := Derives.seq (h e (List.mem_singleton_self e))
      (.atMostNil (a := .all [.mark .comma, .ref expression]) (n := n))
    rwa [List.append_nil] at hseq
  | cons e' es ih =>
    obtain ⟨n, rfl⟩ : ∃ k, n = k + 1 := ⟨n - 1, by simp at hl; omega⟩
    rw [List.forall_mem_cons] at h
    have hrest := ih (Nat.le_of_succ_le_succ hl) h.2
    rw [Expr.yieldAll_cons_cons, List.map_append, List.map_cons]
    generalize (Expr.yieldAll (e' :: es)).map Symbol.kind = w at hrest
    cases hrest with
    | seq h₁ h₂ => exact .seq h.1 (.atMostCons (.seq (.mark .comma) h₁) h₂)

theorem argumentList {es : List Expr} (hl : es.length ≤ maxArity)
    (h : ∀ e ∈ es, Derives (.ref expression) (e.yield.map Symbol.kind)) :
    Derives (.opt (.ref .arguments)) ((Expr.yieldAll es).map Symbol.kind) := by
  match es with
  | [] => exact .right .empty
  | e :: es => exact .left (.ref (arguments (Nat.le_of_succ_le_succ hl) h))

theorem unaryOp (op : UnaryOp) :
    Derives (.any [.mark .bang, .mark .minus]) [.punctuator op.punctuator] := by
  cases op with
  | negate => exact .right (.mark .minus)
  | not => exact .left (.mark .bang)

/-- Names with commas between them. -/
theorem names {name : Lexeme} {names : List Lexeme} {n : Nat} (hl : names.length ≤ n) :
    Derives (.all [.ident, .atMost n (.all [.mark .comma, .ident])])
      ((yieldNames (name :: names)).map Symbol.kind) := by
  induction names generalizing name n with
  | nil =>
    have hseq := Derives.seq Derives.ident
      (.atMostNil (a := .all [.mark .comma, .ident]) (n := n))
    rwa [List.append_nil] at hseq
  | cons name' names ih =>
    obtain ⟨n, rfl⟩ : ∃ k, n = k + 1 := ⟨n - 1, by rw [List.length_cons] at hl; omega⟩
    have hrest := @ih name' n (Nat.le_of_succ_le_succ hl)
    rw [yieldNames_cons_cons, List.map_cons, List.map_cons]
    generalize (yieldNames (name' :: names)).map Symbol.kind = w at hrest
    cases hrest with
    | seq h₁ h₂ => exact .seq .ident (.atMostCons (.seq (.mark .comma) h₁) h₂)

end Derives

mutual

/-- Well-formed expressions derive from the grammar. -/
theorem Expr.derives : {e : Expr} → e.WellFormed →
    Derives (.ref (.ofRank e.rank)) (e.yield.map Symbol.kind)
  | literal _ value, _ => .literal value
  | unary _ op _ right, h =>
    .ref (.left (.seq (.unaryOp op) ((derives h.1).ofRank_of_le h.2)))
  | binary _ op _ left right, h => by
    rw [yield, List.map_append]
    exact .apply (.binary op) ((derives h.1).ofRank_of_le h.2.2.1)
      ((derives h.2.1).ofRank_of_le h.2.2.2)
  | logical _ op _ left right, h => by
    rw [yield, List.map_append]
    exact .apply (.logical op) ((derives h.1).ofRank_of_le h.2.2.1)
      ((derives h.2.1).ofRank_of_le h.2.2.2)
  | grouping _ inner, h => by
    rw [yield, List.map_cons, List.map_append]
    exact .grouping ((derives (e := inner) h).ofRank_of_le (Nat.zero_le _))
  | var _ _, _ => .var
  | assign _ _ value, h =>
    .ref (.left (.seq (.right .empty) (.seq .ident (.seq (.mark .equal)
      ((derives (e := value) h).ofRank_of_le (Nat.zero_le _))))))
  | call _ callee _ es, h => by
    rw [yield, List.map_append, List.map_cons, List.map_append]
    exact .callSnoc ((derives h.1).ofRank_of_le h.2.1)
      (.left (.seq (.mark .leftParen) (.seq (.argumentList h.2.2.2 (allDerives h.2.2.1))
        (.mark .rightParen))))
  | get _ object _, h => by
    rw [yield, List.map_append]
    exact .callSnoc ((derives h.1).ofRank_of_le h.2) (.right (.seq (.mark .dot) .ident))
  | set _ object _ value, h => by
    have htarget := Derives.seq ((derives h.1).ofRank_of_le h.2.1) (.mark .dot)
    have hvalue := (derives h.2.2).ofRank_of_le (Nat.zero_le _)
    rw [yield, List.map_append, List.map_cons, ← List.singleton_append, ← List.append_assoc]
    exact .ref (.left (.seq (.left htarget) (.seq .ident (.seq (.mark .equal) hvalue))))
  | this _ _, _ => .this
  | super _ _ _, _ => .super

theorem Expr.allDerives : {es : List Expr} → AllWellFormed es →
    ∀ e ∈ es, Derives (.ref .expression) (e.yield.map Symbol.kind)
  | [], _ => fun _ h => nomatch h
  | _ :: _, h => List.forall_mem_cons.2
    ⟨.ref ((derives h.1).ofRank_of_le (Nat.zero_le _)), allDerives h.2⟩

end

/-- An expression that may be left out. -/
theorem Expr.derives_option {e : Option Expr} (h : OptionWellFormed e) :
    Derives (.opt (.ref .expression)) ((yieldOption e).map Symbol.kind) := by
  cases e with
  | none => exact .right .empty
  | some e =>
    exact .left (.ref ((derives (optionWellFormed_some.1 h)).ofRank_of_le (Nat.zero_le _)))

/-- What a form derives from. -/
def Form.rule : Form → Rule
  | statement _ _ => .ref .statement
  | declaration _ => .ref .declaration
  | function _ => .ref .function
  | body _ => .star (.ref .declaration)
  | methods _ => .star (.ref .function)

theorem Expr.WellFormed.derives_expression {e : Expr} (h : e.WellFormed) :
    Derives (.ref .expression) (e.yield.map Symbol.kind) :=
  .ref ((derives h).ofRank_of_le (Nat.zero_le _))

theorem Derives.varDecl (name : Lexeme) {initial : Option Expr}
    (h : Expr.OptionWellFormed initial) :
    Derives (.ref .varDecl) ((yieldVar name initial).map Symbol.kind) := by
  refine .ref (.seq (.word .var) ?_)
  cases initial with
  | none => exact .seq .ident (.seq (.right .empty) (.mark .semicolon))
  | some e =>
    have he := (Expr.optionWellFormed_some.1 h).derives_expression
    rw [Expr.yieldInitial, List.map_append, List.map_cons, List.map_cons, List.cons_append]
    exact .seq .ident (.seq (.left (.seq (.mark .equal) he)) (.mark .semicolon))

theorem Derives.superclass (superclass : Option VarRef) :
    Derives (.opt (.all [.mark .less, .ident])) ((yieldSuperclass superclass).map Symbol.kind) := by
  cases superclass with
  | none => exact .right .empty
  | some ref => exact .left (.seq (.mark .less) .ident)

theorem Derives.parameters {params : List Lexeme} (h : params.length ≤ maxArity) :
    Derives (.opt (.ref .parameters)) ((yieldNames params).map Symbol.kind) := by
  cases params with
  | nil => exact .right .empty
  | cons name params => exact .left (.ref (.names (Nat.le_of_succ_le_succ h)))

theorem WrittenFirst.derives {initial : Option Stmt} (h : WrittenFirst initial symbols) :
    Derives (.any [.ref .varDecl, .ref .exprStmt, .mark .semicolon]) (symbols.map Symbol.kind) := by
  cases h with
  | none => exact .right (.right (.mark .semicolon))
  | var hw => exact .left (.varDecl _ hw)
  | expression hw =>
    rw [List.map_append]
    exact .right (.left (.ref (.seq hw.derives_expression (.mark .semicolon))))

/-- What is written derives from the grammar. -/
theorem Written.derives {form : Form} (h : Written form symbols) :
    Derives form.rule (symbols.map Symbol.kind) := by
  induction h with
  | expression hw =>
    rw [List.map_append]
    exact .ref (.left (.ref (.seq hw.derives_expression (.mark .semicolon))))
  | print hw =>
    rw [List.map_cons, List.map_append]
    exact .ref (.right (.right (.right (.left (.ref
      (.seq (.word .print) (.seq hw.derives_expression (.mark .semicolon))))))))
  | ret hw =>
    rw [List.map_cons, List.map_append]
    exact .ref (.right (.right (.right (.right (.left (.ref
      (.seq (.word .return) (.seq (Expr.derives_option hw) (.mark .semicolon)))))))))
  | block _ ih =>
    rw [List.map_cons, List.map_append]
    exact .ref (.right (.right (.right (.right (.right (.right (.ref
      (.seq (.mark .leftBrace) (.seq ih (.mark .rightBrace))))))))))
  | branch hw _ ih =>
    rw [List.map_cons, List.map_cons, List.map_append, List.map_cons]
    have helse : Derives (.seq (.ref .statement) (.opt (.all [.word .else, .ref .statement]))) _ :=
      .seq ih (.right .empty)
    rw [List.append_nil] at helse
    exact .ref (.right (.right (.left (.ref (.seq (.word .if) (.seq (.mark .leftParen)
      (.seq hw.derives_expression (.seq (.mark .rightParen) helse))))))))
  | branchElse hw _ _ ih ih' =>
    rw [List.map_cons, List.map_cons, List.map_append, List.map_cons, List.map_append,
      List.map_cons]
    exact .ref (.right (.right (.left (.ref (.seq (.word .if) (.seq (.mark .leftParen)
      (.seq hw.derives_expression (.seq (.mark .rightParen)
        (.seq ih (.left (.seq (.word .else) ih')))))))))))
  | loop hw _ ih =>
    rw [List.map_cons, List.map_cons, List.map_append, List.map_cons]
    exact .ref (.right (.right (.right (.right (.right (.left (.ref (.seq (.word .while)
      (.seq (.mark .leftParen) (.seq hw.derives_expression (.seq (.mark .rightParen) ih)))))))))))
  | forLoop hf hw hw' _ _ ih =>
    rw [List.map_cons, List.map_cons, List.map_append, List.map_append, List.map_cons,
      List.map_append, List.map_cons]
    exact .ref (.right (.left (.ref (.seq (.word .for) (.seq (.mark .leftParen) (.seq hf.derives
      (.seq (Expr.derives_option hw) (.seq (.mark .semicolon) (.seq (Expr.derives_option hw')
        (.seq (.mark .rightParen) ih))))))))))
  | statement _ ih => exact .ref (.right (.right (.right ih)))
  | var hw => exact .ref (.right (.right (.left (.varDecl _ hw))))
  | functionDecl _ ih => exact .ref (.right (.left (.ref (.seq (.word .fun) ih))))
  | classDecl _ ih =>
    rw [List.map_cons, List.map_cons, List.map_append, List.map_cons, List.map_append]
    exact .ref (.left (.ref (.seq (.word .class) (.seq .ident (.seq (.superclass _)
      (.seq (.mark .leftBrace) (.seq ih (.mark .rightBrace))))))))
  | function hl _ ih =>
    rw [List.map_cons, List.map_cons, List.map_append, List.map_cons, List.map_cons,
      List.map_append]
    exact .ref
      (.seq .ident (.seq (.mark .leftParen) (.seq (.parameters hl) (.seq (.mark .rightParen)
      (.ref (.seq (.mark .leftBrace) (.seq ih (.mark .rightBrace))))))))
  | bodyNil => exact .starNil
  | bodyCons _ _ ih ih' =>
    rw [List.map_append]
    exact .starCons ih ih'
  | methodsNil => exact .starNil
  | methodsCons _ _ ih ih' =>
    rw [List.map_append]
    exact .starCons ih ih'

theorem map_kind_of_spelled (h : Spelled symbols tokens) :
    tokens.map Token.kind = symbols.map Symbol.kind := by
  induction h with
  | nil => rfl
  | cons ht _ ih => rw [List.map_cons, List.map_cons, ht.1, ih]

/-- A list of tokens that ends with the only end of the source can be read as a program if and only
    if the kinds of its tokens derive from `program`. -/
theorem Program.parse_ok_iff_derives (firstId : Nat) (tokens : List Token) (eof : Token)
    (ht : ∀ t ∈ tokens, t.isEof = false) (heof : eof.isEof = true) :
    (∃ program, (Program.parse (.ofTokens (tokens ++ [eof]) firstId)).1 = .ok program) ↔
      Derives (.ref .program) ((tokens ++ [eof]).map Token.kind) := by
  rw [Program.parse_eq_ok_iff firstId ht heof]
  constructor
  · rintro ⟨stmts, symbols, hw, hs⟩
    rw [List.map_append, map_kind_of_spelled hs, List.map_singleton, Token.isEof_iff.1 heof]
    exact .ref (.seq hw.derives (.kind .eof))
  · intro h
    obtain ⟨stmts, u, eof', hu, -, symbols, hw, hs⟩ := h.holds Nonterminal.means_of_holds rfl
    obtain ⟨rfl, -⟩ := List.append_inj' hu rfl
    exact ⟨stmts, symbols, hw, hs⟩

/-- A loop around an `if` with an `else`, in a method of a class with a superclass, is a program.
    Without the last brace it is none. -/
theorem Program.parse_ok_iff_derives_nested :
    let kinds : List Token.Kind :=
      [.keyword .class, .identifier, .punctuator .less, .identifier, .punctuator .leftBrace,
        .identifier, .punctuator .leftParen, .identifier, .punctuator .rightParen,
        .punctuator .leftBrace,
        .keyword .for, .punctuator .leftParen, .punctuator .semicolon, .identifier,
        .punctuator .semicolon, .punctuator .rightParen,
        .keyword .if, .punctuator .leftParen, .identifier, .punctuator .rightParen,
        .keyword .super, .punctuator .dot, .identifier, .punctuator .leftParen, .identifier,
        .punctuator .dot, .identifier, .punctuator .equal, .keyword .this, .punctuator .rightParen,
        .punctuator .semicolon, .keyword .else, .keyword .return, .punctuator .semicolon,
        .punctuator .rightBrace, .punctuator .rightBrace]
    Derives (.ref .program) (kinds ++ [.eof]) ∧
      ¬Derives (.ref .program) (kinds.dropLast ++ [.eof]) := by
  intro kinds
  let token (kind : Token.Kind) : Token := ⟨kind, "a", 1⟩
  have hread : (Program.parse (.ofTokens
      (kinds.map token ++ [token .eof]) 0)).1.toOption.isSome = true := by
    decide +kernel
  have hrejected : (Program.parse (.ofTokens
      (kinds.dropLast.map token ++ [token .eof]) 0)).1.toOption.isSome = false := by
    decide +kernel
  constructor
  · cases hp : (Program.parse (.ofTokens (kinds.map token ++ [token .eof]) 0)).1 with
    | ok program =>
      exact (parse_ok_iff_derives 0 (kinds.map token) (token .eof) (by decide) rfl).1 ⟨program, hp⟩
    | error errors =>
      rw [hp] at hread
      cases hread
  · intro h
    obtain ⟨program, hp⟩ :=
      (parse_ok_iff_derives 0 (kinds.dropLast.map token) (token .eof) (by decide) rfl).2 h
    rw [hp] at hrejected
    cases hrejected

end Lox
