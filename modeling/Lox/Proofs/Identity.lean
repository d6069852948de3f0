import Mathlib
import Lox.Proofs.Reader

/-!
# Identities

A reader gives each expression the next number, and never a number twice. So the identities in what
was read are distinct, and lie between the next number before the reading and the one after it
(`Expr.numbered_of_parse`, `Program.numbered_of_parse`). Programs that are read one after the other,
with the numbers going on, thus share no identity.

The proof follows what has been given out so far: `Read.Tracks` says that a reader turns the numbers
of what it starts from into those of its result and keeps a property of them, and it composes along
the steps of a reader. The readers of expressions keep every property that numbers keep if some are
left out and the next one is put behind them (`Numbering`), as they use no others
(`Read.exprTracks`).
-/

namespace Lox

namespace Expr

mutual

/-- The identities in an expression, each after those of its parts. -/
def ids : Expr → List Nat
  | literal id _ => [id]
  | unary id _ _ right => right.ids ++ [id]
  | binary id _ _ left right => left.ids ++ right.ids ++ [id]
  | logical id _ _ left right => left.ids ++ right.ids ++ [id]
  | grouping id inner => inner.ids ++ [id]
  | var id _ => [id]
  | assign id _ value => value.ids ++ [id]
  | call id callee _ arguments => callee.ids ++ idsAll arguments ++ [id]
  | get id object _ => object.ids ++ [id]
  | set id object _ value => object.ids ++ value.ids ++ [id]
  | this id _ => [id]
  | super id _ _ => [id]

/-- The identities in a list of expressions. -/
def idsAll : List Expr → List Nat
  | [] => []
  | e :: rest => e.ids ++ idsAll rest

end

/-- The identities in an expression that may be missing. -/
def idsOption : Option Expr → List Nat
  | none => []
  | some e => e.ids

theorem idsAll_append (es es' : List Expr) : idsAll (es ++ es') = idsAll es ++ idsAll es' := by
  induction es with
  | nil => rfl
  | cons e rest ih => rw [List.cons_append, idsAll, idsAll, ih, List.append_assoc]

theorem ids_apply (op : Operator) (id : Nat) (mark : Lexeme) (left right : Expr) :
    (op.apply id mark left right).ids = left.ids ++ right.ids ++ [id] := by
  cases op <;> rfl

end Expr

namespace Stmt

mutual

/-- The identities in a statement. -/
def ids : Stmt → List Nat
  | expression e => e.ids
  | print e => e.ids
  | var _ initial => Expr.idsOption initial
  | block body => idsAll body
  | branch condition yes no => condition.ids ++ yes.ids ++ idsOption no
  | loop condition body => condition.ids ++ body.ids
  | function decl => idsDecl decl
  | ret _ value => Expr.idsOption value
  | classDecl _ superclass methods => (superclass.map VarRef.id).toList ++ idsDecls methods

/-- The identities in a list of statements. -/
def idsAll : List Stmt → List Nat
  | [] => []
  | stmt :: rest => stmt.ids ++ idsAll rest

def idsOption : Option Stmt → List Nat
  | none => []
  | some stmt => stmt.ids

def idsDecl : FunctionDecl Stmt → List Nat
  | ⟨_, _, body⟩ => idsAll body

def idsDecls : List (FunctionDecl Stmt) → List Nat
  | [] => []
  | decl :: rest => idsDecl decl ++ idsDecls rest

end

theorem idsAll_append (stmts stmts' : List Stmt) :
    idsAll (stmts ++ stmts') = idsAll stmts ++ idsAll stmts' := by
  induction stmts with
  | nil => rfl
  | cons stmt rest ih => rw [List.cons_append, idsAll, idsAll, ih, List.append_assoc]

theorem idsDecls_append (decls decls' : List (FunctionDecl Stmt)) :
    idsDecls (decls ++ decls') = idsDecls decls ++ idsDecls decls' := by
  induction decls with
  | nil => rfl
  | cons decl rest ih => rw [List.cons_append, idsDecls, idsDecls, ih, List.append_assoc]

end Stmt

/-- Numbers from `low` on and below `high`, each of them once. -/
structure Numbered (low high : Nat) (ids : List Nat) : Prop where
  nodup : ids.Nodup
  range : ∀ id ∈ ids, low ≤ id ∧ id < high

namespace Numbered

variable {low high high' : Nat} {ids ids' : List Nat}

theorem nil (low high : Nat) : Numbered low high [] := ⟨List.nodup_nil, nofun⟩

theorem mono (h : Numbered low high ids) (hh : high ≤ high') : Numbered low high' ids :=
  ⟨h.nodup, fun id hid => ⟨(h.range id hid).1, Nat.lt_of_lt_of_le (h.range id hid).2 hh⟩⟩

/-- Leaving numbers out, or taking them in another order. -/
theorem subperm (h : Numbered low high ids) (hs : ids'.Subperm ids) : Numbered low high ids' := by
  obtain ⟨l, hp, hl⟩ := hs
  exact ⟨hp.nodup_iff.1 (h.nodup.sublist hl),
    fun id hid => h.range id (hl.subset (hp.mem_iff.2 hid))⟩

/-- The next number is not among those before it. -/
theorem snoc (h : Numbered low high ids) (hl : low ≤ high) :
    Numbered low (high + 1) (ids ++ [high]) where
  nodup := by
    refine List.nodup_append.2 ⟨h.nodup, List.nodup_singleton _, fun id hid id' hid' => ?_⟩
    rw [List.mem_singleton.1 hid']
    exact Nat.ne_of_lt (h.range id hid).2
  range := by
    intro id hid
    rcases List.mem_append.1 hid with hid | hid
    · exact ⟨(h.range id hid).1, Nat.lt_succ_of_lt (h.range id hid).2⟩
    · rw [List.mem_singleton.1 hid]
      exact ⟨hl, Nat.lt_succ_self _⟩

end Numbered

/-- A property of the numbers in a part of a tree, of which the next one is `next`: it is kept if
    some are left out and if the next one is put behind them. -/
structure Numbering (P : (next : Nat) → List Nat → Prop) : Prop where
  mono : ∀ {n n' ids}, n ≤ n' → P n ids → P n' ids
  sublist : ∀ {n ids ids'}, ids'.Sublist ids → P n ids → P n ids'
  snoc : ∀ {n ids}, P n ids → P (n + 1) (ids ++ [n])

theorem numbering_numbered (low : Nat) :
    Numbering fun next ids => low ≤ next ∧ Numbered low next ids where
  mono hn h := ⟨h.1.trans hn, h.2.mono hn⟩
  sublist hs h := ⟨h.1, h.2.subperm hs.subperm⟩
  snoc h := ⟨Nat.le_succ_of_le h.1, h.2.snoc h.1⟩

namespace Read

variable {α β : Type} {r : Read α} {done : List Nat} {n : α → List Nat}

/-- A reader that is given something with the numbers `done`, and whose result `a` has the numbers
    `n a`: if the former have the property, so have the latter, beside others. -/
def Tracks (P : Nat → List Nat → Prop) (r : Read α) (done : List Nat) (n : α → List Nat) : Prop :=
  ∀ others ⦃s a s₁⦄, P s.nextId (others ++ done) → r s = .ok a s₁ → P s₁.nextId (others ++ n a)

section

variable {P : Nat → List Nat → Prop}

theorem Tracks.bind {f : α → Read β} {n' : β → List Nat} (hr : r.Tracks P done n)
    (hf : ∀ a, (f a).Tracks P (n a) n') : (r >>= f).Tracks P done n' := by
  intro others s b s₂ hd h
  rw [bind_eq_ok] at h
  obtain ⟨a, s₁, h₁, h₂⟩ := h
  exact hf a others (hr others hd h₁) h₂

/-- A reader of something new, beside what there already is. -/
theorem Tracks.after (hr : r.Tracks P [] n) (done : List Nat) :
    r.Tracks P done fun a => done ++ n a := by
  intro others s a s₁ hd h
  have := hr (others ++ done) (by rwa [List.append_nil]) h
  rwa [List.append_assoc] at this

theorem fail_tracks (cause : ParseError.Cause) : (fail cause : Read α).Tracks P done n := by
  intro others s a s₁ _ h
  cases h

variable (hP : Numbering P)
include hP

theorem Tracks.pure {a : α} (h : (n a).Sublist done) : (Pure.pure a : Read α).Tracks P done n := by
  intro others s b s₁ hd h'
  obtain ⟨rfl, rfl⟩ := pure_eq_ok.1 h'
  exact hP.sublist (h.append_left others) hd

/-- A reader of tokens only. -/
theorem Advances.tracks (hr : r.Advances) (done : List Nat) : r.Tracks P done fun _ => done := by
  intro others s a s₁ hd h
  exact hP.mono (hr.of_ok h).nextId hd

theorem freshId_tracks (done : List Nat) : freshId.Tracks P done fun id => done ++ [id] := by
  intro others s id s₁ hd h
  obtain ⟨rfl, rfl⟩ := freshId_eq_ok.1 h
  rw [← List.append_assoc]
  exact hP.snoc hd

/-- The number of an expression follows those of its parts. -/
theorem Tracks.freshId_pure {build : Nat → α} (h : ∀ id, n (build id) = done ++ [id]) :
    (freshId >>= fun id => Pure.pure (build id)).Tracks P done n :=
  (freshId_tracks hP done).bind fun id => .pure hP (h id ▸ List.Sublist.refl _)

end

/-! ### Expressions -/

section

variable {P : Nat → List Nat → Prop} (hP : Numbering P)
include hP

/-- An assignment drops the number of its target. -/
theorem assignTo_tracks (target : Expr) (mark : Lexeme) (value : Expr) :
    (assignTo target mark value).Tracks P (target.ids ++ value.ids) Expr.ids := by
  unfold assignTo
  split
  · next id name =>
    refine (freshId_tracks hP _).bind fun id' => .pure hP ?_
    exact ((List.nil_sublist _).append_right _).append_right [id']
  · next id object name =>
    refine (freshId_tracks hP _).bind fun id' => .pure hP ?_
    exact ((List.sublist_append_left _ _).append_right _).append_right [id']
  · exact ((report_advances _ _).tracks hP _).bind fun _ => .pure hP (List.sublist_append_left _ _)

theorem superMethod_tracks (keyword : Lexeme) : (superMethod keyword).Tracks P [] Expr.ids :=
  ((expectMark_advances _ _).tracks hP _).bind fun _ =>
    ((expect_advances _ _).tracks hP _).bind fun _ =>
    .freshId_pure hP fun _ => rfl

omit hP in
/-- The readers of expressions with the given fuel keep a property of numbers. -/
structure ExprTracks (P : Nat → List Nat → Prop) (fuel : Nat) : Prop where
  assignment : (assignment fuel).Tracks P [] Expr.ids
  operand : ∀ level, (operand fuel level).Tracks P [] Expr.ids
  operators : ∀ level left, (operators fuel level left).Tracks P left.ids Expr.ids
  unary : (unary fuel).Tracks P [] Expr.ids
  calls : ∀ callee, (calls fuel callee).Tracks P callee.ids Expr.ids
  arguments : (arguments fuel).Tracks P [] Expr.idsAll
  moreArguments : ∀ done, (moreArguments fuel done).Tracks P (Expr.idsAll done.toList) Expr.idsAll
  primary : (primary fuel).Tracks P [] Expr.ids

/-- All readers of expressions keep a property of numbers. -/
theorem exprTracks (fuel : Nat) : ExprTracks P fuel := by
  induction fuel with
  | zero =>
    constructor
    all_goals
      intros
      exact fail_tracks _
  | succ fuel ih =>
    constructor
    case assignment =>
      refine (ih.operand 0).bind fun left => ((accept_advances _).tracks hP _).bind fun mark => ?_
      cases mark with
      | none => exact .pure hP (List.Sublist.refl _)
      | some mark => exact (ih.assignment.after _).bind fun value => assignTo_tracks hP _ _ _
    case operand => exact fun level => ih.unary.bind fun left => ih.operators level left
    case operators =>
      refine fun level left => ((acceptOperator_advances level).tracks hP _).bind fun found => ?_
      match found with
      | none => exact .pure hP (List.Sublist.refl _)
      | some (op, mark) =>
        refine ((ih.operand _).after _).bind fun right => (freshId_tracks hP _).bind fun id => ?_
        rw [← Expr.ids_apply op id mark]
        exact ih.operators _ _
    case unary =>
      refine (acceptUnary_advances.tracks hP _).bind fun found => ?_
      match found with
      | none => exact ih.primary.bind fun callee => ih.calls callee
      | some (op, mark) => exact ih.unary.bind fun right => .freshId_pure hP fun _ => rfl
    case calls =>
      refine fun callee => (peek_advances.tracks hP _).bind fun t => ?_
      split
      · exact (skip_advances.tracks hP _).bind fun _ => (ih.arguments.after _).bind fun arguments =>
          ((expectMark_advances _ _).tracks hP _).bind fun paren =>
            (freshId_tracks hP _).bind fun id =>
          ih.calls _
      · exact (skip_advances.tracks hP _).bind fun _ =>
          ((expect_advances _ _).tracks hP _).bind fun name =>
          (freshId_tracks hP _).bind fun id => ih.calls _
      · exact .pure hP (List.Sublist.refl _)
    case arguments =>
      refine ((seesMark_advances _).tracks hP _).bind fun closed => ?_
      split
      · exact .pure hP (List.Sublist.refl _)
      · exact ih.moreArguments _
    case moreArguments =>
      intro done
      rw [moreArguments_succ]
      refine ((checkCount_advances _ _).tracks hP _).bind fun _ =>
        (ih.assignment.after _).bind fun e => ?_
      have hdone : Expr.idsAll done.toList ++ e.ids = Expr.idsAll (done.push e).toList := by
        rw [Array.toList_push, Expr.idsAll_append, Expr.idsAll, Expr.idsAll, List.append_nil]
      rw [hdone]
      refine ((accept_advances _).tracks hP _).bind fun comma => ?_
      split
      · exact ih.moreArguments _
      · exact .pure hP (List.Sublist.refl _)
    case primary =>
      refine (peek_advances.tracks hP _).bind fun t => ?_
      split
      · exact (skip_advances.tracks hP _).bind fun _ => .freshId_pure hP fun _ => rfl
      split
      · exact (skip_advances.tracks hP _).bind fun _ => .freshId_pure hP fun _ => rfl
      · exact (skip_advances.tracks hP _).bind fun _ => superMethod_tracks hP _
      · exact (skip_advances.tracks hP _).bind fun _ => .freshId_pure hP fun _ => rfl
      · exact (skip_advances.tracks hP _).bind fun _ => ih.assignment.bind fun inner =>
          ((expectMark_advances _ _).tracks hP _).bind fun _ => .freshId_pure hP fun _ => rfl
      · exact fail_tracks _

theorem expression_tracks : expression.Tracks P [] Expr.ids := by
  intro others s e s₁ hd h
  exact (exprTracks hP s.fuel).assignment others hd h

end

/-! ### Distinct numbers -/

/-- A reader that is given something with the numbers `done`, and whose result `a` has the numbers
    `n a`: if the former are distinct numbers given out so far, so are the latter, beside others. -/
def Numbers (r : Read α) (done : List Nat) (n : α → List Nat) : Prop :=
  ∀ low others ⦃s a s₁⦄, low ≤ s.nextId → Numbered low s.nextId (others ++ done) →
    r s = .ok a s₁ → low ≤ s₁.nextId ∧ Numbered low s₁.nextId (others ++ n a)

theorem numbers_iff_tracks :
    r.Numbers done n ↔ ∀ low,
    r.Tracks (fun next ids => low ≤ next ∧ Numbered low next ids) done n :=
  ⟨fun h low others _ _ _ hd => h low others hd.1 hd.2,
    fun h low others _ _ _ hl hd => h low others ⟨hl, hd⟩⟩

theorem Numbers.bind {f : α → Read β} {n' : β → List Nat} (hr : r.Numbers done n)
    (hf : ∀ a, (f a).Numbers (n a) n') : (r >>= f).Numbers done n' :=
  numbers_iff_tracks.2 fun low =>
    (numbers_iff_tracks.1 hr low).bind fun a => numbers_iff_tracks.1 (hf a) low

/-- A reader of something new, beside what there already is. -/
theorem Numbers.after (hr : r.Numbers [] n) (done : List Nat) :
    r.Numbers done fun a => done ++ n a :=
  numbers_iff_tracks.2 fun low => (numbers_iff_tracks.1 hr low).after done

theorem Numbers.pure {a : α} (h : (n a).Subperm done) :
    (Pure.pure a : Read α).Numbers done n := by
  intro low others s b s₁ hl hd h'
  obtain ⟨rfl, rfl⟩ := pure_eq_ok.1 h'
  exact ⟨hl, hd.subperm ((List.subperm_append_left _).2 h)⟩

theorem Numbers.map {f : α → β} (hr : r.Numbers done n) (n' : β → List Nat)
    (h : ∀ a, n' (f a) = n a) : (f <$> r).Numbers done n' := by
  intro low others s b s₁ hl hd h'
  obtain ⟨a, ha, rfl⟩ := map_eq_ok.1 h'
  rw [h a]
  exact hr low others hl hd ha

/-- A reader of tokens only. -/
theorem Advances.numbers (hr : r.Advances) (done : List Nat) : r.Numbers done fun _ => done :=
  numbers_iff_tracks.2 fun low => hr.tracks (numbering_numbered low) done

theorem fail_numbers (cause : ParseError.Cause) : (fail cause : Read α).Numbers done n :=
  numbers_iff_tracks.2 fun _ => fail_tracks cause

theorem freshId_numbers (done : List Nat) : freshId.Numbers done fun id => done ++ [id] :=
  numbers_iff_tracks.2 fun low => freshId_tracks (numbering_numbered low) done

/-- The number of an expression follows those of its parts. -/
theorem Numbers.freshId_pure {build : Nat → α} (h : ∀ id, n (build id) = done ++ [id]) :
    (freshId >>= fun id => Pure.pure (build id)).Numbers done n :=
  (freshId_numbers done).bind fun id => .pure (h id ▸ List.Subperm.refl _)

theorem expression_numbers : expression.Numbers [] Expr.ids :=
  numbers_iff_tracks.2 fun low => expression_tracks (numbering_numbered low)

/-! ### Statements -/

theorem expressionUnless_numbers (mark : Punctuator) :
    (expressionUnless mark).Numbers [] Expr.idsOption := by
  refine ((seesMark_advances mark).numbers _).bind fun seen => ?_
  split
  · exact .pure (List.Subperm.refl _)
  · exact expression_numbers.bind fun e => .pure (List.Subperm.refl _)

theorem varDeclaration_numbers : varDeclaration.Numbers [] Stmt.ids := by
  refine ((expect_advances _ _).numbers _).bind fun name => ((accept_advances _).numbers _).bind
    fun mark => ?_
  have next : ∀ initial, Numbers (do
      let _ ← Read.expectMark .semicolon .expectedDeclarationEnd
      return Stmt.var name initial) (Expr.idsOption initial) Stmt.ids := fun initial =>
    ((expectMark_advances _ _).numbers _).bind fun _ => .pure (List.Subperm.refl _)
  split
  · exact (expression_numbers.map Expr.idsOption fun _ => rfl).bind next
  · exact (Numbers.pure (List.Subperm.refl _)).bind next

theorem expressionStatement_numbers : expressionStatement.Numbers [] Stmt.ids :=
  expression_numbers.bind fun _ => ((expectMark_advances _ _).numbers _).bind fun _ =>
    .pure (List.Subperm.refl _)

theorem superclass_numbers :
    superclass.Numbers [] fun superclass => (superclass.map VarRef.id).toList := by
  refine ((accept_advances _).numbers _).bind fun mark => ?_
  split
  · exact ((expect_advances _ _).numbers _).bind fun name => .freshId_pure fun _ => rfl
  · exact .pure (List.Subperm.refl _)

theorem condition_numbers (opening : ParseError.Cause) :
    (condition opening).Numbers [] Expr.ids :=
  ((expectMark_advances _ _).numbers _).bind fun _ => expression_numbers.bind fun _ =>
    ((expectMark_advances _ _).numbers _).bind fun _ => .pure (List.Subperm.refl _)

/-- The identities in the clauses of a `for`. -/
def ForClauses.ids (clauses : ForClauses) : List Nat :=
  Stmt.idsOption clauses.initial ++ clauses.condition.ids ++ Expr.idsOption clauses.increment

theorem forInitial_numbers : forInitial.Numbers [] Stmt.idsOption := by
  refine (peek_advances.numbers _).bind fun t => ?_
  split
  · exact (skip_advances.numbers _).bind fun _ => .pure (List.Subperm.refl _)
  · exact (skip_advances.numbers _).bind fun _ =>
      varDeclaration_numbers.map Stmt.idsOption fun _ => rfl
  · exact expressionStatement_numbers.map Stmt.idsOption fun _ => rfl

theorem forCondition_numbers : forCondition.Numbers [] Expr.ids := by
  refine (expressionUnless_numbers _).bind fun condition => ?_
  cases condition with
  | some e => exact .pure (List.Subperm.refl _)
  | none => exact (freshId_numbers _).bind fun id => .pure (List.Subperm.refl _)

theorem forClauses_numbers : forClauses.Numbers [] ForClauses.ids :=
  ((expectMark_advances _ _).numbers _).bind fun _ => forInitial_numbers.bind fun _ =>
    (forCondition_numbers.after _).bind fun _ => ((expectMark_advances _ _).numbers _).bind fun _ =>
    ((expressionUnless_numbers _).after _).bind fun _ =>
    ((expectMark_advances _ _).numbers _).bind fun _ => .pure (List.Subperm.refl _)

/-- In the loop that a `for` stands for, the increment comes after the body. -/
theorem ForClauses.ids_toLoop (clauses : ForClauses) (body : Stmt) :
    (clauses.toLoop body).ids.Perm (clauses.ids ++ body.ids) := by
  obtain ⟨initial, condition, increment⟩ := clauses
  cases initial <;> cases increment <;>
    simp [ForClauses.toLoop, ForClauses.ids, Stmt.ids, Stmt.idsAll, Stmt.idsOption,
      Expr.idsOption, List.perm_append_left_iff, List.perm_append_comm]

/-- The readers of statements with the given fuel give out distinct numbers. -/
structure StmtNumbers (fuel : Nat) : Prop where
  declaration : Numbers (fun s => .ok (declaration fuel s).1 (declaration fuel s).2)
      [] Stmt.idsOption
  declarationOrError : (declarationOrError fuel).Numbers [] Stmt.ids
  function : ∀ kind, (function fuel kind).Numbers [] Stmt.idsDecl
  methods : ∀ done, (methods fuel done).Numbers (Stmt.idsDecls done.toList) Stmt.idsDecls
  block : ∀ done, (block fuel done).Numbers (Stmt.idsAll done.toList) Stmt.idsAll
  statement : (statement fuel).Numbers [] Stmt.ids

/-- All readers of statements give out distinct numbers. -/
theorem stmtNumbers (fuel : Nat) : StmtNumbers fuel := by
  induction fuel with
  | zero =>
    constructor
    case declaration =>
      intro low others s stmt s₁ hl hd h
      cases h
      exact ⟨hl, hd⟩
    all_goals
      intros
      exact fail_numbers _
  | succ fuel ih =>
    constructor
    case declaration =>
      intro low others s stmt s₁ hl hd h
      cases h
      rw [Read.declaration]
      cases hr : Read.declarationOrError fuel s with
      | ok stmt s₁ => exact ih.declarationOrError low others hl hd hr
      | error e s₁ =>
        -- Numbers given out before the error are lost, but never given out again.
        have hm : s.Moves s₁ := after_of_error hr ▸ (stmtAdvances fuel).declarationOrError s
        exact ⟨Nat.le_trans hl hm.nextId, hd.mono hm.nextId⟩
    case declarationOrError =>
      refine (peek_advances.numbers _).bind fun t => ?_
      split
      · exact (skip_advances.numbers _).bind fun _ =>
          ((expect_advances _ _).numbers _).bind fun name =>
          superclass_numbers.bind fun superclass =>
            ((expectMark_advances _ _).numbers _).bind fun _ =>
          ((ih.methods #[]).after _).bind fun methods =>
          ((expectMark_advances _ _).numbers _).bind fun _ => .pure (List.Subperm.refl _)
      · exact (skip_advances.numbers _).bind fun _ => (ih.function _).bind fun decl =>
          .pure (List.Subperm.refl _)
      · exact (skip_advances.numbers _).bind fun _ => varDeclaration_numbers
      · exact ih.statement
    case function =>
      exact fun kind => ((expect_advances _ _).numbers _).bind fun name =>
        ((expectMark_advances _ _).numbers _).bind fun _ =>
        ((parameters_advances _).numbers _).bind fun params =>
        ((expectMark_advances _ _).numbers _).bind fun _ =>
        ((expectMark_advances _ _).numbers _).bind fun _ => (ih.block #[]).bind fun body =>
        .pure (List.Subperm.refl _)
    case methods =>
      refine fun done => (atBraceEnd_advances.numbers _).bind fun closed => ?_
      split
      · exact .pure (List.Subperm.refl _)
      · refine ((ih.function _).after _).bind fun decl => ?_
        have hdone : Stmt.idsDecls done.toList ++ Stmt.idsDecl decl =
            Stmt.idsDecls (done.push decl).toList := by
          rw [Array.toList_push, Stmt.idsDecls_append, Stmt.idsDecls, Stmt.idsDecls,
            List.append_nil]
        rw [hdone]
        exact ih.methods _
    case block =>
      refine fun done => (atBraceEnd_advances.numbers _).bind fun closed => ?_
      split
      · exact ((expectMark_advances _ _).numbers _).bind fun _ => .pure (List.Subperm.refl _)
      · refine (ih.declaration.after _).bind fun stmt => ?_
        cases stmt with
        | none =>
          rw [Stmt.idsOption, List.append_nil]
          exact ih.block _
        | some stmt =>
          have hdone : Stmt.idsAll done.toList ++ stmt.ids =
              Stmt.idsAll (done.push stmt).toList := by
            rw [Array.toList_push, Stmt.idsAll_append, Stmt.idsAll, Stmt.idsAll, List.append_nil]
          rw [Stmt.idsOption, hdone]
          exact ih.block _
    case statement =>
      refine (peek_advances.numbers _).bind fun t => ?_
      split
      · exact (skip_advances.numbers _).bind fun _ => forClauses_numbers.bind fun clauses =>
          (ih.statement.after _).bind fun body => .pure (clauses.ids_toLoop body).subperm
      · refine (skip_advances.numbers _).bind fun _ => (condition_numbers _).bind fun e =>
          (ih.statement.after _).bind fun yes => ((accept_advances _).numbers _).bind fun mark => ?_
        split
        · exact (ih.statement.after _).bind fun no => .pure (List.Subperm.refl _)
        · refine .pure (n := Stmt.ids) ?_
          rw [Stmt.ids, Stmt.idsOption, List.append_nil]
      · exact (skip_advances.numbers _).bind fun _ => (condition_numbers _).bind fun e =>
          (ih.statement.after _).bind fun body => .pure (List.Subperm.refl _)
      · exact (skip_advances.numbers _).bind fun _ => (expressionUnless_numbers _).bind fun value =>
          ((expectMark_advances _ _).numbers _).bind fun _ => .pure (List.Subperm.refl _)
      · exact (skip_advances.numbers _).bind fun _ => (ih.block #[]).bind fun body =>
          .pure (List.Subperm.refl _)
      · exact (skip_advances.numbers _).bind fun _ => expression_numbers.bind fun e =>
          ((expectMark_advances _ _).numbers _).bind fun _ => .pure (List.Subperm.refl _)
      · exact expressionStatement_numbers

/-- The numbers of the declarations so far stay distinct when more are read. -/
theorem numbered_declarations (fuel : Nat) (done : Array Stmt) {low : Nat} {s : Cursor}
    (hl : low ≤ s.nextId)
    (hd : Numbered low s.nextId (Stmt.idsAll done.toList)) :
    low ≤ (declarations fuel done s).2.nextId ∧
      Numbered low (declarations fuel done s).2.nextId
        (Stmt.idsAll (declarations fuel done s).1.toList) := by
  induction fuel generalizing done s with
  | zero => exact ⟨hl, hd⟩
  | succ fuel ih =>
    rw [declarations]
    split
    · exact ⟨hl, hd⟩
    · have hnext := (stmtNumbers s.fuel).declaration.after (Stmt.idsAll done.toList)
        low [] hl hd rfl
      split
      · next stmt s₁ h =>
        rw [h] at hnext
        refine ih _ hnext.1 ?_
        rw [Array.toList_push, Stmt.idsAll_append, Stmt.idsAll, Stmt.idsAll, List.append_nil]
        exact hnext.2
      · next s₁ h =>
        rw [h] at hnext
        refine ih _ hnext.1 ?_
        simpa [Stmt.idsOption] using hnext.2

end Read

/-- Numbers go on, whatever becomes of the reading. -/
theorem Expr.nextId_le_parse (s : Cursor) : s.nextId ≤ (Expr.parse s).2.nextId := by
  have hm := Read.expression_advances s
  rw [Expr.parse]
  split
  · next e s₁ h => exact (Read.after_of_error h ▸ hm).nextId
  · next e s₁ h =>
    have hn := (Read.after_of_ok h ▸ hm).nextId
    repeat' split
    all_goals exact hn

theorem Expr.nextId_le_of_parse {s s₁ : Cursor} {result : Except ParseError Expr}
    (h : Expr.parse s = (result, s₁)) : s.nextId ≤ s₁.nextId := by
  have hn := nextId_le_parse s
  rwa [h] at hn

theorem Program.nextId_le_parse (s : Cursor) : s.nextId ≤ (Program.parse s).2.nextId := by
  have hn := (Read.numbered_declarations s.size #[] (Nat.le_refl s.nextId) (.nil _ _)).1
  rw [Program.parse]
  dsimp only
  split <;> exact hn

theorem Program.nextId_le_of_parse {s s₁ : Cursor} {result : Except (List ParseError) Program}
    (h : Program.parse s = (result, s₁)) : s.nextId ≤ s₁.nextId := by
  have hn := nextId_le_parse s
  rwa [h] at hn

/-- The identities in an expression that was read. -/
theorem Expr.numbered_of_parse {s s₁ : Cursor} {e : Expr} (h : Expr.parse s = (.ok e, s₁)) :
    Numbered s.nextId s₁.nextId e.ids :=
  (Read.expression_numbers s.nextId [] (Nat.le_refl _) (.nil _ _) (Expr.parse_eq_ok.1 h).1).2

/-- The identities in a program that was read. -/
theorem Program.numbered_of_parse {s s₁ : Cursor} {p : Program}
    (h : Program.parse s = (.ok p, s₁)) : Numbered s.nextId s₁.nextId (Stmt.idsAll p) := by
  have hn := Read.numbered_declarations s.size #[] (Nat.le_refl s.nextId) (.nil _ _)
  rw [(Program.parse_eq_ok.1 h).1] at hn
  exact hn.2

end Lox
