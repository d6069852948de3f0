import Mathlib
import Lox.Proofs.Fuel
import Lox.Proofs.Relabelling

/-!
# Reading the same tokens elsewhere

Tokens are read in some surroundings: they stand on some lines, the numbers for expressions go on
from some number, and other tokens may follow. In other surroundings the same tokens are read as the
same trees but for identities and lines. What follows matters only to a reader that looks at it: one
of expressions looks one token ahead, so if other tokens are added, there must have been a token
left before. One of statements ends with a semicolon or a brace, and what is added behind it must
only not be an `else`.

* `Cursor.Recast`: a cursor and another one in other surroundings;
* `Read.Carries`: a reading that succeeds does so in other surroundings, with the relabelled result;
* `Expr.parse_recast`, `Program.parse_recast`: whole expressions and programs.
-/

namespace Lox

variable (L : Relabelling) (us : Option (List Token))

/-- `s'` stands before the relabelled tokens of `s`, and expressions get from it the numbers that
    their numbers from `s` are relabelled to. After the tokens there is the end of `s`, relabelled,
    or `us` is what follows before another end. -/
structure Cursor.Recast (s s' : Cursor) : Prop where
  rest : s'.rest = s.rest.map (Token.relabel L) ++ us.getD []
  eof : us = none → s'.eof = s.eof.relabel L
  nextId : ∀ i, L.id (s.nextId + i) = s'.nextId + i
  size : s.size + (us.getD []).length ≤ s'.size
  errors : s'.errors = #[]

/-- No errors were found so far, and, if one looks ahead, what is added does not come into view. -/
structure Cursor.Clear (ahead : Bool) (s : Cursor) : Prop where
  errors : s.errors = #[]
  rest : ahead = true → us = none ∨ s.rest ≠ []

variable {L us} {s : Cursor}

theorem Cursor.Clear.of_ahead {p : Bool} (h : s.Clear us true) : s.Clear us p :=
  ⟨h.errors, fun _ => h.rest rfl⟩

theorem Cursor.Clear.not_ahead {q : Bool} (h : s.Clear us q) : s.Clear us false :=
  ⟨h.errors, by simp⟩

@[simp]
theorem Token.kind_relabel (t : Token) : (t.relabel L).kind = t.kind := rfl

namespace Cursor.Recast

variable {s s' : Cursor}

/-- Both cursors stand before a token, or there are no tokens left and none are added. -/
theorem rest_cases (h : s.Recast L us s') (hs : s.Clear us true) :
    (s.rest = [] ∧ us = none ∧ s'.rest = []) ∨
      ∃ t rest, s.rest = t :: rest ∧
        s'.rest = t.relabel L :: (rest.map (Token.relabel L) ++ us.getD []) := by
  have hrest := h.rest
  cases hr : s.rest with
  | nil =>
    rcases hs.rest rfl with rfl | hne
    · exact .inl ⟨rfl, rfl, by rw [hrest, hr]; rfl⟩
    · exact absurd hr hne
  | cons t rest => exact .inr ⟨t, rest, rfl, by rw [hrest, hr]; rfl⟩

/-- Both cursors move over the next token. -/
theorem tail (h : s.Recast L us s') {rest : List Token} :
    Recast L us { s with rest } { s' with rest := rest.map (Token.relabel L) ++ us.getD [] } :=
  { h with rest := rfl }

theorem peek_eq (h : s.Recast L us s') (hs : s.Clear us true) : s'.peek = s.peek.relabel L := by
  rw [peek, peek]
  rcases h.rest_cases hs with ⟨hr, hus, hr'⟩ | ⟨t, rest, hr, hr'⟩
  · rw [hr, hr', List.headD_nil, List.headD_nil, h.eof hus]
  · rw [hr, hr', List.headD_cons, List.headD_cons]

theorem sees_eq (h : s.Recast L us s') (hs : s.Clear us true) (kind : Token.Kind) :
    s'.sees kind = s.sees kind := by
  rw [sees, sees]
  rcases h.rest_cases hs with ⟨hr, -, hr'⟩ | ⟨t, rest, hr, hr'⟩
  · rw [hr, hr']
  · rw [hr, hr']
    rfl

theorem atEnd_eq (h : s.Recast L us s') (hs : s.Clear us true) : s'.atEnd = s.atEnd := by
  rw [atEnd, atEnd]
  rcases h.rest_cases hs with ⟨hr, -, hr'⟩ | ⟨t, rest, hr, hr'⟩
  · rw [hr, hr']
  · rw [hr, hr', List.isEmpty_cons, List.isEmpty_cons]

theorem fuel_le (h : s.Recast L us s') : s.fuel ≤ s'.fuel := by
  have := h.size
  rw [fuel, fuel]
  omega

end Cursor.Recast

namespace Read

variable {α β : Type} {p q : Bool} {r r' : Read α} {g : α → α}

/-- If the reader `r` succeeds and its end is clear, so was its start, and `r'` succeeds in other
    surroundings with what `g` makes of the result of `r`. Whether the end has to be clear for a
    reader that looks ahead, and the start then is, is said by `q` and `p`. -/
def Carries (L : Relabelling) (us : Option (List Token)) (p q : Bool) (g : α → α)
    (r r' : Read α) : Prop :=
  ∀ ⦃s a s₁⦄, r s = .ok a s₁ → s₁.Clear us q →
    s.Clear us p ∧ ∀ s', s.Recast L us s' → ∃ s₁', r' s' = .ok (g a) s₁' ∧ s₁.Recast L us s₁'

theorem Carries.bind {f f' : α → Read β} {q' : Bool} {g' : β → β} (hr : Carries L us p q g r r')
    (hf : ∀ a, Carries L us q q' g' (f a) (f' (g a))) :
    Carries L us p q' g' (r >>= f) (r' >>= f') := by
  intro s b s₂ h hclear
  obtain ⟨a, s₁, h₁, h₂⟩ := bind_eq_ok.1 h
  obtain ⟨hclear₁, hf'⟩ := hf a h₂ hclear
  obtain ⟨hclear₀, hr'⟩ := hr h₁ hclear₁
  refine ⟨hclear₀, fun s' hs' => ?_⟩
  obtain ⟨s₁', h₁', hs₁'⟩ := hr' s' hs'
  obtain ⟨s₂', h₂', hs₂'⟩ := hf' s₁' hs₁'
  exact ⟨s₂', (bind_of_ok h₁').trans h₂', hs₂'⟩

theorem Carries.pure (a : α) : Carries L us p p g (Pure.pure a) (Pure.pure (g a)) := by
  intro s b s₁ h hclear
  obtain ⟨rfl, rfl⟩ := pure_eq_ok.1 h
  exact ⟨hclear, fun s' hs' => ⟨s', rfl, hs'⟩⟩

theorem Carries.map {f f' : α → β} {g' : β → β} (hr : Carries L us p q g r r')
    (h : ∀ a, f' (g a) = g' (f a)) : Carries L us p q g' (f <$> r) (f' <$> r') := by
  intro s b s₁ hb hclear
  obtain ⟨a, ha, rfl⟩ := map_eq_ok.1 hb
  obtain ⟨hclear₀, hr'⟩ := hr ha hclear
  refine ⟨hclear₀, fun s' hs' => ?_⟩
  obtain ⟨s₁', ha', hs₁'⟩ := hr' s' hs'
  exact ⟨s₁', h a ▸ map_of_ok ha', hs₁'⟩

/-- A reader whose end may be anything may also be followed by one that looks ahead. -/
theorem Carries.mono (hr : Carries L us true false g r r') : Carries L us p q g r r' := by
  intro s a s₁ h hclear
  obtain ⟨hclear₀, hr'⟩ := hr h hclear.not_ahead
  exact ⟨hclear₀.of_ahead, hr'⟩

/-! ### Single tokens -/

theorem fail_carries (cause : ParseError.Cause) : Carries L us p q g (fail cause) r' := by
  intro s a s₁ h
  cases h

theorem peek_carries : Carries L us true true (Token.relabel L) peek peek := by
  intro s t s₁ h hclear
  obtain ⟨rfl, rfl⟩ := peek_eq_ok.1 h
  exact ⟨hclear, fun s' hs' => ⟨s', peek_eq_ok.2 ⟨hs'.peek_eq hclear, rfl⟩, hs'⟩⟩

theorem seesMark_carries (mark : Punctuator) :
    Carries L us true true id (seesMark mark) (seesMark mark) := by
  intro s seen s₁ h hclear
  cases h
  refine ⟨hclear, fun s' hs' => ⟨s', ?_, hs'⟩⟩
  rw [seesMark, hs'.sees_eq hclear]
  rfl

theorem atBraceEnd_carries : Carries L us true true id atBraceEnd atBraceEnd := by
  intro s closed s₁ h hclear
  cases h
  refine ⟨hclear, fun s' hs' => ⟨s', ?_, hs'⟩⟩
  rw [atBraceEnd, hs'.sees_eq hclear, hs'.atEnd_eq hclear]
  rfl

theorem skip_carries : Carries L us true true id skip skip := by
  intro s u s₁ h hclear
  obtain rfl := skip_eq_ok.1 h
  have hclear₀ : s.Clear us true := by
    refine ⟨hclear.errors, fun _ => (hclear.rest rfl).imp_right fun hne hr => hne ?_⟩
    rw [hr, List.tail_nil]
  refine ⟨hclear₀, fun s' hs' => ⟨{ s' with rest := s'.rest.tail }, rfl, { hs' with rest := ?_ }⟩⟩
  rcases hs'.rest_cases hclear₀ with ⟨hr, hus, hr'⟩ | ⟨t, rest, hr, hr'⟩
  · rw [hr, hr', hus]
    rfl
  · rw [hr, hr', List.tail_cons, List.tail_cons]

theorem freshId_carries : Carries L us p p L.id freshId freshId := by
  intro s id s₁ h hclear
  obtain ⟨rfl, rfl⟩ := freshId_eq_ok.1 h
  refine ⟨⟨hclear.errors, hclear.rest⟩, fun s' hs' => ?_⟩
  refine ⟨{ s' with nextId := s'.nextId + 1 }, ?_, { hs' with nextId := fun i => ?_ }⟩
  · exact freshId_eq_ok.2 ⟨hs'.nextId 0, rfl⟩
  · have := hs'.nextId (1 + i)
    rwa [← Nat.add_assoc, ← Nat.add_assoc] at this

/-- An error that is kept is there in the end. -/
theorem report_carries (place : Place) (cause : ParseError.Cause) {r' : Read Unit} :
    Carries L us p q id (report place cause) r' := by
  intro s u s₁ h hclear
  obtain rfl := report_eq_ok.1 h
  exact absurd hclear.errors (by simp)

/-- A token that is needed is there, so nothing that is added comes into view. -/
theorem expect_carries (kind : Token.Kind) (cause : ParseError.Cause) :
    Carries L us true q (Lexeme.relabel L) (expect kind cause) (expect kind cause) := by
  intro s l s₁ h hclear
  obtain ⟨t, rest, hr, hk, rfl, rfl⟩ := expect_eq_ok.1 h
  refine ⟨⟨hclear.errors, fun _ => .inr (by simp [hr])⟩, fun s' hs' => ⟨_, ?_, hs'.tail⟩⟩
  refine expect_eq_ok.2 ⟨t.relabel L, _, ?_, hk, rfl, rfl⟩
  rw [hs'.rest, hr, List.map_cons, List.cons_append]

theorem expectMark_carries (mark : Punctuator) (cause : ParseError.Cause) :
    Carries L us true q (Lexeme.relabel L) (expectMark mark cause) (expectMark mark cause) :=
  expect_carries _ _

/-- A token that may be there. If one does not look ahead, it must not be the first that is
    added. -/
theorem accept_carries (kind : Token.Kind)
    (h : p = true ∨ ∀ t ∈ (us.getD []).head?, t.kind ≠ kind) :
    Carries L us p p (Option.map (Token.relabel L)) (accept kind) (accept kind) := by
  intro s found s₁ ha hclear
  rcases accept_eq_ok.1 ha with ⟨rfl, rfl, hsees⟩ | ⟨t, rest, hr, hk, rfl, rfl⟩
  · refine ⟨hclear, fun s' hs' => ⟨s', accept_eq_ok.2 (.inl ⟨rfl, rfl, ?_⟩), hs'⟩⟩
    cases hr : s₁.rest with
    | cons t rest =>
      rw [sees_cons hr] at hsees
      have hr' : s'.rest = t.relabel L :: (rest.map (Token.relabel L) ++ us.getD []) := by
        rw [hs'.rest, hr, List.map_cons, List.cons_append]
      rwa [sees_cons hr', Token.kind_relabel]
    | nil =>
      have hr' : s'.rest = us.getD [] := by rw [hs'.rest, hr, List.map_nil, List.nil_append]
      rcases h with rfl | hus
      · rw [hs'.sees_eq hclear, hsees]
      · rw [Cursor.sees, hr']
        cases hadded : us.getD [] with
        | nil => rfl
        | cons u more => exact decide_eq_false (hus u (by rw [hadded]; rfl))
  · refine ⟨⟨hclear.errors, fun _ => .inr (by simp [hr])⟩, fun s' hs' => ⟨_, ?_, hs'.tail⟩⟩
    refine accept_eq_ok.2 (.inr ⟨t.relabel L, _, ?_, hk, rfl, rfl⟩)
    rw [hs'.rest, hr, List.map_cons, List.cons_append]

theorem acceptOperator_carries (level : Nat) :
    Carries L us true true (Option.map fun found => (found.1, found.2.relabel L))
      (acceptOperator level) (acceptOperator level) := by
  intro s found s₁ h hclear
  rcases acceptOperator_eq_ok.1 h with ⟨rfl, rfl, hno⟩ | ⟨t, rest, op, hr, hk, hl, rfl, rfl⟩
  · refine ⟨hclear, fun s' hs' => ⟨s', acceptOperator_eq_ok.2 (.inl ⟨rfl, rfl, ?_⟩), hs'⟩⟩
    intro t' rest' op hr' hop
    rcases hs'.rest_cases hclear with ⟨-, -, hnil⟩ | ⟨t, rest, hr, hcons⟩
    · cases hr'.symm.trans hnil
    · cases hr'.symm.trans hcons
      exact hno t rest op hr hop
  · refine ⟨⟨hclear.errors, fun _ => .inr (by simp [hr])⟩, fun s' hs' => ⟨_, ?_, hs'.tail⟩⟩
    refine acceptOperator_eq_ok.2 (.inr ⟨t.relabel L, _, op, ?_, hk, hl, rfl, rfl⟩)
    rw [hs'.rest, hr, List.map_cons, List.cons_append]

theorem acceptUnary_carries :
    Carries L us true true (Option.map fun found => (found.1, found.2.relabel L))
      acceptUnary acceptUnary := by
  intro s found s₁ h hclear
  rcases acceptUnary_eq_ok.1 h with ⟨rfl, rfl, hno⟩ | ⟨t, rest, op, hr, hk, rfl, rfl⟩
  · refine ⟨hclear, fun s' hs' => ⟨s', acceptUnary_eq_ok.2 (.inl ⟨rfl, rfl, ?_⟩), hs'⟩⟩
    intro t' rest' hr'
    rcases hs'.rest_cases hclear with ⟨-, -, hnil⟩ | ⟨t, rest, hr, hcons⟩
    · cases hr'.symm.trans hnil
    · cases hr'.symm.trans hcons
      exact hno t rest hr
  · refine ⟨⟨hclear.errors, fun _ => .inr (by simp [hr])⟩, fun s' hs' => ⟨_, ?_, hs'.tail⟩⟩
    refine acceptUnary_eq_ok.2 (.inr ⟨t.relabel L, _, op, ?_, hk, rfl, rfl⟩)
    rw [hs'.rest, hr, List.map_cons, List.cons_append]

theorem checkCount_carries (count : Nat) (cause : ParseError.Cause) :
    Carries L us true true id (checkCount count cause) (checkCount count cause) := by
  unfold checkCount
  split
  · exact peek_carries.bind fun _ => report_carries _ _
  · exact .pure _

/-! ### Expressions -/

theorem assignTo_carries (target : Expr) (mark : Lexeme) (value : Expr) :
    Carries L us true true (Expr.relabel L) (assignTo target mark value)
      (assignTo (target.relabel L) (mark.relabel L) (value.relabel L)) := by
  cases target with
  | var id name => exact freshId_carries.bind fun _ => .pure _
  | get id object name => exact freshId_carries.bind fun _ => .pure _
  | _ => exact (report_carries _ _).bind fun _ => .pure _

theorem superMethod_carries (keyword : Lexeme) :
    Carries L us true true (Expr.relabel L) (superMethod keyword)
      (superMethod (keyword.relabel L)) :=
  (expectMark_carries _ _).bind fun _ => (expect_carries _ _).bind fun _ =>
    freshId_carries.bind fun _ => .pure _

theorem relabel_apply (op : Operator) (id : Nat) (mark : Lexeme) (left right : Expr) :
    (op.apply id mark left right).relabel L =
      op.apply (L.id id) (mark.relabel L) (left.relabel L) (right.relabel L) := by
  cases op <;> rfl

/-- The readers of expressions with the given fuel read the same elsewhere, with more fuel too. -/
structure ExprCarries (L : Relabelling) (us : Option (List Token)) (fuel fuel' : Nat) : Prop where
  assignment : Carries L us true true (Expr.relabel L) (assignment fuel) (assignment fuel')
  operand : ∀ level, Carries L us true true (Expr.relabel L) (operand fuel level)
      (operand fuel' level)
  operators : ∀ level left, Carries L us true true (Expr.relabel L) (operators fuel level left)
    (operators fuel' level (left.relabel L))
  unary : Carries L us true true (Expr.relabel L) (unary fuel) (unary fuel')
  calls : ∀ callee, Carries L us true true (Expr.relabel L) (calls fuel callee)
    (calls fuel' (callee.relabel L))
  arguments : Carries L us true true (Expr.relabelAll L) (arguments fuel) (arguments fuel')
  moreArguments : ∀ done, Carries L us true true (Expr.relabelAll L) (moreArguments fuel done)
    (moreArguments fuel' (done.map (Expr.relabel L)))
  primary : Carries L us true true (Expr.relabel L) (primary fuel) (primary fuel')

variable {fuel fuel' : Nat} {s : Cursor} {done : Array Stmt}

/-- All readers of expressions read the same elsewhere, with more fuel too. -/
theorem exprCarries (hle : fuel ≤ fuel') : ExprCarries L us fuel fuel' := by
  induction fuel generalizing fuel' with
  | zero =>
    constructor
    all_goals
      intros
      exact fail_carries _
  | succ fuel ih =>
    obtain ⟨fuel', rfl⟩ := Nat.exists_eq_succ_of_ne_zero (Nat.ne_of_gt (Nat.zero_lt_of_lt hle))
    replace ih := ih (Nat.le_of_succ_le_succ hle)
    constructor
    case assignment =>
      refine (ih.operand 0).bind fun left => (accept_carries _ (.inl rfl)).bind fun mark => ?_
      cases mark with
      | none => exact .pure _
      | some mark => exact ih.assignment.bind fun value => assignTo_carries _ _ _
    case operand => exact fun level => ih.unary.bind fun left => ih.operators level left
    case operators =>
      refine fun level left => (acceptOperator_carries level).bind fun found => ?_
      rcases found with - | ⟨op, mark⟩
      · exact .pure _
      · refine (ih.operand _).bind fun right => freshId_carries.bind fun id => ?_
        rw [← relabel_apply]
        exact ih.operators _ _
    case unary =>
      refine acceptUnary_carries.bind fun found => ?_
      rcases found with - | ⟨op, mark⟩
      · exact ih.primary.bind fun callee => ih.calls callee
      · exact ih.unary.bind fun right => freshId_carries.bind fun id => .pure _
    case calls =>
      refine fun callee => peek_carries.bind fun t => ?_
      rw [Token.kind_relabel]
      split
      · exact skip_carries.bind fun _ => ih.arguments.bind fun arguments =>
          (expectMark_carries _ _).bind fun paren => freshId_carries.bind fun id => ih.calls _
      · exact skip_carries.bind fun _ => (expect_carries _ _).bind fun name =>
          freshId_carries.bind fun id => ih.calls _
      · exact .pure _
    case arguments =>
      refine (seesMark_carries _).bind fun closed => ?_
      cases closed with
      | true => exact .pure _
      | false =>
        have hmore := ih.moreArguments #[]
        rwa [Array.map_empty] at hmore
    case moreArguments =>
      intro done
      rw [moreArguments_succ, moreArguments_succ, Array.size_map]
      refine (checkCount_carries _ _).bind fun _ => ih.assignment.bind fun e =>
        (accept_carries _ (.inl rfl)).bind fun comma => ?_
      rw [← Array.map_push]
      cases comma with
      | some comma => exact ih.moreArguments _
      | none =>
        have hdone : ((done.push e).map (Expr.relabel L)).toList =
            Expr.relabelAll L (done.push e).toList := by
          rw [Array.toList_map, Expr.relabelAll_eq_map]
        rw [hdone]
        exact .pure _
    case primary =>
      refine peek_carries.bind fun t => ?_
      rw [Token.kind_relabel]
      split
      · exact skip_carries.bind fun _ => freshId_carries.bind fun id => .pure _
      split
      · exact skip_carries.bind fun _ => freshId_carries.bind fun id => .pure _
      · exact skip_carries.bind fun _ => superMethod_carries _
      · exact skip_carries.bind fun _ => freshId_carries.bind fun id => .pure _
      · exact skip_carries.bind fun _ => ih.assignment.bind fun inner =>
          (expectMark_carries _ _).bind fun _ => freshId_carries.bind fun id => .pure _
      · exact fail_carries _

/-- There may be more tokens elsewhere, and so more fuel. -/
theorem expression_carries : Carries L us true true (Expr.relabel L) expression expression := by
  intro s e s₁ h hclear
  have hsame : ExprCarries L us s.fuel s.fuel := exprCarries (Nat.le_refl _)
  refine ⟨(hsame.assignment h hclear).1, fun s' hs' => ?_⟩
  exact ((exprCarries hs'.fuel_le).assignment h hclear).2 s' hs'

/-! ### Statements -/

theorem expressionUnless_carries (mark : Punctuator) :
    Carries L us true true (Option.map (Expr.relabel L)) (expressionUnless mark)
      (expressionUnless mark) := by
  refine (seesMark_carries mark).bind fun seen => ?_
  cases seen with
  | true => exact .pure _
  | false => exact expression_carries.bind fun e => .pure _

theorem varDeclaration_carries :
    Carries L us true false (Stmt.relabel L) varDeclaration varDeclaration := by
  refine (expect_carries _ _).bind fun name => (accept_carries _ (.inl rfl)).bind fun mark => ?_
  have next : ∀ initial, Carries L us true false (Stmt.relabel L)
      (do
        let _ ← Read.expectMark .semicolon .expectedDeclarationEnd
        return Stmt.var name initial)
      (do
        let _ ← Read.expectMark .semicolon .expectedDeclarationEnd
        return Stmt.var (name.relabel L) (initial.map (Expr.relabel L))) := fun initial =>
    (expectMark_carries _ _).bind fun _ => .pure _
  cases mark with
  | some mark => exact Carries.bind (expression_carries.map fun _ => rfl) next
  | none => exact Carries.bind (Carries.pure none) next

theorem expressionStatement_carries :
    Carries L us true false (Stmt.relabel L) expressionStatement expressionStatement :=
  expression_carries.bind fun _ => (expectMark_carries _ _).bind fun _ => .pure _

theorem superclass_carries :
    Carries L us true true (Option.map (VarRef.relabel L)) superclass superclass := by
  refine (accept_carries _ (.inl rfl)).bind fun mark => ?_
  cases mark with
  | some mark => exact (expect_carries _ _).bind fun name => freshId_carries.bind fun id => .pure _
  | none => exact .pure _

theorem condition_carries (opening : ParseError.Cause) :
    Carries L us true q (Expr.relabel L) (condition opening) (condition opening) :=
  (expectMark_carries _ _).bind fun _ => expression_carries.bind fun _ =>
    (expectMark_carries _ _).bind fun _ => .pure _

/-- The same clauses with other identities and lines. -/
def ForClauses.relabel (L : Relabelling) (clauses : ForClauses) : ForClauses :=
  ⟨clauses.initial.map (Stmt.relabel L), clauses.condition.relabel L,
    clauses.increment.map (Expr.relabel L)⟩

theorem ForClauses.toLoop_relabel (clauses : ForClauses) (body : Stmt) :
    (clauses.toLoop body).relabel L = (clauses.relabel L).toLoop (body.relabel L) := by
  obtain ⟨initial, condition, increment⟩ := clauses
  cases initial <;> cases increment <;> rfl

theorem forInitial_carries :
    Carries L us true true (Option.map (Stmt.relabel L)) forInitial forInitial := by
  refine peek_carries.bind fun t => ?_
  rw [Token.kind_relabel]
  split
  · exact skip_carries.bind fun _ => .pure none
  · exact skip_carries.bind fun _ => varDeclaration_carries.mono.map fun _ => rfl
  · exact expressionStatement_carries.mono.map fun _ => rfl

theorem forCondition_carries :
    Carries L us true true (Expr.relabel L) forCondition forCondition := by
  refine (expressionUnless_carries _).bind fun condition => ?_
  cases condition with
  | some e => exact .pure e
  | none => exact freshId_carries.bind fun id => .pure _

theorem forClauses_carries :
    Carries L us true q (ForClauses.relabel L) forClauses forClauses :=
  (expectMark_carries _ _).bind fun _ => forInitial_carries.bind fun _ =>
    forCondition_carries.bind fun _ => (expectMark_carries _ _).bind fun _ =>
    (expressionUnless_carries _).bind fun _ => (expectMark_carries _ _).bind fun _ => .pure _

/-- More parameters are read in the same way elsewhere. -/
theorem moreParameters_carries (hle : fuel ≤ fuel') (done : Array Lexeme) :
    Carries L us true true (List.map (Lexeme.relabel L)) (moreParameters fuel done)
      (moreParameters fuel' (done.map (Lexeme.relabel L))) := by
  induction fuel generalizing fuel' done with
  | zero => exact fail_carries _
  | succ fuel ih =>
    obtain ⟨fuel', rfl⟩ := Nat.exists_eq_succ_of_ne_zero (Nat.ne_of_gt (Nat.zero_lt_of_lt hle))
    rw [moreParameters_succ, moreParameters_succ, Array.size_map]
    refine (checkCount_carries _ _).bind fun _ => (expect_carries _ _).bind fun name =>
      (accept_carries _ (.inl rfl)).bind fun comma => ?_
    rw [← Array.map_push]
    cases comma with
    | some comma => exact ih (Nat.le_of_succ_le_succ hle) _
    | none =>
      have hdone : ((done.push name).map (Lexeme.relabel L)).toList =
          (done.push name).toList.map (Lexeme.relabel L) := Array.toList_map
      rw [hdone]
      exact .pure _

theorem parameters_carries (hle : fuel ≤ fuel') :
    Carries L us true true (List.map (Lexeme.relabel L)) (parameters fuel) (parameters fuel') := by
  refine (seesMark_carries _).bind fun closed => ?_
  cases closed with
  | true => exact .pure _
  | false =>
    have hmore : Carries L us _ _ _ _ _ := moreParameters_carries hle #[]
    rwa [Array.map_empty] at hmore

/-- The readers of statements with the given fuel read the same elsewhere, with more fuel too. -/
structure StmtCarries (L : Relabelling) (us : Option (List Token)) (fuel fuel' : Nat) : Prop where
  declaration : Carries L us true false (Option.map (Stmt.relabel L))
    (fun s => .ok (declaration fuel s).1 (declaration fuel s).2)
    (fun s => .ok (declaration fuel' s).1 (declaration fuel' s).2)
  declarationOrError : Carries L us true false (Stmt.relabel L) (declarationOrError fuel)
    (declarationOrError fuel')
  function : ∀ kind, Carries L us true false (Stmt.relabelDecl L) (function fuel kind)
    (function fuel' kind)
  methods : ∀ done, Carries L us true true (Stmt.relabelDecls L) (methods fuel done)
    (methods fuel' (done.map (Stmt.relabelDecl L)))
  block : ∀ done, Carries L us true false (Stmt.relabelAll L) (block fuel done)
    (block fuel' (done.map (Stmt.relabel L)))
  statement : Carries L us true false (Stmt.relabel L) (statement fuel) (statement fuel')

/-- All readers of statements read the same elsewhere, unless an `else` is added. -/
theorem stmtCarries (hus : ∀ t ∈ (us.getD []).head?, t.kind ≠ .keyword .else) (hle : fuel ≤ fuel') :
    StmtCarries L us fuel fuel' := by
  induction fuel generalizing fuel' with
  | zero =>
    constructor
    case declaration =>
      intro s stmt s₁ h hclear
      cases h
      exact absurd hclear.errors (by simp [declaration, Cursor.recover])
    all_goals
      intros
      exact fail_carries _
  | succ fuel ih =>
    obtain ⟨fuel', rfl⟩ := Nat.exists_eq_succ_of_ne_zero (Nat.ne_of_gt (Nat.zero_lt_of_lt hle))
    replace hle := Nat.le_of_succ_le_succ hle
    replace ih := ih hle
    have hmethods := ih.methods #[]
    have hblock := ih.block #[]
    rw [Array.map_empty] at hmethods hblock
    constructor
    case declaration =>
      intro s stmt s₁ h hclear
      cases h
      rw [Read.declaration] at hclear ⊢
      cases hr : Read.declarationOrError fuel s with
      | error e s₁ =>
        rw [hr] at hclear
        exact absurd hclear.errors (by simp [Cursor.recover])
      | ok stmt s₁ =>
        rw [hr] at hclear
        obtain ⟨hclear₀, hnext⟩ := ih.declarationOrError hr hclear
        refine ⟨hclear₀, fun s' hs' => ?_⟩
        obtain ⟨s₁', hr', hs₁'⟩ := hnext s' hs'
        refine ⟨s₁', ?_, hs₁'⟩
        dsimp only
        rw [Read.declaration, hr']
        rfl
    case declarationOrError =>
      refine peek_carries.bind fun t => ?_
      rw [Token.kind_relabel]
      split
      · exact skip_carries.bind fun _ => (expect_carries _ _).bind fun name =>
          superclass_carries.bind fun superclass => (expectMark_carries _ _).bind fun _ =>
          hmethods.bind fun methods => (expectMark_carries _ _).bind fun _ => .pure _
      · exact skip_carries.bind fun _ => (ih.function _).bind fun decl => .pure _
      · exact skip_carries.bind fun _ => varDeclaration_carries
      · exact ih.statement
    case function =>
      exact fun kind => (expect_carries _ _).bind fun name => (expectMark_carries _ _).bind fun _ =>
        (parameters_carries hle).bind fun params => (expectMark_carries _ _).bind fun _ =>
        (expectMark_carries _ _).bind fun _ => hblock.bind fun body => .pure _
    case methods =>
      refine fun done => atBraceEnd_carries.bind fun closed => ?_
      cases closed with
      | true =>
        have hdone : (done.map (Stmt.relabelDecl L)).toList = Stmt.relabelDecls L done.toList := by
          rw [Array.toList_map, Stmt.relabelDecls_eq_map]
        rw [hdone]
        exact .pure _
      | false =>
        have hfunction : Carries L us true true _ _ _ := (ih.function .method).mono
        refine hfunction.bind fun decl => ?_
        rw [← Array.map_push]
        exact ih.methods _
    case block =>
      refine fun done => atBraceEnd_carries.bind fun closed => ?_
      cases closed with
      | true =>
        have hdone : (done.map (Stmt.relabel L)).toList = Stmt.relabelAll L done.toList := by
          rw [Array.toList_map, Stmt.relabelAll_eq_map]
        rw [hdone]
        exact (expectMark_carries _ _).bind fun _ => .pure _
      | false =>
        have hdeclaration : Carries L us true true _ _ _ := ih.declaration.mono
        refine hdeclaration.bind fun stmt => ?_
        cases stmt with
        | none => exact ih.block _
        | some stmt =>
          dsimp only [Option.map_some]
          rw [← Array.map_push]
          exact ih.block _
    case statement =>
      refine peek_carries.bind fun t => ?_
      rw [Token.kind_relabel]
      split
      · refine skip_carries.bind fun _ => forClauses_carries.bind fun clauses =>
          ih.statement.bind fun body => ?_
        rw [← ForClauses.toLoop_relabel]
        exact .pure _
      · -- After the first branch an `else` that is added would come into view.
        refine skip_carries.bind fun _ => (condition_carries _).bind fun e =>
          ih.statement.bind fun yes => (accept_carries _ (.inr hus)).bind fun mark => ?_
        cases mark with
        | some mark => exact ih.statement.mono.bind fun no => .pure _
        | none => exact .pure _
      · exact skip_carries.bind fun _ => (condition_carries _).bind fun e =>
          ih.statement.bind fun body => .pure _
      · exact skip_carries.bind fun _ => (expressionUnless_carries _).bind fun value =>
          (expectMark_carries _ _).bind fun _ => .pure _
      · exact skip_carries.bind fun _ => hblock.bind fun body => .pure _
      · exact skip_carries.bind fun _ => expression_carries.bind fun e =>
          (expectMark_carries _ _).bind fun _ => .pure _
      · exact expressionStatement_carries

/-- A declaration that cannot be read leaves an error. -/
theorem errors_of_declaration {s₁ : Cursor} (h : declaration fuel s = (none, s₁)) :
    s₁.errors ≠ #[] := by
  intro he
  have hlt : s.errors.size < (declaration fuel s).2.errors.size :=
    errors_lt_of_declaration (congrArg Prod.fst h)
  rw [h, he] at hlt
  exact absurd hlt (Nat.not_lt_zero _)

/-- What is read as declarations from `s` on, after those in `done`, if nothing is wrong: all tokens
    are taken, and elsewhere the same declarations are read first and then those of the tokens that
    are added. -/
structure Declares (L : Relabelling) (us : Option (List Token)) (done : Array Stmt) (s : Cursor)
    (out : Array Stmt × Cursor) : Prop where
  errors : s.errors = #[]
  rest : out.2.rest = []
  stmts : ∃ stmts, out.1 = done ++ stmts.toArray ∧ stmts.length ≤ s.rest.length ∧
    ∀ s', s.Recast L us s' → ∃ s₁', out.2.Recast L us s₁' ∧ s₁'.eof = s'.eof ∧
      ∀ m done', declarations (stmts.length + m) done' s' =
        declarations m (done' ++ (Stmt.relabelAll L stmts).toArray) s₁'

theorem Declares.nil (he : s.errors = #[]) (hr : s.rest = []) : Declares L us done s (done, s) :=
  ⟨he, hr, [], by simp, Nat.zero_le _, fun s' hs' => ⟨s', hs', rfl, by simp [Stmt.relabelAll]⟩⟩

/-- Declarations without errors are read in the same way elsewhere, and those that are added
    follow. -/
theorem declarations_carries (hus : ∀ t ∈ (us.getD []).head?, t.kind ≠ .keyword .else)
    (hs : s.Proper) (hf : s.rest.length ≤ fuel) (he : (declarations fuel done s).2.errors = #[]) :
    Declares L us done s (declarations fuel done s) := by
  induction fuel generalizing done s with
  | zero => exact .nil he (List.length_eq_zero_iff.1 (Nat.le_zero.1 hf))
  | succ fuel ih =>
    rw [declarations] at he ⊢
    by_cases hend : s.atEnd
    · rw [if_pos hend] at he ⊢
      exact .nil he (by rwa [Cursor.atEnd, List.isEmpty_iff] at hend)
    · have hr : s.rest ≠ [] := by rwa [Cursor.atEnd, List.isEmpty_iff] at hend
      have hlt := length_declaration_lt s.fuel hs hr
      have hs₁ := ((stmtAdvances s.fuel).declaration s).proper hs
      have hsame : StmtCarries L us s.fuel s.fuel := stmtCarries hus (Nat.le_refl _)
      rw [if_neg hend] at he ⊢
      cases hd : declaration s.fuel s with
      | mk found s₁ =>
        rw [hd] at he hlt hs₁
        cases found with
        | none =>
          -- Errors are never taken back, so one that is left here is there in the end.
          exact absurd (ih hs₁ (by omega) he).errors (errors_of_declaration hd)
        | some stmt =>
          have hout := ih hs₁ (by omega) he
          have hclear : s₁.Clear us false := ⟨hout.errors, by simp⟩
          have hread : (EStateM.Result.ok (declaration s.fuel s).1 (declaration s.fuel s).2 :
              EStateM.Result ParseError Cursor (Option Stmt)) = .ok (some stmt) s₁ := by rw [hd]
          obtain ⟨stmts, hstmts, hlen, hnext⟩ := hout.stmts
          refine ⟨(hsame.declaration hread hclear).1.errors, hout.rest, stmt :: stmts, ?_, ?_, ?_⟩
          · exact hstmts.trans (by simp)
          · simp only [List.length_cons]
            omega
          · intro s' hs'
            have hmore : StmtCarries L us s.fuel s'.fuel := stmtCarries hus hs'.fuel_le
            -- Each declaration gets fuel for all tokens, and elsewhere there may be more of them.
            obtain ⟨s₁', hread', hs₁'⟩ := (hmore.declaration hread hclear).2 s' hs'
            obtain ⟨s₂', hs₂', heof, hrun⟩ := hnext s₁' hs₁'
            injection hread' with hstmt hcursor
            refine ⟨s₂', hs₂', ?_, fun m done' => ?_⟩
            · rw [heof, ← hcursor]
              exact ((stmtAdvances s'.fuel).declaration s').eof
            have hend' : ¬ s'.atEnd := by
              rw [hs'.atEnd_eq ⟨(hsame.declaration hread hclear).1.errors, fun _ => .inr hr⟩]
              exact hend
            rw [List.length_cons, Nat.succ_add, declarations, if_neg hend',
              show declaration s'.fuel s' = (some (stmt.relabel L), s₁')
                  from Prod.ext hstmt hcursor]
            dsimp only
            rw [hrun]
            simp [Stmt.relabelAll]

end Read

namespace Program

variable {s s₁ : Cursor} {program : Program}

/-- A program that is read is read elsewhere before what is added. -/
theorem declarations_of_parse (hus : ∀ t ∈ (us.getD []).head?, t.kind ≠ .keyword .else)
    {s' : Cursor} (hs : s.Proper) (hp : Program.parse s = (.ok program, s₁))
    (hs' : s.Recast L us s') :
    s₁.rest = [] ∧ program.length ≤ s.rest.length ∧ ∃ s₁', s₁.Recast L us s₁' ∧ s₁'.eof = s'.eof ∧
      ∀ m done, Read.declarations (program.length + m) done s' =
        Read.declarations m (done ++ (Stmt.relabelAll L program).toArray) s₁' := by
  obtain ⟨hd, he⟩ := parse_eq_ok.1 hp
  have hout : Read.Declares L us #[] s (Read.declarations s.size #[] s) :=
    Read.declarations_carries hus hs hs.size (by rw [hd]; exact he)
  rw [hd] at hout
  obtain ⟨stmts, hstmts, hlen, hnext⟩ := hout.stmts
  obtain rfl : program = stmts := by simpa using hstmts
  exact ⟨hout.rest, hlen, hnext s' hs'⟩

/-- A program that is read is read elsewhere as the relabelled program. -/
theorem parse_recast {s' : Cursor} (hs : s.Proper) (hp : Program.parse s = (.ok program, s₁))
    (hs' : s.Recast L none s') :
    ∃ s₁', Program.parse s' = (.ok (Stmt.relabelAll L program), s₁') ∧ s₁.Recast L none s₁' := by
  obtain ⟨hrest, hlen, s₁', hs₁', -, hrun⟩ := declarations_of_parse (by simp) hs hp hs'
  have hrest' : s₁'.rest = [] := by
    rw [hs₁'.rest, hrest, List.map_nil, Option.getD_none, List.append_nil]
  refine ⟨s₁', parse_eq_ok.2 ⟨?_, hs₁'.errors⟩, hs₁'⟩
  have hsize : s'.size = program.length + (s'.size - program.length) := by
    have := hs'.size
    have := hs.size
    omega
  rw [hsize, hrun, Read.declarations_of_nil hrest', Array.empty_append]

/-- A program with the tokens of another one behind it: both are read, one after the other, as one
    program. -/
theorem parse_append {t t₁ u : Cursor} {program' : Program} {M : Relabelling} (hs : s.Proper)
    (ht : t.Proper) (hp : Program.parse s = (.ok program, s₁))
    (hp' : Program.parse t = (.ok program', t₁))
    (helse : ∀ first ∈ t.rest.head?, first.kind ≠ .keyword .else)
    (hu : s.Recast L (some (t.rest.map (Token.relabel M))) u) (heof : u.eof = t.eof.relabel M)
    (hsize : t.size ≤ t.rest.length) (hids : ∀ i, M.id (t.nextId + i) = L.id (s₁.nextId + i)) :
    ∃ u₁, Program.parse u = (.ok (Stmt.relabelAll L program ++ Stmt.relabelAll M program'), u₁) ∧
      t₁.Recast M none u₁ := by
  have hadded : ∀ first ∈ ((some (t.rest.map (Token.relabel M))).getD []).head?,
      first.kind ≠ .keyword .else := by
    intro first hfirst
    rw [Option.getD_some, List.head?_map] at hfirst
    obtain ⟨first', hfirst', rfl⟩ := Option.mem_map.1 hfirst
    exact helse first' hfirst'
  obtain ⟨hrest, hlen, s₁', hs₁', heof', hrun⟩ := declarations_of_parse hadded hs hp hu
  have hnext : t.Recast M none s₁' := by
    refine ⟨?_, fun _ => heof'.trans heof, fun i => (hids i).trans (hs₁'.nextId i), ?_, hs₁'.errors⟩
    · rw [hs₁'.rest, hrest, List.map_nil, List.nil_append, Option.getD_some, Option.getD_none,
        List.append_nil]
    · have := hs₁'.size
      rw [Option.getD_some, List.length_map] at this
      rw [Option.getD_none, List.length_nil]
      omega
  obtain ⟨hrest', hlen', u₁, hu₁, -, hrun'⟩ := declarations_of_parse (by simp) ht hp' hnext
  have hnil : u₁.rest = [] := by
    rw [hu₁.rest, hrest', List.map_nil, Option.getD_none, List.append_nil]
  refine ⟨u₁, parse_eq_ok.2 ⟨?_, hu₁.errors⟩, hu₁⟩
  have hfuel : u.size = program.length +
      (program'.length + (u.size - program.length - program'.length)) := by
    have := hs.size
    have := hu.size
    rw [Option.getD_some, List.length_map] at this
    omega
  rw [hfuel, hrun, hrun', Read.declarations_of_nil hnil, Array.empty_append, List.append_toArray]

end Program

/-- An expression that is read is read elsewhere as the relabelled expression. -/
theorem Expr.parse_recast {s₁ s' : Cursor} {e : Expr} (hp : Expr.parse s = (.ok e, s₁))
    (hs' : s.Recast L none s') :
    ∃ s₁', Expr.parse s' = (.ok (e.relabel L), s₁') ∧ s₁.Recast L none s₁' := by
  obtain ⟨hread, herrors, hrest⟩ := Expr.parse_eq_ok.1 hp
  have hclear : s₁.Clear none true := ⟨herrors, fun _ => .inl rfl⟩
  obtain ⟨s₁', hread', hs₁'⟩ := (Read.expression_carries hread hclear).2 s' hs'
  refine ⟨s₁', Expr.parse_eq_ok.2 ⟨hread', hs₁'.errors, ?_⟩, hs₁'⟩
  rw [hs₁'.rest, hrest]
  rfl

end Lox
