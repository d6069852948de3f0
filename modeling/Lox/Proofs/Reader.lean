import Mathlib
import Lox.Stmt.Parser

/-!
# Readers

What holds of all readers, whatever they read. A reading that succeeds is taken apart at its steps
(`Read.bind_eq_ok`), and two readers agree if they agree step by step (`Read.AgreeAt.bind`).

A reader only moves the cursor forwards: the tokens after it are the last ones of those before it,
and errors and identities are only added (`Cursor.Moves`, `Read.Advances`). Readers of something
that is never empty moreover take at least one token when they succeed (`Read.Consumes`).

Whole sources are read without an error, or not at all (`Expr.parse_eq_ok`, `Program.parse_eq_ok`).
-/

namespace Lox

/-- How a cursor can move. -/
structure Cursor.Moves (s s' : Cursor) : Prop where
  rest : s'.rest <:+ s.rest
  eof : s'.eof = s.eof
  size : s'.size = s.size
  nextId : s.nextId ≤ s'.nextId
  errors : s.errors.toList <+: s'.errors.toList

namespace Cursor.Moves

variable {s s₁ s₂ : Cursor}

theorem refl (s : Cursor) : s.Moves s :=
  ⟨List.suffix_refl _, rfl, rfl, Nat.le_refl _, List.prefix_refl _⟩

theorem trans (h₁ : s.Moves s₁) (h₂ : s₁.Moves s₂) : s.Moves s₂ where
  rest := h₂.rest.trans h₁.rest
  eof := h₂.eof.trans h₁.eof
  size := h₂.size.trans h₁.size
  nextId := Nat.le_trans h₁.nextId h₂.nextId
  errors := h₁.errors.trans h₂.errors

theorem length_le (h : s.Moves s₁) : s₁.rest.length ≤ s.rest.length := h.rest.length_le

/-- If there are no errors in the end, there were none before. -/
theorem errors_eq (h : s.Moves s₁) (he : s₁.errors = #[]) : s.errors = #[] := by
  have := h.errors
  rw [he] at this
  exact Array.toList_eq_nil_iff.1 (List.prefix_nil.1 this)

/-- Dropping tokens is a move. -/
theorem drop (s : Cursor) {rest : List Token} (h : rest <:+ s.rest) :
    s.Moves { s with rest } :=
  ⟨h, rfl, rfl, Nat.le_refl _, List.prefix_refl _⟩

end Cursor.Moves

namespace Read

variable {α β : Type}

/-! ### Readings step by step -/

variable {r r' : Read α} {f : α → Read β} {s s₁ : Cursor} {a : α} {e : ParseError}
    {cause : ParseError.Cause} {u : Unit} {kind : Token.Kind}

/-- A reading in two steps succeeds if both do. -/
theorem bind_eq_ok {s₂ : Cursor} {b : β} :
    (r >>= f) s = .ok b s₂ ↔ ∃ a s₁, r s = .ok a s₁ ∧ f a s₁ = .ok b s₂ := by
  change EStateM.bind r f s = _ ↔ _
  rw [EStateM.bind]
  cases r s with
  | ok a s₁ => simp
  | error e s₁ => simp

theorem map_eq_ok {f : α → β} {b : β} : (f <$> r) s = .ok b s₁ ↔ ∃ a, r s = .ok a s₁ ∧ f a = b := by
  change EStateM.map f r s = _ ↔ _
  rw [EStateM.map]
  cases r s with
  | ok a s₁ => simp [and_comm]
  | error e s₁ => simp

theorem pure_eq_ok {b : α} : (pure a : Read α) s = .ok b s₁ ↔ a = b ∧ s = s₁ := by
  change EStateM.Result.ok a s = _ ↔ _
  simp

/-- The second step of a reading whose first step succeeds. -/
theorem bind_of_ok (h : r s = .ok a s₁) : (r >>= f) s = f a s₁ := by
  change EStateM.bind r f s = _
  rw [EStateM.bind, h]

theorem bind_of_error (h : r s = .error e s₁) : (r >>= f) s = .error e s₁ := by
  change EStateM.bind r f s = _
  rw [EStateM.bind, h]

theorem map_of_ok {f : α → β} (h : r s = .ok a s₁) : (f <$> r) s = .ok (f a) s₁ := by
  change EStateM.map f r s = _
  rw [EStateM.map, h]

theorem map_of_error {f : α → β} (h : r s = .error e s₁) : (f <$> r) s = .error e s₁ := by
  change EStateM.map f r s = _
  rw [EStateM.map, h]

/-- Two readers do the same from the cursor `s` on. -/
def AgreeAt (s : Cursor) (r r' : Read α) : Prop := r s = r' s

theorem AgreeAt.eq (h : AgreeAt s r r') : r s = r' s := h

theorem AgreeAt.refl (s : Cursor) (r : Read α) : AgreeAt s r r := rfl

theorem AgreeAt.symm (h : AgreeAt s r r') : AgreeAt s r' r := Eq.symm h

theorem AgreeAt.trans {r'' : Read α} (h : AgreeAt s r r') (h' : AgreeAt s r' r'') :
    AgreeAt s r r'' := Eq.trans h h'

/-- Readers agree if they agree step by step. -/
theorem AgreeAt.bind {f' : α → Read β} (h : AgreeAt s r r')
    (hf : ∀ a s₁, r s = .ok a s₁ → AgreeAt s₁ (f a) (f' a)) : AgreeAt s (r >>= f) (r' >>= f') := by
  unfold AgreeAt at h ⊢
  cases hr : r s with
  | ok a s₁ => rw [bind_of_ok hr, bind_of_ok (h ▸ hr), hf a s₁ hr]
  | error e s₁ => rw [bind_of_error hr, bind_of_error (h ▸ hr)]

/-! ### Single tokens -/

/-- A reading succeeds. (This is for readers that choose by a token: as an argument, the choice can
    be split.) -/
def Succeeds (r : Read α) (s : Cursor) (a : α) (s₁ : Cursor) : Prop := r s = .ok a s₁

theorem peek_bind_eq_ok {f : Token → Read α} :
    (peek >>= f) s = .ok a s₁ ↔ Succeeds (f s.peek) s a s₁ := Iff.rfl

theorem skip_bind_eq_ok {f : Unit → Read α} :
    Succeeds (skip >>= f) s a s₁ ↔ f () { s with rest := s.rest.tail } = .ok a s₁ := Iff.rfl

theorem peek_bind (f : Token → Read α) (s : Cursor) : (peek >>= f) s = f s.peek s := rfl

theorem skip_bind (f : Unit → Read α) (s : Cursor) :
    (skip >>= f) s = f () { s with rest := s.rest.tail } := rfl

theorem freshId_bind (f : Nat → Read α) (s : Cursor) :
    (freshId >>= f) s = f s.nextId { s with nextId := s.nextId + 1 } := rfl

theorem seesMark_bind (mark : Punctuator) (f : Bool → Read α) (s : Cursor) :
    (seesMark mark >>= f) s = f (s.sees (.punctuator mark)) s := rfl

theorem atBraceEnd_bind (f : Bool → Read α) (s : Cursor) :
    (atBraceEnd >>= f) s = f (s.sees (.punctuator .rightBrace) || s.atEnd) s := rfl

theorem peek_eq_ok {t : Token} : peek s = .ok t s₁ ↔ s.peek = t ∧ s = s₁ := by
  simp [peek]

theorem freshId_eq_ok {id : Nat} :
    freshId s = .ok id s₁ ↔ id = s.nextId ∧ s₁ = { s with nextId := s.nextId + 1 } := by
  simp [freshId, eq_comm]

theorem report_eq_ok {place : Place} :
    report place cause s = .ok u s₁ ↔ s₁ = { s with errors := s.errors.push ⟨place, cause⟩ } := by
  simp [report, eq_comm]

theorem skip_eq_ok : skip s = .ok u s₁ ↔ s₁ = { s with rest := s.rest.tail } := by
  simp [skip, eq_comm]

/-- A token that is asked for is the next one, and it is taken. -/
theorem expect_eq_ok {l : Lexeme} :
    expect kind cause s = .ok l s₁ ↔
      ∃ t rest, s.rest = t :: rest ∧ t.kind = kind ∧ l = t.toLexeme ∧ s₁ = { s with rest } := by
  rw [expect]
  split
  · next h => simp [h]
  · next t rest h =>
    split
    · next hk => simp [h, hk, eq_comm]
    · next hk => simp [h, hk]

/-- Accepting a token takes it if it is of the kind, and else leaves the cursor where it is. -/
theorem accept_eq_ok {o : Option Token} :
    accept kind s = .ok o s₁ ↔
      (o = none ∧ s₁ = s ∧ s.sees kind = false) ∨
        ∃ t rest, s.rest = t :: rest ∧ t.kind = kind ∧ o = some t ∧ s₁ = { s with rest } := by
  rw [accept, Cursor.sees]
  split
  · next h => simp [h, eq_comm]
  · next t rest h =>
    split
    · next hk => simp [h, hk, eq_comm]
    · next hk =>
      refine ⟨fun hr => ?_, ?_⟩
      · cases hr
        exact .inl ⟨rfl, rfl, by simp [hk]⟩
      · rintro (⟨rfl, rfl, -⟩ | ⟨t', rest', h', hk', -, -⟩)
        · rfl
        · cases h.symm.trans h'
          exact absurd hk' hk

/-- A found operator is taken. -/
theorem acceptUnary_eq_ok {found : Option (UnaryOp × Lexeme)} :
    acceptUnary s = .ok found s₁ ↔
      (found = none ∧ s₁ = s ∧ ∀ t rest, s.rest = t :: rest → UnaryOp.ofKind? t.kind = none) ∨
        ∃ t rest op, s.rest = t :: rest ∧ UnaryOp.ofKind? t.kind = some op ∧
          found = some (op, t.toLexeme) ∧ s₁ = { s with rest } := by
  rw [acceptUnary]
  split
  · next h => simp [h, eq_comm]
  · next t rest h =>
    split
    · next ho => simp [h, ho, eq_comm]
    · next op ho => simp [h, ho, eq_comm]

/-- A found operator is taken if it binds tightly enough. -/
theorem acceptOperator_eq_ok {level : Nat} {found : Option (Operator × Lexeme)} :
    acceptOperator level s = .ok found s₁ ↔
      (found = none ∧ s₁ = s ∧ ∀ t rest op, s.rest = t :: rest →
        Operator.ofKind? t.kind = some op → op.level < level) ∨
        ∃ t rest op, s.rest = t :: rest ∧ Operator.ofKind? t.kind = some op ∧ level ≤ op.level ∧
          found = some (op, t.toLexeme) ∧ s₁ = { s with rest } := by
  rw [acceptOperator]
  split
  · next h => simp [h, eq_comm]
  · next t rest h =>
    split
    · next ho =>
      refine ⟨fun hr => ?_, ?_⟩
      · cases hr
        refine .inl ⟨rfl, rfl, fun t' rest' op h' ho' => ?_⟩
        cases h.symm.trans h'
        exact absurd (ho.symm.trans ho') (by simp)
      · rintro (⟨rfl, rfl, -⟩ | ⟨t', rest', op, h', ho', -⟩)
        · rfl
        · cases h.symm.trans h'
          exact absurd (ho.symm.trans ho') (by simp)
    · next op ho =>
      by_cases hl : level ≤ op.level
      · simp [h, ho, hl, eq_comm]
      · refine ⟨fun hr => ?_, ?_⟩
        · rw [if_neg hl] at hr
          cases hr
          refine .inl ⟨rfl, rfl, fun t' rest' op' h' ho' => ?_⟩
          cases h.symm.trans h'
          cases ho.symm.trans ho'
          exact Nat.lt_of_not_le hl
        · rintro (⟨rfl, rfl, -⟩ | ⟨t', rest', op', h', ho', hl', -⟩)
          · rw [if_neg hl]
          · cases h.symm.trans h'
            cases ho.symm.trans ho'
            exact absurd hl' hl

theorem sees_eq_true : s.sees kind = true ↔ ∃ t rest, s.rest = t :: rest ∧ t.kind = kind := by
  rw [Cursor.sees]
  split
  · next h => simp [h]
  · next t rest h => simp [h]

theorem sees_cons {t : Token} {rest : List Token} (h : s.rest = t :: rest) :
    s.sees kind = decide (t.kind = kind) := by
  rw [Cursor.sees, h]

/-! ### Moving forwards -/

/-- Where a reading ends, whether it succeeds or fails. -/
def after (r : Read α) (s : Cursor) : Cursor :=
  match r s with
  | .ok _ s₁ => s₁
  | .error _ s₁ => s₁

theorem after_of_ok (h : r s = .ok a s₁) : r.after s = s₁ := by
  rw [after, h]

theorem after_of_error (h : r s = .error e s₁) : r.after s = s₁ := by
  rw [after, h]

/-- Whatever becomes of the reading, the cursor is moved. -/
def Advances (r : Read α) : Prop := ∀ s : Cursor, s.Moves (r.after s)

theorem Advances.of_ok (h : r.Advances) (hr : r s = .ok a s₁) : s.Moves s₁ :=
  after_of_ok hr ▸ h s

/-- Steps that move forwards do so one after the other. -/
theorem Advances.bind (hr : r.Advances) (hf : ∀ a, (f a).Advances) : (r >>= f).Advances := by
  intro s
  cases h : r s with
  | ok a s₁ =>
    have : (r >>= f).after s = (f a).after s₁ := by rw [after, bind_of_ok h, after]
    exact this ▸ (hr.of_ok h).trans (hf a s₁)
  | error e s₁ =>
    have : (r >>= f).after s = r.after s := by rw [after, bind_of_error h, after_of_error h]
    exact this ▸ hr s

/-- Mapping a result moves nothing. -/
theorem Advances.map (f : α → β) (hr : r.Advances) : (f <$> r).Advances := by
  intro s
  have : (f <$> r).after s = r.after s := by
    cases h : r s with
    | ok a s₁ => rw [after_of_ok (map_of_ok h), after_of_ok h]
    | error e s₁ => rw [after_of_error (map_of_error h), after_of_error h]
  exact this ▸ hr s

theorem Advances.pure (a : α) : (Pure.pure a : Read α).Advances := fun s => .refl s

theorem fail_advances (cause : ParseError.Cause) : (fail cause : Read α).Advances :=
  fun s => .refl s

theorem peek_advances : peek.Advances := fun s => .refl s

theorem seesMark_advances (mark : Punctuator) : (seesMark mark).Advances := fun s => .refl s

theorem atBraceEnd_advances : atBraceEnd.Advances := fun s => .refl s

theorem skip_advances : skip.Advances := fun s => .drop s (List.tail_suffix _)

theorem freshId_advances : freshId.Advances := fun _ =>
  ⟨List.suffix_refl _, rfl, rfl, Nat.le_succ _, List.prefix_refl _⟩

theorem report_advances (place : Place) (cause : ParseError.Cause) :
    (report place cause).Advances := fun _ =>
  ⟨List.suffix_refl _, rfl, rfl, Nat.le_refl _,
    ⟨[⟨place, cause⟩], (Array.toList_push).symm⟩⟩

/-- A reader that takes the next token or none. -/
theorem Advances.of_next
    (h : ∀ s, r.after s = s ∨ ∃ t rest, s.rest = t :: rest ∧ r.after s = { s with rest }) :
    r.Advances := by
  intro s
  rcases h s with h | ⟨t, rest, hr, h⟩
  · rw [h]
    exact .refl s
  · rw [h]
    exact .drop s (hr ▸ List.suffix_cons t rest)

theorem accept_advances (kind : Token.Kind) : (accept kind).Advances := .of_next fun s => by
  cases hr : s.rest with
  | nil => simp [after, Read.accept, hr]
  | cons t rest => by_cases hk : t.kind = kind <;> simp [after, Read.accept, hr, hk]

theorem expect_advances (kind : Token.Kind) (cause : ParseError.Cause) :
    (expect kind cause).Advances := .of_next fun s => by
  cases hr : s.rest with
  | nil => simp [after, Read.expect, hr]
  | cons t rest => by_cases hk : t.kind = kind <;> simp [after, Read.expect, hr, hk]

/-- An operator that is taken is moved over. -/
theorem acceptOperator_advances (level : Nat) : (acceptOperator level).Advances :=
  .of_next fun s => by
    cases hr : s.rest with
    | nil => simp [after, Read.acceptOperator, hr]
    | cons t rest =>
      cases ho : Operator.ofKind? t.kind with
      | none => simp [after, Read.acceptOperator, hr, ho]
      | some op =>
        by_cases hl : level ≤ op.level <;> simp [after, Read.acceptOperator, hr, ho, hl]

theorem acceptUnary_advances : acceptUnary.Advances := .of_next fun s => by
  cases hr : s.rest with
  | nil => simp [after, Read.acceptUnary, hr]
  | cons t rest =>
    cases ho : UnaryOp.ofKind? t.kind <;> simp [after, Read.acceptUnary, hr, ho]

theorem expectMark_advances (mark : Punctuator) (cause : ParseError.Cause) :
    (expectMark mark cause).Advances := expect_advances _ _

/-! ### Lists with a limit -/

/-- Reports that there are too many of something, if there are already as many as are allowed. -/
def checkCount (count : Nat) (cause : ParseError.Cause) : Read Unit :=
  if maxArity ≤ count then do report (← peek).place cause else pure ()

/-- Reads one more argument after those in `done`, and then the rest of them. -/
def argumentThenMore (fuel : Nat) (done : Array Expr) : Read (List Expr) := do
  let done := done.push (← assignment fuel)
  if (← accept (.punctuator .comma)).isSome then moreArguments fuel done
  else return done.toList

theorem moreArguments_succ (fuel : Nat) (done : Array Expr) :
    moreArguments (fuel + 1) done =
      checkCount done.size .tooManyArguments >>= fun _ => argumentThenMore fuel done := by
  rw [moreArguments, checkCount]
  split <;> rfl

/-- Reads one more parameter after those in `done`, and then the rest of them. -/
def parameterThenMore (fuel : Nat) (done : Array Lexeme) : Read (List Lexeme) := do
  let done := done.push (← expect .identifier .expectedParameterName)
  if (← accept (.punctuator .comma)).isSome then moreParameters fuel done
  else return done.toList

theorem moreParameters_succ (fuel : Nat) (done : Array Lexeme) :
    moreParameters (fuel + 1) done =
      checkCount done.size .tooManyParameters >>= fun _ => parameterThenMore fuel done := by
  rw [moreParameters, checkCount]
  split <;> rfl

theorem checkCount_advances (count : Nat) (cause : ParseError.Cause) :
    (checkCount count cause).Advances := by
  unfold checkCount
  split
  · exact peek_advances.bind fun _ => report_advances _ _
  · exact .pure _

/-- A check leaves the cursor where it is, and finds no error if the number is small enough. -/
theorem checkCount_eq_ok {count : Nat} (h : checkCount count cause s = .ok u s₁) :
    s₁.rest = s.rest ∧ s₁.nextId = s.nextId ∧ (s₁.errors = #[] → count < maxArity ∧ s₁ = s) := by
  rw [checkCount] at h
  split at h
  · cases h
    exact ⟨rfl, rfl, fun he => absurd he (by simp)⟩
  · next hc =>
    cases h
    exact ⟨rfl, rfl, fun _ => ⟨Nat.lt_of_not_le hc, rfl⟩⟩

/-! ### Readers of expressions move forwards -/

theorem assignTo_advances (target : Expr) (mark : Lexeme) (value : Expr) :
    (assignTo target mark value).Advances := by
  unfold assignTo
  split
  · exact freshId_advances.bind fun _ => .pure _
  · exact freshId_advances.bind fun _ => .pure _
  · exact (report_advances _ _).bind fun _ => .pure _

theorem superMethod_advances (keyword : Lexeme) : (superMethod keyword).Advances :=
  (expectMark_advances _ _).bind fun _ => (expect_advances _ _).bind fun _ =>
    freshId_advances.bind fun _ => .pure _

/-- The readers of expressions with the given fuel move forwards. -/
structure ExprAdvances (fuel : Nat) : Prop where
  assignment : (assignment fuel).Advances
  operand : ∀ level, (operand fuel level).Advances
  operators : ∀ level left, (operators fuel level left).Advances
  unary : (unary fuel).Advances
  calls : ∀ callee, (calls fuel callee).Advances
  arguments : (arguments fuel).Advances
  moreArguments : ∀ done, (moreArguments fuel done).Advances
  primary : (primary fuel).Advances

/-- All readers of expressions move forwards. -/
theorem exprAdvances (fuel : Nat) : ExprAdvances fuel := by
  induction fuel with
  | zero =>
    constructor
    all_goals
      intros
      exact fail_advances _
  | succ fuel ih =>
    constructor
    case assignment =>
      refine (ih.operand 0).bind fun left => (accept_advances _).bind fun mark => ?_
      cases mark with
      | none => exact .pure _
      | some mark => exact ih.assignment.bind fun value => assignTo_advances _ _ _
    case operand => exact fun level => ih.unary.bind fun left => ih.operators level left
    case operators =>
      refine fun level left => (acceptOperator_advances level).bind fun found => ?_
      match found with
      | none => exact .pure _
      | some (op, mark) =>
        exact (ih.operand _).bind fun right => freshId_advances.bind fun id => ih.operators _ _
    case unary =>
      refine acceptUnary_advances.bind fun found => ?_
      match found with
      | none => exact ih.primary.bind fun callee => ih.calls callee
      | some (op, mark) => exact ih.unary.bind fun right => freshId_advances.bind fun id => .pure _
    case calls =>
      refine fun callee => peek_advances.bind fun t => ?_
      split
      · exact skip_advances.bind fun _ => ih.arguments.bind fun arguments =>
          (expectMark_advances _ _).bind fun paren => freshId_advances.bind fun id => ih.calls _
      · exact skip_advances.bind fun _ => (expect_advances _ _).bind fun name =>
          freshId_advances.bind fun id => ih.calls _
      · exact .pure _
    case arguments =>
      refine (seesMark_advances _).bind fun closed => ?_
      split
      · exact .pure _
      · exact ih.moreArguments _
    case moreArguments =>
      intro done
      rw [moreArguments_succ]
      refine (checkCount_advances _ _).bind fun _ => ih.assignment.bind fun e =>
        (accept_advances _).bind fun comma => ?_
      split
      · exact ih.moreArguments _
      · exact .pure _
    case primary =>
      refine peek_advances.bind fun t => ?_
      split
      · exact skip_advances.bind fun _ => freshId_advances.bind fun id => .pure _
      split
      · exact skip_advances.bind fun _ => freshId_advances.bind fun id => .pure _
      · exact skip_advances.bind fun _ => superMethod_advances _
      · exact skip_advances.bind fun _ => freshId_advances.bind fun id => .pure _
      · exact skip_advances.bind fun _ => ih.assignment.bind fun inner =>
          (expectMark_advances _ _).bind fun _ => freshId_advances.bind fun id => .pure _
      · exact fail_advances _

theorem expression_advances : expression.Advances := by
  intro s
  have h : expression.after s = (assignment s.fuel).after s := by rw [after, expression, after]
  rw [h]
  exact (exprAdvances s.fuel).assignment s

/-! ### Readers of statements move forwards -/

theorem expressionUnless_advances (mark : Punctuator) : (expressionUnless mark).Advances := by
  refine (seesMark_advances mark).bind fun seen => ?_
  split
  · exact .pure _
  · exact expression_advances.bind fun e => .pure _

/-- Reading a variable declaration moves forwards. -/
theorem varDeclaration_advances : varDeclaration.Advances := by
  refine (expect_advances _ _).bind fun name => (accept_advances _).bind fun mark => ?_
  have next : ∀ initial, Advances (do
      let _ ← Read.expectMark .semicolon .expectedDeclarationEnd
      return Stmt.var name initial) := fun initial => (expectMark_advances _ _).bind
        fun _ => .pure _
  split
  · exact (expression_advances.map some).bind next
  · exact (Advances.pure none).bind next

theorem expressionStatement_advances : expressionStatement.Advances :=
  expression_advances.bind fun _ => (expectMark_advances _ _).bind fun _ => .pure _

theorem superclass_advances : superclass.Advances := by
  refine (accept_advances _).bind fun mark => ?_
  split
  · exact (expect_advances _ _).bind fun name => freshId_advances.bind fun id => .pure _
  · exact .pure _

theorem condition_advances (opening : ParseError.Cause) : (condition opening).Advances :=
  (expectMark_advances _ _).bind fun _ => expression_advances.bind fun _ =>
    (expectMark_advances _ _).bind fun _ => .pure _

theorem forInitial_advances : forInitial.Advances := by
  refine peek_advances.bind fun t => ?_
  split
  · exact skip_advances.bind fun _ => .pure none
  · exact skip_advances.bind fun _ => varDeclaration_advances.map some
  · exact expressionStatement_advances.map some

theorem forCondition_advances : forCondition.Advances := by
  refine (expressionUnless_advances _).bind fun condition => ?_
  cases condition with
  | some e => exact .pure e
  | none => exact freshId_advances.bind fun id => .pure _

theorem forClauses_advances : forClauses.Advances :=
  (expectMark_advances _ _).bind fun _ => forInitial_advances.bind fun _ =>
    forCondition_advances.bind fun _ => (expectMark_advances _ _).bind fun _ =>
    (expressionUnless_advances _).bind fun _ => (expectMark_advances _ _).bind fun _ => .pure _

/-- Reading at least one more parameter moves forwards. -/
theorem moreParameters_advances (fuel : Nat) (done : Array Lexeme) :
    (moreParameters fuel done).Advances := by
  induction fuel generalizing done with
  | zero => exact fail_advances _
  | succ fuel ih =>
    rw [moreParameters_succ]
    refine (checkCount_advances _ _).bind fun _ => (expect_advances _ _).bind fun name =>
      (accept_advances _).bind fun comma => ?_
    split
    · exact ih _
    · exact .pure _

theorem parameters_advances (fuel : Nat) : (parameters fuel).Advances := by
  refine (seesMark_advances _).bind fun closed => ?_
  split
  · exact .pure _
  · exact moreParameters_advances _ _

end Read

namespace Cursor

/-- Skipping the rest of a statement leaves the last ones of the tokens. -/
theorem skipStatement_suffix (tokens : List Token) : skipStatement tokens <:+ tokens := by
  induction tokens with
  | nil => exact List.suffix_refl _
  | cons t rest ih =>
    rw [skipStatement]
    split
    · exact List.suffix_cons t rest
    · exact ih.trans (List.suffix_cons t rest)

/-- Going on after a failure takes at least one token, unless there is none. -/
theorem length_skipStatement_lt {tokens : List Token} (h : tokens ≠ []) :
    (skipStatement tokens).length < tokens.length := by
  obtain ⟨t, rest, rfl⟩ := List.exists_cons_of_ne_nil h
  rw [skipStatement]
  split
  · simp
  · exact Nat.lt_succ_of_le (skipStatement_suffix rest).length_le

theorem moves_recover (s : Cursor) (e : ParseError) : s.Moves (s.recover e) :=
  ⟨skipStatement_suffix _, rfl, rfl, Nat.le_refl _, ⟨[e], (Array.toList_push).symm⟩⟩

end Cursor

namespace Read

/-- The readers of statements with the given fuel move forwards. -/
structure StmtAdvances (fuel : Nat) : Prop where
  declaration : ∀ s : Cursor, s.Moves (declaration fuel s).2
  declarationOrError : (declarationOrError fuel).Advances
  function : ∀ kind, (function fuel kind).Advances
  methods : ∀ done, (methods fuel done).Advances
  block : ∀ done, (block fuel done).Advances
  statement : (statement fuel).Advances

/-- All readers of statements move forwards. -/
theorem stmtAdvances (fuel : Nat) : StmtAdvances fuel := by
  induction fuel with
  | zero =>
    constructor
    case declaration => exact fun s => s.moves_recover _
    all_goals
      intros
      exact fail_advances _
  | succ fuel ih =>
    constructor
    case declaration =>
      intro s
      rw [Read.declaration]
      cases h : Read.declarationOrError fuel s with
      | ok stmt s₁ => exact ih.declarationOrError.of_ok h
      | error e s₁ =>
        have hm : s.Moves s₁ := after_of_error h ▸ ih.declarationOrError s
        exact hm.trans (s₁.moves_recover e)
    case declarationOrError =>
      refine peek_advances.bind fun t => ?_
      split
      · exact skip_advances.bind fun _ => (expect_advances _ _).bind fun name =>
          superclass_advances.bind fun superclass => (expectMark_advances _ _).bind fun _ =>
          (ih.methods _).bind fun methods => (expectMark_advances _ _).bind fun _ => .pure _
      · exact skip_advances.bind fun _ => (ih.function _).bind fun decl => .pure _
      · exact skip_advances.bind fun _ => varDeclaration_advances
      · exact ih.statement
    case function =>
      exact fun kind => (expect_advances _ _).bind fun name =>
        (expectMark_advances _ _).bind fun _ =>
        (parameters_advances _).bind fun params => (expectMark_advances _ _).bind fun _ =>
        (expectMark_advances _ _).bind fun _ => (ih.block _).bind fun body => .pure _
    case methods =>
      refine fun done => atBraceEnd_advances.bind fun closed => ?_
      split
      · exact .pure _
      · exact (ih.function _).bind fun decl => ih.methods _
    case block =>
      refine fun done => atBraceEnd_advances.bind fun closed => ?_
      split
      · exact (expectMark_advances _ _).bind fun _ => .pure _
      · refine Advances.bind (fun s => ih.declaration s) fun stmt => ?_
        cases stmt with
        | none => exact ih.block _
        | some stmt => exact ih.block _
    case statement =>
      refine peek_advances.bind fun t => ?_
      split
      · exact skip_advances.bind fun _ => forClauses_advances.bind fun clauses =>
          ih.statement.bind fun body => .pure _
      · refine skip_advances.bind fun _ => (condition_advances _).bind fun e =>
          ih.statement.bind fun yes => (accept_advances _).bind fun mark => ?_
        split
        · exact ih.statement.bind fun no => .pure _
        · exact .pure _
      · exact skip_advances.bind fun _ => (condition_advances _).bind fun e =>
          ih.statement.bind fun body => .pure _
      · exact skip_advances.bind fun _ => (expressionUnless_advances _).bind fun value =>
          (expectMark_advances _ _).bind fun _ => .pure _
      · exact skip_advances.bind fun _ => (ih.block _).bind fun body => .pure _
      · exact skip_advances.bind fun _ => expression_advances.bind fun e =>
          (expectMark_advances _ _).bind fun _ => .pure _
      · exact expressionStatement_advances

/-! ### Taking tokens -/

end Read

theorem Token.isEof_iff {t : Token} : t.isEof = true ↔ t.kind = .eof := by
  rw [isEof]
  split <;> simp_all

/-- What holds of a cursor in a list of tokens: it ends with the end of the source, and there are no
    more tokens than at the start. -/
structure Cursor.Proper (s : Cursor) : Prop where
  eof : s.eof.kind = .eof
  size : s.rest.length ≤ s.size

namespace Cursor

/-- A cursor at the start of some tokens is proper. -/
theorem proper_ofTokens (tokens : List Token) (firstId : Nat) :
    (ofTokens tokens firstId).Proper where
  eof := by
    rw [ofTokens]
    dsimp only
    split
    · next eof more h =>
      have hd := List.head_dropWhile_not (fun t : Token => !t.isEof) (l := tokens) (by simp [h])
      simp only [h, List.head_cons, Bool.not_eq_false'] at hd
      exact Token.isEof_iff.1 hd
    · rfl
  size := Nat.le_refl _

variable {s : Cursor}

theorem Moves.proper {s₁ : Cursor} (h : s.Moves s₁) (hs : s.Proper) : s₁.Proper where
  eof := h.eof ▸ hs.eof
  size := h.size ▸ Nat.le_trans h.length_le hs.size

/-- The token at a cursor is the end, or the next one. -/
theorem Proper.peek_cases (hs : s.Proper) :
    s.rest = [] ∧ s.peek.kind = .eof ∨ ∃ rest, s.rest = s.peek :: rest := by
  cases h : s.rest with
  | nil => exact .inl ⟨rfl, by rw [peek, h]; exact hs.eof⟩
  | cons t rest => exact .inr ⟨rest, by rw [peek, h]; rfl⟩

theorem Proper.rest_eq (hs : s.Proper) (h : s.peek.kind ≠ .eof) :
    s.rest = s.peek :: s.rest.tail := by
  rcases hs.peek_cases with ⟨_, hk⟩ | ⟨rest, hr⟩
  · exact absurd hk h
  · rw [hr]
    rfl

/-- A token that is not the end can be taken. -/
theorem Proper.length_tail_lt (hs : s.Proper) (h : s.peek.kind ≠ .eof) :
    s.rest.tail.length < s.rest.length := by
  rw [hs.rest_eq h]
  exact Nat.lt_succ_self _

end Cursor

namespace Read

/-- A successful reading takes a token. -/
def Consumes (r : Read α) : Prop :=
  ∀ ⦃s a s₁⦄, s.Proper → r s = .ok a s₁ → s₁.rest.length < s.rest.length

variable {r : Read α} {f : α → Read β}

theorem Consumes.bind_left (hr : r.Consumes) (hf : ∀ a, (f a).Advances) : (r >>= f).Consumes := by
  intro s b s₂ hs h
  obtain ⟨a, s₁, h₁, h₂⟩ := bind_eq_ok.1 h
  exact Nat.lt_of_le_of_lt ((hf a).of_ok h₂).length_le (hr hs h₁)

theorem Consumes.bind_right (hr : r.Advances) (hf : ∀ a, (f a).Consumes) : (r >>= f).Consumes := by
  intro s b s₂ hs h
  obtain ⟨a, s₁, h₁, h₂⟩ := bind_eq_ok.1 h
  have hm := hr.of_ok h₁
  exact Nat.lt_of_lt_of_le (hf a (hm.proper hs) h₂) hm.length_le

theorem fail_consumes (cause : ParseError.Cause) : (fail cause : Read α).Consumes := by
  intro s a s₁ _ h
  cases h

theorem expect_consumes (kind : Token.Kind) (cause : ParseError.Cause) :
    (expect kind cause).Consumes := by
  intro s l s₁ _ h
  obtain ⟨t, rest, hr, -, -, rfl⟩ := expect_eq_ok.1 h
  simp [hr]

/-- A successful reading takes a token if `t` is at the cursor. -/
def ConsumesAt (t : Token) (r : Read α) : Prop :=
  ∀ ⦃s a s₁⦄, s.Proper → s.peek = t → r s = .ok a s₁ → s₁.rest.length < s.rest.length

theorem Consumes.at (hr : r.Consumes) (t : Token) : r.ConsumesAt t :=
  fun _ _ _ hs _ h => hr hs h

/-- Reading on after the token `t` takes it, unless it is the end. -/
theorem ConsumesAt.skip_bind {f : Unit → Read α} {t : Token} (ht : t.kind ≠ .eof)
    (hf : ∀ u, (f u).Advances) : (skip >>= f).ConsumesAt t := by
  intro s a s₁ hs hp h
  rw [Read.skip_bind] at h
  exact Nat.lt_of_le_of_lt ((hf ()).of_ok h).length_le (hs.length_tail_lt (hp ▸ ht))

theorem Consumes.peek_bind {f : Token → Read α} (hf : ∀ t, (f t).ConsumesAt t) :
    (peek >>= f).Consumes := by
  intro s a s₁ hs h
  rw [Read.peek_bind] at h
  exact hf s.peek hs rfl h

/-- A primary expression is not empty. -/
theorem primary_consumes (fuel : Nat) : (primary fuel).Consumes := by
  cases fuel with
  | zero => exact fail_consumes _
  | succ fuel =>
    refine .peek_bind fun t => ?_
    split
    · next value hv =>
      refine .skip_bind ?_ fun _ => freshId_advances.bind fun _ => .pure _
      intro hk
      rw [hk] at hv
      cases hv
    split
    · next hk => exact .skip_bind (by simp [hk]) fun _ => freshId_advances.bind fun _ => .pure _
    · next hk => exact .skip_bind (by simp [hk]) fun _ => superMethod_advances _
    · next hk => exact .skip_bind (by simp [hk]) fun _ => freshId_advances.bind fun _ => .pure _
    · next hk =>
      exact .skip_bind (by simp [hk]) fun _ => (exprAdvances fuel).assignment.bind fun _ =>
        (expectMark_advances _ _).bind fun _ => freshId_advances.bind fun _ => .pure _
    · exact (fail_consumes _).at t

/-- An operand with its operators in front is not empty. -/
theorem unary_consumes (fuel : Nat) : (unary fuel).Consumes := by
  induction fuel with
  | zero => exact fail_consumes _
  | succ fuel ih =>
    refine .bind_right acceptUnary_advances fun found => ?_
    match found with
    | none => exact (primary_consumes fuel).bind_left fun callee => (exprAdvances fuel).calls callee
    | some (op, mark) => exact ih.bind_left fun right => freshId_advances.bind fun id => .pure _

theorem operand_consumes (fuel level : Nat) : (operand fuel level).Consumes := by
  cases fuel with
  | zero => exact fail_consumes _
  | succ fuel =>
    exact (unary_consumes fuel).bind_left fun left => (exprAdvances fuel).operators level left

/-- An assignment is not empty. -/
theorem assignment_consumes (fuel : Nat) : (assignment fuel).Consumes := by
  cases fuel with
  | zero => exact fail_consumes _
  | succ fuel =>
    refine (operand_consumes fuel 0).bind_left fun left => (accept_advances _).bind fun mark => ?_
    cases mark with
    | none => exact .pure _
    | some mark =>
      exact (exprAdvances fuel).assignment.bind fun value => assignTo_advances _ _ _

theorem expression_consumes : expression.Consumes := by
  intro s e s₁ hs h
  rw [expression] at h
  exact assignment_consumes _ hs h

theorem expressionStatement_consumes : expressionStatement.Consumes :=
  expression_consumes.bind_left fun _ => (expectMark_advances _ _).bind fun _ => .pure _

/-- A statement has at least one token: it starts with a keyword, a brace or an expression. -/
theorem statement_consumes (fuel : Nat) : (statement fuel).Consumes := by
  cases fuel with
  | zero => exact fail_consumes _
  | succ fuel =>
    have ih := stmtAdvances fuel
    refine .peek_bind fun t => ?_
    split
    · next hk =>
      exact .skip_bind (by simp [hk]) fun _ => forClauses_advances.bind fun _ =>
        ih.statement.bind fun _ => .pure _
    · next hk =>
      refine .skip_bind (by simp [hk]) fun _ => (condition_advances _).bind fun _ =>
        ih.statement.bind fun _ => (accept_advances _).bind fun _ => ?_
      split
      · exact ih.statement.bind fun _ => .pure _
      · exact .pure _
    · next hk =>
      exact .skip_bind (by simp [hk]) fun _ => (condition_advances _).bind fun _ =>
        ih.statement.bind fun _ => .pure _
    · next hk =>
      exact .skip_bind (by simp [hk]) fun _ => (expressionUnless_advances _).bind fun _ =>
        (expectMark_advances _ _).bind fun _ => .pure _
    · next hk => exact .skip_bind (by simp [hk]) fun _ => (ih.block _).bind fun _ => .pure _
    · next hk =>
      exact .skip_bind (by simp [hk]) fun _ => expression_advances.bind fun _ =>
        (expectMark_advances _ _).bind fun _ => .pure _
    · exact expressionStatement_consumes.at t

/-- A declaration is not empty. -/
theorem declarationOrError_consumes (fuel : Nat) : (declarationOrError fuel).Consumes := by
  cases fuel with
  | zero => exact fail_consumes _
  | succ fuel =>
    have ih := stmtAdvances fuel
    refine .peek_bind fun t => ?_
    split
    · next hk =>
      exact .skip_bind (by simp [hk]) fun _ => (expect_advances _ _).bind fun _ =>
        superclass_advances.bind fun _ => (expectMark_advances _ _).bind fun _ =>
        (ih.methods _).bind fun _ => (expectMark_advances _ _).bind fun _ => .pure _
    · next hk => exact .skip_bind (by simp [hk]) fun _ => (ih.function _).bind fun _ => .pure _
    · next hk => exact .skip_bind (by simp [hk]) fun _ => varDeclaration_advances
    · exact (statement_consumes fuel).at t

/-- A declaration takes at least one token, whether it can be read or not. -/
theorem length_declaration_lt (fuel : Nat) {s : Cursor} (hs : s.Proper) (h : s.rest ≠ []) :
    (declaration fuel s).2.rest.length < s.rest.length := by
  cases fuel with
  | zero => exact Cursor.length_skipStatement_lt h
  | succ fuel =>
    rw [declaration]
    cases hd : declarationOrError fuel s with
    | ok stmt s₁ => exact declarationOrError_consumes fuel hs hd
    | error e s₁ =>
      have hm : s.Moves s₁ := after_of_error hd ▸ (stmtAdvances fuel).declarationOrError s
      change (Cursor.skipStatement s₁.rest).length < s.rest.length
      by_cases he : s₁.rest = []
      · rw [he]
        exact List.length_pos_of_ne_nil h
      · exact Nat.lt_of_lt_of_le (Cursor.length_skipStatement_lt he) hm.length_le

/-- A declaration that cannot be read adds an error. -/
theorem errors_lt_of_declaration {fuel : Nat} {s : Cursor} (h : (declaration fuel s).1 = none) :
    s.errors.size < (declaration fuel s).2.errors.size := by
  cases fuel with
  | zero => simp [declaration, Cursor.recover]
  | succ fuel =>
    rw [declaration] at h ⊢
    cases hr : declarationOrError fuel s with
    | ok stmt s₁ =>
      rw [hr] at h
      cases h
    | error e s₁ =>
      have hmoves := (stmtAdvances fuel).declarationOrError s
      rw [after_of_error hr] at hmoves
      have hle := hmoves.errors.length_le
      simp only [Array.length_toList] at hle
      simp only [Cursor.recover, Array.size_push]
      omega

theorem function_consumes (fuel : Nat) (kind : FunctionKind) : (function fuel kind).Consumes := by
  cases fuel with
  | zero => exact fail_consumes _
  | succ fuel =>
    exact (expect_consumes _ _).bind_left fun _ => (expectMark_advances _ _).bind fun _ =>
      (parameters_advances _).bind fun _ => (expectMark_advances _ _).bind fun _ =>
      (expectMark_advances _ _).bind fun _ => ((stmtAdvances fuel).block _).bind fun _ => .pure _

end Read

/-! ### Whole sources -/

/-- A source is read as an expression if one ends where it ends and there is no error. -/
theorem Expr.parse_eq_ok {s s₁ : Cursor} {e : Expr} :
    Expr.parse s = (.ok e, s₁) ↔ Read.expression s = .ok e s₁ ∧ s₁.errors = #[] ∧ s₁.rest = [] := by
  rw [Expr.parse]
  cases Read.expression s with
  | error error s₂ => simp
  | ok e' s₂ =>
    dsimp only
    constructor
    · intro h
      split at h
      · cases h
      · next hnone =>
        split at h
        · next hend =>
          cases h
          exact ⟨rfl, by simpa using hnone, by simpa [Cursor.atEnd] using hend⟩
        · cases h
    · rintro ⟨h, herrors, hrest⟩
      cases h
      simp [herrors, hrest, Cursor.atEnd]

/-- A source is read as a program if there is no error in it. -/
theorem Program.parse_eq_ok {s s₁ : Cursor} {program : Program} :
    Program.parse s = (.ok program, s₁) ↔
      Read.declarations s.size #[] s = (program.toArray, s₁) ∧ s₁.errors = #[] := by
  rw [Program.parse]
  cases Read.declarations s.size #[] s with
  | mk stmts s₂ =>
    dsimp only
    constructor
    · intro h
      split at h
      · next he =>
        cases h
        exact ⟨rfl, Array.isEmpty_iff.1 he⟩
      · cases h
    · rintro ⟨h, he⟩
      cases h
      rw [if_pos (Array.isEmpty_iff.2 he)]

end Lox
