import Mathlib
import Lox.Proofs.Fuel

/-!
# An expression before a semicolon

An expression that fills a source is read up to the end of the source, and one that is a part of a
statement up to a semicolon. Readers of expressions look one token ahead, and nothing that they look
for is an end or a semicolon. So what they read before the one they read before the other: the same
tree, with the same identities, and with as many errors on the side.

* `Cursor.Terminated`: a cursor and another one that has a semicolon and more after the tokens of
  the first;
* `Read.Lasts`: a reading that succeeds does the same if a semicolon follows;
* `Read.expression_lasts`: readings of expressions last.
-/

namespace Lox

/-- `s'` stands before the tokens of `s` and then those in `after`, of which the first is a
    semicolon. -/
structure Cursor.Terminated (after : List Token) (s s' : Cursor) : Prop where
  eof : s.eof.kind = .eof
  semicolon : after.head?.map Token.kind = some (.punctuator .semicolon)
  rest : s'.rest = s.rest ++ after
  nextId : s'.nextId = s.nextId
  size : s.size ≤ s'.size
  errors : s'.errors.size = s.errors.size

namespace Cursor.Terminated

variable {after : List Token} {s s' : Cursor}

/-- Where one cursor is at the end, the other is at the semicolon; else both are at the same
    token. -/
theorem rest_cases (h : s.Terminated after s') :
    (s.rest = [] ∧ ∃ t more, s'.rest = t :: more ∧ t.kind = .punctuator .semicolon) ∨
      ∃ t rest, s.rest = t :: rest ∧ s'.rest = t :: (rest ++ after) := by
  have hrest := h.rest
  cases hr : s.rest with
  | nil =>
    obtain ⟨t, ht, hk⟩ := Option.map_eq_some_iff.1 h.semicolon
    obtain ⟨more, rfl⟩ := List.head?_eq_some_iff.1 ht
    exact .inl ⟨rfl, t, more, by rw [hrest, hr, List.nil_append], hk⟩
  | cons t rest => exact .inr ⟨t, rest, rfl, by rw [hrest, hr, List.cons_append]⟩

/-- Both cursors move over the next token. -/
theorem tail (h : s.Terminated after s') {rest : List Token} :
    Terminated after { s with rest } { s' with rest := rest ++ after } :=
  { h with rest := rfl }

theorem sees_eq (h : s.Terminated after s') {kind : Token.Kind}
    (hk : kind ≠ .punctuator .semicolon) : s'.sees kind = s.sees kind := by
  rcases h.rest_cases with ⟨hr, t, more, hr', ht⟩ | ⟨t, rest, hr, hr'⟩
  · rw [Read.sees_cons hr', ht, decide_eq_false hk.symm, sees, hr]
  · rw [Read.sees_cons hr', Read.sees_cons hr]

theorem fuel_le (h : s.Terminated after s') : s.fuel ≤ s'.fuel := by
  have := h.size
  rw [fuel, fuel]
  omega

end Cursor.Terminated

namespace Read

variable {α β : Type} {after : List Token} {before : Bool} {r r' : Read α}

/-- What the reader `r` reads, `r'` reads where a semicolon follows. With `before`, only readings
    that start before a token are meant. -/
def Lasts (after : List Token) (before : Bool) (r r' : Read α) : Prop :=
  ∀ ⦃s s' a s₁⦄, s.Terminated after s' → (before = true → s.rest ≠ []) → r s = .ok a s₁ →
    ∃ s₁', r' s' = .ok a s₁' ∧ s₁.Terminated after s₁'

/-- Steps of a reader last one after the other. -/
theorem Lasts.bind {f f' : α → Read β} (hr : Lasts after before r r')
    (hf : ∀ a, Lasts after false (f a) (f' a)) : Lasts after before (r >>= f) (r' >>= f') := by
  intro s s' b s₂ hs hbefore h
  obtain ⟨a, s₁, h₁, h₂⟩ := bind_eq_ok.1 h
  obtain ⟨s₁', h₁', hs₁⟩ := hr hs hbefore h₁
  obtain ⟨s₂', h₂', hs₂⟩ := hf a hs₁ (by simp) h₂
  exact ⟨s₂', (bind_of_ok h₁').trans h₂', hs₂⟩

theorem Lasts.pure (a : α) : Lasts after before (Pure.pure a) (Pure.pure a) := by
  intro s s' b s₁ hs _ h
  obtain ⟨rfl, rfl⟩ := pure_eq_ok.1 h
  exact ⟨s', rfl, hs⟩

/-! ### Single tokens -/

theorem fail_lasts (cause : ParseError.Cause) : Lasts after before (fail cause) r' := by
  intro s s' a s₁ _ _ h
  cases h

/-- A reader chooses by the next token. At the end it must choose as at a semicolon. -/
theorem Lasts.peek_bind {f f' : Token → Read α} (h : ∀ t, Lasts after true (f t) (f' t))
    (hend : ∀ eof t : Token, eof.kind = .eof → t.kind = .punctuator .semicolon →
      Lasts after false (f eof) (f' t)) :
    Lasts after false (peek >>= f) (peek >>= f') := by
  intro s s' a s₁ hs _ hok
  rw [Read.peek_bind, Cursor.peek] at hok ⊢
  rcases hs.rest_cases with ⟨hr, t, more, hr', ht⟩ | ⟨t, rest, hr, hr'⟩
  · rw [hr, List.headD_nil] at hok
    rw [hr', List.headD_cons]
    exact hend _ _ hs.eof ht hs (by simp) hok
  · rw [hr, List.headD_cons] at hok
    rw [hr', List.headD_cons]
    exact h t hs (by simp [hr]) hok

theorem skip_lasts : Lasts after true skip skip := by
  intro s s' u s₁ hs hbefore h
  obtain rfl := skip_eq_ok.1 h
  rcases hs.rest_cases with ⟨hr, -⟩ | ⟨t, rest, hr, hr'⟩
  · exact absurd hr (hbefore rfl)
  · refine ⟨{ s' with rest := rest ++ after }, skip_eq_ok.2 (by rw [hr', List.tail_cons]), ?_⟩
    rw [hr, List.tail_cons]
    exact hs.tail

theorem seesMark_lasts {mark : Punctuator} (hne : mark ≠ .semicolon) :
    Lasts after before (seesMark mark) (seesMark mark) := by
  intro s s' seen s₁ hs _ h
  cases h
  refine ⟨s', ?_, hs⟩
  rw [seesMark, hs.sees_eq (by simpa using hne)]

theorem freshId_lasts : Lasts after before freshId freshId := by
  intro s s' id s₁ hs _ h
  obtain ⟨rfl, rfl⟩ := freshId_eq_ok.1 h
  refine ⟨{ s' with nextId := s'.nextId + 1 }, freshId_eq_ok.2 ⟨hs.nextId.symm, rfl⟩, ?_⟩
  exact { hs with nextId := congrArg (· + 1) hs.nextId }

/-- The places of errors may differ: the end is another place than the semicolon. -/
theorem report_lasts (place place' : Place) (cause : ParseError.Cause) :
    Lasts after before (report place cause) (report place' cause) := by
  intro s s' u s₁ hs _ h
  obtain rfl := report_eq_ok.1 h
  refine ⟨_, rfl, { hs with errors := ?_ }⟩
  rw [Array.size_push, Array.size_push, hs.errors]

theorem expect_lasts (kind : Token.Kind) (cause : ParseError.Cause) :
    Lasts after before (expect kind cause) (expect kind cause) := by
  intro s s' l s₁ hs _ h
  obtain ⟨t, rest, hr, hk, rfl, rfl⟩ := expect_eq_ok.1 h
  refine ⟨_, expect_eq_ok.2 ⟨t, rest ++ after, ?_, hk, rfl, rfl⟩, hs.tail⟩
  rw [hs.rest, hr, List.cons_append]

theorem expectMark_lasts (mark : Punctuator) (cause : ParseError.Cause) :
    Lasts after before (expectMark mark cause) (expectMark mark cause) :=
  expect_lasts _ _

theorem accept_lasts {kind : Token.Kind} (hne : kind ≠ .punctuator .semicolon) :
    Lasts after before (accept kind) (accept kind) := by
  intro s s' found s₁ hs _ h
  rcases accept_eq_ok.1 h with ⟨rfl, rfl, hsees⟩ | ⟨t, rest, hr, hk, rfl, rfl⟩
  · exact ⟨s', accept_eq_ok.2 (.inl ⟨rfl, rfl, (hs.sees_eq hne).trans hsees⟩), hs⟩
  · refine ⟨_, accept_eq_ok.2 (.inr ⟨t, rest ++ after, ?_, hk, rfl, rfl⟩), hs.tail⟩
    rw [hs.rest, hr, List.cons_append]

/-- No operator is a semicolon. -/
theorem acceptOperator_lasts (level : Nat) :
    Lasts after before (acceptOperator level) (acceptOperator level) := by
  intro s s' found s₁ hs _ h
  rcases acceptOperator_eq_ok.1 h with ⟨rfl, rfl, hno⟩ | ⟨t, rest, op, hr, hk, hl, rfl, rfl⟩
  · refine ⟨s', acceptOperator_eq_ok.2 (.inl ⟨rfl, rfl, fun t rest op hr' hop => ?_⟩), hs⟩
    rcases hs.rest_cases with ⟨-, t', more, hsemi, ht⟩ | ⟨t', rest', hr, hcons⟩
    · cases hr'.symm.trans hsemi
      rw [ht] at hop
      cases hop
    · cases hr'.symm.trans hcons
      exact hno t rest' op hr hop
  · refine ⟨_, acceptOperator_eq_ok.2 (.inr ⟨t, rest ++ after, op, ?_, hk, hl, rfl, rfl⟩), hs.tail⟩
    rw [hs.rest, hr, List.cons_append]

theorem acceptUnary_lasts : Lasts after before acceptUnary acceptUnary := by
  intro s s' found s₁ hs _ h
  rcases acceptUnary_eq_ok.1 h with ⟨rfl, rfl, hno⟩ | ⟨t, rest, op, hr, hk, rfl, rfl⟩
  · refine ⟨s', acceptUnary_eq_ok.2 (.inl ⟨rfl, rfl, fun t rest hr' => ?_⟩), hs⟩
    rcases hs.rest_cases with ⟨-, t', more, hsemi, ht⟩ | ⟨t', rest', hr, hcons⟩
    · cases hr'.symm.trans hsemi
      rw [ht]
      rfl
    · cases hr'.symm.trans hcons
      exact hno t rest' hr
  · refine ⟨_, acceptUnary_eq_ok.2 (.inr ⟨t, rest ++ after, op, ?_, hk, rfl, rfl⟩), hs.tail⟩
    rw [hs.rest, hr, List.cons_append]

theorem checkCount_lasts (count : Nat) (cause : ParseError.Cause) :
    Lasts after false (checkCount count cause) (checkCount count cause) := by
  unfold checkCount
  split
  · exact .peek_bind (fun _ => report_lasts _ _ _) fun _ _ _ _ => report_lasts _ _ _
  · exact .pure _

/-! ### Expressions -/

theorem assignTo_lasts (target : Expr) (mark : Lexeme) (value : Expr) :
    Lasts after before (assignTo target mark value) (assignTo target mark value) := by
  cases target with
  | var id name => exact freshId_lasts.bind fun _ => .pure _
  | get id object name => exact freshId_lasts.bind fun _ => .pure _
  | _ => exact (report_lasts _ _ _).bind fun _ => .pure _

theorem superMethod_lasts (keyword : Lexeme) :
    Lasts after before (superMethod keyword) (superMethod keyword) :=
  (expectMark_lasts _ _).bind fun _ => (expect_lasts _ _).bind fun _ => freshId_lasts.bind
    fun _ => .pure _

/-- The readers of expressions with the given fuel read the same before a semicolon, with more fuel
    too. -/
structure ExprLasts (after : List Token) (fuel fuel' : Nat) : Prop where
  assignment : Lasts after false (assignment fuel) (assignment fuel')
  operand : ∀ level, Lasts after false (operand fuel level) (operand fuel' level)
  operators : ∀ level left,
      Lasts after false (operators fuel level left) (operators fuel' level left)
  unary : Lasts after false (unary fuel) (unary fuel')
  calls : ∀ callee, Lasts after false (calls fuel callee) (calls fuel' callee)
  arguments : Lasts after false (arguments fuel) (arguments fuel')
  moreArguments : ∀ done, Lasts after false (moreArguments fuel done) (moreArguments fuel' done)
  primary : Lasts after false (primary fuel) (primary fuel')

/-- All readers of expressions read the same before a semicolon, with more fuel too. -/
theorem exprLasts {fuel fuel' : Nat} (hle : fuel ≤ fuel') : ExprLasts after fuel fuel' := by
  induction fuel generalizing fuel' with
  | zero =>
    constructor
    all_goals
      intros
      exact fail_lasts _
  | succ fuel ih =>
    obtain ⟨fuel', rfl⟩ := Nat.exists_eq_succ_of_ne_zero (Nat.ne_of_gt (Nat.zero_lt_of_lt hle))
    replace ih := ih (Nat.le_of_succ_le_succ hle)
    constructor
    case assignment =>
      refine (ih.operand 0).bind fun left => (accept_lasts (by simp)).bind fun mark => ?_
      cases mark with
      | none => exact .pure _
      | some mark => exact ih.assignment.bind fun value => assignTo_lasts _ _ _
    case operand => exact fun level => ih.unary.bind fun left => ih.operators level left
    case operators =>
      refine fun level left => (acceptOperator_lasts level).bind fun found => ?_
      rcases found with - | ⟨op, mark⟩
      · exact .pure _
      · exact (ih.operand _).bind fun right => freshId_lasts.bind fun id => ih.operators _ _
    case unary =>
      refine acceptUnary_lasts.bind fun found => ?_
      rcases found with - | ⟨op, mark⟩
      · exact ih.primary.bind fun callee => ih.calls callee
      · exact ih.unary.bind fun right => freshId_lasts.bind fun id => .pure _
    case calls =>
      refine fun callee => .peek_bind (fun t => ?_) fun eof t heof ht => ?_
      · split
        · exact skip_lasts.bind fun _ => ih.arguments.bind fun arguments =>
            (expectMark_lasts _ _).bind fun paren => freshId_lasts.bind fun id => ih.calls _
        · exact skip_lasts.bind fun _ => (expect_lasts _ _).bind fun name =>
            freshId_lasts.bind fun id => ih.calls _
        · exact .pure _
      · rw [heof, ht]
        exact .pure _
    case arguments =>
      refine (seesMark_lasts (by simp)).bind fun closed => ?_
      cases closed with
      | true => exact .pure _
      | false => exact ih.moreArguments #[]
    case moreArguments =>
      intro done
      rw [moreArguments_succ, moreArguments_succ]
      refine (checkCount_lasts _ _).bind fun _ => ih.assignment.bind fun e =>
        (accept_lasts (by simp)).bind fun comma => ?_
      cases comma with
      | some comma => exact ih.moreArguments _
      | none => exact .pure _
    case primary =>
      refine .peek_bind (fun t => ?_) fun eof t heof ht => ?_
      · split
        · exact skip_lasts.bind fun _ => freshId_lasts.bind fun id => .pure _
        split
        · exact skip_lasts.bind fun _ => freshId_lasts.bind fun id => .pure _
        · exact skip_lasts.bind fun _ => superMethod_lasts _
        · exact skip_lasts.bind fun _ => freshId_lasts.bind fun id => .pure _
        · exact skip_lasts.bind fun _ => ih.assignment.bind fun inner =>
            (expectMark_lasts _ _).bind fun _ => freshId_lasts.bind fun id => .pure _
        · exact fail_lasts _
      · rw [heof]
        exact fail_lasts _

/-- There are more tokens where a semicolon follows, and so more fuel. -/
theorem expression_lasts : Lasts after false expression expression :=
  fun _ _ _ _ hs hbefore h => (exprLasts hs.fuel_le).assignment hs hbefore h

end Read

end Lox
