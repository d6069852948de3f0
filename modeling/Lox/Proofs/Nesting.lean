import Mathlib
import Lox.Proofs.Reader

/-!
# How deep readers nest

Readers count down a fuel, and the fuel that they get depends on how many tokens there were at the
start. Neither shows in what they do. With four units of fuel for each token that is left and a few
more, a reader never gives up: each passes the fuel on to another one at most four times before a
token is taken. So the fuel makes no difference, and neither does the number of tokens at the start,
whether the reading succeeds or fails (`Read.Mirrors`).

* `Read.Mirrors`: two readers do the same from one place on, with different numbers of tokens at the
  start, and neither gives up;
* `Read.exprMirrors`, `Read.stmtMirrors`: this holds of every reader with itself and enough fuel;
* `Read.declarations_resize`: the same for a list of declarations.
-/

namespace Lox

/-- The same cursor with another number of tokens at the start. -/
def Cursor.resize (s : Cursor) (size : Nat) : Cursor := { s with size }

/-- The errors that `s₁` has beyond those of `s` are about the tokens: none is that a reader gave
    up. -/
def Cursor.Finds (s s₁ : Cursor) : Prop := ∀ e ∈ s₁.errors, e ∈ s.errors ∨ e.cause ≠ .tooDeep

/-- What readers may rely on at a cursor that stands for one with `k` tokens at the start. -/
structure Cursor.Fits (k : Nat) (s : Cursor) : Prop where
  proper : s.Proper
  length : s.rest.length ≤ k

namespace Cursor

variable {s s₁ s₂ : Cursor} {k : Nat}

theorem resize_eq (h : s.size = k) : s.resize k = s := by
  rw [← h]
  rfl

theorem Finds.refl (s : Cursor) : s.Finds s := fun _ h => .inl h

theorem Finds.of_errors (h : s₁.errors = s.errors) : s.Finds s₁ := fun _ he => .inl (h ▸ he)

theorem Finds.push {e : ParseError} (h : s.Finds s₁) (he : e.cause ≠ .tooDeep)
    (hs : s₂.errors = s₁.errors.push e) : s.Finds s₂ := by
  intro e' he'
  rw [hs, Array.mem_push] at he'
  rcases he' with he' | rfl
  · exact h e' he'
  · exact .inr he

theorem Finds.trans (h : s.Finds s₁) (h' : s₁.Finds s₂) : s.Finds s₂ := by
  intro e he
  rcases h' e he with he | hc
  · exact h e he
  · exact .inr hc

theorem Moves.fits (h : s.Moves s₁) (hs : s.Fits k) : s₁.Fits k :=
  ⟨h.proper hs.proper, h.length_le.trans hs.length⟩

theorem Proper.fits (hs : s.Proper) : s.Fits s.size := ⟨hs, hs.size⟩

/-- Enough fuel is given out, whatever the number of tokens at the start was. -/
theorem Fits.fuel_resize (hs : s.Fits k) : 4 * s.rest.length + 8 ≤ (s.resize k).fuel := by
  have := hs.length
  rw [fuel]
  dsimp only [resize]
  omega

theorem Fits.fuel (hs : s.Fits k) : 4 * s.rest.length + 8 ≤ s.fuel := by
  have := hs.proper.size
  rw [Cursor.fuel]
  omega

end Cursor

namespace Read

variable {α β : Type} {k : Nat} {s : Cursor}

/-- Two results of readings that start at `s` and at the same place with `k` tokens at the start:
    they are the same, and not that the reader gave up. -/
inductive Alike (k : Nat) (s : Cursor) :
    EStateM.Result ParseError Cursor α → EStateM.Result ParseError Cursor α → Prop
  | ok {a : α} {s₁ : Cursor} : s.Finds s₁ → Alike k s (.ok a s₁) (.ok a (s₁.resize k))
  | error {e : ParseError} {s₁ : Cursor} : e.cause ≠ .tooDeep → s.Finds s₁ →
      Alike k s (.error e s₁) (.error e (s₁.resize k))

theorem Alike.of_finds {s₀ : Cursor} (hf : s₀.Finds s) {x y : EStateM.Result ParseError Cursor α}
    (h : Alike k s x y) : Alike k s₀ x y := by
  cases h with
  | ok h => exact .ok (hf.trans h)
  | error hc h => exact .error hc (hf.trans h)

/-- `r'` does at `s` with `k` tokens at the start what `r` does at `s`, and neither gives up. -/
def Mirrors (k : Nat) (s : Cursor) (r r' : Read α) : Prop := Alike k s (r s) (r' (s.resize k))

/-- Both readings succeed, or both fail. -/
theorem Mirrors.cases {r r' : Read α} (h : Mirrors k s r r') :
    (∃ a s₁, r s = .ok a s₁ ∧ r' (s.resize k) = .ok a (s₁.resize k) ∧ s.Finds s₁) ∨
      ∃ e s₁, r s = .error e s₁ ∧ r' (s.resize k) = .error e (s₁.resize k) ∧ e.cause ≠ .tooDeep ∧
        s.Finds s₁ := by
  unfold Mirrors at h
  generalize r s = x, r' (s.resize k) = y at h
  cases h with
  | ok hs₁ => exact .inl ⟨_, _, rfl, rfl, hs₁⟩
  | error hc hs₁ => exact .inr ⟨_, _, rfl, rfl, hc, hs₁⟩

variable {r r' : Read α} {f f' : α → Read β} {cause : ParseError.Cause} {m n : Nat}

/-- Readers do the same if they do so step by step. -/
theorem Mirrors.bind (h : Mirrors k s r r')
    (hf : ∀ a s₁, r s = .ok a s₁ → Mirrors k s₁ (f a) (f' a)) :
    Mirrors k s (r >>= f) (r' >>= f') := by
  unfold Mirrors
  rcases h.cases with ⟨a, s₁, hr, hr', hs₁⟩ | ⟨e, s₁, hr, hr', hc, hs₁⟩
  · rw [bind_of_ok hr, bind_of_ok hr']
    exact (hf a s₁ hr).of_finds hs₁
  · rw [bind_of_error hr, bind_of_error hr']
    exact .error hc hs₁

/-- What comes after a step starts at a cursor that fits, with no more tokens left than before. -/
theorem Mirrors.andThen (h : Mirrors k s r r') (ha : r.Advances) (hs : s.Fits k)
    (hf : ∀ a s₁, r s = .ok a s₁ → s₁.Fits k → s₁.rest.length ≤ s.rest.length →
      Mirrors k s₁ (f a) (f' a)) :
    Mirrors k s (r >>= f) (r' >>= f') :=
  h.bind fun a s₁ h₁ => hf a s₁ h₁ ((ha.of_ok h₁).fits hs) (ha.of_ok h₁).length_le

/-- Readers that do the same with as many tokens at the start agree. -/
theorem Mirrors.agreeAt (h : Mirrors s.size s r r') (ha : r.Advances) : AgreeAt s r r' := by
  have hsize := (ha s).size
  rcases h.cases with ⟨a, s₁, hr, hr', -⟩ | ⟨e, s₁, hr, hr', -, -⟩
  · rw [after_of_ok hr] at hsize
    rw [Cursor.resize_eq rfl, Cursor.resize_eq hsize] at hr'
    exact hr.trans hr'.symm
  · rw [after_of_error hr] at hsize
    rw [Cursor.resize_eq rfl, Cursor.resize_eq hsize] at hr'
    exact hr.trans hr'.symm

/-- A reader that does the same with `k` tokens at the start, and never gives up. -/
structure Steady (k : Nat) (r : Read α) : Prop where
  advances : r.Advances
  mirrors : ∀ ⦃s⦄, s.Fits k → Mirrors k s r r

namespace Steady

variable {r : Read α} {f : α → Read β}

/-- What comes after a steady step. -/
theorem andThen {f' : α → Read β} (hr : Steady k r) (hs : s.Fits k)
    (hf : ∀ a s₁, r s = .ok a s₁ → s₁.Fits k → s₁.rest.length ≤ s.rest.length →
      Mirrors k s₁ (f a) (f' a)) :
    Mirrors k s (r >>= f) (r >>= f') :=
  (hr.mirrors hs).andThen hr.advances hs hf

theorem bind (hr : Steady k r) (hf : ∀ a, Steady k (f a)) :
    Steady k (r >>= f) where
  advances := hr.advances.bind fun a => (hf a).advances
  mirrors _ hs := hr.andThen hs fun a _ _ hs₁ _ => (hf a).mirrors hs₁

theorem pure (a : α) : Steady k (Pure.pure a : Read α) := ⟨.pure a, fun s _ => .ok (.refl s)⟩

theorem map (f : α → β) (hr : Steady k r) : Steady k (f <$> r) := by
  refine ⟨hr.advances.map f, fun s hs => ?_⟩
  unfold Mirrors
  rcases (hr.mirrors hs).cases with ⟨a, s₁, hr, hr', hs₁⟩ | ⟨e, s₁, hr, hr', hc, hs₁⟩
  · rw [map_of_ok hr, map_of_ok hr']
    exact .ok hs₁
  · rw [map_of_error hr, map_of_error hr']
    exact .error hc hs₁

end Steady

/-! ### Single tokens -/

theorem fail_steady (h : cause ≠ .tooDeep) : Steady k (fail cause : Read α) :=
  ⟨fail_advances cause, fun s _ => .error h (.refl s)⟩

theorem peek_steady : Steady k peek := ⟨peek_advances, fun s _ => .ok (.refl s)⟩

theorem seesMark_steady (mark : Punctuator) : Steady k (seesMark mark) :=
  ⟨seesMark_advances mark, fun s _ => .ok (.refl s)⟩

theorem atBraceEnd_steady : Steady k atBraceEnd := ⟨atBraceEnd_advances, fun s _ => .ok (.refl s)⟩

theorem skip_steady : Steady k skip := ⟨skip_advances, fun _ _ => .ok (.of_errors rfl)⟩

/-- What comes after a token that is not the end has fewer tokens left. -/
theorem Mirrors.skip {f f' : Unit → Read α} (hs : s.Fits k) (hk : s.peek.kind ≠ .eof)
    (hf : ∀ s₁, s₁.Fits k → s₁.rest.length < s.rest.length → Mirrors k s₁ (f ()) (f' ())) :
    Mirrors k s (Read.skip >>= f) (Read.skip >>= f') := by
  refine skip_steady.andThen hs fun _ s₁ h₁ hs₁ _ => hf s₁ hs₁ ?_
  rw [skip_eq_ok.1 h₁]
  exact hs.proper.length_tail_lt hk

theorem freshId_steady : Steady k freshId := ⟨freshId_advances, fun _ _ => .ok (.of_errors rfl)⟩

theorem report_steady (place : Place) (h : cause ≠ .tooDeep) : Steady k (report place cause) :=
  ⟨report_advances place cause, fun s _ => .ok (Cursor.Finds.push (.refl s) h rfl)⟩

/-- Taking a token if it is there needs no fuel. -/
theorem accept_steady (kind : Token.Kind) : Steady k (accept kind) := by
  refine ⟨accept_advances kind, fun s _ => ?_⟩
  unfold Mirrors accept Cursor.resize
  dsimp only
  split
  · exact .ok (.refl s)
  · split
    · exact .ok (.of_errors rfl)
    · exact .ok (.refl s)

/-- Asking for a token needs no fuel. -/
theorem expect_steady (kind : Token.Kind) (h : cause ≠ .tooDeep) :
    Steady k (expect kind cause) := by
  refine ⟨expect_advances kind cause, fun s _ => ?_⟩
  unfold Mirrors expect Cursor.resize
  dsimp only
  split
  · exact .error h (.refl s)
  · split
    · exact .ok (.of_errors rfl)
    · exact .error h (.refl s)

theorem expectMark_steady (mark : Punctuator) (h : cause ≠ .tooDeep) :
    Steady k (expectMark mark cause) :=
  expect_steady _ h

/-- An operator of a level may be taken or not. -/
theorem acceptOperator_steady (level : Nat) : Steady k (acceptOperator level) := by
  refine ⟨acceptOperator_advances level, fun s _ => ?_⟩
  unfold Mirrors acceptOperator Cursor.resize
  dsimp only
  split
  · exact .ok (.refl s)
  · split
    · exact .ok (.refl s)
    · split
      · exact .ok (.of_errors rfl)
      · exact .ok (.refl s)

theorem acceptUnary_steady : Steady k acceptUnary := by
  refine ⟨acceptUnary_advances, fun s _ => ?_⟩
  unfold Mirrors acceptUnary Cursor.resize
  dsimp only
  split
  · exact .ok (.refl s)
  · split
    · exact .ok (.refl s)
    · exact .ok (.of_errors rfl)

theorem checkCount_steady (count : Nat) (h : cause ≠ .tooDeep) :
    Steady k (checkCount count cause) := by
  unfold checkCount
  split
  · exact peek_steady.bind fun t => report_steady _ h
  · exact .pure _

theorem assignTo_steady (target : Expr) (mark : Lexeme) (value : Expr) :
    Steady k (assignTo target mark value) := by
  unfold assignTo
  split
  · exact freshId_steady.bind fun _ => .pure _
  · exact freshId_steady.bind fun _ => .pure _
  · exact (report_steady _ (by simp)).bind fun _ => .pure _

theorem superMethod_steady (keyword : Lexeme) : Steady k (superMethod keyword) :=
  (expectMark_steady _ (by simp)).bind fun _ => (expect_steady _ (by simp)).bind fun _ =>
    freshId_steady.bind fun _ => .pure _

/-! ### Expressions -/

/-- From `c` units of fuel above four for each token on, any number of units `n` does what `m` units
    do. -/
def MirrorsFrom (k c : Nat) (r : Nat → Read α) (m : Nat) : Prop :=
  ∀ ⦃n s⦄, s.Fits k → 4 * s.rest.length + c ≤ m → 4 * s.rest.length + c ≤ n →
  Mirrors k s (r m) (r n)

/-- The readers of expressions with enough fuel do not depend on it. -/
structure ExprMirrors (k m : Nat) : Prop where
  assignment : MirrorsFrom k 4 assignment m
  operand : ∀ level, MirrorsFrom k 3 (operand · level) m
  operators : ∀ level left, MirrorsFrom k 1 (operators · level left) m
  unary : MirrorsFrom k 2 unary m
  calls : ∀ callee, MirrorsFrom k 3 (calls · callee) m
  arguments : MirrorsFrom k 6 arguments m
  moreArguments : ∀ done, MirrorsFrom k 5 (moreArguments · done) m
  primary : MirrorsFrom k 1 primary m

/-- All readers of expressions with enough fuel do not depend on it. -/
theorem exprMirrors (k m : Nat) : ExprMirrors k m := by
  induction m with
  | zero =>
    constructor
    all_goals
      intros
      intro n s hs hm hn
      omega
  | succ m ih =>
    -- Every reader that is called has one unit less. It needs no more, or a token was taken, which
    -- makes up for four.
    have adv := exprAdvances m
    constructor
    case assignment =>
      intro n s hs hm hn
      obtain ⟨n, rfl⟩ : ∃ j, n = j + 1 := ⟨n - 1, by omega⟩
      refine (ih.operand 0 hs (by omega) (by omega)).andThen (adv.operand 0) hs
        fun left s₁ h₁ hs₁ _ => ?_
      have hlt := operand_consumes m 0 hs.proper h₁
      refine (accept_steady _).andThen hs₁ fun mark s₂ _ hs₂ hle => ?_
      cases mark with
      | none => exact (Steady.pure _).mirrors hs₂
      | some mark =>
        exact (ih.assignment hs₂ (by omega) (by omega)).andThen adv.assignment hs₂
          fun value _ _ hs₃ _ =>
          (assignTo_steady _ _ _).mirrors hs₃
    case operand =>
      intro level n s hs hm hn
      obtain ⟨n, rfl⟩ : ∃ j, n = j + 1 := ⟨n - 1, by omega⟩
      refine (ih.unary hs (by omega) (by omega)).andThen adv.unary hs fun left s₁ h₁ hs₁ _ => ?_
      have hlt := unary_consumes m hs.proper h₁
      exact ih.operators level left hs₁ (by omega) (by omega)
    case operators =>
      intro level left n s hs hm hn
      obtain ⟨n, rfl⟩ : ∃ j, n = j + 1 := ⟨n - 1, by omega⟩
      refine (acceptOperator_steady level).andThen hs fun found s₁ h₁ hs₁ _ => ?_
      rcases acceptOperator_eq_ok.1 h₁ with ⟨rfl, -, -⟩ | ⟨t, rest, op, hr, -, -, rfl, hrest⟩
      · exact (Steady.pure _).mirrors hs₁
      · have hlt : s₁.rest.length < s.rest.length := by simp [hrest, hr]
        refine (ih.operand _ hs₁ (by omega) (by omega)).andThen (adv.operand _) hs₁
          fun right s₂ _ hs₂ hle₂ => ?_
        refine freshId_steady.andThen hs₂ fun id s₃ _ hs₃ hle₃ => ?_
        exact ih.operators _ _ hs₃ (by omega) (by omega)
    case unary =>
      intro n s hs hm hn
      obtain ⟨n, rfl⟩ : ∃ j, n = j + 1 := ⟨n - 1, by omega⟩
      refine acceptUnary_steady.andThen hs fun found s₁ h₁ hs₁ hle₁ => ?_
      rcases acceptUnary_eq_ok.1 h₁ with ⟨rfl, -, -⟩ | ⟨t, rest, op, hr, -, rfl, hrest⟩
      · refine (ih.primary hs₁ (by omega) (by omega)).andThen adv.primary hs₁
          fun callee s₂ h₂ hs₂ _ => ?_
        have hlt := primary_consumes m hs₁.proper h₂
        exact ih.calls callee hs₂ (by omega) (by omega)
      · have hlt : s₁.rest.length < s.rest.length := by simp [hrest, hr]
        exact (ih.unary hs₁ (by omega) (by omega)).andThen adv.unary hs₁ fun right _ _ hs₂ _ =>
          (freshId_steady.bind fun _ => .pure _).mirrors hs₂
    case calls =>
      intro callee n s hs hm hn
      obtain ⟨n, rfl⟩ : ∃ j, n = j + 1 := ⟨n - 1, by omega⟩
      refine peek_steady.andThen hs fun t s₁ h₁ _ _ => ?_
      obtain ⟨rfl, rfl⟩ := peek_eq_ok.1 h₁
      split
      · next hk =>
        refine .skip hs (by simp [hk]) fun s₂ hs₂ hlt => ?_
        refine (ih.arguments hs₂ (by omega) (by omega)).andThen adv.arguments hs₂
          fun arguments s₃ _ hs₃ hle₃ => ?_
        refine (expectMark_steady _ (by simp)).andThen hs₃ fun paren s₄ _ hs₄ hle₄ => ?_
        refine freshId_steady.andThen hs₄ fun id s₅ _ hs₅ hle₅ => ?_
        exact ih.calls _ hs₅ (by omega) (by omega)
      · next hk =>
        refine .skip hs (by simp [hk]) fun s₂ hs₂ hlt => ?_
        refine (expect_steady _ (by simp)).andThen hs₂ fun name s₃ _ hs₃ hle₃ => ?_
        refine freshId_steady.andThen hs₃ fun id s₄ _ hs₄ hle₄ => ?_
        exact ih.calls _ hs₄ (by omega) (by omega)
      · exact (Steady.pure _).mirrors hs
    case arguments =>
      intro n s hs hm hn
      obtain ⟨n, rfl⟩ : ∃ j, n = j + 1 := ⟨n - 1, by omega⟩
      refine (seesMark_steady _).andThen hs fun closed s₁ _ hs₁ hle => ?_
      split
      · exact (Steady.pure _).mirrors hs₁
      · exact ih.moreArguments _ hs₁ (by omega) (by omega)
    case moreArguments =>
      intro done n s hs hm hn
      obtain ⟨n, rfl⟩ : ∃ j, n = j + 1 := ⟨n - 1, by omega⟩
      simp only [moreArguments_succ]
      refine (checkCount_steady _ (by simp)).andThen hs fun _ s₁ _ hs₁ hle₁ => ?_
      refine (ih.assignment hs₁ (by omega) (by omega)).andThen adv.assignment hs₁
        fun e s₂ h₂ hs₂ _ => ?_
      have hlt := assignment_consumes m hs₁.proper h₂
      refine (accept_steady _).andThen hs₂ fun comma s₃ _ hs₃ hle₃ => ?_
      split
      · exact ih.moreArguments _ hs₃ (by omega) (by omega)
      · exact (Steady.pure _).mirrors hs₃
    case primary =>
      intro n s hs hm hn
      obtain ⟨n, rfl⟩ : ∃ j, n = j + 1 := ⟨n - 1, by omega⟩
      refine peek_steady.andThen hs fun t s₁ h₁ _ _ => ?_
      obtain ⟨rfl, rfl⟩ := peek_eq_ok.1 h₁
      split
      · exact (skip_steady.bind fun _ => freshId_steady.bind fun _ => .pure _).mirrors hs
      split
      · exact (skip_steady.bind fun _ => freshId_steady.bind fun _ => .pure _).mirrors hs
      · exact (skip_steady.bind fun _ => superMethod_steady _).mirrors hs
      · exact (skip_steady.bind fun _ => freshId_steady.bind fun _ => .pure _).mirrors hs
      · next hk =>
        refine .skip hs (by simp [hk]) fun s₂ hs₂ hlt => ?_
        exact (ih.assignment hs₂ (by omega) (by omega)).andThen adv.assignment hs₂
          fun inner _ _ hs₃ _ =>
          ((expectMark_steady _ (by simp)).bind fun _ => freshId_steady.bind
            fun _ => .pure _).mirrors hs₃
      · exact (fail_steady (by simp)).mirrors hs

theorem expression_steady : Steady k expression := by
  refine ⟨expression_advances, fun s hs => ?_⟩
  have hfuel := hs.fuel
  have hfuel' := hs.fuel_resize
  have h : Mirrors k s (assignment s.fuel) (assignment (s.resize k).fuel) :=
    (exprMirrors k s.fuel).assignment hs (by omega) (by omega)
  unfold Mirrors at h ⊢
  rwa [expression, expression]

/-! ### Statements -/

theorem expressionUnless_steady (mark : Punctuator) : Steady k (expressionUnless mark) := by
  refine (seesMark_steady mark).bind fun seen => ?_
  split
  · exact .pure _
  · exact expression_steady.bind fun e => .pure _

/-- A variable declaration is read with enough fuel. -/
theorem varDeclaration_steady : Steady k varDeclaration := by
  refine (expect_steady _ (by simp)).bind fun name => (accept_steady _).bind fun mark => ?_
  have next : ∀ initial, Steady k (do
      let _ ← Read.expectMark .semicolon .expectedDeclarationEnd
      return Stmt.var name initial) := fun initial => (expectMark_steady _ (by simp)).bind
        fun _ => .pure _
  split
  · exact (expression_steady.map some).bind next
  · exact (Steady.pure none).bind next

theorem expressionStatement_steady : Steady k expressionStatement :=
  expression_steady.bind fun _ => (expectMark_steady _ (by simp)).bind fun _ => .pure _

theorem superclass_steady : Steady k superclass := by
  refine (accept_steady _).bind fun mark => ?_
  split
  · exact (expect_steady _ (by simp)).bind fun name => freshId_steady.bind fun id => .pure _
  · exact .pure _

theorem condition_steady {opening : ParseError.Cause} (h : opening ≠ .tooDeep) :
    Steady k (condition opening) :=
  (expectMark_steady _ h).bind fun _ => expression_steady.bind fun _ =>
    (expectMark_steady _ (by simp)).bind fun _ => .pure _

theorem forInitial_steady : Steady k forInitial := by
  refine peek_steady.bind fun t => ?_
  split
  · exact skip_steady.bind fun _ => .pure none
  · exact skip_steady.bind fun _ => varDeclaration_steady.map some
  · exact expressionStatement_steady.map some

theorem forCondition_steady : Steady k forCondition := by
  refine (expressionUnless_steady _).bind fun condition => ?_
  cases condition with
  | some e => exact .pure e
  | none => exact freshId_steady.bind fun id => .pure _

theorem forClauses_steady : Steady k forClauses :=
  (expectMark_steady _ (by simp)).bind fun _ => forInitial_steady.bind fun _ =>
    forCondition_steady.bind fun _ => (expectMark_steady _ (by simp)).bind fun _ =>
    (expressionUnless_steady _).bind fun _ => (expectMark_steady _ (by simp)).bind fun _ => .pure _

/-- For parameters one unit of fuel for each token is enough. -/
theorem moreParameters_mirrors {done : Array Lexeme} (hs : s.Fits k) (hm : s.rest.length < m)
    (hn : s.rest.length < n) : Mirrors k s (moreParameters m done) (moreParameters n done) := by
  induction m generalizing n done s with
  | zero => omega
  | succ m ih =>
    obtain ⟨n, rfl⟩ : ∃ j, n = j + 1 := ⟨n - 1, by omega⟩
    rw [moreParameters_succ, moreParameters_succ]
    refine (checkCount_steady _ (by simp)).andThen hs fun _ s₁ _ hs₁ hle₁ => ?_
    refine (expect_steady _ (by simp)).andThen hs₁ fun name s₂ h₂ hs₂ _ => ?_
    have hlt := expect_consumes _ _ hs₁.proper h₂
    refine (accept_steady _).andThen hs₂ fun comma s₃ _ hs₃ hle₃ => ?_
    split
    · exact ih hs₃ (by omega) (by omega)
    · exact (Steady.pure _).mirrors hs₃

theorem parameters_mirrors (hs : s.Fits k) (hm : s.rest.length < m) (hn : s.rest.length < n) :
    Mirrors k s (parameters m) (parameters n) := by
  refine (seesMark_steady _).andThen hs fun closed s₁ _ hs₁ hle => ?_
  split
  · exact (Steady.pure _).mirrors hs₁
  · exact moreParameters_mirrors hs₁ (by omega) (by omega)

/-- A declaration as a reader that never fails. -/
def declaring (fuel : Nat) : Read (Option Stmt) := fun s =>
  .ok (declaration fuel s).1 (declaration fuel s).2

/-- The readers of statements with enough fuel do not depend on it. -/
structure StmtMirrors (k m : Nat) : Prop where
  declaration : MirrorsFrom k 3 declaring m
  declarationOrError : MirrorsFrom k 2 declarationOrError m
  function : ∀ kind, MirrorsFrom k 2 (function · kind) m
  methods : ∀ done, MirrorsFrom k 3 (methods · done) m
  block : ∀ done, MirrorsFrom k 4 (block · done) m
  statement : MirrorsFrom k 1 statement m

/-- All readers of statements with enough fuel do not depend on it. -/
theorem stmtMirrors (k m : Nat) : StmtMirrors k m := by
  induction m with
  | zero =>
    constructor
    all_goals
      intros
      intro n s hs hm hn
      omega
  | succ m ih =>
    have adv := stmtAdvances m
    constructor
    case declaration =>
      intro n s hs hm hn
      obtain ⟨n, rfl⟩ : ∃ j, n = j + 1 := ⟨n - 1, by omega⟩
      unfold Mirrors declaring
      rw [Read.declaration, Read.declaration]
      rcases (ih.declarationOrError hs (by omega) (show _ ≤ n by omega)).cases with
        ⟨stmt, s₁, h, h', hs₁⟩ | ⟨e, s₁, h, h', hc, hs₁⟩
      · rw [h, h']
        exact .ok hs₁
      · rw [h, h']
        exact .ok (hs₁.push hc rfl)
    case declarationOrError =>
      intro n s hs hm hn
      obtain ⟨n, rfl⟩ : ∃ j, n = j + 1 := ⟨n - 1, by omega⟩
      refine peek_steady.andThen hs fun t s₁ h₁ _ _ => ?_
      obtain ⟨rfl, rfl⟩ := peek_eq_ok.1 h₁
      split
      · next hk =>
        refine .skip hs (by simp [hk]) fun s₂ hs₂ hlt => ?_
        refine (expect_steady _ (by simp)).andThen hs₂ fun name s₃ h₃ hs₃ _ => ?_
        have hlt₃ := expect_consumes _ _ hs₂.proper h₃
        refine superclass_steady.andThen hs₃ fun superclass s₄ _ hs₄ hle₄ => ?_
        refine (expectMark_steady _ (by simp)).andThen hs₄ fun _ s₅ _ hs₅ hle₅ => ?_
        exact (ih.methods _ hs₅ (by omega) (by omega)).andThen (adv.methods _) hs₅
          fun methods _ _ hs₆ _ =>
          ((expectMark_steady _ (by simp)).bind fun _ => .pure _).mirrors hs₆
      · next hk =>
        refine .skip hs (by simp [hk]) fun s₂ hs₂ hlt => ?_
        exact (ih.function _ hs₂ (by omega) (by omega)).andThen (adv.function _) hs₂
          fun decl _ _ hs₃ _ =>
          (Steady.pure _).mirrors hs₃
      · exact (skip_steady.bind fun _ => varDeclaration_steady).mirrors hs
      · exact ih.statement hs (by omega) (by omega)
    case function =>
      intro kind n s hs hm hn
      obtain ⟨n, rfl⟩ : ∃ j, n = j + 1 := ⟨n - 1, by omega⟩
      refine (expect_steady _ (by simp)).andThen hs fun name s₁ h₁ hs₁ _ => ?_
      have hlt := expect_consumes _ _ hs.proper h₁
      refine (expectMark_steady _ (by simp)).andThen hs₁ fun _ s₂ _ hs₂ hle₂ => ?_
      refine (parameters_mirrors hs₂ (by omega) (by omega)).andThen (parameters_advances _) hs₂
        fun params s₃ _ hs₃ hle₃ => ?_
      refine (expectMark_steady _ (by simp)).andThen hs₃ fun _ s₄ _ hs₄ hle₄ => ?_
      refine (expectMark_steady _ (by simp)).andThen hs₄ fun _ s₅ _ hs₅ hle₅ => ?_
      exact (ih.block _ hs₅ (by omega) (by omega)).andThen (adv.block _) hs₅ fun body _ _ hs₆ _ =>
        (Steady.pure _).mirrors hs₆
    case methods =>
      intro done n s hs hm hn
      obtain ⟨n, rfl⟩ : ∃ j, n = j + 1 := ⟨n - 1, by omega⟩
      refine atBraceEnd_steady.andThen hs fun closed s₁ _ hs₁ hle => ?_
      split
      · exact (Steady.pure _).mirrors hs₁
      · refine (ih.function _ hs₁ (by omega) (by omega)).andThen (adv.function _) hs₁
          fun decl s₂ h₂ hs₂ _ => ?_
        have hlt := function_consumes m _ hs₁.proper h₂
        exact ih.methods _ hs₂ (by omega) (by omega)
    case block =>
      intro done n s hs hm hn
      obtain ⟨n, rfl⟩ : ∃ j, n = j + 1 := ⟨n - 1, by omega⟩
      refine (atBraceEnd_steady.mirrors hs).bind fun closed s₁ h₁ => ?_
      cases h₁
      split
      · exact ((expectMark_steady _ (by simp)).bind fun _ => .pure _).mirrors hs
      · next hc =>
        -- The loop goes on only in front of a token, and then every declaration takes one.
        have hne : s.rest ≠ [] := by
          intro h
          simp [Cursor.atEnd, h] at hc
        refine Mirrors.bind (ih.declaration hs (by omega) (by omega)) fun stmt s₂ h₂ => ?_
        cases h₂
        have hlt := length_declaration_lt m hs.proper hne
        have hs₂ := (adv.declaration s).fits hs
        split
        · exact ih.block _ hs₂ (by omega) (by omega)
        · exact ih.block _ hs₂ (by omega) (by omega)
    case statement =>
      intro n s hs hm hn
      obtain ⟨n, rfl⟩ : ∃ j, n = j + 1 := ⟨n - 1, by omega⟩
      refine peek_steady.andThen hs fun t s₁ h₁ _ _ => ?_
      obtain ⟨rfl, rfl⟩ := peek_eq_ok.1 h₁
      split
      · next hk =>
        refine .skip hs (by simp [hk]) fun s₂ hs₂ hlt => ?_
        refine forClauses_steady.andThen hs₂ fun clauses s₃ _ hs₃ hle₃ => ?_
        exact (ih.statement hs₃ (by omega) (by omega)).andThen adv.statement hs₃
          fun body _ _ hs₄ _ =>
          (Steady.pure _).mirrors hs₄
      · next hk =>
        refine .skip hs (by simp [hk]) fun s₂ hs₂ hlt => ?_
        refine (condition_steady (by simp)).andThen hs₂ fun e s₃ _ hs₃ hle₃ => ?_
        refine (ih.statement hs₃ (by omega) (by omega)).andThen adv.statement hs₃
          fun yes s₄ _ hs₄ hle₄ => ?_
        refine (accept_steady _).andThen hs₄ fun mark s₅ _ hs₅ hle₅ => ?_
        split
        · exact (ih.statement hs₅ (by omega) (by omega)).andThen adv.statement hs₅
            fun no _ _ hs₆ _ =>
            (Steady.pure _).mirrors hs₆
        · exact (Steady.pure _).mirrors hs₅
      · next hk =>
        refine .skip hs (by simp [hk]) fun s₂ hs₂ hlt => ?_
        refine (condition_steady (by simp)).andThen hs₂ fun e s₃ _ hs₃ hle₃ => ?_
        exact (ih.statement hs₃ (by omega) (by omega)).andThen adv.statement hs₃
          fun body _ _ hs₄ _ =>
          (Steady.pure _).mirrors hs₄
      · exact (skip_steady.bind fun _ => (expressionUnless_steady _).bind fun _ =>
          (expectMark_steady _ (by simp)).bind fun _ => .pure _).mirrors hs
      · next hk =>
        refine .skip hs (by simp [hk]) fun s₂ hs₂ hlt => ?_
        exact (ih.block _ hs₂ (by omega) (by omega)).andThen (adv.block _) hs₂ fun body _ _ hs₃ _ =>
          (Steady.pure _).mirrors hs₃
      · exact (skip_steady.bind fun _ => expression_steady.bind fun _ =>
          (expectMark_steady _ (by simp)).bind fun _ => .pure _).mirrors hs
      · exact expressionStatement_steady.mirrors hs

/-! ### Declarations up to the end -/

/-- A declaration is read in the same way whatever the fuel and the number of tokens at the
    start. -/
theorem declaration_resize (hs : s.Fits k) (hm : 4 * s.rest.length + 3 ≤ m)
    (hn : 4 * s.rest.length + 3 ≤ n) :
    declaration n (s.resize k) = ((declaration m s).1, (declaration m s).2.resize k) ∧
      s.Finds (declaration m s).2 := by
  rcases ((stmtMirrors k m).declaration hs hm hn).cases with ⟨stmt, s₁, h, h', hs₁⟩ | ⟨e, s₁, h, -⟩
  · cases h
    injection h' with hstmt hcursor
    exact ⟨Prod.ext hstmt hcursor, hs₁⟩
  · cases h

theorem declarations_of_nil (h : s.rest = []) (fuel : Nat) (done : Array Stmt) :
    declarations fuel done s = (done, s) := by
  cases fuel with
  | zero => rfl
  | succ fuel => rw [declarations, Cursor.atEnd, h, List.isEmpty_nil, if_pos rfl]

/-- The step of a list of declarations that are not at their end. -/
theorem declarations_of_ne_nil (h : s.rest ≠ []) (fuel : Nat) (done : Array Stmt) :
    declarations (fuel + 1) done s =
      declarations fuel (done ++ (declaration s.fuel s).1.toArray) (declaration s.fuel s).2 := by
  have hend : ¬s.atEnd = true := by rwa [Cursor.atEnd, List.isEmpty_iff]
  rw [declarations, if_neg hend]
  cases hd : declaration s.fuel s with
  | mk found s₁ => cases found <;> simp

/-- Declarations are read up to the end in the same way whatever stands in front of them, the fuel
    and the number of tokens at the start. No reader gives up. -/
theorem declarations_resize {first done : Array Stmt} (hs : s.Fits k) (hm : s.rest.length ≤ m)
    (hn : s.rest.length ≤ n) :
    declarations n (first ++ done) (s.resize k) =
        (first ++ (declarations m done s).1, (declarations m done s).2.resize k) ∧
      s.Finds (declarations m done s).2 ∧ s.Moves (declarations m done s).2 ∧
      (declarations m done s).2.rest = [] := by
  induction m generalizing n done s with
  | zero =>
    have hr : s.rest = [] := List.length_eq_zero_iff.1 (Nat.le_zero.1 hm)
    rw [declarations_of_nil hr, declarations_of_nil (show (s.resize k).rest = [] from hr)]
    exact ⟨rfl, .refl s, .refl s, hr⟩
  | succ m ih =>
    by_cases hr : s.rest = []
    · rw [declarations_of_nil hr, declarations_of_nil (show (s.resize k).rest = [] from hr)]
      exact ⟨rfl, .refl s, .refl s, hr⟩
    · have hpos := List.length_pos_of_ne_nil hr
      obtain ⟨n, rfl⟩ : ∃ j, n = j + 1 := ⟨n - 1, by omega⟩
      have hfuel := hs.fuel
      have hfuel' := hs.fuel_resize
      obtain ⟨hd, hfinds⟩ : declaration (s.resize k).fuel (s.resize k) = _ ∧ _ :=
        declaration_resize hs (show _ ≤ s.fuel by omega) (by omega)
      have hmoves := (stmtAdvances s.fuel).declaration s
      have hlt := length_declaration_lt s.fuel hs.proper hr
      rw [declarations_of_ne_nil hr,
        declarations_of_ne_nil (show (s.resize k).rest ≠ [] from hr), hd, Array.append_assoc]
      obtain ⟨heq, hfinds', hmoves', hrest⟩ := @ih _ n (done ++ (declaration s.fuel s).1.toArray)
        (hmoves.fits hs) (by omega) (by omega)
      exact ⟨heq, hfinds.trans hfinds', hmoves.trans hmoves', hrest⟩

end Read

end Lox
