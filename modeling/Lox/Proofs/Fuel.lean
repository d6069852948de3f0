import Mathlib
import Lox.Proofs.Nesting

/-!
# Enough fuel

Readers count down a fuel. With four units of it for each token that is left and a few more, they
never run out, and then the fuel makes no difference (`Read.Settles`). This is what
`Read.exprMirrors` says of cursors with as many tokens at the start.

So a reader can be given as much fuel as it needs (`Read.freely`), and what it does is described
without fuel: `freely_assignment`, `freely_operators` and the others are the grammar as a recursion.
-/

namespace Lox.Read

variable {α : Type}

/-- From `c` units of fuel above four for each token on, `m` units are as good as any other
    number. -/
def Settles (c : Nat) (r : Nat → Read α) (m : Nat) : Prop :=
  ∀ ⦃n s⦄, s.Proper → 4 * s.rest.length + c ≤ m → 4 * s.rest.length + c ≤ n →
    AgreeAt s (r m) (r n)

/-- The readers of expressions do not depend on the fuel once it is enough. -/
structure ExprSettles (m : Nat) : Prop where
  assignment : Settles 4 assignment m
  operand : ∀ level, Settles 3 (operand · level) m
  operators : ∀ level left, Settles 1 (operators · level left) m
  unary : Settles 2 unary m
  calls : ∀ callee, Settles 3 (calls · callee) m
  arguments : Settles 6 arguments m
  moreArguments : ∀ done, Settles 5 (moreArguments · done) m
  primary : Settles 1 primary m

theorem MirrorsFrom.settles {c m : Nat} {r : Nat → Read α} (h : ∀ k, MirrorsFrom k c r m)
    (ha : (r m).Advances) : Settles c r m :=
  fun _ s hs hm hn => (h s.size hs.fits hm hn).agreeAt ha

/-- All readers of expressions settle. -/
theorem exprSettles (m : Nat) : ExprSettles m where
  assignment := MirrorsFrom.settles (fun k => (exprMirrors k m).assignment)
    (exprAdvances m).assignment
  operand level :=
    MirrorsFrom.settles (fun k => (exprMirrors k m).operand level) ((exprAdvances m).operand level)
  operators level left :=
    MirrorsFrom.settles (fun k => (exprMirrors k m).operators level left)
      ((exprAdvances m).operators level left)
  unary := MirrorsFrom.settles (fun k => (exprMirrors k m).unary) (exprAdvances m).unary
  calls callee := MirrorsFrom.settles (fun k => (exprMirrors k m).calls callee)
    ((exprAdvances m).calls callee)
  arguments := MirrorsFrom.settles (fun k => (exprMirrors k m).arguments) (exprAdvances m).arguments
  moreArguments done :=
    MirrorsFrom.settles (fun k => (exprMirrors k m).moreArguments done)
      ((exprAdvances m).moreArguments done)
  primary := MirrorsFrom.settles (fun k => (exprMirrors k m).primary) (exprAdvances m).primary

/-! ### Reading without fuel -/

/-- A reader with as much fuel as it needs. -/
def freely (r : Nat → Read α) : Read α := fun s => r (4 * s.rest.length + 8) s

/-- From enough fuel on, a reader reads freely. -/
theorem eq_freely {c : Nat} {r : Nat → Read α} (h : ∀ m, Settles c r m) (hc : c ≤ 8) {s : Cursor}
    (hs : s.Proper) {n : Nat} (hn : 4 * s.rest.length + c ≤ n) : AgreeAt s (r n) (freely r) := by
  unfold freely
  exact h n hs hn (by omega)

theorem freely_of_fuel {r : Nat → Read α} {r' : Read α} {s : Cursor}
    (h : ∀ k, k = 4 * s.rest.length + 7 → AgreeAt s (r (k + 1)) r') : AgreeAt s (freely r) r' :=
  h _ rfl

variable {s : Cursor}

/-- Calls and properties end where there is no parenthesis and no dot. -/
theorem freely_calls_end (callee : Expr) (hp : s.peek.kind ≠ .punctuator .leftParen)
    (hd : s.peek.kind ≠ .punctuator .dot) :
    AgreeAt s (freely (calls · callee)) (pure callee) := by
  refine freely_of_fuel fun k _ => ?_
  have h : calls (k + 1) callee s = (peek >>= fun _ => pure callee) s := by
    refine AgreeAt.bind rfl fun t s₁ h₁ => ?_
    obtain ⟨rfl, rfl⟩ := peek_eq_ok.1 h₁
    split
    · next hk => exact absurd hk hp
    · next hk => exact absurd hk hd
    · exact .refl _ _
  exact h

theorem freely_primary_literal {value : Literal} (hv : Literal.ofKind? s.peek.kind = some value) :
    AgreeAt s (freely primary) (do
      skip
      return .literal (← freshId) value) := by
  refine freely_of_fuel fun k _ => ?_
  unfold AgreeAt
  rw [primary, peek_bind]
  simp only [hv]

theorem freely_primary_this (hk : s.peek.kind = .keyword .this) :
    AgreeAt s (freely primary) (do
      skip
      return .this (← freshId) s.peek.toLexeme) := by
  refine freely_of_fuel fun k _ => ?_
  unfold AgreeAt
  rw [primary, peek_bind]
  simp only [hk, Literal.ofKind?]

theorem freely_primary_super (hk : s.peek.kind = .keyword .super) :
    AgreeAt s (freely primary) (do
      skip
      superMethod s.peek.toLexeme) := by
  refine freely_of_fuel fun k _ => ?_
  unfold AgreeAt
  rw [primary, peek_bind]
  simp only [hk, Literal.ofKind?]

theorem freely_primary_var (hk : s.peek.kind = .identifier) :
    AgreeAt s (freely primary) (do
      skip
      return .var (← freshId) s.peek.toLexeme) := by
  refine freely_of_fuel fun k _ => ?_
  unfold AgreeAt
  rw [primary, peek_bind]
  simp only [hk, Literal.ofKind?]

section

variable (hs : s.Proper) {n : Nat}

include hs

theorem assignment_eq_freely (hn : 4 * s.rest.length + 4 ≤ n) :
    AgreeAt s (assignment n) (freely assignment) :=
  eq_freely (fun m => (exprSettles m).assignment) (by omega) hs hn

theorem operand_eq_freely (level : Nat) (hn : 4 * s.rest.length + 3 ≤ n) :
    AgreeAt s (operand n level) (freely (operand · level)) :=
  eq_freely (fun m => (exprSettles m).operand level) (by omega) hs hn

theorem operators_eq_freely (level : Nat) (left : Expr) (hn : 4 * s.rest.length + 1 ≤ n) :
    AgreeAt s (operators n level left) (freely (operators · level left)) :=
  eq_freely (fun m => (exprSettles m).operators level left) (by omega) hs hn

theorem unary_eq_freely (hn : 4 * s.rest.length + 2 ≤ n) : AgreeAt s (unary n) (freely unary) :=
  eq_freely (fun m => (exprSettles m).unary) (by omega) hs hn

theorem calls_eq_freely (callee : Expr) (hn : 4 * s.rest.length + 3 ≤ n) :
    AgreeAt s (calls n callee) (freely (calls · callee)) :=
  eq_freely (fun m => (exprSettles m).calls callee) (by omega) hs hn

theorem arguments_eq_freely (hn : 4 * s.rest.length + 6 ≤ n) :
    AgreeAt s (arguments n) (freely arguments) :=
  eq_freely (fun m => (exprSettles m).arguments) (by omega) hs hn

theorem moreArguments_eq_freely (done : Array Expr) (hn : 4 * s.rest.length + 5 ≤ n) :
    AgreeAt s (moreArguments n done) (freely (moreArguments · done)) :=
  eq_freely (fun m => (exprSettles m).moreArguments done) (by omega) hs hn

theorem primary_eq_freely (hn : 4 * s.rest.length + 1 ≤ n) :
    AgreeAt s (primary n) (freely primary) :=
  eq_freely (fun m => (exprSettles m).primary) (by omega) hs hn

/-- The fuel that is given out is enough. -/
theorem expression_eq_freely : AgreeAt s expression (freely assignment) := by
  have hsize := hs.size
  have h : AgreeAt s expression (assignment s.fuel) := by rw [AgreeAt, expression]
  exact h.trans (assignment_eq_freely hs (by rw [Cursor.fuel]; omega))

theorem freely_assignment :
    AgreeAt s (freely assignment) (do
      let left ← freely (operand · 0)
      match ← accept (.punctuator .equal) with
      | none => return left
      | some mark => assignTo left mark.toLexeme (← freely assignment)) := by
  refine freely_of_fuel fun k hk => ?_
  refine AgreeAt.bind (operand_eq_freely hs 0 (by omega)) fun left s₁ h₁ => ?_
  have hm₁ := ((exprAdvances k).operand 0).of_ok h₁
  refine AgreeAt.bind rfl fun mark s₂ h₂ => ?_
  have hm₂ := hm₁.trans ((accept_advances _).of_ok h₂)
  have hle := hm₂.length_le
  cases mark with
  | none => exact .refl _ _
  | some mark =>
    exact AgreeAt.bind (assignment_eq_freely (hm₂.proper hs) (by omega)) fun _ _ _ => .refl _ _

theorem freely_operand (level : Nat) :
    AgreeAt s (freely (operand · level)) (do freely (operators · level (← freely unary))) := by
  refine freely_of_fuel fun k hk => ?_
  refine AgreeAt.bind (unary_eq_freely hs (by omega)) fun left s₁ h₁ => ?_
  have hm₁ := (exprAdvances k).unary.of_ok h₁
  have hle := hm₁.length_le
  exact operators_eq_freely (hm₁.proper hs) level left (by omega)

/-- How the operators of a level are read, without fuel. -/
theorem freely_operators (level : Nat) (left : Expr) :
    AgreeAt s (freely (operators · level left)) (do
      match ← acceptOperator level with
      | none => return left
      | some (op, mark) =>
        let right ← freely (operand · (op.level + 1))
        freely (operators · level (op.apply (← freshId) mark left right))) := by
  refine freely_of_fuel fun k hk => ?_
  refine AgreeAt.bind rfl fun found s₁ h₁ => ?_
  have hm₁ := (acceptOperator_advances _).of_ok h₁
  have hle₁ := hm₁.length_le
  match found with
  | none => exact .refl _ _
  | some (op, mark) =>
    refine AgreeAt.bind (operand_eq_freely (hm₁.proper hs) _ (by omega)) fun right s₂ h₂ => ?_
    have hm₂ := hm₁.trans (((exprAdvances k).operand _).of_ok h₂)
    refine AgreeAt.bind rfl fun id s₃ h₃ => ?_
    have hm₃ := hm₂.trans (freshId_advances.of_ok h₃)
    have hle₃ := hm₃.length_le
    exact operators_eq_freely (hm₃.proper hs) _ _ (by omega)

/-- How operators in front are read, without fuel. -/
theorem freely_unary :
    AgreeAt s (freely unary) (do
      match ← acceptUnary with
      | some (op, mark) =>
        let right ← freely unary
        return .unary (← freshId) op mark right
      | none => freely (calls · (← freely primary))) := by
  refine freely_of_fuel fun k hk => ?_
  refine AgreeAt.bind rfl fun found s₁ h₁ => ?_
  have hm₁ := acceptUnary_advances.of_ok h₁
  have hle₁ := hm₁.length_le
  match found with
  | some (op, mark) =>
    exact AgreeAt.bind (unary_eq_freely (hm₁.proper hs) (by omega)) fun _ _ _ => .refl _ _
  | none =>
    refine AgreeAt.bind (primary_eq_freely (hm₁.proper hs) (by omega)) fun callee s₂ h₂ => ?_
    have hm₂ := hm₁.trans ((exprAdvances k).primary.of_ok h₂)
    have hle₂ := hm₂.length_le
    exact calls_eq_freely (hm₂.proper hs) callee (by omega)

/-- A call is read on at its arguments. -/
theorem freely_calls_paren (callee : Expr) (hk : s.peek.kind = .punctuator .leftParen) :
    AgreeAt s (freely (calls · callee)) (do
      skip
      let arguments ← freely arguments
      let paren ← expectMark .rightParen .expectedArgumentsEnd
      freely (calls · (.call (← freshId) callee paren arguments))) := by
  refine freely_of_fuel fun k hn => ?_
  unfold AgreeAt
  rw [calls, peek_bind]
  simp only [hk]
  refine AgreeAt.bind rfl fun _ s₂ h₂ => ?_
  have hm₂ := skip_advances.of_ok h₂
  have hle₂ := hm₂.length_le
  refine AgreeAt.bind (arguments_eq_freely (hm₂.proper hs) (by omega)) fun arguments s₃ h₃ => ?_
  have hm₃ := hm₂.trans ((exprAdvances k).arguments.of_ok h₃)
  refine AgreeAt.bind rfl fun paren s₄ h₄ => ?_
  have hm₄ := hm₃.trans ((expectMark_advances _ _).of_ok h₄)
  refine AgreeAt.bind rfl fun id s₅ h₅ => ?_
  have hm₅ := hm₄.trans (freshId_advances.of_ok h₅)
  have hle₅ := hm₅.length_le
  exact calls_eq_freely (hm₅.proper hs) _ (by omega)

/-- A property is read on at its name. -/
theorem freely_calls_dot (callee : Expr) (hk : s.peek.kind = .punctuator .dot) :
    AgreeAt s (freely (calls · callee)) (do
      skip
      let name ← expect .identifier .expectedPropertyName
      freely (calls · (.get (← freshId) callee name))) := by
  refine freely_of_fuel fun k hn => ?_
  unfold AgreeAt
  rw [calls, peek_bind]
  simp only [hk]
  refine AgreeAt.bind rfl fun _ s₂ h₂ => ?_
  have hm₂ := skip_advances.of_ok h₂
  refine AgreeAt.bind rfl fun name s₃ h₃ => ?_
  have hm₃ := hm₂.trans ((expect_advances _ _).of_ok h₃)
  refine AgreeAt.bind rfl fun id s₄ h₄ => ?_
  have hm₄ := hm₃.trans (freshId_advances.of_ok h₄)
  have hle₄ := hm₄.length_le
  exact calls_eq_freely (hm₄.proper hs) _ (by omega)

theorem freely_arguments :
    AgreeAt s (freely arguments) (do
      if ← seesMark .rightParen then return []
      else freely (moreArguments · #[])) := by
  refine freely_of_fuel fun k hk => ?_
  refine AgreeAt.bind rfl fun closed s₁ h₁ => ?_
  cases h₁
  split
  · exact .refl _ _
  · exact moreArguments_eq_freely hs _ (by omega)

/-- How at least one more argument is read, without fuel. -/
theorem freely_moreArguments (done : Array Expr) :
    AgreeAt s (freely (moreArguments · done)) (do
      checkCount done.size .tooManyArguments
      let e ← freely assignment
      if (← accept (.punctuator .comma)).isSome then freely (moreArguments · (done.push e))
      else return (done.push e).toList) := by
  refine freely_of_fuel fun k hk => ?_
  rw [moreArguments_succ]
  refine AgreeAt.bind rfl fun _ s₁ h₁ => ?_
  have hm₁ := (checkCount_advances _ _).of_ok h₁
  have hle₁ := hm₁.length_le
  refine AgreeAt.bind (assignment_eq_freely (hm₁.proper hs) (by omega)) fun e s₂ h₂ => ?_
  have hm₂ := hm₁.trans ((exprAdvances k).assignment.of_ok h₂)
  refine AgreeAt.bind rfl fun comma s₃ h₃ => ?_
  have hm₃ := hm₂.trans ((accept_advances _).of_ok h₃)
  have hle₃ := hm₃.length_le
  split
  · exact moreArguments_eq_freely (hm₃.proper hs) _ (by omega)
  · exact .refl _ _

theorem freely_primary_paren (hk : s.peek.kind = .punctuator .leftParen) :
    AgreeAt s (freely primary) (do
      skip
      let inner ← freely assignment
      let _ ← expectMark .rightParen .expectedGroupingEnd
      return .grouping (← freshId) inner) := by
  refine freely_of_fuel fun k hn => ?_
  unfold AgreeAt
  rw [primary, peek_bind]
  simp only [hk, Literal.ofKind?]
  refine AgreeAt.bind rfl fun _ s₂ h₂ => ?_
  have hm₂ := skip_advances.of_ok h₂
  have hle₂ := hm₂.length_le
  exact AgreeAt.bind (assignment_eq_freely (hm₂.proper hs) (by omega)) fun _ _ _ => .refl _ _

end

end Lox.Read
