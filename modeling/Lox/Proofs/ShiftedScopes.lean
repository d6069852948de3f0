import Mathlib
import Lox.Proofs.Relabelling
import Lox.Proofs.RenamedScopes

/-!
# One scope more

A tree can stand in two places that differ in one scope: in the second there is an additional one,
in which nothing is declared, somewhere around the tree. Names then mean the same in both places,
but those that are declared outside the additional scope are one scope further away. Where it lies
is said by a *gap* (`Gap`): the number of scopes between it and the point at hand.

The two trees have distances of their own, so they have identities of their own as well: one is a
relabelled copy of the other. We call the place without the additional scope *direct*.

* `Spread`: two lists of scopes, the second with an additional one;
* `Expr.Shifted`, `Stmt.Shifted`: the distances of a tree are those of its copy, shifted beyond the
  gap;
* `Stmt.shifted_of_resolved`: if both are resolved, distances are shifted;
* `Stmt.resolved_of_gaps`: if a tree is resolved, so is the copy with the distances shifted back.
-/

namespace Lox

/-! ### Copies -/

mutual

/-- A tree is a copy of itself. -/
theorem Expr.relabel_self : (e : Expr) → e.relabel (.ofIds fun i => i) = e
  | .literal _ _ => rfl
  | .unary _ _ _ right => by rw [relabel, right.relabel_self]; rfl
  | .binary _ _ _ left right => by rw [relabel, left.relabel_self, right.relabel_self]; rfl
  | .logical _ _ _ left right => by rw [relabel, left.relabel_self, right.relabel_self]; rfl
  | .grouping _ inner => by rw [relabel, inner.relabel_self]; rfl
  | .var _ _ => rfl
  | .assign _ _ value => by rw [relabel, value.relabel_self]; rfl
  | .call _ callee _ arguments => by
    rw [relabel, callee.relabel_self, Expr.relabelAll_self arguments]; rfl
  | .get _ object _ => by rw [relabel, object.relabel_self]; rfl
  | .set _ object _ value => by rw [relabel, object.relabel_self, value.relabel_self]; rfl
  | .this _ _ => rfl
  | .super _ _ _ => rfl

theorem Expr.relabelAll_self : (es : List Expr) → Expr.relabelAll (.ofIds fun i => i) es = es
  | [] => rfl
  | e :: rest => by rw [relabelAll, e.relabel_self, Expr.relabelAll_self rest]

end

theorem Expr.map_relabel_self (e : Option Expr) : e.map (Expr.relabel (.ofIds fun i => i)) = e := by
  cases e with
  | none => rfl
  | some e => exact congrArg some e.relabel_self

mutual

/-- A statement is a copy of itself. -/
theorem Stmt.relabel_self : (s : Stmt) → s.relabel (.ofIds fun i => i) = s
  | .expression e => by rw [relabel, e.relabel_self]
  | .print e => by rw [relabel, e.relabel_self]
  | .var _ initial => by rw [relabel, Expr.map_relabel_self initial]; rfl
  | .block body => by rw [relabel, Stmt.relabelAll_self body]
  | .branch condition yes no => by
    rw [relabel, condition.relabel_self, yes.relabel_self, Stmt.relabelOption_self no]
  | .loop condition body => by rw [relabel, condition.relabel_self, body.relabel_self]
  | .function decl => by rw [relabel, Stmt.relabelDecl_self decl]
  | .ret _ value => by rw [relabel, Expr.map_relabel_self value]; rfl
  | .classDecl _ superclass methods => by
    rw [relabel, Stmt.relabelDecls_self methods]
    cases superclass <;> rfl

theorem Stmt.relabelAll_self : (body : List Stmt) → Stmt.relabelAll (.ofIds fun i => i) body = body
  | [] => rfl
  | s :: rest => by rw [relabelAll, s.relabel_self, Stmt.relabelAll_self rest]

theorem Stmt.relabelOption_self : (s : Option Stmt) → Stmt.relabelOption (.ofIds fun i => i) s = s
  | none => rfl
  | some s => by rw [relabelOption, s.relabel_self]

theorem Stmt.relabelDecl_self : (decl : FunctionDecl Stmt) →
    Stmt.relabelDecl (.ofIds fun i => i) decl = decl
  | ⟨name, params, body⟩ => by
    rw [relabelDecl, Stmt.relabelAll_self body]
    exact congrArg (FunctionDecl.mk name · body) (List.map_id' params)

theorem Stmt.relabelDecls_self :
    (decls : List (FunctionDecl Stmt)) → Stmt.relabelDecls (.ofIds fun i => i) decls = decls
  | [] => rfl
  | decl :: rest => by rw [relabelDecls, Stmt.relabelDecl_self decl, Stmt.relabelDecls_self rest]

end

/-- A copy declares the same name. -/
theorem Stmt.declares?_relabel (f : Nat → Nat) (s : Stmt) :
    (s.relabel (.ofIds f)).declares? = s.declares? := by
  cases s with
  | function decl => cases decl; rfl
  | _ => rfl

/-! ### Gaps -/

/-- Where the additional scope lies around a point: so many scopes further out, or nowhere. -/
abbrev Gap := Option Nat

namespace Gap

/-- The gap at a point with one more scope around it. -/
def inner (k : Gap) : Gap := k.map (· + 1)

/-- The distance with the additional scope, given that without it. -/
def shift : Gap → Nat → Nat
  | none, n => n
  | some k, n => if n < k then n else n + 1

/-- The distance without the additional scope, given that with it. -/
def unshift : Gap → Nat → Nat
  | none, n => n
  | some k, n => if n < k then n else n - 1

@[simp]
theorem shift_zero (n : Nat) : shift (some 0) n = n + 1 := rfl

@[simp]
theorem shift_inner_zero (k : Gap) : k.inner.shift 0 = 0 := by
  cases k with
  | none => rfl
  | some k => simp [inner, shift]

@[simp]
theorem shift_inner_succ (k : Gap) (n : Nat) : k.inner.shift (n + 1) = k.shift n + 1 := by
  cases k with
  | none => rfl
  | some k =>
    change (if n + 1 < k + 1 then n + 1 else n + 1 + 1) = (if n < k then n else n + 1) + 1
    split <;> split <;> omega

@[simp]
theorem unshift_shift (k : Gap) (n : Nat) : k.unshift (k.shift n) = n := by
  cases k with
  | none => rfl
  | some k =>
    by_cases hn : n < k
    · rw [show shift (some k) n = n from if_pos hn]
      exact if_pos hn
    · rw [show shift (some k) n = n + 1 from if_neg hn]
      exact if_neg fun hlt => hn (Nat.lt_of_succ_lt hlt)

/-- Two scopes next to each other stay so, unless the additional one lies between them. -/
theorem shift_succ {k : Gap} {n : Nat} (h : k ≠ some (n + 1)) :
    k.shift (n + 1) = k.shift n + 1 := by
  cases k with
  | none => rfl
  | some k =>
    have hne : k ≠ n + 1 := fun hk => h (congrArg some hk)
    simp only [shift]
    split <;> split <;> omega

theorem shift_zero_of_ne {k : Gap} (h : k ≠ some 0) : k.shift 0 = 0 := by
  cases k with
  | none => rfl
  | some k => exact if_pos (Nat.pos_of_ne_zero fun hk => h (congrArg some hk))

@[simp]
theorem inner_ne_zero (k : Gap) : k.inner ≠ some 0 := by
  cases k with
  | none => exact nofun
  | some k => exact fun h => nomatch h

end Gap

/-- Two lists of scopes, of which the second has an additional scope at the gap. -/
inductive Spread : Gap → Scopes → Scopes → Prop
  | same (scopes : Scopes) : Spread none scopes scopes
  | additional (scopes : Scopes) : Spread (some 0) scopes (∅ :: scopes)
  | cons {k : Nat} {scopes scopes' : Scopes} (scope : Scope) : Spread (some k) scopes scopes' →
      Spread (some (k + 1)) (scope :: scopes) (scope :: scopes')

namespace Spread

variable {k : Gap} {scopes scopes' : Scopes}

theorem inner (h : Spread k scopes scopes') (scope : Scope) :
    Spread k.inner (scope :: scopes) (scope :: scopes') := by
  cases k with
  | none =>
    cases h
    exact .same _
  | some k => exact h.cons scope

/-- A name is declared in the same scope, which is further out if it lies beyond the gap. -/
theorem distance? (h : Spread k scopes scopes') (x : String) :
    scopes'.distance? x = (scopes.distance? x).map k.shift := by
  induction h with
  | same scopes => exact Option.map_id'.symm
  | additional scopes =>
    rw [Scopes.distance?_cons, if_neg (by exact Bool.false_ne_true)]
    exact congrArg (Option.map · _) (funext fun n => (Gap.shift_zero n).symm)
  | @cons k scopes scopes' scope _ ih =>
    rw [Scopes.distance?_cons, Scopes.distance?_cons, ih]
    split
    · exact congrArg some (Gap.shift_inner_zero (some k)).symm
    · rw [Option.map_map, Option.map_map]
      exact congrArg (Option.map · _) (funext fun n => (Gap.shift_inner_succ (some k) n).symm)

/-- A scope has declared the same names in both places. -/
theorem at? (h : Spread k scopes scopes') (n : Nat) (x : String) :
    scopes'.at? (k.shift n) x = scopes.at? n x := by
  induction h generalizing n with
  | same scopes => rfl
  | additional scopes => rw [Gap.shift_zero, Scopes.at?_succ]
  | @cons k scopes scopes' scope _ ih =>
    cases n with
    | zero =>
      rw [show Gap.shift (some (k + 1)) 0 = 0 from Gap.shift_inner_zero (some k)]
      rfl
    | succ n =>
      rw [show Gap.shift (some (k + 1)) (n + 1) = Gap.shift (some k) n + 1 from
        Gap.shift_inner_succ (some k) n]
      exact ih n

/-- Nothing is declared in the additional scope. -/
theorem at?_gap {k : Nat} (h : Spread (some k) scopes scopes') (x : String) :
    scopes'.at? k x = none := by
  generalize hk : (some k : Gap) = gap at h
  induction h generalizing k with
  | same scopes => cases hk
  | additional scopes =>
    cases hk
    rfl
  | cons scope _ ih =>
    cases hk
    exact ih rfl

/-- The additional scope does not come between those of `super` and `this`, since it binds
    neither. -/
theorem super (h : Spread k scopes scopes') {n' : Nat}
    (hsuper : scopes'.distance? "super" = some (n' + 1))
    (hthis : scopes'.at? n' "this" = some true) :
    ∃ n, scopes.distance? "super" = some (n + 1) ∧ k.shift (n + 1) = k.shift n + 1 ∧
      scopes.at? n "this" = some true := by
  rw [h.distance?] at hsuper
  obtain ⟨distance, hd, hshift⟩ := Option.map_eq_some_iff.1 hsuper
  have hgap : k ≠ some n' := by
    rintro rfl
    exact nomatch (h.at?_gap "this").symm.trans hthis
  cases distance with
  | zero =>
    -- The additional scope would be the innermost one.
    cases k with
    | none => cases hshift
    | some k =>
      refine absurd (congrArg some ?_) hgap
      simp only [Gap.shift] at hshift
      split at hshift <;> omega
  | succ n =>
    have hsucc : k.shift (n + 1) = k.shift n + 1 := by
      refine Gap.shift_succ ?_
      rintro rfl
      refine hgap (congrArg some ?_)
      simp only [Gap.shift] at hshift
      split at hshift <;> omega
    refine ⟨n, hd, hsucc, ?_⟩
    rw [← h.at?, ← Nat.succ.inj (hsucc.symm.trans hshift).symm, hthis]

/-- A name is declared in both places. -/
theorem bind (h : Spread k scopes scopes') (hk : k ≠ some 0) (x : String) (isDefined : Bool) :
    Spread k (scopes.bind x isDefined) (scopes'.bind x isDefined) := by
  cases h with
  | same scopes => exact .same _
  | additional scopes => exact absurd rfl hk
  | cons scope h => exact h.cons _

theorem scopesAfter (h : Spread k scopes scopes') {s : Stmt}
    (hk : k = some 0 → s.declares? = none) :
    Spread k (s.scopesAfter scopes) (s.scopesAfter scopes') := by
  rw [Stmt.scopesAfter, Stmt.scopesAfter]
  cases hs : s.declares? with
  | none => exact h
  | some name => exact h.bind (fun hzero => nomatch hs.symm.trans (hk hzero)) _ _

end Spread

/-! ### Shifted distances -/

/-- The distances of a tree in two places. -/
structure Views where
  /-- Those in the direct place. -/
  direct : Distances
  /-- Those with the additional scope. -/
  spread : Distances

/-- The distance of the expression `id'` is that of its copy `id`, shifted beyond the gap. -/
def Views.Shifts (V : Views) (k : Gap) (id id' : Nat) :
    Prop := V.spread[id']? = V.direct[id]?.map k.shift

/-- So is the distance of `super`, and the additional scope does not come between it and `this`. -/
def Views.ShiftsSuper (V : Views) (k : Gap) (id id' : Nat) : Prop :=
  V.Shifts k id id' ∧ ∀ distance, V.direct[id]? = some distance →
    ∃ n, distance = n + 1 ∧ k.shift (n + 1) = k.shift n + 1

namespace Expr

mutual

/-- The distances of an expression are those of its copy, shifted beyond the gap. -/
def Shifted (V : Views) (f : Nat → Nat) (k : Gap) : Expr → Prop
  | literal _ _ => True
  | unary _ _ _ right => right.Shifted V f k
  | binary _ _ _ left right => left.Shifted V f k ∧ right.Shifted V f k
  | logical _ _ _ left right => left.Shifted V f k ∧ right.Shifted V f k
  | grouping _ inner => inner.Shifted V f k
  | var id _ => V.Shifts k (f id) id
  | assign id _ value => V.Shifts k (f id) id ∧ value.Shifted V f k
  | call _ callee _ arguments => callee.Shifted V f k ∧ AllShifted V f k arguments
  | get _ object _ => object.Shifted V f k
  | set _ object _ value => object.Shifted V f k ∧ value.Shifted V f k
  | this id _ => V.Shifts k (f id) id
  | super id _ _ => V.ShiftsSuper k (f id) id

/-- The distances of all of the expressions are shifted. -/
def AllShifted (V : Views) (f : Nat → Nat) (k : Gap) : List Expr → Prop
  | [] => True
  | e :: rest => e.Shifted V f k ∧ AllShifted V f k rest

end

/-- The distances of an expression are shifted, or it is missing. -/
def OptionShifted (V : Views) (f : Nat → Nat) (k : Gap) (e : Option Expr) : Prop :=
  ∀ e' ∈ e, e'.Shifted V f k

end Expr

/-- The gap inside the scopes around the methods of a class. -/
def Gap.inClass (k : Gap) (superclass : Option VarRef) : Gap :=
  match superclass with
  | none => k.inner
  | some _ => k.inner.inner

namespace Stmt

mutual

/-- The distances of a statement are those of its copy, shifted beyond the gap. The additional scope
    is not the innermost one where something is declared. -/
def Shifted (V : Views) (f : Nat → Nat) (k : Gap) : Stmt → Prop
  | expression e => e.Shifted V f k
  | print e => e.Shifted V f k
  | var _ initial => k ≠ some 0 ∧ Expr.OptionShifted V f k initial
  | block body => AllShifted V f k.inner body
  | branch condition yes no =>
    condition.Shifted V f k ∧ yes.Shifted V f k ∧ OptionShifted V f k no
  | loop condition body => condition.Shifted V f k ∧ body.Shifted V f k
  | .function decl => k ≠ some 0 ∧ DeclShifted V f k decl
  | ret _ value => Expr.OptionShifted V f k value
  | classDecl _ superclass methods =>
    k ≠ some 0 ∧ (∀ ref ∈ superclass, V.Shifts k (f ref.id) ref.id) ∧
    DeclsShifted V f (k.inClass superclass) methods

/-- The distances of all of the statements are shifted. -/
def AllShifted (V : Views) (f : Nat → Nat) (k : Gap) : List Stmt → Prop
  | [] => True
  | s :: rest => s.Shifted V f k ∧ AllShifted V f k rest

/-- The distances of a statement are shifted, or it is missing. -/
def OptionShifted (V : Views) (f : Nat → Nat) (k : Gap) : Option Stmt → Prop
  | none => True
  | some s => s.Shifted V f k

/-- The distances of a body are shifted, which has a scope of its own. -/
def DeclShifted (V : Views) (f : Nat → Nat) (k : Gap) : FunctionDecl Stmt → Prop
  | ⟨_, _, body⟩ => AllShifted V f k.inner body

/-- The distances of all of the bodies are shifted. -/
def DeclsShifted (V : Views) (f : Nat → Nat) (k : Gap) : List (FunctionDecl Stmt) → Prop
  | [] => True
  | decl :: rest => DeclShifted V f k decl ∧ DeclsShifted V f k rest

end

theorem DeclShifted.body {V : Views} {f : Nat → Nat} {k : Gap} {decl : FunctionDecl Stmt}
    (h : DeclShifted V f k decl) : AllShifted V f k.inner decl.body := by
  obtain ⟨name, params, body⟩ := decl
  exact h

end Stmt

/-! ### Distances of resolved trees -/

section

variable {T T' : Table} {f : Nat → Nat} {k : Gap} {scopes scopes' : Scopes}

theorem Spread.shifts (h : Spread k scopes scopes') {id id' : Nat} {x : String}
    (hd : T.Refers scopes id x) (hs : T'.Refers scopes' id' x) :
    Views.Shifts ⟨T.distances, T'.distances⟩ k id id' := by
  rw [Views.Shifts, hs.distance, hd.distance]
  exact h.distance? x

mutual

/-- If an expression and its copy are resolved, distances are shifted. -/
theorem Expr.shifted_of_resolved (h : Spread k scopes scopes') : (e : Expr) →
    (e.relabel (.ofIds f)).Resolved T scopes → e.Resolved T' scopes' →
      e.Shifted ⟨T.distances, T'.distances⟩ f k
  | .literal _ _, _, _ => trivial
  | .unary _ _ _ right, hd, hs => Expr.shifted_of_resolved h right hd hs
  | .binary _ _ _ left right, hd, hs =>
    ⟨Expr.shifted_of_resolved h left hd.1 hs.1, Expr.shifted_of_resolved h right hd.2 hs.2⟩
  | .logical _ _ _ left right, hd, hs =>
    ⟨Expr.shifted_of_resolved h left hd.1 hs.1, Expr.shifted_of_resolved h right hd.2 hs.2⟩
  | .grouping _ inner, hd, hs => Expr.shifted_of_resolved h inner hd hs
  | .var _ _, hd, hs => h.shifts hd.2.toRefers hs.2.toRefers
  | .assign _ _ value, hd, hs =>
    ⟨h.shifts hd.1.2 hs.1.2, Expr.shifted_of_resolved h value hd.2 hs.2⟩
  | .call _ callee _ arguments, hd, hs =>
    ⟨Expr.shifted_of_resolved h callee hd.1 hs.1, Expr.allShifted_of_resolved h arguments hd.2 hs.2⟩
  | .get _ object _, hd, hs => Expr.shifted_of_resolved h object hd hs
  | .set _ object _ value, hd, hs =>
    ⟨Expr.shifted_of_resolved h object hd.1 hs.1, Expr.shifted_of_resolved h value hd.2 hs.2⟩
  | .this _ _, hd, hs => h.shifts hd.2.1.toRefers hs.2.1.toRefers
  | .super _ _ _, ⟨_, hd, _⟩, ⟨_, hs, _, hn', hthis⟩ => by
    obtain ⟨n, hn, hshift, -⟩ := h.super hn' hthis
    refine ⟨h.shifts hd.toRefers hs.toRefers, fun distance hdistance => ⟨n, ?_, hshift⟩⟩
    exact Option.some.inj (hdistance.symm.trans (hd.distance.trans hn))

theorem Expr.allShifted_of_resolved (h : Spread k scopes scopes') : (es : List Expr) →
    Expr.AllResolved T scopes (Expr.relabelAll (.ofIds f) es) → Expr.AllResolved T' scopes' es →
      Expr.AllShifted ⟨T.distances, T'.distances⟩ f k es
  | [], _, _ => trivial
  | e :: rest, hd, hs =>
    ⟨Expr.shifted_of_resolved h e hd.1 hs.1, Expr.allShifted_of_resolved h rest hd.2 hs.2⟩

end

theorem Expr.optionShifted_of_resolved (h : Spread k scopes scopes') {e : Option Expr}
    (hd : Expr.OptionResolved T scopes (e.map (Expr.relabel (.ofIds f))))
    (hs : Expr.OptionResolved T' scopes' e) :
    Expr.OptionShifted ⟨T.distances, T'.distances⟩ f k e := by
  intro e' he'
  exact Expr.shifted_of_resolved h e' (hd _ (Option.mem_map_of_mem _ he')) (hs e' he')

/-- The scopes of a body in both places. -/
theorem Spread.ofNames (h : Spread k scopes scopes') (params : List Lexeme) :
    Spread k.inner (Scope.ofNames (params.map (Lexeme.relabel (.ofIds f))) :: scopes)
      (Scope.ofNames params :: scopes') := by
  rw [show params.map (Lexeme.relabel (.ofIds f)) = params from List.map_id' params]
  exact h.inner _

/-- The scopes around the methods of a class in both places. -/
theorem Spread.classScopes (h : Spread k scopes scopes') (hk : k ≠ some 0) (name : Lexeme)
    (superclass : Option VarRef) :
    Spread (k.inClass superclass)
      (classScopes (name.relabel (.ofIds f)) (superclass.map (.relabel (.ofIds f))) scopes)
      (Lox.classScopes name superclass scopes') := by
  cases superclass with
  | none => exact (h.bind hk _ _).inner _
  | some ref => exact ((h.bind hk _ _).inner _).inner _

mutual

/-- If a statement and its copy are resolved in both places, its distances are those of the copy,
    shifted beyond the gap. -/
theorem Stmt.shifted_of_resolved {k : Gap} {within : FunctionScope} {scopes scopes' : Scopes}
    (h : Spread k scopes scopes') : (s : Stmt) → (k = some 0 → s.declares? = none) →
      (s.relabel (.ofIds f)).Resolved T within scopes → s.Resolved T' within scopes' →
        s.Shifted ⟨T.distances, T'.distances⟩ f k
  | .expression e, _, hd, hs => Expr.shifted_of_resolved h e hd hs
  | .print e, _, hd, hs => Expr.shifted_of_resolved h e hd hs
  | .var _ _, hk, hd, hs =>
    have hne : k ≠ some 0 := fun hzero => nomatch hk hzero
    ⟨hne, Expr.optionShifted_of_resolved (h.bind hne _ _) hd.2 hs.2⟩
  | .block body, _, hd, hs => Stmt.allShifted_of_resolved (h.inner ∅) body k.inner_ne_zero hd hs
  | .branch condition yes no, _, hd, hs =>
    ⟨Expr.shifted_of_resolved h condition hd.1 hs.1,
      Stmt.shifted_of_resolved h yes (fun _ => hs.2.1.2) hd.2.1.1 hs.2.1.1,
      Stmt.optionShifted_of_resolved h no hd.2.2 hs.2.2⟩
  | .loop condition body, _, hd, hs =>
    ⟨Expr.shifted_of_resolved h condition hd.1 hs.1,
      Stmt.shifted_of_resolved h body (fun _ => hs.2.2) hd.2.1 hs.2.1⟩
  | .function ⟨name, params, body⟩, hk, hd, hs =>
    have hne : k ≠ some 0 := fun hzero => nomatch hk hzero
    ⟨hne, Stmt.declShifted_of_resolved (h.bind hne _ _) ⟨name, params, body⟩ hd.2 hs.2⟩
  | .ret _ _, _, hd, hs => Expr.optionShifted_of_resolved h hd.2 hs.2
  | .classDecl name superclass methods, hk, hd, hs => by
    have hne : k ≠ some 0 := fun hzero => nomatch hk hzero
    refine ⟨hne, fun ref href => ?_,
      Stmt.declsShifted_of_resolved (h.classScopes hne name superclass) methods
      hd.2.2 hs.2.2⟩
    have hcopy := hd.2.1 _ (Option.mem_map_of_mem (VarRef.relabel (.ofIds f)) href)
    exact (h.bind hne _ _).shifts hcopy.2.toRefers (hs.2.1 ref href).2.toRefers

/-- If statements and their copies are resolved, distances are shifted. -/
theorem Stmt.allShifted_of_resolved {k : Gap} {within : FunctionScope} {scopes scopes' : Scopes}
    (h : Spread k scopes scopes') : (body : List Stmt) → k ≠ some 0 →
      Stmt.AllResolved T within scopes (Stmt.relabelAll (.ofIds f) body) →
        Stmt.AllResolved T' within scopes' body →
        Stmt.AllShifted ⟨T.distances, T'.distances⟩ f k body
  | [], _, _, _ => trivial
  | s :: rest, hk, hd, hs => by
    have hdecl : k = some 0 → s.declares? = none := fun hzero => absurd hzero hk
    have hrest := hd.2
    rw [Stmt.scopesAfter, Stmt.declares?_relabel] at hrest
    exact ⟨Stmt.shifted_of_resolved h s hdecl hd.1 hs.1,
      Stmt.allShifted_of_resolved (h.scopesAfter hdecl) rest hk hrest hs.2⟩

theorem Stmt.optionShifted_of_resolved {k : Gap} {within : FunctionScope} {scopes scopes' : Scopes}
    (h : Spread k scopes scopes') : (s : Option Stmt) →
      Stmt.OptionResolved T within scopes (Stmt.relabelOption (.ofIds f) s) →
        Stmt.OptionResolved T' within scopes' s →
        Stmt.OptionShifted ⟨T.distances, T'.distances⟩ f k s
  | none, _, _ => trivial
  | some s, hd, hs => Stmt.shifted_of_resolved h s (fun _ => hs.2) hd.1 hs.1

theorem Stmt.declShifted_of_resolved {k : Gap} {within : FunctionScope} {scopes scopes' : Scopes}
    (h : Spread k scopes scopes') : (decl : FunctionDecl Stmt) →
      Stmt.DeclResolved T within scopes (Stmt.relabelDecl (.ofIds f) decl) →
        Stmt.DeclResolved T' within scopes' decl →
        Stmt.DeclShifted ⟨T.distances, T'.distances⟩ f k decl
  | ⟨_, params, body⟩, hd, hs =>
    Stmt.allShifted_of_resolved (h.ofNames params) body k.inner_ne_zero hd.2 hs.2

theorem Stmt.declsShifted_of_resolved {k : Gap} {scopes scopes' : Scopes}
    (h : Spread k scopes scopes') : (decls : List (FunctionDecl Stmt)) →
      Stmt.MethodsResolved T scopes (Stmt.relabelDecls (.ofIds f) decls) →
        Stmt.MethodsResolved T' scopes' decls →
        Stmt.DeclsShifted ⟨T.distances, T'.distances⟩ f k decls
  | [], _, _ => trivial
  | ⟨name, params, body⟩ :: rest, hd, hs =>
    ⟨Stmt.declShifted_of_resolved h ⟨name, params, body⟩ hd.1 hs.1,
      Stmt.declsShifted_of_resolved h rest hd.2 hs.2⟩

end

end

/-! ### Twins

Code of the direct place, and the code that it is a copy of. -/

section

variable (V : Views) (k : Gap)

def Expr.Twin (e e' : Expr) : Prop := ∃ f, e = e'.relabel (.ofIds f) ∧ e'.Shifted V f k

def Expr.AllTwin (es es' : List Expr) : Prop :=
  ∃ f, es = Expr.relabelAll (.ofIds f) es' ∧ Expr.AllShifted V f k es'

def Stmt.Twin (s s' : Stmt) : Prop := ∃ f, s = s'.relabel (.ofIds f) ∧ s'.Shifted V f k

def Stmt.AllTwin (body body' : List Stmt) : Prop :=
  ∃ f, body = Stmt.relabelAll (.ofIds f) body' ∧ Stmt.AllShifted V f k body'

def Stmt.OptionTwin (s s' : Option Stmt) : Prop :=
  ∃ f, s = Stmt.relabelOption (.ofIds f) s' ∧ Stmt.OptionShifted V f k s'

def Stmt.DeclTwin (decl decl' : FunctionDecl Stmt) : Prop :=
  ∃ f, decl = Stmt.relabelDecl (.ofIds f) decl' ∧ Stmt.DeclShifted V f k decl'

end

section

variable {T T' : Table} (hT : T.Extends T') {scopes : Scopes} {within : FunctionScope}
include hT

/-! Code that stands in one place only is its own twin, also if other code comes later. -/

theorem Table.Refers.shifts {id : Nat} {x : String} (h : T'.Refers scopes id x) :
    Views.Shifts ⟨T.distances, T'.distances⟩ none id id :=
  (Spread.same scopes).shifts (h.mono hT) h

theorem Expr.Resolved.twin {e : Expr} (h : e.Resolved T' scopes) :
    Expr.Twin ⟨T.distances, T'.distances⟩ none e e := by
  refine ⟨fun i => i, e.relabel_self.symm, Expr.shifted_of_resolved (.same scopes) e ?_ h⟩
  rw [Expr.relabel_self]
  exact Expr.Resolved.mono hT e h

theorem Expr.AllResolved.twin {es : List Expr} (h : Expr.AllResolved T' scopes es) :
    Expr.AllTwin ⟨T.distances, T'.distances⟩ none es es := by
  refine ⟨fun i => i, (Expr.relabelAll_self es).symm,
    Expr.allShifted_of_resolved (.same scopes) es ?_ h⟩
  rw [Expr.relabelAll_self]
  exact Expr.AllResolved.mono hT es h

theorem Stmt.Resolved.twin {s : Stmt} (h : s.Resolved T' within scopes) :
    Stmt.Twin ⟨T.distances, T'.distances⟩ none s s := by
  refine ⟨fun i => i, s.relabel_self.symm, Stmt.shifted_of_resolved (.same scopes) s nofun ?_ h⟩
  rw [Stmt.relabel_self]
  exact Stmt.Resolved.mono hT s h

theorem Stmt.AllResolved.twin {body : List Stmt} (h : Stmt.AllResolved T' within scopes body) :
    Stmt.AllTwin ⟨T.distances, T'.distances⟩ none body body := by
  refine ⟨fun i => i, (Stmt.relabelAll_self body).symm,
    Stmt.allShifted_of_resolved (.same scopes) body nofun ?_ h⟩
  rw [Stmt.relabelAll_self]
  exact Stmt.AllResolved.mono hT body h

theorem Stmt.OptionResolved.twin {s : Option Stmt} (h : Stmt.OptionResolved T' within scopes s) :
    Stmt.OptionTwin ⟨T.distances, T'.distances⟩ none s s := by
  refine ⟨fun i => i, (Stmt.relabelOption_self s).symm,
    Stmt.optionShifted_of_resolved (.same scopes) s ?_ h⟩
  rw [Stmt.relabelOption_self]
  exact Stmt.OptionResolved.mono hT s h

theorem Stmt.DeclResolved.twin {decl : FunctionDecl Stmt}
    (h : Stmt.DeclResolved T' within scopes decl) :
    Stmt.DeclTwin ⟨T.distances, T'.distances⟩ none decl decl := by
  refine ⟨fun i => i, (Stmt.relabelDecl_self decl).symm,
    Stmt.declShifted_of_resolved (.same scopes) decl ?_ h⟩
  rw [Stmt.relabelDecl_self]
  exact Stmt.DeclResolved.mono hT decl h

end

/-! ### Shifting back -/

namespace Stmt

mutual

/-- The identities in a statement, each with the gap at its place. -/
def gaps (k : Gap) : Stmt → List (Nat × Gap)
  | expression e => e.ids.map (·, k)
  | print e => e.ids.map (·, k)
  | var _ initial => (Expr.idsOption initial).map (·, k)
  | block body => gapsAll k.inner body
  | branch condition yes no => condition.ids.map (·, k) ++ yes.gaps k ++ gapsOption k no
  | loop condition body => condition.ids.map (·, k) ++ body.gaps k
  | .function decl => gapsDecl k decl
  | ret _ value => (Expr.idsOption value).map (·, k)
  | classDecl _ superclass methods =>
    (superclass.map VarRef.id).toList.map (·, k) ++ gapsDecls (k.inClass superclass) methods

/-- The identities in statements, each with the gap at its place. -/
def gapsAll (k : Gap) : List Stmt → List (Nat × Gap)
  | [] => []
  | s :: rest => s.gaps k ++ gapsAll k rest

def gapsOption (k : Gap) : Option Stmt → List (Nat × Gap)
  | none => []
  | some s => s.gaps k

def gapsDecl (k : Gap) : FunctionDecl Stmt → List (Nat × Gap)
  | ⟨_, _, body⟩ => gapsAll k.inner body

def gapsDecls (k : Gap) : List (FunctionDecl Stmt) → List (Nat × Gap)
  | [] => []
  | decl :: rest => gapsDecl k decl ++ gapsDecls k rest

end

theorem map_fst_pairs (ids : List Nat) (k : Gap) : (ids.map (·, k)).map Prod.fst = ids := by
  rw [List.map_map]
  exact List.map_id' ids

mutual

/-- The identities with gaps are those of the statement. -/
theorem map_fst_gaps (k : Gap) : (s : Stmt) → (s.gaps k).map Prod.fst = s.ids
  | expression e => map_fst_pairs e.ids k
  | print e => map_fst_pairs e.ids k
  | var _ initial => map_fst_pairs (Expr.idsOption initial) k
  | block body => map_fst_gapsAll k.inner body
  | branch condition yes no => by
    rw [gaps, List.map_append, List.map_append, map_fst_pairs, yes.map_fst_gaps,
      map_fst_gapsOption, ids]
  | loop condition body => by rw [gaps, List.map_append, map_fst_pairs, body.map_fst_gaps, ids]
  | .function decl => map_fst_gapsDecl k decl
  | ret _ value => map_fst_pairs (Expr.idsOption value) k
  | classDecl _ superclass methods => by
      rw [gaps, List.map_append, map_fst_pairs, map_fst_gapsDecls, ids]

theorem map_fst_gapsAll (k : Gap) : (body : List Stmt) → (gapsAll k body).map Prod.fst = idsAll body
  | [] => rfl
  | s :: rest => by rw [gapsAll, List.map_append, s.map_fst_gaps, map_fst_gapsAll, idsAll]

theorem map_fst_gapsOption (k : Gap) : (s : Option Stmt) →
    (gapsOption k s).map Prod.fst = idsOption s
  | none => rfl
  | some s => s.map_fst_gaps k

theorem map_fst_gapsDecl (k : Gap) : (decl : FunctionDecl Stmt) →
    (gapsDecl k decl).map Prod.fst = idsDecl decl
  | ⟨_, _, body⟩ => map_fst_gapsAll k.inner body

theorem map_fst_gapsDecls (k : Gap) :
    (decls : List (FunctionDecl Stmt)) → (gapsDecls k decls).map Prod.fst = idsDecls decls
  | [] => rfl
  | decl :: rest => by
      rw [gapsDecls, List.map_append, map_fst_gapsDecl, map_fst_gapsDecls, idsDecls]

end

end Stmt

/-- The copy of an expression has its distance, shifted back. -/
structure Table.Unshifts (T T' : Table) (f : Nat → Nat) (k : Gap) (id : Nat) : Prop where
  lt_bound : f id < T.bound
  distance : T.distances[f id]? = T'.distances[id]?.map k.unshift

section

variable {T T' : Table} {f : Nat → Nat} {k : Gap} {scopes scopes' : Scopes}

theorem Spread.refers (h : Spread k scopes scopes') {id : Nat} {x : String}
    (hs : T'.Refers scopes' id x) (hu : T.Unshifts T' f k id) : T.Refers scopes (f id) x := by
  refine ⟨hu.lt_bound, ?_⟩
  rw [hu.distance, hs.distance, h.distance?, Option.map_map]
  cases scopes.distance? x with
  | none => rfl
  | some n => exact congrArg some (k.unshift_shift n)

theorem Spread.reads (h : Spread k scopes scopes') {id : Nat} {x : String}
    (hs : T'.Reads scopes' id x) (hu : T.Unshifts T' f k id) : T.Reads scopes (f id) x := by
  refine ⟨h.refers hs.toRefers hu, fun distance hd => ?_⟩
  rw [← h.at?]
  exact hs.isDefined _ (by rw [h.distance?, hd]; rfl)

theorem Spread.admits (h : Spread k scopes scopes') (hk : k ≠ some 0) {name : Lexeme}
    (hs : scopes'.Admits name) : scopes.Admits name := by
  refine ⟨hs.isName, ?_⟩
  rw [← h.at?, Gap.shift_zero_of_ne hk, hs.isNew]

mutual

/-- The copy of a resolved expression is resolved with the distances shifted back. -/
theorem Expr.resolved_of_gaps (h : Spread k scopes scopes') : (e : Expr) → e.Resolved T' scopes' →
    (∀ id ∈ e.ids, T.Unshifts T' f k id) → (e.relabel (.ofIds f)).Resolved T scopes
  | .literal _ _, _, _ => trivial
  | .unary _ _ _ right, hs, hu => Expr.resolved_of_gaps h right hs fun i hi =>
    hu i (by simp [ids, hi])
  | .binary _ _ _ left right, hs, hu =>
    ⟨Expr.resolved_of_gaps h left hs.1 fun i hi => hu i (by simp [ids, hi]),
      Expr.resolved_of_gaps h right hs.2 fun i hi => hu i (by simp [ids, hi])⟩
  | .logical _ _ _ left right, hs, hu =>
    ⟨Expr.resolved_of_gaps h left hs.1 fun i hi => hu i (by simp [ids, hi]),
      Expr.resolved_of_gaps h right hs.2 fun i hi => hu i (by simp [ids, hi])⟩
  | .grouping _ inner, hs, hu => Expr.resolved_of_gaps h inner hs fun i hi =>
    hu i (by simp [ids, hi])
  | .var id _, hs, hu => ⟨hs.1, h.reads hs.2 (hu id (by simp [ids]))⟩
  | .assign id _ value, hs, hu =>
    ⟨⟨hs.1.1, h.refers hs.1.2 (hu id (by simp [ids]))⟩,
      Expr.resolved_of_gaps h value hs.2 fun i hi => hu i (by simp [ids, hi])⟩
  | .call _ callee _ arguments, hs, hu =>
    ⟨Expr.resolved_of_gaps h callee hs.1 fun i hi => hu i (by simp [ids, hi]),
      Expr.allResolved_of_gaps h arguments hs.2 fun i hi => hu i (by simp [ids, hi])⟩
  | .get _ object _, hs, hu => Expr.resolved_of_gaps h object hs fun i hi =>
    hu i (by simp [ids, hi])
  | .set _ object _ value, hs, hu =>
    ⟨Expr.resolved_of_gaps h object hs.1 fun i hi => hu i (by simp [ids, hi]),
      Expr.resolved_of_gaps h value hs.2 fun i hi => hu i (by simp [ids, hi])⟩
  | .this id _, hs, hu => by
    refine ⟨hs.1, h.reads hs.2.1 (hu id (by simp [ids])), ?_⟩
    have hsome := hs.2.2
    rwa [h.distance?, Option.isSome_map] at hsome
  | .super id _ _, ⟨htext, hs, _, hn', hthis⟩, hu => by
    obtain ⟨n, hn, -, hthis⟩ := h.super hn' hthis
    exact ⟨htext, h.reads hs (hu id (by simp [ids])), n, hn, hthis⟩

theorem Expr.allResolved_of_gaps (h : Spread k scopes scopes') : (es : List Expr) →
    Expr.AllResolved T' scopes' es → (∀ id ∈ Expr.idsAll es, T.Unshifts T' f k id) →
      Expr.AllResolved T scopes (Expr.relabelAll (.ofIds f) es)
  | [], _, _ => trivial
  | e :: rest, hs, hu =>
    ⟨Expr.resolved_of_gaps h e hs.1 fun i hi => hu i (by simp [idsAll, hi]),
      Expr.allResolved_of_gaps h rest hs.2 fun i hi => hu i (by simp [idsAll, hi])⟩

end

/-- What holds at all pairs with a gap holds at the identities. -/
theorem forall_pairs {P : Gap → Nat → Prop} {ids : List Nat} (h : ∀ p ∈ ids.map (·, k), P p.2 p.1) :
    ∀ id ∈ ids, P k id :=
  fun id hid => h (id, k) (List.mem_map_of_mem hid)

theorem Expr.optionResolved_of_gaps (h : Spread k scopes scopes') {e : Option Expr}
    (hs : Expr.OptionResolved T' scopes' e)
    (hu : ∀ p ∈ (Expr.idsOption e).map (·, k), T.Unshifts T' f p.2 p.1) :
    Expr.OptionResolved T scopes (e.map (Expr.relabel (.ofIds f))) := by
  intro e' he'
  obtain ⟨e, rfl, rfl⟩ := Option.map_eq_some_iff.1 he'
  exact Expr.resolved_of_gaps h e (hs e rfl) (forall_pairs hu)

mutual

/-- If a statement is resolved with the additional scope, its copy is resolved in the direct place
    with the distances shifted back. -/
theorem Stmt.resolved_of_gaps {k : Gap} {within : FunctionScope} {scopes scopes' : Scopes}
    (h : Spread k scopes scopes') : (s : Stmt) → (k = some 0 → s.declares? = none) →
      s.Resolved T' within scopes' → (∀ p ∈ s.gaps k, T.Unshifts T' f p.2 p.1) →
        (s.relabel (.ofIds f)).Resolved T within scopes
  | .expression e, _, hs, hu => Expr.resolved_of_gaps h e hs (forall_pairs hu)
  | .print e, _, hs, hu => Expr.resolved_of_gaps h e hs (forall_pairs hu)
  | .var _ _, hk, hs, hu =>
    have hne : k ≠ some 0 := fun hzero => nomatch hk hzero
    ⟨h.admits hne hs.1, Expr.optionResolved_of_gaps (h.bind hne _ _) hs.2 hu⟩
  | .block body, _, hs, hu => Stmt.allResolved_of_gaps (h.inner ∅) body k.inner_ne_zero hs hu
  | .branch condition yes no, _, hs, hu =>
    ⟨Expr.resolved_of_gaps h condition hs.1 (forall_pairs fun p hp => hu p (by simp [gaps, hp])),
      ⟨Stmt.resolved_of_gaps h yes (fun _ => hs.2.1.2) hs.2.1.1 fun p hp => hu p
        (by simp [gaps, hp]), (yes.declares?_relabel f).trans hs.2.1.2⟩,
      Stmt.optionResolved_of_gaps h no hs.2.2 fun p hp => hu p (by simp [gaps, hp])⟩
  | .loop condition body, _, hs, hu =>
    ⟨Expr.resolved_of_gaps h condition hs.1 (forall_pairs fun p hp => hu p (by simp [gaps, hp])),
      Stmt.resolved_of_gaps h body (fun _ => hs.2.2) hs.2.1 fun p hp => hu p (by simp [gaps, hp]),
      (body.declares?_relabel f).trans hs.2.2⟩
  | .function ⟨name, params, body⟩, hk, hs, hu =>
    have hne : k ≠ some 0 := fun hzero => nomatch hk hzero
    ⟨h.admits hne hs.1, Stmt.declResolved_of_gaps (h.bind hne _ _) ⟨name, params, body⟩ hs.2 hu⟩
  | .ret _ _, _, hs, hu => ⟨hs.1, Expr.optionResolved_of_gaps h hs.2 hu⟩
  | .classDecl name superclass methods, hk, hs, hu => by
    have hne : k ≠ some 0 := fun hzero => nomatch hk hzero
    refine ⟨h.admits hne hs.1, fun ref href => ?_, Stmt.methodsResolved_of_gaps
      (h.classScopes hne name superclass) methods hs.2.2 fun p hp => hu p (by simp [gaps, hp])⟩
    obtain ⟨ref, rfl, rfl⟩ := Option.map_eq_some_iff.1 href
    obtain ⟨hname, hreads⟩ := hs.2.1 ref rfl
    exact ⟨hname, (h.bind hne _ _).reads hreads (hu (ref.id, k) (by simp [gaps]))⟩

/-- The copies of resolved statements are resolved with the distances shifted back. -/
theorem Stmt.allResolved_of_gaps {k : Gap} {within : FunctionScope} {scopes scopes' : Scopes}
    (h : Spread k scopes scopes') : (body : List Stmt) → k ≠ some 0 →
      Stmt.AllResolved T' within scopes' body →
      (∀ p ∈ Stmt.gapsAll k body, T.Unshifts T' f p.2 p.1) →
        Stmt.AllResolved T within scopes (Stmt.relabelAll (.ofIds f) body)
  | [], _, _, _ => trivial
  | s :: rest, hk, hs, hu => by
    have hdecl : k = some 0 → s.declares? = none := fun hzero => absurd hzero hk
    refine ⟨Stmt.resolved_of_gaps h s hdecl hs.1 fun p hp => hu p (by simp [gapsAll, hp]), ?_⟩
    rw [Stmt.scopesAfter, Stmt.declares?_relabel]
    exact Stmt.allResolved_of_gaps (h.scopesAfter hdecl) rest hk hs.2 fun p hp =>
      hu p (by simp [gapsAll, hp])

theorem Stmt.optionResolved_of_gaps {k : Gap} {within : FunctionScope} {scopes scopes' : Scopes}
    (h : Spread k scopes scopes') : (s : Option Stmt) → Stmt.OptionResolved T' within scopes' s →
      (∀ p ∈ Stmt.gapsOption k s, T.Unshifts T' f p.2 p.1) →
        Stmt.OptionResolved T within scopes (Stmt.relabelOption (.ofIds f) s)
  | none, _, _ => trivial
  | some s, hs, hu =>
    ⟨Stmt.resolved_of_gaps h s (fun _ => hs.2) hs.1 hu, (s.declares?_relabel f).trans hs.2⟩

theorem Stmt.declResolved_of_gaps {k : Gap} {within : FunctionScope} {scopes scopes' : Scopes}
    (h : Spread k scopes scopes') : (decl : FunctionDecl Stmt) →
    Stmt.DeclResolved T' within scopes' decl →
      (∀ p ∈ Stmt.gapsDecl k decl, T.Unshifts T' f p.2 p.1) →
        Stmt.DeclResolved T within scopes (Stmt.relabelDecl (.ofIds f) decl)
  | ⟨_, params, body⟩, hs, hu => by
    refine ⟨fun param hparam => ?_,
      Stmt.allResolved_of_gaps (h.ofNames params) body k.inner_ne_zero hs.2 hu⟩
    obtain ⟨param, hmem, rfl⟩ := List.mem_map.1 hparam
    exact hs.1 param hmem

theorem Stmt.methodsResolved_of_gaps {k : Gap} {scopes scopes' : Scopes}
    (h : Spread k scopes scopes') :
    (decls : List (FunctionDecl Stmt)) → Stmt.MethodsResolved T' scopes' decls →
      (∀ p ∈ Stmt.gapsDecls k decls, T.Unshifts T' f p.2 p.1) →
        Stmt.MethodsResolved T scopes (Stmt.relabelDecls (.ofIds f) decls)
  | [], _, _ => trivial
  | ⟨name, params, body⟩ :: rest, hs, hu =>
    ⟨Stmt.declResolved_of_gaps h ⟨name, params, body⟩ hs.1 fun p hp => hu p
      (by simp [gapsDecls, hp]),
      Stmt.methodsResolved_of_gaps h rest hs.2 fun p hp => hu p (by simp [gapsDecls, hp])⟩

end

end

/-! ### Tables with copies -/

namespace Table

variable {T : Table} {pairs : List (Nat × Gap)}

/-- The distances of copies, which get the numbers from the bound on. -/
def copies (T : Table) (pairs : List (Nat × Gap)) : List (Nat × Nat) :=
  pairs.filterMap fun p => T.distances[p.1]?.map fun distance =>
    (T.bound + p.1, p.2.unshift distance)

/-- A later table, with distances for copies. (Nothing is settled beyond the bound, so what is there
    is dropped.) -/
def withCopies (T : Table) (pairs : List (Nat × Gap)) : Table where
  distances := (T.distances.filter fun id _ => decide (id < T.bound)).insertMany (T.copies pairs)
  bound := T.bound + T.bound

theorem mem_copies {number distance : Nat} : (number, distance) ∈ T.copies pairs ↔
    ∃ id k d, (id, k) ∈ pairs ∧ T.distances[id]? = some d ∧ number = T.bound + id ∧
    distance = k.unshift d := by
  rw [copies, List.mem_filterMap]
  constructor
  · rintro ⟨⟨id, k⟩, hmem, hsome⟩
    obtain ⟨d, hd, heq⟩ := Option.map_eq_some_iff.1 hsome
    cases heq
    exact ⟨id, k, d, hmem, hd, rfl, rfl⟩
  · rintro ⟨id, k, d, hmem, hd, rfl, rfl⟩
    exact ⟨(id, k), hmem, by rw [hd]; rfl⟩

/-- A number that is not that of a copy keeps its distance. -/
theorem getElem?_withCopies_of_forall {number : Nat}
    (h : ∀ distance, (number, distance) ∉ T.copies pairs) :
    (T.withCopies pairs).distances[number]? = if number < T.bound then T.distances[number]?
      else none := by
  have hcontains : ((T.copies pairs).map Prod.fst).contains number = false := by
    rw [List.contains_eq_mem, decide_eq_false_iff_not]
    rintro hmem
    obtain ⟨⟨_, distance⟩, hpair, rfl⟩ := List.mem_map.1 hmem
    exact h distance hpair
  rw [withCopies, Std.ExtTreeMap.getElem?_insertMany_list_of_contains_eq_false hcontains,
    Std.ExtTreeMap.getElem?_filter']
  by_cases hlt : number < T.bound
  · rw [if_pos hlt]
    cases T.distances[number]? <;> simp [hlt]
  · rw [if_neg hlt]
    cases T.distances[number]? <;> simp [hlt]

theorem extends_withCopies (T : Table) (pairs : List (Nat × Gap)) :
    (T.withCopies pairs).Extends T := by
  refine ⟨Nat.le_add_right _ _, fun id hid => ?_⟩
  rw [getElem?_withCopies_of_forall, if_pos hid]
  intro distance hmem
  obtain ⟨id', k, d, -, -, rfl, -⟩ := mem_copies.1 hmem
  exact absurd hid (Nat.not_lt_of_le (Nat.le_add_right _ _))

/-- If no number comes twice, copies have the distances shifted back. -/
theorem unshifts_withCopies (hn : (pairs.map Prod.fst).Nodup) {id : Nat} {k : Gap}
    (hmem : (id, k) ∈ pairs) (hid : id < T.bound) :
    (T.withCopies pairs).Unshifts T (T.bound + ·) k id := by
  refine ⟨Nat.add_lt_add_left hid T.bound, ?_⟩
  cases hd : T.distances[id]? with
  | none =>
    rw [getElem?_withCopies_of_forall, if_neg (Nat.not_lt_of_le (Nat.le_add_right _ _))]
    · rfl
    · intro distance hcopy
      obtain ⟨id', k', d, -, hd', hnumber, -⟩ := mem_copies.1 hcopy
      rw [← Nat.add_left_cancel hnumber, hd] at hd'
      cases hd'
  | some d =>
    have hcopy : (T.bound + id, k.unshift d) ∈ T.copies pairs :=
      mem_copies.2 ⟨id, k, d, hmem, hd, rfl, rfl⟩
    have hdistinct : (T.copies pairs).Pairwise fun a b => ¬compare a.1 b.1 = .eq := by
      rw [copies, List.pairwise_filterMap]
      refine (List.pairwise_map.1 hn).imp ?_
      intro p q hpq a ha b hb heq
      obtain ⟨_, -, rfl⟩ := Option.map_eq_some_iff.1 ha
      obtain ⟨_, -, rfl⟩ := Option.map_eq_some_iff.1 hb
      exact hpq (Nat.add_left_cancel (Nat.compare_eq_eq.1 heq))
    exact Std.ExtTreeMap.getElem?_insertMany_list_of_mem (Std.ReflCmp.compare_self) hdistinct hcopy

end Table

end Lox
