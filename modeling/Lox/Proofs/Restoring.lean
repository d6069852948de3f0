import Mathlib
import Lox.Proofs.Joining

/-!
# The walk restores its state

Scopes are opened and closed by hand while a program is gone through, and so are the marks that say
which function and which class is around. Whatever a statement is, and whether it breaks a rule or
not, all of this is put back after it: only the innermost scope can have more names
(`Walk.Restores`).

So outside all scopes each statement is gone through from the same state, but for what was found
before it. What was found before is never looked at. The walk from a state with earlier findings is
the walk without them, with the earlier findings put in front in the end (`Walk.onto`). Hence two
programs, one after the other, have the errors of the first and then those of the second, and the
distances of both.

* `Walk.restores_stmt`, `Walk.restores_expr`: what is put back;
* `Walk.stmts_onto`: earlier findings do not matter;
* `Program.resolve_homomorphism`: resolution of two programs, one after the other.
-/

namespace Lox

/-! ### Scopes -/

/-- The scopes after a part of a program: all but the innermost one are as they were, and that one
    has kept its names. Those that were defined still are. -/
structure Scopes.Widened (scopes scopes' : Scopes) : Prop where
  length : scopes'.length = scopes.length
  outer : scopes'.tail = scopes.tail
  names : ∀ x, (scopes.at? 0 x).isSome → (scopes'.at? 0 x).isSome
  defined : ∀ x, scopes.at? 0 x = some true → scopes'.at? 0 x = some true

namespace Scopes.Widened

variable {scopes scopes' scopes'' : Scopes}

theorem refl (scopes : Scopes) : scopes.Widened scopes := ⟨rfl, rfl, fun _ => id, fun _ => id⟩

theorem of_eq (h : scopes' = scopes) : scopes.Widened scopes' := h ▸ refl scopes

/-- What is widened twice is widened. -/
theorem trans (h : scopes.Widened scopes') (h' : scopes'.Widened scopes'') :
    scopes.Widened scopes'' where
  length := h'.length.trans h.length
  outer := h'.outer.trans h.outer
  names x hx := h'.names x (h.names x hx)
  defined x hx := h'.defined x (h.defined x hx)

/-- A name is defined. -/
theorem bind (scopes : Scopes) (x : String) : scopes.Widened (scopes.bind x true) := by
  cases scopes with
  | nil => exact refl []
  | cons scope outer =>
    refine ⟨rfl, rfl, fun y hy => ?_, fun y hy => ?_⟩
    · change ((scope.insert x true).get? y).isSome
      rw [Bindings.get?_insert]
      split
      · rfl
      · exact hy
    · change (scope.insert x true).get? y = some true
      rw [Bindings.get?_insert]
      split
      · rfl
      · exact hy

end Scopes.Widened

namespace Walk

/-- What is put back after a part of a program. -/
structure Restores (w w₁ : Walk) : Prop where
  scopes : Scopes.Widened w.scopes w₁.scopes
  function : w₁.function = w.function
  inClass : w₁.inClass = w.inClass

mutual

/-- A statement leaves the scopes around the innermost one alone, and only adds names to that
    one. -/
theorem widened_stmt : (w : Walk) → (stmt : Stmt) → Scopes.Widened w.scopes (w.stmt stmt).scopes
  | w, .expression e => .of_eq (scopes_expr w e)
  | w, .print e => .of_eq (scopes_expr w e)
  | w, .var name initial => by
    have hscopes : (w.stmt (.var name initial)).scopes = Scopes.bind w.scopes name.text true := by
      rw [stmt, define, scopes_bind, scopes_expr?, ← scopes_bind]
      exact scopes_introduce w name
    rw [hscopes]
    exact .bind _ _
  | w, .block body => .of_eq (widened_stmts w.openScope body).outer
  | w, .branch condition yes none => by
    have hyes := widened_stmt (w.expr condition) yes
    rwa [scopes_expr] at hyes
  | w, .branch condition yes (some no) => by
    have hyes := widened_stmt (w.expr condition) yes
    rw [scopes_expr] at hyes
    exact hyes.trans (widened_stmt _ no)
  | w, .loop condition body => by
    have hbody := widened_stmt (w.expr condition) body
    rwa [scopes_expr] at hbody
  | w, .function decl => by
    rw [stmt, functionBody_scopes, scopes_introduce]
    exact .bind _ _
  | w, .ret keyword value => by
    rw [stmt, scopes_expr?, scopes_returnKeyword]
    exact .refl _
  | w, .classDecl name superclass methods => by
    -- The methods are gone through inside the one or two scopes that the class has opened.
    have hinside := (methods_scopes (w.openClass name superclass) methods).trans
      (scopes_openClass w name superclass)
    have hscopes : (w.stmt (.classDecl name superclass methods)).scopes =
        Scopes.bind w.scopes name.text true := by
      rw [stmt]
      exact scopes_closeClass hinside
    rw [hscopes]
    exact .bind _ _

theorem widened_stmts : (w : Walk) → (stmts : List Stmt) →
    Scopes.Widened w.scopes (w.stmts stmts).scopes
  | w, [] => .refl w.scopes
  | w, stmt :: rest => (widened_stmt w stmt).trans (widened_stmts _ rest)

/-- The names of a function are in its own scope, which is closed again. -/
theorem functionBody_scopes : (w : Walk) → (within : FunctionScope) → (decl : FunctionDecl Stmt) →
    (w.functionBody within decl).scopes = w.scopes
  | w, within, ⟨_, params, body⟩ => by
    rw [functionBody]
    change (stmts _ body).scopes.tail = _
    rw [(widened_stmts _ body).outer, scopes_introduceAll ∅ w.scopes params rfl]
    rfl

/-- Methods leave all scopes as they were. -/
theorem methods_scopes : (w : Walk) → (decls : List (FunctionDecl Stmt)) →
    (w.methods decls).scopes = w.scopes
  | _, [] => rfl
  | w, decl :: rest => (methods_scopes _ rest).trans (functionBody_scopes w _ decl)

end

/-- An expression restores the state of the walk, also where it reports errors. -/
theorem restores_expr (w : Walk) (e : Expr) : w.Restores (w.expr e) :=
  ⟨.of_eq (scopes_expr w e), (passes_expr w e).function, (passes_expr w e).inClass⟩

/-- A statement restores the state of the walk, also where it reports errors. -/
theorem restores_stmt (w : Walk) (stmt : Stmt) : w.Restores (w.stmt stmt) :=
  ⟨widened_stmt w stmt, (passes_stmt w stmt).function, (passes_stmt w stmt).inClass⟩

theorem restores_stmts (w : Walk) (stmts : List Stmt) : w.Restores (w.stmts stmts) :=
  ⟨widened_stmts w stmts, (passes_stmts w stmts).function, (passes_stmts w stmts).inClass⟩

/-! ### Earlier findings -/

/-- The walk `w` with the findings of the walk `base` before its own. -/
def onto (base w : Walk) : Walk :=
  { w with distances := base.distances ∪ w.distances, errors := base.errors ++ w.errors }

variable (base w : Walk)

@[simp]
theorem scopes_onto : (base.onto w).scopes = w.scopes := rfl

@[simp]
theorem function_onto : (base.onto w).function = w.function := rfl

@[simp]
theorem inClass_onto : (base.onto w).inClass = w.inClass := rfl

/-- An error that is reported comes after the earlier ones. -/
theorem report_onto (lexeme : Lexeme) (cause : ResolveError.Cause) :
    (base.onto w).report lexeme cause = base.onto (w.report lexeme cause) := by
  simp [report, onto]

/-- The same holds of an error that is reported under a condition. -/
theorem report_ite_onto (p : Prop) [Decidable p] (lexeme : Lexeme) (cause : ResolveError.Cause) :
    (if p then (base.onto w).report lexeme cause else base.onto w) =
      base.onto (if p then w.report lexeme cause else w) := by
  rw [report_onto, apply_ite base.onto]

/-- Binding a name in a scope has nothing to do with earlier findings. -/
theorem bind_onto (x : String) (isDefined : Bool) :
    (base.onto w).bind x isDefined = base.onto (w.bind x isDefined) := by
  rw [bind_eq, bind_eq]
  rfl

/-- Whether a name is declared twice has nothing to do with earlier findings. -/
theorem declare_onto (name : Lexeme) : (base.onto w).declare name = base.onto (w.declare name) := by
  rw [declare, declare, scopes_onto]
  split
  · rfl
  · split
    · exact report_onto base w _ _
    · exact bind_onto base w _ _

theorem introduce_onto (name : Lexeme) :
    (base.onto w).introduce name = base.onto (w.introduce name) := by
  rw [introduce, introduce, declare_onto]
  exact bind_onto base _ _ _

/-- Parameters are introduced in the same way after earlier findings. -/
theorem introduceAll_onto (names : List Lexeme) :
    (base.onto w).introduceAll names = base.onto (w.introduceAll names) := by
  induction names generalizing w with
  | nil => rfl
  | cons name rest ih =>
    rw [introduceAll, List.foldl_cons, introduce_onto]
    exact ih _

/-- A distance that is written down is added to the earlier ones. -/
theorem resolveLocal_onto (id : Nat) (x : String) :
    (base.onto w).resolveLocal id x = base.onto (w.resolveLocal id x) := by
  have hdistance : (base.onto w).distance? x = w.distance? x := rfl
  rw [resolveLocal, resolveLocal, hdistance]
  cases w.distance? x with
  | none => rfl
  | some distance =>
    have hunion : (base.distances ∪ w.distances).insert id distance =
        base.distances ∪ w.distances.insert id distance :=
      (Std.ExtTreeMap.union_insert_right_eq_insert_union (p := ⟨id, distance⟩)).symm
    simp only [onto, hunion]

/-- A variable is read in the same way after earlier findings. -/
theorem readVariable_onto (id : Nat) (name : Lexeme) :
    (base.onto w).readVariable id name = base.onto (w.readVariable id name) := by
  have hundefined : (base.onto w).isUndefined name.text = w.isUndefined name.text := rfl
  rw [readVariable, readVariable, hundefined, report_ite_onto]
  exact resolveLocal_onto base _ _ _

mutual

/-- The walk over an expression adds its findings to the earlier ones, whatever they are. -/
theorem expr_onto (base : Walk) : (w : Walk) → (e : Expr) →
    (base.onto w).expr e = base.onto (w.expr e)
  | _, .literal _ _ => rfl
  | w, .unary _ _ _ right => expr_onto base w right
  | w, .binary _ _ _ left right => by
    rw [expr, expr, expr_onto base w left, expr_onto base _ right]
  | w, .logical _ _ _ left right => by
    rw [expr, expr, expr_onto base w left, expr_onto base _ right]
  | w, .grouping _ inner => expr_onto base w inner
  | w, .var id name => readVariable_onto base w id name
  | w, .assign id name value => by
    rw [expr, expr, expr_onto base w value, resolveLocal_onto]
  | w, .call _ callee _ arguments => by
    rw [expr, expr, expr_onto base w callee, exprs_onto base _ arguments]
  | w, .get _ object _ => expr_onto base w object
  | w, .set _ object _ value => by
    rw [expr, expr, expr_onto base w object, expr_onto base _ value]
  | w, .this id keyword => by
    rw [expr, expr, inClass_onto]
    split
    · exact report_onto base w _ _
    · exact resolveLocal_onto base w _ _
  | w, .super id keyword _ => by
    rw [expr, expr, inClass_onto]
    split
    · rw [report_onto, resolveLocal_onto]
    · rw [report_onto, resolveLocal_onto]
    · exact resolveLocal_onto base w _ _

theorem exprs_onto (base : Walk) : (w : Walk) → (es : List Expr) →
    (base.onto w).exprs es = base.onto (w.exprs es)
  | _, [] => rfl
  | w, e :: rest => by
    rw [exprs, exprs, expr_onto base w e, exprs_onto base _ rest]

end

theorem expr?_onto (e : Option Expr) : (base.onto w).expr? e = base.onto (w.expr? e) := by
  cases e with
  | none => rfl
  | some e => exact expr_onto base w e

/-- Whether a `return` is allowed has nothing to do with earlier findings. -/
theorem returnKeyword_onto (keyword : Lexeme) (hasValue : Bool) :
    (base.onto w).returnKeyword keyword hasValue =
      base.onto (w.returnKeyword keyword hasValue) := by
  rw [returnKeyword, returnKeyword, function_onto, report_ite_onto]
  exact report_ite_onto base _ _ _ _

/-- The name of a class and its superclass are walked over in the same way. -/
theorem classHead_onto (name : Lexeme) (superclass : Option VarRef) :
    (base.onto w).classHead name superclass = base.onto (w.classHead name superclass) := by
  have hname := introduce_onto base { w with inClass := .base } name
  cases superclass with
  | none => exact hname
  | some ref =>
    have hown := report_ite_onto base ({ w with inClass := .base }.introduce name)
      (ref.name.text = name.text) ref.name
      .inheritFromItself
    rw [← hname] at hown
    rw [classHead, classHead, ← readVariable_onto]
    exact congrArg (fun u : Walk => { u with inClass := .derived }.readVariable ref.id ref.name)
      hown

/-- The scopes of a class are opened in the same way after earlier findings. -/
theorem openClass_onto (name : Lexeme) (superclass : Option VarRef) :
    (base.onto w).openClass name superclass = base.onto (w.openClass name superclass) := by
  have hopen : ∀ (u : Walk) (x : String),
      (base.onto u).openScope.bind x true = base.onto (u.openScope.bind x true) :=
    fun u x => bind_onto base u.openScope x true
  cases superclass with
  | none => rw [openClass_none, openClass_none, classHead_onto, hopen]
  | some ref => rw [openClass_some, openClass_some, classHead_onto, hopen, hopen]

theorem closeClass_onto (superclass : Option VarRef) :
    (base.onto w).closeClass superclass = base.onto (w.closeClass superclass) := by
  rw [closeClass, closeClass]
  split <;> rfl

mutual

/-- The walk over a statement adds its findings to the earlier ones, whatever they are. -/
theorem stmt_onto (base : Walk) : (w : Walk) → (stmt : Stmt) →
    (base.onto w).stmt stmt = base.onto (w.stmt stmt)
  | w, .expression e => expr_onto base w e
  | w, .print e => expr_onto base w e
  | w, .var name initial => by
    rw [stmt, stmt, declare_onto, expr?_onto]
    exact bind_onto base _ _ _
  | w, .block body => congrArg closeScope (stmts_onto base w.openScope body)
  | w, .branch condition yes none => by
    rw [stmt, stmt, expr_onto, stmt_onto base _ yes]
  | w, .branch condition yes (some no) => by
    rw [stmt, stmt, expr_onto, stmt_onto base _ yes, stmt_onto base _ no]
  | w, .loop condition body => by
    rw [stmt, stmt, expr_onto, stmt_onto base _ body]
  | w, .function decl => by
    rw [stmt, stmt, introduce_onto, functionBody_onto base _ _ decl]
  | w, .ret keyword value => by
    rw [stmt, stmt, returnKeyword_onto, expr?_onto]
  | w, .classDecl name superclass methods => by
    rw [stmt, stmt, openClass_onto, methods_onto base _ methods, closeClass_onto]
    rfl

/-- The walk over statements adds their findings to the earlier ones. -/
theorem stmts_onto (base : Walk) : (w : Walk) → (stmts : List Stmt) →
    (base.onto w).stmts stmts = base.onto (w.stmts stmts)
  | _, [] => rfl
  | w, stmt :: rest => by
    rw [stmts, stmts, stmt_onto base w stmt, stmts_onto base _ rest]

/-- The walk over a function adds its findings to the earlier ones. -/
theorem functionBody_onto (base : Walk) : (w : Walk) → (within : FunctionScope) →
    (decl : FunctionDecl Stmt) →
    (base.onto w).functionBody within decl = base.onto (w.functionBody within decl)
  | w, within, ⟨_, params, body⟩ => by
    have hparams := introduceAll_onto base { w with function := within }.openScope params
    have hbody := stmts_onto base ({ w with function := within }.openScope.introduceAll params) body
    rw [← hparams] at hbody
    rw [functionBody, functionBody]
    exact congrArg (fun inside : Walk => { inside.closeScope with function := w.function }) hbody

theorem methods_onto (base : Walk) : (w : Walk) → (decls : List (FunctionDecl Stmt)) →
    (base.onto w).methods decls = base.onto (w.methods decls)
  | _, [] => rfl
  | w, decl :: rest => by
    rw [methods, methods, functionBody_onto base w _ decl, methods_onto base _ rest]

end

/-! ### Programs one after the other -/

/-- Outside all scopes nothing of the state is left but what was found. -/
theorem stmts_start (p : Program) : start.stmts p = (start.stmts p).onto start := by
  have hrestores := restores_stmts start p
  have hscopes : (start.stmts p).scopes = [] := List.length_eq_zero_iff.1 hrestores.scopes.length
  have hdistances : (start.stmts p).distances ∪ (∅ : Distances) = (start.stmts p).distances := by
    refine Std.ExtTreeMap.ext_getElem? fun id => ?_
    rw [Std.ExtTreeMap.getElem?_union, Std.ExtTreeMap.getElem?_empty, Option.none_or]
  have hfunction : (start.stmts p).function = .none := hrestores.function
  have hclass : (start.stmts p).inClass = .none := hrestores.inClass
  generalize start.stmts p = w at hscopes hdistances hfunction hclass
  obtain ⟨scopes, within, inClass, distances, errors⟩ := w
  cases hscopes
  cases hfunction
  cases hclass
  simp only [onto, start, hdistances, Array.append_empty]

/-- The findings of the first program come first. -/
theorem stmts_start_append (p q : Program) :
    start.stmts (p ++ q) = (start.stmts p).onto (start.stmts q) := by
  rw [stmts_append, stmts_start, stmts_onto, ← stmts_start]

end Walk

namespace Program

/-- The errors for which a program is rejected. -/
def resolveErrors (p : Program) : List ResolveError :=
  match p.resolve with
  | .ok _ => []
  | .error errors => errors

/-- The errors of a program are those of the walk over its statements. -/
theorem resolveErrors_eq (p : Program) : p.resolveErrors = (Walk.start.stmts p).errors.toList := by
  rw [resolveErrors, resolve, Walk.result]
  by_cases h : (Walk.start.stmts p).errors.isEmpty
  · rw [if_pos h, Array.isEmpty_iff.1 h]
  · rw [if_neg h]

/-- Only expressions of a program have a distance in its table. -/
theorem mem_ids_of_resolve {p : Program} {distances : Distances}
    (h : p.resolve = .ok distances) {id : Nat} (hid : id ∈ distances) : id ∈ Stmt.idsAll p := by
  by_contra hnot
  rw [Std.ExtTreeMap.mem_iff_isSome_getElem?, getElem?_of_resolve h hnot] at hid
  cases hid

/-- Whatever a statement or an expression is, and whether it breaks a rule or not, the walk through
    it puts back what it changes: there are as many scopes as before, all but the innermost one are
    the same, that one has kept its names, and the function and the class around are the same. An
    expression leaves the innermost scope alone, too. So a program followed by another one, which
    has other identities, has the errors of the first one and then those of the other one. It is
    accepted if and only if both are, and its table is made up of the two tables, which have no
    identity in common. -/
theorem resolve_homomorphism :
    (∀ (w : Walk) (stmt : Stmt), w.Restores (w.stmt stmt)) ∧
    (∀ (w : Walk) (e : Expr), w.Restores (w.expr e) ∧ (w.expr e).scopes = w.scopes) ∧
    ∀ p q : Program, (Stmt.idsAll p).Disjoint (Stmt.idsAll q) →
      resolveErrors (p ++ q) = p.resolveErrors ++ q.resolveErrors ∧
      ∀ joined, resolve (p ++ q) = .ok joined ↔ ∃ distances distances', p.resolve = .ok distances ∧
        q.resolve = .ok distances' ∧ (∀ id ∈ distances, id ∉ distances') ∧
        joined = distances ∪ distances' := by
  refine ⟨Walk.restores_stmt, fun w e => ⟨Walk.restores_expr w e, Walk.scopes_expr w e⟩,
    fun p q hids => ⟨?_, ?_⟩⟩
  · rw [resolveErrors_eq, resolveErrors_eq, resolveErrors_eq, Walk.stmts_start_append]
    exact Array.toList_append
  · intro joined
    simp only [resolve, Walk.result_eq_ok, Walk.stmts_start_append, Walk.onto,
      Array.append_eq_empty_iff]
    constructor
    · rintro ⟨⟨herrors, herrors'⟩, rfl⟩
      refine ⟨_, _, ⟨herrors, rfl⟩, ⟨herrors', rfl⟩, fun id hid hid' => ?_, rfl⟩
      exact hids (mem_ids_of_resolve (Walk.result_eq_ok.2 ⟨herrors, rfl⟩) hid)
        (mem_ids_of_resolve (Walk.result_eq_ok.2 ⟨herrors', rfl⟩) hid')
    · rintro ⟨_, _, ⟨herrors, rfl⟩, ⟨herrors', rfl⟩, -, rfl⟩
      exact ⟨⟨herrors, herrors'⟩, rfl⟩

/-- A block with a variable and a class with a method are accepted, one after the other. A `return`
    outside all functions and, after it, a variable that is declared twice and `this` outside all
    classes are told in this order. -/
theorem resolve_homomorphism_both :
    ∃ p q p' q' : Program, (Stmt.idsAll p).Disjoint (Stmt.idsAll q) ∧
      p.resolve = .ok (Std.ExtTreeMap.insert ∅ 0 0) ∧
      q.resolve = .ok (Std.ExtTreeMap.insert ∅ 1 1) ∧
      resolve (p ++ q) = .ok (Std.ExtTreeMap.insert ∅ 0 0 ∪ Std.ExtTreeMap.insert ∅ 1 1) ∧
      (Stmt.idsAll p').Disjoint (Stmt.idsAll q') ∧
      (resolveErrors (p' ++ q')).map ResolveError.cause =
        [.returnAtTop, .alreadyDeclared, .thisOutsideClass] := by
  let p : Program := [.block [.var ⟨"a", 1⟩ none, .expression (.var 0 ⟨"a", 1⟩)]]
  let q : Program :=
    [.classDecl ⟨"B", 2⟩ none [⟨⟨"m", 2⟩, [], [.expression (.this 1 ⟨"this", 2⟩)]⟩]]
  let p' : Program := [.ret ⟨"return", 1⟩ none]
  let q' : Program :=
    [.block [.var ⟨"a", 2⟩ none, .var ⟨"a", 3⟩ none], .expression (.this 0 ⟨"this", 4⟩)]
  have hids : (Stmt.idsAll p).Disjoint (Stmt.idsAll q) := (by simp : [0].Disjoint [1])
  have hids' : (Stmt.idsAll p').Disjoint (Stmt.idsAll q') := List.disjoint_nil_left _
  have hp : p.resolve = .ok (Std.ExtTreeMap.insert ∅ 0 0) := rfl
  have hq : q.resolve = .ok (Std.ExtTreeMap.insert ∅ 1 1) := rfl
  obtain ⟨-, -, hjoin⟩ := resolve_homomorphism
  refine ⟨p, q, p', q', hids, hp, hq, ((hjoin p q hids).2 _).2 ⟨_, _, hp, hq, ?_, rfl⟩, hids', ?_⟩
  · intro id hid hid'
    simp only [Std.ExtTreeMap.mem_insert, Std.ExtTreeMap.not_mem_empty, or_false,
      compare_eq_iff_eq] at hid hid'
    omega
  · rw [(hjoin p' q' hids').1]
    decide +kernel

end Program

end Lox
