import Mathlib
import Lox.Proofs.Relabelling
import Lox.Proofs.Resolving

/-!
# Relabelling and distances

Resolution looks at names and at what is around them, never at identities and lines: identities are
what distances are written down for, and lines are handed on to errors. So the walk through a
relabelled program goes side by side with the walk through the program before (`Walk.Relabelled`).
If different expressions keep different identities, the new identities get the distances of the old
ones.

The relabelled walk may start with some distances written down already, as it does when another
program comes first. Those stay, as long as they are about other identities.

* `Walk.Relabelled.expr`, `Walk.Relabelled.stmts`: the walks stay side by side;
* `Expr.resolve_of_relabel`, `Program.resolve_of_relabel`: whole expressions and programs.
-/

namespace Lox

/-- The same breach of the rules, on another line. -/
def ResolveError.relabel (L : Relabelling) (e : ResolveError) : ResolveError :=
  { e with lexeme := e.lexeme.relabel L }

namespace Walk

/-- Two walks side by side, the second through relabelled trees and on from the distances
    `before`. -/
structure Relabelled (L : Relabelling) (before : Distances) (w w' : Walk) : Prop where
  scopes : w'.scopes = w.scopes
  function : w'.function = w.function
  inClass : w'.inClass = w.inClass
  distances : ∀ id, w'.distances[L.id id]? = (w.distances[id]?).or before[L.id id]?
  errors : w'.errors = w.errors.map (ResolveError.relabel L)

namespace Relabelled

variable {L : Relabelling} {before : Distances} {w w' : Walk}

/-! ### Names -/

theorem report (h : Relabelled L before w w') (lexeme : Lexeme) (cause : ResolveError.Cause) :
    Relabelled L before (w.report lexeme cause) (w'.report (lexeme.relabel L) cause) where
  scopes := h.scopes
  function := h.function
  inClass := h.inClass
  distances := h.distances
  errors := by
    rw [Walk.report, Walk.report, h.errors, Array.map_push]
    rfl

/-- The innermost scopes change alike. -/
theorem withScopes (h : Relabelled L before w w') {scopes : Scopes} :
    Relabelled L before { w with scopes } { w' with scopes } where
  scopes := rfl
  function := h.function
  inClass := h.inClass
  distances := h.distances
  errors := h.errors

theorem openScope (h : Relabelled L before w w') :
    Relabelled L before w.openScope w'.openScope := by
  rw [Walk.openScope, Walk.openScope, h.scopes]
  exact h.withScopes

theorem closeScope (h : Relabelled L before w w') :
    Relabelled L before w.closeScope w'.closeScope := by
  rw [Walk.closeScope, Walk.closeScope, h.scopes]
  exact h.withScopes

theorem bind (h : Relabelled L before w w') (name : String) (isDefined : Bool) :
    Relabelled L before (w.bind name isDefined) (w'.bind name isDefined) := by
  rw [bind_eq, bind_eq, h.scopes]
  exact h.withScopes

theorem declare (h : Relabelled L before w w') (name : Lexeme) :
    Relabelled L before (w.declare name) (w'.declare (name.relabel L)) := by
  rw [Walk.declare, Walk.declare, h.scopes, Lexeme.text_relabel]
  split
  · exact h
  split
  · exact h.report name _
  · exact h.bind name.text false

theorem introduce (h : Relabelled L before w w') (name : Lexeme) :
    Relabelled L before (w.introduce name) (w'.introduce (name.relabel L)) :=
  (h.declare name).bind name.text true

theorem introduceAll (h : Relabelled L before w w') (names : List Lexeme) :
    Relabelled L before (w.introduceAll names)
      (w'.introduceAll (names.map (Lexeme.relabel L))) := by
  induction names generalizing w w' with
  | nil => exact h
  | cons name rest ih => exact ih (h.introduce name)

theorem distance?_eq (h : Relabelled L before w w') (name : String) :
    w'.distance? name = w.distance? name := by
  rw [distance?, distance?, h.scopes]

theorem isUndefined_eq (h : Relabelled L before w w') (name : String) :
    w'.isUndefined name = w.isUndefined name := by
  rw [isUndefined, isUndefined, h.scopes]

theorem resolveLocal (h : Relabelled L before w w') (hL : Function.Injective L.id) (id : Nat)
    (name : String) : Relabelled L before (w.resolveLocal id name)
      (w'.resolveLocal (L.id id) name) := by
  rw [Walk.resolveLocal, Walk.resolveLocal, h.distance?_eq]
  split
  · refine { h with distances := fun i => ?_ }
    rw [Std.ExtTreeMap.getElem?_insert, Std.ExtTreeMap.getElem?_insert]
    simp only [compare_eq_iff_eq, hL.eq_iff]
    split
    · rfl
    · exact h.distances i
  · exact h

theorem readVariable (h : Relabelled L before w w') (hL : Function.Injective L.id) (id : Nat)
    (name : Lexeme) :
    Relabelled L before (w.readVariable id name) (w'.readVariable (L.id id) (name.relabel L)) := by
  rw [Walk.readVariable, Walk.readVariable, Lexeme.text_relabel, h.isUndefined_eq]
  refine resolveLocal ?_ hL id name.text
  split
  · exact h.report name _
  · exact h

/-- A `return` is out of place in both walks or in none. -/
theorem returnKeyword (h : Relabelled L before w w') (keyword : Lexeme) (hasValue : Bool) :
    Relabelled L before (w.returnKeyword keyword hasValue)
      (w'.returnKeyword (keyword.relabel L) hasValue) := by
  have hvalue : ∀ {v v' : Walk}, Relabelled L before v v' →
      Relabelled L before
        (if hasValue ∧ v.function = .initializer
          then v.report keyword .returnFromInitializer else v)
        (if hasValue ∧ v'.function = .initializer then
          v'.report (keyword.relabel L) .returnFromInitializer else v') := by
    intro v v' hv
    rw [hv.function]
    split
    · exact hv.report keyword _
    · exact hv
  refine hvalue ?_
  rw [h.function]
  split
  · exact h.report keyword _
  · exact h

/-- A class may be opened in both walks. -/
theorem openClass (h : Relabelled L before w w') (hL : Function.Injective L.id) (name : Lexeme)
    (superclass : Option VarRef) :
    Relabelled L before (w.openClass name superclass)
      (w'.openClass (name.relabel L) (superclass.map (VarRef.relabel L))) := by
  have hclass : ∀ {v v' : Walk} (c : ClassScope), Relabelled L before v v' →
      Relabelled L before { v with inClass := c } { v' with inClass := c } :=
    fun c hv => { hv with inClass := rfl }
  have hname := (hclass .base h).introduce name
  cases superclass with
  | none => exact hname.openScope.bind "this" true
  | some ref =>
    rw [Option.map_some, Walk.openClass, Walk.openClass]
    refine Relabelled.bind (Relabelled.openScope ?_) "this" true
    refine Relabelled.bind (Relabelled.openScope ?_) "super" true
    refine readVariable (hclass .derived ?_) hL ref.id ref.name
    change Relabelled L before _ (if ref.name.text = name.text then _ else _)
    split
    · exact hname.report ref.name _
    · exact hname

theorem closeClass (h : Relabelled L before w w') (superclass : Option VarRef) :
    Relabelled L before (w.closeClass superclass)
      (w'.closeClass (superclass.map (VarRef.relabel L))) := by
  cases superclass with
  | none => exact h.closeScope
  | some ref => exact h.closeScope.closeScope

/-! ### Trees -/

mutual

/-- The walks stay side by side through an expression. -/
theorem expr (hL : Function.Injective L.id) :
    {w w' : Walk} → Relabelled L before w w' → (e : Expr) →
    Relabelled L before (w.expr e) (w'.expr (e.relabel L))
  | _, _, h, .literal _ _ => h
  | _, _, h, .unary _ _ _ right => expr hL h right
  | _, _, h, .binary _ _ _ left right => expr hL (expr hL h left) right
  | _, _, h, .logical _ _ _ left right => expr hL (expr hL h left) right
  | _, _, h, .grouping _ inner => expr hL h inner
  | _, _, h, .var id name => h.readVariable hL id name
  | _, _, h, .assign id name value => (expr hL h value).resolveLocal hL id name.text
  | _, _, h, .call _ callee _ arguments => exprs hL (expr hL h callee) arguments
  | _, _, h, .get _ object _ => expr hL h object
  | _, _, h, .set _ object _ value => expr hL (expr hL h object) value
  | _, _, h, .this id keyword => by
    rw [Expr.relabel, Walk.expr, Walk.expr, h.inClass]
    split
    · exact h.report keyword _
    · exact h.resolveLocal hL id keyword.text
  | _, _, h, .super id keyword method => by
    rw [Expr.relabel, Walk.expr, Walk.expr, h.inClass]
    refine resolveLocal ?_ hL id keyword.text
    split
    · exact h.report keyword _
    · exact h.report keyword _
    · exact h

theorem exprs (hL : Function.Injective L.id) : {w w' : Walk} → Relabelled L before w w' →
    (es : List Expr) → Relabelled L before (w.exprs es) (w'.exprs (Expr.relabelAll L es))
  | _, _, h, [] => h
  | _, _, h, e :: rest => exprs hL (expr hL h e) rest

end

theorem expr? (h : Relabelled L before w w') (hL : Function.Injective L.id) (e : Option Expr) :
    Relabelled L before (w.expr? e) (w'.expr? (e.map (Expr.relabel L))) := by
  cases e with
  | none => exact h
  | some e => exact expr hL h e

mutual

/-- The walks stay side by side through a statement. -/
theorem stmt (hL : Function.Injective L.id) :
    {w w' : Walk} → Relabelled L before w w' → (s : Stmt) →
    Relabelled L before (w.stmt s) (w'.stmt (s.relabel L))
  | _, _, h, .expression e => expr hL h e
  | _, _, h, .print e => expr hL h e
  | _, _, h, .var name initial => ((h.declare name).expr? hL initial).bind name.text true
  | _, _, h, .block body => (stmts hL h.openScope body).closeScope
  | _, _, h, .branch condition yes none => stmt hL (expr hL h condition) yes
  | _, _, h, .branch condition yes (some no) => stmt hL (stmt hL (expr hL h condition) yes) no
  | _, _, h, .loop condition body => stmt hL (expr hL h condition) body
  | _, _, h, .function ⟨name, params, body⟩ =>
    functionBody hL (h.introduce name) .function ⟨name, params, body⟩
  | _, _, h, .ret keyword none => (h.returnKeyword keyword false).expr? hL none
  | _, _, h, .ret keyword (some value) => (h.returnKeyword keyword true).expr? hL (some value)
  | _, _, h, .classDecl name superclass decls =>
    { (methods hL (h.openClass hL name superclass) decls).closeClass superclass with
      inClass := h.inClass }

theorem stmts (hL : Function.Injective L.id) : {w w' : Walk} → Relabelled L before w w' →
    (body : List Stmt) → Relabelled L before (w.stmts body) (w'.stmts (Stmt.relabelAll L body))
  | _, _, h, [] => h
  | _, _, h, s :: rest => stmts hL (stmt hL h s) rest

theorem functionBody (hL : Function.Injective L.id) : {w w' : Walk} → Relabelled L before w w' →
    (within : FunctionScope) → (decl : FunctionDecl Stmt) →
    Relabelled L before (w.functionBody within decl)
      (w'.functionBody within (Stmt.relabelDecl L decl))
  | w, w', h, within, ⟨_, params, body⟩ => by
    have hinside : Relabelled L before { w with function := within }
        { w' with function := within } :=
      { h with function := rfl }
    have hbody := (stmts hL (hinside.openScope.introduceAll params) body).closeScope
    exact { hbody with function := h.function }

theorem methods (hL : Function.Injective L.id) : {w w' : Walk} → Relabelled L before w w' →
    (decls : List (FunctionDecl Stmt)) →
    Relabelled L before (w.methods decls) (w'.methods (Stmt.relabelDecls L decls))
  | _, _, h, [] => h
  | _, _, h, ⟨name, params, body⟩ :: rest =>
    methods hL (functionBody hL h (methodScope name) ⟨name, params, body⟩) rest

end

/-- The outcome of the second walk, if the first one finds no errors. -/
theorem result (h : Relabelled L before w w') {distances : Distances}
    (hr : w.result = .ok distances) : ∃ distances', w'.result = .ok distances' ∧
      ∀ id, distances'[L.id id]? = (distances[id]?).or before[L.id id]? := by
  obtain ⟨he, rfl⟩ := result_eq_ok.1 hr
  refine ⟨w'.distances, result_eq_ok.2 ⟨?_, rfl⟩, h.distances⟩
  rw [h.errors, he, Array.map_empty]

/-- The outcome of the first walk, if the second one finds no errors. -/
theorem result_of_result (h : Relabelled L before w w') {distances' : Distances}
    (hr : w'.result = .ok distances') :
    ∃ distances, w.result = .ok distances ∧
      ∀ id, distances'[L.id id]? = (distances[id]?).or before[L.id id]? := by
  obtain ⟨he, rfl⟩ := result_eq_ok.1 hr
  refine ⟨w.distances, result_eq_ok.2 ⟨?_, rfl⟩, h.distances⟩
  rwa [h.errors, Array.map_eq_empty_iff] at he

theorem start : Relabelled L ∅ .start .start where
  scopes := rfl
  function := rfl
  inClass := rfl
  distances id := by simp [Walk.start]
  errors := Array.map_empty.symm

end Relabelled

end Walk

/-- If a relabelled expression is accepted, so is the expression before, with the same distances. -/
theorem Expr.resolve_of_relabel {L : Relabelling} (hL : Function.Injective L.id) {e : Expr}
    {distances' : Distances} (h : (e.relabel L).resolve = .ok distances') :
    ∃ distances, e.resolve = .ok distances ∧ ∀ id, distances'[L.id id]? = distances[id]? := by
  obtain ⟨distances, hr, hd⟩ := (Walk.Relabelled.start.expr hL e).result_of_result h
  exact ⟨distances, hr, fun id => by simpa using hd id⟩

/-- If a relabelled program is accepted, so is the program before, with the same distances. -/
theorem Program.resolve_of_relabel {L : Relabelling} (hL : Function.Injective L.id) {p : Program}
    {distances' : Distances} (h : Program.resolve (Stmt.relabelAll L p) = .ok distances') :
    ∃ distances, p.resolve = .ok distances ∧ ∀ id, distances'[L.id id]? = distances[id]? := by
  obtain ⟨distances, hr, hd⟩ := (Walk.Relabelled.start.stmts hL p).result_of_result h
  exact ⟨distances, hr, fun id => by simpa using hd id⟩

end Lox
