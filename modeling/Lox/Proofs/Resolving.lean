import Mathlib
import Lox.Proofs.Identity
import Lox.Proofs.Scoping

/-!
# Resolution is lexical scoping

The walk through a tree leaves its state as it was, except for what it adds: the name that a
statement declares, distances for identities of the tree, and errors (`Walk.Passes`,
`Walk.scopes_stmt`). So if the identities are distinct, what is written down at an expression is
never overwritten, and a tree that is gone through without an error is resolved
(`Walk.resolved_stmts`).

* `Program.resolved_of_resolve`, `Expr.resolved_of_resolve`: what is accepted is resolved.
-/

namespace Lox

theorem Bindings.insert_insert {α : Type} (b : Bindings α) (name : String) (v v' : α) :
    (b.insert name v).insert name v' = b.insert name v' := by
  obtain ⟨entries⟩ := b
  refine congrArg Bindings.mk ?_
  change insertEntry name v' (insertEntry name v entries) = insertEntry name v' entries
  induction entries with
  | nil => simp [insertEntry]
  | cons entry rest ih =>
    by_cases h : name = entry.1 <;> simp [insertEntry, h, ih]

/-- What was bound to a name before does not matter. -/
theorem Scopes.bind_bind (scopes : Scopes) (name : String) (isDefined isDefined' : Bool) :
    (scopes.bind name isDefined).bind name isDefined' = scopes.bind name isDefined' := by
  cases scopes with
  | nil => rfl
  | cons scope outer => exact congrArg (· :: outer) (Bindings.insert_insert _ _ _ _)

namespace Walk

variable {w w₁ w₂ : Walk} {ids ids' : List Nat}

/-! ### What the walk keeps -/

/-- How the state changes while a part of a tree with the given identities is gone through. -/
structure Passes (ids : List Nat) (w w₁ : Walk) : Prop where
  function : w₁.function = w.function
  inClass : w₁.inClass = w.inClass
  distances : ∀ id ∉ ids, w₁.distances[id]? = w.distances[id]?
  errors : w.errors.toList <+: w₁.errors.toList

namespace Passes

theorem refl (ids : List Nat) (w : Walk) : Passes ids w w :=
  ⟨rfl, rfl, fun _ _ => rfl, List.prefix_refl _⟩

theorem trans (h : Passes ids w w₁) (h' : Passes ids' w₁ w₂) : Passes (ids ++ ids') w w₂ where
  function := h'.function.trans h.function
  inClass := h'.inClass.trans h.inClass
  distances id hid := by
    rw [List.mem_append, not_or] at hid
    rw [h'.distances id hid.2, h.distances id hid.1]
  errors := h.errors.trans h'.errors

theorem mono (h : Passes ids w w₁) (hi : ids ⊆ ids') : Passes ids' w w₁ :=
  ⟨h.function, h.inClass, fun id hid => h.distances id fun h' => hid (hi h'), h.errors⟩

/-- If there are no errors in the end, there were none before. -/
theorem errors_eq (h : Passes ids w w₁) (he : w₁.errors = #[]) : w.errors = #[] := by
  have := h.errors
  rw [he] at this
  exact Array.toList_eq_nil_iff.1 (List.prefix_nil.1 this)

end Passes

theorem passes_report (w : Walk) (lexeme : Lexeme) (cause : ResolveError.Cause) :
    Passes [] w (w.report lexeme cause) :=
  ⟨rfl, rfl, fun _ _ => rfl, ⟨[⟨lexeme, cause⟩], (Array.toList_push).symm⟩⟩

theorem errors_report_ne (w : Walk) (lexeme : Lexeme) (cause : ResolveError.Cause) :
    (w.report lexeme cause).errors ≠ #[] := by
  simp [report]

theorem passes_bind (w : Walk) (name : String) (isDefined : Bool) :
    Passes [] w (w.bind name isDefined) := by
  unfold bind
  split <;> exact ⟨rfl, rfl, fun _ _ => rfl, List.prefix_refl _⟩

@[simp]
theorem scopes_bind (w : Walk) (name : String) (isDefined : Bool) :
    (w.bind name isDefined).scopes = Scopes.bind w.scopes name isDefined := by
  unfold bind Scopes.bind
  split <;> simp_all

theorem passes_declare (w : Walk) (name : Lexeme) : Passes [] w (w.declare name) := by
  unfold declare
  split
  · exact .refl _ _
  · split
    · exact passes_report _ _ _
    · exact passes_bind _ _ _

variable {name : Lexeme} {id : Nat} {superclass : Option VarRef} {T : Table}

/-- A name that was declared without an error is new to the scope. -/
theorem at?_of_declare (he : (w.declare name).errors = #[]) :
    Scopes.at? w.scopes 0 name.text = none := by
  unfold declare at he
  split at he
  · next h =>
    rw [h]
    rfl
  · next scope outer h =>
    split at he
    · exact absurd he (errors_report_ne _ _ _)
    · next hc =>
      rw [h, Scopes.at?_zero]
      simpa [Bindings.contains] using hc

/-- A name that can be declared is declared and not yet defined. -/
theorem scopes_declare (he : (w.declare name).errors = #[]) :
    (w.declare name).scopes = Scopes.bind w.scopes name.text false := by
  unfold declare at he ⊢
  split
  · next h => rw [h]; rfl
  · next scope outer h =>
    rw [h] at he
    dsimp only at he
    split at he
    · exact absurd he (errors_report_ne _ _ _)
    · next hc => rw [if_neg hc, scopes_bind]

theorem bind_eq (w : Walk) (x : String) (isDefined : Bool) :
    w.bind x isDefined = { w with scopes := Scopes.bind w.scopes x isDefined } := by
  obtain ⟨scopes, _, _, _, _⟩ := w
  cases scopes <;> rfl

theorem declare_eq (name : Lexeme) (h : Scopes.at? w.scopes 0 name.text = none) :
    w.declare name = w.bind name.text false := by
  obtain ⟨scopes, _, _, _, _⟩ := w
  cases scopes with
  | nil => rfl
  | cons scope outer =>
    have hc : ¬ scope.contains name.text := by
      rw [Bindings.contains, (show scope.get? name.text = none from h)]
      exact Bool.false_ne_true
    exact if_neg hc

theorem declare_eq_report (name : Lexeme) {isDefined : Bool}
    (h : Scopes.at? w.scopes 0 name.text = some isDefined) :
    w.declare name = w.report name .alreadyDeclared := by
  obtain ⟨scopes, _, _, _, _⟩ := w
  cases scopes with
  | nil => cases h
  | cons scope outer =>
    have hc : scope.contains name.text := by
      rw [Bindings.contains, (show scope.get? name.text = some isDefined from h)]
      rfl
    exact if_pos hc

theorem isUndefined_eq (w : Walk) (x : String) :
    w.isUndefined x = (Scopes.at? w.scopes 0 x == some false) := by
  obtain ⟨scopes, _, _, _, _⟩ := w
  cases scopes <;> rfl

theorem passes_introduce (w : Walk) (name : Lexeme) : Passes [] w (w.introduce name) :=
  (passes_declare w name).trans (passes_bind _ _ _)

@[simp]
theorem scopes_introduce (w : Walk) (name : Lexeme) :
    (w.introduce name).scopes = Scopes.bind w.scopes name.text true := by
  rw [introduce, define, scopes_bind]
  unfold declare
  split
  · next h => rw [h]
  · next scope outer h =>
    split
    · rfl
    · rw [scopes_bind, Scopes.bind_bind]

theorem passes_introduceAll (w : Walk) (names : List Lexeme) :
    Passes [] w (w.introduceAll names) := by
  induction names generalizing w with
  | nil => exact .refl _ _
  | cons name rest ih => exact (passes_introduce w name).trans (ih _)

theorem scopes_introduceAll (scope : Scope) (outer : Scopes) (names : List Lexeme)
    (h : w.scopes = scope :: outer) :
    (w.introduceAll names).scopes =
      names.foldl (fun scope name => scope.insert name.text true) scope :: outer := by
  induction names generalizing w scope with
  | nil => exact h
  | cons name rest ih => exact ih _ (by rw [scopes_introduce, h]; rfl)

theorem passes_resolveLocal (w : Walk) (id : Nat) (name : String) :
    Passes [id] w (w.resolveLocal id name) := by
  unfold resolveLocal
  split
  · refine ⟨rfl, rfl, fun id' hid => ?_, List.prefix_refl _⟩
    rw [Std.ExtTreeMap.getElem?_insert, if_neg]
    rw [compare_eq_iff_eq]
    rintro rfl
    exact hid (List.mem_singleton_self _)
  · exact .refl _ _

@[simp]
theorem scopes_resolveLocal (w : Walk) (id : Nat) (name : String) :
    (w.resolveLocal id name).scopes = w.scopes := by
  unfold resolveLocal
  split <;> rfl

/-- The distance of a name is written down if nothing was before. -/
theorem getElem?_resolveLocal (name : String) (h : w.distances[id]? = none) :
    (w.resolveLocal id name).distances[id]? = Scopes.distance? w.scopes name := by
  have hd : w.distance? name = Scopes.distance? w.scopes name := rfl
  rw [resolveLocal, ← hd]
  split
  · next h' => simp [h']
  · next h' => rw [h, h']

theorem passes_readVariable (w : Walk) (id : Nat) (name : Lexeme) :
    Passes [id] w (w.readVariable id name) := by
  unfold readVariable
  dsimp only
  split
  · exact (passes_report _ _ _).trans (passes_resolveLocal _ _ _)
  · exact passes_resolveLocal _ _ _

@[simp]
theorem scopes_readVariable (w : Walk) (id : Nat) (name : Lexeme) :
    (w.readVariable id name).scopes = w.scopes := by
  unfold readVariable
  dsimp only
  split <;> simp [report]

/-- Without an error, a variable is read that is defined if it is in the innermost scope. -/
theorem readVariable_eq (he : (w.readVariable id name).errors = #[]) :
    w.readVariable id name = w.resolveLocal id name.text ∧ w.isUndefined name.text = false := by
  unfold readVariable at he ⊢
  dsimp only at he ⊢
  split at he
  · exact absurd ((passes_resolveLocal _ _ _).errors_eq he) (errors_report_ne _ _ _)
  · next h => exact ⟨by rw [if_neg h], by simpa using h⟩

mutual

/-- An expression writes down distances for its own identities only. -/
theorem passes_expr : (w : Walk) → (e : Expr) → Passes e.ids w (w.expr e)
  | w, .literal id _ => .refl [id] w
  | w, .unary _ _ _ right => (passes_expr w right).trans (.refl _ _)
  | w, .binary _ _ _ left right =>
    ((passes_expr w left).trans (passes_expr _ right)).trans (.refl _ _)
  | w, .logical _ _ _ left right =>
    ((passes_expr w left).trans (passes_expr _ right)).trans (.refl _ _)
  | w, .grouping _ inner => (passes_expr w inner).trans (.refl _ _)
  | w, .var id name => passes_readVariable w id name
  | w, .assign id name value => (passes_expr w value).trans (passes_resolveLocal _ id name.text)
  | w, .call _ callee _ arguments =>
    ((passes_expr w callee).trans (passes_exprs _ arguments)).trans (.refl _ _)
  | w, .get _ object _ => (passes_expr w object).trans (.refl _ _)
  | w, .set _ object _ value =>
    ((passes_expr w object).trans (passes_expr _ value)).trans (.refl _ _)
  | w, .this id keyword => by
    rw [expr]
    split
    · exact (passes_report _ _ _).mono (List.nil_subset _)
    · exact passes_resolveLocal _ _ _
  | w, .super id keyword _ => by
    rw [expr]
    split
    · exact (passes_report _ _ _).trans (passes_resolveLocal _ _ _)
    · exact (passes_report _ _ _).trans (passes_resolveLocal _ _ _)
    · exact passes_resolveLocal _ _ _

theorem passes_exprs : (w : Walk) → (es : List Expr) → Passes (Expr.idsAll es) w (w.exprs es)
  | w, [] => .refl [] w
  | w, e :: rest => (passes_expr w e).trans (passes_exprs _ rest)

end

mutual

/-- An expression opens no scope and declares nothing. -/
@[simp]
theorem scopes_expr : (w : Walk) → (e : Expr) → (w.expr e).scopes = w.scopes
  | _, .literal _ _ => rfl
  | w, .unary _ _ _ right => scopes_expr w right
  | w, .binary _ _ _ left right => (scopes_expr _ right).trans (scopes_expr w left)
  | w, .logical _ _ _ left right => (scopes_expr _ right).trans (scopes_expr w left)
  | w, .grouping _ inner => scopes_expr w inner
  | w, .var id name => scopes_readVariable w id name
  | w, .assign id name value => (scopes_resolveLocal _ id name.text).trans (scopes_expr w value)
  | w, .call _ callee _ arguments => (scopes_exprs _ arguments).trans (scopes_expr w callee)
  | w, .get _ object _ => scopes_expr w object
  | w, .set _ object _ value => (scopes_expr _ value).trans (scopes_expr w object)
  | w, .this id keyword => by
    rw [expr]
    split
    · rfl
    · exact scopes_resolveLocal _ _ _
  | w, .super id keyword _ => by
    rw [expr, scopes_resolveLocal]
    split <;> rfl

@[simp]
theorem scopes_exprs : (w : Walk) → (es : List Expr) → (w.exprs es).scopes = w.scopes
  | _, [] => rfl
  | w, e :: rest => (scopes_exprs _ rest).trans (scopes_expr w e)

end

theorem passes_expr? (w : Walk) (e : Option Expr) : Passes (Expr.idsOption e) w (w.expr? e) := by
  cases e with
  | none => exact .refl _ _
  | some e => exact passes_expr w e

@[simp]
theorem scopes_expr? (w : Walk) (e : Option Expr) : (w.expr? e).scopes = w.scopes := by
  cases e with
  | none => rfl
  | some e => exact scopes_expr w e

theorem passes_openScope (w : Walk) : Passes [] w w.openScope :=
  ⟨rfl, rfl, fun _ _ => rfl, List.prefix_refl _⟩

theorem passes_closeScope (w : Walk) : Passes [] w w.closeScope :=
  ⟨rfl, rfl, fun _ _ => rfl, List.prefix_refl _⟩

theorem passes_returnKeyword (w : Walk) (keyword : Lexeme) (hasValue : Bool) :
    Passes [] w (w.returnKeyword keyword hasValue) := by
  unfold returnKeyword
  dsimp only
  repeat' split
  · exact (passes_report _ _ _).trans (passes_report _ _ _)
  · exact passes_report _ _ _
  · exact passes_report _ _ _
  · exact .refl _ _

@[simp]
theorem scopes_returnKeyword (w : Walk) (keyword : Lexeme) (hasValue : Bool) :
    (w.returnKeyword keyword hasValue).scopes = w.scopes := by
  unfold returnKeyword
  dsimp only
  repeat' split
  all_goals rfl

/-- Without an error, a `return` stands in a function. -/
theorem function_ne_none_of_returnKeyword {keyword : Lexeme} {hasValue : Bool}
    (he : (w.returnKeyword keyword hasValue).errors = #[]) : w.function ≠ .none := by
  intro hn
  unfold returnKeyword at he
  simp only [hn, if_true] at he
  split at he
  · exact errors_report_ne _ _ _ he
  · exact errors_report_ne _ _ _ he

/-! ### Classes -/

/-- What a class body is, by whether there is a superclass. -/
def classKind : Option VarRef → ClassScope
  | none => .base
  | some _ => .derived

/-- The head of a class is gone through, but the scopes around its methods are not open yet. -/
def classHead (w : Walk) (name : Lexeme) : Option VarRef → Walk
  | none => { w with inClass := .base }.introduce name
  | some ref =>
    let w := { w with inClass := .base }.introduce name
    let w := if ref.name.text = name.text then w.report ref.name .inheritFromItself else w
    { w with inClass := .derived }.readVariable ref.id ref.name

theorem openClass_none (w : Walk) (name : Lexeme) :
    w.openClass name none = (w.classHead name none).openScope.bind "this" true := rfl

theorem openClass_some (w : Walk) (name : Lexeme) (ref : VarRef) :
    w.openClass name (some ref) =
      ((w.classHead name (some ref)).openScope.bind "super" true).openScope.bind "this" true := rfl

/-- The class that is gone through does not matter for what the walk keeps. -/
theorem Passes.withClass (h : Passes ids w w₁) (inClass : ClassScope) :
    Passes ids { w with inClass } { w₁ with inClass } :=
  ⟨h.function, rfl, h.distances, h.errors⟩

theorem passes_classHead (w : Walk) (name : Lexeme) (superclass : Option VarRef) :
    Passes (superclass.map VarRef.id).toList { w with inClass := classKind superclass }
      (w.classHead name superclass) := by
  have hname := passes_introduce { w with inClass := .base } name
  cases superclass with
  | none => exact hname
  | some ref =>
    change Passes ([] ++ [ref.id]) _ _
    refine Passes.trans ?_ (passes_readVariable _ _ _)
    split
    · exact (hname.trans (passes_report _ ref.name .inheritFromItself)).withClass .derived
    · exact hname.withClass .derived

theorem errors_introduce_of_classHead (he : (w.classHead name superclass).errors = #[]) :
    ({ w with inClass := .base }.introduce name).errors = #[] := by
  cases superclass with
  | none => exact he
  | some ref =>
    have := (passes_readVariable _ ref.id ref.name).errors_eq he
    dsimp only at this
    split at this
    · exact absurd this (errors_report_ne _ _ _)
    · exact this

theorem passes_openClass_classHead (w : Walk) (name : Lexeme) (superclass : Option VarRef) :
    Passes [] (w.classHead name superclass) (w.openClass name superclass) := by
  have hopen (w : Walk) (name : String) : Passes [] w (w.openScope.bind name true) :=
    (passes_openScope w).trans (passes_bind _ _ _)
  cases superclass with
  | none => exact hopen _ _
  | some ref => exact (hopen _ _).trans (hopen _ _)

theorem passes_openClass (w : Walk) (name : Lexeme) (superclass : Option VarRef) :
    Passes (superclass.map VarRef.id).toList { w with inClass := classKind superclass }
      (w.openClass name superclass) :=
  ((passes_classHead w name superclass).trans (passes_openClass_classHead w name superclass)).mono
    (by simp)

theorem scopes_classHead (w : Walk) (name : Lexeme) (superclass : Option VarRef) :
    (w.classHead name superclass).scopes = Scopes.bind w.scopes name.text true := by
  cases superclass with
  | none => exact scopes_introduce _ _
  | some ref =>
    refine (scopes_readVariable _ _ _).trans ?_
    dsimp only
    split <;> exact scopes_introduce _ _

theorem scopes_openClass (w : Walk) (name : Lexeme) (superclass : Option VarRef) :
    (w.openClass name superclass).scopes = classScopes name superclass w.scopes := by
  have hhead := scopes_classHead w name superclass
  cases superclass with
  | none =>
    rw [openClass_none, scopes_bind, openScope, hhead]
    rfl
  | some ref =>
    rw [openClass_some, scopes_bind, openScope, scopes_bind, openScope, hhead]
    rfl

theorem passes_closeClass (w : Walk) (superclass : Option VarRef) :
    Passes [] w (w.closeClass superclass) := by
  unfold closeClass
  split
  · exact (passes_closeScope _).trans (passes_closeScope _)
  · exact passes_closeScope _

theorem scopes_closeClass {scopes : Scopes} (h : w.scopes = classScopes name superclass scopes) :
    (w.closeClass superclass).scopes = scopes.bind name.text true := by
  cases superclass <;> simp [closeClass, closeScope, h, classScopes]

/-! ### Statements -/

theorem scopesAfterAll_cons (stmts : List Stmt) (scope : Scope) (outer : Scopes) :
    (Stmt.scopesAfterAll stmts (scope :: outer)).tail = outer := by
  induction stmts generalizing scope with
  | nil => rfl
  | cons stmt rest ih =>
    rw [Stmt.scopesAfterAll, List.foldl_cons, Stmt.scopesAfter]
    split
    · exact ih _
    · exact ih _

mutual

/-- A statement writes down distances for its own identities only. -/
theorem passes_stmt : (w : Walk) → (stmt : Stmt) → Passes stmt.ids w (w.stmt stmt)
  | w, .expression e => passes_expr w e
  | w, .print e => passes_expr w e
  | w, .var name initial =>
    (((passes_declare w name).trans (passes_expr? _ initial)).trans (passes_bind _ _ _)).mono
      (by simp [Stmt.ids])
  | w, .block body =>
    (((passes_openScope w).trans (passes_stmts _ body)).trans (passes_closeScope _)).mono
      (by simp [Stmt.ids])
  | w, .branch condition yes none =>
    ((passes_expr w condition).trans (passes_stmt _ yes)).trans (.refl [] _)
  | w, .branch condition yes (some no) =>
    ((passes_expr w condition).trans (passes_stmt _ yes)).trans (passes_stmt _ no)
  | w, .loop condition body => (passes_expr w condition).trans (passes_stmt _ body)
  | w, .function decl =>
    (passes_introduce w decl.name).trans (passes_functionBody _ .function decl)
  | w, .ret keyword value => (passes_returnKeyword w keyword _).trans (passes_expr? _ value)
  | w, .classDecl name superclass methods => by
    have h := ((passes_openClass w name superclass).trans (passes_methods _ methods)).trans
      (passes_closeClass _ superclass)
    exact (h.withClass w.inClass).mono (by simp [Stmt.ids])

theorem passes_stmts : (w : Walk) → (stmts : List Stmt) →
    Passes (Stmt.idsAll stmts) w (w.stmts stmts)
  | w, [] => .refl [] w
  | w, stmt :: rest => (passes_stmt w stmt).trans (passes_stmts _ rest)

theorem passes_functionBody : (w : Walk) → (within : FunctionScope) → (decl : FunctionDecl Stmt) →
    Passes (Stmt.idsDecl decl) w (w.functionBody within decl)
  | w, within, ⟨_, params, body⟩ => by
    have h := (((passes_openScope { w with function := within }).trans
      (passes_introduceAll _ params)).trans (passes_stmts _ body)).trans (passes_closeScope _)
    refine ⟨rfl, h.inClass, fun id hid => h.distances id ?_, h.errors⟩
    simpa [Stmt.idsDecl] using hid

theorem passes_methods : (w : Walk) → (decls : List (FunctionDecl Stmt)) →
    Passes (Stmt.idsDecls decls) w (w.methods decls)
  | w, [] => .refl [] w
  | w, decl :: rest => (passes_functionBody w _ decl).trans (passes_methods _ rest)

end

mutual

/-- A statement adds the name that it declares to the innermost scope. -/
theorem scopes_stmt : (w : Walk) → (stmt : Stmt) → stmt.Regular →
    (w.stmt stmt).scopes = stmt.scopesAfter w.scopes
  | w, .expression e, _ => scopes_expr w e
  | w, .print e, _ => scopes_expr w e
  | w, .var name initial, _ => by
    rw [stmt, define, scopes_bind, scopes_expr?, ← scopes_bind]
    exact scopes_introduce w name
  | w, .block body, h => by
    rw [stmt, closeScope, scopes_stmts _ body h]
    exact scopesAfterAll_cons body ∅ w.scopes
  | w, .branch condition yes none, h => by
    rw [stmt, scopes_stmt _ yes h.2.1.1, Stmt.scopesAfter, h.2.1.2, scopes_expr]
    rfl
  | w, .branch condition yes (some no), h => by
    rw [stmt, scopes_stmt _ no h.2.2.1, Stmt.scopesAfter, h.2.2.2, scopes_stmt _ yes h.2.1.1,
      Stmt.scopesAfter, h.2.1.2, scopes_expr]
    rfl
  | w, .loop condition body, h => by
    rw [stmt, scopes_stmt _ body h.2.1, Stmt.scopesAfter, h.2.2, scopes_expr]
    rfl
  | w, .function decl, h => by
    rw [stmt, scopes_functionBody _ _ decl h.2, scopes_introduce]
    rfl
  | w, .ret keyword value, _ => by
    rw [stmt, scopes_expr?, scopes_returnKeyword]
    rfl
  | w, .classDecl name superclass methods, h => by
    rw [stmt]
    exact scopes_closeClass ((scopes_methods _ methods h.2.2).trans (scopes_openClass w name _))

theorem scopes_stmts : (w : Walk) → (stmts : List Stmt) → Stmt.AllRegular stmts →
    (w.stmts stmts).scopes = Stmt.scopesAfterAll stmts w.scopes
  | _, [], _ => rfl
  | w, stmt :: rest, h => by
    rw [stmts, scopes_stmts _ rest h.2, scopes_stmt w stmt h.1]
    rfl

theorem scopes_functionBody : (w : Walk) → (within : FunctionScope) →
    (decl : FunctionDecl Stmt) → Stmt.DeclRegular decl →
    (w.functionBody within decl).scopes = w.scopes
  | w, within, ⟨_, params, body⟩, h => by
    rw [functionBody]
    change (stmts _ body).scopes.tail = _
    rw [scopes_stmts _ body h.2, scopes_introduceAll ∅ w.scopes params rfl]
    exact scopesAfterAll_cons body _ _

theorem scopes_methods : (w : Walk) → (decls : List (FunctionDecl Stmt)) →
    Stmt.DeclsRegular decls → (w.methods decls).scopes = w.scopes
  | _, [], _ => rfl
  | w, decl :: rest, h =>
    (scopes_methods _ rest h.2).trans (scopes_functionBody w _ decl h.1)

end

/-! ### What is written down -/

/-- The table has what was written down for the given identities between two states of the walk. -/
structure Records (T : Table) (ids : List Nat) (w w₁ : Walk) : Prop where
  nodup : ids.Nodup
  fresh : ∀ id ∈ ids, w.distances[id]? = none
  settled : ∀ id ∈ ids, id < T.bound ∧ T.distances[id]? = w₁.distances[id]?

/-- The walk never comes back to an identity, so each part of a tree has its own records. -/
theorem Records.split (h : Records T (ids ++ ids') w w₂) (h₁ : Passes ids w w₁)
    (h₂ : Passes ids' w₁ w₂) : Records T ids w w₁ ∧ Records T ids' w₁ w₂ := by
  obtain ⟨hn, hn', hd⟩ := List.nodup_append.1 h.nodup
  constructor
  · refine ⟨hn, fun id hid => h.fresh id (List.mem_append_left _ hid), fun id hid => ?_⟩
    obtain ⟨hlt, hT⟩ := h.settled id (List.mem_append_left _ hid)
    exact ⟨hlt, hT.trans (h₂.distances id fun hid' => hd id hid id hid' rfl)⟩
  · refine ⟨hn', fun id hid => ?_, fun id hid => h.settled id (List.mem_append_right _ hid)⟩
    rw [h₁.distances id fun hid' => hd id hid' id hid rfl]
    exact h.fresh id (List.mem_append_right _ hid)

/-- Steps around a part that write nothing down leave its records alone. -/
theorem Records.inner {w₃ : Walk} (h : Records T ids w w₃)
    (h₁ : ∀ id ∉ ([] : List Nat), w₁.distances[id]? = w.distances[id]?)
    (h₂ : ∀ id ∉ ([] : List Nat), w₃.distances[id]? = w₂.distances[id]?) : Records T ids w₁ w₂ where
  nodup := h.nodup
  fresh id hid := (h₁ id List.not_mem_nil).trans (h.fresh id hid)
  settled id hid := ⟨(h.settled id hid).1, (h.settled id hid).2.trans (h₂ id List.not_mem_nil)⟩

theorem Records.refers {name : String} (h : Records T [id] w (w.resolveLocal id name)) :
    T.Refers w.scopes id name := by
  obtain ⟨hlt, hT⟩ := h.settled id (List.mem_singleton_self id)
  refine ⟨hlt, hT.trans (getElem?_resolveLocal name (h.fresh id (List.mem_singleton_self id)))⟩

end Walk

/-- What holds of the scopes around an expression in a class body of the given kind: a name that is
    not yet defined is in the innermost scope and no keyword, and `super` is bound right around
    `this`. -/
structure Scopes.Sound (scopes : Scopes) (inClass : ClassScope) : Prop where
  outer : ∀ distance name, scopes.at? (distance + 1) name ≠ some false
  hidden : ∀ distance, scopes.at? distance "this" ≠ some false ∧
    scopes.at? distance "super" ≠ some false
  this_of_super : ∀ distance, (scopes.at? distance "super").isSome →
    ∃ inner, distance = inner + 1 ∧ scopes.at? inner "this" = some true
  this_of_inClass : inClass ≠ .none → ∃ distance, (scopes.at? distance "this").isSome
  super_of_derived : inClass = .derived → ∃ distance, (scopes.at? distance "super").isSome

/-- Between statements, moreover, all names are defined. -/
structure Scopes.Settled (scopes : Scopes) (inClass : ClassScope) : Prop
    extends Scopes.Sound scopes inClass where
  isDefined : ∀ distance name, scopes.at? distance name ≠ some false

namespace Scopes

variable {scopes : Scopes} {inClass : ClassScope} {name : Lexeme}

theorem isSome_distance? {name : String} {distance : Nat} (h : (scopes.at? distance name).isSome) :
    (scopes.distance? name).isSome := by
  by_contra hn
  rw [Option.not_isSome_iff_eq_none, distance?_eq_none] at hn
  simp [hn distance] at h

theorem settled_nil : Settled [] .none where
  outer := by simp
  hidden := by simp
  this_of_super := by simp
  this_of_inClass h := absurd rfl h
  super_of_derived := nofun
  isDefined := by simp

/-- A scope is opened. -/
theorem Settled.push (h : Settled scopes inClass) {scope : Scope}
    (hd : ∀ name, scope.get? name ≠ some false) (hs : scope.get? "super" = none) :
    Settled (scope :: scopes) inClass where
  outer := fun distance name => h.isDefined distance name
  hidden distance := by
    cases distance with
    | zero => exact ⟨hd _, hd _⟩
    | succ distance => exact h.hidden distance
  this_of_super distance hsuper := by
    cases distance with
    | zero => simp [hs] at hsuper
    | succ distance =>
      obtain ⟨inner, rfl, hthis⟩ := h.this_of_super distance hsuper
      exact ⟨inner + 1, rfl, hthis⟩
  this_of_inClass hc := (h.this_of_inClass hc).imp' (· + 1) fun _ => id
  super_of_derived hc := (h.super_of_derived hc).imp' (· + 1) fun _ => id
  isDefined distance name := by
    cases distance with
    | zero => exact hd name
    | succ distance => exact h.isDefined distance name

/-- A name is declared, and not yet defined. -/
theorem Settled.declare (h : Settled scopes inClass) (hn : name.IsName) (isDefined : Bool) :
    Sound (scopes.bind name.text isDefined) inClass := by
  have hthis := at?_bind_of_ne scopes hn.ne_this.symm isDefined
  have hsuper := at?_bind_of_ne scopes hn.ne_super.symm isDefined
  constructor
  · intro distance x
    cases scopes with
    | nil => simp [bind]
    | cons scope outer => exact h.outer distance x
  · intro distance
    rw [hthis, hsuper]
    exact h.hidden distance
  · intro distance
    simp only [hthis, hsuper]
    exact h.this_of_super distance
  · simp only [hthis]
    exact h.this_of_inClass
  · simp only [hsuper]
    exact h.super_of_derived

/-- A name is declared and defined. -/
theorem Settled.introduce (h : Settled scopes inClass) (hn : name.IsName) :
    Settled (scopes.bind name.text true) inClass where
  toSound := h.declare hn true
  isDefined distance x := by
    by_cases hx : x = name.text
    · cases scopes with
      | nil => simp [bind]
      | cons scope outer =>
        cases distance with
        | zero => simp [bind, hx]
        | succ distance => exact h.isDefined (distance + 1) x
    · rw [at?_bind_of_ne _ hx]
      exact h.isDefined distance x

theorem Settled.scopesAfter (h : Settled scopes inClass) {stmt : Stmt}
    (hn : ∀ name ∈ stmt.declares?, name.IsName) : Settled (stmt.scopesAfter scopes) inClass := by
  rw [Stmt.scopesAfter]
  split
  · exact h
  · next name hd => exact h.introduce (hn name hd)

/-- The scopes around the methods of a class. -/
theorem Settled.classScopes (h : Settled scopes inClass) (hn : name.IsName)
    (superclass : Option VarRef) :
    Settled (classScopes name superclass scopes) (Walk.classKind superclass) := by
  have hb := h.introduce hn
  have hthis : ∀ x, Scope.this.get? x ≠ some false := by
    intro x
    rw [Scope.this, Bindings.get?_insert]
    split <;> simp
  have hsuper : ∀ x, Scope.super.get? x ≠ some false := by
    intro x
    rw [Scope.super, Bindings.get?_insert]
    split <;> simp
  cases superclass with
  | none =>
    have hp : Settled (Scope.this :: scopes.bind name.text true) inClass := hb.push hthis rfl
    exact ⟨⟨hp.outer, hp.hidden, hp.this_of_super, fun _ => ⟨0, rfl⟩, nofun⟩, hp.isDefined⟩
  | some ref =>
    refine ⟨⟨fun distance x => ?_, fun distance => ?_, fun distance hs => ?_, fun _ => ⟨0, rfl⟩,
      fun _ => ⟨1, rfl⟩⟩, fun distance x => ?_⟩
    · cases distance with
      | zero => exact hsuper x
      | succ distance => exact hb.isDefined distance x
    · match distance with
      | 0 => exact ⟨hthis "this", hthis "super"⟩
      | 1 => exact ⟨hsuper "this", hsuper "super"⟩
      | distance + 2 => exact hb.hidden distance
    · match distance, hs with
      | 1, _ => exact ⟨0, rfl, rfl⟩
      | distance + 2, hs =>
        obtain ⟨inner, rfl, h'⟩ := hb.this_of_super distance hs
        exact ⟨inner + 2, rfl, h'⟩
    · match distance with
      | 0 => exact hthis x
      | 1 => exact hsuper x
      | distance + 2 => exact hb.isDefined distance x

end Scopes

/-! ### Accepted trees are resolved -/

namespace Walk

variable {T : Table} {w : Walk}

/-- A name that is declared in an open scope and not waiting for its initial value is defined. -/
theorem isDefined_of_isUndefined {name : String}
    (hs : ∀ distance x, Scopes.at? w.scopes (distance + 1) x ≠ some false)
    (hu : w.isUndefined name = false) {distance : Nat}
    (h : Scopes.distance? w.scopes name = some distance) :
    Scopes.at? w.scopes distance name = some true := by
  obtain ⟨isDefined, hd⟩ := Option.isSome_iff_exists.1 (Scopes.at?_of_distance? h)
  rw [hd]
  cases isDefined with
  | true => rfl
  | false =>
    -- Only in the innermost scope there can be a name that waits, and it is not this one.
    cases distance with
    | succ distance => exact absurd hd (hs distance name)
    | zero =>
      unfold isUndefined at hu
      split at hu
      · next hnil => simp [hnil] at hd
      · next scope outer hcons =>
        rw [hcons, Scopes.at?_zero] at hd
        simp [hd] at hu

theorem reads_of_readVariable {id : Nat} {name : Lexeme}
    (hs : ∀ distance x, Scopes.at? w.scopes (distance + 1) x ≠ some false)
    (hr : Records T [id] w (w.readVariable id name)) (he : (w.readVariable id name).errors = #[]) :
    T.Reads w.scopes id name.text := by
  obtain ⟨heq, hu⟩ := readVariable_eq he
  rw [heq] at hr
  exact ⟨hr.refers, fun _ => isDefined_of_isUndefined hs hu⟩

/-- The scopes that bind `this` and `super` define them. -/
theorem reads_of_hidden {id : Nat} {name : String} (hr : Records T [id] w (w.resolveLocal id name))
    (hd : ∀ distance, Scopes.at? w.scopes distance name ≠ some false) :
    T.Reads w.scopes id name := by
  refine ⟨hr.refers, fun distance h => ?_⟩
  obtain ⟨isDefined, h⟩ := Option.isSome_iff_exists.1 (Scopes.at?_of_distance? h)
  cases isDefined with
  | true => exact h
  | false => exact absurd h (hd distance)

mutual

/-- An expression that is gone through without an error is resolved. -/
theorem resolved_expr : (w : Walk) → (e : Expr) → Records T e.ids w (w.expr e) →
    Scopes.Sound w.scopes w.inClass → (w.expr e).errors = #[] → e.Regular → e.Resolved T w.scopes
  | _, .literal _ _, _, _, _, _ => trivial
  | w, .unary _ _ _ right, hr, hs, he, h =>
    resolved_expr w right (hr.split (passes_expr w right) (.refl _ _)).1 hs he h
  | w, .binary _ _ _ left right, hr, hs, he, h => by
    have hl := passes_expr w left
    have hr' := (hr.split (hl.trans (passes_expr _ right)) (.refl _ _)).1.split hl
      (passes_expr _ right)
    have := resolved_expr (w.expr left) right hr'.2 (by rwa [scopes_expr, hl.inClass]) he h.2
    rw [scopes_expr] at this
    exact ⟨resolved_expr w left hr'.1 hs ((passes_expr _ right).errors_eq he) h.1, this⟩
  | w, .logical _ _ _ left right, hr, hs, he, h => by
    have hl := passes_expr w left
    have hr' := (hr.split (hl.trans (passes_expr _ right)) (.refl _ _)).1.split hl
      (passes_expr _ right)
    have := resolved_expr (w.expr left) right hr'.2 (by rwa [scopes_expr, hl.inClass]) he h.2
    rw [scopes_expr] at this
    exact ⟨resolved_expr w left hr'.1 hs ((passes_expr _ right).errors_eq he) h.1, this⟩
  | w, .grouping _ inner, hr, hs, he, h =>
    resolved_expr w inner (hr.split (passes_expr w inner) (.refl _ _)).1 hs he h
  | w, .var id name, hr, hs, he, h => ⟨h, reads_of_readVariable hs.outer hr he⟩
  | w, .assign id name value, hr, hs, he, h => by
    have hv := passes_expr w value
    have hr' := hr.split hv (passes_resolveLocal _ id name.text)
    have := hr'.2.refers
    rw [scopes_expr] at this
    exact ⟨⟨h.1, this⟩,
      resolved_expr w value hr'.1 hs ((passes_resolveLocal _ _ _).errors_eq he) h.2⟩
  | w, .call _ callee _ arguments, hr, hs, he, h => by
    have hc := passes_expr w callee
    have hr' := (hr.split (hc.trans (passes_exprs _ arguments)) (.refl _ _)).1.split hc
      (passes_exprs _ arguments)
    have := resolved_exprs (w.expr callee) arguments hr'.2 (by rwa [scopes_expr, hc.inClass]) he h.2
    rw [scopes_expr] at this
    exact ⟨resolved_expr w callee hr'.1 hs ((passes_exprs _ arguments).errors_eq he) h.1, this⟩
  | w, .get _ object _, hr, hs, he, h =>
    resolved_expr w object (hr.split (passes_expr w object) (.refl _ _)).1 hs he h
  | w, .set _ object _ value, hr, hs, he, h => by
    have ho := passes_expr w object
    have hr' := (hr.split (ho.trans (passes_expr _ value)) (.refl _ _)).1.split ho
      (passes_expr _ value)
    have := resolved_expr (w.expr object) value hr'.2 (by rwa [scopes_expr, ho.inClass]) he h.2
    rw [scopes_expr] at this
    exact ⟨resolved_expr w object hr'.1 hs ((passes_expr _ value).errors_eq he) h.1, this⟩
  | w, .this id keyword, hr, hs, he, h => by
    have hthis : keyword.text = "this" := h
    rw [expr] at hr he
    split at he
    · exact absurd he (errors_report_ne _ _ _)
    · next hc =>
      rw [if_neg hc, hthis] at hr
      obtain ⟨distance, hd⟩ := hs.this_of_inClass hc
      exact ⟨h, reads_of_hidden hr fun distance => (hs.hidden distance).1,
        Scopes.isSome_distance? hd⟩
  | w, .super id keyword _, hr, hs, he, h => by
    have hsuper : keyword.text = "super" := h
    rw [expr] at hr he
    cases hc : w.inClass with
    | none =>
      rw [hc] at he
      exact absurd ((passes_resolveLocal _ _ _).errors_eq he) (errors_report_ne _ _ _)
    | base =>
      rw [hc] at he
      exact absurd ((passes_resolveLocal _ _ _).errors_eq he) (errors_report_ne _ _ _)
    | derived =>
      rw [hc] at hr
      simp only [hsuper] at hr
      obtain ⟨_, hd⟩ := hs.super_of_derived hc
      obtain ⟨distance, hd⟩ := Option.isSome_iff_exists.1 (Scopes.isSome_distance? hd)
      obtain ⟨inner, rfl, hthis⟩ := hs.this_of_super distance (Scopes.at?_of_distance? hd)
      exact ⟨h, reads_of_hidden hr fun distance => (hs.hidden distance).2, inner, hd, hthis⟩

theorem resolved_exprs : (w : Walk) → (es : List Expr) →
    Records T (Expr.idsAll es) w (w.exprs es) → Scopes.Sound w.scopes w.inClass →
    (w.exprs es).errors = #[] → Expr.AllRegular es → Expr.AllResolved T w.scopes es
  | _, [], _, _, _, _ => trivial
  | w, e :: rest, hr, hs, he, h => by
    have hp := passes_expr w e
    have hr' := hr.split hp (passes_exprs _ rest)
    have := resolved_exprs (w.expr e) rest hr'.2 (by rwa [scopes_expr, hp.inClass]) he h.2
    rw [scopes_expr] at this
    exact ⟨resolved_expr w e hr'.1 hs ((passes_exprs _ rest).errors_eq he) h.1, this⟩

end

theorem resolved_expr? {e : Option Expr} (hr : Records T (Expr.idsOption e) w (w.expr? e))
    (hs : Scopes.Sound w.scopes w.inClass) (he : (w.expr? e).errors = #[])
    (h : Expr.OptionRegular e) : Expr.OptionResolved T w.scopes e := by
  rintro e' rfl
  exact resolved_expr w e' hr hs he (h e' rfl)

theorem settled_openScope (hs : Scopes.Settled w.scopes w.inClass) :
    Scopes.Settled w.openScope.scopes w.inClass :=
  hs.push (by simp) rfl

/-- Parameters that are names open a scope like any other. -/
theorem settled_ofNames {scopes : Scopes} {inClass : ClassScope} (hs : scopes.Settled inClass)
    {params : List Lexeme} (hn : ∀ param ∈ params, param.IsName) :
    Scopes.Settled (Scope.ofNames params :: scopes) inClass := by
  refine hs.push (fun name => ?_) ?_
  · rw [Scope.get?_ofNames]
    split <;> simp
  · rw [Scope.get?_ofNames, if_neg]
    rintro hm
    obtain ⟨param, hp, ht⟩ := List.mem_map.1 hm
    exact (hn param hp).ne_super ht

theorem isName_of_regular {stmt : Stmt} (h : stmt.Regular) :
    ∀ name ∈ stmt.declares?, name.IsName := by
  cases stmt <;> simp_all [Stmt.Regular, Stmt.declares?]

/-- The superclass is looked up where the class is declared. -/
theorem resolved_classHead {name : Lexeme} {superclass : Option VarRef}
    (hr : Records T (superclass.map VarRef.id).toList w (w.classHead name superclass))
    (hs : Scopes.Settled w.scopes w.inClass) (he : (w.classHead name superclass).errors = #[])
    (hn : name.IsName) (h : ∀ ref ∈ superclass, ref.name.IsName) :
    SuperclassResolved T (Scopes.bind w.scopes name.text true) superclass := by
  rintro ref rfl
  have hscopes := scopes_classHead w name (some ref)
  rw [classHead] at hr he hscopes
  rw [scopes_readVariable] at hscopes
  rw [← hscopes]
  refine ⟨h ref rfl, reads_of_readVariable ?_ (hr.inner ?_ fun _ _ => rfl) he⟩
  · rw [hscopes]
    exact fun distance => (hs.introduce hn).isDefined (distance + 1)
  · have hi := passes_introduce { w with inClass := .base } name
    dsimp only
    split
    · exact (hi.trans (passes_report _ ref.name .inheritFromItself)).distances
    · exact hi.distances

mutual

/-- A statement that is gone through without an error is resolved. -/
theorem resolved_stmt : (w : Walk) → (stmt : Stmt) → Records T stmt.ids w (w.stmt stmt) →
    Scopes.Settled w.scopes w.inClass → (w.stmt stmt).errors = #[] → stmt.Regular →
    stmt.Resolved T w.function w.scopes
  | w, .expression e, hr, hs, he, h => resolved_expr w e hr hs.toSound he h
  | w, .print e, hr, hs, he, h => resolved_expr w e hr hs.toSound he h
  | w, .var name initial, hr, hs, he, h => by
    have hd := passes_declare w name
    have hb := passes_bind ((w.declare name).expr? initial) name.text true
    -- The initial value is gone through while the name is declared, but not yet defined.
    have hd' := (passes_expr? _ initial).errors_eq (hb.errors_eq he)
    have hscopes := scopes_declare hd'
    have hs' := hs.declare h.1 false
    have := resolved_expr? (w := w.declare name) (hr.inner hd.distances hb.distances)
      (by rwa [hscopes, hd.inClass]) (hb.errors_eq he) h.2
    rw [hscopes] at this
    exact ⟨⟨h.1, at?_of_declare hd'⟩, this⟩
  | w, .block body, hr, hs, he, h =>
    resolved_stmts w.openScope body (hr.inner (passes_openScope w).distances fun _ _ => rfl)
      (settled_openScope hs) he h
  | w, .branch condition yes none, hr, hs, he, h => by
    have hc := passes_expr w condition
    have hy := passes_stmt (w.expr condition) yes
    have hr' := (hr.split (hc.trans hy) (.refl _ _)).1.split hc hy
    have hyes := resolved_stmt (w.expr condition) yes hr'.2 (by rwa [scopes_expr, hc.inClass]) he
      h.2.1.1
    rw [scopes_expr, hc.function] at hyes
    exact ⟨resolved_expr w condition hr'.1 hs.toSound (hy.errors_eq he) h.1,
      ⟨hyes, h.2.1.2⟩, trivial⟩
  | w, .branch condition yes (some no), hr, hs, he, h => by
    have hc := passes_expr w condition
    have hy := passes_stmt (w.expr condition) yes
    have hn := passes_stmt ((w.expr condition).stmt yes) no
    have hscopes : ((w.expr condition).stmt yes).scopes = w.scopes := by
      rw [scopes_stmt _ yes h.2.1.1, Stmt.scopesAfter, h.2.1.2, scopes_expr]
    have hr' := hr.split (hc.trans hy) hn
    have hr'' := hr'.1.split hc hy
    have hyes := resolved_stmt (w.expr condition) yes hr''.2 (by rwa [scopes_expr, hc.inClass])
      (hn.errors_eq he) h.2.1.1
    have hno := resolved_stmt ((w.expr condition).stmt yes) no hr'.2
      (by rwa [hscopes, hy.inClass, hc.inClass]) he h.2.2.1
    rw [scopes_expr, hc.function] at hyes
    rw [hscopes, hy.function, hc.function] at hno
    exact ⟨resolved_expr w condition hr''.1 hs.toSound (hy.errors_eq (hn.errors_eq he)) h.1,
      ⟨hyes, h.2.1.2⟩, hno, h.2.2.2⟩
  | w, .loop condition body, hr, hs, he, h => by
    have hc := passes_expr w condition
    have hb := passes_stmt (w.expr condition) body
    have hr' := hr.split hc hb
    have hbody := resolved_stmt (w.expr condition) body hr'.2 (by rwa [scopes_expr, hc.inClass]) he
      h.2.1
    rw [scopes_expr, hc.function] at hbody
    exact ⟨resolved_expr w condition hr'.1 hs.toSound (hb.errors_eq he) h.1, hbody, h.2.2⟩
  | w, .function decl, hr, hs, he, h => by
    have hi := passes_introduce w decl.name
    have := resolved_functionBody (w.introduce decl.name) .function decl
      (hr.inner hi.distances fun _ _ => rfl)
      (by rw [scopes_introduce, hi.inClass]; exact hs.introduce h.1) he h.2
    rw [scopes_introduce] at this
    have he' := (passes_functionBody _ _ decl).errors_eq he
    exact ⟨⟨h.1, at?_of_declare ((passes_bind _ _ _).errors_eq he')⟩, this⟩
  | w, .ret keyword value, hr, hs, he, h => by
    have hk := passes_returnKeyword w keyword value.isSome
    have := resolved_expr? (hr.inner hk.distances fun _ _ => rfl)
      (by rw [scopes_returnKeyword, hk.inClass]; exact hs.toSound) he h
    rw [scopes_returnKeyword] at this
    exact ⟨function_ne_none_of_returnKeyword ((passes_expr? _ value).errors_eq he), this⟩
  | w, .classDecl name superclass decls, hr, hs, he, h => by
    have ho := passes_openClass w name superclass
    have hm := passes_methods (w.openClass name superclass) decls
    have hc := passes_closeClass ((w.openClass name superclass).methods decls) superclass
    have hr' : Records T _ { w with inClass := classKind superclass } _ :=
      hr.inner (fun _ _ => rfl) hc.distances
    have hr'' := hr'.split ho hm
    have he' := hm.errors_eq (hc.errors_eq he)
    have hmethods := resolved_methods (w.openClass name superclass) decls hr''.2
      (by rw [scopes_openClass, ho.inClass]; exact hs.classScopes h.1 superclass) (hc.errors_eq he)
      h.2.2
    rw [scopes_openClass] at hmethods
    have hhead := passes_openClass_classHead w name superclass
    have hd := (passes_bind _ _ _).errors_eq (errors_introduce_of_classHead (hhead.errors_eq he'))
    refine ⟨⟨h.1, at?_of_declare (w := { w with inClass := .base }) hd⟩, ?_, hmethods⟩
    exact resolved_classHead (hr''.1.inner (fun _ _ => rfl) hhead.distances) hs
      (hhead.errors_eq he') h.1 h.2.1

theorem resolved_stmts : (w : Walk) → (stmts : List Stmt) →
    Records T (Stmt.idsAll stmts) w (w.stmts stmts) → Scopes.Settled w.scopes w.inClass →
    (w.stmts stmts).errors = #[] → Stmt.AllRegular stmts →
    Stmt.AllResolved T w.function w.scopes stmts
  | _, [], _, _, _, _ => trivial
  | w, stmt :: rest, hr, hs, he, h => by
    have hp := passes_stmt w stmt
    have hr' := hr.split hp (passes_stmts _ rest)
    have hscopes := scopes_stmt w stmt h.1
    have hrest := resolved_stmts (w.stmt stmt) rest hr'.2
      (by rw [hscopes, hp.inClass]; exact hs.scopesAfter (isName_of_regular h.1)) he h.2
    rw [hscopes, hp.function] at hrest
    exact ⟨resolved_stmt w stmt hr'.1 hs ((passes_stmts _ rest).errors_eq he) h.1, hrest⟩

theorem resolved_functionBody : (w : Walk) → (within : FunctionScope) →
    (decl : FunctionDecl Stmt) → Records T (Stmt.idsDecl decl) w (w.functionBody within decl) →
    Scopes.Settled w.scopes w.inClass → (w.functionBody within decl).errors = #[] →
    Stmt.DeclRegular decl → Stmt.DeclResolved T within w.scopes decl
  | w, within, ⟨_, params, body⟩, hr, hs, he, h => by
    let inside := { w with function := within }.openScope
    have hp := passes_introduceAll inside params
    have hscopes := scopes_introduceAll (w := inside) ∅ w.scopes params rfl
    have hbody := resolved_stmts (inside.introduceAll params) body
      (hr.inner hp.distances fun _ _ => rfl)
      (by rw [hscopes, hp.inClass]; exact settled_ofNames hs h.1) he h.2
    rw [hscopes, hp.function] at hbody
    exact ⟨h.1, hbody⟩

/-- Methods that are gone through without an error are resolved. -/
theorem resolved_methods : (w : Walk) → (decls : List (FunctionDecl Stmt)) →
    Records T (Stmt.idsDecls decls) w (w.methods decls) → Scopes.Settled w.scopes w.inClass →
    (w.methods decls).errors = #[] → Stmt.DeclsRegular decls →
    Stmt.MethodsResolved T w.scopes decls
  | _, [], _, _, _, _ => trivial
  | w, decl :: rest, hr, hs, he, h => by
    have hp := passes_functionBody w (methodScope decl.name) decl
    have hr' := hr.split hp (passes_methods _ rest)
    have hscopes := scopes_functionBody w (methodScope decl.name) decl h.1
    have hrest := resolved_methods (w.functionBody (methodScope decl.name) decl) rest hr'.2
      (by rwa [hscopes, hp.inClass]) he h.2
    rw [hscopes] at hrest
    exact ⟨resolved_functionBody w _ decl hr'.1 hs ((passes_methods _ rest).errors_eq he) h.1,
      hrest⟩

end

end Walk

variable {T : Table} {distances : Distances}

/-- A table that has the distances of a walk from the start, for the identities that were gone
    through. -/
theorem Walk.records_start {ids : List Nat} {w : Walk} (hn : ids.Nodup)
    (hT : ∀ id ∈ ids, id < T.bound ∧ T.distances[id]? = w.distances[id]?) :
    Records T ids Walk.start w :=
  ⟨hn, fun _ _ => Std.ExtTreeMap.getElem?_empty, hT⟩

theorem Walk.result_eq_ok {w : Walk} :
    w.result = .ok distances ↔ w.errors = #[] ∧ w.distances = distances := by
  rw [Walk.result]
  split <;> simp_all

/-- A program that is accepted is resolved outside all scopes. -/
theorem Program.resolved_of_resolve {p : Program} (h : p.resolve = .ok distances)
    (hn : (Stmt.idsAll p).Nodup) (hp : Stmt.AllRegular p)
    (hT : ∀ id ∈ Stmt.idsAll p, id < T.bound ∧ T.distances[id]? = distances[id]?) :
    Stmt.AllResolved T .none [] p := by
  obtain ⟨he, rfl⟩ := Walk.result_eq_ok.1 h
  exact Walk.resolved_stmts .start p (Walk.records_start hn hT) Scopes.settled_nil he hp

/-- Only identities of the program get a distance. -/
theorem Program.getElem?_of_resolve {p : Program} (h : p.resolve = .ok distances) {id : Nat}
    (hid : id ∉ Stmt.idsAll p) : distances[id]? = none := by
  obtain ⟨-, rfl⟩ := Walk.result_eq_ok.1 h
  rw [(Walk.passes_stmts .start p).distances id hid]
  exact Std.ExtTreeMap.getElem?_empty

/-- An expression that is accepted is resolved outside all scopes. -/
theorem Expr.resolved_of_resolve {e : Expr} (h : e.resolve = .ok distances) (hn : e.ids.Nodup)
    (he : e.Regular) (hT : ∀ id ∈ e.ids, id < T.bound ∧ T.distances[id]? = distances[id]?) :
    e.Resolved T [] := by
  obtain ⟨herr, rfl⟩ := Walk.result_eq_ok.1 h
  exact Walk.resolved_expr .start e (Walk.records_start hn hT) Scopes.settled_nil.toSound herr he

theorem Expr.getElem?_of_resolve {e : Expr} (h : e.resolve = .ok distances) {id : Nat}
    (hid : id ∉ e.ids) : distances[id]? = none := by
  obtain ⟨-, rfl⟩ := Walk.result_eq_ok.1 h
  rw [(Walk.passes_expr .start e).distances id hid]
  exact Std.ExtTreeMap.getElem?_empty

end Lox
