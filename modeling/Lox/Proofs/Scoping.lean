import Mathlib
import Lox.Proofs.Naming
import Lox.Resolution.Resolve

/-!
# Lexical scoping

What it means that the distances written down for a program are those of lexical scoping. A point of
a program lies in a list of scopes, from the innermost one outwards; a name refers to the innermost
scope that has declared it (`Scopes.distance?`), and to a global variable if there is none. A tree
is *resolved* in such scopes (`Expr.Resolved`, `Stmt.Resolved`) if

* for every expression that refers to a name, the distance to its scope is written down, or none is
  if the name is global;
* no variable is read before it is defined;
* no name is declared twice in one scope;
* `return` stands in a function, and around `super` there is a scope that binds it, with one that
  binds `this` right inside.

Whether a tree is resolved depends only on the distances of the numbers below a bound (`Table`). So
it stays resolved when other programs are resolved later and get other numbers (`Table.Extends`).
-/

namespace Lox

/-- The scopes around a point of a program, from the innermost one outwards. -/
abbrev Scopes := List Scope

namespace Scopes

/-- How far out the innermost scope is that has declared a name. -/
def distance? (scopes : Scopes) (name : String) : Option Nat := scopes.findIdx? (·.contains name)

/-- Whether a name is defined in the scope that is `distance` scopes further out, if it is declared
    there. -/
def at? (scopes : Scopes) (distance : Nat) (name : String) : Option Bool :=
  scopes[distance]?.bind (·.get? name)

/-- Binds a name in the innermost scope, if there is one. -/
def bind (scopes : Scopes) (name : String) (isDefined : Bool) : Scopes :=
  match scopes with
  | [] => []
  | scope :: outer => scope.insert name isDefined :: outer

@[simp]
theorem at?_nil (distance : Nat) (name : String) : at? [] distance name = none := rfl

/-- At distance zero is the innermost scope. -/
@[simp]
theorem at?_zero (scope : Scope) (scopes : Scopes) (name : String) :
    at? (scope :: scopes) 0 name = scope.get? name := rfl

/-- At a greater distance are the scopes around it. -/
@[simp]
theorem at?_succ (scope : Scope) (scopes : Scopes) (distance : Nat) (name : String) :
    at? (scope :: scopes) (distance + 1) name = at? scopes distance name := rfl

/-- Binding a name changes nothing for other names. -/
theorem at?_bind_of_ne (scopes : Scopes) {x y : String} (h : y ≠ x) (isDefined : Bool)
    (distance : Nat) : at? (scopes.bind x isDefined) distance y = at? scopes distance y := by
  cases scopes with
  | nil => rfl
  | cons scope outer =>
    cases distance with
    | zero => exact Bindings.get?_insert_of_ne h isDefined scope
    | succ distance => rfl

/-- A name is declared in the scope that it refers to. -/
theorem at?_of_distance? {scopes : Scopes} {name : String} {distance : Nat}
    (h : scopes.distance? name = some distance) : (scopes.at? distance name).isSome := by
  obtain ⟨hlt, hc, -⟩ := List.findIdx?_eq_some_iff_getElem.1 h
  rwa [at?, List.getElem?_eq_getElem hlt]

/-- A name has no distance if no scope has declared it. -/
theorem distance?_eq_none {scopes : Scopes} {name : String} :
    scopes.distance? name = none ↔ ∀ distance, scopes.at? distance name = none := by
  rw [distance?, List.findIdx?_eq_none_iff]
  constructor
  · intro h distance
    rw [at?]
    cases hs : scopes[distance]? with
    | none => rfl
    | some scope =>
      have := h scope (List.mem_of_getElem? hs)
      simpa [Bindings.contains] using this
  · intro h scope hmem
    obtain ⟨distance, hs⟩ := List.getElem?_of_mem hmem
    have := h distance
    rw [at?, hs] at this
    simpa [Bindings.contains] using this

/-- A name can be declared at a point: it is no keyword, and the innermost scope has not declared
    it. -/
structure Admits (scopes : Scopes) (name : Lexeme) : Prop where
  isName : name.IsName
  isNew : scopes.at? 0 name.text = none

end Scopes

/-- A scope with the given names, all of them defined. -/
def Scope.ofNames (names : List Lexeme) : Scope :=
  names.foldl (fun scope name => scope.insert name.text true) ∅

/-- A scope that begins with some names has exactly these, and all of them are ready. -/
theorem Scope.get?_ofNames (names : List Lexeme) (x : String) :
    (Scope.ofNames names).get? x = if x ∈ names.map Lexeme.text then some true else none := by
  suffices h : ∀ scope : Scope,
      (names.foldl (fun scope name => scope.insert name.text true) scope).get? x =
        if x ∈ names.map Lexeme.text then some true else scope.get? x from h ∅
  induction names with
  | nil => simp
  | cons name rest ih =>
    intro scope
    rw [List.foldl_cons, ih, Bindings.get?_insert]
    by_cases hx : x = name.text <;> simp [hx]

/-- The scope around the methods of a class. -/
def Scope.this : Scope := Bindings.insert "this" true ∅

/-- The scope around that of `this`, if the class has a superclass. -/
def Scope.super : Scope := Bindings.insert "super" true ∅

/-- The scopes after a statement: a declared name is defined. -/
def Stmt.scopesAfter (stmt : Stmt) (scopes : Scopes) : Scopes :=
  match stmt.declares? with
  | none => scopes
  | some name => scopes.bind name.text true

/-- The scopes after some statements. -/
def Stmt.scopesAfterAll (stmts : List Stmt) (scopes : Scopes) : Scopes :=
  stmts.foldl (fun scopes stmt => stmt.scopesAfter scopes) scopes

/-- The scopes around the methods of a class that is declared in the given scopes. -/
def classScopes (name : Lexeme) (superclass : Option VarRef) (scopes : Scopes) : Scopes :=
  match superclass with
  | none => Scope.this :: scopes.bind name.text true
  | some _ => Scope.this :: Scope.super :: scopes.bind name.text true

/-- Distances that are settled for all numbers below a bound: no others are given out later. -/
structure Table where
  /-- The distances. -/
  distances : Distances
  /-- The bound. -/
  bound : Nat

namespace Table

variable {T T' : Table} {scopes : Scopes} {id : Nat} {name : String}

/-- The table goes on: what was settled stays as it is. -/
structure Extends (T' T : Table) : Prop where
  bound : T.bound ≤ T'.bound
  distances : ∀ id < T.bound, T'.distances[id]? = T.distances[id]?

theorem Extends.refl (T : Table) : T.Extends T := ⟨Nat.le_refl _, fun _ _ => rfl⟩

/-- The expression `id` refers to a name as lexical scoping has it. -/
structure Refers (T : Table) (scopes : Scopes) (id : Nat) (name : String) : Prop where
  lt_bound : id < T.bound
  distance : T.distances[id]? = scopes.distance? name

/-- A reference keeps its distance in a table that extends the old one. -/
theorem Refers.mono (h : T.Refers scopes id name) (hT : T'.Extends T) : T'.Refers scopes id name :=
  ⟨Nat.lt_of_lt_of_le h.lt_bound hT.bound, (hT.distances id h.lt_bound).trans h.distance⟩

/-- The expression `id` refers to a name that can be read, since it is defined. -/
structure Reads (T : Table) (scopes : Scopes) (id : Nat) (name : String) : Prop
    extends T.Refers scopes id name where
  isDefined : ∀ distance, scopes.distance? name = some distance →
    scopes.at? distance name = some true

/-- A variable that can be read still can in a table that extends the old one. -/
theorem Reads.mono (h : T.Reads scopes id name) (hT : T'.Extends T) : T'.Reads scopes id name :=
  ⟨h.toRefers.mono hT, h.isDefined⟩

end Table

namespace Expr

mutual

/-- All names in an expression are resolved, if it stands in the given scopes. -/
def Resolved (T : Table) (scopes : Scopes) : Expr → Prop
  | literal _ _ => True
  | unary _ _ _ right => right.Resolved T scopes
  | binary _ _ _ left right => left.Resolved T scopes ∧ right.Resolved T scopes
  | logical _ _ _ left right => left.Resolved T scopes ∧ right.Resolved T scopes
  | grouping _ inner => inner.Resolved T scopes
  | var id name => name.IsName ∧ T.Reads scopes id name.text
  | assign id name value => (name.IsName ∧ T.Refers scopes id name.text) ∧ value.Resolved T scopes
  | call _ callee _ arguments => callee.Resolved T scopes ∧ AllResolved T scopes arguments
  | get _ object _ => object.Resolved T scopes
  | set _ object _ value => object.Resolved T scopes ∧ value.Resolved T scopes
  | this id keyword =>
    keyword.text = "this" ∧ T.Reads scopes id "this" ∧ (scopes.distance? "this").isSome
  | super id keyword _ =>
    keyword.text = "super" ∧ T.Reads scopes id "super" ∧
      ∃ distance, scopes.distance? "super" = some (distance + 1) ∧
        scopes.at? distance "this" = some true

/-- All of the expressions are resolved. -/
def AllResolved (T : Table) (scopes : Scopes) : List Expr → Prop
  | [] => True
  | e :: rest => e.Resolved T scopes ∧ AllResolved T scopes rest

end

/-- An expression is resolved, or missing. -/
def OptionResolved (T : Table) (scopes : Scopes) (e : Option Expr) : Prop :=
  ∀ e' ∈ e, e'.Resolved T scopes

end Expr

/-- The superclass of a class is resolved, or missing. -/
def SuperclassResolved (T : Table) (scopes : Scopes) (superclass : Option VarRef) : Prop :=
  ∀ ref ∈ superclass, ref.name.IsName ∧ T.Reads scopes ref.id ref.name.text

namespace Stmt

mutual

/-- All names in a statement are resolved, if it stands in the given function and scopes. -/
def Resolved (T : Table) (within : FunctionScope) (scopes : Scopes) : Stmt → Prop
  | expression e => e.Resolved T scopes
  | print e => e.Resolved T scopes
  | var name initial =>
    scopes.Admits name ∧ Expr.OptionResolved T (scopes.bind name.text false) initial
  | block body => AllResolved T within (∅ :: scopes) body
  | branch condition yes no =>
    condition.Resolved T scopes ∧ (yes.Resolved T within scopes ∧ yes.declares? = none) ∧
      OptionResolved T within scopes no
  | loop condition body =>
    condition.Resolved T scopes ∧ body.Resolved T within scopes ∧ body.declares? = none
  | .function decl =>
    scopes.Admits decl.name ∧ DeclResolved T .function (scopes.bind decl.name.text true) decl
  | ret _ value => within ≠ .none ∧ Expr.OptionResolved T scopes value
  | classDecl name superclass methods =>
    scopes.Admits name ∧ SuperclassResolved T (scopes.bind name.text true) superclass ∧
      MethodsResolved T (classScopes name superclass scopes) methods

/-- The statements are resolved, one after the other. -/
def AllResolved (T : Table) (within : FunctionScope) (scopes : Scopes) : List Stmt → Prop
  | [] => True
  | stmt :: rest =>
    stmt.Resolved T within scopes ∧ AllResolved T within (stmt.scopesAfter scopes) rest

/-- A statement that declares nothing is resolved, or missing. -/
def OptionResolved (T : Table) (within : FunctionScope) (scopes : Scopes) : Option Stmt → Prop
  | none => True
  | some stmt => stmt.Resolved T within scopes ∧ stmt.declares? = none

/-- The body of a function or method is resolved, in one scope with the parameters. -/
def DeclResolved (T : Table) (within : FunctionScope) (scopes : Scopes) :
    FunctionDecl Stmt → Prop
  | ⟨_, params, body⟩ =>
    (∀ param ∈ params, param.IsName) ∧
      AllResolved T within (Scope.ofNames params :: scopes) body

/-- The methods of a class are resolved. -/
def MethodsResolved (T : Table) (scopes : Scopes) : List (FunctionDecl Stmt) → Prop
  | [] => True
  | decl :: rest =>
    DeclResolved T (Walk.methodScope decl.name) scopes decl ∧ MethodsResolved T scopes rest

end

/-- Methods are resolved one by one. -/
theorem methodsResolved_iff {T : Table} {scopes : Scopes} {decls : List (FunctionDecl Stmt)} :
    MethodsResolved T scopes decls ↔
      ∀ decl ∈ decls, DeclResolved T (Walk.methodScope decl.name) scopes decl := by
  induction decls with
  | nil => simp [MethodsResolved]
  | cons decl rest ih => simp [MethodsResolved, ih]

end Stmt

/-! ### Later programs -/

mutual

/-- An expression that is resolved stays so when the table is extended. -/
theorem Expr.Resolved.mono {T T' : Table} (hT : T'.Extends T) {scopes : Scopes} :
    (e : Expr) → e.Resolved T scopes → e.Resolved T' scopes
  | .literal _ _, _ => trivial
  | .unary _ _ _ right, h => Expr.Resolved.mono hT right h
  | .binary _ _ _ left right, h => ⟨Expr.Resolved.mono hT left h.1, Expr.Resolved.mono hT right h.2⟩
  | .logical _ _ _ left right, h =>
    ⟨Expr.Resolved.mono hT left h.1, Expr.Resolved.mono hT right h.2⟩
  | .grouping _ inner, h => Expr.Resolved.mono hT inner h
  | .var _ _, h => ⟨h.1, h.2.mono hT⟩
  | .assign _ _ value, h => ⟨⟨h.1.1, h.1.2.mono hT⟩, Expr.Resolved.mono hT value h.2⟩
  | .call _ callee _ arguments, h =>
    ⟨Expr.Resolved.mono hT callee h.1, Expr.AllResolved.mono hT arguments h.2⟩
  | .get _ object _, h => Expr.Resolved.mono hT object h
  | .set _ object _ value, h => ⟨Expr.Resolved.mono hT object h.1, Expr.Resolved.mono hT value h.2⟩
  | .this _ _, h => ⟨h.1, h.2.1.mono hT, h.2.2⟩
  | .super _ _ _, h => ⟨h.1, h.2.1.mono hT, h.2.2⟩

theorem Expr.AllResolved.mono {T T' : Table} (hT : T'.Extends T) {scopes : Scopes} :
    (es : List Expr) → Expr.AllResolved T scopes es → Expr.AllResolved T' scopes es
  | [], _ => trivial
  | e :: rest, h => ⟨Expr.Resolved.mono hT e h.1, Expr.AllResolved.mono hT rest h.2⟩

end

/-- An expression that may be missing stays resolved too. -/
theorem Expr.OptionResolved.mono {T T' : Table} (hT : T'.Extends T) {scopes : Scopes}
    {e : Option Expr} (h : Expr.OptionResolved T scopes e) : Expr.OptionResolved T' scopes e :=
  fun e' he' => Expr.Resolved.mono hT e' (h e' he')

mutual

/-- A statement that is resolved stays so when the table is extended. -/
theorem Stmt.Resolved.mono {T T' : Table} (hT : T'.Extends T) {within : FunctionScope}
    {scopes : Scopes} : (stmt : Stmt) → stmt.Resolved T within scopes →
    stmt.Resolved T' within scopes
  | .expression e, h => Expr.Resolved.mono hT e h
  | .print e, h => Expr.Resolved.mono hT e h
  | .var _ _, h => ⟨h.1, Expr.OptionResolved.mono hT h.2⟩
  | .block body, h => Stmt.AllResolved.mono hT body h
  | .branch condition yes no, h =>
    ⟨Expr.Resolved.mono hT condition h.1, ⟨Stmt.Resolved.mono hT yes h.2.1.1, h.2.1.2⟩,
      Stmt.OptionResolved.mono hT no h.2.2⟩
  | .loop condition body, h =>
    ⟨Expr.Resolved.mono hT condition h.1, Stmt.Resolved.mono hT body h.2.1, h.2.2⟩
  | .function decl, h => ⟨h.1, Stmt.DeclResolved.mono hT decl h.2⟩
  | .ret _ _, h => ⟨h.1, Expr.OptionResolved.mono hT h.2⟩
  | .classDecl _ _ methods, h =>
    ⟨h.1, fun ref href => ⟨(h.2.1 ref href).1, (h.2.1 ref href).2.mono hT⟩,
      Stmt.MethodsResolved.mono hT methods h.2.2⟩

theorem Stmt.AllResolved.mono {T T' : Table} (hT : T'.Extends T) {within : FunctionScope}
    {scopes : Scopes} : (stmts : List Stmt) → Stmt.AllResolved T within scopes stmts →
      Stmt.AllResolved T' within scopes stmts
  | [], _ => trivial
  | stmt :: rest, h => ⟨Stmt.Resolved.mono hT stmt h.1, Stmt.AllResolved.mono hT rest h.2⟩

theorem Stmt.OptionResolved.mono {T T' : Table} (hT : T'.Extends T) {within : FunctionScope}
    {scopes : Scopes} : (stmt : Option Stmt) → Stmt.OptionResolved T within scopes stmt →
      Stmt.OptionResolved T' within scopes stmt
  | none, _ => trivial
  | some stmt, h => ⟨Stmt.Resolved.mono hT stmt h.1, h.2⟩

/-- A function that is resolved stays so when the table is extended. -/
theorem Stmt.DeclResolved.mono {T T' : Table} (hT : T'.Extends T) {within : FunctionScope}
    {scopes : Scopes} : (decl : FunctionDecl Stmt) → Stmt.DeclResolved T within scopes decl →
      Stmt.DeclResolved T' within scopes decl
  | ⟨_, _, body⟩, h => ⟨h.1, Stmt.AllResolved.mono hT body h.2⟩

theorem Stmt.MethodsResolved.mono {T T' : Table} (hT : T'.Extends T) {scopes : Scopes} :
    (decls : List (FunctionDecl Stmt)) → Stmt.MethodsResolved T scopes decls →
      Stmt.MethodsResolved T' scopes decls
  | [], _ => trivial
  | decl :: rest, h => ⟨Stmt.DeclResolved.mono hT decl h.1, Stmt.MethodsResolved.mono hT rest h.2⟩

end

end Lox
