import Mathlib
import Lox.Proofs.Identity
import Lox.Proofs.Scoping

/-!
# Renaming a local variable

A local variable gets another name: in its declaration, and in exactly those expressions that refer
to it, as the distances tell. The scope of its declaration is singled out (`Program.Renames`);
inside, an expression refers to it if its distance leads out to that scope (`Expr.rename`,
`Stmt.rename`).

What becomes of resolution and of runs is easier to follow for a more general relation between
trees. Any of the scopes can be *marked*, and the two names change places for all variables of the
marked scopes (`Stmt.Renamed`). A swap of names can be undone, so nothing has to be known about
which names are in use: that matters only to say that a renaming is a swap
(`Program.Renames.renamed`).

* `Program.Renames`: a variable of a program is renamed;
* `Stmt.Renamed`: names are swapped in marked scopes.
-/

namespace Lox

/-- A new name for variables that have an old one, where distances tell which scope is meant. -/
structure Renaming where
  /-- The distances of local names. -/
  distances : Distances
  /-- The name that is replaced. -/
  old : String
  /-- The name that takes its place. -/
  new : String

/-- The new name in the place of the old one. -/
def Lexeme.rename (R : Renaming) (name : Lexeme) : Lexeme :=
  if name.text = R.old then { name with text := R.new } else name

/-- The name by which the expression `id` refers to a variable, if those of the scope that is `k`
    scopes out are renamed. -/
def Renaming.refer (R : Renaming) (k id : Nat) (name : Lexeme) : Lexeme :=
  if R.distances[id]? = some k then name.rename R else name

namespace Expr

mutual

/-- All names that an expression is written with. -/
def names : Expr → List String
  | literal _ _ => []
  | unary _ _ _ right => right.names
  | binary _ _ _ left right => left.names ++ right.names
  | logical _ _ _ left right => left.names ++ right.names
  | grouping _ inner => inner.names
  | var _ name => [name.text]
  | assign _ name value => name.text :: value.names
  | call _ callee _ arguments => callee.names ++ namesAll arguments
  | get _ object name => name.text :: object.names
  | set _ object name value => name.text :: (object.names ++ value.names)
  | this _ _ => []
  | super _ _ method => [method.text]

/-- All names that expressions are written with. -/
def namesAll : List Expr → List String
  | [] => []
  | e :: rest => e.names ++ namesAll rest

end

mutual

/-- The expression with the variables of the scope that is `k` scopes out renamed. -/
def rename (R : Renaming) (k : Nat) : Expr → Expr
  | literal id value => literal id value
  | unary id op mark right => unary id op mark (right.rename R k)
  | binary id op mark left right => binary id op mark (left.rename R k) (right.rename R k)
  | logical id op mark left right => logical id op mark (left.rename R k) (right.rename R k)
  | grouping id inner => grouping id (inner.rename R k)
  | var id name => var id (R.refer k id name)
  | assign id name value => assign id (R.refer k id name) (value.rename R k)
  | call id callee paren arguments => call id (callee.rename R k) paren (renameAll R k arguments)
  | get id object name => get id (object.rename R k) name
  | set id object name value => set id (object.rename R k) name (value.rename R k)
  | this id keyword => this id keyword
  | super id keyword method => super id keyword method

/-- The expressions with the variables of the scope that is `k` scopes out renamed. -/
def renameAll (R : Renaming) (k : Nat) : List Expr → List Expr
  | [] => []
  | e :: rest => e.rename R k :: renameAll R k rest

end

/-- The names of an expression that may be left out. -/
def namesOption : Option Expr → List String
  | none => []
  | some e => e.names

end Expr

namespace Stmt

mutual

/-- All names that a statement is written with. -/
def names : Stmt → List String
  | expression e => e.names
  | print e => e.names
  | var name initial => name.text :: Expr.namesOption initial
  | block body => namesAll body
  | branch condition yes no => condition.names ++ yes.names ++ namesOption no
  | loop condition body => condition.names ++ body.names
  | .function decl => namesDecl decl
  | ret _ value => Expr.namesOption value
  | classDecl name superclass methods =>
    name.text :: ((superclass.map (·.name.text)).toList ++ namesDecls methods)

/-- All names that statements are written with. -/
def namesAll : List Stmt → List String
  | [] => []
  | stmt :: rest => stmt.names ++ namesAll rest

/-- All names that a statement is written with, if it is there. -/
def namesOption : Option Stmt → List String
  | none => []
  | some stmt => stmt.names

/-- All names that a function or method is written with. -/
def namesDecl : FunctionDecl Stmt → List String
  | ⟨name, params, body⟩ => name.text :: (params.map Lexeme.text ++ namesAll body)

/-- All names that methods are written with. -/
def namesDecls : List (FunctionDecl Stmt) → List String
  | [] => []
  | decl :: rest => namesDecl decl ++ namesDecls rest

end

mutual

/-- The statement with the variables of the scope that is `k` scopes out renamed. If that is the
    innermost one, a variable of it may be declared here. -/
def rename (R : Renaming) (k : Nat) : Stmt → Stmt
  | expression e => expression (e.rename R k)
  | print e => print (e.rename R k)
  | var name initial =>
    var (if k = 0 then name.rename R else name) (initial.map (Expr.rename R k))
  | block body => block (renameAll R (k + 1) body)
  | branch condition yes no =>
    branch (condition.rename R k) (yes.rename R k) (renameOption R k no)
  | loop condition body => loop (condition.rename R k) (body.rename R k)
  | .function decl => .function (renameDecl R (k + 1) decl)
  | ret keyword value => ret keyword (value.map (Expr.rename R k))
  | classDecl name none methods => classDecl name none (renameDecls R (k + 2) methods)
  | classDecl name (some ref) methods =>
    classDecl name (some ⟨ref.id, R.refer k ref.id ref.name⟩) (renameDecls R (k + 3) methods)

/-- The statements with the variables of the scope that is `k` scopes out renamed. -/
def renameAll (R : Renaming) (k : Nat) : List Stmt → List Stmt
  | [] => []
  | stmt :: rest => stmt.rename R k :: renameAll R k rest

/-- The statement with the variables of the scope that is `k` scopes out renamed, if it is there. -/
def renameOption (R : Renaming) (k : Nat) : Option Stmt → Option Stmt
  | none => none
  | some stmt => some (stmt.rename R k)

/-- A function or method in whose body the variables are renamed of the scope that is `k` scopes out
    from there. -/
def renameDecl (R : Renaming) (k : Nat) : FunctionDecl Stmt → FunctionDecl Stmt
  | ⟨name, params, body⟩ => ⟨name, params, renameAll R k body⟩

/-- Methods in whose bodies the variables are renamed of the scope that is `k` scopes out from
    there. -/
def renameDecls (R : Renaming) (k : Nat) : List (FunctionDecl Stmt) → List (FunctionDecl Stmt)
  | [] => []
  | decl :: rest => renameDecl R k decl :: renameDecls R k rest

end

/-- Among statements, one declares a variable with the given name. -/
def DeclareVar (x : String) (body : List Stmt) : Prop :=
  ∃ name initial, .var name initial ∈ body ∧ name.text = x

end Stmt

/-- A function or method has a parameter with the given name, or a variable in the scope of its
    body. -/
def FunctionDecl.DeclaresVar (x : String) (decl : FunctionDecl Stmt) : Prop :=
  (∃ param ∈ decl.params, param.text = x) ∨ Stmt.DeclareVar x decl.body

/-- A function or method with the variables of its scope renamed. -/
def FunctionDecl.renameScope (R : Renaming) (decl : FunctionDecl Stmt) : FunctionDecl Stmt :=
  ⟨decl.name, decl.params.map (Lexeme.rename R), Stmt.renameAll R 0 decl.body⟩

/-- In a statement a local variable is renamed: one of a block, of a function or of a method, or one
    further inside. -/
inductive Stmt.Renames (R : Renaming) : Stmt → Stmt → Prop
  | block {body : List Stmt} : DeclareVar R.old body →
      Renames R (.block body) (.block (renameAll R 0 body))
  | function {decl : FunctionDecl Stmt} : decl.DeclaresVar R.old →
      Renames R (.function decl) (.function (decl.renameScope R))
  | method {name : Lexeme} {superclass : Option VarRef} {before after : List (FunctionDecl Stmt)}
      {decl : FunctionDecl Stmt} : decl.DeclaresVar R.old →
      Renames R (.classDecl name superclass (before ++ decl :: after))
        (.classDecl name superclass (before ++ decl.renameScope R :: after))
  | inBlock {before after : List Stmt} {stmt stmt' : Stmt} : Renames R stmt stmt' →
      Renames R (.block (before ++ stmt :: after)) (.block (before ++ stmt' :: after))
  | inBranch {condition : Expr} {yes yes' : Stmt} {no : Option Stmt} : Renames R yes yes' →
      Renames R (.branch condition yes no) (.branch condition yes' no)
  | inElse {condition : Expr} {yes no no' : Stmt} : Renames R no no' →
      Renames R (.branch condition yes (some no)) (.branch condition yes (some no'))
  | inLoop {condition : Expr} {body body' : Stmt} : Renames R body body' →
      Renames R (.loop condition body) (.loop condition body')
  | inFunction {name : Lexeme} {params : List Lexeme} {before after : List Stmt}
      {stmt stmt' : Stmt} : Renames R stmt stmt' →
      Renames R (.function ⟨name, params, before ++ stmt :: after⟩)
        (.function ⟨name, params, before ++ stmt' :: after⟩)
  | inMethod {name method : Lexeme} {superclass : Option VarRef}
      {before after : List (FunctionDecl Stmt)} {params : List Lexeme} {first last : List Stmt}
      {stmt stmt' : Stmt} : Renames R stmt stmt' →
      Renames R
        (.classDecl name superclass (before ++ ⟨method, params, first ++ stmt :: last⟩ :: after))
        (.classDecl name superclass (before ++ ⟨method, params, first ++ stmt' :: last⟩ :: after))

/-- In a program a local variable is renamed: in its declaration and in all expressions that refer
    to it. -/
def Program.Renames (R : Renaming) (p p' : Program) : Prop :=
  ∃ before stmt stmt' after, p = before ++ stmt :: after ∧ p' = before ++ stmt' :: after ∧
    Stmt.Renames R stmt stmt'

/-! ### Marked scopes -/

/-- Which of the scopes around a point are marked, from the innermost one outwards. -/
abbrev Marks := Nat → Bool

namespace Marks

/-- No scope is marked. -/
def none : Marks := fun _ => false

/-- Only the scope that is `k` scopes out is marked. -/
def only (k : Nat) : Marks := fun distance => distance == k

/-- There is one more scope around a point. -/
def push (ρ : Marks) (mark : Bool) : Marks
  | 0 => mark
  | distance + 1 => ρ distance

/-- The scopes around the methods of a class are not marked. -/
def pushClass (ρ : Marks) (superclass : Option VarRef) : Marks :=
  match superclass with
  | .none => ρ.push false
  | some _ => (ρ.push false).push false

@[simp]
theorem push_none : none.push false = none := by
  funext distance
  cases distance <;> rfl

@[simp]
theorem push_only (k : Nat) : (only k).push false = only (k + 1) := by
  funext distance
  cases distance with
  | zero => rfl
  | succ distance => simp [push, only]

@[simp]
theorem push_none_true : none.push true = only 0 := by
  funext distance
  cases distance <;> rfl

end Marks

namespace Renaming

/-- Names change places in a marked scope. -/
def swap (R : Renaming) (mark : Bool) : Equiv.Perm String :=
  if mark then Equiv.swap R.old R.new else 1

@[simp]
theorem swap_false (R : Renaming) (name : String) : R.swap false name = name := rfl

theorem swap_swap (R : Renaming) (mark : Bool) (name : String) :
    R.swap mark (R.swap mark name) = name := by
  cases mark with
  | false => rfl
  | true => exact Equiv.swap_apply_self R.old R.new name

/-- Other names stay as they are. -/
theorem swap_of_ne (R : Renaming) (mark : Bool) {name : String} (ho : name ≠ R.old)
    (hn : name ≠ R.new) : R.swap mark name = name := by
  cases mark with
  | false => rfl
  | true => exact Equiv.swap_apply_of_ne_of_ne ho hn

end Renaming

/-- A name as it is written if the scope that it belongs to is marked or not. -/
def Lexeme.respell (R : Renaming) (mark : Bool) (name : Lexeme) : Lexeme :=
  { name with text := R.swap mark name.text }

@[simp]
theorem Lexeme.respell_false (R : Renaming) (name : Lexeme) : name.respell R false = name := rfl

theorem Lexeme.map_respell_false (R : Renaming) (names : List Lexeme) :
    names.map (Lexeme.respell R false) = names :=
  List.map_id names

variable {R : Renaming} {decl decl' : FunctionDecl Stmt}

/-- A swap is a renaming, if the new name is not in use. -/
theorem Lexeme.respell_true {name : Lexeme} (h : name.text ≠ R.new) :
    name.respell R true = name.rename R := by
  rw [respell, Renaming.swap, if_pos rfl, rename]
  split
  · next ho => rw [ho, Equiv.swap_apply_left]
  · next ho => rw [Equiv.swap_apply_of_ne_of_ne ho h]

/-- The name by which the expression `id` refers to a variable, where some of the scopes around it
    are marked. -/
def Renaming.respell (R : Renaming) (ρ : Marks) (id : Nat) (name : Lexeme) : Lexeme :=
  match R.distances[id]? with
  | some distance => name.respell R (ρ distance)
  | none => name

theorem Renaming.line_respell (R : Renaming) (ρ : Marks) (id : Nat) (name : Lexeme) :
    (R.respell ρ id name).line = name.line := by
  rw [respell]
  split <;> rfl

@[simp]
theorem Renaming.respell_none (R : Renaming) (id : Nat) (name : Lexeme) :
    R.respell .none id name = name := by
  rw [respell]
  split <;> rfl

namespace Expr

mutual

/-- An expression where some of the scopes around it are marked. Also `this` is a name that it may
    refer to. -/
def respell (R : Renaming) (ρ : Marks) : Expr → Expr
  | literal id value => literal id value
  | unary id op mark right => unary id op mark (right.respell R ρ)
  | binary id op mark left right => binary id op mark (left.respell R ρ) (right.respell R ρ)
  | logical id op mark left right => logical id op mark (left.respell R ρ) (right.respell R ρ)
  | grouping id inner => grouping id (inner.respell R ρ)
  | var id name => var id (R.respell ρ id name)
  | assign id name value => assign id (R.respell ρ id name) (value.respell R ρ)
  | call id callee paren arguments => call id (callee.respell R ρ) paren (respellAll R ρ arguments)
  | get id object name => get id (object.respell R ρ) name
  | set id object name value => set id (object.respell R ρ) name (value.respell R ρ)
  | this id keyword => this id (R.respell ρ id keyword)
  | super id keyword method => super id keyword method

/-- Expressions where some of the scopes around them are marked. -/
def respellAll (R : Renaming) (ρ : Marks) : List Expr → List Expr
  | [] => []
  | e :: rest => e.respell R ρ :: respellAll R ρ rest

end

end Expr

/-- A superclass where some of the scopes around it are marked. -/
def VarRef.respell (R : Renaming) (ρ : Marks) (ref : VarRef) : VarRef :=
  { ref with name := R.respell ρ ref.id ref.name }

mutual

/-- Names are swapped in a statement: those of variables that are declared in marked scopes. Besides
    the scopes around it, also scopes inside may be marked. -/
inductive Stmt.Renamed (R : Renaming) : Marks → Stmt → Stmt → Prop
  | expression (ρ : Marks) (e : Expr) :
      Stmt.Renamed R ρ (.expression e) (.expression (e.respell R ρ))
  | print (ρ : Marks) (e : Expr) : Stmt.Renamed R ρ (.print e) (.print (e.respell R ρ))
  | var (ρ : Marks) (name : Lexeme) (initial : Option Expr) :
      Stmt.Renamed R ρ (.var name initial)
        (.var (name.respell R (ρ 0)) (initial.map (Expr.respell R ρ)))
  | block {ρ : Marks} (mark : Bool) {body body' : List Stmt} :
      Stmt.AllRenamed R (ρ.push mark) body body' → Stmt.Renamed R ρ (.block body) (.block body')
  | branch {ρ : Marks} (condition : Expr) {yes yes' : Stmt} {no no' : Option Stmt} :
      Stmt.Renamed R ρ yes yes' → Stmt.OptionRenamed R ρ no no' →
      Stmt.Renamed R ρ (.branch condition yes no) (.branch (condition.respell R ρ) yes' no')
  | loop {ρ : Marks} (condition : Expr) {body body' : Stmt} : Stmt.Renamed R ρ body body' →
      Stmt.Renamed R ρ (.loop condition body) (.loop (condition.respell R ρ) body')
  | function {ρ : Marks} {decl decl' : FunctionDecl Stmt} :
      decl.name.respell R (ρ 0) = decl.name → Stmt.DeclRenamed R ρ decl decl' →
      Stmt.Renamed R ρ (.function decl) (.function decl')
  | ret (ρ : Marks) (keyword : Lexeme) (value : Option Expr) :
      Stmt.Renamed R ρ (.ret keyword value) (.ret keyword (value.map (Expr.respell R ρ)))
  | classDecl {ρ : Marks} {name : Lexeme} (superclass : Option VarRef)
      {methods methods' : List (FunctionDecl Stmt)} :
      name.respell R (ρ 0) = name → Stmt.DeclsRenamed R (ρ.pushClass superclass) methods methods' →
      Stmt.Renamed R ρ (.classDecl name superclass methods)
        (.classDecl name (superclass.map (VarRef.respell R ρ)) methods')

/-- Names are swapped in each of some statements. -/
inductive Stmt.AllRenamed (R : Renaming) : Marks → List Stmt → List Stmt → Prop
  | nil (ρ : Marks) : Stmt.AllRenamed R ρ [] []
  | cons {ρ : Marks} {stmt stmt' : Stmt} {rest rest' : List Stmt} : Stmt.Renamed R ρ stmt stmt' →
      Stmt.AllRenamed R ρ rest rest' → Stmt.AllRenamed R ρ (stmt :: rest) (stmt' :: rest')

/-- Names are swapped in a statement, if it is there. -/
inductive Stmt.OptionRenamed (R : Renaming) : Marks → Option Stmt → Option Stmt → Prop
  | none (ρ : Marks) : Stmt.OptionRenamed R ρ none none
  | some {ρ : Marks} {stmt stmt' : Stmt} : Stmt.Renamed R ρ stmt stmt' →
      Stmt.OptionRenamed R ρ (some stmt) (some stmt')

/-- Names are swapped in a function or method; its own scope may be marked. -/
inductive Stmt.DeclRenamed (R : Renaming) : Marks → FunctionDecl Stmt → FunctionDecl Stmt → Prop
  | mk {ρ : Marks} (mark : Bool) (name : Lexeme) (params : List Lexeme) {body body' : List Stmt} :
      Stmt.AllRenamed R (ρ.push mark) body body' →
      Stmt.DeclRenamed R ρ ⟨name, params, body⟩ ⟨name, params.map (Lexeme.respell R mark), body'⟩

/-- Names are swapped in each of some methods. -/
inductive Stmt.DeclsRenamed (R : Renaming) :
    Marks → List (FunctionDecl Stmt) → List (FunctionDecl Stmt) → Prop
  | nil (ρ : Marks) : Stmt.DeclsRenamed R ρ [] []
  | cons {ρ : Marks} {decl decl' : FunctionDecl Stmt} {rest rest' : List (FunctionDecl Stmt)} :
      Stmt.DeclRenamed R ρ decl decl' → Stmt.DeclsRenamed R ρ rest rest' →
      Stmt.DeclsRenamed R ρ (decl :: rest) (decl' :: rest')

end

theorem Stmt.DeclRenamed.name_eq {ρ : Marks} (h : Stmt.DeclRenamed R ρ decl decl') :
    decl'.name = decl.name := by
  cases h
  rfl

theorem Stmt.DeclRenamed.length_params {ρ : Marks} (h : Stmt.DeclRenamed R ρ decl decl') :
    decl'.params.length = decl.params.length := by
  cases h
  exact List.length_map _

/-! ### Where nothing is marked -/

section

variable (R : Renaming)

mutual

@[simp]
theorem Expr.respell_none : (e : Expr) → e.respell R .none = e
  | .literal _ _ => rfl
  | .unary _ _ _ right => by rw [respell, right.respell_none]
  | .binary _ _ _ left right => by rw [respell, left.respell_none, right.respell_none]
  | .logical _ _ _ left right => by rw [respell, left.respell_none, right.respell_none]
  | .grouping _ inner => by rw [respell, inner.respell_none]
  | .var id name => by rw [respell, R.respell_none]
  | .assign id name value => by rw [respell, R.respell_none, value.respell_none]
  | .call _ callee _ arguments => by
    rw [respell, callee.respell_none, respellAll_none arguments]
  | .get _ object _ => by rw [respell, object.respell_none]
  | .set _ object _ value => by rw [respell, object.respell_none, value.respell_none]
  | .this id keyword => by rw [respell, R.respell_none]
  | .super _ _ _ => rfl

theorem Expr.respellAll_none : (es : List Expr) → Expr.respellAll R .none es = es
  | [] => rfl
  | e :: rest => by rw [respellAll, e.respell_none, respellAll_none rest]

end

theorem Expr.map_respell_none (e : Option Expr) : e.map (Expr.respell R .none) = e := by
  cases e <;> simp

theorem VarRef.map_respell_none (ref : Option VarRef) : ref.map (VarRef.respell R .none) = ref := by
  cases ref <;> simp [respell]

theorem Marks.pushClass_none (superclass : Option VarRef) :
    Marks.none.pushClass superclass = .none := by
  cases superclass <;> simp [pushClass]

mutual

/-- Without marks, a statement is related to itself. -/
theorem Stmt.renamed_self : (stmt : Stmt) → Stmt.Renamed R .none stmt stmt
  | .expression e => by
    have := Stmt.Renamed.expression (R := R) .none e
    rwa [e.respell_none] at this
  | .print e => by
    have := Stmt.Renamed.print (R := R) .none e
    rwa [e.respell_none] at this
  | .var name initial => by
    have := Stmt.Renamed.var (R := R) .none name initial
    rwa [Expr.map_respell_none] at this
  | .block body => by
    refine .block false ?_
    rw [Marks.push_none]
    exact Stmt.allRenamed_self body
  | .branch condition yes no => by
    have := Stmt.Renamed.branch condition yes.renamed_self (Stmt.optionRenamed_self no)
    rwa [condition.respell_none] at this
  | .loop condition body => by
    have := Stmt.Renamed.loop condition body.renamed_self
    rwa [condition.respell_none] at this
  | .function decl => .function rfl (Stmt.declRenamed_self decl)
  | .ret keyword value => by
    have := Stmt.Renamed.ret (R := R) .none keyword value
    rwa [Expr.map_respell_none] at this
  | .classDecl name superclass methods => by
    have hm := Stmt.declsRenamed_self methods
    rw [← Marks.pushClass_none superclass] at hm
    have : Stmt.Renamed R .none (.classDecl name superclass methods) (.classDecl name _ methods) :=
      .classDecl superclass rfl hm
    rwa [VarRef.map_respell_none] at this

theorem Stmt.allRenamed_self : (stmts : List Stmt) → Stmt.AllRenamed R .none stmts stmts
  | [] => .nil _
  | stmt :: rest => .cons stmt.renamed_self (Stmt.allRenamed_self rest)

theorem Stmt.optionRenamed_self : (stmt : Option Stmt) → Stmt.OptionRenamed R .none stmt stmt
  | none => .none _
  | some stmt => .some stmt.renamed_self

theorem Stmt.declRenamed_self : (decl : FunctionDecl Stmt) → Stmt.DeclRenamed R .none decl decl
  | ⟨name, params, body⟩ => by
    have hb := Stmt.allRenamed_self body
    rw [← Marks.push_none] at hb
    have := Stmt.DeclRenamed.mk false name params hb
    rwa [Lexeme.map_respell_false] at this

theorem Stmt.declsRenamed_self : (decls : List (FunctionDecl Stmt)) →
    Stmt.DeclsRenamed R .none decls decls
  | [] => .nil _
  | decl :: rest => .cons (Stmt.declRenamed_self decl) (Stmt.declsRenamed_self rest)

end

end

/-! ### A renaming is a swap -/

/-- The two names are no keywords. -/
structure Renaming.Proper (R : Renaming) : Prop where
  old : Keyword.ofText? R.old = none
  new : Keyword.ofText? R.new = none

section

variable {R : Renaming} {distances : Distances}

theorem Renaming.Proper.ne_of_keyword (h : R.Proper) {name : String}
    (hn : Keyword.ofText? name ≠ none) : name ≠ R.old ∧ name ≠ R.new :=
  ⟨fun ho => hn (ho ▸ h.old), fun ho => hn (ho ▸ h.new)⟩

variable {name : Lexeme}

/-- Keywords stay as they are. -/
theorem Renaming.respell_of_ne {ρ : Marks} {id : Nat} (ho : name.text ≠ R.old)
    (hn : name.text ≠ R.new) : R.respell ρ id name = name := by
  rw [respell]
  split
  · rw [Lexeme.respell, R.swap_of_ne _ ho hn]
  · rfl

/-- A variable of the scope that is `k` scopes out is referred to by its new name. Other distances
    may be used if they tell the same. -/
theorem Renaming.refer_eq {id : Nat} (k : Nat) (hn : R.new ≠ name.text)
    (hd : distances[id]? = R.distances[id]?) :
    R.refer k id name = Renaming.respell { R with distances } (.only k) id name := by
  rw [refer, respell, hd]
  split
  · next hk =>
    rw [hk]
    exact (Lexeme.respell_true (R := { R with distances }) hn.symm).symm.trans
      (by simp [Marks.only])
  · next hk =>
    split
    · next distance hdistance =>
      have hne : Marks.only k distance = false :=
        beq_eq_false_iff_ne.2 fun heq => hk (heq ▸ hdistance)
      rw [hne, Lexeme.respell_false]
    · rfl

mutual

/-- In an expression without the new name, a renaming is a swap in one marked scope. -/
theorem Expr.rename_eq (hR : R.Proper) (k : Nat) : (e : Expr) → e.Regular → R.new ∉ e.names →
    (∀ id ∈ e.ids, distances[id]? = R.distances[id]?) →
    e.rename R k = e.respell { R with distances } (.only k)
  | .literal _ _, _, _, _ => rfl
  | .unary _ _ _ right, h, hn, hd => by
    simp only [ids, List.mem_append, or_imp, forall_and] at hd
    rw [rename, respell, right.rename_eq hR k h hn hd.1]
  | .binary _ _ _ left right, h, hn, hd => by
    simp only [ids, names, List.mem_append, or_imp, forall_and, not_or] at hn hd
    rw [rename, respell, left.rename_eq hR k h.1 hn.1 hd.1.1, right.rename_eq hR k h.2 hn.2 hd.1.2]
  | .logical _ _ _ left right, h, hn, hd => by
    simp only [ids, names, List.mem_append, or_imp, forall_and, not_or] at hn hd
    rw [rename, respell, left.rename_eq hR k h.1 hn.1 hd.1.1, right.rename_eq hR k h.2 hn.2 hd.1.2]
  | .grouping _ inner, h, hn, hd => by
    simp only [ids, List.mem_append, or_imp, forall_and] at hd
    rw [rename, respell, inner.rename_eq hR k h hn hd.1]
  | .var id name, _, hn, hd => by
    simp only [ids, names, List.mem_singleton, forall_eq] at hn hd
    rw [rename, respell, Renaming.refer_eq k hn hd]
  | .assign id name value, h, hn, hd => by
    simp only [ids, names, List.mem_append, List.mem_cons, or_imp, forall_and, forall_eq, not_or]
      at hn hd
    rw [rename, respell, Renaming.refer_eq k hn.1 hd.2.1, value.rename_eq hR k h.2 hn.2 hd.1]
  | .call _ callee _ arguments, h, hn, hd => by
    simp only [ids, names, List.mem_append, or_imp, forall_and, not_or] at hn hd
    rw [rename, respell, callee.rename_eq hR k h.1 hn.1 hd.1.1,
      Expr.renameAll_eq hR k arguments h.2 hn.2 hd.1.2]
  | .get _ object _, h, hn, hd => by
    simp only [ids, names, List.mem_append, List.mem_cons, or_imp, forall_and, not_or] at hn hd
    rw [rename, respell, object.rename_eq hR k h hn.2 hd.1]
  | .set _ object _ value, h, hn, hd => by
    simp only [ids, names, List.mem_append, List.mem_cons, or_imp, forall_and, not_or] at hn hd
    rw [rename, respell, object.rename_eq hR k h.1 hn.2.1 hd.1.1,
      value.rename_eq hR k h.2 hn.2.2 hd.1.2]
  | .this id keyword, h, _, _ => by
    have hne : keyword.text ≠ R.old ∧ keyword.text ≠ R.new :=
      hR.ne_of_keyword (by rw [h]; decide)
    rw [rename, respell, Renaming.respell_of_ne (R := { R with distances }) hne.1 hne.2]
  | .super _ _ _, _, _, _ => rfl

theorem Expr.renameAll_eq (hR : R.Proper) (k : Nat) : (es : List Expr) → Expr.AllRegular es →
    R.new ∉ Expr.namesAll es → (∀ id ∈ Expr.idsAll es, distances[id]? = R.distances[id]?) →
    Expr.renameAll R k es = Expr.respellAll { R with distances } (.only k) es
  | [], _, _, _ => rfl
  | e :: rest, h, hn, hd => by
    simp only [idsAll, namesAll, List.mem_append, or_imp, forall_and, not_or] at hn hd
    rw [renameAll, respellAll, e.rename_eq hR k h.1 hn.1 hd.1,
      Expr.renameAll_eq hR k rest h.2 hn.2 hd.2]

end

theorem Expr.map_rename_eq (hR : R.Proper) (k : Nat) {e : Option Expr} (h : Expr.OptionRegular e)
    (hn : R.new ∉ Expr.namesOption e)
    (hd : ∀ id ∈ Expr.idsOption e, distances[id]? = R.distances[id]?) :
    e.map (Expr.rename R k) = e.map (Expr.respell { R with distances } (.only k)) := by
  cases e with
  | none => rfl
  | some e => exact congrArg some (e.rename_eq hR k (h e rfl) hn hd)

/-- A statement declares no function and no class with the given name. -/
def Stmt.Keeps (x : String) : Stmt → Prop
  | .function decl => decl.name.text ≠ x
  | .classDecl name _ _ => name.text ≠ x
  | _ => True

theorem Stmt.keeps_of_declares? {x : String} {stmt : Stmt} (h : stmt.declares? = none) :
    stmt.Keeps x := by
  cases stmt with
  | function decl => cases h
  | classDecl name superclass methods => cases h
  | _ => trivial

theorem Stmt.mem_namesDecl (decl : FunctionDecl Stmt) : decl.name.text ∈ Stmt.namesDecl decl := by
  obtain ⟨name, params, body⟩ := decl
  exact List.mem_cons_self ..

/-- In the innermost scope a variable is declared by its new name. -/
theorem Lexeme.rename_eq (k : Nat) (hn : R.new ≠ name.text) :
    (if k = 0 then name.rename R else name) =
      name.respell { R with distances } (Marks.only k 0) := by
  split
  · next hk =>
    subst hk
    exact (Lexeme.respell_true (R := { R with distances }) hn.symm).symm
  · next hk =>
    have hne : Marks.only k 0 = false := beq_eq_false_iff_ne.2 (Ne.symm hk)
    rw [hne, respell_false]

/-- The names of functions and classes stay as they are. -/
theorem Lexeme.respell_only {k : Nat} (hn : R.new ≠ name.text) (ho : k = 0 → name.text ≠ R.old) :
    name.respell { R with distances } (Marks.only k 0) = name := by
  rw [← Lexeme.rename_eq k hn]
  split
  · next hk => rw [rename, if_neg (ho hk)]
  · rfl

mutual

/-- In a statement without the new name, a renaming is a swap in one marked scope. -/
theorem Stmt.renamed_rename (hR : R.Proper) (k : Nat) : (stmt : Stmt) → stmt.Regular →
    R.new ∉ stmt.names → (∀ id ∈ stmt.ids, distances[id]? = R.distances[id]?) →
    (k = 0 → stmt.Keeps R.old) →
    Stmt.Renamed { R with distances } (.only k) stmt (stmt.rename R k)
  | .expression e, h, hn, hd, _ => by
    rw [rename, e.rename_eq hR k h hn hd]
    exact .expression _ e
  | .print e, h, hn, hd, _ => by
    rw [rename, e.rename_eq hR k h hn hd]
    exact .print _ e
  | .var name initial, h, hn, hd, _ => by
    rw [names, List.mem_cons, not_or] at hn
    rw [rename, Lexeme.rename_eq k hn.1, Expr.map_rename_eq hR k h.2 hn.2 hd]
    exact .var _ name initial
  | .block body, h, hn, hd, _ => by
    refine .block false ?_
    rw [Marks.push_only]
    exact Stmt.allRenamed_rename hR (k + 1) body h hn hd fun hk => absurd hk k.succ_ne_zero
  | .branch condition yes no, h, hn, hd, _ => by
    simp only [ids, names, List.mem_append, or_imp, forall_and, not_or] at hn hd
    rw [rename, condition.rename_eq hR k h.1 hn.1.1 hd.1.1]
    exact .branch condition
      (yes.renamed_rename hR k h.2.1.1 hn.1.2 hd.1.2 fun _ => keeps_of_declares? h.2.1.2)
      (Stmt.optionRenamed_rename hR k no h.2.2 hn.2 hd.2)
  | .loop condition body, h, hn, hd, _ => by
    simp only [ids, names, List.mem_append, or_imp, forall_and, not_or] at hn hd
    rw [rename, condition.rename_eq hR k h.1 hn.1 hd.1]
    exact .loop condition
      (body.renamed_rename hR k h.2.1 hn.2 hd.2 fun _ => keeps_of_declares? h.2.2)
  | .function decl, h, hn, hd, hk => by
    have hname : R.new ≠ decl.name.text := fun heq => hn (heq ▸ Stmt.mem_namesDecl decl)
    have hbody := Stmt.declRenamed_rename hR k decl h.2 hn hd
    exact .function (Lexeme.respell_only hname hk) hbody
  | .ret keyword value, h, hn, hd, _ => by
    rw [rename, Expr.map_rename_eq hR k h hn hd]
    exact .ret _ keyword value
  | .classDecl name none methods, h, hn, hd, hk => by
    simp only [ids, names, List.mem_append, List.mem_cons, not_or] at hn hd
    refine .classDecl none (Lexeme.respell_only hn.1 hk) ?_
    rw [Marks.pushClass, Marks.push_only]
    exact Stmt.declsRenamed_rename hR (k + 1) methods h.2.2 hn.2.2 fun id hid => hd id (.inr hid)
  | .classDecl name (some ref) methods, h, hn, hd, hk => by
    simp only [ids, names, Option.map_some, Option.toList_some, List.mem_append, List.mem_cons,
      List.not_mem_nil, or_false, or_imp, forall_and, forall_eq, not_or] at hn hd
    have hmethods := Stmt.declsRenamed_rename hR (k + 2) methods h.2.2 hn.2.2 hd.2
    rw [rename, Renaming.refer_eq k hn.2.1 hd.1]
    refine .classDecl (some ref) (Lexeme.respell_only hn.1 hk) ?_
    rw [Marks.pushClass, Marks.push_only, Marks.push_only]
    exact hmethods

theorem Stmt.allRenamed_rename (hR : R.Proper) (k : Nat) : (stmts : List Stmt) →
    Stmt.AllRegular stmts → R.new ∉ Stmt.namesAll stmts →
    (∀ id ∈ Stmt.idsAll stmts, distances[id]? = R.distances[id]?) →
    (k = 0 → ∀ stmt ∈ stmts, stmt.Keeps R.old) →
    Stmt.AllRenamed { R with distances } (.only k) stmts (Stmt.renameAll R k stmts)
  | [], _, _, _, _ => .nil _
  | stmt :: rest, h, hn, hd, hk => by
    simp only [idsAll, namesAll, List.mem_append, or_imp, forall_and, not_or] at hn hd
    exact .cons
      (stmt.renamed_rename hR k h.1 hn.1 hd.1 fun h0 => hk h0 stmt (List.mem_cons_self ..))
      (Stmt.allRenamed_rename hR k rest h.2 hn.2 hd.2 fun h0 stmt' hm =>
        hk h0 stmt' (List.mem_cons_of_mem _ hm))

theorem Stmt.optionRenamed_rename (hR : R.Proper) (k : Nat) : (stmt : Option Stmt) →
    Stmt.OptionRegular stmt → R.new ∉ Stmt.namesOption stmt →
    (∀ id ∈ Stmt.idsOption stmt, distances[id]? = R.distances[id]?) →
    Stmt.OptionRenamed { R with distances } (.only k) stmt (Stmt.renameOption R k stmt)
  | none, _, _, _ => .none _
  | some stmt, h, hn, hd =>
    .some (stmt.renamed_rename hR k h.1 hn hd fun _ => keeps_of_declares? h.2)

theorem Stmt.declRenamed_rename (hR : R.Proper) (k : Nat) : (decl : FunctionDecl Stmt) →
    Stmt.DeclRegular decl → R.new ∉ Stmt.namesDecl decl →
    (∀ id ∈ Stmt.idsDecl decl, distances[id]? = R.distances[id]?) →
    Stmt.DeclRenamed { R with distances } (.only k) decl (Stmt.renameDecl R (k + 1) decl)
  | ⟨name, params, body⟩, h, hn, hd => by
    simp only [namesDecl, List.mem_append, List.mem_cons, not_or] at hn
    have hbody := Stmt.allRenamed_rename hR (k + 1) body h.2 hn.2.2 hd
      fun hk => absurd hk k.succ_ne_zero
    rw [← Marks.push_only] at hbody
    have := Stmt.DeclRenamed.mk false name params hbody
    rwa [Lexeme.map_respell_false] at this

theorem Stmt.declsRenamed_rename (hR : R.Proper) (k : Nat) : (decls : List (FunctionDecl Stmt)) →
    Stmt.DeclsRegular decls → R.new ∉ Stmt.namesDecls decls →
    (∀ id ∈ Stmt.idsDecls decls, distances[id]? = R.distances[id]?) →
    Stmt.DeclsRenamed { R with distances } (.only k) decls (Stmt.renameDecls R (k + 1) decls)
  | [], _, _, _ => .nil _
  | decl :: rest, h, hn, hd => by
    simp only [idsDecls, namesDecls, List.mem_append, or_imp, forall_and, not_or] at hn hd
    exact .cons (Stmt.declRenamed_rename hR k decl h.1 hn.1 hd.1)
      (Stmt.declsRenamed_rename hR k rest h.2 hn.2 hd.2)

end

/-! ### Statements in their context -/

section

variable {stmt stmt' : Stmt} {stmts before after : List Stmt} {decl decl' : FunctionDecl Stmt}
  {first last : List (FunctionDecl Stmt)}

/-- What a list collects from its members, one after another. -/
theorem subset_of_mem {α β : Type} {f : α → List β} {g : List α → List β}
    (hg : ∀ a l, g (a :: l) = f a ++ g l) {a : α} {l : List α} (hm : a ∈ l) : f a ⊆ g l := by
  induction l with
  | nil => cases hm
  | cons head rest ih =>
    rw [hg]
    rcases List.mem_cons.1 hm with rfl | hm
    · exact List.subset_append_left ..
    · exact List.subset_append_of_subset_right _ (ih hm)

/-- What holds of a list holds of its members, one after another. -/
theorem holds_of_mem {α : Type} {p : α → Prop} {q : List α → Prop}
    (hq : ∀ a l, q (a :: l) → p a ∧ q l) {a : α} {l : List α} (h : q l) (hm : a ∈ l) : p a := by
  induction l with
  | nil => cases hm
  | cons head rest ih =>
    rcases List.mem_cons.1 hm with rfl | hm
    · exact (hq _ _ h).1
    · exact ih (hq _ _ h).2 hm

variable {T : Table} {within : FunctionScope} {scopes outer : Scopes} {scope : Scope}

theorem Stmt.resolved_of_mem (h : Stmt.AllResolved T within scopes stmts) (hm : stmt ∈ stmts) :
    ∃ scopes', stmt.Resolved T within scopes' := by
  induction stmts generalizing scopes with
  | nil => cases hm
  | cons head rest ih =>
    rcases List.mem_cons.1 hm with rfl | hm
    · exact ⟨scopes, h.1⟩
    · exact ih h.2 hm

theorem Stmt.allRenamed_insert (before after : List Stmt) (h : Stmt.Renamed R .none stmt stmt') :
    Stmt.AllRenamed R .none (before ++ stmt :: after) (before ++ stmt' :: after) := by
  induction before with
  | nil => exact .cons h (Stmt.allRenamed_self R after)
  | cons head rest ih => exact .cons (head.renamed_self R) ih

theorem Stmt.declsRenamed_insert (first last : List (FunctionDecl Stmt))
    (h : Stmt.DeclRenamed R .none decl decl') :
    Stmt.DeclsRenamed R .none (first ++ decl :: last) (first ++ decl' :: last) := by
  induction first with
  | nil => exact .cons h (Stmt.declsRenamed_self R last)
  | cons head rest ih => exact .cons (Stmt.declRenamed_self R head) ih

theorem Stmt.declRenamed_insert (h : Stmt.Renamed R .none stmt stmt') (name : Lexeme)
    (params : List Lexeme) :
    Stmt.DeclRenamed R .none ⟨name, params, before ++ stmt :: after⟩
      ⟨name, params, before ++ stmt' :: after⟩ := by
  have hbody : Stmt.AllRenamed R (Marks.none.push false) _ _ :=
    Marks.push_none ▸ Stmt.allRenamed_insert before after h
  have := Stmt.DeclRenamed.mk false name params hbody
  rwa [Lexeme.map_respell_false] at this

theorem Stmt.classRenamed_insert (h : Stmt.DeclRenamed R .none decl decl') (name : Lexeme)
    (superclass : Option VarRef) :
    Stmt.Renamed R .none (.classDecl name superclass (first ++ decl :: last))
      (.classDecl name superclass (first ++ decl' :: last)) := by
  have hmethods : Stmt.DeclsRenamed R (Marks.none.pushClass superclass) _ _ :=
    Marks.pushClass_none superclass ▸ Stmt.declsRenamed_insert first last h
  have : Stmt.Renamed R .none _ (.classDecl name _ _) := .classDecl superclass rfl hmethods
  rwa [VarRef.map_respell_none] at this

/-! ### Names that are declared once -/

theorem Stmt.Resolved.admits (h : stmt.Resolved T within scopes) :
    ∀ name ∈ stmt.declares?, scopes.Admits name := by
  cases stmt with
  | var name initial =>
    rintro _ ⟨⟩
    exact h.1
  | function decl =>
    rintro _ ⟨⟩
    exact h.1
  | classDecl name superclass methods =>
    rintro _ ⟨⟩
    exact h.1
  | _ =>
    rintro _ ⟨⟩

/-- A statement declares its name in the innermost scope, and takes none away. -/
theorem Stmt.scopesAfter_cons (stmt : Stmt) (scope : Scope) (outer : Scopes) :
    ∃ scope', stmt.scopesAfter (scope :: outer) = scope' :: outer ∧
      (∀ x, (scope.get? x).isSome → (scope'.get? x).isSome) ∧
      ∀ name ∈ stmt.declares?, (scope'.get? name.text).isSome := by
  rw [scopesAfter]
  cases stmt.declares? with
  | none => exact ⟨scope, rfl, fun _ => id, by rintro _ ⟨⟩⟩
  | some name =>
    refine ⟨scope.insert name.text true, rfl, fun x hx => ?_, ?_⟩
    · rw [Bindings.get?_insert]
      split
      · rfl
      · exact hx
    · rintro _ ⟨⟩
      rw [Bindings.get?_insert_self]
      rfl

variable {x : String}

/-- A name that the scope has declared already is not declared again. -/
theorem Stmt.AllResolved.ne_of_isSome (h : Stmt.AllResolved T within (scope :: outer) stmts)
    (hx : (scope.get? x).isSome) : ∀ stmt ∈ stmts, ∀ name ∈ stmt.declares?, name.text ≠ x := by
  induction stmts generalizing scope with
  | nil =>
    rintro _ ⟨⟩
  | cons head rest ih =>
    obtain ⟨scope', hscope, hkeep, -⟩ := head.scopesAfter_cons scope outer
    obtain ⟨hhead, hrest⟩ := h
    rw [hscope] at hrest
    intro stmt hm name hname heq
    rcases List.mem_cons.1 hm with rfl | hm
    · have := (hhead.admits name hname).isNew
      rw [Scopes.at?_zero, heq] at this
      rw [this] at hx
      cases hx
    · exact ih hrest (hkeep x hx) stmt hm name hname heq

theorem Stmt.keeps_of_ne (h : ∀ name ∈ stmt.declares?, name.text ≠ x) : stmt.Keeps x := by
  cases stmt with
  | function decl => exact h decl.name rfl
  | classDecl name superclass methods => exact h name rfl
  | _ => trivial

/-- Beside a variable no function and no class has the same name. -/
theorem Stmt.AllResolved.keeps (h : Stmt.AllResolved T within (scope :: outer) stmts)
    (hx : Stmt.DeclareVar x stmts) : ∀ stmt ∈ stmts, stmt.Keeps x := by
  obtain ⟨name, initial, hmem, rfl⟩ := hx
  induction stmts generalizing scope with
  | nil => cases hmem
  | cons head rest ih =>
    obtain ⟨scope', hscope, -, hdeclared⟩ := head.scopesAfter_cons scope outer
    obtain ⟨-, hrest⟩ := h
    rw [hscope] at hrest
    rcases List.mem_cons.1 hmem with rfl | hmem
    · refine List.forall_mem_cons.2 ⟨trivial, fun stmt hm => ?_⟩
      exact keeps_of_ne (hrest.ne_of_isSome (hdeclared name rfl) stmt hm)
    · refine List.forall_mem_cons.2 ⟨keeps_of_ne fun other hother heq => ?_, ih hrest hmem⟩
      exact hrest.ne_of_isSome (hdeclared other hother) _ hmem name rfl heq.symm

/-! ### The scope of the renamed variable is marked -/

/-- Renaming the variables of a function is a swap with its own scope marked. -/
theorem Stmt.declRenamed_renameScope (hR : R.Proper) (hx : decl.DeclaresVar R.old)
    (hr : Stmt.DeclResolved T within scopes decl) (h : Stmt.DeclRegular decl)
    (hn : R.new ∉ Stmt.namesDecl decl)
    (hd : ∀ id ∈ Stmt.idsDecl decl, distances[id]? = R.distances[id]?) :
    Stmt.DeclRenamed { R with distances } .none decl (decl.renameScope R) := by
  obtain ⟨name, params, body⟩ := decl
  simp only [namesDecl, List.mem_append, List.mem_cons, not_or] at hn
  have hkeeps : ∀ stmt ∈ body, stmt.Keeps R.old := by
    rcases hx with ⟨param, hp, hx⟩ | hx
    · refine fun stmt hm => keeps_of_ne (hr.2.ne_of_isSome ?_ stmt hm)
      rw [Scope.get?_ofNames, if_pos (hx ▸ List.mem_map_of_mem hp)]
      rfl
    · exact hr.2.keeps hx
  have hparams : params.map (Lexeme.respell { R with distances } true) =
      params.map (Lexeme.rename R) := by
    refine List.map_congr_left fun param hp => ?_
    exact Lexeme.respell_true (R := { R with distances }) fun heq =>
      hn.2.1 (heq ▸ List.mem_map_of_mem hp)
  have hbody := Stmt.allRenamed_rename hR 0 body h.2 hn.2.2 hd fun _ => hkeeps
  rw [← Marks.push_none_true] at hbody
  have := Stmt.DeclRenamed.mk true name params hbody
  rwa [hparams] at this

/-- Where a variable is renamed in a statement, names are swapped in one scope. -/
theorem Stmt.Renames.renamed (hR : R.Proper) (h : Stmt.Renames R stmt stmt')
    (hr : stmt.Resolved T within scopes) (hreg : stmt.Regular) (hn : R.new ∉ stmt.names)
    (hd : ∀ id ∈ stmt.ids, distances[id]? = R.distances[id]?) :
    Stmt.Renamed { R with distances } .none stmt stmt' := by
  -- Up to the scope that is marked all stays as it is; inside, the distances decide.
  induction h generalizing within scopes with
  | @block body hx =>
    refine .block true ?_
    rw [Marks.push_none_true]
    exact Stmt.allRenamed_rename hR 0 body hreg hn hd fun _ => hr.keeps hx
  | function hx => exact .function rfl (Stmt.declRenamed_renameScope hR hx hr.2 hreg.2 hn hd)
  | @method name superclass before after decl hx =>
    have hm : decl ∈ before ++ decl :: after := List.mem_append_cons_self
    simp only [ids, names, List.mem_cons, List.mem_append, or_imp, forall_and, not_or] at hn hd
    refine Stmt.classRenamed_insert ?_ name superclass
    exact Stmt.declRenamed_renameScope hR hx (Stmt.methodsResolved_iff.1 hr.2.2 decl hm)
      (holds_of_mem (fun _ _ => id) hreg.2.2 hm)
      (fun hnew => hn.2.2 (subset_of_mem (fun _ _ => rfl) hm hnew))
      fun id hid => hd.2 id (subset_of_mem (fun _ _ => rfl) hm hid)
  | @inBlock before after stmt stmt' _ ih =>
    have hm : stmt ∈ before ++ stmt :: after := List.mem_append_cons_self
    obtain ⟨scopes', hr'⟩ := Stmt.resolved_of_mem hr hm
    refine .block false ?_
    rw [Marks.push_none]
    refine Stmt.allRenamed_insert before after (ih hr' (holds_of_mem (fun _ _ => id) hreg hm) ?_ ?_)
    · exact fun hnew => hn (subset_of_mem (fun _ _ => rfl) hm hnew)
    · exact fun id hid => hd id (subset_of_mem (fun _ _ => rfl) hm hid)
  | @inBranch condition yes yes' no _ ih =>
    simp only [ids, names, List.mem_append, or_imp, forall_and, not_or] at hn hd
    have := Stmt.Renamed.branch condition (ih hr.2.1.1 hreg.2.1.1 hn.1.2 hd.1.2)
      (Stmt.optionRenamed_self _ no)
    rwa [condition.respell_none] at this
  | @inElse condition yes no no' _ ih =>
    simp only [ids, names, List.mem_append, or_imp, forall_and, not_or] at hn hd
    have := Stmt.Renamed.branch condition (yes.renamed_self _)
      (.some (ih hr.2.2.1 hreg.2.2.1 hn.2 hd.2))
    rwa [condition.respell_none] at this
  | @inLoop condition body body' _ ih =>
    simp only [ids, names, List.mem_append, or_imp, forall_and, not_or] at hn hd
    have := Stmt.Renamed.loop condition (ih hr.2.1 hreg.2.1 hn.2 hd.2)
    rwa [condition.respell_none] at this
  | @inFunction name params before after stmt stmt' _ ih =>
    have hm : stmt ∈ before ++ stmt :: after := List.mem_append_cons_self
    simp only [names, namesDecl, List.mem_cons, List.mem_append, not_or] at hn
    obtain ⟨scopes', hr'⟩ := Stmt.resolved_of_mem hr.2.2 hm
    refine .function rfl (Stmt.declRenamed_insert
      (ih hr' (holds_of_mem (fun _ _ => id) hreg.2.2 hm) ?_ ?_) name params)
    · exact fun hnew => hn.2.2 (subset_of_mem (fun _ _ => rfl) hm hnew)
    · exact fun id hid => hd id (subset_of_mem (fun _ _ => rfl) hm hid)
  | @inMethod name method superclass before after params first last stmt stmt' _ ih =>
    have hm : stmt ∈ first ++ stmt :: last := List.mem_append_cons_self
    have hm' : ⟨method, params, first ++ stmt :: last⟩ ∈
        before ++ ⟨method, params, first ++ stmt :: last⟩ :: after := List.mem_append_cons_self
    simp only [ids, names, List.mem_cons, List.mem_append, or_imp, forall_and, not_or] at hn hd
    obtain ⟨scopes', hr'⟩ :=
      Stmt.resolved_of_mem (Stmt.methodsResolved_iff.1 hr.2.2 _ hm').2 hm
    have hdecl : Stmt.DeclRegular _ := holds_of_mem (fun _ _ => id) hreg.2.2 hm'
    refine Stmt.classRenamed_insert (Stmt.declRenamed_insert
      (ih hr' (holds_of_mem (fun _ _ => id) hdecl.2 hm) ?_ ?_) method params) name superclass
    · refine fun hnew => hn.2.2 (subset_of_mem (f := Stmt.namesDecl) (fun _ _ => rfl) hm' ?_)
      exact List.mem_cons_of_mem _
        (List.mem_append_right _ (subset_of_mem (fun _ _ => rfl) hm hnew))
    · refine fun id hid => hd.2 id (subset_of_mem (f := Stmt.idsDecl) (fun _ _ => rfl) hm' ?_)
      exact subset_of_mem (fun _ _ => rfl) hm hid

/-- A declared variable has a name that is no keyword. -/
theorem Stmt.DeclareVar.isName (h : Stmt.DeclareVar x stmts) (hreg : Stmt.AllRegular stmts) :
    Keyword.ofText? x = none := by
  obtain ⟨name, initial, hm, rfl⟩ := h
  have : (Stmt.var name initial).Regular := holds_of_mem (fun _ _ => id) hreg hm
  exact this.1

theorem FunctionDecl.DeclaresVar.isName (h : decl.DeclaresVar x) (hreg : Stmt.DeclRegular decl) :
    Keyword.ofText? x = none := by
  obtain ⟨name, params, body⟩ := decl
  rcases h with ⟨param, hp, rfl⟩ | h
  · exact hreg.1 param hp
  · exact h.isName hreg.2

/-- The old name is no keyword, since a variable in the statement has it. -/
theorem Stmt.Renames.isName_old (h : Stmt.Renames R stmt stmt') (hreg : stmt.Regular) :
    Keyword.ofText? R.old = none := by
  induction h with
  | block hx => exact hx.isName hreg
  | function hx => exact hx.isName hreg.2
  | method hx => exact hx.isName (holds_of_mem (fun _ _ => id) hreg.2.2 List.mem_append_cons_self)
  | inBlock _ ih => exact ih (holds_of_mem (fun _ _ => id) hreg List.mem_append_cons_self)
  | inBranch _ ih => exact ih hreg.2.1.1
  | inElse _ ih => exact ih hreg.2.2.1
  | inLoop _ ih => exact ih hreg.2.1
  | inFunction _ ih => exact ih (holds_of_mem (fun _ _ => id) hreg.2.2 List.mem_append_cons_self)
  | inMethod _ ih =>
    have hdecl : Stmt.DeclRegular _ :=
      holds_of_mem (fun _ _ => id) hreg.2.2 List.mem_append_cons_self
    exact ih (holds_of_mem (fun _ _ => id) hdecl.2 List.mem_append_cons_self)

theorem Program.Renames.isName_old {p p' : Program} (h : Program.Renames R p p')
    (hreg : Stmt.AllRegular p) : Keyword.ofText? R.old = none := by
  obtain ⟨before, stmt, stmt', after, rfl, rfl, h⟩ := h
  exact h.isName_old (holds_of_mem (fun _ _ => id) hreg List.mem_append_cons_self)

/-- Where a variable is renamed in a program that is accepted, names are swapped in one scope. -/
theorem Program.Renames.renamed {p p' : Program} (hR : R.Proper) (h : Program.Renames R p p')
    (hr : Stmt.AllResolved T within scopes p) (hreg : Stmt.AllRegular p)
    (hn : R.new ∉ Stmt.namesAll p)
    (hd : ∀ id ∈ Stmt.idsAll p, distances[id]? = R.distances[id]?) :
    Stmt.AllRenamed { R with distances } .none p p' := by
  obtain ⟨before, stmt, stmt', after, rfl, rfl, h⟩ := h
  have hm : stmt ∈ before ++ stmt :: after := List.mem_append_cons_self
  obtain ⟨scopes', hr'⟩ := Stmt.resolved_of_mem hr hm
  refine Stmt.allRenamed_insert before after
    (h.renamed hR hr' (holds_of_mem (fun _ _ => id) hreg hm) ?_ ?_)
  · exact fun hnew => hn (subset_of_mem (fun _ _ => rfl) hm hnew)
  · exact fun id hid => hd id (subset_of_mem (fun _ _ => rfl) hm hid)

end

end

end Lox
