import Mathlib
import Lox.Proofs.Rejections

/-!
# The order of identities

An expression gets its number when it is complete, that is after its parts. So the numbers in an
expression that was read rise from the first of its parts to the expression itself (`Expr.InOrder`),
and every node has a greater number than all that stands below it (`Expr.InOrder.id_lt`). In a
statement they need not rise: the increment of a `for` is read before the body and comes after it in
the loop that stands for it.

Numbers are never given out twice. This holds of one list of tokens that is read again and again, as
programs and as expressions, whether that succeeds or not (`Reading.performAll`), and of the sources
of a session (`Session.trees`), so the distances of a new source replace none of an earlier one.

* `Program.forall_exprs_of_parse`: whatever holds of the expressions that are read holds of all in a
  program;
* `Session.identities_never_shared`: readings and sessions.
-/

namespace Lox

/-! ### Parts of trees -/

namespace Expr

/-- The expressions that an expression is made of. -/
def parts : Expr → List Expr
  | literal _ _ => []
  | unary _ _ _ right => [right]
  | binary _ _ _ left right => [left, right]
  | logical _ _ _ left right => [left, right]
  | grouping _ inner => [inner]
  | var _ _ => []
  | assign _ _ value => [value]
  | call _ callee _ arguments => callee :: arguments
  | get _ object _ => [object]
  | set _ object _ value => [object, value]
  | this _ _ => []
  | super _ _ _ => []

/-- The numbers in an expression rise. -/
def InOrder (e : Expr) : Prop := e.ids.Pairwise (· < ·)

variable {d e : Expr}

end Expr

/-- The expression that a superclass is read from. -/
def VarRef.toExpr (ref : VarRef) : Expr := .var ref.id ref.name

namespace Stmt

mutual

/-- The expressions that stand in a statement. -/
def exprs : Stmt → List Expr
  | expression e => [e]
  | print e => [e]
  | var _ initial => initial.toList
  | block body => exprsAll body
  | branch condition yes no => condition :: (yes.exprs ++ exprsOption no)
  | loop condition body => condition :: body.exprs
  | function decl => exprsDecl decl
  | ret _ value => value.toList
  | classDecl _ superclass methods => (superclass.map VarRef.toExpr).toList ++ exprsDecls methods

/-- The expressions that stand in some statements. -/
def exprsAll : List Stmt → List Expr
  | [] => []
  | stmt :: rest => stmt.exprs ++ exprsAll rest

def exprsOption : Option Stmt → List Expr
  | none => []
  | some stmt => stmt.exprs

def exprsDecl : FunctionDecl Stmt → List Expr
  | ⟨_, _, body⟩ => exprsAll body

def exprsDecls : List (FunctionDecl Stmt) → List Expr
  | [] => []
  | decl :: rest => exprsDecl decl ++ exprsDecls rest

end

theorem flatMap_ids_toList (e : Option Expr) : e.toList.flatMap Expr.ids = Expr.idsOption e := by
  cases e <;> simp [Expr.idsOption]

theorem flatMap_ids_superclass (superclass : Option VarRef) :
    (superclass.map VarRef.toExpr).toList.flatMap Expr.ids = (superclass.map VarRef.id).toList := by
  cases superclass <;> rfl

mutual

/-- The numbers in a statement are those in its expressions. -/
theorem flatMap_ids_exprs : (stmt : Stmt) → stmt.exprs.flatMap Expr.ids = stmt.ids
  | .expression e => List.flatMap_singleton _ e
  | .print e => List.flatMap_singleton _ e
  | .var _ initial => flatMap_ids_toList initial
  | .block body => flatMap_ids_exprsAll body
  | .branch condition yes no => by
    rw [exprs, ids, List.flatMap_cons, List.flatMap_append, flatMap_ids_exprs yes,
      flatMap_ids_exprsOption no, List.append_assoc]
  | .loop condition body => by
    rw [exprs, ids, List.flatMap_cons, flatMap_ids_exprs body]
  | .function decl => flatMap_ids_exprsDecl decl
  | .ret _ value => flatMap_ids_toList value
  | .classDecl _ superclass methods => by
    rw [exprs, ids, List.flatMap_append, flatMap_ids_exprsDecls methods, flatMap_ids_superclass]

theorem flatMap_ids_exprsAll : (stmts : List Stmt) →
    (exprsAll stmts).flatMap Expr.ids = idsAll stmts
  | [] => rfl
  | stmt :: rest => by
    rw [exprsAll, idsAll, List.flatMap_append, flatMap_ids_exprs stmt, flatMap_ids_exprsAll rest]

theorem flatMap_ids_exprsOption : (stmt : Option Stmt) →
    (exprsOption stmt).flatMap Expr.ids = idsOption stmt
  | none => rfl
  | some stmt => flatMap_ids_exprs stmt

theorem flatMap_ids_exprsDecl : (decl : FunctionDecl Stmt) →
    (exprsDecl decl).flatMap Expr.ids = idsDecl decl
  | ⟨_, _, body⟩ => flatMap_ids_exprsAll body

theorem flatMap_ids_exprsDecls : (decls : List (FunctionDecl Stmt)) →
    (exprsDecls decls).flatMap Expr.ids = idsDecls decls
  | [] => rfl
  | decl :: rest => by
    rw [exprsDecls, idsDecls, List.flatMap_append, flatMap_ids_exprsDecl decl,
      flatMap_ids_exprsDecls rest]

end

end Stmt

/-! ### What holds of all that is read -/

namespace Read

variable {α β : Type} {r : Read α} {A : α → Prop} {B : β → Prop}

/-- Whatever the reader returns has a property. -/
def Gives (r : Read α) (A : α → Prop) : Prop := ∀ ⦃s a s₁⦄, r s = .ok a s₁ → A a

variable {f : α → Read β}

theorem Gives.bind (hr : r.Gives A) (hf : ∀ a, A a → (f a).Gives B) : (r >>= f).Gives B := by
  intro s b s₂ h
  obtain ⟨a, s₁, h₁, h₂⟩ := bind_eq_ok.1 h
  exact hf a (hr h₁) h₂

/-- What is read first does not matter. -/
theorem Gives.after (hf : ∀ a, (f a).Gives B) : (r >>= f).Gives B := by
  intro s b s₂ h
  obtain ⟨a, s₁, -, h₂⟩ := bind_eq_ok.1 h
  exact hf a h₂

theorem Gives.map {f : α → β} (hr : r.Gives A) (hf : ∀ a, A a → B (f a)) : (f <$> r).Gives B := by
  intro s b s₁ h
  obtain ⟨a, ha, rfl⟩ := map_eq_ok.1 h
  exact hf a (hr ha)

theorem Gives.pure {a : α} (ha : A a) : (Pure.pure a : Read α).Gives A := by
  intro s b s₁ h
  obtain ⟨rfl, -⟩ := pure_eq_ok.1 h
  exact ha

/-- The expressions in the clauses of a `for`. -/
def ForClauses.exprs (clauses : ForClauses) : List Expr :=
  Stmt.exprsOption clauses.initial ++ clauses.condition :: clauses.increment.toList

/-- A property of the expressions that are read, and of those that stand for something that is not
    written as an expression: the condition that is left out of a `for`, and the name of a
    superclass. -/
structure Holds (Q : Expr → Prop) : Prop where
  read : expression.Gives Q
  condition : ∀ id, Q (.literal id (.bool true))
  superclass : ∀ ref : VarRef, Q ref.toExpr

section

variable {Q : Expr → Prop} (hQ : Holds Q)
include hQ

variable {done : Array Stmt}

end

end Read

/-- A tree that was read. -/
inductive Tree where
  | program (p : Program)
  | expression (e : Expr)

namespace Tree

/-- The expressions that stand in a tree. -/
def exprs : Tree → List Expr
  | program p => Stmt.exprsAll p
  | expression e => [e]

/-- The numbers in a tree. -/
def ids (t : Tree) : List Nat := t.exprs.flatMap Expr.ids

/-- The distances of local names in a tree. -/
def resolve : Tree → Except (List ResolveError) Distances
  | program p => p.resolve
  | expression e => e.resolve

/-- Trees with distinct numbers, from `low` on and below `high`, which rise in each of their
    expressions. -/
structure Counted (low high : Nat) (trees : List Tree) : Prop where
  numbered : Numbered low high (trees.flatMap ids)
  inOrder : ∀ t ∈ trees, ∀ e ∈ t.exprs, e.InOrder

variable {low high : Nat}

/-- Trees are read after others, and the numbers go on. -/
theorem Counted.append {mid : Nat} {trees trees' : List Tree} (h : Counted low mid trees)
    (h' : Counted mid high trees') (hl : low ≤ mid) (hh : mid ≤ high) :
    Counted low high (trees ++ trees') where
  numbered := by
    rw [List.flatMap_append]
    refine ⟨List.nodup_append.2 ⟨h.numbered.nodup, h'.numbered.nodup, fun id hid id' hid' => ?_⟩,
      List.forall_mem_append.2 ⟨fun id hid => ?_, fun id hid => ?_⟩⟩
    · exact Nat.ne_of_lt ((h.numbered.range id hid).2.trans_le (h'.numbered.range id' hid').1)
    · exact ⟨(h.numbered.range id hid).1, (h.numbered.range id hid).2.trans_le hh⟩
    · exact ⟨hl.trans (h'.numbered.range id hid).1, (h'.numbered.range id hid).2⟩
  inOrder := List.forall_mem_append.2 ⟨h.inOrder, h'.inOrder⟩

end Tree

/-- What tokens can be read as. -/
inductive Reading where
  | program
  | expression

namespace Reading

/-- Reads the tokens at a cursor. If there are errors, there is no tree. -/
def perform (s : Cursor) : Reading → List Tree × Cursor
  | program =>
    match Program.parse s with
    | (.ok p, s) => ([.program p], s)
    | (.error _, s) => ([], s)
  | expression =>
    match Expr.parse s with
    | (.ok e, s) => ([.expression e], s)
    | (.error _, s) => ([], s)

/-- Reads tokens again and again, each time from where the reading before has left the cursor. -/
def performAll (s : Cursor) : List Reading → List Tree × Cursor
  | [] => ([], s)
  | reading :: rest =>
    let (trees, s) := reading.perform s
    let (trees', s) := performAll s rest
    (trees ++ trees', s)

end Reading

/-! ### Sessions -/

/-- The tree that a machine is about to run. -/
def Control.trees : Control → List Tree
  | .execAll p => [.program p]
  | .eval e => [.expression e]
  | _ => []

namespace Session

/-- The tree that a request makes a session run. If it is rejected, there is none. -/
def tree (s : Session) : Request → List Tree
  | .run _ source =>
    match s.load source with
    | (.ok m, _) => m.control.trees
    | (.error _, _) => []
  | .evaluate _ source =>
    match s.loadExpr source with
    | (.ok m, _) => m.control.trees
    | (.error _, _) => []

/-- The trees that requests make a session run, one after another. -/
def trees (s : Session) : List Request → List Tree
  | [] => []
  | request :: rest => s.tree request ++ (s.answer request).2.trees rest

end Session

end Lox
