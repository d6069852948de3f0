import Lox.Resolution.Walk
import Lox.Stmt.Basic

/-!
# Resolution

The walk through expressions and statements (see `Lox.Resolution.Walk` for its state). Scopes are
opened by blocks, by functions (parameters and body share one), and by classes, which bind `this`
around their methods and, around that, `super` if they have a superclass.

* `Program.resolve` resolves a program, `Expr.resolve` an expression outside all scopes;
* both yield the distances of the local names, or all errors.
-/

namespace Lox

namespace Walk

mutual

/-- Goes through an expression. -/
def expr : Walk → Expr → Walk
  | w, .literal _ _ => w
  | w, .unary _ _ _ right => w.expr right
  | w, .binary _ _ _ left right => (w.expr left).expr right
  | w, .logical _ _ _ left right => (w.expr left).expr right
  | w, .grouping _ inner => w.expr inner
  | w, .var id name => w.readVariable id name
  | w, .assign id name value => (w.expr value).resolveLocal id name.text
  | w, .call _ callee _ arguments => (w.expr callee).exprs arguments
  | w, .get _ object _ => w.expr object
  | w, .set _ object _ value => (w.expr object).expr value
  | w, .this id keyword =>
    if w.inClass = .none then w.report keyword .thisOutsideClass else w.resolveLocal id keyword.text
  | w, .super id keyword _ =>
    let w :=
      match w.inClass with
      | .none => w.report keyword .superOutsideClass
      | .base => w.report keyword .superWithoutSuperclass
      | .derived => w
    w.resolveLocal id keyword.text

/-- Goes through expressions, one after another. -/
def exprs : Walk → List Expr → Walk
  | w, [] => w
  | w, e :: rest => (w.expr e).exprs rest

end

/-- Goes through an expression that may be left out. -/
def expr? (w : Walk) : Option Expr → Walk
  | none => w
  | some e => w.expr e

/-- Goes through a `return` up to its value. -/
def returnKeyword (w : Walk) (keyword : Lexeme) (hasValue : Bool) : Walk :=
  let w := if w.function = .none then w.report keyword .returnAtTop else w
  if hasValue ∧ w.function = .initializer then w.report keyword .returnFromInitializer else w

/-- Goes through the head of a class and opens the scopes around its methods. -/
def openClass (w : Walk) (name : Lexeme) (superclass : Option VarRef) : Walk :=
  let w := { w with inClass := .base }.introduce name
  let w :=
    match superclass with
    | none => w
    | some ref =>
      let w := if ref.name.text = name.text then w.report ref.name .inheritFromItself else w
      let w := { w with inClass := .derived }.readVariable ref.id ref.name
      w.openScope.bind "super" true
  w.openScope.bind "this" true

/-- Closes the scopes around the methods of a class. -/
def closeClass (w : Walk) (superclass : Option VarRef) : Walk :=
  if superclass.isSome then w.closeScope.closeScope else w.closeScope

/-- The function body that a method is. -/
def methodScope (name : Lexeme) : FunctionScope :=
  if name.text = initializerName then .initializer else .method

mutual

/-- Goes through a statement. -/
def stmt : Walk → Stmt → Walk
  | w, .expression e => w.expr e
  | w, .print e => w.expr e
  | w, .var name initial => ((w.declare name).expr? initial).define name
  | w, .block body => (w.openScope.stmts body).closeScope
  | w, .branch condition yes none => (w.expr condition).stmt yes
  | w, .branch condition yes (some no) => ((w.expr condition).stmt yes).stmt no
  | w, .loop condition body => (w.expr condition).stmt body
  | w, .function decl => (w.introduce decl.name).functionBody .function decl
  | w, .ret keyword value => (w.returnKeyword keyword value.isSome).expr? value
  | w, .classDecl name superclass methods =>
    let inside := (w.openClass name superclass).methods methods
    { inside.closeClass superclass with inClass := w.inClass }

/-- Goes through statements, one after another. -/
def stmts : Walk → List Stmt → Walk
  | w, [] => w
  | w, s :: rest => (w.stmt s).stmts rest

/-- Goes through the parameters and the body of a function. -/
def functionBody : Walk → FunctionScope → FunctionDecl Stmt → Walk
  | w, scope, ⟨_, params, body⟩ =>
    let inside := ({ w with function := scope }.openScope.introduceAll params).stmts body
    { inside.closeScope with function := w.function }

/-- Goes through the methods of a class. -/
def methods : Walk → List (FunctionDecl Stmt) → Walk
  | w, [] => w
  | w, decl :: rest => (w.functionBody (methodScope decl.name) decl).methods rest

end

end Walk

/-- The distances of the local names in a program. -/
def Program.resolve (program : Program) : Except (List ResolveError) Distances :=
  (Walk.start.stmts program).result

/-- The distances of the local names in an expression that stands alone. -/
def Expr.resolve (e : Expr) : Except (List ResolveError) Distances := (Walk.start.expr e).result

end Lox
