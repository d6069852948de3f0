import Mathlib
import Lox.Machine.State
import Lox.Proofs.Identity
import Lox.Value.Operation

/-!
# Relabelling

Two things about a tree do not belong to what is written: the identities of its expressions, which
depend on what was parsed before, and the lines, which depend on what is written above. A
*relabelling* gives other identities and other lines to a tree and, with it, to everything that
trees are part of: the closures of functions and methods, classes, values, frames, and the store.

Relabelling changes nothing that can be seen of a value, and operations on values, stores and states
commute with it. It need not be injective: lines may all become one.

* `Expr.relabel`, `Stmt.relabel`, `Value.relabel`, `Store.relabel`, `State.relabel`: the relabelled
  data;
* `Expr.relabel_congr`, `Stmt.relabel_congr`: only the identities that there are matter;
* `Value.display_relabel`, `Value.equals_relabel`: what is seen of a value;
* `Store.getAt_relabel`, `Store.find?_relabel`, `State.lookUp_relabel`: looking names up.
-/

namespace Lox

/-- Other identities for expressions, and other lines. -/
structure Relabelling where
  id : Nat → Nat
  line : Nat → Nat

/-- Other identities on the same lines. -/
def Relabelling.ofIds (f : Nat → Nat) : Relabelling := ⟨f, fun line => line⟩

variable (L : Relabelling)

/-! ### Trees -/

/-- The same text on another line. -/
def Lexeme.relabel (name : Lexeme) : Lexeme := { name with line := L.line name.line }

/-- The same token on another line. -/
def Token.relabel (t : Token) : Token := { t with line := L.line t.line }

mutual

/-- The same expression with other identities and lines. -/
def Expr.relabel : Expr → Expr
  | .literal id value => .literal (L.id id) value
  | .unary id op mark right => .unary (L.id id) op (mark.relabel L) right.relabel
  | .binary id op mark left right =>
    .binary (L.id id) op (mark.relabel L) left.relabel right.relabel
  | .logical id op mark left right =>
    .logical (L.id id) op (mark.relabel L) left.relabel right.relabel
  | .grouping id inner => .grouping (L.id id) inner.relabel
  | .var id name => .var (L.id id) (name.relabel L)
  | .assign id name value => .assign (L.id id) (name.relabel L) value.relabel
  | .call id callee paren arguments =>
    .call (L.id id) callee.relabel (paren.relabel L) (relabelAll arguments)
  | .get id object name => .get (L.id id) object.relabel (name.relabel L)
  | .set id object name value => .set (L.id id) object.relabel (name.relabel L) value.relabel
  | .this id keyword => .this (L.id id) (keyword.relabel L)
  | .super id keyword method => .super (L.id id) (keyword.relabel L) (method.relabel L)

/-- The same expressions with other identities and lines. -/
def Expr.relabelAll : List Expr → List Expr
  | [] => []
  | e :: rest => e.relabel :: relabelAll rest

end

/-- The same variable with another identity and line. -/
def VarRef.relabel (ref : VarRef) : VarRef := ⟨L.id ref.id, ref.name.relabel L⟩

mutual

/-- The same statement with other identities and lines. -/
def Stmt.relabel : Stmt → Stmt
  | .expression e => .expression (e.relabel L)
  | .print e => .print (e.relabel L)
  | .var name initial => .var (name.relabel L) (initial.map (Expr.relabel L))
  | .block body => .block (relabelAll body)
  | .branch condition yes no => .branch (condition.relabel L) yes.relabel (relabelOption no)
  | .loop condition body => .loop (condition.relabel L) body.relabel
  | .function decl => .function (relabelDecl decl)
  | .ret keyword value => .ret (keyword.relabel L) (value.map (Expr.relabel L))
  | .classDecl name superclass methods =>
    .classDecl (name.relabel L) (superclass.map (VarRef.relabel L)) (relabelDecls methods)

/-- The same statements with other identities and lines. -/
def Stmt.relabelAll : List Stmt → List Stmt
  | [] => []
  | s :: rest => s.relabel :: relabelAll rest

/-- The same statement, if there is one. -/
def Stmt.relabelOption : Option Stmt → Option Stmt
  | none => none
  | some s => some s.relabel

/-- The same declaration with other identities and lines. -/
def Stmt.relabelDecl : FunctionDecl Stmt → FunctionDecl Stmt
  | ⟨name, params, body⟩ => ⟨name.relabel L, params.map (Lexeme.relabel L), relabelAll body⟩

/-- The same declarations with other identities and lines. -/
def Stmt.relabelDecls : List (FunctionDecl Stmt) → List (FunctionDecl Stmt)
  | [] => []
  | decl :: rest => relabelDecl decl :: relabelDecls rest

end

/-- Expressions are relabelled one by one. -/
theorem Expr.relabelAll_eq_map (es : List Expr) :
    Expr.relabelAll L es = es.map (Expr.relabel L) := by
  induction es with
  | nil => rfl
  | cons e rest ih => rw [Expr.relabelAll, ih, List.map_cons]

/-- Statements are relabelled one by one. -/
theorem Stmt.relabelAll_eq_map (body : List Stmt) :
    Stmt.relabelAll L body = body.map (Stmt.relabel L) := by
  induction body with
  | nil => rfl
  | cons s rest ih => rw [Stmt.relabelAll, ih, List.map_cons]

/-- Methods are relabelled one by one. -/
theorem Stmt.relabelDecls_eq_map (decls : List (FunctionDecl Stmt)) :
    Stmt.relabelDecls L decls = decls.map (Stmt.relabelDecl L) := by
  induction decls with
  | nil => rfl
  | cons decl rest ih => rw [Stmt.relabelDecls, ih, List.map_cons]

@[simp]
theorem Lexeme.text_relabel (name : Lexeme) : (name.relabel L).text = name.text := rfl

/-- A function keeps its name. -/
@[simp]
theorem Stmt.text_relabelDecl (decl : FunctionDecl Stmt) :
    (Stmt.relabelDecl L decl).name.text = decl.name.text := by
  obtain ⟨name, params, body⟩ := decl
  rw [Stmt.relabelDecl, Lexeme.text_relabel]

/-- The parameters of a function are relabelled one by one. -/
@[simp]
theorem Stmt.params_relabelDecl (decl : FunctionDecl Stmt) :
    (Stmt.relabelDecl L decl).params = decl.params.map (Lexeme.relabel L) := by
  obtain ⟨name, params, body⟩ := decl
  rw [Stmt.relabelDecl]

@[simp]
theorem Stmt.body_relabelDecl (decl : FunctionDecl Stmt) :
    (Stmt.relabelDecl L decl).body = Stmt.relabelAll L decl.body := by
  obtain ⟨name, params, body⟩ := decl
  rw [Stmt.relabelDecl]

section

variable {L} {M : Relabelling}

/-- A name depends on the relabelling of lines only. -/
theorem Lexeme.relabel_congr (hl : L.line = M.line) (name : Lexeme) :
    name.relabel L = name.relabel M := by
  rw [Lexeme.relabel, Lexeme.relabel, hl]

mutual

/-- Only the identities in an expression matter. -/
theorem Expr.relabel_congr (hl : L.line = M.line) :
    (e : Expr) → (∀ id ∈ e.ids, L.id id = M.id id) → e.relabel L = e.relabel M
  | .literal id value, h => by
    rw [relabel, relabel, h id (by simp [ids])]
  | .unary id op mark right, h => by
    rw [relabel, relabel, h id (by simp [ids]), mark.relabel_congr hl,
      right.relabel_congr hl fun i hi => h i (by simp [ids, hi])]
  | .binary id op mark left right, h => by
    rw [relabel, relabel, h id (by simp [ids]), mark.relabel_congr hl,
      left.relabel_congr hl fun i hi => h i (by simp [ids, hi]),
      right.relabel_congr hl fun i hi => h i (by simp [ids, hi])]
  | .logical id op mark left right, h => by
    rw [relabel, relabel, h id (by simp [ids]), mark.relabel_congr hl,
      left.relabel_congr hl fun i hi => h i (by simp [ids, hi]),
      right.relabel_congr hl fun i hi => h i (by simp [ids, hi])]
  | .grouping id inner, h => by
    rw [relabel, relabel, h id (by simp [ids]),
      inner.relabel_congr hl fun i hi => h i (by simp [ids, hi])]
  | .var id name, h => by
    rw [relabel, relabel, h id (by simp [ids]), name.relabel_congr hl]
  | .assign id name value, h => by
    rw [relabel, relabel, h id (by simp [ids]), name.relabel_congr hl,
      value.relabel_congr hl fun i hi => h i (by simp [ids, hi])]
  | .call id callee paren arguments, h => by
    rw [relabel, relabel, h id (by simp [ids]), paren.relabel_congr hl,
      callee.relabel_congr hl fun i hi => h i (by simp [ids, hi]),
      Expr.relabelAll_congr hl arguments fun i hi => h i (by simp [ids, hi])]
  | .get id object name, h => by
    rw [relabel, relabel, h id (by simp [ids]), name.relabel_congr hl,
      object.relabel_congr hl fun i hi => h i (by simp [ids, hi])]
  | .set id object name value, h => by
    rw [relabel, relabel, h id (by simp [ids]), name.relabel_congr hl,
      object.relabel_congr hl fun i hi => h i (by simp [ids, hi]),
      value.relabel_congr hl fun i hi => h i (by simp [ids, hi])]
  | .this id keyword, h => by
    rw [relabel, relabel, h id (by simp [ids]), keyword.relabel_congr hl]
  | .super id keyword method, h => by
    rw [relabel, relabel, h id (by simp [ids]), keyword.relabel_congr hl, method.relabel_congr hl]

theorem Expr.relabelAll_congr (hl : L.line = M.line) :
    (es : List Expr) → (∀ id ∈ Expr.idsAll es, L.id id = M.id id) →
      Expr.relabelAll L es = Expr.relabelAll M es
  | [], _ => rfl
  | e :: rest, h => by
    rw [relabelAll, relabelAll, e.relabel_congr hl fun i hi => h i (by simp [idsAll, hi]),
      Expr.relabelAll_congr hl rest fun i hi => h i (by simp [idsAll, hi])]

end

/-- What may be missing depends on the relabelling of its own identities only. -/
theorem Expr.map_relabel_congr (hl : L.line = M.line) (e : Option Expr)
    (h : ∀ id ∈ Expr.idsOption e, L.id id = M.id id) :
    e.map (Expr.relabel L) = e.map (Expr.relabel M) := by
  cases e with
  | none => rfl
  | some e => exact congrArg some (e.relabel_congr hl h)

mutual

/-- Only the identities in a statement matter. -/
theorem Stmt.relabel_congr (hl : L.line = M.line) :
    (s : Stmt) → (∀ id ∈ s.ids, L.id id = M.id id) → s.relabel L = s.relabel M
  | .expression e, h => by rw [relabel, relabel, e.relabel_congr hl h]
  | .print e, h => by rw [relabel, relabel, e.relabel_congr hl h]
  | .var name initial, h => by
    rw [relabel, relabel, name.relabel_congr hl, Expr.map_relabel_congr hl initial h]
  | .block body, h => by rw [relabel, relabel, Stmt.relabelAll_congr hl body h]
  | .branch condition yes no, h => by
    rw [relabel, relabel, condition.relabel_congr hl fun i hi => h i (by simp [ids, hi]),
      yes.relabel_congr hl fun i hi => h i (by simp [ids, hi]),
      Stmt.relabelOption_congr hl no fun i hi => h i (by simp [ids, hi])]
  | .loop condition body, h => by
    rw [relabel, relabel, condition.relabel_congr hl fun i hi => h i (by simp [ids, hi]),
      body.relabel_congr hl fun i hi => h i (by simp [ids, hi])]
  | .function decl, h => by rw [relabel, relabel, Stmt.relabelDecl_congr hl decl h]
  | .ret keyword value, h => by
    rw [relabel, relabel, keyword.relabel_congr hl, Expr.map_relabel_congr hl value h]
  | .classDecl name superclass methods, h => by
    have hsuper : superclass.map (VarRef.relabel L) = superclass.map (VarRef.relabel M) := by
      cases superclass with
      | none => rfl
      | some ref =>
        rw [Option.map_some, Option.map_some, VarRef.relabel, VarRef.relabel,
          ref.name.relabel_congr hl, h ref.id (by simp [ids])]
    rw [relabel, relabel, name.relabel_congr hl, hsuper,
      Stmt.relabelDecls_congr hl methods fun i hi => h i (by simp [ids, hi])]

/-- Statements depend on the relabelling of lines and of their own identities only. -/
theorem Stmt.relabelAll_congr (hl : L.line = M.line) :
    (body : List Stmt) → (∀ id ∈ Stmt.idsAll body, L.id id = M.id id) →
      Stmt.relabelAll L body = Stmt.relabelAll M body
  | [], _ => rfl
  | s :: rest, h => by
    rw [relabelAll, relabelAll, s.relabel_congr hl fun i hi => h i (by simp [idsAll, hi]),
      Stmt.relabelAll_congr hl rest fun i hi => h i (by simp [idsAll, hi])]

theorem Stmt.relabelOption_congr (hl : L.line = M.line) :
    (s : Option Stmt) → (∀ id ∈ Stmt.idsOption s, L.id id = M.id id) →
      Stmt.relabelOption L s = Stmt.relabelOption M s
  | none, _ => rfl
  | some s, h => by rw [relabelOption, relabelOption, s.relabel_congr hl h]

theorem Stmt.relabelDecl_congr (hl : L.line = M.line) :
    (decl : FunctionDecl Stmt) → (∀ id ∈ Stmt.idsDecl decl, L.id id = M.id id) →
      Stmt.relabelDecl L decl = Stmt.relabelDecl M decl
  | ⟨name, params, body⟩, h => by
    have hparams : params.map (Lexeme.relabel L) = params.map (Lexeme.relabel M) :=
      List.map_congr_left fun param _ => param.relabel_congr hl
    rw [relabelDecl, relabelDecl, name.relabel_congr hl, hparams, Stmt.relabelAll_congr hl body h]

theorem Stmt.relabelDecls_congr (hl : L.line = M.line) :
    (decls : List (FunctionDecl Stmt)) → (∀ id ∈ Stmt.idsDecls decls, L.id id = M.id id) →
      Stmt.relabelDecls L decls = Stmt.relabelDecls M decls
  | [], _ => rfl
  | decl :: rest, h => by
    rw [relabelDecls, relabelDecls,
      Stmt.relabelDecl_congr hl decl fun i hi => h i (by simp [idsDecls, hi]),
      Stmt.relabelDecls_congr hl rest fun i hi => h i (by simp [idsDecls, hi])]

end

end

/-! ### Bindings -/

namespace Bindings

variable {α β : Type}

/-- The same names, bound to what `f` makes of what they are bound to. -/
def map (f : α → β) (b : Bindings α) : Bindings β :=
  ⟨b.entries.map fun entry => (entry.1, f entry.2)⟩

@[simp]
theorem map_empty (f : α → β) : (∅ : Bindings α).map f = ∅ := rfl

/-- What a name is bound to is mapped. -/
@[simp]
theorem get?_map (f : α → β) (name : String) (b : Bindings α) :
    (b.map f).get? name = (b.get? name).map f := by
  obtain ⟨entries⟩ := b
  change findEntry name (entries.map fun entry => (entry.1, f entry.2)) =
    (findEntry name entries).map f
  induction entries with
  | nil => rfl
  | cons entry rest ih =>
    rw [List.map_cons, findEntry, findEntry, ih]
    split <;> rfl

/-- The same names are bound. -/
@[simp]
theorem contains_map (f : α → β) (name : String) (b : Bindings α) :
    (b.map f).contains name = b.contains name := by
  simp [contains]

/-- A value can be mapped before or after it is bound. -/
theorem map_insert (f : α → β) (name : String) (value : α) (b : Bindings α) :
    (b.insert name value).map f = (b.map f).insert name (f value) := by
  obtain ⟨entries⟩ := b
  refine congrArg Bindings.mk ?_
  change (insertEntry name value entries).map _ = insertEntry name (f value) (entries.map _)
  induction entries with
  | nil => rfl
  | cons entry rest ih =>
    rw [List.map_cons, insertEntry, insertEntry]
    split
    · rfl
    · rw [List.map_cons, ih]

end Bindings

/-! ### Values -/

/-- The same function or method, made of relabelled statements. -/
def Closure.relabel (c : Closure) : Closure := { c with decl := Stmt.relabelDecl L c.decl }

/-- The same class, with relabelled methods in it and in the classes above it. -/
def Class.relabel : Class → Class
  | ⟨identity, name, superclass, methods⟩ =>
    ⟨identity, name,
      match superclass with
      | some c => some c.relabel
      | none => none,
      methods.map (Closure.relabel L)⟩

/-- The same callable, made of relabelled statements. -/
def Callable.relabel : Callable → Callable
  | .native f => .native f
  | .function identity closure => .function identity (closure.relabel L)
  | .class c => .class (c.relabel L)

/-- The same value, made of relabelled statements. -/
def Value.relabel : Value → Value
  | .nil => .nil
  | .bool value => .bool value
  | .number value => .number value
  | .string text => .string text
  | .callable c => .callable (c.relabel L)
  | .instance id c => .instance id (c.relabel L)

/-- A function takes as many arguments as before. -/
@[simp]
theorem Closure.arity_relabel (c : Closure) : (c.relabel L).arity = c.arity := by
  rw [Closure.arity, Closure.relabel, Stmt.params_relabelDecl, List.length_map, Closure.arity]

/-- A class keeps its name. -/
@[simp]
theorem Class.name_relabel (c : Class) : (c.relabel L).name = c.name := by
  obtain ⟨identity, name, superclass, methods⟩ := c
  cases superclass <;> rw [Class.relabel]

/-- A class keeps its identity. -/
@[simp]
theorem Class.identity_relabel (c : Class) : (c.relabel L).identity = c.identity := by
  obtain ⟨identity, name, superclass, methods⟩ := c
  cases superclass <;> rw [Class.relabel]

/-- A relabelled class has the same methods, relabelled. -/
@[simp]
theorem Class.findMethod_relabel (name : String) :
    ∀ c : Class, (c.relabel L).findMethod name = (c.findMethod name).map (Closure.relabel L)
  | ⟨_, _, none, methods⟩ => by
    rw [Class.relabel, Class.findMethod, Class.findMethod, Bindings.get?_map]
    cases methods.get? name <;> rfl
  | ⟨_, _, some c, methods⟩ => by
    rw [Class.relabel, Class.findMethod, Class.findMethod, Bindings.get?_map]
    cases methods.get? name with
    | some method => rfl
    | none => exact Class.findMethod_relabel name c

/-- Callables are told apart by their identities, which stay as they are. -/
@[simp]
theorem Callable.same_relabel (c d : Callable) : (c.relabel L).same (d.relabel L) = c.same d := by
  cases c <;> cases d <;> simp [Callable.relabel, Callable.same]

namespace Value

@[simp]
theorem isTruthy_relabel (v : Value) : (v.relabel L).isTruthy = v.isTruthy := by cases v <;> rfl

@[simp]
theorem typeName_relabel (v : Value) : (v.relabel L).typeName = v.typeName := by cases v <;> rfl

@[simp]
theorem ofLiteral_relabel (value : Literal) : (ofLiteral value).relabel L = ofLiteral value := by
  cases value <;> rfl

@[simp]
theorem equals_relabel (v w : Value) : (v.relabel L).equals (w.relabel L) = v.equals w := by
  cases v <;> cases w <;> simp [Value.relabel, equals]

/-- A relabelled value is printed alike. -/
@[simp]
theorem display_relabel (v : Value) : (v.relabel L).display = v.display := by
  cases v with
  | callable c =>
    cases c <;> simp [Value.relabel, Callable.relabel, display, Callable.display, Closure.relabel]
  | «instance» id c => simp [Value.relabel, display]
  | _ => rfl

end Value

/-- An operator with one operand does not see labels. -/
theorem UnaryOp.apply_relabel (op : UnaryOp) (v : Value) :
    op.apply (v.relabel L) = (op.apply v).map (Value.relabel L) := by
  cases op with
  | negate => cases v <;> rfl
  | not => exact congrArg (fun b => Except.ok (Value.bool !b)) (v.isTruthy_relabel L)

/-- An operator with two operands does not see labels. -/
theorem BinaryOp.apply_relabel (op : BinaryOp) (v w : Value) :
    op.apply (v.relabel L) (w.relabel L) = (op.apply v w).map (Value.relabel L) := by
  cases op with
  | equal => exact congrArg (fun b => Except.ok (Value.bool b)) (v.equals_relabel L w)
  | notEqual => exact congrArg (fun b => Except.ok (Value.bool !b)) (v.equals_relabel L w)
  | _ => cases v <;> cases w <;> rfl

/-- Whether the left operand decides does not depend on labels. -/
@[simp]
theorem LogicalOp.decides_relabel (op : LogicalOp) (v : Value) :
    op.decides (v.relabel L) = op.decides v := by
  cases op <;> simp [LogicalOp.decides]

/-! ### Stores -/

/-- The same names, bound to relabelled values. -/
abbrev Bindings.relabel (b : Bindings Value) : Bindings Value := b.map (Value.relabel L)

/-- The same frame with relabelled values. -/
def Frame.relabel (f : Frame) : Frame := { f with bindings := f.bindings.relabel L }

theorem Frame.enclosing_relabel (f : Frame) : (f.relabel L).enclosing = f.enclosing := rfl

/-- The same store with relabelled values. -/
def Store.relabel (s : Store) : Store :=
  { s with frames := s.frames.map (Frame.relabel L), fields := s.fields.map (Bindings.relabel L) }

/-- Changing an entry of an array and then mapping all of them. -/
theorem Array.map_modify_of_comm {α : Type} {g f f' : α → α} (h : ∀ a, g (f a) = f' (g a))
    (xs : Array α) (i : Nat) : (xs.modify i f).map g = (xs.map g).modify i f' := by
  ext j hj hj'
  · simp
  · simp only [Array.getElem_map, Array.getElem_modify]
    split
    · exact h _
    · rfl

namespace Store

variable (s : Store)

/-- Frames are relabelled one by one. -/
@[simp]
theorem frame_relabel (f : Nat) : (s.relabel L).frame f = (s.frame f).relabel L := by
  simp only [frame, Store.relabel, Array.getD_eq_getD_getElem?, Array.getElem?_map]
  cases s.frames[f]? <;> rfl

@[simp]
theorem size_frames_relabel : (s.relabel L).frames.size = s.frames.size := Array.size_map

@[simp]
theorem size_fields_relabel : (s.relabel L).fields.size = s.fields.size := Array.size_map

/-- A field of a relabelled store holds the relabelled value. -/
@[simp]
theorem field?_relabel (i : Nat) (name : String) :
    (s.relabel L).field? i name = (s.field? i name).map (Value.relabel L) := by
  simp only [field?, Store.relabel, Array.getD_eq_getD_getElem?, Array.getElem?_map]
  cases s.fields[i]? with
  | none => rfl
  | some own => exact Bindings.get?_map ..

/-- Binding a name commutes with relabelling. -/
theorem define_relabel (f : Nat) (name : String) (v : Value) :
    (s.define f name v).relabel L = (s.relabel L).define f name (v.relabel L) := by
  obtain ⟨frames, fields, nextIdentity⟩ := s
  simp only [define, Store.relabel]
  exact congrArg (Store.mk · _ _) (Array.map_modify_of_comm
    (fun frame => congrArg (Frame.mk · frame.enclosing) (Bindings.map_insert ..)) frames f)

/-- Setting a field commutes with relabelling. -/
theorem setField_relabel (i : Nat) (name : String) (v : Value) :
    (s.setField i name v).relabel L = (s.relabel L).setField i name (v.relabel L) := by
  obtain ⟨frames, fields, nextIdentity⟩ := s
  exact congrArg (Store.mk _ · _)
    (Array.map_modify_of_comm (fun own => Bindings.map_insert ..) fields i)

/-- Making a frame commutes with relabelling. -/
theorem newFrame_relabel (b : Bindings Value) (enclosing : Nat) :
    (s.newFrame b enclosing).2.relabel L = ((s.relabel L).newFrame (b.relabel L) enclosing).2 := by
  obtain ⟨frames, fields, nextIdentity⟩ := s
  exact congrArg (Store.mk · _ _) Array.map_push

/-- Making an instance commutes with relabelling. -/
theorem newInstance_relabel : s.newInstance.2.relabel L = (s.relabel L).newInstance.2 := by
  obtain ⟨frames, fields, nextIdentity⟩ := s
  exact congrArg (Store.mk _ · _) Array.map_push

/-- Links lead to the same frames as before. -/
@[simp]
theorem walkOut_relabel (distance left f : Nat) :
    (s.relabel L).walkOut distance left f = s.walkOut distance left f := by
  induction left generalizing f with
  | zero => rfl
  | succ left ih =>
    rw [walkOut, walkOut, frame_relabel, Frame.enclosing_relabel]
    cases (s.frame f).enclosing with
    | none => rfl
    | some outer => exact ih outer

@[simp]
theorem ancestor_relabel (f distance : Nat) :
    (s.relabel L).ancestor f distance = s.ancestor f distance :=
  s.walkOut_relabel L distance distance f

/-- An addressed access finds the relabelled value, or it fails in the same way. -/
@[simp]
theorem getAt_relabel (f distance : Nat) (name : String) :
    (s.relabel L).getAt f distance name = (s.getAt f distance name).map (Value.relabel L) := by
  rw [getAt, getAt, ancestor_relabel]
  cases s.ancestor f distance with
  | error fault => rfl
  | ok g =>
    dsimp only
    rw [frame_relabel, Frame.relabel, Bindings.get?_map]
    cases (s.frame g).bindings.get? name <;> rfl

/-- The frames from a frame outwards are the same as before. -/
@[simp]
theorem chainUpTo_relabel (fuel f : Nat) : (s.relabel L).chainUpTo fuel f = s.chainUpTo fuel f := by
  induction fuel generalizing f with
  | zero => rfl
  | succ fuel ih =>
    rw [chainUpTo, chainUpTo, frame_relabel, Frame.enclosing_relabel]
    cases (s.frame f).enclosing with
    | none => rfl
    | some outer => exact congrArg (f :: ·) (ih outer)

@[simp]
theorem holder?_relabel (f : Nat) (name : String) :
    (s.relabel L).holder? f name = s.holder? f name := by
  simp [holder?, chain, Frame.relabel]

/-- A search finds the relabelled value, in the same frame. -/
@[simp]
theorem find?_relabel (f : Nat) (name : String) :
    (s.relabel L).find? f name = (s.find? f name).map (Value.relabel L) := by
  rw [find?, find?, holder?_relabel]
  cases s.holder? f name with
  | none => rfl
  | some g => simp [Frame.relabel]

end Store

/-! ### States -/

/-- The same error, at another line. -/
def RuntimeError.relabel : RuntimeError → RuntimeError
  | .raised line cause => .raised (L.line line) cause
  | .sink cause => .sink cause

/-- The same fault, of an expression with another identity. -/
def Fault.relabel : Fault → Fault
  | .neverResolved id => .neverResolved (L.id id)
  | fault => fault

/-- The same reason to stop, at another place. -/
def Stop.relabel : Stop → Stop
  | .error e => .error (e.relabel L)
  | .fault f => .fault (f.relabel L)

/-- The same state with relabelled values. -/
def State.relabel (st : State) : State := { st with store := st.store.relabel L }

theorem State.store_relabel (st : State) : (st.relabel L).store = st.store.relabel L := rfl

/-- The frames that names are found in do not depend on labels, so their faults do not either. -/
theorem Store.relabel_of_ancestor {s : Store} {f distance : Nat} {fault : Fault}
    (h : s.ancestor f distance = .error fault) : fault.relabel L = fault := by
  have hwalk : ∀ left g, s.walkOut distance left g = .error fault → fault.relabel L = fault := by
    intro left
    induction left with
    | zero => nofun
    | succ left ih =>
      intro g hg
      rw [walkOut] at hg
      split at hg
      · cases hg
        rfl
      · exact ih _ hg
  exact hwalk distance f h

/-- The faults of an addressed access have no labels. -/
theorem Store.relabel_of_getAt {s : Store} {f distance : Nat} {name : String} {fault : Fault}
    (h : s.getAt f distance name = .error fault) : fault.relabel L = fault := by
  rw [getAt] at h
  split at h
  · next hf =>
    cases h
    exact Store.relabel_of_ancestor L hf
  · split at h
    · cases h
    · cases h
      rfl

namespace State

variable (st : State)

/-- A result, relabelled. -/
def relabelResult : Except Stop Value → Except Stop Value
  | .ok v => .ok (v.relabel L)
  | .error stop => .error (stop.relabel L)

/-- What is found in a store, as a result. -/
theorem mapError_getAt_relabel (f distance : Nat) (name : String) :
    ((st.relabel L).store.getAt f distance name).mapError Stop.fault =
      relabelResult L ((st.store.getAt f distance name).mapError Stop.fault) := by
  change ((st.store.relabel L).getAt f distance name).mapError _ = _
  rw [Store.getAt_relabel]
  cases h : st.store.getAt f distance name with
  | ok v => rfl
  | error fault =>
    exact congrArg (fun fault => Except.error (Stop.fault fault)) (Store.relabel_of_getAt L h).symm

/-- Reading a variable gives the relabelled value if the relabelled expression has the same
    distance. -/
theorem lookUp_relabel {distances distances' : Distances} {id : Nat}
    (h : distances'[L.id id]? = distances[id]?) (name : Lexeme) :
    (st.relabel L).lookUp distances' (L.id id) (name.relabel L) =
      relabelResult L (st.lookUp distances id name) := by
  rw [lookUp, lookUp, h]
  cases distances[id]? with
  | some distance => exact st.mapError_getAt_relabel L st.frame distance name.text
  | none =>
    rw [store_relabel, Lexeme.text_relabel, Store.find?_relabel]
    cases st.store.find? globalFrame name.text <;> rfl

/-- An assignment goes to the same frame, if the distances fit the labels. -/
theorem assignee_relabel {distances distances' : Distances} {id : Nat}
    (h : distances'[L.id id]? = distances[id]?) (name : Lexeme) :
    (st.relabel L).assignee distances' (L.id id) (name.relabel L) =
      (st.assignee distances id name).mapError (Stop.relabel L) := by
  rw [assignee, assignee, h]
  cases distances[id]? with
  | some distance =>
    change ((st.store.relabel L).ancestor st.frame distance).mapError _ =
      ((st.store.ancestor st.frame distance).mapError Stop.fault).mapError _
    rw [Store.ancestor_relabel]
    cases hf : st.store.ancestor st.frame distance with
    | ok f => rfl
    | error fault =>
      exact congrArg (fun fault => Except.error (Stop.fault fault))
        (Store.relabel_of_ancestor L hf).symm
  | none =>
    rw [store_relabel, Lexeme.text_relabel, Store.holder?_relabel]
    cases st.store.holder? globalFrame name.text <;> rfl

theorem defineIn_relabel (f : Nat) (name : String) (v : Value) :
    (st.defineIn f name v).relabel L = (st.relabel L).defineIn f name (v.relabel L) :=
  congrArg (State.mk · st.frame st.depth st.sink st.clock) (st.store.define_relabel L f name v)

/-- Binding a name in the current frame commutes with relabelling. -/
theorem define_relabel (name : String) (v : Value) :
    (st.define name v).relabel L = (st.relabel L).define name (v.relabel L) :=
  st.defineIn_relabel L st.frame name v

theorem setField_relabel (i : Nat) (name : String) (v : Value) :
    (st.setField i name v).relabel L = (st.relabel L).setField i name (v.relabel L) :=
  congrArg (State.mk · st.frame st.depth st.sink st.clock) (st.store.setField_relabel L i name v)

/-- Making a frame commutes with relabelling, and the frame has the same number. -/
theorem newFrame_relabel (b : Bindings Value) (enclosing : Nat) :
    (st.relabel L).newFrame (b.relabel L) enclosing =
      ((st.newFrame b enclosing).1, (st.newFrame b enclosing).2.relabel L) := by
  refine Prod.ext (st.store.size_frames_relabel L) ?_
  exact congrArg (State.mk · st.frame st.depth st.sink st.clock)
    (st.store.newFrame_relabel L b enclosing).symm

theorem newIdentity_relabel :
    (st.relabel L).newIdentity = (st.newIdentity.1, st.newIdentity.2.relabel L) := rfl

/-- Making an instance commutes with relabelling, and the instance has the same number. -/
theorem newInstance_relabel :
    (st.relabel L).newInstance = (st.newInstance.1, st.newInstance.2.relabel L) := by
  refine Prod.ext (st.store.size_fields_relabel L) ?_
  exact congrArg (State.mk · st.frame st.depth st.sink st.clock)
    (st.store.newInstance_relabel L).symm

theorem write_relabel (text : String) :
    (st.relabel L).write text = ((st.write text).1, (st.write text).2.relabel L) := rfl

/-- Entering a frame commutes with relabelling. -/
theorem enter_relabel (b : Bindings Value) (enclosing : Nat) :
    (st.enter b enclosing).relabel L = (st.relabel L).enter (b.relabel L) enclosing := by
  rw [enter, enter, newFrame_relabel]
  rfl

/-- Binding a method to an instance commutes with relabelling. -/
theorem bind_relabel (method : Closure) (object : Value) :
    (st.relabel L).bind (method.relabel L) (object.relabel L) =
      ((st.bind method object).1.relabel L, (st.bind method object).2.relabel L) := by
  have hthis : (∅ : Bindings Value).insert "this" (object.relabel L) =
      Bindings.relabel L ((∅ : Bindings Value).insert "this" object) := rfl
  rw [bind, bind, hthis, newFrame_relabel]
  rfl

/-- A bound method as a value commutes with relabelling. -/
theorem bound_relabel (method : Closure) (object : Value) :
    (st.relabel L).bound (method.relabel L) (object.relabel L) =
      ((st.bound method object).1.relabel L, (st.bound method object).2.relabel L) := by
  rw [bound, bound, bind_relabel]
  rfl

end State

end Lox
