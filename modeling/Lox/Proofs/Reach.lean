import Mathlib
import Lox.Proofs.RenamedStates

/-!
# What can be reached in the store

A value refers to what lies in the store: a function to the frame that it was made in, an instance
to its fields and, by its class, to the frames of its methods. What is written in a function matters
too, since a name in it can be that of a global variable. So there are three kinds of addresses
(`Address`), and from each of them some others are one step away (`Store.references`).

A part of the store is closed if nothing in it refers to what is outside (`Store.Closed`). An
operation that works inside such a part with values that refer to nothing outside keeps it closed,
and keeps all the rest as it is (`Store.Keeps`). New frames and new instances belong to the part.

* `Store.Reaches`: what can be reached from some addresses;
* `Store.Keeps.define`, `Store.Keeps.newFrame` and so on: operations inside a closed part;
* `Store.keeps_reached`: what can be reached is such a part, if the global frame is among it.
-/

namespace Lox

/-- What can be referred to: a frame, the fields of an instance, or a global variable. -/
inductive Address where
  | frame (f : Nat)
  | object (i : Nat)
  | global (name : String)
  deriving DecidableEq, Repr

namespace Expr

mutual

/-- The names by which an expression refers to variables. -/
def mentions : Expr → List String
  | literal _ _ => []
  | unary _ _ _ right => right.mentions
  | binary _ _ _ left right => left.mentions ++ right.mentions
  | logical _ _ _ left right => left.mentions ++ right.mentions
  | grouping _ inner => inner.mentions
  | var _ name => [name.text]
  | assign _ name value => name.text :: value.mentions
  | call _ callee _ arguments => callee.mentions ++ mentionsAll arguments
  | get _ object _ => object.mentions
  | set _ object _ value => object.mentions ++ value.mentions
  | this _ keyword => [keyword.text]
  | super _ _ _ => ["this", "super"]

/-- The names by which expressions refer to variables. -/
def mentionsAll : List Expr → List String
  | [] => []
  | e :: rest => e.mentions ++ mentionsAll rest

end

/-- The names by which an expression refers to variables, if it is there. -/
def mentionsOption : Option Expr → List String
  | none => []
  | some e => e.mentions

end Expr

namespace Stmt

mutual

/-- The names by which a statement refers to variables. -/
def mentions : Stmt → List String
  | expression e => e.mentions
  | print e => e.mentions
  | var _ initial => Expr.mentionsOption initial
  | block body => mentionsAll body
  | branch condition yes no => condition.mentions ++ (yes.mentions ++ mentionsOption no)
  | loop condition body => condition.mentions ++ body.mentions
  | .function decl => mentionsDecl decl
  | ret _ value => Expr.mentionsOption value
  | classDecl _ superclass methods => (superclass.map (·.name.text)).toList ++ mentionsDecls methods

/-- The names by which statements refer to variables. -/
def mentionsAll : List Stmt → List String
  | [] => []
  | stmt :: rest => stmt.mentions ++ mentionsAll rest

/-- The names by which a statement refers to variables, if it is there. -/
def mentionsOption : Option Stmt → List String
  | none => []
  | some stmt => stmt.mentions

/-- The names by which a function or method refers to variables. One of them is `this`, by which a
    method that sets up an instance finds what it yields. -/
def mentionsDecl : FunctionDecl Stmt → List String
  | ⟨_, _, body⟩ => "this" :: mentionsAll body

/-- The names by which methods refer to variables. -/
def mentionsDecls : List (FunctionDecl Stmt) → List String
  | [] => []
  | decl :: rest => mentionsDecl decl ++ mentionsDecls rest

end

theorem this_mem_mentionsDecl (decl : FunctionDecl Stmt) : "this" ∈ mentionsDecl decl := by
  obtain ⟨name, params, body⟩ := decl
  exact List.mem_cons_self ..

theorem mentionsDecl_subset {decl : FunctionDecl Stmt} {decls : List (FunctionDecl Stmt)}
    (h : decl ∈ decls) : mentionsDecl decl ⊆ mentionsDecls decls := by
  induction decls with
  | nil => cases h
  | cons first rest ih =>
    rw [mentionsDecls]
    rcases List.mem_cons.1 h with rfl | h
    · exact List.subset_append_left _ _
    · exact List.subset_append_of_subset_right _ (ih h)

end Stmt

/-- What a function refers to: its frame, and each name in it that can be that of a global
    variable. -/
def Closure.references (c : Closure) : List Address :=
  .frame c.frame :: (Stmt.mentionsDecl c.decl).map .global

/-- What the methods of a class refer to, those of its superclass too. -/
def Class.references : Class → List Address
  | ⟨_, _, superclass, methods⟩ =>
    methods.entries.flatMap (fun entry => entry.2.references) ++
      match superclass with
      | some c => references c
      | none => []

/-- What a value refers to. -/
def Value.references : Value → List Address
  | .callable (.function _ closure) => closure.references
  | .callable (.class c) => c.references
  | .instance i c => .object i :: c.references
  | _ => []

/-- What the values of some names refer to. -/
def Bindings.references (b : Bindings Value) : List Address := b.entries.flatMap fun entry =>
    entry.2.references

namespace Store

/-- What lies at an address refers to these addresses. The variables in the global frame can be left
    out, and then they are only referred to by name. -/
def references (s : Store) (globals : Bool) : Address → List Address
  | .frame f =>
    (s.frame f).enclosing.toList.map .frame ++
      if f = globalFrame ∧ globals = false then [] else (s.frame f).bindings.references
  | .object i => (s.fields.getD i ∅).references
  | .global name => (((s.frame globalFrame).bindings.get? name).map Value.references).getD []

/-- What can be reached from the roots. -/
inductive Reaches (s : Store) (globals : Bool) (roots : List Address) : Address → Prop
  | root {a : Address} : a ∈ roots → Reaches s globals roots a
  | step {a b : Address} : Reaches s globals roots a → b ∈ s.references globals a →
      Reaches s globals roots b

/-- If all that some addresses refer to is among them, nothing else is reached from them. -/
theorem Reaches.mem_of_closed {s : Store} {globals : Bool} {roots : List Address}
    (hclosed : ∀ a ∈ roots, ∀ b ∈ s.references globals a, b ∈ roots) {a : Address}
    (h : s.Reaches globals roots a) : a ∈ roots := by
  induction h with
  | root h => exact h
  | step _ hb ih => exact hclosed _ ih _ hb

end Store

/-! ### Values that refer to a part only -/

variable {A : Address → Prop}

/-- Names that refer to a part only, if they are those of global variables. -/
def NamesIn (A : Address → Prop) (names : List String) : Prop := ∀ x ∈ names, A (.global x)

theorem NamesIn.subset {xs ys : List String} (h : NamesIn A xs) (hs : ys ⊆ xs) : NamesIn A ys :=
  fun x hx => h x (hs hx)

/-- A function that refers to a part only. -/
structure Closure.In (A : Address → Prop) (c : Closure) : Prop where
  frame : A (.frame c.frame)
  mentions : NamesIn A (Stmt.mentionsDecl c.decl)

/-- A class whose methods, inherited ones too, refer to a part only. -/
def Class.In (A : Address → Prop) (c : Class) : Prop :=
  ∀ name method, c.findMethod name = some method → method.In A

/-- A value that refers to a part only. -/
def Value.In (A : Address → Prop) : Value → Prop
  | .callable (.function _ closure) => closure.In A
  | .callable (.class c) => c.In A
  | .instance i c => A (.object i) ∧ c.In A
  | _ => True

theorem Value.IsPlain.isIn {v : Value} (h : v.IsPlain) : v.In A := by
  cases v with
  | callable c => exact h.elim
  | «instance» i c => exact h.elim
  | _ => trivial

theorem Closure.in_of_references {c : Closure} (h : ∀ a ∈ c.references, A a) : c.In A :=
  ⟨h _ (List.mem_cons_self ..), fun _ hx => h _ (List.mem_cons_of_mem _ (List.mem_map_of_mem hx))⟩

/-- What can be looked up is among the entries. -/
theorem Bindings.mem_entries_of_get? {α : Type} {b : Bindings α} {name : String} {v : α}
    (h : b.get? name = some v) : (name, v) ∈ b.entries := by
  obtain ⟨entries⟩ := b
  change findEntry name entries = some v at h
  induction entries with
  | nil => cases h
  | cons entry rest ih =>
    obtain ⟨x, u⟩ := entry
    rw [findEntry] at h
    split at h
    · next hx =>
      cases h
      exact hx ▸ List.mem_cons_self ..
    · exact List.mem_cons_of_mem _ (ih h)

/-- A class refers to what each method that can be found in it refers to. -/
theorem Class.references_of_findMethod {name : String} {method : Closure} :
    ∀ {c : Class}, c.findMethod name = some method → ∀ a ∈ method.references, a ∈ c.references
  | ⟨_, _, superclass, methods⟩, h, a, ha => by
    unfold references
    rcases findMethod_cases h with hm | ⟨c, rfl, hm⟩
    · exact List.mem_append_left _ (List.mem_flatMap.2 ⟨_, Bindings.mem_entries_of_get? hm, ha⟩)
    · exact List.mem_append_right _ (references_of_findMethod hm a ha)

theorem Class.in_of_references {c : Class} (h : ∀ a ∈ c.references, A a) : c.In A := fun _ _ hm =>
  Closure.in_of_references fun a ha => h a (references_of_findMethod hm a ha)

theorem Value.in_of_references {v : Value} (h : ∀ a ∈ v.references, A a) : v.In A := by
  rcases v with _ | _ | _ | _ | (_ | ⟨_, closure⟩ | c) | ⟨i, c⟩
  case callable.function => exact Closure.in_of_references h
  case callable.class => exact Class.in_of_references h
  case «instance» =>
    exact ⟨h _ (List.mem_cons_self ..),
      Class.in_of_references fun a ha => h a (List.mem_cons_of_mem _ ha)⟩
  all_goals trivial

namespace Store

/-! ### Closed parts -/

/-- Nothing in a part refers to what is outside. -/
structure Closed (A : Address → Prop) (s : Store) : Prop where
  enclosing : ∀ f g, A (.frame f) → (s.frame f).enclosing = some g → A (.frame g)
  bindings : ∀ f name v, f ≠ globalFrame → A (.frame f) → (s.frame f).bindings.get? name =
      some v → v.In A
  fields : ∀ i name v, A (.object i) → s.field? i name = some v → v.In A
  globals : ∀ name v, A (.global name) → (s.frame globalFrame).bindings.get? name = some v → v.In A

theorem closed_of_references {s : Store} {globals : Bool}
    (h : ∀ a, A a → ∀ b ∈ s.references globals a, A b) : s.Closed A where
  enclosing f g hf hg := h _ hf _ (List.mem_append_left _ (by simp [hg]))
  bindings f name v hne hf hv := by
    refine Value.in_of_references fun a ha => h _ hf _ (List.mem_append_right _ ?_)
    rw [if_neg fun hg => hne hg.1]
    exact List.mem_flatMap.2 ⟨_, Bindings.mem_entries_of_get? hv, ha⟩
  fields i name v hi hv := Value.in_of_references fun a ha =>
    h _ hi _ (List.mem_flatMap.2 ⟨_, Bindings.mem_entries_of_get? hv, ha⟩)
  globals name v hn hv := Value.in_of_references fun a ha =>
    h _ hn _ (by rw [references, hv]; exact ha)

/-- The store `s` comes from `s₀` by operations inside the part `A`. -/
structure Keeps (A : Address → Prop) (s s₀ : Store) : Prop where
  closed : s.Closed A
  global : A (.frame globalFrame)
  newFrames : ∀ f, s.frames.size ≤ f → A (.frame f)
  newObjects : ∀ i, s.fields.size ≤ i → A (.object i)
  frames : ∀ f, ¬ A (.frame f) → s.frame f = s₀.frame f
  fields : ∀ i, ¬ A (.object i) → s.fields[i]? = s₀.fields[i]?

namespace Keeps

variable {s₀ s : Store} {f i : Nat} {name : String} {v : Value}

/-- A name may be bound inside the part to a value of it. -/
theorem define (h : s.Keeps A s₀) (hf : A (.frame f)) (name : String) (hv : v.In A) :
    (s.define f name v).Keeps A s₀ := by
  refine { closed := ⟨fun g g' hg hg' => ?_, fun g x u hne hg hu => ?_, h.closed.fields,
    fun x u hx hu => ?_⟩
           global := h.global, newFrames := fun g hg => ?_, newObjects := h.newObjects
           frames := fun g hg => ?_, fields := h.fields }
  · rw [enclosing_define] at hg'
    exact h.closed.enclosing g g' hg hg'
  · rw [get?_define] at hu
    split at hu
    · cases hu
      exact hv
    · exact h.closed.bindings g x u hne hg hu
  · rw [get?_define] at hu
    split at hu
    · cases hu
      exact hv
    · exact h.closed.globals x u hx hu
  · exact h.newFrames g (size_define s f name v ▸ hg)
  · have hne : ¬ (g = f ∧ f < s.frames.size) := fun heq => hg (heq.1 ▸ hf)
    rw [frame_define_of_any, if_neg hne]
    exact h.frames g hg

/-- A frame may be made inside the part with values of it. -/
theorem newFrame (h : s.Keeps A s₀) {bindings : Bindings Value} (hf : A (.frame f))
    (hb : ∀ x u, bindings.get? x = some u → u.In A) : (s.newFrame bindings f).2.Keeps A s₀ := by
  refine { closed := ⟨fun g g' hg hg' => ?_, fun g x u hne hg hu => ?_, h.closed.fields,
    fun x u hx hu => ?_⟩
           global := h.global, newFrames := fun g hg => ?_, newObjects := h.newObjects
           frames := fun g hg => ?_, fields := h.fields }
  · rw [frame_newFrame] at hg'
    split at hg'
    · cases hg'
      exact hf
    · exact h.closed.enclosing g g' hg hg'
  · rw [frame_newFrame] at hu
    split at hu
    · exact hb x u hu
    · exact h.closed.bindings g x u hne hg hu
  · rw [frame_newFrame] at hu
    split at hu
    · exact hb x u hu
    · exact h.closed.globals x u hx hu
  · rw [size_newFrame] at hg
    exact h.newFrames g (Nat.le_of_succ_le hg)
  · -- The new frame belongs to the part, so it is another one.
    have hne : g ≠ s.frames.size := fun heq => hg (h.newFrames g (Nat.le_of_eq heq.symm))
    rw [frame_newFrame, if_neg hne]
    exact h.frames g hg

theorem newIdentity (h : s.Keeps A s₀) : s.newIdentity.2.Keeps A s₀ :=
  ⟨⟨h.closed.enclosing, h.closed.bindings, h.closed.fields, h.closed.globals⟩, h.global,
    h.newFrames, h.newObjects, h.frames, h.fields⟩

theorem newInstance (h : s.Keeps A s₀) : s.newInstance.2.Keeps A s₀ where
  closed := by
    refine ⟨h.closed.enclosing, h.closed.bindings, fun j x u hj hu => ?_, h.closed.globals⟩
    rw [field?_newInstance] at hu
    exact h.closed.fields j x u hj hu
  global := h.global
  newFrames := h.newFrames
  newObjects j hj := by
    have hsize : s.newInstance.2.fields.size = s.fields.size + 1 := Array.size_push _
    rw [hsize] at hj
    exact h.newObjects j (Nat.le_of_succ_le hj)
  frames := h.frames
  fields j hj := by
    have hlt : j < s.fields.size := Nat.lt_of_not_le fun hle => hj (h.newObjects j hle)
    rw [← h.fields j hj, Store.newInstance, Array.getElem?_push, if_neg hlt.ne]

/-- A field of an instance in the part may be set to a value of it. -/
theorem setField (h : s.Keeps A s₀) (hi : A (.object i)) (name : String) (hv : v.In A) :
    (s.setField i name v).Keeps A s₀ where
  closed := by
    refine ⟨h.closed.enclosing, h.closed.bindings, fun j x u hj hu => ?_, h.closed.globals⟩
    rw [field?_setField] at hu
    split at hu
    · cases hu
      exact hv
    · exact h.closed.fields j x u hj hu
  global := h.global
  newFrames := h.newFrames
  newObjects j hj := h.newObjects j (hj.trans_eq' Array.size_modify)
  frames := h.frames
  fields j hj := by
    have hne : i ≠ j := fun heq => hj (heq ▸ hi)
    rw [← h.fields j hj, Store.setField, Array.getElem?_modify, if_neg hne]

/-! ### Looking up -/

theorem walkOut (h : s.Keeps A s₀) {distance left g : Nat} (hf : A (.frame f))
    (hg : s.walkOut distance left f = .ok g) : A (.frame g) := by
  induction left generalizing f with
  | zero =>
    cases hg
    exact hf
  | succ left ih =>
    rw [Store.walkOut] at hg
    split at hg
    · cases hg
    · next outer houter => exact ih (h.closed.enclosing f outer hf houter) hg

/-- Whatever frame it is found in, the value of a name in the part is in the part. -/
theorem get? (h : s.Keeps A s₀) (hf : A (.frame f)) (hn : A (.global name))
    (hv : (s.frame f).bindings.get? name = some v) : v.In A := by
  by_cases hg : f = globalFrame
  · subst hg
    exact h.closed.globals name v hn hv
  · exact h.closed.bindings f name v hg hf hv

theorem getAt (h : s.Keeps A s₀) {distance : Nat} (hf : A (.frame f)) (hn : A (.global name))
    (hv : s.getAt f distance name = .ok v) : v.In A := by
  rw [Store.getAt] at hv
  split at hv
  · cases hv
  · next g hg =>
    split at hv
    · next u hu =>
      cases hv
      exact h.get? (h.walkOut hf hg) hn hu
    · cases hv

theorem find? (h : s.Keeps A s₀) (hn : A (.global name))
    (hv : s.find? globalFrame name = some v) : v.In A := by
  obtain ⟨g, hg, hu⟩ := Option.bind_eq_some_iff.1 hv
  rw [eq_global_of_holder? hg] at hu
  exact h.closed.globals name v hn hu

end Keeps

/-! ### What is reached is a closed part -/

/-- What is reached in a store, and all that may be made in it later. -/
def Reached (s : Store) (globals : Bool) (roots : List Address) : Address → Prop
  | .frame f => s.Reaches globals roots (.frame f) ∨ s.frames.size ≤ f
  | .object i => s.Reaches globals roots (.object i) ∨ s.fields.size ≤ i
  | .global name => s.Reaches globals roots (.global name)

variable {s : Store} {globals : Bool} {roots : List Address}

theorem Reaches.reached {a : Address} (h : s.Reaches globals roots a) :
    s.Reached globals roots a := by
  rcases a with f | i | name
  · exact .inl h
  · exact .inl h
  · exact h

/-- What is not there yet refers to nothing. -/
theorem references_reached {a b : Address} (ha : s.Reached globals roots a)
    (hb : b ∈ s.references globals a) :
    s.Reaches globals roots b := by
  rcases a with f | i | name
  · rcases ha with ha | hf
    · exact ha.step hb
    · have hframe : s.frame f = ⟨∅, none⟩ := by simp [frame, Array.getD, Nat.not_lt_of_le hf]
      rw [references, hframe] at hb
      split at hb <;> cases hb
  · rcases ha with ha | hi
    · exact ha.step hb
    · have hfields : s.fields.getD i ∅ = ∅ := by simp [Array.getD, Nat.not_lt_of_le hi]
      rw [references, hfields] at hb
      cases hb
  · exact ha.step hb

theorem keeps_reached (hglobal : Address.frame globalFrame ∈ roots) :
    s.Keeps (s.Reached globals roots) s where
  closed := closed_of_references fun _ ha _ hb => (references_reached ha hb).reached
  global := .inl (.root hglobal)
  newFrames _ hf := .inr hf
  newObjects _ hi := .inr hi
  frames _ _ := rfl
  fields _ _ := rfl

end Store

end Lox
