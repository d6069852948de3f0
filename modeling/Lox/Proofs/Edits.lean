import Mathlib
import Lox.Proofs.Histories

/-!
# What a step changes

A step changes the store by a few edits: it binds a name, makes a frame or an instance, sets a
field, or gives out an identity (`Store.Edit`). Which edits a step can make is said once
(`Machine.edited_step`): names are bound only by declarations and assignments, fields are set only
where a value is put into a field, and instances are made only by calls of classes. What is kept by
every edit of a step is kept by the step.

* `Machine.Calls`: the machine is about to call something;
* `Machine.writes`: the field that the next step sets;
* `Machine.makes`: the class of the instance that the next step makes;
* `Machine.field?_step`, `Machine.size_fields_step`: what becomes of fields.
-/

namespace Lox

/-! ### Edits of a store -/

/-- One change of a store. -/
inductive Store.Edit where
  | define (f : Nat) (name : Lexeme) (v : Value)
  | newFrame (bindings : Bindings Value) (enclosing : Nat)
  | newIdentity
  | newInstance
  | setField (i : Nat) (name : Lexeme) (v : Value)

/-- The store after a change. -/
def Store.Edit.apply (s : Store) : Store.Edit → Store
  | .define f name v => s.define f name.text v
  | .newFrame bindings enclosing => (s.newFrame bindings enclosing).2
  | .newIdentity => s.newIdentity.2
  | .newInstance => s.newInstance.2
  | .setField i name v => s.setField i name.text v

namespace Store

/-- A store after some changes, all of them of the given kind. -/
inductive Edited (Q : Edit → Prop) (s : Store) : Store → Prop
  | refl : Edited Q s s
  | tail {s' : Store} (e : Edit) : Edited Q s s' → Q e → Edited Q s (e.apply s')

variable {Q : Edit → Prop} {s s' : Store}

theorem Edited.single (e : Edit) (h : Q e) : Edited Q s (e.apply s) := .tail e .refl h

/-- What is kept by each change is kept by all. -/
theorem Edited.lift {R : Store → Prop} (h : Edited Q s s') (hs : R s)
    (hR : ∀ s e, Q e → R s → R (e.apply s)) :
    R s' := by
  induction h with
  | refl => exact hs
  | tail e _ he ih => exact hR _ e he ih

end Store

namespace Machine

/-! ### What the next step is about -/

/-- The names that the next step can bind: a declaration binds the name that it declares, and an
    assignment the name that it assigns to. -/
def binds : Machine → List Lexeme
  | ⟨.exec stmt, _, _⟩ => stmt.declares?.toList
  | ⟨.deliver _, .assign _ name :: _, _⟩ => [name]
  | ⟨.deliver _, .define name :: _, _⟩ => [name]
  | _ => []

/-- The field that the next step sets, and its value. -/
def writes : Machine → List (Nat × String × Value)
  | ⟨.deliver v, .setValue i name :: _, _⟩ => [(i, name.text, v)]
  | _ => []

/-- The machine is about to call `callee`: the last argument is there, or there are none. -/
inductive Calls : Machine → Value → Nat → List Value → List Pending → State → Prop
  | bare (callee : Value) (line : Nat) (stack : List Pending) (st : State) :
      Calls ⟨.deliver callee, .callee line [] :: stack, st⟩ callee line [] stack st
  | last (callee v : Value) (line : Nat) (before : List Value) (stack : List Pending) (st : State) :
      Calls ⟨.deliver v, .argument callee line before [] :: stack, st⟩ callee line
        (v :: before).reverse stack st

theorem Calls.step {cfg : Config} {m : Machine} {callee : Value} {line : Nat}
    {arguments : List Value} {stack : List Pending} {st : State}
    (h : m.Calls callee line arguments stack st) :
    step cfg m = call cfg callee line arguments stack st := by
  cases h <;> rfl

/-- What the next step calls, with its arguments. -/
def called : Machine → Option (Value × List Value)
  | ⟨.deliver callee, .callee _ [] :: _, _⟩ => some (callee, [])
  | ⟨.deliver v, .argument callee _ before [] :: _, _⟩ => some (callee, (v :: before).reverse)
  | _ => none

/-- The class of the instance that the next step makes: a class makes one if it gets as many
    arguments as it takes, and not too many calls are active. -/
def makes (cfg : Config) (m : Machine) : List Class :=
  match m.called with
  | some (.callable (.class c), arguments) =>
    if arguments.length = (Callable.class c).arity ∧ m.state.depth < cfg.maxDepth then [c] else []
  | _ => []

end Machine

/-- The changes that the next step of a machine can make. -/
def Store.Edit.Of (m : Machine) : Store.Edit → Prop
  | .define _ name _ => name ∈ m.binds
  | .setField i name v => (i, name.text, v) ∈ m.writes
  | .newInstance => ∃ c line arguments stack st,
      m.Calls (.callable (.class c)) line arguments stack st
  | _ => True

namespace Machine

/-! ### Changes by the parts of a step -/

section

variable {m : Machine} {cfg : Config} {stack : List Pending} {st : State}

theorem edited_finish (result : Except Stop Value) (st : State) :
    st.store.Edited (Store.Edit.Of m) (finish result stack st).state.store := by
  rcases result with (e | f) | v <;> exact .refl

theorem edited_bound (method : Closure) (object : Value) :
    st.store.Edited (Store.Edit.Of m) (st.bound method object).2.store :=
  .tail .newIdentity (.single (.newFrame _ _) trivial) trivial

theorem edited_property (i : Nat) (c : Class) (name : Lexeme) :
    st.store.Edited (Store.Edit.Of m) (property i c name stack st).state.store := by
  rw [property]
  split
  · exact .refl
  split
  · exact edited_bound _ _
  · exact .refl

theorem edited_superMethod (id : Nat) (method : Lexeme) :
    st.store.Edited (Store.Edit.Of m) (superMethod cfg id method stack st).state.store := by
  rw [superMethod]
  split
  · exact .refl
  split
  · exact .refl
  · split
    · exact .refl
    split
    · exact .refl
    · split
      · exact edited_bound _ _
      · exact .refl
    · exact .refl
  · exact .refl

/-- Only a class makes an instance. -/
theorem edited_enter (c : Callable) (line : Nat) (arguments : List Value)
    (h : ∀ k, c = .class k → Store.Edit.newInstance.Of m) (st : State) :
    st.store.Edited (Store.Edit.Of m) (enter cfg c line arguments stack st).state.store := by
  cases c with
  | native f =>
    rw [enter, callNative]
    dsimp only
    split <;> exact .refl
  | function identity closure => exact .single (.newFrame _ _) trivial
  | «class» k =>
    have hmade := Store.Edited.single (s := st.store) .newInstance (h k rfl)
    rw [enter, instantiate]
    dsimp only
    split
    · exact hmade
    · exact (hmade.tail (.newFrame _ _) trivial).tail (.newFrame _ _) trivial

theorem edited_call {callee : Value} {line : Nat} {arguments : List Value}
    (h : m.Calls callee line arguments stack st) :
    st.store.Edited (Store.Edit.Of m) (call cfg callee line arguments stack st).state.store := by
  cases callee with
  | callable c =>
    rw [call]
    split
    · exact .refl
    split
    · exact .refl
    · have hclass : ∀ k, c = .class k → Store.Edit.newInstance.Of m :=
        fun k hk => ⟨k, line, arguments, stack, st, hk ▸ h⟩
      exact edited_enter c line arguments hclass st.startCall
  | _ => exact .refl

end

variable {cfg : Config} {stack : List Pending} {st : State}

theorem edited_eval (e : Expr) :
    st.store.Edited (Store.Edit.Of ⟨.eval e, stack, st⟩) (eval cfg stack st e).state.store := by
  cases e with
  | var id name => exact edited_finish _ st
  | this id keyword => exact edited_finish _ st
  | super id keyword method => exact edited_superMethod id method
  | _ => exact .refl

/-- A declaration binds the name that it declares, a class declaration even if it fails. -/
theorem edited_exec (stmt : Stmt) :
    st.store.Edited (Store.Edit.Of ⟨.exec stmt, stack, st⟩)
      (exec cfg stack st stmt).state.store := by
  cases stmt with
  | var name initial =>
    cases initial with
    | none => exact .single (.define st.frame name .nil) (List.mem_singleton_self name)
    | some e => exact .refl
  | block body => exact .single (.newFrame ∅ st.frame) trivial
  | function decl =>
    have hnumbered := Store.Edited.single (s := st.store) .newIdentity
      (show Store.Edit.newIdentity.Of ⟨.exec (.function decl), stack, st⟩ from trivial)
    exact hnumbered.tail (.define st.frame decl.name _) (List.mem_singleton_self decl.name)
  | ret keyword value => cases value <;> exact .refl
  | classDecl name superclass decls =>
    have hname : ∀ v, (Store.Edit.define st.frame name v).Of
        ⟨.exec (.classDecl name superclass decls), stack, st⟩ :=
      fun _ => List.mem_singleton_self name
    have hdeclared := Store.Edited.single (s := st.store) (.define st.frame name .nil) (hname .nil)
    rw [exec]
    split
    · next c _ =>
      cases c with
      | none => exact (hdeclared.tail .newIdentity trivial).tail (.define st.frame name _) (hname _)
      | some c =>
        exact ((hdeclared.tail (.newFrame _ _) trivial).tail .newIdentity trivial).tail
          (.define st.frame name _)
          (hname _)
    · next stop _ => cases stop <;> exact hdeclared
  | _ => exact .refl

theorem edited_resume (v : Value) (pending : Pending) :
    st.store.Edited (Store.Edit.Of ⟨.deliver v, pending :: stack, st⟩)
      (resume cfg v stack st pending).state.store := by
  cases pending with
  | unary op line =>
    rw [resume]
    split <;> exact .refl
  | binaryRight op line left =>
    rw [resume]
    split <;> exact .refl
  | logical op right =>
    rw [resume]
    split <;> exact .refl
  | assign id name =>
    rw [resume]
    split
    · next f _ => exact .single (.define f name v) (List.mem_singleton_self name)
    · exact edited_finish _ st
  | callee line arguments =>
    cases arguments with
    | nil => exact edited_call (.bare v line stack st)
    | cons e rest => exact .refl
  | argument callee line before rest =>
    cases rest with
    | nil => exact edited_call (.last callee v line before stack st)
    | cons e rest => exact .refl
  | get name =>
    cases v with
    | «instance» i c => exact edited_property i c name
    | _ => exact .refl
  | setObject name value => cases v <;> exact .refl
  | setValue i name => exact .single (.setField i name v) (List.mem_singleton_self _)
  | print =>
    rw [resume]
    rcases print_cases v stack st with hp | ⟨e, hp⟩ <;>
    · rw [hp]
      exact .refl
  | define name => exact .single (.define st.frame name v) (List.mem_singleton_self name)
  | branch yes no =>
    cases no <;>
    · rw [resume]
      split <;> exact .refl
  | loopTest condition body =>
    rw [resume]
    split <;> exact .refl
  | leaveBody closure frame => exact edited_finish _ (st.goTo frame)
  | _ => exact .refl

theorem edited_unwindOver (a : Abrupt) (pending : Pending) :
    st.store.Edited (Store.Edit.Of ⟨.unwind a, pending :: stack, st⟩)
      (unwindOver a stack st pending).state.store := by
  cases pending with
  | leaveBody closure frame =>
    cases a with
    | returns v => exact edited_finish _ (st.goTo frame)
    | fails e => exact .refl
  | _ => exact .refl

/-- All that a step can do to the store. -/
theorem edited_step (cfg : Config) (m : Machine) :
    m.state.store.Edited (Store.Edit.Of m) (step cfg m).state.store := by
  obtain ⟨control, stack, st⟩ := m
  cases control with
  | eval e => exact edited_eval e
  | exec stmt => exact edited_exec stmt
  | execAll stmts => cases stmts <;> exact .refl
  | deliver v =>
    cases stack with
    | nil => exact .refl
    | cons pending stack => exact edited_resume v pending
  | unwind a =>
    cases stack with
    | nil => exact .refl
    | cons pending stack => exact edited_unwindOver a pending
  | done o => exact .refl

/-! ### Fields -/

variable {m : Machine} {arguments : List Value}

/-- A field stays as it is, unless it is set. -/
theorem field?_step (h : m.writes = []) (i : Nat) (x : String) :
    (step cfg m).state.store.field? i x = m.state.store.field? i x := by
  refine (edited_step cfg m).lift (R := fun s => s.field? i x = m.state.store.field? i x) rfl
    fun s e he hs => ?_
  cases e with
  | newInstance => exact (Store.field?_newInstance s i x).trans hs
  | setField j name v =>
    have hwritten : (j, name.text, v) ∈ m.writes := he
    rw [h] at hwritten
    cases hwritten
  | _ => exact hs

/-- There are as many instances as before, unless a class is called. -/
theorem size_fields_of_not_calls
    (h : ∀ c line arguments stack st, ¬m.Calls (.callable (.class c)) line arguments stack st) :
    (step cfg m).state.store.fields.size = m.state.store.fields.size := by
  refine (edited_step cfg m).lift (R := fun s => s.fields.size = m.state.store.fields.size) rfl
    fun s e he hs => ?_
  cases e with
  | newInstance =>
    obtain ⟨c, line, arguments, stack, st, hcalls⟩ := he
    exact absurd hcalls (h c line arguments stack st)
  | setField j name v => exact Array.size_modify.trans hs
  | _ => exact hs

theorem Calls.called {callee : Value} {line : Nat} (h : m.Calls callee line arguments stack st) :
    m.called = some (callee, arguments) ∧ m.state = st := by
  cases h <;> exact ⟨rfl, rfl⟩

theorem calls_of_called {callee : Value} (h : m.called = some (callee, arguments)) : ∃ line stack,
    m.Calls callee line arguments stack m.state := by
  unfold Machine.called at h
  split at h
  · cases h
    exact ⟨_, _, .bare _ _ _ _⟩
  · cases h
    exact ⟨_, _, .last _ _ _ _ _ _⟩
  · cases h

/-- An instance is made by a call of its class. -/
theorem calls_of_mem_makes {c : Class} (h : c ∈ m.makes cfg) :
    ∃ line arguments stack, m.Calls (.callable (.class c)) line arguments stack m.state ∧
    m.makes cfg = [c] ∧
      arguments.length = (Callable.class c).arity ∧ m.state.depth < cfg.maxDepth := by
  unfold makes at h ⊢
  split at h
  · next k arguments hcalled =>
    split at h
    · next hmade =>
      obtain rfl := List.mem_singleton.1 h
      obtain ⟨line, stack, hcalls⟩ := calls_of_called hcalled
      exact ⟨line, arguments, stack, hcalls, if_pos hmade, hmade⟩
    · cases h
  · cases h

/-- A step makes the instances that it is said to make. -/
theorem size_fields_step (cfg : Config) (m : Machine) :
    (step cfg m).state.store.fields.size = m.state.store.fields.size + (m.makes cfg).length := by
  by_cases h : ∃ c line arguments stack st, m.Calls (.callable (.class c)) line arguments stack st
  · obtain ⟨c, line, arguments, stack, st, hcalls⟩ := h
    obtain ⟨hcalled, rfl⟩ := hcalls.called
    rw [hcalls.step, makes, hcalled, call]
    dsimp only
    by_cases harity : arguments.length = (Callable.class c).arity
    · by_cases hdepth : m.state.depth < cfg.maxDepth
      · rw [if_neg (not_not.2 harity), if_neg (Nat.not_le.2 hdepth), if_pos ⟨harity, hdepth⟩,
          enter, instantiate]
        dsimp only
        split <;> exact Array.size_push _
      · rw [if_neg (not_not.2 harity), if_pos (Nat.le_of_not_lt hdepth), if_neg fun h => hdepth h.2]
        rfl
    · rw [if_pos harity, if_neg fun h => harity h.1]
      rfl
  · have hnone : m.makes cfg = [] := by
      refine List.eq_nil_iff_forall_not_mem.2 fun c hc => h ?_
      obtain ⟨line, arguments, stack, hcalls, -⟩ := calls_of_mem_makes hc
      exact ⟨c, line, arguments, stack, m.state, hcalls⟩
    rw [hnone]
    exact size_fields_of_not_calls fun c line arguments stack st hcalls =>
      h ⟨c, line, arguments, stack, st, hcalls⟩

end Machine

end Lox
