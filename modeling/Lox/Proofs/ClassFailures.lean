import Mathlib
import Lox.Proofs.SelfReference

/-!
# Class declarations that fail

A class declaration binds its name to `nil` before it looks the superclass up, and if the superclass
is not there or is no class, the declaration fails and leaves the name so. What the name was bound
to before is lost. This is all that is lost: every other name of that frame, every other frame and
all fields are as before, and so are the output and the clock.

A declaration of a variable whose initial value fails is another matter. It binds its name last, so
it leaves all names alone.

* `State.Refuses`: the superclass of a class, as it is before the declaration, cannot be inherited
  from;
* `Session.failed_class_leaves_nil`: what a failed class declaration leaves behind;
* `Session.failed_class_loses_class`: a class is lost to a declaration that fails.
-/

namespace Lox

/-- Binding a name again to what it is bound to changes nothing. -/
theorem Bindings.insert_of_get? {α : Type} {b : Bindings α} {x : String} {v : α}
    (h : b.get? x = some v) : b.insert x v = b := by
  obtain ⟨entries⟩ := b
  refine congrArg Bindings.mk ?_
  change findEntry x entries = some v at h
  induction entries with
  | nil => cases h
  | cons entry rest ih =>
    obtain ⟨y, u⟩ := entry
    rw [findEntry] at h
    rw [insertEntry]
    split at h
    · next hy =>
      cases h
      rw [if_pos hy, hy]
    · next hy => rw [if_neg hy, ih h]

namespace Store

variable {s : Store} {f : Nat} {x y : String} {v : Value}

theorem walkOut_define (s : Store) (f : Nat) (x : String) (v : Value) (distance left g : Nat) :
    (s.define f x v).walkOut distance left g = s.walkOut distance left g := by
  induction left generalizing g with
  | zero => rfl
  | succ left ih =>
    rw [walkOut, walkOut, enclosing_define]
    simp only [ih]

theorem chainUpTo_define (s : Store) (f : Nat) (x : String) (v : Value) (fuel g : Nat) :
    (s.define f x v).chainUpTo fuel g = s.chainUpTo fuel g := by
  induction fuel generalizing g with
  | zero => rfl
  | succ fuel ih =>
    rw [chainUpTo, chainUpTo, enclosing_define]
    simp only [ih]

theorem get?_define_of_ne (s : Store) (f : Nat) (v : Value) (h : y ≠ x) (g : Nat) :
    ((s.define f x v).frame g).bindings.get? y = (s.frame g).bindings.get? y := by
  rw [get?_define, if_neg fun hy => h hy.2]

/-- Names other than the one that is bound are read as before, by distance and by search. -/
theorem getAt_define_of_ne (s : Store) (f : Nat) (v : Value) (h : y ≠ x) (g distance : Nat) :
    (s.define f x v).getAt g distance y = s.getAt g distance y := by
  rw [getAt, getAt, ancestor, ancestor, walkOut_define]
  simp only [get?_define_of_ne s f v h]

theorem find?_define_of_ne (s : Store) (f : Nat) (v : Value) (h : y ≠ x) (g : Nat) :
    (s.define f x v).find? g y = s.find? g y := by
  simp only [find?, holder?, chain, chainUpTo_define, Bindings.contains, get?_define_of_ne s f v h]

/-- Binding a name leaves all frames as they are only if it was bound to that value. -/
theorem frames_define_iff (hf : f < s.frames.size) :
    (∀ g, (s.define f x v).frame g = s.frame g) ↔ (s.frame f).bindings.get? x = some v := by
  constructor
  · intro h
    rw [← h f, get?_define, if_pos ⟨⟨rfl, hf⟩, rfl⟩]
  · intro h g
    rw [frame_define hf, Bindings.insert_of_get? h]
    split
    · next hg => rw [hg]
    · rfl

end Store

namespace State

variable {st : State} {distances : Distances}

theorem lookUp_define_of_ne (st : State) (distances : Distances) (id : Nat)
    {name : Lexeme} {x : String} (h : name.text ≠ x) (v : Value) :
    (st.define x v).lookUp distances id name = st.lookUp distances id name := by
  cases hd : distances[id]? with
  | some distance =>
    simp only [lookUp, hd, define_eq, Store.getAt_define_of_ne st.store st.frame v h]
  | none => simp only [lookUp, hd, define_eq, Store.find?_define_of_ne st.store st.frame v h]

/-- A superclass cannot be inherited from: there is no such variable, or its value is no class. -/
inductive Refuses (st : State) (distances : Distances) (ref : VarRef) : RuntimeError → Prop
  | undefined : st.lookUp distances ref.id ref.name =
        .error (.error (.raised ref.name.line (.undefinedVariable ref.name.text))) →
      Refuses st distances ref (.raised ref.name.line (.undefinedVariable ref.name.text))
  | notClass {v : Value} : st.lookUp distances ref.id ref.name = .ok v →
      (∀ c, v ≠ .callable (.class c)) →
      Refuses st distances ref (.raised ref.name.line .superclassNotClass)

theorem lookUp_eq_error {id : Nat} {name : Lexeme} {e : RuntimeError}
    (h : st.lookUp distances id name = .error (.error e)) :
    e = .raised name.line (.undefinedVariable name.text) := by
  rw [lookUp] at h
  split at h
  · next distance _ =>
    cases hget : st.store.getAt st.frame distance name.text with
    | error fault =>
      rw [hget] at h
      cases h
    | ok v =>
      rw [hget] at h
      cases h
  · split at h
    · cases h
    · cases h
      rfl

/-- Another name does not matter. -/
theorem refuses_define_iff {ref : VarRef} {x : String} (hx : ref.name.text ≠ x) {v : Value}
    {e : RuntimeError} : (st.define x v).Refuses distances ref e ↔ st.Refuses distances ref e := by
  have hread := st.lookUp_define_of_ne distances ref.id hx v
  constructor
  · rintro (hu | ⟨hu, hclass⟩)
    · exact .undefined (hread ▸ hu)
    · exact .notClass (hread ▸ hu) hclass
  · rintro (hu | ⟨hu, hclass⟩)
    · exact .undefined (hread.trans hu)
    · exact .notClass (hread.trans hu) hclass

/-- The superclass of a class is looked up without an answer if and only if it cannot be inherited
    from. -/
theorem superclassOf_eq_error_iff {cfg : Config} {ref : Option VarRef} {e : RuntimeError} :
    Machine.superclassOf cfg st ref = .error (.error e) ↔
      ∃ r, ref = some r ∧ st.Refuses cfg.distances r e := by
  rcases ref with _ | r
  · constructor
    · intro h
      cases h
    · rintro ⟨r, hr, -⟩
      cases hr
  rw [Machine.superclassOf]
  constructor
  · intro h
    refine ⟨r, rfl, ?_⟩
    split at h
    · cases h
    · next v hclass hv =>
      cases h
      exact .notClass hv hclass
    · next stop hv =>
      cases h
      obtain rfl := lookUp_eq_error hv
      exact .undefined hv
  · rintro ⟨_, ⟨⟩, hr⟩
    cases hr with
    | undefined hv => rw [hv]
    | @notClass v hv hclass =>
      rw [hv]
      cases v with
      | callable c =>
        cases c with
        | «class» c => exact absurd rfl (hclass c)
        | _ => rfl
      | _ => rfl

end State

/-- The error that a machine goes down its stack with. -/
def Control.error? : Control → Option RuntimeError
  | .unwind (.fails e) => some e
  | _ => none

namespace Machine

variable {cfg : Config} {st : State} {stack : List Pending} {name : Lexeme} {ref : Option VarRef}
  {decls : List (FunctionDecl Stmt)} {e : RuntimeError}

/-- A class declaration fails if its superclass, looked up with the name of the class bound to
    `nil`, cannot be inherited from. -/
theorem error?_classDecl :
    (exec cfg stack st (.classDecl name ref decls)).control.error? = some e ↔
      ∃ r, ref = some r ∧ (st.define name.text .nil).Refuses cfg.distances r e := by
  rw [← State.superclassOf_eq_error_iff, exec]
  rcases superclassOf cfg (st.define name.text .nil) ref with (e' | fault) | c
  · simp [finish, Control.error?]
  · simp [finish, Control.error?]
  · simp [deliver, Control.error?]

theorem exec_classDecl_of_error?
    (h : (exec cfg stack st (.classDecl name ref decls)).control.error? = some e) :
    exec cfg stack st (.classDecl name ref decls) = ⟨.unwind (.fails e), stack,
      st.define name.text .nil⟩ := by
  have hsuper := State.superclassOf_eq_error_iff.2 (error?_classDecl.1 h)
  rw [exec, hsuper]
  rfl

end Machine

namespace Session

variable {s : Session} {name : Lexeme} {ref : Option VarRef} {decls : List (FunctionDecl Stmt)}
  {stack : List Pending} {st : State}

/-- A class does not name itself as its superclass. -/
theorem Moment.superclass_ne (h : s.Moment ⟨.exec (.classDecl name ref decls), stack, st⟩)
    {r : VarRef} (hr : ref = some r) : r.name.text ≠ name.text := by
  obtain ⟨built, hhistory⟩ := h.history
  have hm : Machine.Seated s.table built ⟨.exec (.classDecl name ref decls), stack, st⟩ :=
    hhistory.seated
  obtain ⟨-, path, hh⟩ := hm.control
  subst hr
  have hrule := hh.admits.legal (path.declare name.text, .inherits name.text r.name.text)
    (List.mem_cons_self ..)
  exact fun heq => hrule heq.symm

/-- What a class declaration leaves behind that fails. It fails if and only if its superclass, as it
    is before the declaration, is not defined or is no class. Then its name is bound to `nil` in the
    current frame, and nothing else has changed. So the frames are as before if and only if the name
    was bound to `nil` already. -/
theorem failed_class_leaves_nil (h : s.Moment ⟨.exec (.classDecl name ref decls), stack, st⟩)
    (e : RuntimeError) :
    ((Machine.step s.config ⟨.exec (.classDecl name ref decls), stack, st⟩).control.error? =
        some e ↔ ∃ r, ref = some r ∧ st.Refuses s.distances r e) ∧
    ∀ m, Machine.step s.config ⟨.exec (.classDecl name ref decls), stack, st⟩ = m →
      m.control.error? = some e →
      m = ⟨.unwind (.fails e), stack,
        { st with store := st.store.define st.frame name.text .nil }⟩ ∧
      (∀ f x, (m.state.store.frame f).bindings.get? x =
        if f = st.frame ∧ x = name.text then some .nil else (st.store.frame f).bindings.get? x) ∧
      ((∀ f, m.state.store.frame f = st.store.frame f) ↔
        (st.store.frame st.frame).bindings.get? name.text = some .nil) := by
  have hframe : st.frame < st.store.frames.size := by
    obtain ⟨built, hhistory⟩ := h.history
    exact (hhistory.sound.2 _ rfl).frame
  refine ⟨?_, ?_⟩
  · rw [Machine.step, Machine.error?_classDecl]
    refine exists_congr fun r => and_congr_right fun hr => ?_
    exact State.refuses_define_iff (h.superclass_ne hr)
  · rintro m rfl hm
    have hstep := Machine.exec_classDecl_of_error? hm
    rw [Machine.step, hstep]
    refine ⟨rfl, fun f x => ?_, Store.frames_define_iff hframe⟩
    refine (Store.get?_define ..).trans (if_congr ?_ rfl rfl)
    exact and_congr_left fun _ => and_iff_left hframe

end Session

/-- The name of the class that is declared next. -/
def Control.declaredClass? : Control → Option String
  | .exec (.classDecl name _ _) => some name.text
  | _ => none

theorem Control.eq_classDecl {control : Control} {x : String}
    (h : control.declaredClass? = some x) :
    ∃ name ref decls, control = .exec (.classDecl name ref decls) ∧ name.text = x := by
  unfold declaredClass? at h
  split at h
  · next name ref decls =>
    cases h
    exact ⟨name, ref, decls, rfl, rfl⟩
  · cases h

/-- The value that a source had, as it is printed. -/
def Report.shown? : Report Value → Option String
  | success v => some v.display
  | _ => none

namespace Session

/-- A function `A` is followed by a class of this name that inherits from a text. -/
theorem failed_class_leaves_nil_function :
    ∃ (s : Session) (name : Lexeme) (ref : Option VarRef) (decls : List (FunctionDecl Stmt))
      (stack : List Pending) (st : State) (m : Machine),
      s.Moment ⟨.exec (.classDecl name ref decls), stack, st⟩ ∧
      ((st.store.frame st.frame).bindings.get? name.text).map Value.display = some "<fn A>" ∧
      Machine.step s.config ⟨.exec (.classDecl name ref decls), stack, st⟩ = m ∧
      m.control.error? = some (.raised 1 .superclassNotClass) ∧
      (m.state.store.frame st.frame).bindings.get? name.text = some .nil ∧
      ¬∀ f, m.state.store.frame f = st.store.frame f := by
  -- All that is computed is what is declared after 9 steps, what the name is bound to then, and how
  -- the step fails.
  obtain ⟨s, source, hs, hrun⟩ : ∃ (s : Session) (source : List UInt8), s.Reachable ∧
      (s.machineAfter 9 source).map (fun m => (m.control.declaredClass?,
        ((m.state.store.frame m.state.frame).bindings.get? "A").map Value.display,
        (m.step (s.load source).2.config).control.error?)) =
        some (some "A", some "<fn A>", some (.raised 1 .superclassNotClass)) :=
    ⟨.new .unlimited (.still 0) 16,
      "var b = \"b\"; fun A() \x7b\x7d class A < b \x7b\x7d".toUTF8.toList,
      .new _ _ _, by decide +kernel⟩
  obtain ⟨m, hm, heq⟩ := Option.map_eq_some_iff.1 hrun
  have hmoment := hs.moment hm
  generalize (s.load source).2 = s' at heq hmoment
  obtain ⟨control, stack, st⟩ := m
  obtain ⟨hcontrol, heq⟩ := Prod.mk.inj heq
  obtain ⟨hbound, herror⟩ := Prod.mk.inj heq
  obtain ⟨name, ref, decls, rfl, hname⟩ := Control.eq_classDecl hcontrol
  obtain ⟨-, hleaves⟩ := failed_class_leaves_nil hmoment (.raised 1 .superclassNotClass)
  obtain ⟨-, hget, hiff⟩ := hleaves _ rfl herror
  refine ⟨s', name, ref, decls, stack, st, _, hmoment, hname ▸ hbound, rfl, herror, ?_,
    fun hsame => ?_⟩
  · exact (hget st.frame name.text).trans (if_pos ⟨rfl, rfl⟩)
  · have hnil := hiff.1 hsame
    rw [← hname, hnil] at hbound
    exact absurd hbound (by decide)

/-- A class is lost to a declaration of its name that fails: the next source finds `nil`. It is not
    lost to a variable of its name whose initial value fails. -/
theorem failed_class_loses_class :
    ∃ s : Session, s.Reachable ∧
      (s.evaluate 100 "A".toUTF8.toList).1.shown? = some "A" ∧
      (s.run 100 "class A < B \x7b\x7d".toUTF8.toList).1.diagnostics =
        [.runtime (.raised 1 (.undefinedVariable "B"))] ∧
      ((s.run 100 "class A < B \x7b\x7d".toUTF8.toList).2.evaluate 100 "A".toUTF8.toList).1.shown? =
        some "nil" ∧
      (s.run 100 "var A = B;".toUTF8.toList).1.diagnostics =
        [.runtime (.raised 1 (.undefinedVariable "B"))] ∧
      ((s.run 100 "var A = B;".toUTF8.toList).2.evaluate 100 "A".toUTF8.toList).1.shown? =
        some "A" := by
  have h : Reachable
      ((Session.new .unlimited (.still 0) 16).run 100 "class A \x7b\x7d".toUTF8.toList).2 :=
    .run _ _ (.new _ _ _)
  exact ⟨_, h, by decide +kernel⟩

end Session

end Lox
