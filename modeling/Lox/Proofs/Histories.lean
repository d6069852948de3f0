import Mathlib
import Lox.Proofs.Sessions

/-!
# The classes that a session builds

A class is a value that is made each time a class declaration is executed, so one declaration can
build many classes. Which classes there are at a moment depends on all that happened before, and the
history of a session keeps a list of them (`Session.History`). The superclass of a class is the
value that the name of the superclass had when the class was built, and it belongs to the class from
then on.

* `Class.lineage`: a class and the classes above it;
* `Class.exists_owner`: a method that is found is a method of one of them;
* `Session.History.declared`: each class was built by an execution of its declaration;
* `Session.Moment.history`: every moment of every run has a history.
-/

namespace Lox

/-! ### Lineages -/

namespace Class

/-- A class, its superclass, the superclass of that one, and so on. -/
def lineage : Class → List Class
  | ⟨identity, name, none, methods⟩ => [⟨identity, name, none, methods⟩]
  | ⟨identity, name, some c, methods⟩ => ⟨identity, name, some c, methods⟩ :: lineage c

variable {c d e : Class}

theorem lineage_of_none (h : c.superclass = none) : c.lineage = [c] := by
  obtain ⟨identity, name, superclass, methods⟩ := c
  cases h
  rw [lineage]

theorem lineage_of_superclass (h : c.superclass = some d) : c.lineage = c :: d.lineage := by
  obtain ⟨identity, name, superclass, methods⟩ := c
  cases h
  rw [lineage]

theorem mem_lineage_self (c : Class) : c ∈ c.lineage := by
  cases h : c.superclass with
  | none => exact lineage_of_none h ▸ List.mem_cons_self ..
  | some d => exact lineage_of_superclass h ▸ List.mem_cons_self ..

/-- What holds of a class without a superclass, and of a class if it holds of its superclass, holds
    of all. -/
theorem induction {P : Class → Prop} (base : ∀ c : Class, c.superclass = none → P c)
    (derived : ∀ c d : Class, c.superclass = some d → P d → P c) : (c : Class) → P c
  | ⟨_, _, none, _⟩ => base _ rfl
  | ⟨_, _, some d, _⟩ => derived _ d rfl (induction base derived d)

theorem mem_lineage_trans (hd : d ∈ c.lineage) (he : e ∈ d.lineage) : e ∈ c.lineage := by
  induction c using Class.induction with
  | base c hc =>
    rw [lineage_of_none hc, List.mem_singleton] at hd
    exact hd ▸ he
  | derived c c' hc ih =>
    rw [lineage_of_superclass hc] at hd ⊢
    rcases List.mem_cons.1 hd with rfl | hd
    · rwa [lineage_of_superclass hc] at he
    · exact List.mem_cons_of_mem _ (ih hd)

theorem superclass_mem_lineage (h : c.superclass = some d) : d ∈ c.lineage := by
  rw [lineage_of_superclass h]
  exact List.mem_cons_of_mem _ d.mem_lineage_self

/-- A method that is found is an own method of the class or of one above it. -/
theorem exists_owner {name : String} {method : Closure} (h : c.findMethod name = some method) :
    ∃ owner ∈ c.lineage, owner.methods.get? name = some method := by
  induction c using Class.induction with
  | base c hc =>
    obtain ⟨identity, x, superclass, methods⟩ := c
    rcases findMethod_cases h with hown | ⟨d, hd, -⟩
    · exact ⟨_, mem_lineage_self _, hown⟩
    · cases hd.symm.trans hc
  | derived c c' hc ih =>
    obtain ⟨identity, x, superclass, methods⟩ := c
    rcases findMethod_cases h with hown | ⟨d, hd, hinherited⟩
    · exact ⟨_, mem_lineage_self _, hown⟩
    · cases hd.symm.trans hc
      obtain ⟨owner, hmem, hown⟩ := ih hinherited
      exact ⟨owner, mem_lineage_trans (superclass_mem_lineage hc) hmem, hown⟩

end Class

/-! ### Classes that are built -/

namespace Machine

/-- The class that a declaration makes, if its superclass is known and its name is declared
    already. -/
def newClass (name : Lexeme) (superclass : Option Class) (decls : List (FunctionDecl Stmt))
    (st : State) : Class :=
  let (frame, st) := methodFrame superclass st
  ⟨st.store.nextIdentity, name.text, superclass, methodsIn frame decls⟩

/-- The class is what its name is bound to. -/
theorem makeClass_eq (name : Lexeme) (superclass : Option Class) (decls : List (FunctionDecl Stmt))
    (st : State) : makeClass name superclass decls st =
      (methodFrame superclass st).2.newIdentity.2.define name.text
        (.callable (.class (newClass name superclass decls st))) := rfl

/-- The class that the next step builds: a class declaration does, if its superclass is a class. -/
def builds (cfg : Config) : Machine → List Class
  | ⟨.exec (.classDecl name ref decls), _, st⟩ =>
    match superclassOf cfg (st.define name.text .nil) ref with
    | .ok superclass => [newClass name superclass decls (st.define name.text .nil)]
    | .error _ => []
  | _ => []

/-- The next step executes a declaration of the class `c`. Its superclass is the value that the name
    of the superclass has at this moment. -/
def Declares (cfg : Config) (m : Machine) (c : Class) : Prop :=
  ∃ name ref decls stack st, m = ⟨.exec (.classDecl name ref decls), stack, st⟩ ∧
    superclassOf cfg (st.define name.text .nil) ref = .ok c.superclass ∧
    c = newClass name c.superclass decls (st.define name.text .nil)

theorem declares_of_mem_builds {cfg : Config} {m : Machine} {c : Class} (h : c ∈ m.builds cfg) :
    m.builds cfg = [c] ∧ m.Declares cfg c := by
  unfold builds at h ⊢
  split at h
  · next name ref decls stack st =>
    cases hs : superclassOf cfg (st.define name.text .nil) ref with
    | error stop =>
      rw [hs] at h
      cases h
    | ok superclass =>
      rw [hs] at h
      obtain rfl : c = newClass name superclass decls (st.define name.text .nil) :=
        List.mem_singleton.1 h
      exact ⟨rfl, name, ref, decls, stack, st, rfl, hs, rfl⟩
  · cases h

/-- The classes that a run builds. -/
def buildsIn (cfg : Config) : (fuel : Nat) → Machine → List Class
  | 0, _ => []
  | fuel + 1, m => m.builds cfg ++ buildsIn cfg fuel (m.step cfg)

end Machine

namespace Session

/-- The sessions that come about, between two sources or while the given machine runs one, with the
    classes that were built so far. A run can be stopped at any step. -/
inductive History : Session → Option Machine → List Class → Prop
  | new (sink : Sink) (clock : Clock) (maxDepth : Nat) : History (.new sink clock maxDepth) none []
  | run {s s' : Session} {built : List Class} {m : Machine} {source : List UInt8} :
      History s none built →
      s.load source = (.ok m, s') → History s' (some m) built
  | reject {s s' : Session} {built : List Class} {errors : List Diagnostic} {source : List UInt8} :
      History s none built → s.load source = (.error errors, s') → History s' none built
  | evaluate {s s' : Session} {built : List Class} {m : Machine} {source : List UInt8} :
      History s none built →
      s.loadExpr source = (.ok m, s') → History s' (some m) built
  | rejectExpr {s s' : Session} {built : List Class} {errors : List Diagnostic}
      {source : List UInt8} :
      History s none built → s.loadExpr source = (.error errors, s') → History s' none built
  | step {s : Session} {built : List Class} {m : Machine} : History s (some m) built →
      History s (some (m.step s.config)) (built ++ m.builds s.config)
  | stop {s : Session} {built : List Class} {m : Machine} : History s (some m) built →
      History { s with state := m.state } none built

variable {s : Session} {built : List Class} {m : Option Machine}

theorem History.of_run {m : Machine} (h : s.History (some m) built) (fuel : Nat) :
    s.History (some (m.run s.config fuel)) (built ++ m.buildsIn s.config fuel) := by
  induction fuel generalizing m built with
  | zero =>
    rw [Machine.buildsIn, List.append_nil]
    exact h
  | succ fuel ih =>
    rw [Machine.run_succ, Machine.buildsIn, ← List.append_assoc]
    exact ih h.step

/-- Each class was built when a declaration of it was executed, after the classes before it. -/
theorem History.declared (h : s.History m built) :
    ∀ c ∈ built, ∃ s₀ m₀ built₀, History s₀ (some m₀) built₀ ∧ built₀ ++ [c] <+: built ∧
    m₀.Declares s₀.config c := by
  induction h with
  | new sink clock maxDepth => exact List.forall_mem_nil _
  | run _ _ ih => exact ih
  | reject _ _ ih => exact ih
  | evaluate _ _ ih => exact ih
  | rejectExpr _ _ ih => exact ih
  | stop _ ih => exact ih
  | @step s built m h ih =>
    intro c hc
    rcases List.mem_append.1 hc with hc | hc
    · obtain ⟨s₀, m₀, built₀, hh, hprefix, hd⟩ := ih c hc
      exact ⟨s₀, m₀, built₀, hh, hprefix.trans (List.prefix_append _ _), hd⟩
    · obtain ⟨heq, hd⟩ := Machine.declares_of_mem_builds hc
      exact ⟨s, m, built, h, heq ▸ List.prefix_refl _, hd⟩

theorem Reachable.history (h : s.Reachable) : ∃ built, s.History none built := by
  induction h with
  | new sink clock maxDepth => exact ⟨[], .new sink clock maxDepth⟩
  | @run s fuel source _ ih =>
    obtain ⟨built, hs⟩ := ih
    rw [Session.run]
    rcases hl : s.load source with ⟨errors | m, s'⟩
    · exact ⟨built, .reject hs hl⟩
    · exact ⟨_, ((History.run hs hl).of_run fuel).stop⟩
  | @evaluate s fuel source _ ih =>
    obtain ⟨built, hs⟩ := ih
    rw [Session.evaluate]
    rcases hl : s.loadExpr source with ⟨errors | m, s'⟩
    · exact ⟨built, .rejectExpr hs hl⟩
    · exact ⟨_, ((History.evaluate hs hl).of_run fuel).stop⟩

theorem Moment.history {m : Machine} (h : s.Moment m) : ∃ built, s.History (some m) built := by
  induction h with
  | run hs hl =>
    obtain ⟨built, hs⟩ := hs.history
    exact ⟨built, hs.run hl⟩
  | evaluate hs hl =>
    obtain ⟨built, hs⟩ := hs.history
    exact ⟨built, hs.evaluate hl⟩
  | step _ ih =>
    obtain ⟨built, hm⟩ := ih
    exact ⟨_, hm.step⟩

/-- What holds of sessions and runs that come about. -/
theorem History.sound (h : s.History m built) : s.Sound ∧ ∀ m' ∈ m, m'.Sound s.table := by
  induction h with
  | new sink clock maxDepth => exact ⟨sound_new sink clock maxDepth, by simp⟩
  | run _ hl ih =>
    obtain ⟨program, cursor, distances, hp, hr, rfl, rfl⟩ := load_eq_ok hl
    obtain ⟨hs, hm⟩ := ih.1.machine hp hr
    exact ⟨hs, by rintro _ ⟨⟩; exact hm⟩
  | reject _ hl ih =>
    obtain ⟨n, hn, rfl⟩ := load_eq_error hl
    exact ⟨ih.1.skip hn, by simp⟩
  | evaluate _ hl ih =>
    obtain ⟨e, cursor, distances, he, hr, rfl, rfl⟩ := loadExpr_eq_ok hl
    obtain ⟨hs, hm⟩ := ih.1.machineExpr he hr
    exact ⟨hs, by rintro _ ⟨⟩; exact hm⟩
  | rejectExpr _ hl ih =>
    obtain ⟨n, hn, rfl⟩ := loadExpr_eq_error hl
    exact ⟨ih.1.skip hn, by simp⟩
  | step _ ih =>
    obtain ⟨hs, hm⟩ := ih
    exact ⟨hs, by rintro _ ⟨⟩; exact (hm _ rfl).step (serves_config _)⟩
  | stop _ ih =>
    obtain ⟨hs, hm⟩ := ih
    exact ⟨⟨(hm _ rfl).store, (hm _ rfl).frame, hs.fresh⟩, by simp⟩

end Session

end Lox
