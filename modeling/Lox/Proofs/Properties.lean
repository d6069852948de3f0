import Mathlib
import Lox.Proofs.SelfReference
import Lox.Proofs.Values

/-!
# Properties of instances

A property of an instance is a field or a method. What a field holds depends on all that was ever
put into it, through whatever variable or expression the instance was reached, and which method is
meant depends on the bodies of the class declarations that were executed to build the class of the
instance and the classes above it. So properties are said here from the past of a session
(`Session.Past`), the list of all steps that were taken in it: which fields were set, by which calls
instances were made, and by which declarations classes were built.

* `Machine.get?_methodsIn_eq`, `Class.findMethod_eq`: methods, from the bodies of classes;
* `Session.Past.recorded`: fields and instances are as the past says;
* `Session.property_by_past`: what a property is, and how many arguments a class takes.
-/

namespace Lox

/-! ### The bodies of classes -/

/-- The method called `name` in the body of a class: of several the last one counts. -/
def lastNamed? (name : String) (decls : List (FunctionDecl Stmt)) : Option (FunctionDecl Stmt) :=
  decls.reverse.find? fun decl => decl.name.text = name

/-- The method called `name` for the bodies of a class and of the classes above it, nearest first:
    that of the first body that has one. -/
def firstNamed? (name : String) (bodies : List (List (FunctionDecl Stmt))) :
    Option (FunctionDecl Stmt) :=
  bodies.findSome? (lastNamed? name)

namespace Machine

/-- Looking a method up among those that a class declares. -/
theorem get?_methodsIn_eq (frame : Nat) (decls : List (FunctionDecl Stmt)) (name : String) :
    (methodsIn frame decls).get? name =
      (lastNamed? name decls).map fun decl => ⟨decl, frame, name = initializerName⟩ := by
  induction decls using List.reverseRecOn with
  | nil => rfl
  | append_singleton decls decl ih =>
    rw [methodsIn, List.foldl_append, List.foldl_cons, List.foldl_nil,
      Bindings.get?_insert, lastNamed?,
      List.reverse_append, List.reverse_singleton, List.singleton_append, List.find?_cons]
    by_cases h : name = decl.name.text
    · simp [h]
    · simpa [methodsIn, lastNamed?, h, Ne.symm h] using ih

end Machine

namespace Class

variable {c d : Class} {name : String}

theorem findMethod_of_own {method : Closure} (h : c.methods.get? name = some method) :
    c.findMethod name = some method := by
  obtain ⟨identity, x, superclass, methods⟩ := c
  change methods.get? name = some method at h
  unfold findMethod
  rw [h]

theorem findMethod_of_base (h : c.methods.get? name = none) (hc : c.superclass = none) :
    c.findMethod name = none := by
  obtain ⟨identity, x, superclass, methods⟩ := c
  cases hc
  rw [findMethod]
  change methods.get? name = none at h
  rw [h]

theorem findMethod_of_derived (h : c.methods.get? name = none) (hc : c.superclass = some d) :
    c.findMethod name = d.findMethod name := by
  obtain ⟨identity, x, superclass, methods⟩ := c
  cases hc
  rw [findMethod]
  change methods.get? name = none at h
  rw [h]

/-- The methods of a class are those of the given body. -/
def HasBody (c : Class) (decls : List (FunctionDecl Stmt)) : Prop := ∃ frame,
    c.methods = Machine.methodsIn frame decls

/-- A method is found by going up from body to body. -/
theorem findMethod_eq {bodies : List (List (FunctionDecl Stmt))}
    (h : List.Forall₂ HasBody c.lineage bodies) (name : String) :
    (c.findMethod name).map Closure.decl = firstNamed? name bodies ∧
      ∀ method, c.findMethod name = some method →
      method.isInitializer = decide (name = initializerName) := by
  induction c using Class.induction generalizing bodies with
  | base c hc =>
    rw [lineage_of_none hc] at h
    obtain ⟨decls, rest, ⟨frame, hmethods⟩, hrest, rfl⟩ := List.forall₂_cons_left_iff.1 h
    cases hrest
    have hget := Machine.get?_methodsIn_eq frame decls name
    rw [← hmethods] at hget
    rw [firstNamed?, List.findSome?_cons]
    cases hlast : lastNamed? name decls with
    | none =>
      rw [hlast] at hget
      rw [findMethod_of_base hget hc]
      exact ⟨rfl, fun method hm => by cases hm⟩
    | some decl =>
      rw [hlast] at hget
      rw [findMethod_of_own hget]
      exact ⟨rfl, fun method hm => by cases hm; rfl⟩
  | derived c d hc ih =>
    rw [lineage_of_superclass hc] at h
    obtain ⟨decls, rest, ⟨frame, hmethods⟩, hrest, rfl⟩ := List.forall₂_cons_left_iff.1 h
    have hget := Machine.get?_methodsIn_eq frame decls name
    rw [← hmethods] at hget
    rw [firstNamed?, List.findSome?_cons]
    cases hlast : lastNamed? name decls with
    | none =>
      rw [hlast] at hget
      rw [findMethod_of_derived hget hc]
      exact ih hrest
    | some decl =>
      rw [hlast] at hget
      rw [findMethod_of_own hget]
      exact ⟨rfl, fun method hm => by cases hm; rfl⟩

end Class

/-! ### The past of a session -/

/-- The value that was put last into the field `x` of the instance `i`. -/
def lastWrite? (writes : List (Nat × String × Value)) (i : Nat) (x : String) : Option Value :=
  writes.reverse.findSome? fun (j, y, v) => if i = j ∧ x = y then some v else none

theorem lastWrite?_concat (writes : List (Nat × String × Value)) (j : Nat) (y : String)
    (v : Value) (i : Nat) (x : String) : lastWrite? (writes ++ [(j, y, v)]) i x = if i = j ∧
    x = y then some v else lastWrite? writes i x := by
  rw [lastWrite?, List.reverse_append, List.reverse_singleton, List.singleton_append,
    List.findSome?_cons]
  by_cases h : i = j ∧ x = y
  · simp [h]
  · simp [h, lastWrite?]

/-- Some steps: the machines that took them, with what did not change during their runs. -/
abbrev Steps := List (Config × Machine)

namespace Steps

/-- All fields that were set, in the order in which they were. -/
def writes (steps : Steps) : List (Nat × String × Value) := steps.flatMap fun (_, m) => m.writes

/-- The classes of all instances that were made, in the order in which they were. -/
def makes (steps : Steps) : List Class := steps.flatMap fun (cfg, m) => m.makes cfg

/-- All classes that were built, in the order in which they were. -/
def builds (steps : Steps) : List Class := steps.flatMap fun (cfg, m) => m.builds cfg

variable {steps : Steps} {cfg : Config} {m : Machine}

theorem writes_concat : writes (steps ++ [(cfg, m)]) = steps.writes ++ m.writes := by
  simp [writes]

theorem makes_concat : makes (steps ++ [(cfg, m)]) = steps.makes ++ m.makes cfg := by
  simp [makes]

theorem builds_concat : builds (steps ++ [(cfg, m)]) = steps.builds ++ m.builds cfg := by
  simp [builds]

/-- The class `c` was built by a step that executed a class declaration with the given methods. -/
def Declared (steps : Steps) (c : Class) (decls : List (FunctionDecl Stmt)) : Prop :=
  ∃ cfg name ref stack st, (cfg, ⟨.exec (.classDecl name ref decls), stack, st⟩) ∈ steps ∧
    c ∈ Machine.builds cfg ⟨.exec (.classDecl name ref decls), stack, st⟩

theorem Declared.hasBody {c : Class} {decls : List (FunctionDecl Stmt)}
    (h : steps.Declared c decls) :
    c.HasBody decls := by
  obtain ⟨cfg, name, ref, stack, st, -, hc⟩ := h
  obtain ⟨-, name', ref', decls', stack', st', heq, -, hnew⟩ := Machine.declares_of_mem_builds hc
  cases heq
  exact ⟨_, congrArg Class.methods hnew⟩

/-- Each class that was built was declared. -/
theorem exists_declared {c : Class} (h : c ∈ steps.builds) : ∃ decls, steps.Declared c decls := by
  obtain ⟨⟨cfg, m⟩, hmem, hc⟩ := List.mem_flatMap.1 h
  obtain ⟨-, name, ref, decls, stack, st, rfl, -⟩ := Machine.declares_of_mem_builds hc
  exact ⟨decls, cfg, name, ref, stack, st, hmem, hc⟩

end Steps

namespace Session

/-- The sessions that come about, between two sources or while the given machine runs one, with all
    steps that were taken so far. A run can be stopped at any step. -/
inductive Past : Session → Option Machine → Steps → Prop
  | new (sink : Sink) (clock : Clock) (maxDepth : Nat) : Past (.new sink clock maxDepth) none []
  | run {s s' : Session} {steps : Steps} {m : Machine} {source : List UInt8} : Past s none steps →
      s.load source = (.ok m, s') → Past s' (some m) steps
  | reject {s s' : Session} {steps : Steps} {errors : List Diagnostic} {source : List UInt8} :
      Past s none steps → s.load source = (.error errors, s') → Past s' none steps
  | evaluate {s s' : Session} {steps : Steps} {m : Machine} {source : List UInt8} :
      Past s none steps →
      s.loadExpr source = (.ok m, s') → Past s' (some m) steps
  | rejectExpr {s s' : Session} {steps : Steps} {errors : List Diagnostic} {source : List UInt8} :
      Past s none steps → s.loadExpr source = (.error errors, s') → Past s' none steps
  | step {s : Session} {steps : Steps} {m : Machine} : Past s (some m) steps →
      Past s (some (m.step s.config)) (steps ++ [(s.config, m)])
  | stop {s : Session} {steps : Steps} {m : Machine} : Past s (some m) steps →
      Past { s with state := m.state } none steps

variable {s : Session} {steps : Steps}

theorem Past.history {m : Option Machine} (h : s.Past m steps) : s.History m steps.builds := by
  induction h with
  | new sink clock maxDepth => exact .new sink clock maxDepth
  | run _ hl ih => exact ih.run hl
  | reject _ hl ih => exact ih.reject hl
  | evaluate _ hl ih => exact ih.evaluate hl
  | rejectExpr _ hl ih => exact ih.rejectExpr hl
  | step _ ih => exact Steps.builds_concat ▸ ih.step
  | stop _ ih => exact ih.stop

theorem Past.of_run {m : Machine} (h : s.Past (some m) steps) (fuel : Nat) :
    ∃ steps', s.Past (some (m.run s.config fuel)) steps' := by
  refine Machine.run_invariant (P := fun m => ∃ steps', s.Past (some m) steps') ?_ ⟨steps, h⟩ fuel
  rintro m ⟨steps', h⟩
  exact ⟨_, h.step⟩

theorem Reachable.past (h : s.Reachable) : ∃ steps, s.Past none steps := by
  induction h with
  | new sink clock maxDepth => exact ⟨[], .new sink clock maxDepth⟩
  | @run s fuel source _ ih =>
    obtain ⟨steps, hs⟩ := ih
    rw [Session.run]
    rcases hl : s.load source with ⟨errors | m, s'⟩
    · exact ⟨steps, .reject hs hl⟩
    · obtain ⟨steps', hm⟩ := (Past.run hs hl).of_run fuel
      exact ⟨steps', hm.stop⟩
  | @evaluate s fuel source _ ih =>
    obtain ⟨steps, hs⟩ := ih
    rw [Session.evaluate]
    rcases hl : s.loadExpr source with ⟨errors | m, s'⟩
    · exact ⟨steps, .rejectExpr hs hl⟩
    · obtain ⟨steps', hm⟩ := (Past.evaluate hs hl).of_run fuel
      exact ⟨steps', hm.stop⟩

theorem Moment.past {m : Machine} (h : s.Moment m) : ∃ steps, s.Past (some m) steps := by
  induction h with
  | run hs hl =>
    obtain ⟨steps, hs⟩ := hs.past
    exact ⟨steps, hs.run hl⟩
  | evaluate hs hl =>
    obtain ⟨steps, hs⟩ := hs.past
    exact ⟨steps, hs.evaluate hl⟩
  | step _ ih =>
    obtain ⟨steps, hm⟩ := ih
    exact ⟨_, hm.step⟩

end Session

/-! ### What the past says about fields and instances -/

/-- The instance `i` was made by a call of the class `c`. -/
def Steps.Made (steps : Steps) (i : Nat) (c : Class) : Prop := steps.makes[i]? = some c

theorem Steps.Made.concat {steps : Steps} {i : Nat} {c : Class} (h : steps.Made i c) (cfg : Config)
    (m : Machine) : Steps.Made (steps ++ [(cfg, m)]) i c := by
  rw [Made, makes_concat]
  exact List.getElem?_append_left (List.getElem?_eq_some_iff.1 h).1 ▸ h

/-- There are as many instances as were made, and fields hold what was put into them last. -/
structure Store.Recorded (steps : Steps) (s : Store) : Prop where
  size : s.fields.size = steps.makes.length
  fields : ∀ i x, s.field? i x = lastWrite? steps.writes i x

namespace Machine

variable {P P' : Nat → Class → Prop} {cfg : Config} {m : Machine} {steps : Steps}

theorem Objects.mono (h : m.Objects P) (hP : ∀ i c, P i c → P' i c) : m.Objects P' := by
  have hvalue : ∀ v : Value, v.Object P → v.Object P' := by
    intro v hv
    cases v with
    | «instance» i c => exact hP i c hv
    | _ => trivial
  refine ⟨⟨fun f x v hv => hvalue v (h.store.bindings f x v hv),
    fun i x v hv => hvalue v (h.store.fields i x v hv)⟩, ?_, fun pending hp => ?_⟩
  · have hc := h.control
    obtain ⟨control, stack, st⟩ := m
    cases control with
    | deliver v => exact hvalue v hc
    | unwind a =>
      cases a with
      | returns v => exact hvalue v hc
      | fails e => trivial
    | _ => trivial
  · exact Pending.objects_iff.2 ((Pending.objects_iff.1 (h.stack pending hp)).imp hvalue)

theorem eq_of_writes_ne_nil (h : m.writes ≠ []) :
    ∃ v i name stack st, m = ⟨.deliver v, .setValue i name :: stack, st⟩ := by
  unfold writes at h
  split at h
  · exact ⟨_, _, _, _, _, rfl⟩
  · exact absurd rfl h

/-- A step is added to the past. -/
theorem recorded_step (hm : m.Objects steps.Made) (hs : m.state.store.Recorded steps) :
    (step cfg m).state.store.Recorded (steps ++ [(cfg, m)]) := by
  refine ⟨?_, fun i x => ?_⟩
  · rw [size_fields_step, Steps.makes_concat, List.length_append, hs.size]
  rw [Steps.writes_concat]
  by_cases hw : m.writes = []
  · rw [field?_step hw, hw, List.append_nil, hs.fields]
  · obtain ⟨v, j, name, stack, st, rfl⟩ := eq_of_writes_ne_nil hw
    have hj : j < st.store.fields.size := by
      obtain ⟨c, hc⟩ := hm.stack (.setValue j name) (List.mem_cons_self ..)
      exact (List.getElem?_eq_some_iff.1 hc).1.trans_eq hs.size.symm
    change (st.store.setField j name.text v).field? i x =
      lastWrite? (steps.writes ++ [(j, name.text, v)]) i x
    rw [Store.field?_setField, lastWrite?_concat, ← hs.fields]
    simp only [hj, and_true]

theorem objects_step (hcfg : ∀ f time arguments v, cfg.natives f time arguments = .ok v → v.IsPlain)
    (hm : m.Objects steps.Made) (hs : m.state.store.Recorded steps) :
    (step cfg m).Objects (Steps.Made (steps ++ [(cfg, m)])) := by
  refine (hm.mono fun i c hc => hc.concat cfg m).step
    (fun f time arguments v hv => (hcfg f time arguments v hv).object) ?_
  intro c hc
  obtain ⟨-, -, -, -, hmakes, -⟩ := calls_of_mem_makes hc
  rw [Steps.Made, Steps.makes_concat, hmakes, hs.size]
  exact List.getElem?_concat_length

end Machine

namespace Session

variable {s : Session} {steps : Steps}

/-- The fields and the instances of a session are as its past says, between two sources and while a
    machine runs one. -/
def Recorded (s : Session) (steps : Steps) : Option Machine → Prop
  | none => s.state.store.Recorded steps ∧ s.state.store.Objects steps.Made
  | some m => m.state.store.Recorded steps ∧ m.Objects steps.Made

/-- Fields and instances are as the past says. -/
theorem Past.recorded {m : Option Machine} (h : s.Past m steps) : s.Recorded steps m := by
  induction h with
  | new sink clock maxDepth =>
    refine ⟨⟨rfl, fun i x => rfl⟩, fun f x v hv => ?_, fun i x v hv => by cases hv⟩
    obtain rfl := get?_new hv
    trivial
  | run _ hl ih =>
    obtain ⟨program, cursor, distances, -, -, rfl, rfl⟩ := load_eq_ok hl
    exact ⟨ih.1, ih.2, trivial, List.forall_mem_nil _⟩
  | reject _ hl ih =>
    obtain ⟨n, -, rfl⟩ := load_eq_error hl
    exact ih
  | evaluate _ hl ih =>
    obtain ⟨e, cursor, distances, -, -, rfl, rfl⟩ := loadExpr_eq_ok hl
    exact ⟨ih.1, ih.2, trivial, List.forall_mem_nil _⟩
  | rejectExpr _ hl ih =>
    obtain ⟨n, -, rfl⟩ := loadExpr_eq_error hl
    exact ih
  | step _ ih =>
    have hplain : ∀ f time arguments v, Native.standard f time arguments = .ok v → v.IsPlain := by
      rintro f time arguments v ⟨⟩
      trivial
    exact ⟨Machine.recorded_step ih.2 ih.1, Machine.objects_step hplain ih.2 ih.1⟩
  | stop _ ih => exact ⟨ih.1, ih.2.store⟩

/-- A class that was built and the classes above it have bodies, from the declarations that built
    them. -/
theorem Past.exists_bodies {m : Machine} (h : s.Past (some m) steps) {c : Class}
    (hc : c ∈ steps.builds) : ∃ bodies, List.Forall₂ steps.Declared c.lineage bodies := by
  have hm : m.Seated s.table steps.builds := h.history.seated
  have hdeclared : ∀ d ∈ c.lineage, ∃ decls, steps.Declared d decls := fun d hd =>
    Steps.exists_declared (hm.valid.lineage hc hd)
  generalize c.lineage = classes at hdeclared
  induction classes with
  | nil => exact ⟨[], .nil⟩
  | cons d rest ih =>
    obtain ⟨hd, hrest⟩ := List.forall_mem_cons.1 hdeclared
    obtain ⟨decls, hdecls⟩ := hd
    obtain ⟨bodies, hbodies⟩ := ih hrest
    exact ⟨decls :: bodies, .cons hdecls hbodies⟩

end Session

namespace Machine

variable {cfg : Config} {m : Machine} {c : Class} {stack : List Pending} {st : State}

theorem Calls.built {T : Table} {built : List Class} (hm : m.Seated T built) {line : Nat}
    {arguments : List Value} (h : m.Calls (.callable (.class c)) line arguments stack st) :
    c ∈ built := by
  cases h with
  | bare => exact hm.control
  | last => exact hm.entries.1.1

/-- A method is bound to an instance by the frame that it is to run in. -/
theorem bound_eq (st : State) (method : Closure) (object : Value) :
    ∃ identity closure st', st.bound method object = (.callable (.function identity closure), st') ∧
      closure.decl = method.decl ∧ closure.isInitializer = method.isInitializer ∧
      (st'.store.frame closure.frame).bindings.get? "this" = some object := by
  refine ⟨_, _, _, rfl, rfl, rfl, ?_⟩
  change ((Store.newFrame _ _ _).2.frame st.store.frames.size).bindings.get? "this" = _
  rw [Store.frame_newFrame, if_pos rfl]
  exact Bindings.get?_insert_self ..

theorem property_of_method (stack : List Pending) {i : Nat} {name : Lexeme} {method : Closure}
    (hf : st.store.field? i name.text = none) (hm : c.findMethod name.text = some method) :
    ∃ identity closure st',
      property i c name stack st = .deliver (.callable (.function identity closure)) stack st' ∧
      closure.decl = method.decl ∧ closure.isInitializer = method.isInitializer ∧
      (st'.store.frame closure.frame).bindings.get? "this" = some (.instance i c) := by
  obtain ⟨identity, closure, st', hbound, hclosure⟩ := bound_eq st method (.instance i c)
  refine ⟨identity, closure, st', ?_, hclosure⟩
  rw [property, hf]
  dsimp only
  rw [hm]
  dsimp only
  rw [hbound]

/-- Too many or too few arguments are the first thing that is noticed about a call. -/
theorem call_eq_wrongArity_iff {callee : Callable} {line : Nat} {arguments : List Value} :
    call cfg (.callable callee) line arguments stack st =
        .fail line (.wrongArity callee.arity arguments.length) stack st ↔
        arguments.length ≠ callee.arity := by
  rw [call]
  split
  · next h => exact ⟨fun _ => h, fun _ => rfl⟩
  · next h =>
    refine ⟨fun hfail => ?_, fun h' => absurd h' h⟩
    split at hfail
    · cases congrArg Machine.control hfail
    · -- What is called is entered, or it is a native function that fails for another reason.
      cases callee with
      | native f =>
        rw [enter, callNative] at hfail
        dsimp only at hfail
        split at hfail
        · cases congrArg Machine.control hfail
        · cases congrArg Machine.control hfail
      | function identity closure => cases congrArg Machine.control hfail
      | «class» c =>
        rw [enter, instantiate] at hfail
        dsimp only at hfail
        split at hfail
        · cases congrArg Machine.control hfail
        · cases congrArg Machine.control hfail

end Machine

/-- How many arguments a class takes with the given bodies, its own first. -/
def constructorArity (bodies : List (List (FunctionDecl Stmt))) : Nat :=
  ((firstNamed? initializerName bodies).map fun decl => decl.params.length).getD 0

namespace Session

variable {s : Session} {steps : Steps}

/-- What a property is, and how many arguments a class takes, at every moment of every run, by the
    past of the session. Let a property of an instance be read. Its class is the one that was called
    to make it, and this class and the classes above it were built by declarations with certain
    bodies. If the field was ever set, through whatever expression, the value that was put into it
    last is the result. If not, and if one of the bodies has a method of this name, the result is a
    function bound to the instance, which is declared by the last such method in the first such
    body. The property is undefined if and only if there is neither. Let a class be called. It takes
    as many arguments as the method that sets up its instances, found by the same rule, or none if
    there is no such method. The call is refused for their number if and only if there are more or
    fewer. -/
theorem property_by_past :
    (∀ {s : Session} {m : Machine}, s.Moment m → ∃ steps, s.Past (some m) steps) ∧
    ∀ {s : Session} {m : Machine} {steps : Steps}, s.Past (some m) steps →
      (∀ i c name stack st, m = ⟨.deliver (.instance i c), .get name :: stack, st⟩ →
        steps.Made i c ∧ ∃ bodies, List.Forall₂ steps.Declared c.lineage bodies ∧
          (∀ v, lastWrite? steps.writes i name.text = some v →
            m.step s.config = .deliver v stack st) ∧
          (∀ decl, lastWrite? steps.writes i name.text = none →
            firstNamed? name.text bodies = some decl →
            ∃ identity closure st',
              m.step s.config = .deliver (.callable (.function identity closure)) stack st' ∧
              closure.decl = decl ∧
                (st'.store.frame closure.frame).bindings.get? "this" = some (.instance i c)) ∧
          (m.step s.config = .fail name.line (.undefinedProperty name.text) stack st ↔
            lastWrite? steps.writes i name.text = none ∧ firstNamed? name.text bodies = none)) ∧
      ∀ c line arguments stack st, m.Calls (.callable (.class c)) line arguments stack st →
        ∃ bodies, List.Forall₂ steps.Declared c.lineage bodies ∧
          (m.step s.config =
            .fail line (.wrongArity (constructorArity bodies) arguments.length) stack st ↔
            arguments.length ≠ constructorArity bodies) := by
  refine ⟨fun h => h.past, ?_⟩
  intro s m steps h
  have hm : m.Seated s.table steps.builds := h.history.seated
  obtain ⟨hrecorded, hobjects⟩ := h.recorded
  refine ⟨?_, ?_⟩
  · rintro i c name stack st rfl
    obtain ⟨bodies, hbodies⟩ := h.exists_bodies hm.control
    obtain ⟨hfind, -⟩ := Class.findMethod_eq (hbodies.imp fun _ _ hd => hd.hasBody) name.text
    have hstep : Machine.step s.config ⟨.deliver (.instance i c), .get name :: stack, st⟩ =
        .property i c name stack st := rfl
    refine ⟨hobjects.control, bodies, hbodies, fun v hv => ?_, fun decl hnone hdecl => ?_, ?_⟩
    · rw [hstep, Machine.property, hrecorded.fields, hv]
    · obtain ⟨method, hmethod, rfl⟩ := Option.map_eq_some_iff.1 (hfind.trans hdecl)
      obtain ⟨identity, closure, st', hread, hd, -, hthis⟩ :=
        Machine.property_of_method stack ((hrecorded.fields i name.text).trans hnone) hmethod
      exact ⟨identity, closure, st', hread, hd, hthis⟩
    · rw [hstep, Machine.property, hrecorded.fields, ← hfind]
      cases lastWrite? steps.writes i name.text with
      | some v => simp [Machine.deliver, Machine.fail]
      | none => cases c.findMethod name.text <;> simp [Machine.deliver, Machine.fail]
  · intro c line arguments stack st hcalls
    obtain ⟨bodies, hbodies⟩ := h.exists_bodies (hcalls.built hm)
    obtain ⟨hfind, -⟩ := Class.findMethod_eq (hbodies.imp fun _ _ hd => hd.hasBody) initializerName
    have harity : (Callable.class c).arity = constructorArity bodies := by
      rw [Callable.arity, constructorArity, ← hfind, Option.map_map]
      rfl
    refine ⟨bodies, hbodies, ?_⟩
    rw [hcalls.step, ← harity]
    exact Machine.call_eq_wrongArity_iff

end Session

/-- The property that is read next, with the instance of which it is read. -/
def Machine.reads? : Machine → Option (Nat × Class × Lexeme)
  | ⟨.deliver (.instance i c), .get name :: _, _⟩ => some (i, c, name)
  | _ => none

theorem Machine.eq_of_reads? {m : Machine} {i : Nat} {c : Class} {name : Lexeme}
    (h : m.reads? = some (i, c, name)) :
    ∃ stack st, m = ⟨.deliver (.instance i c), .get name :: stack, st⟩ := by
  unfold reads? at h
  split at h
  · cases h
    exact ⟨_, _, rfl⟩
  · cases h

namespace Session

/-- A method is read of an instance of `B`, which inherits it from `A`. The body of `A` has two
    methods of this name, and the second one has a parameter. A field of the instance was set twice
    before, under two names. -/
theorem property_by_past_inherited :
    ∃ (s : Session) (m : Machine) (steps : Steps) (i : Nat) (c : Class) (name : Lexeme)
      (stack : List Pending) (st : State),
      s.Past (some m) steps ∧ m = ⟨.deliver (.instance i c), .get name :: stack, st⟩ ∧
      c.name = "B" ∧ (lastWrite? steps.writes i "f").map Value.display = some "new" ∧
      steps.Made i c ∧
      ∃ bodies decl, List.Forall₂ steps.Declared c.lineage bodies ∧
        firstNamed? name.text bodies = some decl ∧ decl.params.length = 1 ∧
        ∃ identity closure st',
          m.step s.config = .deliver (.callable (.function identity closure)) stack st' ∧
          closure.decl = decl ∧
            (st'.store.frame closure.frame).bindings.get? "this" = some (.instance i c) := by
  -- All that is computed is what is read after 44 steps, the two fields, and the method that is
  -- found.
  obtain ⟨s, source, hs, hrun⟩ : ∃ (s : Session) (source : List UInt8), s.Reachable ∧
      ((s.machineAfter 44 source).bind fun m => m.reads?.map fun (i, c, name) =>
        (c.name, (m.state.store.field? i "f").map Value.display,
          (m.state.store.field? i name.text).map Value.display,
          (c.findMethod name.text).map fun method => method.decl.params.length)) =
        some ("B", some "new", none, some 1) :=
    ⟨.new .unlimited (.still 0) 16,
      ("class A \x7b m() \x7b\x7d m(x) \x7b\x7d init(p) \x7b\x7d \x7d class B < A \x7b\x7d " ++
        "var b = B(\"x\"); var a = b; b.f = \"old\"; a.f = \"new\"; a.m;").toUTF8.toList,
      .new _ _ _, by decide +kernel⟩
  obtain ⟨m, hm, hread⟩ := Option.bind_eq_some_iff.1 hrun
  obtain ⟨⟨i, c, name⟩, hreads, hread⟩ := Option.map_eq_some_iff.1 hread
  obtain ⟨steps, hpast⟩ := (hs.moment hm).past
  generalize (s.load source).2 = s' at hpast
  obtain ⟨hclass, hread⟩ := Prod.mk.inj hread
  obtain ⟨hset, hread⟩ := Prod.mk.inj hread
  obtain ⟨hunset, hparams⟩ := Prod.mk.inj hread
  obtain ⟨stack, st, rfl⟩ := Machine.eq_of_reads? hreads
  obtain ⟨hrecorded, -⟩ := hpast.recorded
  obtain ⟨hmade, bodies, hbodies, -, hmethod, -⟩ :=
    (property_by_past.2 hpast).1 i c name stack st rfl
  obtain ⟨method, hfound, hcount⟩ := Option.map_eq_some_iff.1 hparams
  obtain ⟨hfind, -⟩ := Class.findMethod_eq (hbodies.imp fun _ _ hd => hd.hasBody) name.text
  rw [hfound] at hfind
  have hnone : lastWrite? steps.writes i name.text = none :=
    (hrecorded.fields i name.text).symm.trans (Option.map_eq_none_iff.1 hunset)
  exact ⟨s', _, steps, i, c, name, stack, st, hpast, rfl, hclass, hrecorded.fields i "f" ▸ hset,
    hmade, bodies, method.decl, hbodies, hfind.symm, hcount, hmethod method.decl hnone hfind.symm⟩

end Session

end Lox
