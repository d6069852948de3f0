import Mathlib
import Lox.Proofs.Relabelling
import Lox.Session

/-!
# Relabelled runs

A machine that runs relabelled statements on a relabelled state does the same as the machine that it
was made from, step by step, if the new identities have the distances of the old ones. Nothing else
about identities and lines matters for a run: lines are handed on to errors and nothing else is made
of them.

* `Machine.relabel`: the same machine with other identities and lines, on top of other pending work;
* `Machine.Relabels`: what relates the settings of two runs;
* `Relabels.step`, `Relabels.run`: one step and whole runs.
-/

namespace Lox

variable (L : Relabelling)

/-- The same reason to leave the usual order. -/
def Abrupt.relabel : Abrupt → Abrupt
  | .returns v => .returns (v.relabel L)
  | .fails e => .fails (e.relabel L)

/-- The same end. -/
def Outcome.relabel : Outcome → Outcome
  | .value v => .value (v.relabel L)
  | .returned v => .returned (v.relabel L)
  | .failed e => .failed (e.relabel L)
  | .fault f => .fault (f.relabel L)

/-- The same thing to do, with other identities and lines. -/
def Control.relabel : Control → Control
  | .eval e => .eval (e.relabel L)
  | .exec s => .exec (s.relabel L)
  | .execAll statements => .execAll (Stmt.relabelAll L statements)
  | .deliver v => .deliver (v.relabel L)
  | .unwind a => .unwind (a.relabel L)
  | .done o => .done (o.relabel L)

/-- The same pending work, with other identities and lines. -/
def Pending.relabel : Pending → Pending
  | .unary op line => .unary op (L.line line)
  | .binaryLeft op line right => .binaryLeft op (L.line line) (right.relabel L)
  | .binaryRight op line left => .binaryRight op (L.line line) (left.relabel L)
  | .logical op right => .logical op (right.relabel L)
  | .assign id name => .assign (L.id id) (name.relabel L)
  | .callee line arguments => .callee (L.line line) (Expr.relabelAll L arguments)
  | .argument f line before rest =>
    .argument (f.relabel L) (L.line line) (before.map (Value.relabel L)) (Expr.relabelAll L rest)
  | .get name => .get (name.relabel L)
  | .setObject name value => .setObject (name.relabel L) (value.relabel L)
  | .setValue id name => .setValue id (name.relabel L)
  | .print => .print
  | .define name => .define (name.relabel L)
  | .branch yes no => .branch (yes.relabel L) (Stmt.relabelOption L no)
  | .loopTest condition body => .loopTest (condition.relabel L) (body.relabel L)
  | .loopBody condition body => .loopBody (condition.relabel L) (body.relabel L)
  | .sequence rest => .sequence (Stmt.relabelAll L rest)
  | .returns => .returns
  | .leaveBlock frame => .leaveBlock frame
  | .leaveBody closure frame => .leaveBody (closure.relabel L) frame
  | .construct object => .construct (object.relabel L)
  | .leaveCall => .leaveCall

/-- The same machine with other identities and lines, and with other work pending below its own. -/
def Machine.relabel (below : List Pending) (m : Machine) : Machine :=
  ⟨m.control.relabel L, m.stack.map (Pending.relabel L) ++ below, m.state.relabel L⟩

namespace Machine

/-- The settings of a run and of the relabelled one: the new identities have the distances of the
    old ones, and native functions do what they do everywhere. -/
structure Relabels (cfg cfg' : Config) : Prop where
  distances : ∀ id, cfg'.distances[L.id id]? = cfg.distances[id]?
  maxDepth : cfg'.maxDepth = cfg.maxDepth
  natives : cfg.natives = Native.standard
  natives' : cfg'.natives = Native.standard

variable {L} {cfg cfg' : Config} {below : List Pending}

theorem finish_relabel (result : Except Stop Value) (stack : List Pending) (st : State) :
    finish (State.relabelResult L result) (stack.map (Pending.relabel L) ++ below) (st.relabel L) =
      (finish result stack st).relabel L below := by
  cases result with
  | ok v => rfl
  | error stop => cases stop <;> rfl

/-- A method that was found is bound to an instance. -/
theorem bound_relabel (method : Closure) (object : Value) (stack : List Pending) (st : State) :
    deliver ((st.relabel L).bound (method.relabel L) (object.relabel L)).1
      (stack.map (Pending.relabel L) ++ below)
        ((st.relabel L).bound (method.relabel L) (object.relabel L)).2 =
      (deliver (st.bound method object).1 stack (st.bound method object).2).relabel L below := by
  rw [State.bound_relabel]
  rfl

theorem property_relabel (id : Nat) (c : Class) (name : Lexeme) (stack : List Pending)
    (st : State) :
    property id (c.relabel L) (name.relabel L) (stack.map (Pending.relabel L) ++ below)
      (st.relabel L) =
      (property id c name stack st).relabel L below := by
  have hfield : (st.relabel L).store.field? id (name.relabel L).text =
      (st.store.field? id name.text).map (Value.relabel L) := st.store.field?_relabel L id name.text
  have hmethod : (c.relabel L).findMethod (name.relabel L).text =
      (c.findMethod name.text).map (Closure.relabel L) := c.findMethod_relabel L name.text
  rw [property, property, hfield, hmethod]
  cases st.store.field? id name.text with
  | some v => rfl
  | none =>
    cases c.findMethod name.text with
    | none => rfl
    | some method => exact bound_relabel method (.instance id c) stack st

/-- A method is read through `super` at the distance of the old identity. -/
theorem superMethod_relabel (h : Relabels L cfg cfg') (id : Nat) (method : Lexeme)
    (stack : List Pending) (st : State) :
    superMethod cfg' (L.id id) (method.relabel L) (stack.map (Pending.relabel L) ++ below)
      (st.relabel L) =
      (superMethod cfg id method stack st).relabel L below := by
  have hget : ∀ (distance : Nat) (name : String),
      (st.relabel L).store.getAt (st.relabel L).frame distance name =
      (st.store.getAt st.frame distance name).map (Value.relabel L) :=
    fun distance name => st.store.getAt_relabel L st.frame distance name
  have hfault : ∀ {distance : Nat} {name : String} {f : Fault},
      st.store.getAt st.frame distance name = .error f →
      finish (.error (.fault f)) (stack.map (Pending.relabel L) ++ below) (st.relabel L) =
        (finish (.error (.fault f)) stack st).relabel L below := by
    intro distance name f hf
    rw [← finish_relabel, State.relabelResult, Stop.relabel, Store.relabel_of_getAt L hf]
  rw [superMethod, superMethod, h.distances]
  cases cfg.distances[id]? with
  | none => rfl
  | some distance =>
    dsimp only
    rw [hget]
    cases hsuper : st.store.getAt st.frame distance "super" with
    | error f => exact hfault hsuper
    | ok v =>
      cases v with
      | callable c =>
        cases c with
        | «class» c =>
          cases distance with
          | zero => rfl
          | succ inner =>
            simp only [Except.map, Value.relabel, Callable.relabel]
            rw [hget]
            cases hthis : st.store.getAt st.frame inner "this" with
            | error f => exact hfault hthis
            | ok u =>
              cases u with
              | «instance» i of =>
                simp only [Except.map, Value.relabel, Lexeme.text_relabel, Class.findMethod_relabel]
                cases c.findMethod method.text with
                | none => rfl
                | some found => exact bound_relabel found (.instance i of) stack st
              | _ => rfl
        | _ => rfl
      | _ => rfl

/-! ### Calls -/

/-- Parameters are bound to relabelled arguments. -/
theorem zip_relabel (params : List Lexeme) (arguments : List Value) (b : Bindings Value) :
    Bindings.relabel L ((params.zip arguments).foldl
        (fun (b : Bindings Value) (param, v) => b.insert param.text v) b) =
      ((params.map (Lexeme.relabel L)).zip (arguments.map (Value.relabel L))).foldl
        (fun (b : Bindings Value) (param, v) => b.insert param.text v) (b.relabel L) := by
  induction params generalizing arguments b with
  | nil => rfl
  | cons param rest ih =>
    cases arguments with
    | nil => rfl
    | cons v vs =>
      rw [List.map_cons, List.map_cons, List.zip_cons_cons, List.zip_cons_cons, List.foldl_cons,
        List.foldl_cons, ih, Bindings.relabel, Bindings.map_insert]
      rfl

theorem enterBody_relabel (closure : Closure) (arguments : List Value) (stack : List Pending)
    (st : State) :
    enterBody (closure.relabel L) (arguments.map (Value.relabel L))
      (stack.map (Pending.relabel L) ++ below)
        (st.relabel L) =
      (enterBody closure arguments stack st).relabel L below := by
  have hbody : (closure.relabel L).decl.body = Stmt.relabelAll L closure.decl.body :=
    Stmt.body_relabelDecl L closure.decl
  have hparams : (closure.relabel L).decl.params = closure.decl.params.map (Lexeme.relabel L) :=
    Stmt.params_relabelDecl L closure.decl
  rw [enterBody, enterBody, Machine.relabel, hbody, hparams, State.enter_relabel, zip_relabel]
  rfl

theorem bodyResult_relabel (closure : Closure) (v : Value) (st : State) :
    bodyResult (closure.relabel L) (v.relabel L) (st.relabel L).store =
      State.relabelResult L (bodyResult closure v st.store) := by
  rw [bodyResult, bodyResult]
  change (if closure.isInitializer then _ else _) = _
  split
  · exact st.mapError_getAt_relabel L closure.frame 0 "this"
  · rfl

theorem instantiate_relabel (c : Class) (arguments : List Value) (stack : List Pending)
    (st : State) :
    instantiate (c.relabel L) (arguments.map (Value.relabel L))
      (stack.map (Pending.relabel L) ++ below)
        (st.relabel L) =
      (instantiate c arguments stack st).relabel L below := by
  rw [instantiate, instantiate, State.newInstance_relabel, Class.findMethod_relabel]
  dsimp only
  cases c.findMethod initializerName with
  | none => rfl
  | some method =>
    have hbind := st.newInstance.2.bind_relabel L method (.instance st.newInstance.1 c)
    simp only [Value.relabel] at hbind
    simp only [Option.map_some, hbind]
    exact enterBody_relabel _ arguments (.construct (.instance st.newInstance.1 c) :: stack) _

@[simp]
theorem arity_relabel (c : Callable) : (c.relabel L).arity = c.arity := by
  cases c with
  | native f => rfl
  | function identity closure => exact closure.arity_relabel L
  | «class» c =>
    rw [Callable.relabel, Callable.arity, Callable.arity, Class.findMethod_relabel]
    cases c.findMethod initializerName with
    | none => rfl
    | some method => exact method.arity_relabel L

theorem enter_relabel (h : Relabels L cfg cfg') (c : Callable) (line : Nat) (arguments : List Value)
    (stack : List Pending) (st : State) :
    enter cfg' (c.relabel L) (L.line line) (arguments.map (Value.relabel L))
        (stack.map (Pending.relabel L) ++ below) (st.relabel L) =
      (enter cfg c line arguments stack st).relabel L below := by
  cases c with
  | native f =>
    rw [Callable.relabel, enter, enter, callNative, callNative, h.natives, h.natives']
    rfl
  | function identity closure => exact enterBody_relabel closure arguments stack st
  | «class» c => exact instantiate_relabel c arguments stack st

theorem call_relabel (h : Relabels L cfg cfg') (callee : Value) (line : Nat)
    (arguments : List Value) (stack : List Pending) (st : State) :
    call cfg' (callee.relabel L) (L.line line) (arguments.map (Value.relabel L))
        (stack.map (Pending.relabel L) ++ below) (st.relabel L) =
      (call cfg callee line arguments stack st).relabel L below := by
  cases callee with
  | callable c =>
    rw [Value.relabel, call, call, arity_relabel, List.length_map, h.maxDepth]
    split
    · rfl
    · change (if cfg.maxDepth ≤ st.depth then _ else _) = _
      split
      · rfl
      · exact enter_relabel h c line arguments (.leaveCall :: stack) st.startCall
  | _ => rfl

theorem nextArgument_relabel (h : Relabels L cfg cfg') (callee : Value) (line : Nat)
    (before : List Value) (rest : List Expr) (stack : List Pending) (st : State) :
    nextArgument cfg' (callee.relabel L) (L.line line) (before.map (Value.relabel L))
        (Expr.relabelAll L rest) (stack.map (Pending.relabel L) ++ below) (st.relabel L) =
      (nextArgument cfg callee line before rest stack st).relabel L below := by
  cases rest with
  | nil =>
    rw [Expr.relabelAll, nextArgument, nextArgument, ← List.map_reverse]
    exact call_relabel h callee line before.reverse stack st
  | cons e rest => rfl

/-! ### Expressions and statements -/

theorem eval_relabel (h : Relabels L cfg cfg') (e : Expr) (stack : List Pending) (st : State) :
    eval cfg' (stack.map (Pending.relabel L) ++ below) (st.relabel L) (e.relabel L) =
      (eval cfg stack st e).relabel L below := by
  cases e with
  | literal id value =>
    exact congrArg (fun v => Machine.mk (.deliver v) _ _) (Value.ofLiteral_relabel L value).symm
  | var id name =>
    rw [Expr.relabel, eval, eval, State.lookUp_relabel L st (h.distances id), finish_relabel]
  | this id keyword =>
    rw [Expr.relabel, eval, eval, State.lookUp_relabel L st (h.distances id), finish_relabel]
  | super id keyword method => exact superMethod_relabel h id method stack st
  | _ => rfl

theorem superclassOf_relabel (h : Relabels L cfg cfg') (st : State) (superclass : Option VarRef) :
    superclassOf cfg' (st.relabel L) (superclass.map (VarRef.relabel L)) =
      ((superclassOf cfg st superclass).map (Option.map (Class.relabel L))).mapError
        (Stop.relabel L) := by
  cases superclass with
  | none => rfl
  | some ref =>
    rw [Option.map_some, superclassOf, superclassOf, VarRef.relabel,
      State.lookUp_relabel L st (h.distances ref.id)]
    cases st.lookUp cfg.distances ref.id ref.name with
    | error stop => rfl
    | ok v =>
      cases v with
      | callable c => cases c <;> rfl
      | _ => rfl

theorem methodsIn_relabel (frame : Nat) (decls : List (FunctionDecl Stmt)) :
    methodsIn frame (Stmt.relabelDecls L decls) =
      (methodsIn frame decls).map (Closure.relabel L) := by
  have hgen : ∀ b : Bindings Closure,
      (decls.map (Stmt.relabelDecl L)).foldl (fun b decl =>
          b.insert decl.name.text ⟨decl, frame, decl.name.text = initializerName⟩)
            (b.map (Closure.relabel L)) =
        (decls.foldl (fun b decl =>
          b.insert decl.name.text ⟨decl, frame, decl.name.text = initializerName⟩) b).map
            (Closure.relabel L) := by
    induction decls with
    | nil => exact fun b => rfl
    | cons decl rest ih =>
      intro b
      rw [List.map_cons, List.foldl_cons, List.foldl_cons, ← ih, Bindings.map_insert,
        Stmt.text_relabelDecl]
      rfl
  rw [methodsIn, methodsIn, Stmt.relabelDecls_eq_map, ← hgen ∅, Bindings.map_empty]

theorem makeClass_relabel (name : Lexeme) (superclass : Option Class)
    (decls : List (FunctionDecl Stmt)) (st : State) :
    makeClass (name.relabel L) (superclass.map (Class.relabel L)) (Stmt.relabelDecls L decls)
        (st.relabel L) =
      (makeClass name superclass decls st).relabel L := by
  have hframe : methodFrame (superclass.map (Class.relabel L)) (st.relabel L) =
      ((methodFrame superclass st).1, (methodFrame superclass st).2.relabel L) := by
    cases superclass with
    | none => rfl
    | some c =>
      have hb : (∅ : Bindings Value).insert "super" (.callable (.class (c.relabel L))) =
          Bindings.relabel L ((∅ : Bindings Value).insert "super" (.callable (.class c))) := rfl
      rw [Option.map_some, methodFrame, methodFrame, hb]
      exact st.newFrame_relabel L _ st.frame
  rw [makeClass, makeClass, hframe]
  dsimp only
  rw [State.newIdentity_relabel, State.define_relabel, methodsIn_relabel, Value.relabel,
    Callable.relabel]
  cases superclass <;> rw [Class.relabel] <;> rfl

theorem makeFunction_relabel (decl : FunctionDecl Stmt) (st : State) :
    makeFunction (Stmt.relabelDecl L decl) (st.relabel L) = (makeFunction decl st).relabel L := by
  rw [makeFunction, makeFunction, State.newIdentity_relabel, State.define_relabel,
    Stmt.text_relabelDecl]
  rfl

/-- A relabelled statement is started in the same way. -/
theorem exec_relabel (h : Relabels L cfg cfg') (s : Stmt) (stack : List Pending) (st : State) :
    exec cfg' (stack.map (Pending.relabel L) ++ below) (st.relabel L) (s.relabel L) =
      (exec cfg stack st s).relabel L below := by
  cases s with
  | var name initial =>
    cases initial with
    | some e => rfl
    | none => exact congrArg (Machine.mk _ _) (st.define_relabel L name.text .nil).symm
  | block body => exact congrArg (Machine.mk _ _) (st.enter_relabel L ∅ st.frame).symm
  | function decl => exact congrArg (Machine.mk _ _) (makeFunction_relabel decl st)
  | ret keyword value => cases value <;> rfl
  | classDecl name superclass methods =>
    have hdefine : (st.relabel L).define (name.relabel L).text .nil =
        (st.define name.text .nil).relabel L :=
      (st.define_relabel L name.text .nil).symm
    rw [Stmt.relabel, exec, exec, hdefine, superclassOf_relabel h]
    cases superclassOf cfg (st.define name.text .nil) superclass with
    | ok c => exact congrArg (Machine.mk _ _) (makeClass_relabel name c methods _)
    | error stop => exact finish_relabel (.error stop) stack _
  | _ => rfl

theorem execAll_relabel (statements : List Stmt) (stack : List Pending) (st : State) :
    execAll (stack.map (Pending.relabel L) ++ below) (st.relabel L) (Stmt.relabelAll L statements) =
      (execAll stack st statements).relabel L below := by
  cases statements <;> rfl

theorem print_relabel (v : Value) (stack : List Pending) (st : State) :
    print (v.relabel L) (stack.map (Pending.relabel L) ++ below) (st.relabel L) =
      (print v stack st).relabel L below := by
  rw [print, print, Value.display_relabel, State.write_relabel]
  cases st.write (v.display ++ "\n") with
  | mk result st => cases result <;> rfl

/-- A relabelled value is handed on to relabelled work in the same way. -/
theorem resume_relabel (h : Relabels L cfg cfg') (v : Value) (stack : List Pending) (st : State)
    (p : Pending) :
    resume cfg' (v.relabel L) (stack.map (Pending.relabel L) ++ below) (st.relabel L)
      (p.relabel L) =
      (resume cfg v stack st p).relabel L below := by
  cases p with
  | unary op line =>
    rw [Pending.relabel, resume, resume, UnaryOp.apply_relabel]
    cases op.apply v <;> rfl
  | binaryRight op line left =>
    rw [Pending.relabel, resume, resume, BinaryOp.apply_relabel]
    cases op.apply left v <;> rfl
  | logical op right =>
    rw [Pending.relabel, resume, resume, LogicalOp.decides_relabel]
    split <;> rfl
  | assign id name =>
    rw [Pending.relabel, resume, resume, State.assignee_relabel L st (h.distances id)]
    cases st.assignee cfg.distances id name with
    | ok f => exact congrArg (Machine.mk _ _) (st.defineIn_relabel L f name.text v).symm
    | error stop => exact finish_relabel (.error stop) stack st
  | callee line arguments => exact nextArgument_relabel h v line [] arguments stack st
  | argument callee line before rest =>
    exact nextArgument_relabel h callee line (v :: before) rest stack st
  | get name =>
    cases v with
    | «instance» id c => exact property_relabel id c name stack st
    | _ => rfl
  | setObject name value => cases v <;> rfl
  | setValue id name => exact congrArg (Machine.mk _ _) (st.setField_relabel L id name.text v).symm
  | print => exact print_relabel v stack st
  | define name => exact congrArg (Machine.mk _ _) (st.define_relabel L name.text v).symm
  | branch yes no =>
    cases no <;> rw [Pending.relabel, Stmt.relabelOption, resume, resume,
      Value.isTruthy_relabel] <;>
      split <;> rfl
  | loopTest condition body =>
    rw [Pending.relabel, resume, resume, Value.isTruthy_relabel]
    split <;> rfl
  | leaveBody closure frame =>
    have hresult := bodyResult_relabel (L := L) closure .nil st
    rw [Value.relabel] at hresult
    rw [Pending.relabel, resume, resume, hresult]
    exact finish_relabel _ stack (st.goTo frame)
  | _ => rfl

theorem unwindOver_relabel (a : Abrupt) (stack : List Pending) (st : State) (p : Pending) :
    unwindOver (a.relabel L) (stack.map (Pending.relabel L) ++ below) (st.relabel L) (p.relabel L) =
      (unwindOver a stack st p).relabel L below := by
  cases p with
  | leaveBody closure frame =>
    cases a with
    | fails e => rfl
    | returns v =>
      rw [Abrupt.relabel, Pending.relabel, unwindOver, unwindOver, bodyResult_relabel]
      exact finish_relabel _ stack (st.goTo frame)
  | _ => rfl

/-! ### Runs -/

/-- The next step of the machine does not reach below its stack. -/
def Inside (m : Machine) : Prop :=
  m.stack = [] → (∀ v, m.control ≠ .deliver v) ∧ ∀ a, m.control ≠ .unwind a

/-- Only a result is handed on to what is below. -/
theorem inside_or (m : Machine) :
    m.Inside ∨ (∃ v st, m = ⟨.deliver v, [], st⟩) ∨ ∃ a st, m = ⟨.unwind a, [], st⟩ := by
  by_cases hm : m.Inside
  · exact .inl hm
  · obtain ⟨control, stack, st⟩ := m
    simp only [Inside, Classical.not_imp, not_and_or, not_forall, not_not] at hm
    obtain ⟨rfl, ⟨v, rfl⟩ | ⟨a, rfl⟩⟩ := hm
    · exact .inr (.inl ⟨v, st, rfl⟩)
    · exact .inr (.inr ⟨a, st, rfl⟩)

/-- One step of a relabelled machine is the relabelled step, unless the machine hands its result on
    to what is pending below. -/
theorem Relabels.step_of_inside (h : Relabels L cfg cfg') {m : Machine} (hm : m.Inside) :
    Machine.step cfg' (m.relabel L below) = (Machine.step cfg m).relabel L below := by
  obtain ⟨control, stack, st⟩ := m
  cases control with
  | eval e => exact eval_relabel h e stack st
  | exec s => exact exec_relabel h s stack st
  | execAll statements => exact execAll_relabel statements stack st
  | deliver v =>
    cases stack with
    | nil => exact absurd rfl ((hm rfl).1 v)
    | cons p stack => exact resume_relabel h v stack st p
  | unwind a =>
    cases stack with
    | nil => exact absurd rfl ((hm rfl).2 a)
    | cons p stack => exact unwindOver_relabel a stack st p
  | done o => rfl

/-- One step of a relabelled machine is the relabelled step. -/
theorem Relabels.step (h : Relabels L cfg cfg') (m : Machine) :
    Machine.step cfg' (m.relabel L []) = (Machine.step cfg m).relabel L [] := by
  rcases m.inside_or with hm | ⟨v, st, rfl⟩ | ⟨a, st, rfl⟩
  · exact h.step_of_inside hm
  · rfl
  · cases a <;> rfl

theorem outcome?_relabel (m : Machine) :
    (m.relabel L below).outcome? = m.outcome?.map (Outcome.relabel L) := by
  obtain ⟨control, stack, st⟩ := m
  cases control <;> rfl

/-- A relabelled machine runs as the machine that it was made from. -/
theorem Relabels.run (h : Relabels L cfg cfg') (fuel : Nat) (m : Machine) :
    Machine.run cfg' fuel (m.relabel L []) = (Machine.run cfg fuel m).relabel L [] := by
  induction fuel generalizing m with
  | zero => rfl
  | succ fuel ih => rw [run_succ, run_succ, h.step, ih]

end Machine

end Lox
