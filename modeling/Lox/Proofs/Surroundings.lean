import Mathlib
import Lox.Proofs.RelabelledRuns
import Lox.Proofs.Safety

/-!
# Running in other surroundings

A machine works at the top of its stack. What is pending further down comes into play only when a
result is handed on to it, and the sink only when something is printed. So a machine takes the same
steps with other work pending below its own, up to the one that hands its result on.

* `Sink.Takes`, `Sink.Open`: a sink that takes a text, and one that takes everything;
* `Machine.placed`: a machine with other work below and with another sink;
* `Machine.step_beside`: a step that neither prints nor hands a result on is the same in any
  surroundings;
* `Machine.open_run`: a sink that takes everything goes on doing so;
* `Machine.run_onto`: a run with other work below, up to where the result is handed on.
-/

namespace Lox

/-! ### Sinks -/

namespace Sink

/-- A sink that takes a text, after which it can be made sure that all is written. -/
structure Takes (sink : Sink) (text : String) : Prop where
  write : (sink.write text).1 = none
  flush : (sink.write text).2.flush = none

/-- A sink that takes everything, now and later. -/
structure Open (sink : Sink) : Prop where
  write : ∀ texts written bytes, sink.device.write texts written bytes = none
  flush : ∀ texts written, sink.device.flush texts written = none

/-- The sink after a text with the given bytes was taken. -/
def extended (sink : Sink) (bytes : ByteArray) : Sink :=
  { sink with written := sink.written ++ bytes, texts := sink.texts + 1 }

variable {sink : Sink} {text : String}

/-- A text that the device takes is written. -/
theorem write_of_device (h : sink.device.write sink.texts sink.written text.toUTF8 = none) :
    sink.write text = (none, sink.extended text.toUTF8) := by
  rw [write, h]
  rfl

/-- What is taken is all of the text. -/
theorem Takes.write_eq (h : sink.Takes text) :
    sink.write text = (none, sink.extended text.toUTF8) := by
  refine write_of_device ?_
  have hwrite := h.write
  rw [Sink.write] at hwrite
  cases hd : sink.device.write sink.texts sink.written text.toUTF8 with
  | none => rfl
  | some answer =>
    rw [hd] at hwrite
    cases hwrite

theorem write_of_open (h : sink.Open) (text : String) :
    sink.write text = (none, sink.extended text.toUTF8) :=
  write_of_device (h.write _ _ _)

theorem open_unlimited : unlimited.Open := ⟨fun _ _ _ => rfl, fun _ _ => rfl⟩

theorem Open.takes (h : sink.Open) (text : String) : sink.Takes text := by
  refine ⟨?_, ?_⟩
  · rw [write_of_open h]
  · rw [write_of_open h]
    exact h.flush _ _

end Sink

namespace Machine

/-- The same machine with other work pending below its own, and with another sink. -/
def placed (below : List Pending) (sink : Sink) (m : Machine) : Machine :=
  ⟨m.control, m.stack ++ below, { m.state with sink }⟩

/-- `m'` is `m` with other work pending below and with another sink, and if they are done, it is by
    a fault. -/
structure Beside (below : List Pending) (sink : Sink) (m m' : Machine) : Prop where
  eq : m' = m.placed below sink
  fault : ∀ o, m.outcome? = some o → ∃ f, o = .fault f

variable {cfg : Config} {below : List Pending} {sink : Sink} {m : Machine} {o : Outcome}

theorem Beside.of_going (h : m.outcome? = none) : Beside below sink m (m.placed below sink) :=
  ⟨rfl, fun o ho => by cases h.symm.trans ho⟩

/-! ### Parts of a step -/

theorem finish_beside (result : Except Stop Value) (stack : List Pending) (st : State) :
    Beside below sink (finish result stack st)
      (finish result (stack ++ below) { st with sink }) := by
  cases result with
  | ok v => exact .of_going rfl
  | error stop =>
    cases stop with
    | error e => exact .of_going rfl
    | fault f => exact ⟨rfl, fun o ho => ⟨f, (Option.some.inj ho).symm⟩⟩

theorem property_beside (id : Nat) (c : Class) (name : Lexeme) (stack : List Pending) (st : State) :
    Beside below sink (property id c name stack st)
      (property id c name (stack ++ below) { st with sink }) := by
  rw [property, property]
  dsimp only
  cases st.store.field? id name.text with
  | some v => exact .of_going rfl
  | none => cases c.findMethod name.text <;> exact .of_going rfl

theorem superMethod_beside (id : Nat) (method : Lexeme) (stack : List Pending) (st : State) :
    Beside below sink (superMethod cfg id method stack st)
      (superMethod cfg id method (stack ++ below) { st with sink }) := by
  rw [superMethod, superMethod]
  cases cfg.distances[id]? with
  | none => exact finish_beside _ _ _
  | some distance =>
    dsimp only
    cases st.store.getAt st.frame distance "super" with
    | error f => exact finish_beside _ _ _
    | ok v =>
      cases v with
      | callable c =>
        cases c with
        | «class» c =>
          cases distance with
          | zero => exact finish_beside _ _ _
          | succ inner =>
            dsimp only
            cases st.store.getAt st.frame inner "this" with
            | error f => exact finish_beside _ _ _
            | ok u =>
              cases u with
              | «instance» i of =>
                dsimp only
                cases c.findMethod method.text <;> exact .of_going rfl
              | _ => exact finish_beside _ _ _
        | _ => exact finish_beside _ _ _
      | _ => exact finish_beside _ _ _

theorem enter_beside (c : Callable) (line : Nat) (arguments : List Value) (stack : List Pending)
    (st : State) : Beside below sink (enter cfg c line arguments stack st)
      (enter cfg c line arguments (stack ++ below) { st with sink }) := by
  cases c with
  | native f =>
    obtain ⟨store, frame, depth, sink₀, clock⟩ := st
    simp only [enter, callNative, State.readClock]
    cases cfg.natives f clock.read.1 arguments <;> exact .of_going rfl
  | function identity closure => exact .of_going rfl
  | «class» c =>
    simp only [enter, instantiate]
    cases c.findMethod initializerName <;> exact .of_going rfl

theorem call_beside (callee : Value) (line : Nat) (arguments : List Value) (stack : List Pending)
    (st : State) : Beside below sink (call cfg callee line arguments stack st)
      (call cfg callee line arguments (stack ++ below) { st with sink }) := by
  cases callee with
  | callable c =>
    rw [call, call]
    split
    · exact .of_going rfl
    · dsimp only
      split
      · exact .of_going rfl
      · exact enter_beside c line arguments (.leaveCall :: stack) st.startCall
  | _ => exact .of_going rfl

theorem nextArgument_beside (callee : Value) (line : Nat) (before : List Value) (rest : List Expr)
    (stack : List Pending) (st : State) :
    Beside below sink (nextArgument cfg callee line before rest stack st)
      (nextArgument cfg callee line before rest (stack ++ below) { st with sink }) := by
  cases rest with
  | nil => exact call_beside callee line before.reverse stack st
  | cons e rest => exact .of_going rfl

theorem eval_beside (e : Expr) (stack : List Pending) (st : State) :
    Beside below sink (eval cfg stack st e) (eval cfg (stack ++ below) { st with sink } e) := by
  cases e with
  | var id name => exact finish_beside _ _ _
  | this id keyword => exact finish_beside _ _ _
  | super id keyword method => exact superMethod_beside id method stack st
  | _ => exact .of_going rfl

theorem exec_beside (s : Stmt) (stack : List Pending) (st : State) :
    Beside below sink (exec cfg stack st s) (exec cfg (stack ++ below) { st with sink } s) := by
  cases s with
  | var name value => cases value <;> exact .of_going rfl
  | ret keyword value => cases value <;> exact .of_going rfl
  | classDecl name superclass decls =>
    have hsuper : superclassOf cfg (State.define { st with sink } name.text .nil) superclass =
        superclassOf cfg (st.define name.text .nil) superclass := by
      cases superclass <;> rfl
    rw [exec, exec, hsuper]
    cases superclassOf cfg (st.define name.text .nil) superclass with
    | ok c => cases c <;> exact .of_going rfl
    | error stop => exact finish_beside (.error stop) stack (st.define name.text .nil)
  | _ => exact .of_going rfl

theorem execAll_beside (statements : List Stmt) (stack : List Pending) (st : State) :
    Beside below sink (execAll stack st statements)
      (execAll (stack ++ below) { st with sink } statements) := by
  cases statements <;> exact .of_going rfl

theorem resume_beside (v : Value) (stack : List Pending) (st : State) {p : Pending}
    (hp : p ≠ .print) :
    Beside below sink (resume cfg v stack st p)
      (resume cfg v (stack ++ below) { st with sink } p) := by
  cases p with
  | print => exact absurd rfl hp
  | unary op line =>
    rw [resume, resume]
    cases op.apply v <;> exact .of_going rfl
  | binaryRight op line left =>
    rw [resume, resume]
    cases op.apply left v <;> exact .of_going rfl
  | logical op right =>
    rw [resume, resume]
    split <;> exact .of_going rfl
  | assign id name =>
    have hassignee : State.assignee { st with sink } cfg.distances id name =
        st.assignee cfg.distances id name := rfl
    rw [resume, resume, hassignee]
    cases st.assignee cfg.distances id name with
    | ok f => exact .of_going rfl
    | error stop => exact finish_beside _ _ _
  | callee line arguments => exact nextArgument_beside v line [] arguments stack st
  | argument callee line before rest =>
    exact nextArgument_beside callee line (v :: before) rest stack st
  | get name =>
    cases v with
    | «instance» id c => exact property_beside id c name stack st
    | _ => exact .of_going rfl
  | setObject name value => cases v <;> exact .of_going rfl
  | branch yes no =>
    cases no <;>
    · rw [resume, resume]
      split <;> exact .of_going rfl
  | loopTest condition body =>
    rw [resume, resume]
    split <;> exact .of_going rfl
  | leaveBody closure frame => exact finish_beside _ stack (st.goTo frame)
  | _ => exact .of_going rfl

theorem unwindOver_beside (a : Abrupt) (stack : List Pending) (st : State) (p : Pending) :
    Beside below sink (unwindOver a stack st p)
      (unwindOver a (stack ++ below) { st with sink } p) := by
  cases p with
  | leaveBody closure frame =>
    cases a with
    | fails e => exact .of_going rfl
    | returns v => exact finish_beside _ stack (st.goTo frame)
  | _ => exact .of_going rfl

/-! ### Steps -/

/-- The next step prints a value. -/
def Prints (m : Machine) : Prop := ∃ v stack st, m = ⟨.deliver v, .print :: stack, st⟩

/-- A step that neither prints nor hands a result on to what is below is the same in any
    surroundings. -/
theorem step_beside (hgoing : m.outcome? = none) (hm : m.Inside) (hp : ¬m.Prints) :
    Beside below sink (step cfg m) (step cfg (m.placed below sink)) := by
  obtain ⟨control, stack, st⟩ := m
  cases control with
  | eval e => exact eval_beside e stack st
  | exec s => exact exec_beside s stack st
  | execAll statements => exact execAll_beside statements stack st
  | deliver v =>
    cases stack with
    | nil => exact absurd rfl ((hm rfl).1 v)
    | cons p stack =>
      refine resume_beside v stack st fun hprint => hp ?_
      exact ⟨v, stack, st, by rw [hprint]⟩
  | unwind a =>
    cases stack with
    | nil => exact absurd rfl ((hm rfl).2 a)
    | cons p stack => exact unwindOver_beside a stack st p
  | done o => cases hgoing

/-- A machine that is done stays as it is. -/
theorem step_of_outcome (h : m.outcome? = some o) : step cfg m = m := by
  obtain ⟨control, stack, st⟩ := m
  cases control with
  | done o => rfl
  | _ => cases h

theorem run_of_outcome (h : m.outcome? = some o) (fuel : Nat) : run cfg fuel m = m := by
  induction fuel with
  | zero => rfl
  | succ fuel ih => rw [run_succ, step_of_outcome h, ih]

/-- A machine that comes to its end goes no further. -/
theorem run_eq_of_le {stack : List Pending} {st : State} {n fuel : Nat}
    (hrun : run cfg n m = ⟨.done o, stack, st⟩) (hle : n ≤ fuel) :
    run cfg fuel m = ⟨.done o, stack, st⟩ := by
  obtain ⟨k, rfl⟩ := Nat.exists_eq_add_of_le hle
  rw [run_add, hrun, run_done]

theorem placed_self (m : Machine) : m.placed [] m.state.sink = m := by
  rw [placed, List.append_nil]

/-- A step that does not print leaves the sink as it is. -/
theorem sink_step_of_not_prints (hp : ¬m.Prints) : (step cfg m).state.sink = m.state.sink := by
  cases ho : m.outcome? with
  | some o => rw [step_of_outcome ho]
  | none =>
    rcases m.inside_or with hm | ⟨v, st, rfl⟩ | ⟨a, st, rfl⟩
    · have hstep : Beside [] m.state.sink (step cfg m) (step cfg (m.placed [] m.state.sink)) :=
        step_beside ho hm hp
      rw [placed_self] at hstep
      exact congrArg (fun m => m.state.sink) hstep.eq
    · rfl
    · rfl

/-- A sink that takes everything goes on doing so. -/
theorem open_step (h : m.state.sink.Open) : (step cfg m).state.sink.Open := by
  by_cases hp : m.Prints
  · obtain ⟨v, stack, st, rfl⟩ := hp
    change (print v stack st).state.sink.Open
    rw [print, State.write, Sink.write_of_open h]
    exact ⟨h.write, h.flush⟩
  · rwa [sink_step_of_not_prints hp]

theorem open_run (h : m.state.sink.Open) (fuel : Nat) : (run cfg fuel m).state.sink.Open :=
  run_invariant (P := fun m => m.state.sink.Open) (fun _ => open_step) h fuel

/-! ### Runs with other work below -/

/-- The same machine with other work pending below its own. -/
def onto (below : List Pending) (m : Machine) : Machine := ⟨m.control, m.stack ++ below, m.state⟩

theorem step_onto (hm : m.Inside) : step cfg (m.onto below) = (step cfg m).onto below := by
  cases ho : m.outcome? with
  | some o =>
    have ho' : (m.onto below).outcome? = some o := ho
    rw [step_of_outcome ho, step_of_outcome ho']
  | none =>
    by_cases hp : m.Prints
    · obtain ⟨v, stack, st, rfl⟩ := hp
      change print v (stack ++ below) st = (print v stack st).onto below
      rw [print, print]
      rcases st.write (v.display ++ "\n") with ⟨- | e, st'⟩ <;> rfl
    · have hstep : Beside below m.state.sink (step cfg m)
          (step cfg (m.placed below m.state.sink)) :=
        step_beside ho hm hp
      have hsink : (step cfg m).state.sink = m.state.sink := sink_step_of_not_prints hp
      refine hstep.eq.trans ?_
      rw [placed, ← hsink]
      rfl

/-- A machine that does not hand its result on to what is below is done only by a fault. -/
theorem fault_of_step (hgoing : m.outcome? = none) (hm : m.Inside)
    (ho : (step cfg m).outcome? = some o) : ∃ f, o = .fault f := by
  by_cases hp : m.Prints
  · obtain ⟨v, stack, st, rfl⟩ := hp
    rcases print_cases v stack st with hprint | ⟨e, hprint⟩
    · cases (congrArg outcome? hprint).symm.trans ho
    · cases (congrArg outcome? hprint).symm.trans ho
  · have hstep : Beside [] m.state.sink (step cfg m) (step cfg (m.placed [] m.state.sink)) :=
      step_beside hgoing hm hp
    exact hstep.fault o ho

/-- A run with other work below takes the steps of the run without it, unless it comes to where a
    result is handed on, and the run without it ends. -/
theorem run_onto (cfg : Config) (below : List Pending) (fuel : Nat) (hgoing : m.outcome? = none) :
    (run cfg fuel (m.onto below) = (run cfg fuel m).onto below ∧
        ∀ o, (run cfg fuel m).outcome? = some o → ∃ f, o = .fault f) ∨
      (∃ n < fuel, ∃ v st, run cfg n (m.onto below) = ⟨.deliver v, below, st⟩ ∧
        run cfg fuel m = ⟨.done (.value v), [], st⟩) ∨
      ∃ n < fuel, ∃ a st, run cfg n (m.onto below) = ⟨.unwind a, below, st⟩ ∧
        run cfg fuel m = ⟨.done a.outcome, [], st⟩ := by
  induction fuel generalizing m with
  | zero => exact .inl ⟨rfl, fun o ho => by cases hgoing.symm.trans ho⟩
  | succ fuel ih =>
    rw [run_succ, run_succ]
    rcases m.inside_or with hm | ⟨v, st, rfl⟩ | ⟨a, st, rfl⟩
    · rw [step_onto hm]
      cases ho : (step cfg m).outcome? with
      | some o =>
        have ho' : ((step cfg m).onto below).outcome? = some o := ho
        rw [run_of_outcome ho, run_of_outcome ho']
        refine .inl ⟨rfl, fun o' ho' => ?_⟩
        exact fault_of_step hgoing hm ho'
      | none =>
        have hnext : ∀ n, run cfg (n + 1) (m.onto below) = run cfg n ((step cfg m).onto below) := by
          intro n
          rw [run_succ, step_onto hm]
        rcases ih ho with hsame | ⟨n, hn, v, st, hrun, hdone⟩ | ⟨n, hn, a, st, hrun, hdone⟩
        · exact .inl hsame
        · exact .inr (.inl ⟨n + 1, Nat.succ_lt_succ hn, v, st, (hnext n).trans hrun, hdone⟩)
        · exact .inr (.inr ⟨n + 1, Nat.succ_lt_succ hn, a, st, (hnext n).trans hrun, hdone⟩)
    · exact .inr (.inl ⟨0, Nat.succ_pos fuel, v, st, rfl, run_done ..⟩)
    · exact .inr (.inr ⟨0, Nat.succ_pos fuel, a, st, rfl, run_done ..⟩)

end Machine

end Lox
