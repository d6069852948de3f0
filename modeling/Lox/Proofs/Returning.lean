import Mathlib
import Lox.Proofs.Sessions

/-!
# What a run puts back

A run goes into frames and starts calls, and whatever it goes into has an entry on the stack that
leads back. So the frame that a run comes from and the number of calls that were active before it
can be read off the stack at each moment (`Stack.home`, `Stack.calls`), and no step changes them
(`Machine.Balanced.step`): neither when a value is handed on, nor when a `return` or an error passes
entries by. A machine that is done has an empty stack, and so is back where it began.

* `Machine.Balanced.run`: a run leads back to its frame and its depth;
* `Session.settled_of_completed`: between sources, a session is in the global frame and in no call,
  and a source that is rejected leaves nothing behind.
-/

namespace Lox

/-- The frame in which a run goes on after what is pending in the frame `f`. -/
def Pending.after (f : Nat) : Pending → Nat
  | .leaveBlock g => g
  | .leaveBody _ g => g
  | _ => f

namespace Stack

/-- The frame to which a stack leads back, from the frame `f`. -/
def home (f : Nat) : List Pending → Nat
  | [] => f
  | .leaveBlock frame :: rest => home frame rest
  | .leaveBody _ frame :: rest => home frame rest
  | _ :: rest => home f rest

/-- The number of calls that are over once a stack is empty. -/
def calls : List Pending → Nat
  | [] => 0
  | .leaveCall :: rest => calls rest + 1
  | _ :: rest => calls rest

/-- A stack leads back to the frame `f`, where `d` calls are active. -/
structure Returns (f d : Nat) (stack : List Pending) (st : State) : Prop where
  frame : home st.frame stack = f
  depth : st.depth = d + calls stack

variable {f d : Nat} {stack : List Pending} {st st' : State}

/-- What lies in the store does not matter, nor do output and time. -/
theorem Returns.congr (h : Returns f d stack st) (hf : st'.frame = st.frame)
    (hd : st'.depth = st.depth) : Returns f d stack st' :=
  ⟨by rw [hf, h.frame], by rw [hd, h.depth]⟩

/-- The run goes into another frame and comes back over a new entry. -/
theorem Returns.enterBlock (h : Returns f d stack st) (bindings : Bindings Value) :
    Returns f d (.leaveBlock st.frame :: stack) (st.enter bindings st.frame) :=
  ⟨h.frame, h.depth⟩

/-- A call starts and is over with a new entry. -/
theorem Returns.startCall (h : Returns f d stack st) :
    Returns f d (.leaveCall :: stack) st.startCall :=
  ⟨h.frame, congrArg (· + 1) h.depth⟩

theorem Returns.endCall (h : Returns f d (.leaveCall :: stack) st) : Returns f d stack st.endCall :=
  ⟨h.frame, congrArg (· - 1) h.depth⟩

end Stack

namespace Machine

open Stack (Returns)

/-- A machine that leads back to the frame `f`, where `d` calls are active, unless it ends with a
    fault. -/
def Balanced (f d : Nat) : Machine → Prop
  | ⟨.done (.fault _), _, _⟩ => True
  | ⟨.done _, stack, st⟩ => stack = [] ∧ Returns f d [] st
  | ⟨_, stack, st⟩ => Returns f d stack st

variable {f d : Nat} {stack : List Pending} {st : State}

/-! ### Results -/

theorem balanced_deliver (h : Returns f d stack st) (v : Value) :
    (deliver v stack st).Balanced f d := h

theorem balanced_finish (h : Returns f d stack st) (result : Except Stop Value) :
    (finish result stack st).Balanced f d := by
  match result with
  | .ok v => exact h
  | .error (.error e) => exact h
  | .error (.fault fault) => trivial

theorem balanced_property (h : Returns f d stack st) (id : Nat) (c : Class) (name : Lexeme) :
    (property id c name stack st).Balanced f d := by
  rw [property]
  split
  · exact h
  split
  · exact h.congr rfl rfl
  · exact h

theorem balanced_superMethod (h : Returns f d stack st) (cfg : Config) (id : Nat)
    (method : Lexeme) : (superMethod cfg id method stack st).Balanced f d := by
  rw [superMethod]
  split
  · trivial
  split
  · trivial
  · split
    · trivial
    split
    · trivial
    · split
      · exact h.congr rfl rfl
      · exact h
    · trivial
  · trivial

/-! ### Calls -/

/-- A body is left for the frame of its caller. -/
theorem balanced_enterBody (h : Returns f d stack st) (closure : Closure) (arguments : List Value) :
    (enterBody closure arguments stack st).Balanced f d :=
  ⟨h.frame, h.depth⟩

theorem balanced_enter (h : Returns f d stack st) (cfg : Config) (c : Callable) (line : Nat)
    (arguments : List Value) : (enter cfg c line arguments stack st).Balanced f d := by
  cases c with
  | native g =>
    rw [enter, callNative]
    dsimp only
    split
    · exact h.congr rfl rfl
    · exact h.congr rfl rfl
  | function identity closure => exact balanced_enterBody h closure arguments
  | «class» c =>
    rw [enter, instantiate]
    dsimp only
    split
    · exact h.congr rfl rfl
    · next method _ =>
      have h' : Returns f d (.construct (.instance st.newInstance.1 c) :: stack)
          (st.newInstance.2.bind method (.instance st.newInstance.1 c)).2 := ⟨h.frame, h.depth⟩
      exact balanced_enterBody h' _ arguments

theorem balanced_call (h : Returns f d stack st) (cfg : Config) (callee : Value) (line : Nat)
    (arguments : List Value) : (call cfg callee line arguments stack st).Balanced f d := by
  cases callee with
  | callable c =>
    rw [call]
    split
    · exact h
    split
    · exact h
    · exact balanced_enter h.startCall cfg c line arguments
  | _ => exact h

theorem balanced_nextArgument (h : Returns f d stack st) (cfg : Config)
    (callee : Value) (line : Nat) (before : List Value) (rest : List Expr) :
    (nextArgument cfg callee line before rest stack st).Balanced f d := by
  cases rest with
  | nil => exact balanced_call h cfg callee line before.reverse
  | cons e rest => exact ⟨h.frame, h.depth⟩

/-! ### Steps -/

theorem balanced_eval (h : Returns f d stack st) (cfg : Config) (e : Expr) :
    (eval cfg stack st e).Balanced f d := by
  cases e with
  | literal id value => exact h
  | grouping id inner => exact h
  | var id name => exact balanced_finish h _
  | this id keyword => exact balanced_finish h _
  | super id keyword method => exact balanced_superMethod h cfg id method
  | _ => exact ⟨h.frame, h.depth⟩

theorem balanced_exec (h : Returns f d stack st) (cfg : Config) (stmt : Stmt) :
    (exec cfg stack st stmt).Balanced f d := by
  cases stmt with
  | expression e => exact h
  | var name initial => cases initial <;> exact ⟨h.frame, h.depth⟩
  | block body => exact h.enterBlock ∅
  | function decl => exact h.congr rfl rfl
  | ret keyword value => cases value <;> exact ⟨h.frame, h.depth⟩
  | classDecl name superclass methods =>
    rw [exec]
    split
    · next c _ =>
      -- The frame that binds `super` is made, but the run does not go into it.
      refine balanced_deliver (h.congr ?_ ?_) .nil <;> cases c <;> rfl
    · have h' : Returns f d stack (st.define name.text .nil) := h.congr rfl rfl
      exact balanced_finish h' _
  | _ => exact ⟨h.frame, h.depth⟩

theorem balanced_execAll (h : Returns f d stack st) (stmts : List Stmt) :
    (execAll stack st stmts).Balanced f d := by
  cases stmts <;> exact ⟨h.frame, h.depth⟩

theorem balanced_resume {pending : Pending} (h : Returns f d (pending :: stack) st) (cfg : Config)
    (v : Value) : (resume cfg v stack st pending).Balanced f d := by
  cases pending with
  | unary op line =>
    rw [resume]
    split <;> exact ⟨h.frame, h.depth⟩
  | binaryRight op line left =>
    rw [resume]
    split <;> exact ⟨h.frame, h.depth⟩
  | logical op right =>
    rw [resume]
    split <;> exact ⟨h.frame, h.depth⟩
  | assign id name =>
    have h' : Returns f d stack st := ⟨h.frame, h.depth⟩
    rw [resume]
    split
    · exact h'.congr rfl rfl
    · exact balanced_finish h' _
  | callee line arguments =>
    have h' : Returns f d stack st := ⟨h.frame, h.depth⟩
    exact balanced_nextArgument h' cfg v line [] arguments
  | argument callee line before rest =>
    have h' : Returns f d stack st := ⟨h.frame, h.depth⟩
    exact balanced_nextArgument h' cfg callee line (v :: before) rest
  | get name =>
    have h' : Returns f d stack st := ⟨h.frame, h.depth⟩
    cases v with
    | «instance» id c => exact balanced_property h' id c name
    | _ => exact h'
  | setObject name value => cases v <;> exact ⟨h.frame, h.depth⟩
  | print =>
    rw [resume]
    rcases print_cases v stack st with hp | ⟨e, hp⟩
    · rw [hp]
      exact ⟨h.frame, h.depth⟩
    · rw [hp]
      exact ⟨h.frame, h.depth⟩
  | branch yes no =>
    cases no with
    | none =>
      rw [resume]
      split <;> exact ⟨h.frame, h.depth⟩
    | some no =>
      rw [resume]
      split <;> exact ⟨h.frame, h.depth⟩
  | loopTest condition body =>
    rw [resume]
    split <;> exact ⟨h.frame, h.depth⟩
  | leaveBody closure frame =>
    have h' : Returns f d stack (st.goTo frame) := ⟨h.frame, h.depth⟩
    exact balanced_finish h' _
  | leaveCall => exact h.endCall
  | _ => exact ⟨h.frame, h.depth⟩

/-- Entries are passed by, but what they put back is put back. -/
theorem balanced_unwindOver {pending : Pending} (h : Returns f d (pending :: stack) st)
    (a : Abrupt) : (unwindOver a stack st pending).Balanced f d := by
  cases pending with
  | leaveBody closure frame =>
    have h' : Returns f d stack (st.goTo frame) := ⟨h.frame, h.depth⟩
    cases a with
    | returns v => exact balanced_finish h' _
    | fails e => exact h'
  | leaveCall => exact h.endCall
  | _ => exact ⟨h.frame, h.depth⟩

variable {m : Machine}

theorem Balanced.step (h : m.Balanced f d) (cfg : Config) : (Machine.step cfg m).Balanced f d := by
  obtain ⟨control, stack, st⟩ := m
  cases control with
  | eval e => exact balanced_eval h cfg e
  | exec stmt => exact balanced_exec h cfg stmt
  | execAll stmts => exact balanced_execAll h stmts
  | deliver v =>
    cases stack with
    | nil => exact ⟨rfl, h⟩
    | cons pending stack => exact balanced_resume h cfg v
  | unwind a =>
    cases stack with
    | nil => cases a <;> exact ⟨rfl, h⟩
    | cons pending stack => exact balanced_unwindOver h a
  | done o => exact h

/-- A run leads back to where it began, at each moment. -/
theorem Balanced.run (h : m.Balanced f d) (cfg : Config) (fuel : Nat) :
    (Machine.run cfg fuel m).Balanced f d :=
  run_invariant (fun _ h => h.step cfg) h fuel

/-- A machine that has ended is where it began. -/
theorem Balanced.outcome (h : m.Balanced f d) {o : Outcome} (ho : m.outcome? = some o)
    (hf : ∀ fault, o ≠ .fault fault) : m.state.frame = f ∧ m.state.depth = d := by
  obtain ⟨control, stack, st⟩ := m
  cases control with
  | done o' =>
    cases ho
    cases o with
    | fault fault => exact absurd rfl (hf fault)
    | _ =>
      obtain ⟨-, hr⟩ := h
      exact ⟨hr.frame, hr.depth⟩
  | _ => cases ho

end Machine

namespace Session

/-- The sessions that come about by sources that are rejected, fail or reach their end. -/
inductive Completed : Session → Prop
  | new (sink : Sink) (clock : Clock) (maxDepth : Nat) : Completed (.new sink clock maxDepth)
  | run {s : Session} (fuel : Nat) (source : List UInt8) : Completed s →
      (s.run fuel source).1 ≠ .unfinished → Completed (s.run fuel source).2
  | evaluate {s : Session} (fuel : Nat) (source : List UInt8) : Completed s →
      (s.evaluate fuel source).1 ≠ .unfinished → Completed (s.evaluate fuel source).2

variable {s : Session}

theorem Completed.reachable (h : s.Completed) : s.Reachable := by
  induction h with
  | new sink clock maxDepth => exact .new sink clock maxDepth
  | run fuel source _ _ ih => exact .run fuel source ih
  | evaluate fuel source _ _ ih => exact .evaluate fuel source ih

/-- The session is in the global frame, and no call is active. -/
structure Settled (s : Session) : Prop where
  frame : s.state.frame = globalFrame
  depth : s.state.depth = 0

/-- A machine that starts in a settled session. -/
theorem Settled.balanced (h : s.Settled) (program : Program) :
    Machine.Balanced globalFrame 0 ⟨.execAll program, [], s.state⟩ :=
  ⟨h.frame, h.depth⟩

theorem Settled.balancedExpr (h : s.Settled) (e : Expr) :
    Machine.Balanced globalFrame 0 ⟨.eval e, [], s.state⟩ :=
  ⟨h.frame, h.depth⟩

theorem settled_conclude {m : Machine} (hm : m.Balanced globalFrame 0)
    (hu : (s.conclude m).1 ≠ .unfinished) (hf : ∀ fault, (s.conclude m).1 ≠ .fault fault) :
    (s.conclude m).2.Settled := by
  rw [conclude] at hu hf
  cases ho : m.outcome? with
  | none => exact absurd (by rw [ho]) hu
  | some o =>
    obtain ⟨hframe, hdepth⟩ := hm.outcome ho fun fault heq => hf fault (by rw [ho, heq])
    exact ⟨hframe, hdepth⟩

theorem settled_concludeExpr {m : Machine} (hm : m.Balanced globalFrame 0)
    (hu : (s.concludeExpr m).1 ≠ .unfinished) (hf : ∀ fault, (s.concludeExpr m).1 ≠ .fault fault) :
    (s.concludeExpr m).2.Settled := by
  rw [concludeExpr] at hu hf
  cases ho : m.outcome? with
  | none => exact absurd (by rw [ho]) hu
  | some o =>
    obtain ⟨hframe, hdepth⟩ := hm.outcome ho fun fault heq => hf fault (by rw [ho, heq])
    exact ⟨hframe, hdepth⟩

variable {fuel : Nat} {source : List UInt8} {errors : List Diagnostic}

theorem Settled.run (h : s.Settled) (hs : s.Sound) (hu : (s.run fuel source).1 ≠ .unfinished) :
    (s.run fuel source).2.Settled := by
  have hf := (hs.run fuel source).2
  rw [Session.run] at hu hf ⊢
  rcases load_cases s source with ⟨errors, n, -, hl⟩ | ⟨program, cursor, distances, -, -, hl⟩
  · rw [hl]
    exact ⟨h.frame, h.depth⟩
  · rw [hl] at hu hf ⊢
    exact settled_conclude ((h.balanced program).run _ fuel) hu hf

theorem Settled.evaluate (h : s.Settled) (hs : s.Sound)
    (hu : (s.evaluate fuel source).1 ≠ .unfinished) : (s.evaluate fuel source).2.Settled := by
  have hf := (hs.evaluate fuel source).2
  rw [Session.evaluate] at hu hf ⊢
  rcases loadExpr_cases s source with ⟨errors, n, -, hl⟩ | ⟨e, cursor, distances, -, -, hl⟩
  · rw [hl]
    exact ⟨h.frame, h.depth⟩
  · rw [hl] at hu hf ⊢
    exact settled_concludeExpr ((h.balancedExpr e).run _ fuel) hu hf

theorem Completed.settled (h : s.Completed) : s.Settled := by
  induction h with
  | new sink clock maxDepth => exact ⟨rfl, rfl⟩
  | run fuel source hc hu ih => exact ih.run hc.reachable.sound hu
  | evaluate fuel source hc hu ih => exact ih.evaluate hc.reachable.sound hu

/-- What has run is not rejected. -/
theorem conclude_ne_rejected (s : Session) (m : Machine) (errors : List Diagnostic) :
    (s.conclude m).1 ≠ .rejected errors := by
  unfold conclude
  dsimp only
  repeat' split
  all_goals nofun

theorem concludeExpr_ne_rejected (s : Session) (m : Machine) (errors : List Diagnostic) :
    (s.concludeExpr m).1 ≠ .rejected errors := by
  unfold concludeExpr
  dsimp only
  split <;> nofun

/-- A program that is rejected only uses up numbers of expressions. -/
theorem run_of_rejected (h : (s.run fuel source).1 = .rejected errors) :
    (s.run fuel source).2 = { s with nextId := (s.run fuel source).2.nextId } := by
  rw [Session.run] at h ⊢
  rcases load_cases s source with ⟨errors', n, -, hl⟩ | ⟨program, cursor, distances, -, -, hl⟩
  · rw [hl]
  · rw [hl] at h
    exact absurd h (conclude_ne_rejected _ _ _)

theorem evaluate_of_rejected (h : (s.evaluate fuel source).1 = .rejected errors) :
    (s.evaluate fuel source).2 = { s with nextId := (s.evaluate fuel source).2.nextId } := by
  rw [Session.evaluate] at h ⊢
  rcases loadExpr_cases s source with ⟨errors', n, -, hl⟩ | ⟨e, cursor, distances, -, -, hl⟩
  · rw [hl]
  · rw [hl] at h
    exact absurd h (concludeExpr_ne_rejected _ _ _)

/-- Whatever sources a session was given and however they ended, it is then in the global frame and
    no call is active; and a source that is rejected leaves the store, the output, the clock and the
    distances as they are. -/
theorem settled_of_completed (h : s.Completed) :
    (s.state.frame = globalFrame ∧ s.state.depth = 0) ∧
      ∀ fuel source errors,
        ((s.run fuel source).1 = .rejected errors →
          (s.run fuel source).2 = { s with nextId := (s.run fuel source).2.nextId }) ∧
        ((s.evaluate fuel source).1 = .rejected errors →
          (s.evaluate fuel source).2 = { s with nextId := (s.evaluate fuel source).2.nextId }) :=
  ⟨⟨h.settled.frame, h.settled.depth⟩, fun _ _ _ => ⟨run_of_rejected, evaluate_of_rejected⟩⟩

/-- A session after an error inside a loop in a block of a method that sets up an instance, which a
    function has called. Blocks and bodies have left their frames in the store. -/
theorem settled_of_completed_init :
    ∃ s : Session, s.Completed ∧ s.state.store.frames.size = 7 ∧
      s.state.frame = globalFrame ∧ s.state.depth = 0 := by
  have h : Completed ((Session.new .unlimited (.still 0) 16).run 200
      ("class A \x7b init() \x7b " ++
        "\x7b var a = 1; while (true) \x7b print a; a.b; \x7d \x7d \x7d \x7d " ++
        "fun f() \x7b \x7b A(); \x7d \x7d f();").toUTF8.toList).2 :=
    .run _ _ (.new _ _ _) fun hu => absurd (congrArg Report.diagnostics hu) (by decide +kernel)
  exact ⟨_, h, by decide +kernel, (settled_of_completed h).1⟩

/-- The second of all texts is cut, inside a call. The run fails there, and the next source prints
    again. -/
example :
    let device : Device :=
      { Device.unlimited with
        write := fun texts _ _ => if texts = 1 then some (1, .full) else none }
    let first := (Session.new (.onto device) (.still 0) 16).run 100
      "fun f() \x7b print \"a\"; print \"bc\"; \x7d f();".toUTF8.toList
    let next := first.2.run 100 "print \"d\";".toUTF8.toList
    first.1.code = 70 ∧ first.2.state.depth = 0 ∧ next.1.code = 0 ∧
      next.2.state.sink.written.toList = "a\nbd\n".toUTF8.toList := by decide +kernel

end Session

end Lox
