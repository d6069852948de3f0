import Mathlib
import Lox.Proofs.Returning

/-!
# The limit on calls

A session has a limit on how many calls are active at the same time. This module shows what it does:
it bounds the calls, and it does nothing else.

A step takes at most the top entry from the stack and puts at most a few on it
(`Machine.step_moves`). A body is only put there on top of a call, and a call only while there are
fewer than the limit, so the number of active calls can be read off the stack, agrees with what is
counted and stays within the limit (`Session.Moment.withinLimit`).

Under a higher limit, each step is the same unless it fails for too many calls under the lower one
(`Machine.step_raise`), and a run never recovers from that failure (`Machine.Overflowed.run`). So a
run that ends in another way is the same run under each higher limit.

* `Session.limit_bounds_calls_only`: both together.
-/

namespace Lox

namespace Stack

/-- The number of bodies that are left once a stack is empty. -/
def bodies : List Pending → Nat
  | [] => 0
  | .leaveBody _ _ :: rest => bodies rest + 1
  | _ :: rest => bodies rest

theorem calls_cons (p : Pending) (stack : List Pending) :
    calls (p :: stack) = calls [p] + calls stack := by
  cases p <;> first | exact (Nat.zero_add _).symm | exact Nat.add_comm _ 1

theorem bodies_cons (p : Pending) (stack : List Pending) :
    bodies (p :: stack) = bodies [p] + bodies stack := by
  cases p <;> first | exact (Nat.zero_add _).symm | exact Nat.add_comm _ 1

/-- What a step puts on the stack, and how many calls are active then, if there were `depth` of
    them. -/
inductive Pushes (limit depth : Nat) (stack : List Pending) : List Pending → Nat → Prop
  | nothing : Pushes limit depth stack stack depth
  | entry {p : Pending} : calls [p] = 0 → bodies [p] = 0 →
      Pushes limit depth stack (p :: stack) depth
  | call : depth < limit → Pushes limit depth stack (.leaveCall :: stack) (depth + 1)
  | body (closure : Closure) (f : Nat) : depth < limit →
      Pushes limit depth stack (.leaveBody closure f :: .leaveCall :: stack) (depth + 1)
  | initializer (closure : Closure) (f : Nat) (object : Value) : depth < limit →
      Pushes limit depth stack (.leaveBody closure f :: .construct object :: .leaveCall ::
        stack) (depth + 1)

/-- What a step does to the stack and to the number of active calls. -/
inductive Moves (limit : Nat) : List Pending → Nat → List Pending → Nat → Prop
  | push {stack stack' : List Pending} {depth depth' : Nat} :
      Pushes limit depth stack stack' depth' → Moves limit stack depth stack' depth'
  | pop {p : Pending} {stack stack' : List Pending} {depth depth' : Nat} : calls [p] = 0 →
      Pushes limit depth stack stack' depth' → Moves limit (p :: stack) depth stack' depth'
  | endCall (stack : List Pending) (depth : Nat) :
      Moves limit (.leaveCall :: stack) depth stack (depth - 1)

end Stack

namespace Machine

open Stack (Pushes Moves)

variable {stack : List Pending} {st : State} {limit : Nat}

/-- The machine comes about by putting something on a stack, where `depth` calls are active. -/
def Pushed (limit depth : Nat) (stack : List Pending) (m : Machine) : Prop :=
  Pushes limit depth stack m.stack m.state.depth

theorem pushed_finish (result : Except Stop Value) (st : State) :
    (finish result stack st).Pushed limit st.depth stack := by
  rcases result with (_ | _) | _ <;> exact .nothing

theorem pushed_property (id : Nat) (c : Class) (name : Lexeme) :
    (property id c name stack st).Pushed limit st.depth stack := by
  rw [property]
  split
  · exact .nothing
  · split <;> exact .nothing

theorem pushed_superMethod (cfg : Config) (id : Nat) (method : Lexeme) :
    (superMethod cfg id method stack st).Pushed limit st.depth stack := by
  rw [superMethod]
  split
  · exact .nothing
  split
  · exact .nothing
  · split
    · exact .nothing
    split
    · exact .nothing
    · split <;> exact .nothing
    · exact .nothing
  · exact .nothing

/-- A call is entered only while there are fewer than the limit. -/
theorem pushed_enter {cfg : Config} (h : st.depth < limit) (c : Callable) (line : Nat)
    (arguments : List Value) :
    (enter cfg c line arguments (.leaveCall :: stack) st.startCall).Pushed limit
      st.depth stack := by
  rcases c with f | ⟨identity, closure⟩ | c
  · rw [enter, callNative]
    dsimp only
    split <;> exact .call h
  · exact .body closure st.frame h
  · rw [enter, instantiate]
    dsimp only
    split
    · exact .call h
    · exact .initializer _ st.frame _ h

theorem pushed_call (cfg : Config) (callee : Value) (line : Nat) (arguments : List Value) :
    (call cfg callee line arguments stack st).Pushed cfg.maxDepth st.depth stack := by
  cases callee with
  | callable c =>
    rw [call]
    split
    · exact .nothing
    split
    · exact .nothing
    · next h => exact pushed_enter (Nat.lt_of_not_le h) c line arguments
  | _ => exact .nothing

theorem pushed_nextArgument (cfg : Config) (callee : Value) (line : Nat) (before : List Value)
    (rest : List Expr) :
    (nextArgument cfg callee line before rest stack st).Pushed cfg.maxDepth st.depth stack := by
  rcases rest with _ | ⟨e, rest⟩
  · exact pushed_call cfg callee line before.reverse
  · exact .entry rfl rfl

theorem pushed_eval (cfg : Config) (e : Expr) :
    (eval cfg stack st e).Pushed limit st.depth stack := by
  cases e with
  | literal id value => exact .nothing
  | grouping id inner => exact .nothing
  | var id name => exact pushed_finish _ st
  | this id keyword => exact pushed_finish _ st
  | super id keyword method => exact pushed_superMethod cfg id method
  | _ => exact .entry rfl rfl

theorem pushed_exec (cfg : Config) (stmt : Stmt) :
    (exec cfg stack st stmt).Pushed limit st.depth stack := by
  cases stmt with
  | expression e => exact .nothing
  | var name initial =>
    rcases initial with _ | e
    · exact .nothing
    · exact .entry rfl rfl
  | function decl => exact .nothing
  | ret keyword value =>
    rcases value with _ | e
    · exact .nothing
    · exact .entry rfl rfl
  | classDecl name superclass methods =>
    rw [exec]
    split
    · next c _ => rcases c with _ | c <;> exact .nothing
    · exact pushed_finish (.error _) (st.define name.text .nil)
  | _ => exact .entry rfl rfl

/-- What is pending gets its value and makes room for what comes next. -/
theorem moves_resume (cfg : Config) (v : Value) (pending : Pending) :
    Moves cfg.maxDepth (pending :: stack) st.depth (resume cfg v stack st pending).stack
      (resume cfg v stack st pending).state.depth := by
  cases pending with
  | unary op line =>
    rw [resume]
    split <;> exact .pop rfl .nothing
  | binaryLeft op line right => exact .pop rfl (.entry rfl rfl)
  | binaryRight op line left =>
    rw [resume]
    split <;> exact .pop rfl .nothing
  | logical op right =>
    rw [resume]
    split <;> exact .pop rfl .nothing
  | assign id name =>
    rw [resume]
    split
    · exact .pop rfl .nothing
    · exact .pop rfl (pushed_finish (.error _) st)
  | callee line arguments => exact .pop rfl (pushed_nextArgument cfg v line [] arguments)
  | argument callee line before rest =>
    exact .pop rfl (pushed_nextArgument cfg callee line (v :: before) rest)
  | get name =>
    cases v with
    | «instance» id c => exact .pop rfl (pushed_property id c name)
    | _ => exact .pop rfl .nothing
  | setObject name value =>
    cases v with
    | «instance» id c => exact .pop rfl (.entry rfl rfl)
    | _ => exact .pop rfl .nothing
  | print =>
    rw [resume]
    rcases print_cases v stack st with hp | ⟨e, hp⟩
    · rw [hp]
      exact .pop rfl .nothing
    · rw [hp]
      exact .pop rfl .nothing
  | branch yes no =>
    rcases no with _ | no
    · rw [resume]
      split <;> exact .pop rfl .nothing
    · rw [resume]
      split <;> exact .pop rfl .nothing
  | loopTest condition body =>
    rw [resume]
    split
    · exact .pop rfl (.entry rfl rfl)
    · exact .pop rfl .nothing
  | loopBody condition body => exact .pop rfl (.entry rfl rfl)
  | leaveBody closure frame => exact .pop rfl (pushed_finish _ (st.goTo frame))
  | leaveCall => exact .endCall stack st.depth
  | _ => exact .pop rfl .nothing

theorem moves_unwindOver (a : Abrupt) (pending : Pending) :
    Moves limit (pending :: stack) st.depth (unwindOver a stack st pending).stack
      (unwindOver a stack st pending).state.depth := by
  cases pending with
  | leaveBody closure frame =>
    rcases a with v | e
    · exact .pop rfl (pushed_finish _ (st.goTo frame))
    · exact .pop rfl .nothing
  | leaveCall => exact .endCall stack st.depth
  | _ => exact .pop rfl .nothing

/-- All that a step can do to the stack and to the number of active calls. -/
theorem step_moves (cfg : Config) (m : Machine) :
    Moves cfg.maxDepth m.stack m.state.depth (step cfg m).stack (step cfg m).state.depth := by
  obtain ⟨control, stack, st⟩ := m
  cases control with
  | eval e => exact .push (pushed_eval cfg e)
  | exec stmt => exact .push (pushed_exec cfg stmt)
  | execAll stmts =>
    rcases stmts with _ | ⟨stmt, rest⟩
    · exact .push .nothing
    · exact .push (.entry rfl rfl)
  | deliver v =>
    rcases stack with _ | ⟨pending, stack⟩
    · exact .push .nothing
    · exact moves_resume cfg v pending
  | unwind a =>
    rcases stack with _ | ⟨pending, stack⟩
    · exact .push .nothing
    · exact moves_unwindOver a pending
  | done o => exact .push .nothing

end Machine

/-! ### The number of active calls -/

namespace Stack

/-- There is a call for each body, in the stack and in each part of it that will be left. -/
def Nested (stack : List Pending) : Prop := ∀ ⦃rest⦄, rest <:+ stack → bodies rest ≤ calls rest

theorem nested_nil : Nested [] := by
  intro rest h
  rw [List.suffix_nil.1 h]
  exact Nat.le_refl 0

theorem Nested.cons {stack : List Pending} (h : Nested stack) {p : Pending}
    (hp : bodies (p :: stack) ≤ calls (p :: stack)) : Nested (p :: stack) := by
  intro rest hs
  rcases List.suffix_cons_iff.1 hs with rfl | hs
  · exact hp
  · exact h hs

theorem Nested.tail {stack : List Pending} {p : Pending} (h : Nested (p :: stack)) : Nested stack :=
  fun _ hs => h (hs.trans (List.suffix_cons p stack))

/-- Of the `depth` calls that are active, `before` began before all that is in the stack, and there
    are at most as many as the limit says. -/
structure WithinLimit (limit before : Nat) (stack : List Pending) (depth : Nat) : Prop where
  counted : depth = before + calls stack
  bounded : depth ≤ limit
  nested : Nested stack

variable {limit before depth depth' : Nat} {stack stack' : List Pending}

theorem Pushes.withinLimit (h : WithinLimit limit before stack depth)
    (hp : Pushes limit depth stack stack' depth') : WithinLimit limit before stack' depth' := by
  obtain ⟨hd, hl, hn⟩ := h
  have hb : bodies stack ≤ calls stack := hn List.suffix_rfl
  -- A new call has no body yet, so there is room for one.
  have hcall : Nested (.leaveCall :: stack) := hn.cons (Nat.le_succ_of_le hb)
  rcases hp with _ | ⟨hc, hb'⟩ | hlt | ⟨closure, f, hlt⟩ | ⟨closure, f, object, hlt⟩
  · exact ⟨hd, hl, hn⟩
  · refine ⟨by rw [calls_cons, hc, Nat.zero_add, hd], hl, hn.cons ?_⟩
    rwa [calls_cons, bodies_cons, hc, hb', Nat.zero_add, Nat.zero_add]
  · exact ⟨congrArg (· + 1) hd, hlt, hcall⟩
  · exact ⟨congrArg (· + 1) hd, hlt, hcall.cons (Nat.succ_le_succ hb)⟩
  · have hconstruct : Nested (.construct object :: .leaveCall :: stack) :=
      hcall.cons (Nat.le_succ_of_le hb)
    exact ⟨congrArg (· + 1) hd, hlt, hconstruct.cons (Nat.succ_le_succ hb)⟩

theorem Moves.withinLimit (h : WithinLimit limit before stack depth)
    (hm : Moves limit stack depth stack' depth') : WithinLimit limit before stack' depth' := by
  rcases hm with hp | ⟨hc, hp⟩ | _
  · exact hp.withinLimit h
  · obtain ⟨hd, hl, hn⟩ := h
    rw [calls_cons, hc, Nat.zero_add] at hd
    exact hp.withinLimit ⟨hd, hl, hn.tail⟩
  · -- The call that ends is in the stack, so it is counted.
    obtain ⟨hd, hl, hn⟩ := h
    exact ⟨congrArg (· - 1) hd, (Nat.sub_le _ _).trans hl, hn.tail⟩

end Stack

namespace Session

/-- The limit holds between sources and at every moment of a run. -/
theorem invariant_withinLimit :
    Invariant (fun s => s.state.depth ≤ s.maxDepth) fun s m =>
      ∃ before, Stack.WithinLimit s.maxDepth before m.stack m.state.depth where
  new sink clock maxDepth := Nat.zero_le maxDepth
  skip h _ := h
  load _ h _ _ := ⟨_, rfl, h, Stack.nested_nil⟩
  loadExpr _ h _ _ := ⟨_, rfl, h, Stack.nested_nil⟩
  step := by
    rintro s m ⟨before, h⟩
    have hm : Stack.Moves s.maxDepth _ _ _ _ := Machine.step_moves s.config m
    exact ⟨before, hm.withinLimit h⟩
  conclude h := h.elim fun _ h => h.bounded

end Session

/-! ### Higher limits -/

/-- The same configuration with another limit on calls. -/
def Config.limited (cfg : Config) (limit : Nat) : Config := { cfg with maxDepth := limit }

/-- The error at a line with one call too many. -/
def RuntimeError.overflow (line : Nat) : RuntimeError := .raised line .stackOverflow

namespace Machine

/-- The machine has failed for too many calls, and is on its way out or done. -/
def Overflowed (m : Machine) : Prop :=
  ∃ line, m.control = .unwind (.fails (.overflow line)) ∨
  m.control = .done (.failed (.overflow line))

variable {cfg : Config} {low high : Nat} {stack : List Pending} {st : State}

/-- A call is the only place where the limit matters. -/
theorem call_raise (h : low ≤ high) (callee : Value) (line : Nat) (arguments : List Value) :
    call (cfg.limited high) callee line arguments stack st =
      call (cfg.limited low) callee line arguments stack st ∨
      (call (cfg.limited low) callee line arguments stack st).Overflowed := by
  cases callee with
  | callable c =>
    rw [call, call]
    split
    · exact .inl rfl
    · rcases Nat.lt_or_ge st.depth low with hd | hd
      · -- There is room under the lower limit, so there is under the higher one.
        have hlow : ¬ (cfg.limited low).maxDepth ≤ st.depth := Nat.not_le_of_lt hd
        have hhigh : ¬ (cfg.limited high).maxDepth ≤ st.depth := Nat.not_le_of_lt (hd.trans_le h)
        rw [if_neg hlow, if_neg hhigh]
        exact .inl rfl
      · have hlow : (cfg.limited low).maxDepth ≤ st.depth := hd
        rw [if_pos hlow]
        exact .inr ⟨line, .inl rfl⟩
  | _ => exact .inl rfl

theorem nextArgument_raise (h : low ≤ high) (callee : Value) (line : Nat) (before : List Value)
    (rest : List Expr) : nextArgument (cfg.limited high) callee line before rest stack st =
        nextArgument (cfg.limited low) callee line before rest stack st ∨
      (nextArgument (cfg.limited low) callee line before rest stack st).Overflowed := by
  rcases rest with _ | ⟨e, rest⟩
  · exact call_raise h callee line before.reverse
  · exact .inl rfl

/-- Under a higher limit a step is the same, unless it fails for too many calls under the lower
    one. -/
theorem step_raise (cfg : Config) (h : low ≤ high) (m : Machine) :
    step (cfg.limited high) m = step (cfg.limited low) m ∨
    (step (cfg.limited low) m).Overflowed := by
  obtain ⟨control, stack, st⟩ := m
  cases control with
  | deliver v =>
    -- A call begins when the value of the callee is there and it takes no arguments, or that of the
    -- last argument.
    rcases stack with _ | ⟨pending, stack⟩
    · exact .inl rfl
    · cases pending with
      | callee line arguments => exact nextArgument_raise h v line [] arguments
      | argument callee line before rest =>
        exact nextArgument_raise h callee line (v :: before) rest
      | _ => exact .inl rfl
  | unwind a => rcases stack with _ | ⟨pending, stack⟩ <;> exact .inl rfl
  | _ => exact .inl rfl

/-- Nothing in a program takes the error, so it is there until the end. -/
theorem Overflowed.step {m : Machine} (h : m.Overflowed) : (Machine.step cfg m).Overflowed := by
  obtain ⟨control, stack, st⟩ := m
  obtain ⟨line, rfl | rfl⟩ := h
  · rcases stack with _ | ⟨pending, stack⟩
    · exact ⟨line, .inr rfl⟩
    · exact ⟨line, .inl (by cases pending <;> rfl)⟩
  · exact ⟨line, .inr rfl⟩

theorem Overflowed.run {m : Machine} (h : m.Overflowed) (fuel : Nat) :
    (Machine.run cfg fuel m).Overflowed :=
  run_invariant (fun _ h => h.step) h fuel

/-- Under a higher limit a run is the same, unless it fails for too many calls under the lower
    one. -/
theorem run_raise (cfg : Config) (h : low ≤ high) (fuel : Nat) (m : Machine) :
    run (cfg.limited high) fuel m = run (cfg.limited low) fuel m ∨
    (run (cfg.limited low) fuel m).Overflowed := by
  induction fuel generalizing m with
  | zero => exact .inl rfl
  | succ fuel ih =>
    rw [run_succ, run_succ]
    rcases step_raise cfg h m with heq | ho
    · rw [heq]
      exact ih _
    · exact .inr (ho.run fuel)

end Machine

/-- The source was not stopped before its end, and it did not fail for one call too many. -/
def Report.EndsWithin {α : Type} (r : Report α) : Prop := r ≠ .unfinished ∧ ∀ line,
    r ≠ .failed (.overflow line)

theorem Report.endsWithin_of_isSuccess {α : Type} {r : Report α} (h : r.isSuccess = true) :
    r.EndsWithin := by
  cases r with
  | success result => exact ⟨by simp, by simp⟩
  | _ => cases h

namespace Session

/-- The same session with another limit on calls. -/
def limited (s : Session) (limit : Nat) : Session := { s with maxDepth := limit }

variable {low high : Nat}

/-- What is loaded does not depend on the limit. -/
theorem load_limited (s : Session) (limit : Nat) (source : List UInt8) :
    (s.limited limit).load source = ((s.load source).1, (s.load source).2.limited limit) := by
  rw [load, load]
  dsimp only [limited]
  rcases Program.parse (.ofTokens (Token.scanAll source).1 s.nextId) with ⟨errors | program, cursor⟩
  · rfl
  · dsimp only
    split
    · rcases program.resolve with errors | distances <;> rfl
    · rfl

theorem loadExpr_limited (s : Session) (limit : Nat) (source : List UInt8) :
    (s.limited limit).loadExpr source = ((s.loadExpr source).1,
      (s.loadExpr source).2.limited limit) := by
  rw [loadExpr, loadExpr]
  dsimp only [limited]
  split
  · rcases Expr.parse (.ofTokens (Token.scanAll source).1 s.nextId) with ⟨error | e, cursor⟩
    · rfl
    · dsimp only
      rcases e.resolve with errors | distances <;> rfl
  · rfl

/-- A failure for one call too many is told as such, once the machine is done. -/
theorem conclude_of_overflowed (s : Session) {m : Machine} (h : m.Overflowed) :
    ¬ (s.conclude m).1.EndsWithin ∧ ¬ (s.concludeExpr m).1.EndsWithin := by
  obtain ⟨control, stack, st⟩ := m
  obtain ⟨line, rfl | rfl⟩ := h
  · exact ⟨fun h => h.1 rfl, fun h => h.1 rfl⟩
  · exact ⟨fun h => h.2 line rfl, fun h => h.2 line rfl⟩

/-- A program that ends under one limit, and not for too many calls, runs in the same way under a
    higher limit. -/
theorem run_raise (s : Session) (h : low ≤ high) (fuel : Nat) (source : List UInt8)
    (he : ((s.limited low).run fuel source).1.EndsWithin) :
    (s.limited high).run fuel source =
      (((s.limited low).run fuel source).1, ((s.limited low).run fuel source).2.limited high) := by
  rw [Session.run, load_limited] at he ⊢
  rw [Session.run, load_limited]
  generalize s.load source = loaded at he ⊢
  rcases loaded with ⟨errors | m, s⟩
  · rfl
  · rcases Machine.run_raise s.config h fuel m with heq | ho
    · exact congrArg (s.limited high).conclude heq
    · exact absurd he (conclude_of_overflowed _ ho).1

theorem evaluate_raise (s : Session) (h : low ≤ high) (fuel : Nat) (source : List UInt8)
    (he : ((s.limited low).evaluate fuel source).1.EndsWithin) :
    (s.limited high).evaluate fuel source =
      (((s.limited low).evaluate fuel source).1,
        ((s.limited low).evaluate fuel source).2.limited high) := by
  rw [Session.evaluate, loadExpr_limited] at he ⊢
  rw [Session.evaluate, loadExpr_limited]
  generalize s.loadExpr source = loaded at he ⊢
  rcases loaded with ⟨errors | m, s⟩
  · rfl
  · rcases Machine.run_raise s.config h fuel m with heq | ho
    · exact congrArg (s.limited high).concludeExpr heq
    · exact absurd he (conclude_of_overflowed _ ho).2

/-- The limit bounds the calls that are active, and it has no other effect. At every moment of every
    run, there are at most as many bodies as calls, and at most as many calls as the limit says,
    which is what is counted; and a source that ends under one limit without failing for it gets the
    same answer under each higher limit, prints the same and leaves the same session behind. -/
theorem limit_bounds_calls_only :
    (∀ (s : Session) (m : Machine), s.Moment m →
      Stack.bodies m.stack ≤ Stack.calls m.stack ∧ Stack.calls m.stack ≤ m.state.depth ∧
        m.state.depth ≤ s.maxDepth) ∧
    ∀ (s : Session) (low high fuel : Nat) (source : List UInt8), low ≤ high →
      (((s.limited low).run fuel source).1.EndsWithin →
        (s.limited high).run fuel source =
          (((s.limited low).run fuel source).1, ((s.limited low).run fuel source).2.limited high)) ∧
      (((s.limited low).evaluate fuel source).1.EndsWithin →
        (s.limited high).evaluate fuel source =
          (((s.limited low).evaluate fuel source).1,
            ((s.limited low).evaluate fuel source).2.limited high)) := by
  refine ⟨fun s m hm => ?_, fun s low high fuel source h => ⟨s.run_raise h fuel source,
    s.evaluate_raise h fuel source⟩⟩
  obtain ⟨before, hd, hl, hn⟩ := invariant_withinLimit.moment hm
  exact ⟨hn List.suffix_rfl, hd ▸ Nat.le_add_left _ _, hl⟩

/-- A method that sets up instances makes another one, as often as it is told. With three calls it
    is at the limit of three, it fails under a limit of two, and under a limit of nine nothing else
    is different. -/
theorem limit_bounds_calls_only_three :
    ∃ (s : Session) (source : List UInt8),
      (∃ m, (s.load source).2.Moment m ∧ Stack.calls m.stack = 3 ∧ (s.load source).2.maxDepth = 3 ∧
        m.state.depth ≤ (s.load source).2.maxDepth) ∧
      ((s.limited 2).run 200 source).1.diagnostics.map Diagnostic.message = ["Stack overflow."] ∧
      ((s.limited 3).run 200 source).1.EndsWithin ∧
      (s.limited 9).run 200 source =
        (((s.limited 3).run 200 source).1, ((s.limited 3).run 200 source).2.limited 9) := by
  let s : Session := .new .unlimited (.still 0) 3
  let source := ("class A \x7b init(n) \x7b if (n > 0) this.next = A(n - 1); \x7d \x7d " ++
    "print A(2).next.next;").toUTF8.toList
  have hthree : (s.machineAfter 60 source).map (fun m => Stack.calls m.stack) = some 3 := by
    decide +kernel
  obtain ⟨m, hm, hcalls⟩ := Option.map_eq_some_iff.1 hthree
  have hmoment := Reachable.moment (.new _ _ _) hm
  have hends : ((s.limited 3).run 200 source).1.EndsWithin :=
    Report.endsWithin_of_isSuccess (by decide +kernel)
  exact ⟨s, source,
    ⟨m, hmoment, hcalls, by decide +kernel, (limit_bounds_calls_only.1 _ m hmoment).2.2⟩,
    by decide +kernel, hends, (limit_bounds_calls_only.2 s 3 9 200 source (by decide)).1 hends⟩

end Session

end Lox
