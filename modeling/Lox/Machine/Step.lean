import Lox.Machine.Call

/-!
# Steps

One step of the machine, and runs of many steps.

* `Machine.eval`, `Machine.exec` start an expression and a statement;
* `Machine.resume` hands a value to what is pending, `Machine.unwindOver` passes it by;
* `Machine.step` is one step, `Machine.run` takes steps until the machine is done or `fuel` is used
  up;
* `run_add`: a run can be cut anywhere, so a program may also be run in slices.
-/

namespace Lox.Machine

/-- Starts to evaluate an expression. -/
def eval (cfg : Config) (stack : List Pending) (st : State) : Expr → Machine
  | .literal _ value => deliver (.ofLiteral value) stack st
  | .unary _ op mark right => ⟨.eval right, .unary op mark.line :: stack, st⟩
  | .binary _ op mark left right => ⟨.eval left, .binaryLeft op mark.line right :: stack, st⟩
  | .logical _ op _ left right => ⟨.eval left, .logical op right :: stack, st⟩
  | .grouping _ inner => ⟨.eval inner, stack, st⟩
  | .var id name => finish (st.lookUp cfg.distances id name) stack st
  | .assign id name value => ⟨.eval value, .assign id name :: stack, st⟩
  | .call _ callee paren arguments => ⟨.eval callee, .callee paren.line arguments :: stack, st⟩
  | .get _ object name => ⟨.eval object, .get name :: stack, st⟩
  | .set _ object name value => ⟨.eval object, .setObject name value :: stack, st⟩
  | .this id keyword => finish (st.lookUp cfg.distances id keyword) stack st
  | .super id _ method => superMethod cfg id method stack st

/-- The superclass of a class that is being declared, if it has one. -/
def superclassOf (cfg : Config) (st : State) : Option VarRef → Except Stop (Option Class)
  | none => .ok none
  | some ref =>
    match st.lookUp cfg.distances ref.id ref.name with
    | .ok (.callable (.class c)) => .ok (some c)
    | .ok _ => .error (.error (.raised ref.name.line .superclassNotClass))
    | .error stop => .error stop

/-- The methods of a class, made in the given frame. Of two with one name the later one counts. -/
def methodsIn (frame : Nat) (decls : List (FunctionDecl Stmt)) : Bindings Closure :=
  decls.foldl (fun b decl =>
    b.insert decl.name.text ⟨decl, frame, decl.name.text = initializerName⟩) ∅

/-- The frame in which the methods of a class are made: if it has a superclass, a new one that binds
    `super`. -/
def methodFrame (superclass : Option Class) (st : State) : Nat × State :=
  match superclass with
  | none => (st.frame, st)
  | some c => st.newFrame ((∅ : Bindings Value).insert "super" (.callable (.class c))) st.frame

/-- Makes a class and binds it to its name. -/
def makeClass (name : Lexeme) (superclass : Option Class) (decls : List (FunctionDecl Stmt))
    (st : State) : State :=
  match methodFrame superclass st with
  | (frame, st) =>
    match st.newIdentity with
    | (identity, st) =>
      st.define name.text
        (.callable (.class ⟨identity, name.text, superclass, methodsIn frame decls⟩))

/-- Makes a function and binds it to its name. -/
def makeFunction (decl : FunctionDecl Stmt) (st : State) : State :=
  match st.newIdentity with
  | (identity, st) =>
    st.define decl.name.text (.callable (.function identity ⟨decl, st.frame, false⟩))

/-- Starts to execute a statement. -/
def exec (cfg : Config) (stack : List Pending) (st : State) : Stmt → Machine
  | .expression e => ⟨.eval e, stack, st⟩
  | .print e => ⟨.eval e, .print :: stack, st⟩
  | .var name none => deliver .nil stack (st.define name.text .nil)
  | .var name (some e) => ⟨.eval e, .define name :: stack, st⟩
  | .block body => ⟨.execAll body, .leaveBlock st.frame :: stack, st.enter ∅ st.frame⟩
  | .branch condition yes no => ⟨.eval condition, .branch yes no :: stack, st⟩
  | .loop condition body => ⟨.eval condition, .loopTest condition body :: stack, st⟩
  | .function decl => deliver .nil stack (makeFunction decl st)
  | .ret _ none => ⟨.unwind (.returns .nil), stack, st⟩
  | .ret _ (some e) => ⟨.eval e, .returns :: stack, st⟩
  | .classDecl name superclass methods =>
    -- The name is bound first, so that it is there while the superclass is looked up.
    let st := st.define name.text .nil
    match superclassOf cfg st superclass with
    | .ok c => deliver .nil stack (makeClass name c methods st)
    | .error stop => finish (.error stop) stack st

/-- Starts to execute statements. -/
def execAll (stack : List Pending) (st : State) : List Stmt → Machine
  | [] => deliver .nil stack st
  | s :: rest => ⟨.exec s, .sequence rest :: stack, st⟩

/-- Prints a value on a line of its own. -/
def print (v : Value) (stack : List Pending) (st : State) : Machine :=
  match st.write (v.display ++ "\n") with
  | (none, st) => deliver .nil stack st
  | (some e, st) => ⟨.unwind (.fails (.sink e)), stack, st⟩

/-- Hands the value `v` to what is pending. -/
def resume (cfg : Config) (v : Value) (stack : List Pending) (st : State) : Pending → Machine
  | .unary op line =>
    match op.apply v with
    | .ok result => deliver result stack st
    | .error cause => fail line cause stack st
  | .binaryLeft op line right => ⟨.eval right, .binaryRight op line v :: stack, st⟩
  | .binaryRight op line left =>
    match op.apply left v with
    | .ok result => deliver result stack st
    | .error cause => fail line cause stack st
  | .logical op right => if op.decides v then deliver v stack st else ⟨.eval right, stack, st⟩
  | .assign id name =>
    match st.assignee cfg.distances id name with
    | .ok f => deliver v stack (st.defineIn f name.text v)
    | .error stop => finish (.error stop) stack st
  | .callee line arguments => nextArgument cfg v line [] arguments stack st
  | .argument callee line before rest => nextArgument cfg callee line (v :: before) rest stack st
  | .get name =>
    match v with
    | .instance id c => property id c name stack st
    | _ => fail name.line .noProperties stack st
  | .setObject name value =>
    match v with
    | .instance id _ => ⟨.eval value, .setValue id name :: stack, st⟩
    | _ => fail name.line .noFields stack st
  | .setValue id name => deliver v stack (st.setField id name.text v)
  | .print => print v stack st
  | .define name => deliver .nil stack (st.define name.text v)
  | .branch yes no =>
    if v.isTruthy then ⟨.exec yes, stack, st⟩
    else
      match no with
      | some no => ⟨.exec no, stack, st⟩
      | none => deliver .nil stack st
  | .loopTest condition body =>
    if v.isTruthy then ⟨.exec body, .loopBody condition body :: stack, st⟩
    else deliver .nil stack st
  | .loopBody condition body => ⟨.eval condition, .loopTest condition body :: stack, st⟩
  | .sequence rest => ⟨.execAll rest, stack, st⟩
  | .returns => ⟨.unwind (.returns v), stack, st⟩
  | .leaveBlock frame => deliver v stack (st.goTo frame)
  | .leaveBody closure frame => finish (bodyResult closure .nil st.store) stack (st.goTo frame)
  | .construct object => deliver object stack st
  | .leaveCall => deliver v stack st.endCall

/-- Passes what is pending by. Frames and depth are put back, and a body takes a `return`. -/
def unwindOver (a : Abrupt) (stack : List Pending) (st : State) : Pending → Machine
  | .leaveBlock frame => ⟨.unwind a, stack, st.goTo frame⟩
  | .leaveBody closure frame =>
    match a with
    | .returns v => finish (bodyResult closure v st.store) stack (st.goTo frame)
    | .fails _ => ⟨.unwind a, stack, st.goTo frame⟩
  | .leaveCall => ⟨.unwind a, stack, st.endCall⟩
  | _ => ⟨.unwind a, stack, st⟩

/-- One step. A machine that is done stays as it is. -/
def step (cfg : Config) : Machine → Machine
  | ⟨.eval e, stack, st⟩ => eval cfg stack st e
  | ⟨.exec s, stack, st⟩ => exec cfg stack st s
  | ⟨.execAll statements, stack, st⟩ => execAll stack st statements
  | ⟨.deliver v, [], st⟩ => ⟨.done (.value v), [], st⟩
  | ⟨.deliver v, pending :: stack, st⟩ => resume cfg v stack st pending
  | ⟨.unwind a, [], st⟩ => ⟨.done a.outcome, [], st⟩
  | ⟨.unwind a, pending :: stack, st⟩ => unwindOver a stack st pending
  | ⟨.done o, stack, st⟩ => ⟨.done o, stack, st⟩

/-- How the machine has ended, if it has. -/
def outcome? (m : Machine) : Option Outcome :=
  match m.control with
  | .done o => some o
  | _ => none

/-- Takes steps until the machine is done, at most `fuel` of them. -/
def run (cfg : Config) : (fuel : Nat) → Machine → Machine
  | 0, m => m
  | fuel + 1, m =>
    match m with
    | ⟨.done o, stack, st⟩ => ⟨.done o, stack, st⟩
    | m => run cfg fuel (step cfg m)

/-! ### Runs -/

/-- A machine that is done stays as it is. -/
@[simp]
theorem run_done (cfg : Config) (fuel : Nat) (o : Outcome) (stack : List Pending) (st : State) :
    run cfg fuel ⟨.done o, stack, st⟩ = ⟨.done o, stack, st⟩ := by
  cases fuel <;> rfl

/-- A run takes its first step, and then the others. -/
theorem run_succ (cfg : Config) (fuel : Nat) (m : Machine) :
    run cfg (fuel + 1) m = run cfg fuel (step cfg m) := by
  obtain ⟨control, stack, st⟩ := m
  cases control with
  | done o => rw [step, run_done, run_done]
  | _ => rfl

/-- A run can be cut anywhere. -/
theorem run_add (cfg : Config) (n k : Nat) (m : Machine) :
    run cfg (n + k) m = run cfg k (run cfg n m) := by
  induction n generalizing m with
  | zero => rw [Nat.zero_add, run]
  | succ n ih => rw [Nat.succ_add, run_succ, run_succ, ih]

/-- What each step keeps, a run keeps. -/
theorem run_invariant {cfg : Config} {P : Machine → Prop} (hstep : ∀ m, P m → P (step cfg m))
    {m : Machine} (h : P m) (fuel : Nat) : P (run cfg fuel m) := by
  induction fuel generalizing m with
  | zero => exact h
  | succ fuel ih =>
    rw [run_succ]
    exact ih (hstep m h)

end Lox.Machine
