import Mathlib
import Lox.Proofs.RenamedStates

/-!
# Renaming keeps runs

A program in which a local variable is renamed runs like the program before: step by step, with the
same output and the same outcome. Code is always related with the marks of the frame that it runs
in. An entry of the stack that goes back to another frame goes back to the marks of that frame
(`Pending.Renamed`).

* `Machine.Renamed.step`: a step keeps machines alike, `Machine.Renamed.run`: so does a run;
* `Session.interpret_renames`: a session answers both programs in the same way.
-/

namespace Lox

/-- An entry of the stack that is reached in a frame with the marks `ρ` and leads to other marks. -/
inductive Pending.Renamed (R : Renaming) (W : World) (ρ : Marks) : Marks → Pending → Pending → Prop
  | unary (op : UnaryOp) (line : Nat) : Pending.Renamed R W ρ ρ (.unary op line) (.unary op line)
  | binaryLeft (op : BinaryOp) (line : Nat) (right : Expr) :
      Pending.Renamed R W ρ ρ (.binaryLeft op line right) (.binaryLeft op line (right.respell R ρ))
  | binaryRight (op : BinaryOp) (line : Nat) {left left' : Value} : Value.Renamed R W left left' →
      Pending.Renamed R W ρ ρ (.binaryRight op line left) (.binaryRight op line left')
  | logical (op : LogicalOp) (right : Expr) :
      Pending.Renamed R W ρ ρ (.logical op right) (.logical op (right.respell R ρ))
  | assign (id : Nat) (name : Lexeme) :
      Pending.Renamed R W ρ ρ (.assign id name) (.assign id (R.respell ρ id name))
  | callee (line : Nat) (arguments : List Expr) :
      Pending.Renamed R W ρ ρ (.callee line arguments)
        (.callee line (Expr.respellAll R ρ arguments))
  | argument (line : Nat) (rest : List Expr) {called called' : Value}
      {before before' : List Value} :
      Value.Renamed R W called called' → List.Forall₂ (Value.Renamed R W) before before' →
      Pending.Renamed R W ρ ρ (.argument called line before rest)
        (.argument called' line before' (Expr.respellAll R ρ rest))
  | get (name : Lexeme) : Pending.Renamed R W ρ ρ (.get name) (.get name)
  | setObject (name : Lexeme) (value : Expr) :
      Pending.Renamed R W ρ ρ (.setObject name value) (.setObject name (value.respell R ρ))
  | setValue (id : Nat) (name : Lexeme) :
      Pending.Renamed R W ρ ρ (.setValue id name) (.setValue id name)
  | print : Pending.Renamed R W ρ ρ .print .print
  | define (name : Lexeme) :
      Pending.Renamed R W ρ ρ (.define name) (.define (name.respell R (ρ 0)))
  | branch {yes yes' : Stmt} {no no' : Option Stmt} : Stmt.Renamed R ρ yes yes' →
      Stmt.OptionRenamed R ρ no no' → Pending.Renamed R W ρ ρ (.branch yes no) (.branch yes' no')
  | loopTest (condition : Expr) {body body' : Stmt} : Stmt.Renamed R ρ body body' →
      Pending.Renamed R W ρ ρ (.loopTest condition body) (.loopTest (condition.respell R ρ) body')
  | loopBody (condition : Expr) {body body' : Stmt} : Stmt.Renamed R ρ body body' →
      Pending.Renamed R W ρ ρ (.loopBody condition body) (.loopBody (condition.respell R ρ) body')
  | sequence {rest rest' : List Stmt} : Stmt.AllRenamed R ρ rest rest' →
      Pending.Renamed R W ρ ρ (.sequence rest) (.sequence rest')
  | returns : Pending.Renamed R W ρ ρ .returns .returns
  | leaveBlock {ρ' : Marks} (frame : Nat) : W[frame]? = some ρ' →
      Pending.Renamed R W ρ ρ' (.leaveBlock frame) (.leaveBlock frame)
  | leaveBody {ρ' : Marks} {c c' : Closure} (frame : Nat) : Closure.Renamed R W c c' →
      W[frame]? = some ρ' → Pending.Renamed R W ρ ρ' (.leaveBody c frame) (.leaveBody c' frame)
  | construct {object object' : Value} : Value.Renamed R W object object' →
      Pending.Renamed R W ρ ρ (.construct object) (.construct object')
  | leaveCall : Pending.Renamed R W ρ ρ .leaveCall .leaveCall

/-- Two stacks, reached in a frame with the given marks. -/
inductive StackRenamed (R : Renaming) (W : World) : Marks → List Pending → List Pending → Prop
  | nil (ρ : Marks) : StackRenamed R W ρ [] []
  | cons {ρ ρ' : Marks} {p p' : Pending} {stack stack' : List Pending} :
      Pending.Renamed R W ρ ρ' p p' → StackRenamed R W ρ' stack stack' →
      StackRenamed R W ρ (p :: stack) (p' :: stack')

/-- What two machines do next, in a frame with the given marks. -/
inductive Control.Renamed (R : Renaming) (W : World) (ρ : Marks) : Control → Control → Prop
  | eval (e : Expr) : Control.Renamed R W ρ (.eval e) (.eval (e.respell R ρ))
  | exec {stmt stmt' : Stmt} : Stmt.Renamed R ρ stmt stmt' →
      Control.Renamed R W ρ (.exec stmt) (.exec stmt')
  | execAll {stmts stmts' : List Stmt} : Stmt.AllRenamed R ρ stmts stmts' →
      Control.Renamed R W ρ (.execAll stmts) (.execAll stmts')
  | deliver {v v' : Value} : Value.Renamed R W v v' →
      Control.Renamed R W ρ (.deliver v) (.deliver v')
  | returns {v v' : Value} : Value.Renamed R W v v' →
      Control.Renamed R W ρ (.unwind (.returns v)) (.unwind (.returns v'))
  | fails (e : RuntimeError) : Control.Renamed R W ρ (.unwind (.fails e)) (.unwind (.fails e))
  | value (v v' : Value) : Control.Renamed R W ρ (.done (.value v)) (.done (.value v'))
  | returned (v v' : Value) : Control.Renamed R W ρ (.done (.returned v)) (.done (.returned v'))
  | failed (e : RuntimeError) : Control.Renamed R W ρ (.done (.failed e)) (.done (.failed e))
  | fault (f f' : Fault) : Control.Renamed R W ρ (.done (.fault f)) (.done (.fault f'))

/-- Two machines that run a program before and after names are swapped. -/
def Machine.Renamed (R : Renaming) (m m' : Machine) : Prop :=
  ∃ W ρ, State.Renamed R W ρ m.state m'.state ∧ StackRenamed R W ρ m.stack m'.stack ∧
    Control.Renamed R W ρ m.control m'.control

variable {R : Renaming} {W W' : World} {ρ ρ' : Marks}

theorem Value.forall₂_mono (hW : W <+: W') {vs vs' : List Value}
    (h : List.Forall₂ (Value.Renamed R W) vs vs') : List.Forall₂ (Value.Renamed R W') vs vs' :=
  h.imp fun _ _ hv => hv.mono hW

theorem Pending.Renamed.mono (hW : W <+: W') {p p' : Pending} (h : Pending.Renamed R W ρ ρ' p p') :
    Pending.Renamed R W' ρ ρ' p p' := by
  cases h with
  | binaryRight op line hv => exact .binaryRight op line (hv.mono hW)
  | argument line rest hv hvs => exact .argument line rest (hv.mono hW) (Value.forall₂_mono hW hvs)
  | leaveBlock frame hf => exact .leaveBlock frame (World.getElem?_mono hW hf)
  | leaveBody frame hc hf => exact .leaveBody frame (hc.mono hW) (World.getElem?_mono hW hf)
  | construct hv => exact .construct (hv.mono hW)
  | branch hyes hno => exact .branch hyes hno
  | loopTest condition hb => exact .loopTest condition hb
  | loopBody condition hb => exact .loopBody condition hb
  | sequence hr => exact .sequence hr
  | _ => constructor

theorem StackRenamed.mono (hW : W <+: W') {stack stack' : List Pending}
    (h : StackRenamed R W ρ stack stack') : StackRenamed R W' ρ stack stack' := by
  induction h with
  | nil ρ => exact .nil ρ
  | cons hp _ ih => exact .cons (hp.mono hW) ih

namespace Machine

variable {stack stack' : List Pending} {st st' : State} {cfg : Config} {v v' : Value}

/-- What a run needs to know beyond the machine: the distances are those of the renaming, and native
    functions read the clock. -/
structure Follows (R : Renaming) (cfg : Config) : Prop where
  distances : cfg.distances = R.distances
  natives : cfg.natives = Native.standard

section

variable (hst : State.Renamed R W ρ st st') (hk : StackRenamed R W ρ stack stack')
include hst hk

/-! ### Results -/

theorem renamed_deliver (hv : Value.Renamed R W v v') :
    Machine.Renamed R (deliver v stack st) (deliver v' stack' st') :=
  ⟨W, ρ, hst, hk, .deliver hv⟩

theorem renamed_fail (line : Nat) (cause : RuntimeError.Cause) :
    Machine.Renamed R (fail line cause stack st) (fail line cause stack' st') :=
  ⟨W, ρ, hst, hk, .fails _⟩

theorem renamed_fault (f f' : Fault) :
    Machine.Renamed R (finish (.error (.fault f)) stack st)
      (finish (.error (.fault f')) stack' st') :=
  ⟨W, ρ, hst, hk, .fault f f'⟩

theorem renamed_finish {r r' : Except Stop Value} (hr : ResultRenamed R W r r') :
    Machine.Renamed R (finish r stack st) (finish r' stack' st') := by
  cases hr with
  | ok hv => exact renamed_deliver hst hk hv
  | error e => exact ⟨W, ρ, hst, hk, .fails e⟩
  | fault f f' => exact renamed_fault hst hk f f'

/-! ### Methods -/

/-- A method that was found is bound to an instance. -/
theorem renamed_bound {method method' : Closure} (hm : Closure.MethodRenamed R W method method')
    (hv : Value.Renamed R W v v') :
    Machine.Renamed R (deliver (st.bound method v).1 stack (st.bound method v).2)
      (deliver (st'.bound method' v').1 stack' (st'.bound method' v').2) := by
  obtain ⟨W', hW, hst', hv'⟩ := hst.bound hm hv
  exact renamed_deliver hst' (hk.mono hW) hv'

theorem renamed_property (i : Nat) {c c' : Class} (hc : Class.Renamed R W c c') (name : Lexeme) :
    Machine.Renamed R (property i c name stack st) (property i c' name stack' st') := by
  rw [property, property]
  rcases Option.Rel.cases (hst.store.field i name.text) with ⟨hf, hf'⟩ | ⟨v, v', hf, hf', hv⟩
  · rw [hf, hf']
    rcases Option.Rel.cases (hc.findMethod name.text) with ⟨hm, hm'⟩ | ⟨m, m', hm, hm', hr⟩
    · simp only [hm, hm']
      exact renamed_fail hst hk _ _
    · simp only [hm, hm']
      exact renamed_bound hst hk hr (.instance i hc)
  · rw [hf, hf']
    exact renamed_deliver hst hk hv

theorem renamed_superMethod (hR : R.Proper) (hcfg : Follows R cfg) (id : Nat) (method : Lexeme) :
    Machine.Renamed R (superMethod cfg id method stack st)
      (superMethod cfg id method stack' st') := by
  rw [superMethod, superMethod, hcfg.distances, hst.frame]
  cases R.distances[id]? with
  | none => exact renamed_fault hst hk _ _
  | some distance =>
    have hsuper := hst.store.getAt hst.marks distance "super"
    rw [hR.swap_super] at hsuper
    rcases hsuper with ⟨v, v', hv, hg, hg'⟩ | ⟨e, e', hg, hg'⟩
    · cases hv with
      | «class» hc =>
        cases distance with
        | zero =>
          simp only [hg, hg']
          exact renamed_fault hst hk _ _
        | succ inner =>
          have hthis := hst.store.getAt hst.marks inner "this"
          rw [hR.swap_this] at hthis
          rcases hthis with ⟨u, u', hu, ht, ht'⟩ | ⟨e, e', ht, ht'⟩
          · cases hu with
            | «instance» i hof =>
              simp only [hg, hg', ht, ht']
              rcases Option.Rel.cases (hc.findMethod method.text) with ⟨hm, hm'⟩
                | ⟨m, m', hm, hm', hr⟩
              · simp only [hm, hm']
                exact renamed_fail hst hk _ _
              · simp only [hm, hm']
                exact renamed_bound hst hk hr (.instance i hof)
            | _ =>
              simp only [hg, hg', ht, ht']
              exact renamed_fault hst hk _ _
          · simp only [hg, hg', ht, ht']
            exact renamed_fault hst hk _ _
      | _ =>
        simp only [hg, hg']
        exact renamed_fault hst hk _ _
    · simp only [hg, hg']
      exact renamed_fault hst hk _ _

/-! ### Calls -/

end

/-- Parameters are bound by the names that they have in their scope. -/
theorem renamed_zip (mark : Bool) (params : List Lexeme) {arguments arguments' : List Value}
    (ha : List.Forall₂ (Value.Renamed R W) arguments arguments') {b b' : Bindings Value}
    (hb : Bindings.Renamed R W mark b b') :
    Bindings.Renamed R W mark
      ((params.zip arguments).foldl
        (fun (b : Bindings Value) (param, v) => b.insert param.text v) b)
      (((params.map (Lexeme.respell R mark)).zip arguments').foldl
        (fun (b : Bindings Value) (param, v) => b.insert param.text v) b') := by
  induction params generalizing arguments arguments' b b' with
  | nil => exact hb
  | cons param rest ih =>
    cases ha with
    | nil => exact hb
    | cons hv hvs => exact ih hvs (hb.insert param.text hv)

section

variable (hst : State.Renamed R W ρ st st') (hk : StackRenamed R W ρ stack stack')
include hst hk

variable {arguments arguments' : List Value}

theorem renamed_enterBody {c c' : Closure} (hc : Closure.Renamed R W c c')
    (ha : List.Forall₂ (Value.Renamed R W) arguments arguments') :
    Machine.Renamed R (enterBody c arguments stack st) (enterBody c' arguments' stack' st') := by
  obtain ⟨decl, frame, isInitializer⟩ := c
  obtain ⟨decl', frame', isInitializer'⟩ := c'
  obtain ⟨ρc, hρ, hframe, hinit, hdecl⟩ := id hc
  cases hframe
  cases hdecl with
  | mk mark name params hbody =>
    have hnew := hst.enter hρ (renamed_zip mark params ha (Bindings.renamed_empty mark))
    have hW : W <+: W ++ [ρc.push mark] := List.prefix_append ..
    rw [enterBody, enterBody, hst.frame]
    exact ⟨_, _, hnew, .cons (.leaveBody st.frame (hc.mono hW) (World.getElem?_mono hW hst.marks))
      (hk.mono hW), .execAll hbody⟩

theorem renamed_instantiate {c c' : Class} (hc : Class.Renamed R W c c')
    (ha : List.Forall₂ (Value.Renamed R W) arguments arguments') :
    Machine.Renamed R (instantiate c arguments stack st)
      (instantiate c' arguments' stack' st') := by
  have hi : st'.newInstance.1 = st.newInstance.1 := hst.store.fields
  have hv : Value.Renamed R W (.instance st.newInstance.1 c) (.instance st.newInstance.1 c') :=
    .instance _ hc
  rw [instantiate, instantiate]
  rcases Option.Rel.cases (hc.findMethod initializerName) with ⟨hm, hm'⟩ | ⟨m, m', hm, hm', hr⟩
  · simp only [hm, hm', hi]
    exact renamed_deliver hst.newInstance hk hv
  · simp only [hm, hm', hi]
    obtain ⟨W', hW, hst', hc'⟩ := hst.newInstance.bind hr hv
    exact renamed_enterBody hst' (.cons (.construct (hv.mono hW)) (hk.mono hW)) hc'
      (Value.forall₂_mono hW ha)

theorem renamed_enter (hcfg : Follows R cfg) {c c' : Callable}
    (hc : Value.Renamed R W (.callable c) (.callable c')) (line : Nat)
    (ha : List.Forall₂ (Value.Renamed R W) arguments arguments') :
    Machine.Renamed R (enter cfg c line arguments stack st)
      (enter cfg c' line arguments' stack' st') := by
  cases hc with
  | native f =>
    rw [enter, enter, callNative, callNative, hcfg.natives, State.readClock,
      State.readClock, hst.clock]
    exact renamed_deliver { hst with clock := rfl } hk (.number _)
  | function identity hc => exact renamed_enterBody hst hk hc ha
  | «class» hc => exact renamed_instantiate hst hk hc ha

omit hst hk in
/-- Renaming keeps the number of arguments. -/
theorem renamed_arity {c c' : Callable} (hc : Value.Renamed R W (.callable c) (.callable c')) :
    c'.arity = c.arity := by
  cases hc with
  | native f => rfl
  | function identity hc =>
    obtain ⟨ρ, -, hc⟩ := hc
    exact hc.decl.length_params
  | «class» hc =>
    rw [Callable.arity, Callable.arity]
    rcases Option.Rel.cases (hc.findMethod initializerName) with ⟨hm, hm'⟩ | ⟨m, m', hm, hm', hr⟩
    · rw [hm, hm']
    · obtain ⟨ρ, -, hr⟩ := hr
      rw [hm, hm']
      exact hr.decl.length_params

theorem renamed_call (hcfg : Follows R cfg) {callee callee' : Value}
    (hc : Value.Renamed R W callee callee') (line : Nat)
    (ha : List.Forall₂ (Value.Renamed R W) arguments arguments') :
    Machine.Renamed R (call cfg callee line arguments stack st)
      (call cfg callee' line arguments' stack' st') := by
  have hcallable : ∀ {c c' : Callable}, Value.Renamed R W (.callable c) (.callable c') →
      Machine.Renamed R (call cfg (.callable c) line arguments stack st)
        (call cfg (.callable c') line arguments' stack' st') := by
    intro c c' hc
    rw [call, call, renamed_arity hc, ← ha.length_eq, hst.depth]
    split
    · exact renamed_fail hst hk _ _
    · split
      · exact renamed_fail hst hk _ _
      · exact renamed_enter hst.startCall (.cons .leaveCall hk) hcfg hc line ha
  cases hc with
  | native f => exact hcallable (.native f)
  | function identity hc => exact hcallable (.function identity hc)
  | «class» hc => exact hcallable (.class hc)
  | _ => exact renamed_fail hst hk _ _

theorem renamed_nextArgument (hcfg : Follows R cfg) {callee callee' : Value}
    (hc : Value.Renamed R W callee callee') (line : Nat) {before before' : List Value}
    (hb : List.Forall₂ (Value.Renamed R W) before before') (rest : List Expr) :
    Machine.Renamed R (nextArgument cfg callee line before rest stack st)
      (nextArgument cfg callee' line before' (Expr.respellAll R ρ rest) stack' st') := by
  cases rest with
  | nil => exact renamed_call hst hk hcfg hc line (List.rel_reverse hb)
  | cons e rest => exact ⟨W, ρ, hst, .cons (.argument line rest hc hb) hk, .eval e⟩

/-! ### Expressions and statements -/

theorem renamed_eval (hR : R.Proper) (hcfg : Follows R cfg) (e : Expr) :
    Machine.Renamed R (eval cfg stack st e) (eval cfg stack' st' (e.respell R ρ)) := by
  cases e with
  | literal id value => exact renamed_deliver hst hk (by cases value <;> constructor)
  | unary id op mark right => exact ⟨W, ρ, hst, .cons (.unary op mark.line) hk, .eval right⟩
  | binary id op mark left right =>
    exact ⟨W, ρ, hst, .cons (.binaryLeft op mark.line right) hk, .eval left⟩
  | logical id op mark left right => exact ⟨W, ρ, hst, .cons (.logical op right) hk, .eval left⟩
  | grouping id inner => exact ⟨W, ρ, hst, hk, .eval inner⟩
  | var id name =>
    rw [Expr.respell, eval, eval, hcfg.distances]
    exact renamed_finish hst hk (hst.lookUp id name)
  | assign id name value => exact ⟨W, ρ, hst, .cons (.assign id name) hk, .eval value⟩
  | call id callee paren arguments =>
    exact ⟨W, ρ, hst, .cons (.callee paren.line arguments) hk, .eval callee⟩
  | get id object name => exact ⟨W, ρ, hst, .cons (.get name) hk, .eval object⟩
  | set id object name value => exact ⟨W, ρ, hst, .cons (.setObject name value) hk, .eval object⟩
  | this id keyword =>
    rw [Expr.respell, eval, eval, hcfg.distances]
    exact renamed_finish hst hk (hst.lookUp id keyword)
  | super id keyword method => exact renamed_superMethod hst hk hR hcfg id method

end

section

variable (hst : State.Renamed R W ρ st st')
include hst

theorem renamed_makeFunction {decl decl' : FunctionDecl Stmt}
    (hname : decl.name.respell R (ρ 0) = decl.name) (hdecl : Stmt.DeclRenamed R ρ decl decl') :
    State.Renamed R W ρ (makeFunction decl st) (makeFunction decl' st') := by
  have hid : st'.newIdentity.1 = st.newIdentity.1 := hst.store.nextIdentity
  have hv : Value.Renamed R W (.callable (.function st.newIdentity.1 ⟨decl, st.frame, false⟩))
      (.callable (.function st'.newIdentity.1 ⟨decl', st'.frame, false⟩)) := by
    rw [hid, hst.frame]
    exact .function _ ⟨ρ, hst.marks, rfl, rfl, hdecl⟩
  have hdefine := hst.newIdentity.define decl.name.text hv
  rw [show R.swap (ρ 0) decl.name.text = decl.name.text from congrArg Lexeme.text hname] at hdefine
  rw [makeFunction, makeFunction, hdecl.name_eq]
  exact hdefine

variable {decls decls' : List (FunctionDecl Stmt)} {c c' : Option Class}
    {superclass : Option VarRef}

omit hst in
/-- Methods are found under the same names. -/
theorem renamed_methodsIn {frame : Nat} (hρ : W[frame]? = some ρ)
    (hd : Stmt.DeclsRenamed R (ρ.push false) decls decls') (x : String) :
    Option.Rel (Closure.MethodRenamed R W) ((methodsIn frame decls).get? x)
      ((methodsIn frame decls').get? x) := by
  -- Methods are inserted one by one, so what is there already is kept general.
  have hgen : ∀ b b' : Bindings Closure,
      (∀ y, Option.Rel (Closure.MethodRenamed R W) (b.get? y) (b'.get? y)) →
      Option.Rel (Closure.MethodRenamed R W)
        ((decls.foldl (fun b decl =>
          b.insert decl.name.text ⟨decl, frame, decl.name.text = initializerName⟩) b).get? x)
        ((decls'.foldl (fun b decl =>
          b.insert decl.name.text ⟨decl, frame, decl.name.text = initializerName⟩) b').get? x) := by
    induction decls generalizing decls' with
    | nil =>
      cases hd
      exact fun b b' hb => hb x
    | cons decl rest ih =>
      cases hd with
      | cons hdecl hrest =>
        refine fun b b' hb => ih hrest _ _ fun y => ?_
        dsimp only
        rw [hdecl.name_eq, Bindings.get?_insert, Bindings.get?_insert]
        split
        · exact .some ⟨ρ, hρ, rfl, rfl, hdecl⟩
        · exact hb y
  exact hgen ∅ ∅ fun _ => .none

/-- The frame in which methods are made stands for the scopes around them, but for that of
    `this`. -/
theorem renamed_methodFrame (hc : Option.Rel (Class.Renamed R W) c c')
    (hsome : c.isSome = superclass.isSome) :
    (methodFrame c' st').1 = (methodFrame c st).1 ∧ ∃ W' ρ', W <+: W' ∧
      State.Renamed R W' ρ (methodFrame c st).2 (methodFrame c' st').2 ∧
      W'[(methodFrame c st).1]? = some ρ' ∧ ρ'.push false = ρ.pushClass superclass := by
  cases hc with
  | none =>
    obtain rfl : superclass = none := Option.isNone_iff_eq_none.1 (by cases superclass <;> simp_all)
    exact ⟨hst.frame, W, ρ, List.prefix_rfl, hst, hst.marks, rfl⟩
  | some hc =>
    obtain ⟨ref, rfl⟩ := Option.isSome_iff_exists.1 hsome.symm
    have hb : Bindings.Renamed R W false (Bindings.insert "super" _ ∅)
        (Bindings.insert "super" _ ∅) :=
      (Bindings.renamed_empty false).insert "super" (.class hc)
    refine ⟨hst.store.size_eq, _, _, List.prefix_append .., ?_, hst.marks_newFrame _, rfl⟩
    rw [methodFrame, methodFrame, hst.frame]
    exact hst.newFrame hst.marks hb

theorem renamed_makeClass {name : Lexeme} (hname : name.respell R (ρ 0) = name)
    (hc : Option.Rel (Class.Renamed R W) c c') (hsome : c.isSome = superclass.isSome)
    (hd : Stmt.DeclsRenamed R (ρ.pushClass superclass) decls decls') :
    ∃ W', W <+: W' ∧
      State.Renamed R W' ρ (makeClass name c decls st) (makeClass name c' decls' st') := by
  obtain ⟨hframe, W', ρ', hW, hst', hρ', hpush⟩ := renamed_methodFrame hst hc hsome
  refine ⟨W', hW, ?_⟩
  have hid : (methodFrame c' st').2.newIdentity.1 = (methodFrame c st).2.newIdentity.1 :=
    hst'.store.nextIdentity
  have hclass : Class.Renamed R W'
      ⟨(methodFrame c st).2.newIdentity.1, name.text, c, methodsIn (methodFrame c st).1 decls⟩
      ⟨(methodFrame c' st').2.newIdentity.1, name.text, c',
        methodsIn (methodFrame c' st').1 decls'⟩ := by
    refine ⟨hid, rfl, fun x => ?_⟩
    unfold Class.findMethod
    rw [hframe]
    rcases Option.Rel.cases (renamed_methodsIn hρ' (hpush ▸ hd) x) with ⟨hm, hm'⟩
      | ⟨m, m', hm, hm', hr⟩
    · simp only [hm, hm']
      cases hc with
      | none => exact .none
      | some hc => exact (hc.mono hW).findMethod x
    · simp only [hm, hm']
      exact .some hr
  have hdefine := hst'.newIdentity.define name.text (.class hclass)
  rw [show R.swap (ρ 0) name.text = name.text from congrArg Lexeme.text hname] at hdefine
  rw [makeClass, makeClass]
  exact hdefine

/-- A superclass is found in both runs or in none. -/
theorem renamed_superclassOf (hcfg : Follows R cfg) (superclass : Option VarRef) :
    (∃ c c', superclassOf cfg st superclass = .ok c ∧
      superclassOf cfg st' (superclass.map (VarRef.respell R ρ)) = .ok c' ∧
      Option.Rel (Class.Renamed R W) c c' ∧ c.isSome = superclass.isSome) ∨
    ∃ stop stop', superclassOf cfg st superclass = .error stop ∧
      superclassOf cfg st' (superclass.map (VarRef.respell R ρ)) = .error stop' ∧
      ResultRenamed R W (.error stop) (.error stop') := by
  cases superclass with
  | none => exact .inl ⟨none, none, rfl, rfl, .none, rfl⟩
  | some ref =>
    have hline : (ref.respell R ρ).name.line = ref.name.line := R.line_respell ρ ref.id ref.name
    have hr : ResultRenamed R W (st.lookUp cfg.distances ref.id ref.name)
        (st'.lookUp cfg.distances (ref.respell R ρ).id (ref.respell R ρ).name) := by
      rw [hcfg.distances]
      exact hst.lookUp ref.id ref.name
    rw [Option.map_some, superclassOf, superclassOf, hline]
    generalize st.lookUp cfg.distances ref.id ref.name = r,
      st'.lookUp cfg.distances (ref.respell R ρ).id (ref.respell R ρ).name = r' at hr ⊢
    cases hr with
    | ok hv =>
      cases hv with
      | «class» hc => exact .inl ⟨_, _, rfl, rfl, .some hc, rfl⟩
      | _ => exact .inr ⟨_, _, rfl, rfl, .error _⟩
    | error e => exact .inr ⟨_, _, rfl, rfl, .error e⟩
    | fault f f' => exact .inr ⟨_, _, rfl, rfl, .fault f f'⟩

end

section

variable (hst : State.Renamed R W ρ st st') (hk : StackRenamed R W ρ stack stack')
include hst hk

theorem renamed_exec (hcfg : Follows R cfg) {stmt stmt' : Stmt} (h : Stmt.Renamed R ρ stmt stmt') :
    Machine.Renamed R (exec cfg stack st stmt) (exec cfg stack' st' stmt') := by
  cases h with
  | expression ρ e => exact ⟨W, ρ, hst, hk, .eval e⟩
  | print ρ e => exact ⟨W, ρ, hst, .cons .print hk, .eval e⟩
  | var ρ name initial =>
    cases initial with
    | none => exact renamed_deliver (hst.define name.text .nil) hk .nil
    | some e => exact ⟨W, ρ, hst, .cons (.define name) hk, .eval e⟩
  | block mark hbody =>
    have hW : W <+: W ++ [ρ.push mark] := List.prefix_append ..
    rw [exec, exec, hst.frame]
    exact ⟨_, _, hst.enter hst.marks (Bindings.renamed_empty mark),
      .cons (.leaveBlock st.frame (World.getElem?_mono hW hst.marks)) (hk.mono hW), .execAll hbody⟩
  | branch condition hyes hno => exact ⟨W, ρ, hst, .cons (.branch hyes hno) hk, .eval condition⟩
  | loop condition hbody => exact ⟨W, ρ, hst, .cons (.loopTest condition hbody) hk, .eval condition⟩
  | function hname hdecl => exact renamed_deliver (renamed_makeFunction hst hname hdecl) hk .nil
  | ret ρ keyword value =>
    cases value with
    | none => exact ⟨W, ρ, hst, hk, .returns .nil⟩
    | some e => exact ⟨W, ρ, hst, .cons .returns hk, .eval e⟩
  | @classDecl _ name superclass methods methods' hname hmethods =>
    have hdefine := hst.define name.text .nil
    rw [show R.swap (ρ 0) name.text = name.text from congrArg Lexeme.text hname] at hdefine
    rw [exec, exec]
    rcases renamed_superclassOf hdefine hcfg superclass with
      ⟨c, c', hc, hc', hrel, hsome⟩ | ⟨stop, stop', hc, hc', hrel⟩
    · obtain ⟨W', hW, hst'⟩ := renamed_makeClass hdefine hname hrel hsome hmethods
      simp only [hc, hc']
      exact renamed_deliver hst' (hk.mono hW) .nil
    · simp only [hc, hc']
      exact renamed_finish hdefine hk hrel

/-! ### Steps -/

omit hk in
theorem resultRenamed_bodyResult {c c' : Closure} (hc : Closure.Renamed R W c c')
    (hR : R.Proper) (hv : Value.Renamed R W v v') :
    ResultRenamed R W (bodyResult c v st.store) (bodyResult c' v' st'.store) := by
  obtain ⟨ρc, hρ, hframe, hinit, -⟩ := hc
  have hthis := hst.store.getAt hρ 0 "this"
  rw [hR.swap_this] at hthis
  rw [bodyResult, bodyResult, hframe, hinit]
  split
  · rcases hthis with ⟨u, u', hu, hg, hg'⟩ | ⟨e, e', hg, hg'⟩
    · rw [hg, hg']
      exact .ok hu
    · rw [hg, hg']
      exact .fault e e'
  · exact .ok hv

/-- What an operator yields is the same in both runs. -/
theorem renamed_operator (line : Nat) (r : Except RuntimeError.Cause Value) :
    (∀ result, r = .ok result → Value.Renamed R W result result) →
    Machine.Renamed R
      (match r with
        | .ok result => deliver result stack st
        | .error cause => fail line cause stack st)
      (match r with
        | .ok result => deliver result stack' st'
        | .error cause => fail line cause stack' st') := by
  intro hr
  cases r with
  | ok result => exact renamed_deliver hst hk (hr result rfl)
  | error cause => exact renamed_fail hst hk line cause

theorem renamed_print (hv : Value.Renamed R W v v') :
    Machine.Renamed R (print v stack st) (print v' stack' st') := by
  rw [print, print, hv.display, State.write, State.write, hst.sink]
  rcases st.sink.write (v.display ++ "\n") with ⟨_ | e, sink⟩
  · exact renamed_deliver { hst with sink := rfl } hk .nil
  · exact ⟨W, ρ, { hst with sink := rfl }, hk, .fails _⟩

end

section

variable (hst : State.Renamed R W ρ st st') {ρ' : Marks} (hk : StackRenamed R W ρ' stack stack')
  {p p' : Pending} (hp : Pending.Renamed R W ρ ρ' p p')
include hst hk hp

theorem renamed_resume (hR : R.Proper) (hcfg : Follows R cfg) (hv : Value.Renamed R W v v') :
    Machine.Renamed R (resume cfg v stack st p) (resume cfg v' stack' st' p') := by
  cases hp with
  | unary op line =>
    rw [resume, resume, (hv.unaryApply op).1]
    exact renamed_operator hst hk line _ (hv.unaryApply op).2
  | binaryLeft op line right => exact ⟨W, ρ, hst, .cons (.binaryRight op line hv) hk, .eval right⟩
  | binaryRight op line hl =>
    rw [resume, resume, (hl.binaryApply hv op).1]
    exact renamed_operator hst hk line _ (hl.binaryApply hv op).2
  | logical op right =>
    have hd : op.decides v' = op.decides v := by
      cases op <;> simp only [LogicalOp.decides, hv.isTruthy]
    rw [resume, resume, hd]
    split
    · exact renamed_deliver hst hk hv
    · exact ⟨W, ρ, hst, hk, .eval right⟩
  | assign id name =>
    rw [resume, resume, hcfg.distances]
    rcases hst.assignee id name with ⟨g, ρg, hg, hg', hρ, htext⟩ | ⟨stop, hg, hg'⟩
    · simp only [hg, hg', htext]
      exact renamed_deliver (hst.defineIn hρ name.text hv) hk hv
    · simp only [hg, hg']
      cases stop with
      | error e => exact renamed_finish hst hk (.error e)
      | fault f => exact renamed_finish hst hk (.fault f f)
  | callee line arguments => exact renamed_nextArgument hst hk hcfg hv line .nil arguments
  | argument line rest hc hb => exact renamed_nextArgument hst hk hcfg hc line (.cons hv hb) rest
  | get name =>
    cases hv with
    | «instance» i hc => exact renamed_property hst hk i hc name
    | _ => exact renamed_fail hst hk _ _
  | setObject name value =>
    cases hv with
    | «instance» i hc => exact ⟨W, ρ, hst, .cons (.setValue i name) hk, .eval value⟩
    | _ => exact renamed_fail hst hk _ _
  | setValue id name => exact renamed_deliver (hst.setField id name.text hv) hk hv
  | print => exact renamed_print hst hk hv
  | define name => exact renamed_deliver (hst.define name.text hv) hk .nil
  | branch hyes hno =>
    cases hno with
    | none =>
      rw [resume, resume, hv.isTruthy]
      split
      · exact ⟨W, ρ, hst, hk, .exec hyes⟩
      · exact renamed_deliver hst hk .nil
    | some hno =>
      rw [resume, resume, hv.isTruthy]
      split
      · exact ⟨W, ρ, hst, hk, .exec hyes⟩
      · exact ⟨W, ρ, hst, hk, .exec hno⟩
  | loopTest condition hbody =>
    rw [resume, resume, hv.isTruthy]
    split
    · exact ⟨W, ρ, hst, .cons (.loopBody condition hbody) hk, .exec hbody⟩
    · exact renamed_deliver hst hk .nil
  | loopBody condition hbody =>
    exact ⟨W, ρ, hst, .cons (.loopTest condition hbody) hk, .eval condition⟩
  | sequence hrest => exact ⟨W, ρ, hst, hk, .execAll hrest⟩
  | returns => exact ⟨W, ρ, hst, hk, .returns hv⟩
  | leaveBlock frame hf => exact renamed_deliver (hst.goTo hf) hk hv
  | leaveBody frame hc hf =>
    exact renamed_finish (hst.goTo hf) hk (resultRenamed_bodyResult hst hc hR .nil)
  | construct ho => exact renamed_deliver hst hk ho
  | leaveCall => exact renamed_deliver hst.endCall hk hv

theorem renamed_unwind_returns (hR : R.Proper) (hv : Value.Renamed R W v v') :
    Machine.Renamed R (unwindOver (.returns v) stack st p)
      (unwindOver (.returns v') stack' st' p') := by
  cases hp with
  | leaveBlock frame hf => exact ⟨W, _, hst.goTo hf, hk, .returns hv⟩
  | leaveBody frame hc hf =>
    exact renamed_finish (hst.goTo hf) hk (resultRenamed_bodyResult hst hc hR hv)
  | leaveCall => exact ⟨W, ρ, hst.endCall, hk, .returns hv⟩
  | _ => exact ⟨W, ρ, hst, hk, .returns hv⟩

theorem renamed_unwind_fails (e : RuntimeError) :
    Machine.Renamed R (unwindOver (.fails e) stack st p) (unwindOver (.fails e) stack' st' p') := by
  cases hp with
  | leaveBlock frame hf => exact ⟨W, _, hst.goTo hf, hk, .fails e⟩
  | leaveBody frame hc hf => exact ⟨W, _, hst.goTo hf, hk, .fails e⟩
  | leaveCall => exact ⟨W, ρ, hst.endCall, hk, .fails e⟩
  | _ => exact ⟨W, ρ, hst, hk, .fails e⟩

end

/-- Both machines take the same step. -/
theorem Renamed.step (hR : R.Proper) (hcfg : Follows R cfg) {m m' : Machine}
    (h : Machine.Renamed R m m') : Machine.Renamed R (m.step cfg) (m'.step cfg) := by
  obtain ⟨control, stack, st⟩ := m
  obtain ⟨control', stack', st'⟩ := m'
  obtain ⟨W, ρ, hst, hk, hc⟩ := h
  dsimp only at hst hk hc
  cases hc with
  | eval e => exact renamed_eval hst hk hR hcfg e
  | exec hstmt => exact renamed_exec hst hk hcfg hstmt
  | execAll hstmts =>
    cases hstmts with
    | nil => exact renamed_deliver hst hk .nil
    | cons hstmt hrest => exact ⟨W, ρ, hst, .cons (.sequence hrest) hk, .exec hstmt⟩
  | deliver hv =>
    cases hk with
    | nil => exact ⟨W, ρ, hst, .nil ρ, .value _ _⟩
    | cons hp hk => exact renamed_resume hst hk hp hR hcfg hv
  | returns hv =>
    cases hk with
    | nil => exact ⟨W, ρ, hst, .nil ρ, .returned _ _⟩
    | cons hp hk => exact renamed_unwind_returns hst hk hp hR hv
  | fails e =>
    cases hk with
    | nil => exact ⟨W, ρ, hst, .nil ρ, .failed e⟩
    | cons hp hk => exact renamed_unwind_fails hst hk hp e
  | value v v' => exact ⟨W, ρ, hst, hk, .value v v'⟩
  | returned v v' => exact ⟨W, ρ, hst, hk, .returned v v'⟩
  | failed e => exact ⟨W, ρ, hst, hk, .failed e⟩
  | fault f f' => exact ⟨W, ρ, hst, hk, .fault f f'⟩

/-- Both machines stay alike for as long as they run. -/
theorem Renamed.run (hR : R.Proper) (hcfg : Follows R cfg) {m m' : Machine}
    (h : Machine.Renamed R m m') (fuel : Nat) :
    Machine.Renamed R (m.run cfg fuel) (m'.run cfg fuel) := by
  induction fuel generalizing m m' with
  | zero => exact h
  | succ fuel ih =>
    rw [run_succ, run_succ]
    exact ih (h.step hR hcfg)

end Machine

/-! ### Sessions -/

/-- No frame is marked. -/
def World.plain (s : Store) : World := List.replicate s.frames.size .none

theorem World.getElem?_plain {s : Store} {f : Nat} (h : f < s.frames.size) :
    (World.plain s)[f]? = some .none := by
  rw [plain, List.getElem?_replicate, if_pos h]

theorem World.eq_none_of_plain {s : Store} {f : Nat} (h : (World.plain s)[f]? = some ρ) :
    ρ = .none :=
  List.eq_of_mem_replicate (List.mem_of_getElem? h)

section

variable {T : Table} {s : Store}

theorem Class.Sound.renamed_self {c : Class} (h : c.Sound T s) :
    Class.Renamed R (World.plain s) c c := by
  refine ⟨rfl, rfl, fun x => ?_⟩
  cases hm : c.findMethod x with
  | none => exact .none
  | some m =>
    obtain ⟨within, scopes, -, hf, -⟩ := h x m hm
    refine .some ⟨.none, World.getElem?_plain hf.lt_size, rfl, rfl, ?_⟩
    rw [Marks.push_none]
    exact Stmt.declRenamed_self R m.decl

theorem Value.Sound.renamed_self {v : Value} (h : v.Sound T s) :
    Value.Renamed R (World.plain s) v v := by
  match v with
  | .nil => exact .nil
  | .bool value => exact .bool value
  | .number value => exact .number value
  | .string text => exact .string text
  | .callable (.native f) => exact .native f
  | .callable (.function identity c) =>
    obtain ⟨-, within, scopes, -, hf, -⟩ := h
    exact .function identity
      ⟨.none, World.getElem?_plain hf.lt_size, rfl, rfl, Stmt.declRenamed_self R c.decl⟩
  | .callable (.class c) => exact .class (Class.Sound.renamed_self h)
  | .instance i c => exact .instance i (Class.Sound.renamed_self h)

/-- Where nothing is marked, a store is like itself. -/
theorem Store.Sound.renamed_self (h : s.Sound T) (hs : globalFrame < s.frames.size) :
    Store.Renamed R (World.plain s) s s where
  size := (List.length_replicate).symm
  size_eq := rfl
  global := World.getElem?_plain hs
  enclosing _ := rfl
  marks f g ρ hρ hg := by
    rw [World.eq_none_of_plain hρ]
    exact World.getElem?_plain (h.enclosing f g hg)
  bindings f ρ hρ x := by
    rw [World.eq_none_of_plain hρ]
    change Option.Rel _ ((s.frame f).bindings.get? x) ((s.frame f).bindings.get? x)
    cases hv : (s.frame f).bindings.get? x with
    | none => exact .none
    | some v => exact .some (h.bindings f x v hv).1.renamed_self
  fields := rfl
  field i x := by
    cases hv : s.field? i x with
    | none => exact .none
    | some v => exact .some (h.fields i x v hv).renamed_self
  nextIdentity := rfl

end

/-- Where nothing is marked, the state of a session is like itself. -/
theorem Session.Sound.renamed_self {s : Session} (h : s.Sound) :
    State.Renamed R (World.plain s.state.store) .none s.state s.state where
  store := h.store.renamed_self (Nat.zero_lt_of_lt h.frame)
  marks := World.getElem?_plain h.frame
  frame := rfl
  depth := rfl
  sink := rfl
  clock := rfl

/-- Machines that are alike have the same outcome, unless it is a fault. -/
theorem Machine.Renamed.conclude_eq {m m' : Machine} (h : Machine.Renamed R m m') (s : Session)
    (hm : ∀ f, m.outcome? ≠ some (.fault f)) : (s.conclude m').1 = (s.conclude m).1 := by
  obtain ⟨control, stack, st⟩ := m
  obtain ⟨control', stack', st'⟩ := m'
  obtain ⟨W, ρ, hst, -, hc⟩ := h
  dsimp only at hst hc
  cases hc with
  | value v v' => simp only [Session.conclude, Machine.outcome?, hst.sink]
  | fault f f' => exact absurd rfl (hm f)
  | _ => rfl

/-- A session answers a program and the same with a local variable renamed in the same way. The
    variable is any one that a block, a function or a method declares, and it is renamed in its
    declaration and where its scope is meant. The new name is any that is not in use. -/
theorem Session.interpret_renames {s : Session} (hs : s.Reachable) {source : List UInt8} {n : Nat}
    (hn : s.nextId ≤ n) {p p' : Program} {cursor : Cursor}
    (hp : Program.parse (.ofTokens (Token.scanAll source).1 n) = (.ok p, cursor))
    {distances : Distances} (hr : p.resolve = .ok distances) {old new : String}
    (h : Program.Renames ⟨distances, old, new⟩ p p') (hkey : Keyword.ofText? new = none)
    (hnew : new ∉ Stmt.namesAll p) :
    p'.resolve = .ok distances ∧ ∀ fuel,
      (s.interpret fuel p' distances).1 = (s.interpret fuel p distances).1 ∧
      (s.interpret fuel p' distances).2.state.sink =
        (s.interpret fuel p distances).2.state.sink := by
  have hids := Program.numbered_of_parse hp
  have hreg := Program.regular_of_parse (congrArg Prod.fst hp)
  have hR : Renaming.Proper ⟨distances, old, new⟩ := ⟨h.isName_old hreg, hkey⟩
  have hsound := hs.sound
  constructor
  · -- The distances of the program alone are those of the renaming.
    have hres : Stmt.AllResolved ⟨distances, cursor.nextId⟩ .none [] p :=
      Program.resolved_of_resolve hr hids.nodup hreg fun id hid => ⟨(hids.range id hid).2, rfl⟩
    exact Program.resolve_of_renamed hR hr
      (h.renamed hR hres hreg hnew fun _ _ => rfl) rfl hres hreg
      hnew
  · intro fuel
    -- Both run with all distances of the session, which are the same for the names of the program.
    have hskip := hsound.skip hn
    obtain ⟨-, hm⟩ := hskip.machine hp hr
    have hsettled : ∀ id ∈ Stmt.idsAll p, id < cursor.nextId ∧
        (s.install distances).distances[id]? = distances[id]? := hskip.settled hids
    have hren : Stmt.AllRenamed ⟨(s.install distances).distances, old, new⟩ .none p p' :=
      h.renamed hR (Program.resolved_of_resolve hr hids.nodup hreg (hskip.settled hids)) hreg hnew
        fun id hid => (hsettled id hid).2
    have halike : Machine.Renamed ⟨(s.install distances).distances, old, new⟩
        ⟨.execAll p, [], s.state⟩ ⟨.execAll p', [], s.state⟩ :=
      ⟨_, .none, hsound.renamed_self, .nil _, .execAll hren⟩
    have hfollows : Machine.Follows ⟨(s.install distances).distances, old, new⟩
        (s.install distances).config := ⟨rfl, rfl⟩
    have hproper : Renaming.Proper ⟨(s.install distances).distances, old, new⟩ := ⟨hR.old, hR.new⟩
    have hrun := halike.run hproper hfollows fuel
    refine ⟨hrun.conclude_eq _ fun f hf => ?_, ?_⟩
    · rcases (hm.run (Session.serves_config _) fuel).outcome hf with ⟨v, hv⟩ | ⟨e, he⟩
      · cases hv
      · cases he
    · obtain ⟨W, ρ, hst, -⟩ := hrun
      exact hst.sink

/-- A function refers to a global variable. A local one of the same name is declared later, and is
    renamed. -/
theorem Session.interpret_renames_later :
    ((Session.new .unlimited (.still 0) 16).interpret 100
      [.block [.function ⟨⟨"f", 1⟩, [], [.print (.var 0 ⟨"a", 1⟩)]⟩, .var ⟨"b", 1⟩ none,
        .expression (.call 2 (.var 1 ⟨"f", 1⟩) ⟨")", 1⟩ [])]] (Std.ExtTreeMap.insert ∅ 1 0)).1 =
    ((Session.new .unlimited (.still 0) 16).interpret 100
      [.block [.function ⟨⟨"f", 1⟩, [], [.print (.var 0 ⟨"a", 1⟩)]⟩, .var ⟨"a", 1⟩ none,
        .expression (.call 2 (.var 1 ⟨"f", 1⟩) ⟨")", 1⟩ [])]] (Std.ExtTreeMap.insert ∅ 1 0)).1 := by
  have hp : (Program.parse (.ofTokens
      (Token.scanAll "\x7bfun f()\x7bprint a;\x7dvar a;f();\x7d".toUTF8.toList).1 0)).1 = .ok
      [.block [.function ⟨⟨"f", 1⟩, [], [.print (.var 0 ⟨"a", 1⟩)]⟩, .var ⟨"a", 1⟩ none,
        .expression (.call 2 (.var 1 ⟨"f", 1⟩) ⟨")", 1⟩ [])]] := by
    cbv
  have hr : Program.resolve
      [.block [.function ⟨⟨"f", 1⟩, [], [.print (.var 0 ⟨"a", 1⟩)]⟩, .var ⟨"a", 1⟩ none,
        .expression (.call 2 (.var 1 ⟨"f", 1⟩) ⟨")", 1⟩ [])]] =
          .ok (Std.ExtTreeMap.insert ∅ 1 0) := by
    rfl
  have hren : Program.Renames ⟨Std.ExtTreeMap.insert ∅ 1 0, "a", "b"⟩
      [.block [.function ⟨⟨"f", 1⟩, [], [.print (.var 0 ⟨"a", 1⟩)]⟩, .var ⟨"a", 1⟩ none,
        .expression (.call 2 (.var 1 ⟨"f", 1⟩) ⟨")", 1⟩ [])]]
      [.block [.function ⟨⟨"f", 1⟩, [], [.print (.var 0 ⟨"a", 1⟩)]⟩, .var ⟨"b", 1⟩ none,
        .expression (.call 2 (.var 1 ⟨"f", 1⟩) ⟨")", 1⟩ [])]] := by
    refine ⟨[], _, _, [], rfl, rfl, ?_⟩
    exact .block ⟨_, _, List.mem_cons_of_mem _ (List.mem_cons_self ..), rfl⟩
  exact
    ((Session.interpret_renames (.new .unlimited (.still 0) 16) (Nat.zero_le 0) (Prod.ext hp rfl) hr
    hren (by decide) (by decide)).2 100).1

end Lox
