import Mathlib
import Lox.Proofs.Receivers
import Lox.Proofs.RenamedRuns
import Lox.Proofs.Returning
import Lox.Proofs.ShiftedStates
import Lox.Proofs.Surroundings

/-!
# Runs with additional frames

Two machines that run the same code, one of them with additional frames, go on side by side: step by
step, with the same output, the same errors and the same results. The second machine may have other
work below its own stack. As long as the first one does not hand its result on, this is not reached;
when it does, both are back at the spot at which they began (`StackTwin`).

* `Machine.Twin.step`: a step keeps machines alike, while the first one is inside its stack;
* `Machine.Twin.run`: with nothing below, a run keeps machines alike;
* `Store.Sound.twin_self`, `StackSound.twin_self`: as long as there are no additional frames, what
  is in the store and on the stack is its own twin.
-/

namespace Lox

/-- Bodies that yield the same: if they set up an instance, `this` is bound in twin frames. -/
structure Closure.YieldTwin (W : Layout) (c c' : Closure) : Prop where
  isInitializer : c'.isInitializer = c.isInitializer
  frame : c.isInitializer → ∃ k, k ≠ some 0 ∧ W.At ⟨k, c.frame, c'.frame⟩

/-- An entry of the stack that is reached at one spot and leads to another. -/
inductive Pending.Twin (V : Views) (W : Layout) (spot : Spot) : Spot → Pending → Pending → Prop
  | unary (op : UnaryOp) (line : Nat) : Pending.Twin V W spot spot (.unary op line) (.unary op line)
  | binaryLeft (op : BinaryOp) (line : Nat) {right right' : Expr} :
      Expr.Twin V spot.gap right right' →
      Pending.Twin V W spot spot (.binaryLeft op line right) (.binaryLeft op line right')
  | binaryRight (op : BinaryOp) (line : Nat) {left left' : Value} : Value.Twin V W left left' →
      Pending.Twin V W spot spot (.binaryRight op line left) (.binaryRight op line left')
  | logical (op : LogicalOp) {right right' : Expr} : Expr.Twin V spot.gap right right' →
      Pending.Twin V W spot spot (.logical op right) (.logical op right')
  | assign {id id' : Nat} (name : Lexeme) : V.Shifts spot.gap id id' →
      Pending.Twin V W spot spot (.assign id name) (.assign id' name)
  | callee (line : Nat) {arguments arguments' : List Expr} :
      Expr.AllTwin V spot.gap arguments arguments' →
      Pending.Twin V W spot spot (.callee line arguments) (.callee line arguments')
  | argument (line : Nat) {rest rest' : List Expr} {called called' : Value}
      {before before' : List Value} :
      Value.Twin V W called called' → List.Forall₂ (Value.Twin V W) before before' →
      Expr.AllTwin V spot.gap rest rest' →
      Pending.Twin V W spot spot (.argument called line before rest)
        (.argument called' line before' rest')
  | get (name : Lexeme) : Pending.Twin V W spot spot (.get name) (.get name)
  | setObject (name : Lexeme) {value value' : Expr} : Expr.Twin V spot.gap value value' →
      Pending.Twin V W spot spot (.setObject name value) (.setObject name value')
  | setValue (id : Nat) (name : Lexeme) : Pending.Twin V W spot spot (.setValue id name)
      (.setValue id name)
  | print : Pending.Twin V W spot spot .print .print
  | define (name : Lexeme) : spot.gap ≠ some 0 → Pending.Twin V W spot spot (.define name)
      (.define name)
  | branch {yes yes' : Stmt} {no no' : Option Stmt} : Stmt.Twin V spot.gap yes yes' →
      Stmt.OptionTwin V spot.gap no no' → Pending.Twin V W spot spot (.branch yes no)
        (.branch yes' no')
  | loopTest {condition condition' : Expr} {body body' : Stmt} :
      Expr.Twin V spot.gap condition condition' →
      Stmt.Twin V spot.gap body body' →
      Pending.Twin V W spot spot (.loopTest condition body) (.loopTest condition' body')
  | loopBody {condition condition' : Expr} {body body' : Stmt} :
      Expr.Twin V spot.gap condition condition' →
      Stmt.Twin V spot.gap body body' →
      Pending.Twin V W spot spot (.loopBody condition body) (.loopBody condition' body')
  | sequence {rest rest' : List Stmt} : Stmt.AllTwin V spot.gap rest rest' →
      Pending.Twin V W spot spot (.sequence rest) (.sequence rest')
  | returns : Pending.Twin V W spot spot .returns .returns
  | leaveBlock {next : Spot} : W.At next →
      Pending.Twin V W spot next (.leaveBlock next.direct) (.leaveBlock next.spread)
  | leaveBody {next : Spot} {c c' : Closure} : Closure.YieldTwin W c c' → W.At next →
      Pending.Twin V W spot next (.leaveBody c next.direct) (.leaveBody c' next.spread)
  | construct {object object' : Value} : Value.Twin V W object object' →
      Pending.Twin V W spot spot (.construct object) (.construct object')
  | leaveCall : Pending.Twin V W spot spot .leaveCall .leaveCall

/-- Two stacks that are reached at a spot. Where the first one ends, both runs are back at the spot
    `base`, and in the second one there is more work `below`. -/
inductive StackTwin (V : Views) (W : Layout) (base : Spot) (below : List Pending) :
    Spot → List Pending → List Pending → Prop
  | nil : StackTwin V W base below base [] below
  | cons {spot next : Spot} {p p' : Pending} {stack stack' : List Pending} :
      Pending.Twin V W spot next p p' → StackTwin V W base below next stack stack' →
      StackTwin V W base below spot (p :: stack) (p' :: stack')

/-- What two machines do next, at a place with the given gap. -/
inductive Control.Twin (V : Views) (W : Layout) (k : Gap) : Control → Control → Prop
  | eval {e e' : Expr} : Expr.Twin V k e e' → Control.Twin V W k (.eval e) (.eval e')
  | exec {s s' : Stmt} : Stmt.Twin V k s s' → Control.Twin V W k (.exec s) (.exec s')
  | execAll {stmts stmts' : List Stmt} : Stmt.AllTwin V k stmts stmts' →
      Control.Twin V W k (.execAll stmts) (.execAll stmts')
  | deliver {v v' : Value} : Value.Twin V W v v' → Control.Twin V W k (.deliver v) (.deliver v')
  | returns {v v' : Value} : Value.Twin V W v v' →
      Control.Twin V W k (.unwind (.returns v)) (.unwind (.returns v'))
  | fails (e : RuntimeError) : Control.Twin V W k (.unwind (.fails e)) (.unwind (.fails e))
  | value {v v' : Value} : Value.Twin V W v v' →
      Control.Twin V W k (.done (.value v)) (.done (.value v'))
  | returned {v v' : Value} : Value.Twin V W v v' →
      Control.Twin V W k (.done (.returned v)) (.done (.returned v'))
  | failed (e : RuntimeError) : Control.Twin V W k (.done (.failed e)) (.done (.failed e))
  | fault (f f' : Fault) : Control.Twin V W k (.done (.fault f)) (.done (.fault f'))

/-- Two machines that run the same code, the second one with additional frames and with more work
    `below`. -/
def Machine.Twin (V : Views) (W : Layout) (base : Spot) (below : List Pending)
    (m m' : Machine) : Prop :=
  ∃ spot, State.Twin V W spot m.state m'.state ∧ StackTwin V W base below spot m.stack m'.stack ∧
    Control.Twin V W spot.gap m.control m'.control

/-- Machines that are alike in a layout with more frames. -/
def Machine.TwinLater (V : Views) (W : Layout) (base : Spot) (below : List Pending)
    (m m' : Machine) : Prop :=
  ∃ W', W.Grows W' ∧ Machine.Twin V W' base below m m'

variable {V : Views} {W W' : Layout} {base spot next : Spot} {below : List Pending}

theorem Value.forall₂_twin_mono (hW : W.Grows W') {vs vs' : List Value}
    (h : List.Forall₂ (Value.Twin V W) vs vs') : List.Forall₂ (Value.Twin V W') vs vs' :=
  h.imp fun _ _ hv => hv.mono hW

theorem Closure.YieldTwin.mono (hW : W.Grows W') {c c' : Closure} (h : Closure.YieldTwin W c c') :
    Closure.YieldTwin W' c c' := by
  refine ⟨h.isInitializer, fun hc => ?_⟩
  obtain ⟨k, hne, hat⟩ := h.frame hc
  exact ⟨k, hne, hW.at hat⟩

theorem Closure.Twin.yield {c c' : Closure} (h : Closure.Twin V W c c') :
    Closure.YieldTwin W c c' := by
  obtain ⟨k, hne, hat, hin⟩ := h
  exact ⟨hin.isInitializer, fun _ => ⟨k, hne, hat⟩⟩

theorem Pending.Twin.mono (hW : W.Grows W') {p p' : Pending} (h : Pending.Twin V W spot next p p') :
    Pending.Twin V W' spot next p p' := by
  cases h with
  | unary op line => exact .unary op line
  | binaryLeft op line hr => exact .binaryLeft op line hr
  | binaryRight op line hv => exact .binaryRight op line (hv.mono hW)
  | logical op hr => exact .logical op hr
  | assign name hid => exact .assign name hid
  | callee line ha => exact .callee line ha
  | argument line hv hvs hr => exact .argument line (hv.mono hW) (Value.forall₂_twin_mono hW hvs) hr
  | get name => exact .get name
  | setObject name hv => exact .setObject name hv
  | setValue id name => exact .setValue id name
  | print => exact .print
  | define name hk => exact .define name hk
  | branch hyes hno => exact .branch hyes hno
  | loopTest hc hb => exact .loopTest hc hb
  | loopBody hc hb => exact .loopBody hc hb
  | sequence hr => exact .sequence hr
  | returns => exact .returns
  | leaveBlock hat => exact .leaveBlock (hW.at hat)
  | leaveBody hc hat => exact .leaveBody (hc.mono hW) (hW.at hat)
  | construct hv => exact .construct (hv.mono hW)
  | leaveCall => exact .leaveCall

theorem StackTwin.mono (hW : W.Grows W') {stack stack' : List Pending}
    (h : StackTwin V W base below spot stack stack') :
    StackTwin V W' base below spot stack stack' := by
  induction h with
  | nil => exact .nil
  | cons hp _ ih => exact .cons (hp.mono hW) ih

/-- What two runs need to know beyond the machines: each has its own distances, calls can be nested
    alike, and native functions read the clock. -/
structure Config.Twin (V : Views) (cfg cfg' : Config) : Prop where
  direct : cfg.distances = V.direct
  spread : cfg'.distances = V.spread
  maxDepth : cfg'.maxDepth = cfg.maxDepth
  natives : cfg.natives = Native.standard
  natives' : cfg'.natives = Native.standard

namespace Machine

variable {stack stack' : List Pending} {st st' : State} {cfg cfg' : Config} {v v' : Value}

variable {m m' : Machine}

theorem TwinLater.of_grows (hW : W.Grows W') (h : TwinLater V W' base below m m') :
    TwinLater V W base below m m' := by
  obtain ⟨W'', hW', h⟩ := h
  exact ⟨W'', hW.trans hW', h⟩

section

variable (hst : State.Twin V W spot st st') (hk : StackTwin V W base below spot stack stack')
include hst hk

theorem twin_of {control control' : Control} (hc : Control.Twin V W spot.gap control control') :
    TwinLater V W base below ⟨control, stack, st⟩ ⟨control', stack', st'⟩ :=
  ⟨W, .refl W, spot, hst, hk, hc⟩

/-! ### Results -/

theorem twin_deliver (hv : Value.Twin V W v v') :
    TwinLater V W base below (deliver v stack st) (deliver v' stack' st') :=
  twin_of hst hk (.deliver hv)

theorem twin_fail (line : Nat) (cause : RuntimeError.Cause) :
    TwinLater V W base below (fail line cause stack st) (fail line cause stack' st') :=
  twin_of hst hk (.fails _)

theorem twin_fault (f f' : Fault) :
    TwinLater V W base below (finish (.error (.fault f)) stack st)
      (finish (.error (.fault f')) stack' st') :=
  twin_of hst hk (.fault f f')

theorem twin_finish {r r' : Except Stop Value} (hr : ResultTwin V W r r') :
    TwinLater V W base below (finish r stack st) (finish r' stack' st') := by
  cases hr with
  | ok hv => exact twin_deliver hst hk hv
  | error e => exact twin_of hst hk (.fails e)
  | fault f f' => exact twin_fault hst hk f f'

/-- What an operator yields is a plain value, the same in both runs. -/
theorem twin_operator (line : Nat) (r : Except RuntimeError.Cause Value) :
    (∀ result, r = .ok result → result.IsPlain) →
    TwinLater V W base below
      (match r with
        | .ok result => deliver result stack st
        | .error cause => fail line cause stack st)
      (match r with
        | .ok result => deliver result stack' st'
        | .error cause => fail line cause stack' st') := by
  intro hr
  cases r with
  | ok result => exact twin_deliver hst hk (hr result rfl).twin
  | error cause => exact twin_fail hst hk line cause

theorem twin_print (hv : Value.Twin V W v v') :
    TwinLater V W base below (print v stack st) (print v' stack' st') := by
  rw [print, print, hv.display, State.write, State.write, hst.sink]
  rcases st.sink.write (v.display ++ "\n") with ⟨_ | e, sink⟩
  · have hst' : State.Twin V W spot { st with sink } { st' with sink } := { hst with sink := rfl }
    exact twin_deliver hst' hk .nil
  · have hst' : State.Twin V W spot { st with sink } { st' with sink } := { hst with sink := rfl }
    exact twin_of hst' hk (.fails _)

/-! ### Methods -/

/-- A method that was found is bound to an instance. -/
theorem twin_bound {method method' : Closure} (hm : Closure.MethodTwin V W method method')
    (hv : Value.Twin V W v v') :
    TwinLater V W base below (deliver (st.bound method v).1 stack (st.bound method v).2)
      (deliver (st'.bound method' v').1 stack' (st'.bound method' v').2) := by
  obtain ⟨W', hW, hst', hv'⟩ := hst.bound hm hv
  exact (twin_deliver hst' (hk.mono hW) hv').of_grows hW

theorem twin_property (i : Nat) {c c' : Class} (hc : Class.Twin V W c c') (name : Lexeme) :
    TwinLater V W base below (property i c name stack st) (property i c' name stack' st') := by
  rw [property, property]
  rcases Option.Rel.cases (hst.store.field i name.text) with ⟨hf, hf'⟩ | ⟨v, v', hf, hf', hv⟩
  · rw [hf, hf']
    rcases Option.Rel.cases (hc.findMethod name.text) with ⟨hm, hm'⟩ | ⟨m, m', hm, hm', hr⟩
    · simp only [hm, hm']
      exact twin_fail hst hk _ _
    · simp only [hm, hm']
      exact twin_bound hst hk hr (.instance i hc)
  · rw [hf, hf']
    exact twin_deliver hst hk hv

/-- A method is read through `super` in both runs, at the shifted distance. -/
theorem twin_superMethod (hcfg : Config.Twin V cfg cfg') {id id' : Nat}
    (hid : V.ShiftsSuper spot.gap id id') (method : Lexeme) :
    TwinLater V W base below (superMethod cfg id method stack st)
      (superMethod cfg' id' method stack' st') := by
  obtain ⟨hshift, hpair⟩ := hid
  rw [superMethod, superMethod, hcfg.direct, hcfg.spread, hst.direct, hst.spread, hshift]
  cases hd : V.direct[id]? with
  | none => exact twin_fault hst hk _ _
  | some distance =>
    -- The frame of `this` is just inside that of `super`, in both runs.
    obtain ⟨n, rfl, hn⟩ := hpair distance hd
    simp only [Option.map_some]
    rcases hst.store.getAt hst.place (n + 1) "super" with ⟨v, v', hv, hg, hg'⟩ | ⟨e, e', hg, hg'⟩
    · rw [hn] at hg' ⊢
      cases hv with
      | «class» hc =>
        simp only [hg, hg']
        rcases hst.store.getAt hst.place n "this" with ⟨u, u', hu, ht, ht'⟩ | ⟨e, e', ht, ht'⟩
        · cases hu with
          | «instance» i hof =>
            simp only [ht, ht']
            rcases Option.Rel.cases (hc.findMethod method.text) with ⟨hm, hm'⟩
              | ⟨m, m', hm, hm', hr⟩
            · simp only [hm, hm']
              exact twin_fail hst hk _ _
            · simp only [hm, hm']
              exact twin_bound hst hk hr (.instance i hof)
          | _ =>
            simp only [ht, ht']
            exact twin_fault hst hk _ _
        · simp only [ht, ht']
          exact twin_fault hst hk _ _
      | _ =>
        simp only [hg, hg']
        exact twin_fault hst hk _ _
    · simp only [hg, hg']
      exact twin_fault hst hk _ _

/-! ### Calls -/

end

/-- Parameters are bound to the same arguments. -/
theorem twin_zip (params : List Lexeme) {arguments arguments' : List Value}
    (ha : List.Forall₂ (Value.Twin V W) arguments arguments') {b b' : Bindings Value}
    (hb : Bindings.Twin V W b b') :
    Bindings.Twin V W
      ((params.zip arguments).foldl
        (fun (b : Bindings Value) (param, v) => b.insert param.text v) b)
      ((params.zip arguments').foldl
        (fun (b : Bindings Value) (param, v) => b.insert param.text v) b') := by
  induction params generalizing arguments arguments' b b' with
  | nil => exact hb
  | cons param rest ih =>
    cases ha with
    | nil => exact hb
    | cons hv hvs => exact ih hvs (hb.insert param.text hv)

section

variable (hst : State.Twin V W spot st st') (hk : StackTwin V W base below spot stack stack')
include hst hk

variable {arguments arguments' : List Value}

theorem twin_enterBody {c c' : Closure} (hc : Closure.Twin V W c c')
    (ha : List.Forall₂ (Value.Twin V W) arguments arguments') :
    TwinLater V W base below (enterBody c arguments stack st)
      (enterBody c' arguments' stack' st') := by
  obtain ⟨k, -, hat, hin⟩ := id hc
  obtain ⟨copy, hdecl, hshift⟩ := hin.decl
  have hparams : c.decl.params = c'.decl.params := by
    rw [hdecl, Stmt.params_relabelDecl]
    exact List.map_id' _
  have hbody : c.decl.body = Stmt.relabelAll (.ofIds copy) c'.decl.body := by
    rw [hdecl, Stmt.body_relabelDecl]
  have hnew := hst.enter hat (twin_zip c'.decl.params ha Bindings.twin_empty)
  have hW := W.grows_push st'.store.frames.size (Gap.inner k)
  rw [enterBody, enterBody, hparams, hbody, hst.direct, hst.spread]
  exact TwinLater.of_grows hW
    (twin_of hnew (.cons (.leaveBody (hc.yield.mono hW) (hW.at hst.place)) (hk.mono hW))
    (.execAll ⟨copy, rfl, hshift.body⟩))

theorem twin_instantiate {c c' : Class} (hc : Class.Twin V W c c')
    (ha : List.Forall₂ (Value.Twin V W) arguments arguments') :
    TwinLater V W base below (instantiate c arguments stack st)
      (instantiate c' arguments' stack' st') := by
  have hi : st'.newInstance.1 = st.newInstance.1 := hst.store.fields
  have hv : Value.Twin V W (.instance st.newInstance.1 c) (.instance st.newInstance.1 c') :=
    .instance _ hc
  rw [instantiate, instantiate]
  rcases Option.Rel.cases (hc.findMethod initializerName) with ⟨hm, hm'⟩ | ⟨m, m', hm, hm', hr⟩
  · simp only [hm, hm', hi]
    exact twin_deliver hst.newInstance hk hv
  · simp only [hm, hm', hi]
    obtain ⟨W', hW, hst', hc'⟩ := hst.newInstance.bind hr hv
    exact (twin_enterBody hst' (.cons (.construct (hv.mono hW)) (hk.mono hW)) hc'
      (Value.forall₂_twin_mono hW ha)).of_grows hW

theorem twin_enter (hcfg : Config.Twin V cfg cfg') {c c' : Callable}
    (hc : Value.Twin V W (.callable c) (.callable c')) (line : Nat)
    (ha : List.Forall₂ (Value.Twin V W) arguments arguments') :
    TwinLater V W base below (enter cfg c line arguments stack st)
      (enter cfg' c' line arguments' stack' st') := by
  cases hc with
  | native f =>
    rw [enter, enter, callNative, callNative, hcfg.natives, hcfg.natives', State.readClock,
      State.readClock, hst.clock]
    exact twin_deliver { hst with clock := rfl } hk (.number _)
  | function identity hc => exact twin_enterBody hst hk hc ha
  | «class» hc => exact twin_instantiate hst hk hc ha

omit hst hk in
/-- Twins take the same number of arguments. -/
theorem twin_arity {c c' : Callable} (hc : Value.Twin V W (.callable c) (.callable c')) :
    c'.arity = c.arity := by
  cases hc with
  | native f => rfl
  | function identity hc =>
    obtain ⟨k, -, -, hc⟩ := hc
    exact hc.length_params
  | «class» hc =>
    rw [Callable.arity, Callable.arity]
    rcases Option.Rel.cases (hc.findMethod initializerName) with ⟨hm, hm'⟩ | ⟨m, m', hm, hm', hr⟩
    · rw [hm, hm']
    · obtain ⟨k, -, hr⟩ := hr
      rw [hm, hm']
      exact hr.length_params

theorem twin_call (hcfg : Config.Twin V cfg cfg') {callee callee' : Value}
    (hc : Value.Twin V W callee callee') (line : Nat)
    (ha : List.Forall₂ (Value.Twin V W) arguments arguments') :
    TwinLater V W base below (call cfg callee line arguments stack st)
      (call cfg' callee' line arguments' stack' st') := by
  have hcallable : ∀ {c c' : Callable}, Value.Twin V W (.callable c) (.callable c') →
      TwinLater V W base below (call cfg (.callable c) line arguments stack st)
        (call cfg' (.callable c') line arguments' stack' st') := by
    intro c c' hc
    rw [call, call, twin_arity hc, ← ha.length_eq, hst.depth, hcfg.maxDepth]
    split
    · exact twin_fail hst hk _ _
    · split
      · exact twin_fail hst hk _ _
      · exact twin_enter hst.startCall (.cons .leaveCall hk) hcfg hc line ha
  cases hc with
  | native f => exact hcallable (.native f)
  | function identity hc => exact hcallable (.function identity hc)
  | «class» hc => exact hcallable (.class hc)
  | _ => exact twin_fail hst hk _ _

theorem twin_nextArgument (hcfg : Config.Twin V cfg cfg') {callee callee' : Value}
    (hc : Value.Twin V W callee callee') (line : Nat) {before before' : List Value}
    (hb : List.Forall₂ (Value.Twin V W) before before') {rest rest' : List Expr}
    (hr : Expr.AllTwin V spot.gap rest rest') :
    TwinLater V W base below (nextArgument cfg callee line before rest stack st)
      (nextArgument cfg' callee' line before' rest' stack' st') := by
  obtain ⟨copy, rfl, hr⟩ := hr
  cases rest' with
  | nil => exact twin_call hst hk hcfg hc line (List.rel_reverse hb)
  | cons e rest =>
    exact twin_of hst (.cons (.argument line hc hb ⟨copy, rfl, hr.2⟩) hk) (.eval ⟨copy, rfl, hr.1⟩)

/-! ### Expressions and statements -/

theorem twin_eval (hcfg : Config.Twin V cfg cfg') {e e' : Expr} (he : Expr.Twin V spot.gap e e') :
    TwinLater V W base below (eval cfg stack st e) (eval cfg' stack' st' e') := by
  obtain ⟨copy, rfl, he⟩ := he
  cases e' with
  | literal id value => exact twin_deliver hst hk (by cases value <;> constructor)
  | unary id op mark right =>
    exact twin_of hst (.cons (.unary op mark.line) hk) (.eval ⟨copy, rfl, he⟩)
  | binary id op mark left right =>
    exact twin_of hst (.cons (.binaryLeft op mark.line ⟨copy, rfl, he.2⟩) hk)
      (.eval ⟨copy, rfl, he.1⟩)
  | logical id op mark left right =>
    exact twin_of hst (.cons (.logical op ⟨copy, rfl, he.2⟩) hk) (.eval ⟨copy, rfl, he.1⟩)
  | grouping id inner => exact twin_of hst hk (.eval ⟨copy, rfl, he⟩)
  | var id name =>
    rw [Expr.relabel, eval, eval, hcfg.direct, hcfg.spread]
    exact twin_finish hst hk (hst.lookUp he name)
  | assign id name value =>
    exact twin_of hst (.cons (.assign name he.1) hk) (.eval ⟨copy, rfl, he.2⟩)
  | call id callee paren arguments =>
    exact twin_of hst (.cons (.callee paren.line ⟨copy, rfl, he.2⟩) hk) (.eval ⟨copy, rfl, he.1⟩)
  | get id object name => exact twin_of hst (.cons (.get name) hk) (.eval ⟨copy, rfl, he⟩)
  | set id object name value =>
    exact twin_of hst (.cons (.setObject name ⟨copy, rfl, he.2⟩) hk) (.eval ⟨copy, rfl, he.1⟩)
  | this id keyword =>
    rw [Expr.relabel, eval, eval, hcfg.direct, hcfg.spread]
    exact twin_finish hst hk (hst.lookUp he keyword)
  | super id keyword method => exact twin_superMethod hst hk hcfg he method

end

section

variable (hst : State.Twin V W spot st st')
include hst

variable {copy : Nat → Nat} {decls : List (FunctionDecl Stmt)} {c c' : Option Class}
    {superclass : Option VarRef}

theorem twin_makeFunction {decl : FunctionDecl Stmt} (hne : spot.gap ≠ some 0)
    (hdecl : Stmt.DeclShifted V copy spot.gap decl) :
    State.Twin V W spot (makeFunction (Stmt.relabelDecl (.ofIds copy) decl) st)
      (makeFunction decl st') := by
  have hid : st'.newIdentity.1 = st.newIdentity.1 := hst.store.nextIdentity
  have hat : W.At ⟨spot.gap, st.frame, st'.frame⟩ := by
    rw [hst.direct, hst.spread]
    exact hst.place
  have hv : Value.Twin V W
      (.callable (.function st.newIdentity.1 ⟨Stmt.relabelDecl (.ofIds copy) decl,
        st.frame, false⟩))
      (.callable (.function st'.newIdentity.1 ⟨decl, st'.frame, false⟩)) := by
    rw [hid]
    exact .function _ ⟨spot.gap, hne, hat, rfl, copy, rfl, hdecl⟩
  rw [makeFunction, makeFunction, Stmt.text_relabelDecl]
  exact hst.newIdentity.define hne decl.name.text hv

omit hst in
/-- Methods are found under the same names. -/
theorem twin_methodsIn {k : Gap} {f f' : Nat} (hat : W.At ⟨k, f, f'⟩)
    (hd : Stmt.DeclsShifted V copy k.inner decls) (x : String) :
    Option.Rel (Closure.MethodTwin V W)
      ((methodsIn f (Stmt.relabelDecls (.ofIds copy) decls)).get? x)
      ((methodsIn f' decls).get? x) := by
  -- Methods are inserted one by one, so what is there already is kept general.
  have hgen : ∀ b b' : Bindings Closure,
      (∀ y, Option.Rel (Closure.MethodTwin V W) (b.get? y) (b'.get? y)) →
      Option.Rel (Closure.MethodTwin V W)
        (((Stmt.relabelDecls (.ofIds copy) decls).foldl (fun b decl =>
          b.insert decl.name.text ⟨decl, f, decl.name.text = initializerName⟩) b).get? x)
        ((decls.foldl (fun b decl =>
          b.insert decl.name.text ⟨decl, f', decl.name.text = initializerName⟩) b').get? x) := by
    induction decls with
    | nil => exact fun b b' hb => hb x
    | cons decl rest ih =>
      refine fun b b' hb => ih hd.2 _ _ fun y => ?_
      dsimp only
      rw [Stmt.text_relabelDecl, Bindings.get?_insert, Bindings.get?_insert]
      split
      · exact .some ⟨k, hat, rfl, copy, rfl, hd.1⟩
      · exact hb y
  exact hgen ∅ ∅ fun _ => .none

/-- The frame in which methods are made, and the gap there. -/
theorem twin_methodFrame (hc : Option.Rel (Class.Twin V W) c c')
    (hsome : c.isSome = superclass.isSome) :
    ∃ W' k, W.Grows W' ∧ State.Twin V W' spot (methodFrame c st).2 (methodFrame c' st').2 ∧
      W'.At ⟨k, (methodFrame c st).1, (methodFrame c' st').1⟩ ∧
      k.inner = spot.gap.inClass superclass := by
  have hat : W.At ⟨spot.gap, st.frame, st'.frame⟩ := by
    rw [hst.direct, hst.spread]
    exact hst.place
  cases hc with
  | none =>
    obtain rfl : superclass = none := Option.isNone_iff_eq_none.1 (by cases superclass <;> simp_all)
    exact ⟨W, spot.gap, .refl W, hst, hat, rfl⟩
  | some hc =>
    obtain ⟨ref, rfl⟩ := Option.isSome_iff_exists.1 hsome.symm
    have hb : Bindings.Twin V W (Bindings.insert "super" _ ∅) (Bindings.insert "super" _ ∅) :=
      Bindings.twin_empty.insert "super" (.class hc)
    exact ⟨_, spot.gap.inner, W.grows_push _ _, hst.newFrame hat hb, hst.place_newFrame _, rfl⟩

theorem twin_makeClass (name : Lexeme) (hc : Option.Rel (Class.Twin V W) c c')
    (hsome : c.isSome = superclass.isSome) (hne : spot.gap ≠ some 0)
    (hd : Stmt.DeclsShifted V copy (spot.gap.inClass superclass) decls) :
    ∃ W', W.Grows W' ∧ State.Twin V W' spot
      (makeClass name c (Stmt.relabelDecls (.ofIds copy) decls) st)
        (makeClass name c' decls st') := by
  obtain ⟨W', k, hW, hst', hat, hgap⟩ := twin_methodFrame hst hc hsome
  refine ⟨W', hW, ?_⟩
  have hid : (methodFrame c' st').2.newIdentity.1 = (methodFrame c st).2.newIdentity.1 :=
    hst'.store.nextIdentity
  have hclass : Class.Twin V W'
      ⟨(methodFrame c st).2.newIdentity.1, name.text, c,
        methodsIn (methodFrame c st).1 (Stmt.relabelDecls (.ofIds copy) decls)⟩
      ⟨(methodFrame c' st').2.newIdentity.1, name.text, c',
        methodsIn (methodFrame c' st').1 decls⟩ := by
    refine ⟨hid, rfl, fun x => ?_⟩
    unfold Class.findMethod
    rcases Option.Rel.cases (twin_methodsIn hat (hgap ▸ hd) x) with ⟨hm, hm'⟩ | ⟨m, m', hm, hm', hr⟩
    · simp only [hm, hm']
      cases hc with
      | none => exact .none
      | some hc => exact (hc.mono hW).findMethod x
    · simp only [hm, hm']
      exact .some hr
  rw [makeClass, makeClass]
  exact hst'.newIdentity.define hne name.text (.class hclass)

/-- A superclass is found in both runs or in none. -/
theorem twin_superclassOf (hcfg : Config.Twin V cfg cfg')
    (hs : ∀ ref ∈ superclass, V.Shifts spot.gap (copy ref.id) ref.id) :
    (∃ c c', superclassOf cfg st (superclass.map (VarRef.relabel (.ofIds copy))) = .ok c ∧
      superclassOf cfg' st' superclass = .ok c' ∧ Option.Rel (Class.Twin V W) c c' ∧
      c.isSome = superclass.isSome) ∨
    ∃ stop stop',
      superclassOf cfg st (superclass.map (VarRef.relabel (.ofIds copy))) = .error stop ∧
      superclassOf cfg' st' superclass = .error stop' ∧
      ResultTwin V W (.error stop) (.error stop') := by
  cases superclass with
  | none => exact .inl ⟨none, none, rfl, rfl, .none, rfl⟩
  | some ref =>
    have hr : ResultTwin V W (st.lookUp cfg.distances (copy ref.id) ref.name)
        (st'.lookUp cfg'.distances ref.id ref.name) := by
      rw [hcfg.direct, hcfg.spread]
      exact hst.lookUp (hs ref rfl) ref.name
    change (∃ c c', superclassOf cfg st (some ⟨copy ref.id, ref.name⟩) = _ ∧ _) ∨
      ∃ stop stop', superclassOf cfg st (some ⟨copy ref.id, ref.name⟩) = _ ∧ _
    rw [superclassOf, superclassOf]
    generalize st.lookUp cfg.distances (copy ref.id) ref.name = r,
      st'.lookUp cfg'.distances ref.id ref.name = r' at hr ⊢
    cases hr with
    | ok hv =>
      cases hv with
      | «class» hc => exact .inl ⟨_, _, rfl, rfl, .some hc, rfl⟩
      | _ => exact .inr ⟨_, _, rfl, rfl, .error _⟩
    | error e => exact .inr ⟨_, _, rfl, rfl, .error e⟩
    | fault f f' => exact .inr ⟨_, _, rfl, rfl, .fault f f'⟩

end

section

variable (hst : State.Twin V W spot st st') (hk : StackTwin V W base below spot stack stack')
include hst hk

/-- A statement and its copy are started in the same way. -/
theorem twin_exec (hcfg : Config.Twin V cfg cfg') {s s' : Stmt} (hs : Stmt.Twin V spot.gap s s') :
    TwinLater V W base below (exec cfg stack st s) (exec cfg' stack' st' s') := by
  obtain ⟨copy, rfl, hs⟩ := hs
  cases s' with
  | expression e => exact twin_of hst hk (.eval ⟨copy, rfl, hs⟩)
  | print e => exact twin_of hst (.cons .print hk) (.eval ⟨copy, rfl, hs⟩)
  | var name initial =>
    cases initial with
    | none => exact twin_deliver (hst.define hs.1 name.text .nil) hk .nil
    | some e => exact twin_of hst (.cons (.define name hs.1) hk) (.eval ⟨copy, rfl, hs.2 e rfl⟩)
  | block body =>
    have hW := W.grows_push st'.store.frames.size spot.gap.inner
    rw [Stmt.relabel, exec, exec, hst.direct, hst.spread]
    exact TwinLater.of_grows hW (twin_of (hst.enter hst.place Bindings.twin_empty)
      (.cons (.leaveBlock (hW.at hst.place)) (hk.mono hW)) (.execAll ⟨copy, rfl, hs⟩))
  | branch condition yes no =>
    exact twin_of hst (.cons (.branch ⟨copy, rfl, hs.2.1⟩ ⟨copy, rfl, hs.2.2⟩) hk)
      (.eval ⟨copy, rfl, hs.1⟩)
  | loop condition body =>
    exact twin_of hst (.cons (.loopTest ⟨copy, rfl, hs.1⟩ ⟨copy, rfl, hs.2⟩) hk)
      (.eval ⟨copy, rfl, hs.1⟩)
  | function decl => exact twin_deliver (twin_makeFunction hst hs.1 hs.2) hk .nil
  | ret keyword value =>
    cases value with
    | none => exact twin_of hst hk (.returns .nil)
    | some e => exact twin_of hst (.cons .returns hk) (.eval ⟨copy, rfl, hs e rfl⟩)
  | classDecl name superclass methods =>
    obtain ⟨hne, hsuper, hmethods⟩ := hs
    have hdefine := hst.define hne name.text .nil
    rw [Stmt.relabel, exec, exec]
    rcases twin_superclassOf hdefine hcfg hsuper with
      ⟨c, c', hc, hc', hrel, hsome⟩ | ⟨stop, stop', hc, hc', hrel⟩
    · obtain ⟨W', hW, hst'⟩ := twin_makeClass hdefine name hrel hsome hne hmethods
      simp only [Lexeme.text_relabel, hc, hc']
      exact (twin_deliver hst' (hk.mono hW) .nil).of_grows hW
    · simp only [Lexeme.text_relabel, hc, hc']
      exact twin_finish hdefine hk hrel

omit hk in
theorem resultTwin_bodyResult {c c' : Closure} (hc : Closure.YieldTwin W c c')
    (hv : Value.Twin V W v v') :
    ResultTwin V W (bodyResult c v st.store) (bodyResult c' v' st'.store) := by
  rw [bodyResult, bodyResult, hc.isInitializer]
  split
  · next hinit =>
    obtain ⟨k, hne, hat⟩ := hc.frame hinit
    have hthis := hst.store.getAt hat 0 "this"
    rw [Gap.shift_zero_of_ne hne] at hthis
    rcases hthis with ⟨u, u', hu, hg, hg'⟩ | ⟨e, e', hg, hg'⟩
    · rw [hg, hg']
      exact .ok hu
    · rw [hg, hg']
      exact .fault e e'
  · exact .ok hv

end

/-! ### Steps -/

section

variable (hst : State.Twin V W spot st st') (hk : StackTwin V W base below next stack stack')
  {p p' : Pending} (hp : Pending.Twin V W spot next p p')
include hst hk hp

/-- Twin values are handed on to work that is alike. -/
theorem twin_resume (hcfg : Config.Twin V cfg cfg') (hv : Value.Twin V W v v') :
    TwinLater V W base below (resume cfg v stack st p) (resume cfg' v' stack' st' p') := by
  cases hp with
  | unary op line =>
    rw [resume, resume, hv.unaryApply op]
    exact twin_operator hst hk line _ fun result hr => UnaryOp.isPlain_of_apply hr
  | binaryLeft op line hr => exact twin_of hst (.cons (.binaryRight op line hv) hk) (.eval hr)
  | binaryRight op line hl =>
    rw [resume, resume, hl.binaryApply hv op]
    exact twin_operator hst hk line _ fun result hr => BinaryOp.isPlain_of_apply hr
  | logical op hr =>
    have hd : op.decides v' = op.decides v := by
      cases op <;> simp only [LogicalOp.decides, hv.isTruthy]
    rw [resume, resume, hd]
    split
    · exact twin_deliver hst hk hv
    · exact twin_of hst hk (.eval hr)
  | assign name hid =>
    rw [resume, resume, hcfg.direct, hcfg.spread]
    rcases hst.assignee hid name with ⟨g, g', l, hg, hg', ht⟩ | ⟨stop, stop', hg, hg', hr⟩
    · simp only [hg, hg']
      exact twin_deliver (hst.defineIn ht name.text hv) hk hv
    · simp only [hg, hg']
      exact twin_finish hst hk hr
  | callee line ha => exact twin_nextArgument hst hk hcfg hv line .nil ha
  | argument line hc hb hr => exact twin_nextArgument hst hk hcfg hc line (.cons hv hb) hr
  | get name =>
    cases hv with
    | «instance» i hc => exact twin_property hst hk i hc name
    | _ => exact twin_fail hst hk _ _
  | setObject name hvalue =>
    cases hv with
    | «instance» i hc => exact twin_of hst (.cons (.setValue i name) hk) (.eval hvalue)
    | _ => exact twin_fail hst hk _ _
  | setValue id name => exact twin_deliver (hst.setField id name.text hv) hk hv
  | print => exact twin_print hst hk hv
  | define name hne => exact twin_deliver (hst.define hne name.text hv) hk .nil
  | branch hyes hno =>
    obtain ⟨copy, rfl, hno⟩ := hno
    rename_i no
    cases no with
    | none =>
      rw [Stmt.relabelOption, resume, resume, hv.isTruthy]
      split
      · exact twin_of hst hk (.exec hyes)
      · exact twin_deliver hst hk .nil
    | some no =>
      rw [Stmt.relabelOption, resume, resume, hv.isTruthy]
      split
      · exact twin_of hst hk (.exec hyes)
      · exact twin_of hst hk (.exec ⟨copy, rfl, hno⟩)
  | loopTest hc hb =>
    rw [resume, resume, hv.isTruthy]
    split
    · exact twin_of hst (.cons (.loopBody hc hb) hk) (.exec hb)
    · exact twin_deliver hst hk .nil
  | loopBody hc hb => exact twin_of hst (.cons (.loopTest hc hb) hk) (.eval hc)
  | sequence hr => exact twin_of hst hk (.execAll hr)
  | returns => exact twin_of hst hk (.returns hv)
  | leaveBlock hat => exact twin_deliver (hst.goTo hat) hk hv
  | leaveBody hc hat => exact twin_finish (hst.goTo hat) hk (resultTwin_bodyResult hst hc .nil)
  | construct ho => exact twin_deliver hst hk ho
  | leaveCall => exact twin_deliver hst.endCall hk hv

theorem twin_unwind_returns (hv : Value.Twin V W v v') :
    TwinLater V W base below (unwindOver (.returns v) stack st p)
      (unwindOver (.returns v') stack' st' p') := by
  cases hp with
  | leaveBlock hat => exact twin_of (hst.goTo hat) hk (.returns hv)
  | leaveBody hc hat => exact twin_finish (hst.goTo hat) hk (resultTwin_bodyResult hst hc hv)
  | leaveCall => exact twin_of hst.endCall hk (.returns hv)
  | _ => exact twin_of hst hk (.returns hv)

theorem twin_unwind_fails (e : RuntimeError) :
    TwinLater V W base below (unwindOver (.fails e) stack st p)
      (unwindOver (.fails e) stack' st' p') := by
  cases hp with
  | leaveBlock hat => exact twin_of (hst.goTo hat) hk (.fails e)
  | leaveBody hc hat => exact twin_of (hst.goTo hat) hk (.fails e)
  | leaveCall => exact twin_of hst.endCall hk (.fails e)
  | _ => exact twin_of hst hk (.fails e)

end

/-- Both machines take the same step, as long as the first does not hand its result on. -/
theorem Twin.step (hcfg : Config.Twin V cfg cfg') (h : Twin V W base below m m') (hm : m.Inside) :
    TwinLater V W base below (m.step cfg) (m'.step cfg') := by
  obtain ⟨control, stack, st⟩ := m
  obtain ⟨control', stack', st'⟩ := m'
  obtain ⟨spot, hst, hk, hc⟩ := h
  dsimp only at hst hk hc
  cases hc with
  | eval he => exact twin_eval hst hk hcfg he
  | exec hs => exact twin_exec hst hk hcfg hs
  | @execAll _ stmts hs =>
    obtain ⟨copy, rfl, hs⟩ := hs
    cases stmts with
    | nil => exact twin_deliver hst hk .nil
    | cons s rest =>
      exact twin_of hst (.cons (.sequence ⟨copy, rfl, hs.2⟩) hk) (.exec ⟨copy, rfl, hs.1⟩)
  | deliver hv =>
    cases hk with
    | nil => exact absurd rfl ((hm rfl).1 _)
    | cons hp hk => exact twin_resume hst hk hp hcfg hv
  | returns hv =>
    cases hk with
    | nil => exact absurd rfl ((hm rfl).2 _)
    | cons hp hk => exact twin_unwind_returns hst hk hp hv
  | fails e =>
    cases hk with
    | nil => exact absurd rfl ((hm rfl).2 _)
    | cons hp hk => exact twin_unwind_fails hst hk hp e
  | value hv => exact twin_of hst hk (.value hv)
  | returned hv => exact twin_of hst hk (.returned hv)
  | failed e => exact twin_of hst hk (.failed e)
  | fault f f' => exact twin_of hst hk (.fault f f')

/-- With nothing below, both machines take every step together. -/
theorem Twin.step_bottom (hcfg : Config.Twin V cfg cfg') (h : Twin V W base [] m m') :
    TwinLater V W base [] (m.step cfg) (m'.step cfg') := by
  rcases m.inside_or with hm | ⟨v, st, rfl⟩ | ⟨a, st, rfl⟩
  · exact h.step hcfg hm
  · obtain ⟨control', stack', st'⟩ := m'
    obtain ⟨spot, hst, hk, hc⟩ := h
    cases hk
    cases hc with
    | deliver hv => exact twin_of hst .nil (.value hv)
  · obtain ⟨control', stack', st'⟩ := m'
    obtain ⟨spot, hst, hk, hc⟩ := h
    cases hk
    cases hc with
    | returns hv => exact twin_of hst .nil (.returned hv)
    | fails e => exact twin_of hst .nil (.failed e)

theorem Twin.run (hcfg : Config.Twin V cfg cfg') (h : Twin V W base [] m m') (n : Nat) :
    TwinLater V W base [] (m.run cfg n) (m'.run cfg' n) := by
  induction n generalizing W m m' with
  | zero => exact ⟨W, .refl W, h⟩
  | succ n ih =>
    obtain ⟨W', hW, h'⟩ := h.step_bottom hcfg
    rw [run_succ, run_succ]
    exact (ih h').of_grows hW

/-- Twins are done together. -/
theorem Twin.outcome?_eq_none (h : Twin V W base below m m') (hm : m.outcome? = none) :
    m'.outcome? = none := by
  obtain ⟨control, stack, st⟩ := m
  obtain ⟨control', stack', st'⟩ := m'
  obtain ⟨spot, hst, hk, hc⟩ := h
  cases hc with
  | eval _ => rfl
  | exec _ => rfl
  | execAll _ => rfl
  | deliver _ => rfl
  | returns _ => rfl
  | fails _ => rfl
  | value _ => cases hm
  | returned _ => cases hm
  | failed _ => cases hm
  | fault _ _ => cases hm

theorem Twin.outcome?_fault (h : Twin V W base below m m') {f : Fault}
    (hm : m.outcome? = some (.fault f)) : ∃ f', m'.outcome? = some (.fault f') := by
  obtain ⟨control, stack, st⟩ := m
  obtain ⟨control', stack', st'⟩ := m'
  obtain ⟨spot, hst, hk, hc⟩ := h
  cases hc with
  | fault _ f' => exact ⟨f', rfl⟩
  | _ => cases hm

/-- A machine that hands its result on is back where it began, and so is the other one. -/
theorem Twin.deliver {m' : Machine} (h : Twin V W base below ⟨.deliver v, [], st⟩ m') :
    ∃ v' st', m' = ⟨.deliver v', below, st'⟩ ∧ Value.Twin V W v v' ∧
    State.Twin V W base st st' := by
  obtain ⟨control', stack', st'⟩ := m'
  obtain ⟨spot, hst, hk, hc⟩ := h
  cases hk
  cases hc with
  | deliver hv => exact ⟨_, st', rfl, hv, hst⟩

/-- So is a machine that something abrupt leaves. -/
theorem Twin.unwind {a : Abrupt} (h : Twin V W base below ⟨.unwind a, [], st⟩ m') :
    ∃ a' st', m' = ⟨.unwind a', below, st'⟩ ∧ Control.Twin V W base.gap (.unwind a) (.unwind a') ∧
      State.Twin V W base st st' := by
  obtain ⟨control', stack', st'⟩ := m'
  obtain ⟨spot, hst, hk, hc⟩ := h
  cases hk
  cases hc with
  | returns hv => exact ⟨_, st', rfl, .returns hv, hst⟩
  | fails e => exact ⟨_, st', rfl, .fails e, hst⟩

end Machine

/-! ### Before there are additional frames -/

/-- All frames are their own twins. -/
def Layout.plain (s : Store) : Layout := ⟨(List.range s.frames.size).map (·, none), []⟩

theorem Layout.twins_plain {s : Store} {f f' : Nat} {k : Gap} :
    (Layout.plain s).twins[f]? = some (f', k) ↔ f < s.frames.size ∧ f' = f ∧ k = none := by
  rw [plain, List.getElem?_map]
  by_cases hf : f < s.frames.size
  · rw [List.getElem?_range hf, Option.map_some, Option.some.injEq, Prod.mk.injEq]
    exact ⟨fun h => ⟨hf, h.1.symm, h.2.symm⟩, fun h => ⟨h.2.1.symm, h.2.2.symm⟩⟩
  · rw [List.getElem?_eq_none (by rwa [List.length_range, ← Nat.not_lt])]
    exact ⟨nofun, fun h => absurd h.1 hf⟩

theorem Layout.at_plain {s : Store} {f : Nat} (hf : f < s.frames.size) :
    (Layout.plain s).At ⟨none, f, f⟩ :=
  twins_plain.2 ⟨hf, rfl, rfl⟩

section

variable {T T' : Table} (hT : T.Extends T') {s : Store}
include hT

theorem Class.Sound.twin_self {c : Class} (h : c.Sound T' s) :
    Class.Twin ⟨T.distances, T'.distances⟩ (.plain s) c c := by
  refine ⟨rfl, rfl, fun x => ?_⟩
  cases hm : c.findMethod x with
  | none => exact .none
  | some m =>
    obtain ⟨within, scopes, -, hf, hdecl⟩ := h x m hm
    exact .some ⟨none, Layout.at_plain hf.lt_size, rfl, Stmt.DeclResolved.twin hT hdecl⟩

theorem Value.Sound.twin_self {v : Value} (h : v.Sound T' s) :
    Value.Twin ⟨T.distances, T'.distances⟩ (.plain s) v v := by
  match v with
  | .nil => exact .nil
  | .bool value => exact .bool value
  | .number value => exact .number value
  | .string text => exact .string text
  | .callable (.native f) => exact .native f
  | .callable (.function identity c) =>
    obtain ⟨-, within, scopes, -, hf, hdecl⟩ := h
    exact .function identity
      ⟨none, nofun, Layout.at_plain hf.lt_size, rfl, Stmt.DeclResolved.twin hT hdecl⟩
  | .callable (.class c) => exact .class (Class.Sound.twin_self hT h)
  | .instance i c => exact .instance i (Class.Sound.twin_self hT h)

theorem Store.Sound.twin_self (h : s.Sound T') (hs : globalFrame < s.frames.size) :
    Store.Twin ⟨T.distances, T'.distances⟩ (.plain s) s s where
  size := by rw [Layout.plain, List.length_map, List.length_range]
  lt_size f f' k hf := by
    obtain ⟨hlt, rfl, -⟩ := Layout.twins_plain.1 hf
    exact hlt
  injective f g f' k l hf hg := by
    obtain ⟨-, rfl, -⟩ := Layout.twins_plain.1 hf
    exact (Layout.twins_plain.1 hg).2.1
  global := Layout.at_plain hs
  enclosing f f' k hf := by
    obtain ⟨-, rfl, rfl⟩ := Layout.twins_plain.1 hf
    cases he : (s.frame f').enclosing with
    | none => exact .none
    | some g => exact .some (Layout.at_plain (h.enclosing f' g he))
  additional f f' hf := nomatch hf
  bindings f f' k hf x := by
    obtain ⟨-, rfl, -⟩ := Layout.twins_plain.1 hf
    cases hv : (s.frame f').bindings.get? x with
    | none => exact .none
    | some v => exact .some ((h.bindings f' x v hv).1.twin_self hT)
  fields := rfl
  field i x := by
    cases hv : s.field? i x with
    | none => exact .none
    | some v => exact .some ((h.fields i x v hv).twin_self hT)
  nextIdentity := rfl

/-- A sound entry is its own twin. -/
theorem Pending.Sound.twin_self {here next : Point} {p : Pending}
    (h : p.Sound T' s here next) {f : Nat} (hf : f < s.frames.size) : p.after f < s.frames.size ∧
      Pending.Twin ⟨T.distances, T'.distances⟩ (.plain s) ⟨none, f, f⟩ ⟨none, p.after f,
        p.after f⟩ p p := by
  cases p with
  | unary op line => exact ⟨hf, .unary op line⟩
  | binaryLeft op line right => exact ⟨hf, .binaryLeft op line (Expr.Resolved.twin hT h.2)⟩
  | binaryRight op line left => exact ⟨hf, .binaryRight op line (h.2.twin_self hT)⟩
  | logical op right => exact ⟨hf, .logical op (Expr.Resolved.twin hT h.2)⟩
  | assign id name => exact ⟨hf, .assign name (h.2.2.shifts hT)⟩
  | callee line arguments => exact ⟨hf, .callee line (Expr.AllResolved.twin hT h.2)⟩
  | argument called line before rest =>
    refine ⟨hf, .argument line (h.2.1.twin_self hT) ?_ (Expr.AllResolved.twin hT h.2.2.2)⟩
    exact List.forall₂_same.2 fun v hv => (h.2.2.1 v hv).twin_self hT
  | get name => exact ⟨hf, .get name⟩
  | setObject name value => exact ⟨hf, .setObject name (Expr.Resolved.twin hT h.2)⟩
  | setValue id name => exact ⟨hf, .setValue id name⟩
  | print => exact ⟨hf, .print⟩
  | define name => exact ⟨hf, .define name nofun⟩
  | branch yes no =>
    exact ⟨hf, .branch (Stmt.Resolved.twin hT h.2.1.1) (Stmt.OptionResolved.twin hT h.2.2)⟩
  | loopTest condition body =>
    exact ⟨hf, .loopTest (Expr.Resolved.twin hT h.2.1) (Stmt.Resolved.twin hT h.2.2.1)⟩
  | loopBody condition body =>
    exact ⟨hf, .loopBody (Expr.Resolved.twin hT h.2.1) (Stmt.Resolved.twin hT h.2.2.1)⟩
  | sequence rest => exact ⟨hf, .sequence (Stmt.AllResolved.twin hT h.1)⟩
  | returns => exact ⟨hf, .returns⟩
  | leaveBlock frame => exact ⟨h.2.lt_size, .leaveBlock (Layout.at_plain h.2.lt_size)⟩
  | leaveBody closure frame =>
    refine ⟨h.2.lt_size, .leaveBody ⟨rfl, fun hinit => ?_⟩ (Layout.at_plain h.2.lt_size)⟩
    obtain ⟨v, hv⟩ := Option.isSome_iff_exists.1 (h.1 hinit)
    exact ⟨none, nofun, Layout.at_plain (Store.lt_size_of_get? hv)⟩
  | construct object => exact ⟨hf, .construct (h.2.twin_self hT)⟩
  | leaveCall => exact ⟨hf, .leaveCall⟩

theorem StackSound.twin_self {here : Point} {stack : List Pending}
    (h : StackSound T' s here stack) {f : Nat} (hf : f < s.frames.size) :
    ∃ base, StackTwin ⟨T.distances, T'.distances⟩ (.plain s) base [] ⟨none, f, f⟩ stack stack := by
  induction h generalizing f with
  | nil _ => exact ⟨_, .nil⟩
  | cons hp _ ih =>
    obtain ⟨hafter, hp⟩ := hp.twin_self hT hf
    obtain ⟨base, hk⟩ := ih hafter
    exact ⟨base, .cons hp hk⟩

end

end Lox
