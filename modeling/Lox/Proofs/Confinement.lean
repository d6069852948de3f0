import Mathlib
import Lox.Proofs.DepthLimit
import Lox.Proofs.Reach

/-!
# Calls touch only what they can reach

While a call is active, the machine works inside a closed part of the store (`Machine.Confined`):
the code that is left to run, the values that are at hand and the frames in which the code runs all
belong to it. The frame of the caller need not. It waits on the stack, below the body of the
function, and is only gone back to.

Steps keep a machine confined as long as the call is active (`Machine.Confined.step`). Since the
part that can be reached from the callable, the arguments and the global frame is closed, a call
changes nothing outside it.

* `Machine.runDown`: a run up to the moment when a call is over;
* `Machine.invoke_confined`: whatever is called, with whatever arguments and in whatever state, a
  call that is over has left alone what it cannot reach, and is back in the frame of its caller.
-/

namespace Lox

/-! ### Confined machines -/

/-- What is pending belongs to a part of the store, if it goes on in the frame `f`. -/
def Pending.Confined (A : Address → Prop) (f : Nat) : Pending → Prop
  | .binaryLeft _ _ right => A (.frame f) ∧ NamesIn A right.mentions
  | .logical _ right => A (.frame f) ∧ NamesIn A right.mentions
  | .assign _ _ => A (.frame f)
  | .callee _ arguments => A (.frame f) ∧ NamesIn A (Expr.mentionsAll arguments)
  | .argument called _ before rest =>
    A (.frame f) ∧ called.In A ∧ (∀ v ∈ before, v.In A) ∧ NamesIn A (Expr.mentionsAll rest)
  | .setObject _ value => A (.frame f) ∧ NamesIn A value.mentions
  | .setValue id _ => A (.object id)
  | .define _ => A (.frame f)
  | .branch yes no => A (.frame f) ∧ NamesIn A (yes.mentions ++ Stmt.mentionsOption no)
  | .loopTest condition body => A (.frame f) ∧ NamesIn A (condition.mentions ++ body.mentions)
  | .loopBody condition body => A (.frame f) ∧ NamesIn A (condition.mentions ++ body.mentions)
  | .sequence rest => A (.frame f) ∧ NamesIn A (Stmt.mentionsAll rest)
  | .leaveBody closure _ => closure.In A
  | .construct object => object.In A
  | _ => True

/-- What is pending from the frame `f` on belongs to a part of the store, and leads back to the
    frame `home`. -/
def Stack.Confined (A : Address → Prop) (home : Nat) : Nat → List Pending → Prop
  | f, [] => f = home
  | f, pending :: rest => pending.Confined A f ∧ Stack.Confined A home (pending.after f) rest

/-- What is done next in the frame `f` belongs to a part of the store. -/
def Control.Confined (A : Address → Prop) (f : Nat) : Control → Prop
  | .eval e => A (.frame f) ∧ NamesIn A e.mentions
  | .exec stmt => A (.frame f) ∧ NamesIn A stmt.mentions
  | .execAll stmts => A (.frame f) ∧ NamesIn A (Stmt.mentionsAll stmts)
  | .deliver v => v.In A
  | .unwind (.returns v) => v.In A
  | _ => True

namespace Machine

/-- A machine that works inside the part `A` of the store, with all entries of the stack above
    `base`, and has changed nothing else of the store `s₀`. -/
def Confined (A : Address → Prop) (s₀ : Store) (home : Nat) (base : List Pending)
    (m : Machine) : Prop :=
  ∃ entries, m.stack = entries ++ base ∧ m.state.store.Keeps A s₀ ∧
  m.control.Confined A m.state.frame ∧
    Stack.Confined A home m.state.frame entries

variable {A : Address → Prop} {s₀ : Store} {home : Nat} {base entries : List Pending}
    {st : State} {v : Value}

/-! ### Results -/

theorem confined_deliver (hk : st.store.Keeps A s₀) (hs : Stack.Confined A home st.frame entries)
    (hv : v.In A) : (deliver v (entries ++ base) st).Confined A s₀ home base :=
  ⟨entries, rfl, hk, hv, hs⟩

theorem confined_fails (hk : st.store.Keeps A s₀) (hs : Stack.Confined A home st.frame entries)
    (e : RuntimeError) : Confined A s₀ home base ⟨.unwind (.fails e), entries ++ base, st⟩ :=
  ⟨entries, rfl, hk, trivial, hs⟩

theorem confined_finish (hk : st.store.Keeps A s₀) (hs : Stack.Confined A home st.frame entries)
    {result : Except Stop Value} (hr : ∀ v, result = .ok v → v.In A) :
    (finish result (entries ++ base) st).Confined A s₀ home base := by
  rcases result with (e | fault) | v
  · exact confined_fails hk hs e
  · exact ⟨entries, rfl, hk, trivial, hs⟩
  · exact confined_deliver hk hs (hr v rfl)

/-! ### Variables -/

/-- A variable that is named in the part has a value in it. -/
theorem in_of_lookUp (hk : st.store.Keeps A s₀) (hf : A (.frame st.frame))
    {distances : Distances} {id : Nat} {name : Lexeme} (hn : A (.global name.text))
    (hv : st.lookUp distances id name = .ok v) : v.In A := by
  rcases State.lookUp_eq_ok hv with ⟨distance, hget⟩ | hfind
  · exact hk.getAt hf hn hget
  · exact hk.find? hn hfind

/-- A variable is assigned to in a frame of the part. -/
theorem frame_of_assignee (hk : st.store.Keeps A s₀) (hf : A (.frame st.frame))
    {distances : Distances} {id g : Nat} {name : Lexeme}
    (hg : st.assignee distances id name = .ok g) : A (.frame g) := by
  rw [State.assignee] at hg
  split at hg
  · exact hk.walkOut hf (ok_of_mapError hg)
  · split at hg
    · next f hh =>
      cases hg
      -- A search from the global frame ends there.
      rw [Store.eq_global_of_holder? hh]
      exact hk.global
    · cases hg

/-! ### Methods and calls -/

/-- A method is bound to an instance by a new frame. -/
theorem keeps_bind (hk : st.store.Keeps A s₀) {method : Closure} (hm : method.In A) (ho : v.In A) :
    (st.bind method v).2.store.Keeps A s₀ ∧ (st.bind method v).1.In A := by
  refine ⟨hk.newFrame hm.frame fun x u hu => ?_, hk.newFrames _ (Nat.le_refl _), hm.mentions⟩
  obtain ⟨-, rfl⟩ := Bindings.get?_insert_empty hu
  exact ho

theorem keeps_bound (hk : st.store.Keeps A s₀) {method : Closure} (hm : method.In A) (ho : v.In A) :
    (st.bound method v).2.store.Keeps A s₀ ∧ (st.bound method v).1.In A := by
  obtain ⟨hk', hc⟩ := keeps_bind hk hm ho
  exact ⟨hk'.newIdentity, hc⟩

theorem confined_property (hk : st.store.Keeps A s₀)
    (hs : Stack.Confined A home st.frame entries) {i : Nat} {c : Class}
    (ho : (Value.instance i c).In A) (name : Lexeme) :
    (property i c name (entries ++ base) st).Confined A s₀ home base := by
  rw [property]
  split
  · next v hv => exact confined_deliver hk hs (hk.closed.fields i _ v ho.1 hv)
  · split
    · next method hm =>
      obtain ⟨hk', hv⟩ := keeps_bound hk (ho.2 _ method hm) ho
      exact ⟨entries, rfl, hk', hv, hs⟩
    · exact confined_fails hk hs _

theorem confined_superMethod (hk : st.store.Keeps A s₀)
    (hs : Stack.Confined A home st.frame entries) (hf : A (.frame st.frame))
    (hn : NamesIn A ["this", "super"]) (cfg : Config) (id : Nat) (method : Lexeme) :
    (superMethod cfg id method (entries ++ base) st).Confined A s₀ home base := by
  rw [superMethod]
  split
  · exact ⟨entries, rfl, hk, trivial, hs⟩
  split
  · exact ⟨entries, rfl, hk, trivial, hs⟩
  · next c hsuper =>
    have hc : (Value.callable (.class c)).In A := hk.getAt hf (hn _ (by simp)) hsuper
    split
    · exact ⟨entries, rfl, hk, trivial, hs⟩
    split
    · exact ⟨entries, rfl, hk, trivial, hs⟩
    · next i of hthis =>
      have ho : (Value.instance i of).In A := hk.getAt hf (hn _ (by simp)) hthis
      split
      · next found hm =>
        obtain ⟨hk', hv⟩ := keeps_bound hk (hc _ found hm) ho
        exact ⟨entries, rfl, hk', hv, hs⟩
      · exact confined_fails hk hs _
    · exact ⟨entries, rfl, hk, trivial, hs⟩
  · exact ⟨entries, rfl, hk, trivial, hs⟩

variable {arguments : List Value} {cfg : Config} {superclass : Option Class}

/-- A body runs in a new frame, and the frame of the caller waits below it. -/
theorem confined_enterBody (hk : st.store.Keeps A s₀) (hs : Stack.Confined A home st.frame entries)
    {closure : Closure} (hc : closure.In A) (ha : ∀ v ∈ arguments, v.In A) :
    (enterBody closure arguments (entries ++ base) st).Confined A s₀ home base := by
  obtain ⟨⟨name, params, body⟩, frame, isInitializer⟩ := closure
  refine ⟨.leaveBody _ st.frame :: entries, rfl, hk.newFrame hc.frame fun x u hu => ?_,
    ⟨hk.newFrames _ (Nat.le_refl _), hc.mentions.subset (List.subset_cons_self _ _)⟩, hc, hs⟩
  rcases get?_zip_foldl hu with ⟨hmem, -⟩ | hnone
  · exact ha u hmem
  · cases hnone

theorem confined_enter (hcfg : ∀ f time arguments v, cfg.natives f time arguments = .ok v → v.In A)
    (hk : st.store.Keeps A s₀) (hs : Stack.Confined A home st.frame entries) {c : Callable}
    (hc : (Value.callable c).In A) (line : Nat) (ha : ∀ v ∈ arguments, v.In A) :
    (enter cfg c line arguments (entries ++ base) st).Confined A s₀ home base := by
  rcases c with f | ⟨identity, closure⟩ | c
  · rw [enter, callNative]
    dsimp only
    split
    · next v hv => exact ⟨entries, rfl, hk, hcfg _ _ _ v hv, hs⟩
    · exact ⟨entries, rfl, hk, trivial, hs⟩
  · exact confined_enterBody hk hs hc ha
  · have hk' : st.newInstance.2.store.Keeps A s₀ := hk.newInstance
    have ho : (Value.instance st.newInstance.1 c).In A := ⟨hk.newObjects _ (Nat.le_refl _), hc⟩
    rw [enter, instantiate]
    dsimp only
    split
    · exact ⟨entries, rfl, hk', ho, hs⟩
    · next method hm =>
      obtain ⟨hk'', hclosure⟩ := keeps_bind hk' (hc _ method hm) ho
      have hs' : Stack.Confined A home
          (st.newInstance.2.bind method (.instance st.newInstance.1 c)).2.frame
          (.construct (.instance st.newInstance.1 c) :: entries) := ⟨ho, hs⟩
      exact confined_enterBody hk'' hs' hclosure ha

/-- Calls what can be called, unless there are too many calls. -/
def invoke (cfg : Config) (c : Callable) (line : Nat) (arguments : List Value)
    (stack : List Pending) (st : State) : Machine :=
  if cfg.maxDepth ≤ st.depth then fail line .stackOverflow stack st
  else enter cfg c line arguments (.leaveCall :: stack) st.startCall

theorem confined_invoke (hcfg : ∀ f time arguments v, cfg.natives f time arguments = .ok v → v.In A)
    (hk : st.store.Keeps A s₀) (hs : Stack.Confined A home st.frame entries) {c : Callable}
    (hc : (Value.callable c).In A) (line : Nat) (ha : ∀ v ∈ arguments, v.In A) :
    (invoke cfg c line arguments (entries ++ base) st).Confined A s₀ home base := by
  rw [invoke]
  split
  · exact confined_fails hk hs _
  · have hk' : st.startCall.store.Keeps A s₀ := hk
    have hs' : Stack.Confined A home st.startCall.frame (.leaveCall :: entries) := ⟨trivial, hs⟩
    exact confined_enter hcfg hk' hs' hc line ha

theorem confined_nextArgument
    (hcfg : ∀ f time arguments v, cfg.natives f time arguments = .ok v → v.In A)
    (hk : st.store.Keeps A s₀) (hs : Stack.Confined A home st.frame entries)
    (hf : A (.frame st.frame)) {callee : Value} (hc : callee.In A) (line : Nat)
    {before : List Value} (hb : ∀ v ∈ before, v.In A) {rest : List Expr}
    (hr : NamesIn A (Expr.mentionsAll rest)) :
    (nextArgument cfg callee line before rest (entries ++ base) st).Confined A s₀ home base := by
  rcases rest with _ | ⟨e, rest⟩
  · cases callee with
    | callable c =>
      rw [nextArgument, call]
      split
      · exact confined_fails hk hs _
      · exact confined_invoke hcfg hk hs hc line fun v hv => hb v (List.mem_reverse.1 hv)
    | _ => exact confined_fails hk hs _
  · exact ⟨.argument callee line before rest :: entries, rfl, hk,
      ⟨hf, hr.subset (List.subset_append_left _ _)⟩,
      ⟨hf, hc, hb, hr.subset (List.subset_append_right _ _)⟩, hs⟩

/-! ### Expressions and statements -/

theorem confined_eval (hk : st.store.Keeps A s₀) (hs : Stack.Confined A home st.frame entries)
    (hf : A (.frame st.frame)) (cfg : Config) {e : Expr} (hn : NamesIn A e.mentions) :
    (eval cfg (entries ++ base) st e).Confined A s₀ home base := by
  cases e with
  | literal id value =>
    refine confined_deliver hk hs ?_
    cases value <;> trivial
  | unary id op mark right => exact ⟨.unary op mark.line :: entries, rfl, hk, ⟨hf, hn⟩, trivial, hs⟩
  | binary id op mark left right =>
    exact ⟨.binaryLeft op mark.line right :: entries, rfl, hk,
      ⟨hf, hn.subset (List.subset_append_left _ _)⟩,
      ⟨hf, hn.subset (List.subset_append_right _ _)⟩, hs⟩
  | logical id op mark left right =>
    exact ⟨.logical op right :: entries, rfl, hk, ⟨hf, hn.subset (List.subset_append_left _ _)⟩,
      ⟨hf, hn.subset (List.subset_append_right _ _)⟩, hs⟩
  | grouping id inner => exact ⟨entries, rfl, hk, ⟨hf, hn⟩, hs⟩
  | var id name =>
    exact confined_finish hk hs fun v hv => in_of_lookUp hk hf (hn _ (List.mem_cons_self ..)) hv
  | assign id name value =>
    exact ⟨.assign id name :: entries, rfl, hk, ⟨hf, hn.subset (List.subset_cons_self _ _)⟩, hf, hs⟩
  | call id callee paren arguments =>
    exact ⟨.callee paren.line arguments :: entries, rfl, hk,
      ⟨hf, hn.subset (List.subset_append_left _ _)⟩,
      ⟨hf, hn.subset (List.subset_append_right _ _)⟩, hs⟩
  | get id object name => exact ⟨.get name :: entries, rfl, hk, ⟨hf, hn⟩, trivial, hs⟩
  | set id object name value =>
    exact ⟨.setObject name value :: entries, rfl, hk, ⟨hf, hn.subset (List.subset_append_left _ _)⟩,
      ⟨hf, hn.subset (List.subset_append_right _ _)⟩, hs⟩
  | this id keyword =>
    exact confined_finish hk hs fun v hv => in_of_lookUp hk hf (hn _ (List.mem_cons_self ..)) hv
  | super id keyword method => exact confined_superMethod hk hs hf hn cfg id method

theorem keeps_makeFunction (hk : st.store.Keeps A s₀) (hf : A (.frame st.frame))
    {decl : FunctionDecl Stmt} (hn : NamesIn A (Stmt.mentionsDecl decl)) :
    (makeFunction decl st).store.Keeps A s₀ := by
  have hv : (Value.callable (.function st.store.nextIdentity ⟨decl, st.frame, false⟩)).In A :=
    ⟨hf, hn⟩
  exact hk.newIdentity.define hf _ hv

/-- The methods of a class are made in the current frame, or in a new one right inside. -/
theorem keeps_makeClass (hk : st.store.Keeps A s₀) (hf : A (.frame st.frame))
    (hc : ∀ c ∈ superclass, c.In A) (name : Lexeme) {decls : List (FunctionDecl Stmt)}
    (hn : NamesIn A (Stmt.mentionsDecls decls)) :
    (makeClass name superclass decls st).store.Keeps A s₀ ∧
      (makeClass name superclass decls st).frame = st.frame := by
  have hclass : ∀ identity frame, A (.frame frame) →
      (Class.mk identity name.text superclass (methodsIn frame decls)).In A := by
    intro identity frame hframe x method hm
    rcases Class.findMethod_cases hm with hown | ⟨c, rfl, hinherited⟩
    · obtain ⟨decl, hd, rfl⟩ := get?_methodsIn hown
      exact ⟨hframe, hn.subset (Stmt.mentionsDecl_subset hd)⟩
    · exact hc c rfl x method hinherited
  rcases superclass with _ | c
  · exact ⟨hk.newIdentity.define hf _ (hclass _ _ hf), rfl⟩
  · have hb : ∀ x u, ((∅ : Bindings Value).insert "super" (.callable (.class c))).get? x =
        some u → u.In A := by
      intro x u hu
      obtain ⟨-, rfl⟩ := Bindings.get?_insert_empty hu
      exact hc c rfl
    exact ⟨(hk.newFrame hf hb).newIdentity.define hf _
      (hclass _ _ (hk.newFrames _ (Nat.le_refl _))), rfl⟩

theorem in_of_superclassOf (hk : st.store.Keeps A s₀) (hf : A (.frame st.frame))
    {ref : Option VarRef} (hn : NamesIn A (ref.map (·.name.text)).toList)
    (h : superclassOf cfg st ref = .ok superclass) : ∀ c ∈ superclass, c.In A := by
  rcases ref with _ | ref
  · cases h
    intro c hc
    cases hc
  · obtain ⟨c, rfl, hl⟩ := superclassOf_eq_ok h
    rintro _ ⟨⟩
    have hv : (Value.callable (.class c)).In A :=
      in_of_lookUp hk hf (hn _ (List.mem_cons_self ..)) hl
    exact hv

theorem confined_exec (hk : st.store.Keeps A s₀) (hs : Stack.Confined A home st.frame entries)
    (hf : A (.frame st.frame)) (cfg : Config) {stmt : Stmt} (hn : NamesIn A stmt.mentions) :
    (exec cfg (entries ++ base) st stmt).Confined A s₀ home base := by
  cases stmt with
  | expression e => exact ⟨entries, rfl, hk, ⟨hf, hn⟩, hs⟩
  | print e => exact ⟨.print :: entries, rfl, hk, ⟨hf, hn⟩, trivial, hs⟩
  | var name initial =>
    rcases initial with _ | e
    · exact ⟨entries, rfl, hk.define hf name.text trivial, trivial, hs⟩
    · exact ⟨.define name :: entries, rfl, hk, ⟨hf, hn⟩, hf, hs⟩
  | block body =>
    have hk' : (st.store.newFrame ∅ st.frame).2.Keeps A s₀ :=
      hk.newFrame hf fun x u hu => by cases hu
    exact ⟨.leaveBlock st.frame :: entries, rfl, hk',
      ⟨hk.newFrames _ (Nat.le_refl _), hn⟩, trivial, hs⟩
  | branch condition yes no =>
    exact ⟨.branch yes no :: entries, rfl, hk, ⟨hf, hn.subset (List.subset_append_left _ _)⟩,
      ⟨hf, hn.subset (List.subset_append_right _ _)⟩, hs⟩
  | loop condition body =>
    exact ⟨.loopTest condition body :: entries, rfl, hk,
      ⟨hf, hn.subset (List.subset_append_left _ _)⟩, ⟨hf, hn⟩, hs⟩
  | function decl => exact ⟨entries, rfl, keeps_makeFunction hk hf hn, trivial, hs⟩
  | ret keyword value =>
    rcases value with _ | e
    · exact ⟨entries, rfl, hk, trivial, hs⟩
    · exact ⟨.returns :: entries, rfl, hk, ⟨hf, hn⟩, trivial, hs⟩
  | classDecl name superclass methods =>
    have hk' : (st.define name.text .nil).store.Keeps A s₀ := hk.define hf name.text trivial
    rw [exec]
    split
    · next c hc =>
      have hsuper := in_of_superclassOf hk' hf (hn.subset (List.subset_append_left _ _)) hc
      obtain ⟨hk'', hframe⟩ :=
        keeps_makeClass hk' hf hsuper name (hn.subset (List.subset_append_right _ _))
      exact ⟨entries, rfl, hk'', trivial, hframe ▸ hs⟩
    · have hs' : Stack.Confined A home (st.define name.text .nil).frame entries := hs
      exact confined_finish hk' hs' fun v hv => by cases hv

/-! ### Steps -/

theorem in_of_bodyResult (hk : st.store.Keeps A s₀) {closure : Closure}
    (hc : closure.In A) (hv : v.In A) {result : Value}
    (h : bodyResult closure v st.store = .ok result) : result.In A := by
  rcases bodyResult_eq_ok h with hget | rfl
  · exact hk.getAt hc.frame (hc.mentions _ (Stmt.this_mem_mentionsDecl _)) hget
  · exact hv

theorem confined_resume (hcfg : ∀ f time arguments v, cfg.natives f time arguments = .ok v → v.In A)
    (hk : st.store.Keeps A s₀) {pending : Pending}
    (hs : Stack.Confined A home st.frame (pending :: entries)) (hv : v.In A) :
    (resume cfg v (entries ++ base) st pending).Confined A s₀ home base := by
  obtain ⟨hp, hs⟩ := hs
  cases pending with
  | unary op line =>
    rw [resume]
    split
    · next result h => exact confined_deliver hk hs (UnaryOp.isPlain_of_apply h).isIn
    · exact confined_fails hk hs _
  | binaryLeft op line right => exact ⟨.binaryRight op line v :: entries, rfl, hk, hp, trivial, hs⟩
  | binaryRight op line left =>
    rw [resume]
    split
    · next result h => exact confined_deliver hk hs (BinaryOp.isPlain_of_apply h).isIn
    · exact confined_fails hk hs _
  | logical op right =>
    rw [resume]
    split
    · exact confined_deliver hk hs hv
    · exact ⟨entries, rfl, hk, hp, hs⟩
  | assign id name =>
    rw [resume]
    split
    · next g hg => exact ⟨entries, rfl, hk.define (frame_of_assignee hk hp hg) name.text hv, hv, hs⟩
    · exact confined_finish hk hs fun v hv => by cases hv
  | callee line arguments =>
    exact confined_nextArgument hcfg hk hs hp.1 hv line (List.forall_mem_nil _) hp.2
  | argument called line before rest =>
    obtain ⟨hf, hc, hb, hn⟩ := hp
    exact confined_nextArgument hcfg hk hs hf hc line (List.forall_mem_cons.2 ⟨hv, hb⟩) hn
  | get name =>
    cases v with
    | «instance» i c => exact confined_property hk hs hv name
    | _ => exact confined_fails hk hs _
  | setObject name value =>
    cases v with
    | «instance» i c => exact ⟨.setValue i name :: entries, rfl, hk, hp, hv.1, hs⟩
    | _ => exact confined_fails hk hs _
  | setValue i name => exact ⟨entries, rfl, hk.setField hp name.text hv, hv, hs⟩
  | print =>
    rw [resume]
    rcases print_cases v (entries ++ base) st with hp | ⟨e, hp⟩
    · rw [hp]
      exact ⟨entries, rfl, hk, trivial, hs⟩
    · rw [hp]
      exact ⟨entries, rfl, hk, trivial, hs⟩
  | define name => exact ⟨entries, rfl, hk.define hp name.text hv, trivial, hs⟩
  | branch yes no =>
    obtain ⟨hf, hn⟩ := hp
    rcases no with _ | no
    · rw [resume]
      split
      · exact ⟨entries, rfl, hk, ⟨hf, hn.subset (List.subset_append_left _ _)⟩, hs⟩
      · exact confined_deliver hk hs trivial
    · rw [resume]
      split
      · exact ⟨entries, rfl, hk, ⟨hf, hn.subset (List.subset_append_left _ _)⟩, hs⟩
      · exact ⟨entries, rfl, hk, ⟨hf, hn.subset (List.subset_append_right _ _)⟩, hs⟩
  | loopTest condition body =>
    rw [resume]
    split
    · exact ⟨.loopBody condition body :: entries, rfl, hk,
        ⟨hp.1, hp.2.subset (List.subset_append_right _ _)⟩, hp, hs⟩
    · exact confined_deliver hk hs trivial
  | loopBody condition body =>
    exact ⟨.loopTest condition body :: entries, rfl, hk,
      ⟨hp.1, hp.2.subset (List.subset_append_left _ _)⟩, hp, hs⟩
  | sequence rest => exact ⟨entries, rfl, hk, hp, hs⟩
  | returns => exact ⟨entries, rfl, hk, hv, hs⟩
  | leaveBlock frame => exact ⟨entries, rfl, hk, hv, hs⟩
  | leaveBody closure frame =>
    have hk' : (st.goTo frame).store.Keeps A s₀ := hk
    exact confined_finish hk' hs fun u hu => in_of_bodyResult (v := .nil) hk hp trivial hu
  | construct object => exact ⟨entries, rfl, hk, hp, hs⟩
  | leaveCall => exact ⟨entries, rfl, hk, hv, hs⟩

theorem confined_unwindOver (hk : st.store.Keeps A s₀) {pending : Pending}
    (hs : Stack.Confined A home st.frame (pending :: entries)) {a : Abrupt}
    (ha : (Control.unwind a).Confined A st.frame) :
    (unwindOver a (entries ++ base) st pending).Confined A s₀ home base := by
  obtain ⟨hp, hs⟩ := hs
  have ha' : ∀ f, (Control.unwind a).Confined A f := fun f => by cases a <;> exact ha
  cases pending with
  | leaveBody closure frame =>
    have hk' : (st.goTo frame).store.Keeps A s₀ := hk
    cases a with
    | returns v => exact confined_finish hk' hs fun u hu => in_of_bodyResult hk hp ha hu
    | fails e => exact confined_fails hk' hs e
  | leaveBlock frame => exact ⟨entries, rfl, hk, ha' frame, hs⟩
  | _ => exact ⟨entries, rfl, hk, ha' _, hs⟩

/-- A step inside a call keeps the machine confined. -/
theorem Confined.step (hcfg : ∀ f time arguments v, cfg.natives f time arguments = .ok v → v.In A)
    {m : Machine} (h : m.Confined A s₀ home base) (hb : base.length < m.stack.length) :
    (Machine.step cfg m).Confined A s₀ home base := by
  obtain ⟨control, stack, st⟩ := m
  obtain ⟨entries, rfl, hk, hc, hs⟩ := h
  cases control with
  | eval e => exact confined_eval hk hs hc.1 cfg hc.2
  | exec stmt => exact confined_exec hk hs hc.1 cfg hc.2
  | execAll stmts =>
    rcases stmts with _ | ⟨stmt, rest⟩
    · exact confined_deliver hk hs trivial
    · exact ⟨.sequence rest :: entries, rfl, hk, ⟨hc.1, hc.2.subset (List.subset_append_left _ _)⟩,
        ⟨hc.1, hc.2.subset (List.subset_append_right _ _)⟩, hs⟩
  | deliver v =>
    rcases entries with _ | ⟨pending, entries⟩
    · exact absurd hb (Nat.lt_irrefl _)
    · exact confined_resume hcfg hk hs hc
  | unwind a =>
    rcases entries with _ | ⟨pending, entries⟩
    · exact absurd hb (Nat.lt_irrefl _)
    · exact confined_unwindOver hk hs hc
  | done o => exact ⟨entries, rfl, hk, trivial, hs⟩

/-! ### Runs of a call -/

/-- The first machine on the way whose stack is down to the given height, if it comes within `fuel`
    steps. -/
def runDown (cfg : Config) (height : Nat) : (fuel : Nat) → Machine → Option Machine
  | 0, m => if m.stack.length ≤ height then some m else none
  | fuel + 1, m => if m.stack.length ≤ height then some m else runDown cfg height fuel (step cfg m)

theorem Confined.runDown
    (hcfg : ∀ f time arguments v, cfg.natives f time arguments = .ok v → v.In A) {m m' : Machine}
    {fuel : Nat} (h : m.Confined A s₀ home base)
    (hr : Machine.runDown cfg base.length fuel m = some m') :
    m'.Confined A s₀ home base ∧ m'.stack.length ≤ base.length := by
  induction fuel generalizing m with
  | zero =>
    rw [Machine.runDown] at hr
    split at hr
    · next hle =>
      cases hr
      exact ⟨h, hle⟩
    · cases hr
  | succ fuel ih =>
    rw [Machine.runDown] at hr
    split at hr
    · next hle =>
      cases hr
      exact ⟨h, hle⟩
    · next hle => exact ih (h.step hcfg (Nat.lt_of_not_le hle)) hr

/-- What a call can reach at once. -/
def callRoots (c : Callable) (arguments : List Value) : List Address :=
  .frame globalFrame :: ((Value.callable c).references ++ arguments.flatMap Value.references)

/-- The native functions of sessions yield nothing that refers to the store. -/
theorem in_of_natives (s : Session) (A : Address → Prop) (f : Native) (time : Float)
    (arguments : List Value) (v : Value)
    (h : s.config.natives f time arguments = .ok v) : v.In A := by
  cases h
  trivial

/-- A call begins inside what can be reached from the global frame, the callable and the
    arguments. -/
theorem confined_reached (s : Session) (st : State) (globals : Bool) (c : Callable) (line : Nat)
    (arguments : List Value) (stack : List Pending) :
    (invoke s.config c line arguments stack st).Confined
      (st.store.Reached globals (callRoots c arguments)) st.store
      st.frame stack := by
  -- The callable and the arguments are roots, so all that they refer to is reached.
  have hroot : ∀ v : Value, v.references ⊆ callRoots c arguments →
      v.In (st.store.Reached globals (callRoots c arguments)) := fun v hv =>
    Value.in_of_references fun a ha => (Store.Reaches.root (hv ha)).reached
  have hkeeps : st.store.Keeps (st.store.Reached globals (callRoots c arguments)) st.store :=
    Store.keeps_reached (List.mem_cons_self ..)
  have hstack : Stack.Confined (st.store.Reached globals (callRoots c arguments))
      st.frame st.frame [] := rfl
  refine confined_invoke (in_of_natives s _) hkeeps hstack (hroot _ fun a ha => ?_) line fun v hv =>
    hroot v fun a ha => ?_
  · exact List.mem_cons_of_mem _ (List.mem_append_left _ ha)
  · exact List.mem_cons_of_mem _ (List.mem_append_right _ (List.mem_flatMap.2 ⟨v, hv, ha⟩))

/-- Calls touch only what they can reach. The machine calls what can be called with as many
    arguments as it takes, by `invoke`. Whatever is invoked, with whatever arguments and in whatever
    state, once the call is over the stack and the current frame are as before, and so is each frame
    and each instance that was there and could not be reached from the global frame, the callable
    and the arguments. It does not matter whether all global variables are followed, or only those
    that are mentioned in what can be reached: so the functions that two calls of another one have
    made do not touch the frames of each other, if they do not mention variables that lead there. -/
theorem invoke_confined (s : Session) (st : State) (c : Callable) (line : Nat)
    (arguments : List Value) (stack : List Pending) :
    (arguments.length = c.arity →
      call s.config (.callable c) line arguments stack st =
        invoke s.config c line arguments stack st) ∧
    ∀ fuel m,
      runDown s.config stack.length fuel (invoke s.config c line arguments stack st) = some m →
      m.stack = stack ∧ m.state.frame = st.frame ∧
      ∀ globals : Bool,
        (∀ f < st.store.frames.size, ¬ st.store.Reaches globals (callRoots c arguments) (.frame f) →
          m.state.store.frame f = st.store.frame f) ∧
        ∀ i < st.store.fields.size, ¬ st.store.Reaches globals (callRoots c arguments) (.object i) →
          m.state.store.fields[i]? = st.store.fields[i]? := by
  refine ⟨fun hl => ?_, fun fuel m hm => ?_⟩
  · rw [call, if_neg (not_not.2 hl)]
    rfl
  have hend := fun globals => (confined_reached s st globals c line arguments stack).runDown
    (in_of_natives s _) hm
  have hstack : m.stack = stack ∧ m.state.frame = st.frame := by
    obtain ⟨⟨entries, hm, -, -, hs⟩, hle⟩ := hend true
    -- The stack is no higher than that of the caller, so nothing is left above it.
    rw [hm, List.length_append] at hle
    obtain rfl : entries = [] := List.eq_nil_of_length_eq_zero (by omega)
    exact ⟨hm, hs⟩
  refine ⟨hstack.1, hstack.2, fun globals => ?_⟩
  obtain ⟨⟨entries, -, hk, -, -⟩, -⟩ := hend globals
  -- What was there before and is not reached does not belong to the part, which has only new frames
  -- besides.
  refine ⟨fun f hf hr => hk.frames f ?_, fun i hi hr => hk.fields i ?_⟩
  · exact fun h => h.elim hr (Nat.not_le_of_lt hf)
  · exact fun h => h.elim hr (Nat.not_le_of_lt hi)

end Machine

/-- What can be called, if a value can be. -/
def Value.callables : Value → List Callable
  | .callable c => [c]
  | _ => []

namespace Machine

/-- One function has made the counters in the variables `a` and `b`. A call of the first one counts
    in its own frame, and leaves the frame of the second one alone. -/
theorem invoke_confined_counters :
    ∃ s : Session, s.Reachable ∧ (s.state.store.frame 2).bindings.contains "i" ∧
      ∃ c ∈ (s.state.store.find? globalFrame "a").toList.flatMap Value.callables, ∃ m,
        runDown s.config 0 100 (call s.config (.callable c) 1 [] [] s.state) = some m ∧
        ((m.state.store.frame 1).bindings.get? "i").map Value.display = some "1" ∧
        ¬ s.state.store.Reaches false (callRoots c []) (.frame 2) ∧
        m.state.store.frame 2 = s.state.store.frame 2 := by
  let s := ((Session.new .unlimited (.still 0) 16).run 200
    ("fun make() \x7b var i = 0; fun count() \x7b i = i + 1; return i; \x7d return count; \x7d " ++
      "var a = make(); var b = make();").toUTF8.toList).2
  have hcalled : ∃ c ∈ (s.state.store.find? globalFrame "a").toList.flatMap Value.callables,
      (runDown s.config 0 100 (invoke s.config c 1 [] [] s.state)).map
          (fun m => ((m.state.store.frame 1).bindings.get? "i").map Value.display) =
            some (some "1") ∧
        (∀ a ∈ callRoots c [], ∀ b ∈ s.state.store.references false a, b ∈ callRoots c []) ∧
        Address.frame 2 ∉ callRoots c [] ∧ c.arity = 0 := by
    decide +kernel
  obtain ⟨c, hc, hrun, hclosed, hnot, harity⟩ := hcalled
  obtain ⟨m, hm, hcount⟩ := Option.map_eq_some_iff.1 hrun
  -- The roots refer to nothing but each other, so nothing else is reached from them.
  have hreach : ¬ s.state.store.Reaches false (callRoots c []) (.frame 2) :=
    fun h => hnot (h.mem_of_closed hclosed)
  have hcall := (invoke_confined s s.state c 1 [] []).1 harity.symm
  have hkept := ((invoke_confined s s.state c 1 [] []).2 100 m hm).2.2 false
  exact ⟨s, .run _ _ (.new _ _ _), by decide +kernel, c, hc, m, by rw [hcall, hm], hcount, hreach,
    hkept.1 2 (by decide +kernel) hreach⟩

end Machine

end Lox
