import Mathlib
import Lox.Proofs.Receivers
import Lox.Proofs.Returning

/-!
# `this` and `super`

In the body of a method `this` is an instance, and `super` looks methods up in the superclass of the
class that the method belongs to. Both are found by walking out over frames, and the frames hold no
classes: what says that the right ones are found is that code always runs in its place
(`Machine.Seated`), which steps keep.

A class declaration can be executed many times, so the same code can be in methods of many classes.
If the classes have superclasses, their methods are made in frames of their own. If not, they are
made in the frame in which the declaration is executed, and this happens once for each frame: a
declaration stands in a list of statements, and each such list is executed from its beginning to its
end in a frame of its own. So the declarations that are still to be executed in a frame are not
those of classes that were built in it (`Scene.Agenda`), and a frame together with an expression
tells which class the expression belongs to (`Scene.Valid.distinct`).

* `Machine.Seated.step`: a step keeps code in its place;
* `Session.this_super_lexical`: `this` and `super` are those of the class around them.
-/

namespace Lox

/-! ### Declarations of methods -/

section

variable {decl : FunctionDecl Stmt} {decls : List (FunctionDecl Stmt)}

theorem Stmt.idsDecl_sublist (h : decl ∈ decls) : (idsDecl decl).Sublist (idsDecls decls) := by
  induction decls with
  | nil => cases h
  | cons first rest ih =>
    rcases List.mem_cons.1 h with rfl | h
    · exact List.sublist_append_left _ _
    · exact (ih h).trans (List.sublist_append_right _ _)

theorem Stmt.nodesDecl_subset (path : Path) (h : decl ∈ decls) :
    nodesDecl path (Walk.methodScope decl.name) decl ⊆ nodesDecls path decls := by
  induction decls with
  | nil => cases h
  | cons first rest ih =>
    rcases List.mem_cons.1 h with rfl | h
    · exact List.subset_append_left _ _
    · exact List.Subset.trans (ih h) (List.subset_append_right _ _)

theorem Stmt.declRegular_of_mem (hr : DeclsRegular decls) (h : decl ∈ decls) :
    DeclRegular decl := by
  induction decls with
  | nil => cases h
  | cons first rest ih =>
    rcases List.mem_cons.1 h with rfl | h
    · exact hr.1
    · exact ih hr.2 h

end

/-! ### Class declarations that are to come -/

/-- The expressions in the methods of the class that a statement declares. -/
def Stmt.classIds : Stmt → List Nat
  | .classDecl _ _ methods => Stmt.idsDecls methods
  | _ => []

theorem Stmt.classIds_sublist (stmt : Stmt) : stmt.classIds.Sublist stmt.ids := by
  cases stmt with
  | classDecl name superclass methods => exact List.sublist_append_right _ _
  | _ => exact List.nil_sublist _

theorem Stmt.classIdsAll_sublist (stmts : List Stmt) :
    (stmts.flatMap classIds).Sublist (idsAll stmts) := by
  induction stmts with
  | nil => exact .refl _
  | cons stmt rest ih => exact stmt.classIds_sublist.append ih

theorem Stmt.classIds_of_declares? {stmt : Stmt} (h : stmt.declares? = none) :
    stmt.classIds = [] := by
  cases stmt with
  | classDecl name superclass methods => cases h
  | _ => rfl

/-- The expressions in the methods of classes that are declared next. -/
def Control.classIds : Control → List Nat
  | .exec stmt => stmt.classIds
  | .execAll stmts => stmts.flatMap Stmt.classIds
  | _ => []

/-- The expressions in the methods of classes that are declared later. -/
def Pending.classIds : Pending → List Nat
  | .sequence rest => rest.flatMap Stmt.classIds
  | _ => []

/-- The classes that are declared later, from the frame `f` on: for each expression in their
    methods, the frame in which the class is declared. -/
def Stack.agenda : Nat → List Pending → List (Nat × Nat)
  | _, [] => []
  | f, pending :: rest => pending.classIds.map (f, ·) ++ Stack.agenda (pending.after f) rest

namespace Scene

variable {σ : Scene} {keys keys' : List (Nat × Nat)}

/-- Classes are to be declared that were not built yet, none of them twice. -/
structure Agenda (σ : Scene) (keys : List (Nat × Nat)) : Prop where
  nodup : keys.Nodup
  old : ∀ key ∈ keys, key.1 < σ.store.frames.size
  isNew : ∀ c ∈ σ.built, ∀ key ∈ keys, ¬ c.Holds key.1 key.2

theorem Agenda.sublist (h : σ.Agenda keys) (hk : keys'.Sublist keys) : σ.Agenda keys' :=
  ⟨h.nodup.sublist hk, fun key hm => h.old key (hk.subset hm),
    fun c hc key hm => h.isNew c hc key (hk.subset hm)⟩

theorem Agenda.later (h : σ.Agenda keys) {s : Store} (hs : σ.store.Retains s) :
    Agenda { σ with store := s } keys :=
  ⟨h.nodup, fun key hm => Nat.lt_of_lt_of_le (h.old key hm) hs.size, h.isNew⟩

variable {c : Class}

/-- Methods are made in frames that are there, and their expressions are among those that are
    settled. -/
theorem Valid.lt_of_holds (h : σ.Valid) (hc : c ∈ σ.built) {f id : Nat} (hh : c.Holds f id) :
    f < σ.store.frames.size ∧ id < σ.table.bound := by
  obtain ⟨name, method, hm, rfl, hid⟩ := hh
  have hmethod := (h.classes c hc).methods name method hm
  obtain ⟨path, kind, -, ha⟩ := hmethod.code
  exact ⟨hmethod.frame, ha.bound id hid⟩

/-- In a new frame nothing was built yet. -/
theorem Agenda.enter (h : σ.Agenda keys) (hσ : σ.Valid) {ids : List Nat} (hids : ids.Nodup)
    (bindings : Bindings Value) (enclosing : Nat) :
    Agenda { σ with store := (σ.store.newFrame bindings enclosing).2 }
      (ids.map (σ.store.frames.size, ·) ++ keys) := by
  refine ⟨?_, fun key hm => ?_, fun c hc key hm => ?_⟩
  · -- What was to be declared before is to be declared in older frames.
    refine (hids.map fun a b hab => (Prod.mk.inj hab).2).append h.nodup fun key hm hm' => ?_
    obtain ⟨id, -, rfl⟩ := List.mem_map.1 hm
    exact absurd (h.old _ hm') (Nat.lt_irrefl _)
  · rcases List.mem_append.1 hm with hm | hm
    · obtain ⟨id, -, rfl⟩ := List.mem_map.1 hm
      exact Store.lt_size_newFrame _ _ _
    · exact Nat.lt_of_lt_of_le (h.old key hm) (Store.Retains.newFrame _ _ _).size
  · rcases List.mem_append.1 hm with hm | hm
    · obtain ⟨id, -, rfl⟩ := List.mem_map.1 hm
      exact fun hh => absurd (hσ.lt_of_holds hc hh).1 (Nat.lt_irrefl _)
    · exact h.isNew c hc key hm

/-- A class is built whose methods hold no expression that those of another class hold in the same
    frame. -/
theorem Valid.build (h : σ.Valid) (hc : c.Founded { σ with built := σ.built ++ [c] })
    (hn : ∀ d ∈ σ.built, ∀ f id, c.Holds f id → ¬ d.Holds f id) :
    Valid { σ with built := σ.built ++ [c] } := by
  have hbefore := σ.before_build c
  refine ⟨fun f name v hv => (h.bindings f name v hv).later hbefore,
    fun i name v hv => (h.fields i name v hv).later hbefore, fun d hd => ?_,
    fun d hd e he f id hhd hhe => ?_⟩
  · rcases List.mem_append.1 hd with hd | hd
    · exact (h.classes d hd).later hbefore
    · exact List.mem_singleton.1 hd ▸ hc
  · -- Two old classes, an old and the new one, the new and an old one, or the new one twice.
    rcases List.mem_append.1 hd with hd | hd <;> rcases List.mem_append.1 he with he | he
    · exact h.distinct d hd e he f id hhd hhe
    · exact absurd hhd (hn d hd f id (List.mem_singleton.1 he ▸ hhe))
    · exact absurd hhe (hn e he f id (List.mem_singleton.1 hd ▸ hhd))
    · exact (List.mem_singleton.1 hd).trans (List.mem_singleton.1 he).symm

theorem Agenda.build (h : σ.Agenda keys) (hn : ∀ key ∈ keys, ¬ c.Holds key.1 key.2) :
    Agenda { σ with built := σ.built ++ [c] } keys := by
  refine ⟨h.nodup, h.old, fun d hd key hm => ?_⟩
  rcases List.mem_append.1 hd with hd | hd
  · exact h.isNew d hd key hm
  · exact List.mem_singleton.1 hd ▸ hn key hm

end Scene

/-! ### Machines with code in its place -/

/-- What is pending in the frame `f` has its code in its place. -/
def Pending.Seated (σ : Scene) (f : Nat) : Pending → Prop
  | .binaryLeft _ _ right => right.Seated σ f
  | .logical _ right => right.Seated σ f
  | .assign _ name => name.IsName
  | .callee _ arguments => Expr.AllSeated σ f arguments
  | .argument called _ before rest => called.Seated σ ∧ (∀ v ∈ before, v.Seated σ) ∧
      Expr.AllSeated σ f rest
  | .setObject _ value => value.Seated σ f
  | .define name => name.IsName
  | .branch yes no => ∃ condition, (Stmt.branch condition yes no).Seated σ f
  | .loopTest condition body => (Stmt.loop condition body).Seated σ f
  | .loopBody condition body => (Stmt.loop condition body).Seated σ f
  | .sequence rest => Stmt.AllSeated σ f rest
  | .leaveBlock g => g < σ.store.frames.size
  | .leaveBody _ g => g < σ.store.frames.size
  | .construct object => object.Seated σ
  | _ => True

/-- All that is pending from the frame `f` on has its code in its place. -/
def Stack.Seated (σ : Scene) : Nat → List Pending → Prop
  | _, [] => True
  | f, pending :: rest => pending.Seated σ f ∧ Stack.Seated σ (pending.after f) rest

/-- What is done next in the frame `f` has its code in its place. -/
def Control.Seated (σ : Scene) (f : Nat) : Control → Prop
  | .eval e => e.Seated σ f
  | .exec stmt => stmt.Seated σ f
  | .execAll stmts => Stmt.AllSeated σ f stmts
  | .deliver v => v.Seated σ
  | .unwind (.returns v) => v.Seated σ
  | _ => True

variable {σ : Scene}

theorem Pending.Seated.later {σ' : Scene} (hσ : σ.Before σ') {f : Nat} {pending : Pending}
    (h : pending.Seated σ f) : pending.Seated σ' f := by
  cases pending with
  | binaryLeft op line right => exact Expr.Seated.later hσ h
  | logical op right => exact Expr.Seated.later hσ h
  | callee line arguments => exact Expr.AllSeated.later hσ h
  | argument called line before rest =>
    exact ⟨h.1.later hσ, fun v hv => (h.2.1 v hv).later hσ, Expr.AllSeated.later hσ h.2.2⟩
  | setObject name value => exact Expr.Seated.later hσ h
  | branch yes no =>
    obtain ⟨condition, h⟩ := h
    exact ⟨condition, h.later hσ⟩
  | loopTest condition body => exact Stmt.Seated.later hσ h
  | loopBody condition body => exact Stmt.Seated.later hσ h
  | sequence rest => exact Stmt.AllSeated.later hσ h
  | leaveBlock g => exact Nat.lt_of_lt_of_le h hσ.store.size
  | leaveBody closure g => exact Nat.lt_of_lt_of_le h hσ.store.size
  | construct object => exact Value.Seated.later hσ h
  | _ => exact h

theorem Stack.Seated.later {σ' : Scene} (hσ : σ.Before σ') {f : Nat} {stack : List Pending}
    (h : Stack.Seated σ f stack) : Stack.Seated σ' f stack := by
  induction stack generalizing f with
  | nil => trivial
  | cons pending rest ih => exact ⟨h.1.later hσ, ih h.2⟩

/-- What waits for a result in the frame `f` is in its place. -/
structure Stack.Ready (σ : Scene) (f : Nat) (stack : List Pending) : Prop where
  valid : σ.Valid
  frame : f < σ.store.frames.size
  entries : Stack.Seated σ f stack
  agenda : σ.Agenda (Stack.agenda f stack)

namespace Stack.Ready

variable {σ : Scene} {f : Nat} {stack : List Pending}

theorem later (h : Ready σ f stack) {s : Store} (hs : σ.store.Retains s)
    (hv : Scene.Valid { σ with store := s }) : Ready { σ with store := s } f stack :=
  ⟨hv, Nat.lt_of_lt_of_le h.frame hs.size, h.entries.later (σ.before_of_retains hs),
    h.agenda.later hs⟩

theorem newIdentity (h : Ready σ f stack) :
    Ready { σ with store := σ.store.newIdentity.2 } f stack :=
  h.later (.newIdentity _) h.valid.newIdentity

theorem define (h : Ready σ f stack) (g : Nat) {name : Lexeme} (hn : name.IsName) {v : Value}
    (hv : v.Seated σ) : Ready { σ with store := σ.store.define g name.text v } f stack :=
  h.later (.define _ g hn v) (h.valid.define g hn hv)

/-- An entry that goes on in the same frame, and declares no class. -/
theorem push (h : Ready σ f stack) (pending : Pending) (hp : pending.Seated σ f)
    (hi : pending.classIds = []) (ha : pending.after f = f) : Ready σ f (pending :: stack) := by
  refine ⟨h.valid, h.frame, ⟨hp, ha.symm ▸ h.entries⟩, ?_⟩
  rw [Stack.agenda, hi, ha]
  exact h.agenda

/-- What is below an entry. -/
theorem pop {pending : Pending} (h : Ready σ f (pending :: stack))
    (hf : pending.after f < σ.store.frames.size) : Ready σ (pending.after f) stack :=
  ⟨h.valid, hf, h.entries.2, h.agenda.sublist (List.sublist_append_right _ _)⟩

/-- What is done next declares no class. -/
theorem agenda_nil (h : Ready σ f stack) {ids : List Nat} (hi : ids = []) :
    σ.Agenda (ids.map (f, ·) ++ Stack.agenda f stack) := by
  rw [hi]
  exact h.agenda

end Stack.Ready

/-- All code of a machine is in its place, and no class declaration is to be executed again in the
    same frame. -/
structure Machine.Seated (T : Table) (built : List Class) (m : Machine) : Prop where
  valid : Scene.Valid ⟨T, built, m.state.store⟩
  frame : m.state.frame < m.state.store.frames.size
  control : m.control.Seated ⟨T, built, m.state.store⟩ m.state.frame
  entries : Stack.Seated ⟨T, built, m.state.store⟩ m.state.frame m.stack
  agenda : Scene.Agenda ⟨T, built, m.state.store⟩
    (m.control.classIds.map (m.state.frame, ·) ++ Stack.agenda m.state.frame m.stack)

namespace Machine

open Stack (Ready)

variable {T : Table} {built : List Class} {stack : List Pending} {st : State} {v : Value}

/-! ### Results -/

/-- A machine that does something next which declares no class. -/
theorem Seated.of_ready (h : Ready ⟨T, built, st.store⟩ st.frame stack) {control : Control}
    (hc : control.Seated ⟨T, built, st.store⟩ st.frame) (hi : control.classIds = []) :
    (⟨control, stack, st⟩ : Machine).Seated T built :=
  ⟨h.valid, h.frame, hc, h.entries, h.agenda_nil hi⟩

theorem Seated.ready {control : Control} (h : (⟨control, stack, st⟩ : Machine).Seated T built) :
    Ready ⟨T, built, st.store⟩ st.frame stack :=
  ⟨h.valid, h.frame, h.entries, h.agenda.sublist (List.sublist_append_right _ _)⟩

theorem seated_finish (h : Ready ⟨T, built, st.store⟩ st.frame stack) {result : Except Stop Value}
    (hr : ∀ v, result = .ok v → v.Seated ⟨T, built, st.store⟩) :
    (finish result stack st).Seated T built := by
  rcases result with (e | fault) | v
  · exact .of_ready h trivial rfl
  · exact .of_ready h trivial rfl
  · exact .of_ready h (hr v rfl) rfl

variable {pending : Pending} {id : Nat} {name keyword : Lexeme} {c : Class} {arguments : List Value}
    {superclass : Option Class} {decls : List (FunctionDecl Stmt)} {ref : Option VarRef}

/-- A list of statements is executed in a new frame, and an entry leads back. -/
theorem Seated.enter (h : Ready ⟨T, built, st.store⟩ st.frame stack) {bindings : Bindings Value}
    {outer : Nat} (hb : ∀ x v, bindings.get? x = some v → v.Seated ⟨T, built, st.store⟩)
    {stmts : List Stmt}
    (hs : Stmt.AllSeated ⟨T, built, (st.store.newFrame bindings outer).2⟩
      st.store.frames.size stmts)
    (hp : pending.Seated ⟨T, built, (st.store.newFrame bindings outer).2⟩ st.store.frames.size)
    (hi : pending.classIds = []) (ha : pending.after st.store.frames.size = st.frame) :
    (⟨.execAll stmts, pending :: stack, st.enter bindings outer⟩ : Machine).Seated T built := by
  have hretains := Store.Retains.newFrame st.store bindings outer
  obtain ⟨-, path, hh⟩ := id hs
  have hids := hh.admits.nodup.sublist (Stmt.classIdsAll_sublist stmts)
  refine ⟨h.valid.newFrame hb outer, Store.lt_size_newFrame _ _ _, hs, ⟨hp, ?_⟩, ?_⟩
  · change Stack.Seated _ (pending.after st.store.frames.size) stack
    rw [ha]
    exact h.entries.later (Scene.before_of_retains ⟨T, built, st.store⟩ hretains)
  · change Scene.Agenda _ (_ ++ (pending.classIds.map (st.store.frames.size, ·) ++
      Stack.agenda (pending.after st.store.frames.size) stack))
    rw [hi, ha]
    exact h.agenda.enter h.valid hids bindings outer

/-! ### Variables -/

theorem seated_of_lookUp (h : Scene.Valid ⟨T, built, st.store⟩) {distances : Distances}
    (hv : st.lookUp distances id name = .ok v) : v.Seated ⟨T, built, st.store⟩ := by
  rcases State.lookUp_eq_ok hv with ⟨distance, hget⟩ | hfind
  · exact h.getAt hget
  · exact h.find? hfind

/-! ### Methods and calls -/

/-- Reads a method of the class `c`, its own or an inherited one, for the given instance. -/
def readMethod (c : Class) (name : Lexeme) (object : Value) (stack : List Pending)
    (st : State) : Machine :=
  match c.findMethod name.text with
  | some method =>
    match st.bound method object with
    | (v, st) => deliver v stack st
  | none => fail name.line (.undefinedProperty name.text) stack st

/-- A method is found in a class above that of the instance. -/
theorem seated_readMethod (h : Ready ⟨T, built, st.store⟩ st.frame stack) {of : Class}
    (hof : of ∈ built) (hc : c ∈ of.lineage) (name : Lexeme) (i : Nat) :
    (readMethod c name (.instance i of) stack st).Seated T built := by
  rw [readMethod]
  split
  · next method hm =>
    obtain ⟨owner, howner, hown⟩ := Class.exists_owner hm
    obtain ⟨hvalid, hclosure⟩ := h.valid.bind hof (Class.mem_lineage_trans hc howner) hown i
    have hready := (h.later (.newFrame st.store _ method.frame) hvalid).newIdentity
    exact .of_ready hready (hclosure.later (Scene.before_of_retains _ (.newIdentity _))) rfl
  · exact .of_ready h trivial rfl

theorem seated_property (h : Ready ⟨T, built, st.store⟩ st.frame stack) (hc : c ∈ built) (i : Nat)
    (name : Lexeme) : (property i c name stack st).Seated T built := by
  rw [property]
  split
  · next v hv => exact .of_ready h (h.valid.fields i _ v hv) rfl
  · exact seated_readMethod h hc c.mem_lineage_self name i

/-- A body is executed in a new frame that binds the parameters. -/
theorem seated_enterBody (h : Ready ⟨T, built, st.store⟩ st.frame stack) {closure : Closure}
    (hc : closure.Seated ⟨T, built, st.store⟩)
    (ha : ∀ v ∈ arguments, v.Seated ⟨T, built, st.store⟩) :
    (enterBody closure arguments stack st).Seated T built := by
  have hparams : ∀ param ∈ closure.decl.params, param.IsName := by
    obtain ⟨⟨name, params, body⟩, frame, isInitializer⟩ := closure
    exact hc.1.1
  refine .enter h (fun x v hv => ?_) (hc.body ?_) ?_ rfl rfl
  · rcases get?_zip_foldl hv with ⟨hmem, -⟩ | hnone
    · exact ha v hmem
    · cases hnone
  · refine Option.eq_none_iff_forall_ne_some.2 fun v hv => ?_
    rcases get?_zip_foldl hv with ⟨-, param, hp, hthis⟩ | hnone
    · exact (hparams param hp).ne_this hthis
    · cases hnone
  · exact Nat.lt_of_lt_of_le h.frame (Store.Retains.newFrame _ _ _).size

theorem seated_instantiate (h : Ready ⟨T, built, st.store⟩ st.frame stack) (hc : c ∈ built)
    (ha : ∀ v ∈ arguments, v.Seated ⟨T, built, st.store⟩) :
    (instantiate c arguments stack st).Seated T built := by
  have h' : Ready ⟨T, built, st.newInstance.2.store⟩ st.newInstance.2.frame stack :=
    h.later (.newInstance _) h.valid.newInstance
  rw [instantiate]
  dsimp only
  split
  · exact .of_ready h' hc rfl
  · next method hm =>
    obtain ⟨owner, howner, hown⟩ := Class.exists_owner hm
    obtain ⟨hvalid, hclosure⟩ := h'.valid.bind hc howner hown st.newInstance.1
    have hready := h'.later (.newFrame st.newInstance.2.store _ method.frame) hvalid
    have hretains := (Store.Retains.newInstance st.store).trans (.newFrame _
      ((∅ : Bindings Value).insert "this" (.instance st.newInstance.1 c)) method.frame)
    have hwait : Ready _ _ (.construct (.instance st.newInstance.1 c) :: stack) :=
      hready.push _ hc rfl rfl
    exact seated_enterBody hwait hclosure fun v hv =>
      (ha v hv).later (Scene.before_of_retains ⟨T, built, st.store⟩ hretains)

variable {s : Session}

theorem seated_enter (h : Ready ⟨s.table, built, st.store⟩ st.frame stack) {c : Callable}
    (hc : (Value.callable c).Seated ⟨s.table, built, st.store⟩) (line : Nat)
    (ha : ∀ v ∈ arguments, v.Seated ⟨s.table, built, st.store⟩) :
    (enter s.config c line arguments stack st).Seated s.table built := by
  rcases c with f | ⟨identity, closure⟩ | c
  · have h' : Ready ⟨s.table, built, st.readClock.2.store⟩ st.readClock.2.frame stack := h
    exact .of_ready h' trivial rfl
  · exact seated_enterBody h hc ha
  · exact seated_instantiate h hc ha

theorem seated_nextArgument (h : Ready ⟨s.table, built, st.store⟩ st.frame stack) {callee : Value}
    (hc : callee.Seated ⟨s.table, built, st.store⟩) (line : Nat) {before : List Value}
    (hb : ∀ v ∈ before, v.Seated ⟨s.table, built, st.store⟩) {rest : List Expr}
    (hr : Expr.AllSeated ⟨s.table, built, st.store⟩ st.frame rest) :
    (nextArgument s.config callee line before rest stack st).Seated s.table built := by
  rcases rest with _ | ⟨e, rest⟩
  · cases callee with
    | callable c =>
      have hwait : Ready ⟨s.table, built, st.startCall.store⟩ st.startCall.frame
          (.leaveCall :: stack) :=
        h.push _ trivial rfl rfl
      rw [nextArgument, call]
      split
      · exact .of_ready h trivial rfl
      · split
        · exact .of_ready h trivial rfl
        · exact seated_enter hwait hc line fun v hv => hb v (List.mem_reverse.1 hv)
    | _ => exact .of_ready h trivial rfl
  · obtain ⟨he, hrest⟩ := hr.uncons
    exact .of_ready (h.push (.argument callee line before rest) ⟨hc, hb, hrest⟩ rfl rfl) he rfl

/-! ### Expressions -/

/-- `this` is an instance that inherits from the class around it. -/
theorem eval_this_eq (hv : Scene.Valid ⟨s.table, built, st.store⟩)
    (he : (Expr.this id keyword).Seated ⟨s.table, built, st.store⟩ st.frame) :
    ∃ g i of, st.store.ThisFor built st.frame id g i of ∧
      eval s.config stack st (.this id keyword) = deliver (.instance i of) stack st := by
  obtain ⟨k, g, i, of, hk, hget, hthis⟩ := hv.this he
  have hk' : s.config.distances[id]? = some k := hk
  have hkeyword : keyword.text = "this" := he.1
  refine ⟨g, i, of, hthis, ?_⟩
  rw [eval, State.lookUp, hk', hkeyword]
  simp only [hget]
  rfl

/-- `super` leads to the superclass of the class around it, for the instance that `this` is. -/
theorem superMethod_eq {method : Lexeme} (hv : Scene.Valid ⟨s.table, built, st.store⟩)
    (he : (Expr.super id keyword method).Seated ⟨s.table, built, st.store⟩ st.frame) :
    ∃ g i of, st.store.ThisFor built st.frame id g i of ∧
      ∀ c ∈ built, st.store.Inside g id c → ∃ d, c.superclass = some d ∧
        superMethod s.config id method stack st =
          readMethod d method (.instance i of) stack st := by
  obtain ⟨k, g, i, of, hk, hthis, hself, hsuper⟩ := hv.super he
  have hk' : s.config.distances[id]? = some (k + 1) := hk
  refine ⟨g, i, of, hself, fun c hc hi => ?_⟩
  obtain ⟨d, hd, hget⟩ := hsuper c hc hi
  refine ⟨d, hd, ?_⟩
  rw [superMethod, hk']
  simp only [hget, hthis]
  rfl

theorem seated_superMethod (h : Ready ⟨s.table, built, st.store⟩ st.frame stack) {method : Lexeme}
    (he : (Expr.super id keyword method).Seated ⟨s.table, built, st.store⟩ st.frame) :
    (superMethod s.config id method stack st).Seated s.table built := by
  obtain ⟨g, i, of, hthis, hsuper⟩ := superMethod_eq h.valid he
  obtain ⟨c, hc, hi⟩ := hthis.belongs
  obtain ⟨d, hd, heq⟩ := hsuper c hc hi
  have hof : (Value.instance i of).Seated ⟨s.table, built, st.store⟩ :=
    h.valid.bindings g _ _ hthis.object
  rw [heq]
  exact seated_readMethod h hof
    (Class.mem_lineage_trans (hthis.inherits c hc hi) (Class.superclass_mem_lineage hd)) method i

theorem seated_eval (h : Ready ⟨s.table, built, st.store⟩ st.frame stack) {e : Expr}
    (he : e.Seated ⟨s.table, built, st.store⟩ st.frame) :
    (eval s.config stack st e).Seated s.table built := by
  have hr := he.1
  cases e with
  | literal id value =>
    refine .of_ready h ?_ rfl
    cases value <;> trivial
  | unary id op mark right =>
    have hright : right.Seated _ _ := he.part hr (List.Subset.refl _) (List.sublist_append_left _ _)
    exact .of_ready (h.push (.unary op mark.line) trivial rfl rfl) hright rfl
  | binary id op mark left right =>
    obtain ⟨hleft, hright⟩ := he.operands hr.1 hr.2 rfl rfl
    exact .of_ready (h.push (.binaryLeft op mark.line right) hright rfl rfl) hleft rfl
  | logical id op mark left right =>
    obtain ⟨hleft, hright⟩ := he.operands hr.1 hr.2 rfl rfl
    exact .of_ready (h.push (.logical op right) hright rfl rfl) hleft rfl
  | grouping id inner =>
    exact .of_ready h (he.part hr (List.Subset.refl _) (List.sublist_append_left _ _)) rfl
  | var id name => exact seated_finish h fun v hv => seated_of_lookUp h.valid hv
  | assign id name value =>
    have hvalue := he.part hr.2 (List.subset_append_left _ _) (List.sublist_append_left _ _)
    exact .of_ready (h.push (.assign id name) hr.1 rfl rfl) hvalue rfl
  | call id callee paren arguments =>
    have hcallee := he.part hr.1 (List.subset_append_left _ _)
      ((List.sublist_append_left _ _).trans (List.sublist_append_left _ _))
    have harguments : Expr.AllSeated _ _ arguments := he.parts hr.2 (List.subset_append_right _ _)
      ((List.sublist_append_right _ _).trans (List.sublist_append_left _ _))
    exact .of_ready (h.push (.callee paren.line arguments) harguments rfl rfl) hcallee rfl
  | get id object name =>
    have hobject : object.Seated _ _ :=
      he.part hr (List.Subset.refl _) (List.sublist_append_left _ _)
    exact .of_ready (h.push (.get name) trivial rfl rfl) hobject rfl
  | set id object name value =>
    obtain ⟨hobject, hvalue⟩ := he.operands hr.1 hr.2 rfl rfl
    exact .of_ready (h.push (.setObject name value) hvalue rfl rfl) hobject rfl
  | this id keyword => exact seated_finish h fun v hv => seated_of_lookUp h.valid hv
  | super id keyword method => exact seated_superMethod h he

/-! ### Classes -/

/-- The methods of a class hold the expressions of its declaration, in the frame in which they are
    made. -/
theorem mem_of_holds_methodsIn {identity frame f : Nat} {name : String}
    (h : (Class.mk identity name superclass (methodsIn frame decls)).Holds f id) :
    f = frame ∧ id ∈ Stmt.idsDecls decls := by
  obtain ⟨x, method, hm, rfl, hid⟩ := h
  obtain ⟨decl, hd, rfl⟩ := get?_methodsIn hm
  exact ⟨rfl, (Stmt.idsDecl_sublist hd).subset hid⟩

theorem founded_methodsIn {σ : Scene} {f frame : Nat}
    (hs : (Stmt.classDecl name ref decls).Seated σ f) (hf : frame < σ.store.frames.size)
    (hsome : superclass.isSome = ref.isSome)
    (hb : ∀ d, superclass = some d → d ∈ σ.built ∧ (σ.store.frame frame).bindings.get? "super" =
      some (.callable (.class d)))
    (identity : Nat) :
    (Class.mk identity name.text superclass (methodsIn frame decls)).Founded σ := by
  refine ⟨fun d hd => (hb d hd).1, fun x method hm => ?_⟩
  obtain ⟨decl, hd, rfl⟩ := get?_methodsIn hm
  obtain ⟨⟨hname, -, hdecls⟩, path, hh⟩ := hs
  refine ⟨Stmt.declRegular_of_mem hdecls hd, hf,
    ⟨path.declare name.text, Walk.methodScope decl.name,
    hh.plain.declare hname, hh.admits.part ?_ ?_⟩, fun d hd => (hb d hd).2⟩
  · rw [hsome]
    exact List.Subset.trans (Stmt.nodesDecl_subset _ hd) (List.subset_append_right _ _)
  · exact (Stmt.idsDecl_sublist hd).trans (List.sublist_append_right _ _)

/-- A new class is bound to its name. -/
theorem seated_bindClass (h : Ready ⟨T, built, st.store⟩ st.frame stack)
    (hc : c.Founded ⟨T, built ++ [c], st.store⟩)
    (hn : ∀ d ∈ built, ∀ f id, c.Holds f id → ¬ d.Holds f id)
    (ha : ∀ key ∈ Stack.agenda st.frame stack, ¬ c.Holds key.1 key.2) (hname : name.IsName) :
    (deliver .nil stack (st.newIdentity.2.define name.text (.callable (.class c)))).Seated T
      (built ++ [c]) := by
  have hready : Ready ⟨T, built ++ [c], st.store⟩ st.frame stack :=
    ⟨h.valid.build hc hn, h.frame, h.entries.later (Scene.before_build _ c), h.agenda.build ha⟩
  have hclass : (Value.callable (.class c)).Seated ⟨T, built ++ [c], st.newIdentity.2.store⟩ :=
    List.mem_append_right _ (List.mem_singleton_self c)
  have hbound := hready.newIdentity.define st.frame hname hclass
  exact ⟨hbound.valid, hbound.frame, trivial, hbound.entries, hbound.agenda⟩

theorem seated_makeClass (h : Ready ⟨T, built, st.store⟩ st.frame stack)
    (hs : (Stmt.classDecl name ref decls).Seated ⟨T, built, st.store⟩ st.frame)
    (ha : Scene.Agenda ⟨T, built, st.store⟩ ((Stmt.idsDecls decls).map (st.frame, ·) ++
      Stack.agenda st.frame stack))
    (hsome : superclass.isSome = ref.isSome) (hb : ∀ d, superclass = some d → d ∈ built) :
    (deliver .nil stack (makeClass name superclass decls st)).Seated T
      (built ++ [newClass name superclass decls st]) := by
  rw [makeClass_eq]
  rcases superclass with _ | c
  · -- The methods are made in the current frame, so it matters that the class was not built in it
    -- before.
    have hkey : ∀ {f id : Nat}, (newClass name none decls st).Holds f id →
        (f, id) ∈ (Stmt.idsDecls decls).map (st.frame, ·) := by
      intro f id hh
      obtain ⟨rfl, hid⟩ := mem_of_holds_methodsIn hh
      exact List.mem_map_of_mem hid
    refine seated_bindClass h ?_ (fun d hd f id hh => ?_) (fun key hm hh => ?_) hs.1.1
    · exact founded_methodsIn (hs.later (Scene.before_build _ _)) h.frame hsome
        (fun d hd => by cases hd) _
    · exact ha.isNew d hd _ (List.mem_append_left _ (hkey hh))
    · exact (List.nodup_append'.1 ha.nodup).2.2 (hkey hh) hm
  · -- The methods are made in a new frame, in which nothing was built before.
    have hc := hb c rfl
    have hnew : ((st.store.newFrame ((∅ : Bindings Value).insert "super" (.callable (.class c)))
        st.frame).2.frame
        st.store.frames.size).bindings.get? "super" = some (.callable (.class c)) := by
      rw [Store.frame_newFrame, if_pos rfl]
      exact Bindings.get?_insert_self ..
    have hsuper : ∀ x v,
        ((∅ : Bindings Value).insert "super" (.callable (.class c))).get? x = some v →
        v.Seated ⟨T, built, st.store⟩ := by
      intro x v hv
      obtain ⟨-, rfl⟩ := Bindings.get?_insert_empty hv
      exact hc
    have hready := h.later (.newFrame st.store _ st.frame) (h.valid.newFrame hsuper st.frame)
    have hframe : ∀ {f id : Nat}, (newClass name (some c) decls st).Holds f id →
        f = st.store.frames.size :=
      fun hh => (mem_of_holds_methodsIn hh).1
    refine seated_bindClass hready ?_ (fun d hd f id hh hh' => ?_) (fun key hm hh => ?_) hs.1.1
    · refine founded_methodsIn
        ((hs.later (Scene.before_build _ _)).later (Scene.before_of_retains _ (.newFrame _ _ _)))
        (Store.lt_size_newFrame _ _ _) hsome (fun d hd => ?_) _
      cases hd
      exact ⟨List.mem_append_left _ hc, hnew⟩
    · exact absurd (h.valid.lt_of_holds hd hh').1 (hframe hh ▸ Nat.lt_irrefl _)
    · exact absurd (h.agenda.old key hm) (hframe hh ▸ Nat.lt_irrefl _)

/-- The superclass is a class that was built. -/
theorem superclassOf_built (h : Scene.Valid ⟨T, built, st.store⟩) {cfg : Config}
    (hs : superclassOf cfg st ref = .ok superclass) :
    superclass.isSome = ref.isSome ∧ ∀ d, superclass = some d → d ∈ built := by
  rcases ref with _ | ref
  · cases hs
    exact ⟨rfl, fun d hd => by cases hd⟩
  · obtain ⟨c, rfl, hc⟩ := superclassOf_eq_ok hs
    have hv : (Value.callable (.class c)).Seated ⟨T, built, st.store⟩ := seated_of_lookUp h hc
    refine ⟨rfl, fun d hd => ?_⟩
    cases hd
    exact hv

/-! ### Statements -/

theorem seated_makeFunction (h : Ready ⟨T, built, st.store⟩ st.frame stack)
    {decl : FunctionDecl Stmt} (hs : (Stmt.function decl).Seated ⟨T, built, st.store⟩ st.frame) :
    (deliver .nil stack (makeFunction decl st)).Seated T built := by
  have hclosure : Closure.Seated _ ⟨decl, st.frame, false⟩ :=
    hs.closure.later (Scene.before_of_retains ⟨T, built, st.store⟩ (.newIdentity _))
  have hbound := h.newIdentity.define st.frame hs.1.1
    (v := .callable (.function st.store.nextIdentity ⟨decl, st.frame, false⟩)) hclosure
  exact ⟨hbound.valid, hbound.frame, trivial, hbound.entries, hbound.agenda⟩

/-- A class declaration builds a class, if its superclass is one. -/
theorem seated_classDecl
    (h : (⟨.exec (.classDecl name ref decls), stack, st⟩ : Machine).Seated s.table built) :
    (exec s.config stack st (.classDecl name ref decls)).Seated s.table
      (built ++ builds s.config ⟨.exec (.classDecl name ref decls), stack, st⟩) := by
  have hs : (Stmt.classDecl name ref decls).Seated _ _ := h.control
  have hretains := Store.Retains.define st.store st.frame hs.1.1 .nil
  have hready : Ready ⟨s.table, built, (st.define name.text .nil).store⟩
      (st.define name.text .nil).frame stack :=
    h.ready.define st.frame hs.1.1 trivial
  rw [exec, builds]
  cases hsuper : superclassOf s.config (st.define name.text .nil) ref with
  | ok superclass =>
    obtain ⟨hsome, hbuilt⟩ := superclassOf_built hready.valid hsuper
    exact seated_makeClass hready (hs.later (Scene.before_of_retains _ hretains))
      (h.agenda.later hretains) hsome hbuilt
  | error stop =>
    dsimp only
    rw [List.append_nil]
    exact seated_finish hready fun v hv => by cases hv

/-- Other statements build no class. -/
theorem seated_exec {stmt : Stmt} (h : (⟨.exec stmt, stack, st⟩ : Machine).Seated s.table built)
    (hn : ∀ name ref decls, stmt ≠ .classDecl name ref decls) :
    (exec s.config stack st stmt).Seated s.table built := by
  have hs : stmt.Seated _ _ := h.control
  have hreg := hs.1
  have hr := h.ready
  cases stmt with
  | classDecl name ref decls => exact absurd rfl (hn name ref decls)
  | expression e =>
    exact .of_ready hr hs rfl
  | print e =>
    exact .of_ready (hr.push .print trivial rfl rfl) hs rfl
  | var name initial =>
    rcases initial with _ | e
    · have hbound := hr.define st.frame hreg.1 (v := .nil) trivial
      exact ⟨hbound.valid, hbound.frame, trivial, hbound.entries, hbound.agenda⟩
    · exact .of_ready (hr.push (.define name) hreg.1 rfl rfl) hs.initial rfl
  | block body =>
    refine .enter hr (fun x v hv => by cases hv) hs.body ?_ rfl rfl
    exact Nat.lt_of_lt_of_le hr.frame (Store.Retains.newFrame _ _ _).size
  | branch condition yes no =>
    have hcondition := hs.expr hreg.1
      (fun path => List.Subset.trans (List.subset_append_left _ _) (List.subset_append_left _ _))
      ((List.sublist_append_left _ _).trans (List.sublist_append_left _ _))
    exact .of_ready (hr.push (.branch yes no) ⟨condition, hs⟩ rfl rfl) hcondition rfl
  | loop condition body =>
    have hcondition := hs.expr hreg.1 (fun path => List.subset_append_left _ _)
      (List.sublist_append_left _ _)
    exact .of_ready (hr.push (.loopTest condition body) hs rfl rfl) hcondition rfl
  | function decl =>
    exact seated_makeFunction hr hs
  | ret keyword value =>
    rcases value with _ | e
    · exact .of_ready hr trivial rfl
    · have he := hs.expr (hreg e rfl) (fun path => List.subset_cons_self _ _) (.refl _)
      exact .of_ready (hr.push .returns trivial rfl rfl) he rfl

/-! ### Steps -/

theorem seated_of_bodyResult {σ : Scene} (hσ : σ.Valid) {closure : Closure} (hv : v.Seated σ)
    {result : Value} (h : bodyResult closure v σ.store = .ok result) : result.Seated σ := by
  rcases bodyResult_eq_ok h with hget | rfl
  · exact hσ.getAt hget
  · exact hv

theorem seated_resume (h : Ready ⟨s.table, built, st.store⟩ st.frame (pending :: stack))
    (hv : v.Seated ⟨s.table, built, st.store⟩) :
    (resume s.config v stack st pending).Seated s.table built := by
  have hp := h.entries.1
  cases pending with
  | unary op line =>
    have hr := h.pop h.frame
    rw [resume]
    split
    · next result ha => exact .of_ready hr (UnaryOp.isPlain_of_apply ha).seated rfl
    · exact .of_ready hr trivial rfl
  | binaryLeft op line right =>
    exact .of_ready ((h.pop h.frame).push (.binaryRight op line v) trivial rfl rfl) hp rfl
  | binaryRight op line left =>
    have hr := h.pop h.frame
    rw [resume]
    split
    · next result ha => exact .of_ready hr (BinaryOp.isPlain_of_apply ha).seated rfl
    · exact .of_ready hr trivial rfl
  | logical op right =>
    have hr := h.pop h.frame
    rw [resume]
    split
    · exact .of_ready hr hv rfl
    · exact .of_ready hr hp rfl
  | assign id name =>
    have hr := h.pop h.frame
    rw [resume]
    split
    · next g hg =>
      have hbound := hr.define g hp hv
      have hv' := hv.later (Scene.before_of_retains _ (.define _ g hp v))
      exact ⟨hbound.valid, hbound.frame, hv', hbound.entries, hbound.agenda⟩
    · exact seated_finish hr fun v hv => by cases hv
  | callee line arguments =>
    exact seated_nextArgument (h.pop h.frame) hv line (List.forall_mem_nil _) hp
  | argument called line before rest =>
    obtain ⟨hc, hb, hr⟩ := hp
    exact seated_nextArgument (h.pop h.frame) hc line (List.forall_mem_cons.2 ⟨hv, hb⟩) hr
  | get name =>
    have hr := h.pop h.frame
    cases v with
    | «instance» i c => exact seated_property hr hv i name
    | _ => exact .of_ready hr trivial rfl
  | setObject name value =>
    have hr := h.pop h.frame
    cases v with
    | «instance» i c => exact .of_ready (hr.push (.setValue i name) trivial rfl rfl) hp rfl
    | _ => exact .of_ready hr trivial rfl
  | setValue i name =>
    have hr := h.pop h.frame
    have hset := hr.later (.setField _ i name.text v) (hr.valid.setField i name.text hv)
    have hv' := hv.later (Scene.before_of_retains _ (.setField _ i name.text v))
    exact ⟨hset.valid, hset.frame, hv', hset.entries, hset.agenda⟩
  | print =>
    have hr := h.pop h.frame
    rw [resume]
    rcases print_cases v stack st with hp | ⟨e, hp⟩
    · rw [hp]
      exact ⟨hr.valid, hr.frame, trivial, hr.entries, hr.agenda⟩
    · rw [hp]
      exact ⟨hr.valid, hr.frame, trivial, hr.entries, hr.agenda⟩
  | define name =>
    have hbound := (h.pop h.frame).define st.frame hp hv
    exact ⟨hbound.valid, hbound.frame, trivial, hbound.entries, hbound.agenda⟩
  | branch yes no =>
    have hr := h.pop h.frame
    obtain ⟨condition, hs⟩ := hp
    obtain ⟨-, ⟨hyes, hnone⟩, hno⟩ := hs.1
    have hyes := hs.part hyes
      (fun path => List.Subset.trans (List.subset_append_right _ _) (List.subset_append_left _ _))
      ((List.sublist_append_right _ _).trans (List.sublist_append_left _ _))
    rcases no with _ | no
    · rw [resume]
      split
      · exact .of_ready hr hyes (Stmt.classIds_of_declares? hnone)
      · exact .of_ready hr trivial rfl
    · rw [resume]
      split
      · exact .of_ready hr hyes (Stmt.classIds_of_declares? hnone)
      · have hno' := hs.part hno.1 (fun path => List.subset_append_right _ _)
          (List.sublist_append_right _ _)
        exact .of_ready hr hno' (Stmt.classIds_of_declares? hno.2)
  | loopTest condition body =>
    have hr := h.pop h.frame
    have hs : (Stmt.loop condition body).Seated _ _ := hp
    have hbody := hs.part hs.1.2.1 (fun path => List.subset_append_right _ _)
      (List.sublist_append_right _ _)
    rw [resume]
    split
    · exact .of_ready (hr.push (.loopBody condition body) hs rfl rfl) hbody
        (Stmt.classIds_of_declares? hs.1.2.2)
    · exact .of_ready hr trivial rfl
  | loopBody condition body =>
    have hr := h.pop h.frame
    have hs : (Stmt.loop condition body).Seated _ _ := hp
    have hcondition := hs.expr hs.1.1 (fun path => List.subset_append_left _ _)
      (List.sublist_append_left _ _)
    exact .of_ready (hr.push (.loopTest condition body) hs rfl rfl) hcondition rfl
  | sequence rest =>
    -- The classes that were to be declared later are now to be declared next.
    exact ⟨h.valid, h.frame, hp, h.entries.2, h.agenda⟩
  | returns => exact .of_ready (h.pop h.frame) hv rfl
  | leaveBlock frame =>
    have hr := h.pop hp
    exact ⟨hr.valid, hr.frame, hv, hr.entries, hr.agenda⟩
  | leaveBody closure frame =>
    have hr : Ready ⟨s.table, built, (st.goTo frame).store⟩ (st.goTo frame).frame stack := h.pop hp
    exact seated_finish hr fun u hu => seated_of_bodyResult (v := .nil) h.valid trivial hu
  | construct object => exact .of_ready (h.pop h.frame) hp rfl
  | leaveCall =>
    have hr := h.pop h.frame
    exact ⟨hr.valid, hr.frame, hv, hr.entries, hr.agenda⟩

theorem seated_unwindOver (h : Ready ⟨T, built, st.store⟩ st.frame (pending :: stack)) {a : Abrupt}
    (ha : (Control.unwind a).Seated ⟨T, built, st.store⟩ st.frame) :
    (unwindOver a stack st pending).Seated T built := by
  have hp := h.entries.1
  have ha' : ∀ f, (Control.unwind a).Seated ⟨T, built, st.store⟩ f :=
    fun f => by cases a <;> exact ha
  cases pending with
  | leaveBody closure frame =>
    have hr : Ready ⟨T, built, (st.goTo frame).store⟩ (st.goTo frame).frame stack := h.pop hp
    cases a with
    | returns v => exact seated_finish hr fun u hu => seated_of_bodyResult h.valid ha hu
    | fails e => exact .of_ready hr trivial rfl
  | leaveBlock frame =>
    have hr := h.pop hp
    exact ⟨hr.valid, hr.frame, ha' frame, hr.entries, hr.agenda⟩
  | leaveCall =>
    have hr := h.pop h.frame
    exact ⟨hr.valid, hr.frame, ha' _, hr.entries, hr.agenda⟩
  | _ => exact .of_ready (h.pop h.frame) ha rfl

theorem Seated.append_builds {m m' : Machine} {cfg : Config} (h : m'.Seated T built)
    (hb : m.builds cfg = []) : m'.Seated T (built ++ m.builds cfg) := by
  rw [hb, List.append_nil]
  exact h

/-- A step keeps all code in its place. -/
theorem Seated.step {m : Machine} (h : m.Seated s.table built) :
    (Machine.step s.config m).Seated s.table (built ++ m.builds s.config) := by
  obtain ⟨control, stack, st⟩ := m
  cases control with
  | eval e => exact (seated_eval h.ready h.control).append_builds rfl
  | exec stmt =>
    cases stmt with
    | classDecl name ref decls => exact seated_classDecl h
    | _ => exact (seated_exec h fun _ _ _ hne => by cases hne).append_builds rfl
  | execAll stmts =>
    refine Seated.append_builds ?_ rfl
    rcases stmts with _ | ⟨stmt, rest⟩
    · exact .of_ready h.ready trivial rfl
    · have hs : Stmt.AllSeated _ _ (stmt :: rest) := h.control
      -- The classes that the statement declares are next, and those of the rest wait on the stack.
      have hagenda := h.agenda
      rw [Control.classIds, List.flatMap_cons, List.map_append, List.append_assoc] at hagenda
      exact ⟨h.valid, h.frame, hs.uncons.1, ⟨hs.uncons.2, h.entries⟩, hagenda⟩
  | deliver v =>
    refine Seated.append_builds ?_ rfl
    rcases stack with _ | ⟨pending, stack⟩
    · exact .of_ready h.ready trivial rfl
    · exact seated_resume h.ready h.control
  | unwind a =>
    refine Seated.append_builds ?_ rfl
    rcases stack with _ | ⟨pending, stack⟩
    · exact .of_ready h.ready (by cases a <;> trivial) rfl
    · exact seated_unwindOver h.ready h.control
  | done o => exact h.append_builds rfl

end Machine

/-! ### Sessions -/

/-- Other programs are resolved. -/
theorem Scene.Valid.extend (h : σ.Valid) {T : Table} (hT : T.Extends σ.table) :
    Valid { σ with table := T } := by
  have hbefore : σ.Before { σ with table := T } := ⟨hT, List.Subset.refl _, .refl _⟩
  exact ⟨fun f name v hv => (h.bindings f name v hv).later hbefore,
    fun i name v hv => (h.fields i name v hv).later hbefore,
    fun c hc => (h.classes c hc).later hbefore, h.distinct⟩

namespace Session

variable {s : Session} {distances : Distances} {built : List Class}

/-- The nodes of a program that is accepted keep the rules, with their distances in the table. -/
theorem Sound.admits (h : s.Sound) {p : Program} {n : Nat} (hreg : Stmt.AllRegular p)
    (hids : Numbered s.nextId n (Stmt.idsAll p)) (hr : p.resolve = .ok distances) :
    (({ s with nextId := n }).install distances).table.Admits p.nodes (Stmt.idsAll p) := by
  obtain ⟨hlegal, hd⟩ := Program.distances_of_resolve hreg hids.nodup hr
  refine ⟨hlegal, fun node hm id x href => ?_, hids.nodup, fun id hid => (hids.range id hid).2⟩
  have hid : id ∈ Stmt.idsAll p := by
    refine (Stmt.referringAll_sublist [] p).subset (List.mem_filterMap.2 ⟨node, hm, ?_⟩)
    rw [href]
    rfl
  obtain ⟨hlt, hsettled⟩ := h.settled hids id hid
  exact ⟨hlt, hsettled.trans (hd node hm id x href)⟩

/-- At the beginning of a source no class of it was built. -/
theorem agenda_of_numbered {σ : Scene} (hσ : σ.Valid) {f n : Nat} (hf : f < σ.store.frames.size)
    {ids : List Nat} (hids : Numbered σ.table.bound n ids) : σ.Agenda (ids.map (f, ·)) := by
  refine ⟨hids.nodup.map fun a b hab => (Prod.mk.inj hab).2, fun key hm => ?_,
    fun c hc key hm hh => ?_⟩
  · obtain ⟨id, -, rfl⟩ := List.mem_map.1 hm
    exact hf
  · obtain ⟨id, hid, rfl⟩ := List.mem_map.1 hm
    exact absurd (hσ.lt_of_holds hc hh).2 (Nat.not_lt_of_le (hids.range id hid).1)

/-- All code of a session is in its place, between two sources and while a machine runs one. -/
def Seated (s : Session) (built : List Class) : Option Machine → Prop
  | none => Scene.Valid ⟨s.table, built, s.state.store⟩
  | some m => m.Seated s.table built

/-- At first there is only a native function. -/
theorem seated_new (sink : Sink) (clock : Clock) (maxDepth : Nat) :
    (Session.new sink clock maxDepth).Seated [] none := by
  have hempty : Scene.Valid ⟨(Session.new sink clock maxDepth).table, [], .empty⟩ := by
    refine ⟨fun f name v hv => ?_, fun i name v hv => ?_, fun c hc => ?_, fun c hc => ?_⟩
    · rw [Store.frame_empty] at hv
      cases hv
    · cases hv
    · cases hc
    · cases hc
  have hname : Lexeme.IsName ⟨"clock", 0⟩ := by rfl
  exact hempty.newIdentity.define globalFrame hname trivial

variable {source : List UInt8}

theorem Seated.load (hv : s.Seated built none) (hs : s.Sound) {program : Program} {cursor : Cursor}
    (hp : Program.parse (.ofTokens (Token.scanAll source).1 s.nextId) = (.ok program, cursor))
    (hr : program.resolve = .ok distances) :
    (({ s with nextId := cursor.nextId }).install distances).Seated built
      (some ⟨.execAll program, [], s.state⟩) := by
  have hids := Program.numbered_of_parse hp
  have hreg := Program.regular_of_parse (congrArg Prod.fst hp)
  have hle : s.nextId ≤ cursor.nextId := Program.nextId_le_of_parse hp
  have hextends := extends_install hle fun id hid =>
    none_of_numbered hids (fun id => Program.getElem?_of_resolve hr) id (.inl hid)
  have hvalid := hv.extend hextends
  refine ⟨hvalid, hs.frame, ⟨hreg, [], Scene.hosts_of_admits (hs.admits hreg hids hr) hs.frame⟩,
    trivial, ?_⟩
  -- No class that was built has an expression of the new program in it, since their numbers are
  -- new.
  have hagenda := agenda_of_numbered hv hs.frame
    (hids.subperm (Stmt.classIdsAll_sublist program).subperm)
  rw [Stack.agenda, List.append_nil]
  exact ⟨hagenda.nodup, hagenda.old, hagenda.isNew⟩

theorem Seated.loadExpr (hv : s.Seated built none) (hs : s.Sound) {e : Expr} {cursor : Cursor}
    (he : Expr.parse (.ofTokens (Token.scanAll source).1 s.nextId) = (.ok e, cursor))
    (hr : e.resolve = .ok distances) :
    (({ s with nextId := cursor.nextId }).install distances).Seated built
      (some ⟨.eval e, [], s.state⟩) := by
  have hids := Expr.numbered_of_parse he
  have hreg := Expr.regular_of_parse (congrArg Prod.fst he)
  have hle : s.nextId ≤ cursor.nextId := Expr.nextId_le_of_parse he
  have hextends := extends_install hle fun id hid =>
    none_of_numbered hids (fun id => Expr.getElem?_of_resolve hr) id (.inl hid)
  -- An expression is resolved like a program of one statement.
  have hadmits : Table.Admits _ (Path.all [] e.nodes ++ []) (e.ids ++ []) :=
    hs.admits ⟨hreg, trivial⟩ ((List.append_nil e.ids).symm ▸ hids) (p := [.expression e]) hr
  rw [List.append_nil, List.append_nil] at hadmits
  have hready : Stack.Ready ⟨_, built, s.state.store⟩ s.state.frame [] :=
    ⟨hv.extend hextends, hs.frame, trivial, .nil, by simp [Stack.agenda], by simp [Stack.agenda]⟩
  exact .of_ready hready ⟨hreg, [], Scene.hosts_of_admits hadmits hs.frame⟩ rfl

/-- In every session that comes about, all code is in its place. -/
theorem History.seated {m : Option Machine} (h : s.History m built) : s.Seated built m := by
  induction h with
  | new sink clock maxDepth => exact seated_new sink clock maxDepth
  | run h hl ih =>
    obtain ⟨program, cursor, distances, hp, hr, rfl, rfl⟩ := load_eq_ok hl
    exact ih.load h.sound.1 hp hr
  | reject _ hl ih =>
    obtain ⟨n, hn, rfl⟩ := load_eq_error hl
    exact Scene.Valid.extend ih ⟨hn, fun _ _ => rfl⟩
  | evaluate h hl ih =>
    obtain ⟨e, cursor, distances, he, hr, rfl, rfl⟩ := loadExpr_eq_ok hl
    exact ih.loadExpr h.sound.1 he hr
  | rejectExpr _ hl ih =>
    obtain ⟨n, hn, rfl⟩ := loadExpr_eq_error hl
    exact Scene.Valid.extend ih ⟨hn, fun _ _ => rfl⟩
  | step _ ih => exact Machine.Seated.step ih
  | stop _ ih => exact Machine.Seated.valid ih

/-- `this` and `super` are always those of the class around them. Whatever sources a session was
    given, and however far it has run the last one, it has a history with the classes that were
    built. Each of them was built by one execution of a class declaration, with the superclass as it
    was then. If now `this` is evaluated, the nearest frame that binds `this` binds it to an
    instance, which is the result. The expression is in a method of a class that was built, directly
    or in functions in it, and the class of the instance is this class or inherits from it
    (`Store.ThisFor`). If `super` is evaluated, `this` is such an instance too; the method is looked
    up from the superclass of the class around the expression on, and is bound to the same
    instance. -/
theorem this_super_lexical :
    (∀ {s : Session} {m : Machine}, s.Moment m → ∃ built, s.History (some m) built) ∧
    ∀ {s : Session} {m : Machine} {built : List Class}, s.History (some m) built →
      (∀ c ∈ built, ∃ s₀ m₀ built₀, History s₀ (some m₀) built₀ ∧ built₀ ++ [c] <+: built ∧
        m₀.Declares s₀.config c) ∧
      (∀ id keyword stack st, m = ⟨.eval (.this id keyword), stack, st⟩ →
        ∃ g i of, st.store.ThisFor built st.frame id g i of ∧
          m.step s.config = .deliver (.instance i of) stack st) ∧
      ∀ id keyword method stack st, m = ⟨.eval (.super id keyword method), stack, st⟩ →
        ∃ g i of, st.store.ThisFor built st.frame id g i of ∧
          ∀ c ∈ built, st.store.Inside g id c → ∃ d, c.superclass = some d ∧
            m.step s.config = .readMethod d method (.instance i of) stack st := by
  refine ⟨fun h => h.history, ?_⟩
  intro s m built h
  have hm : m.Seated s.table built := h.seated
  refine ⟨h.declared, ?_, ?_⟩
  · rintro id keyword stack st rfl
    exact Machine.eval_this_eq hm.valid hm.control
  · rintro id keyword method stack st rfl
    exact Machine.superMethod_eq hm.valid hm.control

end Session

/-- The identity of a `super` that is evaluated next. -/
def Control.superId? : Control → Option Nat
  | .eval (.super id _ _) => some id
  | _ => none

theorem Control.eq_super {control : Control} {id : Nat} (h : control.superId? = some id) :
    ∃ keyword method, control = .eval (.super id keyword method) := by
  unfold superId? at h
  split at h
  · cases h
    exact ⟨_, _, rfl⟩
  · cases h

namespace Session

/-- A function in a method of `B` evaluates `super` for an instance of `C`, which inherits from `B`.
    The name of the superclass of `B` is bound to another class by then. -/
theorem this_super_lexical_rebound :
    ∃ (s : Session) (m : Machine) (built : List Class), s.History (some m) built ∧
      built.map Class.name = ["A", "B", "C", "A"] ∧
      ∃ id keyword method stack st, m = ⟨.eval (.super id keyword method), stack, st⟩ ∧
        ∃ g i of, st.store.ThisFor built st.frame id g i of ∧
          (Value.instance i of).display = "C instance" ∧
          ∃ c ∈ built, st.store.Inside g id c ∧ ∃ d, c.superclass = some d ∧
            m.step s.config = .readMethod d method (.instance i of) stack st := by
  -- All that is computed is what the run is at after 33 steps, and which classes it has built by
  -- then.
  obtain ⟨s, source, hs, hrun⟩ : ∃ (s : Session) (source : List UInt8), s.History none [] ∧
      (s.load source).1.toOption.map
        (fun m => ((m.run (s.load source).2.config 33).control.superId?,
        ((m.run (s.load source).2.config 33).state.store.find?
          (m.run (s.load source).2.config 33).state.frame "this").map Value.display,
        (m.buildsIn (s.load source).2.config 33).map Class.name)) =
        some (some 2, some "C instance", ["A", "B", "C", "A"]) := by
    refine ⟨.new .unlimited (.still 0) 16, ("class A \x7b m() \x7b return 1; \x7d \x7d " ++
      "class B < A \x7b m() \x7b fun f() \x7b return super.m(); \x7d return f(); \x7d \x7d " ++
      "class C < B \x7b \x7d class A \x7b m() \x7b return 2; \x7d \x7d " ++
      "print C().m();").toUTF8.toList, .new _ _ _, ?_⟩
    decide +kernel
  obtain ⟨m, hm, heq⟩ := Option.map_eq_some_iff.1 hrun
  obtain ⟨hcontrol, hrest⟩ := Prod.mk.inj heq
  obtain ⟨hreceiver, hnames⟩ := Prod.mk.inj hrest
  have hload : s.load source = (.ok m, (s.load source).2) := by
    refine Prod.ext ?_ rfl
    generalize (s.load source).1 = loaded at hm ⊢
    rcases loaded with errors | m' <;> cases hm
    rfl
  have hhistory := (History.run hs hload).of_run 33
  rw [List.nil_append] at hhistory
  generalize m.run (s.load source).2.config 33 = m', m.buildsIn (s.load source).2.config 33 = built
    at hhistory hcontrol hreceiver hnames
  obtain ⟨control, stack, st⟩ := m'
  obtain ⟨keyword, method, rfl⟩ := Control.eq_super hcontrol
  obtain ⟨g, i, of, hthis, hstep⟩ :=
    (this_super_lexical.2 hhistory).2.2 2 keyword method stack st rfl
  obtain ⟨c, hc, hi⟩ := hthis.belongs
  have hfind : st.store.find? st.frame "this" = some (.instance i of) := by
    rw [Store.find?, hthis.nearest]
    exact hthis.object
  rw [hfind] at hreceiver
  exact ⟨_, _, built, hhistory, hnames, 2, keyword, method, stack, st, rfl, g, i, of, hthis,
    Option.some.inj hreceiver, c, hc, hi, hstep c hc hi⟩

end Session

end Lox
