import Mathlib
import Lox.Proofs.Edits

/-!
# The values in a machine

Values are in the store of a machine, in what is pending, and in what is handed on. A step moves
them about, and it makes few of them: the plain results of operations, functions and classes where
they are declared, methods that are bound to an instance, and an instance where a class is called.
It makes frames too, inside the current frame or inside the frame of a function or method that is at
hand. So what holds of all values and of the links between frames, and outlasts changes of the
store, goes on to hold if it holds of what is new (`Machine.All.step`).

For instance, the instances in a machine are those that were in it before, and the one that a call
of a class makes (`Machine.Objects.step`).

* `Store.All`, `Machine.All`: something holds of all values and links;
* `Store.Lasting`: it outlasts changes of the store;
* `Machine.Supplies`: it holds of what the next step makes anew.
-/

namespace Lox

/-! ### What holds of all values -/

/-- The class of a value: a class has itself, and an instance the one that made it. -/
def Value.class? : Value → Option Class
  | .callable (.class c) => some c
  | .instance _ c => some c
  | _ => none

/-- `P` holds of all values in what is pending. A body belongs to a function, and a field is set of
    an instance. -/
def Pending.All (P : Value → Prop) : Pending → Prop
  | .binaryRight _ _ left => P left
  | .argument called _ before _ => P called ∧ ∀ v ∈ before, P v
  | .setValue i _ => ∃ c, P (.instance i c)
  | .leaveBody closure _ => ∃ identity, P (.callable (.function identity closure))
  | .construct object => P object
  | _ => True

/-- `P` holds of the value that is handed on, returned, or the last result. -/
def Control.All (P : Value → Prop) : Control → Prop
  | .deliver v => P v
  | .unwind (.returns v) => P v
  | .done (.value v) => P v
  | .done (.returned v) => P v
  | _ => True

/-- `P` holds of all values in a store and in what is pending, and `L` of each frame and the frame
    around it. -/
structure Store.All (P : Store → Value → Prop) (L : Nat → Option Nat → Prop)
    (stack : List Pending) (s : Store) : Prop where
  bindings : ∀ f name v, (s.frame f).bindings.get? name = some v → P s v
  fields : ∀ i name v, s.field? i name = some v → P s v
  links : ∀ f < s.frames.size, L f (s.frame f).enclosing
  stack : ∀ pending ∈ stack, pending.All (P s)

/-- `P` holds of all values in a machine, and `L` of each frame and the frame around it. -/
structure Machine.All (P : Store → Value → Prop) (L : Nat → Option Nat → Prop)
    (m : Machine) : Prop where
  store : m.state.store.All P L m.stack
  control : m.control.All (P m.state.store)

/-- What `P` says of a value outlasts changes of the store. It holds of plain values, and of methods
    that are bound to an instance in a new frame. A frame can be made inside that of a function or
    method. -/
structure Store.Lasting (P : Store → Value → Prop) (L : Nat → Option Nat → Prop) : Prop where
  later : ∀ (s : Store) (e : Store.Edit) (v : Value), P s v → P (e.apply s) v
  plain : ∀ (s : Store) (v : Value), v.IsPlain → P s v
  bound : ∀ (s : Store) (bindings : Bindings Value) (method : Closure) (identity : Nat),
    P (s.newFrame bindings method.frame).2
      (.callable (.function identity { method with frame := s.frames.size }))
  function : ∀ (s : Store) (identity : Nat) (closure : Closure),
      P s (.callable (.function identity closure)) →
    L s.frames.size (some closure.frame)
  method : ∀ (s : Store) (v : Value) (c : Class) (name : String) (method : Closure),
      P s v → v.class? = some c →
    c.findMethod name = some method → L s.frames.size (some method.frame)

/-- `P` and `L` hold of what the next step of a machine makes anew. -/
structure Machine.Supplies (P : Store → Value → Prop) (L : Nat → Option Nat → Prop) (cfg : Config)
    (m : Machine) : Prop where
  frame : L m.state.store.frames.size (some m.state.frame)
  native : ∀ f time arguments v, cfg.natives f time arguments = .ok v → P m.state.store v
  function : ∀ identity decl,
      P m.state.store (.callable (.function identity ⟨decl, m.state.frame, false⟩))
  builds : ∀ c ∈ m.builds cfg, P (m.step cfg).state.store (.callable (.class c))
  makes : ∀ c ∈ m.makes cfg, P m.state.store (.instance m.state.store.fields.size c)

/-- `P` holds of the values that a change puts into the store, and `L` of the frame that it
    makes. -/
def Store.Edit.Puts (P : Value → Prop) (L : Option Nat → Prop) : Store.Edit → Prop
  | .define _ _ v => P v
  | .newFrame bindings enclosing => (∀ x v, bindings.get? x = some v → P v) ∧ L (some enclosing)
  | .setField _ _ v => P v
  | _ => True

variable {Q : Value → Prop} {P : Nat → Class → Prop}

theorem Pending.All.imp {P : Value → Prop} {pending : Pending} (h : pending.All P)
    (hPQ : ∀ v, P v → Q v) : pending.All Q := by
  cases pending with
  | binaryRight op line left => exact hPQ left h
  | argument callee line before rest => exact ⟨hPQ callee h.1, fun v hv => hPQ v (h.2 v hv)⟩
  | setValue i name => exact Exists.imp (fun c => hPQ (.instance i c)) h
  | leaveBody closure frame =>
    exact Exists.imp (fun identity => hPQ (.callable (.function identity closure))) h
  | construct object => exact hPQ object h
  | _ => trivial

theorem Control.All.imp {P : Value → Prop} {control : Control} (h : control.All P)
    (hPQ : ∀ v, P v → Q v) : control.All Q := by
  cases control with
  | deliver v => exact hPQ v h
  | unwind a =>
    cases a with
    | returns v => exact hPQ v h
    | fails e => trivial
  | done o =>
    cases o with
    | value v => exact hPQ v h
    | returned v => exact hPQ v h
    | _ => trivial
  | _ => trivial

theorem Machine.All.imp {P Q : Store → Value → Prop} {L : Nat → Option Nat → Prop} {m : Machine}
    (h : m.All P L) (hPQ : ∀ v, P m.state.store v → Q m.state.store v) : m.All Q L where
  store := ⟨fun f x v hv => hPQ v (h.store.bindings f x v hv),
    fun i x v hv => hPQ v (h.store.fields i x v hv),
    h.store.links, fun pending hp => (h.store.stack pending hp).imp hPQ⟩
  control := h.control.imp hPQ

namespace Store.All

variable {P : Store → Value → Prop} {L : Nat → Option Nat → Prop} {s : Store} {stack : List Pending}
  {pending : Pending} {v : Value}

theorem push (h : s.All P L stack) (hp : pending.All (P s)) : s.All P L (pending :: stack) :=
  ⟨h.bindings, h.fields, h.links, List.forall_mem_cons.2 ⟨hp, h.stack⟩⟩

theorem top (h : s.All P L (pending :: stack)) : pending.All (P s) :=
  h.stack pending (List.mem_cons_self ..)

theorem pop (h : s.All P L (pending :: stack)) : s.All P L stack :=
  ⟨h.bindings, h.fields, h.links, (List.forall_mem_cons.1 h.stack).2⟩

/-- A value is in the store after a change if it was there before, or if the change puts it
    there. -/
theorem edit_new (hP : Lasting P L) (h : s.All P L stack) (e : Edit)
    (he : e.Puts (P (e.apply s)) (L s.frames.size)) : (e.apply s).All P L stack := by
  have hlater := hP.later s e
  refine ⟨fun f x v hv => ?_, fun i x v hv => ?_, fun f hf => ?_,
    fun pending hp => (h.stack pending hp).imp hlater⟩
  · cases e with
    | define g name u =>
      rw [Edit.apply, get?_define] at hv
      split at hv
      · exact Option.some.inj hv ▸ he
      · exact hlater v (h.bindings f x v hv)
    | newFrame bindings enclosing =>
      rw [Edit.apply, frame_newFrame] at hv
      split at hv
      · exact he.1 x v hv
      · exact hlater v (h.bindings f x v hv)
    | _ => exact hlater v (h.bindings f x v hv)
  · cases e with
    | newInstance =>
      rw [Edit.apply, field?_newInstance] at hv
      exact hlater v (h.fields i x v hv)
    | setField j name u =>
      rw [Edit.apply, field?_setField] at hv
      split at hv
      · exact Option.some.inj hv ▸ he
      · exact hlater v (h.fields i x v hv)
    | _ => exact hlater v (h.fields i x v hv)
  · cases e with
    | define g name u =>
      rw [Edit.apply, size_define] at hf
      rw [Edit.apply, enclosing_define]
      exact h.links f hf
    | newFrame bindings enclosing =>
      rw [Edit.apply, size_newFrame] at hf
      rw [Edit.apply, frame_newFrame]
      split
      · next hnew => exact hnew ▸ he.2
      · next hold => exact h.links f (Nat.lt_of_le_of_ne (Nat.le_of_lt_succ hf) hold)
    | _ => exact h.links f hf

/-- A change that puts values into the store which were at hand before. -/
theorem edit (hP : Lasting P L) (h : s.All P L stack) (e : Edit)
    (he : e.Puts (P s) (L s.frames.size)) : (e.apply s).All P L stack := by
  refine h.edit_new hP e ?_
  have hlater := hP.later s e
  cases e with
  | define g name u => exact hlater u he
  | newFrame bindings enclosing => exact ⟨fun x v hv => hlater v (he.1 x v hv), he.2⟩
  | setField j name u => exact hlater u he
  | _ => trivial

theorem getAt (h : s.All P L stack) {f distance : Nat} {x : String}
    (hv : s.getAt f distance x = .ok v) : P s v := by
  rw [Store.getAt] at hv
  split at hv
  · cases hv
  · split at hv
    · next hu =>
      cases hv
      exact h.bindings _ x v hu
    · cases hv

variable {st : State}

theorem lookUp (h : st.store.All P L stack) {distances : Distances} {id : Nat} {name : Lexeme}
    (hv : st.lookUp distances id name = .ok v) : P st.store v := by
  rcases State.lookUp_eq_ok hv with ⟨distance, hv⟩ | hv
  · exact h.getAt hv
  · obtain ⟨g, -, hg⟩ := Option.bind_eq_some_iff.1 hv
    exact h.bindings g _ v hg

/-- A method that is bound to an instance is one that `P` holds of, whatever identity it gets. -/
theorem bind (hP : Lasting P L) (h : st.store.All P L stack) {method : Closure}
    (hm : L st.store.frames.size (some method.frame)) {object : Value} (ho : P st.store object) :
    (st.bind method object).2.store.All P L stack ∧
      ∀ identity, P (st.bind method object).2.store
        (.callable (.function identity (st.bind method object).1)) :=
  ⟨h.edit hP (.newFrame _ method.frame) ⟨fun _ _ hv => (Bindings.get?_insert_empty hv).2 ▸ ho, hm⟩,
    hP.bound st.store _ method⟩

theorem bound (hP : Lasting P L) (h : st.store.All P L stack) {method : Closure}
    (hm : L st.store.frames.size (some method.frame)) {object : Value} (ho : P st.store object) :
    (st.bound method object).2.store.All P L stack ∧
      P (st.bound method object).2.store (st.bound method object).1 := by
  obtain ⟨hstore, hclosure⟩ := h.bind hP hm ho
  exact ⟨hstore.edit hP .newIdentity trivial, hP.later _ .newIdentity _ (hclosure _)⟩

end Store.All

/-! ### Values after a step -/

namespace Machine

variable {P : Store → Value → Prop} {L : Nat → Option Nat → Prop} {cfg : Config}
    {stack : List Pending} {st : State}

theorem all_finish (hs : st.store.All P L stack) {result : Except Stop Value}
    (hr : ∀ v, result = .ok v → P st.store v) : (finish result stack st).All P L := by
  rcases result with (e | f) | v
  · exact ⟨hs, trivial⟩
  · exact ⟨hs, trivial⟩
  · exact ⟨hs, hr v rfl⟩

theorem all_property (hP : Store.Lasting P L) (hs : st.store.All P L stack) {i : Nat} {c : Class}
    (hi : P st.store (.instance i c)) (name : Lexeme) : (property i c name stack st).All P L := by
  rw [property]
  split
  · next v hv => exact ⟨hs, hs.fields i _ v hv⟩
  split
  · next method hm =>
    obtain ⟨hstore, hv⟩ := hs.bound hP (hP.method _ _ c _ method hi rfl hm) hi
    exact ⟨hstore, hv⟩
  · exact ⟨hs, trivial⟩

/-- The property is kept when a method is read through `super`. -/
theorem all_superMethod (hP : Store.Lasting P L) (hs : st.store.All P L stack) (id : Nat)
    (method : Lexeme) : (superMethod cfg id method stack st).All P L := by
  have hfault : ∀ f, (finish (.error (.fault f)) stack st).All P L := fun f => ⟨hs, trivial⟩
  rw [superMethod]
  split
  · exact hfault _
  split
  · exact hfault _
  · next c hsuper =>
    split
    · exact hfault _
    split
    · exact hfault _
    · next hthis =>
      split
      · next found hfound =>
        obtain ⟨hstore, hv⟩ := hs.bound hP (hP.method _ _ c _ found (hs.getAt hsuper) rfl hfound)
          (hs.getAt hthis)
        exact ⟨hstore, hv⟩
      · exact ⟨hs, trivial⟩
    · exact hfault _
  · exact hfault _

variable {arguments : List Value}

theorem all_enterBody (hP : Store.Lasting P L) (hs : st.store.All P L stack) {closure : Closure}
    {identity : Nat} (hc : P st.store (.callable (.function identity closure)))
    (ha : ∀ v ∈ arguments, P st.store v) : (enterBody closure arguments stack st).All P L := by
  have hstack : st.store.All P L (.leaveBody closure st.frame :: stack) := hs.push ⟨identity, hc⟩
  refine ⟨hstack.edit hP (.newFrame _ closure.frame) ⟨fun x v hv => ?_,
    hP.function _ identity closure hc⟩, trivial⟩
  rcases get?_zip_foldl hv with ⟨hmem, -⟩ | hnone
  · exact ha v hmem
  · cases hnone

/-- The instance that a class makes gets the next number. -/
theorem all_enter (hP : Store.Lasting P L)
    (hcfg : ∀ f time arguments v, cfg.natives f time arguments = .ok v → P st.store v)
    (hs : st.store.All P L stack) {c : Callable} (hcallee : P st.store (.callable c))
    (hc : ∀ k, c = .class k → P st.store (.instance st.store.fields.size k)) (line : Nat)
    (ha : ∀ v ∈ arguments, P st.store v) : (enter cfg c line arguments stack st).All P L := by
  cases c with
  | native f =>
    rw [enter, callNative]
    dsimp only
    split
    · next v hv => exact ⟨hs, hcfg f _ arguments v hv⟩
    · exact ⟨hs, trivial⟩
  | function identity closure => exact all_enterBody hP hs hcallee ha
  | «class» k =>
    have hlater := hP.later st.store .newInstance
    have hobject : P st.newInstance.2.store (.instance st.store.fields.size k) :=
      hlater _ (hc k rfl)
    have hmade : st.newInstance.2.store.All P L stack := hs.edit hP .newInstance trivial
    rw [enter, instantiate]
    dsimp only
    split
    · exact ⟨hmade, hobject⟩
    · next method hm =>
      have hstack : st.newInstance.2.store.All P L
          (.construct (.instance st.store.fields.size k) :: stack) :=
        hmade.push hobject
      obtain ⟨hbound, hclosure⟩ := hstack.bind hP (hP.method _ _ k _ method hobject rfl hm) hobject
      exact all_enterBody hP hbound (hclosure 0) fun v hv => hP.later _ (.newFrame _ _) v
        (hlater v (ha v hv))

/-- The property is kept by a call, if it holds of the instance that is made. -/
theorem all_call (hP : Store.Lasting P L) {m : Machine} (hnew : m.Supplies P L cfg)
    (hs : st.store.All P L stack) {callee : Value} {line : Nat}
    (hcalls : m.Calls callee line arguments stack st) (hcallee : P st.store callee)
    (ha : ∀ v ∈ arguments, P st.store v) : (call cfg callee line arguments stack st).All P L := by
  obtain ⟨hcalled, rfl⟩ := hcalls.called
  cases callee with
  | callable c =>
    rw [call]
    split
    · exact ⟨hs, trivial⟩
    · next harity =>
      split
      · exact ⟨hs, trivial⟩
      · next hdepth =>
        have hs' : m.state.startCall.store.All P L (.leaveCall :: stack) := hs.push trivial
        have hmade : ∀ k, c = .class k →
            P m.state.startCall.store (.instance m.state.startCall.store.fields.size k) := by
          intro k hk
          refine hnew.makes k ?_
          subst hk
          rw [makes, hcalled]
          dsimp only
          rw [if_pos ⟨not_not.1 harity, Nat.lt_of_not_le hdepth⟩]
          exact List.mem_singleton_self k
        have hnative : ∀ f time arguments v, cfg.natives f time arguments = .ok v →
            P m.state.startCall.store v :=
          hnew.native
        exact all_enter hP hnative hs' hcallee hmade line ha
  | _ => exact ⟨hs, trivial⟩

theorem all_eval (hP : Store.Lasting P L) (hs : st.store.All P L stack) (e : Expr) :
    (eval cfg stack st e).All P L := by
  cases e with
  | literal id value =>
    refine ⟨hs, hP.plain _ _ ?_⟩
    cases value <;> trivial
  | grouping id inner => exact ⟨hs, trivial⟩
  | var id name => exact all_finish hs fun v hv => hs.lookUp hv
  | this id keyword => exact all_finish hs fun v hv => hs.lookUp hv
  | super id keyword method => exact all_superMethod hP hs id method
  | _ => exact ⟨hs.push trivial, trivial⟩

/-- A class is bound to its name after its name was bound to `nil`, and `super` to its superclass
    before that. -/
theorem all_exec (hP : Store.Lasting P L) (hs : st.store.All P L stack) (stmt : Stmt)
    (hnew : (⟨.exec stmt, stack, st⟩ : Machine).Supplies P L cfg) :
    (exec cfg stack st stmt).All P L := by
  have hnil : ∀ s, P s .nil := fun s => hP.plain s .nil trivial
  cases stmt with
  | expression e => exact ⟨hs, trivial⟩
  | var name initial =>
    cases initial with
    | none => exact ⟨hs.edit hP (.define st.frame name .nil) (hnil _), hnil _⟩
    | some e => exact ⟨hs.push trivial, trivial⟩
  | block body =>
    have hstack : st.store.All P L (.leaveBlock st.frame :: stack) := hs.push trivial
    exact ⟨hstack.edit hP (.newFrame ∅ st.frame) ⟨(fun x v hv => by cases hv), hnew.frame⟩, trivial⟩
  | function decl =>
    have hnumbered := hs.edit hP .newIdentity trivial
    exact ⟨hnumbered.edit hP (.define st.frame decl.name _)
      (hP.later _ .newIdentity _ (hnew.function _ decl)), hnil _⟩
  | ret keyword value =>
    cases value with
    | none => exact ⟨hs, hnil _⟩
    | some e => exact ⟨hs.push trivial, trivial⟩
  | classDecl name ref decls =>
    have hdeclared : (st.define name.text .nil).store.All P L stack :=
      hs.edit hP (.define st.frame name .nil) (hnil _)
    rw [exec]
    split
    · next c hc =>
      have hclass : P (step cfg ⟨.exec (.classDecl name ref decls), stack, st⟩).state.store
          (.callable (.class (newClass name c decls (st.define name.text .nil)))) := by
        refine hnew.builds _ ?_
        rw [builds, hc]
        exact List.mem_singleton_self _
      rw [step, exec, hc] at hclass
      have hframe : (methodFrame c (st.define name.text .nil)).2.store.All P L stack := by
        cases c with
        | none => exact hdeclared
        | some d =>
          obtain ⟨ref, rfl⟩ : ∃ r, ref = some r := by
            cases ref with
            | none => cases hc
            | some r => exact ⟨r, rfl⟩
          obtain ⟨_, ⟨⟩, hd⟩ := superclassOf_eq_ok hc
          have hlink : L (st.define name.text .nil).store.frames.size (some st.frame) :=
            (Store.size_define st.store st.frame name.text .nil).symm ▸ hnew.frame
          exact hdeclared.edit hP (.newFrame _ st.frame)
            ⟨fun x v hv => (Bindings.get?_insert_empty hv).2 ▸ hdeclared.lookUp hd, hlink⟩
      exact ⟨(hframe.edit hP .newIdentity trivial).edit_new hP (.define _ name _) hclass, hnil _⟩
    · exact all_finish hdeclared fun v hv => by cases hv
  | _ => exact ⟨hs.push trivial, trivial⟩

theorem all_bodyResult (hs : st.store.All P L stack) {closure : Closure} {v : Value}
    (hv : P st.store v) :
    ∀ result, bodyResult closure v st.store = .ok result → P st.store result := by
  intro result h
  rcases bodyResult_eq_ok h with hget | rfl
  · exact hs.getAt hget
  · exact hv

/-- The property is kept when a value is handed on to what is pending. -/
theorem all_resume (hP : Store.Lasting P L) {v : Value} {pending : Pending}
    (hs : st.store.All P L (pending :: stack)) (hv : P st.store v)
    (hnew : (⟨.deliver v, pending :: stack, st⟩ : Machine).Supplies P L cfg) :
    (resume cfg v stack st pending).All P L := by
  have hnil : ∀ s, P s .nil := fun s => hP.plain s .nil trivial
  have hp := hs.top
  replace hs := hs.pop
  cases pending with
  | unary op line =>
    rw [resume]
    split
    · next result h => exact ⟨hs, hP.plain _ _ (UnaryOp.isPlain_of_apply h)⟩
    · exact ⟨hs, trivial⟩
  | binaryLeft op line right => exact ⟨hs.push hv, trivial⟩
  | binaryRight op line left =>
    rw [resume]
    split
    · next result h => exact ⟨hs, hP.plain _ _ (BinaryOp.isPlain_of_apply h)⟩
    · exact ⟨hs, trivial⟩
  | logical op right =>
    rw [resume]
    split
    · exact ⟨hs, hv⟩
    · exact ⟨hs, trivial⟩
  | assign id name =>
    rw [resume]
    split
    · next f _ => exact ⟨hs.edit hP (.define f name v) hv, hP.later _ (.define f name v) _ hv⟩
    · exact all_finish hs fun u hu => by cases hu
  | callee line arguments =>
    -- Only a call makes new values, and they are what `hnew` is about.
    cases arguments with
    | nil => exact all_call hP hnew hs (.bare v line stack st) hv (List.forall_mem_nil _)
    | cons e rest => exact ⟨hs.push ⟨hv, List.forall_mem_nil _⟩, trivial⟩
  | argument callee line before rest =>
    obtain ⟨hcallee, hbefore⟩ := hp
    have hbefore' : ∀ u ∈ v :: before, P st.store u := List.forall_mem_cons.2 ⟨hv, hbefore⟩
    cases rest with
    | nil =>
      exact all_call hP hnew hs (.last callee v line before stack st) hcallee
        fun u hu => hbefore' u (List.mem_reverse.1 hu)
    | cons e rest => exact ⟨hs.push ⟨hcallee, hbefore'⟩, trivial⟩
  | get name =>
    cases v with
    | «instance» i c => exact all_property hP hs hv name
    | _ => exact ⟨hs, trivial⟩
  | setObject name value =>
    cases v with
    | «instance» i c => exact ⟨hs.push ⟨c, hv⟩, trivial⟩
    | _ => exact ⟨hs, trivial⟩
  | setValue i name =>
    exact ⟨hs.edit hP (.setField i name v) hv, hP.later _ (.setField i name v) _ hv⟩
  | print =>
    rw [resume]
    rcases print_cases v stack st with h | ⟨e, h⟩
    · rw [h]
      exact ⟨hs, hnil _⟩
    · rw [h]
      exact ⟨hs, trivial⟩
  | define name => exact ⟨hs.edit hP (.define st.frame name v) hv, hnil _⟩
  | branch yes no =>
    cases no with
    | none =>
      rw [resume]
      split
      · exact ⟨hs, trivial⟩
      · exact ⟨hs, hnil _⟩
    | some no =>
      rw [resume]
      split <;> exact ⟨hs, trivial⟩
  | loopTest condition body =>
    rw [resume]
    split
    · exact ⟨hs.push trivial, trivial⟩
    · exact ⟨hs, hnil _⟩
  | loopBody condition body => exact ⟨hs.push trivial, trivial⟩
  | sequence rest => exact ⟨hs, trivial⟩
  | returns => exact ⟨hs, hv⟩
  | leaveBlock frame => exact ⟨hs, hv⟩
  | leaveBody closure frame =>
    have hs' : (st.goTo frame).store.All P L stack := hs
    exact all_finish hs' (all_bodyResult hs (hnil _))
  | construct object => exact ⟨hs, hp⟩
  | leaveCall => exact ⟨hs, hv⟩

theorem all_unwindOver {a : Abrupt} {pending : Pending} (hs : st.store.All P L (pending :: stack))
    (ha : (Control.unwind a).All (P st.store)) : (unwindOver a stack st pending).All P L := by
  replace hs := hs.pop
  cases pending with
  | leaveBody closure frame =>
    have hs' : (st.goTo frame).store.All P L stack := hs
    cases a with
    | returns v => exact all_finish hs' (all_bodyResult hs ha)
    | fails e => exact ⟨hs, trivial⟩
  | _ => exact ⟨hs, ha⟩

/-- What holds of all values goes on to hold, if it holds of those that are made anew. -/
theorem All.step (hP : Store.Lasting P L) {m : Machine} (h : m.All P L)
    (hnew : m.Supplies P L cfg) : (step cfg m).All P L := by
  obtain ⟨control, stack, st⟩ := m
  obtain ⟨hs, hc⟩ := h
  cases control with
  | eval e => exact all_eval hP hs e
  | exec stmt => exact all_exec hP hs stmt hnew
  | execAll stmts =>
    cases stmts with
    | nil => exact ⟨hs, hP.plain _ _ trivial⟩
    | cons stmt rest => exact ⟨hs.push trivial, trivial⟩
  | deliver v =>
    cases stack with
    | nil => exact ⟨hs, hc⟩
    | cons pending stack => exact all_resume hP hs hc hnew
  | unwind a =>
    cases stack with
    | nil => cases a <;> exact ⟨hs, hc⟩
    | cons pending stack => exact all_unwindOver hs hc
  | done o => exact ⟨hs, hc⟩

end Machine

/-- In a new session there is only a native function. -/
theorem Session.get?_new {sink : Sink} {clock : Clock} {maxDepth f : Nat} {x : String} {v : Value}
    (hv : ((Session.new sink clock maxDepth).state.store.frame f).bindings.get? x = some v) :
    v = .callable (.native (.clock 0)) := by
  have hempty : (Store.empty.newIdentity.2.frame f).bindings.get? x = none :=
    congrArg (fun frame => frame.bindings.get? x) (Store.frame_empty f)
  have hv' :
      ((Store.empty.newIdentity.2.define globalFrame "clock" (.callable (.native (.clock 0)))).frame
      f).bindings.get? x = some v := hv
  rw [Store.get?_define, hempty] at hv'
  split at hv'
  · exact (Option.some.inj hv').symm
  · cases hv'

/-! ### Instances -/

/-- If a value is an instance, `P` holds of its number and its class. -/
def Value.Object (P : Nat → Class → Prop) : Value → Prop
  | .instance i c => P i c
  | _ => True

theorem Value.IsPlain.object {v : Value} (h : v.IsPlain) : v.Object P := by
  cases v with
  | «instance» i c => exact h.elim
  | _ => trivial

/-- All instances in a store are as `P` says. -/
structure Store.Objects (P : Nat → Class → Prop) (s : Store) : Prop where
  bindings : ∀ f name v, (s.frame f).bindings.get? name = some v → v.Object P
  fields : ∀ i name v, s.field? i name = some v → v.Object P

/-- All instances in what is pending are as `P` says. A field is set of an instance of some
    class. -/
def Pending.Objects (P : Nat → Class → Prop) : Pending → Prop
  | .binaryRight _ _ left => left.Object P
  | .argument called _ before _ => called.Object P ∧ ∀ v ∈ before, v.Object P
  | .setValue i _ => ∃ c, P i c
  | .construct object => object.Object P
  | _ => True

/-- The value that is handed on or returned, if it is an instance, is as `P` says. -/
def Control.Objects (P : Nat → Class → Prop) : Control → Prop
  | .deliver v => v.Object P
  | .unwind (.returns v) => v.Object P
  | _ => True

/-- All instances in a machine are as `P` says. -/
structure Machine.Objects (P : Nat → Class → Prop) (m : Machine) : Prop where
  store : m.state.store.Objects P
  control : m.control.Objects P
  stack : ∀ pending ∈ m.stack, pending.Objects P

theorem Pending.objects_iff {pending : Pending} :
    pending.Objects P ↔ pending.All (Value.Object P) := by
  cases pending with
  | leaveBody closure frame => exact iff_of_true trivial ⟨0, trivial⟩
  | _ => exact Iff.rfl

theorem Control.All.objects {control : Control} (h : control.All (Value.Object P)) :
    control.Objects P := by
  cases control with
  | deliver v => exact h
  | unwind a =>
    cases a with
    | returns v => exact h
    | fails e => trivial
  | _ => trivial

namespace Machine.Objects

variable {P : Nat → Class → Prop} {m : Machine}

theorem lasting (P : Nat → Class → Prop) :
    Store.Lasting (fun _ v => v.Object P) fun _ _ => True where
  later _ _ _ h := h
  plain _ _ h := h.object
  bound _ _ _ _ := trivial
  function _ _ _ _ := trivial
  method _ _ _ _ _ _ _ _ := trivial

theorem of_all (h : m.All (fun _ v => v.Object P) fun _ _ => True) : m.Objects P where
  store := ⟨h.store.bindings, h.store.fields⟩
  control := h.control.objects
  stack pending hp := Pending.objects_iff.2 (h.store.stack pending hp)

theorem all (h : m.Objects P) (hc : m.control.All (Value.Object P)) :
    m.All (fun _ v => v.Object P) fun _ _ => True :=
  ⟨⟨h.store.bindings, h.store.fields, fun _ _ => trivial,
    fun pending hp => Pending.objects_iff.1 (h.stack pending hp)⟩, hc⟩

/-- What instances are stays true from step to step, if it is true of those that are made. -/
theorem step {cfg : Config}
    (hcfg : ∀ f time arguments v, cfg.natives f time arguments = .ok v → v.Object P)
    (h : m.Objects P) (hmade : ∀ c ∈ m.makes cfg, P m.state.store.fields.size c) :
    (step cfg m).Objects P := by
  have hnew : m.Supplies (fun _ v => v.Object P) (fun _ _ => True) cfg :=
    ⟨trivial, hcfg, fun _ _ => trivial, fun _ _ => trivial, hmade⟩
  obtain ⟨control, stack, st⟩ := m
  cases control with
  | deliver v => exact of_all ((h.all h.control).step (lasting P) hnew)
  | unwind a => exact of_all ((h.all (by cases a <;> exact h.control)).step (lasting P) hnew)
  | done o => exact h
  | _ => exact of_all ((h.all trivial).step (lasting P) hnew)

end Machine.Objects

end Lox
