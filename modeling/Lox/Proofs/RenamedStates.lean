import Mathlib
import Lox.Proofs.RenamedScopes
import Lox.Proofs.Sessions

/-!
# What is alike in renamed runs

Two runs of a program, before and after a local variable is renamed, hold the same but for the names
that are swapped. A frame stands for a scope, so it is marked if the scope is, and a world (`World`)
has the marks of all scopes around each frame. A function is related with the marks of the frame
that it was made in, since its body runs in a frame inside that one.

What is looked up by a distance is looked up in the frame of its scope, and under the name that it
has there (`Store.Renamed.getAt`). Nothing else is asked of names: where the frames of two scopes
are confused, none of this would hold.

* `Value.Renamed`, `Store.Renamed`, `State.Renamed`: what is alike;
* `State.Renamed.lookUp`, `State.Renamed.assignee`: variables are found in the same frames.
-/

namespace Lox

/-- For each frame, which of the scopes are marked that it and the frames around it stand for. -/
abbrev World := List Marks

theorem World.getElem?_mono {W W' : World} (h : W <+: W') {f : Nat} {ρ : Marks}
    (hf : W[f]? = some ρ) : W'[f]? = some ρ := by
  obtain ⟨new, rfl⟩ := h
  rw [List.getElem?_append_left (List.getElem?_eq_some_iff.1 hf).1, hf]

/-! ### Values -/

/-- A function whose declaration stands in the given scopes. -/
structure Closure.RenamedIn (R : Renaming) (ρ : Marks) (c c' : Closure) : Prop where
  frame : c'.frame = c.frame
  isInitializer : c'.isInitializer = c.isInitializer
  decl : Stmt.DeclRenamed R ρ c.decl c'.decl

/-- A function that can be called. -/
def Closure.Renamed (R : Renaming) (W : World) (c c' : Closure) : Prop :=
  ∃ ρ, W[c.frame]? = some ρ ∧ Closure.RenamedIn R ρ c c'

/-- A method that is not bound to an instance: around it there is also the scope of `this`. -/
def Closure.MethodRenamed (R : Renaming) (W : World) (c c' : Closure) : Prop :=
  ∃ ρ, W[c.frame]? = some ρ ∧ Closure.RenamedIn R (ρ.push false) c c'

/-- A class, with all methods that can be looked up in it. -/
structure Class.Renamed (R : Renaming) (W : World) (c c' : Class) : Prop where
  identity : c'.identity = c.identity
  name : c'.name = c.name
  findMethod : ∀ x, Option.Rel (Closure.MethodRenamed R W) (c.findMethod x) (c'.findMethod x)

/-- A value of one run, and that in its place of the other. -/
inductive Value.Renamed (R : Renaming) (W : World) : Value → Value → Prop
  | nil : Value.Renamed R W .nil .nil
  | bool (value : Bool) : Value.Renamed R W (.bool value) (.bool value)
  | number (value : Float) : Value.Renamed R W (.number value) (.number value)
  | string (text : String) : Value.Renamed R W (.string text) (.string text)
  | native (f : Native) : Value.Renamed R W (.callable (.native f)) (.callable (.native f))
  | function (identity : Nat) {c c' : Closure} : Closure.Renamed R W c c' →
      Value.Renamed R W (.callable (.function identity c)) (.callable (.function identity c'))
  | «class» {c c' : Class} : Class.Renamed R W c c' →
      Value.Renamed R W (.callable (.class c)) (.callable (.class c'))
  | «instance» (i : Nat) {c c' : Class} : Class.Renamed R W c c' →
      Value.Renamed R W (.instance i c) (.instance i c')

/-- What a frame binds, whether it is marked or not. -/
def Bindings.Renamed (R : Renaming) (W : World) (mark : Bool) (b b' : Bindings Value) : Prop :=
  ∀ x, Option.Rel (Value.Renamed R W) (b.get? x) (b'.get? (R.swap mark x))

variable {R : Renaming} {W W' : World} {ρ : Marks}

theorem Option.Rel.mono {α β : Type} {r r' : α → β → Prop} (hr : ∀ a b, r a b → r' a b)
    {a : Option α} {b : Option β} (h : Option.Rel r a b) : Option.Rel r' a b := by
  cases h with
  | some h => exact .some (hr _ _ h)
  | none => exact .none

theorem Option.Rel.cases {α β : Type} {r : α → β → Prop} {a : Option α} {b : Option β}
    (h : Option.Rel r a b) : (a = none ∧ b = none) ∨ ∃ x y, a = some x ∧ b = some y ∧ r x y := by
  cases h with
  | some h => exact .inr ⟨_, _, rfl, rfl, h⟩
  | none => exact .inl ⟨rfl, rfl⟩

section

variable (hW : W <+: W')
include hW

theorem Closure.Renamed.mono {c c' : Closure} (h : Closure.Renamed R W c c') :
    Closure.Renamed R W' c c' := by
  obtain ⟨ρ, hρ, hc⟩ := h
  exact ⟨ρ, World.getElem?_mono hW hρ, hc⟩

theorem Class.Renamed.mono {c c' : Class} (h : Class.Renamed R W c c') :
    Class.Renamed R W' c c' := by
  refine { h with findMethod := fun x => Option.Rel.mono ?_ (h.findMethod x) }
  rintro m m' ⟨ρ, hρ, hm⟩
  exact ⟨ρ, World.getElem?_mono hW hρ, hm⟩

theorem Value.Renamed.mono {v v' : Value} (h : Value.Renamed R W v v') :
    Value.Renamed R W' v v' := by
  cases h with
  | nil => exact .nil
  | bool value => exact .bool value
  | number value => exact .number value
  | string text => exact .string text
  | native f => exact .native f
  | function identity hc => exact .function identity (hc.mono hW)
  | «class» hc => exact .class (hc.mono hW)
  | «instance» i hc => exact .instance i (hc.mono hW)

theorem Bindings.Renamed.mono {mark : Bool} {b b' : Bindings Value}
    (h : Bindings.Renamed R W mark b b') : Bindings.Renamed R W' mark b b' :=
  fun x => Option.Rel.mono (fun _ _ hv => hv.mono hW) (h x)

end

namespace Value.Renamed

variable {v v' u u' : Value}

theorem isTruthy (h : Value.Renamed R W v v') : v'.isTruthy = v.isTruthy := by
  cases h <;> rfl

/-- Names of variables are never printed. -/
theorem display (h : Value.Renamed R W v v') : v'.display = v.display := by
  cases h with
  | function identity hc =>
    obtain ⟨ρ, -, hc⟩ := hc
    simp only [Value.display, Callable.display, hc.decl.name_eq]
  | «class» hc => exact hc.name
  | «instance» i hc => exact congrArg (· ++ " instance") hc.name
  | _ => rfl

theorem equals (h : Value.Renamed R W v v') (h' : Value.Renamed R W u u') :
    v'.equals u' = v.equals u := by
  cases h with
  | «class» hc =>
    cases h' with
    | «class» hc' => simp only [Value.equals, Callable.same, hc.identity, hc'.identity]
    | _ => rfl
  | _ => cases h' <;> rfl

/-- An operator has a result that is the same for both. -/
theorem unaryApply (h : Value.Renamed R W v v') (op : UnaryOp) :
    op.apply v' = op.apply v ∧ ∀ result, op.apply v = .ok result →
      Value.Renamed R W result result := by
  cases op with
  | not =>
    rw [UnaryOp.apply, UnaryOp.apply, h.isTruthy]
    refine ⟨rfl, ?_⟩
    rintro _ ⟨⟩
    exact .bool _
  | negate =>
    cases h with
    | number value =>
      refine ⟨rfl, ?_⟩
      rintro _ ⟨⟩
      exact .number _
    | _ =>
      refine ⟨rfl, ?_⟩
      rintro _ ⟨⟩

/-- Operators give the same result on related values. -/
theorem binaryApply (h : Value.Renamed R W v v') (h' : Value.Renamed R W u u') (op : BinaryOp) :
    op.apply v' u' = op.apply v u ∧ ∀ result, op.apply v u = .ok result →
      Value.Renamed R W result result := by
  cases op with
  | equal =>
    rw [BinaryOp.apply, BinaryOp.apply, h.equals h']
    refine ⟨rfl, ?_⟩
    rintro _ ⟨⟩
    exact .bool _
  | notEqual =>
    rw [BinaryOp.apply, BinaryOp.apply, h.equals h']
    refine ⟨rfl, ?_⟩
    rintro _ ⟨⟩
    exact .bool _
  | _ =>
    -- Other operators have a result only for two numbers, or for two strings.
    cases h <;> cases h' <;> refine ⟨rfl, ?_⟩ <;> rintro _ ⟨⟩ <;> constructor

end Value.Renamed

/-! ### Stores -/

namespace Store

variable {s s' : Store} {x : String} {g : Nat} {r : Value → Value → Prop}

/-- A global variable is only looked for in the global frame. -/
theorem eq_global_of_holder? (h : s.holder? globalFrame x = some g) : g = globalFrame :=
  List.mem_singleton.1 (List.mem_of_find?_eq_some h)

/-- Whether a global variable is found depends on the global frame only. -/
theorem holder?_global_of_rel (h : Option.Rel r ((s.frame globalFrame).bindings.get? x)
    ((s'.frame globalFrame).bindings.get? x)) :
    s'.holder? globalFrame x = s.holder? globalFrame x := by
  have hc : (s'.frame globalFrame).bindings.contains x =
      (s.frame globalFrame).bindings.contains x := by
    rw [Bindings.contains, Bindings.contains]
    rcases Option.Rel.cases h with ⟨hx, hx'⟩ | ⟨v, v', hx, hx', -⟩
    · rw [hx, hx']
    · rw [hx, hx']
      rfl
  change [globalFrame].find? _ = [globalFrame].find? _
  rw [List.find?_cons, List.find?_cons, hc]
  rfl

theorem find?_global_of_rel (h : Option.Rel r ((s.frame globalFrame).bindings.get? x)
    ((s'.frame globalFrame).bindings.get? x)) :
    Option.Rel r (s.find? globalFrame x) (s'.find? globalFrame x) := by
  rw [find?, find?, holder?_global_of_rel h]
  cases hx : s.holder? globalFrame x with
  | none => exact .none
  | some g =>
    rw [eq_global_of_holder? hx]
    exact h

end Store

/-- The stores of two runs, where frames stand for scopes that may be marked. -/
structure Store.Renamed (R : Renaming) (W : World) (s s' : Store) : Prop where
  size : s.frames.size = W.length
  size_eq : s'.frames.size = s.frames.size
  global : W[globalFrame]? = some .none
  enclosing : ∀ f, (s'.frame f).enclosing = (s.frame f).enclosing
  marks : ∀ f g ρ, W[f]? = some ρ → (s.frame f).enclosing = some g → W[g]? = some ρ.tail
  bindings : ∀ f ρ, W[f]? = some ρ →
    Bindings.Renamed R W (ρ 0) (s.frame f).bindings (s'.frame f).bindings
  fields : s'.fields.size = s.fields.size
  field : ∀ i x, Option.Rel (Value.Renamed R W) (s.field? i x) (s'.field? i x)
  nextIdentity : s'.nextIdentity = s.nextIdentity

theorem Bindings.renamed_empty (mark : Bool) : Bindings.Renamed R W mark ∅ ∅ := fun _ => .none

theorem Bindings.Renamed.insert {mark : Bool} {b b' : Bindings Value}
    (h : Bindings.Renamed R W mark b b') (x : String) {v v' : Value}
    (hv : Value.Renamed R W v v') :
    Bindings.Renamed R W mark (b.insert x v) (b'.insert (R.swap mark x) v') := by
  intro y
  rw [Bindings.get?_insert, Bindings.get?_insert]
  by_cases hy : y = x
  · rw [if_pos hy, if_pos (congrArg _ hy)]
    exact .some hv
  · rw [if_neg hy, if_neg fun h => hy ((R.swap mark).injective h)]
    exact h y

namespace Store.Renamed

variable {s s' : Store} {f g : Nat} {v v' : Value}

theorem lt_size (h : Store.Renamed R W s s') (hf : W[f]? = some ρ) : f < s.frames.size := by
  rw [h.size]
  exact (List.getElem?_eq_some_iff.1 hf).1

/-- A name is bound in a frame. -/
theorem define (h : Store.Renamed R W s s') (hf : W[f]? = some ρ) (x : String)
    (hv : Value.Renamed R W v v') :
    Store.Renamed R W (s.define f x v) (s'.define f (R.swap (ρ 0) x) v') := by
  have hlt := h.lt_size hf
  have hlt' : f < s'.frames.size := h.size_eq ▸ hlt
  refine { h with
    size := (size_define ..).trans h.size
    size_eq := ?_
    enclosing := fun g => ?_
    marks := fun g g' ρ' hg he => ?_
    bindings := fun g ρ' hg => ?_ }
  · rw [size_define, size_define, h.size_eq]
  · rw [frame_define hlt, frame_define hlt']
    split
    · exact h.enclosing f
    · exact h.enclosing g
  · rw [frame_define hlt] at he
    split at he
    · next hgf => exact h.marks f g' ρ' (hgf ▸ hg) he
    · exact h.marks g g' ρ' hg he
  · rw [frame_define hlt, frame_define hlt']
    split
    · next hgf =>
      subst hgf
      cases hf.symm.trans hg
      exact (h.bindings g ρ hg).insert x hv
    · exact h.bindings g ρ' hg

/-- A frame is made, for a scope that may be marked. -/
theorem newFrame (h : Store.Renamed R W s s') (hf : W[f]? = some ρ) {mark : Bool}
    {b b' : Bindings Value} (hb : Bindings.Renamed R W mark b b') :
    Store.Renamed R (W ++ [ρ.push mark]) (s.newFrame b f).2 (s'.newFrame b' f).2 := by
  have hW : W <+: W ++ [ρ.push mark] := List.prefix_append ..
  have hlast : ∀ {g : Nat} {ρ' : Marks}, (W ++ [ρ.push mark])[g]? = some ρ' →
      (g = s.frames.size ∧ ρ' = ρ.push mark) ∨ (g ≠ s.frames.size ∧ W[g]? = some ρ') := by
    intro g ρ' hg
    rw [List.getElem?_append, ← h.size] at hg
    split at hg
    · next hlt => exact .inr ⟨Nat.ne_of_lt hlt, hg⟩
    · next hge =>
      obtain ⟨hlen, heq⟩ := List.getElem?_eq_some_iff.1 hg
      rw [List.length_singleton] at hlen
      refine .inl ⟨by omega, ?_⟩
      rw [← heq, List.getElem_singleton]
  refine {
    size := ?_
    size_eq := ?_
    global := World.getElem?_mono hW h.global
    enclosing := fun g => ?_
    marks := fun g g' ρ' hg he => ?_
    bindings := fun g ρ' hg => ?_
    fields := h.fields
    field := fun i x => Option.Rel.mono (fun _ _ hv => hv.mono hW) (h.field i x)
    nextIdentity := h.nextIdentity }
  · rw [size_newFrame, h.size, List.length_append, List.length_singleton]
  · rw [size_newFrame, size_newFrame, h.size_eq]
  · rw [frame_newFrame, frame_newFrame, h.size_eq]
    split
    · rfl
    · exact h.enclosing g
  · rw [frame_newFrame] at he
    rcases hlast hg with ⟨hgs, rfl⟩ | ⟨hgs, hg⟩
    · rw [if_pos hgs] at he
      cases he
      exact World.getElem?_mono hW hf
    · rw [if_neg hgs] at he
      exact World.getElem?_mono hW (h.marks g g' ρ' hg he)
  · rw [frame_newFrame, frame_newFrame, h.size_eq]
    rcases hlast hg with ⟨hgs, rfl⟩ | ⟨hgs, hg⟩
    · rw [if_pos hgs, if_pos hgs]
      exact hb.mono hW
    · rw [if_neg hgs, if_neg hgs]
      exact (h.bindings g ρ' hg).mono hW

theorem newIdentity (h : Store.Renamed R W s s') :
    Store.Renamed R W s.newIdentity.2 s'.newIdentity.2 :=
  { h with nextIdentity := congrArg (· + 1) h.nextIdentity }

theorem newInstance (h : Store.Renamed R W s s') :
    Store.Renamed R W s.newInstance.2 s'.newInstance.2 := by
  refine { h with fields := ?_, field := fun i x => ?_ }
  · exact (Array.size_push _).trans ((congrArg (· + 1) h.fields).trans (Array.size_push _).symm)
  · rw [field?_newInstance, field?_newInstance]
    exact h.field i x

theorem setField (h : Store.Renamed R W s s') (i : Nat) (x : String)
    (hv : Value.Renamed R W v v') :
    Store.Renamed R W (s.setField i x v) (s'.setField i x v') := by
  refine { h with fields := ?_, field := fun j y => ?_ }
  · exact Array.size_modify.trans (h.fields.trans Array.size_modify.symm)
  · rw [field?_setField, field?_setField, h.fields]
    split
    · exact .some hv
    · exact h.field j y

/-! ### Variables -/

/-- From a frame the same frames are around it in both stores. -/
theorem walkOut_eq (h : Store.Renamed R W s s') (distance left f : Nat) :
    s'.walkOut distance left f = s.walkOut distance left f := by
  induction left generalizing f with
  | zero => rfl
  | succ left ih =>
    rw [walkOut, walkOut, h.enclosing]
    split
    · rfl
    · exact ih _

/-- A frame further out stands for a scope further out. -/
theorem marks_walkOut (h : Store.Renamed R W s s') (hf : W[f]? = some ρ) {distance left : Nat}
    (hg : s.walkOut distance left f = .ok g) : ∃ ρ', W[g]? = some ρ' ∧ ρ' 0 = ρ left := by
  induction left generalizing f ρ with
  | zero =>
    cases hg
    exact ⟨ρ, hf, rfl⟩
  | succ left ih =>
    rw [walkOut] at hg
    split at hg
    · cases hg
    · next outer ho => exact ih (h.marks f outer ρ hf ho) hg

/-- What is looked up by its distance is found under the name that it has in its scope. -/
theorem getAt (h : Store.Renamed R W s s') (hf : W[f]? = some ρ) (distance : Nat) (x : String) :
    (∃ v v', Value.Renamed R W v v' ∧ s.getAt f distance x = .ok v ∧
      s'.getAt f distance (R.swap (ρ distance) x) = .ok v') ∨
    ∃ e e', s.getAt f distance x = .error e ∧
      s'.getAt f distance (R.swap (ρ distance) x) = .error e' := by
  rw [Store.getAt, Store.getAt, Store.ancestor, Store.ancestor, h.walkOut_eq]
  cases hw : s.walkOut distance distance f with
  | error e => exact .inr ⟨e, e, rfl, rfl⟩
  | ok g =>
    obtain ⟨ρ', hg, hmark⟩ := h.marks_walkOut hf hw
    have hb := h.bindings g ρ' hg x
    rw [hmark] at hb
    dsimp only
    rcases Option.Rel.cases hb with ⟨hx, hx'⟩ | ⟨v, v', hx, hx', hv⟩
    · rw [hx, hx']
      exact .inr ⟨_, _, rfl, rfl⟩
    · rw [hx, hx']
      exact .inl ⟨v, v', hv, rfl, rfl⟩

/-- The names of global variables stay as they are. -/
theorem global_bindings (h : Store.Renamed R W s s') (x : String) :
    Option.Rel (Value.Renamed R W) ((s.frame globalFrame).bindings.get? x)
      ((s'.frame globalFrame).bindings.get? x) :=
  h.bindings globalFrame .none h.global x

theorem holder?_global (h : Store.Renamed R W s s') (x : String) :
    s'.holder? globalFrame x = s.holder? globalFrame x :=
  holder?_global_of_rel (h.global_bindings x)

theorem find?_global (h : Store.Renamed R W s s') (x : String) :
    Option.Rel (Value.Renamed R W) (s.find? globalFrame x) (s'.find? globalFrame x) :=
  find?_global_of_rel (h.global_bindings x)

end Store.Renamed

theorem Renaming.respell_of_some (R : Renaming) (ρ : Marks) (name : Lexeme) {id distance : Nat}
    (h : R.distances[id]? = some distance) : R.respell ρ id name = name.respell R (ρ distance) := by
  rw [respell, h]

theorem Renaming.respell_of_none (R : Renaming) (ρ : Marks) (name : Lexeme) {id : Nat}
    (h : R.distances[id]? = none) : R.respell ρ id name = name := by
  rw [respell, h]

theorem Renaming.Proper.swap_this (h : R.Proper) (mark : Bool) : R.swap mark "this" = "this" :=
  have hne : "this" ≠ R.old ∧ "this" ≠ R.new := h.ne_of_keyword (by decide)
  R.swap_of_ne mark hne.1 hne.2

theorem Renaming.Proper.swap_super (h : R.Proper) (mark : Bool) : R.swap mark "super" = "super" :=
  have hne : "super" ≠ R.old ∧ "super" ≠ R.new := h.ne_of_keyword (by decide)
  R.swap_of_ne mark hne.1 hne.2

/-- The results of two runs. Faults may name different variables, but a program that is accepted has
    none. -/
inductive ResultRenamed (R : Renaming) (W : World) : Except Stop Value → Except Stop Value → Prop
  | ok {v v' : Value} : Value.Renamed R W v v' → ResultRenamed R W (.ok v) (.ok v')
  | error (e : RuntimeError) : ResultRenamed R W (.error (.error e)) (.error (.error e))
  | fault (f f' : Fault) : ResultRenamed R W (.error (.fault f)) (.error (.fault f'))

/-! ### States -/

/-- The states of two runs, where the current frame stands for a scope in which the given scopes are
    marked. -/
structure State.Renamed (R : Renaming) (W : World) (ρ : Marks) (st st' : State) : Prop where
  store : Store.Renamed R W st.store st'.store
  marks : W[st.frame]? = some ρ
  frame : st'.frame = st.frame
  depth : st'.depth = st.depth
  sink : st'.sink = st.sink
  clock : st'.clock = st.clock

namespace State.Renamed

variable {st st' : State} {v v' : Value} {f : Nat} {ρf : Marks}

/-- A variable that an expression refers to. -/
theorem lookUp (h : State.Renamed R W ρ st st') (id : Nat) (name : Lexeme) :
    ResultRenamed R W (st.lookUp R.distances id name)
      (st'.lookUp R.distances id (R.respell ρ id name)) := by
  rw [State.lookUp, State.lookUp, h.frame]
  cases hd : R.distances[id]? with
  | some distance =>
    rw [R.respell_of_some ρ name hd]
    rcases h.store.getAt h.marks distance name.text with ⟨v, v', hv, hg, hg'⟩ | ⟨e, e', hg, hg'⟩
    · simp only [hg, Lexeme.respell, hg']
      exact .ok hv
    · simp only [hg, Lexeme.respell, hg']
      exact .fault e e'
  | none =>
    rw [R.respell_of_none ρ name hd]
    rcases Option.Rel.cases (h.store.find?_global name.text) with ⟨hf, hf'⟩ | ⟨v, v', hf, hf', hv⟩
    · simp only [hf, hf']
      exact .error _
    · simp only [hf, hf']
      exact .ok hv

/-- The frame of a variable that is assigned to, under the name that it has in its scope. -/
theorem assignee (h : State.Renamed R W ρ st st') (id : Nat) (name : Lexeme) :
    (∃ g ρg, st.assignee R.distances id name = .ok g ∧
      st'.assignee R.distances id (R.respell ρ id name) = .ok g ∧ W[g]? = some ρg ∧
      (R.respell ρ id name).text = R.swap (ρg 0) name.text) ∨
    ∃ stop, st.assignee R.distances id name = .error stop ∧
      st'.assignee R.distances id (R.respell ρ id name) = .error stop := by
  rw [State.assignee, State.assignee, h.frame]
  cases hd : R.distances[id]? with
  | some distance =>
    rw [R.respell_of_some ρ name hd]
    dsimp only [Store.ancestor]
    rw [h.store.walkOut_eq]
    cases hw : st.store.walkOut distance distance st.frame with
    | error e => exact .inr ⟨.fault e, rfl, rfl⟩
    | ok g =>
      obtain ⟨ρg, hg, hmark⟩ := h.store.marks_walkOut h.marks hw
      exact .inl ⟨g, ρg, rfl, rfl, hg, by rw [hmark]; rfl⟩
  | none =>
    rw [R.respell_of_none ρ name hd, h.store.holder?_global]
    cases hg : st.store.holder? globalFrame name.text with
    | none => exact .inr ⟨_, rfl, rfl⟩
    | some g =>
      rw [Store.eq_global_of_holder? hg]
      exact .inl ⟨globalFrame, .none, rfl, rfl, h.store.global, rfl⟩

theorem defineIn (h : State.Renamed R W ρ st st') (hf : W[f]? = some ρf) (x : String)
    (hv : Value.Renamed R W v v') :
    State.Renamed R W ρ (st.defineIn f x v) (st'.defineIn f (R.swap (ρf 0) x) v') :=
  { h with store := h.store.define hf x hv }

theorem define (h : State.Renamed R W ρ st st') (x : String) (hv : Value.Renamed R W v v') :
    State.Renamed R W ρ (st.define x v) (st'.define (R.swap (ρ 0) x) v') := by
  rw [State.define, State.define, h.frame]
  exact h.defineIn h.marks x hv

theorem setField (h : State.Renamed R W ρ st st') (i : Nat) (x : String)
    (hv : Value.Renamed R W v v') :
    State.Renamed R W ρ (st.setField i x v) (st'.setField i x v') :=
  { h with store := h.store.setField i x hv }

theorem newIdentity (h : State.Renamed R W ρ st st') :
    State.Renamed R W ρ st.newIdentity.2 st'.newIdentity.2 :=
  { h with store := h.store.newIdentity }

theorem newInstance (h : State.Renamed R W ρ st st') :
    State.Renamed R W ρ st.newInstance.2 st'.newInstance.2 :=
  { h with store := h.store.newInstance }

theorem goTo (h : State.Renamed R W ρ st st') (hf : W[f]? = some ρf) :
    State.Renamed R W ρf (st.goTo f) (st'.goTo f) :=
  { h with marks := hf, frame := rfl }

theorem startCall (h : State.Renamed R W ρ st st') :
    State.Renamed R W ρ st.startCall st'.startCall :=
  { h with depth := congrArg (· + 1) h.depth }

theorem endCall (h : State.Renamed R W ρ st st') : State.Renamed R W ρ st.endCall st'.endCall :=
  { h with depth := congrArg (· - 1) h.depth }

/-- The new frame is the last of the world. -/
theorem marks_newFrame (h : State.Renamed R W ρ st st') (ρ' : Marks) :
    (W ++ [ρ'])[st.store.frames.size]? = some ρ' := by
  rw [h.store.size, List.getElem?_concat_length]

variable {b b' : Bindings Value}

theorem newFrame (h : State.Renamed R W ρ st st') (hf : W[f]? = some ρf) {mark : Bool}
    (hb : Bindings.Renamed R W mark b b') :
    State.Renamed R (W ++ [ρf.push mark]) ρ (st.newFrame b f).2 (st'.newFrame b' f).2 :=
  { h with
    store := h.store.newFrame hf hb
    marks := World.getElem?_mono (List.prefix_append ..) h.marks }

theorem enter (h : State.Renamed R W ρ st st') (hf : W[f]? = some ρf) {mark : Bool}
    (hb : Bindings.Renamed R W mark b b') :
    State.Renamed R (W ++ [ρf.push mark]) (ρf.push mark) (st.enter b f) (st'.enter b' f) :=
  { h with
    store := h.store.newFrame hf hb
    marks := h.marks_newFrame _
    frame := h.store.size_eq }

/-- A method is bound to an instance, in a frame that is not marked. -/
theorem bind (h : State.Renamed R W ρ st st') {method method' : Closure}
    (hm : Closure.MethodRenamed R W method method') (hv : Value.Renamed R W v v') :
    ∃ W', W <+: W' ∧ State.Renamed R W' ρ (st.bind method v).2 (st'.bind method' v').2 ∧
      Closure.Renamed R W' (st.bind method v).1 (st'.bind method' v').1 := by
  obtain ⟨ρm, hρ, hframe, hinit, hdecl⟩ := hm
  have hthis : Bindings.Renamed R W false (Bindings.insert "this" v ∅)
      (Bindings.insert "this" v' ∅) :=
    (Bindings.renamed_empty false).insert "this" hv
  have hnew := h.newFrame hρ hthis
  refine ⟨_, List.prefix_append W [ρm.push false], ?_, ρm.push false, h.marks_newFrame _,
    h.store.size_eq, hinit, hdecl⟩
  rw [State.bind, State.bind, hframe]
  exact hnew

/-- A method is bound to related instances in both runs. -/
theorem bound (h : State.Renamed R W ρ st st') {method method' : Closure}
    (hm : Closure.MethodRenamed R W method method') (hv : Value.Renamed R W v v') :
    ∃ W', W <+: W' ∧ State.Renamed R W' ρ (st.bound method v).2 (st'.bound method' v').2 ∧
      Value.Renamed R W' (st.bound method v).1 (st'.bound method' v').1 := by
  obtain ⟨W', hW, hst, hc⟩ := h.bind hm hv
  refine ⟨W', hW, hst.newIdentity, ?_⟩
  have hid : (st'.bind method' v').2.newIdentity.1 = (st.bind method v).2.newIdentity.1 :=
    hst.store.nextIdentity
  rw [State.bound, State.bound]
  dsimp only
  rw [hid]
  exact .function _ hc

end State.Renamed

end Lox
