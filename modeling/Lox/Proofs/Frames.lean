import Mathlib
import Lox.Proofs.Scoping
import Lox.Machine.Step

/-!
# Frames and scopes

At each moment of a run the frames from the current one outwards stand for the scopes around what is
executed: there is a frame for each scope, and it binds the names that the scope has defined
(`Store.Fits`). Global variables are in no scope, so of the frames behind it is only asked that they
are there.

A frame is never lost, is never enclosed by another frame than at first, and keeps the names that it
binds (`Store.Grows`). So once frames fit scopes they always do, and a function can be called
whenever and wherever: the frame that it was made in still fits the scopes around its declaration
(`Closure.Sound`). Values, stores and tables are sound if all functions in them are, with `this` and
`super` bound to instances and classes only.

* `Store.Fits.getAt`: a name that is resolved is bound at its distance;
* `Value.Sound.mono`: what is sound stays sound;
* `Store.Sound.define`, `Store.Sound.newFrame` and so on: operations keep a store sound.
-/

namespace Lox

namespace Store

/-! ### Stores that grow -/

/-- Binding a name in a frame, whether it was given out or not. -/
theorem frame_define_of_any (s : Store) (f : Nat) (name : String) (v : Value) (g : Nat) :
    (s.define f name v).frame g =
      if g = f ∧ f < s.frames.size then
        { s.frame f with bindings := (s.frame f).bindings.insert name v }
      else s.frame g := by
  by_cases hf : f < s.frames.size
  · simp only [frame_define hf, hf, and_true]
  · rw [if_neg (fun h => hf h.2)]
    simp only [define, frame, Array.getD_eq_getD_getElem?, Array.getElem?_modify]
    split
    · next hg => rw [Array.getElem?_eq_none (hg ▸ Nat.le_of_not_lt hf)]; rfl
    · rfl

theorem enclosing_define (s : Store) (f : Nat) (name : String) (v : Value) (g : Nat) :
    ((s.define f name v).frame g).enclosing = (s.frame g).enclosing := by
  rw [frame_define_of_any]
  split
  · next h => rw [h.1]
  · rfl

/-- Looking up `x` in the frame `g` after binding a name in the frame `f`. -/
theorem get?_define (s : Store) (f : Nat) (name : String) (v : Value) (g : Nat) (x : String) :
    ((s.define f name v).frame g).bindings.get? x =
      if (g = f ∧ f < s.frames.size) ∧ x = name then some v else (s.frame g).bindings.get? x := by
  rw [frame_define_of_any]
  by_cases h : g = f ∧ f < s.frames.size
  · rw [if_pos h, Bindings.get?_insert, h.1]
    exact if_congr (iff_and_self.2 fun _ => ⟨rfl, h.2⟩) rfl rfl
  · rw [if_neg h, if_neg fun hx => h hx.1]

@[simp]
theorem size_define (s : Store) (f : Nat) (name : String) (v : Value) :
    (s.define f name v).frames.size = s.frames.size :=
  Array.size_modify

@[simp]
theorem size_newFrame (s : Store) (bindings : Bindings Value) (enclosing : Nat) :
    (s.newFrame bindings enclosing).2.frames.size = s.frames.size + 1 :=
  Array.size_push _

theorem lt_size_newFrame (s : Store) (bindings : Bindings Value) (enclosing : Nat) :
    s.frames.size < (s.newFrame bindings enclosing).2.frames.size := by
  simp

/-- A new instance has no fields, like one that is not there. -/
theorem field?_newInstance (s : Store) (i : Nat) (x : String) :
    s.newInstance.2.field? i x = s.field? i x := by
  simp only [field?, newInstance, Array.getD_eq_getD_getElem?, Array.getElem?_push]
  split
  · next hi => rw [hi, Array.getElem?_eq_none (Nat.le_refl _)]; rfl
  · rfl

theorem field?_setField (s : Store) (i : Nat) (x : String) (v : Value) (j : Nat) (y : String) :
    (s.setField i x v).field? j y =
      if j = i ∧ y = x ∧ i < s.fields.size then some v else s.field? j y := by
  simp only [field?, setField, Array.getD_eq_getD_getElem?, Array.getElem?_modify]
  by_cases hj : i = j
  · subst hj
    by_cases hi : i < s.fields.size
    · simp only [if_pos, Array.getElem?_eq_getElem hi, Option.map_some, Option.getD_some,
        Bindings.get?_insert, hi, and_true, true_and]
    · simp [hi]
  · rw [if_neg hj, if_neg fun h => hj h.1.symm]

/-- At first no names are bound. -/
theorem frame_empty (f : Nat) : empty.frame f = ⟨∅, none⟩ := by
  rw [frame, empty, Array.getD_eq_getD_getElem?]
  cases f <;> rfl

/-- Only frames that were given out are enclosed. -/
theorem lt_size_of_enclosing {s : Store} {f g : Nat} (h : (s.frame f).enclosing = some g) :
    f < s.frames.size := by
  by_contra hf
  simp [frame, Array.getD, hf] at h

/-- A later store: frames keep their place and their names. -/
structure Grows (s s' : Store) : Prop where
  size : s.frames.size ≤ s'.frames.size
  enclosing : ∀ f g, (s.frame f).enclosing = some g → (s'.frame f).enclosing = some g
  contains : ∀ f name, (s.frame f).bindings.contains name → (s'.frame f).bindings.contains name

namespace Grows

variable {s s' s'' : Store}

theorem refl (s : Store) : s.Grows s := ⟨Nat.le_refl _, fun _ _ => id, fun _ _ => id⟩

theorem trans (h : s.Grows s') (h' : s'.Grows s'') : s.Grows s'' :=
  ⟨Nat.le_trans h.size h'.size, fun f g hg => h'.enclosing f g (h.enclosing f g hg),
    fun f name hn => h'.contains f name (h.contains f name hn)⟩

theorem define (s : Store) (f : Nat) (name : String) (v : Value) : s.Grows (s.define f name v) := by
  refine ⟨Nat.le_of_eq (size_define s f name v).symm, ?_, ?_⟩ <;> intro g x h <;>
    rw [frame_define_of_any] <;> split
  · next hg => exact hg.1 ▸ h
  · exact h
  · next hg => simp [Bindings.contains_insert, ← hg.1, h]
  · exact h

theorem newFrame (s : Store) (bindings : Bindings Value) (enclosing : Nat) :
    s.Grows (s.newFrame bindings enclosing).2 := by
  -- A frame with the new number would have no names so far.
  have hnew : s.frame s.frames.size = ⟨∅, none⟩ := by simp [frame, Array.getD]
  refine ⟨by simp, ?_, ?_⟩ <;> intro g x h <;> rw [frame_newFrame] <;> split
  · next hg => simp [hg, hnew] at h
  · exact h
  · next hg => simp [hg, hnew, Bindings.contains] at h
  · exact h

theorem newIdentity (s : Store) : s.Grows s.newIdentity.2 :=
  ⟨Nat.le_refl _, fun _ _ => id, fun _ _ => id⟩

theorem newInstance (s : Store) : s.Grows s.newInstance.2 :=
  ⟨Nat.le_refl _, fun _ _ => id, fun _ _ => id⟩

theorem setField (s : Store) (i : Nat) (name : String) (v : Value) :
    s.Grows (s.setField i name v) :=
  ⟨Nat.le_refl _, fun _ _ => id, fun _ _ => id⟩

end Grows

/-! ### Frames that fit scopes -/

/-- The frames from `f` outwards stand for the scopes, one by one. -/
def Fits (s : Store) : Nat → Scopes → Prop
  | f, [] => f < s.frames.size
  | f, scope :: outer =>
    (∀ name, scope.get? name = some true → (s.frame f).bindings.contains name) ∧
      ∃ g, (s.frame f).enclosing = some g ∧ s.Fits g outer

variable {s s' : Store} {f : Nat} {scopes : Scopes}

theorem Fits.lt_size (h : s.Fits f scopes) : f < s.frames.size := by
  cases scopes with
  | nil => exact h
  | cons scope outer =>
    obtain ⟨-, g, hg, -⟩ := h
    exact lt_size_of_enclosing hg

theorem Fits.mono (h : s.Fits f scopes) (hs : s.Grows s') : s'.Fits f scopes := by
  induction scopes generalizing f with
  | nil => exact Nat.lt_of_lt_of_le h hs.size
  | cons scope outer ih =>
    obtain ⟨hn, g, hg, h⟩ := h
    exact ⟨fun name hd => hs.contains f name (hn name hd), g, hs.enclosing f g hg, ih h⟩

/-- A frame that encloses the one for the innermost scope fits the scopes around it. -/
theorem Fits.walkOut (h : s.Fits f scopes) (distance : Nat) {left : Nat}
    (hl : left < scopes.length) :
    ∃ g, s.walkOut distance left f = .ok g ∧
      ∀ name, scopes.at? left name = some true → (s.frame g).bindings.contains name := by
  induction left generalizing f scopes with
  | zero =>
    cases scopes with
    | nil => cases hl
    | cons scope outer => exact ⟨f, rfl, h.1⟩
  | succ left ih =>
    cases scopes with
    | nil => cases hl
    | cons scope outer =>
      obtain ⟨-, g, hg, h⟩ := h
      rw [Store.walkOut, hg]
      exact ih h (Nat.lt_of_succ_lt_succ hl)

variable {name : String} {distance : Nat}

theorem lt_length_of_distance? (h : scopes.distance? name = some distance) :
    distance < scopes.length :=
  (List.findIdx?_eq_some_iff_getElem.1 h).1

/-- The frame of a name that is declared can be reached. -/
theorem Fits.ancestor (h : s.Fits f scopes) (hd : scopes.distance? name = some distance) :
    ∃ g, s.ancestor f distance = .ok g := by
  obtain ⟨g, hg, -⟩ := h.walkOut distance (lt_length_of_distance? hd)
  exact ⟨g, hg⟩

/-- A name that is defined is bound at its distance. -/
theorem Fits.getAt (h : s.Fits f scopes) (hd : scopes.at? distance name = some true) :
    ∃ g v, s.getAt f distance name = .ok v ∧ (s.frame g).bindings.get? name = some v := by
  have hl : distance < scopes.length := by
    by_contra hl
    rw [Scopes.at?, List.getElem?_eq_none (Nat.le_of_not_lt hl)] at hd
    cases hd
  obtain ⟨g, hg, hn⟩ := h.walkOut distance hl
  obtain ⟨v, hv⟩ := Option.isSome_iff_exists.1 (hn name hd)
  refine ⟨g, v, ?_, hv⟩
  rw [Store.getAt, Store.ancestor, hg]
  simp only [hv]

/-- A name is bound in the current frame, and so defined in the innermost scope. -/
theorem Fits.define (h : s.Fits f scopes) (name : String) (v : Value) :
    (s.define f name v).Fits f (scopes.bind name true) := by
  have hf := h.lt_size
  cases scopes with
  | nil => exact hf.trans_eq (size_define s f name v).symm
  | cons scope outer =>
    obtain ⟨hn, g, hg, ho⟩ := h.mono (.define s f name v)
    refine ⟨fun x hx => ?_, g, hg, ho⟩
    rw [Bindings.get?_insert] at hx
    split at hx
    · next hxn => simp [frame_define hf, hxn, Bindings.contains_insert]
    · exact hn x hx

/-- While its initial value is computed, nothing is asked of a name. -/
theorem Fits.declare (h : s.Fits f scopes) (name : String) : s.Fits f (scopes.bind name false) := by
  cases scopes with
  | nil => exact h
  | cons scope outer =>
    refine ⟨fun x hx => h.1 x ?_, h.2⟩
    rw [Bindings.get?_insert] at hx
    split at hx
    · cases hx
    · exact hx

/-- A new frame fits a new scope. -/
theorem Fits.newFrame (h : s.Fits f scopes) {bindings : Bindings Value} {scope : Scope}
    (hb : ∀ name, scope.get? name = some true → bindings.contains name) :
    (s.newFrame bindings f).2.Fits s.frames.size (scope :: scopes) := by
  have hnew := frame_newFrame s bindings f s.frames.size
  rw [if_pos rfl] at hnew
  exact ⟨fun name hn => hnew ▸ hb name hn, f, by rw [hnew], h.mono (.newFrame s bindings f)⟩

end Store

/-! ### Sound values -/

/-- A function that can be called: its body is resolved where it was made, and if it sets up an
    instance, the frame binds that. -/
def Closure.Sound (T : Table) (s : Store) (c : Closure) : Prop :=
  (c.isInitializer → (s.frame c.frame).bindings.contains "this") ∧
    ∃ within scopes, within ≠ .none ∧ s.Fits c.frame scopes ∧
      Stmt.DeclResolved T within scopes c.decl

/-- A method that can be bound to an instance. -/
def Closure.SoundMethod (T : Table) (s : Store) (c : Closure) : Prop :=
  ∃ within scopes, within ≠ .none ∧ s.Fits c.frame scopes ∧
    Stmt.DeclResolved T within (Scope.this :: scopes) c.decl

/-- A class whose methods, inherited ones too, can be bound to instances. -/
def Class.Sound (T : Table) (s : Store) (c : Class) : Prop :=
  ∀ name method, c.findMethod name = some method → method.SoundMethod T s

/-- A method of a class is one of its own or is inherited. -/
theorem Class.findMethod_cases {identity : Nat} {name x : String} {superclass : Option Class}
    {methods : Bindings Closure} {method : Closure}
    (h : (Class.mk identity name superclass methods).findMethod x = some method) :
    methods.get? x = some method ∨ ∃ c, superclass = some c ∧ c.findMethod x = some method := by
  unfold findMethod at h
  split at h
  · next hx => exact .inl (hx.trans h)
  · split at h
    · next c => exact .inr ⟨c, rfl, h⟩
    · cases h

/-- A value with which nothing can go wrong. -/
def Value.Sound (T : Table) (s : Store) : Value → Prop
  | .callable (.function _ closure) => closure.Sound T s
  | .callable (.class c) => c.Sound T s
  | .instance _ c => c.Sound T s
  | _ => True

/-- A value that refers to nothing. -/
def Value.IsPlain : Value → Prop
  | .callable _ => False
  | .instance _ _ => False
  | _ => True

theorem Value.IsPlain.sound {v : Value} (h : v.IsPlain) {T : Table} {s : Store} : v.Sound T s := by
  cases v with
  | callable c => exact h.elim
  | «instance» i c => exact h.elim
  | _ => trivial

/-- Operators yield truth values, numbers and texts. -/
theorem UnaryOp.isPlain_of_apply {op : UnaryOp} {v result : Value} (h : op.apply v = .ok result) :
    result.IsPlain := by
  unfold UnaryOp.apply at h
  split at h <;> cases h <;> trivial

theorem BinaryOp.isPlain_of_apply {op : BinaryOp} {left right result : Value}
    (h : op.apply left right = .ok result) :
    result.IsPlain := by
  unfold BinaryOp.apply at h
  split at h
  · cases h
    trivial
  · cases h
    trivial
  · split at h <;> cases h <;> trivial
  · split at h
    · cases h
      cases op <;> trivial
    · cases h

/-- A value that a frame can bind to the name: `this` is an instance, and `super` is a class. -/
def Value.Suits (name : String) (v : Value) : Prop :=
  (name = "this" → ∃ i c, v = .instance i c) ∧ (name = "super" → ∃ c, v = .callable (.class c))

theorem Value.suits_of_isName {name : Lexeme} (h : name.IsName) (v : Value) : v.Suits name.text :=
  ⟨fun ht => absurd ht h.ne_this, fun ht => absurd ht h.ne_super⟩

section

variable {T T' : Table} {s s' : Store} (hT : T'.Extends T) (hs : s.Grows s')
include hT hs

theorem Closure.Sound.mono {c : Closure} (h : c.Sound T s) : c.Sound T' s' := by
  obtain ⟨hthis, within, scopes, hw, hf, hr⟩ := h
  exact ⟨fun hi => hs.contains _ _ (hthis hi), within, scopes, hw, hf.mono hs,
    Stmt.DeclResolved.mono hT _ hr⟩

theorem Class.Sound.mono {c : Class} (h : c.Sound T s) : c.Sound T' s' := by
  intro name method hm
  obtain ⟨within, scopes, hw, hf, hr⟩ := h name method hm
  exact ⟨within, scopes, hw, hf.mono hs, Stmt.DeclResolved.mono hT _ hr⟩

theorem Value.Sound.mono {v : Value} (h : v.Sound T s) : v.Sound T' s' := by
  unfold Value.Sound at h ⊢
  split
  · exact Closure.Sound.mono hT hs h
  · exact Class.Sound.mono hT hs h
  · exact Class.Sound.mono hT hs h
  · trivial

end

/-- All that a store holds is sound. -/
structure Store.Sound (T : Table) (s : Store) : Prop where
  enclosing : ∀ f g, (s.frame f).enclosing = some g → g < s.frames.size
  bindings : ∀ f name v, (s.frame f).bindings.get? name = some v → v.Sound T s ∧ v.Suits name
  fields : ∀ i name v, s.field? i name = some v → v.Sound T s

namespace Store.Sound

variable {T T' : Table} {s : Store}

/-- Other programs are resolved. -/
theorem extend (h : s.Sound T) (hT : T'.Extends T) : s.Sound T' where
  enclosing := h.enclosing
  bindings f name v hv := ⟨(h.bindings f name v hv).1.mono hT (.refl s), (h.bindings f name v hv).2⟩
  fields i name v hv := (h.fields i name v hv).mono hT (.refl s)

/-- A function may refer to its own name, so the value has to be sound once it is bound. -/
theorem define (h : s.Sound T) {f : Nat} {name : String} {v : Value}
    (hv : v.Sound T (s.define f name v)) (hn : v.Suits name) : (s.define f name v).Sound T := by
  have hs := Grows.define s f name v
  refine ⟨fun g g' hg => ?_, ?_, ?_⟩
  · rw [enclosing_define] at hg
    rw [size_define]
    exact h.enclosing g g' hg
  · intro g x u hu
    rw [get?_define] at hu
    split at hu
    · next heq =>
      cases hu
      exact ⟨hv, heq.2 ▸ hn⟩
    · exact ⟨(h.bindings g x u hu).1.mono (.refl T) hs, (h.bindings g x u hu).2⟩
  · exact fun i x u hu => (h.fields i x u hu).mono (.refl T) hs

theorem newFrame (h : s.Sound T) {bindings : Bindings Value} {enclosing : Nat}
    (he : enclosing < s.frames.size)
    (hb : ∀ name v, bindings.get? name = some v → v.Sound T s ∧ v.Suits name) :
    (s.newFrame bindings enclosing).2.Sound T := by
  have hs := Grows.newFrame s bindings enclosing
  refine ⟨fun g g' hg => ?_, ?_, ?_⟩
  · rw [size_newFrame]
    rw [frame_newFrame] at hg
    split at hg
    · cases hg
      exact Nat.lt_succ_of_lt he
    · exact Nat.lt_succ_of_lt (h.enclosing g g' hg)
  · intro g x u hu
    rw [frame_newFrame] at hu
    split at hu
    · exact ⟨(hb x u hu).1.mono (.refl T) hs, (hb x u hu).2⟩
    · exact ⟨(h.bindings g x u hu).1.mono (.refl T) hs, (h.bindings g x u hu).2⟩
  · exact fun i x u hu => (h.fields i x u hu).mono (.refl T) hs

theorem newIdentity (h : s.Sound T) : s.newIdentity.2.Sound T :=
  ⟨h.enclosing, fun f name v hv => ⟨(h.bindings f name v hv).1.mono (.refl T) (.newIdentity s),
    (h.bindings f name v hv).2⟩,
    fun i name v hv => (h.fields i name v hv).mono (.refl T) (.newIdentity s)⟩

theorem newInstance (h : s.Sound T) : s.newInstance.2.Sound T := by
  refine ⟨h.enclosing,
    fun f name v hv => ⟨(h.bindings f name v hv).1.mono (.refl T) (.newInstance s),
    (h.bindings f name v hv).2⟩, fun i name v hv => ?_⟩
  rw [field?_newInstance] at hv
  exact (h.fields i name v hv).mono (.refl T) (.newInstance s)

theorem setField (h : s.Sound T) (i : Nat) (name : String) {v : Value} (hv : v.Sound T s) :
    (s.setField i name v).Sound T := by
  have hs := Grows.setField s i name v
  refine ⟨h.enclosing,
    fun f x u hu => ⟨(h.bindings f x u hu).1.mono (.refl T) hs, (h.bindings f x u hu).2⟩,
    fun j x u hu => ?_⟩
  rw [field?_setField] at hu
  split at hu
  · cases hu
    exact hv.mono (.refl T) hs
  · exact (h.fields j x u hu).mono (.refl T) hs

end Store.Sound

end Lox
