import Mathlib
import Lox.Proofs.RenamedStates
import Lox.Proofs.ShiftedScopes

/-!
# One frame more

Two runs of the same code, of which the second makes additional frames, in which nothing is bound. A
frame of the first run, the *direct* one, has a twin in the other, and an additional frame lies
around some of them. A *layout* (`Layout`) says which frames are twins and which are additional. A
function belongs to the frame that it was made in, and its distances are shifted by the gap there.

What is looked up by a distance is looked up in twin frames (`Store.Twin.walkOut`), since distances
are shifted just as there are additional frames to be passed.

* `Value.Twin`, `Store.Twin`, `State.Twin`: what is alike;
* `State.Twin.lookUp`, `State.Twin.assignee`: variables are found in twin frames.
-/

namespace Lox

/-! ### Layouts -/

/-- How the frames of two runs belong together. -/
structure Layout where
  /-- For each frame of the direct run its twin, with the gap there. -/
  twins : List (Nat × Gap)
  /-- The additional frames, each with the frame of the direct run that the frame around it is the
      twin of. -/
  additional : List (Nat × Nat)

/-- Where two runs are, and how far out the additional frame lies there. -/
structure Spot where
  gap : Gap
  direct : Nat
  spread : Nat

namespace Layout

variable {W W' W'' : Layout} {k : Gap} {f f' : Nat}

/-- The frames of a spot belong together: they are twins, or the second is an additional frame. -/
def At (W : Layout) : Spot → Prop
  | ⟨some 0, f, f'⟩ => (f', f) ∈ W.additional
  | ⟨k, f, f'⟩ => W.twins[f]? = some (f', k)

theorem at_iff (hk : k ≠ some 0) : W.At ⟨k, f, f'⟩ ↔ W.twins[f]? = some (f', k) := by
  match k with
  | none => rfl
  | some 0 => exact absurd rfl hk
  | some (k + 1) => rfl

/-- A layout with more frames. -/
structure Grows (W W' : Layout) : Prop where
  twins : W.twins <+: W'.twins
  additional : W.additional ⊆ W'.additional

theorem Grows.refl (W : Layout) : W.Grows W := ⟨List.prefix_rfl, List.Subset.refl _⟩

theorem Grows.trans (h : W.Grows W') (h' : W'.Grows W'') : W.Grows W'' :=
  ⟨h.twins.trans h'.twins, List.Subset.trans h.additional h'.additional⟩

theorem Grows.twin (h : W.Grows W') (hf : W.twins[f]? = some (f', k)) :
    W'.twins[f]? = some (f', k) := by
  obtain ⟨new, hnew⟩ := h.twins
  rw [← hnew, List.getElem?_append_left (List.getElem?_eq_some_iff.1 hf).1, hf]

theorem Grows.at (h : W.Grows W') {spot : Spot} (hs : W.At spot) : W'.At spot := by
  match spot with
  | ⟨none, f, f'⟩ => exact h.twin hs
  | ⟨some 0, f, f'⟩ => exact h.additional hs
  | ⟨some (k + 1), f, f'⟩ => exact h.twin hs

/-- Both runs make a frame. -/
def push (W : Layout) (f' : Nat) (k : Gap) : Layout := { W with twins := W.twins ++ [(f', k)] }

/-- The second run makes an additional frame. -/
def pushAdditional (W : Layout) (f' f : Nat) : Layout :=
  { W with additional := (f', f) :: W.additional }

theorem grows_push (W : Layout) (f' : Nat) (k : Gap) : W.Grows (W.push f' k) :=
  ⟨List.prefix_append .., List.Subset.refl _⟩

theorem grows_pushAdditional (W : Layout) (f' f : Nat) : W.Grows (W.pushAdditional f' f) :=
  ⟨List.prefix_rfl, List.subset_cons_self ..⟩

/-- The frames that both runs have made are twins. -/
theorem twins_push {g g' : Nat} {l : Gap} (h : (W.push f' k).twins[g]? = some (g', l)) :
    (g = W.twins.length ∧ g' = f' ∧ l = k) ∨ W.twins[g]? = some (g', l) := by
  rw [push, List.getElem?_append] at h
  split at h
  · exact .inr h
  · next hge =>
    obtain ⟨hlen, heq⟩ := List.getElem?_eq_some_iff.1 h
    rw [List.length_singleton] at hlen
    rw [List.getElem_singleton] at heq
    cases heq
    exact .inl ⟨by omega, rfl, rfl⟩

theorem at_push (W : Layout) (f' : Nat) (k : Gap) :
    (W.push f' k.inner).At ⟨k.inner, W.twins.length, f'⟩ :=
  (at_iff k.inner_ne_zero).2 List.getElem?_concat_length

end Layout

/-- The gap in the frame around one with the given gap. -/
def Gap.outer (k : Gap) : Gap := k.map (· - 1)

@[simp]
theorem Gap.outer_inner (k : Gap) : k.inner.outer = k := by
  cases k <;> rfl

/-! ### Values -/

/-- A function whose declaration stands at the given gap. The code of the direct run is a copy. -/
structure Closure.TwinIn (V : Views) (k : Gap) (c c' : Closure) : Prop where
  isInitializer : c'.isInitializer = c.isInitializer
  decl : Stmt.DeclTwin V k c.decl c'.decl

/-- A function that can be called. None is made in an additional frame. -/
def Closure.Twin (V : Views) (W : Layout) (c c' : Closure) : Prop :=
  ∃ k, k ≠ some 0 ∧ W.At ⟨k, c.frame, c'.frame⟩ ∧ Closure.TwinIn V k c c'

/-- A method that is not bound to an instance: around it there is also the scope of `this`. -/
def Closure.MethodTwin (V : Views) (W : Layout) (c c' : Closure) : Prop :=
  ∃ k, W.At ⟨k, c.frame, c'.frame⟩ ∧ Closure.TwinIn V k.inner c c'

/-- A class, with all methods that can be looked up in it. -/
structure Class.Twin (V : Views) (W : Layout) (c c' : Class) : Prop where
  identity : c'.identity = c.identity
  name : c'.name = c.name
  findMethod : ∀ x, Option.Rel (Closure.MethodTwin V W) (c.findMethod x) (c'.findMethod x)

/-- A value of the direct run, and that in its place of the other. -/
inductive Value.Twin (V : Views) (W : Layout) : Value → Value → Prop
  | nil : Value.Twin V W .nil .nil
  | bool (value : Bool) : Value.Twin V W (.bool value) (.bool value)
  | number (value : Float) : Value.Twin V W (.number value) (.number value)
  | string (text : String) : Value.Twin V W (.string text) (.string text)
  | native (f : Native) : Value.Twin V W (.callable (.native f)) (.callable (.native f))
  | function (identity : Nat) {c c' : Closure} : Closure.Twin V W c c' →
      Value.Twin V W (.callable (.function identity c)) (.callable (.function identity c'))
  | «class» {c c' : Class} : Class.Twin V W c c' →
      Value.Twin V W (.callable (.class c)) (.callable (.class c'))
  | «instance» (i : Nat) {c c' : Class} : Class.Twin V W c c' →
      Value.Twin V W (.instance i c) (.instance i c')

/-- What twin frames bind. -/
def Bindings.Twin (V : Views) (W : Layout) (b b' : Bindings Value) : Prop :=
  ∀ x, Option.Rel (Value.Twin V W) (b.get? x) (b'.get? x)

variable {V : Views} {W W' : Layout} {k : Gap} {spot : Spot}

theorem Closure.TwinIn.text {c c' : Closure} (h : Closure.TwinIn V k c c') :
    c'.decl.name.text = c.decl.name.text := by
  obtain ⟨f, hdecl, -⟩ := h.decl
  rw [hdecl, Stmt.text_relabelDecl]

theorem Closure.TwinIn.length_params {c c' : Closure} (h : Closure.TwinIn V k c c') :
    c'.decl.params.length = c.decl.params.length := by
  obtain ⟨f, hdecl, -⟩ := h.decl
  rw [hdecl, Stmt.params_relabelDecl, List.length_map]

section

variable (hW : W.Grows W')
include hW

theorem Closure.Twin.mono {c c' : Closure} (h : Closure.Twin V W c c') :
    Closure.Twin V W' c c' := by
  obtain ⟨k, hk, hat, hc⟩ := h
  exact ⟨k, hk, hW.at hat, hc⟩

theorem Class.Twin.mono {c c' : Class} (h : Class.Twin V W c c') : Class.Twin V W' c c' := by
  refine { h with findMethod := fun x => Option.Rel.mono ?_ (h.findMethod x) }
  rintro m m' ⟨k, hat, hm⟩
  exact ⟨k, hW.at hat, hm⟩

/-- Values stay twins when frames are made. -/
theorem Value.Twin.mono {v v' : Value} (h : Value.Twin V W v v') : Value.Twin V W' v v' := by
  cases h with
  | nil => exact .nil
  | bool value => exact .bool value
  | number value => exact .number value
  | string text => exact .string text
  | native f => exact .native f
  | function identity hc => exact .function identity (hc.mono hW)
  | «class» hc => exact .class (hc.mono hW)
  | «instance» i hc => exact .instance i (hc.mono hW)

theorem Bindings.Twin.mono {b b' : Bindings Value} (h : Bindings.Twin V W b b') :
    Bindings.Twin V W' b b' :=
  fun x => Option.Rel.mono (fun _ _ hv => hv.mono hW) (h x)

end

namespace Value.Twin

variable {v v' u u' : Value}

theorem isTruthy (h : Value.Twin V W v v') : v'.isTruthy = v.isTruthy := by
  cases h <;> rfl

/-- Twins are printed alike. -/
theorem display (h : Value.Twin V W v v') : v'.display = v.display := by
  cases h with
  | function identity hc =>
    obtain ⟨k, -, -, hc⟩ := hc
    simp only [Value.display, Callable.display, hc.text]
  | «class» hc => exact hc.name
  | «instance» i hc => exact congrArg (· ++ " instance") hc.name
  | _ => rfl

theorem equals (h : Value.Twin V W v v') (h' : Value.Twin V W u u') :
    v'.equals u' = v.equals u := by
  cases h with
  | «class» hc =>
    cases h' with
    | «class» hc' => simp only [Value.equals, Callable.same, hc.identity, hc'.identity]
    | _ => rfl
  | _ => cases h' <;> rfl

/-- An operator has a result that is the same for both. -/
theorem unaryApply (h : Value.Twin V W v v') (op : UnaryOp) : op.apply v' = op.apply v := by
  cases op with
  | not => rw [UnaryOp.apply, UnaryOp.apply, h.isTruthy]
  | negate => cases h <;> rfl

theorem binaryApply (h : Value.Twin V W v v') (h' : Value.Twin V W u u') (op : BinaryOp) :
    op.apply v' u' = op.apply v u := by
  cases op with
  | equal => rw [BinaryOp.apply, BinaryOp.apply, h.equals h']
  | notEqual => rw [BinaryOp.apply, BinaryOp.apply, h.equals h']
  | _ => cases h <;> cases h' <;> rfl

end Value.Twin

/-- A plain value is its own twin. -/
theorem Value.IsPlain.twin {v : Value} (h : v.IsPlain) : Value.Twin V W v v := by
  cases v with
  | callable c => cases h
  | «instance» i c => cases h
  | nil => exact .nil
  | bool value => exact .bool value
  | number value => exact .number value
  | string text => exact .string text

/-! ### Stores -/

/-- The stores of two runs. -/
structure Store.Twin (V : Views) (W : Layout) (s s' : Store) : Prop where
  size : s.frames.size = W.twins.length
  lt_size : ∀ (f f' : Nat) (k : Gap), W.twins[f]? = some (f', k) → f' < s'.frames.size
  injective : ∀ (f g f' : Nat) (k l : Gap), W.twins[f]? = some (f', k) →
      W.twins[g]? = some (f', l) → f = g
  global : W.twins[globalFrame]? = some (globalFrame, none)
  enclosing : ∀ (f f' : Nat) (k : Gap), W.twins[f]? = some (f', k) →
    Option.Rel (fun g g' => W.At ⟨k.outer, g, g'⟩) (s.frame f).enclosing (s'.frame f').enclosing
  additional : ∀ f f' : Nat, (f', f) ∈ W.additional →
    ∃ g', (s'.frame f').enclosing = some g' ∧ W.twins[f]? = some (g', none)
  bindings : ∀ (f f' : Nat) (k : Gap), W.twins[f]? = some (f', k) →
    Bindings.Twin V W (s.frame f).bindings (s'.frame f').bindings
  fields : s'.fields.size = s.fields.size
  field : ∀ i x, Option.Rel (Value.Twin V W) (s.field? i x) (s'.field? i x)
  nextIdentity : s'.nextIdentity = s.nextIdentity

theorem Bindings.twin_empty : Bindings.Twin V W ∅ ∅ := fun _ => .none

theorem Bindings.Twin.insert {b b' : Bindings Value} (h : Bindings.Twin V W b b') (x : String)
    {v v' : Value} (hv : Value.Twin V W v v') :
    Bindings.Twin V W (b.insert x v) (b'.insert x v') := by
  intro y
  rw [Bindings.get?_insert, Bindings.get?_insert]
  split
  · exact .some hv
  · exact h y

namespace Store.Twin

variable {s s' : Store} {f f' g g' : Nat} {l : Gap} {v v' : Value}

theorem lt (h : Store.Twin V W s s') (hf : W.twins[f]? = some (f', k)) : f < s.frames.size := by
  rw [h.size]
  exact (List.getElem?_eq_some_iff.1 hf).1

theorem lt_additional (h : Store.Twin V W s s') (hf : (f', f) ∈ W.additional) :
    f' < s'.frames.size := by
  obtain ⟨g', he, -⟩ := h.additional f f' hf
  exact Store.lt_size_of_enclosing he

/-- A name is bound in twin frames. -/
theorem define (h : Store.Twin V W s s') (hf : W.twins[f]? = some (f', k)) (x : String)
    (hv : Value.Twin V W v v') : Store.Twin V W (s.define f x v) (s'.define f' x v') := by
  have hlt := h.lt hf
  have hlt' := h.lt_size f f' k hf
  refine { h with
    size := (size_define ..).trans h.size
    lt_size := fun g g' l hg => ?_
    enclosing := fun g g' l hg => ?_
    additional := fun g g' hg => ?_
    bindings := fun g g' l hg => ?_ }
  · rw [size_define]
    exact h.lt_size g g' l hg
  · rw [enclosing_define, enclosing_define]
    exact h.enclosing g g' l hg
  · rw [enclosing_define]
    exact h.additional g g' hg
  · rw [frame_define hlt, frame_define hlt']
    by_cases hgf : g = f
    · subst hgf
      obtain ⟨rfl, rfl⟩ := Prod.mk.inj (Option.some.inj (hf.symm.trans hg))
      rw [if_pos rfl, if_pos rfl]
      exact (h.bindings g f' k hg).insert x hv
    · have hgf' : g' ≠ f' := by
        rintro rfl
        exact hgf (h.injective g f g' l k hg hf)
      rw [if_neg hgf, if_neg hgf']
      exact h.bindings g g' l hg

/-- Both runs make a frame. -/
theorem newFrame (h : Store.Twin V W s s') (hat : W.At ⟨k, f, f'⟩) {b b' : Bindings Value}
    (hb : Bindings.Twin V W b b') :
    Store.Twin V (W.push s'.frames.size k.inner) (s.newFrame b f).2 (s'.newFrame b' f').2 := by
  have hW := W.grows_push s'.frames.size k.inner
  have hold : ∀ {g g' l}, W.twins[g]? = some (g', l) → g ≠ s.frames.size ∧ g' ≠ s'.frames.size :=
    fun hg => ⟨Nat.ne_of_lt (h.lt hg), Nat.ne_of_lt (h.lt_size _ _ _ hg)⟩
  refine {
    size := ?_
    lt_size := fun g g' l hg => ?_
    injective := fun g₁ g₂ g' l₁ l₂ hg₁ hg₂ => ?_
    global := hW.twin h.global
    enclosing := fun g g' l hg => ?_
    additional := fun g g' hg => ?_
    bindings := fun g g' l hg => ?_
    fields := h.fields
    field := fun i x => Option.Rel.mono (fun _ _ hv => hv.mono hW) (h.field i x)
    nextIdentity := h.nextIdentity }
  · rw [size_newFrame, h.size, Layout.push, List.length_append, List.length_singleton]
  · rw [size_newFrame]
    rcases Layout.twins_push hg with ⟨-, rfl, -⟩ | hg
    · exact Nat.lt_succ_self _
    · exact Nat.lt_succ_of_lt (h.lt_size g g' l hg)
  · rcases Layout.twins_push hg₁ with ⟨rfl, rfl, -⟩ | hg₁ <;>
      rcases Layout.twins_push hg₂ with ⟨rfl, heq, -⟩ | hg₂
    · rfl
    · exact absurd rfl (hold hg₂).2
    · exact absurd heq (hold hg₁).2
    · exact h.injective g₁ g₂ g' l₁ l₂ hg₁ hg₂
  · rw [frame_newFrame, frame_newFrame]
    rcases Layout.twins_push hg with ⟨hgs, rfl, rfl⟩ | hg
    · rw [if_pos (hgs.trans h.size.symm), if_pos rfl, Gap.outer_inner]
      exact .some (hW.at hat)
    · rw [if_neg (hold hg).1, if_neg (hold hg).2]
      exact Option.Rel.mono (fun _ _ => hW.at) (h.enclosing g g' l hg)
  · obtain ⟨outer, he, ht⟩ := h.additional g g' hg
    rw [frame_newFrame, if_neg (Nat.ne_of_lt (h.lt_additional hg))]
    exact ⟨outer, he, hW.twin ht⟩
  · rw [frame_newFrame, frame_newFrame]
    rcases Layout.twins_push hg with ⟨hgs, rfl, rfl⟩ | hg
    · rw [if_pos (hgs.trans h.size.symm), if_pos rfl]
      exact hb.mono hW
    · rw [if_neg (hold hg).1, if_neg (hold hg).2]
      exact (h.bindings g g' l hg).mono hW

/-- The second run makes an additional frame. -/
theorem newAdditional (h : Store.Twin V W s s') (hf : W.twins[f]? = some (f', none))
    (b' : Bindings Value) :
    Store.Twin V (W.pushAdditional s'.frames.size f) s (s'.newFrame b' f').2 := by
  have hW := W.grows_pushAdditional s'.frames.size f
  have hold : ∀ {g g' l}, W.twins[g]? = some (g', l) → g' ≠ s'.frames.size :=
    fun hg => Nat.ne_of_lt (h.lt_size _ _ _ hg)
  refine {
    size := h.size
    lt_size := fun g g' l hg => ?_
    injective := h.injective
    global := h.global
    enclosing := fun g g' l hg => ?_
    additional := fun g g' hg => ?_
    bindings := fun g g' l hg => ?_
    fields := h.fields
    field := fun i x => Option.Rel.mono (fun _ _ hv => hv.mono hW) (h.field i x)
    nextIdentity := h.nextIdentity }
  · rw [size_newFrame]
    exact Nat.lt_succ_of_lt (h.lt_size g g' l hg)
  · rw [frame_newFrame, if_neg (hold hg)]
    exact Option.Rel.mono (fun _ _ => hW.at) (h.enclosing g g' l hg)
  · rw [frame_newFrame]
    rcases List.mem_cons.1 hg with heq | hg
    · obtain ⟨rfl, rfl⟩ := Prod.mk.inj heq
      rw [if_pos rfl]
      exact ⟨f', rfl, hf⟩
    · rw [if_neg (Nat.ne_of_lt (h.lt_additional hg))]
      exact h.additional g g' hg
  · rw [frame_newFrame, if_neg (hold hg)]
    exact (h.bindings g g' l hg).mono hW

theorem newIdentity (h : Store.Twin V W s s') : Store.Twin V W s.newIdentity.2 s'.newIdentity.2 :=
  { h with nextIdentity := congrArg (· + 1) h.nextIdentity }

theorem newInstance (h : Store.Twin V W s s') :
    Store.Twin V W s.newInstance.2 s'.newInstance.2 := by
  refine { h with fields := ?_, field := fun i x => ?_ }
  · exact (Array.size_push _).trans ((congrArg (· + 1) h.fields).trans (Array.size_push _).symm)
  · rw [field?_newInstance, field?_newInstance]
    exact h.field i x

theorem setField (h : Store.Twin V W s s') (i : Nat) (x : String) (hv : Value.Twin V W v v') :
    Store.Twin V W (s.setField i x v) (s'.setField i x v') := by
  refine { h with fields := ?_, field := fun j y => ?_ }
  · exact Array.size_modify.trans (h.fields.trans Array.size_modify.symm)
  · rw [field?_setField, field?_setField, h.fields]
    split
    · exact .some hv
    · exact h.field j y

/-! ### Variables -/

/-- A walk outwards leads to twin frames, if it is longer by the additional frame that it passes. -/
theorem walkOut (h : Store.Twin V W s s') (hat : W.At ⟨k, f, f'⟩) (d d' n : Nat) :
    (∃ g g' l, s.walkOut d n f = .ok g ∧ s'.walkOut d' (k.shift n) f' = .ok g' ∧
      W.twins[g]? = some (g', l)) ∨
    ∃ e e', s.walkOut d n f = .error e ∧ s'.walkOut d' (k.shift n) f' = .error e' := by
  induction n generalizing k f f' with
  | zero =>
    match k with
    | none => exact .inl ⟨f, f', none, rfl, rfl, hat⟩
    | some 0 =>
      obtain ⟨g', he, ht⟩ := h.additional f f' hat
      refine .inl ⟨f, g', none, rfl, ?_, ht⟩
      rw [Gap.shift_zero, Store.walkOut, he]
      rfl
    | some (k + 1) =>
      refine .inl ⟨f, f', some (k + 1), rfl, ?_, hat⟩
      rw [show Gap.shift (some (k + 1)) 0 = 0 from Gap.shift_inner_zero (some k)]
      rfl
  | succ n ih =>
    -- One step from twin frames leads to a spot where the gap is nearer.
    have hstep : ∀ {l : Gap} {g' : Nat}, W.twins[f]? = some (g', l) →
        (∃ o o' m, s.walkOut d (n + 1) f = .ok o ∧ s'.walkOut d' (l.outer.shift n + 1) g' = .ok o' ∧
          W.twins[o]? = some (o', m)) ∨
        ∃ e e', s.walkOut d (n + 1) f = .error e ∧
          s'.walkOut d' (l.outer.shift n + 1) g' = .error e' := by
      intro l g' hg
      rw [Store.walkOut, Store.walkOut]
      rcases Option.Rel.cases (h.enclosing f g' l hg) with ⟨he, he'⟩ | ⟨o, o', he, he', ho⟩
      · rw [he, he']
        exact .inr ⟨_, _, rfl, rfl⟩
      · rw [he, he']
        exact ih ho
    match k with
    | none => exact hstep hat
    | some 0 =>
      obtain ⟨g', he, ht⟩ := h.additional f f' hat
      have hpass : s'.walkOut d' (n + 1 + 1) f' = s'.walkOut d' (n + 1) g' := by
        rw [Store.walkOut, he]
      rw [Gap.shift_zero, hpass]
      exact hstep ht
    | some (k + 1) =>
      rw [show Gap.shift (some (k + 1)) (n + 1) = Gap.shift (some k) n + 1 from
        Gap.shift_inner_succ (some k) n]
      exact hstep hat

/-- What is looked up by its distance is found in twin frames. -/
theorem getAt (h : Store.Twin V W s s') (hat : W.At ⟨k, f, f'⟩) (n : Nat) (x : String) :
    (∃ v v', Value.Twin V W v v' ∧ s.getAt f n x = .ok v ∧ s'.getAt f' (k.shift n) x = .ok v') ∨
    ∃ e e', s.getAt f n x = .error e ∧ s'.getAt f' (k.shift n) x = .error e' := by
  rw [Store.getAt, Store.getAt, Store.ancestor, Store.ancestor]
  rcases h.walkOut hat n (k.shift n) n with ⟨g, g', l, hg, hg', ht⟩ | ⟨e, e', hg, hg'⟩
  · rw [hg, hg']
    dsimp only
    rcases Option.Rel.cases (h.bindings g g' l ht x) with ⟨hx, hx'⟩ | ⟨v, v', hx, hx', hv⟩
    · rw [hx, hx']
      exact .inr ⟨_, _, rfl, rfl⟩
    · rw [hx, hx']
      exact .inl ⟨v, v', hv, rfl, rfl⟩
  · rw [hg, hg']
    exact .inr ⟨e, e', rfl, rfl⟩

theorem global_bindings (h : Store.Twin V W s s') (x : String) :
    Option.Rel (Value.Twin V W) ((s.frame globalFrame).bindings.get? x)
      ((s'.frame globalFrame).bindings.get? x) :=
  h.bindings globalFrame globalFrame none h.global x

theorem holder?_global (h : Store.Twin V W s s') (x : String) :
    s'.holder? globalFrame x = s.holder? globalFrame x :=
  holder?_global_of_rel (h.global_bindings x)

theorem find?_global (h : Store.Twin V W s s') (x : String) :
    Option.Rel (Value.Twin V W) (s.find? globalFrame x) (s'.find? globalFrame x) :=
  find?_global_of_rel (h.global_bindings x)

end Store.Twin

/-- The results of two runs. Distances in faults may differ, but a program that is accepted has
    none. -/
inductive ResultTwin (V : Views) (W : Layout) : Except Stop Value → Except Stop Value → Prop
  | ok {v v' : Value} : Value.Twin V W v v' → ResultTwin V W (.ok v) (.ok v')
  | error (e : RuntimeError) : ResultTwin V W (.error (.error e)) (.error (.error e))
  | fault (f f' : Fault) : ResultTwin V W (.error (.fault f)) (.error (.fault f'))

/-! ### States -/

/-- The states of two runs that are at the given spot. -/
structure State.Twin (V : Views) (W : Layout) (spot : Spot) (st st' : State) : Prop where
  store : Store.Twin V W st.store st'.store
  place : W.At spot
  direct : st.frame = spot.direct
  spread : st'.frame = spot.spread
  depth : st'.depth = st.depth
  sink : st'.sink = st.sink
  clock : st'.clock = st.clock

namespace State.Twin

variable {st st' : State} {v v' : Value} {f f' : Nat} {spot' : Spot}

/-- A variable that an expression refers to. -/
theorem lookUp (h : State.Twin V W spot st st') {id id' : Nat}
    (hid : V.Shifts spot.gap id id') (name : Lexeme) :
    ResultTwin V W (st.lookUp V.direct id name) (st'.lookUp V.spread id' name) := by
  rw [State.lookUp, State.lookUp, h.direct, h.spread, hid]
  cases V.direct[id]? with
  | some n =>
    dsimp only [Option.map_some]
    rcases h.store.getAt h.place n name.text with ⟨v, v', hv, hg, hg'⟩ | ⟨e, e', hg, hg'⟩
    · rw [hg, hg']
      exact .ok hv
    · rw [hg, hg']
      exact .fault e e'
  | none =>
    dsimp only [Option.map_none]
    rcases Option.Rel.cases (h.store.find?_global name.text) with ⟨hf, hf'⟩ | ⟨v, v', hf, hf', hv⟩
    · rw [hf, hf']
      exact .error _
    · rw [hf, hf']
      exact .ok hv

/-- The frames of a variable that is assigned to are twins. -/
theorem assignee (h : State.Twin V W spot st st') {id id' : Nat}
    (hid : V.Shifts spot.gap id id') (name : Lexeme) :
    (∃ g g' l, st.assignee V.direct id name = .ok g ∧ st'.assignee V.spread id' name = .ok g' ∧
      W.twins[g]? = some (g', l)) ∨
    ∃ stop stop', st.assignee V.direct id name = .error stop ∧
      st'.assignee V.spread id' name = .error stop' ∧
      ResultTwin V W (.error stop) (.error stop') := by
  rw [State.assignee, State.assignee, h.direct, h.spread, hid]
  cases V.direct[id]? with
  | some n =>
    dsimp only [Option.map_some, Store.ancestor]
    rcases h.store.walkOut h.place n (spot.gap.shift n) n with ⟨g, g', l, hg, hg', ht⟩
      | ⟨e, e', hg, hg'⟩
    · rw [hg, hg']
      exact .inl ⟨g, g', l, rfl, rfl, ht⟩
    · rw [hg, hg']
      exact .inr ⟨_, _, rfl, rfl, .fault e e'⟩
  | none =>
    dsimp only [Option.map_none]
    rw [h.store.holder?_global]
    cases hg : st.store.holder? globalFrame name.text with
    | none => exact .inr ⟨_, _, rfl, rfl, .error _⟩
    | some g =>
      rw [Store.eq_global_of_holder? hg]
      exact .inl ⟨globalFrame, globalFrame, none, rfl, rfl, h.store.global⟩

theorem defineIn (h : State.Twin V W spot st st') (hf : W.twins[f]? = some (f', k)) (x : String)
    (hv : Value.Twin V W v v') : State.Twin V W spot (st.defineIn f x v) (st'.defineIn f' x v') :=
  { h with store := h.store.define hf x hv }

theorem define (h : State.Twin V W spot st st') (hk : spot.gap ≠ some 0) (x : String)
    (hv : Value.Twin V W v v') : State.Twin V W spot (st.define x v) (st'.define x v') := by
  rw [State.define, State.define, h.direct, h.spread]
  exact h.defineIn ((Layout.at_iff hk).1 h.place) x hv

theorem setField (h : State.Twin V W spot st st') (i : Nat) (x : String)
    (hv : Value.Twin V W v v') : State.Twin V W spot (st.setField i x v) (st'.setField i x v') :=
  { h with store := h.store.setField i x hv }

theorem newIdentity (h : State.Twin V W spot st st') :
    State.Twin V W spot st.newIdentity.2 st'.newIdentity.2 :=
  { h with store := h.store.newIdentity }

theorem newInstance (h : State.Twin V W spot st st') :
    State.Twin V W spot st.newInstance.2 st'.newInstance.2 :=
  { h with store := h.store.newInstance }

theorem goTo (h : State.Twin V W spot st st') (hs : W.At spot') :
    State.Twin V W spot' (st.goTo spot'.direct) (st'.goTo spot'.spread) :=
  { h with place := hs, direct := rfl, spread := rfl }

theorem startCall (h : State.Twin V W spot st st') :
    State.Twin V W spot st.startCall st'.startCall :=
  { h with depth := congrArg (· + 1) h.depth }

theorem endCall (h : State.Twin V W spot st st') : State.Twin V W spot st.endCall st'.endCall :=
  { h with depth := congrArg (· - 1) h.depth }

theorem newFrame (h : State.Twin V W spot st st') (hat : W.At ⟨k, f, f'⟩) {b b' : Bindings Value}
    (hb : Bindings.Twin V W b b') :
    State.Twin V (W.push st'.store.frames.size k.inner) spot (st.newFrame b f).2
      (st'.newFrame b' f').2 :=
  { h with
    store := h.store.newFrame hat hb
    place := (W.grows_push _ _).at h.place }

/-- The spot in a new frame. -/
theorem place_newFrame (h : State.Twin V W spot st st') (k : Gap) :
    (W.push st'.store.frames.size k.inner).At
      ⟨k.inner, st.store.frames.size, st'.store.frames.size⟩ := by
  rw [h.store.size]
  exact W.at_push _ k

/-- Both runs may go on in frames that they make. -/
theorem enter (h : State.Twin V W spot st st') (hat : W.At ⟨k, f, f'⟩) {b b' : Bindings Value}
    (hb : Bindings.Twin V W b b') :
    State.Twin V (W.push st'.store.frames.size k.inner)
      ⟨k.inner, st.store.frames.size, st'.store.frames.size⟩ (st.enter b f) (st'.enter b' f') :=
  { h with
    store := h.store.newFrame hat hb
    place := h.place_newFrame k
    direct := rfl
    spread := rfl }

/-- Only the second run goes into a frame, an additional one. -/
theorem enterAdditional (h : State.Twin V W ⟨none, f, f'⟩ st st') (b' : Bindings Value) :
    State.Twin V (W.pushAdditional st'.store.frames.size f) ⟨some 0, f, st'.store.frames.size⟩ st
      (st'.enter b' f') :=
  { h with
    store := h.store.newAdditional h.place b'
    place := List.mem_cons_self ..
    spread := rfl }

/-- A method is bound to an instance, in a frame of its own. -/
theorem bind (h : State.Twin V W spot st st') {method method' : Closure}
    (hm : Closure.MethodTwin V W method method') (hv : Value.Twin V W v v') :
    ∃ W', W.Grows W' ∧ State.Twin V W' spot (st.bind method v).2 (st'.bind method' v').2 ∧
      Closure.Twin V W' (st.bind method v).1 (st'.bind method' v').1 := by
  obtain ⟨k, hat, hc⟩ := hm
  have hthis : Bindings.Twin V W (Bindings.insert "this" v ∅) (Bindings.insert "this" v' ∅) :=
    Bindings.twin_empty.insert "this" hv
  exact ⟨_, W.grows_push _ _, h.newFrame hat hthis, k.inner, k.inner_ne_zero, h.place_newFrame k,
    hc.isInitializer, hc.decl⟩

/-- A method is bound to an instance in both runs. -/
theorem bound (h : State.Twin V W spot st st') {method method' : Closure}
    (hm : Closure.MethodTwin V W method method') (hv : Value.Twin V W v v') :
    ∃ W', W.Grows W' ∧ State.Twin V W' spot (st.bound method v).2 (st'.bound method' v').2 ∧
      Value.Twin V W' (st.bound method v).1 (st'.bound method' v').1 := by
  obtain ⟨W', hW, hst, hc⟩ := h.bind hm hv
  refine ⟨W', hW, hst.newIdentity, ?_⟩
  have hid : (st'.bind method' v').2.newIdentity.1 = (st.bind method v).2.newIdentity.1 :=
    hst.store.nextIdentity
  rw [State.bound, State.bound]
  dsimp only
  rw [hid]
  exact .function _ hc

end State.Twin

end Lox
