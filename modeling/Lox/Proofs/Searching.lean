import Mathlib
import Lox.Proofs.Frames
import Lox.Proofs.ClassFailures

/-!
# Searching and addressing

Frames form a forest: every frame is enclosed by an older one or stands alone, and many frames can
be enclosed by the same one. A name is found in two ways, by a search from a frame outwards, which
ends at the first frame that binds the name, and at a distance that is known in advance. If the
distance is that of the first frame that binds the name, both ways come to the same frame. So they
read the same value, and they change the same binding and nothing else.

* `Store.Forest`: stores that are built by the operations on frames;
* `Store.Out`, `Store.Nearest`: links outwards, and the first frame that binds a name;
* `Store.Enclosed.holder?_eq_some`, `Store.ancestor_eq_ok`: both ways, in these terms;
* `Store.get_define`: what a search finds after a name was bound somewhere;
* `Store.searched_eq_addressed`: the two ways agree.
-/

namespace Lox

namespace Store

/-- Stores that are built from frames which stand alone and bind nothing. An operation that fails
    changes nothing, so only those that succeed are listed. -/
inductive Forest : Store → Prop
  /-- Some frames that stand alone. -/
  | roots {s : Store} : (∀ f, s.frame f = ⟨∅, none⟩) → Forest s
  /-- A new frame inside another. -/
  | child {s : Store} {f : Nat} (bindings : Bindings Value) : Forest s → f < s.frames.size →
      Forest (s.newFrame bindings f).2
  /-- A name is bound in a frame. -/
  | define {s : Store} (f : Nat) (x : String) (v : Value) : Forest s → Forest (s.define f x v)
  /-- A name is assigned to by a search. -/
  | assign {s s' : Store} {f : Nat} {name : Lexeme} {v : Value} : Forest s →
      s.assign f name v = .ok s' → Forest s'
  /-- A name is assigned to at a distance. -/
  | assignAt {s s' : Store} {f d : Nat} {x : String} {v : Value} : Forest s →
      s.assignAt f d x v = .ok s' → Forest s'

/-- The frame `g` is `d` links out from `f`. -/
inductive Out (s : Store) : (d f g : Nat) → Prop
  | here (f : Nat) : Out s 0 f f
  | link {d f outer g : Nat} : (s.frame f).enclosing = some outer → Out s d outer g →
      Out s (d + 1) f g

/-- The frame `g` binds a name. -/
def Holds (s : Store) (g : Nat) (x : String) : Prop := (s.frame g).bindings.contains x = true

instance (s : Store) (g : Nat) (x : String) : Decidable (s.Holds g x) :=
  inferInstanceAs (Decidable (_ = true))

/-- The frame `g` is the first one from `f` outwards that binds a name, and it is `d` links out. -/
structure Nearest (s : Store) (f : Nat) (x : String) (d g : Nat) : Prop where
  out : s.Out d f g
  holds : s.Holds g x
  least : ∀ e h, s.Out e f h → s.Holds h x → d ≤ e

variable {s s' : Store} {d e f g h outer : Nat} {x y : String} {v : Value} {name : Lexeme}

/-! ### Links -/

theorem out_zero : s.Out 0 f g ↔ f = g := by
  constructor
  · intro hout
    cases hout
    rfl
  · rintro rfl
    exact .here f

/-- The first link leads to the frame around, and the others go on from there. -/
theorem out_succ : s.Out (d + 1) f g ↔ ∃ outer, (s.frame f).enclosing = some outer ∧
    s.Out d outer g := by
  constructor
  · intro hout
    cases hout with
    | link hlink hout => exact ⟨_, hlink, hout⟩
  · rintro ⟨outer, hlink, hout⟩
    exact .link hlink hout

/-- Links are the way that an addressed access goes. -/
theorem walkOut_eq_ok (distance : Nat) : s.walkOut distance d f = .ok g ↔ s.Out d f g := by
  induction d generalizing f with
  | zero => rw [walkOut, Except.ok.injEq, out_zero]
  | succ d ih =>
    rw [walkOut, out_succ]
    cases (s.frame f).enclosing with
    | none => simp
    | some outer => simpa using ih

theorem ancestor_eq_ok : s.ancestor f d = .ok g ↔ s.Out d f g := walkOut_eq_ok d

/-- An addressed access has one result, so there is one frame at a distance. -/
theorem Out.eq (h₁ : s.Out d f g) (h₂ : s.Out d f h) : g = h :=
  Except.ok.inj ((ancestor_eq_ok.2 h₁).symm.trans (ancestor_eq_ok.2 h₂))

/-! ### The first frame that binds a name -/

theorem Nearest.unique (h₁ : s.Nearest f x d g) (h₂ : s.Nearest f x e h) : d = e ∧ g = h := by
  obtain rfl := Nat.le_antisymm (h₁.least e h h₂.out h₂.holds) (h₂.least d g h₁.out h₁.holds)
  exact ⟨rfl, h₁.out.eq h₂.out⟩

theorem nearest_here (hf : s.Holds f x) : s.Nearest f x 0 f :=
  ⟨.here f, hf, fun _ _ _ _ => Nat.zero_le _⟩

/-- If a frame does not bind a name, the first one that does is that of the frame around it. -/
theorem nearest_link (hf : ¬s.Holds f x) (hlink : (s.frame f).enclosing = some outer) :
    s.Nearest f x (d + 1) g ↔ s.Nearest outer x d g := by
  constructor
  · rintro ⟨hout, hholds, hleast⟩
    cases hout with
    | link hlink' hout =>
      cases hlink.symm.trans hlink'
      exact ⟨hout, hholds,
        fun e h he hh => Nat.le_of_succ_le_succ (hleast (e + 1) h (.link hlink he) hh)⟩
  · rintro ⟨hout, hholds, hleast⟩
    refine ⟨.link hlink hout, hholds, fun e h he hh => ?_⟩
    cases he with
    | here => exact absurd hh hf
    | link hlink' he =>
      cases hlink.symm.trans hlink'
      exact Nat.succ_le_succ (hleast _ h he hh)

theorem Nearest.lt_size (hx : s.Nearest f x d g) : g < s.frames.size := by
  by_contra hg
  have hholds := hx.holds
  simp [Holds, frame, Array.getD, hg, Bindings.contains] at hholds

/-! ### Searches -/

/-- Every frame is enclosed by an older one. -/
def Enclosed (s : Store) : Prop := ∀ f g, (s.frame f).enclosing = some g → g < f

theorem Enclosed.define (hs : s.Enclosed) (f : Nat) (x : String) (v : Value) :
    (s.define f x v).Enclosed := by
  intro g outer hg
  rw [enclosing_define] at hg
  exact hs g outer hg

theorem Enclosed.newFrame (hs : s.Enclosed) (bindings : Bindings Value) (hf : f < s.frames.size) :
    (s.newFrame bindings f).2.Enclosed := by
  intro g outer hg
  rw [frame_newFrame] at hg
  split at hg
  · next hnew =>
    cases hg
    rwa [hnew]
  · exact hs g outer hg

theorem assign_eq_ok : s.assign f name v = .ok s' ↔ ∃ g, s.holder? f name.text = some g ∧
    s' = s.define g name.text v := by
  rw [assign, assign?]
  cases s.holder? f name.text with
  | none => simp
  | some g =>
    simp only [Option.map_some, Except.ok.injEq, Option.some.injEq, exists_eq_left']
    exact eq_comm

theorem assignAt_eq_ok : s.assignAt f d x v = .ok s' ↔ ∃ g, s.Out d f g ∧ s' = s.define g x v := by
  simp only [assignAt, ← ancestor_eq_ok]
  cases s.ancestor f d with
  | error fault => simp
  | ok g =>
    simp only [Except.ok.injEq, exists_eq_left']
    exact eq_comm

theorem Forest.enclosed (hs : s.Forest) : s.Enclosed := by
  induction hs with
  | roots hroots =>
    intro f g hf
    rw [hroots f] at hf
    cases hf
  | child bindings _ hf ih => exact ih.newFrame bindings hf
  | define f x v _ ih => exact ih.define f x v
  | assign _ hassign ih =>
    obtain ⟨g, -, rfl⟩ := assign_eq_ok.1 hassign
    exact ih.define g _ _
  | assignAt _ hassign ih =>
    obtain ⟨g, -, rfl⟩ := assignAt_eq_ok.1 hassign
    exact ih.define g _ _

/-- A chain is complete if the fuel is as large as the number of the frame, as the numbers fall. -/
theorem Enclosed.chainUpTo_congr (hs : s.Enclosed) {fuel fuel' : Nat} (hf : f ≤ fuel)
    (hf' : f ≤ fuel') : s.chainUpTo fuel f = s.chainUpTo fuel' f := by
  induction f using Nat.strong_induction_on generalizing fuel fuel' with
  | _ f ih =>
    cases hlink : (s.frame f).enclosing with
    | none => cases fuel <;> cases fuel' <;> simp [chainUpTo, hlink]
    | some outer =>
      have hlt := hs f outer hlink
      cases fuel with
      | zero => omega
      | succ fuel =>
        cases fuel' with
        | zero => omega
        | succ fuel' =>
          have htail : s.chainUpTo fuel outer = s.chainUpTo fuel' outer :=
            ih outer hlt (by omega) (by omega)
          simp only [chainUpTo, hlink, htail]

/-- A frame is followed by the frames from the one around it outwards. -/
theorem Enclosed.chain_eq (hs : s.Enclosed) (f : Nat) :
    s.chain f = f :: ((s.frame f).enclosing.map s.chain).getD [] := by
  rw [chain, hs.chainUpTo_congr (Nat.le_refl f) (Nat.le_succ f), chainUpTo]
  cases hlink : (s.frame f).enclosing with
  | none => rfl
  | some outer =>
    exact congrArg (f :: ·)
      (hs.chainUpTo_congr (Nat.le_of_lt (hs f outer hlink)) (Nat.le_refl outer))

/-- A search looks at a frame, and then goes on at the frame around it. -/
theorem Enclosed.holder?_eq (hs : s.Enclosed) (f : Nat) (x : String) :
    s.holder? f x = if s.Holds f x then some f else (s.frame f).enclosing.bind fun outer =>
      s.holder? outer x := by
  rw [holder?, hs.chain_eq, List.find?_cons]
  by_cases hf : s.Holds f x
  · rw [if_pos hf, hf]
  · rw [if_neg hf, Bool.eq_false_iff.2 hf]
    cases (s.frame f).enclosing with
    | none => rfl
    | some outer => rfl

/-- A search ends at the first frame that binds the name. -/
theorem Enclosed.holder?_eq_some (hs : s.Enclosed) : s.holder? f x = some g ↔ ∃ d,
    s.Nearest f x d g := by
  -- The frame around `f` has a smaller number.
  induction f using Nat.strong_induction_on with
  | _ f ih =>
    rw [hs.holder?_eq]
    by_cases hf : s.Holds f x
    · rw [if_pos hf, Option.some.injEq]
      constructor
      · rintro rfl
        exact ⟨0, nearest_here hf⟩
      · rintro ⟨d, hd⟩
        exact ((nearest_here hf).unique hd).2
    · rw [if_neg hf]
      cases hlink : (s.frame f).enclosing with
      | none =>
        refine iff_of_false (by simp) ?_
        rintro ⟨d, hd⟩
        cases hd.out with
        | here => exact hf hd.holds
        | link hlink' => cases hlink.symm.trans hlink'
      | some outer =>
        rw [Option.bind_some, ih outer (hs f outer hlink)]
        constructor
        · rintro ⟨d, hd⟩
          exact ⟨d + 1, (nearest_link hf hlink).2 hd⟩
        · rintro ⟨d, hd⟩
          cases d with
          | zero =>
            cases hd.out
            exact absurd hd.holds hf
          | succ d => exact ⟨d, (nearest_link hf hlink).1 hd⟩

/-- A frame that binds a name has a first one from it outwards that does. -/
theorem exists_nearest (hout : s.Out d f g) (hg : s.Holds g x) : ∃ e h, s.Nearest f x e h := by
  induction hout with
  | here f => exact ⟨0, f, nearest_here hg⟩
  | @link d f outer g hlink hout ih =>
    by_cases hf : s.Holds f x
    · exact ⟨0, f, nearest_here hf⟩
    · obtain ⟨e, h, hnearest⟩ := ih hg
      exact ⟨e + 1, h, (nearest_link hf hlink).2 hnearest⟩

theorem Enclosed.holder?_eq_none (hs : s.Enclosed) :
    s.holder? f x = none ↔ ∀ d g, s.Out d f g → ¬s.Holds g x := by
  constructor
  · intro hnone d g hout hg
    obtain ⟨e, h, hnearest⟩ := exists_nearest hout hg
    cases hnone.symm.trans (hs.holder?_eq_some.2 ⟨e, hnearest⟩)
  · intro hall
    refine Option.eq_none_iff_forall_ne_some.2 fun g hg => ?_
    obtain ⟨d, hd⟩ := hs.holder?_eq_some.1 hg
    exact hall d g hd.out hd.holds

/-! ### What a search finds -/

theorem get_of_holder? (hg : s.holder? f name.text = some g)
    (hv : (s.frame g).bindings.get? name.text = some v) : s.get f name = .ok v := by
  rw [get, find?, hg, Option.bind_some, hv]

theorem get_of_holder?_none (hg : s.holder? f name.text = none) :
    s.get f name = .error (.raised name.line (.undefinedVariable name.text)) := by
  rw [get, find?, hg, Option.bind_none]

theorem Holds.get? (hg : s.Holds g x) : ∃ v, (s.frame g).bindings.get? x = some v :=
  Option.isSome_iff_exists.1 hg

/-- Binding a name anew where it is bound keeps the first frame that binds any name. -/
theorem holder?_define (hg : s.Holds g x) (f : Nat) (y : String) :
    (s.define g x v).holder? f y = s.holder? f y := by
  have hcontains : ∀ h, ((s.define g x v).frame h).bindings.contains y =
      (s.frame h).bindings.contains y := by
    intro h
    rw [Bindings.contains, get?_define, Bindings.contains]
    split
    · next hy =>
      obtain ⟨w, hw⟩ := hg.get?
      rw [hy.1.1, hy.2, hw]
      rfl
    · rfl
  simp only [holder?, chain, chainUpTo_define, hcontains]

/-- What is found after a name was bound anew in a frame that binds it: the new value from where
    this frame is the first one, and what was found before from elsewhere. -/
theorem get_define (hs : s.Enclosed) (hg : s.Holds g x) (f : Nat) (name : Lexeme) :
    ((name.text = x ∧ ∃ d, s.Nearest f x d g) → (s.define g x v).get f name = .ok v) ∧
      (¬(name.text = x ∧ ∃ d, s.Nearest f x d g) → (s.define g x v).get f name = s.get f name) := by
  constructor
  · rintro ⟨rfl, d, hd⟩
    refine get_of_holder? (g := g) ?_ ?_
    · rw [holder?_define hg]
      exact hs.holder?_eq_some.2 ⟨d, hd⟩
    · rw [get?_define, if_pos ⟨⟨rfl, hd.lt_size⟩, rfl⟩]
  · intro hother
    rw [get, find?, holder?_define hg, get, find?]
    cases hh : s.holder? f name.text with
    | none => rfl
    | some h =>
      have hne : ¬((h = g ∧ g < s.frames.size) ∧ name.text = x) := by
        rintro ⟨⟨rfl, -⟩, rfl⟩
        exact hother ⟨rfl, hs.holder?_eq_some.1 hh⟩
      rw [Option.bind_some, Option.bind_some, get?_define, if_neg hne]

/-! ### The two ways agree -/

/-- The store `s'` is the store `s` but for the value of one name in one frame. -/
structure ChangedAt (s s' : Store) (g : Nat) (x : String) (v : Value) : Prop where
  bindings : ∀ h y, (s'.frame h).bindings.get? y = if h = g ∧ y = x then some v
      else (s.frame h).bindings.get? y
  enclosing : ∀ h, (s'.frame h).enclosing = (s.frame h).enclosing
  size : s'.frames.size = s.frames.size
  fields : s'.fields = s.fields
  nextIdentity : s'.nextIdentity = s.nextIdentity

theorem changedAt_define (hg : g < s.frames.size) (x : String) (v : Value) :
    s.ChangedAt (s.define g x v) g x v where
  bindings h y := by
    rw [get?_define]
    exact if_congr (by simp [hg]) rfl rfl
  enclosing h := enclosing_define s g x v h
  size := size_define s g x v
  fields := rfl
  nextIdentity := rfl

/-- Searching and addressing agree. Let `d` be the least number of links from a frame to one that
    binds a name. Then both ways read the same value, and both ways assign to the name in that one
    frame, which changes nothing else; from then on the new value is found from the frames from
    which that frame is the first one that binds the name, and from other frames and under other
    names what was found before. If no frame outwards binds the name, reading and assigning are
    errors. -/
theorem searched_eq_addressed (hs : s.Forest) (f : Nat) (name : Lexeme) (v : Value) :
    (∀ d g, s.Nearest f name.text d g →
      (∃ value, s.get f name = .ok value ∧ s.getAt f d name.text = .ok value) ∧
      ∃ s', s.assign f name v = .ok s' ∧ s.assignAt f d name.text v = .ok s' ∧
        s.ChangedAt s' g name.text v ∧
        ∀ h other,
          ((other.text = name.text ∧ ∃ e, s.Nearest h name.text e g) → s'.get h other = .ok v) ∧
          (¬(other.text = name.text ∧ ∃ e, s.Nearest h name.text e g) →
            s'.get h other = s.get h other)) ∧
    ((∀ d g, s.Out d f g → ¬s.Holds g name.text) →
      ∃ e, s.get f name = .error e ∧ s.assign f name v = .error e ∧
        e = .raised name.line (.undefinedVariable name.text)) := by
  constructor
  · intro d g hnearest
    have hholder := hs.enclosed.holder?_eq_some.2 ⟨d, hnearest⟩
    obtain ⟨value, hvalue⟩ := hnearest.holds.get?
    refine ⟨⟨value, get_of_holder? hholder hvalue, ?_⟩, s.define g name.text v,
      assign_eq_ok.2 ⟨g, hholder, rfl⟩,
      assignAt_eq_ok.2 ⟨g, hnearest.out, rfl⟩, changedAt_define hnearest.lt_size _ _,
      fun h other => get_define hs.enclosed hnearest.holds h other⟩
    simp only [getAt, ancestor_eq_ok.2 hnearest.out, hvalue]
  · intro hnone
    have hholder := hs.enclosed.holder?_eq_none.2 hnone
    refine ⟨_, get_of_holder?_none hholder, ?_, rfl⟩
    rw [assign, assign?, hholder, Option.map_none]

/-- Two frames bind a name, one of them inside a frame that two frames share. Assigning from the
    frame beside it reaches the outer one, and the inner one keeps what it binds. -/
theorem searched_eq_addressed_shadowed :
    ∃ s s' : Store, s.Forest ∧ s.Nearest 3 "x" 2 0 ∧ s.Nearest 2 "x" 0 2 ∧
      s.assign 3 ⟨"x", 1⟩ (.bool true) = .ok s' ∧
      s.assignAt 3 2 "x" (.bool true) = .ok s' ∧ s'.get 1 ⟨"x", 5⟩ = .ok (.bool true) ∧
      s'.get 2 ⟨"x", 5⟩ = s.get 2 ⟨"x", 5⟩ ∧
      s.get 3 ⟨"y", 5⟩ = .error (.raised 5 (.undefinedVariable "y")) := by
  let outer := empty.define 0 "x" .nil
  let shared := ((outer.newFrame ∅ 0).2.newFrame ∅ 1).2
  let s := ((shared.define 2 "x" .nil).newFrame ∅ 1).2
  have hs : s.Forest := by
    refine .child ∅ (.define 2 "x" .nil
      (.child ∅ (.child ∅ (.define 0 "x" .nil (.roots frame_empty)) ?_) ?_)) ?_ <;>
      decide
  have h₁ : s.Nearest 1 "x" 1 0 := (nearest_link (by decide) rfl).2 (nearest_here (by decide))
  have h₂ : s.Nearest 2 "x" 0 2 := nearest_here (by decide)
  have h₃ : s.Nearest 3 "x" 2 0 := (nearest_link (by decide) rfl).2 h₁
  obtain ⟨hagree, -⟩ := searched_eq_addressed hs 3 ⟨"x", 1⟩ (.bool true)
  obtain ⟨-, s', hassign, hassignAt, -, hget⟩ := hagree 2 0 h₃
  obtain ⟨-, hnone⟩ := searched_eq_addressed hs 3 ⟨"y", 5⟩ .nil
  refine ⟨s, s', hs, h₃, h₂, hassign, hassignAt, (hget 1 ⟨"x", 5⟩).1 ⟨rfl, 1, h₁⟩,
    (hget 2 ⟨"x", 5⟩).2 ?_, ?_⟩
  · rintro ⟨-, e, he⟩
    cases (h₂.unique he).2
  · obtain ⟨e, hget, -, rfl⟩ := hnone (hs.enclosed.holder?_eq_none.1 rfl)
    exact hget

end Store

/-! ### Variables of programs

Programs use both ways: local variables are addressed, and global ones are searched for in the
global frame. -/

namespace State

variable {st : State} {distances : Distances} {id : Nat} {name : Lexeme}

theorem lookUp_of_none (h : distances[id]? = none) :
    st.lookUp distances id name = (st.store.get globalFrame name).mapError .error := by
  rw [lookUp, h, Store.get]
  cases st.store.find? globalFrame name.text <;> rfl

theorem assignee_of_none (h : distances[id]? = none) (v : Value) :
    (st.assignee distances id name).map (st.store.define · name.text v) =
      (st.store.assign globalFrame name v).mapError .error := by
  rw [assignee, h, Store.assign, Store.assign?]
  cases st.store.holder? globalFrame name.text <;> rfl

theorem assignee_of_some {distance : Nat} (h : distances[id]? = some distance) (v : Value) :
    (st.assignee distances id name).map (st.store.define · name.text v) =
      (st.store.assignAt st.frame distance name.text v).mapError .fault := by
  simp only [assignee, h, Store.assignAt]
  cases st.store.ancestor st.frame distance <;> rfl

end State

end Lox
