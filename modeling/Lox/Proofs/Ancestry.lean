import Mathlib
import Lox.Proofs.Properties
import Lox.Proofs.Searching

/-!
# Frames and classes in order of time

Frames are never taken apart. Each but the global one is made inside an older one and stays there,
and a name that it binds stays bound. So from every frame that anything refers to, the way out leads
over older and older frames to the global one, and every search and every addressed access comes to
an end. The same holds of classes: the superclass of a class was built before it, so the search for
a method goes over older and older classes.

All of this holds in every session that comes about (`Session.History`), between two sources and at
each step of a run. What comes later is said by `Session.Next`, one move of a session after the
other.

* `Store.Rooted`: every frame but the global one is inside an older one;
* `Store.Rooted.leads`: ways out, and what searches and addressed accesses do on them;
* `Value.Placed`: the functions and methods of a value are in frames that were made, and its class
  was built;
* `Session.History.placed`: all values are placed, in every session that comes about;
* `Session.enclosing_superclass_older`: frames and classes, at all times.
-/

namespace Lox

/-! ### Ways out -/

namespace Store

/-- What is around a frame: nothing if it is the global one, and else an older frame. -/
def Around (f : Nat) : Option Nat → Prop
  | none => f = globalFrame
  | some g => g < f

/-- There is a global frame, and every other frame is inside an older one. -/
structure Rooted (s : Store) : Prop where
  global : globalFrame < s.frames.size
  around : ∀ f < s.frames.size, Around f (s.frame f).enclosing

/-- The way out from the frame `f` goes from frame to frame along the links, over older and older
    frames, to the global one. An addressed access comes to the frame at its distance, or it ends
    where the way does. A search comes to the first frame that binds the name, or there is none on
    the way. -/
structure Leads (s : Store) (f : Nat) : Prop where
  first : (s.chain f).head? = some f
  links : (s.chain f).IsChain fun g outer => (s.frame g).enclosing = some outer
  older : (s.chain f).Pairwise (· > ·)
  last : (s.chain f).getLast? = some globalFrame
  ancestor : ∀ d g, s.ancestor f d = .ok g ↔ (s.chain f)[d]? = some g
  beyond : ∀ d, (s.chain f).length ≤ d →
      s.ancestor f d = .error (.chainEnded ((s.chain f).length - 1) d)
  get : ∀ name : Lexeme,
    (∃ d g v, s.Nearest f name.text d g ∧ (s.frame g).bindings.get? name.text = some v ∧
      s.get f name = .ok v) ∨
      (∀ g ∈ s.chain f, ¬s.Holds g name.text) ∧
        s.get f name = .error (.raised name.line (.undefinedVariable name.text))
  assign : ∀ (name : Lexeme) (v : Value),
    (∃ d g, s.Nearest f name.text d g ∧ s.assign f name v = .ok (s.define g name.text v)) ∨
      (∀ g ∈ s.chain f, ¬s.Holds g name.text) ∧
        s.assign f name v = .error (.raised name.line (.undefinedVariable name.text))

variable {s : Store} {d f g n left : Nat}

/-- An addressed access that goes farther than the links ends where they do. -/
theorem walkOut_of_out (hout : s.Out n f g) (hg : (s.frame g).enclosing = none) (hn : n < left)
    (distance : Nat) :
    s.walkOut distance left f = .error (.chainEnded (distance - (left - n)) distance) := by
  induction hout generalizing left with
  | here f =>
    cases left with
    | zero => cases hn
    | succ left => rw [walkOut, hg, Nat.sub_zero]
  | link hlink _ ih =>
    cases left with
    | zero => cases hn
    | succ left =>
      rw [walkOut, hlink]
      dsimp only
      rw [ih hg (Nat.lt_of_succ_lt_succ hn), Nat.succ_sub_succ]

/-- The frames from a frame outwards are those at the distances 0, 1, 2 and so on. -/
theorem Enclosed.getElem?_chain (hs : s.Enclosed) : (s.chain f)[d]? = some g ↔ s.Out d f g := by
  induction d generalizing f with
  | zero => rw [hs.chain_eq, List.getElem?_cons_zero, Option.some.injEq, out_zero]
  | succ d ih =>
    rw [hs.chain_eq, List.getElem?_cons_succ, out_succ]
    cases (s.frame f).enclosing with
    | none => simp
    | some outer => simpa using ih

/-- A search that finds nothing was at every frame on the way. -/
theorem not_holds_of_holder?_eq_none {x : String} (hnone : s.holder? f x = none) : ∀ g ∈ s.chain f,
    ¬s.Holds g x :=
  List.find?_eq_none.1 hnone

namespace Rooted

variable (hs : s.Rooted)
include hs

theorem enclosing_global : (s.frame globalFrame).enclosing = none := by
  have haround := hs.around globalFrame hs.global
  cases hlink : (s.frame globalFrame).enclosing with
  | none => rfl
  | some g =>
    rw [hlink] at haround
    exact absurd haround (Nat.not_lt_zero g)

theorem enclosed : s.Enclosed := by
  intro f g hlink
  have haround := hs.around f (lt_size_of_enclosing hlink)
  rw [hlink] at haround
  exact haround

/-- What holds of the global frame, and of a frame if it holds of the frame around it, holds of all
    frames. -/
theorem induction {P : Nat → Prop} (root : P globalFrame)
    (inner : ∀ f g, (s.frame f).enclosing = some g → P g → P f) : ∀ f < s.frames.size, P f := by
  intro f
  induction f using Nat.strong_induction_on with
  | _ f ih =>
    intro hf
    have haround := hs.around f hf
    cases hlink : (s.frame f).enclosing with
    | none =>
      rw [hlink] at haround
      exact haround ▸ root
    | some g =>
      rw [hlink] at haround
      exact inner f g hlink (ih g haround (Nat.lt_trans haround hf))

theorem chain_global : s.chain globalFrame = [globalFrame] := by
  rw [hs.enclosed.chain_eq, hs.enclosing_global]
  rfl

theorem chain_of_enclosing (hlink : (s.frame f).enclosing = some g) :
    s.chain f = f :: s.chain g := by
  rw [hs.enclosed.chain_eq, hlink]
  rfl

theorem head?_chain (f : Nat) : (s.chain f).head? = some f := by
  rw [hs.enclosed.chain_eq]
  rfl

theorem isChain_chain (hf : f < s.frames.size) :
    (s.chain f).IsChain fun g outer => (s.frame g).enclosing = some outer := by
  refine hs.induction (P := fun f => (s.chain f).IsChain _) ?_ (fun f g hlink ih => ?_) f hf
  · rw [hs.chain_global]
    exact .singleton _
  · rw [hs.chain_of_enclosing hlink]
    refine List.isChain_cons.2 ⟨fun outer houter => ?_, ih⟩
    rw [hs.head?_chain] at houter
    cases houter
    exact hlink

theorem getLast?_chain (hf : f < s.frames.size) : (s.chain f).getLast? = some globalFrame := by
  refine hs.induction (P := fun f => (s.chain f).getLast? = _) ?_ (fun f g hlink ih => ?_) f hf
  · rw [hs.chain_global]
    rfl
  · rw [hs.chain_of_enclosing hlink, List.getLast?_cons, ih]
    rfl

theorem pairwise_chain (hf : f < s.frames.size) : (s.chain f).Pairwise (· > ·) :=
  List.isChain_iff_pairwise.1 ((hs.isChain_chain hf).imp fun g outer => hs.enclosed g outer)

/-- The global frame is as far out as the way is long. -/
theorem out_global (hf : f < s.frames.size) : s.Out ((s.chain f).length - 1) f globalFrame := by
  rw [← hs.enclosed.getElem?_chain, ← List.getLast?_eq_getElem?]
  exact hs.getLast?_chain hf

theorem ancestor_beyond (hf : f < s.frames.size) (hd : (s.chain f).length ≤ d) :
    s.ancestor f d = .error (.chainEnded ((s.chain f).length - 1) d) := by
  have hne : 0 < (s.chain f).length := by
    rw [hs.enclosed.chain_eq]
    exact Nat.succ_pos _
  rw [ancestor, walkOut_of_out (hs.out_global hf) hs.enclosing_global (by omega)]
  congr 2
  omega

/-- From every frame the way out leads to the global one. -/
theorem leads (hf : f < s.frames.size) : s.Leads f where
  first := hs.head?_chain f
  links := hs.isChain_chain hf
  older := hs.pairwise_chain hf
  last := hs.getLast?_chain hf
  ancestor d g := ancestor_eq_ok.trans hs.enclosed.getElem?_chain.symm
  beyond d hd := hs.ancestor_beyond hf hd
  get name := by
    cases hg : s.holder? f name.text with
    | none => exact .inr ⟨not_holds_of_holder?_eq_none hg, get_of_holder?_none hg⟩
    | some g =>
      obtain ⟨d, hd⟩ := hs.enclosed.holder?_eq_some.1 hg
      obtain ⟨v, hv⟩ := hd.holds.get?
      exact .inl ⟨d, g, v, hd, hv, get_of_holder? hg hv⟩
  assign name v := by
    cases hg : s.holder? f name.text with
    | none =>
      exact .inr
        ⟨not_holds_of_holder?_eq_none hg, by rw [Store.assign, assign?, hg, Option.map_none]⟩
    | some g =>
      obtain ⟨d, hd⟩ := hs.enclosed.holder?_eq_some.1 hg
      exact .inl ⟨d, g, hd, assign_eq_ok.2 ⟨g, hg, rfl⟩⟩

end Rooted

/-- Links and bindings stay where they are. -/
theorem Edit.grows (e : Edit) (s : Store) : s.Grows (e.apply s) := by
  cases e with
  | define f name v => exact .define s f name.text v
  | newFrame bindings enclosing => exact .newFrame s bindings enclosing
  | newIdentity => exact .newIdentity s
  | newInstance => exact .newInstance s
  | setField i name v => exact .setField s i name.text v

/-- A frame stays inside the frame that it was made in. -/
theorem Rooted.enclosing_eq {s' : Store} (hs : s.Rooted) (hs' : s'.Rooted) (hg : s.Grows s')
    (hf : f < s.frames.size) : (s'.frame f).enclosing = (s.frame f).enclosing := by
  cases hlink : (s.frame f).enclosing with
  | some g => exact hg.enclosing f g hlink
  | none =>
    have haround := hs.around f hf
    rw [hlink] at haround
    exact haround ▸ hs'.enclosing_global

end Store

/-! ### Values -/

/-- A value has functions and methods in it: a function itself, and a class or an instance the
    methods of the class and of the classes above it. -/
def Value.Carries (v : Value) (closure : Closure) : Prop :=
  (∃ identity, v = .callable (.function identity closure)) ∨
    ∃ c, v.class? = some c ∧ ∃ d ∈ c.lineage, ∃ name, d.methods.get? name = some closure

/-- The functions and methods of a value are in frames that were made, and its class was built. -/
structure Value.Placed (built : List Class) (s : Store) (v : Value) : Prop where
  closures : ∀ closure, v.Carries closure → closure.frame < s.frames.size
  kind : ∀ c, v.class? = some c → c ∈ built

namespace Value

variable {built built' : List Class} {s s' : Store} {v : Value}

theorem Placed.mono (h : v.Placed built s) (hb : built ⊆ built')
    (hs : s.frames.size ≤ s'.frames.size) :
    v.Placed built' s' :=
  ⟨fun closure hc => Nat.lt_of_lt_of_le (h.closures closure hc) hs, fun c hc => hb (h.kind c hc)⟩

theorem placed_of_class?_none (hc : v.class? = none)
    (hf : ∀ identity closure, v ≠ .callable (.function identity closure)) :
    v.Placed built s := by
  refine ⟨fun closure hclosure => ?_, fun c hc' => by cases hc.symm.trans hc'⟩
  rcases hclosure with ⟨identity, hv⟩ | ⟨c, hc', -⟩
  · exact absurd hv (hf identity closure)
  · cases hc.symm.trans hc'

theorem IsPlain.placed (h : v.IsPlain) : v.Placed built s := by
  cases v with
  | callable c => exact h.elim
  | «instance» i c => exact h.elim
  | _ => exact placed_of_class?_none rfl (by simp)

theorem placed_function {closure : Closure} (hf : closure.frame < s.frames.size) (identity : Nat) :
    (Value.callable (.function identity closure)).Placed built s := by
  refine ⟨fun closure' hclosure => ?_, fun c hc => by cases hc⟩
  rcases hclosure with ⟨identity', hv⟩ | ⟨c, hc, -⟩
  · cases hv
    exact hf
  · cases hc

/-- The methods of a class that was built are in frames that were made. -/
theorem placed_of_built {T : Table} (hσ : Scene.Valid ⟨T, built, s⟩) {c : Class} (hc : c ∈ built)
    (hv : v.class? = some c) : v.Placed built s := by
  refine ⟨fun closure hclosure => ?_, fun c' hc' => ?_⟩
  · rcases hclosure with ⟨identity, rfl⟩ | ⟨c', hc', d, hd, name, hm⟩
    · cases hv
    · cases hv.symm.trans hc'
      exact ((hσ.classes d (hσ.lineage hc hd)).methods name closure hm).frame
  · cases hv.symm.trans hc'
    exact hc

theorem lasting_placed (built : List Class) : Store.Lasting (Placed built) Store.Around where
  later s e v h := h.mono (List.Subset.refl _) (e.grows s).size
  plain s v h := h.placed
  bound s bindings method identity := by
    refine placed_function ?_ identity
    rw [Store.size_newFrame]
    exact Nat.lt_succ_self _
  function s identity closure h := h.closures closure (.inl ⟨identity, rfl⟩)
  method s v c name method h hc hm := by
    obtain ⟨owner, howner, hown⟩ := Class.exists_owner hm
    exact h.closures method (.inr ⟨c, hc, owner, howner, name, hown⟩)

end Value

/-! ### Sessions -/

namespace Session

/-- What a session works on, between two sources or while the given machine runs one. -/
def current (s : Session) : Option Machine → State
  | none => s.state
  | some m => m.state

/-- `P` holds of all values in a session, and `L` of each frame and the frame around it. -/
def All (P : Store → Value → Prop) (L : Nat → Option Nat → Prop) (s : Session) :
    Option Machine → Prop
  | none => s.state.store.All P L []
  | some m => m.All P L

/-- What can come next in a session: a source is accepted or rejected, the machine makes a step, or
    the run is over or is stopped. -/
inductive Next : Session × Option Machine → Session × Option Machine → Prop
  | run {s s' : Session} {m : Machine} {source : List UInt8} : s.load source = (.ok m, s') →
      Next (s, none) (s', some m)
  | reject {s s' : Session} {errors : List Diagnostic} {source : List UInt8} :
      s.load source = (.error errors, s') →
      Next (s, none) (s', none)
  | evaluate {s s' : Session} {m : Machine} {source : List UInt8} :
      s.loadExpr source = (.ok m, s') →
      Next (s, none) (s', some m)
  | rejectExpr {s s' : Session} {errors : List Diagnostic} {source : List UInt8} :
      s.loadExpr source = (.error errors, s') → Next (s, none) (s', none)
  | step {s : Session} {m : Machine} : Next (s, some m) (s, some (m.step s.config))
  | stop {s : Session} {m : Machine} : Next (s, some m) ({ s with state := m.state }, none)

variable {s : Session} {m : Option Machine} {built : List Class}

/-- What a step makes anew is placed. -/
theorem supplies_placed {m : Machine} (h : s.History (some m) built) :
    m.Supplies (Value.Placed (built ++ m.builds s.config)) Store.Around s.config := by
  have hseated : m.Seated s.table built := h.seated
  have hseated' : (m.step s.config).Seated s.table (built ++ m.builds s.config) := h.step.seated
  refine ⟨hseated.frame, ?_, fun identity decl => Value.placed_function hseated.frame identity,
    fun c hc => ?_, fun c hc => ?_⟩
  · rintro f time arguments v ⟨⟩
    exact Value.IsPlain.placed trivial
  · exact Value.placed_of_built hseated'.valid (List.mem_append_right _ hc) rfl
  · obtain ⟨line, arguments, stack, hcalls, -⟩ := Machine.calls_of_mem_makes hc
    have hplaced : (Value.instance m.state.store.fields.size c).Placed built m.state.store :=
      Value.placed_of_built hseated.valid (hcalls.built hseated) rfl
    exact hplaced.mono (List.subset_append_left _ _) (Nat.le_refl _)

/-- In every session that comes about, all values are placed, and frames are inside older ones. -/
theorem History.placed (h : s.History m built) : s.All (Value.Placed built) Store.Around m := by
  induction h with
  | new sink clock maxDepth =>
    refine ⟨fun f x v hv => ?_, (fun i x v hv => by cases hv), fun f hf => ?_,
      List.forall_mem_nil _⟩
    · obtain rfl := get?_new hv
      exact Value.placed_of_class?_none rfl (by simp)
    · have hsize : f < (Store.empty.newIdentity.2.define globalFrame "clock"
          (.callable (.native (.clock 0)))).frames.size :=
        hf
      rw [Store.size_define] at hsize
      obtain rfl : f = globalFrame := Nat.lt_one_iff.1 hsize
      rfl
  | run _ hl ih =>
    obtain ⟨program, cursor, distances, -, -, rfl, rfl⟩ := load_eq_ok hl
    exact ⟨ih, trivial⟩
  | reject _ hl ih =>
    obtain ⟨n, -, rfl⟩ := load_eq_error hl
    exact ih
  | evaluate _ hl ih =>
    obtain ⟨e, cursor, distances, -, -, rfl, rfl⟩ := loadExpr_eq_ok hl
    exact ⟨ih, trivial⟩
  | rejectExpr _ hl ih =>
    obtain ⟨n, -, rfl⟩ := loadExpr_eq_error hl
    exact ih
  | @step s built m h ih =>
    have hlater : m.All (Value.Placed (built ++ m.builds s.config)) Store.Around :=
      Machine.All.imp ih fun v hv => hv.mono (List.subset_append_left _ _) (Nat.le_refl _)
    exact hlater.step (Value.lasting_placed _) (supplies_placed h)
  | stop _ ih => exact ⟨ih.store.bindings, ih.store.fields, ih.store.links, List.forall_mem_nil _⟩

theorem History.frame_lt (h : s.History m built) :
    (s.current m).frame < (s.current m).store.frames.size := by
  cases m with
  | none => exact h.sound.1.frame
  | some m => exact (h.sound.2 m rfl).frame

theorem History.rooted (h : s.History m built) : (s.current m).store.Rooted := by
  refine ⟨Nat.lt_of_le_of_lt (Nat.zero_le _) h.frame_lt, ?_⟩
  have hplaced := h.placed
  cases m with
  | none => exact hplaced.links
  | some m => exact hplaced.store.links

/-! ### What comes later -/

variable {p q : Session × Option Machine}

theorem History.next (h : p.1.History p.2 built) (hn : Next p q) : ∃ built',
    q.1.History q.2 built' := by
  cases hn with
  | run hl => exact ⟨built, h.run hl⟩
  | reject hl => exact ⟨built, h.reject hl⟩
  | evaluate hl => exact ⟨built, h.evaluate hl⟩
  | rejectExpr hl => exact ⟨built, h.rejectExpr hl⟩
  | step => exact ⟨_, h.step⟩
  | stop => exact ⟨built, h.stop⟩

/-- Frames and bindings are never taken away. -/
theorem Next.grows (hn : Next p q) : (p.1.current p.2).store.Grows (q.1.current q.2).store := by
  cases hn with
  | run hl =>
    obtain ⟨program, cursor, distances, -, -, rfl, rfl⟩ := load_eq_ok hl
    exact .refl _
  | reject hl =>
    obtain ⟨n, -, rfl⟩ := load_eq_error hl
    exact .refl _
  | evaluate hl =>
    obtain ⟨e, cursor, distances, -, -, rfl, rfl⟩ := loadExpr_eq_ok hl
    exact .refl _
  | rejectExpr hl =>
    obtain ⟨n, -, rfl⟩ := loadExpr_eq_error hl
    exact .refl _
  | @step s m =>
    exact (Machine.edited_step s.config m).lift (R := fun s' => m.state.store.Grows s') (.refl _)
      fun s' e _ hs => hs.trans (e.grows s')
  | stop => exact .refl _

theorem History.later (h : p.1.History p.2 built) (hn : Relation.ReflTransGen Next p q) :
    (∃ built', q.1.History q.2 built') ∧ (p.1.current p.2).store.Grows (q.1.current q.2).store := by
  induction hn with
  | refl => exact ⟨⟨built, h⟩, .refl _⟩
  | tail _ hn ih =>
    obtain ⟨⟨built', hhistory⟩, hgrows⟩ := ih
    exact ⟨hhistory.next hn, hgrows.trans hn.grows⟩

/-- The sessions that come about are those that a new session leads to. -/
theorem exists_history_iff : (∃ built, s.History m built) ↔
    ∃ sink clock maxDepth,
      Relation.ReflTransGen Next (Session.new sink clock maxDepth, none) (s, m) := by
  constructor
  · rintro ⟨built, h⟩
    have hnext : ∀ {p q : Session × Option Machine},
        (∃ sink clock maxDepth,
          Relation.ReflTransGen Next (Session.new sink clock maxDepth, none) p) → Next p q →
        ∃ sink clock maxDepth,
          Relation.ReflTransGen Next (Session.new sink clock maxDepth, none) q := by
      rintro p q ⟨sink, clock, maxDepth, hp⟩ hn
      exact ⟨sink, clock, maxDepth, hp.tail hn⟩
    induction h with
    | new sink clock maxDepth => exact ⟨sink, clock, maxDepth, .refl⟩
    | run _ hl ih => exact hnext ih (.run hl)
    | reject _ hl ih => exact hnext ih (.reject hl)
    | evaluate _ hl ih => exact hnext ih (.evaluate hl)
    | rejectExpr _ hl ih => exact hnext ih (.rejectExpr hl)
    | step _ ih => exact hnext ih .step
    | stop _ ih => exact hnext ih .stop
  · rintro ⟨sink, clock, maxDepth, hs⟩
    have hnew : (Session.new sink clock maxDepth).History none [] := .new sink clock maxDepth
    exact (History.later (p := (Session.new sink clock maxDepth, none)) hnew hs).1

theorem next_steps (s : Session) (m : Machine) (fuel : Nat) :
    Relation.ReflTransGen Next (s, some m) (s, some (m.run s.config fuel)) := by
  induction fuel generalizing m with
  | zero => exact .refl
  | succ fuel ih =>
    rw [Machine.run_succ]
    exact .head .step (ih _)

/-- Whatever becomes of a source, the session goes through such moves. -/
theorem next_run (s : Session) (fuel : Nat) (source : List UInt8) :
    Relation.ReflTransGen Next (s, none) ((s.run fuel source).2, none) := by
  rw [Session.run]
  rcases hl : s.load source with ⟨errors | m, s'⟩
  · exact .single (.reject hl)
  · exact (Relation.ReflTransGen.head (.run hl) (next_steps s' m fuel)).tail .stop

theorem next_evaluate (s : Session) (fuel : Nat) (source : List UInt8) :
    Relation.ReflTransGen Next (s, none) ((s.evaluate fuel source).2, none) := by
  rw [Session.evaluate]
  rcases hl : s.loadExpr source with ⟨errors | m, s'⟩
  · exact .single (.rejectExpr hl)
  · exact (Relation.ReflTransGen.head (.evaluate hl) (next_steps s' m fuel)).tail .stop

end Session

/-! ### Classes -/

theorem Class.exists_lineage_eq (c : Class) : ∃ above, c.lineage = c :: above := by
  cases hc : c.superclass with
  | none => exact ⟨[], lineage_of_none hc⟩
  | some d => exact ⟨d.lineage, lineage_of_superclass hc⟩

/-- The search for a method goes through the class and the classes above it. -/
theorem Class.findMethod_eq_findSome? (c : Class) (name : String) :
    c.findMethod name = c.lineage.findSome? fun d => d.methods.get? name := by
  induction c using Class.induction with
  | base c hc =>
    rw [lineage_of_none hc, List.findSome?_singleton]
    cases hown : c.methods.get? name with
    | none => exact findMethod_of_base hown hc
    | some method => exact findMethod_of_own hown
  | derived c d hc ih =>
    rw [lineage_of_superclass hc, List.findSome?_cons]
    cases hown : c.methods.get? name with
    | none => exact (findMethod_of_derived hown hc).trans ih
    | some method => exact findMethod_of_own hown

namespace Machine

variable {cfg : Config} {m : Machine} {built : List Class} {c d : Class}

theorem nextIdentity_step (cfg : Config) (m : Machine) :
    m.state.store.nextIdentity ≤ (m.step cfg).state.store.nextIdentity := by
  refine (edited_step cfg m).lift (R := fun s => m.state.store.nextIdentity ≤ s.nextIdentity)
    (Nat.le_refl _)
    fun s e _ hs => ?_
  cases e with
  | newIdentity => exact Nat.le_succ_of_le hs
  | _ => exact hs

/-- A class that is built gets the next identity. -/
theorem Declares.identity (h : m.Declares cfg c) :
    c.identity = m.state.store.nextIdentity ∧
    c.identity < (m.step cfg).state.store.nextIdentity := by
  obtain ⟨name, ref, decls, stack, st, rfl, hsuper, hc⟩ := h
  have hidentity : c.identity = st.store.nextIdentity := by
    rw [hc]
    cases c.superclass <;> rfl
  refine ⟨hidentity, ?_⟩
  rw [hidentity, step, exec, hsuper]
  cases c.superclass <;> exact Nat.lt_succ_self _

/-- The superclass of a class that is built is there already. -/
theorem Declares.superclass_mem (hm : m.All (Value.Placed built) Store.Around)
    (h : m.Declares cfg c) (hd : c.superclass = some d) : d ∈ built := by
  obtain ⟨name, ref, decls, stack, st, rfl, hsuper, -⟩ := h
  cases ref with
  | none =>
    rw [hd] at hsuper
    cases hsuper
  | some ref =>
    obtain ⟨c', hc', hv⟩ := superclassOf_eq_ok hsuper
    cases hd.symm.trans hc'
    have hdeclared : (st.define name.text .nil).store.All (Value.Placed built) Store.Around stack :=
      hm.store.edit (Value.lasting_placed built) (.define st.frame name .nil)
        (Value.IsPlain.placed trivial)
    exact (hdeclared.lookUp hv).kind d rfl

end Machine

namespace Session

variable {s : Session} {m : Option Machine} {built : List Class} {c d : Class}

/-- Identities are given out in the order in which classes are built. -/
theorem History.identities (h : s.History m built) :
    built.Pairwise (fun c d => c.identity < d.identity) ∧
      ∀ c ∈ built, c.identity < (s.current m).store.nextIdentity := by
  induction h with
  | new sink clock maxDepth => exact ⟨.nil, List.forall_mem_nil _⟩
  | run _ hl ih =>
    obtain ⟨program, cursor, distances, -, -, rfl, rfl⟩ := load_eq_ok hl
    exact ih
  | reject _ hl ih =>
    obtain ⟨n, -, rfl⟩ := load_eq_error hl
    exact ih
  | evaluate _ hl ih =>
    obtain ⟨e, cursor, distances, -, -, rfl, rfl⟩ := loadExpr_eq_ok hl
    exact ih
  | rejectExpr _ hl ih =>
    obtain ⟨n, -, rfl⟩ := loadExpr_eq_error hl
    exact ih
  | @step s built m _ ih =>
    obtain ⟨hsorted, hlt⟩ := ih
    have hbuilds : ∀ c ∈ m.builds s.config, m.builds s.config = [c] ∧
        m.Declares s.config c := fun c hc =>
      Machine.declares_of_mem_builds hc
    refine ⟨List.pairwise_append.2 ⟨hsorted, ?_, fun c hc d hd => ?_⟩, fun c hc => ?_⟩
    · cases hb : m.builds s.config with
      | nil => exact .nil
      | cons c rest =>
        have hsingle := (hbuilds c (hb ▸ List.mem_cons_self ..)).1
        rw [← hb, hsingle]
        exact List.pairwise_singleton _ _
    · exact (hlt c hc).trans_eq (hbuilds d hd).2.identity.1.symm
    · rcases List.mem_append.1 hc with hc | hc
      · exact Nat.lt_of_lt_of_le (hlt c hc) (m.nextIdentity_step s.config)
      · exact (hbuilds c hc).2.identity.2
  | stop _ ih => exact ih

/-- The superclass of a class was built before it. -/
theorem History.superclass_before (h : s.History m built) (hc : c ∈ built)
    (hd : c.superclass = some d) : ∃ before after, built = before ++ c :: after ∧ d ∈ before := by
  obtain ⟨s₀, m₀, before, hbefore, ⟨after, hafter⟩, hdeclares⟩ := h.declared c hc
  refine ⟨before, after, ?_, hdeclares.superclass_mem hbefore.placed hd⟩
  rw [← hafter, List.append_assoc, List.singleton_append]

theorem History.superclass_older (h : s.History m built) (hc : c ∈ built)
    (hd : c.superclass = some d) : d ∈ built ∧ d.identity < c.identity := by
  obtain ⟨before, after, rfl, hmem⟩ := h.superclass_before hc hd
  have hsorted := (List.pairwise_append.1 h.identities.1).2.2
  exact ⟨List.mem_append_left _ hmem, hsorted d hmem c (List.mem_cons_self ..)⟩

/-- The classes above a class were built, each before the one below it. -/
theorem History.lineage (h : s.History m built) (hc : c ∈ built) :
    c.lineage ⊆ built ∧ c.lineage.Pairwise fun c d => d.identity < c.identity := by
  induction c using Class.induction with
  | base c hnone =>
    rw [Class.lineage_of_none hnone]
    exact ⟨List.cons_subset.2 ⟨hc, List.nil_subset _⟩, List.pairwise_singleton _ _⟩
  | derived c d hd ih =>
    obtain ⟨hmem, hlt⟩ := h.superclass_older hc hd
    obtain ⟨hsubset, hsorted⟩ := ih hmem
    rw [Class.lineage_of_superclass hd]
    refine ⟨List.cons_subset.2 ⟨hc, hsubset⟩, List.pairwise_cons.2 ⟨fun e he => ?_, hsorted⟩⟩
    -- The superclass comes first, and all others are older than it.
    obtain ⟨above, habove⟩ := d.exists_lineage_eq
    rw [habove] at he hsorted
    rcases List.mem_cons.1 he with rfl | he
    · exact hlt
    · exact ((List.pairwise_cons.1 hsorted).1 e he).trans hlt

/-- The frames and classes of a session are in order of time. A session that comes about is one that
    a new session leads to by accepting and rejecting sources, by single steps of their runs, and by
    the end of a run or a stop before it. In each of them there is one global frame, every other
    frame is inside an older one, and the current frame is one of them, as are the frames of all
    functions and methods that any value has in it. From each frame the way out leads over older
    frames to the global one, and searches and addressed accesses come to their ends on it
    (`Store.Leads`). Whatever comes later, a frame stays inside the same frame, and a name that it
    binds stays bound. Every class that any value has was built, and its superclass was built before
    it. So the search for a method goes over older and older classes. -/
theorem enclosing_superclass_older :
    (∀ {s : Session} {m : Option Machine}, (∃ built, s.History m built) ↔
      ∃ sink clock maxDepth,
        Relation.ReflTransGen Next (Session.new sink clock maxDepth, none) (s, m)) ∧
    (∀ (s : Session) (fuel : Nat) (source : List UInt8),
      Relation.ReflTransGen Next (s, none) ((s.run fuel source).2, none) ∧
      Relation.ReflTransGen Next (s, none) ((s.evaluate fuel source).2, none)) ∧
    ∀ {s : Session} {m : Option Machine} {built : List Class}, s.History m built →
      (s.current m).store.Rooted ∧
      (s.current m).frame < (s.current m).store.frames.size ∧
      s.All (Value.Placed built) Store.Around m ∧
      (∀ f < (s.current m).store.frames.size, (s.current m).store.Leads f) ∧
      (∀ {s' : Session} {m' : Option Machine}, Relation.ReflTransGen Next (s, m) (s', m') →
        ∀ f < (s.current m).store.frames.size,
          ((s'.current m').store.frame f).enclosing = ((s.current m).store.frame f).enclosing ∧
          ∀ x, (s.current m).store.Holds f x → (s'.current m').store.Holds f x) ∧
      (∀ c ∈ built, ∀ d, c.superclass = some d → ∃ before after,
        built = before ++ c :: after ∧ d ∈ before) ∧
      built.Pairwise (fun c d => c.identity < d.identity) ∧
      ∀ c ∈ built, c.lineage ⊆ built ∧ c.lineage.Pairwise (fun c d => d.identity < c.identity) ∧
        ∀ name, c.findMethod name = c.lineage.findSome? fun d => d.methods.get? name := by
  refine ⟨exists_history_iff,
    fun s fuel source => ⟨next_run s fuel source, next_evaluate s fuel source⟩,
    fun {s m built} h => ?_⟩
  refine ⟨h.rooted, h.frame_lt, h.placed, fun f hf => h.rooted.leads hf,
    fun {s' m'} hlater f hf => ?_,
    fun c hc d hd => h.superclass_before hc hd, h.identities.1, fun c hc => ?_⟩
  · obtain ⟨⟨built', hhistory⟩, hgrows⟩ := History.later (p := (s, m)) h hlater
    exact ⟨h.rooted.enclosing_eq hhistory.rooted hgrows hf, hgrows.contains f⟩
  · exact ⟨(h.lineage hc).1, (h.lineage hc).2, c.findMethod_eq_findSome?⟩

/-- A function that was made in a block, during the call of another function, is called by a later
    source. The frame of the block is still inside that of the call and still binds the function.
    The class `B`, which inherits from `A`, was built after it. -/
theorem enclosing_superclass_older_nested :
    ∃ (s s' : Session) (built : List Class), s.History none built ∧
      Relation.ReflTransGen Next (s, none) (s', none) ∧
      s.state.store.chain 3 = [3, 2, globalFrame] ∧ s.state.store.Leads 3 ∧
      s.state.store.frames.size < s'.state.store.frames.size ∧
      (s'.state.store.frame 3).enclosing = some 2 ∧ s'.state.store.Holds 3 "g" ∧
      ∃ c d before after, c.name = "B" ∧ d.name = "A" ∧ c.superclass = some d ∧
        built = before ++ c :: after ∧ d ∈ before := by
  obtain ⟨s, s', hs, hlater, hsize, hchain, hlink, hholds, hclass, hgrown⟩ : ∃ s s' : Session,
      Relation.ReflTransGen Next (Session.new .unlimited (.still 0) 16, none) (s, none) ∧
      Relation.ReflTransGen Next (s, none) (s', none) ∧ 3 < s.state.store.frames.size ∧
      s.state.store.chain 3 = [3, 2, globalFrame] ∧ (s.state.store.frame 3).enclosing = some 2 ∧
      s.state.store.Holds 3 "g" ∧
      (((s.state.store.frame globalFrame).bindings.get? "B").bind Value.class?).map
        (fun c => (c.name, c.superclass.map Class.name)) = some ("B", some "A") ∧
      s.state.store.frames.size < s'.state.store.frames.size := by
    refine ⟨_, _,
      (enclosing_superclass_older.2.1 _ 100 ("class A \x7b\x7d class B < A \x7b\x7d var h; " ++
      "fun f() \x7b \x7b fun g() \x7b return h; \x7d h = g; \x7d \x7d f();").toUTF8.toList).1,
      (enclosing_superclass_older.2.1 _ 100 "h()".toUTF8.toList).2, ?_⟩
    decide +kernel
  obtain ⟨built, hhistory⟩ := enclosing_superclass_older.1.2 ⟨_, _, _, hs⟩
  obtain ⟨-, -, hplaced, hleads, hstays, hbefore, -⟩ := enclosing_superclass_older.2.2 hhistory
  obtain ⟨c, hc, hnames⟩ := Option.map_eq_some_iff.1 hclass
  obtain ⟨v, hv, hvc⟩ := Option.bind_eq_some_iff.1 hc
  obtain ⟨hname, hsuper⟩ := Prod.mk.inj hnames
  obtain ⟨d, hd, hdname⟩ := Option.map_eq_some_iff.1 hsuper
  obtain ⟨before, after, hbuilt, hmem⟩ :=
    hbefore c ((hplaced.bindings globalFrame "B" v hv).kind c hvc) d hd
  obtain ⟨hkept, hnamed⟩ := hstays hlater 3 hsize
  exact ⟨s, s', built, hhistory, hlater, hchain, hleads 3 hsize, hgrown, hkept.trans hlink,
    hnamed "g" hholds, c, d, before, after, hname, hdname, hd, hbuilt, hmem⟩

end Session

end Lox
