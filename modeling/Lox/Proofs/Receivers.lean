import Mathlib
import Lox.Proofs.Histories
import Lox.Proofs.StaticRules

/-!
# Receivers

A method is bound to an instance by a frame that binds `this`, made right inside the frame in which
the methods of its class were made. The code of the method runs inside that frame, and so do the
functions in it. So the frames around code stand for the constructs around it, and as many frames
lie between code and the nearest frame that binds `this` as scopes lie between the code and the
nearest class (`Scene.Receives`).

What is said here about code, values and stores is said at a moment of a session (`Scene`): some
distances are settled, some classes were built, and there is a store. It stays true at later moments
(`Scene.Before`), since frames keep their places and their bindings of `this` and `super`
(`Store.Retains`).

* `Store.Receiver`: the nearest frame that binds `this`;
* `Class.Holds`: the expressions in the methods of a class;
* `Scene.Hosts`: code that is in its place, with the parts of code (`Stmt.Seated`);
* `Scene.Valid`: all values of a store, and all classes that were built, have their code in its
  place.
-/

namespace Lox

/-! ### Paths of regular programs -/

/-- The names that a construct has declared. -/
def Layer.names : Layer → List String
  | block names => names
  | function _ names => names
  | .class _ => []

namespace Path

variable {path : Path} {layer : Layer} {x y : String}

/-- No variable on the path is called `this` or `super`: only classes bind these. -/
def Plain (path : Path) : Prop := ∀ layer ∈ path, "this" ∉ layer.names ∧ "super" ∉ layer.names

theorem distance?_cons (ho : Open (layer :: path)) (hx : x ∉ layer.names) :
    distance? (layer :: path) x = (path.distance? x).map (· + 1) := by
  cases layer with
  | «class» b => exact ho.elim
  | _ => simpa [distance?, scopes, Layer.scopes, Layer.names, List.findIdx?_cons] using hx

theorem inClass_cons (ho : Open (layer :: path)) : inClass (layer :: path) = path.inClass := by
  cases layer with
  | «class» b => exact ho.elim
  | _ => rfl

theorem distance?_this_class (b : Bool) (path : Path) :
    distance? (.class b :: path) "this" = some 0 := by
  cases b <;> rfl

theorem distance?_super_class (path : Path) :
    distance? (.class true :: path) "super" = some 1 := rfl

/-- Where there is a class around, `this` is bound. -/
theorem Plain.distance?_this (h : path.Plain) (hc : path.inClass ≠ .none) :
    ∃ k, path.distance? "this" = some k := by
  induction path with
  | nil => exact absurd rfl hc
  | cons layer path ih =>
    obtain ⟨hlayer, hpath⟩ := List.forall_mem_cons.1 h
    cases layer with
    | «class» b => exact ⟨0, distance?_this_class b path⟩
    | _ =>
      obtain ⟨k, hk⟩ := ih hpath hc
      refine ⟨k + 1, (distance?_cons ?_ hlayer.1).trans (by rw [hk]; rfl)⟩
      trivial

/-- Where the nearest class has a superclass, `super` is bound right around `this`. -/
theorem Plain.distance?_super (h : path.Plain) (hc : path.inClass = .derived) :
    ∃ k, path.distance? "this" = some k ∧ path.distance? "super" = some (k + 1) := by
  induction path with
  | nil => cases hc
  | cons layer path ih =>
    obtain ⟨hlayer, hpath⟩ := List.forall_mem_cons.1 h
    cases layer with
    | «class» b =>
      cases b with
      | false => cases hc
      | true => exact ⟨0, distance?_this_class true path, distance?_super_class path⟩
    | _ =>
      obtain ⟨k, hthis, hsuper⟩ := ih hpath hc
      refine ⟨k + 1, (distance?_cons ?_ hlayer.1).trans (by rw [hthis]; rfl),
        (distance?_cons ?_ hlayer.2).trans (by rw [hsuper]; rfl)⟩ <;> trivial

theorem distance?_declare (path : Path) (h : y ≠ x) :
    (path.declare x).distance? y = path.distance? y := by
  rcases path with _ | ⟨names | ⟨kind, names⟩ | b, path⟩
  · rfl
  · simp [declare, distance?, scopes, Layer.scopes, List.findIdx?_cons, h]
  · simp [declare, distance?, scopes, Layer.scopes, List.findIdx?_cons, h]
  · rfl

theorem Plain.declare (h : path.Plain) {name : Lexeme} (hn : name.IsName) :
    (path.declare name.text).Plain := by
  have hthis := hn.ne_this.symm
  have hsuper := hn.ne_super.symm
  rcases path with _ | ⟨names | ⟨kind, names⟩ | b, path⟩
  · exact h
  · obtain ⟨hlayer, hpath⟩ := List.forall_mem_cons.1 h
    exact List.forall_mem_cons.2 ⟨by simpa [Layer.names, hthis, hsuper] using hlayer, hpath⟩
  · obtain ⟨hlayer, hpath⟩ := List.forall_mem_cons.1 h
    exact List.forall_mem_cons.2 ⟨by simpa [Layer.names, hthis, hsuper] using hlayer, hpath⟩
  · exact h

/-- A construct whose names are names of variables. -/
theorem Plain.cons (h : path.Plain)
    (hl : ∀ x ∈ layer.names, ∃ name : Lexeme, name.IsName ∧ name.text = x) :
    Plain (layer :: path) := by
  refine List.forall_mem_cons.2 ⟨⟨fun hx => ?_, fun hx => ?_⟩, h⟩
  · obtain ⟨name, hn, ht⟩ := hl _ hx
    exact hn.ne_this ht
  · obtain ⟨name, hn, ht⟩ := hl _ hx
    exact hn.ne_super ht

end Path

/-! ### Programs that are accepted -/

variable {nodes : List (Path × Node)}

/-- Two nodes do not have one identity, if no identity comes twice. -/
theorem Node.eq_of_referring (hn : (Node.referring nodes).Nodup) {n n' : Path × Node}
    (hm : n ∈ nodes) (hm' : n' ∈ nodes) {id : Nat} {x x' : String}
    (hr : n.2.reference? = some (id, x)) (hr' : n'.2.reference? = some (id, x')) : n = n' := by
  have hpairs := List.pairwise_filterMap.1 hn
  have : Std.Symm fun n n' : Path × Node => ∀ i, n.2.reference?.map Prod.fst = some i →
      ∀ i', n'.2.reference?.map Prod.fst = some i' → i ≠ i' :=
    ⟨fun _ _ h i hi i' hi' => (h i' hi' i hi).symm⟩
  by_contra hne
  exact hpairs.forall hm hm' hne id (by rw [hr]; rfl) id (by rw [hr']; rfl) rfl

/-- A program that is accepted keeps the rules, and its names have the distances of lexical
    scoping. -/
theorem Program.distances_of_resolve {p : Program} {distances : Distances}
    (hreg : Stmt.AllRegular p) (hids : (Stmt.idsAll p).Nodup) (h : p.resolve = .ok distances) :
    Legal p.nodes ∧ ∀ n ∈ p.nodes, ∀ id x, n.2.reference? = some (id, x) →
    distances[id]? = n.1.distance? x := by
  obtain ⟨he, rfl⟩ := Walk.result_eq_ok.1 h
  have hadds := Program.adds_start hreg
  have hn : (Node.referring p.nodes).Nodup := hids.sublist (Stmt.referringAll_sublist [] p)
  refine ⟨p.lawful_iff.1 (hadds.errors.1 he).2, fun n hm id x hr => Option.ext fun distance => ?_⟩
  -- Resolution begins with no distances, and adds one for each node that is bound.
  have hempty : ∀ id, Walk.start.distances[id]? = none := fun _ => Std.ExtTreeMap.getElem?_empty
  rw [hadds.distances he, Path.getElem?_foldl_record hn fun id _ => hempty id, hempty,
    Path.distance?_eq_some]
  constructor
  · rintro (hd | ⟨path, node, x', hm', hr', hb⟩)
    · cases hd
    · -- The distance was added for a node with this identity, which is the node itself.
      cases Node.eq_of_referring hn hm hm' hr hr'
      cases hr.symm.trans hr'
      exact hb
  · exact fun hb => .inr ⟨n.1, n.2, x, hm, hr, hb⟩

/-! ### Frames that bind `this` -/

namespace Store

variable {s s' s'' : Store}

/-- A later store: frames keep their places, and what they bind `this` and `super` to. -/
structure Retains (s s' : Store) : Prop where
  size : s.frames.size ≤ s'.frames.size
  enclosing : ∀ f < s.frames.size, (s'.frame f).enclosing = (s.frame f).enclosing
  this : ∀ f < s.frames.size, (s'.frame f).bindings.get? "this" = (s.frame f).bindings.get? "this"
  super : ∀ f < s.frames.size,
      (s'.frame f).bindings.get? "super" = (s.frame f).bindings.get? "super"

namespace Retains

theorem of_frames (h : s'.frames = s.frames) : s.Retains s' := by
  have hframe : ∀ f, s'.frame f = s.frame f := fun f => by rw [frame, frame, h]
  exact ⟨by rw [h], fun f _ => by rw [hframe], fun f _ => by rw [hframe], fun f _ => by rw [hframe]⟩

theorem refl (s : Store) : s.Retains s := of_frames rfl

theorem trans (h : s.Retains s') (h' : s'.Retains s'') : s.Retains s'' where
  size := Nat.le_trans h.size h'.size
  enclosing f hf := (h'.enclosing f (Nat.lt_of_lt_of_le hf h.size)).trans (h.enclosing f hf)
  this f hf := (h'.this f (Nat.lt_of_lt_of_le hf h.size)).trans (h.this f hf)
  super f hf := (h'.super f (Nat.lt_of_lt_of_le hf h.size)).trans (h.super f hf)

/-- A variable is bound, and so neither `this` nor `super`. -/
theorem define (s : Store) (f : Nat) {name : Lexeme} (hn : name.IsName) (v : Value) :
    s.Retains (s.define f name.text v) := by
  refine ⟨Nat.le_of_eq (size_define s f name.text v).symm, fun g _ => ?_, fun g _ => ?_,
    fun g _ => ?_⟩
  · exact enclosing_define s f name.text v g
  · rw [get?_define, if_neg fun h => hn.ne_this h.2.symm]
  · rw [get?_define, if_neg fun h => hn.ne_super h.2.symm]

theorem newFrame (s : Store) (bindings : Bindings Value) (enclosing : Nat) :
    s.Retains (s.newFrame bindings enclosing).2 := by
  have hold : ∀ f < s.frames.size, (s.newFrame bindings enclosing).2.frame f = s.frame f :=
    fun f hf => by
    rw [frame_newFrame, if_neg (Nat.ne_of_lt hf)]
  exact ⟨by simp, fun f hf => by rw [hold f hf], fun f hf => by rw [hold f hf],
    fun f hf => by rw [hold f hf]⟩

theorem newIdentity (s : Store) : s.Retains s.newIdentity.2 := of_frames rfl

theorem newInstance (s : Store) : s.Retains s.newInstance.2 := of_frames rfl

theorem setField (s : Store) (i : Nat) (name : String) (v : Value) :
    s.Retains (s.setField i name v) := of_frames rfl

end Retains

theorem getAt_of_ancestor {f g distance : Nat} {x : String} {v : Value}
    (hg : s.ancestor f distance = .ok g) (hv : (s.frame g).bindings.get? x = some v) :
    s.getAt f distance x = .ok v := by
  simp only [getAt, hg, hv]

theorem lt_size_of_get? {f : Nat} {x : String} {v : Value}
    (h : (s.frame f).bindings.get? x = some v) : f < s.frames.size := by
  by_contra hf
  simp [frame, Array.getD, hf] at h

/-- The frame `g` binds `this`, and none of the `k` frames from `f` up to it does. -/
inductive Receiver (s : Store) : Nat → Nat → Nat → Prop
  | here {f : Nat} {v : Value} : (s.frame f).bindings.get? "this" = some v → Receiver s 0 f f
  | out {k f outer g : Nat} : (s.frame f).bindings.get? "this" = none →
      (s.frame f).enclosing = some outer →
      outer < f → Receiver s k outer g → Receiver s (k + 1) f g

namespace Receiver

variable {k f g : Nat}

theorem mono (h : s.Receiver k f g) (hs : s.Retains s') : s'.Receiver k f g := by
  induction h with
  | here hv => exact .here ((hs.this _ (lt_size_of_get? hv)).trans hv)
  | out hnone houter hlt _ ih =>
    have hf := lt_size_of_enclosing houter
    exact .out ((hs.this _ hf).trans hnone) ((hs.enclosing _ hf).trans houter) hlt ih

/-- It is found at its distance. -/
theorem ancestor (h : s.Receiver k f g) : s.ancestor f k = .ok g := by
  have hwalk : ∀ distance, s.walkOut distance k f = .ok g := by
    intro distance
    induction h with
    | here => rfl
    | out _ houter _ _ ih =>
      rw [walkOut, houter]
      exact ih
  exact hwalk k

/-- The frame around it is one further out. -/
theorem ancestor_succ (h : s.Receiver k f g) {outer : Nat}
    (ho : (s.frame g).enclosing = some outer) : s.ancestor f (k + 1) = .ok outer := by
  have hwalk : ∀ distance, s.walkOut distance (k + 1) f = .ok outer := by
    intro distance
    induction h with
    | here =>
      rw [walkOut, ho]
      rfl
    | out _ houter _ _ ih =>
      rw [walkOut, houter]
      exact ih ho
  exact hwalk (k + 1)

/-- It is the frame that a search for `this` finds. -/
theorem holder? (h : s.Receiver k f g) : s.holder? f "this" = some g := by
  -- A search goes out for as many frames as the number of its first frame says. This is far enough,
  -- since the numbers of the frames on its way get smaller.
  have hsearch : ∀ fuel, f ≤ fuel →
      (s.chainUpTo fuel f).find? (fun g => (s.frame g).bindings.contains "this") = some g := by
    induction h with
    | @here f v hv =>
      intro fuel _
      have hfind : ∀ rest : List Nat,
          (f :: rest).find? (fun g => (s.frame g).bindings.contains "this") = some f :=
        fun rest => by
        simp [Bindings.contains, hv]
      rcases fuel with _ | fuel
      · exact hfind []
      · rw [chainUpTo]
        split
        · exact hfind []
        · exact hfind _
    | @out k f outer g hnone houter hlt _ ih =>
      intro fuel hle
      rcases fuel with _ | fuel
      · omega
      · have hrest := ih fuel (by omega)
        rw [chainUpTo, houter]
        simpa [Bindings.contains, hnone] using hrest
  exact hsearch f (Nat.le_refl f)

/-- A new frame inside another one. -/
theorem inner (h : s.Receiver k f g) (hf : f < s.frames.size) {bindings : Bindings Value}
    (hb : bindings.get? "this" = none) :
    (s.newFrame bindings f).2.Receiver (k + 1) s.frames.size g := by
  have hnew : (s.newFrame bindings f).2.frame s.frames.size = ⟨bindings, some f⟩ := by
    rw [frame_newFrame, if_pos rfl]
  exact .out (by rw [hnew]; exact hb) (by rw [hnew]) hf (h.mono (.newFrame s bindings f))

end Receiver

end Store

/-! ### Code in its place -/

/-- The expression `id` is in a method of the class that was made in the frame `f`. -/
def Class.Holds (c : Class) (f id : Nat) : Prop :=
  ∃ name method, c.methods.get? name = some method ∧ method.frame = f ∧
  id ∈ Stmt.idsDecl method.decl

/-- The frame `g` is made for methods of the class `c`, right inside the frame in which they were
    made, and the expression `id` is in one of them. -/
def Store.Inside (s : Store) (g id : Nat) (c : Class) : Prop :=
  ∃ f, (s.frame g).enclosing = some f ∧ c.Holds f id

/-- What there is at a moment of a session. -/
structure Scene where
  /-- The distances that are settled. -/
  table : Table
  /-- The classes that were built. -/
  built : List Class
  /-- The frames and fields. -/
  store : Store

/-- Nodes keep the rules, with their distances written down, and no identity comes twice. -/
structure Table.Admits (T : Table) (nodes : List (Path × Node)) (ids : List Nat) : Prop where
  legal : Legal nodes
  settled : ∀ n ∈ nodes, ∀ id x, n.2.reference? = some (id, x) →
    id < T.bound ∧ T.distances[id]? = n.1.distance? x
  nodup : ids.Nodup
  bound : ∀ id ∈ ids, id < T.bound

theorem Table.Admits.part {T : Table} {nodes' : List (Path × Node)} {ids ids' : List Nat}
    (h : T.Admits nodes ids) (hn : nodes' ⊆ nodes) (hi : ids'.Sublist ids) :
    T.Admits nodes' ids' where
  legal n hm := h.legal n (hn hm)
  settled n hm := h.settled n (hn hm)
  nodup := h.nodup.sublist hi
  bound id hid := h.bound id (hi.subset hid)

theorem Table.Admits.extend {T T' : Table} {ids : List Nat} (h : T.Admits nodes ids)
    (hT : T'.Extends T) : T'.Admits nodes ids where
  legal := h.legal
  settled n hm id x hr := by
    obtain ⟨hlt, hd⟩ := h.settled n hm id x hr
    exact ⟨Nat.lt_of_lt_of_le hlt hT.bound, (hT.distances id hlt).trans hd⟩
  nodup := h.nodup
  bound id hid := Nat.lt_of_lt_of_le (h.bound id hid) hT.bound

namespace Scene

variable {σ σ' σ'' : Scene} {f g : Nat} {path : Path} {nodes nodes' : List (Path × Node)}
    {ids ids' : List Nat}

/-- A later moment. -/
structure Before (σ σ' : Scene) : Prop where
  table : σ'.table.Extends σ.table
  built : σ.built ⊆ σ'.built
  store : σ.store.Retains σ'.store

theorem before_of_retains (σ : Scene) {s : Store} (h : σ.store.Retains s) :
    σ.Before { σ with store := s } :=
  ⟨.refl _, List.Subset.refl _, h⟩

theorem before_build (σ : Scene) (c : Class) : σ.Before { σ with built := σ.built ++ [c] } :=
  ⟨.refl _, List.subset_append_left _ _, .refl _⟩

/-- The frame `g` binds a method of the class `c` to an instance whose class inherits from `c`. The
    method holds the given expressions, on a path with the given class around. -/
structure Seat (σ : Scene) (path : Path) (ids : List Nat) (g : Nat) (c : Class) : Prop where
  built : c ∈ σ.built
  object : ∃ i of, (σ.store.frame g).bindings.get? "this" = some (.instance i of) ∧ c ∈ of.lineage
  derived : path.inClass = .derived → c.superclass.isSome
  inside : ∀ id ∈ ids, σ.store.Inside g id c

/-- If there is a class around a path, the frame `f` is as far inside a frame that binds `this` for
    such a class as the path is inside the class. -/
def Receives (σ : Scene) (f : Nat) (path : Path) (ids : List Nat) : Prop :=
  ∀ k, path.distance? "this" = some k → ∃ g c, σ.store.Receiver k f g ∧ σ.Seat path ids g c

/-- Code on a path has its place in the frame `f`. -/
structure Hosts (σ : Scene) (f : Nat) (path : Path) (nodes : List (Path × Node))
    (ids : List Nat) : Prop where
  admits : σ.table.Admits nodes ids
  plain : path.Plain
  frame : f < σ.store.frames.size
  receives : σ.Receives f path ids

theorem Seat.later {c : Class} (h : σ.Seat path ids g c) (hσ : σ.Before σ') :
    σ'.Seat path ids g c := by
  obtain ⟨i, of, hthis, hof⟩ := h.object
  have hg := Store.lt_size_of_get? hthis
  refine ⟨hσ.built h.built, ⟨i, of, (hσ.store.this g hg).trans hthis, hof⟩, h.derived,
    fun id hid => ?_⟩
  obtain ⟨outer, houter, hholds⟩ := h.inside id hid
  exact ⟨outer, (hσ.store.enclosing g hg).trans houter, hholds⟩

theorem Hosts.later (h : σ.Hosts f path nodes ids) (hσ : σ.Before σ') :
    σ'.Hosts f path nodes ids where
  admits := h.admits.extend hσ.table
  plain := h.plain
  frame := Nat.lt_of_lt_of_le h.frame hσ.store.size
  receives k hk := by
    obtain ⟨g, c, hg, hc⟩ := h.receives k hk
    exact ⟨g, c, hg.mono hσ.store, hc.later hσ⟩

theorem Hosts.part (h : σ.Hosts f path nodes ids) (hn : nodes' ⊆ nodes) (hi : ids'.Sublist ids) :
    σ.Hosts f path nodes' ids' where
  admits := h.admits.part hn hi
  plain := h.plain
  frame := h.frame
  receives k hk := by
    obtain ⟨g, c, hg, hc⟩ := h.receives k hk
    exact ⟨g, c, hg, { hc with inside := fun id hid => hc.inside id (hi.subset hid) }⟩

/-- A variable is declared. -/
theorem Hosts.declare (h : σ.Hosts f path nodes ids) {name : Lexeme} (hn : name.IsName) :
    σ.Hosts f (path.declare name.text) nodes ids where
  admits := h.admits
  plain := h.plain.declare hn
  frame := h.frame
  receives k hk := by
    rw [Path.distance?_declare path hn.ne_this.symm] at hk
    obtain ⟨g, c, hg, hc⟩ := h.receives k hk
    exact ⟨g, c, hg,
      { hc with derived := fun hd => hc.derived (by rwa [Path.inClass_declare] at hd) }⟩

/-- A new frame, for a block or for the body of a function. -/
theorem Hosts.inner (h : σ.Hosts f path nodes ids) (layer : Layer) (ho : Path.Open (layer :: path))
    (hl : ∀ x ∈ layer.names, ∃ name : Lexeme, name.IsName ∧ name.text = x)
    {bindings : Bindings Value} (hb : bindings.get? "this" = none) :
    Hosts { σ with store := (σ.store.newFrame bindings f).2 } σ.store.frames.size (layer :: path)
      nodes ids where
  admits := h.admits
  plain := h.plain.cons hl
  frame := Store.lt_size_newFrame _ _ _
  receives k hk := by
    have hthis : "this" ∉ layer.names := fun hx => by
      obtain ⟨name, hn, ht⟩ := hl _ hx
      exact hn.ne_this ht
    -- There is one more scope and one more frame on the way to `this`.
    rw [Path.distance?_cons ho hthis] at hk
    obtain ⟨j, hj, rfl⟩ := Option.map_eq_some_iff.1 hk
    obtain ⟨g, c, hg, hc⟩ := h.receives j hj
    have hc' := hc.later (σ.before_of_retains (.newFrame σ.store bindings f))
    refine ⟨g, c, hg.inner h.frame hb, { hc' with derived := fun hd => hc.derived ?_ }⟩
    rwa [Path.inClass_cons ho] at hd

/-- Outside all classes any frame will do. -/
theorem hosts_of_admits (ha : σ.table.Admits nodes ids) (hf : f < σ.store.frames.size) :
    σ.Hosts f [] nodes ids where
  admits := ha
  plain := List.forall_mem_nil _
  frame := hf
  receives k hk := by cases hk

end Scene

/-! ### Parts of code -/

/-- An expression has its place in a frame. -/
def Expr.Seated (σ : Scene) (f : Nat) (e : Expr) : Prop :=
  e.Regular ∧ ∃ path : Path, σ.Hosts f path (path.all e.nodes) e.ids

def Expr.AllSeated (σ : Scene) (f : Nat) (es : List Expr) : Prop :=
  Expr.AllRegular es ∧ ∃ path : Path, σ.Hosts f path (path.all (Expr.nodesAll es)) (Expr.idsAll es)

/-- A statement has its place in a frame. -/
def Stmt.Seated (σ : Scene) (f : Nat) (stmt : Stmt) : Prop :=
  stmt.Regular ∧ ∃ path, σ.Hosts f path (stmt.nodes path) stmt.ids

def Stmt.AllSeated (σ : Scene) (f : Nat) (stmts : List Stmt) : Prop :=
  Stmt.AllRegular stmts ∧ ∃ path, σ.Hosts f path (Stmt.nodesAll path stmts) (Stmt.idsAll stmts)

/-- The code of a function has its place in the frame that the function was made in. -/
def Closure.Seated (σ : Scene) (c : Closure) : Prop :=
  Stmt.DeclRegular c.decl ∧
    ∃ path kind, σ.Hosts c.frame path (Stmt.nodesDecl path kind c.decl) (Stmt.idsDecl c.decl)

/-- Functions are in their places, and classes are among those that were built. -/
def Value.Seated (σ : Scene) : Value → Prop
  | .callable (.function _ closure) => closure.Seated σ
  | .callable (.class c) => c ∈ σ.built
  | .instance _ c => c ∈ σ.built
  | _ => True

theorem Value.IsPlain.seated {v : Value} (h : v.IsPlain) {σ : Scene} : v.Seated σ := by
  cases v with
  | callable c => exact h.elim
  | «instance» i c => exact h.elim
  | _ => trivial

section

variable {σ σ' : Scene} (hσ : σ.Before σ') {f : Nat}
include hσ

theorem Expr.Seated.later {e : Expr} (h : e.Seated σ f) : e.Seated σ' f := by
  obtain ⟨hreg, path, hh⟩ := h
  exact ⟨hreg, path, hh.later hσ⟩

theorem Expr.AllSeated.later {es : List Expr} (h : Expr.AllSeated σ f es) :
    Expr.AllSeated σ' f es := by
  obtain ⟨hreg, path, hh⟩ := h
  exact ⟨hreg, path, hh.later hσ⟩

theorem Stmt.Seated.later {stmt : Stmt} (h : stmt.Seated σ f) : stmt.Seated σ' f := by
  obtain ⟨hreg, path, hh⟩ := h
  exact ⟨hreg, path, hh.later hσ⟩

theorem Stmt.AllSeated.later {stmts : List Stmt} (h : Stmt.AllSeated σ f stmts) :
    Stmt.AllSeated σ' f stmts := by
  obtain ⟨hreg, path, hh⟩ := h
  exact ⟨hreg, path, hh.later hσ⟩

theorem Closure.Seated.later {c : Closure} (h : c.Seated σ) : c.Seated σ' := by
  obtain ⟨hreg, path, kind, hh⟩ := h
  exact ⟨hreg, path, kind, hh.later hσ⟩

theorem Value.Seated.later {v : Value} (h : v.Seated σ) : v.Seated σ' := by
  unfold Value.Seated at h ⊢
  split
  · exact Closure.Seated.later hσ h
  · exact hσ.built h
  · exact hσ.built h
  · trivial

end

section

variable {σ : Scene} {f : Nat} {e : Expr} {stmt : Stmt}

theorem Expr.Seated.part {e' : Expr} (h : e.Seated σ f) (hreg : e'.Regular)
    (hn : e'.nodes ⊆ e.nodes) (hi : e'.ids.Sublist e.ids) : e'.Seated σ f := by
  obtain ⟨-, path, hh⟩ := h
  exact ⟨hreg, path, hh.part (List.map_subset _ hn) hi⟩

theorem Expr.Seated.parts {es : List Expr} (h : e.Seated σ f) (hreg : Expr.AllRegular es)
    (hn : Expr.nodesAll es ⊆ e.nodes) (hi : (Expr.idsAll es).Sublist e.ids) :
    Expr.AllSeated σ f es := by
  obtain ⟨-, path, hh⟩ := h
  exact ⟨hreg, path, hh.part (List.map_subset _ hn) hi⟩

/-- An expression that is made of two others. -/
theorem Expr.Seated.operands {left right : Expr} {id : Nat} (h : e.Seated σ f) (hl : left.Regular)
    (hr : right.Regular) (hn : e.nodes = left.nodes ++ right.nodes)
    (hi : e.ids = left.ids ++ right.ids ++ [id]) : left.Seated σ f ∧ right.Seated σ f := by
  have hids : (left.ids ++ right.ids).Sublist e.ids := hi ▸ List.sublist_append_left _ _
  exact ⟨h.part hl (hn ▸ List.subset_append_left _ _) ((List.sublist_append_left _ _).trans hids),
    h.part hr (hn ▸ List.subset_append_right _ _) ((List.sublist_append_right _ _).trans hids)⟩

theorem Expr.AllSeated.uncons {rest : List Expr} (h : Expr.AllSeated σ f (e :: rest)) :
    e.Seated σ f ∧ Expr.AllSeated σ f rest := by
  obtain ⟨hreg, path, hh⟩ := h
  exact ⟨⟨hreg.1, path, hh.part (List.map_subset _ (List.subset_append_left _ _))
    (List.sublist_append_left _ _)⟩,
    hreg.2, path, hh.part (List.map_subset _ (List.subset_append_right _ _))
      (List.sublist_append_right _ _)⟩

theorem Stmt.Seated.expr (h : stmt.Seated σ f) (hreg : e.Regular)
    (hn : ∀ path : Path, path.all e.nodes ⊆ stmt.nodes path) (hi : e.ids.Sublist stmt.ids) :
    e.Seated σ f := by
  obtain ⟨-, path, hh⟩ := h
  exact ⟨hreg, path, hh.part (hn path) hi⟩

theorem Stmt.Seated.part {stmt' : Stmt} (h : stmt.Seated σ f) (hreg : stmt'.Regular)
    (hn : ∀ path, stmt'.nodes path ⊆ stmt.nodes path) (hi : stmt'.ids.Sublist stmt.ids) :
    stmt'.Seated σ f := by
  obtain ⟨-, path, hh⟩ := h
  exact ⟨hreg, path, hh.part (hn path) hi⟩

/-- The name of a variable is declared before its initial value. -/
theorem Stmt.Seated.initial {name : Lexeme} (h : (Stmt.var name (some e)).Seated σ f) :
    e.Seated σ f := by
  obtain ⟨hreg, path, hh⟩ := h
  exact ⟨hreg.2 e rfl, _, (hh.declare hreg.1).part (List.subset_append_right _ _) (.refl _)⟩

/-- One statement after another. -/
theorem Stmt.AllSeated.uncons {rest : List Stmt} (h : Stmt.AllSeated σ f (stmt :: rest)) :
    stmt.Seated σ f ∧ Stmt.AllSeated σ f rest := by
  obtain ⟨hreg, path, hh⟩ := h
  have hafter : σ.Hosts f (stmt.pathAfter path) (Stmt.nodesAll path (stmt :: rest))
      (Stmt.idsAll (stmt :: rest)) := by
    rw [Stmt.pathAfter]
    split
    · exact hh
    · next name hd => exact hh.declare (Walk.isName_of_regular hreg.1 name hd)
  exact ⟨⟨hreg.1, path, hh.part (List.subset_append_left _ _) (List.sublist_append_left _ _)⟩,
    hreg.2, _, hafter.part (List.subset_append_right _ _) (List.sublist_append_right _ _)⟩

/-- The statements of a block have their place in a new frame. -/
theorem Stmt.Seated.body {body : List Stmt} (h : (Stmt.block body).Seated σ f) :
    Stmt.AllSeated { σ with store := (σ.store.newFrame ∅ f).2 } σ.store.frames.size body := by
  obtain ⟨hreg, path, hh⟩ := h
  have hinner := hh.inner (.block []) trivial (List.forall_mem_nil _) (Bindings.get?_empty "this")
  exact ⟨hreg, _, hinner.part (List.subset_cons_self _ _) (.refl _)⟩

/-- A function is made in the frame of its declaration. -/
theorem Stmt.Seated.closure {decl : FunctionDecl Stmt} (h : (Stmt.function decl).Seated σ f) :
    Closure.Seated σ ⟨decl, f, false⟩ := by
  obtain ⟨hreg, path, hh⟩ := h
  exact ⟨hreg.2, _, .function, hh.declare hreg.1⟩

/-- The statements of a function have their place in a new frame that binds its parameters. -/
theorem Closure.Seated.body {c : Closure} (h : c.Seated σ) {bindings : Bindings Value}
    (hb : bindings.get? "this" = none) :
    Stmt.AllSeated { σ with store := (σ.store.newFrame bindings c.frame).2 } σ.store.frames.size
      c.decl.body := by
  obtain ⟨⟨name, params, body⟩, frame, isInitializer⟩ := c
  obtain ⟨hreg, path, kind, hh⟩ := h
  have hparams : ∀ x ∈ params.map Lexeme.text, ∃ name : Lexeme, name.IsName ∧ name.text = x := by
    intro x hx
    obtain ⟨param, hp, rfl⟩ := List.mem_map.1 hx
    exact ⟨param, hreg.1 param hp, rfl⟩
  have hinner := hh.inner (.function kind (params.map Lexeme.text)) trivial hparams hb
  exact ⟨hreg.2, _, hinner.part (List.subset_cons_self _ _) (.refl _)⟩

end

/-! ### Classes and stores -/

/-- A method of a class has its code where `this` will be bound, inside the frame in which it was
    made. If the class has a superclass, this frame binds `super` to it. -/
structure Closure.MethodOf (σ : Scene) (c : Class) (method : Closure) : Prop where
  regular : Stmt.DeclRegular method.decl
  frame : method.frame < σ.store.frames.size
  code : ∃ (path : Path) (kind : FunctionScope), path.Plain ∧
    σ.table.Admits (Stmt.nodesDecl (.class c.superclass.isSome :: path) kind method.decl)
      (Stmt.idsDecl method.decl)
  super : ∀ d, c.superclass = some d →
    (σ.store.frame method.frame).bindings.get? "super" = some (.callable (.class d))

/-- A class that was built: so was its superclass, and its methods have their places. -/
structure Class.Founded (σ : Scene) (c : Class) : Prop where
  superclass : ∀ d, c.superclass = some d → d ∈ σ.built
  methods : ∀ name method, c.methods.get? name = some method → method.MethodOf σ c

section

variable {σ σ' : Scene} (hσ : σ.Before σ')
include hσ

theorem Closure.MethodOf.later {c : Class} {method : Closure} (h : method.MethodOf σ c) :
    method.MethodOf σ' c where
  regular := h.regular
  frame := Nat.lt_of_lt_of_le h.frame hσ.store.size
  code := by
    obtain ⟨path, kind, hp, ha⟩ := h.code
    exact ⟨path, kind, hp, ha.extend hσ.table⟩
  super d hd := (hσ.store.super _ h.frame).trans (h.super d hd)

theorem Class.Founded.later {c : Class} (h : c.Founded σ) : c.Founded σ' :=
  ⟨fun d hd => hσ.built (h.superclass d hd),
    fun name method hm => (h.methods name method hm).later hσ⟩

end

namespace Scene

variable {σ σ' : Scene}

/-- All values are in their places, and no expression is in the methods of two classes that were
    made in the same frame. -/
structure Valid (σ : Scene) : Prop where
  bindings : ∀ f name v, (σ.store.frame f).bindings.get? name = some v → v.Seated σ
  fields : ∀ i name v, σ.store.field? i name = some v → v.Seated σ
  classes : ∀ c ∈ σ.built, c.Founded σ
  distinct : ∀ c ∈ σ.built, ∀ d ∈ σ.built, ∀ f id, c.Holds f id → d.Holds f id → c = d

namespace Valid

/-- All classes above a class that was built were built. -/
theorem lineage (h : σ.Valid) {c d : Class} (hc : c ∈ σ.built) (hd : d ∈ c.lineage) :
    d ∈ σ.built := by
  induction c using Class.induction with
  | base c hnone =>
    rw [Class.lineage_of_none hnone, List.mem_singleton] at hd
    exact hd ▸ hc
  | derived c c' hsuper ih =>
    rw [Class.lineage_of_superclass hsuper] at hd
    rcases List.mem_cons.1 hd with rfl | hd
    · exact hc
    · exact ih ((h.classes c hc).superclass c' hsuper) hd

/-- Values that come from an earlier moment stay in their places. -/
theorem of_store (h : σ.Valid) {s : Store} (hs : σ.store.Retains s)
    (hb : ∀ f name v, (s.frame f).bindings.get? name = some v → v.Seated σ)
    (hf : ∀ i name v, s.field? i name = some v → v.Seated σ) : Valid { σ with store := s } where
  bindings f name v hv := (hb f name v hv).later (σ.before_of_retains hs)
  fields i name v hv := (hf i name v hv).later (σ.before_of_retains hs)
  classes c hc := (h.classes c hc).later (σ.before_of_retains hs)
  distinct := h.distinct

variable {v : Value}

theorem define (h : σ.Valid) (f : Nat) {name : Lexeme} (hn : name.IsName) (hv : v.Seated σ) :
    Valid { σ with store := σ.store.define f name.text v } := by
  refine h.of_store (.define σ.store f hn v) (fun g x u hu => ?_) h.fields
  rw [Store.get?_define] at hu
  split at hu
  · cases hu
    exact hv
  · exact h.bindings g x u hu

theorem newFrame (h : σ.Valid) {bindings : Bindings Value}
    (hb : ∀ x v, bindings.get? x = some v → v.Seated σ) (enclosing : Nat) :
    Valid { σ with store := (σ.store.newFrame bindings enclosing).2 } := by
  refine h.of_store (.newFrame σ.store bindings enclosing) (fun g x u hu => ?_) h.fields
  rw [Store.frame_newFrame] at hu
  split at hu
  · exact hb x u hu
  · exact h.bindings g x u hu

theorem newIdentity (h : σ.Valid) : Valid { σ with store := σ.store.newIdentity.2 } :=
  h.of_store (.newIdentity _) h.bindings h.fields

theorem newInstance (h : σ.Valid) : Valid { σ with store := σ.store.newInstance.2 } := by
  refine h.of_store (.newInstance _) h.bindings fun i name v hv => ?_
  rw [Store.field?_newInstance] at hv
  exact h.fields i name v hv

theorem setField (h : σ.Valid) (i : Nat) (name : String) (hv : v.Seated σ) :
    Valid { σ with store := σ.store.setField i name v } := by
  refine h.of_store (.setField _ i name v) h.bindings fun j x u hu => ?_
  rw [Store.field?_setField] at hu
  split at hu
  · cases hu
    exact hv
  · exact h.fields j x u hu

theorem getAt (h : σ.Valid) {f distance : Nat} {x : String}
    (hv : σ.store.getAt f distance x = .ok v) : v.Seated σ := by
  rw [Store.getAt] at hv
  split at hv
  · cases hv
  · next g _ =>
    split at hv
    · next hu =>
      cases hv
      exact h.bindings g x v hu
    · cases hv

theorem find? (h : σ.Valid) {f : Nat} {x : String} (hv : σ.store.find? f x = some v) :
    v.Seated σ := by
  obtain ⟨g, -, hg⟩ := Option.bind_eq_some_iff.1 hv
  exact h.bindings g x v hg

/-- A method is bound to an instance: its code has its place inside the new frame. -/
theorem bind (h : σ.Valid) {of owner : Class} (hof : of ∈ σ.built) (howner : owner ∈ of.lineage)
    {name : String} {method : Closure} (hm : owner.methods.get? name = some method) (i : Nat) :
    let s := (σ.store.newFrame ((∅ : Bindings Value).insert "this" (.instance i of)) method.frame).2
    Valid { σ with store := s } ∧
      Closure.Seated { σ with store := s } { method with frame := σ.store.frames.size } := by
  intro s
  have hbuilt := h.lineage hof howner
  have hmethod := (h.classes owner hbuilt).methods name method hm
  have hnew : s.frame σ.store.frames.size =
      ⟨(∅ : Bindings Value).insert "this" (.instance i of), some method.frame⟩ := by
    rw [Store.frame_newFrame, if_pos rfl]
  have hthis : (s.frame σ.store.frames.size).bindings.get? "this" = some (.instance i of) := by
    rw [hnew]
    exact Bindings.get?_insert_self ..
  refine ⟨h.newFrame (fun x u hu => ?_) method.frame, hmethod.regular, ?_⟩
  · obtain ⟨-, rfl⟩ := Bindings.get?_insert_empty hu
    exact hof
  obtain ⟨path, kind, hplain, hadmits⟩ := hmethod.code
  refine ⟨.class owner.superclass.isSome :: path, kind, hadmits,
    hplain.cons (List.forall_mem_nil _), Store.lt_size_newFrame _ _ _, fun k hk => ?_⟩
  -- The new frame is the nearest one that binds `this`.
  cases (Path.distance?_this_class _ path).symm.trans hk
  refine ⟨_, owner, .here hthis, hbuilt, ⟨i, of, hthis, howner⟩, fun hd => ?_, fun id hid => ?_⟩
  · cases hs : owner.superclass.isSome with
    | true => rfl
    | false =>
      rw [hs] at hd
      cases hd
  · exact ⟨method.frame, by rw [hnew], name, method, hm, rfl, hid⟩

end Valid

end Scene

/-! ### What `this` and `super` are -/

/-- What `this` is for the expression `id` in the frame `f`. The nearest frame that binds `this` is
    `g`, and binds it to an instance. The expression is in a method of some class that was built,
    and whichever one it is, the class of the instance is that class or inherits from it. -/
structure Store.ThisFor (s : Store) (built : List Class) (f id g i : Nat) (of : Class) : Prop where
  nearest : s.holder? f "this" = some g
  object : (s.frame g).bindings.get? "this" = some (.instance i of)
  belongs : ∃ c ∈ built, s.Inside g id c
  inherits : ∀ c ∈ built, s.Inside g id c → c ∈ of.lineage

namespace Scene.Valid

variable {σ : Scene} {f id k : Nat}

theorem inside_unique (h : σ.Valid) {g : Nat} {c d : Class} (hc : c ∈ σ.built) (hd : d ∈ σ.built)
    (hic : σ.store.Inside g id c) (hid : σ.store.Inside g id d) : c = d := by
  obtain ⟨outer, houter, hholds⟩ := hic
  obtain ⟨outer', houter', hholds'⟩ := hid
  cases houter.symm.trans houter'
  exact h.distinct c hc d hd outer id hholds hholds'

/-- Where there is a class around an expression, `this` is an instance that inherits from it. -/
theorem thisFor (h : σ.Valid) {path : Path} {nodes : List (Path × Node)} {ids : List Nat}
    (hh : σ.Hosts f path nodes ids) (hid : id ∈ ids) (hk : path.distance? "this" = some k) :
    ∃ g i of, σ.store.Receiver k f g ∧ σ.store.ThisFor σ.built f id g i of ∧
      (path.inClass = .derived → ∀ c ∈ σ.built, σ.store.Inside g id c → c.superclass.isSome) := by
  obtain ⟨g, c, hg, hseat⟩ := hh.receives k hk
  obtain ⟨i, of, hthis, hof⟩ := hseat.object
  have hinside := hseat.inside id hid
  -- The frame and the expression leave only one class that the expression can belong to.
  have honly : ∀ d ∈ σ.built, σ.store.Inside g id d → c = d := fun d hd hi =>
    h.inside_unique hseat.built hd hinside hi
  refine ⟨g, i, of, hg, ⟨hg.holder?, hthis, ⟨c, hseat.built, hinside⟩, fun d hd hi => ?_⟩,
    fun hder d hd hi => ?_⟩
  · exact honly d hd hi ▸ hof
  · exact honly d hd hi ▸ hseat.derived hder

/-- `this` is found at the distance that was written down. -/
theorem this (h : σ.Valid) {keyword : Lexeme} (he : (Expr.this id keyword).Seated σ f) :
    ∃ k g i of, σ.table.distances[id]? = some k ∧ σ.store.getAt f k "this" = .ok (.instance i of) ∧
      σ.store.ThisFor σ.built f id g i of := by
  obtain ⟨-, path, hh⟩ := he
  have hmem : (path, Node.this id) ∈ path.all (Expr.this id keyword).nodes :=
    List.mem_singleton_self _
  obtain ⟨k, hk⟩ := hh.plain.distance?_this (hh.admits.legal _ hmem)
  obtain ⟨g, i, of, hg, hthis, -⟩ := h.thisFor hh (List.mem_singleton_self id) hk
  exact ⟨k, g, i, of, (hh.admits.settled _ hmem id "this" rfl).2.trans hk,
    Store.getAt_of_ancestor hg.ancestor hthis.object, hthis⟩

/-- `super` is found right around `this`, and is the superclass of the class that the expression
    belongs to. -/
theorem super (h : σ.Valid) {keyword method : Lexeme}
    (he : (Expr.super id keyword method).Seated σ f) :
    ∃ k g i of, σ.table.distances[id]? = some (k + 1) ∧ σ.store.getAt f k "this" =
      .ok (.instance i of) ∧
      σ.store.ThisFor σ.built f id g i of ∧
      ∀ c ∈ σ.built, σ.store.Inside g id c → ∃ d, c.superclass = some d ∧
        σ.store.getAt f (k + 1) "super" = .ok (.callable (.class d)) := by
  obtain ⟨-, path, hh⟩ := he
  have hmem : (path, Node.super id) ∈ path.all (Expr.super id keyword method).nodes :=
    List.mem_singleton_self _
  have hderived : path.inClass = .derived := hh.admits.legal _ hmem
  obtain ⟨k, hk, hk'⟩ := hh.plain.distance?_super hderived
  obtain ⟨g, i, of, hg, hthis, hsome⟩ := h.thisFor hh (List.mem_singleton_self id) hk
  refine ⟨k, g, i, of, (hh.admits.settled _ hmem id "super" rfl).2.trans hk',
    Store.getAt_of_ancestor hg.ancestor hthis.object, hthis, fun c hc hi => ?_⟩
  obtain ⟨d, hd⟩ := Option.isSome_iff_exists.1 (hsome hderived c hc hi)
  -- The frame right around `g` is the one in which the methods of the class were made.
  obtain ⟨outer, houter, name, found, hm, rfl, -⟩ := hi
  have hsuper := ((h.classes c hc).methods name found hm).super d hd
  exact ⟨d, hd, Store.getAt_of_ancestor (hg.ancestor_succ houter) hsuper⟩

end Scene.Valid

end Lox
