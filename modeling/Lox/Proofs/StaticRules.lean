import Mathlib
import Lox.Proofs.Resolving

/-!
# The static rules

What resolution accepts, and what it writes down, said without a walk. A node of a program stands
inside some constructs: blocks, functions and classes (`Layer`), from the innermost one outwards
(`Path`). Those that are scopes have declared some names before the node, and a class binds `this`
and `super` around its methods. All nodes of a program that a rule is about, each with its path, are
in one list (`Program.nodes`).

* `Program.Lawful`: the rules, one by one, each about nodes of a kind and what is around them;
* `Path.Binds`: lexical scoping, the innermost scope that has declared a name;
* `Program.resolve_iff_lawful`: programs are accepted by exactly these rules, with exactly the
  distances of lexical scoping.

A step of the walk adds what the nodes of a part ask for, no more and no less (`Walk.Adds`), so both
directions are proved at once, by going through the tree once.
-/

namespace Lox

/-- A construct around a node. -/
inductive Layer where
  /-- A block that has declared some names. -/
  | block (names : List String)
  /-- A function or method that has declared some names, its parameters among them. -/
  | function (kind : FunctionScope) (names : List String)
  /-- A class, with a superclass or without. -/
  | «class» (hasSuperclass : Bool)

/-- The names of the scopes that a construct opens, from the innermost one outwards. -/
def Layer.scopes : Layer → List (List String)
  | block names => [names]
  | function _ names => [names]
  | .class false => [["this"]]
  | .class true => [["this"], ["super"]]

/-- The constructs around a node, from the innermost one outwards. -/
abbrev Path := List Layer

namespace Path

/-- The scopes around a node that are not global, from the innermost one outwards. -/
def scopes (path : Path) : List (List String) := path.flatMap Layer.scopes

/-- The nearest function or method. -/
def function : Path → FunctionScope
  | [] => .none
  | .function kind _ :: _ => kind
  | _ :: rest => function rest

/-- The nearest class. -/
def inClass : Path → ClassScope
  | [] => .none
  | .class false :: _ => .base
  | .class true :: _ => .derived
  | _ :: rest => inClass rest

/-- A name is declared in the innermost scope; global names are not kept. -/
def declare (x : String) : Path → Path
  | .block names :: rest => .block (x :: names) :: rest
  | .function kind names :: rest => .function kind (x :: names) :: rest
  | path => path

/-- The innermost scope that has declared a name has `distance` scopes inside it. -/
structure Binds (path : Path) (x : String) (distance : Nat) : Prop where
  declared : ∃ names, path.scopes[distance]? = some names ∧ x ∈ names
  innermost : ∀ k < distance, ∀ names, path.scopes[k]? = some names → x ∉ names

end Path

/-- What a rule is about, or what refers to a name. -/
inductive Node where
  /-- A scope that is not global, with all names that are declared in it, in their order. -/
  | scope (names : List String)
  /-- The initial value of a variable. -/
  | initial (name : String) (value : Expr)
  /-- A `return`, with a value or without. -/
  | ret (hasValue : Bool)
  /-- A class that names its superclass. -/
  | inherits (name superclass : String)
  /-- A variable that is read. -/
  | read (id : Nat) (name : String)
  /-- A variable that is assigned to. -/
  | assign (id : Nat) (name : String)
  /-- A use of `this`. -/
  | this (id : Nat)
  /-- A use of `super`. -/
  | super (id : Nat)

/-- The name that an expression refers to, with the identity of the expression. -/
def Node.reference? : Node → Option (Nat × String)
  | read id name => some (id, name)
  | assign id name => some (id, name)
  | this id => some (id, "this")
  | super id => some (id, "super")
  | _ => none

namespace Expr

mutual

/-- The nodes of an expression, in the order in which they are gone through. -/
def nodes : Expr → List Node
  | literal _ _ => []
  | unary _ _ _ right => right.nodes
  | binary _ _ _ left right => left.nodes ++ right.nodes
  | logical _ _ _ left right => left.nodes ++ right.nodes
  | grouping _ inner => inner.nodes
  | var id name => [.read id name.text]
  | assign id name value => value.nodes ++ [.assign id name.text]
  | call _ callee _ arguments => callee.nodes ++ nodesAll arguments
  | get _ object _ => object.nodes
  | set _ object _ value => object.nodes ++ value.nodes
  | this id _ => [.this id]
  | super id _ _ => [.super id]

/-- The nodes of some expressions. -/
def nodesAll : List Expr → List Node
  | [] => []
  | e :: rest => e.nodes ++ nodesAll rest

end

/-- The nodes of an expression that may be left out. -/
def nodesOption : Option Expr → List Node
  | none => []
  | some e => e.nodes

end Expr

/-- Nodes that stand on the same path. -/
def Path.all (path : Path) (nodes : List Node) : List (Path × Node) := nodes.map (path, ·)

/-- The nodes of the head of a class, where its name is declared already. -/
def VarRef.nodes (path : Path) (name : Lexeme) : Option VarRef → List (Path × Node)
  | none => []
  | some ref => [(path, .inherits name.text ref.name.text), (path, .read ref.id ref.name.text)]

namespace Stmt

/-- The names that some statements declare in the scope in which they stand. -/
def declared (stmts : List Stmt) : List String := (stmts.filterMap declares?).map Lexeme.text

/-- The path after a statement. -/
def pathAfter (stmt : Stmt) (path : Path) : Path :=
  match stmt.declares? with
  | none => path
  | some name => path.declare name.text

mutual

/-- The nodes of a statement on the given path, in the order in which they are gone through. -/
def nodes (path : Path) : Stmt → List (Path × Node)
  | expression e => path.all e.nodes
  | print e => path.all e.nodes
  | var name initial =>
    -- The name is declared before its initial value.
    (initial.toList.map fun e => (path, .initial name.text e)) ++
      Path.all (path.declare name.text) (Expr.nodesOption initial)
  | block body => (path, .scope (declared body)) :: nodesAll (.block [] :: path) body
  | branch condition yes no => path.all condition.nodes ++ yes.nodes path ++ nodesOption path no
  | loop condition body => path.all condition.nodes ++ body.nodes path
  | .function decl => nodesDecl (path.declare decl.name.text) .function decl
  | ret _ value => (path, .ret value.isSome) :: path.all (Expr.nodesOption value)
  | classDecl name superclass methods =>
    VarRef.nodes (path.declare name.text) name superclass ++
      nodesDecls (.class superclass.isSome :: path.declare name.text) methods

/-- The nodes of statements, each on the path after those before it. -/
def nodesAll (path : Path) : List Stmt → List (Path × Node)
  | [] => []
  | stmt :: rest => stmt.nodes path ++ nodesAll (stmt.pathAfter path) rest

/-- The nodes of a statement, if it is there. -/
def nodesOption (path : Path) : Option Stmt → List (Path × Node)
  | none => []
  | some stmt => stmt.nodes path

/-- The nodes of a function or method: parameters and body share one scope. -/
def nodesDecl (path : Path) (kind : FunctionScope) : FunctionDecl Stmt → List (Path × Node)
  | ⟨_, params, body⟩ =>
    (path, .scope (params.map Lexeme.text ++ declared body)) ::
      nodesAll (.function kind (params.map Lexeme.text) :: path) body

/-- The nodes of methods. -/
def nodesDecls (path : Path) : List (FunctionDecl Stmt) → List (Path × Node)
  | [] => []
  | decl :: rest => nodesDecl path (Walk.methodScope decl.name) decl ++ nodesDecls path rest

end

end Stmt

/-- The nodes of a program. -/
def Program.nodes (p : Program) : List (Path × Node) := Stmt.nodesAll [] p

/-- The static rules. -/
structure Program.Lawful (p : Program) : Prop where
  /-- No name is declared twice in a scope that is not global. -/
  declaredOnce : ∀ path names, (path, .scope names) ∈ p.nodes → names.Nodup
  /-- No local variable is read in its own initial value. -/
  notInOwnInitial : ∀ path name value, (path, .initial name value) ∈ p.nodes → path.scopes ≠ [] →
    ∀ id, .read id name ∉ value.nodes
  /-- A `return` stands in a function. -/
  returnsFrom : ∀ path hasValue, (path, .ret hasValue) ∈ p.nodes → path.function ≠ .none
  /-- A method that sets up an instance returns no value. -/
  returnsNothing : ∀ path, (path, .ret true) ∈ p.nodes → path.function ≠ .initializer
  /-- There is a class around `this`. -/
  thisInClass : ∀ path id, (path, .this id) ∈ p.nodes → path.inClass ≠ .none
  /-- The nearest class around `super` has a superclass. -/
  superInDerived : ∀ path id, (path, .super id) ∈ p.nodes → path.inClass = .derived
  /-- No class is its own superclass. -/
  notOwnSuperclass : ∀ path name superclass, (path, .inherits name superclass) ∈ p.nodes →
    name ≠ superclass

/-! ### Rules for single nodes -/

/-- What the rules ask of a node on the given path. -/
def Node.Allowed (path : Path) : Node → Prop
  | scope names => names.Nodup
  | initial name value => path.scopes ≠ [] → ∀ id, .read id name ∉ value.nodes
  | ret hasValue => path.function ≠ .none ∧ (hasValue = true → path.function ≠ .initializer)
  | inherits name superclass => name ≠ superclass
  | read _ _ => True
  | assign _ _ => True
  | this _ => path.inClass ≠ .none
  | super _ => path.inClass = .derived

/-- The rules hold for all of the nodes. -/
def Legal (nodes : List (Path × Node)) : Prop := ∀ n ∈ nodes, n.2.Allowed n.1

@[simp]
theorem legal_nil : Legal [] := by simp [Legal]

variable {path : Path} {node : Node}

@[simp]
theorem legal_cons {nodes : List (Path × Node)} :
    Legal ((path, node) :: nodes) ↔ node.Allowed path ∧ Legal nodes := by
  simp [Legal]

@[simp]
theorem legal_append {nodes nodes' : List (Path × Node)} :
    Legal (nodes ++ nodes') ↔ Legal nodes ∧ Legal nodes' := by
  simp [Legal, or_imp, forall_and]

theorem Program.lawful_iff (p : Program) : p.Lawful ↔ Legal p.nodes := by
  constructor
  · rintro h ⟨path, node⟩ hm
    cases node with
    | scope names => exact h.declaredOnce path names hm
    | initial name value => exact h.notInOwnInitial path name value hm
    | ret hasValue =>
      refine ⟨h.returnsFrom path hasValue hm, ?_⟩
      rintro rfl
      exact h.returnsNothing path hm
    | inherits name superclass => exact h.notOwnSuperclass path name superclass hm
    | read id name => trivial
    | assign id name => trivial
    | this id => exact h.thisInClass path id hm
    | super id => exact h.superInDerived path id hm
  · intro h
    exact {
      declaredOnce := fun path names hm => h _ hm
      notInOwnInitial := fun path name value hm => h _ hm
      returnsFrom := fun path hasValue hm => (h _ hm).1
      returnsNothing := fun path hm => (h _ hm).2 rfl
      thisInClass := fun path id hm => h _ hm
      superInDerived := fun path id hm => h _ hm
      notOwnSuperclass := fun path name superclass hm => h _ hm }

/-! ### Distances -/

namespace Path

/-- How far out the innermost scope is that has declared a name. -/
def distance? (path : Path) (x : String) : Option Nat := path.scopes.findIdx? (x ∈ ·)

theorem distance?_eq_some {path : Path} {x : String} {distance : Nat} :
    path.distance? x = some distance ↔ path.Binds x distance := by
  rw [distance?, List.findIdx?_eq_some_iff_getElem]
  constructor
  · rintro ⟨hlt, hx, hinner⟩
    refine ⟨⟨_, List.getElem?_eq_getElem hlt, of_decide_eq_true hx⟩,
      fun k hk names hnames hmem => ?_⟩
    obtain ⟨hk', rfl⟩ := List.getElem?_eq_some_iff.1 hnames
    exact hinner k hk (decide_eq_true hmem)
  · rintro ⟨⟨names, hnames, hx⟩, hinner⟩
    obtain ⟨hlt, rfl⟩ := List.getElem?_eq_some_iff.1 hnames
    refine ⟨hlt, decide_eq_true hx, fun k hk hmem => ?_⟩
    exact hinner k hk _ (List.getElem?_eq_getElem (hk.trans hlt)) (of_decide_eq_true hmem)

/-- Writes down how far out the scope is of the name that a node refers to. -/
def record (distances : Distances) (n : Path × Node) : Distances :=
  match n.2.reference? with
  | none => distances
  | some (id, x) =>
    match n.1.distance? x with
    | none => distances
    | some distance => distances.insert id distance

end Path

/-- The identities of nodes that refer to a name. -/
def Node.referring (nodes : List (Path × Node)) : List Nat :=
  nodes.filterMap fun n => n.2.reference?.map Prod.fst

theorem Node.referring_cons_of_eq_some {id : Nat} {x : String}
    (href : node.reference? = some (id, x)) (rest : List (Path × Node)) :
    Node.referring ((path, node) :: rest) = id :: Node.referring rest := by
  simp [Node.referring, href]

/-- What is written down at a node is about its own identity only. -/
theorem Path.getElem?_record {distances : Distances}
    (hfresh : ∀ id x, node.reference? = some (id, x) → distances[id]? = none) (id distance : Nat) :
    (record distances (path, node))[id]? = some distance ↔ distances[id]? = some distance ∨
      ∃ x, node.reference? = some (id, x) ∧ path.Binds x distance := by
  rw [record]
  dsimp only
  cases href : node.reference? with
  | none => simp
  | some reference =>
    obtain ⟨id', x'⟩ := reference
    simp only [Option.some.injEq, Prod.mk.injEq, ← distance?_eq_some]
    cases hx : path.distance? x' with
    | none => simp +contextual [hx]
    | some k =>
      dsimp only
      rw [Std.ExtTreeMap.getElem?_insert]
      by_cases hi : id' = id
      · subst hi
        simp [hfresh id' x' href, hx]
      · rw [if_neg fun h => hi (compare_eq_iff_eq.1 h)]
        simp [hi]

/-- If no identity comes twice, each node that refers to a name has the distance that was written
    down for it, and no other distances are added. -/
theorem Path.getElem?_foldl_record {nodes : List (Path × Node)} {distances : Distances}
    (hn : (Node.referring nodes).Nodup) (hd : ∀ id ∈ Node.referring nodes, distances[id]? = none)
    (id distance : Nat) :
    (nodes.foldl record distances)[id]? = some distance ↔ distances[id]? = some distance ∨
      ∃ path node x, (path, node) ∈ nodes ∧ node.reference? = some (id, x) ∧
      path.Binds x distance := by
  induction nodes generalizing distances with
  | nil => simp
  | cons n rest ih =>
    obtain ⟨path, node⟩ := n
    have hfresh : ∀ i x, node.reference? = some (i, x) → distances[i]? = none := fun i x href =>
      hd i (Node.referring_cons_of_eq_some href rest ▸ List.mem_cons_self ..)
    have hrest : (Node.referring rest).Sublist (Node.referring ((path, node) :: rest)) :=
      (List.sublist_cons_self _ _).filterMap _
    -- The identities of the nodes behind are not that of this one, so they are still free.
    have hkept : ∀ i ∈ Node.referring rest, (record distances (path, node))[i]? = none := by
      intro i hi
      rw [Option.eq_none_iff_forall_ne_some]
      intro d h
      rcases (getElem?_record hfresh i d).1 h with h | ⟨x, href, -⟩
      · rw [hd i (hrest.subset hi)] at h
        cases h
      · rw [Node.referring_cons_of_eq_some href] at hn
        exact (List.nodup_cons.1 hn).1 hi
    rw [List.foldl_cons, ih (hn.sublist hrest) hkept, getElem?_record hfresh, or_assoc]
    refine or_congr_right ⟨?_, ?_⟩
    · rintro (⟨x, href, hb⟩ | ⟨path', node', x, hm, hr, hb⟩)
      · exact ⟨path, node, x, List.mem_cons_self .., href, hb⟩
      · exact ⟨path', node', x, List.mem_cons_of_mem _ hm, hr, hb⟩
    · rintro ⟨path', node', x, hm, hr, hb⟩
      rcases List.mem_cons.1 hm with heq | hm
      · cases heq
        exact .inl ⟨x, hr, hb⟩
      · exact .inr ⟨path', node', x, hm, hr, hb⟩

/-! ### The state of the walk at a node -/

/-- A scope has declared exactly the given names. -/
def Scope.Declares (scope : Scope) (names : List String) : Prop := ∀ x,
    scope.contains x = true ↔ x ∈ names

namespace Path

/-- The scopes have declared exactly the names of the path. -/
def Shows (path : Path) (scopes : Scopes) : Prop := List.Forall₂ Scope.Declares scopes path.scopes

/-- Statements can stand right inside the innermost construct, so it is no class. -/
def Open : Path → Prop
  | .class _ :: _ => False
  | _ => True

/-- Names can be declared in the innermost scope, one after the other. -/
def Admits (path : Path) (names : List String) : Prop :=
  ∀ scope ∈ path.scopes.head?, names.Nodup ∧ ∀ x ∈ names, x ∉ scope

@[simp]
theorem admits_nil (path : Path) : path.Admits [] := by simp [Admits]

theorem all_append (path : Path) (ns ns' : List Node) :
    path.all (ns ++ ns') = path.all ns ++ path.all ns' := List.map_append

theorem open_declare {path : Path} (h : path.Open) (x : String) : (path.declare x).Open := by
  match path with
  | [] => trivial
  | .block _ :: _ => trivial
  | .function _ _ :: _ => trivial
  | .class _ :: _ => exact h

theorem admits_cons {path : Path} (h : path.Open) (x : String) (rest : List String) :
    path.Admits (x :: rest) ↔ path.Admits [x] ∧ (path.declare x).Admits rest := by
  match path with
  | [] => simp [Admits, scopes, declare]
  | .block names :: outer =>
    simp only [Admits, scopes, declare, Layer.scopes, List.flatMap_cons, List.cons_append,
      List.head?_cons, Option.mem_some_iff, forall_eq']
    grind
  | .function kind names :: outer =>
    simp only [Admits, scopes, declare, Layer.scopes, List.flatMap_cons, List.cons_append,
      List.head?_cons, Option.mem_some_iff, forall_eq']
    grind
  | .class _ :: _ => exact h.elim

theorem admits_block (path : Path) (names : List String) :
    Path.Admits (.block [] :: path) names ↔ names.Nodup := by
  simp [Admits, scopes, Layer.scopes]

theorem admits_function (kind : FunctionScope) (params : List String) (path : Path)
    (names : List String) :
    Path.Admits (.function kind params :: path) names ↔ names.Nodup ∧ ∀ x ∈ names, x ∉ params := by
  simp [Admits, scopes, Layer.scopes]

@[simp]
theorem function_declare (path : Path) (x : String) :
    (path.declare x).function = path.function := by
  match path with
  | [] | .block _ :: _ | .function _ _ :: _ | .class _ :: _ => rfl

@[simp]
theorem inClass_declare (path : Path) (x : String) : (path.declare x).inClass = path.inClass := by
  match path with
  | [] | .block _ :: _ | .function _ _ :: _ | .class _ :: _ => rfl

end Path

/-- A name is bound in the innermost scope. -/
theorem Path.Shows.bind {path : Path} {scopes : Scopes} (h : path.Shows scopes)
    (ho : path.Open) (x : String) (isDefined : Bool) :
    (path.declare x).Shows (scopes.bind x isDefined) := by
  have hinsert : ∀ {scope : Scope} {names : List String}, scope.Declares names →
      Scope.Declares (scope.insert x isDefined) (x :: names) := by
    intro scope names hd y
    rw [Bindings.contains_insert, Bool.or_eq_true, beq_iff_eq, hd y, List.mem_cons]
  match path, scopes, h with
  | [], [], _ => exact .nil
  | .block names :: rest, scope :: outer, h =>
    obtain ⟨hd, hrest⟩ := List.forall₂_cons.1 h
    exact .cons (hinsert hd) hrest
  | .function kind names :: rest, scope :: outer, h =>
    obtain ⟨hd, hrest⟩ := List.forall₂_cons.1 h
    exact .cons (hinsert hd) hrest
  | .class _ :: _, _, _ => exact ho.elim

theorem Path.Shows.admits_singleton {scopes : Scopes} (h : path.Shows scopes) (x : String) :
    path.Admits [x] ↔ scopes.at? 0 x = none := by
  cases scopes with
  | nil =>
    have hnil := List.forall₂_nil_left_iff.1 h
    simp [Path.Admits, hnil]
  | cons scope outer =>
    obtain ⟨names, rest, hd, -, hnames⟩ := List.forall₂_cons_left_iff.1 h
    have hx : x ∈ names ↔ (scope.get? x).isSome = true := (hd x).symm
    simp [Path.Admits, hnames, hx]

namespace Walk

variable {path : Path} {w w₁ w₂ : Walk} {nodes nodes' : List (Path × Node)} {rules rules' : Prop}

/-- The walk is inside the constructs of a path. -/
structure Within (path : Path) (w : Walk) : Prop where
  scopes : path.Shows w.scopes
  function : w.function = path.function
  inClass : w.inClass = path.inClass

/-- The walk is at a statement: moreover, all names of the innermost scope are defined. -/
structure At (path : Path) (w : Walk) : Prop extends Within path w where
  isOpen : path.Open
  isDefined : ∀ x, w.isUndefined x = false

theorem isUndefined_eq_of_scopes (h : w₁.scopes = w.scopes) (x : String) :
    w₁.isUndefined x = w.isUndefined x := by
  rw [isUndefined, isUndefined, h]

theorem distance?_eq_of_shows (hs : path.Shows w.scopes) (x : String) :
    w.distance? x = path.distance? x := by
  rw [distance?, Path.distance?]
  unfold Path.Shows at hs
  generalize w.scopes = scopes, path.scopes = outer at hs
  induction hs with
  | nil => rfl
  | @cons scope names scopes outer hd _ ih =>
    have hx : scope.contains x = decide (x ∈ names) := by
      rw [Bool.eq_iff_iff, hd x, decide_eq_true_iff]
    rw [List.findIdx?_cons, List.findIdx?_cons, hx, ih]

variable {ids : List Nat} {x : String} {ns : List Node}

theorem Within.of_scopes (h : Within path w) (hp : Passes ids w w₁) (hs : w₁.scopes = w.scopes) :
    Within path w₁ where
  scopes := hs ▸ h.scopes
  function := hp.function.trans h.function
  inClass := hp.inClass.trans h.inClass

theorem At.of_scopes (h : At path w) (hp : Passes ids w w₁) (hs : w₁.scopes = w.scopes) :
    At path w₁ where
  toWithin := h.toWithin.of_scopes hp hs
  isOpen := h.isOpen
  isDefined x := (isUndefined_eq_of_scopes hs x).trans (h.isDefined x)

/-- A name is declared, and may wait for its initial value. -/
theorem At.within_bind (h : At path w) (hp : Passes ids w w₁) {isDefined : Bool}
    (hs : w₁.scopes = Scopes.bind w.scopes x isDefined) :
    Within (path.declare x) w₁ where
  scopes := hs ▸ h.scopes.bind h.isOpen x isDefined
  function := (hp.function.trans h.function).trans (path.function_declare x).symm
  inClass := (hp.inClass.trans h.inClass).trans (path.inClass_declare x).symm

/-- A name is declared and defined. -/
theorem At.of_bind (h : At path w) (hp : Passes ids w w₁)
    (hs : w₁.scopes = Scopes.bind w.scopes x true) : At (path.declare x) w₁ where
  toWithin := h.within_bind hp hs
  isOpen := Path.open_declare h.isOpen x
  isDefined y := by
    have hold := h.isDefined y
    rw [isUndefined] at hold ⊢
    rw [hs]
    cases hw : w.scopes with
    | nil => rfl
    | cons scope outer =>
      rw [hw] at hold
      simp only [Scopes.bind, Bindings.get?_insert]
      split
      · rfl
      · exact hold

/-! ### What is added by a part of a tree -/

/-- From one state to another, the walk goes through the given nodes. It adds an error unless the
    rules hold, and without errors it writes down the distances of the nodes. -/
structure Adds (nodes : List (Path × Node)) (rules : Prop) (w w₁ : Walk) : Prop where
  errors : w₁.errors = #[] ↔ w.errors = #[] ∧ rules
  distances : w₁.errors = #[] → w₁.distances = nodes.foldl Path.record w.distances

namespace Adds

theorem trans (h : Adds nodes rules w w₁) (h' : Adds nodes' rules' w₁ w₂) :
    Adds (nodes ++ nodes') (rules ∧ rules') w w₂ where
  errors := by rw [h'.errors, h.errors, and_assoc]
  distances he := by
    rw [h'.distances he, h.distances (h'.errors.1 he).1, List.foldl_append]

theorem congr (h : Adds nodes rules w w₁) (hr : rules ↔ rules') : Adds nodes rules' w w₁ :=
  ⟨by rw [h.errors, hr], h.distances⟩

theorem refl (w : Walk) : Adds [] True w w := ⟨by simp, fun _ => rfl⟩

/-- Errors and distances are all that counts. -/
theorem of_eq {w' w₁' : Walk} (h : Adds nodes rules w w₁) (he : w'.errors = w.errors)
    (hd : w'.distances = w.distances) (he₁ : w₁'.errors = w₁.errors)
    (hd₁ : w₁'.distances = w₁.distances) : Adds nodes rules w' w₁' :=
  ⟨by rw [he, he₁, h.errors], fun h' => by rw [hd₁, hd, h.distances (he₁ ▸ h')]⟩

end Adds

/-- A name is looked up and its distance is written down. -/
theorem adds_resolveLocal (h : path.Shows w.scopes) {node : Node} {id : Nat}
    (hr : node.reference? = some (id, x)) : Adds [(path, node)] True w (w.resolveLocal id x) := by
  have hd := distance?_eq_of_shows h x
  rw [resolveLocal]
  constructor
  · split <;> simp
  · intro
    rw [List.foldl_cons, List.foldl_nil, Path.record]
    simp only [hr, ← hd]
    split
    · next hx => rw [hx]
    · next hx => rw [hx]

/-- A variable is read, which must not wait for its initial value. -/
theorem adds_readVariable (h : path.Shows w.scopes) (id : Nat) (name : Lexeme) :
    Adds [(path, .read id name.text)] (w.isUndefined name.text = false) w
      (w.readVariable id name) := by
  rw [readVariable]
  split
  · next hu =>
    have hne := fun he => errors_report_ne w name .ownInitializer
      ((passes_resolveLocal _ id name.text).errors_eq he)
    exact ⟨⟨fun he => (hne he).elim, fun he => by simp [hu] at he⟩, fun he => (hne he).elim⟩
  · next hu => exact (adds_resolveLocal h rfl).congr (by simpa using hu)

/-- None of the variables that are read waits for its initial value. -/
def Readable (w : Walk) (nodes : List Node) : Prop := ∀ id x, .read id x ∈ nodes →
    w.isUndefined x = false

theorem readable_append {ns' : List Node} :
    w.Readable (ns ++ ns') ↔ w.Readable ns ∧ w.Readable ns' := by
  simp [Readable, or_imp, forall_and]

theorem readable_congr (h : w₁.scopes = w.scopes) : w₁.Readable ns ↔ w.Readable ns := by
  simp only [Readable, isUndefined_eq_of_scopes h]

/-- One expression after another. -/
theorem Adds.both {ns' : List Node} (hs : w₁.scopes = w.scopes)
    (h : Adds (path.all ns) (Legal (path.all ns) ∧ w.Readable ns) w w₁)
    (h' : Adds (path.all ns') (Legal (path.all ns') ∧ w₁.Readable ns') w₁ w₂) :
    Adds (path.all (ns ++ ns')) (Legal (path.all (ns ++ ns')) ∧ w.Readable (ns ++ ns')) w w₂ := by
  rw [Path.all_append, legal_append, readable_append]
  rw [readable_congr hs] at h'
  exact (h.trans h').congr and_and_and_comm

mutual

/-- An expression is gone through by the rules for its nodes, if its variables can be read. -/
theorem adds_expr : (w : Walk) → (e : Expr) → e.Regular → Within path w →
    Adds (path.all e.nodes) (Legal (path.all e.nodes) ∧ w.Readable e.nodes) w (w.expr e)
  | w, .literal _ _, _, _ => (Adds.refl w).congr (by simp [Path.all, Expr.nodes, Readable])
  | w, .unary _ _ _ right, hreg, h => adds_expr w right hreg h
  | w, .binary _ _ _ left right, hreg, h =>
    (adds_expr w left hreg.1 h).both (scopes_expr w left)
      (adds_expr _ right hreg.2 (h.of_scopes (passes_expr w left) (scopes_expr w left)))
  | w, .logical _ _ _ left right, hreg, h =>
    (adds_expr w left hreg.1 h).both (scopes_expr w left)
      (adds_expr _ right hreg.2 (h.of_scopes (passes_expr w left) (scopes_expr w left)))
  | w, .grouping _ inner, hreg, h => adds_expr w inner hreg h
  | w, .var id name, _, h =>
    (adds_readVariable h.scopes id name).congr
      (by simp [Path.all, Expr.nodes, Readable, Node.Allowed])
  | w, .assign id name value, hreg, h => by
    refine (adds_expr w value hreg.2 h).both (scopes_expr w value) (Adds.congr (adds_resolveLocal
      (h.of_scopes (passes_expr w value) (scopes_expr w value)).scopes rfl) ?_)
    simp [Path.all, Readable, Node.Allowed]
  | w, .call _ callee _ arguments, hreg, h =>
    (adds_expr w callee hreg.1 h).both (scopes_expr w callee)
      (adds_exprs _ arguments hreg.2 (h.of_scopes (passes_expr w callee) (scopes_expr w callee)))
  | w, .get _ object _, hreg, h => adds_expr w object hreg h
  | w, .set _ object _ value, hreg, h =>
    (adds_expr w object hreg.1 h).both (scopes_expr w object)
      (adds_expr _ value hreg.2 (h.of_scopes (passes_expr w object) (scopes_expr w object)))
  | w, .this id keyword, hreg, h => by
    have hthis : keyword.text = "this" := hreg
    rw [expr]
    split
    · next hc =>
      have hne := errors_report_ne w keyword .thisOutsideClass
      refine ⟨⟨fun he => (hne he).elim, fun he => ?_⟩, fun he => (hne he).elim⟩
      have := (legal_cons.1 he.2.1).1
      exact (this (h.inClass.symm.trans hc)).elim
    · next hc =>
      rw [hthis]
      refine (adds_resolveLocal h.scopes rfl).congr ?_
      rw [h.inClass] at hc
      simp [Path.all, Expr.nodes, Readable, Node.Allowed, hc]
  | w, .super id keyword _, hreg, h => by
    have hsuper : keyword.text = "super" := hreg
    have hrule : Legal (path.all [.super id]) ↔ w.inClass = .derived := by
      simp [Path.all, Node.Allowed, h.inClass]
    -- In the two other cases an error is reported first.
    have hne : ∀ cause, ((w.report keyword cause).resolveLocal id "super").errors ≠ #[] :=
      fun cause he => errors_report_ne w keyword cause
        ((passes_resolveLocal _ id "super").errors_eq he)
    rw [expr, hsuper]
    cases hc : w.inClass with
    | none =>
      refine ⟨⟨fun he => (hne _ he).elim, fun he => ?_⟩, fun he => (hne _ he).elim⟩
      have := hrule.1 he.2.1
      rw [hc] at this
      cases this
    | base =>
      refine ⟨⟨fun he => (hne _ he).elim, fun he => ?_⟩, fun he => (hne _ he).elim⟩
      have := hrule.1 he.2.1
      rw [hc] at this
      cases this
    | derived =>
      refine (adds_resolveLocal h.scopes rfl).congr ?_
      rw [show Expr.nodes (.super id keyword _) = [.super id] from rfl, hrule]
      simp [hc, Readable]

theorem adds_exprs : (w : Walk) → (es : List Expr) → Expr.AllRegular es → Within path w →
    Adds (path.all (Expr.nodesAll es))
      (Legal (path.all (Expr.nodesAll es)) ∧ w.Readable (Expr.nodesAll es)) w (w.exprs es)
  | w, [], _, _ => (Adds.refl w).congr (by simp [Path.all, Expr.nodesAll, Readable])
  | w, e :: rest, hreg, h =>
    (adds_expr w e hreg.1 h).both (scopes_expr w e)
      (adds_exprs _ rest hreg.2 (h.of_scopes (passes_expr w e) (scopes_expr w e)))

end

theorem adds_expr? {e : Option Expr} (hreg : Expr.OptionRegular e) (h : Within path w) :
    Adds (path.all (Expr.nodesOption e))
      (Legal (path.all (Expr.nodesOption e)) ∧ w.Readable (Expr.nodesOption e)) w (w.expr? e) := by
  cases e with
  | none => exact (Adds.refl w).congr (by simp [Path.all, Expr.nodesOption, Readable])
  | some e => exact adds_expr w e (hreg e rfl) h

/-- At a statement all variables can be read. -/
theorem At.readable (h : At path w) (ns : List Node) : w.Readable ns := fun _ x _ => h.isDefined x

/-! ### Declarations -/

theorem adds_bind (w : Walk) (x : String) (isDefined : Bool) :
    Adds [] True w (w.bind x isDefined) := by
  rw [bind]
  split <;> exact (Adds.refl w).of_eq rfl rfl rfl rfl

/-- A name is declared: the innermost scope must not have it already. -/
theorem adds_declare (h : path.Shows w.scopes) (name : Lexeme) :
    Adds [] (path.Admits [name.text]) w (w.declare name) := by
  rw [h.admits_singleton]
  cases hx : Scopes.at? w.scopes 0 name.text with
  | none =>
    rw [declare_eq name hx]
    exact (adds_bind w name.text false).congr (by simp)
  | some isDefined =>
    have hne := errors_report_ne w name .alreadyDeclared
    rw [declare_eq_report name hx]
    exact ⟨⟨fun he => (hne he).elim, fun he => by simp at he⟩, fun he => (hne he).elim⟩

theorem adds_introduce (h : path.Shows w.scopes) (name : Lexeme) :
    Adds [] (path.Admits [name.text]) w (w.introduce name) :=
  ((adds_declare h name).trans (adds_bind _ name.text true)).congr (and_true _ ▸ Iff.rfl)

theorem adds_introduceAll (h : path.Shows w.scopes) (ho : path.Open) (names : List Lexeme) :
    Adds [] (path.Admits (names.map Lexeme.text)) w (w.introduceAll names) := by
  induction names generalizing path w with
  | nil => exact (Adds.refl w).congr (by simp)
  | cons name rest ih =>
    have hnext : (path.declare name.text).Shows (w.introduce name).scopes := by
      rw [scopes_introduce]
      exact h.bind ho name.text true
    rw [List.map_cons, Path.admits_cons ho]
    exact (adds_introduce h name).trans (ih hnext (Path.open_declare ho name.text))

/-- A name that can be declared waits for its initial value, and no other does. -/
theorem isUndefined_declare (h : At path w) {name : Lexeme} (ha : path.Admits [name.text])
    (x : String) : (w.declare name).isUndefined x = false ↔ (path.scopes ≠ [] → x ≠ name.text) := by
  have hold := h.isDefined x
  have hscopes := h.scopes
  rw [declare_eq name ((hscopes.admits_singleton _).1 ha), isUndefined_eq, scopes_bind]
  rw [isUndefined_eq] at hold
  cases hw : w.scopes with
  | nil =>
    rw [hw] at hscopes
    have hnil := List.forall₂_nil_left_iff.1 hscopes
    simp [Scopes.bind, hnil]
  | cons scope outer =>
    rw [hw] at hold hscopes
    obtain ⟨names, rest, -, -, hnames⟩ := List.forall₂_cons_left_iff.1 hscopes
    rw [Scopes.bind, Scopes.at?_zero, Bindings.get?_insert, hnames]
    by_cases hx : x = name.text
    · simp [hx]
    · rw [if_neg hx]
      simpa [hx] using hold

theorem Adds.cons (h : Adds nodes rules w w₁) {node : Node} (hn : node.reference? = none) :
    Adds ((path, node) :: nodes) rules w w₁ :=
  ⟨h.errors, fun he => by rw [h.distances he, List.foldl_cons, Path.record, hn]⟩

/-- If a rule is broken at the start, then an error is there in the end. -/
theorem Adds.of_broken (h : Adds nodes rules w w₁) (hr : ¬ rules) (hp : Passes ids w₁ w₂)
    (hr' : rules' → rules) : Adds nodes' rules' w w₂ := by
  have hne : w₂.errors ≠ #[] := fun he => hr (h.errors.1 (hp.errors_eq he)).2
  exact ⟨⟨fun he => (hne he).elim, fun he => (hr (hr' he.2)).elim⟩, fun he => (hne he).elim⟩

/-- A variable declaration is gone through by the rules for its nodes. -/
theorem adds_var (h : At path w) {name : Lexeme} {initial : Option Expr}
    (hreg : Expr.OptionRegular initial) :
    Adds ((Stmt.var name initial).nodes path)
      (Legal ((Stmt.var name initial).nodes path) ∧ path.Admits [name.text]) w
      (w.stmt (.var name initial)) := by
  have hdeclare := adds_declare h.scopes name
  have hdefine := adds_bind ((w.declare name).expr? initial) name.text true
  by_cases ha : path.Admits [name.text]
  · have hscopes : (w.declare name).scopes = Scopes.bind w.scopes name.text false := by
      rw [declare_eq name ((h.scopes.admits_singleton _).1 ha), scopes_bind]
    have hinner := adds_expr? hreg (h.within_bind (passes_declare w name) hscopes)
    have hall := (hdeclare.trans hinner).trans hdefine
    rw [List.nil_append, List.append_nil] at hall
    cases initial with
    | none => exact hall.congr (by simp [Stmt.nodes, Expr.nodesOption, Path.all, Readable])
    | some e =>
      have hcons : Adds ((path, .initial name.text e) :: _) _ w _ := hall.cons rfl
      refine hcons.congr ?_
      have hread : (w.declare name).Readable e.nodes ↔ (Node.initial name.text e).Allowed path := by
        simp only [Readable, isUndefined_declare h ha, Node.Allowed]
        grind
      simp only [Expr.nodesOption, hread, Stmt.nodes, Option.toList_some,
        List.map_cons, List.map_nil, List.cons_append, List.nil_append, legal_cons]
      tauto
  · exact hdeclare.of_broken ha
      ((passes_expr? _ initial).trans (passes_bind _ name.text true)) And.right

/-! ### Statements -/

theorem admits_declared_cons (ho : path.Open) (stmt : Stmt) (rest : List Stmt) :
    path.Admits (Stmt.declared (stmt :: rest)) ↔
      path.Admits (Stmt.declared [stmt]) ∧ (stmt.pathAfter path).Admits (Stmt.declared rest) := by
  cases hd : stmt.declares? with
  | none => simp [Stmt.declared, Stmt.pathAfter, hd]
  | some name =>
    have hcons : Stmt.declared (stmt :: rest) = name.text :: Stmt.declared rest := by
      simp [Stmt.declared, hd]
    have hsingle : Stmt.declared [stmt] = [name.text] := by simp [Stmt.declared, hd]
    rw [hcons, hsingle, Path.admits_cons ho, Stmt.pathAfter, hd]

theorem admits_declared_of_none {stmt : Stmt} (h : stmt.declares? = none) :
    path.Admits (Stmt.declared [stmt]) := by
  simp [Stmt.declared, h]

theorem At.stmt (h : At path w) {stmt : Stmt} (hreg : stmt.Regular) :
    At (stmt.pathAfter path) (w.stmt stmt) := by
  have hp := passes_stmt w stmt
  have hs := scopes_stmt w stmt hreg
  rw [Stmt.scopesAfter] at hs
  rw [Stmt.pathAfter]
  cases hd : stmt.declares? with
  | none =>
    rw [hd] at hs
    exact h.of_scopes hp hs
  | some name =>
    rw [hd] at hs
    exact h.of_bind hp hs

/-- A statement that declares nothing leaves the walk where it is. -/
theorem At.stmt_of_none (h : At path w) {stmt : Stmt} (hreg : stmt.Regular)
    (hn : stmt.declares? = none) : At path (w.stmt stmt) := by
  have := h.stmt hreg
  rwa [Stmt.pathAfter, hn] at this

theorem At.expr (h : At path w) (e : Expr) : At path (w.expr e) :=
  h.of_scopes (passes_expr w e) (scopes_expr w e)

theorem At.adds_expr (h : At path w) {e : Expr} (hreg : e.Regular) :
    Adds (path.all e.nodes) (Legal (path.all e.nodes)) w (w.expr e) :=
  (Walk.adds_expr w e hreg h.toWithin).congr (and_iff_left (h.readable _))

theorem Within.openScope (h : Within path w) : At (.block [] :: path) w.openScope where
  scopes := .cons (fun x => by simp [Bindings.contains]) h.scopes
  function := h.function
  inClass := h.inClass
  isOpen := trivial
  isDefined x := rfl

theorem Within.openFunction (h : Within path w) (kind : FunctionScope) :
    Within (.function kind [] :: path) { w with function := kind }.openScope where
  scopes := .cons (fun x => by simp [Bindings.contains]) h.scopes
  function := rfl
  inClass := h.inClass

/-- Parameters are defined from the start. -/
theorem Within.parameters (h : Within path w) (kind : FunctionScope) (params : List Lexeme) :
    At (.function kind (params.map Lexeme.text) :: path)
      ({ w with function := kind }.openScope.introduceAll params) := by
  have hopen := h.openFunction kind
  have hp := passes_introduceAll { w with function := kind }.openScope params
  have hs : ({ w with function := kind }.openScope.introduceAll params).scopes =
      Scope.ofNames params :: w.scopes := scopes_introduceAll ∅ w.scopes params rfl
  refine ⟨⟨?_, hp.function, hp.inClass.trans hopen.inClass⟩, trivial, fun x => ?_⟩
  · rw [hs]
    refine .cons (fun x => ?_) h.scopes
    rw [Bindings.contains, Scope.get?_ofNames]
    split <;> simp_all
  · rw [isUndefined_eq, hs, Scopes.at?_zero, Scope.get?_ofNames]
    split <;> rfl

/-- The walk is inside a class, among its methods. -/
theorem At.openClass (h : At path w) (name : Lexeme) (superclass : Option VarRef) :
    Within (.class superclass.isSome :: path.declare name.text) (w.openClass name superclass) := by
  have hp := passes_openClass w name superclass
  have hs := scopes_openClass w name superclass
  have hname := h.of_bind (passes_introduce w name) (scopes_introduce w name)
  have hscopes := hname.scopes
  rw [scopes_introduce] at hscopes
  have hfunction : (w.openClass name superclass).function = (path.declare name.text).function :=
    hp.function.trans (h.function.trans (path.function_declare _).symm)
  have hhidden : ∀ x : String, Scope.Declares (Bindings.insert x true ∅) [x] := by
    intro x y
    rw [Bindings.contains_insert]
    simp [Bindings.contains]
  cases superclass with
  | none => exact ⟨hs ▸ .cons (hhidden "this") hscopes, hfunction, hp.inClass⟩
  | some ref =>
    exact ⟨hs ▸ .cons (hhidden "this") (.cons (hhidden "super") hscopes), hfunction, hp.inClass⟩

theorem adds_openScope_bind (w : Walk) (x : String) : Adds [] True w (w.openScope.bind x true) :=
  (adds_bind w.openScope x true).of_eq rfl rfl rfl rfl

/-- The head of a class: its name is declared, and then its superclass is read. -/
theorem At.adds_openClass (h : At path w) (name : Lexeme) (superclass : Option VarRef) :
    Adds (VarRef.nodes (path.declare name.text) name superclass)
      (path.Admits [name.text] ∧ Legal (VarRef.nodes (path.declare name.text) name superclass)) w
      (w.openClass name superclass) := by
  let base : Walk := { w with inClass := .base }
  have hshows : path.Shows base.scopes := h.scopes
  have hbase := adds_introduce hshows name
  have hname : Adds [] (path.Admits [name.text]) w (base.introduce name) :=
    hbase.of_eq rfl rfl rfl rfl
  cases superclass with
  | none =>
    rw [openClass_none]
    exact (hname.trans (adds_openScope_bind _ "this")).congr (by simp [VarRef.nodes])
  | some ref =>
    -- Whether the class names itself is checked before the superclass is read.
    have hself : Adds [(path.declare name.text, .inherits name.text ref.name.text)]
        (name.text ≠ ref.name.text) (base.introduce name)
        (if ref.name.text = name.text then (base.introduce name).report ref.name .inheritFromItself
          else base.introduce name) := by
      split
      · next heq =>
        have hne := errors_report_ne (base.introduce name) ref.name .inheritFromItself
        exact ⟨⟨fun he => (hne he).elim, fun he => (he.2 heq.symm).elim⟩, fun he => (hne he).elim⟩
      · next hneq => exact ((Adds.refl _).cons rfl).congr (by simpa [eq_comm] using hneq)
    have hscopes : ∀ {w' : Walk}, w'.scopes = (base.introduce name).scopes →
        w'.scopes = Scopes.bind w.scopes name.text true :=
      fun hw => hw.trans (scopes_introduce base name)
    have hread : ∀ {w' : Walk}, w'.scopes = (base.introduce name).scopes →
        Adds [(path.declare name.text, .read ref.id ref.name.text)] True w'
          ({ w' with inClass := .derived }.readVariable ref.id ref.name) := by
      intro w' hw
      have hat : At (path.declare name.text) (w.introduce name) :=
        h.of_bind (passes_introduce w name) (scopes_introduce w name)
      have hsame : w'.scopes = (w.introduce name).scopes :=
        (hscopes hw).trans (scopes_introduce w name).symm
      have hshows : (path.declare name.text).Shows { w' with inClass := .derived }.scopes :=
        hsame ▸ hat.scopes
      have hr := adds_readVariable hshows ref.id ref.name
      have hr' : Adds _ _ w' _ := hr.of_eq rfl rfl rfl rfl
      refine hr'.congr ?_
      exact iff_true_intro ((isUndefined_eq_of_scopes hsame _).trans (hat.isDefined _))
    rw [openClass_some, classHead]
    refine ((((hname.trans hself).trans (hread ?_)).trans (adds_openScope_bind _ "super")).trans
      (adds_openScope_bind _ "this")).congr ?_
    · split <;> rfl
    · simp [VarRef.nodes, Node.Allowed]

/-- A `return` is gone through by the rules for it. -/
theorem adds_returnKeyword (h : Within path w) (keyword : Lexeme) (hasValue : Bool) :
    Adds [(path, .ret hasValue)] ((Node.ret hasValue).Allowed path) w
      (w.returnKeyword keyword hasValue) := by
  have hbroken : ∀ {w' : Walk} {cause : ResolveError.Cause},
      Passes [] (w.report keyword cause) w' → w'.errors ≠ #[] :=
    fun hp he => errors_report_ne w keyword _ (hp.errors_eq he)
  rw [Node.Allowed, ← h.function, returnKeyword]
  by_cases hf : w.function = .none
  · -- There is an error, whether there is a value or not.
    have hne : ∀ {w' : Walk}, Passes [] (w.report keyword .returnAtTop) w' →
        Adds [(path, .ret hasValue)]
          (w.function ≠ .none ∧ (hasValue = true → w.function ≠ .initializer))
          w w' :=
      fun hp => ⟨⟨fun he => (hbroken hp he).elim, fun he => (he.2.1 hf).elim⟩,
        fun he => (hbroken hp he).elim⟩
    simp only [if_pos hf]
    split
    · exact hne (passes_report _ _ _)
    · exact hne (.refl _ _)
  · simp only [if_neg hf]
    split
    · next hi =>
      have hne := hbroken (.refl [] (w.report keyword .returnFromInitializer))
      exact ⟨⟨fun he => (hne he).elim, fun he => (he.2.2 hi.1 hi.2).elim⟩, fun he => (hne he).elim⟩
    · next hi => exact ((Adds.refl w).cons rfl).congr (by simpa [hf] using hi)

mutual

/-- A statement is gone through by the rules for its nodes, if its name can be declared. -/
theorem adds_stmt : {path : Path} → (w : Walk) → (stmt : Stmt) → stmt.Regular → At path w →
    Adds (stmt.nodes path) (Legal (stmt.nodes path) ∧ path.Admits (Stmt.declared [stmt]))
      w (w.stmt stmt)
  | path, w, .expression e, hreg, h =>
    (h.adds_expr hreg).congr (and_iff_left (admits_declared_of_none rfl)).symm
  | path, w, .print e, hreg, h =>
    (h.adds_expr hreg).congr (and_iff_left (admits_declared_of_none rfl)).symm
  | path, w, .var name initial, hreg, h => adds_var h hreg.2
  | path, w, .block body, hreg, h => by
    have hbody := adds_stmts w.openScope body hreg h.toWithin.openScope
    have hclose : Adds _ _ w (w.stmt (.block body)) := hbody.of_eq rfl rfl rfl rfl
    have hscope : Adds ((path, .scope (Stmt.declared body)) :: _) _ w _ := hclose.cons rfl
    refine hscope.congr ?_
    rw [Stmt.nodes, legal_cons, and_iff_left (admits_declared_of_none rfl),
      Path.admits_block, and_comm]
    rfl
  | path, w, .branch condition yes none, hreg, h => by
    have hyes := adds_stmt (w.expr condition) yes hreg.2.1.1 (h.expr condition)
    have hboth := (h.adds_expr hreg.1).trans hyes
    rw [Stmt.nodes, Stmt.nodesOption, List.append_nil, legal_append]
    refine hboth.congr ?_
    rw [and_iff_left (admits_declared_of_none hreg.2.1.2),
      and_iff_left (admits_declared_of_none rfl)]
  | path, w, .branch condition yes (some no), hreg, h => by
    have hyes := adds_stmt (w.expr condition) yes hreg.2.1.1 (h.expr condition)
    have hno := adds_stmt ((w.expr condition).stmt yes) no hreg.2.2.1
      ((h.expr condition).stmt_of_none hreg.2.1.1 hreg.2.1.2)
    have hall := ((h.adds_expr hreg.1).trans hyes).trans hno
    rw [Stmt.nodes, Stmt.nodesOption, legal_append, legal_append]
    refine hall.congr ?_
    rw [and_iff_left (admits_declared_of_none hreg.2.1.2),
      and_iff_left (admits_declared_of_none hreg.2.2.2), and_iff_left (admits_declared_of_none rfl)]
  | path, w, .loop condition body, hreg, h => by
    have hbody := adds_stmt (w.expr condition) body hreg.2.1 (h.expr condition)
    have hboth := (h.adds_expr hreg.1).trans hbody
    rw [Stmt.nodes, legal_append]
    refine hboth.congr ?_
    rw [and_iff_left (admits_declared_of_none hreg.2.2), and_iff_left (admits_declared_of_none rfl)]
  | path, w, .function decl, hreg, h => by
    have hname := h.of_bind (passes_introduce w decl.name) (scopes_introduce w decl.name)
    have hbody := adds_functionBody (w.introduce decl.name) .function decl hreg.2 hname.toWithin
    exact ((adds_introduce h.scopes decl.name).trans hbody).congr and_comm
  | path, w, .ret keyword value, hreg, h => by
    have hvalue := adds_expr? hreg ((h.of_scopes (passes_returnKeyword w keyword value.isSome)
      (scopes_returnKeyword w keyword value.isSome)).toWithin)
    have hat := h.of_scopes (passes_returnKeyword w keyword value.isSome)
      (scopes_returnKeyword w keyword value.isSome)
    refine ((adds_returnKeyword h.toWithin keyword value.isSome).trans hvalue).congr ?_
    rw [and_iff_left (hat.readable _), and_iff_left (admits_declared_of_none rfl),
      Stmt.nodes, legal_cons]
  | path, w, .classDecl name superclass methods, hreg, h => by
    have hhead := h.adds_openClass name superclass
    have hmethods := adds_methods (w.openClass name superclass) methods hreg.2.2
      (h.openClass name superclass)
    rw [Stmt.nodes, legal_append]
    refine ((hhead.trans hmethods).of_eq rfl rfl ?_ ?_).congr ?_
    · cases superclass <;> rfl
    · cases superclass <;> rfl
    · change (path.Admits [name.text] ∧ _) ∧ _ ↔ _ ∧ path.Admits [name.text]
      tauto

theorem adds_stmts : {path : Path} → (w : Walk) → (stmts : List Stmt) → Stmt.AllRegular stmts →
    At path w →
    Adds (Stmt.nodesAll path stmts)
      (Legal (Stmt.nodesAll path stmts) ∧ path.Admits (Stmt.declared stmts)) w (w.stmts stmts)
  | path, w, [], _, _ => (Adds.refl w).congr (by simp [Stmt.nodesAll, Stmt.declared])
  | path, w, stmt :: rest, hreg, h => by
    have hrest := adds_stmts (w.stmt stmt) rest hreg.2 (h.stmt hreg.1)
    refine ((adds_stmt w stmt hreg.1 h).trans hrest).congr ?_
    rw [Stmt.nodesAll, legal_append, admits_declared_cons h.isOpen stmt rest]
    exact and_and_and_comm

theorem adds_functionBody : {path : Path} → (w : Walk) → (kind : FunctionScope) →
    (decl : FunctionDecl Stmt) → Stmt.DeclRegular decl → Within path w →
    Adds (Stmt.nodesDecl path kind decl) (Legal (Stmt.nodesDecl path kind decl)) w
      (w.functionBody kind decl)
  | path, w, kind, ⟨name, params, body⟩, hreg, h => by
    have hparams := adds_introduceAll (h.openFunction kind).scopes trivial params
    have hbody := adds_stmts _ body hreg.2 (h.parameters kind params)
    have hclose : Adds (Stmt.nodesAll (.function kind (params.map Lexeme.text) :: path) body) _ w
        (w.functionBody kind ⟨name, params, body⟩) := (hparams.trans hbody).of_eq rfl rfl rfl rfl
    refine (hclose.cons rfl).congr ?_
    rw [Stmt.nodesDecl, legal_cons, Path.admits_function, Path.admits_function, Node.Allowed,
      List.nodup_append]
    simp only [List.not_mem_nil, not_false_eq_true, implies_true, and_true]
    grind

theorem adds_methods : {path : Path} → (w : Walk) → (decls : List (FunctionDecl Stmt)) →
    Stmt.DeclsRegular decls → Within path w →
    Adds (Stmt.nodesDecls path decls) (Legal (Stmt.nodesDecls path decls)) w (w.methods decls)
  | path, w, [], _, _ => (Adds.refl w).congr (by simp [Stmt.nodesDecls])
  | path, w, decl :: rest, hreg, h => by
    have hrest := adds_methods (w.functionBody (methodScope decl.name) decl) rest hreg.2
      (h.of_scopes (passes_functionBody w _ decl) (scopes_functionBody w _ decl hreg.1))
    rw [Stmt.nodesDecls, legal_append]
    exact (adds_functionBody w (methodScope decl.name) decl hreg.1 h).trans hrest

end

end Walk

/-! ### Programs -/

theorem Node.referring_append (nodes nodes' : List (Path × Node)) :
    Node.referring (nodes ++ nodes') = Node.referring nodes ++ Node.referring nodes' :=
  List.filterMap_append

theorem Node.referring_all_append (path : Path) (ns ns' : List Node) :
    Node.referring (path.all (ns ++ ns')) =
      Node.referring (path.all ns) ++ Node.referring (path.all ns') := by
  rw [Path.all_append, referring_append]

mutual

/-- Only expressions refer to names, each of them once. -/
theorem Expr.referring_sublist (path : Path) : (e : Expr) →
    (Node.referring (path.all e.nodes)).Sublist e.ids
  | .literal _ _ => List.nil_sublist _
  | .unary _ _ _ right => (right.referring_sublist path).trans (List.sublist_append_left _ _)
  | .binary _ _ _ left right => by
    rw [nodes, Node.referring_all_append]
    exact ((left.referring_sublist path).append (right.referring_sublist path)).trans
      (List.sublist_append_left _ _)
  | .logical _ _ _ left right => by
    rw [nodes, Node.referring_all_append]
    exact ((left.referring_sublist path).append (right.referring_sublist path)).trans
      (List.sublist_append_left _ _)
  | .grouping _ inner => (inner.referring_sublist path).trans (List.sublist_append_left _ _)
  | .var _ _ => .refl _
  | .assign id name value => by
    rw [nodes, Node.referring_all_append]
    exact (value.referring_sublist path).append (.refl [id])
  | .call _ callee _ arguments => by
    rw [nodes, Node.referring_all_append]
    exact ((callee.referring_sublist path).append (referringAll_sublist path arguments)).trans
      (List.sublist_append_left _ _)
  | .get _ object _ => (object.referring_sublist path).trans (List.sublist_append_left _ _)
  | .set _ object _ value => by
    rw [nodes, Node.referring_all_append]
    exact ((object.referring_sublist path).append (value.referring_sublist path)).trans
      (List.sublist_append_left _ _)
  | .this _ _ => .refl _
  | .super _ _ _ => .refl _

theorem Expr.referringAll_sublist (path : Path) : (es : List Expr) →
    (Node.referring (path.all (nodesAll es))).Sublist (idsAll es)
  | [] => .slnil
  | e :: rest => by
    rw [nodesAll, Node.referring_all_append]
    exact (e.referring_sublist path).append (referringAll_sublist path rest)

end

theorem Expr.referringOption_sublist (path : Path) (e : Option Expr) :
    (Node.referring (path.all (nodesOption e))).Sublist (idsOption e) := by
  cases e with
  | none => exact .slnil
  | some e => exact e.referring_sublist path

mutual

theorem Stmt.referring_sublist : (path : Path) → (stmt : Stmt) →
    (Node.referring (stmt.nodes path)).Sublist stmt.ids
  | path, .expression e => e.referring_sublist path
  | path, .print e => e.referring_sublist path
  | path, .var name initial => by
    have h := Expr.referringOption_sublist (path.declare name.text) initial
    cases initial <;> exact h
  | path, .block body => Stmt.referringAll_sublist (.block [] :: path) body
  | path, .branch condition yes no => by
    rw [nodes, Node.referring_append, Node.referring_append]
    exact ((condition.referring_sublist path).append (yes.referring_sublist path)).append
      (Stmt.referringOption_sublist path no)
  | path, .loop condition body => by
    rw [nodes, Node.referring_append]
    exact (condition.referring_sublist path).append (body.referring_sublist path)
  | path, .function decl => Stmt.referringDecl_sublist (path.declare decl.name.text) .function decl
  | path, .ret _ value => Expr.referringOption_sublist path value
  | path, .classDecl name superclass methods => by
    rw [nodes, Node.referring_append]
    refine .append ?_ (Stmt.referringDecls_sublist _ methods)
    cases superclass with
    | none => exact .slnil
    | some ref => exact .refl [ref.id]

theorem Stmt.referringAll_sublist : (path : Path) → (stmts : List Stmt) →
    (Node.referring (nodesAll path stmts)).Sublist (idsAll stmts)
  | _, [] => .slnil
  | path, stmt :: rest => by
    rw [nodesAll, Node.referring_append]
    exact (stmt.referring_sublist path).append (Stmt.referringAll_sublist _ rest)

theorem Stmt.referringOption_sublist : (path : Path) → (stmt : Option Stmt) →
    (Node.referring (nodesOption path stmt)).Sublist (idsOption stmt)
  | _, none => .slnil
  | path, some stmt => stmt.referring_sublist path

theorem Stmt.referringDecl_sublist : (path : Path) → (kind : FunctionScope) →
    (decl : FunctionDecl Stmt) → (Node.referring (nodesDecl path kind decl)).Sublist (idsDecl decl)
  | path, kind, ⟨_, params, body⟩ =>
    Stmt.referringAll_sublist (.function kind (params.map Lexeme.text) :: path) body

theorem Stmt.referringDecls_sublist : (path : Path) → (decls : List (FunctionDecl Stmt)) →
    (Node.referring (nodesDecls path decls)).Sublist (idsDecls decls)
  | _, [] => .slnil
  | path, decl :: rest => by
    rw [nodesDecls, Node.referring_append]
    exact (Stmt.referringDecl_sublist path _ decl).append (Stmt.referringDecls_sublist path rest)

end

theorem Walk.at_start : Walk.At [] .start where
  scopes := .nil
  function := rfl
  inClass := rfl
  isOpen := trivial
  isDefined _ := rfl

/-- The walk through a program, from the start. -/
theorem Program.adds_start {p : Program} (hreg : Stmt.AllRegular p) :
    Walk.Adds p.nodes p.Lawful .start (Walk.start.stmts p) := by
  refine (Walk.adds_stmts .start p hreg Walk.at_start).congr ?_
  rw [p.lawful_iff]
  exact and_iff_left (by simp [Path.Admits, Path.scopes])

/-- The static rules and lexical scoping are what resolution computes. A program that was read from
    a source is accepted if and only if it keeps the rules. Then the expression `id` has a distance
    if and only if it refers to a name that is declared in a scope around it, and it is the distance
    of the innermost such scope. -/
theorem Program.resolve_iff_lawful {source : List UInt8} {n : Nat} {p : Program} {cursor : Cursor}
    (hp : Program.parse (.ofTokens (Token.scanAll source).1 n) = (.ok p, cursor)) :
    ((∃ distances, p.resolve = .ok distances) ↔ p.Lawful) ∧
    ∀ distances, p.resolve = .ok distances → ∀ id distance, distances[id]? = some distance ↔
      ∃ path node x, (path, node) ∈ p.nodes ∧ node.reference? = some (id, x) ∧
        path.Binds x distance := by
  have hadds := Program.adds_start (Program.regular_of_parse (congrArg Prod.fst hp))
  have herrors : (Walk.start.stmts p).errors = #[] ↔ p.Lawful :=
    hadds.errors.trans (and_iff_right rfl)
  constructor
  · rw [← herrors]
    constructor
    · rintro ⟨distances, h⟩
      exact (Walk.result_eq_ok.1 h).1
    · exact fun h => ⟨_, Walk.result_eq_ok.2 ⟨h, rfl⟩⟩
  · intro distances h id distance
    obtain ⟨he, rfl⟩ := Walk.result_eq_ok.1 h
    have hn : (Node.referring p.nodes).Nodup :=
      (Program.numbered_of_parse hp).nodup.sublist (Stmt.referringAll_sublist [] p)
    have hempty : ∀ id, Walk.start.distances[id]? = none := fun _ => Std.ExtTreeMap.getElem?_empty
    rw [hadds.distances he, Path.getElem?_foldl_record hn fun id _ => hempty id, hempty]
    exact or_iff_right (Option.some_ne_none _).symm

/-- A variable is read in a block inside the one that declares it. -/
theorem Program.resolve_iff_lawful_nested :
    ∃ p : Program, p.Lawful ∧ ∃ distances, p.resolve = .ok distances ∧ distances[0]? = some 1 := by
  have hp : (Program.parse (.ofTokens
      (Token.scanAll "\x7b var a; \x7b print a; \x7d \x7d".toUTF8.toList).1 0)).1 = .ok
      [.block [.var ⟨"a", 1⟩ none, .block [.print (.var 0 ⟨"a", 1⟩)]]] := by
    cbv
  obtain ⟨hlawful, htable⟩ := Program.resolve_iff_lawful (Prod.ext hp rfl)
  have hr : Program.resolve [.block [.var ⟨"a", 1⟩ none, .block [.print (.var 0 ⟨"a", 1⟩)]]] =
      .ok (Std.ExtTreeMap.insert ∅ 0 1) := by
    rfl
  refine ⟨_, hlawful.1 ⟨_, hr⟩, _, hr, (htable _ hr 0 1).2 ?_⟩
  refine ⟨[.block [], .block ["a"]], .read 0 "a", "a", ?_, rfl, ⟨["a"], rfl, by simp⟩, ?_⟩
  · simp [Program.nodes, Stmt.nodesAll, Stmt.nodes, Stmt.pathAfter, Stmt.declares?,
      Path.declare, Path.all, Expr.nodes]
  · rintro k hk names hnames
    obtain rfl : k = 0 := by omega
    cases hnames
    simp

end Lox
