import Mathlib
import Lox.Proofs.Frames
import Lox.Proofs.Resolving

/-!
# Resolved programs run without faults

A machine is *sound* (`Machine.Sound`) if what it does next is resolved at some point of a program
whose scopes the current frame fits, and each entry of the stack is sound at the point to which it
leads back. Steps keep a machine sound (`Machine.Sound.step`), and a sound machine never ends with a
fault or with a `return` that no function takes (`Machine.Sound.outcome`).

The point after an entry of the stack can be another one than before it: a block and a body lead
back to the point around them, and a declaration to a point where its name is defined
(`Pending.Sound`).
-/

namespace Lox

/-- A point of a program. -/
structure Point where
  /-- The function body around it. -/
  within : FunctionScope
  /-- The scopes around it. -/
  scopes : Scopes

/-- An entry of the stack is sound if it is reached at one point and leads to the next one. -/
def Pending.Sound (T : Table) (s : Store) (here next : Point) : Pending → Prop
  | .unary _ _ => next = here
  | .binaryLeft _ _ right => next = here ∧ right.Resolved T here.scopes
  | .binaryRight _ _ left => next = here ∧ left.Sound T s
  | .logical _ right => next = here ∧ right.Resolved T here.scopes
  | .assign id name => next = here ∧ name.IsName ∧ T.Refers here.scopes id name.text
  | .callee _ arguments => next = here ∧ Expr.AllResolved T here.scopes arguments
  | .argument called _ before rest =>
    next = here ∧ called.Sound T s ∧ (∀ v ∈ before, v.Sound T s) ∧
      Expr.AllResolved T here.scopes rest
  | .get _ => next = here
  | .setObject _ value => next = here ∧ value.Resolved T here.scopes
  | .setValue _ _ => next = here
  | .print => next = here
  | .define name => name.IsName ∧ next = ⟨here.within, here.scopes.bind name.text true⟩
  | .branch yes no =>
    next = here ∧ (yes.Resolved T here.within here.scopes ∧ yes.declares? = none) ∧
      Stmt.OptionResolved T here.within here.scopes no
  | .loopTest condition body =>
    next = here ∧ (Stmt.loop condition body).Resolved T here.within here.scopes
  | .loopBody condition body =>
    next = here ∧ (Stmt.loop condition body).Resolved T here.within here.scopes
  | .sequence rest =>
    Stmt.AllResolved T here.within here.scopes rest ∧
      next = ⟨here.within, Stmt.scopesAfterAll rest here.scopes⟩
  | .returns => next = here ∧ here.within ≠ .none
  | .leaveBlock frame => next.within = here.within ∧ s.Fits frame next.scopes
  | .leaveBody closure frame =>
    (closure.isInitializer → (s.frame closure.frame).bindings.contains "this") ∧
      s.Fits frame next.scopes
  | .construct object => next = here ∧ object.Sound T s
  | .leaveCall => next = here

/-- A stack that is reached at some point. Outside all functions no `return` reaches its end. -/
inductive StackSound (T : Table) (s : Store) : Point → List Pending → Prop
  | nil {here : Point} : here.within = .none → StackSound T s here []
  | cons {here next : Point} {pending : Pending} {stack : List Pending} :
      pending.Sound T s here next → StackSound T s next stack →
      StackSound T s here (pending :: stack)

/-- What is done next is sound, and so is the stack for its result. -/
def Control.Sound (T : Table) (stack : List Pending) (st : State) : Control → Prop
  | .eval e =>
    ∃ here : Point, st.store.Fits st.frame here.scopes ∧ e.Resolved T here.scopes ∧
      StackSound T st.store here stack
  | .exec stmt =>
    ∃ here : Point, st.store.Fits st.frame here.scopes ∧ stmt.Resolved T here.within here.scopes ∧
      StackSound T st.store ⟨here.within, stmt.scopesAfter here.scopes⟩ stack
  | .execAll stmts =>
    ∃ here : Point, st.store.Fits st.frame here.scopes ∧
      Stmt.AllResolved T here.within here.scopes stmts ∧
      StackSound T st.store ⟨here.within, Stmt.scopesAfterAll stmts here.scopes⟩ stack
  | .deliver v =>
    ∃ here : Point, st.store.Fits st.frame here.scopes ∧ v.Sound T st.store ∧
      StackSound T st.store here stack
  | .unwind (.returns v) =>
    ∃ here : Point, here.within ≠ .none ∧ v.Sound T st.store ∧ StackSound T st.store here stack
  | .unwind (.fails _) => ∃ here : Point, StackSound T st.store here stack
  | .done (.value _) => True
  | .done (.failed _) => True
  | .done (.returned _) => False
  | .done (.fault _) => False

/-- A machine with which nothing can go wrong. -/
structure Machine.Sound (T : Table) (m : Machine) : Prop where
  store : m.state.store.Sound T
  frame : m.state.frame < m.state.store.frames.size
  control : m.control.Sound T m.stack m.state

variable {T : Table} {s s' : Store} {here next : Point}

theorem Pending.Sound.mono (hs : s.Grows s') {pending : Pending}
    (h : pending.Sound T s here next) : pending.Sound T s' here next := by
  cases pending with
  | binaryRight op line left => exact ⟨h.1, h.2.mono (.refl T) hs⟩
  | argument callee line before rest =>
    exact ⟨h.1, h.2.1.mono (.refl T) hs, fun v hv => (h.2.2.1 v hv).mono (.refl T) hs, h.2.2.2⟩
  | leaveBlock frame => exact ⟨h.1, h.2.mono hs⟩
  | leaveBody closure frame => exact ⟨fun hi => hs.contains _ _ (h.1 hi), h.2.mono hs⟩
  | construct object => exact ⟨h.1, h.2.mono (.refl T) hs⟩
  | _ => exact h

theorem StackSound.mono (hs : s.Grows s') {stack : List Pending} (h : StackSound T s here stack) :
    StackSound T s' here stack := by
  induction h with
  | nil hw => exact .nil hw
  | cons hp _ ih => exact .cons (hp.mono hs) ih

/-! ### Variables -/

/-- A result that is sound: a value, or an error of the program. -/
def SoundResult (T : Table) (s : Store) : Except Stop Value → Prop
  | .ok v => v.Sound T s
  | .error (.error _) => True
  | .error (.fault _) => False

theorem Store.Sound.find? (h : s.Sound T) {f : Nat} {name : String} {v : Value}
    (hv : s.find? f name = some v) : v.Sound T s := by
  obtain ⟨g, -, hg⟩ := Option.bind_eq_some_iff.1 hv
  exact (h.bindings g name v hg).1

theorem ok_of_mapError {α : Type} {result : Except Fault α} {a : α}
    (h : result.mapError Stop.fault = .ok a) : result = .ok a := by
  cases result with
  | error fault => cases h
  | ok u =>
    cases h
    rfl

variable {st : State} {id : Nat} {name : Lexeme}

/-- A variable is read at its distance or, without one, in the global frame. -/
theorem State.lookUp_eq_ok {distances : Distances} {v : Value}
    (h : st.lookUp distances id name = .ok v) :
    (∃ distance, st.store.getAt st.frame distance name.text = .ok v) ∨
      st.store.find? globalFrame name.text = some v := by
  rw [lookUp] at h
  split at h
  · next distance _ => exact .inl ⟨distance, ok_of_mapError h⟩
  · split at h
    · next u hu =>
      cases h
      exact .inr hu
    · cases h

/-- A variable that is resolved can be read, unless it is global and missing. -/
theorem State.soundResult_lookUp (hs : st.store.Sound T) {scopes : Scopes}
    (hf : st.store.Fits st.frame scopes) (hr : T.Reads scopes id name.text) :
    SoundResult T st.store (st.lookUp T.distances id name) := by
  rw [lookUp, hr.distance]
  cases hd : scopes.distance? name.text with
  | some distance =>
    obtain ⟨g, v, hv, hg⟩ := hf.getAt (hr.isDefined distance hd)
    simp only [hv]
    exact (hs.bindings g _ v hg).1
  | none =>
    dsimp only
    split
    · next v hv => exact hs.find? hv
    · trivial

/-- A variable that is resolved can be assigned to, unless it is global and missing. -/
theorem State.assignee_cases {scopes : Scopes} (hf : st.store.Fits st.frame scopes)
    (hr : T.Refers scopes id name.text) :
    (∃ f, st.assignee T.distances id name = .ok f) ∨
      ∃ e, st.assignee T.distances id name = .error (.error e) := by
  rw [assignee, hr.distance]
  cases hd : scopes.distance? name.text with
  | some distance =>
    obtain ⟨g, hg⟩ := hf.ancestor hd
    exact .inl ⟨g, by simp only [hg]; rfl⟩
  | none =>
    dsimp only
    split
    · next f _ => exact .inl ⟨f, rfl⟩
    · exact .inr ⟨_, rfl⟩

namespace Machine

/-! ### Results -/

variable {st : State} {stack : List Pending}

variable {v : Value} {method closure : Closure} {c : Class} {cfg : Config} {params : List Lexeme}
    {arguments : List Value} {b : Bindings Value} {name : String} {scopes : Scopes}
    {decls : List (FunctionDecl Stmt)} {superclass : Option Class} {ref : Option VarRef}
    {pending : Pending}

theorem Sound.deliver (hs : st.store.Sound T) (hf : st.store.Fits st.frame here.scopes)
    (hk : StackSound T st.store here stack) (hv : v.Sound T st.store) :
    (Machine.deliver v stack st).Sound T :=
  ⟨hs, hf.lt_size, here, hf, hv, hk⟩

theorem Sound.fail (hs : st.store.Sound T) (hf : st.store.Fits st.frame here.scopes)
    (hk : StackSound T st.store here stack) (line : Nat) (cause : RuntimeError.Cause) :
    (Machine.fail line cause stack st).Sound T :=
  ⟨hs, hf.lt_size, here, hk⟩

theorem Sound.finish (hs : st.store.Sound T) (hf : st.store.Fits st.frame here.scopes)
    (hk : StackSound T st.store here stack) {result : Except Stop Value}
    (hr : SoundResult T st.store result) : (Machine.finish result stack st).Sound T := by
  match result, hr with
  | .ok v, hr => exact .deliver hs hf hk hr
  | .error (.error e), _ => exact ⟨hs, hf.lt_size, here, hk⟩

/-! ### Methods -/

/-- What a run needs to know beyond the machine: the distances are those of the table, and native
    functions yield values with which nothing can go wrong. -/
structure Serves (cfg : Config) (T : Table) : Prop where
  distances : cfg.distances = T.distances
  natives : ∀ f time arguments v s, cfg.natives f time arguments = .ok v → v.Sound T s

/-- A method that is bound to an instance can be called. -/
theorem sound_bind (hs : st.store.Sound T) (hm : method.SoundMethod T st.store) {i : Nat}
    (hc : c.Sound T st.store) :
    (st.bind method (.instance i c)).2.store.Sound T ∧
      st.store.Grows (st.bind method (.instance i c)).2.store ∧
      (st.bind method (.instance i c)).1.Sound T (st.bind method (.instance i c)).2.store := by
  have hg := Store.Grows.newFrame st.store (Bindings.insert "this" (.instance i c) ∅) method.frame
  obtain ⟨within, scopes, hw, hf, hr⟩ := hm
  refine ⟨hs.newFrame hf.lt_size fun name v hv => ?_, hg, fun _ => ?_, ?_⟩
  · obtain ⟨rfl, rfl⟩ := Bindings.get?_insert_empty hv
    exact ⟨hc, fun _ => ⟨i, c, rfl⟩, fun hsuper => absurd hsuper (by decide)⟩
  · change ((Store.newFrame _ _ _).2.frame st.store.frames.size).bindings.contains _
    rw [Store.frame_newFrame, if_pos rfl, Bindings.contains_insert]
    rfl
  · refine ⟨within, Scope.this :: scopes, hw, hf.newFrame fun name hn => ?_, hr⟩
    rw [Scope.this, Bindings.get?_insert] at hn
    split at hn
    · next hname => simp [hname, Bindings.contains_insert]
    · cases hn

theorem sound_bound (hs : st.store.Sound T) (hm : method.SoundMethod T st.store) {i : Nat}
    (hc : c.Sound T st.store) :
    (st.bound method (.instance i c)).2.store.Sound T ∧
      st.store.Grows (st.bound method (.instance i c)).2.store ∧
      (st.bound method (.instance i c)).1.Sound T (st.bound method (.instance i c)).2.store := by
  obtain ⟨hs', hg, hv⟩ := sound_bind hs hm hc
  exact ⟨hs'.newIdentity, hg.trans (.newIdentity _), hv.mono (.refl T) (.newIdentity _)⟩

theorem Sound.property (hs : st.store.Sound T) (hf : st.store.Fits st.frame here.scopes)
    (hk : StackSound T st.store here stack) (id : Nat) (hc : c.Sound T st.store) (name : Lexeme) :
    (Machine.property id c name stack st).Sound T := by
  rw [Machine.property]
  split
  · next v hv => exact .deliver hs hf hk (hs.fields id _ v hv)
  · split
    · next method hm =>
      obtain ⟨hs', hg, hv⟩ := sound_bound (i := id) hs (hc _ _ hm) hc
      exact .deliver hs' (hf.mono hg) (hk.mono hg) hv
    · exact .fail hs hf hk _ _

/-- `super` is bound to a class, and `this` to an instance right inside. -/
theorem Sound.superMethod (hcfg : Serves cfg T) (hs : st.store.Sound T)
    (hf : st.store.Fits st.frame here.scopes) (hk : StackSound T st.store here stack) {id : Nat}
    {keyword : Lexeme} (method : Lexeme)
    (hr : (Expr.super id keyword method).Resolved T here.scopes) :
    (Machine.superMethod cfg id method stack st).Sound T := by
  obtain ⟨-, hread, distance, hd, hthis⟩ := hr
  obtain ⟨g, v, hv, hg⟩ := hf.getAt (hread.isDefined _ hd)
  obtain ⟨g', v', hv', hg'⟩ := hf.getAt hthis
  obtain ⟨hsound, hsuits⟩ := hs.bindings g _ v hg
  obtain ⟨hsound', hsuits'⟩ := hs.bindings g' _ v' hg'
  obtain ⟨c, rfl⟩ := hsuits.2 rfl
  obtain ⟨i, of, rfl⟩ := hsuits'.1 rfl
  rw [Machine.superMethod, hcfg.distances, hread.distance, hd]
  simp only [hv, hv']
  split
  · next found hm =>
    obtain ⟨hs', hgrows, hbound⟩ := sound_bound (i := i) hs (hsound _ _ hm) hsound'
    exact .deliver hs' (hf.mono hgrows) (hk.mono hgrows) hbound
  · exact .fail hs hf hk _ _

/-! ### Calls -/

/-- The bindings of parameters to arguments. -/
theorem get?_zip_foldl
    (h : ((params.zip arguments).foldl
      (fun (b : Bindings Value) (param, v) => b.insert param.text v) b).get? name = some v) :
    (v ∈ arguments ∧ ∃ param ∈ params, param.text = name) ∨ b.get? name = some v := by
  induction params generalizing arguments b with
  | nil => exact .inr h
  | cons param rest ih =>
    cases arguments with
    | nil => exact .inr h
    | cons argument arguments =>
      rcases ih h with ⟨hv, param', hp, hn⟩ | h
      · exact .inl ⟨List.mem_cons_of_mem _ hv, param', List.mem_cons_of_mem _ hp, hn⟩
      · rw [Bindings.get?_insert] at h
        split at h
        · next hn =>
          cases h
          exact .inl ⟨List.mem_cons_self .., param, List.mem_cons_self .., hn.symm⟩
        · exact .inr h

/-- If there are enough arguments, each parameter is bound. -/
theorem contains_zip_foldl (hl : arguments.length = params.length)
    (h : name ∈ params.map Lexeme.text ∨ b.contains name) :
    ((params.zip arguments).foldl
      (fun (b : Bindings Value) (param, v) => b.insert param.text v) b).contains name := by
  induction params generalizing arguments b with
  | nil => simpa using h
  | cons param rest ih =>
    cases arguments with
    | nil => cases hl
    | cons argument arguments =>
      refine ih (Nat.succ.inj hl) ?_
      rw [Bindings.contains_insert]
      rcases h with h | h
      · rcases List.mem_cons.1 h with rfl | h
        · exact .inr (by simp)
        · exact .inl h
      · exact .inr (by simp [h])

theorem Sound.enterBody (hs : st.store.Sound T) (hf : st.store.Fits st.frame here.scopes)
    (hk : StackSound T st.store here stack) (hc : closure.Sound T st.store)
    (ha : ∀ v ∈ arguments, v.Sound T st.store) (hl : arguments.length = closure.arity) :
    (Machine.enterBody closure arguments stack st).Sound T := by
  obtain ⟨hthis, within, scopes, hw, hfits, hr⟩ := hc
  obtain ⟨⟨name, params, body⟩, frame, isInitializer⟩ := closure
  have hgrows := Store.Grows.newFrame st.store ((params.zip arguments).foldl
    (fun (b : Bindings Value) (param, v) => b.insert param.text v) ∅) frame
  refine ⟨hs.newFrame hfits.lt_size fun x v hv => ?_, Store.lt_size_newFrame _ _ _,
    ⟨within, Scope.ofNames params :: scopes⟩, hfits.newFrame fun x hx => ?_, hr.2,
    .cons ⟨fun hi => hgrows.contains _ _ (hthis hi), hf.mono hgrows⟩ (hk.mono hgrows)⟩
  · rcases get?_zip_foldl hv with ⟨hmem, param, hp, rfl⟩ | hnone
    · exact ⟨ha v hmem, Value.suits_of_isName (hr.1 param hp) v⟩
    · cases hnone
  · rw [Scope.get?_ofNames] at hx
    split at hx
    · next hmem => exact contains_zip_foldl hl (.inl hmem)
    · cases hx

theorem Sound.instantiate (hs : st.store.Sound T) (hf : st.store.Fits st.frame here.scopes)
    (hk : StackSound T st.store here stack) (hc : c.Sound T st.store)
    (ha : ∀ v ∈ arguments, v.Sound T st.store) (hl : arguments.length = (Callable.class c).arity) :
    (Machine.instantiate c arguments stack st).Sound T := by
  have hgrows := Store.Grows.newInstance st.store
  have hs' : st.newInstance.2.store.Sound T := hs.newInstance
  have hc' : c.Sound T st.newInstance.2.store := hc.mono (.refl T) hgrows
  rw [Machine.instantiate]
  dsimp only
  cases hm : c.findMethod initializerName with
  | none => exact .deliver hs' (hf.mono hgrows) (hk.mono hgrows) hc'
  | some method =>
    obtain ⟨hs'', hgrows', hclosure⟩ := sound_bind (i := st.newInstance.1) hs' (hc' _ _ hm) hc'
    have hg := hgrows.trans hgrows'
    refine .enterBody hs'' (hf.mono hg) ?_ hclosure (fun v hv => (ha v hv).mono (.refl T) hg) ?_
    · exact .cons ⟨rfl, hc.mono (.refl T) hg⟩ (hk.mono hg)
    · rw [hl, Callable.arity, hm]
      rfl

theorem Sound.enter (hcfg : Serves cfg T) (hs : st.store.Sound T)
    (hf : st.store.Fits st.frame here.scopes) (hk : StackSound T st.store here stack) {c : Callable}
    (hc : (Value.callable c).Sound T st.store) (line : Nat)
    (ha : ∀ v ∈ arguments, v.Sound T st.store) (hl : arguments.length = c.arity) :
    (Machine.enter cfg c line arguments stack st).Sound T := by
  cases c with
  | native f =>
    have hs' : st.readClock.2.store.Sound T := hs
    rw [Machine.enter, Machine.callNative]
    dsimp only
    split
    · next v hv => exact .deliver hs' hf hk (hcfg.natives _ _ _ v _ hv)
    · exact .fail hs' hf hk _ _
  | function identity closure => exact .enterBody hs hf hk hc ha hl
  | «class» c => exact .instantiate hs hf hk hc ha hl

theorem Sound.call (hcfg : Serves cfg T) (hs : st.store.Sound T)
    (hf : st.store.Fits st.frame here.scopes) (hk : StackSound T st.store here stack)
    {callee : Value} (hc : callee.Sound T st.store) (line : Nat)
    (ha : ∀ v ∈ arguments, v.Sound T st.store) :
    (Machine.call cfg callee line arguments stack st).Sound T := by
  cases callee with
  | callable c =>
    have hs' : st.startCall.store.Sound T := hs
    have hk' : StackSound T st.startCall.store here (.leaveCall :: stack) := .cons rfl hk
    rw [Machine.call]
    split
    · exact .fail hs hf hk _ _
    · next hl =>
      split
      · exact .fail hs hf hk _ _
      · exact .enter hcfg hs' hf hk' hc line ha (not_not.1 hl)
  | _ => exact .fail hs hf hk _ _

theorem Sound.nextArgument (hcfg : Serves cfg T) (hs : st.store.Sound T)
    (hf : st.store.Fits st.frame here.scopes) (hk : StackSound T st.store here stack)
    {callee : Value} (hc : callee.Sound T st.store) (line : Nat) {before : List Value}
    (hb : ∀ v ∈ before, v.Sound T st.store) {rest : List Expr}
    (hr : Expr.AllResolved T here.scopes rest) :
    (Machine.nextArgument cfg callee line before rest stack st).Sound T := by
  cases rest with
  | nil => exact .call hcfg hs hf hk hc line fun v hv => hb v (List.mem_reverse.1 hv)
  | cons e rest => exact ⟨hs, hf.lt_size, here, hf, hr.1, .cons ⟨rfl, hc, hb, hr.2⟩ hk⟩

/-! ### Expressions and statements -/

theorem Sound.eval (hcfg : Serves cfg T) (hs : st.store.Sound T)
    (hf : st.store.Fits st.frame here.scopes) (hk : StackSound T st.store here stack) {e : Expr}
    (hr : e.Resolved T here.scopes) : (Machine.eval cfg stack st e).Sound T := by
  cases e with
  | literal id value =>
    refine .deliver hs hf hk ?_
    cases value <;> trivial
  | unary id op mark right => exact ⟨hs, hf.lt_size, here, hf, hr, .cons rfl hk⟩
  | binary id op mark left right => exact ⟨hs, hf.lt_size, here, hf, hr.1, .cons ⟨rfl, hr.2⟩ hk⟩
  | logical id op mark left right => exact ⟨hs, hf.lt_size, here, hf, hr.1, .cons ⟨rfl, hr.2⟩ hk⟩
  | grouping id inner => exact ⟨hs, hf.lt_size, here, hf, hr, hk⟩
  | var id name =>
    rw [Machine.eval, hcfg.distances]
    exact .finish hs hf hk (State.soundResult_lookUp hs hf hr.2)
  | assign id name value => exact ⟨hs, hf.lt_size, here, hf, hr.2, .cons ⟨rfl, hr.1⟩ hk⟩
  | call id callee paren arguments => exact ⟨hs, hf.lt_size, here, hf, hr.1, .cons ⟨rfl, hr.2⟩ hk⟩
  | get id object name => exact ⟨hs, hf.lt_size, here, hf, hr, .cons rfl hk⟩
  | set id object name value => exact ⟨hs, hf.lt_size, here, hf, hr.1, .cons ⟨rfl, hr.2⟩ hk⟩
  | this id keyword =>
    obtain ⟨hthis, hr, -⟩ := hr
    rw [Machine.eval, hcfg.distances]
    exact .finish hs hf hk (State.soundResult_lookUp hs hf (hthis ▸ hr))
  | super id keyword method => exact .superMethod hcfg hs hf hk method hr

theorem makeFunction_eq (decl : FunctionDecl Stmt) (st : State) :
    Machine.makeFunction decl st =
      { st with
        store := st.store.newIdentity.2.define st.frame decl.name.text
          (.callable (.function st.store.nextIdentity ⟨decl, st.frame, false⟩)) } := rfl

/-- A function is bound in the frame that it is made in, so it can call itself. -/
theorem sound_makeFunction (hs : st.store.Sound T) (hf : st.store.Fits st.frame scopes)
    {decl : FunctionDecl Stmt} (hn : decl.name.IsName)
    (hr : Stmt.DeclResolved T .function (scopes.bind decl.name.text true) decl) :
    (makeFunction decl st).store.Sound T ∧ st.store.Grows (makeFunction decl st).store ∧
      (makeFunction decl st).store.Fits st.frame (scopes.bind decl.name.text true) := by
  rw [makeFunction_eq]
  have hg := (Store.Grows.newIdentity st.store)
  have hfits := (hf.mono hg).define decl.name.text
    (.callable (.function st.store.nextIdentity ⟨decl, st.frame, false⟩))
  refine ⟨hs.newIdentity.define ?_ (Value.suits_of_isName hn _), hg.trans (.define _ _ _ _), hfits⟩
  exact ⟨nofun, .function, _, nofun, hfits, hr⟩

theorem get?_methodsIn {frame : Nat} (h : (methodsIn frame decls).get? name = some method) :
    ∃ decl ∈ decls, method = ⟨decl, frame, decl.name.text = initializerName⟩ := by
  have hgen : ∀ b : Bindings Closure,
      (decls.foldl (fun b decl =>
        b.insert decl.name.text ⟨decl, frame, decl.name.text = initializerName⟩) b).get? name =
          some method →
      (∃ decl ∈ decls, method = ⟨decl, frame, decl.name.text = initializerName⟩) ∨
        b.get? name = some method := by
    clear h
    induction decls with
    | nil => exact fun b h => .inr h
    | cons decl rest ih =>
      intro b h
      rcases ih _ h with ⟨decl', hd, hm⟩ | h
      · exact .inl ⟨decl', List.mem_cons_of_mem _ hd, hm⟩
      · rw [Bindings.get?_insert] at h
        split at h
        · exact .inl ⟨decl, List.mem_cons_self .., (Option.some.inj h).symm⟩
        · exact .inr h
  rcases hgen ∅ h with h | h
  · exact h
  · cases h

/-- A class is sound if its own methods and its superclass are. -/
theorem sound_class {identity : Nat} {methods : Bindings Closure}
    (hc : ∀ c ∈ superclass, c.Sound T s)
    (hm : ∀ x method, methods.get? x = some method → method.SoundMethod T s) :
    (Class.mk identity name superclass methods).Sound T s := by
  intro x method h
  rcases Class.findMethod_cases h with hx | ⟨c, rfl, hx⟩
  · exact hm x method hx
  · exact hc c rfl x method hx

theorem methodScope_ne_none (name : Lexeme) : Walk.methodScope name ≠ .none := by
  unfold Walk.methodScope
  split <;> nofun

/-- The methods of a class are made in a frame that fits the scopes around that of `this`. -/
theorem soundMethod_of_methodsIn {frame : Nat} (hf : s.Fits frame scopes)
    (hr : Stmt.MethodsResolved T (Scope.this :: scopes) decls) {x : String}
    (h : (methodsIn frame decls).get? x = some method) : method.SoundMethod T s := by
  obtain ⟨decl, hd, rfl⟩ := get?_methodsIn h
  exact ⟨_, scopes, methodScope_ne_none decl.name, hf, Stmt.methodsResolved_iff.1 hr decl hd⟩

/-- A class is bound to its name again once it is made. -/
theorem sound_makeClass (hs : st.store.Sound T) {name : Lexeme}
    (hf : st.store.Fits st.frame (scopes.bind name.text true)) (hn : name.IsName)
    (hsome : superclass.isSome = ref.isSome) (hc : ∀ c ∈ superclass, c.Sound T st.store)
    (hr : Stmt.MethodsResolved T (classScopes name ref scopes) decls) :
    (makeClass name superclass decls st).store.Sound T ∧
      st.store.Grows (makeClass name superclass decls st).store ∧
      (makeClass name superclass decls st).frame = st.frame := by
  cases superclass with
  | none =>
    cases ref with
    | some ref => cases hsome
    | none =>
      refine ⟨hs.newIdentity.define ?_ (Value.suits_of_isName hn _),
        (Store.Grows.newIdentity _).trans (.define _ _ _ _), rfl⟩
      refine Value.Sound.mono (.refl T) (.define _ _ _ _) ?_
      exact sound_class nofun fun x method =>
        soundMethod_of_methodsIn (hf.mono (.newIdentity _)) hr
  | some c =>
    cases ref with
    | none => cases hsome
    | some ref =>
      let b : Bindings Value := Bindings.insert "super" (.callable (.class c)) ∅
      have hg : st.store.Grows (st.store.newFrame b st.frame).2.newIdentity.2 :=
        (Store.Grows.newFrame st.store b st.frame).trans (.newIdentity _)
      have hs' : (st.store.newFrame b st.frame).2.Sound T := by
        refine hs.newFrame hf.lt_size fun x v hv => ?_
        obtain ⟨rfl, rfl⟩ := Bindings.get?_insert_empty hv
        exact ⟨hc c rfl, fun hthis => absurd hthis (by decide), fun _ => ⟨c, rfl⟩⟩
      have hf' : (st.store.newFrame b st.frame).2.Fits st.store.frames.size
          (Scope.super :: scopes.bind name.text true) := by
        refine hf.newFrame fun x hx => ?_
        rw [Scope.super, Bindings.get?_insert] at hx
        split at hx
        · next hname => simp [b, hname, Bindings.contains_insert]
        · cases hx
      refine ⟨hs'.newIdentity.define ?_ (Value.suits_of_isName hn _),
        hg.trans (.define _ _ _ _), rfl⟩
      refine Value.Sound.mono (.refl T) (.define _ _ _ _) ?_
      refine sound_class (fun c' hc' => (hc c' hc').mono (.refl T) hg) fun x method => ?_
      exact soundMethod_of_methodsIn (hf'.mono (.newIdentity _)) hr

/-- The superclass of a class that is declared is a class, or it is an error of the program. -/
theorem superclassOf_cases (hcfg : Serves cfg T) (hs : st.store.Sound T)
    (hf : st.store.Fits st.frame scopes) (hr : SuperclassResolved T scopes ref) :
    (∃ c, superclassOf cfg st ref = .ok c ∧ c.isSome = ref.isSome ∧ ∀ c' ∈ c, c'.Sound T st.store) ∨
      ∃ e, superclassOf cfg st ref = .error (.error e) := by
  cases ref with
  | none => exact .inl ⟨none, rfl, rfl, nofun⟩
  | some ref =>
    have hl := State.soundResult_lookUp hs hf (hr ref rfl).2
    rw [superclassOf, hcfg.distances]
    split
    · next c hc =>
      rw [hc] at hl
      exact .inl ⟨some c, rfl, rfl, fun c' h => Option.some.inj h ▸ hl⟩
    · exact .inr ⟨_, rfl⟩
    · next stop hstop =>
      rw [hstop] at hl
      cases stop with
      | error e => exact .inr ⟨e, rfl⟩
      | fault f => exact hl.elim

/-- A superclass is the class that a variable has as its value. -/
theorem superclassOf_eq_ok {ref : VarRef} (h : superclassOf cfg st (some ref) = .ok superclass) :
    ∃ c, superclass = some c ∧ st.lookUp cfg.distances ref.id ref.name =
      .ok (.callable (.class c)) := by
  rw [superclassOf] at h
  split at h
  · next c hc =>
    cases h
    exact ⟨c, rfl, hc⟩
  · cases h
  · cases h

theorem Sound.exec (hcfg : Serves cfg T) (hs : st.store.Sound T)
    (hf : st.store.Fits st.frame here.scopes) {stmt : Stmt}
    (hr : stmt.Resolved T here.within here.scopes)
    (hk : StackSound T st.store ⟨here.within, stmt.scopesAfter here.scopes⟩ stack) :
    (Machine.exec cfg stack st stmt).Sound T := by
  cases stmt with
  | expression e => exact ⟨hs, hf.lt_size, here, hf, hr, hk⟩
  | print e => exact ⟨hs, hf.lt_size, here, hf, hr, .cons rfl hk⟩
  | var name initial =>
    cases initial with
    | none =>
      have hg := Store.Grows.define st.store st.frame name.text .nil
      exact ⟨hs.define trivial (Value.suits_of_isName hr.1.isName _), (hf.mono hg).lt_size,
        ⟨here.within, here.scopes.bind name.text true⟩, hf.define name.text .nil,
        trivial, hk.mono hg⟩
    | some e =>
      refine ⟨hs, hf.lt_size, ⟨here.within, here.scopes.bind name.text false⟩, hf.declare name.text,
        hr.2 e rfl, .cons ⟨hr.1.isName, rfl⟩ ?_⟩
      rw [Scopes.bind_bind]
      exact hk
  | block body =>
    have hg := Store.Grows.newFrame st.store ∅ st.frame
    have hp : (Pending.leaveBlock st.frame).Sound T (st.store.newFrame ∅ st.frame).2
        ⟨here.within, Stmt.scopesAfterAll body (∅ :: here.scopes)⟩ here := ⟨rfl, hf.mono hg⟩
    exact ⟨hs.newFrame hf.lt_size nofun, Store.lt_size_newFrame _ _ _,
      ⟨here.within, ∅ :: here.scopes⟩, hf.newFrame nofun, hr, .cons hp (hk.mono hg)⟩
  | branch condition yes no => exact ⟨hs, hf.lt_size, here, hf, hr.1, .cons ⟨rfl, hr.2⟩ hk⟩
  | loop condition body => exact ⟨hs, hf.lt_size, here, hf, hr.1, .cons ⟨rfl, hr⟩ hk⟩
  | function decl =>
    obtain ⟨hs', hg, hf'⟩ := sound_makeFunction hs hf hr.1.isName hr.2
    exact ⟨hs', hf'.lt_size, ⟨here.within, here.scopes.bind decl.name.text true⟩, hf', trivial,
      hk.mono hg⟩
  | ret keyword value =>
    cases value with
    | none => exact ⟨hs, hf.lt_size, here, hr.1, trivial, hk⟩
    | some e => exact ⟨hs, hf.lt_size, here, hf, hr.2 e rfl, .cons ⟨rfl, hr.1⟩ hk⟩
  | classDecl name superclass decls =>
    obtain ⟨⟨hn, -⟩, hsuper, hmethods⟩ := hr
    have hg := Store.Grows.define st.store st.frame name.text .nil
    have hs' : (st.define name.text .nil).store.Sound T :=
      hs.define trivial (Value.suits_of_isName hn _)
    have hf' := hf.define name.text .nil
    have hk' := hk.mono hg
    rw [Machine.exec]
    rcases superclassOf_cases hcfg hs' hf' hsuper with ⟨c, hc, hsome, hsound⟩ | ⟨e, he⟩
    · obtain ⟨hs'', hg', hframe⟩ := sound_makeClass hs' hf' hn hsome hsound hmethods
      rw [hc]
      refine .deliver hs'' ?_ (hk'.mono hg') trivial
      rw [hframe]
      exact hf'.mono hg'
    · rw [he]
      exact ⟨hs', hf'.lt_size, _, hk'⟩

/-! ### Steps -/

/-- Text that cannot be printed is an error. -/
theorem print_cases (v : Value) (stack : List Pending) (st : State) :
    print v stack st = ⟨.deliver .nil, stack, (st.write (v.display ++ "\n")).2⟩ ∨
      ∃ e, print v stack st =
        ⟨.unwind (.fails (.sink e)), stack, (st.write (v.display ++ "\n")).2⟩ := by
  rw [print]
  split
  · next hw => exact .inl (by rw [hw]; rfl)
  · next e st' hw => exact .inr ⟨e, by rw [hw]⟩

/-- A body that sets up an instance yields it, and any other one what it has ended with. -/
theorem bodyResult_eq_ok {result : Value} (h : bodyResult closure v s = .ok result) :
    s.getAt closure.frame 0 "this" = .ok result ∨ result = v := by
  rw [bodyResult] at h
  split at h
  · exact .inl (ok_of_mapError h)
  · cases h
    exact .inr rfl

theorem soundResult_bodyResult (hs : st.store.Sound T)
    (hthis : closure.isInitializer → (st.store.frame closure.frame).bindings.contains "this")
    (hv : v.Sound T st.store) : SoundResult T st.store (bodyResult closure v st.store) := by
  rw [bodyResult]
  split
  · next hi =>
    obtain ⟨object, ho⟩ := Option.isSome_iff_exists.1 (hthis hi)
    have hget : st.store.getAt closure.frame 0 "this" = .ok object := by
      rw [Store.getAt, Store.ancestor, Store.walkOut]
      simp only [ho]
    rw [hget]
    exact (hs.bindings _ _ object ho).1
  · exact hv

theorem Sound.resume (hcfg : Serves cfg T) (hs : st.store.Sound T)
    (hf : st.store.Fits st.frame here.scopes) (hp : pending.Sound T st.store here next)
    (hk : StackSound T st.store next stack) (hv : v.Sound T st.store) :
    (Machine.resume cfg v stack st pending).Sound T := by
  cases pending with
  | unary op line =>
    cases hp
    rw [Machine.resume]
    split
    · next result h => exact .deliver hs hf hk (UnaryOp.isPlain_of_apply h).sound
    · exact .fail hs hf hk _ _
  | binaryLeft op line right =>
    obtain ⟨rfl, hr⟩ := hp
    exact ⟨hs, hf.lt_size, next, hf, hr, .cons ⟨rfl, hv⟩ hk⟩
  | binaryRight op line left =>
    obtain ⟨rfl, hl⟩ := hp
    rw [Machine.resume]
    split
    · next result h => exact .deliver hs hf hk (BinaryOp.isPlain_of_apply h).sound
    · exact .fail hs hf hk _ _
  | logical op right =>
    obtain ⟨rfl, hr⟩ := hp
    rw [Machine.resume]
    split
    · exact .deliver hs hf hk hv
    · exact ⟨hs, hf.lt_size, next, hf, hr, hk⟩
  | assign id name =>
    obtain ⟨rfl, hn, hr⟩ := hp
    rw [Machine.resume, hcfg.distances]
    rcases State.assignee_cases hf hr with ⟨f, hassignee⟩ | ⟨e, hassignee⟩
    · rw [hassignee]
      have hg := Store.Grows.define st.store f name.text v
      exact ⟨hs.define (hv.mono (.refl T) hg) (Value.suits_of_isName hn v), (hf.mono hg).lt_size,
        next, hf.mono hg, hv.mono (.refl T) hg, hk.mono hg⟩
    · rw [hassignee]
      exact ⟨hs, hf.lt_size, next, hk⟩
  | callee line arguments =>
    obtain ⟨rfl, hr⟩ := hp
    exact .nextArgument hcfg hs hf hk hv line (List.forall_mem_nil _) hr
  | argument called line before rest =>
    obtain ⟨rfl, hc, hb, hr⟩ := hp
    exact .nextArgument hcfg hs hf hk hc line (List.forall_mem_cons.2 ⟨hv, hb⟩) hr
  | get name =>
    cases hp
    cases v with
    | «instance» id c => exact .property hs hf hk id hv name
    | _ => exact .fail hs hf hk _ _
  | setObject name value =>
    obtain ⟨rfl, hr⟩ := hp
    cases v with
    | «instance» id c => exact ⟨hs, hf.lt_size, next, hf, hr, .cons rfl hk⟩
    | _ => exact .fail hs hf hk _ _
  | setValue id name =>
    cases hp
    have hg := Store.Grows.setField st.store id name.text v
    exact ⟨hs.setField id name.text hv, (hf.mono hg).lt_size, here, hf.mono hg,
      hv.mono (.refl T) hg, hk.mono hg⟩
  | print =>
    cases hp
    have hs' : (st.write (v.display ++ "\n")).2.store.Sound T := hs
    have hf' : (st.write (v.display ++ "\n")).2.store.Fits
      (st.write (v.display ++ "\n")).2.frame here.scopes := hf
    have hk' : StackSound T (st.write (v.display ++ "\n")).2.store here stack := hk
    rw [Machine.resume]
    rcases print_cases v stack st with hp | ⟨e, hp⟩
    · rw [hp]
      exact .deliver hs' hf' hk' trivial
    · rw [hp]
      exact ⟨hs', hf'.lt_size, here, hk'⟩
  | define name =>
    -- What follows in the block was resolved with this name bound.
    obtain ⟨hn, rfl⟩ := hp
    have hg := Store.Grows.define st.store st.frame name.text v
    exact ⟨hs.define (hv.mono (.refl T) hg) (Value.suits_of_isName hn v), (hf.mono hg).lt_size,
      ⟨here.within, here.scopes.bind name.text true⟩, hf.define name.text v, trivial, hk.mono hg⟩
  | branch yes no =>
    obtain ⟨rfl, hyes, hno⟩ := hp
    have hchosen : ∀ {stmt : Stmt}, stmt.Resolved T next.within next.scopes →
        stmt.declares? = none → (⟨.exec stmt, stack, st⟩ : Machine).Sound T := by
      intro stmt hr hd
      refine ⟨hs, hf.lt_size, next, hf, hr, ?_⟩
      rw [Stmt.scopesAfter, hd]
      exact hk
    cases no with
    | none =>
      rw [Machine.resume]
      split
      · exact hchosen hyes.1 hyes.2
      · exact .deliver hs hf hk trivial
    | some no =>
      rw [Machine.resume]
      split
      · exact hchosen hyes.1 hyes.2
      · exact hchosen hno.1 hno.2
  | loopTest condition body =>
    obtain ⟨rfl, hr⟩ := hp
    rw [Machine.resume]
    split
    · refine ⟨hs, hf.lt_size, next, hf, hr.2.1, ?_⟩
      rw [Stmt.scopesAfter, hr.2.2]
      exact .cons ⟨rfl, hr⟩ hk
    · exact .deliver hs hf hk trivial
  | loopBody condition body =>
    obtain ⟨rfl, hr⟩ := hp
    exact ⟨hs, hf.lt_size, next, hf, hr.1, .cons ⟨rfl, hr⟩ hk⟩
  | sequence rest =>
    obtain ⟨hr, rfl⟩ := hp
    exact ⟨hs, hf.lt_size, here, hf, hr, hk⟩
  | returns =>
    obtain ⟨rfl, hw⟩ := hp
    exact ⟨hs, hf.lt_size, next, hw, hv, hk⟩
  | leaveBlock frame => exact ⟨hs, hp.2.lt_size, next, hp.2, hv, hk⟩
  | leaveBody closure frame =>
    have hs' : (st.goTo frame).store.Sound T := hs
    exact .finish hs' hp.2 hk (soundResult_bodyResult hs hp.1 trivial)
  | construct object =>
    obtain ⟨rfl, ho⟩ := hp
    exact .deliver hs hf hk ho
  | leaveCall =>
    cases hp
    exact ⟨hs, hf.lt_size, here, hf, hv, hk⟩

/-- Only a body leads to a point in another function. -/
theorem within_eq (hp : pending.Sound T s here next)
    (hb : ∀ closure frame, pending ≠ .leaveBody closure frame) : next.within = here.within := by
  cases pending with
  | unary => exact congrArg _ hp
  | get => exact congrArg _ hp
  | setValue => exact congrArg _ hp
  | print => exact congrArg _ hp
  | leaveCall => exact congrArg _ hp
  | leaveBody closure frame => exact absurd rfl (hb closure frame)
  | leaveBlock => exact hp.1
  | define => rw [hp.2]
  | sequence => rw [hp.2]
  | _ => exact congrArg _ hp.1

theorem Sound.unwindOver (hs : st.store.Sound T) (hl : st.frame < st.store.frames.size)
    (hp : pending.Sound T st.store here next) (hk : StackSound T st.store next stack) {a : Abrupt}
    (ha : ∀ v, a = .returns v → here.within ≠ .none ∧ v.Sound T st.store) :
    (Machine.unwindOver a stack st pending).Sound T := by
  have hpass : ∀ st' : State, st'.store = st.store → st'.frame < st.store.frames.size →
      (∀ closure frame, pending ≠ .leaveBody closure frame) →
      (⟨.unwind a, stack, st'⟩ : Machine).Sound T := by
    intro st' hst hl' hb
    refine ⟨hst ▸ hs, hst ▸ hl', ?_⟩
    cases a with
    | fails e => exact ⟨next, hst ▸ hk⟩
    | returns v =>
      obtain ⟨hw, hv⟩ := ha v rfl
      exact ⟨next, within_eq hp hb ▸ hw, hst ▸ hv, hst ▸ hk⟩
  cases pending with
  | leaveBlock frame => exact hpass _ rfl hp.2.lt_size nofun
  | leaveBody closure frame =>
    cases a with
    | fails e => exact ⟨hs, hp.2.lt_size, next, hk⟩
    | returns v =>
      have hs' : (st.goTo frame).store.Sound T := hs
      exact .finish hs' hp.2 hk (soundResult_bodyResult hs hp.1 (ha v rfl).2)
  | leaveCall => exact hpass _ rfl hl nofun
  | _ => exact hpass _ rfl hl nofun

/-- A step keeps a machine sound. -/
theorem Sound.step (hcfg : Serves cfg T) {m : Machine} (h : m.Sound T) :
    (Machine.step cfg m).Sound T := by
  obtain ⟨control, stack, st⟩ := m
  obtain ⟨hs, hl, hc⟩ := h
  cases control with
  | eval e =>
    obtain ⟨here, hf, hr, hk⟩ := hc
    exact .eval hcfg hs hf hk hr
  | exec stmt =>
    obtain ⟨here, hf, hr, hk⟩ := hc
    exact .exec hcfg hs hf hr hk
  | execAll stmts =>
    obtain ⟨here, hf, hr, hk⟩ := hc
    cases stmts with
    | nil => exact .deliver hs hf hk trivial
    | cons stmt rest => exact ⟨hs, hf.lt_size, here, hf, hr.1, .cons ⟨hr.2, rfl⟩ hk⟩
  | deliver v =>
    obtain ⟨here, hf, hv, hk⟩ := hc
    cases hk with
    | nil => exact ⟨hs, hl, trivial⟩
    | cons hp hk => exact .resume hcfg hs hf hp hk hv
  | unwind a =>
    cases a with
    | fails e =>
      obtain ⟨here, hk⟩ := hc
      cases hk with
      | nil => exact ⟨hs, hl, trivial⟩
      | cons hp hk => exact .unwindOver hs hl hp hk nofun
    | returns v =>
      obtain ⟨here, hw, hv, hk⟩ := hc
      cases hk with
      | nil hn => exact absurd hn hw
      | cons hp hk =>
        refine .unwindOver hs hl hp hk ?_
        rintro _ ⟨⟩
        exact ⟨hw, hv⟩
  | done o => exact ⟨hs, hl, hc⟩

/-- A run keeps a machine sound. -/
theorem Sound.run (hcfg : Serves cfg T) {m : Machine} (h : m.Sound T) (fuel : Nat) :
    (Machine.run cfg fuel m).Sound T :=
  run_invariant (fun _ h => h.step hcfg) h fuel

/-- A sound machine ends with a value or an error of the program. -/
theorem Sound.outcome {m : Machine} (h : m.Sound T) {o : Outcome} (ho : m.outcome? = some o) :
    (∃ v, o = .value v) ∨ ∃ e, o = .failed e := by
  have hc := h.control
  unfold outcome? at ho
  split at ho
  · next o' hcontrol =>
    cases ho
    rw [hcontrol] at hc
    cases o with
    | value v => exact .inl ⟨v, rfl⟩
    | failed e => exact .inr ⟨e, rfl⟩
    | returned v => exact hc.elim
    | fault f => exact hc.elim
  · cases ho

end Machine

end Lox
