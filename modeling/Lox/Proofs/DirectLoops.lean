import Mathlib
import Lox.Proofs.Construction
import Lox.Proofs.Reader
import Lox.Proofs.ShiftedRuns

/-!
# `for` as it is written

A `for` is read as a `while` in blocks (`Read.ForClauses.toLoop`). Here it is run as it is written:
the first part is executed once, in a scope of its own, and then condition, body and increment take
turns, all of them in that one scope. There is no scope around body and increment, so the parts have
distances of their own, and with them identities of their own: what is run is a copy of the loop.

* `ForLoop`, `ForLoop.lowered`: a `for`, and the statement that it is read as
  (`Read.forLoop_of_statement`);
* `ForLoop.step`, `ForLoop.run`: how a `for` is run as it is written;
* `ForLoop.balanced_run`: all parts of a loop are run in its one frame, and lead back to it;
* `ForLoop.Copy`: a copy of a loop that is resolved as it is written, and `ForLoop.exists_copy`:
  there is one.
-/

namespace Lox

/-- A `for`. Its first part, its condition and its increment can be left out, and its body is no
    declaration. -/
structure ForLoop where
  initial : Option Stmt
  condition : Option Expr
  increment : Option Expr
  body : Stmt
  isStatement : body.declares? = none

namespace ForLoop

/-- The condition of the loop that a `for` is read as. The literal of a condition that is left out
    has an identity too. -/
def test (loop : ForLoop) (id : Nat) : Expr := loop.condition.getD (.literal id (.bool true))

/-- The body of the loop that a `for` is read as. -/
def round (loop : ForLoop) : Stmt :=
  match loop.increment with
  | some increment => .block [loop.body, .expression increment]
  | none => loop.body

/-- The statement that a `for` is read as. -/
def lowered (loop : ForLoop) (id : Nat) : Stmt :=
  Read.ForClauses.toLoop ⟨loop.initial, loop.test id, loop.increment⟩ loop.body

theorem lowered_eq (loop : ForLoop) (id : Nat) : loop.lowered id =
    match loop.initial with
    | some initial => .block [initial, .loop (loop.test id) loop.round]
    | none => .loop (loop.test id) loop.round := rfl

/-- The parts of a loop are what is read one after the other at a `for`, and a condition that is
    left out has the identity `id`. -/
def ReadAt (loop : ForLoop) (id fuel : Nat) (s s' : Cursor) : Prop :=
  ∃ s₁ s₂ s₃ s₄ s₅ s₆ opening middle closing,
    Read.expectMark .leftParen .expectedForClauses { s with rest := s.rest.tail } = .ok opening s₁ ∧
    Read.forInitial s₁ = .ok loop.initial s₂ ∧
    (∃ s, Read.expressionUnless .semicolon s₂ = .ok loop.condition s) ∧
    Read.forCondition s₂ = .ok (loop.test id) s₃ ∧
    Read.expectMark .semicolon .expectedLoopConditionEnd s₃ = .ok middle s₄ ∧
    Read.expressionUnless .rightParen s₄ = .ok loop.increment s₅ ∧
    Read.expectMark .rightParen .expectedForClausesEnd s₅ = .ok closing s₆ ∧
    Read.statement fuel s₆ = .ok loop.body s'

end ForLoop

/-! ### Reading -/

namespace Read

variable {s s' : Cursor} {stmt : Stmt} {fuel : Nat}

theorem ForClauses.declares?_toLoop (clauses : ForClauses) (body : Stmt) :
    (clauses.toLoop body).declares? = none := by
  obtain ⟨_ | initial, condition, increment⟩ := clauses <;> rfl

/-- Statements are no declarations. -/
theorem declares?_statement (h : statement fuel s = .ok stmt s') : stmt.declares? = none := by
  cases fuel with
  | zero => cases h
  | succ fuel =>
    rw [statement, peek_bind_eq_ok] at h
    split at h
    · rw [skip_bind_eq_ok, bind_eq_ok] at h
      obtain ⟨clauses, s₁, -, h⟩ := h
      obtain ⟨body, s₂, -, h⟩ := bind_eq_ok.1 h
      obtain ⟨rfl, -⟩ := pure_eq_ok.1 h
      exact clauses.declares?_toLoop body
    · rw [skip_bind_eq_ok, bind_eq_ok] at h
      obtain ⟨e, s₁, -, h⟩ := h
      obtain ⟨yes, s₂, -, h⟩ := bind_eq_ok.1 h
      obtain ⟨found, s₃, -, h⟩ := bind_eq_ok.1 h
      split at h
      · obtain ⟨no, s₄, -, h⟩ := bind_eq_ok.1 h
        obtain ⟨rfl, -⟩ := pure_eq_ok.1 h
        rfl
      · obtain ⟨rfl, -⟩ := pure_eq_ok.1 h
        rfl
    · rw [skip_bind_eq_ok, bind_eq_ok] at h
      obtain ⟨e, s₁, -, h⟩ := h
      obtain ⟨body, s₂, -, h⟩ := bind_eq_ok.1 h
      obtain ⟨rfl, -⟩ := pure_eq_ok.1 h
      rfl
    · rw [skip_bind_eq_ok, bind_eq_ok] at h
      obtain ⟨value, s₁, -, h⟩ := h
      obtain ⟨mark, s₂, -, h⟩ := bind_eq_ok.1 h
      obtain ⟨rfl, -⟩ := pure_eq_ok.1 h
      rfl
    · rw [skip_bind_eq_ok, bind_eq_ok] at h
      obtain ⟨body, s₁, -, h⟩ := h
      obtain ⟨rfl, -⟩ := pure_eq_ok.1 h
      rfl
    · rw [skip_bind_eq_ok, bind_eq_ok] at h
      obtain ⟨e, s₁, -, h⟩ := h
      obtain ⟨mark, s₂, -, h⟩ := bind_eq_ok.1 h
      obtain ⟨rfl, -⟩ := pure_eq_ok.1 h
      rfl
    · obtain ⟨e, s₁, -, h⟩ := bind_eq_ok.1 h
      obtain ⟨mark, s₂, -, h⟩ := bind_eq_ok.1 h
      obtain ⟨rfl, -⟩ := pure_eq_ok.1 h
      rfl

/-- The condition of a `for`, or `true`. -/
theorem forCondition_eq_ok {e : Expr} (h : forCondition s = .ok e s') :
    ∃ condition s₁ id, expressionUnless .semicolon s = .ok condition s₁ ∧
      e = condition.getD (.literal id (.bool true)) := by
  obtain ⟨condition, s₁, hread, h⟩ := bind_eq_ok.1 h
  refine ⟨condition, s₁, s₁.nextId, hread, ?_⟩
  cases condition with
  | some e => exact (pure_eq_ok.1 h).1.symm
  | none => exact (pure_eq_ok.1 h).1.symm

/-- A statement that begins with `for` is a `for`. -/
theorem forLoop_of_statement (hfor : s.peek.kind = .keyword .for)
    (h : statement (fuel + 1) s = .ok stmt s') :
    ∃ (loop : ForLoop) (id : Nat), loop.ReadAt id fuel s s' ∧ stmt = loop.lowered id := by
  rw [statement, peek_bind, hfor] at h
  obtain ⟨clauses, s₆, hclauses, h⟩ := bind_eq_ok.1 (skip_bind_eq_ok.1 h)
  obtain ⟨body, s₇, hbody, h⟩ := bind_eq_ok.1 h
  obtain ⟨rfl, rfl⟩ := pure_eq_ok.1 h
  obtain ⟨opening, s₁, hopening, hclauses⟩ := bind_eq_ok.1 hclauses
  obtain ⟨initial, s₂, hinitial, hclauses⟩ := bind_eq_ok.1 hclauses
  obtain ⟨e, s₃, hcondition, hclauses⟩ := bind_eq_ok.1 hclauses
  obtain ⟨middle, s₄, hmiddle, hclauses⟩ := bind_eq_ok.1 hclauses
  obtain ⟨increment, s₅, hincrement, hclauses⟩ := bind_eq_ok.1 hclauses
  obtain ⟨closing, s₆, hclosing, hclauses⟩ := bind_eq_ok.1 hclauses
  obtain ⟨rfl, rfl⟩ := pure_eq_ok.1 hclauses
  obtain ⟨condition, s₀, id, hread, rfl⟩ := forCondition_eq_ok hcondition
  exact ⟨⟨initial, condition, increment, body, declares?_statement hbody⟩, id,
    ⟨s₁, s₂, s₃, s₄, s₅, s₆, opening, middle, closing, hopening, hinitial, ⟨s₀, hread⟩,
      hcondition, hmiddle, hincrement, hclosing, hbody⟩, rfl⟩

end Read

namespace ForLoop

/-! ### Running -/

/-- The parts of a `for`. -/
inductive Part
  | initial
  | condition
  | body
  | increment

/-- How a statement ends: it is over, or it is left by a `return` or an error. -/
inductive Flow
  | normal
  | abrupt (a : Abrupt)

/-- What comes next. -/
def Flow.control : Flow → Control
  | normal => .deliver .nil
  | abrupt a => .unwind a

/-- The outcome if there is nothing that comes next. -/
def Flow.outcome : Flow → Outcome
  | normal => .value .nil
  | abrupt a => a.outcome

/-- A `for` that is run as it is written: it is in one of its parts, or it has ended. -/
inductive Run
  | part (p : Part) (m : Machine)
  | ended (flow : Flow) (st : State)

/-- The body is next. -/
def toBody (loop : ForLoop) (st : State) : Run := .part .body ⟨.exec loop.body, [], st⟩

/-- The condition is next. If it is left out, it is true. -/
def toTest (loop : ForLoop) (st : State) : Run :=
  match loop.condition with
  | some e => .part .condition ⟨.eval e, [], st⟩
  | none => loop.toBody st

/-- The increment is next, if there is one. -/
def toIncrement (loop : ForLoop) (st : State) : Run :=
  match loop.increment with
  | some e => .part .increment ⟨.eval e, [], st⟩
  | none => loop.toTest st

/-- A loop begins. If it has a first part, this is executed in a new scope. -/
def start (loop : ForLoop) (st : State) : Run :=
  match loop.initial with
  | some initial => .part .initial ⟨.exec initial, [], st.enter ∅ st.frame⟩
  | none => loop.toTest st

/-- A part has ended with the value `v`. A loop that is over goes back to the frame `home`. -/
def next (loop : ForLoop) (home : Nat) (v : Value) (st : State) : Part → Run
  | .initial => loop.toTest st
  | .condition => if v.isTruthy then loop.toBody st else .ended .normal (st.goTo home)
  | .body => loop.toIncrement st
  | .increment => loop.toTest st

/-- One step of a loop. What a `return` or an error leaves is the whole loop. -/
def step (cfg : Config) (loop : ForLoop) (home : Nat) : Run → Run
  | .part p ⟨.deliver v, [], st⟩ => loop.next home v st p
  | .part _ ⟨.unwind a, [], st⟩ => .ended (.abrupt a) (st.goTo home)
  | .part p m => .part p (m.step cfg)
  | .ended flow st => .ended flow st

/-- Takes steps. -/
def run (cfg : Config) (loop : ForLoop) (home : Nat) : Nat → Run → Run
  | 0, r => r
  | n + 1, r => loop.run cfg home n (loop.step cfg home r)

/-- The frame of a loop that begins: if it has a first part, this is a new one. -/
def frame (loop : ForLoop) (st : State) : Nat :=
  match loop.initial with
  | some _ => st.store.frames.size
  | none => st.frame

variable {cfg : Config} {loop : ForLoop} {home : Nat}

/-- A part that does not hand its result on takes its steps as any machine does. -/
theorem step_of_inside {m : Machine} (hm : m.Inside) (p : Part) :
    loop.step cfg home (.part p m) = .part p (m.step cfg) := by
  obtain ⟨control, stack, st⟩ := m
  cases stack with
  | nil =>
    cases control with
    | deliver v => exact absurd rfl ((hm rfl).1 v)
    | unwind a => exact absurd rfl ((hm rfl).2 a)
    | _ => rfl
  | cons pending rest => cases control <;> rfl

/-! ### One frame -/

/-- While a loop is in one of its parts, the part leads back to the frame `f`, where `d` calls are
    active. -/
def Run.Balanced (f d : Nat) (r : Run) : Prop := ∀ p m, r = .part p m → m.Balanced f d

theorem Run.balanced_ended (f d : Nat) (flow : Flow) (st : State) :
    (Run.ended flow st).Balanced f d := by
  intro p m h
  cases h

section

variable {f d : Nat} {st : State} (h : Stack.Returns f d [] st)
include h

theorem balanced_toBody : (loop.toBody st).Balanced f d := by
  rintro p m ⟨⟩
  exact h

theorem balanced_toTest : (loop.toTest st).Balanced f d := by
  rw [toTest]
  split
  · rintro p m ⟨⟩
    exact h
  · exact balanced_toBody h

theorem balanced_toIncrement : (loop.toIncrement st).Balanced f d := by
  rw [toIncrement]
  split
  · rintro p m ⟨⟩
    exact h
  · exact balanced_toTest h

theorem balanced_next (v : Value) (p : Part) : (loop.next home v st p).Balanced f d := by
  cases p with
  | initial => exact balanced_toTest h
  | condition =>
    rw [next]
    split
    · exact balanced_toBody h
    · exact Run.balanced_ended _ _ _ _
  | body => exact balanced_toIncrement h
  | increment => exact balanced_toTest h

end

theorem Run.Balanced.step {f d : Nat} {r : Run} (h : r.Balanced f d) :
    (loop.step cfg home r).Balanced f d := by
  cases r with
  | ended flow st => exact Run.balanced_ended _ _ _ _
  | part p m =>
    rcases m.inside_or with hm | ⟨v, st, rfl⟩ | ⟨a, st, rfl⟩
    · rw [step_of_inside hm]
      rintro q m' ⟨⟩
      exact (h p m rfl).step cfg
    · exact balanced_next (h p _ rfl) v p
    · exact Run.balanced_ended _ _ _ _

theorem Run.Balanced.run {f d : Nat} {r : Run} (h : r.Balanced f d) (n : Nat) :
    (loop.run cfg home n r).Balanced f d := by
  induction n generalizing r with
  | zero => exact h
  | succ n ih => exact ih h.step

/-- All parts of a loop are run in its frame. -/
theorem balanced_run (st : State) (n : Nat) :
    (loop.run cfg home n (loop.start st)).Balanced (loop.frame st) st.depth := by
  refine Run.Balanced.run ?_ n
  rw [start, frame]
  split
  · rintro p m ⟨⟩
    exact ⟨rfl, rfl⟩
  · exact balanced_toTest ⟨rfl, rfl⟩

/-! ### Copies of loops -/

/-- The loop with other identities. -/
def relabel (f : Nat → Nat) (loop : ForLoop) : ForLoop where
  initial := loop.initial.map (Stmt.relabel (.ofIds f))
  condition := loop.condition.map (Expr.relabel (.ofIds f))
  increment := loop.increment.map (Expr.relabel (.ofIds f))
  body := loop.body.relabel (.ofIds f)
  isStatement := (loop.body.declares?_relabel f).trans loop.isStatement

/-- The scopes around condition, body and increment of a loop. -/
def scopes (loop : ForLoop) (outer : Scopes) : Scopes :=
  match loop.initial with
  | some initial => initial.scopesAfter (∅ :: outer)
  | none => outer

/-- A loop is resolved as it is written: condition, body and increment are in the scope of the first
    part, and in no other one. -/
structure Resolved (T : Table) (here : Point) (loop : ForLoop) : Prop where
  initial : ∀ s ∈ loop.initial, s.Resolved T here.within (∅ :: here.scopes)
  condition : ∀ e ∈ loop.condition, e.Resolved T (loop.scopes here.scopes)
  body : loop.body.Resolved T here.within (loop.scopes here.scopes)
  increment : ∀ e ∈ loop.increment, e.Resolved T (loop.scopes here.scopes)

/-- A copy of a loop that is resolved as it is written, with distances that are added to those of
    `T`. -/
structure Copy (T : Table) (here : Point) (loop : ForLoop) (T' : Table)
    (copy : ForLoop) : Prop where
  later : T'.Extends T
  relabels : ∃ f, copy = loop.relabel f
  resolved : copy.Resolved T' here

theorem scopes_relabel (f : Nat → Nat) (outer : Scopes) :
    (loop.relabel f).scopes outer = loop.scopes outer := by
  rw [scopes, relabel, scopes]
  cases loop.initial with
  | none => rfl
  | some initial =>
    dsimp only [Option.map_some]
    rw [Stmt.scopesAfter, Stmt.declares?_relabel, Stmt.scopesAfter]

/-- The scope around body and increment, where a `for` is read as a block with both of them. -/
def gap (loop : ForLoop) : Gap :=
  match loop.increment with
  | some _ => some 0
  | none => none

/-- The scopes around the body in the statement that a `for` is read as. -/
def inner (loop : ForLoop) (scopes : Scopes) : Scopes :=
  match loop.increment with
  | some _ => ∅ :: scopes
  | none => scopes

theorem spread_inner (loop : ForLoop) (scopes : Scopes) :
    Spread loop.gap scopes (loop.inner scopes) := by
  rw [gap, inner]
  cases loop.increment with
  | none => exact .same scopes
  | some e => exact .additional scopes

/-- What is resolved in the statement that a `for` is read as. -/
structure LoweredResolved (T : Table) (here : Point) (loop : ForLoop) : Prop where
  initial : ∀ s ∈ loop.initial, s.Resolved T here.within (∅ :: here.scopes)
  condition : ∀ e ∈ loop.condition, e.Resolved T (loop.scopes here.scopes)
  body : loop.body.Resolved T here.within (loop.inner (loop.scopes here.scopes))
  increment : ∀ e ∈ loop.increment, e.Resolved T (∅ :: loop.scopes here.scopes)

variable {T : Table} {here : Point}

/-- If the statement that a `for` is read as is resolved, so are the parts of the loop. -/
theorem resolved_lowered {id : Nat} (h : (loop.lowered id).Resolved T here.within here.scopes) :
    loop.LoweredResolved T here := by
  have hloop : (∀ s ∈ loop.initial, s.Resolved T here.within (∅ :: here.scopes)) ∧
      (loop.test id).Resolved T (loop.scopes here.scopes) ∧
      loop.round.Resolved T here.within (loop.scopes here.scopes) := by
    rw [lowered_eq] at h
    rw [scopes]
    cases hi : loop.initial with
    | none =>
      rw [hi] at h
      exact ⟨nofun, h.1, h.2.1⟩
    | some initial =>
      rw [hi] at h
      refine ⟨?_, h.2.1.1, h.2.1.2.1⟩
      rintro s ⟨⟩
      exact h.1
  obtain ⟨hinitial, htest, hround⟩ := hloop
  refine ⟨hinitial, fun e he => ?_, ?_, fun e he => ?_⟩
  · rw [test, he] at htest
    exact htest
  · rw [inner]
    cases hinc : loop.increment with
    | none =>
      rw [round, hinc] at hround
      exact hround
    | some e =>
      rw [round, hinc] at hround
      exact hround.1
  · rw [round, he] at hround
    have hres := hround.2.1
    rw [Stmt.scopesAfter, loop.isStatement] at hres
    exact hres

/-- The identities of a loop, each with the gap of its place. -/
def gaps (loop : ForLoop) : List (Nat × Gap) :=
  Stmt.gapsOption none loop.initial ++ (Expr.idsOption loop.condition).map (·, none) ++
    loop.body.gaps loop.gap ++ (Expr.idsOption loop.increment).map (·, some 0)

theorem map_fst_gaps (loop : ForLoop) (id : Nat) :
    (loop.gaps.map Prod.fst).Sublist (loop.lowered id).ids := by
  obtain ⟨initial, condition, increment, body, hbody⟩ := loop
  have hcondition : (Expr.idsOption condition).Sublist
      (condition.getD (.literal id (.bool true))).ids := by
    cases condition with
    | none => exact List.nil_sublist _
    | some e => exact List.Sublist.refl _
  rw [gaps, List.map_append, List.map_append, List.map_append, Stmt.map_fst_gapsOption,
    Stmt.map_fst_pairs, Stmt.map_fst_gaps, Stmt.map_fst_pairs, lowered_eq, round, test]
  cases initial <;> cases increment <;>
    simpa [Stmt.ids, Stmt.idsAll, Stmt.idsOption, Expr.idsOption] using hcondition

/-- A loop whose statement is resolved has a copy that is resolved as it is written. -/
theorem exists_copy {id : Nat} (h : (loop.lowered id).Resolved T here.within here.scopes)
    (hn : (loop.lowered id).ids.Nodup) (hb : ∀ i ∈ (loop.lowered id).ids, i < T.bound) :
    ∃ T' copy, loop.Copy T here T' copy := by
  have hs := resolved_lowered h
  have hu : ∀ p ∈ loop.gaps,
      (T.withCopies loop.gaps).Unshifts T (T.bound + ·) p.2 p.1 := fun p hp =>
    Table.unshifts_withCopies (hn.sublist (loop.map_fst_gaps id)) hp
      (hb _ ((loop.map_fst_gaps id).subset (List.mem_map_of_mem hp)))
  refine ⟨T.withCopies loop.gaps, loop.relabel (T.bound + ·), T.extends_withCopies _, ⟨_, rfl⟩,
    ?_, ?_, ?_, ?_⟩
  · intro s hmem
    obtain ⟨initial, hi, rfl⟩ := Option.map_eq_some_iff.1 hmem
    refine Stmt.resolved_of_gaps (.same _) initial nofun (hs.initial initial hi) fun p hp => hu p ?_
    simp [gaps, hi, Stmt.gapsOption, hp]
  · intro e hmem
    obtain ⟨e, hc, rfl⟩ := Option.map_eq_some_iff.1 hmem
    rw [scopes_relabel]
    refine Expr.resolved_of_gaps (.same _) e (hs.condition e hc) fun i hi => hu (i, none) ?_
    simp [gaps, hc, Expr.idsOption, hi]
  · rw [scopes_relabel]
    refine Stmt.resolved_of_gaps (loop.spread_inner _) loop.body (fun _ => loop.isStatement) hs.body
      fun p hp => hu p ?_
    simp [gaps, hp]
  · intro e hmem
    obtain ⟨e, he, rfl⟩ := Option.map_eq_some_iff.1 hmem
    rw [scopes_relabel]
    refine Expr.resolved_of_gaps (.additional _) e (hs.increment e he) fun i hi => hu (i, some 0) ?_
    simp [gaps, he, Expr.idsOption, hi]

/-- The distances of a loop, in the statement that it is read as, are those of its copy, with the
    additional scope around body and increment. -/
structure Shifted (V : Views) (f : Nat → Nat) (loop : ForLoop) : Prop where
  initial : ∀ s ∈ loop.initial, s.Shifted V f none
  condition : ∀ e ∈ loop.condition, e.Shifted V f none
  body : loop.body.Shifted V f loop.gap
  increment : ∀ e ∈ loop.increment, e.Shifted V f (some 0)

theorem shifted_of_resolved {T' : Table} {f : Nat → Nat} (h : loop.LoweredResolved T here)
    (hcopy : (loop.relabel f).Resolved T' here) : loop.Shifted ⟨T'.distances, T.distances⟩ f := by
  refine ⟨fun s hs => ?_, fun e he => ?_, ?_, fun e he => ?_⟩
  · exact Stmt.shifted_of_resolved (.same _) s nofun
      (hcopy.initial _ (Option.mem_map_of_mem _ hs)) (h.initial s hs)
  · have hc := hcopy.condition _ (Option.mem_map_of_mem _ he)
    rw [scopes_relabel] at hc
    exact Expr.shifted_of_resolved (.same _) e hc (h.condition e he)
  · have hb := hcopy.body
    rw [scopes_relabel] at hb
    exact Stmt.shifted_of_resolved (loop.spread_inner _) loop.body
      (fun _ => loop.isStatement) hb h.body
  · have hi := hcopy.increment _ (Option.mem_map_of_mem _ he)
    rw [scopes_relabel] at hi
    exact Expr.shifted_of_resolved (.additional _) e hi (h.increment e he)

end ForLoop

end Lox
