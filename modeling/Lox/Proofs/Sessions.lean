import Mathlib
import Lox.Proofs.Safety
import Lox.Session

/-!
# Sessions run without faults

Programs are resolved one by one, but what they leave behind lives on: a function of an earlier
source can be called by a later one, with the distances that were written down for it. Since
expressions are numbered through the whole session, the distances of a new source come beside the
old ones (`Session.extends_install`), so everything in the store stays sound and the new source runs
without faults.

* `Session.Reachable`: the sessions that come about, whatever the sources and however they end;
* `Session.Sound`: what holds of all of them;
* `Session.run_evaluate_ne_fault`: no source is ever answered with a fault;
* `Session.Invariant.moment`: what is kept from step to step and from source to source holds at
  every moment of every run (`Session.Moment`).
-/

namespace Lox

namespace Session

/-- The sessions that come about: a new one, and one after another source, whether it was rejected,
    failed, reached its end or was stopped. -/
inductive Reachable : Session → Prop
  | new (sink : Sink) (clock : Clock) (maxDepth : Nat) : Reachable (.new sink clock maxDepth)
  | run {s : Session} (fuel : Nat) (source : List UInt8) : Reachable s →
      Reachable (s.run fuel source).2
  | evaluate {s : Session} (fuel : Nat) (source : List UInt8) : Reachable s →
      Reachable (s.evaluate fuel source).2

/-- The distances of a session, for all numbers that were given out. -/
def table (s : Session) : Table := ⟨s.distances, s.nextId⟩

/-- What is in the store can be used, and no distance was written down for a later number. -/
structure Sound (s : Session) : Prop where
  store : s.state.store.Sound s.table
  frame : s.state.frame < s.state.store.frames.size
  fresh : ∀ id, s.nextId ≤ id → s.distances[id]? = none

theorem serves_config (s : Session) : Machine.Serves s.config s.table where
  distances := rfl
  natives f time arguments v store h := by
    cases h
    trivial

/-! ### Distances of a session -/

variable {s : Session} {distances : Distances}

/-- What is written down for a new source comes first. -/
theorem getElem?_install (s : Session) (distances : Distances) (id : Nat) :
    (s.install distances).distances[id]? = (distances[id]?).or s.distances[id]? := by
  cases hd : distances[id]? with
  | some d =>
    exact Std.ExtTreeMap.getElem?_insertMany_list_of_mem (by simp)
      Std.ExtTreeMap.distinct_keys_toList (Std.ExtTreeMap.mem_toList_iff_getElem?_eq_some.2 hd)
  | none =>
    refine Std.ExtTreeMap.getElem?_insertMany_list_of_contains_eq_false ?_
    rw [Std.ExtTreeMap.map_fst_toList_eq_keys, Std.ExtTreeMap.contains_keys]
    rw [Std.ExtTreeMap.contains_eq_isSome_getElem?, hd]
    rfl

variable {n : Nat} {source : List UInt8} {m : Machine} {s' : Session} {errors : List Diagnostic}
    {cursor : Cursor}

/-- Distances for numbers that are given out from now on leave the earlier ones alone. -/
theorem extends_install (hn : s.nextId ≤ n) (hd : ∀ id < s.nextId, distances[id]? = none) :
    Table.Extends (({ s with nextId := n }).install distances).table s.table where
  bound := hn
  distances id hid := by
    change (({ s with nextId := n }).install distances).distances[id]? = s.distances[id]?
    rw [getElem?_install, hd id hid, Option.none_or]

theorem Sound.install (h : s.Sound) (hn : s.nextId ≤ n)
    (hd : ∀ id, id < s.nextId ∨ n ≤ id → distances[id]? = none) :
    (({ s with nextId := n }).install distances).Sound where
  store := h.store.extend (extends_install hn fun id hid => hd id (.inl hid))
  frame := h.frame
  fresh id hid := by
    rw [getElem?_install, hd id (.inr hid), Option.none_or]
    exact h.fresh id (Nat.le_trans hn hid)

/-- A rejected source only uses up numbers. -/
theorem Sound.skip (h : s.Sound) (hn : s.nextId ≤ n) :
    Sound { s with nextId := n } where
  store := h.store.extend ⟨hn, fun _ _ => rfl⟩
  frame := h.frame
  fresh id hid := h.fresh id (Nat.le_trans hn hid)

/-- A new distance table, at the identities of a source. -/
theorem Sound.settled (h : s.Sound) {ids : List Nat} (hids : Numbered s.nextId n ids) :
    ∀ id ∈ ids, id < (({ s with nextId := n }).install distances).table.bound ∧
      (({ s with nextId := n }).install distances).table.distances[id]? = distances[id]? := by
  intro id hid
  refine ⟨(hids.range id hid).2, ?_⟩
  have hold : ({ s with nextId := n } : Session).distances[id]? = none :=
    h.fresh id (hids.range id hid).1
  exact (getElem?_install _ distances id).trans (by rw [hold, Option.or_none])

/-- Only numbers of a source get distances by it. -/
theorem none_of_numbered {ids : List Nat} (hids : Numbered s.nextId n ids)
    (hd : ∀ id ∉ ids, distances[id]? = none) :
    ∀ id, id < s.nextId ∨ n ≤ id → distances[id]? = none := by
  intro id hid
  refine hd id fun hmem => ?_
  have := hids.range id hmem
  omega

/-! ### From a source to a sound machine -/

/-- A source is rejected, or its program is accepted and about to run. -/
theorem load_cases (s : Session) (source : List UInt8) :
    (∃ errors n, s.nextId ≤ n ∧ s.load source = (.error errors, { s with nextId := n })) ∨
      ∃ program cursor distances,
        Program.parse (.ofTokens (Token.scanAll source).1 s.nextId) = (.ok program, cursor) ∧
        program.resolve = .ok distances ∧
        s.load source = (.ok ⟨.execAll program, [], s.state⟩,
          ({ s with nextId := cursor.nextId }).install distances) := by
  have hn := Program.nextId_le_parse (.ofTokens (Token.scanAll source).1 s.nextId)
  rw [load]
  dsimp only
  split
  · exact .inl ⟨_, _, hn, rfl⟩
  · next program hp =>
    split
    · cases hr : program.resolve with
      | error errors => exact .inl ⟨_, _, hn, rfl⟩
      | ok distances => exact .inr ⟨program, _, distances, Prod.ext hp rfl, hr, rfl⟩
    · exact .inl ⟨_, _, hn, rfl⟩

/-- A source is rejected, or its expression is accepted and about to be evaluated. -/
theorem loadExpr_cases (s : Session) (source : List UInt8) :
    (∃ errors n, s.nextId ≤ n ∧ s.loadExpr source = (.error errors, { s with nextId := n })) ∨
      ∃ e cursor distances,
        Expr.parse (.ofTokens (Token.scanAll source).1 s.nextId) = (.ok e, cursor) ∧
        e.resolve = .ok distances ∧
        s.loadExpr source = (.ok ⟨.eval e, [], s.state⟩,
          ({ s with nextId := cursor.nextId }).install distances) := by
  have hn := Expr.nextId_le_parse (.ofTokens (Token.scanAll source).1 s.nextId)
  rw [loadExpr]
  dsimp only
  split
  · split
    · exact .inl ⟨_, _, hn, rfl⟩
    · next e he =>
      cases hr : e.resolve with
      | error errors => exact .inl ⟨_, _, hn, rfl⟩
      | ok distances => exact .inr ⟨e, _, distances, Prod.ext he rfl, hr, rfl⟩
  · exact .inl ⟨_, _, Nat.le_refl _, rfl⟩

theorem load_eq_ok (h : s.load source = (.ok m, s')) :
    ∃ program cursor distances,
      Program.parse (.ofTokens (Token.scanAll source).1 s.nextId) = (.ok program, cursor) ∧
      program.resolve = .ok distances ∧ m = ⟨.execAll program, [], s.state⟩ ∧
      s' = ({ s with nextId := cursor.nextId }).install distances := by
  rcases load_cases s source with ⟨errors, n, -, hl⟩ | ⟨program, cursor, distances, hp, hr, hl⟩
  · cases h.symm.trans hl
  · cases h.symm.trans hl
    exact ⟨program, cursor, distances, hp, hr, rfl, rfl⟩

theorem load_eq_error (h : s.load source = (.error errors, s')) :
    ∃ n, s.nextId ≤ n ∧ s' = { s with nextId := n } := by
  rcases load_cases s source with ⟨errors, n, hn, hl⟩ | ⟨program, cursor, distances, -, -, hl⟩
  · cases h.symm.trans hl
    exact ⟨n, hn, rfl⟩
  · cases h.symm.trans hl

theorem loadExpr_eq_ok (h : s.loadExpr source = (.ok m, s')) :
    ∃ e cursor distances,
      Expr.parse (.ofTokens (Token.scanAll source).1 s.nextId) = (.ok e, cursor) ∧
      e.resolve = .ok distances ∧ m = ⟨.eval e, [], s.state⟩ ∧
      s' = ({ s with nextId := cursor.nextId }).install distances := by
  rcases loadExpr_cases s source with ⟨errors, n, -, hl⟩ | ⟨e, cursor, distances, he, hr, hl⟩
  · cases h.symm.trans hl
  · cases h.symm.trans hl
    exact ⟨e, cursor, distances, he, hr, rfl, rfl⟩

theorem loadExpr_eq_error (h : s.loadExpr source = (.error errors, s')) :
    ∃ n, s.nextId ≤ n ∧ s' = { s with nextId := n } := by
  rcases loadExpr_cases s source with ⟨errors, n, hn, hl⟩ | ⟨e, cursor, distances, -, -, hl⟩
  · cases h.symm.trans hl
    exact ⟨n, hn, rfl⟩
  · cases h.symm.trans hl

/-- A source without errors is accepted. -/
theorem load_of_parse {program : Program} (hscan : (Token.scanAll source).2 = [])
    (hp : Program.parse (.ofTokens (Token.scanAll source).1 s.nextId) = (.ok program, cursor))
    (hr : program.resolve = .ok distances) :
    s.load source = (.ok ⟨.execAll program, [], s.state⟩,
      ({ s with nextId := cursor.nextId }).install distances) := by
  rw [load]
  dsimp only
  rw [hp]
  dsimp only
  rw [if_pos hscan, hr]
  rfl

theorem loadExpr_of_parse {e : Expr} (hscan : (Token.scanAll source).2 = [])
    (he : Expr.parse (.ofTokens (Token.scanAll source).1 s.nextId) = (.ok e, cursor))
    (hr : e.resolve = .ok distances) :
    s.loadExpr source = (.ok ⟨.eval e, [], s.state⟩,
      ({ s with nextId := cursor.nextId }).install distances) := by
  rw [loadExpr]
  dsimp only
  rw [if_pos hscan, he]
  dsimp only
  rw [hr]
  rfl

/-- A source that is accepted has no errors of spelling. -/
theorem scanErrors_of_load (h : s.load source = (.ok m, s')) : (Token.scanAll source).2 = [] := by
  rw [load] at h
  dsimp only at h
  split at h
  · cases h
  · split at h
    · assumption
    · cases h

theorem scanErrors_of_loadExpr (h : s.loadExpr source = (.ok m, s')) :
    (Token.scanAll source).2 = [] := by
  rw [loadExpr] at h
  dsimp only at h
  split at h
  · assumption
  · cases h

/-- A program of a source that is accepted runs without faults. -/
theorem Sound.machine (h : s.Sound) {program : Program}
    (hp : Program.parse (.ofTokens (Token.scanAll source).1 s.nextId) = (.ok program, cursor))
    (hr : program.resolve = .ok distances) :
    (({ s with nextId := cursor.nextId }).install distances).Sound ∧
      Machine.Sound (({ s with nextId := cursor.nextId }).install distances).table
        ⟨.execAll program, [], s.state⟩ := by
  have hids := Program.numbered_of_parse hp
  have hreg := Program.regular_of_parse (congrArg Prod.fst hp)
  have hle : s.nextId ≤ cursor.nextId := Program.nextId_le_of_parse hp
  have hs := h.install hle (none_of_numbered hids fun id => Program.getElem?_of_resolve hr)
  refine ⟨hs, hs.store, hs.frame, ⟨.none, []⟩, hs.frame, ?_, .nil rfl⟩
  exact Program.resolved_of_resolve hr hids.nodup hreg (h.settled hids)

/-- An expression of a source that is accepted is evaluated without faults. -/
theorem Sound.machineExpr (h : s.Sound) {e : Expr}
    (he : Expr.parse (.ofTokens (Token.scanAll source).1 s.nextId) = (.ok e, cursor))
    (hr : e.resolve = .ok distances) :
    (({ s with nextId := cursor.nextId }).install distances).Sound ∧
      Machine.Sound (({ s with nextId := cursor.nextId }).install distances).table
        ⟨.eval e, [], s.state⟩ := by
  have hids := Expr.numbered_of_parse he
  have hreg := Expr.regular_of_parse (congrArg Prod.fst he)
  have hle : s.nextId ≤ cursor.nextId := Expr.nextId_le_of_parse he
  have hs := h.install hle (none_of_numbered hids fun id => Expr.getElem?_of_resolve hr)
  refine ⟨hs, hs.store, hs.frame, ⟨.none, []⟩, hs.frame, ?_, .nil rfl⟩
  exact Expr.resolved_of_resolve hr hids.nodup hreg (h.settled hids)

/-! ### From a sound machine to an answer -/

theorem Sound.conclude (h : s.Sound) (hm : m.Sound s.table) :
    (s.conclude m).2.Sound ∧ ∀ fault, (s.conclude m).1 ≠ .fault fault := by
  refine ⟨⟨hm.store, hm.frame, h.fresh⟩, fun fault => ?_⟩
  rw [Session.conclude]
  cases ho : m.outcome? with
  | none => nofun
  | some o =>
    rcases hm.outcome ho with ⟨v, rfl⟩ | ⟨e, rfl⟩
    · dsimp only
      split <;> nofun
    · nofun

theorem Sound.concludeExpr (h : s.Sound) (hm : m.Sound s.table) :
    (s.concludeExpr m).2.Sound ∧ ∀ fault, (s.concludeExpr m).1 ≠ .fault fault := by
  refine ⟨⟨hm.store, hm.frame, h.fresh⟩, fun fault => ?_⟩
  rw [Session.concludeExpr]
  cases ho : m.outcome? with
  | none => nofun
  | some o => rcases hm.outcome ho with ⟨v, rfl⟩ | ⟨e, rfl⟩ <;> nofun

theorem Sound.run (h : s.Sound) (fuel : Nat) (source : List UInt8) :
    (s.run fuel source).2.Sound ∧ ∀ fault, (s.run fuel source).1 ≠ .fault fault := by
  rw [Session.run]
  rcases load_cases s source with ⟨errors, n, hn, hl⟩ | ⟨program, cursor, distances, hp, hr, hl⟩
  · rw [hl]
    exact ⟨h.skip hn, nofun⟩
  · rw [hl]
    obtain ⟨hs, hm⟩ := h.machine hp hr
    exact hs.conclude (hm.run (serves_config _) fuel)

theorem Sound.evaluate (h : s.Sound) (fuel : Nat) (source : List UInt8) :
    (s.evaluate fuel source).2.Sound ∧ ∀ fault, (s.evaluate fuel source).1 ≠ .fault fault := by
  rw [Session.evaluate]
  rcases loadExpr_cases s source with ⟨errors, n, hn, hl⟩ | ⟨e, cursor, distances, he, hr, hl⟩
  · rw [hl]
    exact ⟨h.skip hn, nofun⟩
  · rw [hl]
    obtain ⟨hs, hm⟩ := h.machineExpr he hr
    exact hs.concludeExpr (hm.run (serves_config _) fuel)

/-- At first there is only a native function. -/
theorem sound_new (sink : Sink) (clock : Clock) (maxDepth : Nat) :
    (Session.new sink clock maxDepth).Sound where
  store := by
    have hempty : Store.empty.Sound (Session.new sink clock maxDepth).table := by
      refine ⟨fun f g hg => ?_, fun f name v hv => ?_, fun i name v hv => ?_⟩
      · rw [Store.frame_empty] at hg
        cases hg
      · rw [Store.frame_empty] at hv
        cases hv
      · cases hv
    exact hempty.newIdentity.define trivial ⟨fun hn => absurd hn (by decide),
      fun hn => absurd hn (by decide)⟩
  frame := Nat.zero_lt_one
  fresh id _ := Std.ExtTreeMap.getElem?_empty

theorem Reachable.sound (h : s.Reachable) : s.Sound := by
  induction h with
  | new sink clock maxDepth => exact sound_new sink clock maxDepth
  | run fuel source _ ih => exact (ih.run fuel source).1
  | evaluate fuel source _ ih => exact (ih.evaluate fuel source).1

/-- No source is ever answered with a fault: whatever sources a session was given before, whatever
    became of them, and however many calls may be active, a program or expression that is accepted
    runs without reaching a state that resolution rules out. -/
theorem run_evaluate_ne_fault (h : s.Reachable) (fuel : Nat) (source : List UInt8) (fault : Fault) :
    (s.run fuel source).1 ≠ .fault fault ∧ (s.evaluate fuel source).1 ≠ .fault fault :=
  ⟨(h.sound.run fuel source).2 fault, (h.sound.evaluate fuel source).2 fault⟩

/-- A method that uses `super` is called by a source after the one that declares it. -/
theorem run_evaluate_ne_fault_super :
    ∃ s : Session, s.Reachable ∧ (s.evaluate 100 "B().m()".toUTF8.toList).1.isSuccess = true ∧
      ∀ fault, (s.evaluate 100 "B().m()".toUTF8.toList).1 ≠ .fault fault := by
  have h : Reachable ((Session.new .unlimited (.still 0) 16).run 100
      ("class A \x7b m() \x7b return 1; \x7d \x7d" ++
        "class B < A \x7b m() \x7b return super.m(); \x7d \x7d").toUTF8.toList).2 :=
    .run _ _ (.new _ _ _)
  exact ⟨_, h, by decide +kernel, fun fault => (run_evaluate_ne_fault h _ _ fault).2⟩

/-! ### Moments of a run -/

/-- A session while it runs a source, and the machine at one moment of the run. -/
inductive Moment : Session → Machine → Prop
  | run {s s' : Session} {m : Machine} {source : List UInt8} : s.Reachable →
      s.load source = (.ok m, s') → Moment s' m
  | evaluate {s s' : Session} {m : Machine} {source : List UInt8} : s.Reachable →
      s.loadExpr source = (.ok m, s') → Moment s' m
  | step {s : Session} {m : Machine} : Moment s m → Moment s (m.step s.config)

theorem Moment.of_run (h : s.Moment m) (fuel : Nat) : s.Moment (m.run s.config fuel) :=
  Machine.run_invariant (fun _ => .step) h fuel

/-- The machine after some steps of a source, if it is accepted. -/
def machineAfter (s : Session) (fuel : Nat) (source : List UInt8) : Option Machine :=
  match s.load source with
  | (.ok m, s) => some (m.run s.config fuel)
  | (.error _, _) => none

theorem Reachable.moment (h : s.Reachable) {fuel : Nat} (hm : s.machineAfter fuel source = some m) :
    (s.load source).2.Moment m := by
  rw [machineAfter] at hm
  split at hm
  · next hl =>
    cases hm
    have hbegin := Moment.run h hl
    rw [hl]
    exact hbegin.of_run fuel
  · cases hm

/-- A property `I` of sessions between sources and a property `J` of sessions while they run one,
    which hold at first, when a source is rejected, when it begins, from step to step and when it
    ends. -/
structure Invariant (I : Session → Prop) (J : Session → Machine → Prop) : Prop where
  new : ∀ sink clock maxDepth, I (.new sink clock maxDepth)
  skip : ∀ {s : Session} {n : Nat}, I s → s.nextId ≤ n → I { s with nextId := n }
  load : ∀ {s : Session} {source : List UInt8} {program : Program} {cursor : Cursor}
      {distances : Distances}, s.Reachable → I s →
    Program.parse (.ofTokens (Token.scanAll source).1 s.nextId) = (.ok program, cursor) →
    program.resolve = .ok distances →
    J (({ s with nextId := cursor.nextId }).install distances) ⟨.execAll program, [], s.state⟩
  loadExpr : ∀ {s : Session} {source : List UInt8} {e : Expr} {cursor : Cursor}
      {distances : Distances}, s.Reachable → I s →
    Expr.parse (.ofTokens (Token.scanAll source).1 s.nextId) = (.ok e, cursor) →
    e.resolve = .ok distances →
    J (({ s with nextId := cursor.nextId }).install distances) ⟨.eval e, [], s.state⟩
  step : ∀ {s : Session} {m : Machine}, J s m → J s (m.step s.config)
  conclude : ∀ {s : Session} {m : Machine}, J s m → I { s with state := m.state }

namespace Invariant

variable {I : Session → Prop} {J : Session → Machine → Prop}

theorem run (h : Invariant I J) {m : Machine} (hm : J s m) (fuel : Nat) :
    J s (m.run s.config fuel) :=
  Machine.run_invariant (P := J s) (fun _ => h.step) hm fuel

theorem reachable (h : Invariant I J) (hs : s.Reachable) : I s := by
  induction hs with
  | new sink clock maxDepth => exact h.new sink clock maxDepth
  | @run s fuel source hs ih =>
    rw [Session.run]
    rcases load_cases s source with ⟨errors, n, hn, hl⟩ | ⟨program, cursor, distances, hp, hr, hl⟩
    · rw [hl]
      exact h.skip ih hn
    · rw [hl]
      exact h.conclude (h.run (h.load hs ih hp hr) fuel)
  | @evaluate s fuel source hs ih =>
    rw [Session.evaluate]
    rcases loadExpr_cases s source with ⟨errors, n, hn, hl⟩ | ⟨e, cursor, distances, he, hr, hl⟩
    · rw [hl]
      exact h.skip ih hn
    · rw [hl]
      exact h.conclude (h.run (h.loadExpr hs ih he hr) fuel)

theorem moment (h : Invariant I J) {m : Machine} (hm : s.Moment m) : J s m := by
  induction hm with
  | run hs hl =>
    obtain ⟨program, cursor, distances, hp, hr, rfl, rfl⟩ := load_eq_ok hl
    exact h.load hs (h.reachable hs) hp hr
  | evaluate hs hl =>
    obtain ⟨e, cursor, distances, he, hr, rfl, rfl⟩ := loadExpr_eq_ok hl
    exact h.loadExpr hs (h.reachable hs) he hr
  | step _ ih => exact h.step ih

end Invariant

end Session

end Lox
