import Mathlib
import Lox.Proofs.JoinedSources
import Lox.Proofs.Rejections
import Lox.Proofs.Returning

/-!
# Sources run one by one and as one

A session that is given a source line by line ends up where it would be if it had been given all
lines at once. Let a source be run to its end and another one after it, which is not rejected. Then
the two with a newline between them are accepted as one source, and it does what the two have done.
Only lines are counted on.

The argument goes through all phases:

* the tokens of the second source follow those of the first (`Token.scanAll_append_newline`);
* the programs are read one after the other, and their expressions get the same numbers
  (`Program.parse_append_newline`);
* the distances of the joined program are those of both (`Program.resolve_append`);
* the joined program is run with all of them. The first program does not notice those of the second,
  and where it would end, the second one goes on (`Machine.Relabels.run_append`).
-/

namespace Lox

/-! ### Reading -/

/-- A cursor before tokens that are followed by the end. -/
theorem Cursor.ofTokens_append_eof {tokens : List Token} {eof : Token}
    (ht : ∀ t ∈ tokens, t.isEof = false) (he : eof.isEof = true) (n : Nat) :
    ofTokens (tokens ++ [eof]) n = ⟨tokens, eof, n, #[], tokens.length⟩ := by
  have hdrop : ((tokens ++ [eof]).dropWhile fun t => !t.isEof) = [eof] := by
    rw [List.dropWhile_append_of_pos (by simpa using ht)]
    simp [he]
  rw [ofTokens, takeWhile_append_eof ht he, hdrop]

/-- A cursor at the start of a source. -/
theorem Cursor.ofTokens_scanAll (source : List UInt8) (n : Nat) :
    ofTokens (Token.scanAll source).1 n =
      ⟨Token.within source, ⟨.eof, "", Token.lastLine source⟩, n, #[],
        (Token.within source).length⟩ := by
  rw [Token.scanAll_tokens]
  exact ofTokens_append_eof (fun t => Token.isEof_of_mem_within) rfl n

/-- A cursor at the start of two sources. -/
theorem Cursor.ofTokens_scanAll_append {source : List UInt8} (h : (Token.scanAll source).2 = [])
    (source' : List UInt8) (n : Nat) :
    ofTokens (Token.scanAll (source ++ Segment.newline :: source')).1 n =
      ⟨Token.within source ++ (Token.within source').map
        (Token.relabel (.ofLines (· + Token.lastLine source))),
        ⟨.eof, "", Token.lastLine source' + Token.lastLine source⟩, n, #[],
        (Token.within source).length + (Token.within source').length⟩ := by
  have hinner : ∀ t ∈ Token.within source ++
      (Token.within source').map (Token.relabel (.ofLines (· + Token.lastLine source))),
      t.isEof = false := by
    intro t ht
    rcases List.mem_append.1 ht with ht | ht
    · exact Token.isEof_of_mem_within ht
    · obtain ⟨t', ht', rfl⟩ := List.mem_map.1 ht
      change t'.isEof = false
      exact Token.isEof_of_mem_within ht'
  rw [(Token.scanAll_append_newline h source').1, Token.scanAll_tokens, List.map_append,
    ← List.append_assoc,
    List.map_singleton, ofTokens_append_eof hinner rfl, List.length_append, List.length_map]
  rfl

/-- The same cursor before tokens on other lines. -/
def Cursor.onLines (f : Nat → Nat) (s : Cursor) : Cursor :=
  { s with
    rest := s.rest.map (Token.relabel (.ofLines f))
    eof := s.eof.relabel (.ofLines f)
    errors := #[] }

theorem Cursor.recast_onLines (f : Nat → Nat) (s : Cursor) :
    s.Recast (.ofLines f) none (s.onLines f) where
  rest := (List.append_nil _).symm
  eof _ := rfl
  nextId _ := rfl
  size := Nat.le_refl _
  errors := rfl

theorem Cursor.Proper.onLines {s : Cursor} (hs : s.Proper) (f : Nat → Nat) :
    (s.onLines f).Proper where
  eof := hs.eof
  size := (List.length_map _).trans_le hs.size

theorem Cursor.onLines_onLines (f g : Nat → Nat) (s : Cursor) :
    (s.onLines f).onLines g = s.onLines (g ∘ f) := by
  simp only [Cursor.onLines, List.map_map]
  rfl

namespace Program

variable {p : Program} {s s₁ : Cursor}

/-- Moving a program that was read to other lines twice. -/
theorem relabelAll_ofLines (hs : s.Proper) (hp : Program.parse s = (.ok p, s₁)) (f g : Nat → Nat) :
    Stmt.relabelAll (.ofLines g) (Stmt.relabelAll (.ofLines f) p) =
      Stmt.relabelAll (.ofLines (g ∘ f)) p := by
  -- Both are what is read from the tokens on the last lines.
  obtain ⟨s₂, hp₂, -⟩ := parse_recast hs hp (s.recast_onLines f)
  obtain ⟨s₃, hp₃, -⟩ := parse_recast (hs.onLines f) hp₂ ((s.onLines f).recast_onLines g)
  obtain ⟨s₄, hp₄, -⟩ := parse_recast hs hp (s.recast_onLines (g ∘ f))
  rw [Cursor.onLines_onLines] at hp₃
  injection (Prod.ext_iff.1 (hp₃.symm.trans hp₄)).1

/-- A program that was read does not change if its identities stay what they are. -/
theorem relabelAll_of_fixed {tokens : List Token} {n : Nat}
    (hp : Program.parse (.ofTokens tokens n) = (.ok p, s₁)) {g : Nat → Nat}
    (hg : ∀ id < s₁.nextId, g id = id) : Stmt.relabelAll (.ofIds g) p = p := by
  obtain ⟨s₂, hp₂, -⟩ := parse_recast (Cursor.proper_ofTokens _ _) hp
    (Cursor.recast_ofTokens (f := id) tokens fun _ => rfl)
  have hid : p = Stmt.relabelAll (.ofIds id) p := by
    injection (Prod.ext_iff.1 (hp.symm.trans hp₂)).1
  have hids := (numbered_of_parse hp).range
  exact (Stmt.relabelAll_congr (by rfl) p fun id hid => hg id (hids id hid).2).trans hid.symm

/-- No program starts with `else`. -/
theorem head_ne_else_of_parse (hs : s.Proper) (hp : Program.parse s = (.ok p, s₁)) :
    ∀ first ∈ s.rest.head?, first.kind ≠ .keyword .else := by
  obtain ⟨symbols, hw, hsp⟩ := written_of_parse hs (congrArg Prod.fst hp)
  have htakes : Takes s.rest symbols [] := ⟨s.rest, (List.append_nil _).symm, hsp⟩
  have hno : Read.NoElse s.rest := Form.ReadsBack.noElse_of_takes hw htakes
    fun t rest h => by cases h
  intro first hfirst
  obtain ⟨rest, hr⟩ := List.head?_eq_some_iff.1 hfirst
  exact hno first rest hr

/-- Two sources are read as one, and the expressions of the second are numbered on from those of the
    first. -/
theorem parse_append_newline {source source' : List UInt8} {n : Nat} {p' : Program} {s₁' : Cursor}
    (hscan : (Token.scanAll source).2 = [])
    (hp : Program.parse (.ofTokens (Token.scanAll source).1 n) = (.ok p, s₁))
    (hp' : Program.parse (.ofTokens (Token.scanAll source').1 s₁.nextId) = (.ok p', s₁')) :
    ∃ u₁, Program.parse (.ofTokens (Token.scanAll (source ++ Segment.newline :: source')).1 n) =
        (.ok (p ++ Stmt.relabelAll (.ofLines (· + Token.lastLine source)) p'), u₁) ∧
      u₁.nextId = s₁'.nextId := by
  have hself : Stmt.relabelAll (.ofIds id) p = p := relabelAll_of_fixed hp fun _ _ => rfl
  have hs := Cursor.proper_ofTokens (Token.scanAll source).1 n
  have ht := Cursor.proper_ofTokens (Token.scanAll source').1 s₁.nextId
  have hu : (Cursor.ofTokens (Token.scanAll source).1 n).Recast (.ofIds id)
      (some ((Cursor.ofTokens (Token.scanAll source').1 s₁.nextId).rest.map
        (Token.relabel (.ofLines (· + Token.lastLine source)))))
      (.ofTokens (Token.scanAll (source ++ Segment.newline :: source')).1 n) := by
    have hsame : Token.relabel (.ofIds id) = id := rfl
    rw [Cursor.ofTokens_scanAll_append hscan, Cursor.ofTokens_scanAll, Cursor.ofTokens_scanAll]
    refine ⟨?_, by simp, fun _ => rfl, ?_, rfl⟩
    · rw [hsame, List.map_id]
      rfl
    · rw [Option.getD_some, List.length_map]
  obtain ⟨u₁, hu₁, hnext⟩ := parse_append hs ht hp hp' (head_ne_else_of_parse ht hp') hu
    (by rw [Cursor.ofTokens_scanAll_append hscan, Cursor.ofTokens_scanAll]; rfl)
      (Nat.le_refl _) fun _ => rfl
  rw [hself] at hu₁
  exact ⟨u₁, hu₁, (hnext.nextId 0).symm⟩

end Program

/-! ### Resolving -/

namespace Walk

theorem stmts_append (w : Walk) (p p' : Program) : w.stmts (p ++ p') = (w.stmts p).stmts p' := by
  induction p generalizing w with
  | nil => rfl
  | cons stmt p ih => exact ih (w.stmt stmt)

end Walk

/-- Declarations outside all scopes open none. -/
theorem Stmt.scopesAfterAll_nil (stmts : List Stmt) : Stmt.scopesAfterAll stmts [] = [] := by
  induction stmts with
  | nil => rfl
  | cons stmt stmts ih =>
    have hstmt : stmt.scopesAfter [] = [] := by
      rw [Stmt.scopesAfter]
      split <;> rfl
    rw [Stmt.scopesAfterAll, List.foldl_cons, hstmt]
    exact ih

/-- The distances of a program and of one that follows it on other lines. -/
theorem Program.resolve_append {p p' : Program} {distances distances' : Distances}
    (hp : Stmt.AllRegular p) (hr : p.resolve = .ok distances) (hr' : p'.resolve = .ok distances')
    (f : Nat → Nat) :
    ∃ joined : Distances, Program.resolve (p ++ Stmt.relabelAll (.ofLines f) p') = .ok joined ∧
      ∀ id : Nat, joined[id]? = (distances'[id]?).or distances[id]? := by
  obtain ⟨herrors, rfl⟩ := Walk.result_eq_ok.1 hr
  have hpasses := Walk.passes_stmts .start p
  have hstart : Walk.Relabelled (.ofLines f) (Walk.start.stmts p).distances Walk.start
      (Walk.start.stmts p) := by
    refine ⟨?_, hpasses.function, hpasses.inClass, fun id => ?_, ?_⟩
    · exact (Walk.scopes_stmts .start p hp).trans (Stmt.scopesAfterAll_nil p)
    · have hempty : Walk.start.distances[id]? = none := Std.ExtTreeMap.getElem?_empty
      rw [hempty, Option.none_or]
    · rw [herrors]
      exact Array.map_empty.symm
  rw [Program.resolve, Walk.stmts_append]
  exact (hstart.stmts Function.injective_id p').result hr'

/-! ### Running -/

namespace Machine

variable {L : Relabelling} {cfg cfg' : Config}

/-- A machine that is done after its next step, and a run of it that comes to an end. -/
theorem run_of_step_done {m : Machine} {o : Outcome} {stack : List Pending}
    {st : State} {fuel : Nat} (hstep : step cfg m = ⟨.done o, stack, st⟩) (hm : m.outcome? = none)
    (hrun : (Machine.run cfg fuel m).outcome? ≠ none) :
    Machine.run cfg fuel m = ⟨.done o, stack, st⟩ := by
  cases fuel with
  | zero => exact absurd hm hrun
  | succ fuel => rw [run_succ, hstep, run_done]

/-- Statements that are run to their end, with others behind them: these are what is left then. At
    the bottom of the stack there is the rest of the statements, which the others are added to
    (second part). -/
theorem Relabels.run_append (h : Relabels L cfg cfg') (after : List Stmt) {v : Value} {st₁ : State}
    (fuel : Nat) :
    (∀ p (st : State), Machine.run cfg' fuel ⟨.execAll (Stmt.relabelAll L p), [], st.relabel L⟩ =
        ⟨.done (.value v), [], st₁⟩ →
      ∃ n ≤ fuel, Machine.run cfg' n ⟨.execAll (Stmt.relabelAll L p ++ after), [], st.relabel L⟩ =
        ⟨.execAll after, [], st₁⟩) ∧
    ∀ (m : Machine) rest, Machine.run cfg' fuel (m.relabel L [.sequence (Stmt.relabelAll L rest)]) =
        ⟨.done (.value v), [], st₁⟩ →
      ∃ n ≤ fuel, Machine.run cfg' n (m.relabel L [.sequence (Stmt.relabelAll L rest ++ after)]) =
        ⟨.execAll after, [], st₁⟩ := by
  -- The statements hand over to what is pending and that to the rest of them, so both parts go
  -- together.
  induction fuel with
  | zero =>
    refine ⟨fun p st hrun => ?_, fun m rest hrun => ?_⟩
    · cases hrun
    · have hstack : m.stack.map (Pending.relabel L) ++ [.sequence (Stmt.relabelAll L rest)] = [] :=
        congrArg Machine.stack hrun
      exact absurd hstack (by simp)
  | succ fuel ih =>
    obtain ⟨ihAll, ihInside⟩ := ih
    refine ⟨fun p st hrun => ?_, fun m rest hrun => ?_⟩
    · rw [run_succ] at hrun
      cases p with
      | nil =>
        -- Nothing is left to be done before the others.
        have hdone := run_of_step_done (m := ⟨.deliver .nil, [], st.relabel L⟩) rfl rfl
          (fun hnone => absurd (hrun ▸ hnone) (by simp [outcome?]))
        cases hrun.symm.trans hdone
        exact ⟨0, Nat.zero_le _, rfl⟩
      | cons stmt rest =>
        obtain ⟨n, hn, hafter⟩ := ihInside ⟨.exec stmt, [], st⟩ rest hrun
        exact ⟨n + 1, Nat.succ_le_succ hn, (run_succ ..).trans hafter⟩
    · rw [run_succ] at hrun
      rcases m.inside_or with hm | ⟨result, st, rfl⟩ | ⟨a, st, rfl⟩
      · rw [h.step_of_inside hm] at hrun
        obtain ⟨n, hn, hafter⟩ := ihInside _ rest hrun
        refine ⟨n + 1, Nat.succ_le_succ hn, ?_⟩
        rw [run_succ, h.step_of_inside hm, hafter]
      · obtain ⟨n, hn, hafter⟩ := ihAll rest st hrun
        exact ⟨n + 1, Nat.succ_le_succ hn, (run_succ ..).trans hafter⟩
      · -- What leaves the statements does not come to their end.
        have hdone := run_of_step_done (m := ⟨.unwind (a.relabel L), [], st.relabel L⟩) rfl rfl
          (fun hnone => absurd (hrun ▸ hnone) (by simp [outcome?]))
        have hvalue := hrun.symm.trans hdone
        cases a <;> cases hvalue

end Machine

/-! ### Without lines -/

/-- All on one line. -/
def Relabelling.oneLine : Relabelling := .ofLines fun _ => 0

/-- The same report, but it is not told on which line a run has failed. -/
def Report.forgetLines {α : Type} : Report α → Report α
  | failed e => failed (e.relabel .oneLine)
  | report => report

/-- The same session with all its functions and classes written on one line. -/
def Session.forgetLines (s : Session) : Session := { s with state := s.state.relabel .oneLine }

namespace Report

variable {α : Type}

@[simp]
theorem isSuccess_forgetLines (r : Report α) : r.forgetLines.isSuccess = r.isSuccess := by
  cases r <;> rfl

/-- What goes wrong is told in the same words. -/
@[simp]
theorem messages_forgetLines (r : Report α) :
    r.forgetLines.diagnostics.map Diagnostic.message = r.diagnostics.map Diagnostic.message := by
  cases r with
  | failed e => cases e <;> rfl
  | _ => rfl

end Report

theorem Fault.relabel_ofLines (f : Nat → Nat) (fault : Fault) :
    fault.relabel (.ofLines f) = fault := by
  cases fault <;> rfl

/-- What is told about machines that differ in lines only, and the sessions that are left behind. -/
theorem Session.conclude_forgetLines (s : Session) {m m' : Machine}
    (hm : m.relabel .oneLine [] = m'.relabel .oneLine []) :
    (s.conclude m).1.forgetLines = (s.conclude m').1.forgetLines ∧
      (s.conclude m).2.forgetLines = (s.conclude m').2.forgetLines := by
  have hstate : m.state.relabel .oneLine = m'.state.relabel .oneLine := congrArg Machine.state hm
  have hsink : m.state.sink = m'.state.sink := by
    change (m.state.relabel .oneLine).sink = (m'.state.relabel .oneLine).sink
    rw [hstate]
  have houtcome : m.outcome?.map (Outcome.relabel .oneLine) =
      m'.outcome?.map (Outcome.relabel .oneLine) := by
    rw [← Machine.outcome?_relabel, hm, Machine.outcome?_relabel]
  refine ⟨?_, congrArg (fun st => { s with state := st }) hstate⟩
  rw [conclude, conclude, hsink]
  cases ho : m.outcome? with
  | none =>
    rw [ho, Option.map_none, eq_comm, Option.map_eq_none_iff] at houtcome
    rw [houtcome]
  | some o =>
    cases ho' : m'.outcome? with
    | none => rw [ho, ho'] at houtcome; cases houtcome
    | some o' =>
      rw [ho, ho', Option.map_some, Option.map_some, Option.some.injEq] at houtcome
      cases o <;> cases o' <;> simp only [Outcome.relabel, reduceCtorEq, Outcome.failed.injEq,
        Outcome.fault.injEq] at houtcome
      · rfl
      · rfl
      · exact congrArg Report.failed houtcome
      · rw [Relabelling.oneLine, Fault.relabel_ofLines, Fault.relabel_ofLines] at houtcome
        rw [houtcome]

/-- Programs that are the same on one line do the same but for lines. -/
theorem Machine.run_forgetLines (cfg : Config) (hcfg : cfg.natives = Native.standard)
    (fuel : Nat) (st : State) {p p' : Program}
    (h : Stmt.relabelAll .oneLine p = Stmt.relabelAll .oneLine p') :
    (Machine.run cfg fuel ⟨.execAll p, [], st⟩).relabel .oneLine [] =
      (Machine.run cfg fuel ⟨.execAll p', [], st⟩).relabel .oneLine [] := by
  have hlabels : Machine.Relabels .oneLine cfg cfg := ⟨fun _ => rfl, rfl, hcfg, hcfg⟩
  rw [← hlabels.run, ← hlabels.run]
  exact congrArg (fun p => Machine.run cfg fuel ⟨.execAll p, [], st.relabel .oneLine⟩) h

/-! ### Sessions -/

namespace Session

variable {s : Session} {n : Nat} {distances : Distances} {source : List UInt8}

/-- Raising numbers that were not given out yet leaves those that were as they are. -/
theorem fits_extend {m : Nat} (hn : n ≤ m) (k : Nat) : Fits id n n (extend id m k) := by
  refine ⟨fun i hi => if_pos (hi.trans_le hn), fun i hi => ?_⟩
  rw [extend]
  split
  · exact hi
  · exact hi.trans (Nat.le_add_right i k)

/-- A program that was run before is run in the same way with the distances of a later one. It has
    none of the numbers of the later one, so these can be taken out of the way. -/
theorem Reachable.relabels_install (h : s.Reachable)
    (hd : ∀ id, id < s.nextId ∨ n ≤ id → distances[id]? = none) :
    Machine.Relabels (.ofIds (extend id s.nextId n)) s.config
      ({ s with nextId := n }.install distances).config where
  distances i := by
    change ({ s with nextId := n }.install distances).distances[extend id s.nextId n i]? =
      s.distances[i]?
    have hnone : distances[extend id s.nextId n i]? = none := by
      refine hd _ ?_
      rw [extend]
      split
      · next hlt => exact .inl hlt
      · exact .inr (Nat.le_add_left n i)
    rw [getElem?_install, hnone, Option.none_or]
    exact h.alike.distances (fits_extend (Nat.le_refl _) n) i
  maxDepth := rfl
  natives := rfl
  natives' := rfl

/-- A source that is run to its end leaves nothing undone. -/
theorem exists_of_run_success {fuel : Nat} (h : (s.run fuel source).1.isSuccess = true) :
    ∃ p cursor distances v st,
      (Token.scanAll source).2 = [] ∧
      Program.parse (.ofTokens (Token.scanAll source).1 s.nextId) = (.ok p, cursor) ∧
      p.resolve = .ok distances ∧
      (s.run fuel source).2 = { { s with nextId := cursor.nextId }.install distances
        with state := st } ∧
      Machine.run ({ s with nextId := cursor.nextId }.install distances).config fuel ⟨.execAll p,
        [], s.state⟩ =
        ⟨.done (.value v), [], st⟩ := by
  rcases load_cases s source with ⟨errors, n, hn, hl⟩ | ⟨p, cursor, distances, hp, hr, hl⟩
  · rw [Session.run, hl] at h
    cases h
  · have hscan := scanErrors_of_load hl
    have hbalanced : Machine.Balanced s.state.frame s.state.depth ⟨.execAll p, [], s.state⟩ :=
      ⟨rfl, rfl⟩
    replace hbalanced :=
      hbalanced.run ({ s with nextId := cursor.nextId }.install distances).config fuel
    rw [Session.run, hl] at h ⊢
    dsimp only at h ⊢
    cases hm : Machine.run ({ s with nextId := cursor.nextId }.install distances).config fuel
      ⟨.execAll p, [], s.state⟩ with
    | mk control stack st =>
      rw [hm] at h hbalanced
      cases control with
      | done o =>
        cases o with
        | value v =>
          obtain ⟨rfl, -⟩ := hbalanced
          exact ⟨p, cursor, distances, v, st, hscan, hp, hr, rfl, hm⟩
        | _ => cases h
      | _ => cases h

/-- Two sources are loaded as one, with the distances that they have one by one. -/
theorem load_append_newline {source' : List UInt8} {p p' : Program} {cursor cursor' : Cursor}
    {distances' : Distances} (hscan : (Token.scanAll source).2 = [])
    (hscan' : (Token.scanAll source').2 = [])
    (hp : Program.parse (.ofTokens (Token.scanAll source).1 s.nextId) = (.ok p, cursor))
    (hp' : Program.parse (.ofTokens (Token.scanAll source').1 cursor.nextId) = (.ok p', cursor'))
    (hr : p.resolve = .ok distances) (hr' : p'.resolve = .ok distances') :
    s.load (source ++ Segment.newline :: source') =
      (.ok ⟨.execAll (p ++ Stmt.relabelAll (.ofLines (· + Token.lastLine source)) p'), [], s.state⟩,
        { { s with nextId := cursor.nextId }.install distances
          with nextId := cursor'.nextId }.install distances') := by
  obtain ⟨u₁, hu, hnext⟩ := Program.parse_append_newline hscan hp hp'
  obtain ⟨joined, hjoined, hd⟩ :=
    Program.resolve_append (Program.regular_of_parse (congrArg Prod.fst hp)) hr hr'
    (· + Token.lastLine source)
  have hscan₂ : (Token.scanAll (source ++ Segment.newline :: source')).2 = [] := by
    rw [(Token.scanAll_append_newline hscan source').2, hscan', List.map_nil]
  rw [load_of_parse hscan₂ hu hjoined, hnext]
  refine congrArg (fun d => (_, Session.mk cursor'.nextId d s.maxDepth s.state)) ?_
  refine Std.ExtTreeMap.ext_getElem? fun id => ?_
  change ({ s with nextId := cursor'.nextId }.install joined).distances[id]? =
    ({ { s with nextId := cursor.nextId }.install distances with nextId := cursor'.nextId }.install
      distances').distances[id]?
  rw [getElem?_install, getElem?_install, hd, Option.or_assoc]
  exact congrArg _ (getElem?_install { s with nextId := cursor.nextId } distances id).symm

/-- The first of two programs is run with the distances of both, and the second comes next. -/
theorem Reachable.run_first (hs : s.Reachable) {s₁ : Session} (hs₁ : s₁.Reachable)
    {tokens : List Token} {p : Program} {cursor : Cursor}
    (hp : Program.parse (.ofTokens tokens s.nextId) = (.ok p, cursor))
    (hn : s₁.nextId = cursor.nextId) {fuel : Nat} {v : Value}
    (hrun : Machine.run s₁.config fuel ⟨.execAll p, [], s.state⟩ = ⟨.done (.value v), [], s₁.state⟩)
    (hd : ∀ id, id < s₁.nextId ∨ n ≤ id → distances[id]? = none) (after : Program) :
    ∃ k ≤ fuel, Machine.run ({ s₁ with nextId := n }.install distances).config k
      ⟨.execAll (p ++ after), [], s.state⟩ = ⟨.execAll after, [], s₁.state⟩ := by
  have hle : s.nextId ≤ s₁.nextId := hn ▸ Program.nextId_le_of_parse hp
  have hlabels := hs₁.relabels_install hd
  -- What was there before the run, what was run and what is there now have none of the later
  -- numbers.
  have hstate := hs.alike.state (fits_extend hle n)
  have hstate₁ := hs₁.alike.state (fits_extend (Nat.le_refl s₁.nextId) n)
  have hprogram : Stmt.relabelAll (.ofIds (extend id s₁.nextId n)) p = p :=
    Program.relabelAll_of_fixed hp fun id hid => if_pos (hn ▸ hid)
  have hrun' : Machine.run ({ s₁ with nextId := n }.install distances).config fuel
      ⟨.execAll (Stmt.relabelAll (.ofIds (extend id s₁.nextId n)) p), [],
        s.state.relabel (.ofIds (extend id s₁.nextId n))⟩ =
      ⟨.done (.value (v.relabel (.ofIds (extend id s₁.nextId n)))), [], s₁.state⟩ := by
    have h := hlabels.run fuel ⟨.execAll p, [], s.state⟩
    rw [hrun] at h
    refine h.trans ?_
    rw [Machine.relabel, ← hstate₁]
    rfl
  have happend := (hlabels.run_append after fuel).1 p s.state hrun'
  rwa [hprogram, ← hstate] at happend

/-- Line by line or all at once. A source is run to its end, and another one after it is not
    rejected. Then both, with a newline between them, can be run as one source, and after the steps
    of the first one it goes on as the second: it has printed the same, it has come as far, it fails
    with the same words if the second one does, and it leaves the same session behind, but for the
    lines that functions and classes are written on. -/
theorem run_append_newline (hs : s.Reachable) {source source' : List UInt8} {fuel₁ fuel₂ : Nat}
    (hfirst : (s.run fuel₁ source).1.isSuccess = true)
    (hthen : ((s.run fuel₁ source).2.run fuel₂ source').1.isRejected = false) :
    ∃ n ≤ fuel₁, ∀ fuel,
      let joined := s.run (n + fuel) (source ++ Segment.newline :: source')
      let after := (s.run fuel₁ source).2.run fuel source'
      joined.1.forgetLines = after.1.forgetLines ∧
      joined.1.isSuccess = after.1.isSuccess ∧
      joined.1.diagnostics.map Diagnostic.message = after.1.diagnostics.map Diagnostic.message ∧
      joined.2.state.sink = after.2.state.sink ∧
      joined.2.forgetLines = after.2.forgetLines := by
  have hs₁ : (s.run fuel₁ source).2.Reachable := hs.run fuel₁ source
  obtain ⟨p, cursor, distances, v, st, hscan, hp, hr, hafter, hrun⟩ := exists_of_run_success hfirst
  -- From here on `s₁` is the session between the two sources.
  rw [hafter] at hs₁ hthen ⊢
  generalize hs₁' :
    ({ { s with nextId := cursor.nextId }.install distances with state := st } : Session) = s₁
    at hs₁ hthen ⊢
  have hnext : s₁.nextId = cursor.nextId := hs₁' ▸ rfl
  rcases load_cases s₁ source' with ⟨errors, n, hn, hl⟩ | ⟨p', cursor', distances', hp', hr', hl⟩
  · rw [Session.run, hl] at hthen
    cases hthen
  · have hfresh := none_of_numbered (Program.numbered_of_parse hp') fun id =>
      Program.getElem?_of_resolve hr'
    have hrun₁ : Machine.run s₁.config fuel₁ ⟨.execAll p, [], s.state⟩ = ⟨.done (.value v), [],
        s₁.state⟩ := by
      rw [← hs₁']
      exact hrun
    obtain ⟨n, hn, hrun'⟩ := hs.run_first hs₁ hp hnext hrun₁ hfresh
      (Stmt.relabelAll (.ofLines (· + Token.lastLine source)) p')
    have hload := load_append_newline hscan (scanErrors_of_load hl) hp (hnext ▸ hp') hr hr'
    refine ⟨n, hn, fun fuel => ?_⟩
    have hjoined : s.run (n + fuel) (source ++ Segment.newline :: source') =
        ({ s₁ with nextId := cursor'.nextId }.install distances').conclude
          (Machine.run ({ s₁ with nextId := cursor'.nextId }.install distances').config fuel
            ⟨.execAll (Stmt.relabelAll (.ofLines (· + Token.lastLine source)) p'), [],
              s₁.state⟩) := by
      rw [← hrun', ← Machine.run_add, Session.run, hload, ← hs₁']
      rfl
    have hlater : s₁.run fuel source' =
        ({ s₁ with nextId := cursor'.nextId }.install distances').conclude
        (Machine.run ({ s₁ with nextId := cursor'.nextId }.install distances').config fuel
          ⟨.execAll p', [], s₁.state⟩) := by
      rw [Session.run, hl]
    -- Both runs now start from the same state, with programs that differ in lines.
    have hsame :=
      Machine.run_forgetLines ({ s₁ with nextId := cursor'.nextId }.install distances').config rfl
      fuel s₁.state (Program.relabelAll_ofLines (Cursor.proper_ofTokens _ _) hp'
        (· + Token.lastLine source)
        fun _ => 0)
    obtain ⟨hreport, hsession⟩ := conclude_forgetLines _ hsame
    rw [hjoined, hlater]
    refine ⟨hreport, ?_, ?_, congrArg (fun s => s.state.sink) hsession, hsession⟩
    · rw [← Report.isSuccess_forgetLines, hreport, Report.isSuccess_forgetLines]
    · rw [← Report.messages_forgetLines, hreport, Report.messages_forgetLines]

/-- The first source ends with an `if` without an `else` and a comment, and the second one fails
    after a call. -/
theorem run_append_newline_if :
    ∃ (s : Session) (source source' : List UInt8) (n : Nat), s.Reachable ∧
      (s.run 100 source).1.isSuccess = true ∧
      ((s.run 100 source).2.run 100 source').1.isRejected = false ∧
      (s.run n (source ++ Segment.newline :: source')).1.diagnostics.map Diagnostic.message =
        ["Undefined variable 'b'."] ∧
      (s.run n (source ++ Segment.newline :: source')).2.state.sink.written.toList =
        "1\n2\n".toUTF8.toList := by
  let s : Session := .new .unlimited (.still 0) 16
  let source := "fun f(a) \x7b return a; \x7d if (f(true)) print 1; // end".toUTF8.toList
  let source' := "print f(2); print b;".toUTF8.toList
  have hs : s.Reachable := .new _ _ _
  have hfirst : (s.run 100 source).1.isSuccess = true := by decide +kernel
  have hthen : ((s.run 100 source).2.run 100 source').1.isRejected = false := by decide +kernel
  obtain ⟨n, -, hn⟩ := run_append_newline hs hfirst hthen
  obtain ⟨-, -, hmessages, hsink, -⟩ := hn 100
  refine ⟨s, source, source', n + 100, hs, hfirst, hthen, hmessages.trans (by decide +kernel), ?_⟩
  rw [hsink]
  decide +kernel

end Session

end Lox
