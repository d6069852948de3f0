import Mathlib
import Lox.Proofs.DirectLoops

/-!
# What a `for` is read as

The statement that a `for` is read as does what the loop does as it is written (`ForLoop.step`). The
two runs differ in frames: in each round the statement goes into a block around body and increment,
where nothing is ever declared, and the loop does not. So the runs are alike with additional frames
(`Machine.Twin`), part by part. What is pending below a part is what leads the statement to the next
one (`ForLoop.Awaits`).

* `ForLoop.Follows.step`: for each step of the loop the statement takes one or more;
* `ForLoop.Follows.run`: so the statement follows every run of the loop;
* `Session.for_runs_as_written`: at each moment at which a `for` is executed, the statement has the
  output, the flow and the effects of the loop, whose parts all share one frame.
-/

namespace Lox

namespace ForLoop

/-- What is pending below the `while` of a loop. -/
def after (loop : ForLoop) (home : Nat) : List Pending :=
  match loop.initial with
  | some _ => [.sequence [], .leaveBlock home]
  | none => []

/-- What is pending in the statement while a part of the loop is run, and the spot at which the part
    began. The frame of the loop is `F`, and the loop began in the frame `home`. -/
inductive Awaits (loop : ForLoop) (id home F : Nat) : Part → Spot → List Pending → Prop
  | initial : loop.initial.isSome →
      Awaits loop id home F .initial ⟨none, F, F⟩
        [.sequence [.loop (loop.test id) loop.round], .leaveBlock home]
  | condition : Awaits loop id home F .condition ⟨none, F, F⟩
      (.loopTest (loop.test id) loop.round :: loop.after home)
  | body : loop.increment = none → Awaits loop id home F .body ⟨none, F, F⟩
      (.loopBody (loop.test id) loop.round :: loop.after home)
  | bodyThen {e : Expr} {x : Nat} : loop.increment = some e →
      Awaits loop id home F .body ⟨some 0, F, x⟩
      (.sequence [.expression e] :: .leaveBlock F :: .loopBody (loop.test id) loop.round ::
        loop.after home)
  | increment {x : Nat} : Awaits loop id home F .increment ⟨some 0, F, x⟩
      (.sequence [] :: .leaveBlock F :: .loopBody (loop.test id) loop.round :: loop.after home)

/-- A statement follows a loop that is run as it is written. -/
inductive Follows (V : Views) (W : Layout) (loop : ForLoop) (id home F : Nat) : Run → Machine → Prop
  | part {p : Part} {base : Spot} {below : List Pending} {m m' : Machine} :
      loop.Awaits id home F p base below →
      (∀ o, m.outcome? = some o → ∃ f, o = .fault f) → Machine.Twin V W base below m m' →
      Follows V W loop id home F (.part p m) m'
  | ended {flow flow' : Flow} {st st' : State} : Control.Twin V W none flow.control flow'.control →
      State.Twin V W ⟨none, home, home⟩ st st' →
      Follows V W loop id home F (.ended flow st) ⟨.done flow'.outcome, [], st'⟩

/-- A statement follows a loop after some more steps. -/
def FollowsLater (cfg : Config) (V : Views) (W : Layout) (loop : ForLoop)
    (id home F : Nat) (r : Run) (m : Machine) : Prop :=
  ∃ W' n, W.Grows W' ∧ Follows V W' loop id home F r (m.run cfg n)

/-- What does not change while a loop is run: its code, and the frames it is run in and leads back
    to. -/
structure Setting (V : Views) (W : Layout) (loop : ForLoop) (f : Nat → Nat)
    (home F : Nat) : Prop where
  shifted : loop.Shifted V f
  atHome : W.At ⟨none, home, home⟩
  atFrame : W.At ⟨none, F, F⟩
  same : loop.initial = none → F = home

variable {V : Views} {W W' : Layout} {loop : ForLoop} {f : Nat → Nat} {id home F : Nat}
    {cfg cfg' : Config}
  {st st' : State} {r : Run} {m : Machine}

theorem Setting.mono (h : Setting V W loop f home F) (hW : W.Grows W') :
    Setting V W' loop f home F :=
  { h with
    atHome := hW.at h.atHome
    atFrame := hW.at h.atFrame }

variable {p : Part} {base : Spot} {below : List Pending}

/-- A part begins. -/
theorem Follows.of_going {m' : Machine} (h : loop.Awaits id home F p base below)
    (hm : m.outcome? = none) (htwin : Machine.Twin V W base below m m') :
    Follows V W loop id home F (.part p m) m' := by
  refine .part h (fun o ho => ?_) htwin
  rw [hm] at ho
  cases ho

theorem Follows.now (h : Follows V W loop id home F r m) :
    FollowsLater cfg V W loop id home F r m :=
  ⟨W, 0, .refl W, h⟩

theorem FollowsLater.of_run (k : Nat) (h : FollowsLater cfg V W loop id home F r (m.run cfg k)) :
    FollowsLater cfg V W loop id home F r m := by
  obtain ⟨W', n, hW, h⟩ := h
  exact ⟨W', k + n, hW, by rwa [Machine.run_add]⟩

theorem FollowsLater.of_grows (hW : W.Grows W') (h : FollowsLater cfg V W' loop id home F r m) :
    FollowsLater cfg V W loop id home F r m := by
  obtain ⟨W'', n, hW', h⟩ := h
  exact ⟨W'', n, hW.trans hW', h⟩

/-! ### The end of a loop -/

theorem Flow.outcome_ne_fault (flow : Flow) (fault : Fault) : flow.outcome ≠ .fault fault := by
  rcases flow with _ | (v | e) <;> exact nofun

/-- What is below the `while` leads back to where the loop began. -/
theorem leaves (cfg : Config) (flow : Flow) (hsame : loop.initial = none → F = home)
    (hf : st.frame = F) :
    ∃ n, Machine.run cfg n ⟨flow.control, loop.after home, st⟩ = ⟨.done flow.outcome, [],
      st.goTo home⟩ := by
  rw [after]
  cases hi : loop.initial with
  | none =>
    obtain rfl : st.frame = home := hf.trans (hsame hi)
    cases flow with
    | normal => exact ⟨1, rfl⟩
    | abrupt a => exact ⟨1, rfl⟩
  | some initial =>
    cases flow with
    | normal => exact ⟨4, rfl⟩
    | abrupt a => exact ⟨3, rfl⟩

/-- A `return` or an error leaves the whole statement, whatever part it comes from. -/
theorem Awaits.unwinds (h : loop.Awaits id home F p base below) (cfg : Config)
    (hsame : loop.initial = none → F = home) (a : Abrupt) (hf : st.frame = base.spread) :
    ∃ n, Machine.run cfg n (Machine.step cfg ⟨.unwind a, below, st⟩) = ⟨.done a.outcome, [],
      st.goTo home⟩ := by
  -- The `while` is left in the frame of the loop.
  have hleave : ∀ (st' : State) (k : Nat), st'.frame = F → st'.goTo home = st.goTo home →
      Machine.run cfg k (Machine.step cfg ⟨.unwind a, below, st⟩) =
        ⟨.unwind a, loop.after home, st'⟩ →
      ∃ n, Machine.run cfg n (Machine.step cfg ⟨.unwind a, below, st⟩) =
        ⟨.done a.outcome, [], st.goTo home⟩ := by
    intro st' k hF hst hk
    obtain ⟨n, hn⟩ := leaves cfg (.abrupt a) hsame hF
    refine ⟨k + n, ?_⟩
    rw [Machine.run_add, hk, ← hst]
    exact hn
  cases h with
  | initial _ => exact ⟨2, rfl⟩
  | condition => exact hleave st 0 hf rfl rfl
  | body _ => exact hleave st 0 hf rfl rfl
  | bodyThen _ => exact hleave (st.goTo F) 2 rfl rfl rfl
  | increment => exact hleave (st.goTo F) 2 rfl rfl rfl

/-! ### From part to part -/

section

variable (hS : Setting V W loop f home F) (hst : State.Twin V W ⟨none, F, F⟩ st st')
include hS hst

theorem followsLater_toBody (cfg : Config) :
    FollowsLater cfg V W loop id home F ((loop.relabel f).toBody st)
    ⟨.exec loop.round, .loopBody (loop.test id) loop.round :: loop.after home, st'⟩ := by
  have hbody := hS.shifted.body
  cases hi : loop.increment with
  | none =>
    rw [gap, hi] at hbody
    refine Follows.now (.of_going (.body hi) rfl ⟨⟨none, F, F⟩, hst, .nil, ?_⟩)
    rw [round, hi]
    exact .exec ⟨f, rfl, hbody⟩
  | some e =>
    -- Only the statement goes into a frame.
    have hrun : Machine.run cfg 2
        ⟨.exec loop.round, .loopBody (loop.test id) loop.round :: loop.after home, st'⟩ =
        ⟨.exec loop.body, .sequence [.expression e] :: .leaveBlock F ::
          .loopBody (loop.test id) loop.round ::
          loop.after home, st'.enter ∅ F⟩ := by
      obtain rfl : st'.frame = F := hst.spread
      rw [round, hi]
      rfl
    rw [gap, hi] at hbody
    refine .of_grows (W.grows_pushAdditional st'.store.frames.size F) (.of_run 2 ?_)
    rw [hrun]
    exact Follows.now
      (.of_going (.bodyThen hi) rfl ⟨_, hst.enterAdditional ∅, .nil, .exec ⟨f, rfl, hbody⟩⟩)

theorem followsLater_toTest (cfg : Config) :
    FollowsLater cfg V W loop id home F ((loop.relabel f).toTest st)
    ⟨.eval (loop.test id), .loopTest (loop.test id) loop.round :: loop.after home, st'⟩ := by
  cases hc : loop.condition with
  | some e =>
    have hnext : (loop.relabel f).toTest st =
        .part .condition ⟨.eval (e.relabel (.ofIds f)), [], st⟩ := by
      rw [toTest, relabel, hc]
      rfl
    rw [hnext]
    refine Follows.now (.of_going .condition rfl ⟨⟨none, F, F⟩, hst, .nil, ?_⟩)
    rw [test, hc]
    exact .eval ⟨f, rfl, hS.shifted.condition e hc⟩
  | none =>
    -- The statement evaluates the literal that is there for the condition.
    have hnext : (loop.relabel f).toTest st = (loop.relabel f).toBody st := by
      rw [toTest, relabel, hc]
      rfl
    have hrun : Machine.run cfg 2
        ⟨.eval (loop.test id), .loopTest (loop.test id) loop.round :: loop.after home, st'⟩ =
        ⟨.exec loop.round, .loopBody (loop.test id) loop.round :: loop.after home, st'⟩ := by
      rw [test, hc]
      rfl
    rw [hnext]
    refine .of_run 2 ?_
    rw [hrun]
    exact followsLater_toBody hS hst cfg

end

/-- A part that is over leads the statement to the next one. -/
theorem Awaits.delivers (h : loop.Awaits id home F p base below) (cfg : Config)
    (hS : Setting V W loop f home F) (hst : State.Twin V W base st st') {v v' : Value}
    (hv : Value.Twin V W v v') :
    FollowsLater cfg V W loop id home F ((loop.relabel f).next home v st p)
      (Machine.step cfg ⟨.deliver v', below, st'⟩) := by
  cases h with
  | initial hsome =>
    have hrun : Machine.run cfg 2 (Machine.step cfg
          ⟨.deliver v', [.sequence [.loop (loop.test id) loop.round], .leaveBlock home], st'⟩) =
        ⟨.eval (loop.test id), .loopTest (loop.test id) loop.round :: loop.after home, st'⟩ := by
      obtain ⟨initial, hi⟩ := Option.isSome_iff_exists.1 hsome
      rw [after, hi]
      rfl
    refine .of_run 2 ?_
    rw [hrun]
    exact followsLater_toTest hS hst cfg
  | condition =>
    rw [next, Machine.step, Machine.resume, hv.isTruthy]
    split
    · exact followsLater_toBody hS hst cfg
    · obtain ⟨n, hn⟩ := leaves cfg .normal hS.same hst.spread
      refine .of_run n ?_
      rw [Machine.deliver, show Machine.run cfg n ⟨.deliver .nil, loop.after home, st'⟩ = _ from hn]
      exact Follows.now (Follows.ended (.deliver .nil) (hst.goTo hS.atHome))
  | body hi =>
    have hnext : (loop.relabel f).next home v st .body = (loop.relabel f).toTest st := by
      rw [next, toIncrement, relabel, hi]
      rfl
    rw [hnext]
    exact followsLater_toTest hS hst cfg
  | bodyThen hi =>
    rename_i e x
    have hnext : (loop.relabel f).next home v st .body =
        .part .increment ⟨.eval (e.relabel (.ofIds f)), [], st⟩ := by
      rw [next, toIncrement, relabel, hi]
      rfl
    rw [hnext]
    exact .of_run 2 (Follows.now (.of_going .increment rfl
      ⟨_, hst, .nil, .eval ⟨f, rfl, hS.shifted.increment e hi⟩⟩))
  | increment =>
    -- The block around body and increment is left.
    have hst' : State.Twin V W ⟨none, F, F⟩ st (st'.goTo F) :=
      { hst with place := hS.atFrame, spread := rfl }
    exact .of_run 3 (followsLater_toTest hS hst' cfg)

/-! ### Steps and runs -/

/-- For a step of the loop the statement takes one step, and then as many as it needs. -/
theorem Follows.step (hcfg : Config.Twin V cfg cfg') (hS : Setting V W loop f home F)
    (h : Follows V W loop id home F r m) :
    FollowsLater cfg' V W loop id home F ((loop.relabel f).step cfg home r) (m.step cfg') := by
  cases h with
  | ended hflow hst => exact Follows.now (.ended hflow hst)
  | part hawaits hgoing htwin =>
    rename_i p base below m₀
    rcases m₀.inside_or with hm | ⟨v, st, rfl⟩ | ⟨a, st, rfl⟩
    · obtain ⟨W', hW, htwin'⟩ := htwin.step hcfg hm
      rw [step_of_inside hm]
      refine .of_grows hW (Follows.now (.part hawaits (fun o ho => ?_) htwin'))
      cases hout : m₀.outcome? with
      | none => exact Machine.fault_of_step hout hm ho
      | some o' =>
        rw [Machine.step_of_outcome hout, hout] at ho
        cases ho
        exact hgoing o hout
    · obtain ⟨v', st', rfl, hv, hst⟩ := htwin.deliver
      exact hawaits.delivers cfg' hS hst hv
    · obtain ⟨a', st', rfl, ha, hst⟩ := htwin.unwind
      obtain ⟨n, hn⟩ := hawaits.unwinds cfg' hS.same a' hst.spread
      have hflow : Control.Twin V W none (Flow.abrupt a).control (Flow.abrupt a').control := by
        cases ha with
        | returns hv => exact .returns hv
        | fails e => exact .fails e
      refine .of_run n ?_
      rw [hn]
      exact Follows.now (Follows.ended hflow (hst.goTo hS.atHome))

/-- A statement follows each run of its loop, and takes at least as many steps. -/
theorem Follows.run (hcfg : Config.Twin V cfg cfg') (hS : Setting V W loop f home F)
    (h : Follows V W loop id home F r m) (n : Nat) :
    ∃ W' n', W.Grows W' ∧ n ≤ n' ∧
      Follows V W' loop id home F ((loop.relabel f).run cfg home n r) (m.run cfg' n') := by
  induction n generalizing W r m with
  | zero => exact ⟨W, 0, .refl W, Nat.le_refl 0, h⟩
  | succ n ih =>
    obtain ⟨W₁, k, hW₁, h₁⟩ := h.step hcfg hS
    obtain ⟨W₂, n', hW₂, hn, h₂⟩ := ih (hS.mono hW₁) h₁
    refine ⟨W₂, k + n' + 1, hW₁.trans hW₂, by omega, ?_⟩
    rw [Machine.run_succ, Machine.run_add]
    exact h₂

/-- The statement gets to where the loop begins. -/
theorem follows_start (hs : loop.Shifted V f)
    (hst : State.Twin V W ⟨none, st.frame, st.frame⟩ st st) (cfg : Config) :
    ∃ W' n, W.Grows W' ∧ Setting V W' loop f st.frame (loop.frame st) ∧
      Follows V W' loop id st.frame (loop.frame st) ((loop.relabel f).start st)
        (Machine.run cfg n ⟨.exec (loop.lowered id), [], st⟩) := by
  cases hi : loop.initial with
  | none =>
    have hF : loop.frame st = st.frame := by rw [frame, hi]
    have hnext : (loop.relabel f).start st = (loop.relabel f).toTest st := by
      rw [start, relabel, hi]
      rfl
    have hrun : Machine.run cfg 1 ⟨.exec (loop.lowered id), [], st⟩ =
        ⟨.eval (loop.test id), .loopTest (loop.test id) loop.round :: loop.after st.frame, st⟩ := by
      rw [lowered_eq, after, hi]
      rfl
    have hS : Setting V W loop f st.frame st.frame := ⟨hs, hst.place, hst.place, fun _ => rfl⟩
    have htest : FollowsLater cfg V W loop id st.frame st.frame _ _ :=
      followsLater_toTest hS hst cfg
    obtain ⟨W', n, hW, h⟩ := htest
    refine ⟨W', 1 + n, hW, ?_, ?_⟩
    · rw [hF]
      exact hS.mono hW
    · rw [hF, hnext, Machine.run_add, hrun]
      exact h
  | some initial =>
    have hF : loop.frame st = st.store.frames.size := by rw [frame, hi]
    have hnext : (loop.relabel f).start st =
        .part .initial ⟨.exec (initial.relabel (.ofIds f)), [], st.enter ∅ st.frame⟩ := by
      rw [start, relabel, hi]
      rfl
    have hrun : Machine.run cfg 2 ⟨.exec (loop.lowered id), [], st⟩ =
        ⟨.exec initial, [.sequence [.loop (loop.test id) loop.round], .leaveBlock st.frame],
          st.enter ∅ st.frame⟩ := by
      rw [lowered_eq, hi]
      rfl
    have hW := W.grows_push st.store.frames.size none
    have hst' := hst.enter hst.place Bindings.twin_empty
    refine ⟨_, 2, hW, ?_, ?_⟩
    · rw [hF]
      refine ⟨hs, hW.at hst.place, hst'.place, fun hnone => ?_⟩
      rw [hi] at hnone
      cases hnone
    · rw [hF, hnext, hrun]
      exact .of_going (.initial (by rw [hi]; rfl)) rfl ⟨_, hst', .nil,
        .exec ⟨f, rfl, hs.initial initial hi⟩⟩

/-! ### What can be seen of a loop -/

/-- A loop that is run as it is written and a statement: both are going on or both have ended, in
    the same way. The states are alike, so the outputs are the same. -/
inductive Agrees (V : Views) (W : Layout) (home : Nat) : Run → Machine → Prop
  | going {p : Part} {spot : Spot} {m m' : Machine} : m.outcome? = none → m'.outcome? = none →
      State.Twin V W spot m.state m'.state → Agrees V W home (.part p m) m'
  | ended {flow flow' : Flow} {st st' : State} : Control.Twin V W none flow.control flow'.control →
      State.Twin V W ⟨none, home, home⟩ st st' →
      Agrees V W home (.ended flow st) ⟨.done flow'.outcome, [], st'⟩

theorem Follows.agrees (h : Follows V W loop id home F r m)
    (hm : ∀ fault, m.outcome? ≠ some (.fault fault)) :
    Agrees V W home r m := by
  cases h with
  | ended hflow hst => exact .ended hflow hst
  | part _ hgoing htwin =>
    rename_i m₀ _
    have hnone : m₀.outcome? = none := by
      cases ho : m₀.outcome? with
      | none => rfl
      | some o =>
        obtain ⟨fault, rfl⟩ := hgoing o ho
        obtain ⟨fault', ho'⟩ := htwin.outcome?_fault ho
        exact absurd ho' (hm fault')
    have hnone' := htwin.outcome?_eq_none hnone
    obtain ⟨spot, hst, -, -⟩ := htwin
    exact .going hnone hnone' hst

theorem Flow.eq_of_outcome {flow : Flow} {a : Abrupt} (h : flow.outcome = a.outcome) :
    flow = .abrupt a := by
  rcases flow with _ | (v | e) <;> rcases a with w | e' <;> cases h <;> rfl

theorem Flow.eq_of_value {flow : Flow} {v : Value} (h : flow.outcome = .value v) :
    flow = .normal ∧ v = .nil := by
  rcases flow with _ | (w | e) <;> cases h
  exact ⟨rfl, rfl⟩

end ForLoop

namespace Session

open ForLoop

variable {s : Session} {stmt : Stmt} {stack : List Pending} {st : State}

/-- A statement that is executed at some moment never ends with a fault, whatever is pending. -/
theorem Moment.exec_ne_fault (h : s.Moment ⟨.exec stmt, stack, st⟩) (n : Nat) (fault : Fault) :
    (Machine.run s.config n ⟨.exec stmt, [], st⟩).outcome? ≠ some (.fault fault) := by
  intro ho
  rcases Machine.run_onto s.config stack n (m := ⟨.exec stmt, [], st⟩) rfl with
    ⟨honto, -⟩ | ⟨k, -, v, st', -, hend⟩ | ⟨k, -, a, st', -, hend⟩
  · have hfault : (Machine.run s.config n ⟨.exec stmt, stack, st⟩).outcome? = some (.fault fault) :=
      (congrArg Machine.outcome? honto).trans ho
    rcases (h.of_run n).sound.outcome hfault with ⟨v, hv⟩ | ⟨e, he⟩
    · cases hv
    · cases he
  · rw [hend] at ho
    cases ho
  · rw [hend] at ho
    cases a <;> cases ho

/-- Once a statement is over, what is pending goes on. -/
theorem exec_leaves {cfg : Config} {n : Nat} {flow : Flow} {st' : State}
    (h : Machine.run cfg n ⟨.exec stmt, [], st⟩ = ⟨.done flow.outcome, [], st'⟩)
    (stack : List Pending) :
    ∃ k, Machine.run cfg k ⟨.exec stmt, stack, st⟩ = ⟨flow.control, stack, st'⟩ := by
  rcases Machine.run_onto cfg stack n (m := ⟨.exec stmt, [], st⟩) rfl with
    ⟨-, hfault⟩ | ⟨k, -, v, st₁, hk, hend⟩ | ⟨k, -, a, st₁, hk, hend⟩
  · obtain ⟨fault, ho⟩ := hfault flow.outcome (by rw [h]; rfl)
    exact absurd ho (flow.outcome_ne_fault fault)
  · rw [h] at hend
    obtain ⟨hcontrol, -, rfl⟩ := Machine.mk.inj hend
    obtain ⟨rfl, rfl⟩ := Flow.eq_of_value (Control.done.inj hcontrol)
    exact ⟨k, hk⟩
  · rw [h] at hend
    obtain ⟨hcontrol, -, rfl⟩ := Machine.mk.inj hend
    obtain rfl := Flow.eq_of_outcome (Control.done.inj hcontrol)
    exact ⟨k, hk⟩

/-- The configuration of a session with other distances. -/
def configWith (s : Session) (T : Table) : Config := { s.config with distances := T.distances }

/-- The statement that a `for` is read as does what a copy of the loop does as it is written. -/
structure RunsAsWritten (s : Session) (loop : ForLoop) (id : Nat) (stack : List Pending)
    (st : State) (T : Table) (copy : ForLoop) : Prop where
  /-- All parts of the loop are run in its one frame. -/
  shares : ∀ n, (copy.run (s.configWith T) st.frame n (copy.start st)).Balanced
      (loop.frame st) st.depth
  /-- However far the loop is run, the statement gets as far. Frames from before the loop and the
      frame of the loop are the same in both runs. -/
  agrees : ∀ n, ∃ n' W, n ≤ n' ∧ (Layout.plain st.store).Grows W ∧
    W.At ⟨none, loop.frame st, loop.frame st⟩ ∧
    Agrees ⟨T.distances, s.distances⟩ W st.frame
      (copy.run (s.configWith T) st.frame n (copy.start st))
      (Machine.run s.config n' ⟨.exec (loop.lowered id), [], st⟩)
  /-- After a loop that has ended, what is pending goes on, and it goes on alike for good. -/
  goesOn : ∀ n flow st₁, copy.run (s.configWith T) st.frame n (copy.start st) = .ended flow st₁ →
    ∃ (k : Nat) (W : Layout) (flow' : Flow) (st₂ : State), (Layout.plain st.store).Grows W ∧
      Machine.run s.config k ⟨.exec (loop.lowered id), stack, st⟩ = ⟨flow'.control, stack, st₂⟩ ∧
      Control.Twin ⟨T.distances, s.distances⟩ W none flow.control flow'.control ∧
      State.Twin ⟨T.distances, s.distances⟩ W ⟨none, st.frame, st.frame⟩ st₁ st₂ ∧
      ∃ base, ∀ j, Machine.TwinLater ⟨T.distances, s.distances⟩ W base []
        (Machine.run (s.configWith T) j ⟨flow.control, stack, st₁⟩)
        (Machine.run s.config j ⟨flow'.control, stack, st₂⟩)

variable {loop copy : ForLoop} {id : Nat} {here : Point} {T : Table}

theorem config_twin (s : Session) (T : Table) :
    Config.Twin ⟨T.distances, s.distances⟩ (s.configWith T) s.config :=
  ⟨rfl, rfl, rfl, rfl, rfl⟩

/-- At first all frames are their own twins. -/
theorem Moment.twin_self (h : s.Moment ⟨.exec stmt, stack, st⟩) (hT : T.Extends s.table) :
    State.Twin ⟨T.distances, s.distances⟩ (.plain st.store) ⟨none, st.frame, st.frame⟩ st st ∧
      ∃ base, StackTwin ⟨T.distances, s.distances⟩ (.plain st.store) base []
        ⟨none, st.frame, st.frame⟩
        stack stack := by
  have hsound := h.sound
  have hf : st.frame < st.store.frames.size := hsound.frame
  obtain ⟨here, -, -, hstack⟩ := hsound.control
  have hstore := hsound.store.twin_self hT (Nat.lt_of_le_of_lt (Nat.zero_le _) hf)
  exact ⟨⟨hstore, Layout.at_plain hf, rfl, rfl, rfl, rfl, rfl⟩, hstack.twin_self hT hf⟩

/-- A `for` that is executed has a copy that is resolved as it is written. -/
theorem Moment.exists_copy (h : s.Moment ⟨.exec (loop.lowered id), stack, st⟩)
    (hres : (loop.lowered id).Resolved s.table here.within here.scopes) :
    ∃ T copy, loop.Copy s.table here T copy := by
  obtain ⟨built, hhistory⟩ := h.history
  have hm : Machine.Seated s.table built ⟨.exec (loop.lowered id), stack, st⟩ := hhistory.seated
  obtain ⟨-, path, hh⟩ := hm.control
  exact ForLoop.exists_copy hres hh.admits.nodup hh.admits.bound

theorem Moment.runsAsWritten (h : s.Moment ⟨.exec (loop.lowered id), stack, st⟩)
    (hres : (loop.lowered id).Resolved s.table here.within here.scopes)
    (hcopy : loop.Copy s.table here T copy) : s.RunsAsWritten loop id stack st T copy := by
  obtain ⟨hT, ⟨f, rfl⟩, hresolved⟩ := hcopy
  obtain ⟨hst, base, hstack⟩ := h.twin_self hT
  have hcfg := s.config_twin T
  have hs := shifted_of_resolved (resolved_lowered hres) hresolved
  obtain ⟨W₀, k, hW₀, hS, hstart⟩ := follows_start hs hst s.config
  have hfollows : ∀ n, ∃ W n', (Layout.plain st.store).Grows W ∧ n ≤ n' ∧
      W.At ⟨none, loop.frame st, loop.frame st⟩ ∧
      Follows ⟨T.distances, s.distances⟩ W loop id st.frame (loop.frame st)
        ((loop.relabel f).run (s.configWith T) st.frame n ((loop.relabel f).start st))
        (Machine.run s.config n' ⟨.exec (loop.lowered id), [], st⟩) := by
    intro n
    obtain ⟨W, n', hW, hn, hrun⟩ := hstart.run hcfg hS n
    refine ⟨W, k + n', hW₀.trans hW, by omega, hW.at hS.atFrame, ?_⟩
    rw [Machine.run_add]
    exact hrun
  refine ⟨fun n => ?_, fun n => ?_, fun n flow st₁ hend => ?_⟩
  · have hframe : (loop.relabel f).frame st = loop.frame st := by
      rw [frame, relabel, frame]
      cases loop.initial <;> rfl
    rw [← hframe]
    exact balanced_run st n
  · obtain ⟨W, n', hW, hn, hat, hrun⟩ := hfollows n
    exact ⟨n', W, hn, hW, hat, hrun.agrees (h.exec_ne_fault n')⟩
  · obtain ⟨W, n', hW, -, -, hrun⟩ := hfollows n
    rw [hend] at hrun
    generalize hm : Machine.run s.config n' ⟨.exec (loop.lowered id), [], st⟩ = m at hrun
    cases hrun with
    | ended hflow hst' =>
      obtain ⟨j, hj⟩ := exec_leaves hm stack
      refine ⟨j, W, _, _, hW, hj, hflow, hst', base, fun i => ?_⟩
      exact Machine.Twin.run hcfg ⟨_, hst', hstack.mono hW, hflow⟩ i

/-- What a `for` is read as does what the `for` says. A statement that begins with `for` is read as
    the loop of its parts. Whenever the statement is executed, the loop can be resolved as it is
    written, with all its parts in one scope, and run so: however it is resolved, both have the same
    output, both end in the same way or go on for ever, and the frames and instances that were there
    before are left alike. -/
theorem for_runs_as_written :
    (∀ {fuel : Nat} {c c' : Cursor} {stmt : Stmt}, c.peek.kind = .keyword .for →
      Read.statement (fuel + 1) c = .ok stmt c' →
      ∃ (loop : ForLoop) (id : Nat), loop.ReadAt id fuel c c' ∧ stmt = loop.lowered id) ∧
    ∀ {s : Session} {loop : ForLoop} {id : Nat} {stack : List Pending} {st : State},
      s.Moment ⟨.exec (loop.lowered id), stack, st⟩ →
      (∃ here : Point, st.store.Fits st.frame here.scopes ∧
        (loop.lowered id).Resolved s.table here.within here.scopes) ∧
      ∀ here : Point, (loop.lowered id).Resolved s.table here.within here.scopes →
        (∃ T copy, loop.Copy s.table here T copy) ∧
        ∀ T copy, loop.Copy s.table here T copy → s.RunsAsWritten loop id stack st T copy := by
  refine ⟨Read.forLoop_of_statement,
    fun h => ⟨?_, fun here hres => ⟨h.exists_copy hres, fun T copy hcopy => ?_⟩⟩⟩
  · obtain ⟨here, hfits, hres, -⟩ := h.sound.control
    exact ⟨here, hfits, hres⟩
  · exact h.runsAsWritten hres hcopy

end Session

/-- The loop of a statement that is a `for` with all its parts. -/
def ForLoop.ofStmt? : Stmt → Option ForLoop
  | .block [initial, .loop condition (.block [body, .expression increment])] =>
    match h : body.declares? with
    | none => some ⟨some initial, some condition, some increment, body, h⟩
    | some _ => none
  | _ => none

theorem ForLoop.lowered_of_ofStmt? {stmt : Stmt} {loop : ForLoop} (h : ofStmt? stmt = some loop) :
    stmt = loop.lowered 0 := by
  unfold ofStmt? at h
  split at h
  · split at h
    · cases h
      rfl
    · cases h
  · cases h

/-- The loop of the statement that is executed next. -/
def Control.loop? : Control → Option ForLoop
  | .exec stmt => ForLoop.ofStmt? stmt
  | _ => none

theorem Control.eq_exec_of_loop? {control : Control} {loop : ForLoop}
    (h : control.loop? = some loop) : control = .exec (loop.lowered 0) := by
  unfold loop? at h
  split at h
  · rw [← ForLoop.lowered_of_ofStmt? h]
  · cases h

/-- Whether a reading succeeds. -/
def Read.succeeds {α : Type} (r : Read α) (s : Cursor) : Bool :=
  match r s with
  | .ok _ _ => true
  | .error _ _ => false

/-- What can be seen of a machine that is over: its output, and the variable `x` in the frame
    `f`. -/
def Machine.seen? (f : Nat) (x : String) : Machine → Option (List UInt8 × Option String)
  | ⟨.done (.value _), _, st⟩ =>
    some (st.sink.written.data.toList, ((st.store.frame f).bindings.get? x).map Value.display)
  | _ => none

/-- The same can be seen of a loop that is run as it is written. -/
theorem ForLoop.Agrees.ended_of_seen? {V : Views} {W : Layout} {home f : Nat} {x : String}
    {r : Run} {m : Machine} {output : List UInt8} {shown : Option String} (h : Agrees V W home r m)
    (hf : W.At ⟨none, f, f⟩) (hm : m.seen? f x = some (output, shown)) :
    ∃ st, r = .ended .normal st ∧ st.sink.written.data.toList = output ∧
      ((st.store.frame f).bindings.get? x).map Value.display = shown := by
  unfold Machine.seen? at hm
  split at hm
  · next v stack st' =>
    obtain ⟨rfl, rfl⟩ := Prod.mk.inj (Option.some.inj hm)
    generalize hend : (⟨.done (.value v), stack, st'⟩ : Machine) = m at h
    cases h with
    | going _ hnone _ =>
      rw [← hend] at hnone
      cases hnone
    | @ended flow flow' st _ hflow hst =>
      obtain ⟨hcontrol, -, rfl⟩ := Machine.mk.inj hend
      obtain ⟨rfl, -⟩ := Flow.eq_of_value (Control.done.inj hcontrol).symm
      have hnormal : flow = .normal := by
        cases flow with
        | normal => rfl
        | abrupt a => cases hflow
      refine ⟨st, by rw [hnormal], by rw [hst.sink], ?_⟩
      rcases Option.Rel.cases (hst.store.bindings f f none hf x) with ⟨hb, hb'⟩
        | ⟨v, v', hb, hb', hv⟩
      · rw [hb, hb']
      · rw [hb, hb', Option.map_some, Option.map_some, hv.display]
  · cases hm

namespace Session

/-- The function that is made in the first round prints the variable of the loop as it is in the
    second one. -/
theorem for_runs_as_written_closure :
    (∃ (fuel : Nat) (c c' : Cursor) (stmt : Stmt) (loop : ForLoop) (id : Nat),
      c.peek.kind = .keyword .for ∧
      Read.statement (fuel + 1) c = .ok stmt c' ∧ loop.ReadAt id fuel c c' ∧
      stmt = loop.lowered id) ∧
    ∃ (s : Session) (loop copy : ForLoop) (stack : List Pending) (st st₁ : State)
      (here : Point) (T : Table),
      s.Moment ⟨.exec (loop.lowered 0), stack, st⟩ ∧
      (loop.lowered 0).Resolved s.table here.within here.scopes ∧ loop.Copy s.table here T copy ∧
      copy.run (s.configWith T) st.frame 140 (copy.start st) = .ended .normal st₁ ∧
      st₁.sink.written.data.toList = "\nx\n".toUTF8.data.toList ∧
      ((st₁.store.frame (loop.frame st)).bindings.get? "i").map Value.display = some "xx" := by
  refine ⟨?_, ?_⟩
  · obtain ⟨c, hfor, hread⟩ : ∃ c : Cursor, c.peek.kind = .keyword .for ∧
      (Read.statement 9).succeeds c = true :=
      ⟨.ofTokens (Token.scanAll "for (;;) print nil;".toUTF8.toList).1
        0, by decide +kernel, by decide +kernel⟩
    unfold Read.succeeds at hread
    split at hread
    · next stmt c' hstmt =>
      obtain ⟨loop, id, hat, heq⟩ := for_runs_as_written.1 hfor hstmt
      exact ⟨8, c, c', stmt, loop, id, hfor, hstmt, hat, heq⟩
    · cases hread
  · -- All that is computed is the statement: it is executed after 4 steps, and over after 140 more.
    obtain ⟨s, source, hs, hrun⟩ : ∃ (s : Session) (source : List UInt8), s.Reachable ∧
        ((s.machineAfter 4 source).bind fun m => m.control.loop?.bind fun loop =>
          (Machine.run (s.load source).2.config 140 ⟨.exec (loop.lowered 0), [], m.state⟩).seen?
            (loop.frame m.state) "i") =
          some ("\nx\n".toUTF8.data.toList, some "xx") :=
      ⟨.new .unlimited (.still 0) 16,
        ("var g; for (var i = \"\"; i != \"xx\"; i = i + \"x\") \x7b" ++
          "if (!g) \x7b fun show() \x7b print i; \x7d g = show; \x7d g(); \x7d").toUTF8.toList,
        .new _ _ _, by decide +kernel⟩
    obtain ⟨m, hm, hrun⟩ := Option.bind_eq_some_iff.1 hrun
    obtain ⟨loop, hloop, hrun⟩ := Option.bind_eq_some_iff.1 hrun
    have hmoment := hs.moment hm
    generalize (s.load source).2 = s' at hrun hmoment
    obtain ⟨control, stack, st⟩ := m
    obtain rfl := Control.eq_exec_of_loop? hloop
    obtain ⟨⟨here, -, hres⟩, hruns⟩ := for_runs_as_written.2 hmoment
    obtain ⟨⟨T, copy, hcopy⟩, hall⟩ := hruns here hres
    obtain ⟨n', W, hn, -, hat, hagrees⟩ := (hall T copy hcopy).agrees 140
    -- The statement is over already, so the loop is over too.
    have hover : Machine.run s'.config n' ⟨.exec (loop.lowered 0), [], st⟩ =
        Machine.run s'.config 140 ⟨.exec (loop.lowered 0), [], st⟩ := by
      obtain ⟨k, rfl⟩ := Nat.exists_eq_add_of_le hn
      rw [Machine.run_add]
      generalize Machine.run s'.config 140 ⟨.exec (loop.lowered 0), [], st⟩ = m at hrun
      unfold Machine.seen? at hrun
      split at hrun
      · exact Machine.run_done ..
      · cases hrun
    rw [hover] at hagrees
    obtain ⟨st₁, hend, hsink, hvar⟩ := hagrees.ended_of_seen? hat hrun
    exact ⟨s', loop, copy, stack, st, st₁, here, T, hmoment, hres, hcopy, hend, hsink, hvar⟩

end Session

end Lox
