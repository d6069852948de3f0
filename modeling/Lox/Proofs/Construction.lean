import Mathlib
import Lox.Proofs.Confinement
import Lox.Proofs.Properties
import Lox.Proofs.Surroundings

/-!
# What the call of a class yields

The call of a class makes an instance, and the method that sets it up can run any code. Still the
result is that instance, if the call does not fail. The body of the method is left over an entry of
the stack that reads `this` in the frame the method was bound in, whether the body comes to its end
or is left by a `return`. That frame binds `this` to the instance from the beginning, and nothing
ever binds `this` again (`Session.Moment.retains_run`). The same holds where such a method is called
by itself, as a property of an instance or through `super`.

A call is followed from the moment when what is called is known: its arguments are evaluated, a body
runs, and a value is handed on, or it fails somewhere (`Machine.Calling`). Steps lead from one of
these to another (`Machine.Calling.step`).

* `Machine.Ends`: how a call can end;
* `Machine.Begins`: the body of the method that sets an instance up begins;
* `Session.call_yields_instance`: calls of classes, and of methods that set up instances.
-/

namespace Lox

/-! ### `this` stays as it is -/

theorem Machine.Seated.isName_of_binds {T : Table} {built : List Class} {m : Machine}
    (h : m.Seated T built) : ∀ name ∈ m.binds, name.IsName := by
  obtain ⟨control, stack, st⟩ := m
  intro name hn
  unfold Machine.binds at hn
  split at hn
  · next stmt stack' st' heq =>
    cases heq
    exact Walk.isName_of_regular h.control.1 name (Option.mem_toList.1 hn)
  · next heq =>
    cases heq
    exact List.mem_singleton.1 hn ▸ h.entries.1
  · next heq =>
    cases heq
    exact List.mem_singleton.1 hn ▸ h.entries.1
  · cases hn

namespace Session

variable {s : Session} {m : Machine}

/-- Frames keep what they bind `this` and `super` to. -/
theorem Moment.retains_step (h : s.Moment m) :
    m.state.store.Retains (m.step s.config).state.store := by
  obtain ⟨built, hhistory⟩ := h.history
  have hm : m.Seated s.table built := hhistory.seated
  refine (Machine.edited_step s.config m).lift (.refl _) fun store e he hs => hs.trans ?_
  cases e with
  | define f name v => exact .define store f (hm.isName_of_binds name he) v
  | newFrame bindings enclosing => exact .newFrame store bindings enclosing
  | newIdentity => exact .newIdentity store
  | newInstance => exact .newInstance store
  | setField i name v => exact .setField store i name.text v

theorem Moment.retains_run (h : s.Moment m) (fuel : Nat) :
    m.state.store.Retains (m.run s.config fuel).state.store := by
  induction fuel generalizing m with
  | zero => exact .refl _
  | succ fuel ih =>
    rw [Machine.run_succ]
    exact h.retains_step.trans (ih h.step)

theorem Moment.sound (h : s.Moment m) : m.Sound s.table := by
  obtain ⟨built, hhistory⟩ := h.history
  exact hhistory.sound.2 m rfl

/-- The number of an instance that is made is a new one. -/
theorem Moment.objects_lt (h : s.Moment m) :
    m.Objects fun i _ => i < m.state.store.fields.size := by
  obtain ⟨steps, hpast⟩ := h.past
  obtain ⟨hrecorded, hobjects⟩ := hpast.recorded
  refine hobjects.mono fun i c hc => ?_
  rw [hrecorded.size]
  exact (List.getElem?_eq_some_iff.1 hc).1

theorem Moment.size_fields_run (h : s.Moment m) (fuel : Nat) :
    m.state.store.fields.size ≤ (m.run s.config fuel).state.store.fields.size := by
  induction fuel generalizing m with
  | zero => exact Nat.le_refl _
  | succ fuel ih =>
    rw [Machine.run_succ]
    refine Nat.le_trans ?_ (ih h.step)
    rw [Machine.size_fields_step]
    exact Nat.le_add_right ..

end Session

namespace Machine

/-! ### The course of a call -/

/-- Entries over which a value is left as it is. -/
def Hands (object : Value) (entries : List Pending) : Prop :=
  ∀ pending ∈ entries, pending = .construct object ∨ pending = .leaveCall

/-- A call of `callee` is going on over the given stack, or is just over. If it does not fail, its
    result is as `Q` says. -/
inductive Calling (T : Table) (callee : Value) (Q : Value → Prop) (stack : List Pending) :
    Machine → Prop
  /-- It is known what is called. -/
  | called {line : Nat} {arguments : List Expr} {st : State} :
      Calling T callee Q stack ⟨.deliver callee, .callee line arguments :: stack, st⟩
  /-- An argument is evaluated. -/
  | collecting {m : Machine} {line : Nat} {before : List Value} {rest : List Expr} : m.Sound T →
      m.outcome? = none →
      Calling T callee Q stack (m.onto (.argument callee line before rest :: stack))
  /-- A body runs that sets up an instance. -/
  | running {m : Machine} {closure : Closure} {f : Nat} {object : Value} {entries : List Pending} :
      m.outcome? = none → closure.isInitializer = true →
      (m.state.store.frame closure.frame).bindings.get? "this" = some object → Q object →
      Hands object entries →
      Calling T callee Q stack (m.onto (.leaveBody closure f :: (entries ++ stack)))
  /-- The result is handed on. -/
  | handing {object : Value} {entries : List Pending} {st : State} : Q object →
      Hands object entries →
      Calling T callee Q stack ⟨.deliver object, entries ++ stack, st⟩
  /-- The call fails. -/
  | failing {e : RuntimeError} {entries : List Pending} {st : State} :
      Calling T callee Q stack ⟨.unwind (.fails e), entries ++ stack, st⟩

variable {T : Table} {callee : Value} {Q : Value → Prop} {stack : List Pending} {m : Machine}

/-- The call has failed. -/
theorem Calling.failed (e : RuntimeError) (st : State) :
    Calling T callee Q stack ⟨.unwind (.fails e), stack, st⟩ :=
  List.nil_append stack ▸ .failing

theorem Calling.going (h : m.Calling T callee Q stack) : m.outcome? = none := by
  cases h with
  | collecting _ h => exact h
  | running h => exact h
  | _ => rfl

/-- A call that is over has failed or has a result. -/
theorem Calling.over (h : m.Calling T callee Q stack) (hle : m.stack.length ≤ stack.length) :
    m.stack = stack ∧ ((∃ e, m.control = .unwind (.fails e)) ∨ ∃ object,
      Q object ∧ m.control = .deliver object) := by
  have hnil : ∀ {entries : List Pending}, (entries ++ stack).length ≤ stack.length →
      entries ++ stack = stack := by
    intro entries h
    rw [List.length_append] at h
    rw [List.eq_nil_of_length_eq_zero (by omega : entries.length = 0), List.nil_append]
  cases h with
  | called => exact absurd hle (Nat.not_succ_le_self _)
  | @collecting m =>
    have hle : (m.stack ++ _ :: stack).length ≤ stack.length := hle
    simp only [List.length_append, List.length_cons] at hle
    omega
  | @running m =>
    have hle : (m.stack ++ _ :: (_ ++ stack)).length ≤ stack.length := hle
    simp only [List.length_append, List.length_cons] at hle
    omega
  | handing hQ => exact ⟨hnil hle, .inr ⟨_, hQ, rfl⟩⟩
  | failing => exact ⟨hnil hle, .inl ⟨_, rfl⟩⟩

/-- A body that sets up an instance yields it, whatever it ends with. -/
theorem bodyResult_of_this {closure : Closure} {store : Store} {object : Value}
    (hi : closure.isInitializer = true)
    (hthis : (store.frame closure.frame).bindings.get? "this" = some object) (v : Value) :
    bodyResult closure v store = .ok object := by
  have hget : store.getAt closure.frame 0 "this" = .ok object := Store.getAt_of_ancestor rfl hthis
  rw [bodyResult, if_pos hi, hget]
  rfl

/-- An error passes any entry by. -/
theorem unwindOver_fails (e : RuntimeError) (stack : List Pending) (st : State)
    (pending : Pending) :
    ∃ st', unwindOver (.fails e) stack st pending = ⟨.unwind (.fails e), stack, st'⟩ := by
  cases pending <;> exact ⟨_, rfl⟩

/-- An expression that is evaluated next can be evaluated by itself, as if no function were
    around. -/
theorem Sound.apart {v : Value} {pending : Pending} {st : State}
    (h : Sound T ⟨.deliver v, pending :: stack, st⟩) {e : Expr}
    (he : ∀ here next, pending.Sound T st.store here next → e.Resolved T here.scopes) :
    Sound T ⟨.eval e, [], st⟩ := by
  obtain ⟨hstore, hframe, here, hfits, -, hstack⟩ := h
  cases hstack with
  | cons hp _ => exact ⟨hstore, hframe, ⟨.none, here.scopes⟩, hfits, he here _ hp, .nil rfl⟩

/-- A step that hands no result on could only end by a fault. So the machine is going on if it is
    sound after the step, in whatever surroundings. -/
theorem Sound.going_step {cfg : Config} {m' : Machine} (h : Sound T m')
    (ho : m'.outcome? = (Machine.step cfg m).outcome?) (hgoing : m.outcome? = none)
    (hin : m.Inside) : (Machine.step cfg m).outcome? = none := by
  refine Option.eq_none_iff_forall_ne_some.2 fun o hdone => ?_
  obtain ⟨f, rfl⟩ := fault_of_step hgoing hin hdone
  rcases h.outcome (ho.trans hdone) with ⟨v, hv⟩ | ⟨e, he⟩
  · cases hv
  · cases he

/-- A step of a call, up to where it is over. What happens once all arguments are there is left
    open. -/
theorem Calling.step {s : Session} (hm : s.Moment m) (h : m.Calling s.table callee Q stack)
    (hlt : stack.length < m.stack.length)
    (hcall : ∀ line arguments, m.Calls callee line arguments stack m.state →
      (call s.config callee line arguments stack m.state).Calling s.table callee Q stack) :
    (step s.config m).Calling s.table callee Q stack := by
  cases h with
  | @called line arguments st =>
    cases arguments with
    | nil => exact hcall line [] (.bare callee line stack st)
    | cons e rest =>
      have hnext : Machine.Sound s.table ⟨.eval e, [], st⟩ := hm.sound.apart fun _ _ hp => hp.2.1
      exact .collecting hnext rfl
  | @collecting m line before rest hsound hgoing =>
    rcases m.inside_or with hin | ⟨v, st, rfl⟩ | ⟨a, st, rfl⟩
    · rw [step_onto hin]
      have hsound' := hsound.step (Session.serves_config s)
      exact .collecting hsound' (hsound'.going_step rfl hgoing hin)
    · cases rest with
      | nil => exact hcall line _ (.last callee v line before stack st)
      | cons e rest =>
        have hnext : Machine.Sound s.table ⟨.eval e, [], st⟩ :=
          hm.sound.apart fun _ _ hp => hp.2.2.2.1
        exact .collecting hnext rfl
    · cases a with
      | returns v =>
        -- With nothing pending, there is no body to return from.
        obtain ⟨-, -, here, hwithin, -, hstack⟩ := hsound
        cases hstack with
        | nil hnone => exact absurd hnone hwithin
      | fails e => exact failed e st
  | @running m closure f object entries hgoing hi hthis hQ hhands =>
    rcases m.inside_or with hin | ⟨v, st, rfl⟩ | ⟨a, st, rfl⟩
    · have hretains := hm.retains_step
      have hnext := hm.step.sound
      rw [step_onto hin] at hretains hnext ⊢
      exact .running (hnext.going_step rfl hgoing hin) hi
        ((hretains.this closure.frame (Store.lt_size_of_get? hthis)).trans hthis) hQ hhands
    · -- Whatever the body returns, the instance is handed on.
      change (finish (bodyResult closure .nil st.store) (entries ++ stack) (st.goTo f)).Calling
        s.table callee Q stack
      rw [bodyResult_of_this hi hthis]
      exact .handing hQ hhands
    · cases a with
      | returns v =>
        change (finish (bodyResult closure v st.store) (entries ++ stack) (st.goTo f)).Calling
          s.table callee Q stack
        rw [bodyResult_of_this hi hthis]
        exact .handing hQ hhands
      | fails e => exact .failing
  | @handing object entries st hQ hhands =>
    cases entries with
    | nil => exact absurd hlt (Nat.lt_irrefl _)
    | cons pending entries =>
      obtain ⟨hp, hrest⟩ := List.forall_mem_cons.1 hhands
      rcases hp with rfl | rfl
      · exact .handing hQ hrest
      · exact .handing hQ hrest
  | @failing e entries st =>
    cases entries with
    | nil => exact absurd hlt (Nat.lt_irrefl _)
    | cons pending entries =>
      obtain ⟨st', hstep⟩ := unwindOver_fails e (entries ++ stack) st pending
      change (unwindOver (.fails e) (entries ++ stack) st pending).Calling s.table callee Q stack
      rw [hstep]
      exact .failing

/-! ### How calls end -/

/-- What becomes of a call over the given stack, from the machine `start` on: after any number of
    steps it is going on, or it is over, and then it has failed or has the given result. -/
def Ends (cfg : Config) (start : Machine) (stack : List Pending) (result : Value → Prop) : Prop :=
  ∀ fuel, (runDown cfg stack.length fuel start = none ∧ (run cfg fuel start).outcome? = none) ∨
    ∃ m, runDown cfg stack.length fuel start = some m ∧ m.stack = stack ∧
      ((∃ e, m.control = .unwind (.fails e)) ∨ ∃ object,
        result object ∧ m.control = .deliver object)

/-- A call goes on from step to step until it is over. -/
theorem Calling.ends {s : Session} {start : Machine} (hstart : s.Moment start)
    (hfirst : start.Calling s.table callee Q stack)
    (hcall : ∀ n line arguments st, (run s.config n start).Calls callee line arguments stack st →
      (call s.config callee line arguments stack st).Calling s.table callee Q stack) :
    start.Ends s.config stack Q := by
  -- The steps that were taken are counted, so that each machine on the way is one of the run.
  have hrun : ∀ fuel n, (run s.config n start).Calling s.table callee Q stack →
      (runDown s.config stack.length fuel (run s.config n start) = none ∧
        (run s.config (n + fuel) start).outcome? = none) ∨
      ∃ m, runDown s.config stack.length fuel (run s.config n start) = some m ∧
        m.Calling s.table callee Q stack ∧ m.stack.length ≤ stack.length := by
    intro fuel
    induction fuel with
    | zero =>
      intro n hn
      rw [runDown]
      split
      · next hle => exact .inr ⟨_, rfl, hn, hle⟩
      · exact .inl ⟨rfl, hn.going⟩
    | succ fuel ih =>
      intro n hn
      rw [runDown]
      split
      · next hle => exact .inr ⟨_, rfl, hn, hle⟩
      · next hlt =>
        have hstep := hn.step (hstart.of_run n) (Nat.lt_of_not_le hlt) fun line arguments hcalls =>
          hcall n line arguments _ hcalls
        have hnext : Machine.step s.config (run s.config n start) = run s.config (n + 1) start := by
          rw [run_add, run_succ, run]
        rw [hnext] at hstep ⊢
        rw [Nat.add_comm fuel 1, ← Nat.add_assoc]
        exact ih (n + 1) hstep
  intro fuel
  rcases hrun fuel 0 hfirst with ⟨hnone, hgoing⟩ | ⟨m, hm, hcalling, hle⟩
  · exact .inl ⟨hnone, Nat.zero_add fuel ▸ hgoing⟩
  · exact .inr ⟨m, hm, hcalling.over hle⟩

end Machine

/-! ### Methods that set up instances -/

/-- A function that sets up the given instance. -/
structure Closure.Initializes (s : Store) (closure : Closure) (object : Value) : Prop where
  isInitializer : closure.isInitializer = true
  this : (s.frame closure.frame).bindings.get? "this" = some object

theorem Closure.Initializes.later {s s' : Store} {closure : Closure} {object : Value}
    (h : closure.Initializes s object) (hs : s.Retains s') : closure.Initializes s' object :=
  ⟨h.isInitializer, (hs.this _ (Store.lt_size_of_get? h.this)).trans h.this⟩

namespace Machine

/-- The body of the method that sets up instances of `c` begins for the instance `i`, in a frame
    right inside one that binds `this` to it. -/
def Begins (c : Class) (i : Nat) (stack : List Pending) (m : Machine) : Prop :=
  ∃ method closure f st, c.findMethod initializerName = some method ∧ closure.decl = method.decl ∧
    m = ⟨.execAll closure.decl.body, .leaveBody closure f :: .construct (.instance i c) ::
      .leaveCall :: stack, st⟩ ∧
    (st.store.frame st.frame).enclosing = some closure.frame ∧
    closure.Initializes st.store (.instance i c)

variable {T : Table} {callee : Value} {Q : Value → Prop} {stack : List Pending} {cfg : Config}
    {c : Class} {line : Nat}
  {arguments : List Value} {st : State}

variable {closure : Closure}

/-- A body of a function that sets up an instance begins. -/
theorem calling_enterBody {object : Value} (hc : closure.Initializes st.store object)
    (hQ : Q object) {entries : List Pending} (hh : Hands object entries) :
    (enterBody closure arguments (entries ++ stack) st).Calling T callee Q stack := by
  refine .running (m := ⟨.execAll closure.decl.body, [], st.enter _ closure.frame⟩)
    rfl hc.isInitializer ?_ hQ hh
  exact (hc.later (.newFrame st.store _ closure.frame)).this

theorem calling_function {identity : Nat} {object : Value}
    (hc : closure.Initializes st.store object) (hQ : Q object) :
    (call cfg (.callable (.function identity closure)) line arguments stack st).Calling T
      callee Q stack := by
  have hc' : closure.Initializes st.startCall.store object := hc
  have hhands : Hands object [.leaveCall] := fun pending hp => .inr (List.mem_singleton.1 hp)
  rw [call]
  split
  · exact .failed _ _
  split
  · exact .failed _ _
  · exact calling_enterBody hc' hQ hhands

theorem begins_enterBody {method : Closure} {i : Nat}
    (hm : c.findMethod initializerName = some method) (hd : closure.decl = method.decl)
    (hc : closure.Initializes st.store (.instance i c)) :
    (enterBody closure arguments (.construct (.instance i c) :: .leaveCall :: stack) st).Begins
      c i stack := by
  refine ⟨method, closure, st.frame, _, hm, hd, rfl, ?_,
    hc.later (.newFrame st.store _ closure.frame)⟩
  change ((Store.newFrame _ _ _).2.frame st.store.frames.size).enclosing = _
  rw [Store.frame_newFrame, if_pos rfl]

/-- A class is called: the call fails, or there is a new instance, which is set up if the class
    knows how to. -/
theorem call_class_cases (cfg : Config) (line : Nat) (arguments : List Value)
    (stack : List Pending) (st : State)
    (hinit : ∀ method, c.findMethod initializerName = some method → method.isInitializer = true) :
    (∃ e, call cfg (.callable (.class c)) line arguments stack st =
      ⟨.unwind (.fails e), stack, st⟩) ∨
      (c.findMethod initializerName = none ∧ ∃ st',
        call cfg (.callable (.class c)) line arguments stack st =
        ⟨.deliver (.instance st.store.fields.size c), .leaveCall :: stack, st'⟩) ∨
      (call cfg (.callable (.class c)) line arguments stack st).Begins c
        st.store.fields.size stack := by
  rw [call]
  split
  · exact .inl ⟨_, rfl⟩
  split
  · exact .inl ⟨_, rfl⟩
  rw [enter, instantiate]
  dsimp only
  cases hm : c.findMethod initializerName with
  | none => exact .inr (.inl ⟨rfl, _, rfl⟩)
  | some method =>
    refine .inr (.inr (begins_enterBody hm rfl ⟨hinit method hm, ?_⟩))
    change ((Store.newFrame _ _ _).2.frame st.store.frames.size).bindings.get? "this" = _
    rw [Store.frame_newFrame, if_pos rfl]
    exact Bindings.get?_insert_self ..

theorem calling_class (hinit : ∀ method, c.findMethod initializerName = some method →
      method.isInitializer = true)
    (hQ : (∀ method, c.findMethod initializerName = some method →
      (call cfg (.callable (.class c)) line arguments stack st).Begins c
        st.store.fields.size stack) →
      Q (.instance st.store.fields.size c)) :
    (call cfg (.callable (.class c)) line arguments stack st).Calling T callee Q stack := by
  rcases call_class_cases cfg line arguments stack st hinit with ⟨e, he⟩
    | ⟨hnone, st', hmade⟩ | hbegins
  · rw [he]
    exact .failed e st
  · have hobject := hQ fun method hm => by cases hnone.symm.trans hm
    have hhands : Hands (.instance st.store.fields.size c) [.leaveCall] := fun pending hp =>
      .inr (List.mem_singleton.1 hp)
    rw [hmade]
    exact .handing hobject hhands
  · have hobject := hQ fun _ _ => hbegins
    obtain ⟨method, closure, f, st', -, -, heq, -, hc⟩ := hbegins
    have hhands : Hands (.instance st.store.fields.size c)
        [.construct (.instance st.store.fields.size c), .leaveCall] := fun pending hp => by
      simpa using hp
    rw [heq]
    exact .running (m := ⟨.execAll closure.decl.body, [], st'⟩) rfl hc.isInitializer hc.this
      hobject hhands

end Machine

namespace Session

variable {s : Session}

/-- The method that sets up the instances of a class is marked as such. -/
theorem Moment.isInitializer_of_init {m : Machine} (hm : s.Moment m) :
    ∃ built, m.Seated s.table built ∧ ∀ c ∈ built, ∀ method,
    c.findMethod initializerName = some method →
      method.isInitializer = true := by
  obtain ⟨steps, hpast⟩ := hm.past
  refine ⟨steps.builds, hpast.history.seated, fun c hc method hmethod => ?_⟩
  obtain ⟨bodies, hbodies⟩ := hpast.exists_bodies hc
  obtain ⟨-, hmarked⟩ := Class.findMethod_eq (hbodies.imp fun _ _ hd => hd.hasBody) initializerName
  rw [hmarked method hmethod]
  rfl

variable {stack : List Pending} {st : State} {m : Machine} {line : Nat} {arguments : List Expr}

/-- A class is called. -/
theorem Moment.ends_class (hm : s.Moment m) {c : Class}
    (hstart : m = ⟨.deliver (.callable (.class c)), .callee line arguments :: stack, st⟩) :
    m.Ends s.config stack fun object => ∃ i, object = .instance i c ∧ m.Objects (fun j _ => j ≠ i) ∧
      ∀ method, c.findMethod initializerName = some method →
        ∃ n, (m.run s.config n).Begins c i stack := by
  obtain ⟨built, hseated, hmarked⟩ := hm.isInitializer_of_init
  have hc : c ∈ built := by
    subst hstart
    exact hseated.control
  have hcalled : ∀ Q, m.Calling s.table (.callable (.class c)) Q stack := fun Q => by
    rw [hstart]
    exact .called
  refine (hcalled _).ends hm fun n line arguments st' hcalls => Machine.calling_class (hmarked c hc)
    fun hbegins => ?_
  obtain ⟨-, rfl⟩ := hcalls.called
  refine ⟨_, rfl, ?_, fun method hmethod => ⟨n + 1, ?_⟩⟩
  · -- All instances from before the call have smaller numbers.
    refine hm.objects_lt.mono fun j _ hj => Nat.ne_of_lt ?_
    exact Nat.lt_of_lt_of_le hj (hm.size_fields_run n)
  · rw [Machine.run_add, Machine.run_succ, Machine.run, hcalls.step]
    exact hbegins method hmethod

/-- A function that sets up instances is called. -/
theorem Moment.ends_initializer (hm : s.Moment m) {identity : Nat} {closure : Closure}
    (hstart : m = ⟨.deliver (.callable (.function identity closure)),
      .callee line arguments :: stack, st⟩)
    (hi : closure.isInitializer = true) :
    ∃ i of, (∀ n, closure.Initializes (m.run s.config n).state.store (.instance i of)) ∧
      m.Ends s.config stack fun object => object = .instance i of := by
  have hcalled : ∀ Q, m.Calling s.table (.callable (.function identity closure)) Q stack :=
    fun Q => by
    rw [hstart]
    exact .called
  obtain ⟨i, of, hbound⟩ : ∃ i of, closure.Initializes m.state.store (.instance i of) := by
    have hsound := hm.sound
    subst hstart
    obtain ⟨here, -, hclosure, -⟩ := hsound.control
    obtain ⟨v, hv⟩ := Option.isSome_iff_exists.1 (hclosure.1 hi)
    obtain ⟨i, of, rfl⟩ := (hsound.store.bindings _ _ v hv).2.1 rfl
    exact ⟨i, of, hi, hv⟩
  have hstays : ∀ n, closure.Initializes (m.run s.config n).state.store (.instance i of) := fun n =>
    hbound.later (hm.retains_run n)
  refine ⟨i, of, hstays, (hcalled _).ends hm fun n line arguments st' hcalls => ?_⟩
  obtain ⟨-, rfl⟩ := hcalls.called
  exact Machine.calling_function (hstays n) rfl

/-- A function that sets up instances is read as a property. -/
theorem Moment.property_initializer {i : Nat} {c : Class} {name : Lexeme} {method : Closure}
    (hm : s.Moment ⟨.deliver (.instance i c), .get name :: stack, st⟩)
    (hname : name.text = initializerName) (hfield : st.store.field? i name.text = none)
    (hmethod : c.findMethod name.text = some method) :
    ∃ identity closure st',
      Machine.step s.config ⟨.deliver (.instance i c), .get name :: stack, st⟩ =
        .deliver (.callable (.function identity closure)) stack st' ∧
      closure.decl = method.decl ∧ closure.Initializes st'.store (.instance i c) := by
  obtain ⟨built, hseated, hmarked⟩ := hm.isInitializer_of_init
  obtain ⟨identity, closure, st', hread, hdecl, hsame, hthis⟩ :=
    Machine.property_of_method stack hfield hmethod
  have hmark : method.isInitializer = true := hmarked c hseated.control method (hname ▸ hmethod)
  exact ⟨identity, closure, st', hread, hdecl, hsame.trans hmark, hthis⟩

/-- A function that sets up instances is read through `super`. -/
theorem Moment.super_initializer {id : Nat} {keyword name : Lexeme}
    (hm : s.Moment ⟨.eval (.super id keyword name), stack, st⟩)
    (hname : name.text = initializerName) :
    ∃ i of, st.store.find? st.frame "this" = some (.instance i of) ∧
      (Machine.step s.config ⟨.eval (.super id keyword name), stack, st⟩ =
          .fail name.line (.undefinedProperty name.text) stack st ∨
        ∃ identity closure st', Machine.step s.config ⟨.eval (.super id keyword name), stack, st⟩ =
            .deliver (.callable (.function identity closure)) stack st' ∧
          closure.Initializes st'.store (.instance i of)) := by
  obtain ⟨built, hseated, hmarked⟩ := hm.isInitializer_of_init
  have hlexical : ∃ g i of, st.store.ThisFor built st.frame id g i of ∧
      ∀ c ∈ built, st.store.Inside g id c → ∃ d, c.superclass = some d ∧
        Machine.superMethod s.config id name stack st =
          .readMethod d name (.instance i of) stack st :=
    Machine.superMethod_eq hseated.valid hseated.control
  obtain ⟨g, i, of, hthis, hsuper⟩ := hlexical
  obtain ⟨c, hc, hinside⟩ := hthis.belongs
  obtain ⟨d, hd, heq⟩ := hsuper c hc hinside
  have hfind : st.store.find? st.frame "this" = some (.instance i of) := by
    rw [Store.find?, hthis.nearest]
    exact hthis.object
  have hstep : Machine.step s.config ⟨.eval (.super id keyword name), stack, st⟩ =
      .readMethod d name (.instance i of) stack st := heq
  refine ⟨i, of, hfind, ?_⟩
  rw [hstep, Machine.readMethod]
  cases hmethod : d.findMethod name.text with
  | none => exact .inl rfl
  | some method =>
    obtain ⟨identity, closure, st', hbound, -, hsame, hobject⟩ :=
      Machine.bound_eq st method (.instance i of)
    have hd' : d ∈ built := hseated.valid.lineage hc (Class.superclass_mem_lineage hd)
    have hmark : method.isInitializer = true := hmarked d hd' method (hname ▸ hmethod)
    dsimp only
    rw [hbound]
    exact .inr ⟨identity, closure, st', rfl, hsame.trans hmark, hobject⟩

/-- What calls yield, at every moment of every run. Let a class be called. After any number of steps
    the call is going on, or it has failed, or it has an instance of the class as its result. That
    instance was not there before the call, and if the class or one above it has a method that sets
    up instances, its body has begun for that instance as `this`. A function that sets up instances
    is bound to one of them for good. If it is called, the call goes on, or it has failed, or that
    instance is its result. It is such functions that are read as properties of instances, and
    through `super`, by the name of the method that sets up instances. -/
theorem call_yields_instance :
    (∀ {s : Session} {m : Machine} {c : Class} {line : Nat} {arguments : List Expr}
      {stack : List Pending} {st : State},
      s.Moment m → m = ⟨.deliver (.callable (.class c)), .callee line arguments :: stack, st⟩ →
      m.Ends s.config stack fun object => ∃ i, object = .instance i c ∧
        m.Objects (fun j _ => j ≠ i) ∧
        ∀ method, c.findMethod initializerName = some method →
          ∃ n, (m.run s.config n).Begins c i stack) ∧
    (∀ {s : Session} {m : Machine} {identity : Nat} {closure : Closure} {line : Nat}
      {arguments : List Expr} {stack : List Pending} {st : State}, s.Moment m →
      m = ⟨.deliver (.callable (.function identity closure)), .callee line arguments :: stack, st⟩ →
      closure.isInitializer = true →
      ∃ i of, (∀ n, closure.Initializes (m.run s.config n).state.store (.instance i of)) ∧
        m.Ends s.config stack fun object => object = .instance i of) ∧
    (∀ {s : Session} {i : Nat} {c : Class} {name : Lexeme} {method : Closure}
      {stack : List Pending} {st : State},
      s.Moment ⟨.deliver (.instance i c), .get name :: stack, st⟩ → name.text = initializerName →
      st.store.field? i name.text = none → c.findMethod name.text = some method →
      ∃ identity closure st',
        Machine.step s.config ⟨.deliver (.instance i c), .get name :: stack, st⟩ =
          .deliver (.callable (.function identity closure)) stack st' ∧
        closure.decl = method.decl ∧ closure.Initializes st'.store (.instance i c)) ∧
    (∀ {s : Session} {id : Nat} {keyword name : Lexeme} {stack : List Pending} {st : State},
      s.Moment ⟨.eval (.super id keyword name), stack, st⟩ → name.text = initializerName →
      ∃ i of, st.store.find? st.frame "this" = some (.instance i of) ∧
        (Machine.step s.config ⟨.eval (.super id keyword name), stack, st⟩ =
            .fail name.line (.undefinedProperty name.text) stack st ∨
          ∃ identity closure st',
            Machine.step s.config ⟨.eval (.super id keyword name), stack, st⟩ =
              .deliver (.callable (.function identity closure)) stack st' ∧
            closure.Initializes st'.store (.instance i of))) :=
  ⟨fun hm hstart => hm.ends_class hstart, fun hm hstart hi => hm.ends_initializer hstart hi,
    fun hm hname hfield hmethod => hm.property_initializer hname hfield hmethod,
    fun hm hname => hm.super_initializer hname⟩

end Session

namespace Machine

/-- The class that is called once the arguments are there. -/
def calledClass? : Machine → Option Class
  | ⟨.deliver (.callable (.class c)), .callee _ _ :: _, _⟩ => some c
  | _ => none

variable {m : Machine}

theorem eq_of_calledClass? {c : Class} (h : m.calledClass? = some c) :
    ∃ line arguments stack st,
      m = ⟨.deliver (.callable (.class c)), .callee line arguments :: stack, st⟩ := by
  unfold calledClass? at h
  split at h
  · cases h
    exact ⟨_, _, _, _, rfl⟩
  · cases h

/-- The name of a property that is read and then called, whether there is no such field, and whether
    there is such a method. -/
def calledProperty? : Machine → Option (String × Bool × Bool)
  | ⟨.deliver (.instance i c), .get name :: .callee _ _ :: _, st⟩ =>
    some (name.text, (st.store.field? i name.text).isNone, (c.findMethod name.text).isSome)
  | _ => none

theorem eq_of_calledProperty? {x : String} (h : m.calledProperty? = some (x, true, true)) :
    ∃ i c name line arguments stack st,
      m = ⟨.deliver (.instance i c), .get name :: .callee line arguments :: stack, st⟩ ∧
      name.text = x ∧
        st.store.field? i name.text = none ∧ ∃ method, c.findMethod name.text = some method := by
  unfold calledProperty? at h
  split at h
  · next i c name line arguments stack st =>
    simp only [Option.some.injEq, Prod.mk.injEq] at h
    obtain ⟨hname, hfield, hmethod⟩ := h
    exact ⟨i, c, name, line, arguments, stack, st, rfl, hname, Option.isNone_iff_eq_none.1 hfield,
      Option.isSome_iff_exists.1 hmethod⟩
  · cases h

/-- The name of a method that is read through `super` and then called. -/
def calledSuper? : Machine → Option String
  | ⟨.eval (.super _ _ name), .callee _ _ :: _, _⟩ => some name.text
  | _ => none

theorem eq_of_calledSuper? {x : String} (h : m.calledSuper? = some x) :
    ∃ id keyword name line arguments stack st,
      m = ⟨.eval (.super id keyword name), .callee line arguments :: stack, st⟩ ∧
      name.text = x := by
  unfold calledSuper? at h
  split at h
  · next id keyword name line arguments stack st =>
    exact ⟨id, keyword, name, line, arguments, stack, st, rfl, Option.some.inj h⟩
  · cases h

/-- The value that is handed on, as it is printed. -/
def shown? (m : Machine) : Option String :=
  match m.control with
  | .deliver v => some v.display
  | _ => none

/-- A call that is over and hands a value on has not failed. -/
theorem Ends.exists_of_shown {cfg : Config} {start : Machine} {stack : List Pending}
    {result : Value → Prop} (h : start.Ends cfg stack result) {fuel : Nat} {text : String}
    (hdown : runDown cfg stack.length fuel start = some m) (hshown : m.shown? = some text) :
    ∃ object, result object ∧ m.control = .deliver object := by
  rcases h fuel with ⟨hnone, -⟩ | ⟨_, hsome, -, ⟨e, hfails⟩ | hgives⟩
  · cases hdown.symm.trans hnone
  · cases hdown.symm.trans hsome
    rw [shown?, hfails] at hshown
    cases hshown
  · cases hdown.symm.trans hsome
    exact hgives

end Machine

/-- A function is bound to one instance. -/
theorem Closure.Initializes.unique {s : Store} {closure : Closure} {object object' : Value}
    (h : closure.Initializes s object) (h' : closure.Initializes s object') : object = object' :=
  Option.some.inj (h.this.symm.trans h'.this)

namespace Session

/-- The class `B` inherits the method that sets up its instances from `A`. The method is left by a
    `return` in a block in a loop. The method of `C` calls it through `super`, and is itself called
    as a property of an instance. -/
theorem call_yields_instance_inherited :
    ∃ s : Session,
      (∃ (m m' : Machine) (c : Class) (line : Nat) (arguments : List Expr) (stack : List Pending)
        (st : State) (i n : Nat), s.Moment m ∧
        m = ⟨.deliver (.callable (.class c)), .callee line arguments :: stack, st⟩ ∧ c.name = "B" ∧
        Machine.runDown s.config stack.length 20 m = some m' ∧
        m'.control = .deliver (.instance i c) ∧
        m.Objects (fun j _ => j ≠ i) ∧ (m.run s.config n).Begins c i stack) ∧
      (∃ (m m' : Machine) (i : Nat) (c : Class) (name : Lexeme) (line : Nat) (arguments : List Expr)
        (stack : List Pending) (st : State), s.Moment m ∧
        m = ⟨.deliver (.instance i c), .get name :: .callee line arguments :: stack, st⟩ ∧
        name.text = initializerName ∧
        Machine.runDown s.config stack.length 60 (m.step s.config) = some m' ∧
        m'.control = .deliver (.instance i c)) ∧
      (∃ (m m' : Machine) (id : Nat) (keyword name : Lexeme) (line : Nat) (arguments : List Expr)
        (stack : List Pending) (st : State) (i : Nat) (c : Class), s.Moment m ∧
        m = ⟨.eval (.super id keyword name), .callee line arguments :: stack, st⟩ ∧
        name.text = initializerName ∧ st.store.find? st.frame "this" = some (.instance i c) ∧
        Machine.runDown s.config stack.length 20 (m.step s.config) = some m' ∧
        m'.control = .deliver (.instance i c)) := by
  -- All that is computed is what is called after some steps, and what is handed on at the end of
  -- each call.
  obtain ⟨s, source, hs, hclass, hproperty, hsuper⟩ : ∃ (s : Session) (source : List UInt8),
    s.Reachable ∧
      ((s.machineAfter 10 source).bind fun m => m.calledClass?.map fun c =>
        (c.name, (c.findMethod initializerName).isSome,
          (Machine.runDown (s.load source).2.config (m.stack.length - 1) 20 m).map
            Machine.shown?)) =
        some ("B", true, some (some "B instance")) ∧
      ((s.machineAfter 58 source).map fun m => (m.calledProperty?,
          (Machine.runDown (s.load source).2.config (m.stack.length - 2) 60
            (m.step (s.load source).2.config)).map Machine.shown?)) =
        some (some (initializerName, true, true), some (some "C instance")) ∧
      ((s.machineAfter 41 source).map fun m => (m.calledSuper?,
          (m.step (s.load source).2.config).shown?,
          (Machine.runDown (s.load source).2.config (m.stack.length - 1) 20
            (m.step (s.load source).2.config)).map Machine.shown?)) =
        some (some initializerName, some "<fn init>", some (some "C instance")) :=
    ⟨.new .unlimited (.still 0) 16,
      ("class A \x7b init(x) \x7b while (x) \x7b return; \x7d \x7d \x7d " ++
        "class B < A \x7b\x7d B(\"v\"); " ++
        "class C < B \x7b init() \x7b super.init(nil); \x7d \x7d C().init();").toUTF8.toList,
      .new _ _ _, by decide +kernel, by decide +kernel, by decide +kernel⟩
  refine ⟨(s.load source).2, ?_, ?_, ?_⟩
  · obtain ⟨m, hm, hcall⟩ := Option.bind_eq_some_iff.1 hclass
    obtain ⟨c, hcalled, hcall⟩ := Option.map_eq_some_iff.1 hcall
    have hmoment := hs.moment hm
    obtain ⟨hname, hcall⟩ := Prod.mk.inj hcall
    obtain ⟨hinit, hend⟩ := Prod.mk.inj hcall
    obtain ⟨method, hmethod⟩ := Option.isSome_iff_exists.1 hinit
    obtain ⟨m', hdown, hshown⟩ := Option.map_eq_some_iff.1 hend
    obtain ⟨line, arguments, stack, st, hstart⟩ := Machine.eq_of_calledClass? hcalled
    have hheight : m.stack.length - 1 = stack.length := by rw [hstart]; rfl
    rw [hheight] at hdown
    obtain ⟨_, ⟨i, rfl, hnew, hbegins⟩, hgives⟩ :=
      (call_yields_instance.1 hmoment hstart).exists_of_shown hdown hshown
    obtain ⟨n, hn⟩ := hbegins method hmethod
    exact ⟨m, m', c, line, arguments, stack, st, i, n, hmoment, hstart, hname, hdown,
      hgives, hnew, hn⟩
  · obtain ⟨m, hm, hread⟩ := Option.map_eq_some_iff.1 hproperty
    have hmoment := hs.moment hm
    obtain ⟨hcalled, hend⟩ := Prod.mk.inj hread
    obtain ⟨m', hdown, hshown⟩ := Option.map_eq_some_iff.1 hend
    obtain ⟨i, c, name, line, arguments, stack, st, rfl, hname, hfield, method, hmethod⟩ :=
      Machine.eq_of_calledProperty? hcalled
    -- What is read is a function that is bound to the instance, and its call has no other result.
    obtain ⟨identity, closure, st', hstep, -, hbound⟩ :=
      call_yields_instance.2.2.1 hmoment hname hfield hmethod
    obtain ⟨j, of, hstays, hends⟩ :=
      call_yields_instance.2.1 hmoment.step hstep hbound.isInitializer
    obtain ⟨_, rfl, hgives⟩ := hends.exists_of_shown hdown hshown
    have hsame := (hstep ▸ hstays 0).unique hbound
    exact ⟨_, m', i, c, name, line, arguments, stack, st, hmoment, rfl, hname, hdown,
      hsame ▸ hgives⟩
  · obtain ⟨m, hm, hread⟩ := Option.map_eq_some_iff.1 hsuper
    have hmoment := hs.moment hm
    obtain ⟨hcalled, hread⟩ := Prod.mk.inj hread
    obtain ⟨hfound, hend⟩ := Prod.mk.inj hread
    obtain ⟨m', hdown, hshown⟩ := Option.map_eq_some_iff.1 hend
    obtain ⟨id, keyword, name, line, arguments, stack, st, rfl, hname⟩ :=
      Machine.eq_of_calledSuper? hcalled
    obtain ⟨i, c, hthis, hfails | ⟨identity, closure, st', hstep, hbound⟩⟩ :=
      call_yields_instance.2.2.2 hmoment hname
    · rw [hfails] at hfound
      cases hfound
    · obtain ⟨j, of, hstays, hends⟩ :=
        call_yields_instance.2.1 hmoment.step hstep hbound.isInitializer
      obtain ⟨_, rfl, hgives⟩ := hends.exists_of_shown hdown hshown
      have hsame := (hstep ▸ hstays 0).unique hbound
      exact ⟨_, m', id, keyword, name, line, arguments, stack, st, i, c, hmoment, rfl,
        hname, hthis, hdown, hsame ▸ hgives⟩

end Session

end Lox
