import Mathlib
import Lox.Proofs.Decoding
import Lox.Proofs.Returning
import Lox.Proofs.Surroundings

/-!
# A sink that gets full

A sink may have room for only so many bytes. A run on such a sink is compared here with the run of
the same program on a sink that takes everything. As long as what was printed fits, both runs take
the same steps. The first text that does not fit is cut where the sink ends, and the failure to
write it goes down the whole stack: nothing on the stack takes an error, so nothing is executed
after it.

* `Sink.capped`, `Machine.capped`, `Session.capped`: the same with a limit on the sink;
* `Machine.run_capped`: a run whose output fits;
* `Machine.exists_overrun`: the first text that does not fit;
* `Machine.run_unwind_fails`: an error unwinds the stack, and puts back the frame and the depth;
* `Session.full_sink_truncates`: a full sink cuts the output and nothing else.
-/

namespace Lox

/-! ### Sinks -/

namespace Text

theorem toList_append (bytes bytes' : ByteArray) :
    (bytes ++ bytes').toList = bytes.toList ++ bytes'.toList := by
  rw [toList_eq_data, toList_eq_data, toList_eq_data, ByteArray.data_append, Array.toList_append]

theorem length_toList (bytes : ByteArray) : bytes.toList.length = bytes.size := by
  rw [toList_eq_data]
  rfl

theorem toList_extract (bytes : ByteArray) (n : Nat) :
    (bytes.extract 0 n).toList = bytes.toList.take n := by
  rw [toList_eq_data, toList_eq_data, ByteArray.data_extract, Array.toList_extract,
    List.extract_eq_take_drop]
  rfl

end Text

namespace Sink

/-- The same sink, with room for `limit` bytes in all. -/
def capped (limit : Nat) (sink : Sink) : Sink := { sink with device := sink.device.limited limit }

variable {sink : Sink} {limit : Nat} {text : String}

/-- A text that fits is written. -/
theorem write_capped_of_le (h : sink.written.size + text.toUTF8.size ≤ limit) :
    (sink.capped limit).write text = (none, (sink.extended text.toUTF8).capped limit) := by
  have hroom : text.toUTF8.size ≤ limit - sink.written.size := by omega
  have hanswer : (sink.capped limit).device.write sink.texts sink.written text.toUTF8 = none :=
    if_pos hroom
  exact write_of_device hanswer

/-- Of a text that does not fit, what fits is written. -/
theorem write_capped_of_lt (hle : sink.written.size ≤ limit)
    (hlt : limit < sink.written.size + text.toUTF8.size) :
    (sink.capped limit).write text =
      (some .full,
        (sink.extended (text.toUTF8.extract 0 (limit - sink.written.size))).capped limit) := by
  have hroom : ¬text.toUTF8.size ≤ limit - sink.written.size := by omega
  have hanswer : (sink.device.limited limit).write sink.texts sink.written text.toUTF8 =
      some (limit - sink.written.size, .full) := if_neg hroom
  rw [capped, write, hanswer]
  rfl

end Sink

namespace Machine

variable {cfg : Config} {m : Machine} {limit : Nat}

/-- What is written when a value is printed. -/
def line (v : Value) : String := v.display ++ "\n"

/-- The same machine, whose sink has room for `limit` bytes in all. -/
def capped (limit : Nat) (m : Machine) : Machine :=
  { m with state := { m.state with sink := m.state.sink.capped limit } }

/-! ### Steps -/

/-- A step that does not print does not depend on the sink. -/
theorem step_capped_of_not_prints (hp : ¬m.Prints) :
    step cfg (m.capped limit) = (step cfg m).capped limit := by
  cases ho : m.outcome? with
  | some o =>
    have ho' : (m.capped limit).outcome? = some o := ho
    rw [step_of_outcome ho, step_of_outcome ho']
  | none =>
    rcases m.inside_or with hm | ⟨v, st, rfl⟩ | ⟨a, st, rfl⟩
    · have hstep : Beside [] (m.state.sink.capped limit) (step cfg m)
          (step cfg (m.placed [] (m.state.sink.capped limit))) := step_beside ho hm hp
      have hsink : (step cfg m).state.sink = m.state.sink := sink_step_of_not_prints hp
      have hplaced : m.placed [] (m.state.sink.capped limit) = m.capped limit := by
        rw [placed, List.append_nil]
        rfl
      rw [← hplaced, hstep.eq, placed, List.append_nil, ← hsink]
      rfl
    · rfl
    · rfl

variable {v : Value} {stack : List Pending} {st : State} {fuel : Nat}

/-- A sink that takes everything takes the line that a step prints. -/
theorem step_prints (h : st.sink.Open) :
    step cfg ⟨.deliver v, .print :: stack, st⟩ =
      ⟨.deliver .nil, stack, { st with sink := st.sink.extended (line v).toUTF8 }⟩ := by
  change print v stack st = _
  rw [print, State.write, ← line, Sink.write_of_open h]
  rfl

/-- A line that fits is printed. -/
theorem step_capped_of_le (hopen : st.sink.Open)
    (hle : st.sink.written.size + (line v).toUTF8.size ≤ limit) :
    step cfg (capped limit ⟨.deliver v, .print :: stack, st⟩) =
      (step cfg ⟨.deliver v, .print :: stack, st⟩).capped limit := by
  rw [step_prints hopen]
  change print v stack { st with sink := st.sink.capped limit } = _
  rw [print, State.write, ← line, Sink.write_capped_of_le hle]
  rfl

/-- A line that does not fit is cut, and the step fails. -/
theorem step_capped_of_lt (hle : st.sink.written.size ≤ limit)
    (hlt : limit < st.sink.written.size + (line v).toUTF8.size) :
    step cfg (capped limit ⟨.deliver v, .print :: stack, st⟩) =
      ⟨.unwind (.fails (.sink .full)), stack,
        { st with
          sink := Sink.capped limit
            (st.sink.extended ((line v).toUTF8.extract 0 (limit - st.sink.written.size))) }⟩ := by
  change print v stack { st with sink := st.sink.capped limit } = _
  rw [print, State.write, ← line, Sink.write_capped_of_lt hle hlt]

/-- A step only adds to what was written. -/
theorem written_step (cfg : Config) (hopen : m.state.sink.Open) :
    ∃ bytes, (step cfg m).state.sink.written = m.state.sink.written ++ bytes := by
  by_cases hp : m.Prints
  · obtain ⟨v, stack, st, rfl⟩ := hp
    exact ⟨(line v).toUTF8, by rw [step_prints hopen]; rfl⟩
  · exact ⟨.empty, by rw [sink_step_of_not_prints hp, ByteArray.append_empty]⟩

/-! ### Runs -/

/-- A machine that has come to its end stays there. -/
theorem run_eq_of_outcome {n : Nat} {o : Outcome} (h : (run cfg n m).outcome? = some o)
    (hle : n ≤ fuel) : run cfg fuel m = run cfg n m := by
  obtain ⟨k, rfl⟩ := Nat.exists_eq_add_of_le hle
  rw [run_add, run_of_outcome h]

theorem written_run (cfg : Config) (fuel : Nat) (hopen : m.state.sink.Open) :
    ∃ bytes, (run cfg fuel m).state.sink.written = m.state.sink.written ++ bytes := by
  induction fuel generalizing m with
  | zero => exact ⟨.empty, ByteArray.append_empty.symm⟩
  | succ fuel ih =>
    obtain ⟨first, hfirst⟩ := written_step cfg hopen
    have hopen' : (step cfg m).state.sink.Open := open_step hopen
    obtain ⟨more, hmore⟩ := ih hopen'
    exact ⟨first ++ more, by rw [run_succ, hmore, hfirst, ByteArray.append_assoc]⟩

theorem size_written_le (cfg : Config) (fuel : Nat) (hopen : m.state.sink.Open) :
    m.state.sink.written.size ≤ (run cfg fuel m).state.sink.written.size := by
  obtain ⟨bytes, hbytes⟩ := written_run cfg fuel hopen
  rw [hbytes, ByteArray.size_append]
  exact Nat.le_add_right _ _

/-- If all that a run prints fits, it is the same run on a sink with a limit. -/
theorem run_capped (hopen : m.state.sink.Open)
    (hle : (run cfg fuel m).state.sink.written.size ≤ limit) :
    run cfg fuel (m.capped limit) = (run cfg fuel m).capped limit := by
  induction fuel generalizing m with
  | zero => rfl
  | succ fuel ih =>
    rw [run_succ] at hle ⊢
    have hopen' : (step cfg m).state.sink.Open := open_step hopen
    have hstep : step cfg (m.capped limit) = (step cfg m).capped limit := by
      by_cases hp : m.Prints
      · obtain ⟨v, stack, st, rfl⟩ := hp
        refine step_capped_of_le hopen ?_
        have hfirst := size_written_le cfg fuel hopen'
        rw [step_prints hopen] at hfirst hle
        rw [← ByteArray.size_append]
        exact hfirst.trans hle
      · exact step_capped_of_not_prints hp
    rw [run_succ, hstep, ih hopen' hle]

/-- If not all that a run prints fits, there is a first line that does not. -/
theorem exists_overrun (hopen : m.state.sink.Open) (hle : m.state.sink.written.size ≤ limit)
    (hlt : limit < (run cfg fuel m).state.sink.written.size) :
    ∃ k < fuel, ∃ v stack st, run cfg k m = ⟨.deliver v, .print :: stack, st⟩ ∧
      st.sink.written.size ≤ limit ∧ limit < st.sink.written.size + (line v).toUTF8.size := by
  induction fuel generalizing m with
  | zero => exact absurd hle (Nat.not_le.2 hlt)
  | succ fuel ih =>
    rw [run_succ] at hlt
    by_cases hnext : (step cfg m).state.sink.written.size ≤ limit
    · obtain ⟨k, hk, v, stack, st, hrun, hfits⟩ := ih (open_step hopen) hnext hlt
      exact ⟨k + 1, Nat.succ_lt_succ hk, v, stack, st, (run_succ ..).trans hrun, hfits⟩
    · by_cases hp : m.Prints
      · obtain ⟨v, stack, st, rfl⟩ := hp
        rw [step_prints hopen] at hnext
        refine ⟨0, Nat.succ_pos fuel, v, stack, st, rfl, hle, ?_⟩
        rw [← ByteArray.size_append]
        exact Nat.lt_of_not_le hnext
      · rw [sink_step_of_not_prints hp] at hnext
        exact absurd hle hnext

/-- An error goes down the whole stack. On the way, only the frame and the depth are put back. -/
theorem run_unwind_fails (cfg : Config) (e : RuntimeError) (stack : List Pending) (st : State) :
    run cfg (stack.length + 1) ⟨.unwind (.fails e), stack, st⟩ =
      ⟨.done (.failed e), [],
        { st with frame := Stack.home st.frame stack, depth := st.depth - Stack.calls stack }⟩ := by
  induction stack generalizing st with
  | nil => rfl
  | cons pending stack ih =>
    rw [List.length_cons, run_succ]
    cases pending with
    | leaveCall =>
      refine (ih st.endCall).trans ?_
      rw [State.endCall_eq, Stack.calls, Nat.sub_sub, Nat.add_comm 1]
      rfl
    | leaveBlock frame => exact ih (st.goTo frame)
    | leaveBody closure frame => exact ih (st.goTo frame)
    | _ => exact ih st

/-- What a sink holds after the line that does not fit are the first bytes of all that is ever
    printed. -/
theorem toList_overrun {k : Nat} (hopen : m.state.sink.Open) (hk : k < fuel)
    (hrun : run cfg k m = ⟨.deliver v, .print :: stack, st⟩) (hle : st.sink.written.size ≤ limit)
    (hlt : limit < st.sink.written.size + (line v).toUTF8.size) :
    ((st.sink.extended ((line v).toUTF8.extract 0 (limit - st.sink.written.size))).capped
      limit).written.toList =
      (run cfg fuel m).state.sink.written.toList.take limit := by
  obtain ⟨j, rfl⟩ : ∃ j, fuel = k + (j + 1) := ⟨fuel - k - 1, by omega⟩
  have hopen' : st.sink.Open := by
    have hst : (run cfg k m).state.sink.Open := open_run hopen k
    rwa [hrun] at hst
  obtain ⟨more, hmore⟩ := written_run cfg j (m := step cfg ⟨.deliver v, .print :: stack, st⟩)
    (open_step hopen')
  rw [run_add, hrun, run_succ, hmore, step_prints hopen', Sink.capped, Sink.extended, Sink.extended]
  have hline : limit - st.sink.written.toList.length ≤ (line v).toUTF8.toList.length := by
    rw [Text.length_toList, Text.length_toList]
    omega
  have hbefore : st.sink.written.toList.take limit = st.sink.written.toList :=
    List.take_of_length_le (by rwa [Text.length_toList])
  rw [Text.toList_append, Text.toList_extract, Text.toList_append, Text.toList_append,
    List.append_assoc,
    List.take_append, hbefore, List.take_append_of_le_length hline, Text.length_toList]

/-- If not all that a run prints fits, it is the same run up to the first line that does not, and
    then it fails and is left in the state that it was in. -/
theorem run_capped_of_lt {f d : Nat} (hopen : m.state.sink.Open) (hm : m.Balanced f d)
    (hle : m.state.sink.written.size ≤ limit)
    (hlt : limit < (run cfg fuel m).state.sink.written.size) :
    ∃ k < fuel, ∃ v stack st, run cfg k m = ⟨.deliver v, .print :: stack, st⟩ ∧
      st.sink.written.size ≤ limit ∧
      ∃ sink, sink.written.toList = (run cfg fuel m).state.sink.written.toList.take limit ∧
        ∀ steps, k + stack.length + 2 ≤ steps →
          run cfg steps (m.capped limit) =
            ⟨.done (.failed (.sink .full)), [], { st with frame := f, depth := d, sink }⟩ := by
  obtain ⟨k, hk, v, stack, st, hrun, hfits, hover⟩ := exists_overrun hopen hle hlt
  refine ⟨k, hk, v, stack, st, hrun, hfits, _, toList_overrun hopen hk hrun hfits hover,
    fun steps hsteps => ?_⟩
  -- The frame and the depth that are put back are read off the stack.
  have hback : Stack.Returns f d (.print :: stack) st := by
    have hk := hm.run cfg k
    rwa [hrun] at hk
  have hframe : Stack.home st.frame stack = f := hback.frame
  have hdepth : st.depth - Stack.calls stack = d := by
    rw [hback.depth]
    exact Nat.add_sub_cancel ..
  have hsame : run cfg k (m.capped limit) = capped limit ⟨.deliver v, .print :: stack, st⟩ := by
    rw [run_capped hopen (by rw [hrun]; exact hfits), hrun]
  refine run_eq_of_le (n := k + (stack.length + 1 + 1)) ?_ (by omega)
  rw [run_add, hsame, run_succ, step_capped_of_lt hfits hover, run_unwind_fails]
  dsimp only
  rw [hframe, hdepth]

end Machine

namespace Session

/-- The same session, whose sink has room for `limit` bytes in all. -/
def capped (limit : Nat) (s : Session) : Session :=
  { s with state := { s.state with sink := s.state.sink.capped limit } }

/-- What is loaded does not depend on the sink. -/
theorem load_capped (limit : Nat) (s : Session) (source : List UInt8) :
    (s.capped limit).load source =
      ((s.load source).1.map (Machine.capped limit), (s.load source).2.capped limit) := by
  rw [load, load]
  dsimp only [capped]
  rcases Program.parse (.ofTokens (Token.scanAll source).1 s.nextId) with ⟨errors | program, cursor⟩
  · rfl
  · dsimp only
    split
    · rcases program.resolve with errors | distances <;> rfl
    · rfl

variable {s s₁ : Session} {source : List UInt8} {m : Machine}

theorem run_of_load (h : s.load source = (.ok m, s₁)) (fuel : Nat) :
    s.run fuel source = s₁.conclude (m.run s₁.config fuel) := by
  rw [Session.run, h]

theorem run_capped_of_load (h : s.load source = (.ok m, s₁)) (limit fuel : Nat) :
    (s.capped limit).run fuel source =
      (s₁.capped limit).conclude ((m.capped limit).run s₁.config fuel) := by
  have hload : (s.capped limit).load source = (.ok (m.capped limit), s₁.capped limit) := by
    rw [load_capped, h]
    rfl
  rw [run_of_load hload]
  rfl

/-- A program begins in the state of the session. -/
theorem begins_of_load (h : s.load source = (.ok m, s₁)) :
    m.state = s.state ∧ m.Balanced s.state.frame s.state.depth := by
  obtain ⟨program, cursor, distances, -, -, rfl, -⟩ := load_eq_ok h
  exact ⟨rfl, rfl, rfl⟩

/-- A session that is told about a machine on a sink with a limit, in which all has found room. -/
theorem conclude_capped (limit : Nat) (s : Session) (m : Machine) :
    (s.capped limit).conclude (m.capped limit) =
      ((s.conclude m).1, (s.conclude m).2.capped limit) := rfl

theorem outcome?_of_conclude (h : (s.conclude m).1 ≠ .unfinished) : ∃ o, m.outcome? = some o := by
  cases ho : m.outcome? with
  | some o => exact ⟨o, rfl⟩
  | none =>
    rw [conclude, ho] at h
    exact absurd rfl h

/-- A full sink cuts the output, and nothing else. Let a program come to an end on a sink that takes
    everything, and run it on one that takes `n` more bytes. If what it prints fits, the run is the
    same. Else the sink gets the first `n` bytes, and the run fails at the first line that does not
    fit. Nothing is executed after that: what the session holds is what the run was at when it was
    about to print the line, back in the frame and at the depth where it began. -/
theorem full_sink_truncates (s : Session) (fuel : Nat) (source : List UInt8) (n : Nat)
    (hopen : s.state.sink.Open) (hends : (s.run fuel source).1 ≠ .unfinished) :
    ∃ output, (s.run fuel source).2.state.sink.written.toList =
      s.state.sink.written.toList ++ output ∧
      (output.length ≤ n → ∀ steps, fuel ≤ steps →
        (s.capped (s.state.sink.written.size + n)).run steps source =
          ((s.run fuel source).1, (s.run fuel source).2.capped (s.state.sink.written.size + n))) ∧
      (n < output.length → ∃ k < fuel, ∃ v stack st,
        s.machineAfter k source = some ⟨.deliver v, .print :: stack, st⟩ ∧
        st.sink.written.size ≤ s.state.sink.written.size + n ∧
        ∃ sink, sink.written.toList = s.state.sink.written.toList ++ output.take n ∧
          ∀ steps, k + stack.length + 2 ≤ steps →
            (s.capped (s.state.sink.written.size + n)).run steps source =
              (.failed (.sink .full),
                { (s.run fuel source).2 with
                  state := { st with
                    frame := s.state.frame, depth := s.state.depth, sink } })) := by
  cases hl : s.load source with
  | mk loaded s₁ =>
  cases loaded with
  | error errors =>
    -- A source that is rejected prints nothing, whatever the sink.
    obtain ⟨i, -, rfl⟩ := load_eq_error hl
    have hload : ∀ limit,
        (s.capped limit).load source = (.error errors, capped limit { s with nextId := i }) := by
      intro limit
      rw [load_capped, hl]
      rfl
    have hrun : ∀ steps, s.run steps source = (.rejected errors, { s with nextId := i }) := by
      intro steps
      rw [Session.run, hl]
    refine ⟨[], by rw [hrun, List.append_nil], fun _ steps _ => ?_,
      fun hlt => absurd hlt (Nat.not_lt_zero n)⟩
    rw [Session.run, hload, hrun]
  | ok m =>
    obtain ⟨hstate, hbegin⟩ := begins_of_load hl
    have hopen' : m.state.sink.Open := hstate ▸ hopen
    have hrun := run_of_load hl
    rw [hrun] at hends ⊢
    obtain ⟨o, ho⟩ := outcome?_of_conclude hends
    obtain ⟨bytes, hbytes⟩ := Machine.written_run s₁.config fuel hopen'
    rw [hstate] at hbytes
    have hwritten := congrArg ByteArray.toList hbytes
    rw [Text.toList_append] at hwritten
    have hsize : (m.run s₁.config fuel).state.sink.written.size =
        s.state.sink.written.size + bytes.toList.length := by
      rw [hbytes, ByteArray.size_append, Text.length_toList]
    refine ⟨bytes.toList, hwritten, fun hle steps hsteps => ?_, fun hlt => ?_⟩
    · have hsame := Machine.run_capped hopen' (hsize.trans_le (Nat.add_le_add_left hle _))
      have hdone := (Machine.run_eq_of_outcome (by rw [hsame]; exact ho) hsteps).trans hsame
      rw [run_capped_of_load hl, hdone, conclude_capped]
    · obtain ⟨k, hk, v, stack, st, hmoment, hfits, sink, hsink, hfails⟩ :=
        Machine.run_capped_of_lt hopen' hbegin (by rw [hstate]; exact Nat.le_add_right _ n)
          ((Nat.add_lt_add_left hlt _).trans_eq hsize.symm)
      refine ⟨k, hk, v, stack, st, ?_, hfits, sink, ?_, fun steps hsteps => ?_⟩
      · rw [machineAfter, hl]
        exact congrArg some hmoment
      · rw [hsink, hwritten, ← Text.length_toList, List.take_length_add_append]
      · rw [run_capped_of_load hl, hfails steps hsteps]
        rfl

/-- A loop in a method that sets up an instance prints, and its second line is cut: the calls are
    left, and what comes after them is not done. With room for all of it, nothing is cut. -/
theorem full_sink_truncates_nested :
    ∃ (s : Session) (source : List UInt8), s.state.sink.Open ∧
      (s.run 300 source).2.state.sink.written.toList = "1\n2\n3\nend\n".toUTF8.toList ∧
      (∀ steps, 300 ≤ steps → (s.capped 10).run steps source =
        ((s.run 300 source).1, (s.run 300 source).2.capped 10)) ∧
      ∃ (steps : Nat) (st : State) (sink : Sink), sink.written.toList = "1\n2".toUTF8.toList ∧
        (s.capped 3).run steps source =
          (.failed (.sink .full),
            { (s.run 300 source).2 with
              state := { st with frame := s.state.frame, depth := s.state.depth, sink } }) := by
  obtain ⟨s, source, hopen, hends, hempty, hprinted⟩ : ∃ (s : Session) (source : List UInt8),
      s.state.sink.Open ∧ (s.run 300 source).1.isSuccess = true ∧ s.state.sink.written = .empty ∧
      (s.run 300 source).2.state.sink.written.toList = "1\n2\n3\nend\n".toUTF8.toList :=
    ⟨.new .unlimited (.still 0) 16,
      ("class A \x7b init(n) \x7b " ++
        "while (true) \x7b print n; n = n + 1; if (n > 3) return; \x7d \x7d \x7d " ++
        "fun f() \x7b A(1); \x7d f(); print \"end\";").toUTF8.toList,
      Sink.open_unlimited, by decide +kernel, rfl, by decide +kernel⟩
  have hfinished : (s.run 300 source).1 ≠ .unfinished := by
    intro h
    rw [h] at hends
    cases hends
  have hbytes : "1\n2\n3\nend\n".toUTF8.toList = [49, 10, 50, 10, 51, 10, 101, 110, 100, 10] := by
    decide +kernel
  have hfirst : "1\n2".toUTF8.toList = [49, 10, 50] := by decide +kernel
  have hsize : s.state.sink.written.size = 0 := by rw [hempty]; rfl
  have hnil : s.state.sink.written.toList = [] := by rw [hempty]; decide +kernel
  obtain ⟨output, houtput, hfits, -⟩ := full_sink_truncates s 300 source 10 hopen hfinished
  obtain ⟨output', houtput', -, hcut⟩ := full_sink_truncates s 300 source 3 hopen hfinished
  rw [hnil, List.nil_append, hprinted, hbytes] at houtput houtput'
  rw [hsize, Nat.zero_add] at hfits hcut
  subst houtput houtput'
  obtain ⟨k, -, v, stack, st, -, -, sink, hsink, hfails⟩ := hcut (by decide)
  rw [hnil] at hsink
  exact ⟨s, source, hopen, hprinted, hfits (by decide), _, st, sink, hsink.trans hfirst.symm,
    hfails _ (Nat.le_refl _)⟩

end Session

end Lox
