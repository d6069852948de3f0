import Mathlib
import Lox.Proofs.Joining
import Lox.Proofs.Rescanning
import Lox.Proofs.Surroundings
import Lox.Proofs.Terminated

/-!
# Evaluating an expression and printing it

A session can evaluate a source that is one expression, and it can run one that is a program. With
`print` in front and a semicolon behind, an expression is a program, and the two ways agree.

* the tokens of the expression stand between those of `print` and of the semicolon
  (`Cursor.ofTokens_printing`);
* the program is one statement, with the expression and its identities in it
  (`Program.parse_print`);
* the machine evaluates the expression with the printing pending below (`Machine.run_print`).
-/

namespace Lox

namespace Session

/-- The program that prints an expression. The semicolon is on a line of its own, since a comment
    may be before it. -/
def printing (source : List UInt8) : List UInt8 :=
  "print ".toUTF8.toList ++ source ++ "\n;".toUTF8.toList

end Session

/-! ### Scanning -/

namespace Token

/-- The source that `print` is the first word of. -/
def afterPrint (source : List UInt8) : List UInt8 :=
  Keyword.print.text.toUTF8.toList ++ Segment.space :: source

theorem printing_eq (source : List UInt8) :
    Session.printing source = afterPrint source ++ Segment.newline :: ";".toUTF8.toList := by
  have hprint : "print ".toUTF8.toList = Keyword.print.text.toUTF8.toList ++ [Segment.space] := by
    decide +kernel
  have hsemicolon : "\n;".toUTF8.toList = Segment.newline :: ";".toUTF8.toList := by decide +kernel
  rw [Session.printing, afterPrint, hprint, hsemicolon, List.append_assoc _ [Segment.space] source]
  rfl

theorem split_afterPrint (source : List UInt8) :
    Segment.split (afterPrint source) =
      .token (.keyword .print) Keyword.print.text.toUTF8.toList :: .blank Segment.space ::
        Segment.split source := by
  rw [afterPrint,
    (Segment.Spelling.keyword .print).split (Segment.isBlank_of_mem_head?_space source),
    Segment.split_cons, Segment.next_of_blank _ (by decide)]

theorem itemsWithin_afterPrint (source : List UInt8) :
    itemsWithin 1 (Segment.split (afterPrint source)) =
      .ok ⟨.keyword .print, "print", 1⟩ :: itemsWithin 1 (Segment.split source) := by
  have hword : (Segment.token (.keyword .print) Keyword.print.text.toUTF8.toList).newlines = 0 := by
    decide +kernel
  have hspace : (Segment.blank Segment.space).newlines = 0 := by decide
  rw [split_afterPrint, itemsWithin, itemsWithin, hword, hspace]
  change .ok ⟨_, Text.decodeLossy _, 1⟩ :: itemsWithin 1 (Segment.split source) = _
  rw [Text.decodeLossy_toUTF8]
  rfl

theorem within_afterPrint (source : List UInt8) :
    within (afterPrint source) = ⟨.keyword .print, "print", 1⟩ :: within source := by
  rw [within, itemsWithin_afterPrint]
  rfl

theorem errors_afterPrint (source : List UInt8) :
    (scanAll (afterPrint source)).2 = (scanAll source).2 := by
  rw [scanAll_errors, itemsWithin_afterPrint, scanAll_errors]
  rfl

end Token

/-- The tokens of the program that prints an expression. -/
theorem Cursor.ofTokens_printing {source : List UInt8}
    (h : (Token.scanAll source).2 = []) (n : Nat) :
    ∃ semicolon eof : Token, semicolon.kind = .punctuator .semicolon ∧
      ofTokens (Token.scanAll (Session.printing source)).1 n =
        ⟨⟨.keyword .print, "print", 1⟩ :: (Token.within source ++ [semicolon]), eof, n, #[],
          (Token.within source).length + 2⟩ := by
  have hsemicolon : Token.within ";".toUTF8.toList = [⟨.punctuator .semicolon, ";", 1⟩] := by
    decide +kernel
  have hscan : (Token.scanAll (Token.afterPrint source)).2 = [] := by
    rw [Token.errors_afterPrint, h]
  rw [Token.printing_eq, ofTokens_scanAll_append hscan, Token.within_afterPrint, hsemicolon]
  exact ⟨_, _, rfl, rfl⟩

theorem Token.errors_printing {source : List UInt8} (h : (scanAll source).2 = []) :
    (scanAll (Session.printing source)).2 = [] := by
  have hsemicolon : (scanAll ";".toUTF8.toList).2 = [] := by decide +kernel
  rw [printing_eq, (scanAll_append_newline (by rw [errors_afterPrint, h]) _).2,
    hsemicolon, List.map_nil]

/-! ### Reading -/

/-- A program that prints an expression is one statement, and the expression in it is numbered as it
    is on its own. -/
theorem Program.parse_print {s s₁ s' : Cursor} {e : Expr} {print semicolon : Token} (hs : s.Proper)
    (hp : Expr.parse s = (.ok e, s₁)) (hprint : print.kind = .keyword .print)
    (hsemicolon : semicolon.kind = .punctuator .semicolon)
    (hrest : s'.rest = print :: (s.rest ++ [semicolon])) (hnext : s'.nextId = s.nextId)
    (hsize : s.size < s'.size) (herrors : s.errors = #[]) (herrors' : s'.errors = #[]) :
    ∃ s₁', Program.parse s' = (.ok [.print e], s₁') ∧ s₁'.nextId = s₁.nextId := by
  obtain ⟨hread, herrors₁, hrest₁⟩ := Expr.parse_eq_ok.1 hp
  have hafter : s.Terminated [semicolon] { s' with rest := s.rest ++ [semicolon] } := {
    eof := hs.eof
    semicolon := congrArg some hsemicolon
    rest := rfl
    nextId := hnext
    size := Nat.le_of_lt hsize
    errors := by rw [herrors, herrors'] }
  obtain ⟨s₂, hread₂, hs₂⟩ := Read.expression_lasts hafter (by simp) hread
  have hrest₂ : s₂.rest = [semicolon] := by rw [hs₂.rest, hrest₁, List.nil_append]
  -- The statement ends with the semicolon, and with it the program.
  have hstatement : ∀ fuel,
      Read.statement (fuel + 1) s' = .ok (.print e) { s₂ with rest := [] } := by
    intro fuel
    rw [Read.statement, Read.peek_bind]
    simp only [Form.ReadsBack.peek_kind hrest hprint]
    rw [Read.skip_bind, hrest]
    refine (Read.bind_of_ok hread₂).trans ?_
    exact Read.bind_of_ok (Read.expectMark_of_kind _ hrest₂ hsemicolon)
  have hdeclaration : Read.declaration s'.fuel s' = (some (.print e), { s₂ with rest := [] }) := by
    obtain ⟨fuel, hfuel⟩ : ∃ fuel, s'.fuel = fuel + 3 := ⟨4 * s'.size + 5, rfl⟩
    rw [hfuel, Read.declaration,
      (Read.declarationOrError_of_ne (fuel + 1) hrest (by simp [hprint])).eq, hstatement]
  refine ⟨{ s₂ with rest := [] }, Program.parse_eq_ok.2 ⟨?_, ?_⟩, hs₂.nextId⟩
  · obtain ⟨size, hsize'⟩ := Nat.exists_eq_succ_of_ne_zero (Nat.ne_of_gt (Nat.zero_lt_of_lt hsize))
    rw [hsize', Read.declarations, Cursor.atEnd, hrest, List.isEmpty_cons,
      if_neg Bool.false_ne_true, hdeclaration]
    exact Read.declarations_of_nil rfl _ _
  · have hcount := hs₂.errors
    rw [herrors₁] at hcount
    exact Array.eq_empty_of_size_eq_zero hcount

/-! ### Running -/

namespace Machine

variable {cfg : Config}

/-- What is pending while the value of a statement that prints is found, if it is the last of a
    program. -/
def printingBelow : List Pending := [.print, .sequence []]

/-- The first steps of the program lead to the expression. -/
theorem run_print (e : Expr) (st : State) (n : Nat) :
    run cfg (n + 2) ⟨.execAll [.print e], [], st⟩ =
      run cfg n (onto printingBelow ⟨.eval e, [], st⟩) := by
  rw [run_succ, run_succ]
  rfl

/-- How the program ends if the evaluation ends with the given outcome in the state `st`: a value is
    printed, and what has no value goes through. -/
def printedEnd (st : State) : Outcome → Outcome × State
  | .value v => (.value .nil, { st with sink := st.sink.extended (v.display ++ "\n").toUTF8 })
  | o => (o, st)

theorem run_deliver_print {st : State} {v : Value} (h : st.sink.Takes (v.display ++ "\n")) :
    run cfg 4 ⟨.deliver v, printingBelow, st⟩ =
      ⟨.done (printedEnd st (.value v)).1, [], (printedEnd st (.value v)).2⟩ := by
  have hprint : step cfg ⟨.deliver v, printingBelow, st⟩ =
      ⟨.deliver .nil, [.sequence []], (printedEnd st (.value v)).2⟩ := by
    change print v [.sequence []] st = _
    rw [print, State.write, h.write_eq]
    rfl
  rw [run_succ, hprint]
  rfl

theorem run_unwind_print (a : Abrupt) (st : State) :
    run cfg 3 ⟨.unwind a, printingBelow, st⟩ =
      ⟨.done (printedEnd st a.outcome).1, [], (printedEnd st a.outcome).2⟩ := by
  cases a <;> rfl

/-- Where the evaluation of an expression comes to an end, so does the program that prints it. -/
theorem run_print_of_ended {e : Expr} {st : State} {fuel : Nat} {m : Machine}
    (hm : run cfg fuel ⟨.eval e, [], st⟩ = m) {o : Outcome} (ho : m.outcome? = some o)
    (hsink : ∀ v, o = .value v → m.state.sink.Takes (v.display ++ "\n")) :
    ∃ stack, ∀ steps, fuel + 5 ≤ steps → run cfg steps ⟨.execAll [.print e], [], st⟩ =
      ⟨.done (printedEnd m.state o).1, stack, (printedEnd m.state o).2⟩ := by
  suffices hends : ∃ n stack, n ≤ fuel + 3 ∧ run cfg n (onto printingBelow ⟨.eval e, [], st⟩) =
      ⟨.done (printedEnd m.state o).1, stack, (printedEnd m.state o).2⟩ by
    obtain ⟨n, stack, hn, hrun⟩ := hends
    refine ⟨stack, fun steps hsteps => ?_⟩
    rw [← run_print] at hrun
    exact run_eq_of_le hrun (by omega)
  rcases run_onto cfg printingBelow fuel (m := ⟨.eval e, [], st⟩) rfl with
    ⟨hsame, hfault⟩ | ⟨n, hn, v, st₁, hreach, hdone⟩ | ⟨n, hn, a, st₁, hreach, hdone⟩
  · rw [hm] at hsame hfault
    obtain ⟨f, rfl⟩ := hfault o ho
    obtain ⟨control, stack, st₁⟩ := m
    cases control with
    | done o' =>
      cases ho
      exact ⟨fuel, stack ++ printingBelow, Nat.le_add_right fuel 3, hsame⟩
    | _ => cases ho
  · cases hm.symm.trans hdone
    cases ho
    refine ⟨n + 4, [], by omega, ?_⟩
    rw [run_add, hreach, run_deliver_print (hsink v rfl)]
  · cases hm.symm.trans hdone
    cases ho
    refine ⟨n + 3, [], by omega, ?_⟩
    rw [run_add, hreach, run_unwind_print]

/-- Where the evaluation of an expression is not over, neither is the program that prints it. -/
theorem run_print_of_going {e : Expr} {st : State} {fuel : Nat} {m : Machine}
    (hm : run cfg fuel ⟨.eval e, [], st⟩ = m) (ho : m.outcome? = none) :
    run cfg (fuel + 2) ⟨.execAll [.print e], [], st⟩ = m.onto printingBelow := by
  rw [run_print]
  rcases run_onto cfg printingBelow fuel (m := ⟨.eval e, [], st⟩) rfl with
    ⟨hsame, -⟩ | ⟨n, hn, v, st₁, hreach, hdone⟩ | ⟨n, hn, a, st₁, hreach, hdone⟩
  · rw [hsame, hm]
  · rw [← hm, hdone] at ho
    cases ho
  · rw [← hm, hdone] at ho
    cases ho

end Machine

namespace Session

variable {s : Session}

/-- Where an expression is accepted, the program that prints it is, and with the same distances. -/
theorem load_printing {source : List UInt8} {m : Machine} {s₁ : Session}
    (h : s.loadExpr source = (.ok m, s₁)) :
    ∃ e, m = ⟨.eval e, [], s.state⟩ ∧ s.load (printing source) =
      (.ok ⟨.execAll [.print e], [], s.state⟩, s₁) := by
  have hscan := scanErrors_of_loadExpr h
  obtain ⟨e, cursor, distances, hp, hr, rfl, rfl⟩ := loadExpr_eq_ok h
  obtain ⟨semicolon, eof, hsemicolon, hcursor⟩ := Cursor.ofTokens_printing hscan s.nextId
  obtain ⟨cursor', hp', hnext⟩ : ∃ cursor', Program.parse
      (.ofTokens (Token.scanAll (printing source)).1 s.nextId) = (.ok [.print e], cursor') ∧
        cursor'.nextId = cursor.nextId := by
    rw [hcursor]
    rw [Cursor.ofTokens_scanAll] at hp
    refine Program.parse_print ⟨rfl, Nat.le_refl _⟩ hp rfl hsemicolon rfl rfl ?_ rfl rfl
    exact Nat.lt_add_of_pos_right Nat.two_pos
  refine ⟨e, rfl, ?_⟩
  rw [load_of_parse (Token.errors_printing hscan) hp' hr, hnext]

/-- A program that has come to its end is told to have succeeded, if all that it wrote is there. -/
theorem conclude_value (s : Session) {v : Value} {stack : List Pending} {st : State}
    (h : st.sink.flush = none) :
    s.conclude ⟨.done (.value v), stack, st⟩ = (.success (), { s with state := st }) := by
  simp only [conclude, Machine.outcome?, h]

/-- A sink that takes everything still does after a source was run. -/
theorem open_after_run (h : s.state.sink.Open) (fuel : Nat) (source : List UInt8) :
    (s.run fuel source).2.state.sink.Open := by
  rw [Session.run]
  rcases load_cases s source with ⟨errors, n, -, hl⟩ | ⟨program, cursor, distances, -, -, hl⟩
  · rw [hl]
    exact h
  · rw [hl]
    exact Machine.open_run h fuel

/-- The session after a text was written to its sink. -/
def wrote (s : Session) (text : String) : Session :=
  { s with state := { s.state with sink := s.state.sink.extended text.toUTF8 } }

/-- Evaluating an expression and printing it agree. Let an expression be accepted. If it has a
    value, and the sink takes its text and a newline, then the program that prints it runs to its
    end: it does what the evaluation does, and then writes that. If the evaluation fails, the
    program fails with the same error and leaves the same session; and if it is not over yet,
    neither is the program. A sink without a limit takes every text. -/
theorem evaluate_print_agree (s : Session) (fuel : Nat) (source : List UInt8) :
    let evaluated := s.evaluate fuel source
    (∀ v, evaluated.1 = .success v → evaluated.2.state.sink.Takes (v.display ++ "\n") →
        ∀ steps, fuel + 5 ≤ steps →
          s.run steps (printing source) = (.success (), evaluated.2.wrote (v.display ++ "\n"))) ∧
      (∀ e, evaluated.1 = .failed e → ∀ steps, fuel + 5 ≤ steps →
        s.run steps (printing source) = (.failed e, evaluated.2)) ∧
      (∀ f, evaluated.1 = .fault f → ∀ steps, fuel + 5 ≤ steps →
        s.run steps (printing source) = (.fault f, evaluated.2)) ∧
      (evaluated.1 = .unfinished →
        s.run (fuel + 2) (printing source) = (.unfinished, evaluated.2)) ∧
      (s.state.sink.Open → ∀ text, evaluated.2.state.sink.Takes text) := by
  dsimp only
  rw [evaluate]
  cases hl : s.loadExpr source with
  | mk loaded s₁ =>
  cases loaded with
  | error errors =>
    obtain ⟨n, -, rfl⟩ := loadExpr_eq_error hl
    exact ⟨by simp, by simp, by simp, by simp, fun hopen => hopen.takes⟩
  | ok m =>
    obtain ⟨e, rfl, hload⟩ := load_printing hl
    dsimp only
    -- Both have loaded the same expression, so two machines are left to be compared.
    have hrun : ∀ steps, s.run steps (printing source) =
        s₁.conclude (Machine.run s₁.config steps ⟨.execAll [.print e], [], s.state⟩) := by
      intro steps
      rw [Session.run, hload]
    have hopen : s.state.sink.Open → ∀ text,
        (Machine.run s₁.config fuel ⟨.eval e, [], s.state⟩).state.sink.Takes text := by
      intro hopen
      exact (Machine.open_run (m := ⟨.eval e, [], s.state⟩) hopen fuel).takes
    cases hm : Machine.run s₁.config fuel ⟨.eval e, [], s.state⟩ with
    | mk control stack st =>
    rw [hm] at hopen
    cases ho : (Machine.mk control stack st).outcome? with
    | none =>
      rw [concludeExpr, ho]
      refine ⟨by simp, by simp, by simp, fun _ => ?_, hopen⟩
      have hgoing : (Machine.onto Machine.printingBelow ⟨control, stack, st⟩).outcome? = none := ho
      rw [hrun, Machine.run_print_of_going hm ho, conclude, hgoing]
      rfl
    | some o =>
      have hended := Machine.run_print_of_ended hm ho
      rw [concludeExpr, ho]
      cases o with
      | value v =>
        refine ⟨fun v' hv hsink steps hsteps => ?_, by simp, by simp, by simp, hopen⟩
        cases hv
        obtain ⟨stack', hended⟩ := hended fun v hv => by cases hv; exact hsink
        rw [hrun, hended steps hsteps]
        have hflush := hsink.flush
        rw [hsink.write_eq] at hflush
        exact conclude_value s₁ hflush
      | returned v =>
        obtain ⟨stack', hended⟩ := hended (by simp)
        refine ⟨by simp, by simp, fun f hf steps hsteps => ?_, by simp, hopen⟩
        cases hf
        rw [hrun, hended steps hsteps]
        rfl
      | failed e' =>
        obtain ⟨stack', hended⟩ := hended (by simp)
        refine ⟨by simp, fun e'' he steps hsteps => ?_, by simp, by simp, hopen⟩
        cases he
        rw [hrun, hended steps hsteps]
        rfl
      | fault f =>
        obtain ⟨stack', hended⟩ := hended (by simp)
        refine ⟨by simp, by simp, fun f' hf steps hsteps => ?_, by simp, hopen⟩
        cases hf
        rw [hrun, hended steps hsteps]
        rfl

/-- The expression calls a function that prints, and there is a comment behind it. -/
theorem evaluate_print_agree_call :
    ∃ (s : Session) (source : List UInt8) (v : Value), (s.evaluate 100 source).1 = .success v ∧
      s.run 105 (printing source) =
        (.success (), (s.evaluate 100 source).2.wrote (v.display ++ "\n")) ∧
      (s.run 105 (printing source)).2.state.sink.written.toList = "in f\nab\n".toUTF8.toList := by
  obtain ⟨s, source, hsuccess, hopen, hwritten⟩ : ∃ (s : Session) (source : List UInt8),
      (s.evaluate 100 source).1.isSuccess = true ∧ s.state.sink.Open ∧
      (s.run 105 (printing source)).2.state.sink.written.toList = "in f\nab\n".toUTF8.toList := by
    let s₀ : Session := .new .unlimited (.still 0) 16
    let declared := "fun f() \x7b print \"in f\"; return \"a\"; \x7d".toUTF8.toList
    exact ⟨(s₀.run 100 declared).2, "f() + \"b\" // ab".toUTF8.toList, by decide +kernel,
      open_after_run Sink.open_unlimited 100 declared, by decide +kernel⟩
  obtain ⟨hvalue, -, -, -, htakes⟩ := evaluate_print_agree s 100 source
  cases hanswer : (s.evaluate 100 source).1 with
  | success v =>
    exact ⟨s, source, v, hanswer, hvalue v hanswer (htakes hopen _) 105 (Nat.le_refl _), hwritten⟩
  | _ =>
    rw [hanswer] at hsuccess
    cases hsuccess

end Session

end Lox
