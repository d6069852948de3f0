import Mathlib
import Lox.Proofs.Nesting
import Lox.Proofs.Numbering

/-!
# Reading any tokens

Tokens may be anything: there may be none, the end may be missing or stand in the middle, and they
may fit no grammar. Whatever they are, and however often they are read as programs and as
expressions, a cursor stays in front of an end. Every reader only moves it on (`Cursor.Moves`), so
it stands at one of the tokens, closed by an end (`Token.closed`), at every moment of a reading
(`Cursor.Within`).

A declaration takes at least one token, even if it cannot be read, and in that case an error is
added. So the readings come to an end by themselves, and not because a reader gives up
(`Reading.moments_safe`).
-/

namespace Lox

/-- The tokens with an end behind them, if they do not end with one. It is on the line of the last
    token. -/
def Token.closed (tokens : List Token) : List Token :=
  if tokens.getLast?.any Token.isEof then tokens
  else tokens ++ [⟨.eof, "", (tokens.getLast?.map Token.line).getD 1⟩]

namespace Cursor

/-- Where a cursor stands in the tokens: how many of them were read. -/
def position (tokens : List Token) (s : Cursor) :
    Nat := (ofTokens tokens 0).rest.length - s.rest.length

/-- The cursor stands in the tokens, in front of the first end. -/
structure Within (tokens : List Token) (s : Cursor) : Prop where
  rest : s.rest <:+ (ofTokens tokens 0).rest
  eof : s.eof = (ofTokens tokens 0).eof
  size : s.size = (ofTokens tokens 0).size

/-- A cursor starts in front of the first end. -/
theorem closed_eq_append (tokens : List Token) :
    ∃ more, Token.closed tokens = (ofTokens tokens 0).rest ++ (ofTokens tokens 0).eof :: more := by
  have hsplit := List.takeWhile_append_dropWhile (p := fun t : Token => !t.isEof) (l := tokens)
  rw [ofTokens, Token.closed]
  dsimp only
  cases hd : tokens.dropWhile fun t => !t.isEof with
  | nil =>
    have hnone : ∀ t ∈ tokens, t.isEof = false := by simpa using List.dropWhile_eq_nil_iff.1 hd
    have hlast : ¬tokens.getLast?.any Token.isEof = true := by
      intro h
      obtain ⟨t, ht, heof⟩ := (Option.any_eq_true _ _).1 h
      rw [hnone t (List.mem_of_getLast? ht)] at heof
      cases heof
    rw [hd, List.append_nil] at hsplit
    rw [if_neg hlast, hsplit]
    exact ⟨[], rfl⟩
  | cons eof more =>
    rw [hd] at hsplit
    dsimp only
    split
    · exact ⟨more, hsplit.symm⟩
    · refine ⟨more ++ [⟨.eof, "", (tokens.getLast?.map Token.line).getD 1⟩], ?_⟩
      rw [← List.cons_append, ← List.append_assoc, hsplit]

theorem within_ofTokens (tokens : List Token) (firstId : Nat) :
    (ofTokens tokens firstId).Within tokens :=
  ⟨List.suffix_refl _, rfl, rfl⟩

theorem Moves.within {tokens : List Token} {s s₁ : Cursor} (h : s.Moves s₁) (hs : s.Within tokens) :
    s₁.Within tokens :=
  ⟨h.rest.trans hs.rest, h.eof.trans hs.eof, h.size.trans hs.size⟩

namespace Within

variable {tokens : List Token} {s s₁ : Cursor}

theorem proper (hs : s.Within tokens) : s.Proper where
  eof := hs.eof ▸ (proper_ofTokens tokens 0).eof
  size := hs.size ▸ hs.rest.length_le

/-- Errors may be dropped. -/
theorem clear (hs : s.Within tokens) (errors : Array ParseError) :
    { s with errors }.Within tokens :=
  ⟨hs.rest, hs.eof, hs.size⟩

/-- A cursor stands at the token that it sees. -/
theorem getElem?_position (hs : s.Within tokens) :
    (Token.closed tokens)[s.position tokens]? = some s.peek := by
  obtain ⟨more, hclosed⟩ := closed_eq_append tokens
  obtain ⟨before, hbefore⟩ := hs.rest
  have hposition : s.position tokens = before.length := by
    rw [position, ← hbefore, List.length_append, Nat.add_sub_cancel]
  rw [hclosed, ← hbefore, hposition, List.append_assoc, List.getElem?_append_right (Nat.le_refl _),
    Nat.sub_self, ← hs.eof, peek]
  cases s.rest <;> rfl

theorem position_lt (hs : s.Within tokens) : s.position tokens < (Token.closed tokens).length :=
  (List.getElem?_eq_some_iff.1 hs.getElem?_position).1

/-- Among the tokens up to the end there is none. -/
theorem atEnd_eq (hs : s.Within tokens) : s.atEnd = s.peek.isEof := by
  rw [atEnd]
  cases hr : s.rest with
  | nil =>
    have hpeek : s.peek = s.eof := by rw [peek, hr]; rfl
    rw [hpeek, Token.isEof_iff.2 hs.proper.eof]
    rfl
  | cons t rest =>
    have hmem : t ∈ (ofTokens tokens 0).rest := hs.rest.mem (hr ▸ List.mem_cons_self)
    have ht : t.isEof = false := by simpa using List.mem_takeWhile_imp hmem
    have hpeek : s.peek = t := by rw [peek, hr]; rfl
    rw [hpeek, ht]
    rfl

/-- Taking tokens moves the position on. -/
theorem position_lt_position (hs : s.Within tokens) (h : s₁.rest.length < s.rest.length) :
    s.position tokens < s₁.position tokens := by
  have := hs.rest.length_le
  rw [position, position]
  omega

end Within

end Cursor

/-! ### Whole readings -/

variable {tokens : List Token} {s : Cursor}

/-- Reading a program ends where the tokens end, and no reader gives up. -/
theorem Program.parse_ends (hs : s.Within tokens) :
    (Program.parse s).2.Within tokens ∧ (Program.parse s).2.rest = [] ∧
    s.Finds (Program.parse s).2 ∧
      ∀ es, (Program.parse s).1 = .error es → ∀ e ∈ es, e ∈ s.errors ∨ e.cause ≠ .tooDeep := by
  have hproper := hs.proper
  obtain ⟨-, hfinds, hmoves, hrest⟩ : Read.declarations s.size (#[] ++ #[])
    (s.resize s.size) = _ ∧ _ :=
    Read.declarations_resize hproper.fits hproper.size hproper.size
  rw [Program.parse]
  generalize Read.declarations s.size #[] s = result at hfinds hmoves hrest
  obtain ⟨stmts, s₁⟩ := result
  dsimp only at hfinds hmoves hrest ⊢
  split
  · exact ⟨hmoves.within hs, hrest, hfinds, by simp⟩
  · refine ⟨(hmoves.within hs).clear _, hrest, by simp [Cursor.Finds], ?_⟩
    rintro es ⟨⟩ e he
    exact hfinds e (Array.mem_toList_iff.1 he)

/-- Reading an expression ends in the tokens, and no reader gives up. -/
theorem Expr.parse_ends (hs : s.Within tokens) :
    (Expr.parse s).2.Within tokens ∧ s.Finds (Expr.parse s).2 ∧
      ∀ e, (Expr.parse s).1 = .error e → e ∈ s.errors ∨ e.cause ≠ .tooDeep := by
  have hmoves := Read.expression_advances s
  rw [Expr.parse]
  rcases (Read.expression_steady.mirrors hs.proper.fits).cases with
    ⟨e, s₁, h, -, hfinds⟩ | ⟨e, s₁, h, -, hc, hfinds⟩
  · rw [Read.after_of_ok h] at hmoves
    rw [h]
    dsimp only
    split
    · next first hfirst =>
      refine ⟨(hmoves.within hs).clear _, by simp [Cursor.Finds], ?_⟩
      rintro _ ⟨⟩
      exact hfinds first (Array.mem_of_getElem? hfirst)
    · split
      · exact ⟨hmoves.within hs, hfinds, by simp⟩
      · refine ⟨hmoves.within hs, hfinds, ?_⟩
        rintro _ ⟨⟩
        exact .inr (by simp)
  · rw [Read.after_of_error h] at hmoves
    rw [h]
    refine ⟨hmoves.within hs, hfinds, ?_⟩
    rintro _ ⟨⟩
    exact .inr hc

namespace Reading

theorem perform_ends (reading : Reading) (hs : s.Within tokens) :
    (reading.perform s).2.Within tokens ∧ s.Finds (reading.perform s).2 := by
  cases reading with
  | program =>
    obtain ⟨hwithin, -, hfinds, -⟩ := Program.parse_ends hs
    rw [perform]
    generalize Program.parse s = result at hwithin hfinds
    obtain ⟨_ | _, s₁⟩ := result <;> exact ⟨hwithin, hfinds⟩
  | expression =>
    obtain ⟨hwithin, hfinds, -⟩ := Expr.parse_ends hs
    rw [perform]
    generalize Expr.parse s = result at hwithin hfinds
    obtain ⟨_ | _, s₁⟩ := result <;> exact ⟨hwithin, hfinds⟩

/-- Any number of readings. -/
theorem performAll_ends (readings : List Reading) (hs : s.Within tokens) :
    (performAll s readings).2.Within tokens ∧ s.Finds (performAll s readings).2 := by
  induction readings generalizing s with
  | nil => exact ⟨hs, .refl s⟩
  | cons reading rest ih =>
    obtain ⟨hwithin, hfinds⟩ := reading.perform_ends hs
    obtain ⟨hwithin', hfinds'⟩ := ih hwithin
    exact ⟨hwithin', hfinds.trans hfinds'⟩

end Reading

/-! ### Every moment -/

/-- What holds at a moment of a reading of `tokens`, when the cursor is at `s`. -/
structure Cursor.Safe (tokens : List Token) (s : Cursor) : Prop where
  /-- The cursor stands at one of the tokens, which is the one that it sees. -/
  position_lt : s.position tokens < (Token.closed tokens).length
  peek : (Token.closed tokens)[s.position tokens]? = some s.peek
  /-- There is a token before it, or it is at the first one. -/
  previous : ∃ t, (Token.closed tokens)[s.position tokens - 1]? = some t
  /-- The cursor is at the end if it sees an end. -/
  atEnd : s.atEnd = s.peek.isEof
  /-- A declaration takes tokens, whether it can be read or not. -/
  advances : ∀ fuel, s.atEnd = false →
    s.position tokens < (Read.declaration fuel s).2.position tokens
  /-- If there is no statement, there is one more error. -/
  reports : ∀ fuel, (Read.declaration fuel s).1 = none →
    s.errors.size < (Read.declaration fuel s).2.errors.size
  /-- A block is read to its end: more fuel than is given out does not change how, and it is not
      given up. -/
  block : ∀ fuel done, s.fuel ≤ fuel → Read.block fuel done s = Read.block s.fuel done s ∧
    ∀ e s₁, Read.block fuel done s = .error e s₁ → e.cause ≠ .tooDeep
  /-- A program is read to the end of the tokens, and not given up. -/
  program_ends : (Program.parse s).2.peek.isEof = true
  program : ∀ es, (Program.parse s).1 = .error es → ∀ e ∈ es, e ∈ s.errors ∨ e.cause ≠ .tooDeep
  /-- Nor is an expression. -/
  expression : ∀ e, (Expr.parse s).1 = .error e → e ∈ s.errors ∨ e.cause ≠ .tooDeep

theorem Read.block_settles (hs : s.Proper) (done : Array Stmt) {fuel : Nat} (hf : s.fuel ≤ fuel) :
    block fuel done s = block s.fuel done s ∧
      ∀ e s₁, block fuel done s = .error e s₁ → e.cause ≠ .tooDeep := by
  have hfuel := hs.fits.fuel
  have h := (stmtMirrors s.size fuel).block done hs.fits (by omega) (show _ ≤ s.fuel by omega)
  refine ⟨h.agreeAt ((stmtAdvances fuel).block done), fun e s₁ he => ?_⟩
  rcases h.cases with ⟨_, _, hok, -⟩ | ⟨_, _, herror, -, hc, -⟩
  · cases hok.symm.trans he
  · cases herror.symm.trans he
    exact hc

theorem Cursor.Within.safe (hs : s.Within tokens) : s.Safe tokens where
  position_lt := hs.position_lt
  peek := hs.getElem?_position
  previous := by
    have hlt : s.position tokens - 1 < (Token.closed tokens).length :=
      Nat.lt_of_le_of_lt (Nat.sub_le _ _) hs.position_lt
    exact ⟨_, List.getElem?_eq_getElem hlt⟩
  atEnd := hs.atEnd_eq
  advances fuel h := by
    have hne : s.rest ≠ [] := by simpa [Cursor.atEnd] using h
    exact hs.position_lt_position (Read.length_declaration_lt fuel hs.proper hne)
  reports _ := Read.errors_lt_of_declaration
  block _ done := Read.block_settles hs.proper done
  program_ends := by
    obtain ⟨hwithin, hrest, -⟩ := Program.parse_ends hs
    rw [← hwithin.atEnd_eq, Cursor.atEnd, hrest]
    rfl
  program := (Program.parse_ends hs).2.2.2
  expression := (Expr.parse_ends hs).2.2

/-- Any tokens can be read, as programs and as expressions in any order, with numbers from anywhere.
    No reader gives up in that. Readers only move the cursor on, whatever becomes of them, so each
    moment of a reading is a move from where the readings before it have left the cursor; and every
    such moment is safe. -/
theorem Reading.moments_safe (tokens : List Token) (firstId : Nat) (readings : List Reading) :
    (∀ e ∈ (Reading.performAll (.ofTokens tokens firstId) readings).2.errors, e.cause ≠ .tooDeep) ∧
    (∀ fuel, Read.ExprAdvances fuel ∧ Read.StmtAdvances fuel) ∧
    ∀ s, (Reading.performAll (.ofTokens tokens firstId) readings).2.Moves s → s.Safe tokens := by
  obtain ⟨hwithin, hfinds⟩ :=
    Reading.performAll_ends readings (Cursor.within_ofTokens tokens firstId)
  refine ⟨fun e he => ?_, fun fuel => ⟨Read.exprAdvances fuel, Read.stmtAdvances fuel⟩,
    fun s hs => ?_⟩
  · exact (hfinds e he).resolve_left (Array.not_mem_empty e)
  · exact (hs.within hwithin).safe

/-- An end stands in the middle, and the first token fits nothing. It is not taken by an expression,
    but by a program, and then the cursor stays at that end. -/
theorem Reading.moments_safe_end_between :
    ∃ (tokens : List Token) (s : Cursor),
      (Reading.performAll (.ofTokens tokens 7) [.expression]).2.position tokens = 0 ∧
      (Reading.performAll (.ofTokens tokens 7) [.expression, .program, .expression]).2.Moves s ∧
      s.position tokens = 1 ∧ (Token.closed tokens).length = 4 ∧ s.Safe tokens :=
  ⟨[⟨.punctuator .rightBrace, "\x7d", 1⟩, ⟨.eof, "", 1⟩, ⟨.identifier, "a", 2⟩],
    _, by decide +kernel, .refl _,
    by decide +kernel, rfl, (moments_safe _ 7 [.expression, .program, .expression]).2.2 _ (.refl _)⟩

end Lox
