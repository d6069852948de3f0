import Mathlib
import Lox.Proofs.Recasting
import Lox.Proofs.RoundTrip

/-!
# Errors after correct code

Code that can be read does not change what is found behind it. Tokens that are read as a program can
be put in front of any others, unless these start with an `else`: the others are then read as if
they stood alone, with numbers that go on where the first ones end. If they are a program, its
statements follow. If they are not, the errors are the same ones in the same order
(`Program.parse_append_isolated`).

The tokens in front are read without looking at what follows (`Program.declarations_of_parse`), and
after that only the number of tokens at the start tells the two readings apart
(`Read.declarations_resize`).
-/

namespace Lox

/-- Nothing gets another identity or line. -/
def Relabelling.same : Relabelling := ⟨fun i => i, fun l => l⟩

theorem Token.map_relabel_same (tokens : List Token) : tokens.map (Token.relabel .same) = tokens :=
  List.map_id tokens

theorem Cursor.size_ofTokens (tokens : List Token) (firstId : Nat) :
    (ofTokens tokens firstId).size = (ofTokens tokens firstId).rest.length := rfl

theorem Cursor.eof_ofTokens_append {tokens : List Token} {eof : Token} (firstId : Nat)
    (ht : ∀ t ∈ tokens, t.isEof = false) (heof : eof.isEof = true) :
    (ofTokens (tokens ++ [eof]) firstId).eof = eof := by
  have hdrop : ((tokens ++ [eof]).dropWhile fun t => !t.isEof) = [eof] := by
    rw [List.dropWhile_append_of_pos (by simpa using ht)]
    simp [heof]
  rw [ofTokens]
  dsimp only
  split
  · next found more h => exact List.head_eq_of_cons_eq (h.symm.trans hdrop)
  · next h => cases h.symm.trans hdrop

namespace Program

/-- A program that was read is left as it is by a relabelling that changes nothing: it can be read
    only once. -/
theorem relabelAll_same {s s₁ : Cursor} {program : Program} (hs : s.Proper) (he : s.errors = #[])
    (h : Program.parse s = (.ok program, s₁)) : Stmt.relabelAll .same program = program := by
  have hsame : s.Recast .same none s := by
    refine ⟨?_, fun _ => rfl, fun _ => rfl, Nat.le_refl _, he⟩
    rw [Token.map_relabel_same, Option.getD_none, List.append_nil]
  obtain ⟨s₁', h', -⟩ := parse_recast hs h hsame
  rw [h] at h'
  injection h' with hprogram
  injection hprogram with hprogram
  exact hprogram.symm

/-- Statements in front are part of the program, and no part of what is wrong with it. -/
theorem parse_of_declarations_append {t u : Cursor} {program : Program} {k : Nat}
    (h : Read.declarations u.size #[] u =
      (program.toArray ++ (Read.declarations t.size #[] t).1,
        (Read.declarations t.size #[] t).2.resize k)) :
    (Program.parse u).1 = (Program.parse t).1.map (program ++ ·) ∧
      (Program.parse u).2.nextId = (Program.parse t).2.nextId := by
  rw [Program.parse, Program.parse, h]
  generalize Read.declarations t.size #[] t = result
  obtain ⟨stmts, s⟩ := result
  dsimp only [Cursor.resize]
  by_cases he : s.errors.isEmpty = true
  · rw [if_pos he, if_pos he, Array.toList_append]
    exact ⟨rfl, rfl⟩
  · rw [if_neg he, if_neg he]
    exact ⟨rfl, rfl⟩

/-- The tokens of `t` behind those of `s`: the reading goes on as it would from `t`. -/
theorem declarations_append {s s₁ t u : Cursor} {program : Program} (hs : s.Proper) (ht : t.Proper)
    (hp : Program.parse s = (.ok program, s₁)) (he : s.errors = #[]) (het : t.errors = #[])
    (helse : ∀ first ∈ t.rest.head?, first.kind ≠ .keyword .else) (hid : t.nextId = s₁.nextId)
    (hu : s.Recast .same (some t.rest) u) (heof : u.eof = t.eof) :
    ∃ k, Read.declarations u.size #[] u =
      (program.toArray ++ (Read.declarations t.size #[] t).1,
        (Read.declarations t.size #[] t).2.resize k) := by
  obtain ⟨hrest, hlen, s₁', hs₁', heof', hrun⟩ :=
    declarations_of_parse (by rwa [Option.getD_some]) hs hp hu
  have hrest' : s₁'.rest = t.rest := by
    rw [hs₁'.rest, hrest, List.map_nil, List.nil_append, Option.getD_some]
  have hnext : s₁'.nextId = t.nextId := by
    rw [hid]
    exact (hs₁'.nextId 0).symm
  have hsize := hs₁'.size
  rw [Option.getD_some] at hsize
  have hfits : t.Fits s₁'.size := ⟨ht, by omega⟩
  -- Only the number of tokens at the start is not that of `t`.
  have hcursor : s₁' = t.resize s₁'.size := by
    obtain ⟨rest, eof, nextId, errors, size⟩ := s₁'
    obtain ⟨rest', eof', nextId', errors', size'⟩ := t
    cases hrest'
    cases hnext
    cases heof'.trans heof
    cases hs₁'.errors.trans het.symm
    rfl
  have husize := hu.size
  rw [Option.getD_some] at husize
  have hssize := hs.size
  obtain ⟨m, hm⟩ : ∃ m, u.size = program.length + m := ⟨u.size - program.length, by omega⟩
  generalize s₁'.size = k at hfits hcursor
  obtain ⟨hread, -⟩ : Read.declarations m (program.toArray ++ #[]) (t.resize k) = _ ∧ _ :=
    Read.declarations_resize hfits ht.size (by omega)
  rw [Array.append_empty] at hread
  refine ⟨k, ?_⟩
  rw [hm, hrun, relabelAll_same hs he hp, Array.empty_append, hcursor, hread]

/-- Correct code in front of other tokens changes nothing about them: with the statements of that
    code in front, the program is what they are read as alone, with the numbers that are left, and
    the errors are theirs. -/
theorem parse_append_isolated (firstId : Nat) (first rest : List Token) (eof eof' : Token)
    (hfirst : ∀ t ∈ first, t.isEof = false) (hrest : ∀ t ∈ rest, t.isEof = false)
    (heof : eof.isEof = true) (heof' : eof'.isEof = true)
    (helse : ∀ t ∈ rest.head?, t.kind ≠ .keyword .else) (stmts : Program) (s₁ : Cursor)
    (h : Program.parse (.ofTokens (first ++ [eof']) firstId) = (.ok stmts, s₁)) :
    (Program.parse (.ofTokens (first ++ rest ++ [eof]) firstId)).1 =
        (Program.parse (.ofTokens (rest ++ [eof]) s₁.nextId)).1.map (stmts ++ ·) ∧
      (Program.parse (.ofTokens (first ++ rest ++ [eof]) firstId)).2.nextId =
        (Program.parse (.ofTokens (rest ++ [eof]) s₁.nextId)).2.nextId := by
  have hs := Cursor.proper_ofTokens (first ++ [eof']) firstId
  have ht := Cursor.proper_ofTokens (rest ++ [eof]) s₁.nextId
  have hsrest : (Cursor.ofTokens (first ++ [eof']) firstId).rest = first :=
    takeWhile_append_eof hfirst heof'
  have htrest : (Cursor.ofTokens (rest ++ [eof]) s₁.nextId).rest = rest :=
    takeWhile_append_eof hrest heof
  have hurest : (Cursor.ofTokens (first ++ rest ++ [eof]) firstId).rest = first ++ rest :=
    takeWhile_append_eof (List.forall_mem_append.2 ⟨hfirst, hrest⟩) heof
  have hu : (Cursor.ofTokens (first ++ [eof']) firstId).Recast .same
      (some (Cursor.ofTokens (rest ++ [eof]) s₁.nextId).rest)
      (Cursor.ofTokens (first ++ rest ++ [eof]) firstId) := by
    refine ⟨?_, fun h => absurd h (Option.some_ne_none _), fun _ => rfl, ?_, rfl⟩
    · rw [hurest, hsrest, Token.map_relabel_same, Option.getD_some, htrest]
    · rw [Option.getD_some, htrest, Cursor.size_ofTokens, Cursor.size_ofTokens, hsrest, hurest,
        List.length_append]
  obtain ⟨k, hread⟩ := declarations_append hs ht h rfl rfl (by rwa [htrest]) rfl hu
    ((Cursor.eof_ofTokens_append _ (List.forall_mem_append.2 ⟨hfirst, hrest⟩) heof).trans
      (Cursor.eof_ofTokens_append _ hrest heof).symm)
  exact parse_of_declarations_append hread

/-- Behind `print a;` the errors of `var = ; print b` are found as they are alone. -/
theorem parse_append_isolated_var :
    ∃ (first rest : List Token) (eof : Token) (stmts : Program) (errors : List ParseError),
      (Program.parse (.ofTokens (first ++ [eof]) 0)).1 = .ok stmts ∧
      errors.map ParseError.cause = [.expectedVariableName, .expectedValueEnd] ∧
      (Program.parse (.ofTokens (rest ++ [eof]) 1)).1 = .error errors ∧
      (Program.parse (.ofTokens (first ++ rest ++ [eof]) 0)).1 = .error errors := by
  let first : List Token := [⟨.keyword .print, "print", 1⟩, ⟨.identifier, "a", 1⟩,
    ⟨.punctuator .semicolon, ";", 1⟩]
  let rest : List Token := [⟨.keyword .var, "var", 2⟩, ⟨.punctuator .equal, "=", 2⟩,
    ⟨.punctuator .semicolon, ";", 2⟩, ⟨.keyword .print, "print", 3⟩, ⟨.identifier, "b", 3⟩]
  have hfirst : Program.parse (.ofTokens (first ++ [⟨.eof, "", 3⟩]) 0) =
    (.ok [.print (.var 0 ⟨"a", 1⟩)], ⟨[], ⟨.eof, "", 3⟩, 1, #[], 3⟩) := rfl
  have hrest : (Program.parse (.ofTokens (rest ++ [⟨.eof, "", 3⟩]) 1)).1 =
    .error [⟨.at ⟨"=", 2⟩, .expectedVariableName⟩, ⟨.atEnd 3, .expectedValueEnd⟩] := rfl
  refine ⟨first, rest, ⟨.eof, "", 3⟩, _, _, congrArg Prod.fst hfirst, rfl, hrest, ?_⟩
  rw [(parse_append_isolated 0 first rest ⟨.eof, "", 3⟩ ⟨.eof, "", 3⟩ (by decide)
    (by decide) rfl rfl
    (by decide) _ _ hfirst).1, hrest]
  rfl

end Program

end Lox
