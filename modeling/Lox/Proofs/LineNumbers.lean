import Mathlib
import Lox.Proofs.MaximalMunch

/-!
# Line numbers

Lines are counted segment by segment, and only blanks and strings have line ends in them. As the
segments make up the source, the count is that of the whole source: what is told of a segment
carries the number of the line on which the segment ends, whatever comments, strings, errors and
blank lines stand before it.

* `Segment.EndsAt`: where the segments of a source end;
* `Token.getElem?_itemsFrom`: each item with the segment that it is told of;
* `Token.pairwise_line_itemsFrom`: lines never decrease;
* `Scanner.line_eq_count_newline`: line numbers are exact.
-/

namespace Lox

open Scanner (Tells isTold)

/-- The segment `s` of a source ends at the byte number `stop`, and something is told of `i`
    segments before it. -/
inductive Segment.EndsAt (source : List UInt8) : (i : Nat) → Segment → (stop : Nat) → Prop
  | intro {before after : List Segment} {s : Segment} : Cut source (before ++ s :: after) →
      EndsAt source (before.filter isTold).length s ((before ++ [s]).flatMap bytes).length

namespace Token

/-- The line that an item carries. -/
def Item.line : Item → Nat
  | .ok t => t.line
  | .error e => e.line

variable {item : Item} {segments : List Segment}

theorem item?_eq_some {line : Nat} {s : Segment} (h : item? line s = some item) :
    isTold s = true ∧ Tells s item ∧ item.line = line := by
  cases s with
  | blank byte => cases h
  | comment bytes => cases h
  | token kind bytes =>
    cases h
    exact ⟨rfl, .token kind bytes line, rfl⟩
  | stray byte =>
    cases h
    exact ⟨rfl, .stray byte line, rfl⟩
  | unterminated bytes =>
    cases h
    exact ⟨rfl, .unterminated bytes line, rfl⟩

theorem isTold_of_item?_eq_none {line : Nat} {s : Segment} (h : item? line s = none) :
    isTold s = false := by
  cases s with
  | blank byte => rfl
  | comment bytes => rfl
  | token kind bytes => cases h
  | stray byte => cases h
  | unterminated bytes => cases h

/-- An item is told of a segment, on the line that is reached at the end of it, or it is the end of
    the source. -/
theorem getElem?_itemsFrom {line i : Nat} (h : (itemsFrom line segments)[i]? = some item) :
    (∃ before s after, segments = before ++ s :: after ∧ (before.filter isTold).length = i ∧
      item? (line + ((before ++ [s]).flatMap Segment.bytes).count Segment.newline) s = some item) ∨
    item = .ok ⟨.eof, "", line + (segments.flatMap Segment.bytes).count Segment.newline⟩ := by
  induction segments generalizing line i with
  | nil =>
    rw [itemsFrom, List.getElem?_singleton] at h
    split at h
    · exact .inr (Option.some.inj h).symm
    · cases h
  | cons s segments ih =>
    -- What is found behind `s` is found behind one segment more.
    have hbehind : ∀ {j}, (itemsFrom (line + s.newlines) segments)[j]? = some item →
        ([s].filter isTold).length + j = i →
        (∃ before s' after, s :: segments = before ++ s' :: after ∧
          (before.filter isTold).length = i ∧
          item? (line + ((before ++ [s']).flatMap Segment.bytes).count Segment.newline)
            s' = some item) ∨
        item =
          .ok ⟨.eof, "", line + ((s :: segments).flatMap Segment.bytes).count Segment.newline⟩ := by
      intro j hj hi
      have hcount : ∀ rest : List Segment,
          line + ((s :: rest).flatMap Segment.bytes).count Segment.newline =
          line + s.newlines + (rest.flatMap Segment.bytes).count Segment.newline := by
        intro rest
        rw [List.flatMap_cons, List.count_append, Segment.newlines, Nat.add_assoc]
      rcases ih hj with ⟨before, s', after, rfl, hlength, hitem⟩ | hitem
      · refine .inl ⟨s :: before, s', after, rfl, ?_, ?_⟩
        · rw [← List.singleton_append, List.filter_append, List.length_append, hlength, hi]
        · rwa [List.cons_append, hcount]
      · exact .inr (by rwa [hcount])
    rw [itemsFrom] at h
    cases hitem : item? (line + s.newlines) s with
    | none =>
      rw [hitem] at h
      refine hbehind h ?_
      rw [List.filter_cons_of_neg (by simp [isTold_of_item?_eq_none hitem])]
      exact Nat.zero_add i
    | some first =>
      rw [hitem] at h
      cases i with
      | zero =>
        cases h
        refine .inl ⟨[], s, segments, rfl, rfl, ?_⟩
        rwa [List.nil_append, List.flatMap_singleton]
      | succ i =>
        refine hbehind h ?_
        rw [List.filter_cons_of_pos (item?_eq_some hitem).1]
        exact Nat.add_comm 1 i

theorem le_line_of_mem_itemsFrom {line : Nat} (h : item ∈ itemsFrom line segments) :
    line ≤ item.line := by
  induction segments generalizing line with
  | nil =>
    cases List.mem_singleton.1 h
    exact Nat.le_refl line
  | cons s segments ih =>
    rw [itemsFrom, List.mem_append, Option.mem_toList] at h
    rcases h with h | h
    · rw [(item?_eq_some h).2.2]
      exact Nat.le_add_right _ _
    · exact Nat.le_trans (Nat.le_add_right _ _) (ih h)

/-- Lines never decrease along a scan. -/
theorem pairwise_line_itemsFrom (line : Nat) (segments : List Segment) :
    (itemsFrom line segments).Pairwise fun item item' => item.line ≤ item'.line := by
  induction segments generalizing line with
  | nil => exact List.pairwise_singleton _ _
  | cons s segments ih =>
    rw [itemsFrom, List.pairwise_append]
    refine ⟨?_, ih _, fun item hitem item' hitem' => ?_⟩
    · cases item? (line + s.newlines) s with
      | none => exact .nil
      | some item => exact List.pairwise_singleton _ _
    · rw [(item?_eq_some (Option.mem_toList.1 hitem)).2.2]
      exact le_line_of_mem_itemsFrom hitem'

end Token

namespace Segment

variable {source : List UInt8} {segments before after : List Segment} {s : Segment}

theorem Cut.flatMap_bytes (h : Cut source segments) : segments.flatMap bytes = source := by
  rw [cut_iff.1 h, flatMap_bytes_split]

theorem Cut.munch (h : Cut source (before ++ s :: after)) : Munch s (after.flatMap bytes) := by
  induction before generalizing source with
  | nil =>
    cases h with
    | cons hs hrest => rwa [hrest.flatMap_bytes]
  | cons s' before ih =>
    cases h with
    | cons _ hrest => exact ih hrest

/-- The part of a source up to the end of a segment. -/
theorem Cut.take_eq (h : Cut source (before ++ s :: after)) :
    source.take ((before ++ [s]).flatMap bytes).length = (before ++ [s]).flatMap bytes := by
  have hsource : source = (before ++ [s]).flatMap bytes ++ after.flatMap bytes := by
    rw [← h.flatMap_bytes, ← List.flatMap_append, List.append_assoc, List.singleton_append]
  rw [hsource, List.take_left]

/-- A string ends with a quote. -/
theorem Munch.string {contents : String} {bytes rest : List UInt8}
    (h : Munch (.token (.string contents) bytes) rest) : ∃ body, bytes = body ++ [quote] := by
  cases h with
  | token hspelling =>
    generalize hkind : Token.Kind.string contents = kind at hspelling
    cases hspelling with
    | string => exact ⟨_, rfl⟩
    | whole => simp [numberKind] at hkind
    | decimal => simp [numberKind] at hkind
    | _ => cases hkind

variable {bytes : List UInt8}

theorem Munch.unterminated_rest {rest : List UInt8} (h : Munch (.unterminated bytes) rest) :
    rest = [] := by
  cases h
  rfl

variable {i stop : Nat}

/-- A string ends with its closing quote, so the line ends before its end are those before this
    quote. -/
theorem EndsAt.string {contents : String}
    (h : EndsAt source i (.token (.string contents) bytes) stop) :
    source[stop - 1]? = some quote ∧ (source.take (stop - 1)).count newline =
      (source.take stop).count newline := by
  cases h with
  | @intro before after _ hcut =>
    obtain ⟨body, rfl⟩ := hcut.munch.string
    have hbytes : (before ++ [token (.string contents) (body ++ [quote])]).flatMap Segment.bytes =
        before.flatMap Segment.bytes ++ body ++ [quote] := by
      simp [Segment.bytes]
    have hsource : source = before.flatMap Segment.bytes ++ body ++ quote ::
        after.flatMap Segment.bytes := by
      rw [← hcut.flatMap_bytes]
      simp [Segment.bytes]
    have hquote : [quote].count newline = 0 := by decide
    rw [hcut.take_eq, hbytes, List.count_append, hquote, List.length_append, List.length_singleton,
      Nat.add_sub_cancel, hsource, List.take_left]
    exact ⟨by simp, rfl⟩

/-- A string that is not closed ends with the source. -/
theorem EndsAt.unterminated (h : EndsAt source i (.unterminated bytes) stop) :
    stop = source.length := by
  cases h with
  | @intro before after _ hcut =>
    have hrest := hcut.munch.unterminated_rest
    rw [← hcut.flatMap_bytes, List.flatMap_append, List.flatMap_append, List.flatMap_singleton,
      List.flatMap_cons, hrest, List.append_nil]

end Segment

namespace Scanner

open Segment (newline quote)

/-- Line numbers are exact. The line of an item is one more than the number of line ends before the
    end of the segment that it is told of, which for a string are those before its closing quote. A
    string that is not closed and the end of the source are on the last line. So lines never
    decrease. -/
theorem line_eq_count_newline (source : List UInt8) :
    (∀ i (item : Token.Item), (Token.scan source)[i]? = some item →
      (∃ s stop, Segment.EndsAt source i s stop ∧ Tells s item ∧
        item.line = 1 + (source.take stop).count newline ∧
        (∀ contents bytes, s = .token (.string contents) bytes →
          source[stop - 1]? = some quote ∧ item.line = 1 + (source.take (stop - 1)).count newline) ∧
        (∀ bytes, s = .unterminated bytes → item.line = 1 + source.count newline)) ∨
      item = .ok ⟨.eof, "", 1 + source.count newline⟩) ∧
    (Token.scan source).Pairwise fun item item' => item.line ≤ item'.line := by
  rw [Token.scan_eq]
  refine ⟨fun i item hitem => ?_, Token.pairwise_line_itemsFrom 1 _⟩
  rcases Token.getElem?_itemsFrom hitem with ⟨before, s, after, hsplit, rfl, htold⟩ | heof
  · have hcut : Segment.Cut source (before ++ s :: after) := hsplit ▸ Segment.cut_iff.2 rfl
    obtain ⟨-, htells, hline⟩ := Token.item?_eq_some htold
    have hends := Segment.EndsAt.intro hcut
    rw [← hcut.take_eq] at hline
    refine .inl ⟨s, _, hends, htells, hline, ?_, ?_⟩
    · rintro contents bytes rfl
      obtain ⟨hquote, hcount⟩ := hends.string
      exact ⟨hquote, by rw [hline, hcount]⟩
    · rintro bytes rfl
      rw [hline, hends.unterminated, List.take_length]
  · rw [Segment.flatMap_bytes_split] at heof
    exact .inr heof

end Scanner

end Lox
