import Mathlib
import Lox.Proofs.Naming
import Lox.Proofs.Relabelling

/-!
# Joined sources

Two sources with a newline between them are scanned as one after the other. No segment goes on over
a newline but a comment, which ends before it, and a string. So if all strings of the first source
are closed, its segments stay what they are, and those of the second source follow, some lines
further down.

* `Segment.split_append_newline`: the segments of two sources;
* `Token.scan_append_newline`: their items;
* `Token.scanAll_append_newline`: their tokens and errors, if nothing is wrong with the first.
-/

namespace Lox

namespace Segment

/-- A segment that does not go on if more follows. -/
def Closed : Segment → Prop
  | unterminated _ => False
  | _ => True

section

variable {p : UInt8 → Bool} (hp : p newline = false) (xs rest : List UInt8)
include hp

theorem takeWhile_append_newline : (xs ++ newline :: rest).takeWhile p = xs.takeWhile p := by
  induction xs with
  | nil => rw [List.nil_append, List.takeWhile_cons_of_neg (by simp [hp]), List.takeWhile_nil]
  | cons x xs ih =>
    rw [List.cons_append, List.takeWhile_cons, List.takeWhile_cons, ih]

theorem dropWhile_append_newline :
    (xs ++ newline :: rest).dropWhile p = xs.dropWhile p ++ newline :: rest := by
  induction xs with
  | nil =>
    rw [List.nil_append, List.dropWhile_cons_of_neg (by simp [hp]), List.dropWhile_nil,
      List.nil_append]
  | cons x xs ih =>
    rw [List.cons_append, List.dropWhile_cons, List.dropWhile_cons, ih]
    split <;> rfl

end

/-- A segment is split off in the same way if a newline follows the source. -/
def Stays (found : Segment × List UInt8) (rest : List UInt8)
    (found' : Segment × List UInt8) : Prop :=
  found.1.Closed → found' = (found.1, found.2 ++ newline :: rest)

variable (b : UInt8) (source rest : List UInt8)

theorem nextString_append :
    Stays (nextString source) rest (nextString (source ++ newline :: rest)) := by
  intro h
  unfold nextString at h ⊢
  cases hd : source.dropWhile (· != quote) with
  | nil =>
    rw [hd] at h
    cases h
  | cons closing after =>
    have htake : (source ++ newline :: rest).takeWhile (· != quote) =
        source.takeWhile (· != quote) := by
      rw [List.takeWhile_append, if_neg]
      intro hall
      have := congrArg List.length
        (List.takeWhile_append_dropWhile (p := (· != quote)) (l := source))
      rw [List.length_append, hd, List.length_cons] at this
      omega
    have hdrop : (source ++ newline :: rest).dropWhile (· != quote) = closing ::
        (after ++ newline :: rest) := by
      rw [List.dropWhile_append, hd]
      rfl
    rw [htake, hdrop]

theorem nextNumber_append :
    Stays (nextNumber b source) rest (nextNumber b (source ++ newline :: rest)) := by
  intro _
  have hdigit : isDigit newline = false := by decide
  unfold nextNumber
  rw [takeWhile_append_newline hdigit, dropWhile_append_newline hdigit]
  rcases source.dropWhile isDigit with - | ⟨point, - | ⟨first, more⟩⟩
  · -- The newline is no point.
    cases rest with
    | nil => rfl
    | cons c rest => exact if_neg fun h => absurd h.1 (by decide)
  · -- The newline is no digit behind a point.
    exact if_neg fun h => absurd h.2 (by simp [hdigit])
  · simp only [List.cons_append]
    split
    · rw [takeWhile_append_newline hdigit, dropWhile_append_newline hdigit]
    · rfl

theorem nextWord_append :
    Stays (nextWord b source) rest (nextWord b (source ++ newline :: rest)) := by
  intro _
  have hword : isWordByte newline = false := by decide
  rw [nextWord, nextWord, takeWhile_append_newline hword, dropWhile_append_newline hword]

theorem nextMark_append (mark : Punctuator) :
    Stays (nextMark mark b source) rest (nextMark mark b (source ++ newline :: rest)) := by
  intro _
  cases source with
  | nil =>
    have hslash : ¬(mark = .slash ∧ char newline = '/') := fun h => absurd h.2 (by decide)
    have hequal : ¬char newline = '=' := by decide
    rw [nextMark, List.nil_append, nextMark, if_neg hslash]
    cases mark.withEqual? with
    | none => rfl
    | some longer => exact if_neg hequal
  | cons c after =>
    have hnewline : (newline != newline) = false := by decide
    rw [nextMark, List.cons_append, nextMark]
    split
    · rw [takeWhile_append_newline (p := (· != newline)) hnewline,
        dropWhile_append_newline (p := (· != newline)) hnewline]
    · repeat' split
      all_goals rfl

theorem next_append : Stays (next b source) rest (next b (source ++ newline :: rest)) := by
  unfold next
  split
  · exact fun _ => rfl
  split
  · exact nextString_append source rest
  split
  · exact nextNumber_append b source rest
  split
  · exact nextWord_append b source rest
  split
  · next mark _ => exact nextMark_append b source rest mark
  · exact fun _ => rfl

variable {source}

/-- The segments of a source, a newline, and another source. -/
theorem split_append_newline (h : ∀ s ∈ split source, s.Closed) :
    split (source ++ newline :: rest) = split source ++ blank newline :: split rest := by
  -- A segment can have many bytes, so the induction is on how many bytes are left.
  induction hn : source.length using Nat.strong_induction_on generalizing source with
  | _ n ih =>
    cases source with
    | nil => rw [List.nil_append, split_cons, split_nil, List.nil_append]; rfl
    | cons b source =>
      rw [split_cons] at h ⊢
      have hnext := next_append b source rest (h _ (List.mem_cons_self ..))
      rw [List.cons_append, split_cons, hnext, List.cons_append,
        ih _ (hn ▸ next_length_lt b source) (fun s hs => h s (List.mem_cons_of_mem _ hs)) rfl]

/-- A segment that is not the end of a source. -/
def Inner : Segment → Prop
  | token kind _ => kind ≠ .eof
  | _ => True

theorem inner_next (b : UInt8) (rest : List UInt8) : (next b rest).1.Inner := by
  have hword : ∀ word, wordKind word ≠ .eof := by
    intro word
    unfold wordKind
    split <;> simp
  unfold next nextString nextNumber nextWord nextMark numberKind
  repeat' split
  all_goals simp [Inner, hword]

end Segment

/-- The same identities on other lines. -/
def Relabelling.ofLines (f : Nat → Nat) : Relabelling := ⟨fun id => id, f⟩

namespace Token

/-- What is scanned, some lines further down. -/
def Item.down (k : Nat) : Item → Item
  | .ok t => .ok (t.relabel (.ofLines (· + k)))
  | .error e => .error { e with line := e.line + k }

theorem itemsFrom_add (line k : Nat) (segments : List Segment) :
    itemsFrom (line + k) segments = (itemsFrom line segments).map (Item.down k) := by
  induction segments generalizing line with
  | nil => rfl
  | cons s segments ih =>
    have hitem : item? (line + s.newlines + k) s =
        (item? (line + s.newlines) s).map (Item.down k) := by
      cases s <;> rfl
    rw [itemsFrom, itemsFrom, Nat.add_right_comm, ih, hitem, List.map_append, Option.toList_map]

/-- The items of segments, without the end of the source. -/
def itemsWithin (line : Nat) : List Segment → List Item
  | [] => []
  | s :: segments =>
    (item? (line + s.newlines) s).toList ++ itemsWithin (line + s.newlines) segments

theorem itemsFrom_append (line : Nat) (segments segments' : List Segment) :
    itemsFrom line (segments ++ segments') =
      itemsWithin line segments ++ itemsFrom (line + (segments.map Segment.newlines).sum)
        segments' := by
  induction segments generalizing line with
  | nil => rfl
  | cons s segments ih =>
    rw [List.cons_append, itemsFrom, itemsWithin, ih, List.map_cons, List.sum_cons, Nat.add_assoc,
      List.append_assoc]

/-- A token, if it is one. -/
def Item.token? : Item → Option Token
  | .ok t => some t
  | .error _ => none

/-- An error, if it is one. -/
def Item.error? : Item → Option ScanError
  | .ok _ => none
  | .error e => some e

theorem scanAll_eq (source : List UInt8) :
    scanAll source = ((scan source).filterMap Item.token?, (scan source).filterMap Item.error?) :=
  rfl

theorem filterMap_down (k : Nat) (items : List Item) :
    (items.map (Item.down k)).filterMap Item.token? =
        (items.filterMap Item.token?).map (Token.relabel (.ofLines (· + k))) ∧
      (items.map (Item.down k)).filterMap Item.error? =
        (items.filterMap Item.error?).map fun e => { e with line := e.line + k } := by
  rw [List.filterMap_map, List.filterMap_map, List.map_filterMap, List.map_filterMap]
  constructor <;>
  · congr 1
    funext item
    cases item <;> rfl

/-- The tokens of a source but for its end. -/
def within (source : List UInt8) : List Token :=
  (itemsWithin 1 (Segment.split source)).filterMap Item.token?

/-- The number of the last line of a source. -/
def lastLine (source : List UInt8) : Nat := ((Segment.split source).map Segment.newlines).sum + 1

theorem scan_eq_itemsWithin (source : List UInt8) :
    scan source = itemsWithin 1 (Segment.split source) ++ [.ok ⟨.eof, "", lastLine source⟩] := by
  have h := itemsFrom_append 1 (Segment.split source) []
  rwa [List.append_nil, ← scan_eq, Nat.add_comm] at h

theorem scanAll_tokens (source : List UInt8) :
    (scanAll source).1 = within source ++ [⟨.eof, "", lastLine source⟩] := by
  rw [scanAll_eq, scan_eq_itemsWithin, List.filterMap_append]
  rfl

theorem scanAll_errors (source : List UInt8) :
    (scanAll source).2 = (itemsWithin 1 (Segment.split source)).filterMap Item.error? := by
  rw [scanAll_eq, scan_eq_itemsWithin]
  exact (List.filterMap_append ..).trans (List.append_nil _)

variable {source : List UInt8}

/-- A token of a source comes from a segment of it. -/
theorem exists_of_mem_within {t : Token} (h : t ∈ within source) :
    ∃ bytes, Segment.token t.kind bytes ∈ Segment.split source ∧
    t.lexeme = Text.decodeLossy bytes := by
  have hitems : ∀ (line : Nat) (segments : List Segment), .ok t ∈ itemsWithin line segments →
      ∃ bytes, Segment.token t.kind bytes ∈ segments ∧ t.lexeme = Text.decodeLossy bytes := by
    intro line segments
    induction segments generalizing line with
    | nil => exact fun hmem => absurd hmem (List.not_mem_nil)
    | cons s segments ih =>
      intro hmem
      rw [itemsWithin, List.mem_append] at hmem
      rcases hmem with hmem | hmem
      · have hitem := Option.mem_toList.1 hmem
        cases s with
        | token kind bytes =>
          cases hitem
          exact ⟨bytes, List.mem_cons_self .., rfl⟩
        | _ => cases hitem
      · obtain ⟨bytes, hbytes, hlexeme⟩ := ih _ hmem
        exact ⟨bytes, List.mem_cons_of_mem _ hbytes, hlexeme⟩
  obtain ⟨item, hitem, ht⟩ := List.mem_filterMap.1 h
  cases item with
  | error e => cases ht
  | ok t' =>
    cases ht
    exact hitems _ _ hitem

theorem isEof_of_mem_within {t : Token} (h : t ∈ within source) : t.isEof = false := by
  obtain ⟨bytes, hbytes, -⟩ := exists_of_mem_within h
  have hinner : (Segment.token t.kind bytes).Inner := Segment.of_mem_split Segment.inner_next hbytes
  exact Bool.eq_false_iff.2 fun he => hinner (Token.isEof_iff.1 he)

/-- If no string of a source is told to be open, all that is open in it is closed. -/
theorem closed_of_scan (h : ∀ line, .error ⟨line, .unterminatedString⟩ ∉ scan source) :
    ∀ s ∈ Segment.split source, s.Closed := by
  have hitems : ∀ (line : Nat) (segments : List Segment),
      (∀ line', .error ⟨line', .unterminatedString⟩ ∉ itemsWithin line segments) → ∀ s ∈ segments,
      s.Closed := by
    intro line segments
    induction segments generalizing line with
    | nil => exact fun _ s hs => absurd hs List.not_mem_nil
    | cons s segments ih =>
      intro hnone
      simp only [itemsWithin, List.mem_append, not_or] at hnone
      refine List.forall_mem_cons.2 ⟨?_, ih _ fun line' => (hnone line').2⟩
      cases s with
      | unterminated bytes => exact absurd (List.mem_singleton.2 rfl) (hnone _).1
      | _ => trivial
  refine hitems 1 _ fun line hmem => h line ?_
  rw [scan_eq_itemsWithin]
  exact List.mem_append_left _ hmem

/-- If nothing is wrong with a source, all that is open in it is closed. -/
theorem closed_of_scanAll (h : (scanAll source).2 = []) : ∀ s ∈ Segment.split source, s.Closed := by
  refine closed_of_scan fun line hmem => ?_
  have herror : ⟨line, .unterminatedString⟩ ∈ (scanAll source).2 :=
    List.mem_filterMap.2 ⟨_, hmem, rfl⟩
  rw [h] at herror
  cases herror

/-- The items of two sources, if all that is open in the first one is closed. -/
theorem scan_append (h : ∀ s ∈ Segment.split source, s.Closed) (rest : List UInt8) :
    scan (source ++ Segment.newline :: rest) =
      itemsWithin 1 (Segment.split source) ++ (scan rest).map (Item.down (lastLine source)) := by
  rw [scan_eq, Segment.split_append_newline _ h, itemsFrom_append, scan_eq, ← itemsFrom_add]
  rfl

/-- The tokens of two sources are those of the first and, further down, those of the second, and
    what is wrong is what is wrong with the second. -/
theorem scanAll_append_newline (h : (scanAll source).2 = []) (rest : List UInt8) :
    (scanAll (source ++ Segment.newline :: rest)).1 =
        within source ++ (scanAll rest).1.map (Token.relabel (.ofLines (· + lastLine source))) ∧
      (scanAll (source ++ Segment.newline :: rest)).2 =
        (scanAll rest).2.map fun e => { e with line := e.line + lastLine source } := by
  obtain ⟨htokens, hrest⟩ := filterMap_down (lastLine source) (scan rest)
  rw [scanAll_eq, scan_append (closed_of_scanAll h), List.filterMap_append, List.filterMap_append,
    ← scanAll_errors, h, htokens, hrest, scanAll_eq]
  exact ⟨rfl, rfl⟩

/-- The last line of a source is counted by its line ends. -/
theorem lastLine_eq (source : List UInt8) : lastLine source = 1 + source.count Segment.newline := by
  have hcount := List.count_flatMap (x := Segment.newline) (l := Segment.split source)
    (f := Segment.bytes)
  rw [Segment.flatMap_bytes_split] at hcount
  rw [lastLine, Nat.add_comm, hcount]
  rfl

/-- Scanning is compositional at line ends. If no string of the first source is told to be open, the
    items of two sources with a newline between them are those of the first without its end and
    those of the second, further down by the lines of the first. -/
theorem scan_append_newline {source : List UInt8}
    (h : ∀ line, .error ⟨line, .unterminatedString⟩ ∉ scan source) (rest : List UInt8) :
    ∃ (items : List Item) (eof : Token), eof.isEof = true ∧ scan source = items ++ [.ok eof] ∧
      scan (source ++ Segment.newline :: rest) =
        items ++ (scan rest).map (Item.down (1 + source.count Segment.newline)) := by
  refine ⟨itemsWithin 1 (Segment.split source), ⟨.eof, "", lastLine source⟩, rfl,
    scan_eq_itemsWithin source, ?_⟩
  rw [scan_append (closed_of_scan h), lastLine_eq]

/-- The first source has a stray byte, a string over two lines and a quote in a comment, and the
    second one ends with a string that is not closed. -/
theorem scan_append_newline_open_string :
    ∃ (source rest : List UInt8) (items : List Item),
      (∀ line, .error ⟨line, .unterminatedString⟩ ∉ scan source) ∧
      items.length = 2 ∧ source.count Segment.newline = 1 ∧
      scan (source ++ Segment.newline :: rest) = items ++ (scan rest).map (Item.down 2) := by
  let source := "@ \"x\ny\" // \"".toUTF8.toList
  let rest := "1.\n\"z".toUTF8.toList
  have hscan : scan source = [.error ⟨1, .unexpectedCharacter '@'⟩,
      .ok ⟨.string "x\ny", "\"x\ny\"", 2⟩, .ok ⟨.eof, "", 2⟩] := by decide +kernel
  have hopen : ∀ line, .error ⟨line, .unterminatedString⟩ ∉ scan source := by
    rw [hscan]
    simp
  have hcount : source.count Segment.newline = 1 := by decide +kernel
  obtain ⟨items, eof, -, hitems, hjoined⟩ := scan_append_newline hopen rest
  rw [hcount] at hjoined
  refine ⟨source, rest, items, hopen, ?_, hcount, hjoined⟩
  have hlength := congrArg List.length (hscan.symm.trans hitems)
  rw [List.length_append] at hlength
  exact (Nat.succ.inj hlength).symm

end Token

end Lox
