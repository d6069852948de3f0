import Mathlib
import Lox.Proofs.JoinedSources
import Lox.Proofs.Spelling

/-!
# Maximal munch

A source is cut into segments from left to right, and each token is the longest one that the lexical
grammar finds where it starts. This determines the cut: there is exactly one, and the scan reads off
it. A scanner that is asked for one item after another gives the items of the scan, then the end of
the source, and then nothing.

* `Segment.Munch`: what a segment is, given what follows it;
* `Segment.cut_iff`: the segments of a source are the only way to cut it;
* `Scanner.next`: one item of a source after another;
* `Scanner.scan_by_maximal_munch`: what scanning yields.
-/

namespace Lox

namespace Segment

/-- The byte that comments start with, twice. -/
def slash : UInt8 := 47

/-- What a segment is, given what follows it in the source. -/
inductive Munch : Segment → List UInt8 → Prop
  /-- A blank is one byte. -/
  | blank {b : UInt8} {rest : List UInt8} : isBlank b = true → Munch (.blank b) rest
  /-- A comment goes up to the end of the line. -/
  | comment {text rest : List UInt8} : newline ∉ text → (∀ c ∈ rest.head?, c = newline) →
      Munch (.comment (slash :: slash :: text)) rest
  /-- A token is the longest one that starts here, unless a comment does. -/
  | token {kind : Token.Kind} {bytes rest : List UInt8} : Spelling kind bytes →
      ¬[slash, slash] <+: bytes ++ rest →
      (∀ kind' bytes', Spelling kind' bytes' → bytes' <+: bytes ++ rest →
        bytes'.length ≤ bytes.length) →
      Munch (.token kind bytes) rest
  /-- A stray byte starts no token, no string that is not closed, and no blank. -/
  | stray {b : UInt8} {rest : List UInt8} : isBlank b = false → b ≠ quote →
      (∀ kind bytes, Spelling kind bytes → bytes.head? ≠ some b) → Munch (.stray b) rest
  /-- A string that is not closed takes all the rest. -/
  | unterminated {contents : List UInt8} : quote ∉ contents →
      Munch (.unterminated (quote :: contents)) []

/-- A source and its segments, without gap or overlap. -/
inductive Cut : List UInt8 → List Segment → Prop
  | nil : Cut [] []
  | cons {s : Segment} {rest : List UInt8} {segments : List Segment} : Munch s rest →
      Cut rest segments →
      Cut (s.bytes ++ rest) (s :: segments)

variable {kind : Token.Kind} {b : UInt8} {bytes rest : List UInt8}

/-! ### No token is longer -/

theorem Shape.of_letter (h : Shape kind b rest) (hb : isLetter b = true) : ∀ c ∈ rest,
    isWordByte c = true := by
  obtain ⟨-, hquote, hdigit⟩ := class_of_letter b hb
  cases h with
  | mark hmark => exact absurd hb (by simp [(class_of_mark b (by simp [hmark])).2.2.2])
  | markEqual hmark => exact absurd hb (by simp [(class_of_mark b (by simp [hmark])).2.2.2])
  | word _ hrest => exact hrest
  | string => exact absurd rfl hquote
  | whole hd => exact absurd hd (by simp [hdigit])
  | decimal hd => exact absurd hd (by simp [hdigit])

theorem Shape.of_digit (h : Shape kind b rest) (hb : isDigit b = true) :
    (∀ d ∈ rest, isDigit d = true) ∨ ∃ digits c fraction, rest = digits ++ point :: c :: fraction ∧
      (∀ d ∈ digits, isDigit d = true) ∧ isDigit c = true ∧ ∀ d ∈ fraction, isDigit d = true := by
  cases h with
  | mark hmark => exact absurd hb (by simp [(class_of_mark b (by simp [hmark])).2.2.1])
  | markEqual hmark => exact absurd hb (by simp [(class_of_mark b (by simp [hmark])).2.2.1])
  | word hl => exact absurd hb (by simp [(class_of_letter b hl).2.2])
  | string => exact absurd rfl (class_of_digit quote hb).2
  | whole _ hrest => exact .inl hrest
  | decimal _ hdigits hc hfraction => exact .inr ⟨_, _, _, rfl, hdigits, hc, hfraction⟩

theorem Shape.of_quote (h : Shape kind quote rest) : ∃ contents, quote ∉ contents ∧
    rest = contents ++ [quote] := by
  generalize hb : quote = b at h
  cases h with
  | mark hmark => exact absurd hb.symm (class_of_mark b (by simp [hmark])).2.1
  | markEqual hmark => exact absurd hb.symm (class_of_mark b (by simp [hmark])).2.1
  | word hl => exact absurd hb.symm (class_of_letter b hl).2.1
  | string hcontents => exact ⟨_, hcontents, rfl⟩
  | whole hd => exact absurd hb.symm (class_of_digit b hd).2
  | decimal hd => exact absurd hb.symm (class_of_digit b hd).2

variable {mark : Punctuator} {tail fraction : List UInt8}

theorem Shape.of_mark (h : Shape kind b rest) (hb : Punctuator.ofChar? (char b) = some mark) :
    rest = [] ∨ ∃ c longer, rest = [c] ∧ mark.withEqual? = some longer ∧ char c = '=' := by
  obtain ⟨-, hquote, hdigit, hletter⟩ := class_of_mark b (by simp [hb])
  cases h with
  | mark => exact .inl rfl
  | markEqual hmark hlonger hc =>
    cases hmark.symm.trans hb
    exact .inr ⟨_, _, rfl, hlonger, hc⟩
  | word hl => exact absurd hl (by simp [hletter])
  | string => exact absurd rfl hquote
  | whole hd => exact absurd hd (by simp [hdigit])
  | decimal hd => exact absurd hd (by simp [hdigit])

/-- The first byte of a token is none that stands alone. -/
theorem Shape.not_stray (h : Shape kind b rest) :
    isBlank b = false ∧
    (b = quote ∨ isDigit b = true ∨ isLetter b = true ∨ Punctuator.ofChar? (char b) ≠ none) := by
  cases h with
  | mark hmark => exact ⟨(class_of_mark b (by simp [hmark])).1, by simp [hmark]⟩
  | markEqual hmark => exact ⟨(class_of_mark b (by simp [hmark])).1, by simp [hmark]⟩
  | word hl => exact ⟨(class_of_letter b hl).1, by simp [hl]⟩
  | string => exact ⟨by decide, by simp⟩
  | whole hd => exact ⟨(class_of_digit b hd).1, by simp [hd]⟩
  | decimal hd => exact ⟨(class_of_digit b hd).1, by simp [hd]⟩

/-- Bytes of one kind at the start of a source are among the first ones of this kind. -/
theorem length_le_takeWhile {p : UInt8 → Bool} (h : bytes <+: rest) (hp : ∀ c ∈ bytes, p c = true) :
    bytes.length ≤ (rest.takeWhile p).length := by
  obtain ⟨after, rfl⟩ := h
  rw [List.takeWhile_append_of_pos hp, List.length_append]
  exact Nat.le_add_right _ _

/-- Digits and a point at the start of a source are all the digits there. -/
theorem dropWhile_of_decimal {digits : List UInt8} {c : UInt8}
    (hdigits : ∀ d ∈ digits, isDigit d = true) (h : digits ++ point :: c :: fraction <+: rest) :
    rest.takeWhile isDigit = digits ∧ ∃ more, rest.dropWhile isDigit = point :: c :: more ∧
    fraction <+: more := by
  obtain ⟨after, rfl⟩ := h
  have hstop : ∀ d ∈ (point :: c :: (fraction ++ after)).head?, isDigit d = false := by
    rintro d hd
    cases hd
    decide
  rw [List.append_assoc, List.cons_append, List.cons_append]
  exact ⟨takeWhile_append_of_stop hdigits hstop, _, dropWhile_append_of_stop hdigits hstop,
    List.prefix_append ..⟩

/-! ### What is split off -/

/-- A token is the longest one if none of the same first byte is longer. -/
theorem munch_token (hshape : Shape kind b bytes)
    (hcomment : ¬[slash, slash] <+: b :: (bytes ++ rest))
    (hlongest : ∀ kind' tail, Shape kind' b tail → tail <+: bytes ++ rest →
      tail.length ≤ bytes.length) :
    Munch (.token kind (b :: bytes)) rest := by
  refine .token hshape.spelling hcomment fun kind' bytes' h hp => ?_
  obtain ⟨b', tail, rfl, hshape'⟩ := h.shape
  rw [List.cons_append, List.cons_prefix_cons] at hp
  obtain ⟨rfl, hp⟩ := hp
  exact Nat.succ_le_succ (hlongest kind' tail hshape' hp)

theorem not_comment_of_ne (hb : b ≠ slash) : ¬[slash, slash] <+: b :: rest := by
  rw [List.cons_prefix_cons]
  exact fun h => hb h.1.symm

theorem munch_word (hb : isLetter b = true) (hword : ∀ c ∈ bytes, isWordByte c = true)
    (hrest : ∀ c ∈ rest.head?, isWordByte c = false) :
    Munch (.token (wordKind (b :: bytes)) (b :: bytes)) rest := by
  refine munch_token (.word hb hword) (not_comment_of_ne ?_) fun kind' tail h hp => ?_
  · rintro rfl
    cases hb
  · have hlength := length_le_takeWhile hp (h.of_letter hb)
    rwa [takeWhile_append_of_stop hword hrest] at hlength

theorem munch_string (hbytes : quote ∉ bytes) (rest : List UInt8) :
    Munch (.token (.string (Text.decodeLossy bytes)) (quote :: bytes ++ [quote])) rest := by
  have hne : ∀ {contents : List UInt8}, quote ∉ contents → ∀ c ∈ contents, (c != quote) = true :=
    fun h c hc => bne_iff_ne.2 fun heq => h (heq ▸ hc)
  change Munch (.token _ (quote :: (bytes ++ [quote]))) rest
  refine munch_token (.string hbytes) (not_comment_of_ne (by decide)) fun kind' tail h hp => ?_
  -- A string from here on is closed by the same quote.
  obtain ⟨contents, hcontents, rfl⟩ := h.of_quote
  rw [List.append_assoc, List.singleton_append] at hp
  have hlength := length_le_takeWhile ((List.prefix_append contents [quote]).trans hp)
    (hne hcontents)
  rw [takeWhile_append_of_stop (hne hbytes) (by simp)] at hlength
  rw [List.length_append, List.length_append]
  exact Nat.succ_le_succ hlength

theorem not_comment_of_digit (hb : isDigit b = true) : ¬[slash, slash] <+: b :: rest := by
  refine not_comment_of_ne ?_
  rintro rfl
  cases hb

theorem munch_whole (hb : isDigit b = true) (hdigits : ∀ d ∈ bytes, isDigit d = true)
    (hrest : ∀ c ∈ rest.head?, isDigit c = false)
    (hno : ∀ c more, rest = point :: c :: more → isDigit c = false) :
    Munch (.token (numberKind (b :: bytes) []) (b :: bytes)) rest := by
  refine munch_token (.whole hb hdigits) (not_comment_of_digit hb) fun kind' tail h hp => ?_
  rcases h.of_digit hb with htail | ⟨digits, c, fraction, rfl, hall, hc, -⟩
  · have hlength := length_le_takeWhile hp htail
    rwa [takeWhile_append_of_stop hdigits hrest] at hlength
  · -- A point and a digit do not follow.
    obtain ⟨-, more, hmore, -⟩ := dropWhile_of_decimal hall hp
    rw [dropWhile_append_of_stop hdigits hrest] at hmore
    exact absurd hc (by simp [hno c more hmore])

theorem munch_decimal {c : UInt8} (hb : isDigit b = true) (hdigits : ∀ d ∈ bytes, isDigit d = true)
    (hc : isDigit c = true) (hfraction : ∀ d ∈ fraction, isDigit d = true)
    (hrest : ∀ c ∈ rest.head?, isDigit c = false) :
    Munch (.token (numberKind (b :: bytes) (c :: fraction))
      (b :: (bytes ++ point :: c :: fraction))) rest := by
  refine munch_token (.decimal hb hdigits hc hfraction) (not_comment_of_digit hb)
    fun kind' tail h hp => ?_
  have hstop : ∀ d ∈ (point :: c :: (fraction ++ rest)).head?, isDigit d = false := by
    rintro d hd
    cases hd
    decide
  rw [List.append_assoc, List.cons_append, List.cons_append] at hp
  rw [List.length_append, List.length_cons, List.length_cons]
  rcases h.of_digit hb with htail | ⟨digits, d, fraction', rfl, hall, hd, hall'⟩
  · have hlength := length_le_takeWhile hp htail
    rw [takeWhile_append_of_stop hdigits hstop] at hlength
    omega
  · -- Both have the same digits before the point, and behind it all that there are.
    obtain ⟨htake, more, hmore, hp'⟩ := dropWhile_of_decimal hall hp
    rw [takeWhile_append_of_stop hdigits hstop] at htake
    rw [dropWhile_append_of_stop hdigits hstop] at hmore
    cases hmore
    have hlength := length_le_takeWhile hp' hall'
    rw [takeWhile_append_of_stop hfraction hrest] at hlength
    rw [List.length_append, List.length_cons, List.length_cons, htake]
    omega

/-- Where bytes of one kind end, there is another one or none. -/
theorem stop_dropWhile (p : UInt8 → Bool) (rest : List UInt8) : ∀ c ∈ (rest.dropWhile p).head?,
    p c = false := by
  intro c hc
  have h := List.head?_dropWhile_not p rest
  rwa [Option.mem_def.1 hc] at h

theorem munch_nextString (rest : List UInt8) : Munch (nextString rest).1 (nextString rest).2 := by
  have hcontents : quote ∉ rest.takeWhile (· != quote) := fun h => by
    simpa using List.mem_takeWhile_imp h
  have hstop := stop_dropWhile (· != quote) rest
  rw [nextString]
  cases hd : rest.dropWhile (· != quote) with
  | nil => exact .unterminated hcontents
  | cons closing after =>
    rw [hd] at hstop
    obtain rfl : closing = quote := by simpa using hstop closing rfl
    exact munch_string hcontents after

theorem munch_nextNumber (hb : isDigit b = true) (rest : List UInt8) :
    Munch (nextNumber b rest).1 (nextNumber b rest).2 := by
  have hdigits : ∀ {rest : List UInt8}, ∀ d ∈ rest.takeWhile isDigit, isDigit d = true :=
    fun d hd => List.mem_takeWhile_imp hd
  have hstop := stop_dropWhile isDigit rest
  rw [nextNumber]
  rcases hd : rest.dropWhile isDigit with - | ⟨c, - | ⟨d, more⟩⟩
  · exact munch_whole hb hdigits (by simp) (by simp)
  · rw [hd] at hstop
    exact munch_whole hb hdigits hstop (by simp)
  · rw [hd] at hstop
    dsimp only
    split
    · next hpoint =>
      obtain rfl := (char_eq_point c).1 hpoint.1
      exact munch_decimal hb hdigits hpoint.2 hdigits (stop_dropWhile isDigit more)
    · next hpoint =>
      refine munch_whole hb hdigits hstop fun c' more' heq => ?_
      cases heq
      exact Bool.eq_false_iff.2 fun hdigit => hpoint ⟨(char_eq_point point).2 rfl, hdigit⟩

theorem slash_of_ofChar? (b : UInt8) : Punctuator.ofChar? (char b) = some .slash ↔ b = slash := by
  revert b
  exact forall_byte (by decide +kernel)

theorem char_eq_slash (b : UInt8) : char b = '/' ↔ b = slash := by
  revert b
  exact forall_byte (by decide +kernel)

theorem munch_nextMark (hb : Punctuator.ofChar? (char b) = some mark) (rest : List UInt8) :
    Munch (nextMark mark b rest).1 (nextMark mark b rest).2 := by
  -- A punctuator alone, if no `=` makes it longer.
  have hone : ¬[slash, slash] <+: b :: rest →
      (∀ c longer, rest.head? = some c → mark.withEqual? = some longer → char c ≠ '=') →
      Munch (.token (.punctuator mark) [b]) rest := by
    intro hcomment hno
    refine munch_token (.mark hb) hcomment fun kind' tail h hp => ?_
    rcases h.of_mark hb with rfl | ⟨c, longer, rfl, hlonger, hc⟩
    · exact Nat.le_refl _
    · obtain ⟨after, rfl⟩ := hp
      exact absurd hc (hno c longer rfl hlonger)
  cases rest with
  | nil => exact hone (by simp) (by simp)
  | cons c after =>
    rw [nextMark]
    split
    · next hslash =>
      obtain rfl := (slash_of_ofChar? b).1 (hslash.1 ▸ hb)
      obtain rfl := (char_eq_slash c).1 hslash.2
      refine .comment (fun h => by simpa using List.mem_takeWhile_imp h) fun c hc => ?_
      simpa using stop_dropWhile (· != newline) after c hc
    · next hslash =>
      have hcomment : ¬[slash, slash] <+: b :: c :: after := by
        intro h
        rw [List.cons_prefix_cons, List.cons_prefix_cons] at h
        obtain ⟨rfl, rfl, -⟩ := h
        exact hslash ⟨Option.some.inj (hb.symm.trans ((slash_of_ofChar? slash).2 rfl)), by decide⟩
      split
      · next longer hlonger =>
        split
        · next hc =>
          -- No punctuator has three bytes.
          refine munch_token (.markEqual hb hlonger hc) hcomment fun kind' tail h hp => ?_
          rcases h.of_mark hb with rfl | ⟨c', longer', rfl, -, -⟩
          · exact Nat.zero_le _
          · exact Nat.le_refl _
        · next hc =>
          refine hone hcomment fun c' longer' hhead _ => ?_
          cases hhead
          exact hc
      · next hnone =>
        refine hone hcomment fun c' longer' _ hlonger => ?_
        rw [hnone] at hlonger
        cases hlonger

/-- A byte that starts nothing else is split off alone. -/
theorem next_of_stray (hblank : isBlank b = false) (hquote : b ≠ quote) (hdigit : isDigit b = false)
    (hletter : isLetter b = false) (hmark : Punctuator.ofChar? (char b) = none)
    (rest : List UInt8) :
    next b rest = (stray b, rest) := by
  rw [next, if_neg (by simp [hblank]), if_neg hquote, if_neg (by simp [hdigit]),
    if_neg (by simp [hletter]), hmark]

/-- What is split off is what the lexical grammar asks for. -/
theorem munch_next (b : UInt8) (rest : List UInt8) : Munch (next b rest).1 (next b rest).2 := by
  cases hblank : isBlank b with
  | true =>
    rw [next_of_blank rest hblank]
    exact .blank hblank
  | false =>
  by_cases hquote : b = quote
  · rw [hquote, next_quote]
    exact munch_nextString rest
  cases hdigit : isDigit b with
  | true =>
    rw [next_of_digit rest hdigit]
    exact munch_nextNumber hdigit rest
  | false =>
  cases hletter : isLetter b with
  | true =>
    rw [next_of_letter rest hletter]
    exact munch_word hletter (fun c hc => List.mem_takeWhile_imp hc)
      (stop_dropWhile isWordByte rest)
  | false =>
  cases hmark : Punctuator.ofChar? (char b) with
  | some mark =>
    rw [next_of_mark rest hmark]
    exact munch_nextMark hmark rest
  | none =>
    rw [next_of_stray hblank hquote hdigit hletter hmark]
    refine .stray hblank hquote fun kind bytes h heq => ?_
    obtain ⟨b', tail, rfl, hshape⟩ := h.shape
    cases heq
    simpa [hquote, hdigit, hletter, hmark] using hshape.not_stray.2

/-! ### There is only one cut -/

theorem Munch.bytes_ne_nil {s : Segment} (h : Munch s rest) : s.bytes ≠ [] := by
  cases h with
  | token hspelling =>
    obtain ⟨b, tail, rfl, -⟩ := hspelling.shape
    exact List.cons_ne_nil _ _
  | _ => exact List.cons_ne_nil _ _

/-- Two tokens that are both the longest one at the start of a source are the same. -/
theorem eq_of_longest {kind' : Token.Kind} {bytes' rest' : List UInt8} (h : Spelling kind bytes)
    (h' : Spelling kind' bytes') (hsource : bytes ++ rest = bytes' ++ rest')
    (hle : bytes.length ≤ bytes'.length) (hge : bytes'.length ≤ bytes.length) :
    (token kind bytes, rest) = (token kind' bytes', rest') := by
  obtain ⟨rfl, rfl⟩ := List.append_inj hsource (Nat.le_antisymm hle hge)
  rw [h.kind_unique h']

/-- The longest token at the start of a source is split off, unless a comment starts there. -/
theorem next_eq_of_longest (hspelling : Spelling kind bytes)
    (hcomment : ¬[slash, slash] <+: bytes ++ rest)
    (hlongest : ∀ kind' bytes', Spelling kind' bytes' → bytes' <+: bytes ++ rest →
      bytes'.length ≤ bytes.length)
    (hsource : bytes ++ rest = b :: tail) : next b tail = (token kind bytes, rest) := by
  -- What is split off instead is again the longest token.
  have hnext := munch_next b tail
  have hbytes := next_bytes b tail
  obtain ⟨b', tail', rfl, hshape⟩ := hspelling.shape
  generalize next b tail = found at hnext hbytes ⊢
  obtain ⟨s', rest'⟩ := found
  dsimp only at hnext hbytes
  rw [← hsource] at hbytes
  cases hnext with
  | blank hblank =>
    cases hbytes
    exact absurd hblank (by simp [hshape.not_stray.1])
  | comment htext =>
    refine absurd ?_ hcomment
    rw [← hbytes]
    exact ⟨_, rfl⟩
  | stray _ _ hstray =>
    cases hbytes
    exact absurd rfl (hstray kind _ hspelling)
  | @unterminated contents hcontents =>
    obtain ⟨rfl, htail⟩ := List.cons.inj hbytes
    obtain ⟨contents', -, rfl⟩ := hshape.of_quote
    have hcontents' : contents = contents' ++ [quote] ++ rest :=
      (List.append_nil contents).symm.trans htail
    exact absurd (by simp [hcontents']) hcontents
  | token hspelling' hcomment' hlongest' =>
    refine eq_of_longest hspelling' hspelling hbytes (hlongest _ _ hspelling' ?_)
      (hlongest' _ _ hspelling ?_)
    · exact ⟨_, hbytes⟩
    · exact ⟨_, hbytes.symm⟩

/-- What the lexical grammar asks for is what is split off. -/
theorem Munch.next_eq {s : Segment} (h : Munch s rest) (hsource : s.bytes ++ rest = b :: tail) :
    next b tail = (s, rest) := by
  cases h with
  | blank hblank =>
    cases hsource
    exact next_of_blank _ hblank
  | @comment text rest htext hrest =>
    cases hsource
    have hne : ∀ c ∈ text, (c != newline) = true := fun c hc => bne_iff_ne.2 fun heq =>
      htext (heq ▸ hc)
    have hstop : ∀ c ∈ rest.head?, (c != newline) = false := fun c hc => by simp [hrest c hc]
    change next slash (slash :: (text ++ rest)) = _
    rw [next_of_mark _ ((slash_of_ofChar? slash).2 rfl), nextMark, if_pos ⟨rfl, by decide⟩,
      takeWhile_append_of_stop hne hstop, dropWhile_append_of_stop hne hstop]
  | stray hblank hquote hstray =>
    cases hsource
    have hnone : ∀ kind, ¬Shape kind b [] := fun kind h => hstray kind [b] h.spelling rfl
    refine next_of_stray hblank hquote ?_ ?_ ?_ rest
    · exact Bool.eq_false_iff.2 fun hdigit => hnone _ (.whole hdigit (by simp))
    · exact Bool.eq_false_iff.2 fun hletter => hnone _ (.word hletter (by simp))
    · exact Option.eq_none_iff_forall_ne_some.2 fun mark hmark => hnone _ (.mark hmark)
  | @unterminated contents hcontents =>
    cases hsource
    have hne : ∀ c ∈ contents, (c != quote) = true := fun c hc => bne_iff_ne.2 fun heq =>
      hcontents (heq ▸ hc)
    change next quote (contents ++ []) = _
    rw [next_quote, nextString, takeWhile_append_of_stop hne (by simp),
      dropWhile_append_of_stop hne (by simp)]
  | token hspelling hcomment hlongest =>
    exact next_eq_of_longest hspelling hcomment hlongest hsource

/-- The segments of a source are the one way to cut it. -/
theorem cut_iff {source : List UInt8} {segments : List Segment} : Cut source segments ↔
    segments = split source := by
  constructor
  · intro h
    induction h with
    | nil => rfl
    | @cons s rest segments hs _ ih =>
      obtain ⟨b, tail, hsource⟩ :=
        List.exists_cons_of_ne_nil (List.append_ne_nil_of_left_ne_nil hs.bytes_ne_nil rest)
      rw [hsource, split_cons, hs.next_eq hsource, ih]
  · rintro rfl
    induction hn : source.length using Nat.strong_induction_on generalizing source with
    | _ n ih =>
      cases source with
      | nil => exact .nil
      | cons b rest =>
        have hcut := Cut.cons (munch_next b rest) (ih _ (hn ▸ next_length_lt b rest) rfl)
        rwa [next_bytes, ← split_cons] at hcut

end Segment

/-! ### Items of a source, one after another -/

/-- A scan under way. -/
structure Scanner where
  /-- The line that it is on. -/
  line : Nat
  /-- What is left of the source; nothing once its end was given. -/
  rest : Option (List UInt8)

namespace Scanner

open Token (Item)

/-- A scanner at the start of a source. -/
def start (source : List UInt8) : Scanner := ⟨1, some source⟩

/-- The next item, and the scanner behind it. Segments without an item are passed over. -/
def next : Scanner → Option Item × Scanner
  | ⟨line, none⟩ => (none, ⟨line, none⟩)
  | ⟨line, some []⟩ => (some (.ok ⟨.eof, "", line⟩), ⟨line, none⟩)
  | ⟨line, some (b :: rest)⟩ =>
    let line := line + (Segment.next b rest).1.newlines
    match Token.item? line (Segment.next b rest).1 with
    | some item => (some item, ⟨line, some (Segment.next b rest).2⟩)
    | none => next ⟨line, some (Segment.next b rest).2⟩
termination_by s => (s.rest.map List.length).getD 0
decreasing_by exact Segment.next_length_lt b rest

/-- What is given when it is asked after `n` other times. -/
def call : Nat → Scanner → Option Item
  | 0, s => s.next.1
  | n + 1, s => call n s.next.2

/-- After the end of the source nothing is given. -/
theorem call_end (line n : Nat) : call n ⟨line, none⟩ = none := by
  have hnext : next ⟨line, none⟩ = (none, ⟨line, none⟩) := by rw [next]
  induction n with
  | zero => rw [call, hnext]
  | succ n ih => rw [call, hnext, ih]

theorem call_congr {s s' : Scanner} (h : s.next = s'.next) (n : Nat) : call n s = call n s' := by
  cases n with
  | zero => rw [call, call, h]
  | succ n => rw [call, call, h]

/-- A scanner gives the items of the segments that are left, one after another. -/
theorem call_eq (line n : Nat) (source : List UInt8) :
    call n ⟨line, some source⟩ = (Token.itemsFrom line (Segment.split source))[n]? := by
  induction hn : source.length using Nat.strong_induction_on generalizing source line n with
  | _ k ih =>
    cases source with
    | nil =>
      have hnext : next ⟨line, some []⟩ = (some (.ok ⟨.eof, "", line⟩),
          ⟨line, none⟩) := by rw [next]
      cases n with
      | zero => rw [call, hnext]; rfl
      | succ n => rw [call, hnext, call_end]; rfl
    | cons b rest =>
      have ih := fun line n => ih _ (hn ▸ Segment.next_length_lt b rest) line n _ rfl
      have hnext := next.eq_3 line b rest
      rw [Segment.split_cons, Token.itemsFrom]
      cases hitem : Token.item? (line + (Segment.next b rest).1.newlines)
        (Segment.next b rest).1 with
      | none =>
        rw [hitem] at hnext
        rw [call_congr hnext, ih]
        rfl
      | some item =>
        rw [hitem] at hnext
        cases n with
        | zero => rw [call, hnext]; rfl
        | succ n => rw [call, hnext, ih]; rfl

/-- What is told of a segment. -/
inductive Tells : Segment → Item → Prop
  | token (kind : Token.Kind) (bytes : List UInt8) (line : Nat) :
      Tells (.token kind bytes) (.ok ⟨kind, Text.decodeLossy bytes, line⟩)
  | stray (b : UInt8) (line : Nat) :
      Tells (.stray b) (.error ⟨line, .unexpectedCharacter (Segment.char b)⟩)
  | unterminated (bytes : List UInt8) (line : Nat) :
      Tells (.unterminated bytes) (.error ⟨line, .unterminatedString⟩)

/-- The segments of which something is told: all but blanks and comments. -/
def isTold : Segment → Bool
  | .blank _ => false
  | .comment _ => false
  | _ => true

theorem tells_itemsWithin (line : Nat) (segments : List Segment) :
    List.Forall₂ Tells (segments.filter isTold) (Token.itemsWithin line segments) := by
  induction segments generalizing line with
  | nil => exact .nil
  | cons s segments ih =>
    rw [Token.itemsWithin]
    cases s with
    | blank byte => exact ih _
    | comment bytes => exact ih _
    | token kind bytes => exact .cons (.token kind bytes _) (ih _)
    | stray byte => exact .cons (.stray byte _) (ih _)
    | unterminated bytes => exact .cons (.unterminated bytes _) (ih _)

/-- Scanning cuts a source by maximal munch. There is exactly one cut; its segments are not empty
    and make up the source; of each token, each stray byte and a string that is not closed one item
    is told, in their order; then comes the end of the source, which is no other item. A scanner
    that is asked again and again gives these items and then nothing. -/
theorem scan_by_maximal_munch (source : List UInt8) :
    ∃ (segments : List Segment) (items : List Item) (line : Nat),
      (∀ segments', Segment.Cut source segments' ↔ segments' = segments) ∧
      segments.flatMap Segment.bytes = source ∧ (∀ s ∈ segments, s.bytes ≠ []) ∧
      List.Forall₂ Tells (segments.filter isTold) items ∧
      (∀ t, .ok t ∈ items → t.isEof = false) ∧
      Token.scan source = items ++ [.ok ⟨.eof, "", line⟩] ∧
      ∀ n, (start source).call n = (items ++ [.ok ⟨.eof, "", line⟩])[n]? := by
  refine ⟨Segment.split source, Token.itemsWithin 1 (Segment.split source), Token.lastLine source,
    fun _ => Segment.cut_iff, Segment.flatMap_bytes_split source, fun s hs => ?_,
    tells_itemsWithin _ _, fun t ht => ?_, Token.scan_eq_itemsWithin source, fun n => ?_⟩
  · exact Segment.of_mem_split (P := fun s => s.bytes ≠ [])
      (fun b rest => (Segment.munch_next b rest).bytes_ne_nil) hs
  · exact Token.isEof_of_mem_within (List.mem_filterMap.2 ⟨_, ht, rfl⟩)
  · rw [← Token.scan_eq_itemsWithin, Token.scan_eq]
    exact call_eq 1 n source

end Scanner

end Lox
