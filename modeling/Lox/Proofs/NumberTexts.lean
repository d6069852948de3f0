import Mathlib
import Lox.Number.Text
import Lox.Proofs.Rescanning
import Lox.Proofs.ShortestDecimals

/-!
# Numbers read back from their texts

The text of a decimal is digits, possibly with a point among them, and the lexical grammar reads it
as the double nearest to that decimal (`Decimal.spelling_plain`). So the text of a double without a
sign is the spelling of that double, both as a value is displayed (`Number.spelling_display`) and as
an expression tree shows it (`Number.spelling_inTree`).

Main statement: `Number.display_reads_back`.
-/

namespace Lox

open Binary64

/-! ## Digits -/

namespace Segment

/-- The byte of a digit. -/
def digitByte (c : Char) : UInt8 := UInt8.ofNat c.toNat

/-- A digit is written as one byte. -/
theorem digitByte_spec {c : Char} (hc : c.isDigit = true) :
    String.utf8EncodeChar c = [digitByte c] ∧ isDigit (digitByte c) = true ∧
      (digitByte c).toNat - 48 = c.toNat - '0'.toNat := by
  have hrange : 48 ≤ c.toNat ∧ c.toNat ≤ 57 := by
    simpa [Char.isDigit, UInt32.le_iff_toNat_le] using hc
  obtain ⟨k, hk, rfl⟩ : ∃ k < 10, c = Char.ofNat (48 + k) :=
    ⟨c.toNat - 48, by omega, by rw [Nat.add_sub_cancel' hrange.1, Char.ofNat_toNat]⟩
  clear hc hrange
  revert k
  decide +kernel

section

variable {ws fs : List Char} (hws : ∀ c ∈ ws, c.isDigit = true) (hfs : ∀ c ∈ fs, c.isDigit = true)

include hws

theorem toList_toUTF8_digits : (String.ofList ws).toUTF8.toList = ws.map digitByte := by
  rw [Text.toList_toUTF8, String.toList_ofList, List.map_eq_flatMap]
  exact List.flatMap_congr fun c hc => (digitByte_spec (hws c hc)).1

theorem isDigit_of_mem_digits : ∀ b ∈ ws.map digitByte, isDigit b = true := by
  intro b hb
  obtain ⟨c, hc, rfl⟩ := List.mem_map.1 hb
  exact (digitByte_spec (hws c hc)).2.1

theorem digitsValue_digits (n : Nat) :
    digitsValue n (ws.map digitByte) = Nat.ofDigitChars 10 ws n := by
  rw [digitsValue, Nat.ofDigitChars_eq_foldl, List.foldl_map]
  refine List.foldl_ext _ _ _ fun m c hc => ?_
  rw [(digitByte_spec (hws c hc)).2.2, Nat.mul_comm]

/-- Digits are a whole number. -/
theorem Spelling.of_digits (hne : ws ≠ []) :
    Spelling (.number (ofPosition (Decimal.position ⟨Nat.ofDigitChars 10 ws 0, 0⟩)))
      (String.ofList ws).toUTF8.toList := by
  rw [toList_toUTF8_digits hws, ← digitsValue_digits hws]
  exact .whole (List.map_eq_nil_iff.not.2 hne) (isDigit_of_mem_digits hws)

include hfs

/-- Digits with a point among them are a decimal. -/
theorem Spelling.of_point (hne : ws ≠ []) (hne' : fs ≠ []) :
    Spelling
      (.number (ofPosition (Decimal.position ⟨Nat.ofDigitChars 10 (ws ++ fs) 0, -fs.length⟩)))
      (String.ofList ws ++ "." ++ String.ofList fs).toUTF8.toList := by
  have hpoint : ".".toUTF8.toList = [point] := by decide +kernel
  rw [Text.toList_toUTF8_append, Text.toList_toUTF8_append, hpoint, toList_toUTF8_digits hws,
    toList_toUTF8_digits hfs, Nat.ofDigitChars_append, ← digitsValue_digits hws,
    ← digitsValue_digits hfs, ← List.length_map digitByte, List.append_assoc]
  exact .decimal (List.map_eq_nil_iff.not.2 hne) (isDigit_of_mem_digits hws)
    (List.map_eq_nil_iff.not.2 hne') (isDigit_of_mem_digits hfs)

end

/-! ## A text that is one token -/

/-- A text that is spelled as a token, on one line, is scanned as that token. -/
theorem Spelling.scan {kind : Token.Kind} {text : String} (h : Spelling kind text.toUTF8.toList)
    (hline : newline ∉ text.toUTF8.toList) :
    Token.scan text.toUTF8.toList = [.ok ⟨kind, text, 1⟩, .ok ⟨.eof, "", 1⟩] := by
  have hsplit := h.split (show ∀ c ∈ ([] : List UInt8).head?, isBlank c = true by simp)
  rw [List.append_nil, split_nil] at hsplit
  have hlines : (token kind text.toUTF8.toList).newlines = 0 := List.count_eq_zero.2 hline
  rw [Token.scan_eq, hsplit, Token.itemsFrom, hlines, Token.item?, Token.itemsFrom,
    Text.decodeLossy_toUTF8]
  rfl

/-- Numbers are positions of doubles without a sign, and they are written with digits and a
    point. -/
theorem Spelling.number_cases {x : Float} {bytes : List UInt8} (h : Spelling (.number x) bytes) :
    (∃ p ≤ infinity, x = ofPosition p) ∧ ∀ b ∈ bytes, isDigit b = true ∨ b = point := by
  generalize hkind : Token.Kind.number x = kind at h
  cases h with
  | punctuator | keyword | identifier | string => cases hkind
  | whole _ hdigits =>
    cases hkind
    exact ⟨⟨_, nearest_le_infinity _ _, rfl⟩, fun b hb => .inl (hdigits b hb)⟩
  | decimal _ hdigits _ hfraction =>
    cases hkind
    refine ⟨⟨_, nearest_le_infinity _ _, rfl⟩,
      List.forall_mem_append.2 ⟨fun b hb => .inl (hdigits b hb), ?_⟩⟩
    exact List.forall_mem_cons.2 ⟨.inr rfl, fun b hb => .inl (hfraction b hb)⟩

theorem Spelling.newline_notMem_number {x : Float} {bytes : List UInt8}
    (h : Spelling (.number x) bytes) : newline ∉ bytes :=
  fun hmem => absurd (h.number_cases.2 newline hmem) (by decide)

/-- No number is written with a sign. -/
theorem Spelling.isNegative_eq_false {x : Float} {bytes : List UInt8}
    (h : Spelling (.number x) bytes) : isNegative x = false := by
  obtain ⟨⟨p, hp, rfl⟩, -⟩ := h.number_cases
  exact isNegative_ofPosition hp

end Segment

namespace Decimal

/-! ## Decimals as texts -/

theorem isDigit_of_mem_toDigits {c : Char} {n : Nat} (hc : c ∈ Nat.toDigits 10 n) :
    c.isDigit = true :=
  Nat.isDigit_of_mem_toDigits (by norm_num) (by norm_num) hc

theorem isDigit_of_mem_zeros {c : Char} {k : Nat} (hc : c ∈ List.replicate k '0') :
    c.isDigit = true := by
  rw [List.eq_of_mem_replicate hc]
  rfl

variable {d : Decimal}

/-- A decimal without digits after the point is written as its digits and zeros. -/
theorem plain_of_exponent_nonneg (hd : 0 ≤ d.exponent) :
    d.plain = String.ofList (Nat.toDigits 10 d.digits ++ List.replicate d.exponent.toNat '0') := by
  rw [plain]
  simp only [Int.toNat_of_nonpos (neg_nonpos.2 hd), if_true]
  rw [Nat.repr_eq_ofList_toDigits, zeros, String.ofList_append]

theorem toDigits_append_zeros {n : Nat} (hn : 0 < n) (k : Nat) :
    Nat.toDigits 10 n ++ List.replicate k '0' = Nat.toDigits 10 (n * 10 ^ k) := by
  induction k with
  | zero => rw [List.replicate_zero, List.append_nil, pow_zero, Nat.mul_one]
  | succ k ih =>
    have hzero : Nat.toDigits 10 0 = ['0'] := rfl
    have hstep := @Nat.toDigits_append_toDigits 10 (n * 10 ^ k) 0 (by norm_num)
      (by positivity) (by norm_num)
    rw [hzero, Nat.add_zero, Nat.mul_left_comm, ← pow_succ'] at hstep
    rw [List.replicate_succ', ← List.append_assoc, ih, hstep]

/-- A whole number is written as its digits. -/
theorem plain_eq_repr {n : Nat} (hd : 0 ≤ d.exponent) (hvalue : d.value = n) (hn : 0 < n) :
    d.plain = n.repr := by
  rw [value_of_exponent_nonneg hd, Nat.cast_inj] at hvalue
  subst hvalue
  rw [plain_of_exponent_nonneg hd, toDigits_append_zeros (Nat.pos_of_mul_pos_right hn),
    Nat.repr_eq_ofList_toDigits]
  rfl

/-- The digits around the point of a decimal that has digits after it. -/
theorem plain_of_exponent_neg (hd : d.exponent < 0) :
    ∃ ws fs : List Char, d.plain = String.ofList ws ++ "." ++ String.ofList fs ∧ ws ≠ [] ∧
      d.exponent = -fs.length ∧
      ∃ k, ws ++ fs = List.replicate k '0' ++ Nat.toDigits 10 d.digits := by
  obtain ⟨places, hplaces⟩ : ∃ n : Nat, (-d.exponent).toNat = n + 1 :=
    Nat.exists_eq_succ_of_ne_zero (by omega)
  rw [plain]
  simp only [hplaces, Nat.succ_ne_zero, if_false]
  generalize hpadded : (zeros (places + 1 + 1 - d.digits.repr.length) ++ d.digits.repr).toList =
    padded
  have hchars : padded =
      List.replicate (places + 1 + 1 - d.digits.repr.length) '0' ++ Nat.toDigits 10 d.digits := by
    rw [← hpadded, String.toList_append, zeros, String.toList_ofList, Nat.toList_repr]
  have hlength : places + 2 ≤ padded.length := by
    have : d.digits.repr.length = (Nat.toDigits 10 d.digits).length := by
      rw [← Nat.toList_repr, String.length_toList]
    rw [hchars, List.length_append, List.length_replicate]
    omega
  refine ⟨_, _, rfl, ?_, ?_, _, (List.take_append_drop _ padded).trans hchars⟩
  · rw [Ne, List.take_eq_nil_iff]
    rintro (h | h)
    · omega
    · rw [h] at hlength
      simp at hlength
  · rw [List.length_drop]
    omega

theorem shortest_plain_of_whole (tie : Tie) {p n : Nat} (hp : p < infinity) (hn : n < 10 ^ 15)
    (h : number p = n) : (shortest tie p).plain = n.repr := by
  rcases Nat.eq_zero_or_pos n with rfl | hpos
  · obtain rfl : p = 0 :=
      units_strictMono.injective ((number_eq_natCast.1 h).trans (Nat.zero_mul _))
    rw [shortest_zero]
    decide +kernel
  · obtain ⟨hvalue, hexponent⟩ := shortest_of_whole tie hp hn h
    exact plain_eq_repr hexponent hvalue hpos

/-- What is written for a decimal is read as that decimal. -/
theorem spelling_plain (d : Decimal) :
    Segment.Spelling (.number (ofPosition d.position)) d.plain.toUTF8.toList := by
  rcases le_or_gt 0 d.exponent with hd | hd
  · have hdigits : ∀ c ∈ Nat.toDigits 10 d.digits ++ List.replicate d.exponent.toNat '0',
        c.isDigit = true := by
      intro c hc
      exact (List.mem_append.1 hc).elim isDigit_of_mem_toDigits isDigit_of_mem_zeros
    have hspelling := Segment.Spelling.of_digits hdigits
      (List.append_ne_nil_of_left_ne_nil Nat.toDigits_ne_nil _)
    rw [Nat.ofDigitChars_append, Nat.ofDigitChars_ten_toDigits, Nat.ofDigitChars_replicate_zero,
      Nat.mul_comm, ← plain_of_exponent_nonneg hd] at hspelling
    have hposition : d.position = position ⟨d.numerator, 0⟩ := by
      refine position_congr ?_
      rw [value_of_exponent_nonneg hd, value, zpow_zero, mul_one]
    rw [hposition]
    exact hspelling
  · obtain ⟨ws, fs, hplain, hne, hexponent, k, hpadded⟩ := plain_of_exponent_neg hd
    have hdigits : ∀ c ∈ ws ++ fs, c.isDigit = true := by
      rw [hpadded]
      intro c hc
      exact (List.mem_append.1 hc).elim isDigit_of_mem_zeros isDigit_of_mem_toDigits
    have hfs : fs ≠ [] := by
      rintro rfl
      simp at hexponent
      omega
    have hvalue : Nat.ofDigitChars 10 (ws ++ fs) 0 = d.digits := by
      rw [hpadded, Nat.ofDigitChars_append, Nat.ofDigitChars_replicate_zero, Nat.mul_zero,
        Nat.ofDigitChars_ten_toDigits]
    have hspelling := Segment.Spelling.of_point (fun c hc => hdigits c (List.mem_append_left _ hc))
      (fun c hc => hdigits c (List.mem_append_right _ hc)) hne hfs
    rwa [hvalue, ← hexponent, ← hplain] at hspelling

/-- A whole number may have a zero after a point. -/
theorem spelling_whole {p n : Nat} (hp : p ≤ infinity) (h : number p = n) :
    Segment.Spelling (.number (ofPosition p)) (n.repr ++ ".0").toUTF8.toList := by
  have hzero : ∀ c ∈ ['0'], c.isDigit = true := List.forall_mem_singleton.2 rfl
  have hspelling := Segment.Spelling.of_point (@isDigit_of_mem_toDigits · n)
    hzero Nat.toDigits_ne_nil
    (List.cons_ne_nil _ _)
  generalize hd : Decimal.mk (Nat.ofDigitChars 10 (Nat.toDigits 10 n ++ ['0']) 0)
    (-['0'].length) = d
    at hspelling
  have hvalue : d.value = number p := by
    rw [h, ← hd, value, Nat.ofDigitChars_append, Nat.ofDigitChars_ten_toDigits]
    simp [Nat.ofDigitChars]
    ring
  have htext : String.ofList (Nat.toDigits 10 n) ++ "." ++ String.ofList ['0'] =
      n.repr ++ ".0" := by
    rw [Nat.repr_eq_ofList_toDigits, String.append_assoc]
    rfl
  rwa [position_of_value hp hvalue, htext] at hspelling

end Decimal

namespace Number

variable {x : Float}

theorem plain_of_finite (hx : position x < infinity) :
    plain x = sign x ++ (Decimal.shortest .up (position x)).plain := by
  rw [plain, if_neg (Nat.lt_asymm hx), if_neg hx.ne]

theorem isWhole_iff : isWhole x = true ↔ position x < infinity ∧
    number (position x) = wholePart x := by
  rw [isWhole, Bool.and_eq_true, decide_eq_true_iff, beq_iff_eq, number_eq_natCast, wholePart]
  refine and_congr_right fun _ => ⟨fun h => ?_, fun h => ?_⟩
  · exact (Nat.div_mul_cancel (Nat.dvd_of_mod_eq_zero h)).symm
  · exact Nat.mod_eq_zero_of_dvd (Dvd.intro_left _ h.symm)

/-- Small whole numbers are written in the same way in both forms. -/
theorem display_eq_plain (hx : position x < infinity) : display x = plain x := by
  rw [display, if_neg (Nat.lt_asymm hx), if_neg hx.ne]
  split_ifs with hsmall
  · rw [Bool.and_eq_true, isSmallWhole, Bool.and_eq_true, decide_eq_true_iff, isWhole_iff] at hsmall
    obtain ⟨⟨⟨-, hwhole⟩, hlt⟩, -⟩ := hsmall
    rw [plain_of_finite hx, Decimal.shortest_plain_of_whole .up hx hlt hwhole]
  · rfl

theorem sign_of_negative (hx : isNegative x = true) : sign x = "-" := if_pos hx

theorem sign_of_not_negative (hx : isNegative x = false) : sign x = "" := by
  rw [sign, hx]
  rfl

/-- A number that is not negative is spelled as it is displayed. -/
theorem spelling_display (hx : x.isFinite = true) (hsign : isNegative x = false) :
    Segment.Spelling (.number x) (display x).toUTF8.toList := by
  have hfinite := isFinite_iff.1 hx
  have hspelling := (Decimal.shortest .up (position x)).spelling_plain
  rw [(Decimal.isShortest_shortest .up hfinite).1, ofPosition_position hsign] at hspelling
  rwa [display_eq_plain hfinite, plain_of_finite hfinite, sign_of_not_negative hsign,
    String.empty_append]

theorem display_of_negative (hx : x.isFinite = true) (hsign : isNegative x = true) :
    display x = "-" ++ display x.abs := by
  have hfinite := isFinite_iff.1 hx
  have hposition : position x.abs = position x := by
    rw [abs_eq_ofPosition, position_ofPosition hfinite.le]
  have habs : isNegative x.abs = false := by
    rw [abs_eq_ofPosition, isNegative_ofPosition hfinite.le]
  rw [display_eq_plain hfinite, display_eq_plain (hposition.trans_lt hfinite),
    plain_of_finite hfinite,
    plain_of_finite (hposition.trans_lt hfinite), hposition, sign_of_negative hsign,
    sign_of_not_negative habs, String.empty_append]

/-- A number that is not negative is spelled as an expression tree shows it. -/
theorem spelling_inTree (hx : x.isFinite = true) (hsign : isNegative x = false) :
    Segment.Spelling (.number x) (inTree x).toUTF8.toList := by
  have hfinite := isFinite_iff.1 hx
  rw [inTree]
  split_ifs with hwhole
  · rw [sign_of_not_negative hsign, String.empty_append]
    have hspelling := Decimal.spelling_whole hfinite.le (isWhole_iff.1 hwhole).2
    rwa [ofPosition_position hsign] at hspelling
  · have hspelling := spelling_display hx hsign
    rwa [display_eq_plain hfinite] at hspelling

/-- Whole numbers below `10 ^ 15`, other than minus zero, are displayed as integers are. -/
theorem display_of_whole (hx : x.isFinite = true) {k : ℤ} (hvalue : value x = k)
    (hk : |k| < 10 ^ 15) (hzero : ¬(k = 0 ∧ isNegative x = true)) : display x = k.repr := by
  have hfinite := isFinite_iff.1 hx
  have hpos := number_nonneg (position x)
  rw [display_eq_plain hfinite, plain_of_finite hfinite]
  rw [value_eq hx] at hvalue
  split_ifs at hvalue with hsign
  · obtain ⟨n, rfl⟩ : ∃ n : Nat, k = Int.negSucc n := by
      refine Int.eq_negSucc_of_lt_zero (lt_of_le_of_ne ?_ fun h => hzero ⟨h, hsign⟩)
      have : (k : ℚ) ≤ 0 := by linarith
      exact_mod_cast this
    have hnumber : number (position x) = (n + 1 : Nat) := by
      rw [Int.cast_negSucc] at hvalue
      exact neg_injective hvalue
    have hlt : n + 1 < 10 ^ 15 := by
      rw [Int.negSucc_eq, abs_neg] at hk
      exact_mod_cast (le_abs_self _).trans_lt hk
    rw [sign_of_negative hsign, Decimal.shortest_plain_of_whole .up hfinite hlt hnumber]
    rfl
  · obtain ⟨n, rfl⟩ : ∃ n : Nat, k = n := by
      refine Int.eq_ofNat_of_zero_le ?_
      have : (0 : ℚ) ≤ k := by linarith
      exact_mod_cast this
    have hlt : n < 10 ^ 15 := by exact_mod_cast (le_abs_self _).trans_lt hk
    rw [sign_of_not_negative (Bool.eq_false_of_not_eq_true hsign), String.empty_append,
      Decimal.shortest_plain_of_whole .up hfinite hlt (hvalue.trans (Int.cast_natCast n))]
    rfl

/-- Displayed numbers are read back. A finite number without a minus sign is scanned, from the text
    that it is displayed as, as one token with exactly this number, and the end. Any other finite
    number, minus zero too, is displayed as its magnitude with a minus in front. Whole numbers below
    `10 ^ 15`, other than minus zero, are displayed as integers are, and the general form is the
    same text. The general form is the shortest decimal that reads back, and of those the
    nearest. -/
theorem display_reads_back (hx : x.isFinite = true) :
    (isNegative x = false → Token.scan (display x).toUTF8.toList =
      [.ok ⟨.number x, display x, 1⟩, .ok ⟨.eof, "", 1⟩]) ∧
    (isNegative x = true → display x = "-" ++ display x.abs) ∧
    (∀ k : ℤ, value x = k → |k| < 10 ^ 15 → ¬(k = 0 ∧ isNegative x = true) →
      display x = k.repr ∧ plain x = k.repr) ∧
    ∃ d : Decimal, plain x = sign x ++ d.plain ∧ d.IsShortest (position x) := by
  have hfinite := isFinite_iff.1 hx
  refine ⟨fun hsign => ?_, display_of_negative hx, fun k hvalue hk hzero => ?_, ?_⟩
  · have hspelling := spelling_display hx hsign
    exact hspelling.scan hspelling.newline_notMem_number
  · have hdisplay := display_of_whole hx hvalue hk hzero
    exact ⟨hdisplay, (display_eq_plain hfinite).symm.trans hdisplay⟩
  · exact ⟨_, plain_of_finite hfinite, Decimal.isShortest_shortest .up hfinite⟩

/-- The least positive double is read back, and minus zero is told from zero. -/
theorem display_reads_back_extremes :
    ((ofPosition 1).isFinite = true ∧ Token.scan (display (ofPosition 1)).toUTF8.toList =
      [.ok ⟨.number (ofPosition 1), display (ofPosition 1), 1⟩, .ok ⟨.eof, "", 1⟩]) ∧
    (Float.ofBits 0x8000000000000000).isFinite = true ∧
      display (Float.ofBits 0x8000000000000000) =
        "-" ++ display (Float.ofBits 0x8000000000000000).abs := by
  have hleast : (ofPosition 1).isFinite = true := by decide +kernel
  have hzero : (Float.ofBits 0x8000000000000000).isFinite = true := by decide +kernel
  exact ⟨⟨hleast, (display_reads_back hleast).1 (by decide +kernel)⟩,
    hzero, (display_reads_back hzero).2.1 (by decide +kernel)⟩

end Number

end Lox
