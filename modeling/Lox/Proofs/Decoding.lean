import Mathlib
import Lox.Text.Utf8

/-!
# Bytes and text

Decoding undoes encoding, also when what is encoded was itself decoded from bytes that are no UTF-8.
A byte below `0x80` is a character on its own, so it is never part of another one: text can be cut
in front of it, and it is among the decoded characters only if it is among the bytes.

* `Text.decodeLossy_toUTF8`: a text is decoded from its bytes;
* `Text.decodeLossy_append`: a text can be decoded in parts;
* `Text.toUTF8_decodeLossy_of_ascii`: bytes below `0x80` are encoded from their text;
* `Text.mem_of_mem_decodeLossy`, `Text.mem_of_mem_toUTF8`: characters below `0x80` and their bytes.
-/

namespace Lox.Text

/-! ### Bytes of a text -/

theorem toList_eq_data (bytes : ByteArray) : bytes.toList = bytes.data.toList := by
  have hloop : ∀ i r, ByteArray.toList.loop bytes i r = r.reverse ++ bytes.data.toList.drop i := by
    intro i r
    fun_induction ByteArray.toList.loop bytes i r with
    | case1 i r hi ih =>
      have hlen : i < bytes.data.toList.length := hi
      have hget : bytes.get! i = bytes.data.toList.get ⟨i, hlen⟩ := getElem!_pos bytes.data i hi
      rw [ih, List.drop_eq_getElem_cons hlen, hget, List.reverse_cons, List.append_assoc]
      rfl
    | case2 i r hi =>
      rw [List.drop_eq_nil_of_le (Nat.le_of_not_lt hi), List.append_nil]
  exact hloop 0 []

/-- The bytes of a text are those of its characters. -/
theorem toList_toUTF8 (text : String) :
    text.toUTF8.toList = text.toList.flatMap String.utf8EncodeChar := by
  have h : text.toUTF8 = (text.toList.flatMap String.utf8EncodeChar).toByteArray := by
    rw [String.toUTF8_eq_toByteArray, ← String.ofList_toList (s := text), String.toByteArray_ofList,
      String.toList_ofList]
    rfl
  rw [h, toList_eq_data, List.toList_data_toByteArray]

theorem toList_toUTF8_append (text text' : String) :
    (text ++ text').toUTF8.toList = text.toUTF8.toList ++ text'.toUTF8.toList := by
  rw [toList_toUTF8, toList_toUTF8, toList_toUTF8, String.toList_append, List.flatMap_append]

/-! ### Bytes of a character -/

variable {b c : UInt8} {lead : Lead} {tests : List (UInt8 → Bool)} {tail bytes : List UInt8}

theorem isContinuation_iff : isContinuation c = true ↔ 0x80 ≤ c.toNat ∧ c.toNat ≤ 0xBF := by
  rw [isContinuation, Bool.and_eq_true, decide_eq_true_iff, decide_eq_true_iff]
  exact Iff.rfl

/-- What may come second depends on the lead byte in four cases. -/
theorem isSecond_iff :
    isSecond b c = true ↔ (0x80 ≤ c.toNat ∧ c.toNat ≤ 0xBF) ∧
      (b.toNat = 0xE0 → 0xA0 ≤ c.toNat) ∧ (b.toNat = 0xED → c.toNat ≤ 0x9F) ∧
      (b.toNat = 0xF0 → 0x90 ≤ c.toNat) ∧ (b.toNat = 0xF4 → c.toNat ≤ 0x8F) := by
  unfold isSecond
  simp only [← UInt8.toNat_inj]
  repeat' split
  all_goals
    simp [isContinuation_iff, UInt8.le_iff_toNat_le] at *
    omega

/-- Bytes below `0x80` cannot follow in a character. -/
theorem Lead.tail_of_ascii (hlead : lead? b = some lead) (hc : c < 0x80) :
    ∀ allowed ∈ lead.tail, allowed c = false := by
  have hlow : ¬0x80 ≤ c.toNat := Nat.not_le.2 hc
  have hcontinuation : isContinuation c = false := Bool.eq_false_iff.2 fun h =>
    hlow (isContinuation_iff.1 h).1
  have hsecond : isSecond b c = false := Bool.eq_false_iff.2 fun h => hlow (isSecond_iff.1 h).1.1
  unfold lead? at hlead
  repeat' split at hlead
  all_goals
    cases hlead
    try simp [hcontinuation, hsecond]

theorem takeTail_suffix (tests : List (UInt8 → Bool)) (bytes : List UInt8) :
    (takeTail tests bytes).2 <:+ bytes := by
  fun_induction takeTail tests bytes with
  | case1 allowed tests b bytes _ tail rest h ih =>
    rw [h] at ih
    exact ih.trans (List.suffix_cons b bytes)
  | case2 => exact List.suffix_rfl
  | case3 => exact List.suffix_rfl

theorem takeTail_append (hc : ∀ allowed ∈ tests, allowed c = false) (bytes rest : List UInt8) :
    takeTail tests (bytes ++ c :: rest) =
      ((takeTail tests bytes).1, (takeTail tests bytes).2 ++ c :: rest) := by
  induction tests generalizing bytes with
  | nil => rw [takeTail, takeTail] <;> simp
  | cons allowed tests ih =>
    obtain ⟨hallowed, htests⟩ := List.forall_mem_cons.1 hc
    cases bytes with
    | nil => rw [List.nil_append, takeTail, if_neg (by simp [hallowed])]; rfl
    | cons b bytes =>
      rw [List.cons_append, takeTail, takeTail, ih htests]
      split <;> rfl

/-- The first character in terms of the lead byte. -/
theorem nextChar_of_lead (hlead : lead? b = some lead) (rest : List UInt8) :
    nextChar b rest =
      (if (takeTail lead.tail rest).1.length = lead.tail.length then join lead.payload
        (takeTail lead.tail rest).1
        else replacement,
       (takeTail lead.tail rest).2) := by
  rw [nextChar, hlead]
  dsimp only
  split <;> rfl

theorem nextChar_of_none (hlead : lead? b = none) (rest : List UInt8) :
    nextChar b rest = (replacement, rest) := by
  rw [nextChar, hlead]

/-- A character takes one byte or more. -/
theorem nextChar_suffix (b : UInt8) (rest : List UInt8) : (nextChar b rest).2 <:+ rest := by
  cases hlead : lead? b with
  | none => rw [nextChar_of_none hlead]
  | some lead =>
    rw [nextChar_of_lead hlead]
    exact takeTail_suffix _ _

theorem nextChar_length (b : UInt8) (rest : List UInt8) :
    (nextChar b rest).2.length ≤ rest.length :=
  (nextChar_suffix b rest).length_le

/-- A byte below `0x80` is no part of the character before it. -/
theorem nextChar_append (hc : c < 0x80) (b : UInt8) (bytes rest : List UInt8) :
    nextChar b (bytes ++ c :: rest) = ((nextChar b bytes).1,
      (nextChar b bytes).2 ++ c :: rest) := by
  cases hlead : lead? b with
  | none => rw [nextChar_of_none hlead, nextChar_of_none hlead]
  | some lead =>
    rw [nextChar_of_lead hlead, nextChar_of_lead hlead,
      takeTail_append (Lead.tail_of_ascii hlead hc)]

/-- If as many bytes were split off as there are tests, each passed its test. -/
theorem takeTail_passes (h : (takeTail tests bytes).1.length = tests.length) :
    List.Forall₂ (fun allowed c => allowed c = true) tests (takeTail tests bytes).1 := by
  fun_induction takeTail tests bytes with
  | case1 allowed tests b bytes hb tail rest ht ih =>
    rw [ht] at ih
    exact .cons hb (ih (Nat.succ.inj h))
  | case2 => cases h
  | case3 tests bytes hnone =>
    cases tests with
    | nil => exact .nil
    | cons => cases h

/-- A character of more than one byte has a number from `0x80` on. -/
theorem le_of_lead (hlead : lead? b = some lead) (hb : ¬b < 0x80)
    (htail : List.Forall₂ (fun allowed c => allowed c = true) lead.tail tail) :
    0x80 ≤ tail.foldl (fun n c => n * 64 + c.toNat % 64) lead.payload := by
  unfold lead? at hlead
  rw [if_neg hb] at hlead
  simp only [UInt8.lt_iff_toNat_lt, UInt8.le_iff_toNat_le, UInt8.reduceToNat] at hlead hb
  repeat' split at hlead
  all_goals cases hlead
  · rcases htail with - | ⟨hc, - | _⟩
    simp only [List.foldl_cons, List.foldl_nil]
    omega
  · rcases htail with - | ⟨hc, - | ⟨hd, - | _⟩⟩
    have := isSecond_iff.1 hc
    simp only [List.foldl_cons, List.foldl_nil]
    omega
  · rcases htail with - | ⟨hc, - | ⟨hd, - | ⟨he, - | _⟩⟩⟩
    have := isSecond_iff.1 hc
    simp only [List.foldl_cons, List.foldl_nil]
    omega

/-- Below `0x80` a character is decoded from its own byte only. (`0` stands for numbers that are no
    characters.) -/
theorem nextChar_fst_of_lt {rest : List UInt8} (h0 : 0 < (nextChar b rest).1.toNat)
    (h : (nextChar b rest).1.toNat < 0x80) : (nextChar b rest).1.toNat = b.toNat := by
  have hreplacement : replacement.toNat = 0xFFFD := by decide
  by_cases hb : b < 0x80
  · rw [nextChar_ascii hb]
    have : b.toNat < 0x80 := hb
    rw [Char.toNat_ofNat, if_pos (.inl (by omega))]
  · exfalso
    cases hlead : lead? b with
    | none =>
      rw [nextChar_of_none hlead, hreplacement] at h
      omega
    | some lead =>
      rw [nextChar_of_lead hlead] at h h0
      split at h
      · next hlength =>
        have := le_of_lead hlead hb (takeTail_passes hlength)
        rw [if_pos hlength, join, Char.toNat_ofNat] at h0
        rw [join, Char.toNat_ofNat] at h
        split at h
        · omega
        · next hvalid => rw [if_neg hvalid] at h0; omega
      · rw [hreplacement] at h
        omega

theorem takeTail_of_passes (h : List.Forall₂ (fun allowed c => allowed c = true) tests tail)
    (rest : List UInt8) : takeTail tests (tail ++ rest) = (tail, rest) := by
  induction h with
  | nil => rw [List.nil_append, takeTail]; simp
  | cons hc _ ih => rw [List.cons_append, takeTail, if_pos hc, ih]

theorem nextChar_of_passes (hlead : lead? b = some lead)
    (h : List.Forall₂ (fun allowed c => allowed c = true) lead.tail tail) (rest : List UInt8) :
    nextChar b (tail ++ rest) = (join lead.payload tail, rest) := by
  rw [nextChar_of_lead hlead, takeTail_of_passes h, if_pos h.length_eq.symm]

section

variable {b : UInt8}

theorem lead?_two (h : 0xC2 ≤ b.toNat) (h' : b.toNat ≤ 0xDF) :
    lead? b = some ⟨b.toNat % 32, [isContinuation]⟩ := by
  simp only [lead?, UInt8.lt_iff_toNat_lt, UInt8.le_iff_toNat_le, UInt8.reduceToNat]
  rw [if_neg (by omega), if_neg (by omega), if_pos h']

theorem lead?_three (h : 0xE0 ≤ b.toNat) (h' : b.toNat ≤ 0xEF) :
    lead? b = some ⟨b.toNat % 16, [isSecond b, isContinuation]⟩ := by
  simp only [lead?, UInt8.lt_iff_toNat_lt, UInt8.le_iff_toNat_le, UInt8.reduceToNat]
  rw [if_neg (by omega), if_neg (by omega), if_neg (by omega), if_pos h']

theorem lead?_four (h : 0xF0 ≤ b.toNat) (h' : b.toNat ≤ 0xF4) :
    lead? b = some ⟨b.toNat % 8, [isSecond b, isContinuation, isContinuation]⟩ := by
  simp only [lead?, UInt8.lt_iff_toNat_lt, UInt8.le_iff_toNat_le, UInt8.reduceToNat]
  rw [if_neg (by omega), if_neg (by omega), if_neg (by omega), if_neg (by omega), if_pos h']

end

/-- A character is decoded from its bytes. -/
theorem nextChar_utf8EncodeChar (c : Char) :
    ∃ b tail, String.utf8EncodeChar c = b :: tail ∧ ∀ rest,
    nextChar b (tail ++ rest) = (c, rest) := by
  have hvalid : c.val.toNat < 0xD800 ∨ 0xDFFF < c.val.toNat ∧ c.val.toNat < 0x110000 := c.valid
  have hjoin : ∀ {payload : Nat} {tail : List UInt8},
      tail.foldl (fun n b => n * 64 + b.toNat % 64) payload = c.val.toNat →
      join payload tail = c := by
    intro payload tail h
    rw [join, h]
    exact Char.ofNat_toNat c
  have hbyte : ∀ {n : Nat}, n < 256 → (UInt8.ofNat n).toNat = n := UInt8.toNat_ofNat_of_lt'
  unfold String.utf8EncodeChar
  generalize c.val.toNat = v at *
  dsimp only
  -- One case for each number of bytes.
  split
  · next hv =>
    refine ⟨_, _, rfl, fun rest => ?_⟩
    have hb : (UInt8.ofNat v).toNat = v := hbyte (by omega)
    have hlow : UInt8.ofNat v < 0x80 := by
      rw [UInt8.lt_iff_toNat_lt, hb]
      exact Nat.lt_succ_of_le hv
    have hchar : join v [] = c := hjoin rfl
    rw [List.nil_append, nextChar_ascii hlow, hb]
    exact congrArg (·, rest) hchar
  split
  · refine ⟨_, _, rfl, fun rest => ?_⟩
    have hb := hbyte (n := v / 64 % 32 + 192) (by omega)
    have hc := hbyte (n := v % 64 + 128) (by omega)
    rw [nextChar_of_passes (lead?_two (by omega) (by omega))
      (.cons (isContinuation_iff.2 (by omega)) .nil), hjoin]
    simp only [List.foldl_cons, List.foldl_nil, hb, hc]
    omega
  split
  · refine ⟨_, _, rfl, fun rest => ?_⟩
    have hb := hbyte (n := v / 4096 % 16 + 224) (by omega)
    have hc := hbyte (n := v / 64 % 64 + 128) (by omega)
    have hd := hbyte (n := v % 64 + 128) (by omega)
    rw [nextChar_of_passes (lead?_three (by omega) (by omega)) (.cons (isSecond_iff.2 (by omega))
      (.cons (isContinuation_iff.2 (by omega)) .nil)), hjoin]
    simp only [List.foldl_cons, List.foldl_nil, hb, hc, hd]
    omega
  · refine ⟨_, _, rfl, fun rest => ?_⟩
    have hb := hbyte (n := v / 262144 % 8 + 240) (by omega)
    have hc := hbyte (n := v / 4096 % 64 + 128) (by omega)
    have hd := hbyte (n := v / 64 % 64 + 128) (by omega)
    have he := hbyte (n := v % 64 + 128) (by omega)
    rw [nextChar_of_passes (lead?_four (by omega) (by omega)) (.cons (isSecond_iff.2 (by omega))
      (.cons (isContinuation_iff.2 (by omega)) (.cons (isContinuation_iff.2 (by omega)) .nil))),
      hjoin]
    simp only [List.foldl_cons, List.foldl_nil, hb, hc, hd, he]
    omega

/-! ### Whole texts -/

/-- More fuel than bytes changes nothing, and the characters found before stay in front. -/
theorem decodeAfter_eq (fuel : Nat) (done : String) (bytes : List UInt8) (h : bytes.length ≤ fuel) :
    (decodeAfter fuel done bytes).toList = done.toList ++ (decodeLossy bytes).toList := by
  suffices hn : ∀ (n fuel : Nat) (done : String) (bytes : List UInt8), bytes.length ≤ n →
      bytes.length ≤ fuel →
      (decodeAfter fuel done bytes).toList = done.toList ++ (decodeAfter n "" bytes).toList from
    hn bytes.length fuel done bytes (Nat.le_refl _) h
  intro n
  induction n with
  | zero =>
    intro fuel done bytes hn _
    obtain rfl : bytes = [] := List.eq_nil_of_length_eq_zero (Nat.le_zero.1 hn)
    cases fuel <;> simp [decodeAfter]
  | succ n ih =>
    intro fuel done bytes hn hf
    cases bytes with
    | nil => cases fuel <;> simp [decodeAfter]
    | cons b rest =>
      have hlength := nextChar_length b rest
      have hn' : (nextChar b rest).2.length ≤ n := hlength.trans (Nat.le_of_succ_le_succ hn)
      cases fuel with
      | zero => cases hf
      | succ fuel =>
        have hf' : (nextChar b rest).2.length ≤ fuel := hlength.trans (Nat.le_of_succ_le_succ hf)
        rw [decodeAfter, decodeAfter, ih fuel _ _ hn' hf', ih n ("".push _) _ hn' hn']
        simp

/-- A text is decoded character by character. -/
theorem toList_decodeLossy_cons (b : UInt8) (rest : List UInt8) :
    (decodeLossy (b :: rest)).toList = (nextChar b rest).1 ::
      (decodeLossy (nextChar b rest).2).toList := by
  rw [decodeLossy, List.length_cons, decodeAfter, decodeAfter_eq _ _ _ (nextChar_length b rest)]
  simp

/-- A text can be decoded in parts, if the second one starts with a byte below `0x80`. -/
theorem decodeLossy_append (hc : c < 0x80) (bytes rest : List UInt8) :
    decodeLossy (bytes ++ c :: rest) = decodeLossy bytes ++ decodeLossy (c :: rest) := by
  rw [← String.toList_inj, String.toList_append]
  induction hn : bytes.length using Nat.strong_induction_on generalizing bytes with
  | _ n ih =>
    cases bytes with
    | nil => simp
    | cons b bytes =>
      have hlt : (nextChar b bytes).2.length < n := hn ▸ Nat.lt_succ_of_le (nextChar_length b bytes)
      rw [List.cons_append, toList_decodeLossy_cons, nextChar_append hc, ih _ hlt _ rfl,
        toList_decodeLossy_cons b, List.cons_append]

theorem decodeLossy_cons_ascii (hc : c < 0x80) (rest : List UInt8) :
    decodeLossy (c :: rest) = String.singleton (Char.ofNat c.toNat) ++ decodeLossy rest := by
  rw [← String.toList_inj, String.toList_append, toList_decodeLossy_cons, nextChar_ascii hc,
    String.toList_singleton]
  rfl

/-- A text is decoded from its bytes. -/
theorem decodeLossy_toUTF8 (text : String) : decodeLossy text.toUTF8.toList = text := by
  rw [toList_toUTF8, ← String.toList_inj]
  induction text.toList with
  | nil => rfl
  | cons c chars ih =>
    obtain ⟨b, tail, hbytes, hnext⟩ := nextChar_utf8EncodeChar c
    rw [List.flatMap_cons, hbytes, List.cons_append, toList_decodeLossy_cons, hnext, ih]

/-- Bytes below `0x80` are the bytes of the text that they are decoded to. -/
theorem toUTF8_decodeLossy_of_ascii (h : ∀ b ∈ bytes, b < 0x80) :
    (decodeLossy bytes).toUTF8.toList = bytes := by
  rw [toList_toUTF8]
  induction bytes with
  | nil => rfl
  | cons b bytes ih =>
    obtain ⟨hb, hbytes⟩ := List.forall_mem_cons.1 h
    have hchar : String.utf8EncodeChar (Char.ofNat b.toNat) = [b] := by
      have hlow : b.toNat < 0x80 := hb
      have hvalue : (Char.ofNat b.toNat).val.toNat = b.toNat := by
        rw [Char.toNat_val, Char.toNat_ofNat, if_pos (.inl (by omega))]
      rw [String.utf8EncodeChar, hvalue, if_pos (Nat.le_of_lt_succ hlow), UInt8.ofNat_toNat]
    rw [toList_decodeLossy_cons, nextChar_ascii hb, List.flatMap_cons, hchar, ih hbytes]
    rfl

/-- A character below `0x80` is decoded from its own byte only. -/
theorem mem_of_mem_decodeLossy {c : Char} (h0 : 0 < c.toNat) (h : c.toNat < 0x80)
    (hc : c ∈ (decodeLossy bytes).toList) : ∃ b ∈ bytes, b.toNat = c.toNat := by
  induction hn : bytes.length using Nat.strong_induction_on generalizing bytes with
  | _ n ih =>
    cases bytes with
    | nil => cases hc
    | cons b rest =>
      rw [toList_decodeLossy_cons] at hc
      rcases List.mem_cons.1 hc with rfl | hc
      · exact ⟨b, List.mem_cons_self .., (nextChar_fst_of_lt h0 h).symm⟩
      · have hlt : (nextChar b rest).2.length < n := hn ▸ Nat.lt_succ_of_le (nextChar_length b rest)
        obtain ⟨b', hb', heq⟩ := ih _ hlt hc rfl
        exact ⟨b', List.mem_cons_of_mem _ ((nextChar_suffix b rest).subset hb'), heq⟩

/-- A byte below `0x80` is encoded from its own character only. -/
theorem mem_of_mem_toUTF8 (hb : b < 0x80) {text : String} (h : b ∈ text.toUTF8.toList) :
    ∃ c ∈ text.toList, c.toNat = b.toNat := by
  rw [toList_toUTF8] at h
  obtain ⟨c, hc, hbyte⟩ := List.mem_flatMap.1 h
  refine ⟨c, hc, ?_⟩
  have hlow : b.toNat < 0x80 := hb
  have hofNat : ∀ {n : Nat}, n < 256 → b = UInt8.ofNat n → b.toNat = n := by
    rintro n hn rfl
    exact UInt8.toNat_ofNat_of_lt' hn
  -- All bytes of longer characters are `0x80` and more.
  have hhigh : ∀ {n : Nat}, 0x80 ≤ n → n < 256 → b ≠ UInt8.ofNat n := by
    intro n hn hlt heq
    have := hofNat hlt heq
    omega
  rw [String.utf8EncodeChar] at hbyte
  rw [← Char.toNat_val]
  generalize c.val.toNat = v at hbyte
  split at hbyte
  · rw [hofNat (by omega) (List.mem_singleton.1 hbyte)]
  split at hbyte
  · simp only [List.mem_cons, List.not_mem_nil, or_false] at hbyte
    rcases hbyte with h | h <;> exact absurd h (hhigh (by omega) (by omega))
  split at hbyte
  · simp only [List.mem_cons, List.not_mem_nil, or_false] at hbyte
    rcases hbyte with h | h | h <;> exact absurd h (hhigh (by omega) (by omega))
  · simp only [List.mem_cons, List.not_mem_nil, or_false] at hbyte
    rcases hbyte with h | h | h | h <;> exact absurd h (hhigh (by omega) (by omega))

end Lox.Text
