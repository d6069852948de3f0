import Mathlib
import Lox.Number.Binary64

/-!
# Positions, bits and values of doubles

The positions of doubles are in the order of their numbers (`units_strictMono`), and rounding to the
nearest position is what the rounding of fractions should be: it is monotone (`nearest_mono`), and
keeps the doubles (`nearest_of_eq`). Whole numbers below `2 ^ 53` are doubles (`exists_units_eq`).

A position is what the bits of a double are without its sign (`position_ofPosition`,
`ofPosition_position`, `abs_eq_ofPosition`), and the number at the position of a finite double is
the magnitude of its exact value (`value_eq`).
-/

namespace Lox.Binary64

/-! ## Numbers at positions -/

/-- The scale of a position, by which the steps around it are doubled. -/
def scale (p : Nat) : Nat := p / 2 ^ 52 - 1

theorem units_eq (p : Nat) : units p = (p - scale p * 2 ^ 52) * 2 ^ scale p := rfl

section

variable {k m : Nat} (hm : m < 2 ^ 53) (hk : k = 0 ∨ 2 ^ 52 ≤ m)
include hm hk

theorem scale_add : scale (k * 2 ^ 52 + m) = k := by
  rw [scale]
  omega

/-- The number at a position that is given by its scale and by what is scaled. -/
theorem units_add : units (k * 2 ^ 52 + m) = m * 2 ^ k := by
  rw [units_eq, scale_add hm hk, Nat.add_sub_cancel_left]

end

/-- From one position to the next it is a step of the scale. -/
theorem units_succ (p : Nat) : units (p + 1) = units p + 2 ^ scale p := by
  obtain ⟨k, m, rfl, hm, hk⟩ : ∃ k m, p = k * 2 ^ 52 + m ∧ m < 2 ^ 53 ∧ (k = 0 ∨ 2 ^ 52 ≤ m) :=
    ⟨scale p,
      p - scale p * 2 ^ 52, by rw [scale]; omega, by rw [scale]; omega, by rw [scale]; omega⟩
  rw [units_add hm hk, scale_add hm hk]
  by_cases hnext : m + 1 < 2 ^ 53
  · rw [Nat.add_assoc, units_add hnext (by omega), Nat.add_mul, Nat.one_mul]
  · -- The next scale starts here, with half as much that is scaled.
    have hp : k * 2 ^ 52 + m + 1 = (k + 1) * 2 ^ 52 + 2 ^ 52 := by omega
    have hm' : m = 2 ^ 53 - 1 := by omega
    rw [hp, units_add (by norm_num) (.inr (Nat.le_refl _)), hm', pow_succ]
    omega

theorem units_strictMono : StrictMono units :=
  strictMono_nat_of_lt_succ fun p => by
    rw [units_succ]
    exact Nat.lt_add_of_pos_right (Nat.two_pow_pos _)

/-- The number at the position `p`. -/
def number (p : Nat) : ℚ := units p / one

/-! ### The last position below a number -/

/-- What is scaled to the last position below a number is in the range of its scale. -/
theorem below_scaled (x : Nat) :
    x / 2 ^ (x.log2 - 52) < 2 ^ 53 ∧ (x.log2 - 52 = 0 ∨ 2 ^ 52 ≤ x / 2 ^ (x.log2 - 52)) := by
  constructor
  · rw [Nat.div_lt_iff_lt_mul (Nat.two_pow_pos _), ← pow_add]
    exact Nat.lt_log2_self.trans_le (Nat.pow_le_pow_right (by omega) (by omega))
  · refine or_iff_not_imp_left.2 fun hk => ?_
    have hx : x ≠ 0 := by
      rintro rfl
      exact hk rfl
    rw [Nat.le_div_iff_mul_le (Nat.two_pow_pos _), ← pow_add, Nat.add_sub_cancel' (by omega)]
    exact Nat.log2_self_le hx

theorem units_below (x : Nat) : units (below x) = x / 2 ^ (x.log2 - 52) * 2 ^ (x.log2 - 52) :=
  units_add (below_scaled x).1 (below_scaled x).2

theorem units_below_le (x : Nat) : units (below x) ≤ x := by
  rw [units_below]
  exact Nat.div_mul_le_self x _

theorem lt_units_below_succ (x : Nat) : x < units (below x + 1) := by
  have hscale : scale (below x) = x.log2 - 52 := scale_add (below_scaled x).1 (below_scaled x).2
  rw [units_succ, units_below, hscale, ← Nat.succ_mul]
  rw [Nat.mul_comm]
  exact Nat.lt_mul_div_succ x (Nat.two_pow_pos _)

/-! ### The nearest position -/

variable {num den num' den' p : Nat}

/-- What `nearest` decides by: `num / den` comes before the middle between `p` and the next
    position, or it is the middle and `p` is even. -/
def AtMost (num den p : Nat) : Prop :=
  2 * (num * one) < (units p + units (p + 1)) * den ∨
    2 * (num * one) = (units p + units (p + 1)) * den ∧ p % 2 = 0

theorem nearest_le_infinity (num den : Nat) : nearest num den ≤ infinity := Nat.min_le_right _ _

/-- A number is rounded to `p` or below if it is not nearer to the next position. -/
theorem nearest_le_iff (hden : 0 < den) (hp : p < infinity) :
    nearest num den ≤ p ↔ AtMost num den p := by
  have hle : units (below (num * one / den)) * den ≤ num * one :=
    (Nat.mul_le_mul_right den (units_below_le _)).trans (Nat.div_mul_le_self _ _)
  have hlt : num * one < units (below (num * one / den) + 1) * den :=
    (Nat.div_lt_iff_lt_mul hden).1 (lt_units_below_succ _)
  unfold nearest AtMost
  dsimp only
  generalize below (num * one / den) = b at hle hlt
  generalize num * one = x at hle hlt
  rcases Nat.lt_trichotomy p b with hpb | rfl | hpb
  · -- Even the lower neighbour of the number is beyond `p`.
    have hmiddle : (units p + units (p + 1)) * den < 2 * x := by
      have hlow : units p * den < units (p + 1) * den :=
        Nat.mul_lt_mul_of_pos_right (units_strictMono p.lt_succ_self) hden
      have hhigh : units (p + 1) * den ≤ units b * den :=
        Nat.mul_le_mul_right den (units_strictMono.monotone hpb)
      rw [Nat.add_mul]
      omega
    refine iff_of_false ?_ (by omega)
    split_ifs <;> omega
  · by_cases hless : 2 * x < (units p + units (p + 1)) * den
    · simp only [hless, if_true, true_or, iff_true]
      exact Nat.min_le_left _ _
    · split_ifs <;> omega
  · -- Even the upper neighbour of the number is at most `p`.
    have hmiddle : 2 * x < (units p + units (p + 1)) * den := by
      have hlow : units (b + 1) * den ≤ units p * den :=
        Nat.mul_le_mul_right den (units_strictMono.monotone hpb)
      have hhigh : units p * den ≤ units (p + 1) * den :=
        Nat.mul_le_mul_right den (units_strictMono p.lt_succ_self).le
      rw [Nat.add_mul]
      omega
    refine iff_of_true ?_ (.inl hmiddle)
    split_ifs <;> omega

theorem AtMost.of_le (hden : 0 < den) (hden' : 0 < den') (h : num * den' ≤ num' * den)
    (hp : AtMost num' den' p) : AtMost num den p := by
  unfold AtMost at hp ⊢
  generalize units p + units (p + 1) = middle at hp ⊢
  have hscaled : 2 * (num * one) * den' ≤ 2 * (num' * one) * den := by
    calc 2 * (num * one) * den' = 2 * one * (num * den') := by ring
      _ ≤ 2 * one * (num' * den) := Nat.mul_le_mul_left _ h
      _ = 2 * (num' * one) * den := by ring
  rcases hp with hlt | ⟨heq, heven⟩
  · refine .inl (Nat.lt_of_mul_lt_mul_right (a := den') (hscaled.trans_lt ?_))
    rw [Nat.mul_right_comm middle]
    exact Nat.mul_lt_mul_of_pos_right hlt hden
  · have hle : 2 * (num * one) ≤ middle * den := by
      refine Nat.le_of_mul_le_mul_right (hscaled.trans_eq ?_) hden'
      rw [heq, Nat.mul_right_comm]
    exact hle.lt_or_eq.imp_right fun hmiddle => ⟨hmiddle, heven⟩

/-- Rounding is monotone. -/
theorem nearest_mono (hden : 0 < den) (hden' : 0 < den') (h : num * den' ≤ num' * den) :
    nearest num den ≤ nearest num' den' := by
  rcases Nat.lt_or_ge (nearest num' den') infinity with hfinite | hinfinite
  · rw [nearest_le_iff hden hfinite]
    exact .of_le hden hden' h ((nearest_le_iff hden' hfinite).1 (Nat.le_refl _))
  · exact (nearest_le_infinity num den).trans hinfinite

/-- A double is rounded to itself. -/
theorem nearest_of_eq (hden : 0 < den) (hp : p ≤ infinity) (h : num * one = units p * den) :
    nearest num den = p := by
  have hstep : ∀ q, units q * den < units (q + 1) * den := fun q =>
    Nat.mul_lt_mul_of_pos_right (units_strictMono q.lt_succ_self) hden
  refine Nat.le_antisymm ?_ (Nat.le_of_not_lt fun hlt => ?_)
  · rcases hp.lt_or_eq with hp | rfl
    · rw [nearest_le_iff hden hp, AtMost, h, Nat.add_mul]
      have := hstep p
      omega
    · exact nearest_le_infinity num den
  · obtain ⟨q, rfl⟩ : ∃ q, p = q + 1 := Nat.exists_eq_succ_of_ne_zero (Nat.ne_zero_of_lt hlt)
    rw [Nat.lt_succ_iff, nearest_le_iff hden hp, AtMost, h, Nat.add_mul] at hlt
    have := hstep q
    omega

/-! ### Whole numbers -/

theorem infinity_eq : infinity = 2047 * 2 ^ 52 := rfl

theorem one_pos : 0 < one := by
  unfold one
  generalize 1074 = n
  exact Nat.two_pow_pos n

theorem two_pow_dvd_one {k : Nat} (hk : k ≤ 1074) : 2 ^ k ∣ one := by
  unfold one
  generalize 1074 = n at hk ⊢
  exact pow_dvd_pow 2 hk

theorem log2_mul_one_le {n : Nat} (hn : n < 2 ^ 53) : (n * one).log2 - 52 ≤ 1074 := by
  unfold one
  generalize 1074 = k
  rcases Nat.eq_zero_or_pos n with rfl | hpos
  · simp
  · have hlt : n * 2 ^ k < 2 ^ (53 + k) := by
      rw [pow_add]
      exact Nat.mul_lt_mul_of_pos_right hn (Nat.two_pow_pos k)
    have := (Nat.log2_lt (Nat.mul_pos hpos (Nat.two_pow_pos k)).ne').2 hlt
    rw [Nat.pow_eq]
    omega

/-- The whole numbers below `2 ^ 53` are doubles. -/
theorem exists_units_eq {n : Nat} (hn : n < 2 ^ 53) : ∃ p < infinity, units p = n * one := by
  have hscale := log2_mul_one_le hn
  refine ⟨below (n * one), ?_, ?_⟩
  · have hscaled := (below_scaled (n * one)).1
    rw [below, Nat.pow_eq, Nat.pow_eq, infinity_eq]
    omega
  · rw [units_below]
    exact Nat.div_mul_cancel ((two_pow_dvd_one hscale).mul_left n)

theorem cast_one_pos : (0 : ℚ) < one := by exact_mod_cast one_pos

theorem number_nonneg (p : Nat) : 0 ≤ number p := div_nonneg (Nat.cast_nonneg _) (Nat.cast_nonneg _)

theorem number_eq_natCast {n : Nat} : number p = n ↔ units p = n * one := by
  rw [number, div_eq_iff cast_one_pos.ne']
  exact_mod_cast Iff.rfl

/-! ## The bits of a double -/

open Float.Model (Format UnpackedFloat)
open Float.Model.UnpackedFloat (Sign unpackExponent unpackMantissa unpackSign isNaNBits pack_unpack)

section Bits

variable (b : BitVec 64)

theorem toNat_unpackMantissa : (@unpackMantissa Format.binary64 b).toNat = b.toNat % 2 ^ 52 := by
  simp [unpackMantissa]

theorem toNat_unpackExponent :
    (@unpackExponent Format.binary64 b).toNat = b.toNat / 2 ^ 52 % 2 ^ 11 := by
  simp [unpackExponent, Nat.shiftRight_eq_div_pow]

theorem toNat_unpackSign : (@unpackSign Format.binary64 b).toNat = b.toNat / 2 ^ 63 := by
  have hb : b.toNat < 2 ^ 64 := b.isLt
  have hsign : (@unpackSign Format.binary64 b).toNat = b.toNat / 2 ^ 63 % 2 := by
    simp [unpackSign, Nat.shiftRight_eq_div_pow]
  omega

/-- The magnitudes with the largest exponent are infinity and the not-a-numbers. -/
theorem unpackExponent_eq_iff : @unpackExponent Format.binary64 b = -1#11 ↔
    infinity ≤ b.toNat % 2 ^ 63 := by
  rw [← BitVec.toNat_inj, toNat_unpackExponent]
  simp [infinity]
  omega

theorem isFinite_unpack :
    (UnpackedFloat.unpack Format.binary64 b).isFinite = decide (b.toNat % 2 ^ 63 < infinity) := by
  rw [Bool.eq_iff_iff, decide_eq_true_iff, ← not_le, ← unpackExponent_eq_iff]
  simp only [UnpackedFloat.unpack]
  split_ifs with hexponent
  · exact iff_of_false Bool.false_ne_true (not_not.2 hexponent)
  · exact iff_of_false Bool.false_ne_true (not_not.2 hexponent)
  all_goals exact iff_of_true rfl hexponent

/-- Without its sign, a double has the bits of its magnitude. -/
theorem abs_unpack :
    (UnpackedFloat.unpack Format.binary64 b).abs =
      UnpackedFloat.unpack Format.binary64 (BitVec.ofNat 64 (b.toNat % 2 ^ 63)) := by
  have hmantissa : @unpackMantissa Format.binary64 (BitVec.ofNat 64 (b.toNat % 2 ^ 63)) =
      @unpackMantissa Format.binary64 b := by
    rw [← BitVec.toNat_inj, toNat_unpackMantissa, toNat_unpackMantissa, BitVec.toNat_ofNat]
    omega
  have hexponent : @unpackExponent Format.binary64 (BitVec.ofNat 64 (b.toNat % 2 ^ 63)) =
      @unpackExponent Format.binary64 b := by
    rw [← BitVec.toNat_inj, toNat_unpackExponent, toNat_unpackExponent, BitVec.toNat_ofNat]
    omega
  have hsign : @unpackSign Format.binary64 (BitVec.ofNat 64 (b.toNat % 2 ^ 63)) = 0#1 := by
    rw [← BitVec.toNat_inj, toNat_unpackSign, BitVec.toNat_ofNat, BitVec.toNat_ofNat]
    omega
  simp only [UnpackedFloat.unpack, hmantissa, hexponent, hsign]
  split_ifs <;> rfl

end Bits

/-- Up to infinity there are no not-a-numbers. -/
theorem isNaNBits_of_le {p : Nat} (hp : p ≤ infinity) :
    @isNaNBits Format.binary64 (BitVec.ofNat 64 p) = false := by
  have htoNat : (BitVec.ofNat 64 p).toNat = p := by
    rw [infinity_eq] at hp
    rw [BitVec.toNat_ofNat]
    omega
  rw [isNaNBits, decide_eq_false_iff_not]
  rintro ⟨hexponent, hmantissa⟩
  refine hmantissa (BitVec.toNat_inj.1 ?_)
  rw [unpackExponent_eq_iff, htoNat] at hexponent
  rw [infinity_eq] at hp hexponent
  rw [toNat_unpackMantissa, htoNat]
  change p % 2 ^ 52 = 0
  omega

theorem toBits_ofPosition {p : Nat} (hp : p ≤ infinity) : (ofPosition p).toBits.toNat = p := by
  have hpack := @pack_unpack Format.binary64 (BitVec.ofNat 64 p) (by decide)
  rw [isNaNBits_of_le hp] at hpack
  calc (ofPosition p).toBits.toNat = (BitVec.ofNat 64 p).toNat := congrArg BitVec.toNat hpack
    _ = p := by
      rw [infinity_eq] at hp
      rw [BitVec.toNat_ofNat]
      omega

variable {x : Float}

theorem position_ofPosition (hp : p ≤ infinity) : position (ofPosition p) = p := by
  rw [position, toBits_ofPosition hp, Nat.pow_eq]
  rw [infinity_eq] at hp
  omega

theorem isNegative_ofPosition (hp : p ≤ infinity) : isNegative (ofPosition p) = false := by
  rw [isNegative, toBits_ofPosition hp, Nat.pow_eq, decide_eq_false_iff_not]
  rw [infinity_eq] at hp
  omega

theorem ofPosition_position (hx : isNegative x = false) : ofPosition (position x) = x := by
  have hlt : x.toBits.toNat < 2 ^ 63 := by
    rw [isNegative, decide_eq_false_iff_not] at hx
    exact Nat.lt_of_not_le hx
  rw [ofPosition, position, Nat.pow_eq, Nat.mod_eq_of_lt hlt, UInt64.ofNat_toNat,
    Float.ofBits_toBits]

theorem isFinite_iff : x.isFinite = true ↔ position x < infinity := by
  have h : x.isFinite = decide (position x < infinity) := isFinite_unpack _
  rw [h, decide_eq_true_iff]

theorem abs_eq_ofPosition (x : Float) : x.abs = ofPosition (position x) := by
  rw [← Float.toBits_inj, ← UInt64.toBitVec_inj]
  exact congrArg (UnpackedFloat.pack Format.binary64) (abs_unpack _)

/-! ## The exact value of a double -/

/-- The exact value of a double in its parts. Infinities and not-a-numbers have none and count as
    zero. -/
def valueOf : UnpackedFloat → ℚ
  | .finite s m e _ => s.apply m * 2 ^ e
  | _ => 0

/-- The exact value of a finite double. -/
def value (x : Float) : ℚ := valueOf x.toModel.unpack

theorem cast_one : (one : ℚ) = 2 ^ 1074 := by
  unfold one
  generalize 1074 = n
  exact Nat.cast_pow 2 n

theorem valueOf_finite (s : Sign) {m : Nat} (h : 0 < m) {e : ℤ} {k : Nat} (he : e + 1074 = k) :
    valueOf (.finite s m e h) = s.apply (m * 2 ^ k : Nat) / one := by
  have hpow : (2 : ℚ) ^ e = 2 ^ k / one := by
    rw [cast_one, eq_div_iff (pow_ne_zero _ two_ne_zero), ← zpow_natCast, ← zpow_natCast,
      ← zpow_add₀ two_ne_zero, ← he]
    rfl
  rw [valueOf, hpow, mul_div_assoc']
  cases s <;> simp only [Sign.apply] <;> push_cast <;> ring

/-- The value of a double that is given by its bits, in units. -/
theorem valueOf_unpack (b : BitVec 64) (hb : b.toNat % 2 ^ 63 < infinity) :
    valueOf (UnpackedFloat.unpack Format.binary64 b) =
      (Sign.ofBitVec (@unpackSign Format.binary64 b)).apply (units (b.toNat % 2 ^ 63)) / one := by
  have hexponent := toNat_unpackExponent b
  have hmantissa := toNat_unpackMantissa b
  have hbias : Format.binary64.exponentBias = 1023 := rfl
  have hfinite : @unpackExponent Format.binary64 b ≠ -1#11 := by
    rw [Ne, unpackExponent_eq_iff]
    exact Nat.not_le_of_lt hb
  simp only [UnpackedFloat.unpack, if_neg hfinite]
  split_ifs with he hzero
  · have hp : b.toNat % 2 ^ 63 = 0 := by
      have he₀ : (@unpackExponent Format.binary64 b).toNat = 0 := by rw [he]; rfl
      have hm₀ : (@unpackMantissa Format.binary64 b).toNat = 0 := by rw [hzero]; rfl
      omega
    have hunits : units 0 = 0 := rfl
    rw [hp, hunits]
    generalize (one : ℚ) = c
    cases Sign.ofBitVec (@unpackSign Format.binary64 b) <;> simp [valueOf, Sign.apply]
  · have hp : b.toNat % 2 ^ 63 = 0 * 2 ^ 52 + (@unpackMantissa Format.binary64 b).toNat := by
      have he₀ : (@unpackExponent Format.binary64 b).toNat = 0 := by rw [he]; rfl
      omega
    rw [hp, units_add (by omega) (.inl rfl)]
    refine valueOf_finite _ _ ?_
    rw [he, hbias]
    rfl
  · have he₀ : (@unpackExponent Format.binary64 b).toNat ≠ 0 :=
      fun h => he (BitVec.eq_of_toNat_eq h)
    have hlead : (1#1 ++ @unpackMantissa Format.binary64 b).toNat =
        2 ^ 52 + (@unpackMantissa Format.binary64 b).toNat := by
      rw [BitVec.toNat_append, ← Nat.shiftLeft_add_eq_or_of_lt (BitVec.isLt _)]
      rfl
    have hp : b.toNat % 2 ^ 63 = ((@unpackExponent Format.binary64 b).toNat - 1) * 2 ^ 52 +
        (1#1 ++ @unpackMantissa Format.binary64 b).toNat := by
      omega
    rw [hp, units_add (by omega) (.inr (by omega))]
    refine valueOf_finite _ _ ?_
    rw [hbias]
    push_cast
    omega

/-- The sign bit of a double says whether it is negative. -/
theorem ofBitVec_unpackSign (x : Float) :
    Sign.ofBitVec (@unpackSign Format.binary64 x.toBits.toBitVec) =
      if isNegative x then .negative else .positive := by
  have hbit : (@unpackSign Format.binary64 x.toBits.toBitVec).toNat = x.toBits.toNat / 2 ^ 63 :=
    toNat_unpackSign _
  cases hnegative : isNegative x
  · have hzero : @unpackSign Format.binary64 x.toBits.toBitVec = 0#1 := by
      rw [isNegative, Nat.pow_eq, decide_eq_false_iff_not, not_le] at hnegative
      exact BitVec.eq_of_toNat_eq (hbit.trans (Nat.div_eq_of_lt hnegative))
    rw [hzero]
    rfl
  · have hone : @unpackSign Format.binary64 x.toBits.toBitVec ≠ 0#1 := by
      rw [isNegative, Nat.pow_eq, decide_eq_true_iff] at hnegative
      intro hzero
      rw [hzero] at hbit
      exact (Nat.div_pos hnegative (Nat.two_pow_pos _)).ne hbit
    exact if_neg hone

/-- The value of a finite double is the number at its position, with its sign. -/
theorem value_eq (hx : x.isFinite = true) :
    value x = if isNegative x then -number (position x) else number (position x) := by
  have hvalue : value x =
      (if isNegative x then Sign.negative else .positive).apply (units (position x)) / one := by
    rw [← ofBitVec_unpackSign]
    exact valueOf_unpack _ (isFinite_iff.1 hx)
  rw [hvalue, number]
  split_ifs
  · rw [Sign.apply, Int.cast_neg, Int.cast_natCast, neg_div]
  · rw [Sign.apply, Int.cast_natCast]

end Lox.Binary64
