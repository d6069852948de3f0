import Mathlib
import Lox.Number.Decimal
import Lox.Proofs.Doubles

/-!
# The shortest decimal of a double

How a decimal is read depends on its value only (`Decimal.position_congr`), and larger decimals are
not read as smaller doubles (`Decimal.position_mono`). So if a decimal on a grid reads back as a
double, then one of the two neighbours of the double on that grid does too, and it is not farther
(`Decimal.neighbour_of_position`). Seventeen digits always suffice, as a neighbour of a double is
then nearer to it than half a step to the next double (`Decimal.exists_onGrid?_seventeen`).

Main statements:

* `Decimal.isShortest_shortest`: the decimal that is written for a double reads back, no decimal
  with fewer digits does, and of those with as many digits none is nearer;
* `Decimal.shortest_of_whole`: for a whole number below `10 ^ 15` it is that number.
-/

namespace Lox.Decimal

open Binary64

/-- The value of a decimal. -/
def value (d : Decimal) : ℚ := d.digits * 10 ^ d.exponent

/-! ## Reading decimals -/

theorem ten_zpow (e : ℤ) : (10 : ℚ) ^ e = (10 ^ e.toNat : Nat) / (10 ^ (-e).toNat : Nat) := by
  have hpos : ((10 ^ (-e).toNat : Nat) : ℚ) ≠ 0 := by positivity
  rw [eq_div_iff hpos]
  push_cast
  rw [← zpow_natCast, ← zpow_natCast, ← zpow_add₀ (by norm_num)]
  congr 1
  omega

variable {d d' : Decimal} {p : Nat} {e : ℤ} {tie : Tie}

theorem denominator_pos (d : Decimal) : 0 < d.denominator := Nat.pow_pos (by norm_num)

theorem value_eq_div (d : Decimal) : d.value = d.numerator / d.denominator := by
  rw [value, ten_zpow, numerator, denominator, Nat.pow_eq, Nat.pow_eq, Nat.cast_mul, mul_div_assoc]

/-- A larger decimal is not read as a smaller double. -/
theorem position_mono (h : d.value ≤ d'.value) : d.position ≤ d'.position := by
  refine nearest_mono d.denominator_pos d'.denominator_pos ?_
  have hd : (0 : ℚ) < d.denominator := by exact_mod_cast d.denominator_pos
  have hd' : (0 : ℚ) < d'.denominator := by exact_mod_cast d'.denominator_pos
  rw [value_eq_div, value_eq_div, div_le_div_iff₀ hd hd'] at h
  exact_mod_cast h

/-- How a decimal is read depends on its value only. -/
theorem position_congr (h : d.value = d'.value) : d.position = d'.position :=
  Nat.le_antisymm (position_mono h.le) (position_mono h.ge)

/-- A decimal that is a double is read as it. -/
theorem position_of_value (hp : p ≤ infinity) (h : d.value = number p) : d.position = p := by
  refine nearest_of_eq d.denominator_pos hp ?_
  have hd : (d.denominator : ℚ) ≠ 0 := by exact_mod_cast d.denominator_pos.ne'
  rw [value_eq_div, number, div_eq_div_iff hd cast_one_pos.ne'] at h
  exact_mod_cast h

theorem position_le (hp : p < infinity) (h : 2 * d.value < number p + number (p + 1)) :
    d.position ≤ p := by
  refine (nearest_le_iff d.denominator_pos hp).2 (.inl ?_)
  have hd : (0 : ℚ) < d.denominator := by exact_mod_cast d.denominator_pos
  rw [value_eq_div, number, number, ← add_div, mul_div_assoc', div_lt_div_iff₀ hd cast_one_pos,
    mul_assoc] at h
  exact_mod_cast h

theorem lt_position (hp : p < infinity) (h : number p + number (p + 1) < 2 * d.value) :
    p < d.position := by
  refine Nat.lt_of_not_le fun hle => ?_
  have hd : (0 : ℚ) < d.denominator := by exact_mod_cast d.denominator_pos
  rw [value_eq_div, number, number, ← add_div, mul_div_assoc', div_lt_div_iff₀ cast_one_pos hd,
    mul_assoc] at h
  have hlt : (units p + units (p + 1)) * d.denominator < 2 * (d.numerator * one) := by
    exact_mod_cast h
  rcases (nearest_le_iff d.denominator_pos hp).1 hle with hless | ⟨heq, -⟩ <;> omega

/-! ## Zeros at the end -/

theorem value_trim (fuel : Nat) (d : Decimal) : (trim fuel d).value = d.value := by
  induction fuel generalizing d with
  | zero => rfl
  | succ fuel ih =>
    rw [trim]
    split_ifs with hzero hten
    · rw [value, value, hzero, Nat.cast_zero, zero_mul, zero_mul]
    · obtain ⟨n, hn⟩ := Nat.dvd_of_mod_eq_zero hten
      rw [ih, value, value, hn, Nat.mul_div_cancel_left n (by norm_num),
        zpow_add_one₀ (by norm_num)]
      push_cast
      ring
    · rfl

theorem five_pow_mul (n : Nat) : ((Nat.pow 5 n : Nat) : ℚ) * 10 ^ (-n : ℤ) = 1 / 2 ^ n := by
  have hten : (10 : ℚ) ^ n = 5 ^ n * 2 ^ n := by rw [← mul_pow]; norm_num
  rw [Nat.pow_eq, Nat.cast_pow, zpow_neg, zpow_natCast, hten, Nat.cast_ofNat]
  field_simp

/-- The exact decimal is the number at the position. -/
theorem value_exact (p : Nat) : (exact p).value = number p := by
  have hunit : ((Nat.pow 5 1074 : Nat) : ℚ) * 10 ^ (-1074 : ℤ) = 1 / one := by
    have hexponent : (-1074 : ℤ) = -(1074 : Nat) := rfl
    rw [cast_one, hexponent]
    generalize 1074 = n
    exact five_pow_mul n
  rw [exact, value_trim, value, number, Nat.cast_mul, mul_assoc, hunit, mul_one_div]

/-! ## Neighbours on a grid -/

theorem floorOn_mul_le (e : ℤ) (p : Nat) : floorOn e (units p) * (10 : ℚ) ^ e ≤ number p := by
  have hA : (0 : ℚ) < (10 ^ (-e).toNat : Nat) := by positivity
  rw [number, ten_zpow, mul_div_assoc', div_le_div_iff₀ hA cast_one_pos]
  have h := Nat.div_mul_le_self (units p * 10 ^ (-e).toNat) (one * 10 ^ e.toNat)
  rw [← Nat.mul_assoc, Nat.mul_right_comm] at h
  exact_mod_cast h

theorem lt_floorOn_succ_mul (e : ℤ) (p : Nat) :
    number p < (floorOn e (units p) + 1 : Nat) * (10 : ℚ) ^ e := by
  have hA : (0 : ℚ) < (10 ^ (-e).toNat : Nat) := by positivity
  have hB : 0 < one * 10 ^ e.toNat := Nat.mul_pos Binary64.one_pos (by positivity)
  rw [number, ten_zpow, mul_div_assoc', div_lt_div_iff₀ cast_one_pos hA]
  have h : units p * 10 ^ (-e).toNat < (floorOn e (units p) + 1) * (one * 10 ^ e.toNat) :=
    (Nat.div_lt_iff_lt_mul hB).1 (Nat.lt_succ_self _)
  rw [Nat.mul_comm one, ← Nat.mul_assoc] at h
  exact_mod_cast h

theorem value_lower_le (p : Nat) (e : ℤ) : (lower p e).value ≤ number p := floorOn_mul_le e p

theorem lt_value_upper (p : Nat) (e : ℤ) : number p < (upper p e).value := lt_floorOn_succ_mul e p

/-- The two neighbours are one step of the grid apart. -/
theorem value_upper (p : Nat) (e : ℤ) : (upper p e).value = (lower p e).value + 10 ^ e := by
  rw [value, value, lower, upper]
  push_cast
  ring

theorem value_mono {n m : Nat} (h : n ≤ m) (e : ℤ) : value ⟨n, e⟩ ≤ value ⟨m, e⟩ :=
  mul_le_mul_of_nonneg_right (Nat.cast_le.2 h) (by positivity)

/-- Between the two neighbours of a double there is nothing on the grid. -/
theorem value_le_lower_or (p n : Nat) (e : ℤ) :
    value ⟨n, e⟩ ≤ (lower p e).value ∨ (upper p e).value ≤ value ⟨n, e⟩ :=
  (Nat.lt_or_ge (floorOn e (units p)) n).symm.imp (value_mono · e) (value_mono · e)

/-- How far a decimal is from the double at `p`. -/
def distance (d : Decimal) (p : Nat) : ℚ := |d.value - number p|

theorem distance_lower (p : Nat) (e : ℤ) :
    (lower p e).distance p = number p - (lower p e).value := by
  rw [distance, abs_of_nonpos (sub_nonpos.2 (value_lower_le p e)), neg_sub]

theorem distance_upper (p : Nat) (e : ℤ) : (upper p e).distance p = (upper p e).value - number p :=
  abs_of_pos (sub_pos.2 (lt_value_upper p e))

/-- What the choice between the two neighbours compares. -/
theorem distance_sub_distance (p : Nat) (e : ℤ) :
    (lower p e).distance p - (upper p e).distance p =
      ((2 * units p * 10 ^ (-e).toNat : Nat) - ((2 * floorOn e (units p) + 1) *
        (one * 10 ^ e.toNat) : Nat)) /
        (one * (10 ^ (-e).toNat : Nat)) := by
  have hA : ((10 ^ (-e).toNat : Nat) : ℚ) ≠ 0 := by positivity
  have hsum : (lower p e).value + (upper p e).value =
      (2 * floorOn e (units p) + 1 : Nat) * 10 ^ e := by
    rw [value_upper, value, lower]
    push_cast
    ring
  have hsub : (lower p e).distance p - (upper p e).distance p =
      2 * number p - ((lower p e).value + (upper p e).value) := by
    rw [distance_lower, distance_upper]
    ring
  rw [hsub, hsum, number, ten_zpow, mul_div_assoc', mul_div_assoc',
    div_sub_div _ _ cast_one_pos.ne' hA]
  push_cast
  ring

theorem distance_upper_le (h : tie.takesUpper e (floorOn e (units p)) (units p) = true) :
    (upper p e).distance p ≤ (lower p e).distance p := by
  rw [← sub_nonneg, distance_sub_distance]
  refine div_nonneg (sub_nonneg.2 (Nat.cast_le.2 ?_)) (mul_pos cast_one_pos (by positivity)).le
  unfold Tie.takesUpper at h
  dsimp only at h
  split at h
  · next heq => exact heq.ge
  · exact (of_decide_eq_true h).le

theorem distance_lower_le (h : tie.takesUpper e (floorOn e (units p)) (units p) = false) :
    (lower p e).distance p ≤ (upper p e).distance p := by
  rw [← sub_nonpos, distance_sub_distance]
  refine div_nonpos_of_nonpos_of_nonneg (sub_nonpos.2 (Nat.cast_le.2 ?_))
    (mul_pos cast_one_pos (by positivity)).le
  unfold Tie.takesUpper at h
  dsimp only at h
  split at h
  · next heq => exact heq.le
  · exact Nat.le_of_not_lt (of_decide_eq_false h)

theorem pick?_eq_some {low high : Decimal} {takesUpper : Bool}
    (h : pick? p low high takesUpper = some d) :
    d.position = p ∧ (d = low ∧ (high.position = p → takesUpper = false) ∨
      d = high ∧ (low.position = p → takesUpper = true)) := by
  unfold pick? at h
  split_ifs at h with hlow hboth hhigh
  · cases h
    exact ⟨hboth.1, .inr ⟨rfl, fun _ => hboth.2⟩⟩
  · cases h
    exact ⟨hlow,
      .inl ⟨rfl, fun hhigh => Bool.eq_false_of_not_eq_true fun htakes => hboth ⟨hhigh, htakes⟩⟩⟩
  · cases h
    exact ⟨hhigh, .inr ⟨rfl, fun hlow' => absurd hlow' hlow⟩⟩

theorem pick?_isSome {low high : Decimal} (takesUpper : Bool)
    (h : low.position = p ∨ high.position = p) : ∃ d, pick? p low high takesUpper = some d := by
  unfold pick?
  split_ifs with hlow hboth hhigh
  · exact ⟨high, rfl⟩
  · exact ⟨low, rfl⟩
  · exact ⟨high, rfl⟩
  · exact absurd h (not_or.2 ⟨hlow, hhigh⟩)

/-- What is found on a grid is a neighbour that reads back, and nothing on the grid that reads back
    is nearer. -/
theorem onGrid?_eq_some (h : onGrid? tie p e = some d) :
    d.position = p ∧ (d = lower p e ∨ d = upper p e) ∧
      ((lower p e).position = p → d.distance p ≤ (lower p e).distance p) ∧
      ((upper p e).position = p → d.distance p ≤ (upper p e).distance p) := by
  obtain ⟨hread, ⟨rfl, htakes⟩ | ⟨rfl, htakes⟩⟩ := pick?_eq_some h
  · exact ⟨hread, .inl rfl, fun _ => le_refl _, fun hup => distance_lower_le (htakes hup)⟩
  · exact ⟨hread, .inr rfl, fun hlow => distance_upper_le (htakes hlow), fun _ => le_refl _⟩

section

variable (hp : p ≤ infinity)
include hp

theorem position_exact : (exact p).position = p := position_of_value hp (value_exact p)

theorem position_le_of_value_le (h : d.value ≤ number p) : d.position ≤ p := by
  rw [← value_exact] at h
  exact (position_mono h).trans_eq (position_exact hp)

theorem le_position_of_le_value (h : number p ≤ d.value) : p ≤ d.position := by
  rw [← value_exact] at h
  exact (position_exact hp).symm.trans_le (position_mono h)

/-- If a decimal on a grid reads back, then so does a neighbour that is not farther. -/
theorem neighbour_of_position {n : Nat} (h : position ⟨n, e⟩ = p) :
    (lower p e).position = p ∧ (lower p e).distance p ≤ distance ⟨n, e⟩ p ∨
      (upper p e).position = p ∧ (upper p e).distance p ≤ distance ⟨n, e⟩ p := by
  rcases value_le_lower_or p n e with hle | hle
  · refine .inl ⟨?_, ?_⟩
    · exact (position_le_of_value_le hp (value_lower_le p e)).antisymm
        (h.symm.trans_le (position_mono hle))
    · rw [distance_lower, distance,
        abs_of_nonpos (sub_nonpos.2 (hle.trans (value_lower_le p e))), neg_sub]
      exact sub_le_sub_left hle _
  · refine .inr ⟨?_, ?_⟩
    · exact ((position_mono hle).trans_eq h).antisymm
        (le_position_of_le_value hp (lt_value_upper p e).le)
    · rw [distance_upper, distance, abs_of_pos (sub_pos.2 ((lt_value_upper p e).trans_le hle))]
      exact sub_le_sub_right hle _

/-- A grid on which a decimal reads back has one to show that is not farther. -/
theorem exists_onGrid? (tie : Tie) {n : Nat} (h : position ⟨n, e⟩ = p) :
    ∃ d, onGrid? tie p e = some d ∧ d.distance p ≤ distance ⟨n, e⟩ p := by
  have hneighbour := neighbour_of_position hp h
  obtain ⟨d, hd⟩ := pick?_isSome (tie.takesUpper e (floorOn e (units p)) (units p))
    (hneighbour.imp And.left And.left)
  obtain ⟨-, -, hlower, hupper⟩ := onGrid?_eq_some hd
  refine ⟨d, hd, ?_⟩
  rcases hneighbour with ⟨hread, hle⟩ | ⟨hread, hle⟩
  · exact (hlower hread).trans hle
  · exact (hupper hread).trans hle

end

/-! ## The first digit -/

theorem ten_pow_pred_digitCount_le {n : Nat} (hn : 0 < n) : 10 ^ (digitCount n - 1) ≤ n := by
  rw [digitCount, if_neg hn.ne']
  rcases Nat.eq_zero_or_pos (n.repr.length - 1) with hzero | hpos
  · rw [hzero]
    exact hn
  · refine Nat.le_of_not_lt fun hlt => ?_
    have := (Nat.length_repr_le_iff hpos).2 hlt
    omega

theorem lt_ten_pow_digitCount (n : Nat) : n < 10 ^ digitCount n := by
  rw [digitCount]
  split_ifs with hn
  · omega
  · exact (Nat.length_repr_le_iff Nat.length_repr_pos).1 (Nat.le_refl _)

/-- Fewer zeros follow the point than it takes tens to make one. -/
theorem leadingZeros_spec {x fuel : Nat} (hx : x < one) (hfuel : one ≤ 10 ^ fuel * x) :
    10 ^ leadingZeros x fuel * x < one ∧ one ≤ 10 ^ (leadingZeros x fuel + 1) * x := by
  induction fuel generalizing x with
  | zero =>
    rw [pow_zero, Nat.one_mul] at hfuel
    omega
  | succ fuel ih =>
    rw [leadingZeros]
    split_ifs with hlast
    · rw [pow_zero, Nat.one_mul, Nat.zero_add, pow_one]
      exact ⟨hx, hlast⟩
    · have h := ih (Nat.lt_of_not_le hlast) (by rwa [← Nat.mul_assoc, ← pow_succ])
      rwa [← Nat.mul_assoc, ← Nat.mul_assoc, ← pow_succ, ← pow_succ] at h

theorem one_le_mul {x : Nat} (hx : 0 < x) : one ≤ 10 ^ 1074 * x := by
  unfold one
  generalize 1074 = n
  exact (Nat.pow_le_pow_left (by norm_num) n).trans (Nat.le_mul_of_pos_right _ hx)

theorem units_pos (hp : 0 < p) : 0 < units p :=
  Nat.pos_of_ne_zero fun h => hp.ne' (units_strictMono.injective h)

/-- The first digit of a number counts the power of ten right below its magnitude. -/
theorem magnitude_spec (hp : 0 < p) :
    (10 : ℚ) ^ (magnitude (units p) - 1) ≤ number p ∧ number p < 10 ^ magnitude (units p) := by
  have hpos := units_pos hp
  rw [number, le_div_iff₀ cast_one_pos, div_lt_iff₀ cast_one_pos, magnitude]
  generalize units p = x at hpos
  split_ifs with hone
  · have hwhole : 0 < x / one := Nat.div_pos hone Binary64.one_pos
    have hlow := ten_pow_pred_digitCount_le hwhole
    have hhigh := lt_ten_pow_digitCount (x / one)
    generalize digitCount (x / one) = k at hlow hhigh
    obtain ⟨k, rfl⟩ : ∃ j, k = j + 1 := by
      refine Nat.exists_eq_succ_of_ne_zero ?_
      rintro rfl
      omega
    rw [Nat.le_div_iff_mul_le Binary64.one_pos, Nat.add_sub_cancel] at hlow
    rw [Nat.div_lt_iff_lt_mul Binary64.one_pos] at hhigh
    rw [Nat.cast_succ, add_sub_cancel_right, zpow_natCast, ← Nat.cast_succ, zpow_natCast]
    exact ⟨by exact_mod_cast hlow, by exact_mod_cast hhigh⟩
  · obtain ⟨hlow, hhigh⟩ := leadingZeros_spec (Nat.lt_of_not_le hone) (one_le_mul hpos)
    generalize leadingZeros x 1074 = z at hlow hhigh
    have hz : (-(z : ℤ) - 1) = -(z + 1 : Nat) := by
      push_cast
      ring
    rw [hz, zpow_neg, zpow_neg, zpow_natCast, zpow_natCast, inv_mul_le_iff₀ (by positivity),
      lt_inv_mul_iff₀ (by positivity)]
    exact ⟨by exact_mod_cast hhigh, by exact_mod_cast hlow⟩

/-! ## Seventeen digits -/

/-- The double at `p` is less than `2 ^ 53` steps to the next one. -/
theorem number_lt_step (p : Nat) : number p < 2 ^ 53 * (number (p + 1) - number p) := by
  have hlt : units p < 2 ^ 53 * 2 ^ scale p := by
    rw [units_eq]
    exact Nat.mul_lt_mul_of_pos_right (by rw [scale]; omega) (Nat.two_pow_pos _)
  rw [number, number, units_succ, ← sub_div, mul_div_assoc',
    div_lt_div_iff_of_pos_right cast_one_pos]
  push_cast
  rw [add_sub_cancel_left]
  exact_mod_cast hlt

/-- The double after `p` is at most `2 ^ 53` steps from `p` to it. -/
theorem number_succ_le_step (p : Nat) : number (p + 1) ≤ 2 ^ 53 * (number (p + 1) - number p) := by
  have hle : units p + 2 ^ scale p ≤ 2 ^ 53 * 2 ^ scale p := by
    rw [units_eq, ← Nat.succ_mul]
    exact Nat.mul_le_mul_right _ (by rw [scale]; omega)
  rw [number, number, units_succ, ← sub_div, mul_div_assoc',
    div_le_div_iff_of_pos_right cast_one_pos]
  push_cast
  rw [add_sub_cancel_left]
  exact_mod_cast hle

/-- A decimal that is nearer to a double than one part in `2 ^ 54` is read as it. -/
theorem position_of_distance (hp0 : 0 < p) (hp : p < infinity)
    (h : 2 ^ 54 * d.distance p < number p) : d.position = p := by
  have hclose := abs_lt.1 (show |d.value - number p| < number p / 2 ^ 54 by
    rw [lt_div_iff₀ (by norm_num), mul_comm]; exact h)
  refine Nat.le_antisymm (position_le hp ?_) ?_
  · have := number_lt_step p
    linarith
  · obtain ⟨q, rfl⟩ : ∃ q, p = q + 1 := Nat.exists_eq_succ_of_ne_zero hp0.ne'
    refine lt_position (Nat.lt_of_succ_lt hp) ?_
    have := number_succ_le_step q
    linarith

theorem distance_add_distance (p : Nat) (e : ℤ) :
    (lower p e).distance p + (upper p e).distance p = 10 ^ e := by
  rw [distance_lower, distance_upper, sub_add_sub_cancel', value_upper, add_sub_cancel_left]

/-- With seventeen digits one of the neighbours of a double reads back. -/
theorem exists_onGrid?_seventeen (tie : Tie) (hp0 : 0 < p) (hp : p < infinity) :
    ∃ d, onGrid? tie p (magnitude (units p) - 1 - (16 : Nat)) = some d := by
  have hfirst := (magnitude_spec hp0).1
  have hpos : 0 < number p := (zpow_pos (by norm_num) _).trans_le hfirst
  have hstep : (10 : ℚ) ^ (magnitude (units p) - 1 - (16 : Nat)) ≤ number p / 10 ^ 16 := by
    rw [zpow_sub₀ (by norm_num), zpow_natCast]
    exact div_le_div_of_nonneg_right hfirst (by norm_num)
  generalize magnitude (units p) - 1 - (16 : Nat) = e at hstep
  rw [← distance_add_distance p e] at hstep
  refine pick?_isSome _ ?_
  rcases le_total ((lower p e).distance p) ((upper p e).distance p) with hle | hle
  · refine .inl (position_of_distance hp0 hp ?_)
    linarith
  · refine .inr (position_of_distance hp0 hp ?_)
    linarith

/-! ## The shortest decimal -/

theorem findSome?_range_eq_some {α : Type*} {f : Nat → Option α} {n : Nat} {a : α}
    (h : (List.range n).findSome? f = some a) : ∃ k, f k = some a ∧ ∀ j b,
    f j = some b → k ≤ j := by
  induction n with
  | zero => cases h
  | succ n ih =>
    rw [List.range_succ, List.findSome?_append, Option.or_eq_some_iff] at h
    rcases h with h | ⟨hnone, h⟩
    · exact ih h
    · rw [List.findSome?_singleton] at h
      rw [List.findSome?_eq_none_iff] at hnone
      refine ⟨n, h, fun j b hj => Nat.le_of_not_lt fun hlt => ?_⟩
      rw [hnone j (List.mem_range.2 hlt)] at hj
      cases hj

/-- The shortest decimal comes from the first grid that has one to show. -/
theorem shortest_eq_trim (tie : Tie) (hp0 : 0 < p) (hp : p < infinity) :
    ∃ k d, shortest tie p = trim 17 d ∧
    onGrid? tie p (magnitude (units p) - 1 - (k : Nat)) = some d ∧
      ∀ (j : Nat) d', onGrid? tie p (magnitude (units p) - 1 - j) = some d' → k ≤ j := by
  obtain ⟨d, hd⟩ : ∃ d, (List.range 17).findSome?
      (fun k : Nat => onGrid? tie p (magnitude (units p) - 1 - k)) = some d := by
    rw [← Option.isSome_iff_exists, List.findSome?_isSome_iff]
    obtain ⟨d, hd⟩ := exists_onGrid?_seventeen tie hp0 hp
    exact ⟨16, by decide, by rw [hd]; rfl⟩
  obtain ⟨k, hk, hfirst⟩ := findSome?_range_eq_some hd
  refine ⟨k, d, ?_, hk, hfirst⟩
  simp only [shortest, hd, Option.getD_some]

theorem distance_congr (h : d.value = d'.value) (p : Nat) : d.distance p = d'.distance p := by
  rw [distance, distance, h]

theorem digits_lt (d : Decimal) : d.digits < 10 ^ d.digits.repr.length :=
  (Nat.length_repr_le_iff Nat.length_repr_pos).1 (Nat.le_refl _)

/-- The digits of a decimal on a finer grid. -/
theorem value_refine (h : e ≤ d.exponent) :
    value ⟨d.digits * 10 ^ (d.exponent - e).toNat, e⟩ = d.value := by
  have hexponent : d.exponent = (d.exponent - e).toNat + e := by omega
  have hten : (10 : ℚ) ^ d.exponent = 10 ^ (d.exponent - e).toNat * 10 ^ e := by
    rw [← zpow_natCast, ← zpow_add₀ (by norm_num), ← hexponent]
  rw [value, value, hten]
  push_cast
  ring

/-- A decimal that reads back is not nearer than what one of the grids has to show that have as many
    digits or fewer. -/
theorem exists_onGrid?_of_position (tie : Tie) (hp0 : 0 < p) (hp : p < infinity)
    (hd : d.position = p) :
    ∃ j < d.digits.repr.length, ∃ d',
      onGrid? tie p (magnitude (units p) - 1 - (j : Nat)) = some d' ∧
      d'.distance p ≤ d.distance p := by
  obtain ⟨hfirst, -⟩ := magnitude_spec hp0
  generalize magnitude (units p) = top at hfirst
  have hlength : 0 < d.digits.repr.length := Nat.length_repr_pos
  by_cases hexponent : top - 1 - (d.digits.repr.length - 1 : Nat) ≤ d.exponent
  · have hvalue := value_refine hexponent
    obtain ⟨d', hd', hle⟩ := exists_onGrid? hp.le tie ((position_congr hvalue).trans hd)
    exact ⟨d.digits.repr.length - 1, Nat.sub_one_lt hlength.ne', d', hd',
      hle.trans_eq (distance_congr hvalue p)⟩
  · -- The decimal lies below the power of ten at the first digit of the double.
    have hone : value ⟨1, top - 1 - (0 : Nat)⟩ = 10 ^ (top - 1) := by
      rw [value, Nat.cast_one, one_mul, Nat.cast_zero, sub_zero]
    have hbelow : d.value ≤ value ⟨1, top - 1 - (0 : Nat)⟩ := by
      calc d.value ≤ (10 ^ d.digits.repr.length : Nat) * 10 ^ d.exponent :=
            mul_le_mul_of_nonneg_right (Nat.cast_le.2 d.digits_lt.le) (by positivity)
        _ = (10 : ℚ) ^ (d.digits.repr.length + d.exponent) := by
            rw [zpow_add₀ (by norm_num), zpow_natCast, Nat.cast_pow, Nat.cast_ofNat]
        _ ≤ 10 ^ (top - 1) := zpow_le_zpow_right₀ (by norm_num) (by omega)
        _ = _ := hone.symm
    have hread : position ⟨1, top - 1 - (0 : Nat)⟩ = p :=
      (position_le_of_value_le hp.le (hone.trans_le hfirst)).antisymm
        (hd.symm.trans_le (position_mono hbelow))
    obtain ⟨d', hd', hle⟩ := exists_onGrid? hp.le tie hread
    refine ⟨0, hlength, d', hd', hle.trans ?_⟩
    rw [distance, distance, abs_of_nonpos (sub_nonpos.2 (hone.trans_le hfirst)),
      abs_of_nonpos (sub_nonpos.2 (hbelow.trans (hone.trans_le hfirst)))]
    linarith

theorem digits_trim_le (fuel : Nat) (d : Decimal) : (trim fuel d).digits ≤ d.digits := by
  induction fuel generalizing d with
  | zero => exact Nat.le_refl _
  | succ fuel ih =>
    rw [trim]
    split_ifs
    · exact Nat.zero_le _
    · exact (ih _).trans (Nat.div_le_self _ _)
    · exact Nat.le_refl _

theorem digits_trim_lt {k : Nat} (hd : d.digits ≤ 10 ^ (k + 1)) (fuel : Nat) :
    (trim (fuel + 1) d).digits < 10 ^ (k + 1) := by
  rcases hd.lt_or_eq with hlt | heq
  · exact (digits_trim_le _ _).trans_lt hlt
  · have hdiv : d.digits / 10 = 10 ^ k := by rw [heq, pow_succ, Nat.mul_div_cancel _ (by norm_num)]
    have hmod : d.digits % 10 = 0 := by rw [heq, pow_succ, Nat.mul_mod_left]
    have hpos : d.digits ≠ 0 := by rw [heq]; positivity
    rw [trim, if_neg hpos, if_pos hmod, hdiv]
    exact (digits_trim_le _ _).trans_lt (Nat.pow_lt_pow_right (by norm_num) k.lt_succ_self)

/-- On the grid number `k` the neighbours of a double have at most `k + 1` digits, or the upper one
    is a power of ten. -/
theorem digits_le_of_onGrid? (hp0 : 0 < p) {k : Nat}
    (h : onGrid? tie p (magnitude (units p) - 1 - (k : Nat)) = some d) :
    d.digits ≤ 10 ^ (k + 1) := by
  obtain ⟨-, hneighbour, -⟩ := onGrid?_eq_some h
  have hlast := (magnitude_spec hp0).2
  generalize magnitude (units p) = top at hneighbour hlast
  have hlow : floorOn (top - 1 - (k : Nat)) (units p) < 10 ^ (k + 1) := by
    have hexponent : top = (k + 1 : Nat) + (top - 1 - (k : Nat)) := by omega
    have htop : (10 : ℚ) ^ top = (10 ^ (k + 1) : Nat) * 10 ^ (top - 1 - (k : Nat)) := by
      rw [Nat.cast_pow, Nat.cast_ofNat, ← zpow_natCast, ← zpow_add₀ (by norm_num), ← hexponent]
    rw [htop] at hlast
    exact_mod_cast lt_of_mul_lt_mul_right ((floorOn_mul_le _ p).trans_lt hlast) (by positivity)
  rcases hneighbour with rfl | rfl
  · exact hlow.le
  · exact hlow

/-- The decimal `d` is read as the double at `p`, no decimal with fewer digits is, and of those with
    as many digits none is nearer. -/
def IsShortest (d : Decimal) (p : Nat) : Prop :=
  d.position = p ∧ ∀ d' : Decimal, d'.position = p →
    d.digits.repr.length ≤ d'.digits.repr.length ∧
      (d'.digits.repr.length = d.digits.repr.length → d.distance p ≤ d'.distance p)

theorem shortest_zero (tie : Tie) : shortest tie 0 = ⟨0, 0⟩ := by
  cases tie <;> decide +kernel

theorem value_zero : value ⟨0, 0⟩ = number 0 := by
  have hunits : units 0 = 0 := rfl
  rw [value, number, hunits, Nat.cast_zero, zero_mul, zero_div]

/-- The decimal that is written for a double is the shortest one that reads back. -/
theorem isShortest_shortest (tie : Tie) (hp : p < infinity) : (shortest tie p).IsShortest p := by
  rcases Nat.eq_zero_or_pos p with rfl | hp0
  · rw [shortest_zero]
    refine ⟨position_of_value hp.le value_zero, fun d' _ => ⟨Nat.length_repr_pos, fun _ => ?_⟩⟩
    rw [distance, value_zero, sub_self, abs_zero]
    exact abs_nonneg _
  · obtain ⟨k, d, hshortest, hd, hfirst⟩ := shortest_eq_trim tie hp0 hp
    have hvalue : (trim 17 d).value = d.value := value_trim 17 d
    have hlength : (trim 17 d).digits.repr.length ≤ k + 1 :=
      (Nat.length_repr_le_iff k.succ_pos).2 (digits_trim_lt (digits_le_of_onGrid? hp0 hd) 16)
    rw [hshortest]
    refine ⟨(position_congr hvalue).trans (onGrid?_eq_some hd).1, fun d' hd' => ?_⟩
    obtain ⟨j, hj, d'', hd'', hle⟩ := exists_onGrid?_of_position tie hp0 hp hd'
    have hkj := hfirst j d'' hd''
    refine ⟨by omega, fun heq => ?_⟩
    obtain rfl : k = j := by omega
    rw [hd] at hd''
    cases hd''
    exact (distance_congr hvalue p).trans_le hle

/-! ## Whole numbers -/

/-- A whole number below `2 ^ 53` is read as itself only. -/
theorem value_eq_of_position {n : Nat} (hn : n < 2 ^ 53) (hd : d.value = n) (h : d.position = p) :
    d.value = number p := by
  obtain ⟨q, hq, hunits⟩ := exists_units_eq hn
  have hnumber : d.value = number q := by
    rw [hd, number, hunits, Nat.cast_mul, mul_div_cancel_right₀ _ cast_one_pos.ne']
  rw [hnumber, ← h, position_of_value hq.le hnumber]

theorem exponent_trim_nonneg (fuel : Nat) (hd : 0 ≤ d.exponent) : 0 ≤ (trim fuel d).exponent := by
  induction fuel generalizing d with
  | zero => exact hd
  | succ fuel ih =>
    rw [trim]
    split_ifs
    · exact le_refl _
    · exact ih (hd.trans (le_add_of_nonneg_right zero_le_one))
    · exact hd

/-- A decimal without digits after the point is a whole number. -/
theorem value_of_exponent_nonneg (hd : 0 ≤ d.exponent) : d.value = d.numerator := by
  have hdenominator : d.denominator = 1 := by
    rw [denominator, Int.toNat_of_nonpos (neg_nonpos.2 hd), Nat.pow_eq, pow_zero]
  rw [value_eq_div, hdenominator, Nat.cast_one, div_one]

/-- What a grid has to show is at most one step above the double. -/
theorem value_le_of_onGrid? (h : onGrid? tie p e = some d) : d.value ≤ number p + 10 ^ e := by
  obtain ⟨-, rfl | rfl, -⟩ := onGrid?_eq_some h
  · exact (value_lower_le p e).trans (le_add_of_nonneg_right (by positivity))
  · rw [value_upper]
    exact add_le_add_left (value_lower_le p e) _

/-- The shortest decimal of a whole number below `10 ^ 15` is that number, without a digit after
    the point. -/
theorem shortest_of_whole (tie : Tie) (hp : p < infinity) {n : Nat} (hn : n < 10 ^ 15)
    (h : number p = n) : (shortest tie p).value = n ∧ 0 ≤ (shortest tie p).exponent := by
  rcases Nat.eq_zero_or_pos p with rfl | hp0
  · rw [shortest_zero, ← h]
    exact ⟨value_zero, le_refl _⟩
  · obtain ⟨k, d, hshortest, hd, hfirst⟩ := shortest_eq_trim tie hp0 hp
    obtain ⟨hlow, hhigh⟩ := magnitude_spec hp0
    rw [h] at hlow hhigh
    have hpos : 0 < n := by exact_mod_cast (zpow_pos (by norm_num) _).trans_le hlow
    -- The number itself is on the grid of the whole numbers, so that grid or a coarser one decides.
    have hexponent : 0 ≤ magnitude (units p) - 1 - (k : Nat) := by
      have hvalue : value ⟨n, 0⟩ = number p := by rw [value, zpow_zero, mul_one, h]
      obtain ⟨j, hj, d', hd', -⟩ :=
        exists_onGrid?_of_position tie hp0 hp (position_of_value hp.le hvalue)
      have hkj := hfirst j d' hd'
      have hdigits : ((digitCount n - 1 : Nat) : ℤ) < magnitude (units p) := by
        refine (zpow_lt_zpow_iff_right₀ (by norm_num : (1 : ℚ) < 10)).1 (lt_of_le_of_lt ?_ hhigh)
        rw [zpow_natCast]
        exact_mod_cast ten_pow_pred_digitCount_le hpos
      rw [digitCount, if_neg hpos.ne'] at hdigits
      dsimp only at hj
      omega
    have hd0 : 0 ≤ d.exponent := by
      obtain ⟨-, rfl | rfl, -⟩ := onGrid?_eq_some hd <;> exact hexponent
    have hstep : (10 : ℚ) ^ (magnitude (units p) - 1 - (k : Nat)) ≤ n :=
      (zpow_le_zpow_right₀ (by norm_num) (by omega)).trans hlow
    have hlt : d.numerator < 2 ^ 53 := by
      have hle := value_le_of_onGrid? hd
      rw [value_of_exponent_nonneg hd0, h] at hle
      have : (d.numerator : ℚ) ≤ (n + n : Nat) := by
        push_cast
        linarith
      have : d.numerator ≤ n + n := by exact_mod_cast this
      omega
    rw [hshortest, value_trim, value_eq_of_position hlt (value_of_exponent_nonneg hd0)
      (onGrid?_eq_some hd).1, h]
    exact ⟨rfl, exponent_trim_nonneg 17 hd0⟩

end Lox.Decimal
