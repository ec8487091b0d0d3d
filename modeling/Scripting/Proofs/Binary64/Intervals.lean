import Mathlib
import Scripting.Binary64.Shortest

/-!
# Decimals in an interval

* `Decimal.value` : the number that a decimal stands for; zeros at the end of the digits do not
  matter (`Decimal.value_dropZeros`);
* `Interval.lowest`, `Interval.center`, `Interval.highest` : the ends and the number between them
  (`Interval.between_of_holds`, `Interval.holds_of_between`);
* `Interval.order_spec` : the powers of ten below and above the number;
* `Interval.nearest` : the point of a grid that is nearest to the number, at most half a step away
  (`Interval.abs_nearest_sub_center_le`, `Interval.isSome_onGrid?`);
* `Interval.shortest_between` : the shortest decimal lies in the interval, if that is wide enough
  for seventeen digits;
* `Interval.exponent_shortest_nonneg` : for a large number it has no fraction.
-/

namespace Scripting.Binary64

set_option autoImplicit false

/-! ## Powers -/

theorem zpow_eq_div {b : ℚ} (hb : b ≠ 0) (e : ℤ) : b ^ e = b ^ e.toNat / b ^ (-e).toNat := by
  rw [← zpow_natCast, ← zpow_natCast, ← zpow_sub₀ hb]
  congr 1
  omega

@[simp] theorem cast_pow10 (n : ℕ) : (pow10 n : ℚ) = 10 ^ n := by simp [pow10]

@[simp] theorem cast_pow2 (n : ℕ) : (pow2 n : ℚ) = 2 ^ n := by simp [pow2]

theorem ten_zpow_eq_div (e : ℤ) : (10 : ℚ) ^ e = pow10 e.toNat / pow10 (-e).toNat := by
  rw [cast_pow10, cast_pow10, zpow_eq_div (by norm_num)]

theorem pow10_pos (n : ℕ) : 0 < pow10 n := Nat.pow_pos (by decide)

/-! ## Decimals -/

namespace Decimal

/-- The number that a decimal stands for. -/
def value (d : Decimal) : ℚ := d.digits * 10 ^ d.exponent

theorem value_eq_div (d : Decimal) :
    d.value = (d.digits * pow10 d.exponent.toNat : ℕ) / (pow10 (-d.exponent).toNat : ℕ) := by
  rw [value, ten_zpow_eq_div, Nat.cast_mul, mul_div_assoc]

/-- Zeros at the end of the digits only count for the exponent. -/
theorem value_dropZeros (d : Decimal) (count : ℕ) : (d.dropZeros count).value = d.value := by
  induction count generalizing d with
  | zero => rfl
  | succ count ih =>
    rw [dropZeros]
    split
    · rename_i hzero
      have hdigits : (d.digits : ℚ) = (d.digits / 10 : ℕ) * 10 := by
        exact_mod_cast (Nat.div_mul_cancel (Nat.dvd_of_mod_eq_zero hzero)).symm
      rw [ih, value, value, hdigits, zpow_add_one₀ (by norm_num)]
      ring
    · rfl

theorem exponent_le_dropZeros (d : Decimal) (count : ℕ) :
    d.exponent ≤ (d.dropZeros count).exponent := by
  induction count generalizing d with
  | zero => exact le_rfl
  | succ count ih =>
    rw [dropZeros]
    split
    · exact (Int.le_add_of_nonneg_right (by decide)).trans (ih _)
    · exact le_rfl

/-- A decimal without a fraction is a whole number. -/
theorem exists_value_eq {d : Decimal} (h : 0 ≤ d.exponent) : ∃ n : ℕ, d.value = n := by
  obtain ⟨k, hk⟩ := Int.eq_ofNat_of_zero_le h
  exact ⟨d.digits * 10 ^ k, by simp [value, hk]⟩

end Decimal

/-! ## Numbers of digits -/

/-- The number of digits tells between which powers of ten a number is. -/
theorem exists_digitCount {n : ℕ} (h : 0 < n) :
    ∃ k, digitCount n = k + 1 ∧ 10 ^ k ≤ n ∧ n < 10 ^ (k + 1) := by
  have hlength : ∀ k, 0 < k → ((Nat.toDigits 10 n).length ≤ k ↔ n < 10 ^ k) :=
    fun k hk => Nat.length_toDigits_le_iff (by decide) hk
  obtain ⟨k, hk⟩ := Nat.exists_eq_succ_of_ne_zero
    (List.length_pos_iff.2 (Nat.toDigits_ne_nil (b := 10) (n := n))).ne'
  refine ⟨k, (if_neg h.ne').trans hk, ?_, (hlength _ k.succ_pos).1 hk.le⟩
  cases k with
  | zero => exact h
  | succ k =>
    refine Nat.le_of_not_lt fun hlt => ?_
    have := (hlength _ k.succ_pos).2 hlt
    omega

/-! ## Intervals -/

namespace Interval

variable (i : Interval)

/-- The lower end. -/
def lowest : ℚ := i.low / i.unit

/-- The number that the others round to. -/
def center : ℚ := i.value / i.unit

/-- The upper end. -/
def highest : ℚ := i.high / i.unit

variable {i}

theorem between_of_holds (hunit : 0 < i.unit) {d : Decimal} (h : i.holds d = true) :
    i.lowest ≤ d.value ∧ d.value ≤ i.highest := by
  have hunit' : (0 : ℚ) < i.unit := by exact_mod_cast hunit
  have hscale : (0 : ℚ) < (pow10 (-d.exponent).toNat : ℕ) := by exact_mod_cast pow10_pos _
  rw [lowest, highest, d.value_eq_div, div_le_div_iff₀ hunit' hscale,
    div_le_div_iff₀ hscale hunit']
  unfold holds at h
  split at h
  · simp only [Bool.and_eq_true, decide_eq_true_eq] at h
    exact_mod_cast h
  · simp only [Bool.and_eq_true, decide_eq_true_eq] at h
    exact_mod_cast And.intro h.1.le h.2.le

theorem holds_of_between (hunit : 0 < i.unit) {d : Decimal} (hlow : i.lowest < d.value)
    (hhigh : d.value < i.highest) : i.holds d = true := by
  have hunit' : (0 : ℚ) < i.unit := by exact_mod_cast hunit
  have hscale : (0 : ℚ) < (pow10 (-d.exponent).toNat : ℕ) := by exact_mod_cast pow10_pos _
  rw [lowest, d.value_eq_div, div_lt_div_iff₀ hunit' hscale] at hlow
  rw [highest, d.value_eq_div, div_lt_div_iff₀ hscale hunit'] at hhigh
  have hlow' : i.low * pow10 (-d.exponent).toNat <
      d.digits * pow10 d.exponent.toNat * i.unit := by exact_mod_cast hlow
  have hhigh' : d.digits * pow10 d.exponent.toNat * i.unit <
      i.high * pow10 (-d.exponent).toNat := by exact_mod_cast hhigh
  unfold holds
  split
  · simp only [Bool.and_eq_true, decide_eq_true_eq]
    exact ⟨hlow'.le, hhigh'.le⟩
  · simp only [Bool.and_eq_true, decide_eq_true_eq]
    exact ⟨hlow', hhigh'⟩

/-- The whole part has as many digits as the order says. -/
theorem order_spec_of_le (hunit : 0 < i.unit) (hle : i.unit ≤ i.value) :
    (10 : ℚ) ^ (i.order - 1) ≤ i.center ∧ i.center < (10 : ℚ) ^ i.order := by
  have hunit' : (0 : ℚ) < i.unit := by exact_mod_cast hunit
  obtain ⟨k, hk, hlow, hhigh⟩ := exists_digitCount (Nat.div_pos hle hunit)
  rw [Nat.le_div_iff_mul_le hunit] at hlow
  rw [Nat.div_lt_iff_lt_mul hunit] at hhigh
  rw [order, if_pos hle, hk, Nat.cast_succ, add_sub_cancel_right, ← Nat.cast_succ, zpow_natCast,
    zpow_natCast, center, le_div_iff₀ hunit', div_lt_iff₀ hunit']
  exact ⟨by exact_mod_cast hlow, by exact_mod_cast hhigh⟩

/-- The order of a number below one comes from that of its inverse. -/
theorem order_spec_of_lt (hvalue : 0 < i.value) (hlt : i.value < i.unit) :
    (10 : ℚ) ^ (i.order - 1) ≤ i.center ∧ i.center < (10 : ℚ) ^ i.order := by
  have hunit' : (0 : ℚ) < i.unit := by exact_mod_cast hvalue.trans hlt
  -- `above + 1` is the inverse, rounded up
  obtain ⟨above, habove⟩ : ∃ above, (i.unit + i.value - 1) / i.value = above + 2 := by
    refine Nat.exists_eq_add_of_le' ?_
    rw [Nat.le_div_iff_mul_le hvalue]
    omega
  have hbelow : (above + 1) * i.value < i.unit := by
    have := Nat.div_mul_le_self (i.unit + i.value - 1) i.value
    rw [habove, Nat.add_mul] at this
    rw [Nat.add_mul]
    omega
  have hreach : i.unit ≤ (above + 2) * i.value := by
    have := Nat.lt_div_mul_add (a := i.unit + i.value - 1) hvalue
    rw [habove] at this
    omega
  obtain ⟨k, hk, hlow, hhigh⟩ := exists_digitCount above.succ_pos
  have hlow' : (10 : ℚ) ^ k * i.value < i.unit := by
    exact_mod_cast (Nat.mul_le_mul_right _ hlow).trans_lt hbelow
  have hhigh' : (i.unit : ℚ) ≤ 10 ^ (k + 1) * i.value := by
    exact_mod_cast hreach.trans (Nat.mul_le_mul_right _ hhigh)
  have horder : i.order = -(k : ℤ) := by
    rw [order, if_neg (Nat.not_le_of_lt hlt), habove, show above + 2 - 1 = above.succ from rfl, hk]
    push_cast
    ring
  rw [horder, show -(k : ℤ) - 1 = -((k + 1 : ℕ) : ℤ) by push_cast; ring, zpow_neg, zpow_neg,
    zpow_natCast, zpow_natCast, center, le_div_iff₀ hunit', div_lt_iff₀ hunit',
    inv_mul_le_iff₀ (by positivity), lt_inv_mul_iff₀ (by positivity)]
  exact ⟨hhigh', hlow'⟩

/-- The number lies between two powers of ten that follow each other. -/
theorem order_spec (hunit : 0 < i.unit) (hvalue : 0 < i.value) :
    (10 : ℚ) ^ (i.order - 1) ≤ i.center ∧ i.center < (10 : ℚ) ^ i.order :=
  (le_or_gt i.unit i.value).elim (order_spec_of_le hunit) (order_spec_of_lt hvalue)

/-! ## Points of a grid -/

theorem of_onGrid? {exponent : ℤ} {d : Decimal} (h : i.onGrid? exponent = some d) :
    d.exponent = exponent ∧ i.holds d = true := by
  unfold onGrid? at h
  dsimp only at h
  split_ifs at h <;> cases h <;> exact ⟨rfl, ‹_›⟩

/-- The width of a step of a grid, as a numerator. -/
def step (i : Interval) (exponent : ℤ) : ℕ := pow10 exponent.toNat * i.unit

/-- The number, as a numerator for the same grid. -/
def scaled (i : Interval) (exponent : ℤ) : ℕ := i.value * pow10 (-exponent).toNat

/-- The point of a grid that is nearest to the number. -/
def nearest (i : Interval) (exponent : ℤ) : Decimal :=
  if 2 * (i.scaled exponent % i.step exponent) < i.step exponent
  then ⟨i.scaled exponent / i.step exponent, exponent⟩
  else ⟨i.scaled exponent / i.step exponent + 1, exponent⟩

theorem isSome_onGrid?_of_holds {exponent : ℤ} (h : i.holds (i.nearest exponent) = true) :
    (i.onGrid? exponent).isSome = true := by
  have hgrid : i.onGrid? exponent = some (i.nearest exponent) := if_pos h
  rw [hgrid]
  rfl

/-- The number, counted in steps: whole ones and a rest. -/
theorem center_eq_steps (hunit : 0 < i.unit) (exponent : ℤ) :
    i.center = ((i.scaled exponent / i.step exponent : ℕ) +
      ((i.scaled exponent % i.step exponent : ℕ) / i.step exponent : ℚ)) * 10 ^ exponent := by
  have hunit' : (0 : ℚ) < i.unit := by exact_mod_cast hunit
  have hpos : (0 : ℚ) < i.step exponent := by
    exact_mod_cast Nat.mul_pos (pow10_pos exponent.toNat) hunit
  have hcount : i.center = i.scaled exponent / i.step exponent * 10 ^ exponent := by
    rw [ten_zpow_eq_div, scaled, step, center]
    have := pow10_pos exponent.toNat
    have := pow10_pos (-exponent).toNat
    push_cast
    field_simp
  have hsplit : (i.step exponent : ℚ) * (i.scaled exponent / i.step exponent : ℕ) +
      (i.scaled exponent % i.step exponent : ℕ) = i.scaled exponent := by
    exact_mod_cast Nat.div_add_mod (i.scaled exponent) (i.step exponent)
  rw [hcount, ← hsplit, add_div, mul_div_cancel_left₀ _ hpos.ne']

/-- The nearest point of a grid is at most half a step away. -/
theorem abs_nearest_sub_center_le (hunit : 0 < i.unit) (exponent : ℤ) :
    |(i.nearest exponent).value - i.center| ≤ 10 ^ exponent / 2 := by
  have hgrid : (0 : ℚ) < 10 ^ exponent := by positivity
  have hpos : 0 < i.step exponent := Nat.mul_pos (pow10_pos _) hunit
  have hpos' : (0 : ℚ) < i.step exponent := by exact_mod_cast hpos
  have hrest : (0 : ℚ) ≤ (i.scaled exponent % i.step exponent : ℕ) / i.step exponent := by
    positivity
  have hrest' : ((i.scaled exponent % i.step exponent : ℕ) / i.step exponent : ℚ) < 1 := by
    rw [div_lt_one hpos']
    exact_mod_cast Nat.mod_lt _ hpos
  rw [center_eq_steps hunit exponent, nearest, abs_le]
  split
  · rename_i hhalf
    have hhalf' : ((i.scaled exponent % i.step exponent : ℕ) / i.step exponent : ℚ) < 1 / 2 := by
      rw [div_lt_div_iff₀ hpos' two_pos]
      exact_mod_cast (by omega :
        i.scaled exponent % i.step exponent * 2 < 1 * i.step exponent)
    rw [Decimal.value]
    constructor <;> nlinarith
  · rename_i hhalf
    have hhalf' : (1 / 2 : ℚ) ≤ (i.scaled exponent % i.step exponent : ℕ) / i.step exponent := by
      rw [div_le_div_iff₀ two_pos hpos']
      exact_mod_cast (by omega :
        1 * i.step exponent ≤ i.scaled exponent % i.step exponent * 2)
    rw [Decimal.value, Nat.cast_succ]
    constructor <;> nlinarith

/-- A grid has a point in an interval that reaches farther than half a step on both sides. -/
theorem isSome_onGrid? (hunit : 0 < i.unit) {exponent : ℤ}
    (hlow : (10 : ℚ) ^ exponent / 2 < i.center - i.lowest)
    (hhigh : (10 : ℚ) ^ exponent / 2 < i.highest - i.center) :
    (i.onGrid? exponent).isSome = true := by
  obtain ⟨hbelow, habove⟩ := abs_le.1 (abs_nearest_sub_center_le hunit exponent)
  exact isSome_onGrid?_of_holds (holds_of_between hunit (by linarith) (by linarith))

/-! ## The shortest decimal -/

/-- The search ends with a decimal in the interval if it comes to a grid that has one. -/
theorem holds_search {digits count k : ℕ} (hfrom : digits ≤ k) (hto : k < digits + count)
    (h : (i.onGrid? (i.order - k)).isSome = true) : i.holds (i.search digits count) = true := by
  induction count generalizing digits with
  | zero => omega
  | succ count ih =>
    rw [search]
    cases hgrid : i.onGrid? (i.order - digits) with
    | some d => exact (of_onGrid? hgrid).2
    | none =>
      have hne : digits ≠ k := by
        rintro rfl
        rw [hgrid] at h
        cases h
      exact ih (by omega) (by omega)

/-- Of a number with many digits before the point, none behind it is looked at. -/
theorem exponent_search_nonneg {digits count : ℕ} (h : (digits + count : ℕ) ≤ i.order + 1) :
    0 ≤ (i.search digits count).exponent := by
  induction count generalizing digits with
  | zero => exact le_rfl
  | succ count ih =>
    rw [search]
    cases hgrid : i.onGrid? (i.order - digits) with
    | some d =>
      rw [Option.getD_some, (of_onGrid? hgrid).1]
      push_cast at h
      omega
    | none =>
      refine ih ?_
      push_cast at h ⊢
      omega

/-- The shortest decimal lies in the interval, if a step of the seventeenth digit is not too wide
for it. -/
theorem shortest_between (hunit : 0 < i.unit) (hvalue : 0 < i.value)
    (hlow : i.center < 2 * 10 ^ 16 * (i.center - i.lowest))
    (hhigh : i.center < 2 * 10 ^ 16 * (i.highest - i.center)) :
    i.lowest ≤ i.shortest.value ∧ i.shortest.value ≤ i.highest := by
  have hstep : (10 : ℚ) ^ (i.order - (17 : ℕ)) * 10 ^ 16 ≤ i.center := by
    have horder := (order_spec hunit hvalue).1
    rwa [← zpow_natCast, ← zpow_add₀ (by norm_num),
      show i.order - (17 : ℕ) + (16 : ℕ) = i.order - 1 by push_cast; ring]
  have hgrid : (i.onGrid? (i.order - (17 : ℕ))).isSome = true := by
    refine isSome_onGrid? hunit ?_ ?_ <;>
      (generalize (10 : ℚ) ^ (i.order - (17 : ℕ)) = step at hstep ⊢; linarith)
  rw [shortest, Decimal.value_dropZeros]
  exact between_of_holds hunit (holds_search (by decide) (by decide) hgrid)

/-- The shortest decimal of a number of seventeen digits and more has no fraction. -/
theorem exponent_shortest_nonneg (hunit : 0 < i.unit) (hvalue : 0 < i.value)
    (h : (10 : ℚ) ^ 16 ≤ i.center) : 0 ≤ i.shortest.exponent := by
  have horder : 16 < i.order := by
    have hlt := h.trans_lt (order_spec hunit hvalue).2
    rw [← zpow_natCast] at hlt
    exact (zpow_lt_zpow_iff_right₀ (by norm_num)).1 hlt
  refine (exponent_search_nonneg ?_).trans (Decimal.exponent_le_dropZeros _ _)
  push_cast
  omega

end Interval

end Scripting.Binary64
