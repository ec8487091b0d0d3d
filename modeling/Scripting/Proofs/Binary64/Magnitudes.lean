import Mathlib
import Scripting.Binary64.Text
import Scripting.Proofs.Binary64.Intervals

/-!
# How large a float is

* `magnitude` : a finite float without its sign, as a rational number;
* `ofBits_of_isFinite` : the parts that are read from the bits of a finite float are those of its
  magnitude;
* `isSmallWhole_iff` : the whole numbers below `10 ^ 16`;
* `exponent_shortest_lt_zero` : the shortest decimal of a number that is not whole has a fraction.
-/

namespace Scripting.Binary64

set_option autoImplicit false

/-! ## Whole numbers -/

/-- The number is a natural number. -/
def IsWhole (q : ℚ) : Prop := ∃ n : ℕ, q = n

theorem pow2_pos (n : ℕ) : 0 < pow2 n := Nat.pow_pos (by decide)

theorem two_zpow_eq_div (e : ℤ) : (2 : ℚ) ^ e = pow2 e.toNat / pow2 (-e).toNat := by
  rw [cast_pow2, cast_pow2, zpow_eq_div (by norm_num)]

theorem isWhole_div {a b : ℕ} (hb : 0 < b) : IsWhole (a / b) ↔ a % b = 0 := by
  have hb' : (b : ℚ) ≠ 0 := by exact_mod_cast hb.ne'
  constructor
  · rintro ⟨n, hn⟩
    rw [div_eq_iff hb'] at hn
    have : a = n * b := by exact_mod_cast hn
    rw [this, Nat.mul_mod_left]
  · intro h
    refine ⟨a / b, ?_⟩
    rw [div_eq_iff hb']
    exact_mod_cast (Nat.div_mul_cancel (Nat.dvd_of_mod_eq_zero h)).symm

theorem isSmallWhole_iff (mantissa : ℕ) (exponent : ℤ) : isSmallWhole mantissa exponent = true ↔
    IsWhole (mantissa * 2 ^ exponent) ∧ (mantissa * 2 ^ exponent : ℚ) < 10 ^ 16 := by
  have hunit := pow2_pos (-exponent).toNat
  have hunit' : (0 : ℚ) < pow2 (-exponent).toNat := by exact_mod_cast hunit
  -- one of the two powers is one
  have hmod : mantissa * pow2 exponent.toNat % pow2 (-exponent).toNat =
      0 ↔ mantissa % pow2 (-exponent).toNat = 0 := by
    rcases le_total 0 exponent with h | h
    · rw [show (-exponent).toNat = 0 by omega]
      simp [pow2, Nat.mod_one]
    · rw [show exponent.toNat = 0 by omega]
      simp [pow2]
  rw [two_zpow_eq_div, ← mul_div_assoc, ← Nat.cast_mul, isWhole_div hunit, hmod,
    div_lt_iff₀ hunit', isSmallWhole, Bool.and_eq_true, decide_eq_true_eq, decide_eq_true_eq]
  refine and_congr_right fun _ => ?_
  rw [← cast_pow10 16, ← Nat.cast_mul, Nat.cast_lt]

/-! ## The interval of a float -/

/-- A mantissa of a float: it has at most 53 bits, and the neighbour below the float can only be
nearer than the one above if the mantissa is the least with all of them. -/
structure IsMantissa (mantissa : ℕ) (lowerIsNear : Bool) : Prop where
  small : mantissa < 2 ^ 53
  near : lowerIsNear = true → mantissa = 2 ^ 52

namespace Interval

variable {mantissa : ℕ} {exponent : ℤ} {lowerIsNear : Bool}

theorem unit_ofParts_pos : 0 < (ofParts mantissa exponent lowerIsNear).unit :=
  Nat.mul_pos (by decide) (pow2_pos _)

theorem value_ofParts_pos (hpos : 0 < mantissa) :
    0 < (ofParts mantissa exponent lowerIsNear).value :=
  Nat.mul_pos (Nat.mul_pos (by decide) hpos) (pow2_pos _)

theorem ofParts_div (n : ℕ) (exponent : ℤ) :
    ((n * pow2 exponent.toNat : ℕ) : ℚ) / (4 * pow2 (-exponent).toNat : ℕ) =
      n / 4 * 2 ^ exponent := by
  rw [two_zpow_eq_div, Nat.cast_mul, Nat.cast_mul, mul_div_mul_comm, Nat.cast_ofNat]

theorem center_ofParts : (ofParts mantissa exponent lowerIsNear).center =
    mantissa * 2 ^ exponent := by
  refine (ofParts_div (4 * mantissa) exponent).trans ?_
  push_cast
  ring

theorem highest_ofParts : (ofParts mantissa exponent lowerIsNear).highest =
    (mantissa + 1 / 2) * 2 ^ exponent := by
  refine (ofParts_div (4 * mantissa + 2) exponent).trans ?_
  push_cast
  ring

theorem lowest_ofParts (hpos : 0 < mantissa) : (ofParts mantissa exponent lowerIsNear).lowest =
    (mantissa - if lowerIsNear then 1 / 4 else 1 / 2) * 2 ^ exponent := by
  refine (ofParts_div _ exponent).trans ?_
  split
  · rw [Nat.cast_sub (by omega)]
    push_cast
    ring
  · rw [Nat.cast_sub (by omega)]
    push_cast
    ring

/-- Seventeen digits suffice for a float. -/
theorem shortest_ofParts_between (hpos : 0 < mantissa) (h : IsMantissa mantissa lowerIsNear) :
    (ofParts mantissa exponent lowerIsNear).lowest ≤
        (ofParts mantissa exponent lowerIsNear).shortest.value ∧
      (ofParts mantissa exponent lowerIsNear).shortest.value ≤
        (ofParts mantissa exponent lowerIsNear).highest := by
  have hgrid : (0 : ℚ) < 2 ^ exponent := by positivity
  have hsmall : (mantissa : ℚ) < 2 ^ 53 := by exact_mod_cast h.small
  refine shortest_between unit_ofParts_pos (value_ofParts_pos hpos) ?_ ?_
  · rw [center_ofParts, lowest_ofParts hpos]
    split
    · rename_i hnear
      have hexact : (mantissa : ℚ) = 2 ^ 52 := by exact_mod_cast h.near hnear
      rw [hexact]
      nlinarith
    · nlinarith
  · rw [center_ofParts, highest_ofParts]
    nlinarith

/-- One tenth. -/
example : (ofParts 7205759403792794 (-56) false).shortest = ⟨1, -1⟩ := by decide +kernel

/-- There is no whole number in the interval of a float that is none itself: one that is not below
the interval is above it. -/
theorem highest_lt_of_not_isWhole (hpos : 0 < mantissa)
    (hwhole : ¬ IsWhole (mantissa * 2 ^ exponent)) (n : ℕ)
    (hlow : (ofParts mantissa exponent lowerIsNear).lowest ≤ n) :
    (ofParts mantissa exponent lowerIsNear).highest < n := by
  refine lt_of_not_ge fun hhigh => ?_
  rw [lowest_ofParts hpos] at hlow
  rw [highest_ofParts] at hhigh
  have hexponent : exponent < 0 := by
    refine Int.lt_of_not_ge fun hge => hwhole ⟨mantissa * 2 ^ exponent.toNat, ?_⟩
    rw [zpow_eq_div two_ne_zero, show (-exponent).toNat = 0 by omega]
    push_cast
    ring
  obtain ⟨k, hk⟩ := Int.eq_ofNat_of_zero_le (show 0 ≤ -exponent by omega)
  obtain rfl : exponent = -(k : ℤ) := by omega
  have hscale : (0 : ℚ) < 2 ^ k := by positivity
  rw [zpow_neg, zpow_natCast, ← div_eq_mul_inv, div_le_iff₀ hscale] at hlow
  rw [zpow_neg, zpow_natCast, ← div_eq_mul_inv, le_div_iff₀ hscale] at hhigh
  -- the mantissa and a whole number are multiples of the same unit
  have hsame : mantissa = n * 2 ^ k := by
    have hhalf : (if lowerIsNear then 1 / 4 else 1 / 2 : ℚ) ≤ 1 / 2 := by split <;> norm_num
    have hle : (mantissa : ℚ) < (n * 2 ^ k : ℕ) + 1 := by push_cast; linarith
    have hge : ((n * 2 ^ k : ℕ) : ℚ) < mantissa + 1 := by push_cast; linarith
    have hle' : mantissa < n * 2 ^ k + 1 := by exact_mod_cast hle
    have hge' : n * 2 ^ k < mantissa + 1 := by exact_mod_cast hge
    omega
  refine hwhole ⟨n, ?_⟩
  rw [hsame, zpow_neg, zpow_natCast]
  push_cast
  field_simp

/-- The shortest decimal of a float that is no whole number has a fraction. -/
theorem exponent_shortest_lt_zero (hpos : 0 < mantissa) (h : IsMantissa mantissa lowerIsNear)
    (hwhole : ¬ IsWhole (mantissa * 2 ^ exponent)) :
    (ofParts mantissa exponent lowerIsNear).shortest.exponent < 0 := by
  refine Int.lt_of_not_ge fun hge => ?_
  obtain ⟨n, hn⟩ := Decimal.exists_value_eq hge
  obtain ⟨hlow, hhigh⟩ := @shortest_ofParts_between _ exponent _ hpos h
  rw [hn] at hlow hhigh
  exact not_lt_of_ge hhigh (highest_lt_of_not_isWhole hpos hwhole n hlow)

end Interval

/-! ## Bits -/

/-- A finite number without its sign. -/
def amount : Float.Model.UnpackedFloat → ℚ
  | .finite _ mantissa exponent _ => mantissa * 2 ^ exponent
  | _ => 0

/-- A finite float without its sign. -/
def magnitude (x : Float) : ℚ := amount x.toModel.unpack

section

open Float.Model Float.Model.UnpackedFloat

/-- A finite number is read from the field of its exponent and that of its mantissa. -/
theorem amount_unpack {b : BitVec Format.binary64.numBits}
    (h : (UnpackedFloat.unpack .binary64 b).isFinite = true) :
    (unpackExponent b).toNat ≠ 2047 ∧ amount (UnpackedFloat.unpack .binary64 b) =
      if (unpackExponent b).toNat = 0 then ((unpackMantissa b).toNat : ℚ) * 2 ^ (-1074 : ℤ)
      else ((2 ^ 52 + (unpackMantissa b).toNat : ℕ) : ℚ) *
        2 ^ ((unpackExponent b).toNat - 1075 : ℤ) := by
  unfold UnpackedFloat.unpack at h ⊢
  dsimp only at h ⊢
  by_cases hlast : unpackExponent b = -1#11
  · rw [if_pos hlast] at h
    split at h <;> cases h
  rw [if_neg hlast]
  refine ⟨fun hfield => hlast (BitVec.eq_of_toNat_eq hfield), ?_⟩
  by_cases hzero : unpackExponent b = 0#11
  · have hzero' : (unpackExponent b).toNat = 0 := congrArg BitVec.toNat hzero
    rw [if_pos hzero, if_pos hzero', hzero']
    split
    · rename_i hfraction
      rw [hfraction]
      exact (zero_mul _).symm
    · rfl
  · have hzero' : (unpackExponent b).toNat ≠ 0 := fun hfield => hzero (BitVec.eq_of_toNat_eq hfield)
    rw [if_neg hzero, if_neg hzero']
    have hmantissa : (1#1 ++ unpackMantissa b).toNat = 2 ^ 52 + (unpackMantissa b).toNat := by
      rw [BitVec.toNat_append, Nat.shiftLeft_eq, Nat.or_comm, show (1#1).toNat = 1 from rfl,
        Nat.one_mul, Nat.or_two_pow_eq_add_of_lt (unpackMantissa b).isLt, Nat.add_comm]
    rw [amount, hmantissa]
    rfl

variable {x : Float}

theorem toNat_unpackExponent :
    (@unpackExponent .binary64 x.toModel.toBits.toBitVec).toNat =
      x.toBits.toNat / pow2 52 % pow2 11 := by
  rw [unpackExponent_def, BitVec.extractLsb'_toNat, Nat.shiftRight_eq_div_pow]
  rfl

theorem toNat_unpackMantissa :
    (@unpackMantissa .binary64 x.toModel.toBits.toBitVec).toNat =
      x.toBits.toNat % pow2 52 := by
  rw [unpackMantissa_def, BitVec.extractLsb'_toNat, Nat.shiftRight_zero]
  rfl

/-- The parts that are read from the bits of a finite float are those of its magnitude. -/
theorem ofBits_of_isFinite (hx : x.isFinite = true) :
    ∃ negative mantissa exponent lowerIsNear,
      Parts.ofBits x.toBits.toNat = .finite negative mantissa exponent lowerIsNear ∧
        magnitude x = mantissa * 2 ^ exponent ∧ IsMantissa mantissa lowerIsNear := by
  obtain ⟨hlast, hamount⟩ := amount_unpack (b := x.toModel.toBits.toBitVec) hx
  rw [toNat_unpackExponent] at hlast hamount
  rw [toNat_unpackMantissa] at hamount
  have hfraction : x.toBits.toNat % pow2 52 < 2 ^ 52 := Nat.mod_lt _ (pow2_pos 52)
  unfold Parts.ofBits
  dsimp only
  rw [if_neg hlast]
  split at hamount
  · rename_i hzero
    rw [if_pos hzero]
    exact ⟨_, _, _, _, rfl, hamount, by omega, nofun⟩
  · rename_i hzero
    rw [if_neg hzero]
    refine ⟨_, _, _, _, rfl, hamount, ?_, ?_⟩
    · show pow2 52 + _ < _
      rw [show pow2 52 = 2 ^ 52 from rfl] at hfraction ⊢
      omega
    · intro hnear
      rw [Bool.and_eq_true, decide_eq_true_eq] at hnear
      rw [hnear.1]
      rfl

end

end Scripting.Binary64
