import SpatialSearch.Proofs.Congruence

/-!
# Counts are exact

A natural number below 2^53 has an encoding of its own. Sums, differences and products of such
numbers are exact as long as they stay below 2^53, whatever is rounded elsewhere.
-/

namespace SpatialSearch

namespace Rounding

open Float.Model Float.Model.UnpackedFloat

variable {b : BitVec 64}

/-- A significand and an exponent are found again in the key that they encode. -/
theorem units_of_key {m f : ℕ} (h : Canonical m f) (hm : 0 < m) (hf : f ≤ 2045)
    (hkey : key b = (f * 2 ^ 52 + m : ℕ)) : units b = m * 2 ^ f := by
  have hmagnitude : magnitude b = f * 2 ^ 52 + m := by
    rw [magnitude_eq_natAbs, hkey, Int.natAbs_natCast]
  have hsign : signOf b = .positive := by
    rw [key, hmagnitude] at hkey
    cases hs : signOf b with
    | positive => rfl
    | negative =>
      rw [hs, Sign.apply] at hkey
      omega
  have hlt := h.lt
  obtain ⟨n, g, hn, hunpack, -, hcanonical, hcode⟩ :=
    unpack_finite (b := b) (by omega) (by rw [top]; omega)
  have hlt' := hcanonical.lt
  -- The exponents agree since both significands have their leading bit in the same place.
  have hexp : g = f := by
    have hlead := h.leading
    have hlead' := hcanonical.leading
    omega
  obtain rfl : n = m := by omega
  rw [units, hunpack, hsign, value, scale_sub, signed, hexp]

/-- A number below 2^53 as a significand with its leading bit in place. -/
theorem exists_canonical {n : ℕ} (hpos : 0 < n) (hn : n < 2 ^ 53) :
    ∃ m f : ℕ, Canonical m f ∧ 0 < m ∧ f ≤ 2045 ∧ (n : ℝ) * 2 ^ 1074 = m * 2 ^ f := by
  have hlog : n.log2 ≤ 52 := Nat.le_of_lt_succ ((Nat.log2_lt hpos.ne').mpr hn)
  obtain ⟨k, hk⟩ := Nat.exists_eq_add_of_le hlog
  have hpow : (2 : ℕ) ^ n.log2 * 2 ^ k = 2 ^ 52 := by rw [← pow_add, ← hk]
  have hlow : 2 ^ 52 ≤ n * 2 ^ k := by
    rw [← hpow]
    exact Nat.mul_le_mul_right _ (Nat.log2_self_le hpos.ne')
  have hhigh : n * 2 ^ k < 2 ^ 53 := by
    calc n * 2 ^ k < 2 ^ (n.log2 + 1) * 2 ^ k :=
          Nat.mul_lt_mul_of_pos_right Nat.lt_log2_self (Nat.two_pow_pos k)
      _ = 2 ^ 53 := by rw [pow_succ, mul_right_comm, hpow, ← pow_succ]
  refine ⟨n * 2 ^ k, 1074 - k, ⟨hhigh, fun _ => hlow⟩, by omega, by omega, ?_⟩
  have hsplit : (2 : ℝ) ^ 1074 = 2 ^ k * 2 ^ (1074 - k) := by
    rw [← pow_add]
    congr 1
    omega
  rw [hsplit]
  push_cast
  ring

/-- A number below 2^53 is found again in its rounding. -/
theorem units_of_nearest {n : ℕ} (hn : n < 2 ^ 53) (h : key b = nearest (n * 2 ^ 1074)) :
    units b = n * 2 ^ 1074 := by
  by_cases hzero : n = 0
  · rw [hzero, Nat.cast_zero, zero_mul, nearest, if_pos le_rfl, encode_zero] at h
    rw [hzero, Nat.cast_zero, zero_mul]
    exact units_eq_zero (by rw [magnitude_eq_natAbs, h]; rfl)
  · obtain ⟨m, f, hcanonical, hm, hf, heq⟩ := exists_canonical (Nat.pos_of_ne_zero hzero) hn
    have hlt := hcanonical.lt
    have hcode : min (encode (n * 2 ^ 1074)) top = f * 2 ^ 52 + m := by
      rw [heq, hcanonical.encode, top]
      omega
    rw [nearest, if_pos (by positivity), hcode] at h
    rw [heq]
    exact units_of_key hcanonical hm hf h

/-- The product of two finite values is the exact product, rounded. -/
theorem mul_rounds {u w : UnpackedFloat} (hu : Operand u) (hw : Operand w)
    (hu' : ∀ s, u ≠ .infinity s) (hw' : ∀ s, w ≠ .infinity s) :
    Rounds (UnpackedFloat.mul Format.binary64 u w) (value u * value w / 2 ^ 1074) := by
  cases u with
  | notANumber => exact hu.elim
  | infinity s => exact absurd rfl (hu' s)
  | zero s =>
    rw [value, zero_mul, zero_div]
    exact zero_mul_rounds s hw hw'
  | finite s m e hm =>
    cases w with
    | notANumber => exact hw.elim
    | infinity t => exact absurd rfl (hw' t)
    | zero t =>
      rw [mul_comm, value.eq_3, mul_zero, zero_div]
      exact zero_mul_rounds t hu hu'
    | finite t n f hn => exact finite_mul_rounds hu hw

theorem ne_infinity {u : UnpackedFloat} (h : |value u| < huge) (s : Sign) : u ≠ .infinity s := by
  rintro rfl
  rw [value, abs_signed s huge_nonneg] at h
  exact lt_irrefl _ h

theorem abs_lt_huge {n : ℕ} (hn : n < 2 ^ 53) : |(n : ℝ) * 2 ^ 1074| < huge := by
  have hlt : (n : ℝ) < 2 ^ 53 := by exact_mod_cast hn
  rw [abs_of_nonneg (by positivity), huge]
  calc (n : ℝ) * 2 ^ 1074 < 2 ^ 53 * 2 ^ 1074 := by gcongr
    _ = 2 ^ 1127 := by rw [← pow_add]
    _ ≤ 2 ^ 6000 := pow_le_pow_right₀ one_le_two (by decide)

/-- A number below 2^53 is unpacked from its rounding. -/
theorem unpack_of_rounds {u : UnpackedFloat} {n : ℕ} (hn : n < 2 ^ 53)
    (h : Rounds u (n * 2 ^ 1074)) :
    Operand (.unpack Format.binary64 (UnpackedFloat.pack Format.binary64 u)) ∧
      value (.unpack Format.binary64 (UnpackedFloat.pack Format.binary64 u)) = n * 2 ^ 1074 := by
  obtain ⟨hmagnitude, hkey⟩ := h.key
  exact ⟨unpack_operand hmagnitude, units_of_nearest hn hkey⟩

/-- A number below 2^53 times one. -/
theorem count_mul_one_rounds {u one : UnpackedFloat} {n : ℕ} (hn : n < 2 ^ 53) (hu : Operand u)
    (hvalue : value u = n * 2 ^ 1074) (hone : Operand one) (hunit : value one = 2 ^ 1074) :
    Rounds (UnpackedFloat.mul Format.binary64 u one) (n * 2 ^ 1074) := by
  have hlt : |value one| < huge := by
    have hone' := abs_lt_huge (n := 1) (by decide)
    rw [Nat.cast_one, one_mul] at hone'
    rwa [hunit]
  have hrounds := mul_rounds hu hone (ne_infinity (by rw [hvalue]; exact abs_lt_huge hn))
    (ne_infinity hlt)
  rwa [hvalue, hunit, mul_div_cancel_right₀ _ (by positivity)] at hrounds

theorem scale_zero : scale 0 = 2 ^ 1074 := by
  rw [← scale_sub, Nat.cast_ofNat, sub_self]

/-- The scalar of a large number is the number, rounded. -/
theorem ofScientific_rounds {n : ℕ} (hpos : 0 < n) :
    Rounds (UnpackedFloat.ofScientific Format.binary64 n 0) (n * 2 ^ 1074) := by
  have hround : UnpackedFloat.ofScientific Format.binary64 n 0 =
      roundWithAccuracy Format.binary64 .positive (n <<< 53 * 1) (-53) .exact := by
    have hbig : ¬ (0 : ℤ) > 2 ^ 11 := by decide
    have hsmall : ¬ (0 : ℤ) < -(2 ^ 11 + n.log2) := by omega
    rw [UnpackedFloat.ofScientific]
    exact (dif_neg hpos.ne').trans ((if_neg hbig).trans ((if_neg hsmall).trans (if_pos le_rfl)))
  have hshift : n <<< 53 * 1 = n * 2 ^ 53 := by rw [mul_one, Nat.shiftLeft_eq]
  have hfine : (-53 : ℤ) ≤ Format.binary64.targetExponent (totalExponent (n * 2 ^ 53) (-53)) := by
    rw [targetExponent_eq, log2_mul_two_pow hpos]
    omega
  have hvalue : ((n * 2 ^ 53 : ℕ) : ℝ) * scale (-53) = n * 2 ^ 1074 := by
    have hscale := scale_add (-53) 53
    rw [show (-53 : ℤ) + (53 : ℕ) = 0 from rfl, scale_zero] at hscale
    rw [hscale]
    push_cast
    ring
  rw [hround, hshift, ← hvalue]
  exact ((approximates_exact (by positivity) hfine).encodes .positive).rounds
    (mul_nonneg (Nat.cast_nonneg _) (scale_pos _).le)

end Rounding

namespace Binary64

open Rounding

theorem units_one : (⟨0x3ff0000000000000⟩ : Binary64).units = 2 ^ 1074 := by
  have hcanonical : Canonical (2 ^ 52) 1022 := ⟨by decide, fun _ => le_rfl⟩
  rw [units, units_of_key hcanonical (by decide) (by decide) (by decide), Nat.cast_pow,
    Nat.cast_ofNat, ← pow_add]

/-- The scalar of a number is the number, rounded. -/
theorem ofCount_spec (n : ℕ) :
    (ofCount n).isNaN = false ∧ (ofCount n).key = nearest (n * 2 ^ 1074) := by
  change (ofFloat (Float.ofScientific n false 0)).isNaN = false ∧
    (ofFloat (Float.ofScientific n false 0)).key = _
  rw [Float.ofScientific]
  split
  · -- A number below 2^53 is converted exactly and multiplied by one.
    rename_i h
    have hcast : (n.toUInt64.toNat : ℝ) = n :=
      congrArg Nat.cast (Nat.mod_eq_of_lt (by omega) : n.toUInt64.toNat = n)
    have hrounds := normalize_rounds n.toUInt64.toNat 0 .positive
    rw [Int.cast_natCast, hcast, scale_zero] at hrounds
    obtain ⟨hoperand, hvalue⟩ := unpack_of_rounds h.1 hrounds
    have hone : (⟨0x3ff0000000000000⟩ : Binary64).isNaN = false := rfl
    have hunit := (value_toFloat hone).trans units_one
    exact ofFloat_rounds (count_mul_one_rounds h.1 hoperand hvalue (operand_toFloat hone) hunit)
  · rename_i h
    exact ofFloat_rounds (ofScientific_rounds (by omega))

/-- A count of 64 bits has a finite scalar. -/
theorem ofCount_ne_infinityOf {n : ℕ} (hn : n < UInt64.size)
    (s : Float.Model.UnpackedFloat.Sign) : ofCount n ≠ infinityOf s := by
  have hcanonical : Canonical (2 ^ 52) 1086 := ⟨by decide, fun _ => le_rfl⟩
  have hcast : (n : ℝ) ≤ 2 ^ 64 := by exact_mod_cast hn.le
  have hle : (n : ℝ) * 2 ^ 1074 ≤ (2 ^ 52 : ℕ) * 2 ^ 1086 := by
    calc (n : ℝ) * 2 ^ 1074 ≤ 2 ^ 64 * 2 ^ 1074 := by gcongr
      _ = 2 ^ 1138 := by rw [← pow_add]
      _ = (2 ^ 52 : ℕ) * 2 ^ 1086 := by rw [Nat.cast_pow, Nat.cast_ofNat, ← pow_add]
  have hkey := nearest_mono hle
  rw [← (ofCount_spec n).2, nearest, if_pos (by positivity), hcanonical.encode] at hkey
  have hnonneg : 0 ≤ (ofCount n).key := by
    rw [(ofCount_spec n).2]
    exact nearest_nonneg (by positivity)
  intro hinf
  rw [hinf] at hkey hnonneg
  cases s with
  | positive => exact absurd hkey (by decide)
  | negative => exact absurd hnonneg (by decide)

theorem units_half : half.units = 2 ^ 1073 := by
  have hcanonical : Canonical (2 ^ 52) 1021 := ⟨by decide, fun _ => le_rfl⟩
  rw [units, units_of_key hcanonical (by decide) (by decide) (by decide), Nat.cast_pow,
    Nat.cast_ofNat, ← pow_add]

theorem mul_spec {a b : Binary64} (ha : a.isNaN = false) (hb : b.isNaN = false)
    (hfinite : |a.units| < huge) (hfinite' : |b.units| < huge) :
    (a * b).isNaN = false ∧ (a * b).key = nearest (a.units * b.units / 2 ^ 1074) := by
  rw [← value_toFloat ha] at hfinite ⊢
  rw [← value_toFloat hb] at hfinite' ⊢
  rw [mul_eq ha hb]
  exact ofFloat_rounds (mul_rounds (operand_toFloat ha) (operand_toFloat hb) (ne_infinity hfinite)
    (ne_infinity hfinite'))

/-- A value is a natural number below 2^53. -/
structure IsCount (x : Binary64) (n : ℕ) : Prop where
  number : x.isNaN = false
  units : x.units = n * 2 ^ 1074
  small : n < 2 ^ 53

namespace IsCount

variable {x y : Binary64} {m n : ℕ}

theorem of_nearest (h : x.isNaN = false ∧ x.key = nearest (n * 2 ^ 1074)) (hn : n < 2 ^ 53) :
    IsCount x n :=
  ⟨h.1, units_of_nearest hn h.2, hn⟩

theorem of_ofCount (hn : n < 2 ^ 53) : IsCount (ofCount n) n := of_nearest (ofCount_spec n) hn

theorem zero : IsCount 0 0 :=
  ⟨rfl, by rw [Nat.cast_zero, zero_mul]; exact units_eq_zero (by decide), by decide⟩

theorem nearest (h : IsCount x n) : x.isNaN = false ∧ x.key = nearest (n * 2 ^ 1074) := by
  rw [← h.units]
  exact ⟨h.number, key_eq_nearest ((isNaN_eq_false_iff x).mp h.number)⟩

theorem abs_lt_huge (h : IsCount x n) : |x.units| < huge := by
  rw [h.units]
  exact Rounding.abs_lt_huge h.small

theorem ne_infinityOf (h : IsCount x n) (s : Float.Model.UnpackedFloat.Sign) :
    x ≠ infinityOf s := by
  rintro rfl
  have hlt := h.abs_lt_huge
  rw [← value_toFloat h.number] at hlt
  exact Rounding.ne_infinity hlt s (unpack_infinityOf s)

theorem le (hx : IsCount x m) (hy : IsCount y n) (h : m ≤ n) : x ≤ y :=
  le_of_nearest hx.nearest hy.nearest (by gcongr)

theorem lt (hx : IsCount x m) (hy : IsCount y n) (h : m < n) : x < y := by
  refine Scalar.lt_of_not_le ?_ ?_ fun hle => ?_
  · rw [isNaN_eq, hy.number]
  · rw [isNaN_eq, hx.number]
  · have hunits := units_le hle
    rw [hx.units, hy.units] at hunits
    have hcast : (n : ℝ) ≤ m := le_of_mul_le_mul_right hunits (by positivity)
    exact absurd (Nat.cast_le.mp hcast) (Nat.not_le_of_lt h)

theorem add (hx : IsCount x m) (hy : IsCount y n) (h : m + n < 2 ^ 53) :
    IsCount (x + y) (m + n) := by
  have hsum := add_of_nonneg (zero.le hx (Nat.zero_le m)) (zero.le hy (Nat.zero_le n))
  rw [hx.units, hy.units, ← add_mul, ← Nat.cast_add] at hsum
  exact of_nearest hsum h

theorem sub (hx : IsCount x m) (hy : IsCount y n) (h : n ≤ m) : IsCount (x - y) (m - n) := by
  rcases sub_spec hx.number hy.number with ⟨s, hinf, -⟩ | hdiff
  · exact absurd hinf (hx.ne_infinityOf s)
  · rw [hx.units, hy.units, ← sub_mul, ← Nat.cast_sub h] at hdiff
    exact of_nearest hdiff ((Nat.sub_le m n).trans_lt hx.small)

theorem mul (hx : IsCount x m) (hy : IsCount y n) (h : m * n < 2 ^ 53) :
    IsCount (x * y) (m * n) := by
  have hproduct := mul_spec hx.number hy.number hx.abs_lt_huge hy.abs_lt_huge
  have hvalue : x.units * y.units / 2 ^ 1074 = (m * n : ℕ) * 2 ^ 1074 := by
    rw [hx.units, hy.units, ← mul_assoc, mul_div_cancel_right₀ _ (by positivity), mul_right_comm,
      Nat.cast_mul]
  rw [hvalue] at hproduct
  exact of_nearest hproduct h

/-- Half of an even count is exact. -/
theorem half_mul (hx : IsCount x (n + n)) : IsCount (half * x) n := by
  have hsmall := hx.small
  have hfinite : |half.units| < huge := by
    rw [units_half, abs_of_nonneg (by positivity), huge]
    exact pow_lt_pow_right₀ one_lt_two (by decide)
  have hproduct := mul_spec rfl hx.number hfinite hx.abs_lt_huge
  have hvalue : half.units * x.units / 2 ^ 1074 = n * 2 ^ 1074 := by
    rw [units_half, hx.units, ← mul_assoc, mul_div_cancel_right₀ _ (by positivity),
      show (2 : ℝ) ^ 1074 = 2 ^ 1073 * 2 from pow_succ 2 1073]
    generalize (2 : ℝ) ^ 1073 = unit
    push_cast
    ring
  rw [hvalue] at hproduct
  exact of_nearest hproduct (by omega)

/-- What is nothing makes nothing of every count. -/
theorem mul_ofCount (hx : IsCount x 0) (hn : n < UInt64.size) :
    IsCount (x * Scalar.ofCount n) 0 := by
  have hzero : x.key = 0 := by
    rw [hx.nearest.2, Nat.cast_zero, zero_mul, Rounding.nearest, if_pos le_rfl, encode_zero]
    rfl
  have hproduct := zero_mul_spec hx.number hzero (ofCount_spec n).1 (ofCount_ne_infinityOf hn)
  refine of_nearest ?_ hx.small
  rwa [Nat.cast_zero, zero_mul]

theorem sub_self (h : Scalar.Finite x) : IsCount (x - x) 0 := by
  have hx : x.isNaN = false := (isNaN_eq x).symm.trans h.isNaN
  have hnum : (x - x).isNaN = false := by
    refine Bool.eq_false_iff.mpr fun hnan => ?_
    obtain ⟨-, rfl | rfl⟩ := Binary64.isNaN_sub hx hx hnan
    · exact Scalar.lt_irrefl _ h.2
    · exact Scalar.lt_irrefl _ h.1
  have hdiff := key_sub hx hx hnum
  refine of_nearest ⟨hnum, ?_⟩ (by decide)
  rw [hdiff, Nat.cast_zero, zero_mul, sub_eq_zero_of_eq rfl]

/-- No number is below zero. -/
theorem greater_zero (hx : IsCount x n) : Scalar.greater x 0 = x := by
  rw [Scalar.greater, isNaN_eq, hx.number, if_neg Bool.false_ne_true,
    if_neg fun hlt => Scalar.not_le_of_lt hlt (zero.le hx (Nat.zero_le n))]

end IsCount

end Binary64

end SpatialSearch
