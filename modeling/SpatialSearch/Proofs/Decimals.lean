import SpatialSearch.Proofs.Binary64Laws
import SpatialSearch.Decimal.Shortest

/-!
# Decimals read back

Reading a decimal is rounding its value: the integer arithmetic of the reader computes the same
encoding as rounding a real number does, and the decimals that are recognised by their length
alone are zero or infinite by rounding as well. So decimals of one value are read alike. The
exact decimal of a value reads back as it, and the decimal that is written does because it is
either that one or was tried.
-/

namespace SpatialSearch

open Rounding

/-! ### Ratios of natural numbers -/

theorem scaleDown_ratio (base num den : ℕ) (e : ℤ) :
    ((scaleDown base num den e).1 : ℝ) / (scaleDown base num den e).2 =
      num / den / (base : ℝ) ^ e := by
  rw [scaleDown]
  split
  · rename_i h
    obtain ⟨n, rfl⟩ := Int.eq_ofNat_of_zero_le h
    simp only [Int.toNat_natCast, Nat.pow_eq, zpow_natCast]
    push_cast
    rw [div_div]
  · rename_i h
    obtain ⟨n, hn⟩ := Int.eq_ofNat_of_zero_le (by omega : 0 ≤ -e)
    obtain rfl : e = -n := by omega
    simp only [neg_neg, Int.toNat_natCast, Nat.pow_eq, zpow_neg, zpow_natCast]
    push_cast
    rw [div_inv_eq_mul, mul_div_right_comm]

theorem scaleDown_pos {base den : ℕ} (hbase : 0 < base) (hden : 0 < den) (num : ℕ) (e : ℤ) :
    0 < (scaleDown base num den e).2 := by
  rw [scaleDown]
  split
  · exact Nat.mul_pos hden (Nat.pow_pos hbase)
  · exact hden

/-- A quotient that is rounded by its remainder is rounded to nearest. -/
theorem roundHalfEven_eq {a b : ℕ} (hb : 0 < b) : roundHalfEven a b = toEven ((a : ℝ) / b) := by
  have hfloor : ⌊(a : ℝ) / b⌋₊ = a / b := Nat.floor_div_eq_div a b
  have hpos : (0 : ℝ) < b := by exact_mod_cast hb
  have hdiv : (a : ℝ) = b * (a / b : ℕ) + (a % b : ℕ) := by exact_mod_cast (Nat.div_add_mod a b).symm
  have hlt : (a : ℝ) / b < (a / b : ℕ) + 1 / 2 ↔ 2 * (a % b) < b := by
    rw [div_lt_iff₀ hpos, ← Nat.cast_lt (α := ℝ)]
    push_cast
    constructor <;> intro h <;> linarith
  have heq : (a : ℝ) / b = (a / b : ℕ) + 1 / 2 ↔ 2 * (a % b) = b := by
    rw [div_eq_iff hpos.ne', ← Nat.cast_inj (R := ℝ)]
    push_cast
    constructor <;> intro h <;> linarith
  rw [toEven, hfloor, roundHalfEven]
  simp only [hlt, heq]
  split_ifs <;> omega

namespace Binary64

/-- A positive ratio lies within a factor of two of the power that the lengths of its parts give. -/
theorem log2_ratio_bounds {num den : ℕ} (hnum : 0 < num) (hden : 0 < den) :
    (2 : ℝ) ^ ((num.log2 : ℤ) - den.log2 - 1) < num / den ∧
      (num : ℝ) / den < 2 ^ ((num.log2 : ℤ) - den.log2 + 1) := by
  have hden' : (0 : ℝ) < den := by exact_mod_cast hden
  have hlow : (2 : ℝ) ^ (num.log2 : ℤ) ≤ num := by exact_mod_cast Nat.log2_self_le hnum.ne'
  have hhigh : (num : ℝ) < 2 ^ ((num.log2 : ℤ) + 1) := by exact_mod_cast Nat.lt_log2_self
  have hlow' : (2 : ℝ) ^ (den.log2 : ℤ) ≤ den := by exact_mod_cast Nat.log2_self_le hden.ne'
  have hhigh' : (den : ℝ) < 2 ^ ((den.log2 : ℤ) + 1) := by exact_mod_cast Nat.lt_log2_self
  constructor
  · rw [lt_div_iff₀ hden']
    calc (2 : ℝ) ^ ((num.log2 : ℤ) - den.log2 - 1) * den
        < 2 ^ ((num.log2 : ℤ) - den.log2 - 1) * 2 ^ ((den.log2 : ℤ) + 1) := by gcongr
      _ = 2 ^ (num.log2 : ℤ) := by rw [← zpow_add₀ two_ne_zero]; congr 1; ring
      _ ≤ num := hlow
  · rw [div_lt_iff₀ hden']
    calc (num : ℝ) < 2 ^ ((num.log2 : ℤ) + 1) := hhigh
      _ = 2 ^ ((num.log2 : ℤ) - den.log2 + 1) * 2 ^ (den.log2 : ℤ) := by
        rw [← zpow_add₀ two_ne_zero]; congr 1; ring
      _ ≤ 2 ^ ((num.log2 : ℤ) - den.log2 + 1) * den := by gcongr

/-- The units of the last place are as many bits above the least ones as the magnitude has in
excess. -/
theorem unitExponent_eq {num den : ℕ} (hnum : 0 < num) (hden : 0 < den) :
    unitExponent num den = (excess (num / den * 2 ^ 1074) : ℤ) - 1074 := by
  set l : ℤ := (num.log2 : ℤ) - den.log2 with hl
  obtain ⟨hlow, hhigh⟩ := log2_ratio_bounds hnum hden
  rw [← hl] at hlow hhigh
  set v : ℝ := num / den with hv
  have hb := scaleDown_pos two_pos hden num l
  have hratio := scaleDown_ratio 2 num den l
  -- The quotient is at least one if the ratio reaches the power of two.
  have hreach : (scaleDown 2 num den l).2 ≤ (scaleDown 2 num den l).1 ↔ (2 : ℝ) ^ l ≤ v := by
    have hb' : (0 : ℝ) < (scaleDown 2 num den l).2 := by exact_mod_cast hb
    have hpow : (0 : ℝ) < 2 ^ l := zpow_pos two_pos l
    rw [← Nat.cast_le (α := ℝ), ← one_le_div hb', hratio, Nat.cast_ofNat, one_le_div hpow]
  obtain ⟨f, hf, hflow, hfhigh⟩ : ∃ f : ℤ, unitExponent num den = max (f - 52) (-1074) ∧
      (2 : ℝ) ^ f ≤ v ∧ v < 2 ^ (f + 1) := by
    rw [unitExponent]
    dsimp only
    by_cases h : (2 : ℝ) ^ l ≤ v
    · refine ⟨l, ?_, h, hhigh⟩
      rw [if_pos (hreach.mpr h)]
    · refine ⟨l - 1, ?_, hlow.le, ?_⟩
      · rw [if_neg (mt hreach.mp h)]
        congr 1
        ring
      · rw [sub_add_cancel]
        exact lt_of_not_ge h
  have hunits (i : ℤ) : (2 : ℝ) ^ i * 2 ^ 1074 = 2 ^ (i + 1074) := by
    rw [zpow_add₀ two_ne_zero]
    norm_cast
  have hx : 0 ≤ v * 2 ^ 1074 := by positivity
  have hxlow : (2 : ℝ) ^ (f + 1074) ≤ v * 2 ^ 1074 := by
    rw [← hunits]
    gcongr
  have hxhigh : v * 2 ^ 1074 < (2 : ℝ) ^ (f + 1 + 1074) := by
    rw [← hunits]
    gcongr
  rw [hf]
  rcases lt_or_ge (f + 1074) 52 with hsub | hnormal
  · have hle : (2 : ℝ) ^ (f + 1 + 1074) ≤ 2 ^ ((53 : ℕ) : ℤ) :=
      zpow_le_zpow_right₀ one_le_two (by omega)
    rw [excess_eq_zero hx (lt_of_lt_of_le hxhigh hle)]
    omega
  · obtain ⟨s, hs⟩ := Int.eq_ofNat_of_zero_le (sub_nonneg_of_le hnormal)
    have hexp : f + 1074 = (s + 52 : ℕ) := by omega
    have hexp' : f + 1 + 1074 = (s + 53 : ℕ) := by omega
    rw [hexp, zpow_natCast] at hxlow
    rw [hexp', zpow_natCast] at hxhigh
    rw [excess_eq hxlow hxhigh]
    omega

/-- The magnitude that is nearest to a ratio is the encoding of the ratio, or infinity. -/
theorem nearestMagnitude_eq (num : ℕ) {den : ℕ} (hden : 0 < den) :
    nearestMagnitude num den = min (encode (num / den * 2 ^ 1074)) top := by
  rw [nearestMagnitude]
  split
  · rename_i hzero
    rw [hzero, Nat.cast_zero, zero_div, zero_mul, encode_zero]
    rfl
  · rename_i hnum
    have hunit := unitExponent_eq (Nat.pos_of_ne_zero hnum) hden
    have hb := scaleDown_pos two_pos hden num (unitExponent num den)
    have hratio := scaleDown_ratio 2 num den (unitExponent num den)
    have hpow : (num : ℝ) / den / (2 : ℕ) ^ unitExponent num den =
        num / den * 2 ^ 1074 / 2 ^ excess (num / den * 2 ^ 1074) := by
      rw [hunit, Nat.cast_ofNat, zpow_sub₀ two_ne_zero, zpow_natCast, div_div_eq_mul_div]
      norm_cast
    dsimp only
    rw [roundHalfEven_eq hb, hratio, hpow, hunit, encode, significand, sub_add_cancel,
      Int.toNat_natCast]
    rfl

end Binary64

/-! ### Decimals -/

namespace Decimal

noncomputable def value (d : Decimal) : ℝ := d.digits * 10 ^ d.scale

theorem value_nonneg (d : Decimal) : 0 ≤ d.value := by
  rw [value]
  positivity

def length (d : Decimal) : ℕ := (Nat.toDigits 10 d.digits).length

theorem length_pos (d : Decimal) : 0 < d.length := Nat.length_toDigits_pos

theorem digits_lt (d : Decimal) : d.digits < 10 ^ d.length :=
  (Nat.length_toDigits_le_iff (by decide) d.length_pos).mp (le_refl _)

theorem le_digits {d : Decimal} (h : d.digits ≠ 0) : 10 ^ (d.length - 1) ≤ d.digits := by
  by_cases hone : d.length = 1
  · rw [hone]
    exact Nat.pos_of_ne_zero h
  · have hpos := d.length_pos
    have hshort := Nat.length_toDigits_le_iff (b := 10) (n := d.digits) (k := d.length - 1)
      (by decide) (by omega)
    rw [← Nat.not_lt, ← hshort]
    exact fun hle => by
      change d.length ≤ d.length - 1 at hle
      omega

theorem value_lt (d : Decimal) : d.value < 10 ^ (d.scale + d.length) := by
  have hlt : (d.digits : ℝ) < 10 ^ (d.length : ℤ) := by exact_mod_cast d.digits_lt
  rw [value, add_comm, zpow_add₀ (by norm_num)]
  gcongr

theorem le_value {d : Decimal} (h : d.digits ≠ 0) : 10 ^ (d.scale + d.length - 1) ≤ d.value := by
  have hle : (10 : ℝ) ^ (d.length - 1) ≤ d.digits := by exact_mod_cast le_digits h
  have hexp : d.scale + d.length - 1 = (d.length - 1 : ℕ) + d.scale := by
    have := d.length_pos
    omega
  rw [value, hexp, zpow_add₀ (by norm_num), zpow_natCast]
  gcongr

end Decimal

namespace Binary64

/-- What is less than half of the least positive value is encoded as zero. -/
theorem encode_eq_zero {x : ℝ} (hx : 0 ≤ x) (h : x < 1 / 2) : encode x = 0 := by
  have hfloor : ⌊x⌋₊ = 0 := Nat.floor_eq_zero.mpr (by linarith)
  rw [encode, excess_eq_zero hx (by linarith), significand, excess_eq_zero hx (by linarith),
    pow_zero, div_one, toEven, hfloor, if_pos (by rw [Nat.cast_zero]; linarith), Nat.zero_mul]

theorem tiny_lt : (10 : ℝ) ^ (-331 : ℤ) * 2 ^ 1074 < 1 / 2 := by
  have hnat : 2 ^ 1074 * 2 < 10 ^ 331 := by decide +kernel
  have hreal : ((2 ^ 1074 * 2 : ℕ) : ℝ) < (10 ^ 331 : ℕ) := Nat.cast_lt.mpr hnat
  simp only [Nat.cast_mul, Nat.cast_pow, Nat.cast_ofNat] at hreal
  rw [zpow_neg, zpow_ofNat, inv_mul_lt_iff₀ (by positivity), mul_one_div, lt_div_iff₀ two_pos]
  exact hreal

theorem le_vast : (2 : ℝ) ^ 2098 ≤ 10 ^ (310 : ℤ) * 2 ^ 1074 := by
  have h : 2 ^ 1024 ≤ 10 ^ 310 := by decide +kernel
  have h' : (2 : ℝ) ^ 1024 ≤ 10 ^ (310 : ℤ) := by exact_mod_cast h
  calc (2 : ℝ) ^ 2098 = 2 ^ 1024 * 2 ^ 1074 := by rw [← pow_add]
    _ ≤ 10 ^ (310 : ℤ) * 2 ^ 1074 := by gcongr

/-- Reading a decimal rounds its value to nearest, at every length. -/
theorem ofDecimal_eq (negative : Bool) (d : Decimal) :
    ofDecimal negative d =
      ofMagnitude negative (min (encode (d.value * 2 ^ 1074)) top) := by
  have hnonneg : 0 ≤ d.value * 2 ^ 1074 := mul_nonneg d.value_nonneg (by positivity)
  rw [ofDecimal]
  change (if d.digits = 0 || d.scale + (d.length : ℤ) < -330 then _
    else if 310 < d.scale + (d.length : ℤ) then _ else _) = _
  split
  · rename_i h
    rcases Bool.or_eq_true_iff.mp h with hzero | hsmall
    · rw [Decimal.value, of_decide_eq_true hzero, Nat.cast_zero, zero_mul, zero_mul, encode_zero]
      rfl
    · have hle : d.value < 10 ^ (-331 : ℤ) := lt_of_lt_of_le d.value_lt
        (zpow_le_zpow_right₀ (by norm_num) (by have := of_decide_eq_true hsmall; omega))
      have hhalf : d.value * 2 ^ 1074 < 1 / 2 := by
        calc d.value * 2 ^ 1074 < 10 ^ (-331 : ℤ) * 2 ^ 1074 := by gcongr
          _ < 1 / 2 := tiny_lt
      rw [encode_eq_zero hnonneg hhalf]
      rfl
  · rename_i hor
    have hne : d.digits ≠ 0 := fun hzero => hor (by rw [hzero]; rfl)
    split
    · rename_i hlarge
      have hle : (10 : ℝ) ^ (310 : ℤ) ≤ d.value := le_trans
        (zpow_le_zpow_right₀ (by norm_num) (by omega)) (Decimal.le_value hne)
      have htop : top ≤ encode (d.value * 2 ^ 1074) := by
        refine top_le_encode ?_
        calc (2 : ℝ) ^ 2098 ≤ 10 ^ (310 : ℤ) * 2 ^ 1074 := le_vast
          _ ≤ d.value * 2 ^ 1074 := by gcongr
      rw [Nat.min_eq_right htop]
      rfl
    · have hratio := scaleDown_ratio 10 d.digits 1 (-d.scale)
      have hvalue : ((scaleDown 10 d.digits 1 (-d.scale)).1 : ℝ) /
          (scaleDown 10 d.digits 1 (-d.scale)).2 = d.value := by
        rw [hratio, Nat.cast_one, div_one, zpow_neg, div_inv_eq_mul, Decimal.value, Nat.cast_ofNat]
      dsimp only
      rw [nearestMagnitude_eq _ (scaleDown_pos (by decide) one_pos _ _), hvalue]

/-- Decimals of one value are read alike. -/
theorem ofDecimal_congr (negative : Bool) {d e : Decimal} (h : d.value = e.value) :
    ofDecimal negative d = ofDecimal negative e := by
  rw [ofDecimal_eq, ofDecimal_eq, h]

/-! ### Writing and reading back -/

variable {x : Binary64}

theorem ofMagnitude_magnitude (x : Binary64) :
    ofMagnitude x.isNegative x.magnitude.toNat = x := by
  have hbits := toNat_bits x
  have hlt := x.bits.toNat_lt
  have heq : ((if x.isNegative then signBit else 0) + UInt64.ofNat x.magnitude.toNat).toNat =
      x.bits.toNat := by
    rw [UInt64.ofNat_toNat, UInt64.toNat_add, isNegative]
    by_cases h : signBit ≤ x.bits
    · rw [if_pos h] at hbits
      simp only [h, decide_true, if_true, show signBit.toNat = 2 ^ 63 from rfl]
      omega
    · rw [if_neg h] at hbits
      simp only [h, decide_false, Bool.false_eq_true, if_false, UInt64.toNat_zero]
      omega
  exact congrArg Binary64.mk (UInt64.toNat_inj.mp heq)

theorem magnitude_lt_top (hx : x.isFinite = true) : x.magnitude.toNat < top :=
  UInt64.lt_iff_toNat_lt.mp (of_decide_eq_true hx)

/-- A finite value is encoded by its significand and exponent as they stand. -/
theorem decompose_spec (hx : x.isFinite = true) : ∃ m e : ℕ, x.decompose = (m, (e : ℤ) - 1074) ∧
    Canonical m e ∧ e ≤ 2045 ∧ e * 2 ^ 52 + m = x.magnitude.toNat := by
  have hlt := magnitude_lt_top hx
  rw [top] at hlt
  rw [decompose, normalUnit]
  split
  · exact ⟨_, 0, rfl, ⟨by omega, fun h => absurd h (Nat.lt_irrefl 0)⟩, by omega, by omega⟩
  · refine ⟨_, x.magnitude.toNat / 4503599627370496 - 1, Prod.ext rfl ?_, ⟨?_, ?_⟩, ?_, ?_⟩
    · dsimp only
      omega
    · omega
    · intro _
      omega
    · omega
    · omega

theorem exactDecimal_value {m e : ℕ} (h : x.decompose = (m, (e : ℤ) - 1074)) :
    x.exactDecimal.value * 2 ^ 1074 = m * 2 ^ e := by
  have hshift : (2 : ℝ) ^ ((e : ℤ) - 1074) * 2 ^ 1074 = 2 ^ e := by
    rw [zpow_sub₀ two_ne_zero, zpow_natCast]
    norm_cast
    rw [div_mul_cancel₀ _ (by positivity)]
  rw [← hshift, ← mul_assoc]
  congr 1
  rw [exactDecimal, h]
  dsimp only
  split
  · rename_i hpos
    obtain ⟨n, hn⟩ := Int.eq_ofNat_of_zero_le hpos
    rw [Decimal.value, hn]
    simp
  · rename_i hneg
    obtain ⟨n, hn⟩ := Int.eq_ofNat_of_zero_le (by omega : 0 ≤ -((e : ℤ) - 1074))
    have hexp : (e : ℤ) - 1074 = -n := by omega
    rw [Decimal.value, hexp]
    simp only [neg_neg, Int.toNat_natCast, Nat.pow_eq, zpow_neg, zpow_natCast, Nat.cast_mul,
      Nat.cast_pow, Nat.cast_ofNat]
    rw [show (10 : ℝ) = 5 * 2 by norm_num, mul_pow]
    field_simp

theorem ofDecimal_exactDecimal (hx : x.isFinite = true) :
    ofDecimal x.isNegative x.exactDecimal = x := by
  obtain ⟨m, e, hdecompose, hcanonical, -, hcode⟩ := decompose_spec hx
  have hlt := magnitude_lt_top hx
  rw [ofDecimal_eq, exactDecimal_value hdecompose, hcanonical.encode, hcode,
    Nat.min_eq_left hlt.le, ofMagnitude_magnitude]

/-- The decimal that is written reads back. -/
theorem ofDecimal_shortestDecimal (tie : Tie) (hx : x.isFinite = true) :
    ofDecimal x.isNegative (x.shortestDecimal tie) = x := by
  rw [shortestDecimal]
  split
  · rename_i hzero
    have hmagnitude := ofMagnitude_magnitude x
    rw [hzero] at hmagnitude
    exact hmagnitude
  · cases hfind : (shortDecimals tie x).find? fun d => ofDecimal x.isNegative d = x with
    | none => exact ofDecimal_exactDecimal hx
    | some d =>
      have hreads := List.find?_some hfind
      exact of_decide_eq_true hreads

end Binary64

end SpatialSearch
