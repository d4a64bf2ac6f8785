import SpatialSearch.Proofs.Rounding

/-!
# Arithmetic is rounded

Sums, differences, squares and square roots of floating-point values are the exact results,
rounded to nearest. An infinity counts as a magnitude so large that neither a number nor a
square root brings it back into the range of numbers; only the sum of opposite infinities
has no value.
-/

namespace SpatialSearch

namespace Rounding

open Float.Model Float.Model.UnpackedFloat

/-- The units of the least positive value in a floating-point value. -/
noncomputable def value : UnpackedFloat → ℝ
  | .infinity s => signed s huge
  | .notANumber => 0
  | .zero _ => 0
  | .finite s m e _ => signed s (m * scale e)

/-- A value as it is unpacked from an encoding, other than a NaN. -/
def Operand : UnpackedFloat → Prop
  | .infinity _ => True
  | .notANumber => False
  | .zero _ => True
  | .finite _ m e _ => ∃ f : ℕ, f ≤ 2045 ∧ e = f - 1074 ∧ Canonical m f

theorem signed_neg (s : Sign) (x : ℝ) : signed (-s) x = -signed s x := by
  cases s with
  | positive => rfl
  | negative => exact (neg_neg x).symm

theorem value_neg (u : UnpackedFloat) : value u.neg = -value u := by
  cases u with
  | infinity s => exact signed_neg s huge
  | notANumber => exact neg_zero.symm
  | zero s => exact neg_zero.symm
  | finite s m e hm => exact signed_neg s _

theorem Operand.neg {u : UnpackedFloat} (h : Operand u) : Operand u.neg := by
  cases u <;> exact h

theorem Operand.isNaN {u : UnpackedFloat} (h : Operand u) : u.isNaN = false := by
  cases u with
  | notANumber => exact h.elim
  | _ => rfl

/-- Whatever is unpacked is its own rounding. -/
theorem Operand.rounds {u : UnpackedFloat} (h : Operand u) : Rounds u (value u) := by
  cases u with
  | infinity s =>
    exact rounds_infinity s two_pow_le_huge
  | notANumber => exact h.elim
  | zero s => exact rounds_zero s
  | finite s m e hm =>
    obtain ⟨f, -, rfl, hcanonical⟩ := h
    have hcode := hcanonical.encodes s hm
    rw [← hcanonical.encode] at hcode
    rw [value, scale_sub]
    exact hcode.rounds (by positivity)

theorem abs_signed (s : Sign) {x : ℝ} (h : 0 ≤ x) : |signed s x| = x := by
  cases s with
  | positive => exact abs_of_nonneg h
  | negative => exact (abs_neg x).trans (abs_of_nonneg h)

theorem signed_sq (s : Sign) (x : ℝ) : signed s x ^ 2 = x ^ 2 := by
  cases s with
  | positive => rfl
  | negative => exact neg_sq x

/-- No number exceeds the least magnitude that is infinite. -/
theorem abs_value_le {s : Sign} {m : ℕ} {e : ℤ} {hm : 0 < m} (h : Operand (.finite s m e hm)) :
    |value (.finite s m e hm)| ≤ 2 ^ 2098 := by
  obtain ⟨f, hf, rfl, hcanonical⟩ := h
  have hlt : (m : ℝ) ≤ 2 ^ 53 := by exact_mod_cast hcanonical.lt.le
  rw [value, scale_sub, abs_signed s (by positivity)]
  calc (m : ℝ) * 2 ^ f ≤ 2 ^ 53 * 2 ^ f := by gcongr
    _ = 2 ^ (53 + f) := (pow_add 2 53 f).symm
    _ ≤ 2 ^ 2098 := pow_le_pow_right₀ one_le_two (by omega)

theorem signed_div (s : Sign) (x y : ℝ) : signed s (x / y) = signed s x / y := by
  cases s with
  | positive => rfl
  | negative => exact (neg_div y x).symm

theorem signed_add (s : Sign) (x y : ℝ) : signed s (x + y) = signed s x + signed s y := by
  cases s with
  | positive => rfl
  | negative => exact neg_add x y

theorem signed_signed (s : Sign) (x : ℝ) : signed s (signed s x) = x := by
  cases s with
  | positive => rfl
  | negative => exact neg_neg x

/-- An infinity stays infinite if less than half of it is added. -/
theorem rounds_infinity_add (s : Sign) {x : ℝ} (h : |x| ≤ 2 ^ 2098) :
    Rounds (.infinity s) (signed s huge + x) := by
  have hle : -2 ^ 2098 ≤ signed s x := by
    have habs : |signed s x| ≤ 2 ^ 2098 := by
      cases s with
      | positive => exact h
      | negative => rwa [signed, abs_neg]
    exact (abs_le.mp habs).1
  have hhuge : (2 : ℝ) ^ 2098 + 2 ^ 2098 ≤ huge := by
    rw [← two_mul, ← pow_succ']
    exact pow_le_pow_right₀ one_le_two (by decide)
  have hlarge : 2 ^ 2098 ≤ huge + signed s x :=
    calc (2 : ℝ) ^ 2098 ≤ huge + -2 ^ 2098 := le_add_neg_iff_add_le.mpr hhuge
      _ ≤ huge + signed s x := by gcongr
  have hrounds := rounds_infinity s hlarge
  rwa [signed_add, signed_signed] at hrounds

theorem scale_min {e f : ℤ} (h : f ≤ e) (m : ℕ) :
    ((decreaseExponent m e f).1 : ℝ) * scale f = m * scale e := by
  obtain ⟨k, hk⟩ := Int.eq_ofNat_of_zero_le (Int.sub_nonneg_of_le h)
  have he : e = f + k := by omega
  rw [decreaseExponent, hk, Int.toNat_natCast, Nat.shiftLeft_eq, he, scale_add]
  push_cast
  ring

theorem signed_apply (s : Sign) (m : ℕ) (y : ℝ) : (s.apply m : ℝ) * y = signed s (m * y) := by
  cases s with
  | positive => rfl
  | negative =>
    rw [Sign.apply, signed]
    push_cast
    ring

/-- A signed mantissa is rounded to the nearest encoding. -/
theorem normalize_rounds (z : ℤ) (e : ℤ) (s : Sign) :
    Rounds (UnpackedFloat.normalize Format.binary64 z e s) (z * scale e) := by
  have hscale := (scale_pos e).le
  rw [UnpackedFloat.normalize]
  rcases lt_trichotomy z 0 with hz | rfl | hz
  · rw [Int.compare_eq_lt.mpr hz]
    obtain ⟨m, hm⟩ := Int.eq_ofNat_of_zero_le (show 0 ≤ -z by omega)
    obtain rfl : z = -m := by omega
    rw [hm, Int.toNat_natCast]
    have hrounds := (round_encodes (show 0 < m by omega) e .negative).rounds (by positivity)
    rw [signed] at hrounds
    push_cast
    rwa [neg_mul]
  · rw [Int.compare_eq_eq.mpr rfl, Int.cast_zero, zero_mul]
    exact rounds_zero s
  · rw [Int.compare_eq_gt.mpr hz]
    obtain ⟨m, rfl⟩ := Int.eq_ofNat_of_zero_le hz.le
    exact (round_encodes (by omega) e .positive).rounds (by positivity)

/-- A sum is the rounded exact sum, but opposite infinities have none. -/
theorem add_rounds {u w : UnpackedFloat} (hu : Operand u) (hw : Operand w) :
    (∃ s, u = .infinity s ∧ w = .infinity (-s) ∧
        UnpackedFloat.add Format.binary64 u w = .notANumber) ∨
      Rounds (UnpackedFloat.add Format.binary64 u w) (value u + value w) := by
  cases u with
  | notANumber => exact hu.elim
  | infinity s =>
    cases w with
    | notANumber => exact hw.elim
    | infinity t =>
      have hsame : Rounds (.infinity s) (signed s huge + signed s huge) := by
        rw [← signed_add]
        exact rounds_infinity s (le_add_of_le_of_nonneg two_pow_le_huge huge_nonneg)
      cases s <;> cases t
      · exact Or.inr hsame
      · exact Or.inl ⟨_, rfl, rfl, rfl⟩
      · exact Or.inl ⟨_, rfl, rfl, rfl⟩
      · exact Or.inr hsame
    | zero t => exact Or.inr (rounds_infinity_add s (x := 0) (by rw [abs_zero]; positivity))
    | finite t m e hm => exact Or.inr (rounds_infinity_add s (abs_value_le hw))
  | zero s =>
    cases w with
    | notANumber => exact hw.elim
    | infinity t =>
      refine Or.inr ?_
      rw [add_comm]
      exact rounds_infinity_add t (x := 0) (by rw [abs_zero]; positivity)
    | zero t =>
      refine Or.inr ?_
      rw [value, value, add_zero, UnpackedFloat.add]
      split <;> exact rounds_zero _
    | finite t m e hm =>
      refine Or.inr ?_
      rw [value, zero_add]
      exact hw.rounds
  | finite s m e hm =>
    cases w with
    | notANumber => exact hw.elim
    | infinity t =>
      refine Or.inr ?_
      rw [add_comm]
      exact rounds_infinity_add t (abs_value_le hu)
    | zero t =>
      refine Or.inr ?_
      rw [value.eq_3, add_zero]
      exact hu.rounds
    | finite t n f hn =>
      have hsum := normalize_rounds (s.apply (decreaseExponent m e (min e f)).1 +
        t.apply (decreaseExponent n f (min e f)).1) (min e f) .positive
      rw [Int.cast_add, add_mul, signed_apply, signed_apply, scale_min (min_le_left e f),
        scale_min (min_le_right e f)] at hsum
      exact Or.inr hsum

theorem sub_eq_add (u w : UnpackedFloat) :
    UnpackedFloat.sub Format.binary64 u w = UnpackedFloat.add Format.binary64 u w.neg := by
  have happly : ∀ (z : ℤ) (t : Sign) (n : ℕ), z - t.apply n = z + (-t).apply n := by
    intro z t n
    cases t with
    | positive => rfl
    | negative => exact Int.sub_neg z n
  cases u <;> cases w <;> try rfl
  exact congrArg (UnpackedFloat.normalize Format.binary64 · _ .positive) (happly _ _ _)

/-- A difference is the rounded exact difference, but an infinity has none to itself. -/
theorem sub_rounds {u w : UnpackedFloat} (hu : Operand u) (hw : Operand w) :
    (∃ s, u = .infinity s ∧ w = .infinity s ∧
        UnpackedFloat.sub Format.binary64 u w = .notANumber) ∨
      Rounds (UnpackedFloat.sub Format.binary64 u w) (value u - value w) := by
  have hsum := add_rounds hu hw.neg
  rw [← sub_eq_add, value_neg, ← sub_eq_add_neg] at hsum
  refine hsum.imp_left fun ⟨s, hinf, hneg, hnan⟩ => ⟨s, hinf, ?_, hnan⟩
  cases w with
  | infinity t =>
    cases s <;> cases t <;> first | rfl | exact nomatch hneg
  | notANumber => exact nomatch hneg
  | zero t => exact nomatch hneg
  | finite t m e hm => exact nomatch hneg

theorem signed_mul_signed (s t : Sign) (x y : ℝ) :
    signed s x * signed t y = signed (s * t) (x * y) := by
  cases s with
  | positive =>
    cases t with
    | positive => rfl
    | negative => exact mul_neg x y
  | negative =>
    cases t with
    | positive => exact neg_mul x y
    | negative => exact neg_mul_neg x y

/-- The product of two numbers other than zero is the exact product, rounded. -/
theorem finite_mul_rounds {s t : Sign} {m n : ℕ} {e f : ℤ} {hm : 0 < m} {hn : 0 < n}
    (hu : Operand (.finite s m e hm)) (hw : Operand (.finite t n f hn)) :
    Rounds (UnpackedFloat.mul Format.binary64 (.finite s m e hm) (.finite t n f hn))
      (value (.finite s m e hm) * value (.finite t n f hn) / 2 ^ 1074) := by
  obtain ⟨f, -, rfl, hm53⟩ := hu
  obtain ⟨g, -, rfl, hn53⟩ := hw
  have hpos := Nat.mul_pos hm hn
  have hfine : (f : ℤ) - 1074 + (g - 1074) ≤ Format.binary64.targetExponent
      (totalExponent (m * n) ((f : ℤ) - 1074 + (g - 1074))) := by
    rw [targetExponent_eq]
    by_cases hsmall : f = 0 ∧ g = 0
    · omega
    · have hlow : 2 ^ 52 ≤ m * n := by
        rcases Nat.eq_zero_or_pos f with hf | hf
        · exact (hn53.leading (by omega)).trans (Nat.le_mul_of_pos_left n hm)
        · exact (hm53.leading hf).trans (Nat.le_mul_of_pos_right m hn)
      have hlog := (Nat.le_log2 hpos.ne').mpr hlow
      omega
  have hvalue : ((m * n : ℕ) : ℝ) * scale ((f : ℤ) - 1074 + (g - 1074)) =
      m * scale (f - 1074) * (n * scale (g - 1074)) / 2 ^ 1074 := by
    rw [eq_div_iff (by positivity), mul_assoc, ← scale_mul_scale]
    push_cast
    ring
  have hrounds := ((approximates_exact hpos hfine).encodes (s * t)).rounds
    (mul_nonneg (Nat.cast_nonneg _) (scale_pos _).le)
  rw [value, value, signed_mul_signed, ← signed_div, ← hvalue]
  exact hrounds

/-- The square of a value is its exact square, rounded. -/
theorem square_rounds {u : UnpackedFloat} (hu : Operand u) :
    Rounds (UnpackedFloat.mul Format.binary64 u u) (value u ^ 2 / 2 ^ 1074) := by
  cases u with
  | notANumber => exact hu.elim
  | infinity s =>
    have hsquare : (2 : ℝ) ^ 2098 ≤ huge ^ 2 / 2 ^ 1074 := by
      rw [le_div_iff₀ (by positivity), huge, ← pow_add, ← pow_mul]
      exact pow_le_pow_right₀ one_le_two (by decide)
    rw [value, signed_sq]
    have hsign : s * s = .positive := by cases s <;> rfl
    rw [UnpackedFloat.mul, hsign]
    exact rounds_infinity .positive hsquare
  | zero s =>
    rw [value, zero_pow two_ne_zero, zero_div]
    exact rounds_zero (s * s)
  | finite s m e hm =>
    rw [pow_two]
    exact finite_mul_rounds hu hu

/-- The integer square root with its accuracy stands for the real one. -/
theorem standsFor_sqrt (n : ℕ) :
    StandsFor (.ofMantissaAndAccuracy n.sqrt (if n - n.sqrt * n.sqrt = 0 then .exact
      else .inexact (if n - n.sqrt * n.sqrt ≤ n.sqrt then .lt else .gt))) √n := by
  have hle := Nat.sqrt_le n
  have hlt := Nat.lt_succ_sqrt n
  generalize n.sqrt = r at hle hlt
  rw [Nat.succ_mul_succ] at hlt
  have hr : (0 : ℝ) ≤ r := Nat.cast_nonneg r
  by_cases hzero : n - r * r = 0
  · obtain rfl : n = r * r := by omega
    rw [if_pos hzero, Nat.cast_mul, Real.sqrt_mul_self hr]
    exact standsFor_exact r
  · rw [if_neg hzero]
    by_cases hnear : n - r * r ≤ r
    · have hlow : (r * r : ℝ) < n := by exact_mod_cast (by omega : r * r < n)
      have hhigh : (n : ℝ) ≤ r * r + r := by exact_mod_cast (by omega : n ≤ r * r + r)
      rw [if_pos hnear]
      have hbelow : (r : ℝ) < √n := (Real.lt_sqrt hr).mpr (by linarith)
      have habove : √n < (r : ℝ) + 1 / 2 := (Real.sqrt_lt' (by linarith)).mpr (by linarith)
      exact ⟨hbelow, habove⟩
    · have hlow : (r * r + r + 1 : ℝ) ≤ n := by exact_mod_cast (by omega : r * r + r + 1 ≤ n)
      have hhigh : (n : ℝ) < r * r + r + r + 1 := by
        exact_mod_cast (by omega : n < r * r + r + r + 1)
      rw [if_neg hnear]
      have hbelow : (r : ℝ) + 1 / 2 < √n := (Real.lt_sqrt (by linarith)).mpr (by linarith)
      have habove : √n < (r : ℝ) + 1 := (Real.sqrt_lt' (by linarith)).mpr (by linarith)
      exact ⟨hbelow, habove⟩

theorem le_log2_sqrt {n k : ℕ} (hn : 0 < n) (h : 2 * k ≤ n.log2) : k ≤ n.sqrt.log2 := by
  have hpow : 2 ^ k * 2 ^ k ≤ n := by
    rw [← pow_add, ← two_mul]
    exact (Nat.le_log2 hn.ne').mp h
  exact (Nat.le_log2 (Nat.sqrt_pos.mpr hn).ne').mpr (Nat.le_sqrt.mpr hpow)

theorem sqrtCore_approximates {m : ℕ} (hm : 0 < m) (e : ℤ) :
    ∃ root f a, sqrtCore Format.binary64 m e = (root, f, a) ∧
      Approximates root f a √(m * scale e * 2 ^ 1074) := by
  rw [sqrtCore]
  generalize hf : min (e.ediv 2) (Format.binary64.targetExponent
    ((totalExponent m e + 1).ediv 2)) = f
  change min (e / 2) (Format.binary64.targetExponent ((totalExponent m e + 1) / 2)) = f at hf
  rw [targetExponent_max, totalExponent] at hf
  obtain ⟨k, hk⟩ := Int.eq_ofNat_of_zero_le (show 0 ≤ e - 2 * f by omega)
  rw [hk, Int.toNat_natCast, Nat.shiftLeft_eq]
  have hpos : 0 < m * 2 ^ k := Nat.mul_pos hm (Nat.two_pow_pos k)
  have hlog := log2_mul_two_pow hm k
  have hvalue : m * scale e * 2 ^ 1074 = (m * 2 ^ k : ℕ) * (scale f * scale f) := by
    obtain rfl : e = f + f + k := by omega
    rw [scale_mul_scale, scale_add, Nat.cast_mul, Nat.cast_pow, Nat.cast_ofNat,
      mul_comm (scale (f + f)), ← mul_assoc (m : ℝ), mul_assoc]
  refine ⟨_, f, _, rfl, ⟨?_, Nat.sqrt_pos.mpr hpos, ?_⟩⟩
  · rw [hvalue, Real.sqrt_mul (Nat.cast_nonneg _), Real.sqrt_mul_self (scale_pos f).le,
      mul_div_cancel_right₀ _ (scale_pos f).ne']
    exact standsFor_sqrt _
  · rw [targetExponent_eq]
    by_cases hsmall : f ≤ -1074
    · omega
    · have hroot : 52 ≤ (m * 2 ^ k).sqrt.log2 := le_log2_sqrt hpos (by rw [hlog]; omega)
      omega

/-- The square root of a value that is not negative is its exact square root, rounded. -/
theorem sqrt_rounds {u : UnpackedFloat} (hu : Operand u) (hpos : 0 ≤ value u) :
    Rounds (UnpackedFloat.sqrt Format.binary64 u) √(value u * 2 ^ 1074) := by
  cases u with
  | notANumber => exact hu.elim
  | infinity s =>
    cases s with
    | negative =>
      have : 0 < huge := pow_pos two_pos _
      rw [value, signed] at hpos
      linarith
    | positive =>
      refine rounds_infinity .positive (Real.le_sqrt_of_sq_le ?_)
      change (2 ^ 2098) ^ 2 ≤ huge * 2 ^ 1074
      rw [huge, ← pow_mul, ← pow_add]
      exact pow_le_pow_right₀ one_le_two (by decide)
  | zero s =>
    rw [value, zero_mul, Real.sqrt_zero]
    exact rounds_zero s
  | finite s m e hm =>
    have hscale : 0 < m * scale e := mul_pos (Nat.cast_pos.mpr hm) (scale_pos e)
    cases s with
    | negative =>
      rw [value, signed] at hpos
      linarith
    | positive =>
      obtain ⟨root, f, a, hcore, happrox⟩ := sqrtCore_approximates hm e
      rw [UnpackedFloat.sqrt, hcore]
      exact (happrox.encodes .positive).rounds (Real.sqrt_nonneg _)

end Rounding

end SpatialSearch
