import SpatialSearch.Proofs.Decimals
import SpatialSearch.Decimal.Numeral

/-!
# Numerals read back

A numeral keeps the value of the decimal that it lays out, whichever notation it is in, and
zeros at the end of a fraction do not count. The decimals of binary64 values are so short that
all their digits are read, so a finite value is read back from its numeral in every style.
-/

namespace SpatialSearch

open Rounding

/-! ### Digits -/

theorem appendDigits_append (start : ℕ) (front back : List (Fin 10)) :
    appendDigits start (front ++ back) = appendDigits (appendDigits start front) back :=
  List.foldl_append

theorem appendDigits_zeros (start count : ℕ) :
    appendDigits start (List.replicate count 0) = start * 10 ^ count := by
  induction count generalizing start with
  | zero => exact (Nat.mul_one start).symm
  | succ count ih =>
    change appendDigits (10 * start + 0) (List.replicate count 0) = _
    rw [ih, Nat.add_zero, pow_succ]
    ring

theorem appendDigits_lastDigits (start width n : ℕ) :
    appendDigits start (lastDigits width n) = start * 10 ^ width + n % 10 ^ width := by
  induction width generalizing n with
  | zero => simp [lastDigits, appendDigits, Nat.mod_one]
  | succ width ih =>
    rw [lastDigits, appendDigits_append, ih]
    change 10 * (start * 10 ^ width + n / 10 % 10 ^ width) + n % 10 = _
    rw [pow_succ', Nat.mod_mul]
    ring

/-- The last digits of a number follow those in front of them. -/
theorem appendDigits_div_lastDigits (width n : ℕ) :
    appendDigits (n / 10 ^ width) (lastDigits width n) = n := by
  rw [appendDigits_lastDigits, Nat.div_add_mod']

theorem length_lastDigits (width n : ℕ) : (lastDigits width n).length = width := by
  induction width generalizing n with
  | zero => rfl
  | succ width ih => rw [lastDigits, List.length_append, ih, List.length_singleton]

def withoutTrailing {β : Type} [BEq β] (x : β) (items : List β) : List β :=
  (items.reverse.dropWhile (· == x)).reverse

theorem exists_trailing {β : Type} [BEq β] [LawfulBEq β] (x : β) (items : List β) :
    ∃ count, items = withoutTrailing x items ++ List.replicate count x := by
  refine ⟨(items.reverse.takeWhile (· == x)).length, ?_⟩
  have hcopies : items.reverse.takeWhile (· == x) =
      List.replicate (items.reverse.takeWhile (· == x)).length x := by
    apply List.eq_replicate_of_mem
    intro y hy
    have hbeq := List.mem_takeWhile_imp hy
    exact eq_of_beq hbeq
  apply List.reverse_injective
  rw [List.reverse_append, List.reverse_replicate, ← hcopies, withoutTrailing,
    List.reverse_reverse, List.takeWhile_append_dropWhile]

namespace Numeral

/-- The decimal of a numeral with all its digits. -/
def written (n : Numeral) : Decimal :=
  ⟨appendDigits n.whole n.fraction, n.exponent.getD 0 - n.fraction.length⟩

/-- Zeros at the end of a fraction do not count. -/
theorem decimal_spec (n : Numeral) :
    n.decimal.value = n.written.value ∧ n.decimal.digits ≤ n.written.digits := by
  obtain ⟨count, hcount⟩ := exists_trailing 0 n.fraction
  have hdecimal : n.decimal = ⟨appendDigits n.whole (withoutTrailing 0 n.fraction),
      n.exponent.getD 0 - (withoutTrailing 0 n.fraction).length⟩ := rfl
  have hdigits : n.written.digits =
      appendDigits n.whole (withoutTrailing 0 n.fraction) * 10 ^ count := by
    rw [written]
    conv_lhs => rw [hcount]
    rw [appendDigits_append, appendDigits_zeros]
  have hlength : n.fraction.length = (withoutTrailing 0 n.fraction).length + count := by
    conv_lhs => rw [hcount]
    rw [List.length_append, List.length_replicate]
  rw [hdecimal]
  constructor
  · have hscale : (10 : ℝ) ^ count * 10 ^ n.written.scale =
        10 ^ (n.exponent.getD 0 - (withoutTrailing 0 n.fraction).length) := by
      rw [← zpow_natCast, ← zpow_add₀ (by norm_num), written, hlength]
      congr 1
      push_cast
      ring
    rw [Decimal.value, Decimal.value, hdigits, Nat.cast_mul, Nat.cast_pow, Nat.cast_ofNat,
      mul_assoc, hscale]
  · rw [hdigits]
    exact Nat.le_mul_of_pos_right _ (by positivity)

/-- Digits that are divided between whole part and fraction are those of the decimal. -/
theorem written_divided (negative : Bool) (digits width : ℕ) (exponent : Option ℤ) :
    (Numeral.mk negative (digits / 10 ^ width) (lastDigits width digits) exponent).written =
      ⟨digits, exponent.getD 0 - width⟩ := by
  rw [written, appendDigits_div_lastDigits, length_lastDigits]

/-- A decimal keeps its value in either notation. -/
theorem value_ofDecimal (style : Style) (negative : Bool) (d : Decimal) :
    (ofDecimal style negative d).written.value = d.value := by
  rw [ofDecimal]
  dsimp only
  split
  · split
    · rename_i h
      obtain ⟨n, hn⟩ := Int.eq_ofNat_of_zero_le h
      simp only [written, hn, Int.toNat_natCast, Nat.pow_eq, appendDigits, List.foldl_cons,
        List.foldl_nil, Decimal.value]
      simp
      ring
    · rename_i h
      have hscale : ((-d.scale).toNat : ℤ) = -d.scale := by omega
      rw [Nat.pow_eq, written_divided, hscale, Option.getD_none, Int.zero_sub, neg_neg]
  · have hlength := d.length_pos
    have hscale : (d.length : ℤ) + d.scale - 1 - (d.length - 1 : ℕ) = d.scale := by omega
    rw [Nat.pow_eq, written_divided]
    exact congrArg (fun scale => (Decimal.mk d.digits scale).value) hscale

/-- The digits that count are those of the decimal, or with zeros after them fill the places in
front of the point. -/
theorem digits_ofDecimal_lt {style : Style} {d : Decimal} {count : ℕ} (negative : Bool)
    (hstyle : style.greatestPoint ≤ count) (hd : d.digits < 10 ^ count) :
    (ofDecimal style negative d).decimal.digits < 10 ^ count := by
  rw [ofDecimal]
  dsimp only
  split
  · rename_i hpoint
    split
    · rename_i hscale
      obtain ⟨n, hn⟩ := Int.eq_ofNat_of_zero_le hscale
      have hwithin : (d.length : ℤ) + d.scale ≤ count :=
        le_trans (of_decide_eq_true (Bool.and_eq_true_iff.mp hpoint).2) hstyle
      change d.digits * 10 ^ d.scale.toNat < _
      rw [hn, Int.toNat_natCast]
      calc d.digits * 10 ^ n < 10 ^ d.length * 10 ^ n := by
            have := d.digits_lt
            gcongr
        _ = 10 ^ (d.length + n) := (pow_add _ _ _).symm
        _ ≤ 10 ^ count := Nat.pow_le_pow_right (by decide) (by omega)
    · apply lt_of_le_of_lt (decimal_spec _).2
      rw [Nat.pow_eq, written_divided]
      exact hd
  · apply lt_of_le_of_lt (decimal_spec _).2
    rw [Nat.pow_eq, written_divided]
    exact hd

theorem negative_ofDecimal (style : Style) (negative : Bool) (d : Decimal) :
    (ofDecimal style negative d).negative = negative := by
  rw [ofDecimal]
  dsimp only
  split
  · split <;> rfl
  · rfl

end Numeral

theorem Decimal.abridged_of_lt {d : Decimal} (h : d.digits < 10 ^ readDigits) : d.abridged = d := by
  have hlength : d.length ≤ readDigits := (Nat.length_toDigits_le_iff (by decide) (by decide)).mpr h
  exact if_pos hlength

/-! ### The digits of binary64 values -/

namespace Binary64

variable {x : Binary64}

/-- The parts of the ratio of a finite value. -/
theorem ratio_spec (hx : x.isFinite = true) : ∃ num den : ℕ, x.ratio = (num, den) ∧ 0 < den ∧
    den.log2 ≤ 1074 ∧ (num : ℝ) / den ≤ 10 ^ 310 := by
  obtain ⟨m, e, hdecompose, hcanonical, he, -⟩ := decompose_spec hx
  let exponent : ℤ := -((e : ℤ) - 1074)
  have hratio : x.ratio = scaleDown 2 m 1 exponent := by rw [ratio, hdecompose]
  refine ⟨(scaleDown 2 m 1 exponent).1, (scaleDown 2 m 1 exponent).2, hratio,
    scaleDown_pos two_pos one_pos _ _, ?_, ?_⟩
  · rw [scaleDown]
    split
    · change (1 * 2 ^ exponent.toNat).log2 ≤ 1074
      rw [one_mul, Nat.log2_two_pow]
      omega
    · exact Nat.zero_le 1074
  · have hm : (m : ℝ) ≤ 2 ^ (53 : ℤ) := by exact_mod_cast hcanonical.lt.le
    have hvast : 2 ^ 1024 ≤ 10 ^ 310 := by decide +kernel
    rw [scaleDown_ratio, Nat.cast_one, div_one, zpow_neg, div_inv_eq_mul, Nat.cast_ofNat]
    calc (m : ℝ) * 2 ^ ((e : ℤ) - 1074) ≤ 2 ^ (53 : ℤ) * 2 ^ (971 : ℤ) := by
          gcongr
          · exact one_le_two
          · omega
      _ = 2 ^ (1024 : ℤ) := by rw [← zpow_add₀ two_ne_zero]; rfl
      _ ≤ 10 ^ 310 := by exact_mod_cast hvast

theorem powerAbove_ge (hx : x.isFinite = true) : -323 ≤ x.powerAbove := by
  obtain ⟨num, den, hratio, -, hlog, -⟩ := ratio_spec hx
  rw [powerAbove, hratio]
  dsimp only
  omega

/-- On a grid that is not too fine the neighbors of a finite value have few digits. -/
theorem digits_neighborsOn (tie : Tie) (hx : x.isFinite = true) {scale : ℤ} (h : -345 ≤ scale)
    {d : Decimal} (hd : d ∈ neighborsOn tie x scale) : d.digits < 10 ^ Decimal.readDigits := by
  obtain ⟨num, den, hratio, -, -, hle⟩ := ratio_spec hx
  have hquotient : (scaleDown 10 num den scale).1 / (scaleDown 10 num den scale).2 ≤ 10 ^ 655 := by
    have hreal : ((scaleDown 10 num den scale).1 : ℝ) / (scaleDown 10 num den scale).2 ≤
        10 ^ 655 := by
      rw [scaleDown_ratio, Nat.cast_ofNat, div_eq_mul_inv, ← zpow_neg]
      calc (num : ℝ) / den * 10 ^ (-scale) ≤ 10 ^ (310 : ℤ) * 10 ^ (345 : ℤ) := by
            gcongr
            · exact_mod_cast hle
            · norm_num
            · omega
        _ = 10 ^ (655 : ℤ) := by rw [← zpow_add₀ (by norm_num)]; rfl
        _ = 10 ^ 655 := zpow_ofNat _ _
    exact_mod_cast le_trans Nat.cast_div_le hreal
  have hfew : 10 ^ 655 + 1 < 10 ^ Decimal.readDigits := by decide +kernel
  have hdigits : d.digits ≤ 10 ^ 655 + 1 := by
    rw [neighborsOn, hratio] at hd
    dsimp only at hd
    split at hd
    · rcases List.mem_pair.mp hd with rfl | rfl <;> dsimp only <;> omega
    · rcases List.mem_pair.mp hd with rfl | rfl <;> dsimp only <;> omega
  exact lt_of_le_of_lt hdigits hfew

theorem digits_exactDecimal (hx : x.isFinite = true) :
    x.exactDecimal.digits < 10 ^ Decimal.readDigits := by
  obtain ⟨m, e, hdecompose, hcanonical, he, -⟩ := decompose_spec hx
  have hm := hcanonical.lt
  rw [exactDecimal, hdecompose]
  dsimp only
  split
  · have hpow : 2 ^ ((e : ℤ) - 1074).toNat ≤ 2 ^ 971 :=
      pow_le_pow_right₀ one_le_two (by omega)
    have hfew : 2 ^ 53 * 2 ^ 971 < 10 ^ Decimal.readDigits := by decide +kernel
    exact lt_of_le_of_lt (Nat.mul_le_mul hm.le hpow) hfew
  · have hpow : 5 ^ (-((e : ℤ) - 1074)).toNat ≤ 5 ^ 1074 :=
      pow_le_pow_right₀ (by decide) (by omega)
    have hfew : 2 ^ 53 * 5 ^ 1074 < 10 ^ Decimal.readDigits := by decide +kernel
    exact lt_of_le_of_lt (Nat.mul_le_mul hm.le hpow) hfew

/-- All digits of the decimal that is written are read. -/
theorem digits_shortestDecimal (tie : Tie) (hx : x.isFinite = true) :
    (x.shortestDecimal tie).digits < 10 ^ Decimal.readDigits := by
  rw [shortestDecimal]
  split
  · exact Nat.pow_pos (by decide)
  · cases hfind : (shortDecimals tie x).find? fun d => ofDecimal x.isNegative d = x with
    | none => exact digits_exactDecimal hx
    | some d =>
      obtain ⟨i, hi, hd⟩ := List.mem_flatMap.mp (List.mem_of_find?_eq_some hfind)
      have hpower := powerAbove_ge hx
      have hi := List.mem_range.mp hi
      exact digits_neighborsOn tie hx (by omega) hd

end Binary64

namespace Numeral

/-- A finite value is read back from its numeral. -/
theorem toBinary64_ofBinary64 {style : Style} {x : Binary64} (hx : x.isFinite = true)
    (hstyle : style.greatestPoint ≤ Decimal.readDigits) :
    (ofBinary64 style x).toBinary64 = x := by
  have hdigits : (ofBinary64 style x).decimal.digits < 10 ^ Decimal.readDigits :=
    digits_ofDecimal_lt x.isNegative hstyle (Binary64.digits_shortestDecimal style.tie hx)
  have hvalue := (decimal_spec (ofBinary64 style x)).1.trans (value_ofDecimal style _ _)
  rw [toBinary64, Decimal.abridged_of_lt hdigits, Binary64.ofDecimal_congr _ hvalue, ofBinary64,
    negative_ofDecimal, Binary64.ofDecimal_shortestDecimal _ hx]

/-- A tenth is written with one digit, though the value is not a tenth. -/
example : ofBinary64 .json ⟨0x3fb999999999999a⟩ = ⟨false, 0, [1], none⟩ := by decide +kernel

end Numeral

end SpatialSearch
