import Mathlib

/-!
# Rounding to nearest

A real number is encoded as a floating-point value by counting in units of the least positive
one, leaving out the bits beyond the significand and rounding what remains to nearest. The
arithmetic of `Float` packs the same encoding. Rounding is monotone, also where a carry moves
into the exponent and where a magnitude becomes infinite; how large its error is is not said.
-/

namespace SpatialSearch

namespace Rounding

/-- A real number rounded to a nearest natural number, the even one of two. -/
noncomputable def toEven (x : ℝ) : ℕ :=
  if x < ⌊x⌋₊ + 1 / 2 then ⌊x⌋₊
  else if x = ⌊x⌋₊ + 1 / 2 then ⌊x⌋₊ + ⌊x⌋₊ % 2
  else ⌊x⌋₊ + 1

theorem floor_le_toEven (x : ℝ) : ⌊x⌋₊ ≤ toEven x := by
  rw [toEven]
  split_ifs <;> omega

theorem toEven_le (x : ℝ) : toEven x ≤ ⌊x⌋₊ + 1 := by
  rw [toEven]
  split_ifs <;> omega

theorem toEven_mono {x y : ℝ} (h : x ≤ y) : toEven x ≤ toEven y := by
  rcases Nat.lt_or_ge ⌊x⌋₊ ⌊y⌋₊ with hlt | hge
  · exact (toEven_le x).trans ((Nat.succ_le_of_lt hlt).trans (floor_le_toEven y))
  · have hfloor : ⌊x⌋₊ = ⌊y⌋₊ := Nat.le_antisymm (Nat.floor_le_floor h) hge
    rw [toEven, toEven, hfloor]
    rcases lt_trichotomy x (⌊y⌋₊ + 1 / 2) with hx | hx | hx
    · rw [if_pos hx]
      split_ifs <;> omega
    · rw [if_neg hx.not_lt, if_pos hx, if_neg (by linarith)]
      split_ifs <;> omega
    · rw [if_neg hx.not_gt, if_neg hx.ne', if_neg (by linarith), if_neg (by linarith)]

theorem toEven_natCast (n : ℕ) : toEven n = n := by
  rw [toEven, Nat.floor_natCast, if_pos (by linarith)]

theorem toEven_le_of_lt {x : ℝ} {n : ℕ} (hx : 0 ≤ x) (h : x < n) : toEven x ≤ n :=
  (toEven_le x).trans (Nat.succ_le_of_lt ((Nat.floor_lt hx).mpr h))

theorem le_toEven {x : ℝ} {n : ℕ} (h : n ≤ x) : n ≤ toEven x :=
  (Nat.le_floor h).trans (floor_le_toEven x)

/-- The number of low bits that a magnitude has beyond the 53 that are kept. -/
noncomputable def excess (x : ℝ) : ℕ := ⌊x⌋₊.log2 - 52

theorem log2_mono {m n : ℕ} (h : m ≤ n) : m.log2 ≤ n.log2 := by
  by_cases hm : m = 0
  · rw [hm]
    exact Nat.zero_le _
  · exact (Nat.le_log2 (by omega)).mpr ((Nat.log2_self_le hm).trans h)

theorem excess_mono {x y : ℝ} (h : x ≤ y) : excess x ≤ excess y :=
  Nat.sub_le_sub_right (log2_mono (Nat.floor_le_floor h)) 52

theorem excess_eq_zero {x : ℝ} (hx : 0 ≤ x) (h : x < 2 ^ 53) : excess x = 0 := by
  have hfloor : ⌊x⌋₊ < 2 ^ 53 := (Nat.floor_lt hx).mpr (by exact_mod_cast h)
  rw [excess, Nat.sub_eq_zero_iff_le]
  by_cases hzero : ⌊x⌋₊ = 0
  · rw [hzero]
    decide
  · exact Nat.le_of_lt_succ ((Nat.log2_lt hzero).mpr hfloor)

theorem excess_eq {x : ℝ} {s : ℕ} (hlow : 2 ^ (s + 52) ≤ x) (hhigh : x < 2 ^ (s + 53)) :
    excess x = s := by
  have hx : 0 ≤ x := le_trans (by positivity) hlow
  have hfloor : 2 ^ (s + 52) ≤ ⌊x⌋₊ := Nat.le_floor (by exact_mod_cast hlow)
  have hpos : ⌊x⌋₊ ≠ 0 := (Nat.lt_of_lt_of_le (Nat.two_pow_pos _) hfloor).ne'
  have hlog : ⌊x⌋₊.log2 = s + 52 :=
    (Nat.log2_eq_iff hpos).mpr ⟨hfloor, (Nat.floor_lt hx).mpr (by exact_mod_cast hhigh)⟩
  rw [excess, hlog, Nat.add_sub_cancel]

theorem lt_two_pow_excess {x : ℝ} (hx : 0 ≤ x) : x < 2 ^ (excess x + 53) := by
  have hlt : ⌊x⌋₊ < 2 ^ (excess x + 53) :=
    Nat.lt_log2_self.trans_le (Nat.pow_le_pow_right (by decide) (by rw [excess]; omega))
  exact_mod_cast (Nat.floor_lt hx).mp hlt

theorem two_pow_excess_le {x : ℝ} (hx : 0 ≤ x) (h : 0 < excess x) :
    2 ^ (excess x + 52) ≤ x := by
  have hlog : excess x + 52 = ⌊x⌋₊.log2 := by
    rw [excess] at h ⊢
    omega
  have hpos : ⌊x⌋₊ ≠ 0 := by
    intro hzero
    rw [excess, hzero] at h
    exact absurd h (by decide)
  have hle : 2 ^ (excess x + 52) ≤ ⌊x⌋₊ := by
    rw [hlog]
    exact Nat.log2_self_le hpos
  exact_mod_cast (Nat.le_floor_iff hx).mp hle

/-- The significand of a magnitude: what is left of it without the excess bits, rounded. -/
noncomputable def significand (x : ℝ) : ℕ := toEven (x / 2 ^ excess x)

theorem significand_le {x : ℝ} (hx : 0 ≤ x) : significand x ≤ 2 ^ 53 := by
  refine toEven_le_of_lt (by positivity) ?_
  rw [div_lt_iff₀ (by positivity)]
  have h := lt_two_pow_excess hx
  rw [pow_add, mul_comm] at h
  exact_mod_cast h

theorem le_significand {x : ℝ} (hx : 0 ≤ x) (h : 0 < excess x) : 2 ^ 52 ≤ significand x := by
  refine le_toEven ?_
  rw [le_div_iff₀ (by positivity)]
  have hle := two_pow_excess_le hx h
  rw [pow_add, mul_comm] at hle
  exact_mod_cast hle

/-- The encoding of a magnitude, given in units of the least positive value and rounded to
nearest. The leading bit of the significand and a carry out of it count into the exponent. -/
noncomputable def encode (x : ℝ) : ℕ := excess x * 2 ^ 52 + significand x

theorem encode_mono {x y : ℝ} (hx : 0 ≤ x) (h : x ≤ y) : encode x ≤ encode y := by
  have hy : 0 ≤ y := hx.trans h
  rw [encode, encode]
  rcases Nat.lt_or_ge (excess x) (excess y) with hlt | hge
  · have hsx := significand_le hx
    have hsy := le_significand hy (by omega)
    omega
  · have heq : excess x = excess y := Nat.le_antisymm (excess_mono h) hge
    rw [significand, significand, heq]
    exact Nat.add_le_add_left (toEven_mono (by gcongr)) _

/-- A significand with an exponent that is encoded as it stands. -/
structure Canonical (m e : ℕ) : Prop where
  lt : m < 2 ^ 53
  leading : 0 < e → 2 ^ 52 ≤ m

theorem Canonical.excess {m e : ℕ} (h : Canonical m e) : Rounding.excess (m * 2 ^ e) = e := by
  have hlt : (m : ℝ) < 2 ^ 53 := by exact_mod_cast h.lt
  by_cases he : e = 0
  · rw [he, pow_zero, mul_one]
    exact excess_eq_zero (by positivity) hlt
  · have hle : (2 : ℝ) ^ 52 ≤ m := by exact_mod_cast h.leading (Nat.pos_of_ne_zero he)
    refine excess_eq ?_ ?_
    · rw [pow_add, mul_comm]
      gcongr
    · rw [pow_add, mul_comm ((2 : ℝ) ^ e)]
      gcongr

theorem Canonical.encode {m e : ℕ} (h : Canonical m e) :
    Rounding.encode (m * 2 ^ e) = e * 2 ^ 52 + m := by
  rw [Rounding.encode, significand, h.excess, mul_div_cancel_right₀ _ (by positivity),
    toEven_natCast]

open Float.Model Float.Model.UnpackedFloat

/-- A mantissa with its two residual bits stands for a real number. -/
def StandsFor (em : ExtendedMantissa) (x : ℝ) : Prop :=
  match em.roundBit, em.stickyBit with
  | false, false => x = em.mantissa
  | false, true => em.mantissa < x ∧ x < em.mantissa + 1 / 2
  | true, false => x = em.mantissa + 1 / 2
  | true, true => em.mantissa + 1 / 2 < x ∧ x < em.mantissa + 1

theorem standsFor_exact (m : ℕ) :
    StandsFor (.ofMantissaAndAccuracy m .exact) m := rfl

theorem StandsFor.bounds {em : ExtendedMantissa} {x : ℝ} (h : StandsFor em x) :
    em.mantissa ≤ x ∧ x < em.mantissa + 1 := by
  obtain ⟨m, r, s⟩ := em
  cases r <;> cases s <;> simp only [StandsFor] at h <;> constructor <;> linarith

theorem StandsFor.floor {em : ExtendedMantissa} {x : ℝ} (h : StandsFor em x) :
    ⌊x⌋₊ = em.mantissa := by
  obtain ⟨hle, hlt⟩ := h.bounds
  exact (Nat.floor_eq_iff (le_trans (Nat.cast_nonneg _) hle)).mpr ⟨hle, hlt⟩

theorem StandsFor.roundedMantissa {em : ExtendedMantissa} {x : ℝ} (h : StandsFor em x) :
    em.roundedMantissa = toEven x := by
  have hfloor := h.floor
  obtain ⟨m, r, s⟩ := em
  cases r <;> cases s <;> simp only [StandsFor] at h <;> rw [toEven, hfloor]
  · rw [if_pos (by linarith)]
    rfl
  · rw [if_pos h.2]
    rfl
  · rw [if_neg (by linarith), if_pos h]
    rfl
  · rw [if_neg (by linarith), if_neg (by linarith)]
    rfl

theorem StandsFor.shiftRightOne {em : ExtendedMantissa} {x : ℝ} (h : StandsFor em x) :
    StandsFor em.shiftRightOne (x / 2) := by
  obtain ⟨m, r, s⟩ := em
  have hdiv : (m : ℝ) = 2 * (m / 2 : ℕ) + (m % 2 : ℕ) := by
    exact_mod_cast (Nat.div_add_mod m 2).symm
  rcases Nat.mod_two_eq_zero_or_one m with hm | hm <;> rw [hm] at hdiv <;>
    cases r <;> cases s <;> simp only [StandsFor] at h <;>
    simp only [StandsFor, ExtendedMantissa.shiftRightOne, hm, bne_self_eq_false, Bool.or_self,
      Bool.or_true, Bool.or_false, show (1 != 0) = true from rfl] <;>
    first
      | linarith
      | constructor <;> linarith

theorem StandsFor.shiftRight {em : ExtendedMantissa} {x : ℝ} (h : StandsFor em x) (n : ℕ) :
    StandsFor (em >>> n) (x / 2 ^ n) := by
  change StandsFor (n.repeat ExtendedMantissa.shiftRightOne em) _
  induction n with
  | zero => rwa [pow_zero, div_one]
  | succ n ih =>
    rw [Nat.repeat, pow_succ, ← div_div]
    exact ih.shiftRightOne

theorem targetExponent_max (t : ℤ) :
    Format.binary64.targetExponent t = max (t - 53) (-1074) := by
  simp only [Format.targetExponent, Format.mantissaBits, Format.minExponent]
  omega

theorem targetExponent_eq (m : ℕ) (e : ℤ) :
    Format.binary64.targetExponent (totalExponent m e) = max (m.log2 + e - 52) (-1074) := by
  rw [targetExponent_max, totalExponent]
  omega

noncomputable def scale (e : ℤ) : ℝ := 2 ^ (e + 1074)

theorem scale_pos (e : ℤ) : 0 < scale e := zpow_pos two_pos _

theorem scale_add (e : ℤ) (n : ℕ) : scale (e + n) = scale e * 2 ^ n := by
  rw [scale, scale, add_right_comm, zpow_add₀ two_ne_zero, zpow_natCast]

theorem scale_mul_scale (e f : ℤ) : scale e * scale f = scale (e + f) * 2 ^ 1074 := by
  rw [← scale_add, scale, scale, scale, ← zpow_add₀ two_ne_zero]
  exact congrArg _ (by push_cast; ring)

theorem scale_sub (n : ℕ) : scale (n - 1074) = 2 ^ n := by
  rw [scale, sub_add_cancel, zpow_natCast]

/-- A mantissa with an exponent and an accuracy stands for a magnitude. -/
structure Approximates (m : ℕ) (e : ℤ) (a : Accuracy) (x : ℝ) : Prop where
  standsFor : StandsFor (.ofMantissaAndAccuracy m a) (x / scale e)
  pos : 0 < m
  fine : e ≤ Format.binary64.targetExponent (totalExponent m e)

variable {m : ℕ} {e : ℤ} {a : Accuracy} {x : ℝ}

theorem mantissa_ofMantissaAndAccuracy (m : ℕ) (a : Accuracy) :
    (ExtendedMantissa.ofMantissaAndAccuracy m a).mantissa = m := by
  rcases a with _ | _ | _ | _ <;> rfl

theorem Approximates.bounds (h : Approximates m e a x) :
    2 ^ (m.log2 + e + 1074) ≤ x ∧ x < 2 ^ (m.log2 + e + 1074 + 1) := by
  obtain ⟨hle, hlt⟩ := h.standsFor.bounds
  rw [mantissa_ofMantissaAndAccuracy] at hle hlt
  rw [le_div_iff₀ (scale_pos e)] at hle
  rw [div_lt_iff₀ (scale_pos e)] at hlt
  have hlow : (2 : ℝ) ^ m.log2 ≤ m := by exact_mod_cast Nat.log2_self_le h.pos.ne'
  have hhigh : (m : ℝ) + 1 ≤ 2 ^ (m.log2 + 1) := by exact_mod_cast Nat.lt_log2_self
  have hscale : ∀ n : ℕ, (2 : ℝ) ^ (n + e + 1074) = 2 ^ n * scale e := by
    intro n
    rw [scale, ← zpow_natCast, ← zpow_add₀ two_ne_zero, add_assoc]
  have hnext : (m.log2 : ℤ) + e + 1074 + 1 = (m.log2 + 1 : ℕ) + e + 1074 := by
    push_cast
    ring
  rw [hnext, hscale, hscale]
  constructor
  · exact le_trans (mul_le_mul_of_nonneg_right hlow (scale_pos e).le) hle
  · exact lt_of_lt_of_le hlt (mul_le_mul_of_nonneg_right hhigh (scale_pos e).le)

theorem Approximates.nonneg (h : Approximates m e a x) : 0 ≤ x :=
  (zpow_nonneg zero_le_two _).trans h.bounds.1

theorem Approximates.targetExponent (h : Approximates m e a x) :
    Format.binary64.targetExponent (totalExponent m e) = excess x - 1074 := by
  obtain ⟨hlow, hhigh⟩ := h.bounds
  rw [targetExponent_eq]
  rcases lt_or_ge (m.log2 + e + 1074) 52 with hlt | hge
  · have hpow : (2 : ℝ) ^ (m.log2 + e + 1074 + 1) ≤ 2 ^ ((53 : ℕ) : ℤ) :=
      zpow_le_zpow_right₀ one_le_two (by omega)
    rw [zpow_natCast] at hpow
    rw [excess_eq_zero h.nonneg (lt_of_lt_of_le hhigh hpow)]
    omega
  · obtain ⟨s, hs⟩ := Int.eq_ofNat_of_zero_le (Int.sub_nonneg_of_le hge)
    have hs' : (m.log2 : ℤ) + e + 1074 = (s + 52 : ℕ) := by omega
    rw [hs', zpow_natCast] at hlow
    rw [hs', ← Nat.cast_succ, zpow_natCast] at hhigh
    rw [excess_eq hlow hhigh]
    omega

/-- The first shift of a rounding leaves the significand with its residual bits. -/
theorem Approximates.shift (h : Approximates m e a x) :
    ∃ em, shiftToTargetExponent Format.binary64 m e a = (em, (excess x : ℤ) - 1074) ∧
      StandsFor em (x / 2 ^ excess x) := by
  have hfine := h.fine
  rw [h.targetExponent] at hfine
  obtain ⟨k, hk⟩ := Int.eq_ofNat_of_zero_le (Int.sub_nonneg_of_le hfine)
  refine ⟨ExtendedMantissa.ofMantissaAndAccuracy m a >>> k, ?_, ?_⟩
  · rw [shiftToTargetExponent, h.targetExponent, shiftToExponent, hk, Int.toNat_natCast]
    exact congrArg (Prod.mk _) (by omega)
  · have hscale : scale e * 2 ^ k = 2 ^ excess x := by
      rw [← scale_add, ← scale_sub]
      exact congrArg scale (by omega)
    rw [← hscale, ← div_div]
    exact h.standsFor.shiftRight k

def signBits : Sign → ℕ
  | .positive => 0
  | .negative => 2 ^ 63

def top : ℕ := 2047 * 2 ^ 52

/-- A value is packed with a sign and an encoded magnitude, infinity if that is too large. -/
def Encodes (u : UnpackedFloat) (s : Sign) (c : ℕ) : Prop :=
  (UnpackedFloat.pack Format.binary64 u).toNat = signBits s + min c top

theorem toNat_packComponents (s : Sign) (e : BitVec 11) (m : BitVec 52) :
    (packComponents Format.binary64 s e m).toNat = signBits s + e.toNat * 2 ^ 52 + m.toNat := by
  have hsign : s.toBitVec.toNat * 2 ^ 63 = signBits s := by cases s <;> rfl
  rw [packComponents, BitVec.toNat_append, BitVec.toNat_append,
    ← Nat.shiftLeft_add_eq_or_of_lt e.isLt, ← Nat.shiftLeft_add_eq_or_of_lt m.isLt,
    Nat.shiftLeft_eq, Nat.shiftLeft_eq, ← hsign]
  ring

theorem encodes_zero (s : Sign) : Encodes (.zero s) s 0 := by
  rw [Encodes, UnpackedFloat.pack, packedZero, toNat_packComponents]
  simp

theorem encodes_infinity (s : Sign) {c : ℕ} (h : top ≤ c) : Encodes (.infinity s) s c := by
  rw [Encodes, UnpackedFloat.pack, packedInfinity, toNat_packComponents, Nat.min_eq_right h, top]
  simp

theorem Canonical.encodes {m e : ℕ} (h : Canonical m e) (s : Sign) (hm : 0 < m) :
    Encodes (.finite s m (e - 1074) hm) s (e * 2 ^ 52 + m) := by
  have hlt := h.lt
  have hbiased : ((e : ℤ) - 1074 + Format.binary64.exponentBias +
      Format.binary64.mantissaBitsWithoutImplicit).toNat = e + 1 := by
    simp only [Format.exponentBias]
    omega
  rw [Encodes, UnpackedFloat.pack]
  dsimp only
  rw [hbiased]
  split
  · rename_i hlarge
    have hlead := h.leading (by simp at hlarge; omega)
    rw [packedInfinity, toNat_packComponents]
    simp at hlarge ⊢
    rw [top]
    omega
  · rename_i hsmall
    simp at hsmall
    split
    · rename_i hlog
      have hlow : 2 ^ 52 ≤ m := ((Nat.log2_eq_iff hm.ne').mp (Nat.add_left_cancel
        ((Nat.add_comm 1 _).trans hlog))).1
      rw [toNat_packComponents, BitVec.toNat_ofNat, BitVec.toNat_ofNat, top]
      omega
    · rename_i hlog
      have hhigh : m < 2 ^ 52 := by
        by_contra hle
        exact hlog ((Nat.add_comm _ 1).trans (congrArg (1 + ·)
          ((Nat.log2_eq_iff hm.ne').mpr ⟨Nat.le_of_not_lt hle, hlt⟩)))
      have he : e = 0 := by
        by_contra hpos
        exact Nat.not_le_of_lt hhigh (h.leading (Nat.pos_of_ne_zero hpos))
      rw [toNat_packComponents, BitVec.toNat_ofNat, BitVec.toNat_ofNat, he, top]
      omega

/-- The second shift of a rounding takes a carry out of the significand into the exponent. -/
theorem shift_significand {m e : ℕ} (hm : m ≤ 2 ^ 53) (hlead : 0 < e → 2 ^ 52 ≤ m) :
    ∃ (em : ExtendedMantissa) (f : ℕ),
      shiftToTargetExponent Format.binary64 m (e - 1074) .exact = (em, (f : ℤ) - 1074) ∧
      Canonical em.mantissa f ∧ f * 2 ^ 52 + em.mantissa = e * 2 ^ 52 + m := by
  have htarget := targetExponent_eq m (e - 1074)
  by_cases hcarry : m = 2 ^ 53
  · rw [hcarry, Nat.log2_two_pow] at htarget
    have hshift : (Format.binary64.targetExponent (totalExponent m (e - 1074)) -
        ((e : ℤ) - 1074)).toNat = 1 := by
      rw [hcarry, htarget]
      omega
    rw [shiftToTargetExponent, shiftToExponent, hshift]
    refine ⟨⟨m / 2, m % 2 != 0, false⟩, e + 1, Prod.ext rfl ?_, ⟨?_, fun _ => ?_⟩, ?_⟩
    · push_cast
      ring
    · dsimp only
      omega
    · dsimp only
      omega
    · dsimp only
      omega
  · have hlog : m.log2 ≤ 52 := by
      by_cases hzero : m = 0
      · rw [hzero]
        decide
      · exact Nat.le_of_lt_succ ((Nat.log2_lt hzero).mpr (lt_of_le_of_ne hm hcarry))
    have hshift : (Format.binary64.targetExponent (totalExponent m (e - 1074)) -
        ((e : ℤ) - 1074)).toNat = 0 := by
      rw [htarget]
      omega
    rw [shiftToTargetExponent, shiftToExponent, hshift]
    refine ⟨_, e, Prod.ext rfl ?_, ⟨lt_of_le_of_ne hm hcarry, hlead⟩, rfl⟩
    push_cast
    ring

/-- Rounding by the residual bits gives the encoding of the magnitude. -/
theorem Approximates.encodes (h : Approximates m e a x) (s : Sign) :
    Encodes (roundWithAccuracy Format.binary64 s m e a) s (encode x) := by
  obtain ⟨em, hfirst, hem⟩ := h.shift
  have hsig : em.roundedMantissa = significand x := hem.roundedMantissa
  obtain ⟨fm, f, hsecond, hcanonical, hcode⟩ :=
    shift_significand (significand_le h.nonneg) (le_significand h.nonneg)
  rw [encode, ← hcode, roundWithAccuracy, hfirst]
  dsimp only
  rw [hsig, hsecond]
  dsimp only
  split
  · rename_i hzero
    have hf : f = 0 := by
      by_contra hpos
      have := hcanonical.leading (Nat.pos_of_ne_zero hpos)
      omega
    rw [hzero, hf]
    exact encodes_zero s
  · exact hcanonical.encodes s _

theorem approximates_exact {m : ℕ} {e : ℤ} (hm : 0 < m)
    (he : e ≤ Format.binary64.targetExponent (totalExponent m e)) :
    Approximates m e .exact (m * scale e) where
  standsFor := by
    rw [mul_div_cancel_right₀ _ (scale_pos e).ne']
    exact standsFor_exact m
  pos := hm
  fine := he

theorem log2_mul_two_pow {m : ℕ} (hm : 0 < m) (k : ℕ) : (m * 2 ^ k).log2 = m.log2 + k := by
  have hpow := Nat.two_pow_pos k
  obtain ⟨hlow, hhigh⟩ := (Nat.log2_eq_iff hm.ne').mp rfl
  refine (Nat.log2_eq_iff (Nat.mul_pos hm hpow).ne').mpr ⟨?_, ?_⟩
  · rw [pow_add]
    exact Nat.mul_le_mul_right _ hlow
  · rw [Nat.add_right_comm, pow_add]
    exact Nat.mul_lt_mul_of_pos_right hhigh hpow

/-- Rounding a mantissa with an exponent gives the encoding of its magnitude. -/
theorem round_encodes {m : ℕ} (hm : 0 < m) (e : ℤ) (s : Sign) :
    Encodes (UnpackedFloat.round Format.binary64 s m e) s (encode (m * scale e)) := by
  rw [UnpackedFloat.round, decreaseExponent]
  dsimp only
  generalize hk : (e - Format.binary64.targetExponent (totalExponent m e)).toNat = k
  have hshift : m <<< k = m * 2 ^ k := Nat.shiftLeft_eq m k
  have htarget : e - k ≤ Format.binary64.targetExponent (totalExponent (m <<< k) (e - k)) := by
    rw [targetExponent_eq] at hk ⊢
    rw [hshift, log2_mul_two_pow hm]
    omega
  have hscale : ((m <<< k : ℕ) : ℝ) * scale (e - k) = m * scale e := by
    have hsum := scale_add (e - k) k
    rw [sub_add_cancel] at hsum
    rw [hshift, hsum]
    push_cast
    ring
  rw [← hscale]
  exact (approximates_exact (by rw [hshift]; positivity) htarget).encodes s

def signed (s : Sign) (x : ℝ) : ℝ :=
  match s with
  | .positive => x
  | .negative => -x

/-- The encoding of a real number in units of the least positive value: its magnitude is
rounded to nearest, with infinity beyond the greatest number, and takes the sign. -/
noncomputable def nearest (x : ℝ) : ℤ :=
  if 0 ≤ x then (min (encode x) top : ℕ) else -(min (encode (-x)) top : ℕ)

theorem encode_zero : encode 0 = 0 := by
  have h := (show Canonical 0 0 from ⟨by decide, by decide⟩).encode
  simpa using h

theorem nearest_mono {x y : ℝ} (h : x ≤ y) : nearest x ≤ nearest y := by
  rw [nearest, nearest]
  by_cases hx : 0 ≤ x
  · have := encode_mono hx h
    rw [if_pos hx, if_pos (hx.trans h)]
    omega
  · rw [if_neg hx]
    by_cases hy : 0 ≤ y
    · rw [if_pos hy]
      omega
    · have := encode_mono (x := -y) (y := -x) (by linarith) (by linarith)
      rw [if_neg hy]
      omega

theorem nearest_nonneg {x : ℝ} (h : 0 ≤ x) : 0 ≤ nearest x := by
  rw [nearest, if_pos h]
  omega

theorem nearest_signed (s : Sign) {x : ℝ} (h : 0 ≤ x) :
    nearest (signed s x) = s.apply (min (encode x) top : ℕ) := by
  cases s with
  | positive => exact if_pos h
  | negative =>
    rw [signed, nearest]
    by_cases hx : 0 ≤ -x
    · obtain rfl : x = 0 := by linarith
      rw [neg_zero, if_pos (le_refl _), encode_zero]
      rfl
    · rw [if_neg hx, neg_neg]
      rfl

def huge : ℝ := 2 ^ 6000

theorem two_pow_le_huge : (2 : ℝ) ^ 2098 ≤ huge := pow_le_pow_right₀ one_le_two (by decide)

theorem huge_nonneg : 0 ≤ huge := pow_nonneg zero_le_two _

def Rounds (u : UnpackedFloat) (x : ℝ) : Prop :=
  ∃ s c, (UnpackedFloat.pack Format.binary64 u).toNat = signBits s + c ∧ c ≤ top ∧
    s.apply (c : ℕ) = nearest x

theorem Encodes.rounds {u : UnpackedFloat} {s : Sign} {x : ℝ} (h : Encodes u s (encode x))
    (hx : 0 ≤ x) : Rounds u (signed s x) :=
  ⟨s, _, h, Nat.min_le_right _ _, (nearest_signed s hx).symm⟩

theorem rounds_zero (s : Sign) : Rounds (.zero s) 0 := by
  have h := (encode_zero ▸ encodes_zero s : Encodes (.zero s) s (encode 0)).rounds (le_refl 0)
  cases s with
  | positive => exact h
  | negative => rwa [signed, neg_zero] at h

theorem top_le_encode {x : ℝ} (h : 2 ^ 2098 ≤ x) : top ≤ encode x := by
  have htop := (show Canonical (2 ^ 52) 2046 from ⟨by decide, fun _ => le_refl _⟩).encode
  have hpow : ((2 ^ 52 : ℕ) : ℝ) * 2 ^ 2046 = 2 ^ 2098 := by
    rw [Nat.cast_pow, Nat.cast_ofNat, ← pow_add]
  rw [hpow] at htop
  have hle := encode_mono (by positivity) h
  rw [htop] at hle
  exact hle

theorem rounds_infinity (s : Sign) {x : ℝ} (h : 2 ^ 2098 ≤ x) :
    Rounds (.infinity s) (signed s x) := by
  refine ⟨s, _, encodes_infinity s (top_le_encode h), Nat.min_le_right _ _, ?_⟩
  exact (nearest_signed s (le_trans (by positivity) h)).symm

end Rounding

end SpatialSearch
