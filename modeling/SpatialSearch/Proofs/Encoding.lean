import SpatialSearch.Proofs.Arithmetic

/-!
# Bits and values

A floating-point value is unpacked from its bits to a sign and a magnitude, and packing gives
the bits back unless the value is a NaN. The magnitude with its sign, read as an integer, puts
the values in the order of what they stand for; the two zeros share a place.
-/

namespace SpatialSearch

namespace Rounding

open Float.Model Float.Model.UnpackedFloat

variable (b : BitVec 64)

def magnitude : ℕ := b.toNat % 2 ^ 63

def signOf : Sign := .ofBitVec (@unpackSign Format.binary64 b)

theorem toNat_unpackMantissa :
    (@unpackMantissa Format.binary64 b).toNat = magnitude b % 2 ^ 52 := by
  rw [unpackMantissa, BitVec.toNat_cast, BitVec.extractLsb_toNat, Nat.shiftRight_eq_div_pow,
    magnitude]
  simp only [Format.binary64]
  omega

theorem toNat_unpackExponent :
    (@unpackExponent Format.binary64 b).toNat = magnitude b / 2 ^ 52 := by
  rw [unpackExponent, BitVec.toNat_cast, BitVec.extractLsb_toNat, Nat.shiftRight_eq_div_pow,
    magnitude]
  simp only [Format.binary64]
  omega

theorem toNat_unpackSign : (@unpackSign Format.binary64 b).toNat = b.toNat / 2 ^ 63 := by
  have hlt := b.isLt
  rw [unpackSign, BitVec.toNat_cast, BitVec.extractLsb_toNat, Nat.shiftRight_eq_div_pow]
  simp only [Format.binary64]
  omega

theorem toNat_eq_signBits_add : b.toNat = signBits (signOf b) + magnitude b := by
  have hlt := b.isLt
  have hsign := toNat_unpackSign b
  rw [signOf, Sign.ofBitVec, magnitude]
  by_cases hzero : @unpackSign Format.binary64 b = 0#1
  · rw [if_pos hzero, signBits]
    rw [hzero, BitVec.toNat_zero] at hsign
    omega
  · rw [if_neg hzero, signBits]
    have hpos : b.toNat / 2 ^ 63 ≠ 0 := fun h => hzero (BitVec.eq_of_toNat_eq (hsign.trans h))
    omega

theorem unpackExponent_eq_iff (e : BitVec 11) :
    @unpackExponent Format.binary64 b = e ↔ magnitude b / 2 ^ 52 = e.toNat := by
  rw [← toNat_unpackExponent, BitVec.toNat_inj]

theorem unpackMantissa_eq_zero_iff :
    @unpackMantissa Format.binary64 b = 0#52 ↔ magnitude b % 2 ^ 52 = 0 := by
  rw [← toNat_unpackMantissa, ← BitVec.toNat_inj]
  rfl

variable {b}

theorem unpack_notANumber (h : top < magnitude b) :
    UnpackedFloat.unpack Format.binary64 b = .notANumber := by
  have hlt : magnitude b < 2 ^ 63 := Nat.mod_lt _ (by decide)
  rw [top] at h
  have hexp := (unpackExponent_eq_iff b (-1#11)).mpr (by simp; omega)
  have hman := mt (unpackMantissa_eq_zero_iff b).mp (by omega)
  rw [UnpackedFloat.unpack]
  exact (if_pos hexp).trans (if_neg hman)

theorem unpack_infinity (h : magnitude b = top) :
    UnpackedFloat.unpack Format.binary64 b = .infinity (signOf b) := by
  rw [top] at h
  have hexp := (unpackExponent_eq_iff b (-1#11)).mpr (by simp; omega)
  have hman := (unpackMantissa_eq_zero_iff b).mpr (by omega)
  rw [UnpackedFloat.unpack]
  exact (if_pos hexp).trans (if_pos hman)

theorem unpack_zero (h : magnitude b = 0) :
    UnpackedFloat.unpack Format.binary64 b = .zero (signOf b) := by
  have hexp := mt (unpackExponent_eq_iff b (-1#11)).mp (by rw [h]; decide)
  have hexp' := (unpackExponent_eq_iff b 0#11).mpr (by rw [h]; rfl)
  have hman := (unpackMantissa_eq_zero_iff b).mpr (by rw [h]; rfl)
  rw [UnpackedFloat.unpack]
  exact (if_neg hexp).trans ((if_pos hexp').trans (dif_pos hman))

theorem finite_congr {s : Sign} {m n : ℕ} {e f : ℤ} {hm : 0 < m} (h : m = n) (h' : e = f) :
    UnpackedFloat.finite s m e hm = .finite s n f (h ▸ hm) := by
  subst h
  subst h'
  rfl

theorem exponentBias_add : ((Format.binary64.exponentBias : ℕ) : ℤ) +
    (Format.binary64.mantissaBitsWithoutImplicit : ℕ) = 1075 := by decide

/-- A number other than zero is unpacked to a canonical significand and exponent. -/
theorem unpack_finite (hpos : 0 < magnitude b) (hlt : magnitude b < top) :
    ∃ (m f : ℕ) (hm : 0 < m), UnpackedFloat.unpack Format.binary64 b =
        .finite (signOf b) m (f - 1074) hm ∧
      f ≤ 2045 ∧ Canonical m f ∧ magnitude b = f * 2 ^ 52 + m := by
  rw [top] at hlt
  have hexp := mt (unpackExponent_eq_iff b (-1#11)).mp (by simp; omega)
  have hmantissa := toNat_unpackMantissa b
  have hexponent := toNat_unpackExponent b
  rw [UnpackedFloat.unpack]
  by_cases hsub : magnitude b / 2 ^ 52 = 0
  · have hexp' := (unpackExponent_eq_iff b 0#11).mpr hsub
    have hman := mt (unpackMantissa_eq_zero_iff b).mp (by omega)
    refine ⟨magnitude b, 0, hpos, (if_neg hexp).trans ((if_pos hexp').trans
      ((dif_neg hman).trans (finite_congr ?_ ?_))), by omega, ⟨by omega, by omega⟩, by omega⟩
    · omega
    · rw [exponentBias_add, hexponent, hsub]
      rfl
  · have hexp' := mt (unpackExponent_eq_iff b 0#11).mp hsub
    refine ⟨2 ^ 52 + magnitude b % 2 ^ 52, magnitude b / 2 ^ 52 - 1, by omega,
      (if_neg hexp).trans ((if_neg hexp').trans (finite_congr ?_ ?_)), by omega,
      ⟨by omega, by omega⟩, by omega⟩
    · rw [BitVec.toNat_append, ← Nat.shiftLeft_add_eq_or_of_lt (BitVec.isLt _), hmantissa]
      rfl
    · rw [exponentBias_add, hexponent]
      omega

theorem unpack_operand (h : magnitude b ≤ top) :
    Operand (UnpackedFloat.unpack Format.binary64 b) := by
  rcases Nat.lt_or_eq_of_le h with hlt | htop
  · rcases Nat.eq_zero_or_pos (magnitude b) with hzero | hpos
    · rw [unpack_zero hzero]
      trivial
    · obtain ⟨m, f, hm, hunpack, hf, hcanonical, -⟩ := unpack_finite hpos hlt
      rw [hunpack]
      exact ⟨f, hf, rfl, hcanonical⟩
  · rw [unpack_infinity htop]
    trivial

/-- Other than a NaN, what was unpacked is packed to the same bits. -/
theorem pack_unpack (h : magnitude b ≤ top) :
    UnpackedFloat.pack Format.binary64 (UnpackedFloat.unpack Format.binary64 b) = b := by
  have hbits := toNat_eq_signBits_add b
  refine BitVec.eq_of_toNat_eq ?_
  rcases Nat.lt_or_eq_of_le h with hlt | htop
  · rcases Nat.eq_zero_or_pos (magnitude b) with hzero | hpos
    · rw [unpack_zero hzero, encodes_zero, hbits, hzero]
      rfl
    · obtain ⟨m, f, hm, hunpack, -, hcanonical, hcode⟩ := unpack_finite hpos hlt
      rw [hunpack, hcanonical.encodes, ← hcode, Nat.min_eq_left h, hbits]
  · rw [unpack_infinity htop, encodes_infinity _ (Nat.le_refl top), Nat.min_self, hbits, htop]

def key (b : BitVec 64) : ℤ := (signOf b).apply (magnitude b)

theorem sign_magnitude_of_toNat {s : Sign} {c : ℕ} (h : b.toNat = signBits s + c)
    (hc : c ≤ top) : signOf b = s ∧ magnitude b = c := by
  have hlt : magnitude b < 2 ^ 63 := Nat.mod_lt _ (by decide)
  rw [toNat_eq_signBits_add] at h
  rw [top] at hc
  generalize signOf b = t at h ⊢
  cases s <;> cases t <;> simp only [signBits] at h <;> simp <;> omega

theorem Rounds.key {u : UnpackedFloat} {x : ℝ} (h : Rounds u x) :
    magnitude (UnpackedFloat.pack Format.binary64 u) ≤ top ∧
      key (UnpackedFloat.pack Format.binary64 u) = nearest x := by
  obtain ⟨s, c, hbits, hc, hnearest⟩ := h
  obtain ⟨hsign, hmagnitude⟩ := sign_magnitude_of_toNat hbits hc
  rw [Rounding.key, hsign, hmagnitude]
  exact ⟨hc, hnearest⟩

noncomputable def units (b : BitVec 64) : ℝ := value (UnpackedFloat.unpack Format.binary64 b)

theorem key_eq_nearest (h : magnitude b ≤ top) : key b = nearest (units b) := by
  have hkey := (unpack_operand h).rounds.key.2
  rwa [pack_unpack h] at hkey

theorem units_eq_zero (h : magnitude b = 0) : units b = 0 := by
  rw [units, unpack_zero h]
  rfl

theorem magnitude_eq_natAbs : magnitude b = (key b).natAbs := by
  rw [key]
  cases signOf b <;> simp [Sign.apply]

theorem eq_of_key_eq {b c : BitVec 64} (h : key b = key c) :
    b = c ∨ magnitude b = 0 ∧ magnitude c = 0 := by
  have hmagnitude : magnitude b = magnitude c := by
    rw [magnitude_eq_natAbs, magnitude_eq_natAbs, h]
  have hb := toNat_eq_signBits_add b
  have hc := toNat_eq_signBits_add c
  rw [key, key] at h
  by_cases hzero : magnitude b = 0
  · exact Or.inr ⟨hzero, hmagnitude ▸ hzero⟩
  · refine Or.inl (BitVec.eq_of_toNat_eq ?_)
    rw [hb, hc, hmagnitude]
    cases hs : signOf b <;> cases ht : signOf c <;> rw [hs, ht] at h <;>
      simp only [Sign.apply] at h <;> first | rfl | omega

theorem units_eq_of_key_eq {b c : BitVec 64} (h : key b = key c) : units b = units c := by
  rcases eq_of_key_eq h with rfl | ⟨hb, hc⟩
  · rfl
  · rw [units_eq_zero hb, units_eq_zero hc]

/-- Of two values the one with the greater key is the greater one. -/
theorem units_mono {b c : BitVec 64} (hb : magnitude b ≤ top) (hc : magnitude c ≤ top)
    (h : key b ≤ key c) : units b ≤ units c := by
  by_contra hlt
  have hle := (lt_of_not_ge hlt).le
  have hkey := nearest_mono hle
  rw [← key_eq_nearest hb, ← key_eq_nearest hc] at hkey
  exact hlt (units_eq_of_key_eq (Int.le_antisymm h hkey)).le

end Rounding

end SpatialSearch
