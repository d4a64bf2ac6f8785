import SpatialSearch.Proofs.Encoding
import SpatialSearch.Proofs.ScalarLaws
import SpatialSearch.Scalar.Binary64

/-!
# Binary64 scalars are lawful

Everything that search relies on is a fact about the bits of binary64 values and about the
rounded arithmetic on them. Nothing is assumed of hardware beyond what the model of `Float`
says.
-/

namespace SpatialSearch

namespace Binary64

open Rounding

variable (x : Binary64)

/-- The encoded magnitude with its sign. -/
def key : ℤ := Rounding.key x.bits.toBitVec

theorem toNat_magnitude : x.magnitude.toNat = Rounding.magnitude x.bits.toBitVec := by
  have hlt := x.bits.toNat_lt
  rw [magnitude, Rounding.magnitude, UInt64.toNat_toBitVec]
  split
  · rename_i h
    rw [UInt64.toNat_sub_of_le _ _ h]
    have hle := UInt64.le_iff_toNat_le.mp h
    rw [show signBit.toNat = 2 ^ 63 from rfl] at hle ⊢
    omega
  · rename_i h
    have hle := mt UInt64.le_iff_toNat_le.mpr h
    rw [show signBit.toNat = 2 ^ 63 from rfl] at hle
    omega

theorem toNat_bits :
    x.bits.toNat = if signBit ≤ x.bits then 2 ^ 63 + x.magnitude.toNat else x.magnitude.toNat := by
  rw [magnitude]
  split
  · rename_i h
    have hle := UInt64.le_iff_toNat_le.mp h
    rw [UInt64.toNat_sub_of_le _ _ h]
    rw [show signBit.toNat = 2 ^ 63 from rfl] at hle ⊢
    omega
  · rfl

theorem isNaN_eq_false_iff : x.isNaN = false ↔ Rounding.magnitude x.bits.toBitVec ≤ top := by
  rw [isNaN, decide_eq_false_iff_not, UInt64.lt_iff_toNat_lt, toNat_magnitude, Nat.not_lt]
  rfl

theorem key_eq :
    x.key = if signBit ≤ x.bits then -(x.magnitude.toNat : ℤ) else x.magnitude.toNat := by
  have hbits := toNat_eq_signBits_add x.bits.toBitVec
  have hlt : Rounding.magnitude x.bits.toBitVec < 2 ^ 63 := Nat.mod_lt _ (by decide)
  rw [UInt64.toNat_toBitVec] at hbits
  have hsignBit : signBit ≤ x.bits ↔ 2 ^ 63 ≤ x.bits.toNat := UInt64.le_iff_toNat_le
  rw [key, Rounding.key, toNat_magnitude]
  cases hsign : signOf x.bits.toBitVec with
  | positive =>
    rw [hsign, signBits] at hbits
    rw [if_neg (mt hsignBit.mp (by omega))]
    rfl
  | negative =>
    rw [hsign, signBits] at hbits
    rw [if_pos (hsignBit.mpr (by omega))]
    rfl

theorem toNat_place : (x.place.toNat : ℤ) =
    if signBit ≤ x.bits then 2 ^ 63 - 1 - (x.magnitude.toNat : ℤ)
    else 2 ^ 63 + (x.magnitude.toNat : ℤ) := by
  have hlt := x.bits.toNat_lt
  rw [place, magnitude]
  split
  · rename_i h
    have hle := UInt64.le_iff_toNat_le.mp h
    rw [UInt64.toNat_sub_of_le _ _ h, UInt64.toNat_sub_of_le _ _ (UInt64.le_iff_toNat_le.mpr (by
      change _ ≤ 2 ^ 64 - 1
      omega))]
    rw [show signBit.toNat = 2 ^ 63 from rfl] at hle ⊢
    rw [show UInt64.toNat 0xffffffffffffffff = 2 ^ 64 - 1 from rfl]
    omega
  · rename_i h
    have hle := mt UInt64.le_iff_toNat_le.mpr h
    rw [UInt64.toNat_add]
    rw [show signBit.toNat = 2 ^ 63 from rfl] at hle ⊢
    omega

theorem toNat_level :
    (x.level.toNat : ℤ) = if x.key < 0 then 2 ^ 63 - 1 + x.key else 2 ^ 63 + x.key := by
  have hplace := toNat_place x
  have hkey := key_eq x
  rw [level]
  by_cases hzero : x.magnitude = 0
  · rw [hzero, UInt64.toNat_zero] at hkey
    rw [if_pos hzero, show signBit.toNat = 2 ^ 63 from rfl]
    split at hkey <;> rw [hkey] <;> rfl
  · have hpos : x.magnitude.toNat ≠ 0 := fun h => hzero (UInt64.toNat_inj.mp h)
    rw [if_neg hzero, hplace]
    by_cases hneg : signBit ≤ x.bits
    · rw [if_pos hneg] at hkey ⊢
      rw [if_pos (by omega)]
      omega
    · rw [if_neg hneg] at hkey ⊢
      rw [if_neg (by omega), hkey]

variable {a b : Binary64}

theorem level_le_iff : a.level ≤ b.level ↔ a.key ≤ b.key := by
  have ha := toNat_level a
  have hb := toNat_level b
  rw [UInt64.le_iff_toNat_le]
  split at ha <;> split at hb <;> omega

theorem le_iff : a ≤ b ↔ a.isNaN = false ∧ b.isNaN = false ∧ a.key ≤ b.key :=
  and_congr_right fun _ => and_congr_right fun _ => level_le_iff

theorem lt_iff : a < b ↔ a.isNaN = false ∧ b.isNaN = false ∧ a.key < b.key := by
  refine and_congr_right fun _ => and_congr_right fun _ => ?_
  rw [← not_le, ← UInt64.not_le, level_le_iff]

theorem place_lt_of_key_lt (h : a.key < b.key) : a.place < b.place := by
  have ha := toNat_place a
  have hb := toNat_place b
  rw [key_eq, key_eq] at h
  rw [UInt64.lt_iff_toNat_lt]
  by_cases hsa : signBit ≤ a.bits <;> by_cases hsb : signBit ≤ b.bits <;>
    simp only [hsa, hsb, if_true, if_false] at ha hb h <;> omega

theorem place_injective (h : a.place = b.place) : a = b := by
  have ha := toNat_place a
  have hb := toNat_place b
  have hbits := toNat_bits a
  have hbits' := toNat_bits b
  rw [h] at ha
  have heq : a.bits.toNat = b.bits.toNat := by
    by_cases hsa : signBit ≤ a.bits <;> by_cases hsb : signBit ≤ b.bits <;>
      simp only [hsa, hsb, if_true, if_false] at ha hb hbits hbits' <;> omega
  exact congrArg Binary64.mk (UInt64.toNat_inj.mp heq)

instance : Std.TransCmp totalOrder := inferInstanceAs (Std.TransCmp (compareOn place))

instance : Std.LawfulEqCmp totalOrder where
  compare_self := Std.ReflCmp.compare_self
  eq_of_compare h := place_injective (Std.LawfulEqCmp.eq_of_compare h)

noncomputable def units : ℝ := Rounding.units x.bits.toBitVec

variable {x}

theorem units_mono (ha : a.isNaN = false) (hb : b.isNaN = false) (h : a.key ≤ b.key) :
    a.units ≤ b.units :=
  Rounding.units_mono ((isNaN_eq_false_iff a).mp ha) ((isNaN_eq_false_iff b).mp hb) h

theorem unpack_toFloat (h : x.isNaN = false) : x.toFloat.toModel.unpack =
    .unpack Float.Model.Format.binary64 x.bits.toBitVec := by
  have hbits := pack_unpack ((isNaN_eq_false_iff x).mp h)
  rw [toFloat, Float.ofBits, Float.Model.ofBits, Float.Model.pack, Float.Model.unpack]
  exact congrArg (Float.Model.UnpackedFloat.unpack Float.Model.Format.binary64) hbits

theorem operand_toFloat (h : x.isNaN = false) : Operand x.toFloat.toModel.unpack := by
  rw [unpack_toFloat h]
  exact unpack_operand ((isNaN_eq_false_iff x).mp h)

theorem value_toFloat (h : x.isNaN = false) : value x.toFloat.toModel.unpack = x.units := by
  rw [unpack_toFloat h]
  rfl

/-- The number whose key is the nearest encoding of a real one. -/
theorem ofFloat_rounds {u : Float.Model.UnpackedFloat} {y : ℝ} (h : Rounds u y) :
    (ofFloat (.ofModel (.pack u))).isNaN = false ∧
      (ofFloat (.ofModel (.pack u))).key = nearest y := by
  obtain ⟨hmagnitude, hkey⟩ := h.key
  have hnumber : (Float.ofModel (.pack u)).isNaN = false := (unpack_operand hmagnitude).isNaN
  rw [ofFloat, hnumber, if_neg Bool.false_ne_true]
  exact ⟨(isNaN_eq_false_iff _).mpr hmagnitude, hkey⟩

/-- What has no value is a NaN. -/
theorem isNaN_ofFloat_notANumber : (ofFloat (.ofModel (.pack .notANumber))).isNaN = true := by
  have hmagnitude : top < Rounding.magnitude
      (Float.Model.UnpackedFloat.pack Float.Model.Format.binary64 .notANumber) := by decide
  have hnan : (Float.ofModel (.pack .notANumber)).isNaN = true :=
    congrArg Float.Model.UnpackedFloat.isNaN (unpack_notANumber hmagnitude)
  rw [ofFloat, hnan, if_pos rfl]
  rfl

def infinityOf : Float.Model.UnpackedFloat.Sign → Binary64
  | .positive => infinity
  | .negative => negInfinity

/-- Only the infinities are unpacked as such. -/
theorem eq_of_unpack_infinity {s : Float.Model.UnpackedFloat.Sign} (h : x.isNaN = false)
    (hinf : x.toFloat.toModel.unpack = .infinity s) : x = infinityOf s := by
  have hbits := pack_unpack ((isNaN_eq_false_iff x).mp h)
  rw [← unpack_toFloat h, hinf] at hbits
  have htoNat := encodes_infinity s (Nat.le_refl top)
  rw [Encodes, hbits, Nat.min_self] at htoNat
  cases s <;> exact congrArg Binary64.mk (UInt64.toNat_inj.mp htoNat)

theorem lift_eq (op : Float → Float → Float) (ha : a.isNaN = false) (hb : b.isNaN = false) :
    lift op a b = ofFloat (op a.toFloat b.toFloat) := by
  rw [lift, ha, hb, if_neg Bool.false_ne_true, if_neg Bool.false_ne_true]

theorem add_spec (ha : a.isNaN = false) (hb : b.isNaN = false) :
    (∃ s, a = infinityOf s ∧ b = infinityOf (-s)) ∨
      (a + b).isNaN = false ∧ (a + b).key = nearest (a.units + b.units) := by
  rcases add_rounds (operand_toFloat ha) (operand_toFloat hb) with ⟨s, hinf, hinf', -⟩ | hrounds
  · exact Or.inl ⟨s, eq_of_unpack_infinity ha hinf, eq_of_unpack_infinity hb hinf'⟩
  · refine Or.inr ?_
    change (lift _ a b).isNaN = false ∧ (lift _ a b).key = _
    rw [lift_eq _ ha hb, ← value_toFloat ha, ← value_toFloat hb]
    exact ofFloat_rounds hrounds

theorem sub_spec (ha : a.isNaN = false) (hb : b.isNaN = false) :
    (∃ s, a = infinityOf s ∧ b = infinityOf s ∧ (a - b).isNaN = true) ∨
      (a - b).isNaN = false ∧ (a - b).key = nearest (a.units - b.units) := by
  change (∃ s, _ ∧ _ ∧ (lift _ a b).isNaN = true) ∨
    (lift _ a b).isNaN = false ∧ (lift _ a b).key = _
  rw [lift_eq _ ha hb, ← value_toFloat ha, ← value_toFloat hb]
  rcases sub_rounds (operand_toFloat ha) (operand_toFloat hb) with
    ⟨s, hinf, hinf', hnan⟩ | hrounds
  · refine Or.inl ⟨s, eq_of_unpack_infinity ha hinf, eq_of_unpack_infinity hb hinf', ?_⟩
    change (ofFloat (.ofModel (.pack (.sub _ a.toFloat.toModel.unpack _)))).isNaN = true
    rw [hnan]
    exact isNaN_ofFloat_notANumber
  · exact Or.inr (ofFloat_rounds hrounds)

theorem square_spec (ha : a.isNaN = false) :
    (a * a).isNaN = false ∧ (a * a).key = nearest (a.units ^ 2 / 2 ^ 1074) := by
  change (lift _ a a).isNaN = false ∧ (lift _ a a).key = _
  rw [lift_eq _ ha ha, ← value_toFloat ha]
  exact ofFloat_rounds (square_rounds (operand_toFloat ha))

theorem sqrt_spec (ha : a.isNaN = false) (hpos : 0 ≤ a.units) :
    (sqrt a).isNaN = false ∧ (sqrt a).key = nearest √(a.units * 2 ^ 1074) := by
  rw [sqrt, ha, if_neg Bool.false_ne_true]
  rw [← value_toFloat ha] at hpos ⊢
  exact ofFloat_rounds (sqrt_rounds (operand_toFloat ha) hpos)

theorem isNaN_eq (x : Binary64) : Scalar.isNaN x = x.isNaN := by
  change (!(!x.isNaN && !x.isNaN && x.level == x.level)) = x.isNaN
  rw [beq_self_eq_true, Bool.and_true, Bool.and_self, Bool.not_not]

theorem isNaN_sub (ha : a.isNaN = false) (hb : b.isNaN = false) (h : (a - b).isNaN = true) :
    a = b ∧ (a = infinity ∨ a = negInfinity) := by
  rcases sub_spec ha hb with ⟨s, rfl, rfl, -⟩ | ⟨hnumber, -⟩
  · refine ⟨rfl, ?_⟩
    cases s with
    | positive => exact Or.inl rfl
    | negative => exact Or.inr rfl
  · rw [hnumber] at h
    exact absurd h Bool.false_ne_true

theorem key_sub (ha : a.isNaN = false) (hb : b.isNaN = false) (h : (a - b).isNaN = false) :
    (a - b).key = nearest (a.units - b.units) := by
  rcases sub_spec ha hb with ⟨s, -, -, hnan⟩ | ⟨-, hkey⟩
  · rw [h] at hnan
    exact absurd hnan Bool.false_ne_true
  · exact hkey

theorem le_of_nearest {y z : ℝ} (ha : a.isNaN = false ∧ a.key = nearest y)
    (hb : b.isNaN = false ∧ b.key = nearest z) (h : y ≤ z) : a ≤ b := by
  refine le_iff.mpr ⟨ha.1, hb.1, ?_⟩
  rw [ha.2, hb.2]
  exact nearest_mono h

theorem nonneg_of_nearest {y : ℝ} (ha : a.isNaN = false ∧ a.key = nearest y) (h : 0 ≤ y) :
    0 ≤ a := by
  refine le_iff.mpr ⟨rfl, ha.1, ?_⟩
  rw [ha.2]
  exact nearest_nonneg h

theorem units_le (h : a ≤ b) : a.units ≤ b.units := by
  obtain ⟨ha, hb, hkey⟩ := le_iff.mp h
  exact units_mono ha hb hkey

theorem units_nonneg (h : 0 ≤ a) : 0 ≤ a.units := by
  have hle := units_le h
  rwa [show (0 : Binary64).units = 0 from units_eq_zero (by decide)] at hle

theorem trans {c : Binary64} (hab : a ≤ b) (hbc : b ≤ c) : a ≤ c :=
  ⟨hab.1, hbc.2.1, UInt64.le_trans hab.2.2 hbc.2.2⟩

theorem sub_le_sub {c d : Binary64} (hab : a ≤ b) (hcd : c ≤ d) (had : (a - d).isNaN = false)
    (hbc : (b - c).isNaN = false) : a - d ≤ b - c := by
  have := units_le hab
  have := units_le hcd
  exact le_of_nearest ⟨had, key_sub hab.1 hcd.2.1 had⟩ ⟨hbc, key_sub hab.2.1 hcd.1 hbc⟩
    (by linarith)

theorem sub_nonneg (hab : a ≤ b) (h : (b - a).isNaN = false) : 0 ≤ b - a := by
  have := units_le hab
  exact nonneg_of_nearest ⟨h, key_sub hab.2.1 hab.1 h⟩ (by linarith)

theorem add_of_nonneg (ha : 0 ≤ a) (hb : 0 ≤ b) :
    (a + b).isNaN = false ∧ (a + b).key = nearest (a.units + b.units) := by
  rcases add_spec ha.2.1 hb.2.1 with ⟨s, rfl, rfl⟩ | hspec
  · cases s with
    | positive => exact absurd hb (by decide)
    | negative => exact absurd ha (by decide)
  · exact hspec

theorem add_le_add {c d : Binary64} (ha : 0 ≤ a) (hab : a ≤ b) (hc : 0 ≤ c) (hcd : c ≤ d) :
    a + c ≤ b + d := by
  have := units_le hab
  have := units_le hcd
  exact le_of_nearest (add_of_nonneg ha hc) (add_of_nonneg (trans ha hab) (trans hc hcd))
    (by linarith)

theorem square_le_square (ha : 0 ≤ a) (hab : a ≤ b) : a * a ≤ b * b := by
  have hunits := units_nonneg ha
  have hle := units_le hab
  refine le_of_nearest (square_spec hab.1) (square_spec hab.2.1) ?_
  gcongr

theorem sqrt_le_sqrt (ha : 0 ≤ a) (hab : a ≤ b) : sqrt a ≤ sqrt b := by
  have hle := units_le hab
  refine le_of_nearest (sqrt_spec hab.1 (units_nonneg ha))
    (sqrt_spec hab.2.1 (units_nonneg (trans ha hab))) ?_
  gcongr

theorem key_bounds (h : a.isNaN = false) : -(top : ℤ) ≤ a.key ∧ a.key ≤ top := by
  have hmagnitude := (isNaN_eq_false_iff a).mp h
  rw [magnitude_eq_natAbs] at hmagnitude
  rw [key]
  omega

theorem eq_of_key_eq (h : a.key = b.key) (hb : b.key ≠ 0) : a = b := by
  rcases Rounding.eq_of_key_eq h with hbits | ⟨-, hzero⟩
  · exact congrArg Binary64.mk (UInt64.toBitVec_inj.mp hbits)
  · rw [magnitude_eq_natAbs] at hzero
    exact absurd (Int.natAbs_eq_zero.mp hzero) hb

theorem key_infinity : infinity.key = top := by decide

theorem key_negInfinity : negInfinity.key = -top := by decide

theorem le_infinity (ha : a.isNaN = false) : a ≤ infinity := by
  refine le_iff.mpr ⟨ha, rfl, ?_⟩
  rw [key_infinity]
  exact (key_bounds ha).2

theorem negInfinity_le (ha : a.isNaN = false) : negInfinity ≤ a := by
  refine le_iff.mpr ⟨rfl, ha, ?_⟩
  rw [key_negInfinity]
  exact (key_bounds ha).1

theorem eq_infinity (h : infinity ≤ a) : a = infinity := by
  obtain ⟨-, ha, hle⟩ := le_iff.mp h
  have hge := (le_iff.mp (le_infinity ha)).2.2
  exact eq_of_key_eq (Int.le_antisymm hge hle) (by decide)

theorem eq_negInfinity (h : a ≤ negInfinity) : a = negInfinity := by
  obtain ⟨ha, -, hle⟩ := le_iff.mp h
  have hge := (le_iff.mp (negInfinity_le ha)).2.2
  exact eq_of_key_eq (Int.le_antisymm hle hge) (by decide)

instance : LawfulScalar Binary64 where
  transCmp := inferInstanceAs (Std.TransCmp totalOrder)
  lawfulEqCmp := inferInstanceAs (Std.LawfulEqCmp totalOrder)
  isNaN_of_le h := by
    rw [isNaN_eq, isNaN_eq]
    exact ⟨h.1, h.2.1⟩
  le_trans := trans
  le_total ha hb := by
    rw [isNaN_eq] at ha hb
    rcases UInt64.le_total _ _ with h | h
    · exact Or.inl ⟨ha, hb, h⟩
    · exact Or.inr ⟨hb, ha, h⟩
  lt_iff {a b} := by
    rw [lt_iff, le_iff, le_iff]
    constructor
    · rintro ⟨ha, hb, hlt⟩
      exact ⟨⟨ha, hb, hlt.le⟩, fun hle => hlt.not_ge hle.2.2⟩
    · rintro ⟨⟨ha, hb, -⟩, hlt⟩
      exact ⟨ha, hb, lt_of_not_ge fun hle => hlt ⟨hb, ha, hle⟩⟩
  totalOrder_of_lt h := Std.compare_eq_lt.mpr (place_lt_of_key_lt (lt_iff.mp h).2.2)
  isNaN_zero := by decide
  isNaN_infinity := by decide
  isNaN_negInfinity := by decide
  negInfinity_lt_infinity := by decide
  le_infinity h := le_infinity (isNaN_eq _ ▸ h)
  negInfinity_le h := negInfinity_le (isNaN_eq _ ▸ h)
  eq_infinity := eq_infinity
  eq_negInfinity := eq_negInfinity
  isNaN_sub ha hb h := by
    rw [isNaN_eq] at ha hb h
    exact isNaN_sub ha hb h
  sub_le_sub hab hcd had hbc := by
    rw [isNaN_eq] at had hbc
    exact sub_le_sub hab hcd had hbc
  sub_nonneg hab h := by
    rw [isNaN_eq] at h
    exact sub_nonneg hab h
  add_le_add := add_le_add
  add_nonneg ha hb := nonneg_of_nearest (add_of_nonneg ha hb)
    (add_nonneg (units_nonneg ha) (units_nonneg hb))
  square_le_square := square_le_square
  square_nonneg ha := nonneg_of_nearest (square_spec ha.2.1) (by positivity)
  sqrt_le_sqrt := sqrt_le_sqrt
  sqrt_nonneg ha := nonneg_of_nearest (sqrt_spec ha.2.1 (units_nonneg ha)) (Real.sqrt_nonneg _)

instance : LawfulEqScalar Binary64 where
  beq_iff {a b} := by
    have hbeq : (a == b) = (!a.isNaN && !b.isNaN && a.level == b.level) := rfl
    rw [hbeq]
    simp only [Bool.and_eq_true, Bool.not_eq_true', beq_iff_eq]
    constructor
    · rintro ⟨⟨ha, hb⟩, hlevel⟩
      exact ⟨⟨ha, hb, UInt64.le_of_eq hlevel⟩, ⟨hb, ha, UInt64.le_of_eq hlevel.symm⟩⟩
    · rintro ⟨⟨ha, hb, hab⟩, ⟨-, -, hba⟩⟩
      exact ⟨⟨ha, hb⟩, UInt64.le_antisymm hab hba⟩

end Binary64

end SpatialSearch
