import SpatialSearch.Index.Split
import SpatialSearch.Proofs.Binary64Laws
import SpatialSearch.Proofs.Enclosure

/-!
# Equal numbers give equal results

Equal numbers may be different values, as the two zeros are. Where two computations differ only
in which of two equal numbers they take, their results are equal numbers again, or neither has a
result. `Scalar.Alike` is that relation; the measure of a box in the cost of a cut keeps it.
-/

namespace SpatialSearch

namespace Scalar

/-- Equal numbers, or two values that are no numbers. -/
def Alike {α : Type} [Scalar α] (a b : α) : Prop :=
  (a == b) = true ∨ isNaN a = true ∧ isNaN b = true

end Scalar

open Scalar (Alike)

/-- A lawful scalar type in which equal numbers have equal sums, differences and products. -/
class CongruentScalar (α : Type) [Scalar α] : Prop extends LawfulEqScalar α where
  add_alike {a b c d : α} : Alike a b → Alike c d → Alike (a + c) (b + d)
  sub_alike {a b c d : α} : Alike a b → Alike c d → Alike (a - c) (b - d)
  mul_alike {a b c d : α} : Alike a b → Alike c d → Alike (a * c) (b * d)

namespace Scalar

variable {α : Type} [Scalar α] {a b c d : α}

@[refl] theorem Alike.refl (a : α) : Alike a a := by
  rw [Alike, isNaN]
  cases a == a <;> simp

variable [LawfulEqScalar α]

open LawfulScalar LawfulEqScalar

theorem isNaN_of_beq (h : (a == b) = true) : isNaN a = false ∧ isNaN b = false :=
  isNaN_of_le (beq_iff.mp h).1

theorem Alike.symm (h : Alike a b) : Alike b a := by
  rcases h with h | ⟨ha, hb⟩
  · exact .inl (beq_iff.mpr (beq_iff.mp h).symm)
  · exact .inr ⟨hb, ha⟩

theorem Alike.isNaN_eq (h : Alike a b) : isNaN a = isNaN b := by
  rcases h with h | ⟨ha, hb⟩
  · obtain ⟨ha, hb⟩ := isNaN_of_beq h
    rw [ha, hb]
  · rw [ha, hb]

/-- Alike values are the same to every comparison. -/
theorem Alike.le_of_le (hab : Alike a b) (hcd : Alike c d) (h : a ≤ c) : b ≤ d := by
  obtain ⟨ha, hc⟩ := isNaN_of_le h
  rcases hab with hab | hab
  · rcases hcd with hcd | hcd
    · exact le_trans (beq_iff.mp hab).2 (le_trans h (beq_iff.mp hcd).1)
    · exact absurd (hc.symm.trans hcd.1) Bool.false_ne_true
  · exact absurd (ha.symm.trans hab.1) Bool.false_ne_true

theorem Alike.le_iff_le (hab : Alike a b) (hcd : Alike c d) : a ≤ c ↔ b ≤ d :=
  ⟨hab.le_of_le hcd, hab.symm.le_of_le hcd.symm⟩

theorem Alike.lt_iff_lt (hab : Alike a b) (hcd : Alike c d) : a < c ↔ b < d := by
  rw [lt_iff, lt_iff, hab.le_iff_le hcd, hcd.le_iff_le hab]

theorem Alike.beq_eq_beq (hab : Alike a b) (hcd : Alike c d) : (a == c) = (b == d) := by
  rw [Bool.eq_iff_iff, beq_iff, beq_iff, hab.le_iff_le hcd, hcd.le_iff_le hab]

theorem Alike.greater (hab : Alike a b) (hcd : Alike c d) :
    Alike (Scalar.greater a c) (Scalar.greater b d) := by
  rw [Scalar.greater, Scalar.greater, hab.isNaN_eq]
  by_cases hb : isNaN b = true
  · rwa [if_pos hb, if_pos hb]
  · rw [if_neg hb, if_neg hb]
    by_cases hlt : b < d
    · rwa [if_pos hlt, if_pos ((hab.lt_iff_lt hcd).mpr hlt)]
    · rwa [if_neg hlt, if_neg fun h => hlt ((hab.lt_iff_lt hcd).mp h)]

end Scalar

/-! ### Products with zero -/

namespace Rounding

open Float.Model Float.Model.UnpackedFloat

theorem mul_comm (u w : UnpackedFloat) :
    UnpackedFloat.mul Format.binary64 u w = UnpackedFloat.mul Format.binary64 w u := by
  have hsign : ∀ s t : Sign, s * t = t * s := by
    intro s t
    cases s <;> cases t <;> rfl
  cases u <;> cases w <;>
    simp only [UnpackedFloat.mul, hsign, Nat.mul_comm, Int.add_comm]

/-- The product of zero and a number is zero. -/
theorem zero_mul_rounds (s : Sign) {u : UnpackedFloat} (hu : Operand u)
    (hfinite : ∀ t, u ≠ .infinity t) :
    Rounds (UnpackedFloat.mul Format.binary64 (.zero s) u) 0 := by
  cases u with
  | infinity t => exact absurd rfl (hfinite t)
  | notANumber => exact hu.elim
  | zero t => exact rounds_zero _
  | finite t m e hm => exact rounds_zero _

end Rounding

namespace Binary64

open Rounding

variable {a b c d : Binary64}

/-- Equal numbers are those of one key. -/
theorem beq_iff_key : (a == b) = true ↔ a.isNaN = false ∧ b.isNaN = false ∧ a.key = b.key := by
  rw [LawfulEqScalar.beq_iff, le_iff, le_iff]
  constructor
  · rintro ⟨⟨ha, hb, hab⟩, -, -, hba⟩
    exact ⟨ha, hb, Int.le_antisymm hab hba⟩
  · rintro ⟨ha, hb, hkey⟩
    exact ⟨⟨ha, hb, hkey.le⟩, hb, ha, hkey.ge⟩

theorem alike_of_isNaN (ha : a.isNaN = true) (hb : b.isNaN = true) : Alike a b := by
  refine .inr ?_
  rw [isNaN_eq, isNaN_eq]
  exact ⟨ha, hb⟩

/-- Two roundings of one exact result are alike. -/
theorem alike_of_nearest {y z : ℝ} (ha : a.isNaN = false ∧ a.key = nearest y)
    (hb : b.isNaN = false ∧ b.key = nearest z) (h : y = z) : Alike a b := by
  refine .inl (beq_iff_key.mpr ⟨ha.1, hb.1, ?_⟩)
  rw [ha.2, hb.2, h]

theorem units_eq (h : a.key = b.key) : a.units = b.units := units_eq_of_key_eq h

theorem eq_infinityOf {s : Float.Model.UnpackedFloat.Sign} (h : a.key = (infinityOf s).key) :
    a = infinityOf s := by
  refine eq_of_key_eq h ?_
  cases s <;> decide

/-- A NaN stays one when it is made quiet. -/
theorem isNaN_quiet (h : a.isNaN = true) : a.quiet.isNaN = true := by
  have hbits : a.quiet.bits.toBitVec.toNat = a.bits.toBitVec.toNat ||| 2 ^ 51 := by
    rw [quiet, UInt64.toNat_toBitVec, UInt64.toNat_toBitVec, UInt64.toNat_or]
    rfl
  have hle : Rounding.magnitude a.bits.toBitVec ≤ Rounding.magnitude a.quiet.bits.toBitVec := by
    rw [Rounding.magnitude, Rounding.magnitude, hbits, Nat.or_mod_two_pow]
    exact Nat.left_le_or
  refine Bool.eq_true_of_not_eq_false fun hquiet => ?_
  have hnum := (isNaN_eq_false_iff a).mpr (hle.trans ((isNaN_eq_false_iff _).mp hquiet))
  exact absurd (hnum.symm.trans h) Bool.false_ne_true

/-- An operation that is alike on equal numbers is alike on alike values: a NaN is passed on. -/
theorem lift_alike {op : Float → Float → Float}
    (hop : ∀ {a b c d : Binary64}, (a == b) = true → (c == d) = true →
      Alike (lift op a c) (lift op b d))
    (hab : Alike a b) (hcd : Alike c d) : Alike (lift op a c) (lift op b d) := by
  rcases hab with hab | hab
  · rcases hcd with hcd | hcd
    · exact hop hab hcd
    · obtain ⟨ha, hb, -⟩ := beq_iff_key.mp hab
      rw [isNaN_eq, isNaN_eq] at hcd
      rw [lift, lift, ha, hb, hcd.1, hcd.2]
      exact alike_of_isNaN (isNaN_quiet hcd.1) (isNaN_quiet hcd.2)
  · rw [isNaN_eq, isNaN_eq] at hab
    rw [lift, lift, hab.1, hab.2]
    exact alike_of_isNaN (isNaN_quiet hab.1) (isNaN_quiet hab.2)

theorem add_alike (hab : (a == b) = true) (hcd : (c == d) = true) : Alike (a + c) (b + d) := by
  obtain ⟨ha, hb, hkey⟩ := beq_iff_key.mp hab
  obtain ⟨hc, hd, hkey'⟩ := beq_iff_key.mp hcd
  rcases add_spec ha hc with ⟨s, rfl, rfl⟩ | hsum
  · rw [eq_infinityOf hkey.symm, eq_infinityOf hkey'.symm]
  · rcases add_spec hb hd with ⟨s, rfl, rfl⟩ | hsum'
    · rw [eq_infinityOf hkey, eq_infinityOf hkey']
    · exact alike_of_nearest hsum hsum' (by rw [units_eq hkey, units_eq hkey'])

theorem sub_alike (hab : (a == b) = true) (hcd : (c == d) = true) : Alike (a - c) (b - d) := by
  obtain ⟨ha, hb, hkey⟩ := beq_iff_key.mp hab
  obtain ⟨hc, hd, hkey'⟩ := beq_iff_key.mp hcd
  rcases sub_spec ha hc with ⟨s, rfl, rfl, -⟩ | hdiff
  · rw [eq_infinityOf hkey.symm, eq_infinityOf hkey'.symm]
  · rcases sub_spec hb hd with ⟨s, rfl, rfl, -⟩ | hdiff'
    · rw [eq_infinityOf hkey, eq_infinityOf hkey']
    · exact alike_of_nearest hdiff hdiff' (by rw [units_eq hkey, units_eq hkey'])

theorem mul_eq (ha : a.isNaN = false) (hb : b.isNaN = false) : a * b =
    ofFloat (.ofModel (.pack (.mul .binary64 a.toFloat.toModel.unpack b.toFloat.toModel.unpack))) :=
  lift_eq _ ha hb

theorem unpack_of_key_eq_zero (ha : a.isNaN = false) (h : a.key = 0) :
    ∃ s, a.toFloat.toModel.unpack = .zero s := by
  have hmagnitude : Rounding.magnitude a.bits.toBitVec = 0 := by
    rw [magnitude_eq_natAbs]
    exact Int.natAbs_eq_zero.mpr h
  rw [unpack_toFloat ha, unpack_zero hmagnitude]
  exact ⟨_, rfl⟩

theorem unpack_infinityOf (s : Float.Model.UnpackedFloat.Sign) :
    (infinityOf s).toFloat.toModel.unpack = .infinity s := by
  cases s with
  | positive => exact (unpack_toFloat rfl).trans (unpack_infinity (by decide))
  | negative => exact (unpack_toFloat rfl).trans (unpack_infinity (by decide))

/-- Zero and infinity have no product. -/
theorem isNaN_zero_mul_infinity (ha : a.isNaN = false) (hzero : a.key = 0)
    (s : Float.Model.UnpackedFloat.Sign) : (a * infinityOf s).isNaN = true := by
  obtain ⟨t, ht⟩ := unpack_of_key_eq_zero ha hzero
  have hnum : (infinityOf s).isNaN = false := by cases s <;> rfl
  rw [mul_eq ha hnum, ht, unpack_infinityOf]
  exact isNaN_ofFloat_notANumber

theorem zero_mul_spec (ha : a.isNaN = false) (hzero : a.key = 0) (hb : b.isNaN = false)
    (hfinite : ∀ s, b ≠ infinityOf s) : (a * b).isNaN = false ∧ (a * b).key = nearest 0 := by
  obtain ⟨t, ht⟩ := unpack_of_key_eq_zero ha hzero
  rw [mul_eq ha hb, ht]
  exact ofFloat_rounds (zero_mul_rounds t (operand_toFloat hb) fun s hs =>
    hfinite s (eq_of_unpack_infinity hb hs))

theorem zero_mul_alike (hab : (a == b) = true) (hcd : (c == d) = true) (hzero : b.key = 0) :
    Alike (a * c) (b * d) := by
  obtain ⟨ha, hb, hkey⟩ := beq_iff_key.mp hab
  obtain ⟨hc, hd, hkey'⟩ := beq_iff_key.mp hcd
  by_cases hinf : ∃ s, c = infinityOf s
  · obtain ⟨s, rfl⟩ := hinf
    rw [eq_infinityOf hkey'.symm]
    exact alike_of_isNaN (isNaN_zero_mul_infinity ha (hkey.trans hzero) s)
      (isNaN_zero_mul_infinity hb hzero s)
  · have hfinite : ∀ s, c ≠ infinityOf s := fun s hs => hinf ⟨s, hs⟩
    have hfinite' : ∀ s, d ≠ infinityOf s := by
      rintro s rfl
      exact hfinite s (eq_infinityOf hkey')
    exact alike_of_nearest (zero_mul_spec ha (hkey.trans hzero) hc hfinite)
      (zero_mul_spec hb hzero hd hfinite') rfl

theorem mul_comm (ha : a.isNaN = false) (hb : b.isNaN = false) : a * b = b * a := by
  rw [mul_eq ha hb, mul_eq hb ha, Rounding.mul_comm]

/-- Equal numbers are the same value unless they are zeros. -/
theorem eq_or_key_eq_zero (h : (a == b) = true) : a = b ∨ b.key = 0 := by
  obtain ⟨-, -, hkey⟩ := beq_iff_key.mp h
  by_cases hb : b.key = 0
  · exact .inr hb
  · exact .inl (eq_of_key_eq hkey hb)

theorem mul_alike (hab : (a == b) = true) (hcd : (c == d) = true) : Alike (a * c) (b * d) := by
  rcases eq_or_key_eq_zero hab with rfl | hzero
  · rcases eq_or_key_eq_zero hcd with rfl | hzero
    · rfl
    · obtain ⟨ha, -⟩ := beq_iff_key.mp hab
      obtain ⟨hc, hd, -⟩ := beq_iff_key.mp hcd
      rw [mul_comm ha hc, mul_comm ha hd]
      exact zero_mul_alike hcd hab hzero
  · exact zero_mul_alike hab hcd hzero

instance : CongruentScalar Binary64 where
  add_alike := lift_alike add_alike
  sub_alike := lift_alike sub_alike
  mul_alike := lift_alike mul_alike

end Binary64

/-! ### Measures -/

namespace Box

open CongruentScalar LawfulScalar

variable {α : Type} [Scalar α] [CongruentScalar α] {a b : Box α}

theorem coord_alike (h : (a == b) = true) (d : Axis) :
    Alike (a.lo.coord d) (b.lo.coord d) ∧ Alike (a.hi.coord d) (b.hi.coord d) := by
  obtain ⟨hab, hba⟩ := beq_iff.mp h
  constructor
  · exact .inl (LawfulEqScalar.beq_iff.mpr ⟨(hab d).1, (hba d).1⟩)
  · exact .inl (LawfulEqScalar.beq_iff.mpr ⟨(hba d).2, (hab d).2⟩)

theorem isEmpty_eq_of_beq (h : (a == b) = true) : a.isEmpty = b.isEmpty := by
  rw [isEmpty, isEmpty]
  congr 1
  funext d
  exact decide_eq_decide.mpr ((coord_alike h d).2.lt_iff_lt (coord_alike h d).1)

theorem extent_alike (h : (a == b) = true) (d : Axis) : Alike (a.extent d) (b.extent d) :=
  (sub_alike (coord_alike h d).2 (coord_alike h d).1).greater (.refl 0)

theorem halfSurface_alike (h : (a == b) = true) : Alike a.halfSurface b.halfSurface := by
  have hextent := extent_alike h
  rw [halfSurface, halfSurface, isEmpty_eq_of_beq h]
  split
  · rfl
  · exact add_alike
      (add_alike (mul_alike (hextent .x) (hextent .y)) (mul_alike (hextent .y) (hextent .z)))
      (mul_alike (hextent .z) (hextent .x))

theorem margin_alike (h : (a == b) = true) : Alike a.margin b.margin := by
  have hextent := extent_alike h
  rw [margin, margin, isEmpty_eq_of_beq h]
  split
  · rfl
  · exact add_alike (add_alike (add_alike (.refl 0) (hextent .x)) (hextent .y)) (hextent .z)

theorem measure_alike (h : (a == b) = true) : Alike (Split.measure a) (Split.measure b) :=
  add_alike (halfSurface_alike h) (margin_alike h)

end Box

end SpatialSearch
