import SpatialSearch.Scalar

/-!
# Laws of scalars

What geometry and search rely on: the values that are numbers are totally ordered, the
order of sorting refines that order and tells every two values apart, and arithmetic is
monotone as far as it gives numbers. Nothing is said of how a result is rounded.
-/

namespace SpatialSearch

/-- A scalar type whose order is total on numbers and whose arithmetic is monotone. -/
class LawfulScalar (α : Type) [Scalar α] : Prop where
  transCmp : Std.TransCmp (Scalar.totalOrder (α := α))
  lawfulEqCmp : Std.LawfulEqCmp (Scalar.totalOrder (α := α))
  isNaN_of_le {a b : α} : a ≤ b → Scalar.isNaN a = false ∧ Scalar.isNaN b = false
  le_trans {a b c : α} : a ≤ b → b ≤ c → a ≤ c
  le_total {a b : α} : Scalar.isNaN a = false → Scalar.isNaN b = false → a ≤ b ∨ b ≤ a
  lt_iff {a b : α} : a < b ↔ a ≤ b ∧ ¬ b ≤ a
  totalOrder_of_lt {a b : α} : a < b → Scalar.totalOrder a b = .lt
  isNaN_zero : Scalar.isNaN (0 : α) = false
  isNaN_infinity : Scalar.isNaN (Scalar.infinity : α) = false
  isNaN_negInfinity : Scalar.isNaN (Scalar.negInfinity : α) = false
  negInfinity_lt_infinity : (Scalar.negInfinity : α) < Scalar.infinity
  le_infinity {a : α} : Scalar.isNaN a = false → a ≤ Scalar.infinity
  negInfinity_le {a : α} : Scalar.isNaN a = false → Scalar.negInfinity ≤ a
  eq_infinity {a : α} : Scalar.infinity ≤ a → a = Scalar.infinity
  eq_negInfinity {a : α} : a ≤ Scalar.negInfinity → a = Scalar.negInfinity
  isNaN_sub {a b : α} : Scalar.isNaN a = false → Scalar.isNaN b = false →
    Scalar.isNaN (a - b) = true → a = b ∧ (a = Scalar.infinity ∨ a = Scalar.negInfinity)
  sub_le_sub {a b c d : α} : a ≤ b → c ≤ d → Scalar.isNaN (a - d) = false →
    Scalar.isNaN (b - c) = false → a - d ≤ b - c
  sub_nonneg {a b : α} : a ≤ b → Scalar.isNaN (b - a) = false → 0 ≤ b - a
  add_le_add {a b c d : α} : 0 ≤ a → a ≤ b → 0 ≤ c → c ≤ d → a + c ≤ b + d
  add_nonneg {a b : α} : 0 ≤ a → 0 ≤ b → 0 ≤ a + b
  square_le_square {a b : α} : 0 ≤ a → a ≤ b → Scalar.square a ≤ Scalar.square b
  square_nonneg {a : α} : 0 ≤ a → 0 ≤ Scalar.square a
  sqrt_le_sqrt {a b : α} : 0 ≤ a → a ≤ b → Scalar.sqrt a ≤ Scalar.sqrt b
  sqrt_nonneg {a : α} : 0 ≤ a → 0 ≤ Scalar.sqrt a

/-- A lawful scalar type in which equal numbers are those that neither exceeds the other.
They may still differ, as the two zeros do. -/
class LawfulEqScalar (α : Type) [Scalar α] : Prop extends LawfulScalar α where
  beq_iff {a b : α} : (a == b) = true ↔ a ≤ b ∧ b ≤ a

namespace Scalar

variable {α : Type} [Scalar α]

def Finite (a : α) : Prop := negInfinity < a ∧ a < infinity

instance (a : α) : Decidable (Finite a) := inferInstanceAs (Decidable (_ ∧ _))

theorem lesser_eq (a b : α) : lesser a b = a ∨ lesser a b = b := by
  rw [lesser]
  split
  · exact Or.inr rfl
  · split
    · exact Or.inr rfl
    · exact Or.inl rfl

theorem greater_eq (a b : α) : greater a b = a ∨ greater a b = b := by
  rw [greater]
  split
  · exact Or.inr rfl
  · split
    · exact Or.inr rfl
    · exact Or.inl rfl

variable [LawfulScalar α] {a b c : α}

open LawfulScalar

instance : Std.TransCmp (totalOrder (α := α)) := transCmp

instance : Std.LawfulEqCmp (totalOrder (α := α)) := lawfulEqCmp

theorem le_self (h : isNaN a = false) : a ≤ a := (le_total h h).elim id id

theorem le_of_lt (h : a < b) : a ≤ b := (lt_iff.mp h).1

theorem not_le_of_lt (h : a < b) : ¬ b ≤ a := (lt_iff.mp h).2

theorem lt_irrefl (a : α) : ¬ a < a := fun h => not_le_of_lt h (le_of_lt h)

theorem le_of_not_lt (ha : isNaN a = false) (hb : isNaN b = false) (h : ¬ a < b) : b ≤ a := by
  by_cases hba : b ≤ a
  · exact hba
  · exact absurd (lt_iff.mpr ⟨(le_total ha hb).resolve_right hba, hba⟩) h

theorem lt_of_not_le (ha : isNaN a = false) (hb : isNaN b = false) (h : ¬ a ≤ b) : b < a :=
  lt_iff.mpr ⟨(le_total ha hb).resolve_left h, h⟩

theorem lt_of_lt_of_le (hab : a < b) (hbc : b ≤ c) : a < c :=
  lt_iff.mpr ⟨le_trans (le_of_lt hab) hbc, fun hca => not_le_of_lt hab (le_trans hbc hca)⟩

theorem lt_of_le_of_lt (hab : a ≤ b) (hbc : b < c) : a < c :=
  lt_iff.mpr ⟨le_trans hab (le_of_lt hbc), fun hca => not_le_of_lt hbc (le_trans hca hab)⟩

/-- Of numbers the one that is sorted first is not the greater one. -/
theorem le_of_isLE (ha : isNaN a = false) (hb : isNaN b = false)
    (h : (totalOrder a b).isLE) : a ≤ b := by
  refine le_of_not_lt hb ha fun hlt => ?_
  have hswap : totalOrder a b = (totalOrder b a).swap := Std.OrientedCmp.eq_swap
  rw [hswap, totalOrder_of_lt hlt] at h
  exact Bool.false_ne_true h

theorem Finite.isNaN (h : Finite a) : Scalar.isNaN a = false :=
  (isNaN_of_le (le_of_lt h.1)).2

theorem isNaN_sub_of_lt (h : a < b) : isNaN (b - a) = false := by
  obtain ⟨ha, hb⟩ := isNaN_of_le (le_of_lt h)
  refine Bool.eq_false_iff.mpr fun hnan => ?_
  obtain ⟨rfl, -⟩ := isNaN_sub hb ha hnan
  exact lt_irrefl _ h

theorem lesser_le_left (ha : isNaN a = false) : lesser a b ≤ a := by
  rw [lesser, ha, if_neg Bool.false_ne_true]
  by_cases h : b < a
  · rw [if_pos h]
    exact le_of_lt h
  · rw [if_neg h]
    exact le_self ha

theorem lesser_le_right (ha : isNaN a = false) (hb : isNaN b = false) : lesser a b ≤ b := by
  rw [lesser, ha, if_neg Bool.false_ne_true]
  by_cases h : b < a
  · rw [if_pos h]
    exact le_self hb
  · rw [if_neg h]
    exact le_of_not_lt hb ha h

theorem left_le_greater (ha : isNaN a = false) : a ≤ greater a b := by
  rw [greater, ha, if_neg Bool.false_ne_true]
  by_cases h : a < b
  · rw [if_pos h]
    exact le_of_lt h
  · rw [if_neg h]
    exact le_self ha

theorem right_le_greater (hb : isNaN b = false) : b ≤ greater a b := by
  rw [greater]
  by_cases ha : isNaN a = true
  · rw [if_pos ha]
    exact le_self hb
  · rw [if_neg ha]
    by_cases h : a < b
    · rw [if_pos h]
      exact le_self hb
    · rw [if_neg h]
      exact le_of_not_lt (Bool.eq_false_iff.mpr ha) hb h

/-- The greater of two values is a number unless neither of them is. -/
theorem isNaN_of_isNaN_greater (h : isNaN (greater a b) = true) :
    isNaN a = true ∧ isNaN b = true := by
  constructor
  · cases ha : isNaN a with
    | true => rfl
    | false => exact (isNaN_of_le (left_le_greater (b := b) ha)).2.symm.trans h
  · cases hb : isNaN b with
    | true => rfl
    | false => exact (isNaN_of_le (right_le_greater (a := a) hb)).2.symm.trans h

theorem lesser_infinity (h : isNaN b = false) : lesser infinity b = b := by
  rw [lesser, isNaN_infinity, if_neg Bool.false_ne_true]
  by_cases hb : b < infinity
  · rw [if_pos hb]
  · rw [if_neg hb, eq_infinity (le_of_not_lt h isNaN_infinity hb)]

theorem greater_negInfinity (h : isNaN b = false) : greater negInfinity b = b := by
  rw [greater, isNaN_negInfinity, if_neg Bool.false_ne_true]
  by_cases hb : negInfinity < b
  · rw [if_pos hb]
  · rw [if_neg hb, eq_negInfinity (le_of_not_lt isNaN_negInfinity h hb)]

theorem lesser_infinity_right (h : isNaN a = false) : lesser a infinity = a := by
  rw [lesser, h, if_neg Bool.false_ne_true, if_neg fun ha => not_le_of_lt ha (le_infinity h)]

theorem greater_negInfinity_right (h : isNaN a = false) : greater a negInfinity = a := by
  rw [greater, h, if_neg Bool.false_ne_true, if_neg fun ha => not_le_of_lt ha (negInfinity_le h)]

end Scalar

end SpatialSearch
