import SpatialSearch.Proofs.Congruence
import SpatialSearch.Proofs.Shortlist

/-!
# Order and equality of neighbors

The order of neighbors is total on all values and tells any two apart, also those whose distance
is no number. Equality compares distances as numbers instead. It is symmetric and transitive, but
a neighbor whose distance is no number is not equal to itself, and neighbors at the two zeros are
equal although one comes before the other. `AtOdds` names these pairs; on all others the two
relations say the same, of lists as well.

No distance that a search computes is of that kind: it is a number, and it is not minus zero even
where the difference of two coordinates is.
-/

namespace SpatialSearch

namespace Binary64

/-- Minus zero, which equals zero and is sorted before it. -/
def minusZero : Binary64 := ⟨signBit⟩

def leastPositive : Binary64 := ⟨1⟩

def OppositeZeros (x y : Binary64) : Prop :=
  x = 0 ∧ y = minusZero ∨ x = minusZero ∧ y = 0

instance (x y : Binary64) : Decidable (OppositeZeros x y) := inferInstanceAs (Decidable (_ ∨ _))

variable {a b : Binary64}

theorem key_eq_zero_iff : a.key = 0 ↔ a = 0 ∨ a = minusZero := by
  constructor
  · intro hkey
    have hbits := toNat_bits a
    rw [toNat_magnitude, Rounding.magnitude_eq_natAbs, show Rounding.key a.bits.toBitVec = 0 from hkey,
      Int.natAbs_zero] at hbits
    split at hbits
    · exact .inr (congrArg mk (UInt64.toNat_inj.mp hbits))
    · exact .inl (congrArg mk (UInt64.toNat_inj.mp hbits))
  · rintro (rfl | rfl) <;> decide

theorem OppositeZeros.ne (h : OppositeZeros a b) : a ≠ b := by
  rcases h with ⟨rfl, rfl⟩ | ⟨rfl, rfl⟩ <;> decide

theorem OppositeZeros.isNaN (h : OppositeZeros a b) : a.isNaN = false := by
  rcases h with ⟨rfl, -⟩ | ⟨rfl, -⟩ <;> rfl

/-- Equal numbers are the same value or the two zeros. -/
theorem beq_iff_eq_or_zeros :
    (a == b) = true ↔ a.isNaN = false ∧ (a = b ∨ OppositeZeros a b) := by
  constructor
  · intro h
    obtain ⟨ha, -, hkey⟩ := beq_iff_key.mp h
    refine ⟨ha, ?_⟩
    rcases eq_or_key_eq_zero h with heq | hzero
    · exact .inl heq
    · rcases key_eq_zero_iff.mp hzero with rfl | rfl <;>
        rcases key_eq_zero_iff.mp (hkey.trans hzero) with rfl | rfl
      · exact .inl rfl
      · exact .inr (.inr ⟨rfl, rfl⟩)
      · exact .inr (.inl ⟨rfl, rfl⟩)
      · exact .inl rfl
  · rintro ⟨ha, rfl | ⟨rfl, rfl⟩ | ⟨rfl, rfl⟩⟩
    · exact beq_iff_key.mpr ⟨ha, ha, rfl⟩
    · rfl
    · rfl

/-! ### Distances are not minus zero -/

/-- Zero or above, and not minus zero. -/
def Unsigned (a : Binary64) : Prop := a = 0 ∨ leastPositive ≤ a

theorem unsigned_of_nonneg (h : 0 ≤ a) : Unsigned a ∨ a = minusZero := by
  obtain ⟨-, ha, hkey⟩ := le_iff.mp h
  by_cases hzero : a.key = 0
  · rcases key_eq_zero_iff.mp hzero with rfl | rfl
    · exact .inl (.inl rfl)
    · exact .inr rfl
  · refine .inl (.inr (le_iff.mpr ⟨rfl, ha, ?_⟩))
    rw [show leastPositive.key = 1 by decide]
    rw [show (0 : Binary64).key = 0 by decide] at hkey
    omega

theorem Unsigned.nonneg (h : Unsigned a) : 0 ≤ a := by
  rcases h with rfl | h
  · decide
  · exact trans (by decide) h

theorem Unsigned.ne_minusZero (h : Unsigned a) : a ≠ minusZero := by
  rintro rfl
  rcases h with h | h
  · exact absurd h (by decide)
  · exact absurd h (by decide)

/-- A sum is not minus zero if one of its parts is not. -/
theorem Unsigned.add (ha : Unsigned a) (hb : 0 ≤ b) : Unsigned (a + b) := by
  have hzero : (0 : Binary64) ≤ 0 := by decide
  rcases ha with rfl | ha
  · rcases unsigned_of_nonneg hb with (rfl | hb) | rfl
    · exact .inl (by decide)
    · have hleast : leastPositive ≤ 0 + leastPositive := by decide
      exact .inr (trans hleast (add_le_add hzero hzero (by decide) hb))
    · exact .inl (by decide)
  · have hleast : leastPositive ≤ leastPositive + 0 := by decide
    exact .inr (trans hleast (add_le_add (by decide) ha hzero hb))

theorem Unsigned.sqrt (h : Unsigned a) : Unsigned (sqrt a) := by
  rcases h with rfl | h
  · exact .inl (by decide)
  · have hleast : leastPositive ≤ Binary64.sqrt leastPositive := by decide +kernel
    exact .inr (trans hleast (sqrt_le_sqrt (by decide) h))

end Binary64

open Binary64 (OppositeZeros Unsigned)

theorem Box.unsigned_distance (b : Box Binary64) (p : Point Binary64) :
    Unsigned (b.distance p) := by
  have hsquare : ∀ d, 0 ≤ Scalar.square (b.excess p d) := fun d =>
    LawfulScalar.square_nonneg (excess_nonneg b p d)
  rw [distance]
  split
  · exact .inr (by decide)
  · have hsum : Unsigned (b.squaredDistance p) :=
      ((Unsigned.add (.inl rfl) (hsquare .x)).add (hsquare .y)).add (hsquare .z)
    exact hsum.sqrt

namespace Neighbor

/-! ### Where order and equality differ -/

/-- The pairs that order and equality see differently: the same neighbor twice if its distance is
no number, and one entry at zero and at minus zero. -/
def AtOdds (a b : Neighbor Binary64) : Prop :=
  a.index = b.index ∧ (a.distance = b.distance ∧ a.distance.isNaN = true ∨
    OppositeZeros a.distance b.distance)

instance (a b : Neighbor Binary64) : Decidable (AtOdds a b) := inferInstanceAs (Decidable (_ ∧ _))

section Laws

variable {α : Type} [Scalar α] {a b c : Neighbor α}

theorem beq_iff :
    (a == b) = true ↔ (a.distance == b.distance) = true ∧ a.index = b.index := by
  change (a.distance == b.distance && a.index == b.index) = true ↔ _
  rw [Bool.and_eq_true]
  exact and_congr_right fun _ => beq_iff_eq

theorem order_eq_iff [LawfulScalar α] : a.order b = .eq ↔ a = b :=
  ⟨Std.LawfulEqCmp.eq_of_compare, fun h => h ▸ Std.ReflCmp.compare_self⟩

theorem precedes_eq [LawfulScalar α] : a.precedes b = !b.notAfter a := by
  have hswap : b.order a = (a.order b).swap := Std.OrientedCmp.eq_swap
  rw [precedes, notAfter, hswap]
  cases a.order b <;> rfl

theorem beq_comm [LawfulEqScalar α] : (a == b) = (b == a) := by
  rw [Bool.eq_iff_iff, beq_iff, beq_iff, LawfulEqScalar.beq_iff, LawfulEqScalar.beq_iff]
  exact and_congr and_comm eq_comm

theorem beq_trans [LawfulEqScalar α] (hab : (a == b) = true) (hbc : (b == c) = true) :
    (a == c) = true := by
  obtain ⟨hab, hindex⟩ := beq_iff.mp hab
  obtain ⟨hbc, hindex'⟩ := beq_iff.mp hbc
  obtain ⟨hab, hba⟩ := LawfulEqScalar.beq_iff.mp hab
  obtain ⟨hbc, hcb⟩ := LawfulEqScalar.beq_iff.mp hbc
  refine beq_iff.mpr ⟨LawfulEqScalar.beq_iff.mpr ⟨?_, ?_⟩, hindex.trans hindex'⟩
  · exact LawfulScalar.le_trans hab hbc
  · exact LawfulScalar.le_trans hcb hba

end Laws

variable {a b : Neighbor Binary64}

theorem beq_self_iff : (a == a) = true ↔ a.distance.isNaN = false := by
  rw [beq_iff, Binary64.beq_iff_key]
  simp

theorem agree_iff : ((a == b) = true ↔ a.order b = .eq) ↔ ¬ a.AtOdds b := by
  have hext : a = b ↔ a.distance = b.distance ∧ a.index = b.index := by
    cases a
    cases b
    simp
  rw [order_eq_iff, beq_iff, Binary64.beq_iff_eq_or_zeros, hext, AtOdds]
  constructor
  · rintro hagree ⟨hindex, ⟨hdistance, hnan⟩ | hzeros⟩
    · have hnum := (hagree.mpr ⟨hdistance, hindex⟩).1.1
      exact absurd (hnum.symm.trans hnan) Bool.false_ne_true
    · exact hzeros.ne (hagree.mp ⟨⟨hzeros.isNaN, .inr hzeros⟩, hindex⟩).1
  · intro hnot
    constructor
    · rintro ⟨⟨-, hdistance | hzeros⟩, hindex⟩
      · exact ⟨hdistance, hindex⟩
      · exact absurd ⟨hindex, .inr hzeros⟩ hnot
    · rintro ⟨hdistance, hindex⟩
      have hnum : a.distance.isNaN = false := Bool.eq_false_iff.mpr fun hnan =>
        hnot ⟨hindex, .inl ⟨hdistance, hnan⟩⟩
      exact ⟨⟨hnum, .inl hdistance⟩, hindex⟩

theorem not_atOdds_of_unsigned (ha : Unsigned a.distance) (hb : Unsigned b.distance) :
    ¬ a.AtOdds b := by
  rintro ⟨-, ⟨-, hnan⟩ | ⟨-, hzero⟩ | ⟨hzero, -⟩⟩
  · exact absurd (ha.nonneg.2.1.symm.trans hnan) Bool.false_ne_true
  · exact hb.ne_minusZero hzero
  · exact ha.ne_minusZero hzero

/-- Lists are equal only if they are the same, where no neighbor of one is at odds with a
neighbor of the other. -/
theorem list_beq_iff {l m : List (Neighbor Binary64)}
    (h : ∀ a ∈ l, ∀ b ∈ m, ¬ a.AtOdds b) : (l == m) = true ↔ l = m := by
  induction l generalizing m with
  | nil => cases m <;> simp
  | cons a l ih =>
    cases m with
    | nil => simp
    | cons b m =>
      have hhead : (a == b) = true ↔ a = b := by
        rw [agree_iff.mpr (h a List.mem_cons_self b List.mem_cons_self), order_eq_iff]
      have htail : (l == m) = true ↔ l = m :=
        ih fun x hx y hy => h x (List.mem_cons_of_mem a hx) y (List.mem_cons_of_mem b hy)
      rw [List.cons_beq_cons, Bool.and_eq_true, hhead, htail, List.cons.injEq]

theorem sort_perm (l : List (Neighbor Binary64)) : (sort l).Perm l := Ranking.sort_perm l

theorem sort_eq_iff {l m : List (Neighbor Binary64)} : sort l = sort m ↔ l.Perm m := by
  constructor
  · intro h
    exact ((sort_perm l).symm.trans (.of_eq h)).trans (sort_perm m)
  · exact Ranking.sort_congr

theorem sort_beq_iff {l m : List (Neighbor Binary64)}
    (h : ∀ a ∈ l, ∀ b ∈ m, ¬ a.AtOdds b) : (sort l == sort m) = true ↔ l.Perm m := by
  have hsorted : ∀ a ∈ sort l, ∀ b ∈ sort m, ¬ a.AtOdds b := fun a ha b hb =>
    h a ((sort_perm l).subset ha) b ((sort_perm m).subset hb)
  rw [list_beq_iff hsorted, sort_eq_iff]

/-- Over all distances, those that are no numbers and both zeros included: the order is total and
tells all neighbors apart, the test of the heap is its strict part, and equality is symmetric and
transitive. A neighbor is equal to itself unless its distance is no number, and equality says the
same as the order of exactly those pairs that are not at odds. Lists without such pairs are equal
when they are the same, and when sorted if they hold the same neighbors. Distances to boxes are
never at odds. -/
theorem order_and_equality (a b c : Neighbor Binary64) (l m : List (Neighbor Binary64)) :
    (a.order b = (b.order a).swap ∧
      ((a.order b).isLE → (b.order c).isLE → (a.order c).isLE) ∧
      ((a.order b).isLE ∨ (b.order a).isLE) ∧
      (a.order b = .eq ↔ a = b) ∧ a.precedes b = !b.notAfter a) ∧
    ((a == b) = (b == a) ∧ ((a == b) = true → (b == c) = true → (a == c) = true) ∧
      ((a == a) = true ↔ a.distance.isNaN = false)) ∧
    (((a == b) = true ↔ a.order b = .eq) ↔ ¬ a.AtOdds b) ∧
    ((∀ x ∈ l, ∀ y ∈ m, ¬ x.AtOdds y) →
      ((l == m) = true ↔ l = m) ∧ ((sort l == sort m) = true ↔ l.Perm m)) ∧
    ∀ (box other : Box Binary64) (p q : Point Binary64),
      ¬ AtOdds ⟨box.distance p, a.index⟩ ⟨other.distance q, b.index⟩ := by
  refine ⟨⟨?_, ?_, ?_, order_eq_iff, precedes_eq⟩, ⟨beq_comm, beq_trans, beq_self_iff⟩, agree_iff,
    fun h => ⟨list_beq_iff h, sort_beq_iff h⟩, fun box other p q => ?_⟩
  · exact Std.OrientedCmp.eq_swap
  · exact Std.TransCmp.isLE_trans
  · exact Ranking.isLE_total a b
  · exact not_atOdds_of_unsigned (box.unsigned_distance p) (other.unsigned_distance q)

/-- One entry at both zeros, and two lists of two neighbors in different order. -/
theorem order_and_equality_zerosAndHalf :
    let zero : Neighbor Binary64 := ⟨0, 3⟩
    let minus : Neighbor Binary64 := ⟨Binary64.minusZero, 3⟩
    let half : Neighbor Binary64 := ⟨.half, 1⟩
    (minus.order zero).isLE ∧ (zero.order half).isLE ∧ (minus.order half).isLE ∧
      (zero == minus) = true ∧ (minus == zero) = true ∧ (zero == zero) = true ∧
      minus.AtOdds zero ∧ ¬ ((minus == zero) = true ↔ minus.order zero = .eq) ∧
      (∀ x ∈ [half, zero], ∀ y ∈ [zero, half], ¬ x.AtOdds y) ∧
      (sort [half, zero] == sort [zero, half]) = true := by
  intro zero minus half
  obtain ⟨⟨-, htrans, -⟩, -, hagree, hlists, -⟩ :=
    order_and_equality minus zero half [half, zero] [zero, half]
  obtain ⟨-, ⟨-, hequal, -⟩, -⟩ := order_and_equality zero minus zero [] []
  have hodds : minus.AtOdds zero := by decide
  have hforth : (zero == minus) = true := by decide
  have hback : (minus == zero) = true := by decide
  have hlisted : ∀ x ∈ [half, zero], ∀ y ∈ [zero, half], ¬ x.AtOdds y := by decide
  have hlow : (minus.order zero).isLE := by decide
  have hhigh : (zero.order half).isLE := by decide
  exact ⟨hlow, hhigh, htrans hlow hhigh, hforth, hback, hequal hforth hback, hodds,
    fun h => hagree.mp h hodds, hlisted, (hlists hlisted).2.mpr (.swap zero half [])⟩

/-- A neighbor whose distance is no number ties with itself and is not equal to itself; the two
zeros are equal and do not tie. -/
theorem equality_differs_from_order :
    let nan : Neighbor Binary64 := ⟨⟨0x7ff8000000000000⟩, 0⟩
    let zero : Neighbor Binary64 := ⟨0, 0⟩
    let minus : Neighbor Binary64 := ⟨Binary64.minusZero, 0⟩
    ((nan == nan) = false ∧ nan.order nan = .eq) ∧
      ((zero == minus) = true ∧ zero.order minus = .gt) := by
  decide

end Neighbor

end SpatialSearch
