import SpatialSearch.Proofs.ScalarLaws
import SpatialSearch.Query

/-!
# Enclosing boxes

A box encloses another if its corners do. What matches or is near in the inner box then
matches or is at least as near in the outer one, under rounding and with infinite
coordinates. The distance to the far corner of the outer box bounds every distance to the
inner one unless it has no value, which is the case only if the outer box is flat at infinity
and the point lies there too.
-/

namespace SpatialSearch

open LawfulScalar

namespace Axis

theorem mem_all (d : Axis) : d ∈ all := by cases d <;> simp [all]

theorem all_all_iff {p : Axis → Bool} : all.all p = true ↔ ∀ d, p d = true := by
  rw [List.all_eq_true]
  exact ⟨fun h d => h d (mem_all d), fun h d _ => h d⟩

theorem any_all_eq_false_iff {p : Axis → Bool} : all.any p = false ↔ ∀ d, p d = false := by
  rw [List.any_eq_false]
  constructor
  · intro h d
    exact Bool.eq_false_iff.mpr (h d (mem_all d))
  · intro h d _
    exact Bool.eq_false_iff.mp (h d)

instance (p : Axis → Prop) [∀ d, Decidable (p d)] : Decidable (∀ d, p d) :=
  decidable_of_iff (∀ d ∈ all, p d) ⟨fun h d => h d (mem_all d), fun h d _ => h d⟩

instance (p : Axis → Prop) [∀ d, Decidable (p d)] : Decidable (∃ d, p d) :=
  decidable_of_iff (∃ d ∈ all, p d) ⟨fun ⟨d, _, h⟩ => ⟨d, h⟩, fun ⟨d, h⟩ => ⟨d, mem_all d, h⟩⟩

variable {α : Type} [Scalar α] [LawfulScalar α] {f g : Axis → α}

theorem zero_le_zero : (0 : α) ≤ 0 := Scalar.le_self isNaN_zero

theorem sum_nonneg (hf : ∀ d, 0 ≤ f d) : 0 ≤ sum f :=
  add_nonneg (add_nonneg (add_nonneg zero_le_zero (hf .x)) (hf .y)) (hf .z)

theorem sum_le_sum (hf : ∀ d, 0 ≤ f d) (hfg : ∀ d, f d ≤ g d) : sum f ≤ sum g := by
  have hx := add_nonneg zero_le_zero (hf .x)
  have hxy := add_nonneg hx (hf .y)
  exact add_le_add hxy
    (add_le_add hx (add_le_add zero_le_zero zero_le_zero (hf .x) (hfg .x)) (hf .y) (hfg .y))
    (hf .z) (hfg .z)

end Axis

namespace Point

variable {α : Type} [Scalar α]

/-- Every coordinate is a number, which may be infinite. -/
def Numeric (p : Point α) : Prop := ∀ d, Scalar.isNaN (p.coord d) = false

def Finite (p : Point α) : Prop := ∀ d, Scalar.Finite (p.coord d)

theorem Finite.numeric [LawfulScalar α] {p : Point α} (h : p.Finite) : p.Numeric :=
  fun d => (h d).isNaN

instance (p : Point α) : Decidable p.Numeric := inferInstanceAs (Decidable (∀ _, _))

instance (p : Point α) : Decidable p.Finite := inferInstanceAs (Decidable (∀ _, _))

end Point

namespace Box

variable {α : Type} [Scalar α]

/-- Both corners are numeric; the box may be empty. -/
def Numeric (b : Box α) : Prop := b.lo.Numeric ∧ b.hi.Numeric

def Finite (b : Box α) : Prop := b.lo.Finite ∧ b.hi.Finite

instance (b : Box α) : Decidable b.Numeric := inferInstanceAs (Decidable (_ ∧ _))

instance (b : Box α) : Decidable b.Finite := inferInstanceAs (Decidable (_ ∧ _))

theorem contains_iff (b : Box α) (p : Point α) : b.contains p = true ↔
    ∀ d, b.lo.coord d ≤ p.coord d ∧ p.coord d ≤ b.hi.coord d := by
  rw [contains, Axis.all_all_iff]
  simp

theorem meets_iff (a b : Box α) : a.meets b = true ↔
    ∀ d, a.lo.coord d ≤ b.hi.coord d ∧ b.lo.coord d ≤ a.hi.coord d := by
  rw [meets, Axis.all_all_iff]
  simp

/-- The corners of one box lie between those of another on every axis. -/
def Encloses (u a : Box α) : Prop :=
  ∀ d, u.lo.coord d ≤ a.lo.coord d ∧ a.hi.coord d ≤ u.hi.coord d

instance (u a : Box α) : Decidable (u.Encloses a) := inferInstanceAs (Decidable (∀ _, _))

variable [LawfulScalar α] {a b u : Box α}

theorem Finite.numeric (h : b.Finite) : b.Numeric :=
  ⟨h.1.numeric, h.2.numeric⟩

theorem lo_le_hi (hb : b.Numeric) (h : b.isEmpty = false) (d : Axis) :
    b.lo.coord d ≤ b.hi.coord d := by
  have hd := Axis.any_all_eq_false_iff.mp h d
  exact Scalar.le_of_not_lt (hb.2 d) (hb.1 d) (of_decide_eq_false hd)

theorem isEmpty_eq_false (h : ∀ d, b.lo.coord d ≤ b.hi.coord d) : b.isEmpty = false :=
  Axis.any_all_eq_false_iff.mpr fun d =>
    decide_eq_false fun hlt => Scalar.not_le_of_lt hlt (h d)

theorem Encloses.numeric (h : u.Encloses a) : a.Numeric :=
  ⟨fun d => (isNaN_of_le (h d).1).2, fun d => (isNaN_of_le (h d).2).1⟩

theorem Encloses.isEmpty (h : u.Encloses a) (ha : a.isEmpty = false) : u.isEmpty = false := by
  refine isEmpty_eq_false fun d => ?_
  exact le_trans (h d).1 (le_trans (lo_le_hi h.numeric ha d) (h d).2)

theorem Encloses.trans (hub : u.Encloses b) (hba : b.Encloses a) : u.Encloses a :=
  fun d => ⟨le_trans (hub d).1 (hba d).1, le_trans (hba d).2 (hub d).2⟩

theorem Numeric.encloses_self (h : b.Numeric) : b.Encloses b :=
  fun d => ⟨Scalar.le_self (h.1 d), Scalar.le_self (h.2 d)⟩

/-! ### Distances -/

theorem excess_nonneg (b : Box α) (p : Point α) (d : Axis) : 0 ≤ b.excess p d := by
  rw [excess]
  by_cases hlo : p.coord d < b.lo.coord d
  · rw [if_pos hlo]
    exact sub_nonneg (Scalar.le_of_lt hlo) (Scalar.isNaN_sub_of_lt hlo)
  · rw [if_neg hlo]
    by_cases hhi : b.hi.coord d < p.coord d
    · rw [if_pos hhi]
      exact sub_nonneg (Scalar.le_of_lt hhi) (Scalar.isNaN_sub_of_lt hhi)
    · rw [if_neg hhi]
      exact Axis.zero_le_zero

/-- The outer box is never left farther than the inner one. -/
theorem excess_le_excess (h : u.Encloses a) (ha : a.isEmpty = false) (p : Point α) (d : Axis) :
    u.excess p d ≤ a.excess p d := by
  have hpos := excess_nonneg a p d
  have hmid := lo_le_hi h.numeric ha d
  rw [excess]
  by_cases hlo : p.coord d < u.lo.coord d
  · have hlo' := Scalar.lt_of_lt_of_le hlo (h d).1
    have hp := Scalar.le_self (isNaN_of_le (Scalar.le_of_lt hlo)).1
    rw [if_pos hlo, excess, if_pos hlo']
    exact sub_le_sub (h d).1 hp (Scalar.isNaN_sub_of_lt hlo) (Scalar.isNaN_sub_of_lt hlo')
  · rw [if_neg hlo]
    by_cases hhi : u.hi.coord d < p.coord d
    · have hhi' := Scalar.lt_of_le_of_lt (h d).2 hhi
      have hp := Scalar.le_self (isNaN_of_le (Scalar.le_of_lt hhi)).2
      have hout : ¬ p.coord d < a.lo.coord d := fun hlt =>
        Scalar.not_le_of_lt hlt (le_trans hmid (Scalar.le_of_lt hhi'))
      rw [if_pos hhi, excess, if_neg hout, if_pos hhi']
      exact sub_le_sub hp (h d).2 (Scalar.isNaN_sub_of_lt hhi) (Scalar.isNaN_sub_of_lt hhi')
    · rw [if_neg hhi]
      exact hpos

theorem squaredDistance_nonneg (b : Box α) (p : Point α) : 0 ≤ b.squaredDistance p :=
  Axis.sum_nonneg fun d => square_nonneg (excess_nonneg b p d)

theorem distance_nonneg (b : Box α) (p : Point α) : 0 ≤ b.distance p := by
  rw [distance]
  split
  · exact le_infinity isNaN_zero
  · exact sqrt_nonneg (squaredDistance_nonneg b p)

theorem isNaN_distance (b : Box α) (p : Point α) : Scalar.isNaN (b.distance p) = false :=
  (isNaN_of_le (distance_nonneg b p)).2

/-- An enclosing box is no farther away than a box in it that is not empty. -/
theorem distance_le_distance (h : u.Encloses a) (ha : a.isEmpty = false) (p : Point α) :
    u.distance p ≤ a.distance p := by
  rw [distance, distance, ha, h.isEmpty ha, if_neg Bool.false_ne_true,
    if_neg Bool.false_ne_true]
  refine sqrt_le_sqrt (squaredDistance_nonneg u p) (Axis.sum_le_sum ?_ ?_)
  · exact fun d => square_nonneg (excess_nonneg u p d)
  · exact fun d => square_le_square (excess_nonneg u p d) (excess_le_excess h ha p d)

/-- The reach of a box has a value on every axis. -/
def Reaches (b : Box α) (p : Point α) : Prop := ∀ d, Scalar.isNaN (b.reach p d) = false

/-- Along some axis a box is flat at infinity, and a point lies there too. -/
def PinnedBeyond (b : Box α) (p : Point α) : Prop :=
  ∃ d, b.lo.coord d = p.coord d ∧ b.hi.coord d = p.coord d ∧
    (p.coord d = Scalar.infinity ∨ p.coord d = Scalar.negInfinity)

omit [LawfulScalar α] in
instance [DecidableEq α] (b : Box α) (p : Point α) : Decidable (b.PinnedBeyond p) :=
  inferInstanceAs (Decidable (∃ _, _))

theorem reaches_of_not_pinned (hb : b.Numeric) {p : Point α} (hp : p.Numeric)
    (h : ¬ b.PinnedBeyond p) : b.Reaches p := by
  intro d
  refine Bool.eq_false_iff.mpr fun hnan => h ⟨d, ?_⟩
  obtain ⟨hlo, hhi⟩ := Scalar.isNaN_of_isNaN_greater hnan
  obtain ⟨hplo, hinf⟩ := isNaN_sub (hp d) (hb.1 d) hlo
  obtain ⟨hhip, -⟩ := isNaN_sub (hb.2 d) (hp d) hhi
  exact ⟨hplo.symm, hhip, hinf⟩

theorem Finite.reaches (hb : b.Finite) {p : Point α} (hp : p.Finite) : b.Reaches p := by
  refine reaches_of_not_pinned hb.numeric hp.numeric ?_
  rintro ⟨d, -, -, hinf | hinf⟩
  · exact Scalar.lt_irrefl _ (hinf ▸ (hp d).2)
  · exact Scalar.lt_irrefl _ (hinf ▸ (hp d).1)

/-- The farther side of an enclosing box is beyond every point that is outside the inner
box or in it. -/
theorem excess_le_reach (h : u.Encloses a) (ha : a.isEmpty = false) {p : Point α}
    (hp : p.Numeric) (hreach : u.Reaches p) (d : Axis) : a.excess p d ≤ u.reach p d := by
  have hmid := lo_le_hi h.numeric ha d
  have hpp := Scalar.le_self (hp d)
  have hleft (hnum : Scalar.isNaN (p.coord d - u.lo.coord d) = false) :
      p.coord d - u.lo.coord d ≤ u.reach p d := Scalar.left_le_greater hnum
  have hright (hnum : Scalar.isNaN (u.hi.coord d - p.coord d) = false) :
      u.hi.coord d - p.coord d ≤ u.reach p d := Scalar.right_le_greater hnum
  rw [excess]
  by_cases hlo : p.coord d < a.lo.coord d
  · have hbelow := Scalar.lt_of_lt_of_le hlo (le_trans hmid (h d).2)
    have hhip := Scalar.isNaN_sub_of_lt hbelow
    rw [if_pos hlo]
    exact le_trans (sub_le_sub (le_trans hmid (h d).2) hpp (Scalar.isNaN_sub_of_lt hlo) hhip)
      (hright hhip)
  · rw [if_neg hlo]
    by_cases hhi : a.hi.coord d < p.coord d
    · have habove := Scalar.lt_of_le_of_lt (le_trans (h d).1 hmid) hhi
      have hplo := Scalar.isNaN_sub_of_lt habove
      rw [if_pos hhi]
      exact le_trans (sub_le_sub hpp (le_trans (h d).1 hmid) (Scalar.isNaN_sub_of_lt hhi) hplo)
        (hleft hplo)
    · -- Inside the inner box one of the two sides of the outer box has a distance.
      rw [if_neg hhi]
      have hin := le_trans (h d).1 (Scalar.le_of_not_lt (hp d) (h.numeric.1 d) hlo)
      have hin' := le_trans (Scalar.le_of_not_lt (h.numeric.2 d) (hp d) hhi) (h d).2
      by_cases hplo : Scalar.isNaN (p.coord d - u.lo.coord d) = true
      · have hhip : Scalar.isNaN (u.hi.coord d - p.coord d) = false := by
          have := hreach d
          rwa [reach, Scalar.greater, if_pos hplo] at this
        exact le_trans (sub_nonneg hin' hhip) (hright hhip)
      · have hplo := Bool.eq_false_iff.mpr hplo
        exact le_trans (sub_nonneg hin hplo) (hleft hplo)

/-- Nothing in a box is farther away than its far corner, if that has a distance. -/
theorem distance_le_farDistance (h : u.Encloses a) (ha : a.isEmpty = false) {p : Point α}
    (hp : p.Numeric) (hreach : u.Reaches p) : a.distance p ≤ u.farDistance p := by
  rw [distance, farDistance, ha, h.isEmpty ha, if_neg Bool.false_ne_true,
    if_neg Bool.false_ne_true]
  refine sqrt_le_sqrt (squaredDistance_nonneg a p) (Axis.sum_le_sum ?_ ?_)
  · exact fun d => square_nonneg (excess_nonneg a p d)
  · exact fun d => square_le_square (excess_nonneg a p d) (excess_le_reach h ha hp hreach d)

/-! ### Unions -/

theorem union_encloses_left (ha : a.Numeric) (b : Box α) : (a.union b).Encloses a := by
  intro d
  simp only [union, Point.coord_ofCoords]
  exact ⟨Scalar.lesser_le_left (ha.1 d), Scalar.left_le_greater (ha.2 d)⟩

theorem union_encloses_right (ha : a.Numeric) (hb : b.Numeric) : (a.union b).Encloses b := by
  intro d
  simp only [union, Point.coord_ofCoords]
  exact ⟨Scalar.lesser_le_right (ha.1 d) (hb.1 d), Scalar.right_le_greater (hb.2 d)⟩

omit [LawfulScalar α] in
theorem coord_union (a b : Box α) (d : Axis) :
    ((a.union b).lo.coord d = a.lo.coord d ∨ (a.union b).lo.coord d = b.lo.coord d) ∧
      ((a.union b).hi.coord d = a.hi.coord d ∨ (a.union b).hi.coord d = b.hi.coord d) := by
  simp only [union, Point.coord_ofCoords]
  exact ⟨Scalar.lesser_eq _ _, Scalar.greater_eq _ _⟩

/-- Coordinates that are not numbers are passed over. -/
theorem Numeric.union (ha : a.Numeric) (b : Box α) : (a.union b).Numeric := by
  have h := union_encloses_left ha b
  exact ⟨fun d => (isNaN_of_le (h d).1).1, fun d => (isNaN_of_le (h d).2).2⟩

omit [LawfulScalar α] in
theorem Finite.union (ha : a.Finite) (hb : b.Finite) : (a.union b).Finite := by
  constructor
  · intro d
    rcases (coord_union a b d).1 with h | h <;> rw [h]
    · exact ha.1 d
    · exact hb.1 d
  · intro d
    rcases (coord_union a b d).2 with h | h <;> rw [h]
    · exact ha.2 d
    · exact hb.2 d

theorem numeric_empty : (empty : Box α).Numeric := by
  constructor
  · intro d
    simp only [empty, Point.coord_ofCoords, isNaN_infinity]
  · intro d
    simp only [empty, Point.coord_ofCoords, isNaN_negInfinity]

theorem empty_union (hb : b.Numeric) : empty.union b = b := by
  have hlo : (fun d => Scalar.lesser Scalar.infinity (b.lo.coord d)) = b.lo.coord :=
    funext fun d => Scalar.lesser_infinity (hb.1 d)
  have hhi : (fun d => Scalar.greater Scalar.negInfinity (b.hi.coord d)) = b.hi.coord :=
    funext fun d => Scalar.greater_negInfinity (hb.2 d)
  simp only [union, empty, Point.coord_ofCoords, hlo, hhi, Point.ofCoords_coord]

theorem union_empty (hb : b.Numeric) : b.union empty = b := by
  have hlo : (fun d => Scalar.lesser (b.lo.coord d) Scalar.infinity) = b.lo.coord :=
    funext fun d => Scalar.lesser_infinity_right (hb.1 d)
  have hhi : (fun d => Scalar.greater (b.hi.coord d) Scalar.negInfinity) = b.hi.coord :=
    funext fun d => Scalar.greater_negInfinity_right (hb.2 d)
  simp only [union, empty, Point.coord_ofCoords, hlo, hhi, Point.ofCoords_coord]

theorem isEmpty_empty : (empty : Box α).isEmpty = true := by
  simp [isEmpty, empty, Axis.all, negInfinity_lt_infinity]

/-- A box with finite corners, or the canonical empty box. -/
def Regular (b : Box α) : Prop := b.Finite ∨ b = empty

instance [DecidableEq α] (b : Box α) : Decidable b.Regular := inferInstanceAs (Decidable (_ ∨ _))

theorem Regular.numeric (h : b.Regular) : b.Numeric := by
  rcases h with h | rfl
  · exact h.numeric
  · exact numeric_empty

theorem Regular.finite (h : b.Regular) (hb : b.isEmpty = false) : b.Finite := by
  rcases h with h | rfl
  · exact h
  · exact absurd (hb.symm.trans isEmpty_empty) Bool.false_ne_true

theorem Regular.union (ha : a.Regular) (hb : b.Regular) : (a.union b).Regular := by
  rcases ha with ha | rfl
  · rcases hb with hb | rfl
    · exact Or.inl (ha.union hb)
    · exact Or.inl ((union_empty ha.numeric).symm ▸ ha)
  · exact (empty_union hb.numeric).symm ▸ hb

theorem regular_foldl_union {boxes : List (Box α)} (hall : ∀ b ∈ boxes, b.Regular)
    {acc : Box α} (hacc : acc.Regular) : (boxes.foldl Box.union acc).Regular := by
  induction boxes generalizing acc with
  | nil => exact hacc
  | cons c boxes ih =>
    exact ih (fun b hb => hall b (List.mem_cons_of_mem c hb))
      (hacc.union (hall c List.mem_cons_self))

theorem regular_unionAll {boxes : List (Box α)} (hall : ∀ b ∈ boxes, b.Regular) :
    (unionAll boxes).Regular :=
  regular_foldl_union hall (Or.inr rfl)

theorem foldl_union_encloses {boxes : List (Box α)} (hall : ∀ b ∈ boxes, b.Numeric)
    {acc : Box α} (hacc : acc.Numeric) :
    (boxes.foldl Box.union acc).Encloses acc ∧
      ∀ b ∈ boxes, (boxes.foldl Box.union acc).Encloses b := by
  induction boxes generalizing acc with
  | nil => exact ⟨hacc.encloses_self, fun b hb => nomatch hb⟩
  | cons c boxes ih =>
    have hc := hall c List.mem_cons_self
    obtain ⟨hfirst, hrest⟩ := ih (fun b hb => hall b (List.mem_cons_of_mem c hb)) (hacc.union c)
    refine ⟨hfirst.trans (union_encloses_left hacc c), fun b hb => ?_⟩
    rcases List.mem_cons.mp hb with rfl | hb
    · exact hfirst.trans (union_encloses_right hacc hc)
    · exact hrest b hb

/-- The union of some boxes encloses each of them. -/
theorem unionAll_encloses {boxes : List (Box α)} (hall : ∀ b ∈ boxes, b.Numeric) :
    ∀ b ∈ boxes, (unionAll boxes).Encloses b :=
  (foldl_union_encloses hall numeric_empty).2

omit [LawfulScalar α] in
theorem Encloses.union (ha : u.Encloses a) (hb : u.Encloses b) : u.Encloses (a.union b) := by
  intro d
  constructor
  · rcases (coord_union a b d).1 with h | h <;> rw [h]
    · exact (ha d).1
    · exact (hb d).1
  · rcases (coord_union a b d).2 with h | h <;> rw [h]
    · exact (ha d).2
    · exact (hb d).2

theorem Numeric.encloses_empty (hu : u.Numeric) : u.Encloses empty := by
  intro d
  simp only [empty, Point.coord_ofCoords]
  exact ⟨le_infinity (hu.1 d), negInfinity_le (hu.2 d)⟩

omit [LawfulScalar α] in
theorem encloses_foldl_union {boxes : List (Box α)} (hall : ∀ b ∈ boxes, u.Encloses b)
    {acc : Box α} (hacc : u.Encloses acc) : u.Encloses (boxes.foldl Box.union acc) := by
  induction boxes generalizing acc with
  | nil => exact hacc
  | cons c boxes ih =>
    exact ih (fun b hb => hall b (List.mem_cons_of_mem c hb))
      (hacc.union (hall c List.mem_cons_self))

/-- The union of some boxes is the least box that encloses each of them. -/
theorem Numeric.encloses_unionAll (hu : u.Numeric) {boxes : List (Box α)}
    (hall : ∀ b ∈ boxes, u.Encloses b) : u.Encloses (unionAll boxes) :=
  encloses_foldl_union hall hu.encloses_empty

theorem numeric_foldl_union (boxes : List (Box α)) {acc : Box α} (hacc : acc.Numeric) :
    (boxes.foldl Box.union acc).Numeric := by
  induction boxes generalizing acc with
  | nil => exact hacc
  | cons c boxes ih => exact ih (hacc.union c)

theorem numeric_unionAll (boxes : List (Box α)) : (unionAll boxes).Numeric :=
  numeric_foldl_union boxes numeric_empty

omit [LawfulScalar α] in
/-- Boxes are equal if each encloses the other. -/
theorem beq_iff [LawfulEqScalar α] : (a == b) = true ↔ a.Encloses b ∧ b.Encloses a := by
  have hbeq : (a == b) = ((Axis.all.all fun d => a.lo.coord d == b.lo.coord d) &&
      Axis.all.all fun d => a.hi.coord d == b.hi.coord d) := rfl
  rw [hbeq, Bool.and_eq_true, Axis.all_all_iff, Axis.all_all_iff]
  simp only [LawfulEqScalar.beq_iff]
  constructor
  · rintro ⟨hlo, hhi⟩
    exact ⟨fun d => ⟨(hlo d).1, (hhi d).2⟩, fun d => ⟨(hlo d).2, (hhi d).1⟩⟩
  · rintro ⟨hab, hba⟩
    exact ⟨fun d => ⟨(hab d).1, (hba d).1⟩, fun d => ⟨(hba d).2, (hab d).2⟩⟩

end Box

namespace Query

variable {α : Type} [Scalar α] [LawfulScalar α] {a u : Box α}

omit [LawfulScalar α] in
theorem accepts_overlapping_iff (c b : Box α) : (overlapping c).accepts b = true ↔
    ∀ d, c.lo.coord d ≤ b.hi.coord d ∧ b.lo.coord d ≤ c.hi.coord d :=
  Box.meets_iff c b

omit [LawfulScalar α] in
theorem accepts_touching_iff (ball : Ball α) (b : Box α) : (touching ball).accepts b = true ↔
    b.isEmpty = false ∧ b.distance ball.center ≤ ball.radius := by
  rw [accepts, Ball.meets]
  simp

/-- A test that a box passes is passed by every box that encloses it. -/
theorem accepts_of_encloses (q : Query α) (h : u.Encloses a) (ha : q.accepts a = true) :
    q.accepts u = true := by
  cases q with
  | overlapping c =>
    rw [accepts_overlapping_iff] at ha ⊢
    exact fun d => ⟨le_trans (ha d).1 (h d).2, le_trans (h d).1 (ha d).2⟩
  | touching ball =>
    rw [accepts_touching_iff] at ha ⊢
    exact ⟨h.isEmpty ha.1, le_trans (Box.distance_le_distance h ha.1 ball.center) ha.2⟩
  | nearest n => exact absurd ha Bool.false_ne_true

end Query

end SpatialSearch
