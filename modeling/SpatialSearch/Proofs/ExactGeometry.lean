import Mathlib.Analysis.SpecialFunctions.Sqrt
import Mathlib.Data.EReal.Operations
import SpatialSearch.Geometry.Ball
import SpatialSearch.Proofs.Enclosure

/-!
# Geometry in exact arithmetic

Read in real numbers, without rounding, the tests and distances of boxes mean what their names
say: the distance of a box is that of its nearest point, the far distance that of its farthest
corner, a ball touches a box if a point of the box is within the radius, and two boxes that hold
points meet if they share one. The points may be restricted to those with coordinates in some
set of numbers, such as the rational ones, as long as corners and targets are among them.
-/

namespace SpatialSearch

/-- The real numbers with two infinities, as scalars without rounding. -/
noncomputable instance : Scalar EReal where
  half := (((1 / 2 : ℚ) : ℝ) : EReal)
  infinity := ⊤
  negInfinity := ⊥
  ofCount n := ((n : ℝ) : EReal)
  sqrt a := if a = ⊤ then ⊤ else (√a.toReal : ℝ)
  totalOrder := compare
  decidableLT := inferInstance
  decidableLE := inferInstance

namespace Scalar

theorem isNaN_eReal (a : EReal) : isNaN a = false := by
  rw [isNaN, beq_self_eq_true]
  rfl

theorem greater_eReal (a b : EReal) : greater a b = max a b := by
  rw [greater, isNaN_eReal, if_neg Bool.false_ne_true, max_def_lt]

theorem square_sub_coe (a b : ℝ) :
    square ((a : EReal) - (b : EReal)) = (((a - b) ^ 2 : ℝ) : EReal) := by
  rw [square, sq, ← EReal.coe_sub, ← EReal.coe_mul]

theorem square_sub_le {a b q : ℝ} (h : |a - q| ≤ |b - q|) :
    square ((a : EReal) - (q : EReal)) ≤ square ((b : EReal) - (q : EReal)) := by
  rw [square_sub_coe, square_sub_coe, EReal.coe_le_coe_iff]
  exact sq_le_sq.mpr h

theorem sqrt_coe (r : ℝ) : sqrt (r : EReal) = (√r : ℝ) :=
  if_neg (EReal.coe_ne_top r)

end Scalar

namespace Axis

theorem sum_mono {f g : Axis → EReal} (h : ∀ d, f d ≤ g d) : sum f ≤ sum g :=
  add_le_add (add_le_add (add_le_add le_rfl (h .x)) (h .y)) (h .z)

end Axis

namespace Point

/-- The coordinates of a point are real numbers of a set. -/
def Over (K : Set ℝ) (p : Point EReal) : Prop := ∀ d, ∃ r ∈ K, p.coord d = (r : EReal)

end Point

namespace Box

section Points

variable {α : Type} [Scalar α]

/-- The point of a box that is nearest to a given one. -/
def clamp (b : Box α) (p : Point α) : Point α := .ofCoords fun d =>
  if p.coord d < b.lo.coord d then b.lo.coord d
  else if b.hi.coord d < p.coord d then b.hi.coord d
  else p.coord d

def farCorner (b : Box α) (p : Point α) : Point α := .ofCoords fun d =>
  if p.coord d - b.lo.coord d < b.hi.coord d - p.coord d then b.hi.coord d else b.lo.coord d

/-- On every axis a point lies on one of the sides of a box. -/
def IsCorner (b : Box α) (x : Point α) : Prop :=
  ∀ d, x.coord d = b.lo.coord d ∨ x.coord d = b.hi.coord d

theorem isCorner_farCorner (b : Box α) (p : Point α) : b.IsCorner (b.farCorner p) := by
  intro d
  rw [farCorner, Point.coord_ofCoords]
  split
  · exact .inr rfl
  · exact .inl rfl

end Points

variable {K : Set ℝ} {b c : Box EReal} {p x : Point EReal}

def Over (K : Set ℝ) (b : Box EReal) : Prop := b.lo.Over K ∧ b.hi.Over K

theorem isEmpty_eq_false_iff : b.isEmpty = false ↔ ∀ d, b.lo.coord d ≤ b.hi.coord d := by
  rw [isEmpty, Axis.any_all_eq_false_iff]
  simp

theorem contains_corner (hne : b.isEmpty = false) (h : b.IsCorner x) : b.contains x = true := by
  refine (contains_iff _ _).mpr fun d => ?_
  have hd := isEmpty_eq_false_iff.mp hne d
  rcases h d with h | h <;> rw [h]
  · exact ⟨le_rfl, hd⟩
  · exact ⟨hd, le_rfl⟩

theorem Over.corner (hb : b.Over K) (h : b.IsCorner x) : x.Over K := by
  intro d
  rcases h d with h | h <;> rw [h]
  · exact hb.1 d
  · exact hb.2 d

theorem contains_clamp (hne : b.isEmpty = false) (p : Point EReal) :
    b.contains (b.clamp p) = true := by
  refine (contains_iff _ _).mpr fun d => ?_
  have hd := isEmpty_eq_false_iff.mp hne d
  rw [clamp, Point.coord_ofCoords]
  split_ifs with hlo hhi
  · exact ⟨le_rfl, hd⟩
  · exact ⟨hd, le_rfl⟩
  · exact ⟨not_lt.mp hlo, not_lt.mp hhi⟩

theorem Over.clamp (hb : b.Over K) (hp : p.Over K) : (b.clamp p).Over K := by
  intro d
  rw [Box.clamp, Point.coord_ofCoords]
  split_ifs
  · exact hb.1 d
  · exact hb.2 d
  · exact hp d

/-! ### Along one axis -/

theorem square_excess (hb : b.Over K) (hp : p.Over K) (d : Axis) :
    Scalar.square (b.excess p d) = Scalar.square ((b.clamp p).coord d - p.coord d) := by
  obtain ⟨q, -, hq⟩ := hp d
  obtain ⟨h, -, hh⟩ := hb.2 d
  rw [excess, clamp, Point.coord_ofCoords, hq, hh]
  split_ifs
  · rfl
  · rw [Scalar.square_sub_coe, Scalar.square_sub_coe, sub_sq_comm]
  · rw [← EReal.coe_sub, sub_self]
    rfl

theorem square_reach (hb : b.Over K) (hp : p.Over K) (d : Axis) :
    Scalar.square (b.reach p d) = Scalar.square ((b.farCorner p).coord d - p.coord d) := by
  obtain ⟨q, -, hq⟩ := hp d
  obtain ⟨l, -, hl⟩ := hb.1 d
  rw [reach, Scalar.greater, Scalar.isNaN_eReal, if_neg Bool.false_ne_true, farCorner,
    Point.coord_ofCoords, hq, hl]
  split_ifs
  · rfl
  · rw [Scalar.square_sub_coe, Scalar.square_sub_coe, sub_sq_comm]

/-- A point in a box is between real sides on every axis. -/
theorem Over.exists_between (hb : b.Over K) (hx : x.Over K) (hin : b.contains x = true)
    (d : Axis) : ∃ l r h : ℝ, b.lo.coord d = (l : EReal) ∧ x.coord d = (r : EReal) ∧
      b.hi.coord d = (h : EReal) ∧ l ≤ r ∧ r ≤ h := by
  obtain ⟨hlo, hhi⟩ := (contains_iff _ _).mp hin d
  obtain ⟨l, -, hl⟩ := hb.1 d
  obtain ⟨h, -, hh⟩ := hb.2 d
  obtain ⟨r, -, hr⟩ := hx d
  rw [hl, hr, EReal.coe_le_coe_iff] at hlo
  rw [hh, hr, EReal.coe_le_coe_iff] at hhi
  exact ⟨l, r, h, hl, hr, hh, hlo, hhi⟩

/-- No coordinate in a box is nearer than the clamped one. -/
theorem square_clamp_le (hb : b.Over K) (hp : p.Over K) (hx : x.Over K)
    (hin : b.contains x = true) (d : Axis) :
    Scalar.square ((b.clamp p).coord d - p.coord d) ≤ Scalar.square (x.coord d - p.coord d) := by
  obtain ⟨l, r, h, hl, hr, hh, hlo, hhi⟩ := hb.exists_between hx hin d
  obtain ⟨q, -, hq⟩ := hp d
  rw [clamp, Point.coord_ofCoords, hq, hl, hh, hr]
  split_ifs with hbelow habove
  · rw [EReal.coe_lt_coe_iff] at hbelow
    refine Scalar.square_sub_le ?_
    rw [abs_of_pos (by linarith), abs_of_pos (by linarith)]
    linarith
  · rw [EReal.coe_lt_coe_iff] at habove
    refine Scalar.square_sub_le ?_
    rw [abs_of_neg (by linarith), abs_of_neg (by linarith)]
    linarith
  · refine Scalar.square_sub_le ?_
    rw [sub_self, abs_zero]
    exact abs_nonneg _

/-- No coordinate in a box is farther than that of the far corner. -/
theorem square_le_farCorner (hb : b.Over K) (hp : p.Over K) (hx : x.Over K)
    (hin : b.contains x = true) (d : Axis) :
    Scalar.square (x.coord d - p.coord d) ≤
      Scalar.square ((b.farCorner p).coord d - p.coord d) := by
  obtain ⟨l, r, h, hl, hr, hh, hlo, hhi⟩ := hb.exists_between hx hin d
  obtain ⟨q, -, hq⟩ := hp d
  rw [farCorner, Point.coord_ofCoords, hq, hl, hh, hr]
  split_ifs with hside
  · rw [← EReal.coe_sub, ← EReal.coe_sub, EReal.coe_lt_coe_iff] at hside
    refine Scalar.square_sub_le ((abs_le.mpr ⟨?_, ?_⟩).trans (le_abs_self _)) <;> linarith
  · rw [← EReal.coe_sub, ← EReal.coe_sub, EReal.coe_lt_coe_iff, not_lt] at hside
    refine Scalar.square_sub_le ((abs_le.mpr ⟨?_, ?_⟩).trans (neg_le_abs _)) <;> linarith

/-! ### Over all axes -/

theorem squaredDistance_eq_clamp (hb : b.Over K) (hp : p.Over K) :
    b.squaredDistance p = (b.clamp p).squaredDistance p := by
  simp only [squaredDistance, Point.squaredDistance, square_excess hb hp]

theorem squaredReach_eq_farCorner (hb : b.Over K) (hp : p.Over K) :
    b.squaredReach p = (b.farCorner p).squaredDistance p := by
  simp only [squaredReach, Point.squaredDistance, square_reach hb hp]

theorem squaredDistance_le (hb : b.Over K) (hp : p.Over K) (hx : x.Over K)
    (hin : b.contains x = true) : b.squaredDistance p ≤ x.squaredDistance p := by
  rw [squaredDistance_eq_clamp hb hp]
  exact Axis.sum_mono fun d => square_clamp_le hb hp hx hin d

theorem le_squaredReach (hb : b.Over K) (hp : p.Over K) (hx : x.Over K)
    (hin : b.contains x = true) : x.squaredDistance p ≤ b.squaredReach p := by
  rw [squaredReach_eq_farCorner hb hp]
  exact Axis.sum_mono fun d => square_le_farCorner hb hp hx hin d

theorem distance_eq_clamp (hne : b.isEmpty = false) (hb : b.Over K) (hp : p.Over K) :
    b.distance p = (b.clamp p).distance p := by
  rw [distance, hne, if_neg Bool.false_ne_true, squaredDistance_eq_clamp hb hp, Point.distance]

theorem farDistance_eq_farCorner (hne : b.isEmpty = false) (hb : b.Over K) (hp : p.Over K) :
    b.farDistance p = (b.farCorner p).distance p := by
  rw [farDistance, hne, if_neg Bool.false_ne_true, squaredReach_eq_farCorner hb hp,
    Point.distance]

end Box

namespace Point

variable {K : Set ℝ} {p x : Point EReal}

theorem exists_squaredDistance (hx : x.Over K) (hp : p.Over K) :
    ∃ s : ℝ, 0 ≤ s ∧ x.squaredDistance p = (s : EReal) := by
  choose f hf using hx
  choose g hg using hp
  have hsquare : ∀ d, Scalar.square (x.coord d - p.coord d) = (((f d - g d) ^ 2 : ℝ) : EReal) :=
    fun d => by rw [(hf d).2, (hg d).2, Scalar.square_sub_coe]
  refine ⟨0 + (f .x - g .x) ^ 2 + (f .y - g .y) ^ 2 + (f .z - g .z) ^ 2, by positivity, ?_⟩
  simp only [squaredDistance, Axis.sum, hsquare]
  norm_cast

/-- Without rounding a distance is the root of its square. -/
theorem square_distance (hx : x.Over K) (hp : p.Over K) :
    Scalar.square (x.distance p) = x.squaredDistance p := by
  obtain ⟨s, hs, heq⟩ := exists_squaredDistance hx hp
  rw [distance, heq, Scalar.sqrt_coe, Scalar.square, ← EReal.coe_mul, Real.mul_self_sqrt hs]

theorem distance_le_distance {y : Point EReal} (hx : x.Over K) (hy : y.Over K) (hp : p.Over K)
    (h : x.squaredDistance p ≤ y.squaredDistance p) : x.distance p ≤ y.distance p := by
  obtain ⟨s, -, hs⟩ := exists_squaredDistance hx hp
  obtain ⟨t, -, ht⟩ := exists_squaredDistance hy hp
  rw [hs, ht, EReal.coe_le_coe_iff] at h
  rw [distance, distance, hs, ht, Scalar.sqrt_coe, Scalar.sqrt_coe, EReal.coe_le_coe_iff]
  exact Real.sqrt_le_sqrt h

end Point

/-! ### Extreme distances and shared points -/

namespace Box

variable {K : Set ℝ} {b c : Box EReal} {p : Point EReal}

def squaredDistances (K : Set ℝ) (b : Box EReal) (p : Point EReal) : Set EReal :=
  {s | ∃ x : Point EReal, x.Over K ∧ b.contains x = true ∧ x.squaredDistance p = s}

theorem isLeast_distance (hne : b.isEmpty = false) (hb : b.Over K) (hp : p.Over K) :
    IsLeast (b.squaredDistances K p) (Scalar.square (b.distance p)) := by
  have hclamp := hb.clamp hp
  rw [distance_eq_clamp hne hb hp, Point.square_distance hclamp hp]
  refine ⟨⟨b.clamp p, hclamp, contains_clamp hne p, rfl⟩, ?_⟩
  rintro s ⟨x, hx, hin, rfl⟩
  rw [← squaredDistance_eq_clamp hb hp]
  exact squaredDistance_le hb hp hx hin

theorem isGreatest_farDistance (hne : b.isEmpty = false) (hb : b.Over K) (hp : p.Over K) :
    IsGreatest (b.squaredDistances K p) (Scalar.square (b.farDistance p)) := by
  have hcorner := b.isCorner_farCorner p
  have hfar := hb.corner hcorner
  rw [farDistance_eq_farCorner hne hb hp, Point.square_distance hfar hp]
  refine ⟨⟨b.farCorner p, hfar, contains_corner hne hcorner, rfl⟩, ?_⟩
  rintro s ⟨x, hx, hin, rfl⟩
  rw [← squaredReach_eq_farCorner hb hp]
  exact le_squaredReach hb hp hx hin

/-- A ball touches a box if some point of the box is within the radius. -/
theorem ball_meets_iff (hne : b.isEmpty = false) (hb : b.Over K) (hp : p.Over K) (r : EReal) :
    (⟨p, r⟩ : Ball EReal).meets b = true ↔
      ∃ x : Point EReal, x.Over K ∧ b.contains x = true ∧ x.distance p ≤ r := by
  have hmeets : (⟨p, r⟩ : Ball EReal).meets b = true ↔ (b.clamp p).distance p ≤ r := by
    rw [Ball.meets, hne, distance_eq_clamp hne hb hp]
    simp
  rw [hmeets]
  constructor
  · intro h
    exact ⟨b.clamp p, hb.clamp hp, contains_clamp hne p, h⟩
  · rintro ⟨x, hx, hin, hxr⟩
    refine le_trans (Point.distance_le_distance (hb.clamp hp) hx hp ?_) hxr
    rw [← squaredDistance_eq_clamp hb hp]
    exact squaredDistance_le hb hp hx hin

/-- Boxes that hold points meet if they share one. -/
theorem meets_iff_shared (hne : b.isEmpty = false) (hcne : c.isEmpty = false) (hb : b.Over K)
    (hc : c.Over K) : b.meets c = true ↔
      ∃ x : Point EReal, x.Over K ∧ b.contains x = true ∧ c.contains x = true := by
  rw [meets_iff]
  constructor
  · intro h
    -- The greater of the two lower sides lies in both boxes.
    refine ⟨.ofCoords fun d => Scalar.greater (b.lo.coord d) (c.lo.coord d), fun d => ?_, ?_, ?_⟩
    · rw [Point.coord_ofCoords]
      rcases Scalar.greater_eq (b.lo.coord d) (c.lo.coord d) with heq | heq <;> rw [heq]
      · exact hb.1 d
      · exact hc.1 d
    · refine (contains_iff _ _).mpr fun d => ?_
      rw [Point.coord_ofCoords, Scalar.greater_eReal]
      exact ⟨le_max_left _ _, max_le (isEmpty_eq_false_iff.mp hne d) (h d).2⟩
    · refine (contains_iff _ _).mpr fun d => ?_
      rw [Point.coord_ofCoords, Scalar.greater_eReal]
      exact ⟨le_max_right _ _, max_le (h d).1 (isEmpty_eq_false_iff.mp hcne d)⟩
  · rintro ⟨x, -, hinb, hinc⟩ d
    obtain ⟨hblo, hbhi⟩ := (contains_iff _ _).mp hinb d
    obtain ⟨hclo, hchi⟩ := (contains_iff _ _).mp hinc d
    exact ⟨hblo.trans hchi, hclo.trans hbhi⟩

/-- Without rounding, for a box that holds points: its squared distance is the least of its
points and its squared far distance the greatest, which a corner attains; a ball touches it if
one of its points is within the radius; and another such box meets it if they share a point.
Points are those with coordinates in any set of numbers that holds the coordinates given. -/
theorem geometry_exact (hne : b.isEmpty = false) (hb : b.Over K) (hc : c.Over K)
    (hp : p.Over K) :
    IsLeast (b.squaredDistances K p) (Scalar.square (b.distance p)) ∧
      IsGreatest (b.squaredDistances K p) (Scalar.square (b.farDistance p)) ∧
      (∃ x : Point EReal, b.IsCorner x ∧
        x.squaredDistance p = Scalar.square (b.farDistance p)) ∧
      (∀ r : EReal, (⟨p, r⟩ : Ball EReal).meets b = true ↔
        ∃ x : Point EReal, x.Over K ∧ b.contains x = true ∧ x.distance p ≤ r) ∧
      (c.isEmpty = false → (b.meets c = true ↔
        ∃ x : Point EReal, x.Over K ∧ b.contains x = true ∧ c.contains x = true)) := by
  have hcorner := b.isCorner_farCorner p
  refine ⟨isLeast_distance hne hb hp, isGreatest_farDistance hne hb hp,
    ⟨b.farCorner p, hcorner, ?_⟩, ball_meets_iff hne hb hp,
    fun hcne => meets_iff_shared hne hcne hb hc⟩
  rw [farDistance_eq_farCorner hne hb hp, Point.square_distance (hb.corner hcorner) hp]

noncomputable def rationalPoint (x y z : ℚ) : Point EReal := ⟨(x : ℝ), (y : ℝ), (z : ℝ)⟩

theorem over_rationalPoint (x y z : ℚ) : (rationalPoint x y z).Over (Set.range ((↑) : ℚ → ℝ)) := by
  intro d
  cases d with
  | x => exact ⟨x, ⟨x, rfl⟩, rfl⟩
  | y => exact ⟨y, ⟨y, rfl⟩, rfl⟩
  | z => exact ⟨z, ⟨z, rfl⟩, rfl⟩

theorem rationalPoint_le {x y z u v w : ℚ} (hx : x ≤ u) (hy : y ≤ v) (hz : z ≤ w) (d : Axis) :
    (rationalPoint x y z).coord d ≤ (rationalPoint u v w).coord d := by
  cases d with
  | x => exact EReal.coe_le_coe (Rat.cast_le.mpr hx)
  | y => exact EReal.coe_le_coe (Rat.cast_le.mpr hy)
  | z => exact EReal.coe_le_coe (Rat.cast_le.mpr hz)

/-- Over the rational numbers, a box that is flat along one axis, a box that touches it and a
target that is outside along one axis only. -/
theorem geometry_exact_flat :
    let K : Set ℝ := Set.range ((↑) : ℚ → ℝ)
    let b : Box EReal := ⟨rationalPoint 0 (1 / 3) 0, rationalPoint 1 (1 / 3) 1⟩
    let c : Box EReal := ⟨rationalPoint 1 0 0, rationalPoint 2 1 1⟩
    let p := rationalPoint (-2) (1 / 3) (1 / 2)
    b.isEmpty = false ∧ b.Over K ∧ c.Over K ∧ p.Over K ∧ c.isEmpty = false ∧
      IsLeast (b.squaredDistances K p) (Scalar.square (b.distance p)) ∧
      IsGreatest (b.squaredDistances K p) (Scalar.square (b.farDistance p)) ∧
      (∃ x : Point EReal, b.IsCorner x ∧
        x.squaredDistance p = Scalar.square (b.farDistance p)) ∧
      (∀ r : EReal, (⟨p, r⟩ : Ball EReal).meets b = true ↔
        ∃ x : Point EReal, x.Over K ∧ b.contains x = true ∧ x.distance p ≤ r) ∧
      (b.meets c = true ↔
        ∃ x : Point EReal, x.Over K ∧ b.contains x = true ∧ c.contains x = true) := by
  intro K b c p
  have hne : b.isEmpty = false := isEmpty_eq_false_iff.mpr
    (rationalPoint_le (by norm_num) (by norm_num) (by norm_num))
  have hcne : c.isEmpty = false := isEmpty_eq_false_iff.mpr
    (rationalPoint_le (by norm_num) (by norm_num) (by norm_num))
  have hb : b.Over K := ⟨over_rationalPoint _ _ _, over_rationalPoint _ _ _⟩
  have hc : c.Over K := ⟨over_rationalPoint _ _ _, over_rationalPoint _ _ _⟩
  have hp : p.Over K := over_rationalPoint _ _ _
  obtain ⟨hleast, hgreatest, hcorner, hball, hshared⟩ := geometry_exact hne hb hc hp
  exact ⟨hne, hb, hc, hp, hcne, hleast, hgreatest, hcorner, hball, hshared hcne⟩

end Box

end SpatialSearch
