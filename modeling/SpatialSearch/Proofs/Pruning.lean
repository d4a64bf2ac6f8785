import SpatialSearch.Proofs.Enclosure
import SpatialSearch.Proofs.Binary64Laws

/-!
# Pruning

A search passes over what an enclosing box rules out, and takes the far corner of an enclosing box
for a bound of the distances in it. Both are right under rounding: nothing is asked of arithmetic
but that it is monotone as far as it gives numbers. The first needs no finite coordinates; the
second needs them, since infinity has no distance from itself.
-/

namespace SpatialSearch

namespace Box

variable {α : Type} [Scalar α] [LawfulScalar α] {a u : Box α}

/-- What a box that is not empty and one that encloses it have in common: neither is empty, and
the enclosing one is no farther away. -/
theorem Encloses.nearer (h : u.Encloses a) (ha : a.isEmpty = false) (p : Point α) :
    u.isEmpty = false ∧ u.distance p ≤ a.distance p := by
  constructor
  · exact h.isEmpty ha
  · exact distance_le_distance h ha p

/-- The far corner of a box with finite corners has a distance from every finite point; it is
infinite if the box is empty. -/
theorem Finite.isNaN_farDistance (hu : u.Finite) {p : Point α} (hp : p.Finite) :
    Scalar.isNaN (u.farDistance p) = false := by
  cases hempty : u.isEmpty with
  | true =>
    rw [farDistance, hempty, if_pos rfl]
    exact LawfulScalar.isNaN_infinity
  | false =>
    have hself := hu.numeric.encloses_self
    have hle := distance_le_farDistance hself hempty hp.numeric (hu.reaches hp)
    exact (LawfulScalar.isNaN_of_le hle).2

/-- Pruning by an enclosing box is sound: the box is nonempty and as near as every nonempty box in
it, and passes every test that one in it passes. Distances are numbers throughout, so no
comparison fails for want of one. -/
theorem Encloses.pruning_sound (h : u.Encloses a) (p : Point α) (q : Query α) :
    (a.isEmpty = false → u.isEmpty = false ∧ u.distance p ≤ a.distance p) ∧
      (q.accepts a = true → q.accepts u = true) ∧
      Scalar.isNaN (a.distance p) = false ∧ Scalar.isNaN (u.distance p) = false := by
  refine ⟨?_, ?_, ?_, ?_⟩
  · intro ha
    exact h.nearer ha p
  · intro hq
    exact q.accepts_of_encloses h hq
  · exact isNaN_distance a p
  · exact isNaN_distance u p

/-- The far corner of a box with finite corners bounds every distance to what it encloses. -/
theorem Encloses.farDistance_bounds (h : u.Encloses a) (hu : u.Finite) (ha : a.isEmpty = false)
    {p : Point α} (hp : p.Finite) :
    a.distance p ≤ u.farDistance p ∧ Scalar.isNaN (u.farDistance p) = false := by
  constructor
  · exact distance_le_farDistance h ha hp.numeric (hu.reaches hp)
  · exact hu.isNaN_farDistance hp

def greatest : Binary64 := ⟨0x7fefffffffffffff⟩

/-- A box that reaches from the greatest finite number up to infinity along one axis. -/
def unboundedAbove : Box Binary64 := ⟨⟨greatest, 0, 0⟩, ⟨.infinity, .half, 0⟩⟩

def halfSpace : Box Binary64 :=
  ⟨⟨0, .negInfinity, .negInfinity⟩, ⟨.infinity, .infinity, .infinity⟩⟩

theorem pruning_sound_halfSpace : halfSpace.Encloses unboundedAbove ∧
    (unboundedAbove.isEmpty = false → halfSpace.isEmpty = false ∧
      halfSpace.distance ⟨.negInfinity, 0, 0⟩ ≤ unboundedAbove.distance ⟨.negInfinity, 0, 0⟩) ∧
    ((Query.overlapping halfSpace).accepts unboundedAbove = true →
      (Query.overlapping halfSpace).accepts halfSpace = true) ∧
    Scalar.isNaN (unboundedAbove.distance ⟨.negInfinity, 0, 0⟩) = false ∧
    Scalar.isNaN (halfSpace.distance ⟨.negInfinity, 0, 0⟩) = false := by
  have hencl : halfSpace.Encloses unboundedAbove := by decide
  exact ⟨hencl, hencl.pruning_sound ⟨.negInfinity, 0, 0⟩ (.overlapping halfSpace)⟩

/-- A box so wide that the distance from one end to the other is beyond the range. -/
def widest : Box Binary64 := ⟨⟨0, 0, 0⟩, ⟨greatest, greatest, greatest⟩⟩

theorem farDistance_bounds_widest : widest.Encloses (.ofPoint .origin) ∧ widest.Finite ∧
    (ofPoint (.origin : Point Binary64)).isEmpty = false ∧
    (⟨greatest, greatest, 0⟩ : Point Binary64).Finite ∧
    (ofPoint .origin).distance ⟨greatest, greatest, 0⟩ ≤
      widest.farDistance ⟨greatest, greatest, 0⟩ ∧
    Scalar.isNaN (widest.farDistance ⟨greatest, greatest, 0⟩) = false := by
  have hencl : widest.Encloses (.ofPoint .origin) := by decide
  have hfinite : widest.Finite := by decide
  have hne : (ofPoint (.origin : Point Binary64)).isEmpty = false := by decide
  have hp : (⟨greatest, greatest, 0⟩ : Point Binary64).Finite := by decide
  exact ⟨hencl, hfinite, hne, hp, hencl.farDistance_bounds hfinite hne hp⟩

end Box

end SpatialSearch
