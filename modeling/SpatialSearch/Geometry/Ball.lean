import SpatialSearch.Geometry.Box

/-!
# Balls

Closed balls by center and radius. A ball touches a box if the box is not empty and
no farther from the center than the radius.
-/

namespace SpatialSearch

/-- The points within a radius of a center. -/
structure Ball (α : Type) where
  center : Point α
  radius : α
deriving DecidableEq

namespace Ball

variable {α : Type} [Scalar α]

instance : BEq (Ball α) where
  beq a b := a.center == b.center && a.radius == b.radius

def meets (s : Ball α) (b : Box α) : Bool :=
  !b.isEmpty && b.distance s.center ≤ s.radius

def bounds (s : Ball α) : Box α where
  lo := .ofCoords fun d => s.center.coord d - s.radius
  hi := .ofCoords fun d => s.center.coord d + s.radius

end Ball

end SpatialSearch
