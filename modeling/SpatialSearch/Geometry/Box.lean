import SpatialSearch.Geometry.Point

/-!
# Boxes

Axis-aligned boxes by their two corners. A box whose upper corner lies below its lower
one on some axis is empty; `Box.empty`, with both corners at infinity, is the neutral
element of `union`. Boxes are closed, so boxes that touch intersect.
-/

namespace SpatialSearch

/-- An axis-aligned box between two corners. -/
structure Box (α : Type) where
  lo : Point α
  hi : Point α
deriving DecidableEq

namespace Box

variable {α : Type} [Scalar α]

instance : BEq (Box α) where
  beq a b := a.lo == b.lo && a.hi == b.hi

/-- The canonical empty box. -/
def empty : Box α :=
  ⟨.ofCoords fun _ => Scalar.infinity, .ofCoords fun _ => Scalar.negInfinity⟩

def ofPoint (p : Point α) : Box α := ⟨p, p⟩

/-- Whether the corners are inverted on some axis. -/
def isEmpty (b : Box α) : Bool :=
  Axis.all.any fun d => b.hi.coord d < b.lo.coord d

/-- The least box whose corners enclose the corners of both. -/
def union (a b : Box α) : Box α where
  lo := .ofCoords fun d => Scalar.lesser (a.lo.coord d) (b.lo.coord d)
  hi := .ofCoords fun d => Scalar.greater (a.hi.coord d) (b.hi.coord d)

def insert (b : Box α) (p : Point α) : Box α where
  lo := .ofCoords fun d => Scalar.lesser (b.lo.coord d) (p.coord d)
  hi := .ofCoords fun d => Scalar.greater (b.hi.coord d) (p.coord d)

/-- The union of a list of boxes, taken from the left. -/
def unionAll (boxes : List (Box α)) : Box α := boxes.foldl union empty

/-- Whether the closed intervals of two boxes meet on every axis. -/
def meets (a b : Box α) : Bool :=
  Axis.all.all fun d => a.lo.coord d ≤ b.hi.coord d && b.lo.coord d ≤ a.hi.coord d

def contains (b : Box α) (p : Point α) : Bool :=
  Axis.all.all fun d => b.lo.coord d ≤ p.coord d && p.coord d ≤ b.hi.coord d

/-- How far a point lies outside a box along an axis. -/
def excess (b : Box α) (p : Point α) (d : Axis) : α :=
  if p.coord d < b.lo.coord d then b.lo.coord d - p.coord d
  else if b.hi.coord d < p.coord d then p.coord d - b.hi.coord d
  else 0

def squaredDistance (b : Box α) (p : Point α) : α :=
  Axis.sum fun d => Scalar.square (b.excess p d)

/-- The distance from a point to the nearest point of a box; infinite if it is empty. -/
def distance (b : Box α) (p : Point α) : α :=
  if b.isEmpty then Scalar.infinity else Scalar.sqrt (b.squaredDistance p)

/-- How far the farther side of a box is from a point along an axis. -/
def reach (b : Box α) (p : Point α) (d : Axis) : α :=
  Scalar.greater (p.coord d - b.lo.coord d) (b.hi.coord d - p.coord d)

def squaredReach (b : Box α) (p : Point α) : α :=
  Axis.sum fun d => Scalar.square (b.reach p d)

/-- The distance from a point to the farthest corner of a box; infinite if it is empty. -/
def farDistance (b : Box α) (p : Point α) : α :=
  if b.isEmpty then Scalar.infinity else Scalar.sqrt (b.squaredReach p)

/-- The middle of a box; without meaning for an empty one. -/
def centroid (b : Box α) : Point α :=
  .ofCoords fun d => Scalar.half * (b.lo.coord d + b.hi.coord d)

/-- The length of a box along an axis, never below zero. -/
def extent (b : Box α) (d : Axis) : α :=
  Scalar.greater (b.hi.coord d - b.lo.coord d) 0

def halfSurface (b : Box α) : α :=
  if b.isEmpty then 0
  else b.extent .x * b.extent .y + b.extent .y * b.extent .z + b.extent .z * b.extent .x

def margin (b : Box α) : α :=
  if b.isEmpty then 0 else Axis.sum b.extent

end Box

end SpatialSearch
