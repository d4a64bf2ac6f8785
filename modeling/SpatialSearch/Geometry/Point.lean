import SpatialSearch.Scalar

/-!
# Points

Points of three dimensional space and the Euclidean distance between them. Sums over
the axes are taken in the order x, y, z and start at zero; under rounding the order
is part of the value.
-/

namespace SpatialSearch

inductive Axis where
  | x
  | y
  | z
deriving DecidableEq

namespace Axis

def all : List Axis := [.x, .y, .z]

variable {α : Type} [Scalar α]

def sum (f : Axis → α) : α := 0 + f .x + f .y + f .z

end Axis

structure Point (α : Type) where
  x : α
  y : α
  z : α
deriving DecidableEq

namespace Point

variable {α : Type}

def coord (p : Point α) : Axis → α
  | .x => p.x
  | .y => p.y
  | .z => p.z

def ofCoords (f : Axis → α) : Point α := ⟨f .x, f .y, f .z⟩

@[simp] theorem coord_ofCoords (f : Axis → α) (d : Axis) : (ofCoords f).coord d = f d := by
  cases d <;> rfl

@[simp] theorem ofCoords_coord (p : Point α) : ofCoords p.coord = p := rfl

def toList (p : Point α) : List α := Axis.all.map p.coord

variable [Scalar α]

instance : BEq (Point α) where
  beq p q := Axis.all.all fun d => p.coord d == q.coord d

def origin : Point α := ⟨0, 0, 0⟩

def squaredDistance (p q : Point α) : α :=
  Axis.sum fun d => Scalar.square (p.coord d - q.coord d)

def distance (p q : Point α) : α := Scalar.sqrt (squaredDistance p q)

end Point

end SpatialSearch
