/-!
# Scalars

The numbers in which coordinates, distances and split costs are measured. Geometry
and search are written once over `Scalar`, so that they run on rounded binary64
numbers and can be read in exact arithmetic as well.

A scalar type may hold values that are not numbers. Such a value is recognised by
not being equal to itself; every comparison with it is false, `lesser` and `greater`
pass it over, and `totalOrder` still gives it a place.
-/

namespace SpatialSearch

/-- Numbers with two unbounded values, arithmetic that may round, a partial order for
geometry and a total order for sorting. -/
class Scalar (α : Type) extends Zero α, Add α, Sub α, Mul α, LT α, LE α, BEq α where
  half : α
  infinity : α
  negInfinity : α
  ofCount : Nat → α
  sqrt : α → α
  /-- The order of sorting: total on all values, numbers or not. -/
  totalOrder : α → α → Ordering
  decidableLT : ∀ a b : α, Decidable (a < b)
  decidableLE : ∀ a b : α, Decidable (a ≤ b)

namespace Scalar

variable {α : Type} [Scalar α]

instance (a b : α) : Decidable (a < b) := decidableLT a b

instance (a b : α) : Decidable (a ≤ b) := decidableLE a b

/-- Whether `a` is not a number: such a value differs from itself. -/
def isNaN (a : α) : Bool := !(a == a)

/-- The lesser of two values; the other one if one of them is not a number. -/
def lesser (a b : α) : α :=
  if isNaN a then b else if b < a then b else a

def greater (a b : α) : α :=
  if isNaN a then b else if a < b then b else a

def square (a : α) : α := a * a

end Scalar

end SpatialSearch
