import SpatialSearch.Scalar

/-!
# Neighbors

What a search finds: the index of an entry and its distance. Neighbors are ordered by
distance and then by index. Equality compares distances as numbers, while the
order tells every two encodings apart.
-/

namespace SpatialSearch

/-- An entry and its distance to the target of a query. -/
structure Neighbor (α : Type) where
  distance : α
  index : Nat
deriving DecidableEq

namespace Neighbor

variable {α : Type} [Scalar α]

instance : BEq (Neighbor α) where
  beq a b := a.distance == b.distance && a.index == b.index

/-- Nearer first, ties by index. -/
def order (a b : Neighbor α) : Ordering :=
  (Scalar.totalOrder a.distance b.distance).then (compare a.index b.index)

def precedes (a b : Neighbor α) : Bool := a.order b == .lt

def notAfter (a b : Neighbor α) : Bool := a.order b != .gt

/-- Neighbors in their order; those that are equal in it keep their places. -/
def sort (items : List (Neighbor α)) : List (Neighbor α) := items.mergeSort notAfter

end Neighbor

end SpatialSearch
