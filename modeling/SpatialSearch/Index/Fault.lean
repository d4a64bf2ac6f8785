/-!
# Faults of a local search

Why a query, or an index that is asked, refuses: each cause with its wording.
-/

namespace SpatialSearch

/-- What is wrong with a query. -/
inductive QueryFault where
  | negativeRadius
  | noNeighbors
  | notSpatial
deriving DecidableEq

namespace QueryFault

def message : QueryFault → String
  | negativeRadius => "within radius must be non-negative"
  | noNeighbors => "nearest requires at least one neighbor"
  | notSpatial => "nearest predicates are answered by the nearest traversal"

end QueryFault

/-- Why an index does not answer. -/
inductive IndexFault where
  | badQuery (fault : QueryFault)
  | overCapacity (capacity : Nat)
deriving DecidableEq

namespace IndexFault

def message : IndexFault → String
  | badQuery fault => s!"invalid argument: {fault.message}"
  | overCapacity capacity => s!"priority queue capacity {capacity} exceeded"

end IndexFault

end SpatialSearch
