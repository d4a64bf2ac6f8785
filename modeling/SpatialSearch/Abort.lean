/-!
# Aborts

Why a computation gives up for good. Other than a failure, of which its caller is told,
an abort ends the whole program of a rank.
-/

namespace SpatialSearch

/-- Why a computation gave up. -/
inductive Abort where
  | told (text : String)
  | outOfRange (length index : Nat)
  | overflow
  | noRoom
  /-- It met a hit that is not in the order of the queries. -/
  | outOfOrder
deriving DecidableEq

namespace Abort

def message : Abort → String
  | told text => text
  | outOfRange length index =>
    s!"index out of bounds: the len is {length} but the index is {index}"
  | overflow => "attempt to add with overflow"
  | noRoom => "capacity overflow"
  | outOfOrder => "hits must be grouped by ascending query"

end Abort

end SpatialSearch
