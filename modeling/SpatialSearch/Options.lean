/-!
# Options of a partitioned index

How many neighbors a query may ask for and how a nearest query that concerns many ranks
makes sure that its answer is exact.
-/

namespace SpatialSearch

/-- How the ranks that a nearest query has to ask are found. -/
inductive NearestMethod where
  /-- Ask the closest ranks that together hold enough entries, then every other rank that
  is no farther than the worst neighbor kept. -/
  | refining
  /-- Ask every rank within a radius that covers enough entries for certain, judged by the
  bounds of the ranks alone. -/
  | enclosing
deriving DecidableEq

/-- The options of a partitioned index, which have to be the same on all ranks. -/
structure SearchOptions where
  neighborLimit : Nat := 256
  method : NearestMethod := .refining
deriving DecidableEq

end SpatialSearch
