import SpatialSearch.PartitionedIndex.Nearest

/-!
# Queries of a partitioned index

A batch of queries on every rank, all of one kind, answered together. The hits of a
spatial query are grouped by their ranks in ascending order.
-/

namespace SpatialSearch

namespace PartitionedIndex

variable {α : Type} [Scalar α] (x : PartitionedIndex α)

def spatialRequests (number : Nat) (q : Query α) :
    Except IndexFault (List (Nat × Request α)) :=
  (x.roster.ranksFor q).map fun ranks =>
    ranks.map fun rank => (rank, ⟨number, q, Scalar.infinity⟩)

def answerSpatial (queries : List (Query α)) : Search α (HitTable α) := do
  let requests ← Search.ofIndex (requestsFrom x.spatialRequests 0 queries)
  let answers ← x.exchange requests
  tabulate queries.length (answers.mergeSort (·.number ≤ ·.number)) false

def nearestQueries (queries : List (Query α)) : List (NearestQuery α) :=
  queries.filterMap fun
    | .nearest n => some n
    | _ => none

/-- Answer a batch of queries. A batch that is not in order is refused before anything is
sent; batches that do not go together are refused on all ranks. -/
def query (queries : List (Query α)) : Search α (HitTable α) := do
  let kind ← Search.ofExcept (Batch.check x.options queries)
  match ← x.agree kind with
  | none => return .empty queries.length false
  | some .nearest =>
    match x.options.method with
    | .refining => x.refine (nearestQueries queries)
    | .enclosing => x.enclose (nearestQueries queries)
  | some _ => x.answerSpatial queries

end PartitionedIndex

end SpatialSearch
