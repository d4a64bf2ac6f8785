import SpatialSearch.PartitionedIndex.Content

/-!
# Answering requests

How a rank answers the requests of others from its own index. The scratch space goes
from one request to the next; what it holds does not matter to the answers.
-/

namespace SpatialSearch

namespace Request

variable {α : Type} [Scalar α]

/-- The answers to a request by some hits of the index on a rank. -/
def replies (r : Request α) (rank : Nat) (hits : List (Neighbor α)) : List (Answer α) :=
  hits.map fun n => ⟨r.number, n.index, rank, n.distance⟩

def respond (index : Index α) (rank : Nat) (r : Request α) (scratch : Scratch α) :
    Except IndexFault (List (Answer α)) × Scratch α :=
  match r.query with
  | .nearest n =>
    let k := min n.k index.size
    if k = 0 then (.ok [], scratch)
    else
      let (result, scratch) := index.nearestInto n.target k { scratch with found := [] }
      (result.map fun _ => r.replies rank (scratch.found.filter (·.distance ≤ r.limit)),
        scratch)
  | q => ((index.answer q).map (r.replies rank), scratch)

def respondAll (index : Index α) (rank : Nat) :
    List (Request α) → Scratch α → Except IndexFault (List (List (Answer α)))
  | [], _ => .ok []
  | r :: rest, scratch =>
    match r.respond index rank scratch with
    | (.error e, _) => .error e
    | (.ok answers, scratch) => (respondAll index rank rest scratch).map (answers :: ·)

end Request

end SpatialSearch
