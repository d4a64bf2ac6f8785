import SpatialSearch.BoundedHeap
import SpatialSearch.Geometry.Box
import SpatialSearch.Neighbor

/-!
# Shortlists

A nearest search keeps the best neighbors met so far in a bounded heap with the worst
of them on top. A candidate is kept while there are fewer than asked for, and after
that only if it comes before the worst one, whose place it takes.

The caller may own the heap and a list to which the answer is appended. A search that is
refused leaves both as they were.
-/

namespace SpatialSearch

/-- A bounded heap of neighbors, the last in their order on top. -/
abbrev NeighborHeap (α : Type) [Scalar α] := BoundedHeap (@Neighbor.order α _)

/-- What a caller lends to a nearest search. -/
structure Scratch (α : Type) [Scalar α] where
  queue : NeighborHeap α
  found : List (Neighbor α)

abbrev NearestPass (α : Type) [Scalar α] := ExceptT IndexFault (StateM (NeighborHeap α))

namespace NearestPass

variable {α : Type} [Scalar α]

/-- Keep a candidate if fewer than `k` are kept or it comes before the worst one. -/
def consider (k : Nat) (candidate : Neighbor α) : NearestPass α Unit := do
  let queue ← get
  if queue.size < k then
    set (← liftExcept (queue.push candidate))
  else if queue.top?.any candidate.precedes then
    set (← liftExcept (queue.swapTop candidate)).2
where
  /-- Fail as a computation without state failed. -/
  liftExcept {β : Type} (result : Except IndexFault β) : NearestPass α β := .mk (pure result)

/-- Whether a box can hold a neighbor worth keeping: it is not empty, and fewer than `k`
are kept or it is no farther than the worst one. At the distance of the worst one it may
still hold a smaller index. -/
def promising (target : Point α) (k : Nat) (box : Box α) : NearestPass α Bool := do
  let queue ← get
  let beyond := queue.top?.any fun worst => worst.distance < box.distance target
  return !box.isEmpty && !(k ≤ queue.size && beyond)

def check (k : Nat) (queue : NeighborHeap α) : Except IndexFault Unit :=
  if k = 0 then .error (.badQuery .noNeighbors)
  else if queue.capacity < k then .error (.overCapacity queue.capacity)
  else .ok ()

/-- Run a pass for `k` neighbors in borrowed scratch space: the neighbors kept are appended
to the list, the nearest first, and the heap is left empty. -/
def run (pass : NearestPass α Unit) (k : Nat) (scratch : Scratch α) :
    Except IndexFault Unit × Scratch α :=
  match check k scratch.queue with
  | .error e => (.error e, scratch)
  | .ok () =>
    match ExceptT.run pass scratch.queue.clear with
    | (.error e, queue) => (.error e, { scratch with queue })
    | (.ok (), queue) =>
      let (queue, found) := queue.drainInto scratch.found
      (.ok (), ⟨queue, found⟩)

end NearestPass

end SpatialSearch
