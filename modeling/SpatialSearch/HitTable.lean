import SpatialSearch.Count
import SpatialSearch.Scalar

/-!
# Hit tables

The hits of a batch of queries in compressed rows: all hits one after the other in
columns, and the offset at which the row of each query starts. Rows are read with their
bounds checked, so a table that was put together by hand may fail to have a row.
-/

namespace SpatialSearch

/-- A match of a query: an entry by its rank and its index there. -/
structure Hit (α : Type) where
  index : Nat
  rank : Nat
  distance : Option α
deriving DecidableEq

instance {α : Type} [BEq α] : BEq (Hit α) where
  beq a b := a.index == b.index && a.rank == b.rank && a.distance == b.distance

/-- The hits of a batch in compressed rows, for nearest queries with their distances. -/
structure HitTable (α : Type) where
  /-- Where the row of each query starts, and where the last one ends. -/
  offsets : List Nat := []
  indices : List Nat := []
  ranks : List Nat := []
  distances : Option (List α) := none
deriving DecidableEq

instance {α : Type} [BEq α] : BEq (HitTable α) where
  beq a b :=
    a.offsets == b.offsets && a.indices == b.indices && a.ranks == b.ranks &&
      a.distances == b.distances

namespace HitTable

variable {α : Type}

def empty (queries : Nat) (measured : Bool) : HitTable α where
  offsets := List.replicate (queries + 1) 0
  distances := if measured then some [] else none

/-- A table without hits for any number of queries, if there is room for it. -/
def blank (queries : Nat) (measured : Bool) : Except Abort (HitTable α) := do
  let offsets ← Count.add queries 1
  Count.reserve offsets
  return .empty queries measured

/-- Whether hits are in the order of their queries, of which none is before `first`. -/
def inOrder (queries first : Nat) : List (Nat × Hit α) → Bool
  | [] => true
  | (q, _) :: rest => q < queries && first ≤ q && inOrder queries q rest

def runningSums (start : Nat) : List Nat → List Nat
  | [] => [start]
  | c :: counts => start :: runningSums (start + c) counts

/-- The table of hits that are in the order of their queries. A hit without a distance
counts as infinitely far. -/
def ofHits [Scalar α] (queries : Nat) (hits : List (Nat × Hit α))
    (measured : Bool) : HitTable α where
  offsets := runningSums 0 ((List.range queries).map fun q => hits.countP (·.1 == q))
  indices := hits.map (·.2.index)
  ranks := hits.map (·.2.rank)
  distances :=
    if measured then some (hits.map fun h => h.2.distance.getD Scalar.infinity)
    else none

def size (t : HitTable α) : Nat := t.offsets.length - 1

def isEmpty (t : HitTable α) : Bool := t.size = 0

def hitCount (t : HitTable α) : Nat := t.indices.length

def row? (t : HitTable α) (q : Nat) : Option (Nat × Nat) := do
  let start ← t.offsets[q]?
  let stop ← t.offsets[q + 1]?
  return (start, stop)

def hitAt? (t : HitTable α) (i : Nat) : Option (Hit α) := do
  let index ← t.indices[i]?
  let rank ← t.ranks[i]?
  match t.distances with
  | none => return ⟨index, rank, none⟩
  | some distances =>
    let distance ← distances[i]?
    return ⟨index, rank, some distance⟩

def hitsFrom? (t : HitTable α) (start : Nat) : (count : Nat) → Option (List (Hit α))
  | 0 => some []
  | count + 1 => do
    let hit ← t.hitAt? start
    let rest ← t.hitsFrom? (start + 1) count
    return hit :: rest

/-- The hits of a query, if its row lies within the columns. A row that ends before it
starts is empty. -/
def hits? (t : HitTable α) (q : Nat) : Option (List (Hit α)) := do
  let (start, stop) ← t.row? q
  t.hitsFrom? start (stop - start)

end HitTable

end SpatialSearch
