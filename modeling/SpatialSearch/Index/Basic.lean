import SpatialSearch.Index.BoxTree
import SpatialSearch.Index.LinearScan

/-!
# Indexes

A fixed set of entries that answers every kind of query, by a tree of boxes or by looking
at all entries. Spatial answers come in no promised order. Nearest answers come nearest
first, ties by index, and never report an empty box.
-/

namespace SpatialSearch

/-- A searchable set of entries. -/
inductive Index (α : Type) where
  | tree (tree : BoxTree α)
  | scan (scan : LinearScan α)

inductive IndexKind where
  | tree
  | scan
deriving DecidableEq

namespace Index

variable {α : Type} [Scalar α]

def ofEntries (entries : List (Entry α)) : IndexKind → Index α
  | .tree => tree (.ofEntries entries)
  | .scan => scan ⟨entries⟩

def size : Index α → Nat
  | tree t => t.size
  | scan s => s.entries.length

def isEmpty (i : Index α) : Bool := i.size = 0

def nonEmptySize : Index α → Nat
  | tree t => t.nonEmptySize
  | scan s => Entry.countNonEmpty s.entries

def bounds : Index α → Box α
  | tree t => t.bounds
  | scan s => Entry.bounds s.entries

def matching (i : Index α) (q : Query α) : Except IndexFault (List (Entry α)) :=
  if q.isSpatial then
    .ok <| match i with
      | tree t => t.visit q
      | scan s => s.visit q
  else .error (.badQuery .notSpatial)

def matchingIndices (i : Index α) (q : Query α) : Except IndexFault (List Nat) :=
  (i.matching q).map (·.map (·.index))

/-- Append the `k` nearest entries, or all if there are fewer, to the list in the scratch
space. -/
def nearestInto (i : Index α) (target : Point α) (k : Nat) (scratch : Scratch α) :
    Except IndexFault Unit × Scratch α :=
  let pass := match i with
    | tree t => t.nearest target k
    | scan s => s.nearest target k
  pass.run k scratch

def nearest (i : Index α) (target : Point α) (k : Nat) :
    Except IndexFault (List (Neighbor α)) :=
  if k = 0 then .error (.badQuery .noNeighbors)
  else if i.size = 0 then .ok []
  else
    let k := min k i.size
    let (result, scratch) := i.nearestInto target k ⟨.empty k, []⟩
    result.map fun _ => scratch.found

/-- Answer any query. An entry that a ball touches carries its distance from the center,
an entry that overlaps a box the distance zero. -/
def answer (i : Index α) : Query α → Except IndexFault (List (Neighbor α))
  | .nearest n => i.nearest n.target n.k
  | .touching ball =>
    (i.matching (.touching ball)).map fun hits =>
      hits.map fun e => ⟨e.box.distance ball.center, e.index⟩
  | .overlapping box =>
    (i.matching (.overlapping box)).map fun hits => hits.map fun e => ⟨0, e.index⟩

end Index

end SpatialSearch
