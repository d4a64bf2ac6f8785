import SpatialSearch.Count
import SpatialSearch.Index.Basic

/-!
# Rosters

What every rank of a group knows about all ranks: the bounds and the sizes of their
indexes. A rank counts as searchable if it holds a box that is not empty and its bounds
are not empty. A tree over the bounds of the searchable ranks finds those to which a query
has to be sent.

Sizes are added up as counts, so that totals beyond 64 bits are given up.
-/

namespace SpatialSearch

/-- What a rank tells the others about its index. -/
structure Holdings (α : Type) where
  bounds : Box α
  size : Nat
  nonEmptySize : Nat
deriving DecidableEq

namespace Holdings

variable {α : Type} [Scalar α]

def ofIndex (i : Index α) : Holdings α := ⟨i.bounds, i.size, i.nonEmptySize⟩

def isSearchable (h : Holdings α) : Bool := 0 < h.nonEmptySize && !h.bounds.isEmpty

end Holdings

/-- The holdings of all ranks and a tree over those that are searchable. -/
structure Roster (α : Type) where
  /-- The tree; the indices of its entries are the numbers of the ranks. -/
  tree : BoxTree α
  holdings : List (Holdings α)

namespace Roster

variable {α : Type} [Scalar α]

/-- The searchable ranks in ascending order with their bounds. -/
def searchable (holdings : List (Holdings α)) : List (Entry α) :=
  (holdings.zipIdx.filter fun (h, _) => h.isSearchable).map fun (h, rank) =>
    ⟨rank, h.bounds⟩

def ofHoldings (holdings : List (Holdings α)) : Roster α :=
  ⟨.ofEntries (searchable holdings), holdings⟩

variable (r : Roster α)

def groupSize : Nat := r.holdings.length

def searchableCount : Nat := r.tree.size

def size : Except Abort Nat := Count.sum (r.holdings.map (·.size))

/-- The union of the bounds of the searchable ranks. -/
def bounds : Box α := r.tree.bounds

def holdings? (rank : Nat) : Option (Holdings α) := r.holdings[rank]?

/-- The number of entries on a rank; zero for a number beyond the ranks. -/
def sizeOf (rank : Nat) : Nat := (r.holdings? rank).elim 0 (·.size)

def boundsOf (rank : Nat) : Box α := (r.holdings? rank).elim .empty (·.bounds)

def ranksMatching (q : Query α) : Except IndexFault (List Nat) :=
  ((Index.tree r.tree).matchingIndices q).map (·.mergeSort)

/-- The ranks that may hold matches, in ascending order: all searchable ranks for a nearest
query. -/
def ranksFor : Query α → Except IndexFault (List Nat)
  | .nearest _ => .ok ((searchable r.holdings).map (·.index))
  | q => r.ranksMatching q

def ranksNearestFirst (target : Point α) : Except IndexFault (List Nat) :=
  if r.searchableCount = 0 then .ok []
  else
    ((Index.tree r.tree).nearest target r.searchableCount).map (·.map (·.index))

def ranksNear (target : Point α) (radius : α) : Except IndexFault (List Nat) :=
  r.ranksMatching (.touching ⟨target, radius⟩)

/-- The first of some distances, each with a count, at which the running count reaches
`k`. -/
def firstReaching (k seen : Nat) : List (α × Nat) → Except Abort (Option α)
  | [] => .ok none
  | (distance, count) :: rest =>
    match Count.add seen count with
    | .ok seen => if k ≤ seen then .ok (some distance) else firstReaching k seen rest
    | .error cause => .error cause

def farCorners (target : Point α) : List (α × Nat) :=
  (r.holdings.filter (·.isSearchable)).map fun h =>
    (h.bounds.farDistance target, h.nonEmptySize)

/-- The least of the distances to the far corners of the ranks within which at least `k`
non-empty boxes lie for certain, if there are so many at all. -/
def coveringRadius (target : Point α) (k : Nat) : Except Abort (Option α) :=
  firstReaching k 0 <|
    (r.farCorners target).mergeSort fun a b => Scalar.totalOrder a.1 b.1 != .gt

end Roster

end SpatialSearch
