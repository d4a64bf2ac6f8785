import SpatialSearch.BoundedHeap
import SpatialSearch.Description.Text
import SpatialSearch.Roster
import SpatialSearch.Options

/-!
# Descriptions of heaps, indexes, rosters and options
-/

namespace SpatialSearch

namespace Described

instance {β : Type} [Described β] {cmp : β → β → Ordering} :
    Described (BoundedHeap cmp) where
  describe q := partialRecord "PriorityQueue"
    [("len", describe q.size), ("capacity", describe q.capacity), ("top", describe q.top?)]

/-- What stands for an order that is given by a function. -/
def functionOrder : String := wrapped "FnOrder" ".."

instance : Described (BoxTree Binary64) where
  describe t := partialRecord "Bvh"
    [("len", describe t.size), ("arena_nodes", describe t.nodeCount),
      ("bounds", describe t.bounds)]

instance : Described (Index Binary64) where
  describe
    | .tree t => describe t
    | .scan s => partialRecord "FlatVec"
      [("len", describe s.entries.length), ("bounds", describe (Entry.bounds s.entries))]

instance : Described (Holdings Binary64) where
  describe h := record "RankSummary"
    [("bounds", describe h.bounds), ("size", describe h.size),
      ("non_empty", describe h.nonEmptySize)]

instance : Described (Roster Binary64) where
  describe r := record "RankDigest"
    [("tree", describe r.tree), ("ranks", describe r.holdings)]

instance : Described NearestMethod where
  describe
    | .refining => "TwoRound"
    | .enclosing => "Conservative"

instance : Described SearchOptions where
  describe o := record "TreeOptions"
    [("max_neighbors", describe o.neighborLimit),
      ("nearest_strategy", describe o.method)]

end Described

end SpatialSearch
