import SpatialSearch.Description.Index
import SpatialSearch.PartitionedIndex.Query

/-!
# Descriptions of places, plans and partitioned indexes
-/

namespace SpatialSearch

namespace Described

instance : Described Seat where
  describe seat := partialRecord "LocalComm"
    [("rank", describe seat.rank.val), ("size", describe seat.size)]

instance : Described Plan where
  describe plan := partialRecord "Distributor"
    [("rank", describe plan.seat.rank.val), ("send_counts", describe plan.outgoing),
      ("recv_counts", describe plan.incoming)]

instance : Described (PartitionedIndex Binary64) where
  describe x := partialRecord "DistributedTree"
    [("rank", describe x.seat.rank.val), ("comm_size", describe x.seat.size),
      ("local_size", describe x.own.size), ("digest", describe x.roster),
      ("options", describe x.options)]

end Described

end SpatialSearch
