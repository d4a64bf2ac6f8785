import SpatialSearch.Group.Plan
import SpatialSearch.HitTable
import SpatialSearch.PartitionedIndex.Batch
import SpatialSearch.PartitionedIndex.Respond

/-!
# Partitioned indexes

An index over entries that are spread over the ranks of a group. Every rank has an index
of its own entries and the roster of all ranks. To build the whole and to query it is
collective: all ranks do so together, each with its own entries and its own queries.

This module has what all queries share: requests go to their ranks, are answered there,
and the answers come back.
-/

namespace SpatialSearch

/-- A program that queries a partitioned index. -/
abbrev Search (α : Type) := ExceptT SearchFault (Program (Content α))

namespace Search

variable {α β : Type}

def ofExchange (p : Exchange (Content α) β) : Search α β := p.adapt .transfer

def ofExcept (result : Except SearchFault β) : Search α β := .mk (.done result)

def ofIndex (result : Except IndexFault β) : Search α β :=
  ofExcept (result.mapError .index)

def abort (cause : Abort) : Search α β := .mk (.abort cause)

def ofCount (result : Except Abort β) : Search α β :=
  ofExchange (Exchange.ofCount result)

end Search

/-- What one rank holds of a partitioned index. -/
structure PartitionedIndex (α : Type) where
  seat : Seat
  own : Index α
  roster : Roster α
  options : SearchOptions

namespace PartitionedIndex

variable {α : Type} [Scalar α]

/-- Join the indexes of all ranks. -/
def build (seat : Seat) (own : Index α) (options : SearchOptions) :
    Search α (PartitionedIndex α) := do
  let holdings ← Search.ofExchange <|
    Exchange.gather Content.ofHoldings seat (.ofIndex own)
  return ⟨seat, own, .ofHoldings holdings, options⟩

variable (x : PartitionedIndex α)

def size : Except Abort Nat := x.roster.size

def isEmpty : Bool := x.roster.holdings.all (·.size = 0)

def bounds : Box α := x.roster.bounds

/-- Tell all ranks the kind of the own batch and find out the kind of all batches. -/
def agree (kind : Option QueryKind) : Search α (Option QueryKind) := do
  let announcements ← Search.ofExchange <|
    Exchange.gather Content.ofAnnouncements x.seat ⟨kind, x.options⟩
  Search.ofExcept (Batch.agree announcements)

/-- Send requests to their ranks, answer those that arrive, and get the answers to the own
ones, grouped by the ranks that answer. -/
def exchange (requests : List (Nat × Request α)) : Search α (List (Answer α)) := do
  let rank := x.seat.rank.val
  let counts := Content.ofPlain .count
  let forward ← Search.ofExchange <| Plan.negotiate counts x.seat (requests.map (·.1))
  let incoming ← Search.ofExchange <| forward.post Content.ofRequests (requests.map (·.2))
  let replies ← Search.ofIndex <|
    Request.respondAll x.own rank incoming ⟨.empty x.options.neighborLimit, []⟩
  let outgoing := (forward.sources.zip replies).flatMap fun (origin, answers) =>
    answers.map fun answer => (origin, answer)
  let backward ← Search.ofExchange <| Plan.negotiate counts x.seat (outgoing.map (·.1))
  Search.ofExchange <| backward.post Content.ofAnswers (outgoing.map (·.2))

def requestsFrom {β : Type}
    (requests : Nat → β → Except IndexFault (List (Nat × Request α))) :
    (number : Nat) → List β → Except IndexFault (List (Nat × Request α))
  | _, [] => .ok []
  | number, item :: rest => do
    let first ← requests number item
    let others ← requestsFrom requests (number + 1) rest
    return first ++ others

/-- Every answer has to name one of the queries of the batch. -/
def checkNumbers (queries : Nat) (answers : List (Answer α)) : Search α Unit :=
  match answers.find? (queries ≤ ·.number) with
  | some answer => Search.abort (.outOfRange queries answer.number)
  | none => pure ()

/-- The table of answers, which have to be in the order of their queries. -/
def tabulate (queries : Nat) (answers : List (Answer α)) (measured : Bool) :
    Search α (HitTable α) :=
  let hits := answers.map fun a =>
    (a.number, ⟨a.index, a.rank, if measured then some a.distance else none⟩)
  if HitTable.inOrder queries 0 hits then pure (.ofHits queries hits measured)
  else Search.abort .outOfOrder

end PartitionedIndex

end SpatialSearch
