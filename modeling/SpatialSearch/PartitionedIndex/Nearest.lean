import SpatialSearch.PartitionedIndex.Basic

/-!
# Nearest queries of a partitioned index

Each query gets the nearest entries of all ranks in the order of their distances, ties by
index and then by rank. There are two ways to find the ranks that have to be asked. The
refining method asks twice: first the closest ranks, then those that the answers have not
ruled out. The enclosing method asks once, within a radius that it knows beforehand.
-/

namespace SpatialSearch

namespace PartitionedIndex

variable {α : Type} [Scalar α]

def best (k : Nat) (answers : List (Answer α)) : List (Answer α) :=
  (answers.mergeSort fun a b => a.order b != .gt).take k

def bestOfEach (queries : List (NearestQuery α)) (found : List (List (Answer α))) :
    List (List (Answer α)) :=
  found.zipWith (fun answers n => best n.k answers) queries

/-- The distance of the last of `k` answers in their order, infinite if there are fewer. -/
def lastDistance (k : Nat) (answers : List (Answer α)) : α :=
  if k = 0 then Scalar.infinity
  else answers[k - 1]?.elim Scalar.infinity (·.distance)

/-- The answers to each query of a batch, in the order in which they came. -/
def deal (queries : Nat) (answers : List (Answer α)) :
    Search α (List (List (Answer α))) := do
  checkNumbers queries answers
  return (List.range queries).map fun number => answers.filter (·.number == number)

def ask (number : Nat) (n : NearestQuery α) (limit : α) (rank : Nat) : Nat × Request α :=
  (rank, ⟨number, .nearest n, limit⟩)

variable (x : PartitionedIndex α)

/-- The first ranks of a list that together hold at least `k` non-empty boxes, or all. -/
def firstHolding (k held : Nat) : List Nat → List Nat
  | [] => []
  | rank :: rest =>
    if k ≤ held then []
    else
      let held := held + (x.roster.holdings? rank).elim 0 (·.nonEmptySize)
      rank :: firstHolding k held rest

def askedFirst (queries : List (NearestQuery α)) : Except IndexFault (List (List Nat)) :=
  queries.mapM fun n => (x.roster.ranksNearestFirst n.target).map (x.firstHolding n.k 0)

def firstRequests (number : Nat) :
    NearestQuery α × List Nat → Except IndexFault (List (Nat × Request α))
  | (n, asked) => .ok (asked.map (ask number n Scalar.infinity))

/-- The requests of the second round: to every rank not yet asked that is no farther than
the last neighbor found. -/
def secondRequests (number : Nat) :
    NearestQuery α × List Nat × List (Answer α) → Except IndexFault (List (Nat × Request α))
  | (n, asked, found) =>
    let limit := lastDistance n.k found
    (x.roster.ranksNear n.target limit).map fun ranks =>
      (ranks.filter fun rank => !asked.contains rank).map (ask number n limit)

/-- Answer a batch of nearest queries in two rounds. -/
def refine (queries : List (NearestQuery α)) : Search α (HitTable α) := do
  let asked ← Search.ofIndex (x.askedFirst queries)
  let requests ← Search.ofIndex (requestsFrom firstRequests 0 (queries.zip asked))
  let found ← deal queries.length (← x.exchange requests)
  let found := bestOfEach queries found
  let requests ← Search.ofIndex <|
    requestsFrom x.secondRequests 0 (queries.zip (asked.zip found))
  let more ← deal queries.length (← x.exchange requests)
  let found := bestOfEach queries (found.zipWith (· ++ ·) more)
  tabulate queries.length found.flatten true

/-- The limits of the only round: the radius that covers enough non-empty boxes for certain,
or none if there are not so many. -/
def coveringLimits (queries : List (NearestQuery α)) : Except Abort (List α) :=
  queries.mapM fun n =>
    (x.roster.coveringRadius n.target n.k).map (·.getD Scalar.infinity)

def coveringRequests (number : Nat) :
    NearestQuery α × α → Except IndexFault (List (Nat × Request α))
  | (n, limit) =>
    (x.roster.ranksNear n.target limit).map fun ranks => ranks.map (ask number n limit)

/-- Answer a batch of nearest queries in one round. -/
def enclose (queries : List (NearestQuery α)) : Search α (HitTable α) := do
  let limits ← Search.ofCount (x.coveringLimits queries)
  let requests ← Search.ofIndex (requestsFrom x.coveringRequests 0 (queries.zip limits))
  let found ← deal queries.length (← x.exchange requests)
  tabulate queries.length (bestOfEach queries found).flatten true

end PartitionedIndex

end SpatialSearch
