import SpatialSearch.Geometry.Ball
import SpatialSearch.Index.Fault

/-!
# Queries

The three kinds of queries: for the boxes that overlap a box, for the boxes that a ball
touches, and for the boxes nearest to a point. The first two are spatial: whether a box
matches is decided by a test of that box alone, and the same test of an enclosing box is
what prunes a search.
-/

namespace SpatialSearch

structure NearestQuery (α : Type) where
  target : Point α
  k : Nat
deriving DecidableEq

instance {α : Type} [Scalar α] : BEq (NearestQuery α) where
  beq a b := a.target == b.target && a.k == b.k

inductive Query (α : Type) where
  | overlapping (box : Box α)
  | touching (ball : Ball α)
  | nearest (query : NearestQuery α)
deriving DecidableEq

inductive QueryKind where
  | overlapping
  | touching
  | nearest
deriving DecidableEq

namespace QueryKind

def name : QueryKind → String
  | overlapping => "Overlap"
  | touching => "Within"
  | nearest => "Nearest"

end QueryKind

namespace Query

variable {α : Type}

def kind : Query α → QueryKind
  | overlapping _ => .overlapping
  | touching _ => .touching
  | nearest _ => .nearest

/-- Whether a query is decided box by box. -/
def isSpatial (q : Query α) : Bool := q.kind != .nearest

variable [Scalar α]

instance : BEq (Query α) where
  beq
    | overlapping a, overlapping b => a == b
    | touching a, touching b => a == b
    | nearest a, nearest b => a == b
    | _, _ => false

def stabbing (p : Point α) : Query α := overlapping (.ofPoint p)

/-- What is wrong with a query, if anything: a radius has to be a non-negative number
and a nearest query has to ask for a neighbor. -/
def check : Query α → Except QueryFault Unit
  | overlapping _ => .ok ()
  | touching ball =>
    if Scalar.isNaN ball.radius || ball.radius < 0 then .error .negativeRadius else .ok ()
  | nearest n => if n.k = 0 then .error .noNeighbors else .ok ()

/-- Whether a box matches a spatial query; none matches a nearest one by itself. -/
def accepts : Query α → Box α → Bool
  | overlapping box, b => box.meets b
  | touching ball, b => ball.meets b
  | nearest _, _ => false

end Query

end SpatialSearch
