import SpatialSearch.Roster
import SpatialSearch.Group.Message
import SpatialSearch.Options

/-!
# What ranks send each other

The payloads of a partitioned index: what the ranks tell each other about their holdings
and their batches, the requests of one rank to another and the answers to them, and plain
values for any other use.
-/

namespace SpatialSearch

inductive PlainKind where
  | byte
  | word
  | count
  | text
  | signal
deriving DecidableEq

abbrev PlainKind.Value : PlainKind → Type
  | byte => UInt8
  | word => UInt64
  | count => Nat
  | text => String
  | signal => Unit

/-- A query on its way to a rank that may hold matches. -/
structure Request (α : Type) where
  number : Nat
  query : Query α
  /-- Neighbors farther away than this are not sent back. -/
  limit : α

/-- A hit on its way to the rank that asked. -/
structure Answer (α : Type) where
  number : Nat
  index : Nat
  rank : Nat
  distance : α
deriving DecidableEq

def Answer.order {α : Type} [Scalar α] (a b : Answer α) : Ordering :=
  ((Scalar.totalOrder a.distance b.distance).then (compare a.index b.index)).then
    (compare a.rank b.rank)

/-- What every rank tells the others before a batch of queries. -/
structure Announcement where
  kind : Option QueryKind
  options : SearchOptions
deriving DecidableEq

inductive Content (α : Type) where
  | plain (kind : PlainKind) (items : List kind.Value)
  | holdings (items : List (Holdings α))
  | announcements (items : List Announcement)
  | requests (items : List (Request α))
  | answers (items : List (Answer α))

namespace Content

variable {α : Type}

def ofPlain (kind : PlainKind) : ElementKind (Content α) kind.Value where
  pack := plain kind
  unpack?
    | plain found items => if h : found = kind then some (h ▸ items) else none
    | _ => none
  unpack?_pack _ := dif_pos rfl

def ofHoldings : ElementKind (Content α) (Holdings α) where
  pack := holdings
  unpack?
    | holdings items => some items
    | _ => none
  unpack?_pack _ := rfl

def ofAnnouncements : ElementKind (Content α) Announcement where
  pack := announcements
  unpack?
    | announcements items => some items
    | _ => none
  unpack?_pack _ := rfl

def ofRequests : ElementKind (Content α) (Request α) where
  pack := requests
  unpack?
    | requests items => some items
    | _ => none
  unpack?_pack _ := rfl

def ofAnswers : ElementKind (Content α) (Answer α) where
  pack := answers
  unpack?
    | answers items => some items
    | _ => none
  unpack?_pack _ := rfl

end Content

end SpatialSearch
