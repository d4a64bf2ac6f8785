import SpatialSearch.Count
import SpatialSearch.Group.Collective

/-!
# Exchange plans

An exchange from any rank to any other takes two collective steps. First the ranks agree
on a plan: each announces to every other how many items it will send there. Then items
are posted along the plan, once or more often. Items for one destination keep their
order, and what arrives is grouped by the rank it comes from. Where nothing was
announced, no message is sent. A rank gives up before it waits for more items than there
is room for.
-/

namespace SpatialSearch

/-- What one rank knows of an exchange. -/
structure Plan where
  seat : Seat
  destinations : List Nat
  outgoing : List Nat
  incoming : List Nat

namespace Plan

variable {π β : Type}

/-- Agree on the plan for items with given destinations. A destination outside the group
is refused before anything is sent. -/
def negotiate (counts : ElementKind π Nat) (seat : Seat) (destinations : List Nat) :
    Exchange π Plan :=
  match destinations.find? (seat.size ≤ ·) with
  | some dest => throw (.noSuchRank dest seat.size)
  | none => do
    let incoming ← Exchange.swap counts .sizes seat fun dest => destinations.count dest
    return {
      seat, destinations, incoming
      outgoing := seat.ranks.map fun dest => destinations.count dest }

variable (plan : Plan)

def sendTotal : Nat := plan.destinations.length

def receiveTotal : Except Abort Nat := Count.sum plan.incoming

/-- Make room for the items that the rank receives: their number. -/
def makeRoom : Except Abort Nat := do
  let total ← plan.receiveTotal
  Count.reserve total
  return total

/-- The rank that each item comes from, in the order in which they are received. -/
def sources : List Nat :=
  plan.incoming.zipIdx.flatMap fun (count, source) => List.replicate count source

def bucket (dest : Nat) (items : List β) : List β :=
  ((items.zip plan.destinations).filter (·.2 == dest)).map (·.1)

def postTo (kind : ElementKind π β) (items : List β) (dest : Nat) : Exchange π Unit :=
  let bucket := plan.bucket dest items
  if bucket.isEmpty then pure () else Exchange.send kind dest .payload bucket

/-- Wait for the items that a rank announced, if there are any. -/
def takeFrom (kind : ElementKind π β) (source expected : Nat) : Exchange π (List β) :=
  if expected = 0 then pure []
  else do
    let items ← Exchange.receive kind source .payload
    if items.length = expected then return items
    else throw (.wrongCount source expected items.length)

/-- Send items along the plan and get what the other ranks send. -/
def post (kind : ElementKind π β) (items : List β) : Exchange π (List β) := do
  if items.length ≠ plan.destinations.length then
    throw (.wrongCount plan.seat.rank plan.destinations.length items.length)
  else
    plan.seat.others.forM (plan.postTo kind items)
    let _ ← Exchange.ofCount plan.makeRoom
    let parts ← plan.incoming.zipIdx.mapM fun (expected, source) =>
      if source = plan.seat.rank.val then pure (plan.bucket source items)
      else takeFrom kind source expected
    return parts.flatten

end Plan

end SpatialSearch
