import SpatialSearch.Abort
import SpatialSearch.Group.Message

/-!
# Networks of channels

How the queues of a group are put together from channels. One channel is made for every
ordered pair of ranks, and each rank has a handle with the sending ends of the channels that
start at it and the receiving ends of those that lead to it, both in the order of the other
ranks. A handle that is dropped takes its ends with it.

What a channel is, is left open: `ChannelKind` says what can be done with one, and
`ChannelKind.Lawful` what comes of it.
-/

namespace SpatialSearch

/-- What comes of taking an item out of a channel. -/
inductive Taking (μ Channel : Type) where
  | got (item : μ) (rest : Channel)
  | awaited
  | ended

/-- Channels without bound for items of type `μ`, with one sending and one receiving end. -/
structure ChannelKind (μ : Type) where
  Channel : Type
  fresh : Channel
  put : Channel → μ → Option Channel
  take : Channel → Taking μ Channel
  dropSender : Channel → Channel
  dropReceiver : Channel → Channel
  waiting : Channel → List μ
  hasSender : Channel → Bool
  hasReceiver : Channel → Bool

namespace ChannelKind

variable {μ : Type}

/-- Items come out in the order in which they were put in, and either end learns that the other
has been dropped, the receiving one when nothing is left to take. What becomes of the items
whose receiving end is dropped is left open. -/
structure Lawful (C : ChannelKind μ) : Prop where
  waiting_fresh : C.waiting C.fresh = []
  hasSender_fresh : C.hasSender C.fresh = true
  hasReceiver_fresh : C.hasReceiver C.fresh = true
  put_open : ∀ c item, C.hasReceiver c = true → ∃ c', C.put c item = some c' ∧
    C.waiting c' = C.waiting c ++ [item] ∧ C.hasSender c' = C.hasSender c ∧
      C.hasReceiver c' = true
  put_closed : ∀ c item, C.hasReceiver c = false → C.put c item = none
  take_cons : ∀ c item rest, C.hasReceiver c = true → C.waiting c = item :: rest →
    ∃ c', C.take c = .got item c' ∧ C.waiting c' = rest ∧
      C.hasSender c' = C.hasSender c ∧ C.hasReceiver c' = true
  take_awaited : ∀ c, C.hasReceiver c = true → C.waiting c = [] → C.hasSender c = true →
    C.take c = .awaited
  take_ended : ∀ c, C.hasReceiver c = true → C.waiting c = [] → C.hasSender c = false →
    C.take c = .ended
  waiting_dropSender : ∀ c, C.waiting (C.dropSender c) = C.waiting c
  hasSender_dropSender : ∀ c, C.hasSender (C.dropSender c) = false
  hasReceiver_dropSender : ∀ c, C.hasReceiver (C.dropSender c) = C.hasReceiver c
  hasSender_dropReceiver : ∀ c, C.hasSender (C.dropReceiver c) = C.hasSender c
  hasReceiver_dropReceiver : ∀ c, C.hasReceiver (C.dropReceiver c) = false

end ChannelKind

/-- The ends of channels that a rank holds, by the numbers of the channels. -/
structure Handle where
  rank : Nat
  outgoing : List Nat
  incoming : List Nat

/-- The channels made so far and who has got their ends. -/
structure Wiring where
  made : Nat
  outgoing : List (List Nat)
  incoming : List (List Nat)

namespace Wiring

def bare (n : Nat) : Wiring := ⟨0, .replicate n [], .replicate n []⟩

/-- Make a channel and hand out its ends. -/
def connect (w : Wiring) (source dest : Nat) : Wiring where
  made := w.made + 1
  outgoing := w.outgoing.modify source (· ++ [w.made])
  incoming := w.incoming.modify dest (· ++ [w.made])

def connectAll (w : Wiring) (source : Nat) (dests : List Nat) : Wiring :=
  dests.foldl (fun w dest => w.connect source dest) w

/-- Connect every rank to every rank. -/
def ofSize (n : Nat) : Wiring :=
  (List.range n).foldl (fun w source => w.connectAll source (.range n)) (bare n)

def handles (w : Wiring) : List Handle :=
  (w.outgoing.zip w.incoming).zipIdx.map fun ((outgoing, incoming), rank) =>
    ⟨rank, outgoing, incoming⟩

end Wiring

/-- What a rank meets that looks for the next item from another. -/
inductive Lookup (σ μ : Type) where
  | delivered (item : μ) (rest : σ)
  | failed (cause : TransferFault)
  | awaited
  | gaveUp (cause : Abort)

/-- The channels of a group and the handles that have not been dropped. -/
structure Network {μ : Type} (C : ChannelKind μ) where
  channels : Nat → C.Channel
  handles : List (Option Handle)

namespace Network

variable {μ : Type} {C : ChannelKind μ}

def group (n : Nat) : Network C :=
  ⟨fun _ => C.fresh, (Wiring.ofSize n).handles.map some⟩

def handle? (net : Network C) (rank : Nat) : Option Handle := net.handles[rank]?.join

def setChannel (net : Network C) (number : Nat) (c : C.Channel) : Network C :=
  { net with channels := fun i => if i = number then c else net.channels i }

def changeAll (change : C.Channel → C.Channel) (net : Network C) (numbers : List Nat) :
    Network C :=
  numbers.foldl (fun net i => net.setChannel i (change (net.channels i))) net

def putInto (net : Network C) (number dest : Nat) (item : μ) :
    Except TransferFault (Network C) :=
  match C.put (net.channels number) item with
  | some c => .ok (net.setChannel number c)
  | none => .error (.departed dest)

def takeFrom (net : Network C) (number source : Nat) : Lookup (Network C) μ :=
  match C.take (net.channels number) with
  | .got item c => .delivered item (net.setChannel number c)
  | .ended => .failed (.departed source)
  | .awaited => .awaited

def send (net : Network C) (h : Handle) (dest : Nat) (item : μ) :
    Except TransferFault (Network C) :=
  if hdest : dest < h.outgoing.length then net.putInto h.outgoing[dest] dest item
  else .error (.noSuchRank dest h.outgoing.length)

/-- Look for the next item from a rank. The rank is checked against the outgoing channels. -/
def receive (net : Network C) (h : Handle) (source : Nat) : Lookup (Network C) μ :=
  if source < h.outgoing.length then
    if hsource : source < h.incoming.length then net.takeFrom h.incoming[source] source
    else .gaveUp (.outOfRange h.incoming.length source)
  else .failed (.noSuchRank source h.outgoing.length)

/-- Drop a handle and all ends with it. -/
def drop (net : Network C) (h : Handle) : Network C :=
  let closed :=
    (net.changeAll C.dropSender h.outgoing).changeAll C.dropReceiver h.incoming
  { closed with handles := closed.handles.set h.rank none }

end Network

end SpatialSearch
