import SpatialSearch.Count
import SpatialSearch.Group.Message

/-!
# Mailboxes

The messages under way in a group of `n` ranks: one queue, first in first out and
without bound, for every ordered pair of ranks, and which ranks are still there. What
was sent before its sender left is still delivered.
-/

namespace SpatialSearch

/-- The queues between the ranks of a group, the oldest message first, and the ranks that are still
there. -/
structure Mailboxes (n : Nat) (π : Type) where
  queues : Vector (Vector (List (Message π)) n) n
  present : Vector Bool n

namespace Mailboxes

variable {n : Nat} {π : Type}

def empty : Mailboxes n π := ⟨.replicate n (.replicate n []), .replicate n true⟩

/-- The empty mailboxes of a group of any size, if there is room for them. -/
def blank (n : Nat) : Except Abort (Mailboxes n π) := do
  Count.reserve n
  return .empty

def queue (m : Mailboxes n π) (source dest : Fin n) : List (Message π) :=
  (m.queues.get source).get dest

def setQueue (m : Mailboxes n π) (source dest : Fin n) (q : List (Message π)) :
    Mailboxes n π :=
  { m with queues := m.queues.set source ((m.queues.get source).set dest q dest.isLt) source.isLt }

def leave (m : Mailboxes n π) (rank : Fin n) : Mailboxes n π :=
  { m with present := m.present.set rank false rank.isLt }

/-- Send a message from one rank to another, which has to be in the group. -/
def send (m : Mailboxes n π) (source : Fin n) (dest : Nat) (message : Message π) :
    Except TransferFault (Mailboxes n π) :=
  if h : dest < n then
    if m.present.get ⟨dest, h⟩ then
      .ok (m.setQueue source ⟨dest, h⟩ (m.queue source ⟨dest, h⟩ ++ [message]))
    else .error (.departed dest)
  else .error (.noSuchRank dest n)

/-- What a rank meets that looks for the next message from another. -/
inductive Arrival (n : Nat) (π : Type) where
  | delivered (message : Message π) (rest : Mailboxes n π)
  /-- There will never be one. -/
  | failed (cause : TransferFault)
  | awaited

def receive (m : Mailboxes n π) (dest : Fin n) (source : Nat) : Arrival n π :=
  if h : source < n then
    match m.queue ⟨source, h⟩ dest with
    | message :: rest => .delivered message (m.setQueue ⟨source, h⟩ dest rest)
    | [] => if m.present.get ⟨source, h⟩ then .awaited else .failed (.departed source)
  else .failed (.noSuchRank source n)

end Mailboxes

end SpatialSearch
