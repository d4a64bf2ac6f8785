import SpatialSearch.Group.Run

/-!
# Collective operations

Operations that all ranks of a group carry out together, each by sending to all others
first and then receiving from them in the order of the ranks. A rank that finds a message
of another operation in its way fails; the messages behind it stay where they are.
-/

namespace SpatialSearch

/-- A program that may fail in talking to other ranks. -/
abbrev Exchange (π : Type) := ExceptT TransferFault (Program π)

namespace Exchange

variable {π β : Type}

def ofCount : Except Abort β → Exchange π β
  | .ok result => pure result
  | .error cause => .mk (.abort cause)

def send (kind : ElementKind π β) (dest : Nat) (tag : Tag) (items : List β) :
    Exchange π Unit :=
  .mk (.send dest ⟨tag, kind.pack items⟩ .done)

def receive (kind : ElementKind π β) (source : Nat) (tag : Tag) : Exchange π (List β) :=
  .mk (.receive source fun arrived => .done (arrived.bind (·.unwrap kind source tag)))

def onlyItem (peer : Nat) : List β → Except TransferFault β
  | [item] => .ok item
  | items => .error (.wrongCount peer 1 items.length)

def receiveOne (kind : ElementKind π β) (source : Nat) (tag : Tag) : Exchange π β := do
  let items ← receive kind source tag
  liftExcept (onlyItem source items)
where
  /-- Fail as a computation without communication failed. -/
  liftExcept (result : Except TransferFault β) : Exchange π β := .mk (.done result)

/-- Give every rank one item and get one from each, in the order of the ranks. -/
def swap (kind : ElementKind π β) (tag : Tag) (seat : Seat) (outgoing : Nat → β) :
    Exchange π (List β) := do
  seat.others.forM fun dest => send kind dest tag [outgoing dest]
  seat.ranks.mapM fun source =>
    if source = seat.rank.val then pure (outgoing source) else receiveOne kind source tag

def gather (kind : ElementKind π β) (seat : Seat) (value : β) : Exchange π (List β) :=
  swap kind .gather seat fun _ => value

def barrier (kind : ElementKind π Unit) (seat : Seat) : Exchange π Unit := do
  let _ ← gather kind seat ()

end Exchange

end SpatialSearch
