/-!
# Messages

What the ranks of a group send each other: a payload under a tag that says to which
operation it belongs. The payloads of a group are of one type `π`; an `ElementKind` says
how lists of one element type are packed into it, and a list is only unpacked as the
kind it was packed as.
-/

namespace SpatialSearch

structure Tag where
  number : UInt32
deriving DecidableEq

namespace Tag

def gather : Tag := ⟨1⟩

def sizes : Tag := ⟨2⟩

def payload : Tag := ⟨3⟩

/-- The first tag that no operation of this library uses. -/
def user : Tag := ⟨16⟩

def name (t : Tag) : String := s!"Tag({t.number.toNat})"

end Tag

/-- What can go wrong between ranks. -/
inductive TransferFault where
  | noSuchRank (rank size : Nat)
  | departed (peer : Nat)
  | wrongTag (peer : Nat) (expected found : Tag)
  | wrongCount (peer expected found : Nat)
  | wrongKind (peer : Nat) (tag : Tag)
deriving DecidableEq

namespace TransferFault

def message : TransferFault → String
  | noSuchRank rank size => s!"rank {rank} out of range for a group of {size}"
  | departed peer => s!"rank {peer} disconnected"
  | wrongTag peer expected found =>
    s!"collective mismatch with rank {peer}: expected tag {expected.name}, " ++
      s!"found {found.name}"
  | wrongCount peer expected found =>
    s!"size mismatch with rank {peer}: expected {expected} elements, found {found}"
  | wrongKind peer tag =>
    s!"unexpected payload type from rank {peer} for tag {tag.name}"

end TransferFault

/-- How lists of elements of one type travel in payloads. -/
structure ElementKind (π β : Type) where
  pack : List β → π
  unpack? : π → Option (List β)
  unpack?_pack : ∀ items, unpack? (pack items) = some items

structure Message (π : Type) where
  tag : Tag
  payload : π
deriving DecidableEq

namespace Message

variable {π β : Type}

/-- The items of a message from a rank. The tag is looked at before the kind. -/
def unwrap (kind : ElementKind π β) (peer : Nat) (tag : Tag) (m : Message π) :
    Except TransferFault (List β) :=
  if m.tag = tag then
    match kind.unpack? m.payload with
    | some items => .ok items
    | none => .error (.wrongKind peer tag)
  else .error (.wrongTag peer tag m.tag)

end Message

end SpatialSearch
