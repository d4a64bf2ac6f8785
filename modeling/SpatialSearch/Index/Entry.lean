import SpatialSearch.Geometry.Box

/-!
# Entries

What an index is built from: boxes under indices of the caller's choice. Nothing asks
the indices to differ.
-/

namespace SpatialSearch

/-- A box and the index under which a search reports it. -/
structure Entry (α : Type) where
  index : Nat
  box : Box α
deriving DecidableEq

namespace Entry

variable {α : Type}

def number (boxes : List (Box α)) : List (Entry α) :=
  boxes.zipIdx.map fun (box, i) => ⟨i, box⟩

variable [Scalar α]

def bounds (entries : List (Entry α)) : Box α := .unionAll (entries.map (·.box))

def countNonEmpty (entries : List (Entry α)) : Nat := entries.countP fun e => !e.box.isEmpty

end Entry

end SpatialSearch
