import SpatialSearch.Index.Shortlist
import SpatialSearch.Index.Entry
import SpatialSearch.Query

/-!
# Linear scans

The plainest index: a list of entries, all of which are looked at by every search. It
says what any other index has to answer.
-/

namespace SpatialSearch

structure LinearScan (α : Type) where
  entries : List (Entry α)

namespace LinearScan

variable {α : Type} [Scalar α]

def visit (s : LinearScan α) (q : Query α) : List (Entry α) :=
  s.entries.filter fun e => q.accepts e.box

def nearest (s : LinearScan α) (target : Point α) (k : Nat) : NearestPass α Unit :=
  s.entries.forM fun e => do
    unless e.box.isEmpty do
      NearestPass.consider k ⟨e.box.distance target, e.index⟩

end LinearScan

end SpatialSearch
