import SpatialSearch.Index.Shortlist
import SpatialSearch.Index.Split
import SpatialSearch.Query

/-!
# Box trees

Binary trees of boxes over a fixed set of entries. Every leaf holds one entry and the
box of a branch encloses everything below it, so a box that fails a test rules out the
whole subtree. The tree over some entries is found by splitting them again and again.

`BoxTree.nodes` lays a tree out as a table in which the branches name their children by
position.
-/

namespace SpatialSearch

/-- A subtree. -/
inductive BoxNode (α : Type) where
  | leaf (box : Box α) (index : Nat)
  | branch (box : Box α) (left right : BoxNode α)

namespace BoxNode

variable {α : Type}

def box : BoxNode α → Box α
  | leaf b _ => b
  | branch b _ _ => b

def leaves : BoxNode α → List (Entry α)
  | leaf b i => [⟨i, b⟩]
  | branch _ left right => left.leaves ++ right.leaves

/-- The number of nodes on the longest path to a leaf. -/
def depth : BoxNode α → Nat
  | leaf _ _ => 1
  | branch _ left right => max left.depth right.depth + 1

variable [Scalar α]

def build (entries : List (Entry α)) (h : 0 < entries.length) : BoxNode α :=
  if h2 : 2 ≤ entries.length then
    .branch (Entry.bounds entries)
      (build (Split.ofEntries entries).left (Split.left_pos h2))
      (build (Split.ofEntries entries).right (Split.right_pos h2))
  else .leaf (Entry.bounds entries) entries[0].index
termination_by entries.length
decreasing_by
  · exact Split.left_lt h2
  · exact Split.right_lt h2

/-- The entries below a subtree whose boxes pass a test that is made at every node on the
way, the right side before the left. -/
def visit (q : Query α) : BoxNode α → List (Entry α)
  | leaf b i => if q.accepts b then [⟨i, b⟩] else []
  | branch b left right => if q.accepts b then right.visit q ++ left.visit q else []

/-- Offer the entries of a subtree, the nearer side first, and pass over subtrees that can
hold no neighbor worth keeping. -/
def nearest (target : Point α) (k : Nat) : BoxNode α → NearestPass α Unit
  | leaf b i => do
    if ← NearestPass.promising target k b then
      NearestPass.consider k ⟨b.distance target, i⟩
  | branch b left right => do
    if ← NearestPass.promising target k b then
      if left.box.distance target ≤ right.box.distance target then
        left.nearest target k
        right.nearest target k
      else
        right.nearest target k
        left.nearest target k

end BoxNode

/-- A node in the table of a tree. -/
inductive BoxSlot (α : Type) where
  | leaf (box : Box α) (index : Nat)
  | branch (box : Box α) (left right : Nat)

namespace BoxNode

variable {α : Type}

/-- The slot of a subtree and the slots below it, which take the positions from `next` on:
the two children first, then what is below the left one, then what is below the right
one. -/
def layOut : BoxNode α → Nat → BoxSlot α × List (BoxSlot α)
  | leaf b i, _ => (.leaf b i, [])
  | branch b left right, next =>
    let (l, belowLeft) := left.layOut (next + 2)
    let (r, belowRight) := right.layOut (next + 2 + belowLeft.length)
    (.branch b next (next + 1), l :: r :: (belowLeft ++ belowRight))

end BoxNode

structure BoxTree (α : Type) where
  root : Option (BoxNode α) := none
  size : Nat := 0
  nonEmptySize : Nat := 0

namespace BoxTree

variable {α : Type}

/-- The table of all nodes, the root first. -/
def nodes (t : BoxTree α) : List (BoxSlot α) :=
  match t.root with
  | none => []
  | some root =>
    let (slot, below) := root.layOut 1
    slot :: below

def nodeCount (t : BoxTree α) : Nat := t.nodes.length

def depth (t : BoxTree α) : Nat := t.root.elim 0 BoxNode.depth

variable [Scalar α]

def ofEntries (entries : List (Entry α)) : BoxTree α where
  root := if h : 0 < entries.length then some (.build entries h) else none
  size := entries.length
  nonEmptySize := Entry.countNonEmpty entries

def bounds (t : BoxTree α) : Box α := t.root.elim .empty BoxNode.box

def visit (t : BoxTree α) (q : Query α) : List (Entry α) := t.root.elim [] (·.visit q)

def nearest (t : BoxTree α) (target : Point α) (k : Nat) : NearestPass α Unit :=
  match t.root with
  | none => return
  | some root => root.nearest target (min k t.size)

end BoxTree

end SpatialSearch
