import SpatialSearch.Proofs.Binary64Laws
import SpatialSearch.Proofs.LocalSearch

/-!
# Unions in any order and grouping

Boxes are folded into one box from the left, from the right, and by the subtrees of a tree whose
leaves are not in the order of the entries. All of these give equal boxes. The reason is that a
union is the least box around its parts, their hull, which is a matter of the boxes that go in
and not of how they are put together. Equal is meant of numbers here: which of the two zeros is
kept for a corner may well depend on the order.
-/

namespace SpatialSearch

open LawfulScalar

namespace Box

variable {α : Type} [Scalar α]

/-- A box is the least that encloses some boxes. -/
structure IsHull (u : Box α) (boxes : List (Box α)) : Prop where
  numeric : u.Numeric
  encloses : ∀ b ∈ boxes, u.Encloses b
  least : ∀ v : Box α, v.Numeric → (∀ b ∈ boxes, v.Encloses b) → v.Encloses u

/-- A way to put boxes together by unions. -/
inductive Grouping (α : Type) where
  | none
  | one (box : Box α)
  | both (left right : Grouping α)

namespace Grouping

def boxes : Grouping α → List (Box α)
  | none => []
  | one box => [box]
  | both left right => left.boxes ++ right.boxes

def union : Grouping α → Box α
  | none => empty
  | one box => box
  | both left right => left.union.union right.union

end Grouping

section Hulls

variable [LawfulScalar α] {b u v : Box α} {boxes others : List (Box α)}

theorem isHull_unionAll (hall : ∀ b ∈ boxes, b.Numeric) : IsHull (unionAll boxes) boxes :=
  ⟨numeric_unionAll boxes, unionAll_encloses hall, fun _ hv => hv.encloses_unionAll⟩

theorem isHull_empty : IsHull (empty : Box α) [] := isHull_unionAll (List.forall_mem_nil _)

theorem Numeric.isHull (hb : b.Numeric) : IsHull b [b] := by
  refine ⟨hb, List.forall_mem_singleton.mpr hb.encloses_self, fun v _ h => ?_⟩
  exact List.forall_mem_singleton.mp h

/-- The union of two hulls is the hull of all that is in either. -/
theorem IsHull.union (hu : IsHull u boxes) (hv : IsHull v others) :
    IsHull (u.union v) (boxes ++ others) := by
  refine ⟨hu.numeric.union v, List.forall_mem_append.mpr ⟨fun b hb => ?_, fun b hb => ?_⟩,
    fun w hw h => ?_⟩
  · exact (union_encloses_left hu.numeric v).trans (hu.encloses b hb)
  · exact (union_encloses_right hu.numeric hv.numeric).trans (hv.encloses b hb)
  · obtain ⟨hboxes, hothers⟩ := List.forall_mem_append.mp h
    exact (hu.least w hw hboxes).union (hv.least w hw hothers)

theorem Grouping.isHull (g : Grouping α) (hg : ∀ b ∈ g.boxes, b.Numeric) :
    IsHull g.union g.boxes := by
  induction g with
  | none => exact isHull_empty
  | one box => exact (hg box List.mem_cons_self).isHull
  | both left right ihl ihr =>
    obtain ⟨hl, hr⟩ := List.forall_mem_append.mp hg
    exact (ihl hl).union (ihr hr)

end Hulls

/-! ### Equal unions -/

variable [LawfulEqScalar α] {a a' b b' c u v : Box α} {boxes others : List (Box α)}

/-- The hull of some boxes is that of fewer of them exactly if it encloses the others as well. -/
theorem IsHull.beq_iff (hu : IsHull u boxes) (hv : IsHull v others) (hfewer : others ⊆ boxes) :
    (u == v) = true ↔ ∀ b ∈ boxes, v.Encloses b := by
  rw [Box.beq_iff]
  constructor
  · rintro ⟨-, hvu⟩ b hb
    exact hvu.trans (hu.encloses b hb)
  · intro h
    exact ⟨hv.least u hu.numeric fun b hb => hu.encloses b (hfewer hb), hu.least v hv.numeric h⟩

/-- Hulls of the same boxes are equal, however often and in which order the boxes are listed. -/
theorem IsHull.beq_of_subset (hu : IsHull u boxes) (hv : IsHull v others) (hsub : boxes ⊆ others)
    (hsup : others ⊆ boxes) : (u == v) = true :=
  (hu.beq_iff hv hsup).mpr fun b hb => hv.encloses b (hsub hb)

theorem IsHull.beq_of_perm (hu : IsHull u boxes) (hv : IsHull v others) (hp : boxes.Perm others) :
    (u == v) = true :=
  hu.beq_of_subset hv hp.subset hp.symm.subset

/-- Equal boxes have equal unions. -/
theorem union_congr (ha : (a == a') = true) (hb : (b == b') = true) :
    (a.union b == a'.union b') = true := by
  obtain ⟨haa', ha'a⟩ := beq_iff.mp ha
  obtain ⟨hbb', hb'b⟩ := beq_iff.mp hb
  refine beq_iff.mpr ⟨Encloses.union ?_ ?_, Encloses.union ?_ ?_⟩
  · exact (union_encloses_left ha'a.numeric b).trans haa'
  · exact (union_encloses_right ha'a.numeric hb'b.numeric).trans hbb'
  · exact (union_encloses_left haa'.numeric b').trans ha'a
  · exact (union_encloses_right haa'.numeric hbb'.numeric).trans hb'b

end Box

namespace Entry

variable {α : Type} [Scalar α] [LawfulEqScalar α] {entries l r : List (Entry α)}

/-- The union of some boxes does not depend on their order. -/
theorem bounds_beq_of_perm (hnum : AllNumeric entries) (hp : l.Perm entries) :
    (bounds entries == bounds l) = true :=
  (Box.isHull_unionAll hnum.boxes).beq_of_perm
    (Box.isHull_unionAll (hnum.of_perm hp).boxes) (hp.symm.map _)

/-- The union of some boxes is that of the unions of two parts. -/
theorem bounds_beq_union (hnum : AllNumeric entries) (hp : (l ++ r).Perm entries) :
    (bounds entries == (bounds l).union (bounds r)) = true := by
  have hboth := hnum.of_perm hp
  have hl : AllNumeric l := fun e he => hboth e (List.mem_append_left r he)
  have hr : AllNumeric r := fun e he => hboth e (List.mem_append_right l he)
  have hparts := (Box.isHull_unionAll hl.boxes).union (Box.isHull_unionAll hr.boxes)
  rw [← List.map_append] at hparts
  exact (Box.isHull_unionAll hnum.boxes).beq_of_perm hparts (hp.symm.map _)

end Entry

namespace Box

variable {α : Type} [Scalar α] [LawfulEqScalar α] {a b c : Box α}

/-- Of boxes with numeric corners, empty ones included, the union is a join: it is associative,
commutative and idempotent with the canonical empty box as its neutral element, and it is the
least box that encloses the corners of both. To grow a box to a point is to form the union with
the box of the point, and equal boxes have equal unions. So the union of some boxes is the same
for every order and grouping, that of a left fold included, and the bounds of an index are the
same for both kinds and every order of the entries. -/
theorem union_is_join (ha : a.Numeric) (hb : b.Numeric) (hc : c.Numeric) :
    (((a.union b).union c == a.union (b.union c)) = true ∧
      (a.union b == b.union a) = true ∧ (a.union a == a) = true ∧
      (empty.union a == a) = true ∧ (a.union empty == a) = true) ∧
    ((a.union b).Encloses a ∧ (a.union b).Encloses b ∧
      ∀ v : Box α, v.Encloses a → v.Encloses b → v.Encloses (a.union b)) ∧
    (∀ p : Point α, (a.insert p == a.union (.ofPoint p)) = true) ∧
    (∀ a' b' : Box α, (a == a') = true → (b == b') = true →
      (a.union b == a'.union b') = true) ∧
    (∀ g h : Grouping α, (∀ box ∈ g.boxes, box.Numeric) → g.boxes.Perm h.boxes →
      (g.union == h.union) = true) ∧
    (∀ (boxes : List (Box α)) (g : Grouping α), (∀ box ∈ boxes, box.Numeric) →
      boxes.Perm g.boxes → (unionAll boxes == g.union) = true) ∧
    ∀ (entries others : List (Entry α)) (kind kind' : IndexKind), Entry.AllNumeric entries →
      entries.Perm others →
        ((Index.ofEntries entries kind).bounds == (Index.ofEntries others kind').bounds) = true := by
  have hperm : ∀ {l m : List (Box α)}, l.Perm m → (∀ box ∈ l, box.Numeric) →
      ∀ box ∈ m, box.Numeric := fun hp hl box hbox => hl box (hp.symm.subset hbox)
  refine ⟨⟨?_, ?_, ?_, ?_, ?_⟩, ⟨union_encloses_left ha b, union_encloses_right ha hb,
    fun v => Encloses.union⟩, fun p => ?_, fun a' b' => union_congr, fun g h hg hp => ?_,
    fun boxes g hboxes hp => ?_, fun entries others kind kind' hnum hp => ?_⟩
  · exact ((ha.isHull.union hb.isHull).union hc.isHull).beq_of_perm
      (ha.isHull.union (hb.isHull.union hc.isHull)) (.refl _)
  · exact (ha.isHull.union hb.isHull).beq_of_perm (hb.isHull.union ha.isHull) (.swap b a [])
  · exact (ha.isHull.union ha.isHull).beq_of_subset ha.isHull (by simp) (by simp)
  · exact (isHull_empty.union ha.isHull).beq_of_perm ha.isHull (.refl _)
  · exact (ha.isHull.union isHull_empty).beq_of_perm ha.isHull (.refl _)
  · have hinsert : a.insert p = a.union (.ofPoint p) := rfl
    have hgrown := (ha.union (.ofPoint p)).encloses_self
    rw [hinsert]
    exact beq_iff.mpr ⟨hgrown, hgrown⟩
  · exact (g.isHull hg).beq_of_perm (h.isHull (hperm hp hg)) hp
  · exact (isHull_unionAll hboxes).beq_of_perm (g.isHull (hperm hp hboxes)) hp
  · rw [Index.bounds_ofEntries, Index.bounds_ofEntries]
    exact Entry.bounds_beq_of_perm hnum hp.symm

/-- A box that is inverted along one axis, one without bounds, and a point with a minus zero; a
tree of unions in which the last one comes first, and two orders of three entries. -/
theorem union_is_join_invertedAndInfinite :
    let inverted : Box Binary64 := ⟨⟨.half, 0, 0⟩, ⟨0, .half, .half⟩⟩
    let wide : Box Binary64 := ⟨⟨.negInfinity, 0, 0⟩, ⟨.infinity, .infinity, 0⟩⟩
    let point : Box Binary64 := .ofPoint ⟨⟨Binary64.signBit⟩, .half, 0⟩
    let leftmost : Grouping Binary64 := .both (.both (.one inverted) (.one wide)) (.one point)
    let rightmost : Grouping Binary64 := .both (.one point) (.both (.one inverted) (.one wide))
    let entries : List (Entry Binary64) := [⟨3, inverted⟩, ⟨3, wide⟩]
    let last : Entry Binary64 := ⟨7, point⟩
    inverted.Numeric ∧ wide.Numeric ∧ point.Numeric ∧ inverted.isEmpty = true ∧
      (inverted.union point == point.union inverted) = true ∧
      leftmost.boxes.Perm rightmost.boxes ∧ (leftmost.union == rightmost.union) = true ∧
      ((Index.ofEntries (entries ++ [last]) .tree).bounds ==
        (Index.ofEntries (last :: entries) .scan).bounds) = true := by
  intro inverted wide point leftmost rightmost entries last
  have hinverted : inverted.Numeric := by decide
  have hwide : wide.Numeric := by decide
  have hpoint : point.Numeric := by decide
  have hnum : ∀ box ∈ leftmost.boxes, box.Numeric := by decide
  have hboxes : leftmost.boxes.Perm rightmost.boxes :=
    List.perm_append_singleton point [inverted, wide]
  have hentries : (entries ++ [last]).Perm (last :: entries) :=
    List.perm_append_singleton last entries
  obtain ⟨⟨-, hcomm, -⟩, -, -, -, hgroups, -, hbounds⟩ :=
    union_is_join hinverted hpoint hwide
  exact ⟨hinverted, hwide, hpoint, by decide, hcomm, hboxes, hgroups _ _ hnum hboxes,
    hbounds _ _ .tree .scan (by decide) hentries⟩

end Box

end SpatialSearch
