import SpatialSearch.Proofs.SpatialQueries

/-!
# Empty boxes

A ball touches no empty box and no empty box is a neighbor of a point, since both distances
look first whether a box is empty. Overlap compares corners only. A box that is inverted along
some axis is then met by every box that spans the gap between its corners, and the canonical
empty box by those that reach from one infinity to the other on every axis. A group reports
such a box from ranks that hold another box which is not empty, and from no other rank.
-/

namespace SpatialSearch

open LawfulScalar

namespace Box

variable {α : Type} [Scalar α]

theorem exists_lt_of_isEmpty {e : Box α} (h : e.isEmpty = true) :
    ∃ d, e.hi.coord d < e.lo.coord d := by
  obtain ⟨d, -, hd⟩ := List.any_eq_true.mp h
  exact ⟨d, of_decide_eq_true hd⟩

variable [LawfulScalar α] {c : Box α}

/-- What meets the canonical empty box is the whole space. -/
theorem meets_empty_iff : c.meets empty = true ↔
    ∀ d, c.lo.coord d = Scalar.negInfinity ∧ c.hi.coord d = Scalar.infinity := by
  simp only [meets_iff, empty, Point.coord_ofCoords]
  refine forall_congr' fun d => ⟨fun h => ?_, fun h => ?_⟩
  · exact ⟨eq_negInfinity h.1, eq_infinity h.2⟩
  · rw [h.1, h.2]
    exact ⟨Scalar.le_self isNaN_negInfinity, Scalar.le_self isNaN_infinity⟩

def space : Box α :=
  ⟨.ofCoords fun _ => Scalar.negInfinity, .ofCoords fun _ => Scalar.infinity⟩

theorem numeric_space : (space : Box α).Numeric := by
  constructor
  · intro d
    simp only [space, Point.coord_ofCoords, isNaN_negInfinity]
  · intro d
    simp only [space, Point.coord_ofCoords, isNaN_infinity]

theorem space_meets_empty : (space : Box α).meets empty = true := by
  refine meets_empty_iff.mpr fun d => ?_
  simp only [space, Point.coord_ofCoords, and_self]

/-- Not every box is disjoint from the empty ones: the canonical empty box meets the box of all
points. -/
theorem exists_empty_meets : ¬ ∀ e b : Box Binary64, e.Numeric → b.Numeric → e.isEmpty = true →
    e.meets b = false ∧ b.meets e = false := by
  intro hnever
  obtain ⟨-, hspace⟩ := hnever empty space numeric_empty numeric_space isEmpty_empty
  exact Bool.false_ne_true (hspace.symm.trans space_meets_empty)

end Box

namespace Query

variable {α : Type} [Scalar α]

/-- A query that accepts an empty box is for the overlap with a box that spans its gaps. -/
theorem accepts_empty {q : Query α} {e : Box α} (he : e.isEmpty = true)
    (h : q.accepts e = true) :
    ∃ c, q = overlapping c ∧ ∃ d, c.lo.coord d ≤ e.hi.coord d ∧
      e.hi.coord d < e.lo.coord d ∧ e.lo.coord d ≤ c.hi.coord d := by
  cases q with
  | overlapping c =>
    obtain ⟨d, hd⟩ := Box.exists_lt_of_isEmpty he
    obtain ⟨hlo, hhi⟩ := (accepts_overlapping_iff c e).mp h d
    exact ⟨c, rfl, d, hlo, hd, hhi⟩
  | touching ball =>
    have hne := ((accepts_touching_iff ball e).mp h).1
    exact absurd (he.symm.trans hne) (by decide)
  | nearest n => exact absurd h Bool.false_ne_true

end Query

namespace PartitionedIndex

variable {α : Type} [Scalar α] [LawfulScalar α] {n : Nat} {shares : Fin n → Share α}
  {options : SearchOptions}

omit [LawfulScalar α] in
theorem spatiallySearched_empty {queries : List (Query α)} (h : queries = []) :
    SpatiallySearched shares queries (.empty 0 false) := by
  subst h
  exact ⟨rfl, fun q hq => absurd hq (Nat.not_lt_zero q)⟩

/-- What a group reports for spatial queries, with or without empty boxes on its ranks: all
matches on the ranks that hold a box which is not empty. Of the empty boxes those match that a
query box spans. -/
theorem spatial_queries_search (hshares : ∀ b, (shares b).AllNumeric)
    {queries : Fin n → List (Query α)} {kind : QueryKind} (hkind : kind ≠ .nearest)
    (hvalid : ∀ i, ∀ q ∈ queries i, q.kind = kind ∧ q.check = .ok ())
    (hfits : Fits shares queries) :
    Group.AlwaysEnds (Answered fun i => SpatiallySearched shares (queries i))
        (session shares options queries) ∧
      ∀ i, ∀ q ∈ queries i, ∀ b, ∀ e ∈ (shares b).entries, e.box.isEmpty = true →
        q.accepts e.box = true → ∃ c, q = .overlapping c ∧ ∃ d,
          c.lo.coord d ≤ e.box.hi.coord d ∧ e.box.hi.coord d < e.box.lo.coord d ∧
            e.box.lo.coord d ≤ c.hi.coord d := by
  refine ⟨?_, fun i q _ b e _ he haccepts => Query.accepts_empty he haccepts⟩
  have hspatial : ∀ i, ∀ q ∈ queries i, q.isSpatial = true := by
    intro i q hq
    rw [Query.isSpatial, (hvalid i q hq).1]
    exact bne_iff_ne.mpr hkind
  have hbatch : ∀ i, ∀ q ∈ queries i, Batch.Valid options kind q := fun i q hq =>
    ⟨(hvalid i q hq).1, (hvalid i q hq).2, Batch.checkLimit_of_spatial (hspatial i q hq)⟩
  obtain ⟨tables, hanswer, hsearched⟩ := together_searchSpatial options hshares hspatial hfits
  obtain ⟨tables, htables, hsearched⟩ := together_query shares
    (P := fun i => SpatiallySearched shares (queries i)) hbatch
    (fun hnil i => spatiallySearched_empty (hnil i))
    ⟨tables, by cases kind <;> first | exact hanswer | exact absurd rfl hkind, hsearched⟩
  exact alwaysEnds_session htables hsearched

/-- The same inverted box on two ranks, of which one holds a point as well. -/
def invertedOnBoth : Fin 2 → Share Binary64 := fun i =>
  let inverted : Box Binary64 := ⟨⟨.half, 0, 0⟩, .origin⟩
  ⟨if i.val = 0 then Entry.number [inverted, .ofPoint .origin] else Entry.number [inverted], .scan⟩

def halfCube (_ : Fin 2) : List (Query Binary64) :=
  [.overlapping ⟨.origin, ⟨.half, .half, .half⟩⟩]

theorem spatial_queries_search_halfCube :
    Group.AlwaysEnds (Answered fun i => SpatiallySearched invertedOnBoth (halfCube i))
        (session invertedOnBoth {} halfCube) ∧
      ∀ i, ∀ q ∈ halfCube i, ∀ b, ∀ e ∈ (invertedOnBoth b).entries, e.box.isEmpty = true →
        q.accepts e.box = true → ∃ c, q = .overlapping c ∧ ∃ d,
          c.lo.coord d ≤ e.box.hi.coord d ∧ e.box.hi.coord d < e.box.lo.coord d ∧
            e.box.lo.coord d ≤ c.hi.coord d := by
  have hshares : ∀ b, (invertedOnBoth b).AllNumeric := by decide
  have hkind : QueryKind.overlapping ≠ .nearest := by decide
  have hvalid : ∀ i, ∀ q ∈ halfCube i, q.kind = .overlapping ∧ q.check = .ok () := by decide
  have hfits : Fits invertedOnBoth halfCube := ⟨by decide, by decide⟩
  exact spatial_queries_search hshares hkind hvalid hfits

/-- The box is reported from the rank that holds the point as well, and not from the other. -/
example : searchedMatches invertedOnBoth (.overlapping ⟨.origin, ⟨.half, .half, .half⟩⟩) =
    [(0, 0), (0, 1)] := by decide

end PartitionedIndex

end SpatialSearch
