import SpatialSearch.Proofs.Rosters

/-!
# Routing by a roster

A roster finds the ranks for a query by a walk over its tree or by a bounded search in it, and
some of them are sorted afterwards. What it finds is what a look at the holdings of one rank after
the other finds: the searchable ranks whose bounds pass the test of the query, in ascending order,
or all searchable ranks by distance and number. Nothing is asked of the counts in the holdings, and
the bounds may be empty or infinite.
-/

namespace SpatialSearch

namespace Roster

variable {α : Type} [Scalar α]

/-- A rank holds a box that is not empty within bounds that are not empty and pass a test. -/
def Offers (holdings : List (Holdings α)) (test : Box α → Prop) (rank : Nat) : Prop :=
  ∃ h, holdings[rank]? = some h ∧ 0 < h.nonEmptySize ∧ h.bounds.isEmpty = false ∧ test h.bounds

def Lists (ranks : List Nat) (P : Nat → Prop) : Prop :=
  ranks.Pairwise (· < ·) ∧ ∀ rank, rank ∈ ranks ↔ P rank

/-- The bounds of a rank are nearer than those of another, or as near and its number is less. -/
def Nearer (r : Roster α) (target : Point α) (a b : Nat) : Prop :=
  (r.boundsOf a).distance target ≤ (r.boundsOf b).distance target ∧
    (Scalar.totalOrder ((r.boundsOf a).distance target) ((r.boundsOf b).distance target) = .lt ∨
      (r.boundsOf a).distance target = (r.boundsOf b).distance target ∧ a < b)

/-- What a roster finds is what the holdings say. -/
structure RoutesBy (r : Roster α) (holdings : List (Holdings α)) : Prop where
  spatial : ∀ q : Query α, q.isSpatial = true →
    ∃ ranks, r.ranksFor q = .ok ranks ∧ Lists ranks (Offers holdings fun b => q.accepts b = true)
  nearest : ∀ n : NearestQuery α, ∃ ranks, r.ranksFor (.nearest n) = .ok ranks ∧
    Lists ranks (Offers holdings fun _ => True)
  near : ∀ (target : Point α) (radius : α), ∃ ranks, r.ranksNear target radius = .ok ranks ∧
    Lists ranks (Offers holdings fun b => b.distance target ≤ radius)
  nearestFirst : ∀ target : Point α, ∃ ranks, r.ranksNearestFirst target = .ok ranks ∧
    (∀ rank, rank ∈ ranks ↔ Offers holdings (fun _ => True) rank) ∧ ranks.Nodup ∧
      ranks.Pairwise (r.Nearer target)

variable {holdings : List (Holdings α)}

theorem isSearchable_iff {h : Holdings α} :
    h.isSearchable = true ↔ 0 < h.nonEmptySize ∧ h.bounds.isEmpty = false := by
  simp [Holdings.isSearchable]

/-- A test of bounds picks out of the searchable ranks those that offer something. -/
theorem lists_searchable (p : Box α → Bool) {test : Box α → Prop}
    (htest : ∀ b : Box α, b.isEmpty = false → (p b = true ↔ test b)) :
    Lists (((searchable holdings).filter fun e => p e.box).map (·.index))
      (Offers holdings test) := by
  constructor
  · apply List.pairwise_map.mpr
    exact (pairwise_searchable holdings).filter _
  · intro rank
    simp only [List.mem_map, List.mem_filter, mem_searchable]
    constructor
    · rintro ⟨e, ⟨⟨h, hget, hsearch, hbox⟩, hp⟩, rfl⟩
      obtain ⟨hcount, hne⟩ := isSearchable_iff.mp hsearch
      exact ⟨h, hget, hcount, hne, (htest h.bounds hne).mp (hbox ▸ hp)⟩
    · rintro ⟨h, hget, hcount, hne, hpass⟩
      have hsearch := isSearchable_iff.mpr ⟨hcount, hne⟩
      exact ⟨⟨rank, h.bounds⟩, ⟨⟨h, hget, hsearch, rfl⟩, (htest h.bounds hne).mpr hpass⟩, rfl⟩

theorem lists_all : Lists ((searchable holdings).map (·.index))
    (Offers holdings fun _ => True) := by
  have hlists : Lists _ (Offers holdings fun _ => True) :=
    lists_searchable (fun _ => true) fun b _ => by simp
  rwa [List.filter_eq_self.mpr fun _ _ => rfl] at hlists

theorem boundsOf_of_mem {e : Entry α} (he : e ∈ searchable holdings) :
    (ofHoldings holdings).boundsOf e.index = e.box := by
  obtain ⟨h, hget, -, hbox⟩ := mem_searchable.mp he
  have hfound : (ofHoldings holdings).holdings? e.index = some h := hget
  rw [boundsOf, hfound, hbox]
  rfl

variable [LawfulScalar α]

/-- Of two entries with different numbers the one that is sorted first is the nearer one. -/
theorem nearer_of_isLE {target : Point α} {e f : Entry α} (he : e ∈ searchable holdings)
    (hf : f ∈ searchable holdings) (hne : e.index ≠ f.index)
    (h : (Neighbor.order ⟨e.box.distance target, e.index⟩
      ⟨f.box.distance target, f.index⟩).isLE) :
    (ofHoldings holdings).Nearer target e.index f.index := by
  rw [Nearer, boundsOf_of_mem he, boundsOf_of_mem hf]
  have hnear := Box.isNaN_distance e.box target
  have hfar := Box.isNaN_distance f.box target
  simp only [Neighbor.order] at h
  cases hd : Scalar.totalOrder (e.box.distance target) (f.box.distance target) with
  | gt =>
    rw [hd] at h
    cases h
  | lt =>
    refine ⟨Scalar.le_of_isLE hnear hfar ?_, Or.inl rfl⟩
    rw [hd]
    rfl
  | eq =>
    rw [hd] at h
    have hsame : e.box.distance target = f.box.distance target :=
      Std.LawfulEqCmp.eq_of_compare hd
    have hle : e.index ≤ f.index := Nat.isLE_compare.mp h
    refine ⟨?_, Or.inr ⟨hsame, by omega⟩⟩
    rw [hsame]
    exact Scalar.le_self hfar

/-- The ranks by distance are the searchable ones, each in its place. -/
theorem exists_nearestFirst (hnum : ∀ h ∈ holdings, h.bounds.Numeric) (target : Point α) :
    ∃ ranks, (ofHoldings holdings).ranksNearestFirst target = .ok ranks ∧
      (∀ rank, rank ∈ ranks ↔ Offers holdings (fun _ => True) rank) ∧ ranks.Nodup ∧
        ranks.Pairwise ((ofHoldings holdings).Nearer target) := by
  let place : Entry α → Neighbor α := fun e => ⟨e.box.distance target, e.index⟩
  let sorted : List (Entry α) :=
    Ranking.sort (fun e f => (place e).order (place f)) (searchable holdings)
  have hperm : sorted.Perm (searchable holdings) := Ranking.sort_perm _
  have hindices := hperm.map (·.index)
  have hnodup : (sorted.map (·.index)).Nodup :=
    hindices.nodup_iff.mpr (lists_all.1.imp Nat.ne_of_lt)
  refine ⟨sorted.map (·.index), ?_, ?_, hnodup, ?_⟩
  · rw [ranksNearestFirst_eq hnum]
    change Except.ok (List.map _ (Ranking.sort Neighbor.order ((searchable holdings).map place))) = _
    rw [← Ranking.map_sort (f := place) (fun _ _ => rfl), List.map_map]
    rfl
  · intro rank
    rw [hindices.mem_iff]
    exact lists_all.2 rank
  · have hsorted : sorted.Pairwise fun e f => ((place e).order (place f)).isLE :=
      have := Ranking.transCmp_on (Neighbor.order (α := α)) place
      Ranking.pairwise_sort _ _
    apply List.pairwise_map.mpr
    refine (hsorted.and (List.pairwise_map.mp hnodup)).imp_of_mem ?_
    rintro e f he hf ⟨hle, hne⟩
    exact nearer_of_isLE (hperm.subset he) (hperm.subset hf) hne hle

/-- A roster finds what the holdings say, and the holdings of an index tell of every box in it that
is not empty. -/
theorem routes_by_holdings (hnum : ∀ h ∈ holdings, h.bounds.Numeric) :
    (ofHoldings holdings).RoutesBy holdings ∧
      ∀ rank entries kind, holdings[rank]? = some (.ofIndex (.ofEntries entries kind)) →
        Entry.AllNumeric entries → (∃ e ∈ entries, e.box.isEmpty = false) →
          Offers holdings (fun _ => True) rank := by
  constructor
  · constructor
    · intro q hq
      refine ⟨_, ?_, lists_searchable q.accepts fun b _ => Iff.rfl⟩
      cases q with
      | nearest n => nomatch hq
      | _ => exact ranksMatching_eq hnum hq
    · intro n
      exact ⟨_, rfl, lists_all⟩
    · intro target radius
      let q : Query α := .touching ⟨target, radius⟩
      have hlists : Lists (((searchable holdings).filter fun e => q.accepts e.box).map (·.index))
          (Offers holdings fun b => b.distance target ≤ radius) := by
        refine lists_searchable q.accepts fun b hb => ?_
        rw [Query.accepts_touching_iff]
        simp [hb]
      exact ⟨_, ranksMatching_eq hnum rfl, hlists⟩
    · intro target
      exact exists_nearestFirst hnum target
  · rintro rank entries kind hget hentries ⟨e, he, hne⟩
    have hsearch := Share.isSearchable_of_mem (s := ⟨entries, kind⟩) hentries he hne
    obtain ⟨hcount, hbounds⟩ := isSearchable_iff.mp hsearch
    exact ⟨_, hget, hcount, hbounds, trivial⟩

/-- A rank with a point, one with nothing but an empty box, one whose bounds are all of space, and
one that counts a box within empty bounds. -/
def unevenHoldings : List (Holdings Binary64) :=
  [.ofIndex (.ofEntries (Entry.number [.ofPoint .origin]) .tree),
    .ofIndex (.ofEntries (Entry.number [.empty]) .tree),
    ⟨⟨⟨.negInfinity, .negInfinity, .negInfinity⟩, ⟨.infinity, .infinity, .infinity⟩⟩, 5, 2⟩,
    ⟨.empty, 1, 1⟩]

theorem routes_by_holdings_uneven : (∀ h ∈ unevenHoldings, h.bounds.Numeric) ∧
    (ofHoldings unevenHoldings).RoutesBy unevenHoldings ∧
      ∀ rank entries kind, unevenHoldings[rank]? = some (.ofIndex (.ofEntries entries kind)) →
        Entry.AllNumeric entries → (∃ e ∈ entries, e.box.isEmpty = false) →
          Offers unevenHoldings (fun _ => True) rank := by
  have hnum : ∀ h ∈ unevenHoldings, h.bounds.Numeric := by decide +kernel
  exact ⟨hnum, routes_by_holdings hnum⟩

end Roster

end SpatialSearch
