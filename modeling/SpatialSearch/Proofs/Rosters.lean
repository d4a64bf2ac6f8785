import Mathlib.Algebra.BigOperators.Fin
import Mathlib.Algebra.Order.BigOperators.Group.List
import Mathlib.Algebra.Order.Group.Nat
import SpatialSearch.Roster
import SpatialSearch.Proofs.LocalSearch

/-!
# What a roster says about the ranks

The roster of a group is made of the bounds and the sizes of the indexes of its ranks. A
rank is searchable exactly if it holds a box that is not empty, and the ranks found for a
query are all those on which it can have matches.
-/

namespace SpatialSearch

open LawfulScalar

/-- What a rank contributes to a partitioned index. -/
structure Share (α : Type) where
  entries : List (Entry α)
  kind : IndexKind

namespace Share

variable {α : Type} [Scalar α]

def index (s : Share α) : Index α := .ofEntries s.entries s.kind

def holdings (s : Share α) : Holdings α := .ofIndex s.index

def AllNumeric (s : Share α) : Prop := Entry.AllNumeric s.entries

instance (s : Share α) : Decidable s.AllNumeric := inferInstanceAs (Decidable (Entry.AllNumeric _))

@[simp] theorem bounds_holdings (s : Share α) : s.holdings.bounds = Entry.bounds s.entries := by
  rw [holdings, Holdings.ofIndex, index, Index.bounds_ofEntries]

@[simp] theorem nonEmptySize_holdings (s : Share α) :
    s.holdings.nonEmptySize = Entry.countNonEmpty s.entries := by
  rw [holdings, Holdings.ofIndex, index, Index.nonEmptySize_ofEntries]

variable [LawfulScalar α] {s : Share α}

theorem encloses (hs : s.AllNumeric) {e : Entry α} (he : e ∈ s.entries) :
    s.holdings.bounds.Encloses e.box := by
  rw [bounds_holdings]
  exact Entry.bounds_encloses hs he

theorem numeric_bounds (s : Share α) : s.holdings.bounds.Numeric := by
  rw [bounds_holdings]
  exact Box.numeric_unionAll _

/-- A box that is not empty makes its rank searchable. -/
theorem isSearchable_of_mem (hs : s.AllNumeric) {e : Entry α} (he : e ∈ s.entries)
    (hne : e.box.isEmpty = false) : s.holdings.isSearchable = true := by
  have hcount : 0 < s.holdings.nonEmptySize := by
    rw [nonEmptySize_holdings]
    exact List.countP_pos_iff.mpr ⟨e, he, by simp [hne]⟩
  rw [Holdings.isSearchable, (encloses hs he).isEmpty hne]
  simpa using hcount

/-- No candidate is closer than the bounds of its rank. -/
theorem distance_bounds_le (hs : s.AllNumeric) {target : Point α} {c : Neighbor α}
    (hc : c ∈ Entry.candidates target s.entries) :
    s.holdings.bounds.distance target ≤ c.distance := by
  obtain ⟨e, he, hne, rfl⟩ := Entry.mem_candidates.mp hc
  exact Box.distance_le_distance (encloses hs he) hne target

def AllRegular (s : Share α) : Prop := ∀ e ∈ s.entries, e.box.Regular

instance [DecidableEq α] (s : Share α) : Decidable s.AllRegular :=
  inferInstanceAs (Decidable (∀ e ∈ s.entries, _))

theorem AllRegular.allNumeric (hs : s.AllRegular) : s.AllNumeric :=
  fun e he => (hs e he).numeric

theorem finite_bounds (hs : s.AllRegular) (h : s.holdings.isSearchable = true) :
    s.holdings.bounds.Finite := by
  have hregular : s.holdings.bounds.Regular := by
    rw [bounds_holdings]
    refine Box.regular_unionAll fun b hb => ?_
    obtain ⟨e, he, rfl⟩ := List.mem_map.mp hb
    exact hs e he
  rw [Holdings.isSearchable, Bool.and_eq_true, Bool.not_eq_true'] at h
  exact hregular.finite h.2

/-- No candidate is farther away than the far corner of the bounds of its rank. -/
theorem distance_le_far (hs : s.AllNumeric) {target : Point α} (htarget : target.Numeric)
    (hreach : s.holdings.bounds.Reaches target) {c : Neighbor α}
    (hc : c ∈ Entry.candidates target s.entries) :
    c.distance ≤ s.holdings.bounds.farDistance target := by
  obtain ⟨e, he, hne, rfl⟩ := Entry.mem_candidates.mp hc
  exact Box.distance_le_farDistance (encloses hs he) hne htarget hreach

theorem isNaN_far (h : s.holdings.isSearchable = true) {target : Point α}
    (htarget : target.Numeric) (hreach : s.holdings.bounds.Reaches target) :
    Scalar.isNaN (s.holdings.bounds.farDistance target) = false := by
  have hne : s.holdings.bounds.isEmpty = false := by
    rw [Holdings.isSearchable, Bool.and_eq_true, Bool.not_eq_true'] at h
    exact h.2
  exact (isNaN_of_le (Box.distance_le_farDistance (numeric_bounds s).encloses_self hne htarget
    hreach)).2

end Share

namespace Roster

variable {α : Type} [Scalar α] {n : Nat}

/-- Sorting gives the only ascending list of the same numbers. -/
theorem mergeSort_eq {l s : List Nat} (hp : l.Perm s) (hs : s.Pairwise (· ≤ ·)) :
    l.mergeSort = s := by
  have hsorted : l.mergeSort.Pairwise fun a b => decide (a ≤ b) = true := List.pairwise_mergeSort
    (fun a b c => by simpa using Nat.le_trans) (fun a b => by simpa using Nat.le_total a b) l
  refine List.Perm.eq_of_pairwise (fun _ _ _ _ => Nat.le_antisymm) ?_ hs
    ((List.mergeSort_perm l _).trans hp)
  exact hsorted.imp fun h => of_decide_eq_true h

/-! ### Any holdings -/

section Holdings

variable {holdings : List (Holdings α)}

theorem mem_searchable {e : Entry α} : e ∈ searchable holdings ↔
    ∃ h, holdings[e.index]? = some h ∧ h.isSearchable = true ∧ e.box = h.bounds := by
  simp only [searchable, List.mem_map, List.mem_filter, Prod.exists]
  constructor
  · rintro ⟨h, rank, ⟨hmem, hsearch⟩, rfl⟩
    exact ⟨h, List.mem_zipIdx_iff_getElem?.mp hmem, hsearch, rfl⟩
  · rintro ⟨h, hget, hsearch, hbox⟩
    refine ⟨h, e.index, ⟨List.mem_zipIdx_iff_getElem?.mpr hget, hsearch⟩, ?_⟩
    cases e
    exact congrArg _ hbox.symm

/-- The searchable ranks are listed in ascending order. -/
theorem pairwise_searchable (holdings : List (Holdings α)) :
    (searchable holdings).Pairwise fun a b => a.index < b.index := by
  have hzip : holdings.zipIdx.Pairwise fun a b => a.2 < b.2 := by
    apply List.pairwise_map.mp
    rw [List.zipIdx_map_snd]
    exact List.pairwise_lt_range'
  exact List.pairwise_map.mpr (hzip.filter _)

theorem allNumeric_searchable (hnum : ∀ h ∈ holdings, h.bounds.Numeric) :
    Entry.AllNumeric (searchable holdings) := by
  intro e he
  obtain ⟨h, hget, -, hbox⟩ := mem_searchable.mp he
  rw [hbox]
  exact hnum h (List.mem_of_getElem? hget)

variable [LawfulScalar α]

/-- The walk over the tree and the sorting find the matching ranks in ascending order. -/
theorem ranksMatching_eq (hnum : ∀ h ∈ holdings, h.bounds.Numeric) {q : Query α}
    (hq : q.isSpatial = true) : (ofHoldings holdings).ranksMatching q =
      .ok (((searchable holdings).filter fun e => q.accepts e.box).map (·.index)) := by
  obtain ⟨hits, hmatch, hperm⟩ := Index.matching_perm (allNumeric_searchable hnum) .tree hq
  have hsorted : (((searchable holdings).filter fun e => q.accepts e.box).map (·.index)).Pairwise
      (· ≤ ·) := by
    apply List.pairwise_map.mpr
    exact ((pairwise_searchable holdings).filter _).imp Nat.le_of_lt
  change ((Index.ofEntries _ .tree).matchingIndices q).map _ = _
  rw [Index.matchingIndices, hmatch]
  exact congrArg Except.ok (mergeSort_eq (hperm.map _) hsorted)

omit [LawfulScalar α] in
/-- No searchable rank is left out of the candidates. -/
theorem candidates_searchable (holdings : List (Holdings α)) (target : Point α) :
    Entry.candidates target (searchable holdings) =
      (searchable holdings).map fun e => ⟨e.box.distance target, e.index⟩ := by
  rw [Entry.candidates]
  congr 1
  refine List.filter_eq_self.mpr fun e he => ?_
  obtain ⟨h, -, hsearch, hbox⟩ := mem_searchable.mp he
  rw [Holdings.isSearchable, Bool.and_eq_true] at hsearch
  rw [hbox]
  exact hsearch.2

/-- The search for as many neighbors as there are searchable ranks puts all of them in order. -/
theorem ranksNearestFirst_eq (hnum : ∀ h ∈ holdings, h.bounds.Numeric) (target : Point α) :
    (ofHoldings holdings).ranksNearestFirst target =
      .ok ((Ranking.sort Neighbor.order ((searchable holdings).map fun e =>
        ⟨e.box.distance target, e.index⟩)).map (·.index)) := by
  change (if (searchable holdings).length = 0 then _ else
    ((Index.ofEntries _ .tree).nearest target (searchable holdings).length).map _) = _
  by_cases hzero : (searchable holdings).length = 0
  · rw [if_pos hzero, List.length_eq_zero_iff.mp hzero]
    simp [Ranking.sort]
  · rw [if_neg hzero, Index.nearest_eq (allNumeric_searchable hnum) .tree target
      (Nat.pos_of_ne_zero hzero), candidates_searchable, Ranking.firsts, List.take_of_length_le]
    · rfl
    · rw [(Ranking.sort_perm _).length_eq, List.length_map]

end Holdings

/-! ### The ranks of a group -/

def joint (shares : Fin n → Share α) : Roster α :=
  .ofHoldings (List.ofFn fun b => (shares b).holdings)

def worth (shares : Fin n → Share α) : List (Fin n) :=
  (List.finRange n).filter fun b => (shares b).holdings.isSearchable

variable (shares : Fin n → Share α)

theorem mem_worth {b : Fin n} : b ∈ worth shares ↔ (shares b).holdings.isSearchable = true := by
  simp [worth]

theorem nodup_worth : (worth shares).Nodup := (List.nodup_finRange n).filter _

theorem searchable_joint :
    searchable (List.ofFn fun b => (shares b).holdings) =
      (worth shares).map fun b => ⟨b.val, (shares b).holdings.bounds⟩ := by
  have hzip : (List.ofFn fun b => (shares b).holdings).zipIdx =
      (List.finRange n).map fun b => ((shares b).holdings, b.val) :=
    List.ext_getElem (by simp) fun m _ _ => by simp
  rw [searchable, hzip, List.filter_map, List.map_map]
  rfl

omit [Scalar α] in
theorem add_of_lt_room {seen count : Nat} (hseen : seen < Count.room)
    (hcount : count < UInt64.size / 2) : Count.add seen count = .ok (seen + count) := by
  rw [Count.room] at hseen
  rw [UInt64.size] at hcount
  refine if_pos ?_
  rw [UInt64.size]
  omega

variable [LawfulScalar α]

omit [Scalar α] [LawfulScalar α] in
/-- The search for a distance stops at the first one or goes on with what was counted there. -/
theorem cases_of_firstReaching {k seen : Nat} {p : α × Nat} {rest : List (α × Nat)}
    {found : Option α} (h : firstReaching k seen (p :: rest) = .ok found) :
    (k ≤ seen + p.2 ∧ found = some p.1) ∨
      (seen + p.2 < k ∧ firstReaching k (seen + p.2) rest = .ok found) := by
  simp only [firstReaching, Count.add] at h
  by_cases hfits : seen + p.2 < UInt64.size
  · rw [if_pos hfits] at h
    by_cases hk : k ≤ seen + p.2
    · exact Or.inl ⟨hk, (Except.ok.inj ((if_pos hk).symm.trans h)).symm⟩
    · exact Or.inr ⟨Nat.lt_of_not_le hk, (if_neg hk).symm.trans h⟩
  · rw [if_neg hfits] at h
    cases h

/-- The first distance at which the running count reaches `k` is one within which the counts
add up to `k`. -/
theorem count_of_firstReaching {k seen : Nat} {l : List (α × Nat)} {r : α}
    (hnum : ∀ p ∈ l, Scalar.isNaN p.1 = false) (hsorted : l.Pairwise fun p q => p.1 ≤ q.1)
    (h : firstReaching k seen l = .ok (some r)) :
    (∃ p ∈ l, p.1 = r) ∧ k ≤ seen + ((l.filter (·.1 ≤ r)).map (·.2)).sum := by
  induction l generalizing seen with
  | nil => nomatch h
  | cons p rest ih =>
    obtain ⟨hle, hsorted⟩ := List.pairwise_cons.mp hsorted
    rcases cases_of_firstReaching h with ⟨hk, hr⟩ | ⟨-, hrest⟩
    · obtain rfl := Option.some.inj hr
      have hself := Scalar.le_self (hnum p List.mem_cons_self)
      rw [List.filter_cons_of_pos (by simpa using hself), List.map_cons, List.sum_cons]
      exact ⟨⟨p, List.mem_cons_self, rfl⟩, by omega⟩
    · obtain ⟨⟨q, hq, rfl⟩, hcount⟩ :=
        ih (fun p hp => hnum p (List.mem_cons_of_mem _ hp)) hsorted hrest
      rw [List.filter_cons_of_pos (by simpa using hle q hq), List.map_cons, List.sum_cons]
      exact ⟨⟨q, List.mem_cons_of_mem _ hq, rfl⟩, by omega⟩

omit [Scalar α] [LawfulScalar α] in
/-- Below `k` the running count is the sum of the counts cut off at `k`, so small sums of these
are enough. -/
theorem firstReaching_of_room (k seen : Nat) {l : List (α × Nat)}
    (hcount : ∀ p ∈ l, p.2 < UInt64.size / 2)
    (hsum : seen + (l.map fun p => min k p.2).sum < Count.room) :
    ∃ found, firstReaching k seen l = .ok found := by
  induction l generalizing seen with
  | nil => exact ⟨none, rfl⟩
  | cons p rest ih =>
    obtain ⟨hp, hcount⟩ := List.forall_mem_cons.mp hcount
    rw [List.map_cons, List.sum_cons] at hsum
    have hadd : Count.add seen p.2 = .ok (seen + p.2) := add_of_lt_room (by omega) hp
    simp only [firstReaching, hadd]
    by_cases hk : k ≤ seen + p.2
    · exact ⟨some p.1, if_pos hk⟩
    · obtain ⟨found, hfound⟩ := ih (seen + p.2) hcount (by omega)
      exact ⟨found, (if_neg hk).trans hfound⟩

omit [Scalar α] [LawfulScalar α] in
/-- Counts that add up to no more than a count can be are added up. -/
theorem firstReaching_succeeds (k seen : Nat) {l : List (α × Nat)}
    (h : seen + (l.map (·.2)).sum < UInt64.size) : ∃ found, firstReaching k seen l = .ok found := by
  induction l generalizing seen with
  | nil => exact ⟨none, rfl⟩
  | cons p rest ih =>
    rw [List.map_cons, List.sum_cons] at h
    have hadd : Count.add seen p.2 = .ok (seen + p.2) := if_pos (by omega)
    simp only [firstReaching, hadd]
    split
    · exact ⟨_, rfl⟩
    · exact ih (seen + p.2) (by omega)

omit shares in
/-- Distances that are numbers are sorted as numbers. -/
theorem pairwise_byDistance {l : List (α × Nat)} (hnum : ∀ p ∈ l, Scalar.isNaN p.1 = false) :
    (l.mergeSort fun p q => Scalar.totalOrder p.1 q.1 != .gt).Pairwise fun p q => p.1 ≤ q.1 := by
  have := Ranking.transCmp_on (Scalar.totalOrder (α := α)) (Prod.fst (β := Nat))
  have hperm : (l.mergeSort fun p q => Scalar.totalOrder p.1 q.1 != .gt).Perm l :=
    List.mergeSort_perm _ _
  refine (Ranking.pairwise_sort (fun p q => Scalar.totalOrder p.1 q.1) l).imp_of_mem ?_
  intro p q hp hq hle
  exact Scalar.le_of_isLE (hnum p (hperm.subset hp)) (hnum q (hperm.subset hq)) hle

theorem numeric_holdings_joint :
    ∀ h ∈ List.ofFn fun b => (shares b).holdings, h.bounds.Numeric := by
  intro h hh
  obtain ⟨b, rfl⟩ := List.mem_ofFn.mp hh
  exact Share.numeric_bounds (shares b)

/-- The ranks found for a spatial query, in ascending order. -/
theorem ranksMatching_joint {q : Query α} (hq : q.isSpatial = true) :
    (joint shares).ranksMatching q =
      .ok (((worth shares).filter fun b => q.accepts (shares b).holdings.bounds).map Fin.val) := by
  rw [joint, ranksMatching_eq (numeric_holdings_joint shares) hq, searchable_joint,
    List.filter_map, List.map_map]
  rfl

/-- All ranks that are worth searching come in some order. -/
theorem ranksNearestFirst_joint (target : Point α) : ∃ ranks : List (Fin n),
    (joint shares).ranksNearestFirst target = .ok (ranks.map Fin.val) ∧
      ranks.Perm (worth shares) := by
  let place : Fin n → Neighbor α := fun b =>
    ⟨(shares b).holdings.bounds.distance target, b.val⟩
  refine ⟨Ranking.sort (fun a b => (place a).order (place b)) (worth shares), ?_,
    Ranking.sort_perm _⟩
  rw [joint, ranksNearestFirst_eq (numeric_holdings_joint shares), searchable_joint,
    List.map_map]
  change Except.ok (List.map _ (Ranking.sort Neighbor.order ((worth shares).map place))) = _
  rw [← Ranking.map_sort (f := place) (fun _ _ => rfl), List.map_map]
  rfl

omit [LawfulScalar α] in
theorem farCorners_joint (target : Point α) :
    (joint shares).farCorners target = (worth shares).map fun b =>
      ((shares b).holdings.bounds.farDistance target,
        Entry.countNonEmpty (shares b).entries) := by
  have hfilter : (List.ofFn fun b => (shares b).holdings).filter (·.isSearchable) =
      (worth shares).map fun b => (shares b).holdings := by
    rw [List.ofFn_eq_map, List.filter_map]
    rfl
  change ((List.ofFn fun b => (shares b).holdings).filter _).map _ = _
  rw [hfilter, List.map_map]
  refine List.map_congr_left fun b _ => ?_
  simp

omit [LawfulScalar α] in
/-- Whatever the boxes, there is a covering radius, or there is none because the ranks hold too
few. -/
theorem coveringRadius_succeeds (target : Point α) (k : Nat)
    (h : ∑ b, (shares b).entries.length < UInt64.size) :
    ∃ found, (joint shares).coveringRadius target k = .ok found := by
  rw [coveringRadius, farCorners_joint]
  refine firstReaching_succeeds k 0 ?_
  rw [((List.mergeSort_perm _ _).map _).sum_nat, List.map_map, Nat.zero_add]
  refine Nat.lt_of_le_of_lt ?_ h
  rw [Fin.sum_univ_def]
  refine (List.filter_sublist.map _).sum_le_sum (fun _ _ => Nat.zero_le _) |>.trans ?_
  exact List.sum_le_sum fun b _ => List.countP_le_length

/-- Within the covering radius of a point lie the far corners of ranks that together hold at
least `k` boxes that are not empty. -/
theorem coveringRadius_joint {target : Point α}
    (htarget : target.Numeric)
    (hreach : ∀ b ∈ worth shares, (shares b).holdings.bounds.Reaches target) (k : Nat)
    (hlocal : ∀ b, (shares b).entries.length < UInt64.size / 2)
    (hroom : ∑ b, min k (Entry.countNonEmpty (shares b).entries) < Count.room) :
    ∃ found, (joint shares).coveringRadius target k = .ok found ∧ ∀ r, found = some r →
      k ≤ (((worth shares).filter fun b =>
        (shares b).holdings.bounds.farDistance target ≤ r).map fun b =>
          Entry.countNonEmpty (shares b).entries).sum := by
  let corner : Fin n → α × Nat := fun b =>
    ((shares b).holdings.bounds.farDistance target, Entry.countNonEmpty (shares b).entries)
  let sorted : List (α × Nat) := ((worth shares).map corner).mergeSort fun p q =>
    Scalar.totalOrder p.1 q.1 != .gt
  have hperm : sorted.Perm ((worth shares).map corner) := List.mergeSort_perm _ _
  have hnum : ∀ p ∈ (worth shares).map corner, Scalar.isNaN p.1 = false := by
    intro p hp
    obtain ⟨b, hb, rfl⟩ := List.mem_map.mp hp
    exact Share.isNaN_far ((mem_worth shares).mp hb) htarget (hreach b hb)
  have hsorted : sorted.Pairwise fun p q => p.1 ≤ q.1 := pairwise_byDistance hnum
  have hcount : ∀ p ∈ sorted, p.2 < UInt64.size / 2 := by
    intro p hp
    obtain ⟨b, -, rfl⟩ := List.mem_map.mp (hperm.mem_iff.mp hp)
    exact Nat.lt_of_le_of_lt List.countP_le_length (hlocal b)
  have hsum : 0 + (sorted.map fun p => min k p.2).sum < Count.room := by
    rw [(hperm.map _).sum_nat, List.map_map, Nat.zero_add]
    refine Nat.lt_of_le_of_lt ?_ hroom
    rw [Fin.sum_univ_def]
    exact (List.filter_sublist.map _).sum_le_sum fun _ _ => Nat.zero_le _
  obtain ⟨found, hfound⟩ := firstReaching_of_room k 0 hcount hsum
  refine ⟨found, ?_, fun r hr => ?_⟩
  · rw [coveringRadius, farCorners_joint]
    exact hfound
  · subst hr
    have hcount := (count_of_firstReaching (fun p hp => hnum p (hperm.subset hp)) hsorted
      hfound).2
    rw [((hperm.filter _).map _).sum_nat, List.filter_map, List.map_map, Nat.zero_add] at hcount
    exact hcount

end Roster

end SpatialSearch
