import SpatialSearch.Proofs.Rosters

/-!
# The covering radius

The covering radius of a point is the least distance within which the far corners of ranks lie
that together count `k` boxes. It is found by adding up counts in the order of the far corners
until `k` is reached. That several ranks may share a far corner, that it may be infinite and that
ranks may count boxes within empty bounds makes no difference to it.
-/

namespace SpatialSearch

namespace Roster

variable {α : Type} [Scalar α]

def searchableBoxes (holdings : List (Holdings α)) : Nat :=
  ((holdings.filter (·.isSearchable)).map (·.nonEmptySize)).sum

/-- The number of boxes that are not empty on the searchable ranks whose far corner is within a
distance. -/
def boxesWithin (holdings : List (Holdings α)) (target : Point α) (radius : α) : Nat :=
  ((holdings.filter fun h => h.isSearchable && decide (h.bounds.farDistance target ≤ radius)).map
    (·.nonEmptySize)).sum

/-- The count of what lies within a distance, in a list of distances with counts. -/
def countWithin (l : List (α × Nat)) (radius : α) : Nat :=
  ((l.filter (·.1 ≤ radius)).map (·.2)).sum

theorem countWithin_cons (p : α × Nat) (rest : List (α × Nat)) (radius : α) :
    countWithin (p :: rest) radius =
      (if p.1 ≤ radius then p.2 else 0) + countWithin rest radius := by
  simp only [countWithin, List.filter_cons, decide_eq_true_eq]
  split
  · rfl
  · omega

theorem exists_le_of_countWithin {l : List (α × Nat)} {radius : α} (h : 0 < countWithin l radius) :
    ∃ p ∈ l, p.1 ≤ radius := by
  by_contra hnone
  have hnil : l.filter (·.1 ≤ radius) = [] := by
    apply List.filter_eq_nil_iff.mpr
    intro p hp hle
    exact hnone ⟨p, hp, of_decide_eq_true hle⟩
  rw [countWithin, hnil] at h
  exact Nat.lt_irrefl 0 h

theorem countWithin_perm {l m : List (α × Nat)} (h : l.Perm m) (radius : α) :
    countWithin l radius = countWithin m radius :=
  ((h.filter _).map _).sum_nat

theorem countWithin_farCorners (holdings : List (Holdings α)) (target : Point α) (radius : α) :
    countWithin ((ofHoldings holdings).farCorners target) radius =
      boxesWithin holdings target radius := by
  rw [countWithin, farCorners, List.filter_map, List.map_map, List.filter_filter, boxesWithin]
  simp only [Function.comp_def, Bool.and_comm]
  rfl

theorem sum_farCorners (holdings : List (Holdings α)) (target : Point α) :
    (((ofHoldings holdings).farCorners target).map (·.2)).sum = searchableBoxes holdings := by
  rw [farCorners, List.map_map]
  rfl

omit [Scalar α] in
/-- No distance is found exactly if all counts together are not enough. -/
theorem firstReaching_none_iff {k seen : Nat} (hseen : seen < k) {l : List (α × Nat)}
    {found : Option α} (h : firstReaching k seen l = .ok found) :
    found = none ↔ seen + (l.map (·.2)).sum < k := by
  induction l generalizing seen with
  | nil =>
    obtain rfl := Except.ok.inj h
    simpa using hseen
  | cons p rest ih =>
    rw [List.map_cons, List.sum_cons]
    rcases cases_of_firstReaching h with ⟨hk, rfl⟩ | ⟨hlt, hrest⟩
    · constructor
      · intro hnone
        nomatch hnone
      · intro hsum
        omega
    · rw [ih hlt hrest]
      omega

variable [LawfulScalar α]

/-- Within a lesser distance than the one that is found the counts do not reach `k`. -/
theorem firstReaching_least {k seen : Nat} (hseen : seen < k) {l : List (α × Nat)} {r : α}
    (hsorted : l.Pairwise fun p q => p.1 ≤ q.1) (h : firstReaching k seen l = .ok (some r))
    {x : α} (hx : k ≤ seen + countWithin l x) : r ≤ x := by
  induction l generalizing seen with
  | nil => nomatch h
  | cons p rest ih =>
    obtain ⟨hle, hsorted⟩ := List.pairwise_cons.mp hsorted
    rcases cases_of_firstReaching h with ⟨-, hr⟩ | ⟨hlt, hrest⟩
    · -- Something is within `x`, and nothing comes before the first distance.
      obtain rfl := Option.some.inj hr
      have hpos : 0 < countWithin (p :: rest) x := by omega
      obtain ⟨q, hq, hqx⟩ := exists_le_of_countWithin hpos
      rcases List.mem_cons.mp hq with rfl | hq
      · exact hqx
      · exact LawfulScalar.le_trans (hle q hq) hqx
    · rw [countWithin_cons] at hx
      apply ih hlt hsorted hrest
      split at hx <;> omega

/-- The covering radius is the least distance within which the far corners of searchable ranks with
at least `k` boxes lie, and it is missing exactly if the searchable ranks hold fewer than `k`. -/
theorem coveringRadius_least {holdings : List (Holdings α)} {target : Point α} {k : Nat}
    (hk : 0 < k) (hnum : ∀ h ∈ holdings, Scalar.isNaN (h.bounds.farDistance target) = false)
    (hsum : (holdings.map (·.nonEmptySize)).sum < UInt64.size) :
    ∃ found, (ofHoldings holdings).coveringRadius target k = .ok found ∧
      (found = none ↔ searchableBoxes holdings < k) ∧
      ∀ r, found = some r →
        (∃ h ∈ holdings, h.isSearchable = true ∧ h.bounds.farDistance target = r) ∧
          k ≤ boxesWithin holdings target r ∧
            ∀ x, k ≤ boxesWithin holdings target x → r ≤ x := by
  let corners : List (α × Nat) := (ofHoldings holdings).farCorners target
  let sorted : List (α × Nat) := corners.mergeSort fun p q => Scalar.totalOrder p.1 q.1 != .gt
  have hperm : sorted.Perm corners := List.mergeSort_perm _ _
  have hnum : ∀ p ∈ corners, Scalar.isNaN p.1 = false := by
    intro p hp
    obtain ⟨h, hh, rfl⟩ := List.mem_map.mp hp
    exact hnum h (List.mem_filter.mp hh).1
  have hsorted : sorted.Pairwise fun p q => p.1 ≤ q.1 := pairwise_byDistance hnum
  have htotal : (sorted.map (·.2)).sum = searchableBoxes holdings := by
    rw [(hperm.map _).sum_nat, sum_farCorners]
  have hfits : searchableBoxes holdings < UInt64.size := by
    apply Nat.lt_of_le_of_lt _ hsum
    exact (List.filter_sublist.map _).sum_le_sum fun _ _ => Nat.zero_le _
  have hwithin : ∀ x, countWithin sorted x = boxesWithin holdings target x := fun x =>
    (countWithin_perm hperm x).trans (countWithin_farCorners holdings target x)
  obtain ⟨found, hfound⟩ := firstReaching_succeeds k 0 (l := sorted) (by omega)
  refine ⟨found, hfound, ?_, ?_⟩
  · rw [firstReaching_none_iff hk hfound, htotal, Nat.zero_add]
  · rintro r rfl
    have hnum : ∀ p ∈ sorted, Scalar.isNaN p.1 = false := fun p hp => hnum p (hperm.subset hp)
    obtain ⟨⟨p, hp, rfl⟩, hcount⟩ := count_of_firstReaching hnum hsorted hfound
    refine ⟨?_, ?_, ?_⟩
    · obtain ⟨h, hh, hp⟩ := List.mem_map.mp (hperm.subset hp)
      obtain ⟨hmem, hsearch⟩ := List.mem_filter.mp hh
      exact ⟨h, hmem, hsearch, congrArg Prod.fst hp⟩
    · rw [← hwithin, ← Nat.zero_add (countWithin _ _)]
      exact hcount
    · intro x hx
      apply firstReaching_least hk hsorted hfound
      rwa [hwithin, Nat.zero_add]

/-- Two ranks whose far corners are equally far from the origin, one that is out of reach and one
that counts boxes within empty bounds. -/
def sharedCorner : List (Holdings Binary64) :=
  [⟨.ofPoint ⟨.half, 0, 0⟩, 2, 2⟩, ⟨.ofPoint ⟨.infinity, 0, 0⟩, 4, 3⟩, ⟨.empty, 9, 9⟩,
    ⟨.ofPoint ⟨0, .half, 0⟩, 1, 1⟩]

theorem coveringRadius_least_sharedCorner : 0 < 3 ∧
    (∀ h ∈ sharedCorner, Scalar.isNaN (h.bounds.farDistance .origin) = false) ∧
    (sharedCorner.map (·.nonEmptySize)).sum < UInt64.size ∧
    ∃ found, (ofHoldings sharedCorner).coveringRadius .origin 3 = .ok found ∧
      (found = none ↔ searchableBoxes sharedCorner < 3) ∧
      ∀ r, found = some r →
        (∃ h ∈ sharedCorner, h.isSearchable = true ∧ h.bounds.farDistance .origin = r) ∧
          3 ≤ boxesWithin sharedCorner .origin r ∧
            ∀ x, 3 ≤ boxesWithin sharedCorner .origin x → r ≤ x := by
  have hnum : ∀ h ∈ sharedCorner, Scalar.isNaN (h.bounds.farDistance .origin) = false := by
    decide +kernel
  have hsum : (sharedCorner.map (·.nonEmptySize)).sum < UInt64.size := by decide
  exact ⟨by decide, hnum, hsum, coveringRadius_least (by decide) hnum hsum⟩

end Roster

end SpatialSearch
