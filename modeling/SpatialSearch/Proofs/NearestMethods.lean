import SpatialSearch.Proofs.NearestQueries

/-!
# The two methods of nearest queries

Both methods give the same tables wherever every far corner has a distance, with infinite
coordinates as with finite ones. A rank whose boxes are flat at infinity has no far corner for
a target that lies there too: an infinity has no difference from itself. The enclosing method
is then left with a limit that is not a number, within which there is nothing, and asks no
rank.
-/

namespace SpatialSearch

open LawfulScalar

namespace Roster

variable {α : Type} [Scalar α] [LawfulScalar α] {n : Nat}

/-- No rank is near within a limit that is not a number. -/
theorem near_of_isNaN (shares : Fin n → Share α) (target : Point α) {limit : α}
    (h : Scalar.isNaN limit = true) : near shares target limit = [] := by
  refine List.filter_eq_nil_iff.mpr fun b _ haccepts => ?_
  have hle := ((Query.accepts_touching_iff _ _).mp haccepts).2
  exact Bool.false_ne_true ((isNaN_of_le hle).2.symm.trans h)

end Roster

namespace PartitionedIndex

variable {α : Type} [Scalar α] [LawfulScalar α] {n : Nat} {shares : Fin n → Share α}
  {options : SearchOptions}

omit [LawfulScalar α] in
/-- Batches that are not all empty end with the tables of their method. -/
theorem alwaysEnds_nearest (options : SearchOptions) {targets : Fin n → List (NearestQuery α)}
    (hk : ∀ i, ∀ t ∈ targets i, 0 < t.k ∧ t.k ≤ options.neighborLimit)
    (hsome : ∃ i, targets i ≠ []) {tables : Fin n → HitTable α}
    (h : Together (fun i => (joint shares options i).answerKind ((targets i).map .nearest) .nearest)
      tables) {P : Fin n → HitTable α → Prop} (hP : ∀ i, P i (tables i)) :
    Group.AlwaysEnds (Answered P) (session shares options fun i => (targets i).map .nearest) := by
  rcases together_query_cases shares options fun i => valid_nearest (hk i) with
    ⟨-, hquery⟩ | ⟨hnil, -⟩
  · exact alwaysEnds_session (hquery tables h) hP
  · obtain ⟨i, hi⟩ := hsome
    exact absurd (List.map_eq_nil_iff.mp (hnil i)) hi

/-- If no rank that is worth searching is flat at infinity where a target lies, both methods
give the same tables, whatever the order in which the ranks act. -/
theorem methods_agree (options : SearchOptions) (hshares : ∀ b, (shares b).AllNumeric)
    {targets : Fin n → List (NearestQuery α)}
    (htargets : ∀ i, ∀ t ∈ targets i, t.target.Numeric)
    (hpinned : ∀ i, ∀ t ∈ targets i, ∀ b, (shares b).holdings.isSearchable = true →
      ¬ (shares b).holdings.bounds.PinnedBeyond t.target)
    (hk : ∀ i, ∀ t ∈ targets i, 0 < t.k ∧ t.k ≤ options.neighborLimit)
    (hlocal : ∀ b, (shares b).entries.length < UInt64.size / 2)
    (hfits : Fits shares fun i => (targets i).map .nearest) :
    ∃ tables : Fin n → HitTable α,
      (∀ i, NearestExact shares (targets i) (tables i)) ∧
      Group.AlwaysEnds (Answered fun i t => t = tables i)
        (session shares { options with method := .refining } fun i =>
          (targets i).map .nearest) ∧
      Group.AlwaysEnds (Answered fun i t => t = tables i)
        (session shares { options with method := .enclosing } fun i =>
          (targets i).map .nearest) := by
  by_cases hsome : ∃ i, targets i ≠ []
  · obtain ⟨limit, hlimits, hrows⟩ := exists_coveringLimits hshares
      (fun i t ht => (hk i t ht).2) htargets
      (fun i t ht b hb => Box.reaches_of_not_pinned (Share.numeric_bounds (shares b))
        (htargets i t ht) (hpinned i t ht b ((Roster.mem_worth shares).mp hb))) hlocal hfits
    choose tables htables hexact using fun i => exists_nearestTable shares (targets i)
    have hrefine := together_refine_tables { options with method := .refining } hshares hk hfits
      htables
    have henclose := together_enclose_tables { options with method := .enclosing } hshares
      (fun i t ht => (hk i t ht).2) hfits hlimits fun i => (hrows i).symm ▸ htables i
    refine ⟨tables, hexact,
      alwaysEnds_nearest { options with method := .refining } hk hsome ?_ fun _ => rfl,
      alwaysEnds_nearest { options with method := .enclosing } hk hsome ?_ fun _ => rfl⟩
    · simp only [answerKind, joint, nearestQueries_map]
      exact hrefine
    · simp only [answerKind, joint, nearestQueries_map]
      exact henclose
  · have hnil : ∀ i, (targets i).map Query.nearest = [] := by
      intro i
      by_contra h
      exact hsome ⟨i, fun hi => h (hi ▸ rfl)⟩
    have hblank : ∀ method, Group.AlwaysEnds (Answered fun _ t => t = .empty 0 false)
        (session shares { options with method := method } fun i => (targets i).map .nearest) := by
      intro method
      rcases together_query_cases shares { options with method := method }
        fun i => valid_nearest (hk i) with ⟨⟨i, hi⟩, -⟩ | ⟨-, hquery⟩
      · exact absurd (hnil i) hi
      · exact alwaysEnds_session hquery fun _ => rfl
    exact ⟨fun _ => .empty 0 false, fun i => nearestExact_empty (hnil i), hblank .refining,
      hblank .enclosing⟩

def beyond : Point Binary64 := ⟨Scalar.infinity, 0, 0⟩

def nearBeyond (_ : Fin 2) : List (NearestQuery Binary64) := [⟨beyond, 3⟩]

theorem methods_agree_nearBeyond : ∃ tables : Fin 2 → HitTable Binary64,
    (∀ i, NearestExact twoRanks (nearBeyond i) (tables i)) ∧
    Group.AlwaysEnds (Answered fun i t => t = tables i)
      (session twoRanks { method := .refining } fun i => (nearBeyond i).map .nearest) ∧
    Group.AlwaysEnds (Answered fun i t => t = tables i)
      (session twoRanks { method := .enclosing } fun i => (nearBeyond i).map .nearest) := by
  have hshares : ∀ b, (twoRanks b).AllNumeric := by decide
  have htargets : ∀ i, ∀ t ∈ nearBeyond i, t.target.Numeric := by decide
  have hpinned : ∀ i, ∀ t ∈ nearBeyond i, ∀ b,
      ¬ (Entry.bounds (twoRanks b).entries).PinnedBeyond t.target := by decide
  have hk : ∀ i, ∀ t ∈ nearBeyond i, 0 < t.k ∧ t.k ≤ 256 := by decide
  have hlocal : ∀ b, (twoRanks b).entries.length < UInt64.size / 2 := by decide
  have hfits : Fits twoRanks fun i => (nearBeyond i).map .nearest := ⟨by decide, by decide⟩
  exact methods_agree {} hshares htargets
    (fun i t ht b _ => by rw [Share.bounds_holdings]; exact hpinned i t ht b) hk hlocal hfits

def oneBeyond (_ : Fin 1) : Share Binary64 := ⟨[⟨0, .ofPoint beyond⟩], .tree⟩

/-- The methods differ on a point at infinity: the refining one finds it at no distance from
itself, the enclosing one does not find it. -/
theorem methods_differ_oneBeyond :
    Group.AlwaysEnds (Answered fun _ t => t.hits? 0 = some [⟨0, 0, some 0⟩])
      (session oneBeyond { method := .refining } fun _ => [.nearest ⟨beyond, 1⟩]) ∧
    Group.AlwaysEnds (Answered fun _ t => t.hits? 0 = some [])
      (session oneBeyond { method := .enclosing } fun _ => [.nearest ⟨beyond, 1⟩]) := by
  let targets : Fin 1 → List (NearestQuery Binary64) := fun _ => [⟨beyond, 1⟩]
  have hshares : ∀ b, (oneBeyond b).AllNumeric := by decide
  have hk : ∀ i, ∀ t ∈ targets i, 0 < t.k ∧ t.k ≤ 256 := by decide
  have hfits : Fits oneBeyond fun i => (targets i).map .nearest := ⟨by decide, by decide⟩
  have hsome : ∃ i, targets i ≠ [] := ⟨0, by decide⟩
  constructor
  · choose tables htables hexact using fun i => exists_nearestTable oneBeyond (targets i)
    have hall : Located.all oneBeyond beyond = [⟨0, 0, 0⟩] := by
      have hdistance : (Box.ofPoint beyond).distance beyond = 0 := by decide +kernel
      change [(⟨(Box.ofPoint beyond).distance beyond, 0, 0⟩ : Located Binary64)] = _
      rw [hdistance]
    refine alwaysEnds_nearest { method := .refining } hk hsome
      (together_refine_tables _ hshares hk hfits htables) fun i => ?_
    rw [(hexact i).2 0 Nat.zero_lt_one]
    change some (((Ranking.sort _ (Located.all oneBeyond beyond)).take 1).map _) = _
    rw [hall, Ranking.sort, List.mergeSort_singleton]
    rfl
  · -- The difference of infinity from itself makes the radius no number.
    let limit : (i : Fin 1) → Fin (targets i).length → Binary64 :=
      fun _ _ => Binary64.invalid.quiet
    have hlimits : ∀ i q, ((Roster.joint oneBeyond).coveringRadius (targets i)[q].target
        (targets i)[q].k).map (·.getD Scalar.infinity) = .ok (limit i q) := by
      intro i q
      have hq : (targets i)[q] = ⟨beyond, 1⟩ := List.mem_singleton.mp (List.getElem_mem q.isLt)
      have hradius : (Roster.joint oneBeyond).coveringRadius beyond 1 =
          .ok (some Binary64.invalid.quiet) := by cbv
      rw [hq, hradius]
      rfl
    have hrows : ∀ i, enclosedRows oneBeyond 256 (targets i) (limit i) = fun _ => [] := by
      intro i
      funext q
      rw [enclosedRows, Roster.near_of_isNaN oneBeyond _ (by decide), Located.foundBy_nil,
        Ranking.firsts, Ranking.sort, List.mergeSort_nil, List.take_nil]
    choose tables htables _ hhits using fun i =>
      tabulate_rowsOf (enclosedRows oneBeyond 256 (targets i) (limit i))
    refine alwaysEnds_nearest { method := .enclosing } hk hsome
      (together_enclose_tables _ hshares (fun i t ht => (hk i t ht).2) hfits hlimits htables)
      fun i => ?_
    have := hhits i ⟨0, Nat.zero_lt_one⟩
    rw [hrows i] at this
    exact this

end PartitionedIndex

end SpatialSearch
