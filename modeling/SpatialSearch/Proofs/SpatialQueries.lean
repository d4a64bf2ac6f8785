import SpatialSearch.Proofs.Batches

/-!
# Spatial queries are exact

The row of a spatial query holds the matching entries of all ranks, each as often as it
occurs, in ascending order of the ranks. A match gets through the choice of searchable
ranks, the search among their bounds and the search of its own rank, because each of them
tests boxes that enclose it.
-/

namespace SpatialSearch

namespace PartitionedIndex

variable {α : Type} [Scalar α] {n : Nat}

def matchesOf (shares : Fin n → Share α) (q : Query α) : List (Nat × Nat) :=
  (List.finRange n).flatMap fun b =>
    ((shares b).entries.filter fun e => q.accepts e.box).map fun e => (b.val, e.index)

def SpatiallyExact (shares : Fin n → Share α) (queries : List (Query α)) (t : HitTable α) :
    Prop :=
  t.size = queries.length ∧ ∀ q (hq : q < queries.length), ∃ row, t.hits? q = some row ∧
    (row.map fun h => (h.rank, h.index)).Perm (matchesOf shares queries[q]) ∧
      row.Pairwise fun a b => a.rank ≤ b.rank

/-- The entries that match a spatial query on the ranks that are worth searching. -/
def searchedMatches (shares : Fin n → Share α) (q : Query α) : List (Nat × Nat) :=
  (Roster.worth shares).flatMap fun b =>
    ((shares b).entries.filter fun e => q.accepts e.box).map fun e => (b.val, e.index)

def SpatiallySearched (shares : Fin n → Share α) (queries : List (Query α)) (t : HitTable α) :
    Prop :=
  t.size = queries.length ∧ ∀ q (hq : q < queries.length), ∃ row, t.hits? q = some row ∧
    (row.map fun h => (h.rank, h.index)).Perm (searchedMatches shares queries[q]) ∧
      row.Pairwise fun a b => a.rank ≤ b.rank

def spatialInquiry (shares : Fin n → Share α) (queries : List (Query α)) : Inquiry n α where
  size := queries.length
  asked q := (Roster.worth shares).filter fun b => queries[q].accepts (shares b).holdings.bounds
  request q := ⟨q, queries[q], Scalar.infinity⟩
  nodup_asked _ := (Roster.nodup_worth shares).filter _
  number_request _ := rfl

omit [Scalar α] in
/-- Sorting answers by their queries keeps the answers to each query in their order. -/
theorem filter_mergeSort_number (answers : List (Answer α)) (q : Nat) :
    (answers.mergeSort (·.number ≤ ·.number)).filter (·.number == q) =
      answers.filter (·.number == q) := by
  have hsame : (answers.filter (·.number == q)).Pairwise fun a b =>
      decide (a.number ≤ b.number) = true := by
    refine List.pairwise_of_forall_mem_list fun a ha b hb => ?_
    have hanum := (List.mem_filter.mp ha).2
    have hbnum := (List.mem_filter.mp hb).2
    simp only [beq_iff_eq] at hanum hbnum
    simp [hanum, hbnum]
  have hsub := (List.sublist_mergeSort (fun a b c => by simpa using Nat.le_trans)
    (fun a b => by simpa using Nat.le_total a.number b.number) hsame
      List.filter_sublist).filter (·.number == q)
  simp only [List.filter_filter, Bool.and_self] at hsub
  refine (hsub.eq_of_length ?_).symm
  exact (((List.mergeSort_perm answers _).filter _).length_eq).symm

omit [Scalar α] in
theorem pairwise_mergeSort_number (answers : List (Answer α)) :
    (answers.mergeSort (·.number ≤ ·.number)).Pairwise (·.number ≤ ·.number) := by
  have hsorted : (answers.mergeSort (·.number ≤ ·.number)).Pairwise
      fun a b => decide (a.number ≤ b.number) = true := List.pairwise_mergeSort
    (fun a b c => by simpa using Nat.le_trans)
    (fun a b => by simpa using Nat.le_total a.number b.number) answers
  exact hsorted.imp fun h => of_decide_eq_true h

variable [LawfulScalar α] {shares : Fin n → Share α} {options : SearchOptions}

theorem spatialRequests_eq {queries : List (Query α)}
    (hspatial : ∀ q ∈ queries, q.isSpatial = true) (i : Fin n) :
    requestsFrom (joint shares options i).spatialRequests 0 queries =
      .ok (spatialInquiry shares queries).requests := by
  have hrequests : ∀ q : Fin queries.length,
      (joint shares options i).spatialRequests (0 + q.val) queries[q] =
        .ok (((spatialInquiry shares queries).asked q).map fun b =>
          (b.val, (spatialInquiry shares queries).request q)) := by
    intro q
    have hq := hspatial queries[q] (List.getElem_mem q.isLt)
    have hranks : (Roster.joint shares).ranksFor queries[q] =
        (Roster.joint shares).ranksMatching queries[q] := by
      rw [Roster.ranksFor.eq_def]
      split
      · rename_i h
        rw [h] at hq
        nomatch hq
      · rfl
    rw [spatialRequests, joint, hranks, Roster.ranksMatching_joint shares hq, Nat.zero_add]
    change Except.ok (List.map _ (List.map _ _)) = _
    rw [List.map_map]
    rfl
  have := requestsFrom_eq hrequests
  rwa [map_finRange_getElem] at this

/-- If no empty box matches, all matches are on ranks that are worth searching. -/
theorem searchedMatches_eq (hshares : ∀ b, (shares b).AllNumeric) {q : Query α}
    (hempty : ∀ b, ∀ e ∈ (shares b).entries, e.box.isEmpty = true → q.accepts e.box = false) :
    searchedMatches shares q = matchesOf shares q := by
  rw [searchedMatches, Roster.worth, flatMap_filter, matchesOf]
  refine List.flatMap_congr fun b _ => ?_
  by_cases hb : (shares b).holdings.isSearchable = true
  · rw [if_pos hb]
  · have hnone : ((shares b).entries.filter fun e => q.accepts e.box) = [] := by
      refine List.filter_eq_nil_iff.mpr fun e he haccepts => hb ?_
      have hne : e.box.isEmpty = false := by
        by_contra h
        rw [Bool.not_eq_false] at h
        exact Bool.false_ne_true ((hempty b e he h).symm.trans haccepts)
      exact Share.isSearchable_of_mem (hshares b) he hne
    rw [if_neg hb, hnone]
    rfl

theorem SpatiallySearched.exact (hshares : ∀ b, (shares b).AllNumeric) {queries : List (Query α)}
    (hempty : ∀ q ∈ queries, ∀ b, ∀ e ∈ (shares b).entries, e.box.isEmpty = true →
      q.accepts e.box = false) {t : HitTable α} (h : SpatiallySearched shares queries t) :
    SpatiallyExact shares queries t := by
  refine ⟨h.1, fun q hq => ?_⟩
  rw [← searchedMatches_eq hshares (hempty _ (List.getElem_mem hq))]
  exact h.2 q hq

/-- The answers to a spatial query are its matches on the ranks that are worth searching. -/
theorem spatial_answers_perm (hshares : ∀ b, (shares b).AllNumeric) {queries : List (Query α)}
    (hspatial : ∀ q ∈ queries, q.isSpatial = true) (room : Nat) (q : Fin queries.length) :
    ((((spatialInquiry shares queries).answers shares room).filter (·.number == q.val)).map
      fun a => (a.rank, a.index)).Perm (searchedMatches shares queries[q]) := by
  have hfilter := (spatialInquiry shares queries).filter_answers shares room q
  rw [hfilter, List.map_flatMap, searchedMatches, Roster.worth, flatMap_filter]
  refine List.Perm.flatMap_left _ fun b _ => ?_
  let r : Request α := (spatialInquiry shares queries).request q
  have hanswers : ((r.answers (shares b) room b).map fun a => (a.rank, a.index)).Perm
      (((shares b).entries.filter fun e => queries[q].accepts e.box).map fun e =>
        (b.val, e.index)) := by
    have hindices : (((shares b).hits room r).map (·.index)).Perm _ :=
      Share.indices_hits_perm (hshares b) (hspatial _ (List.getElem_mem q.isLt))
    have hpairs := hindices.map fun index => (b.val, index)
    rw [List.map_map, List.map_map] at hpairs
    rw [Request.answers, Request.replies, List.map_map]
    exact hpairs
  by_cases hsearch : (shares b).holdings.isSearchable = true
  · rw [if_pos hsearch]
    by_cases hb : b ∈ (spatialInquiry shares queries).asked q
    · rw [if_pos hb]
      exact hanswers
    · -- A match would have made the rank one of those that are asked.
      have hnone : ((shares b).entries.filter fun e => queries[q].accepts e.box) = [] := by
        refine List.filter_eq_nil_iff.mpr fun e he haccepts => hb ?_
        exact List.mem_filter.mpr ⟨(Roster.mem_worth shares).mpr hsearch,
          Query.accepts_of_encloses _ (Share.encloses (hshares b) he) haccepts⟩
      rw [if_neg hb, hnone]
      exact .refl _
  · have hb : b ∉ (spatialInquiry shares queries).asked q := fun hb =>
      hsearch ((Roster.mem_worth shares).mp (List.mem_filter.mp hb).1)
    rw [if_neg hsearch, if_neg hb]
    exact .refl _

omit [LawfulScalar α] in
/-- The answers to a query come by ascending ranks. -/
theorem pairwise_rank_answers (v : Inquiry n α) (room : Nat) (q : Fin v.size) :
    ((v.answers shares room).filter (·.number == q.val)).Pairwise (·.rank ≤ ·.rank) := by
  have hrank : ∀ b : Fin n,
      ∀ a ∈ (if b ∈ v.asked q then (v.request q).answers (shares b) room b else []),
        a.rank = b.val := by
    intro b a ha
    split at ha
    · exact (Request.number_of_mem_answers ha).2
    · nomatch ha
  rw [v.filter_answers shares room q, List.pairwise_flatMap]
  constructor
  · intro b _
    refine List.pairwise_of_forall_mem_list fun x hx y hy => ?_
    rw [hrank b x hx, hrank b y hy]
  · refine (List.pairwise_lt_finRange n).imp fun {b c} hbc x hx y hy => ?_
    rw [hrank b x hx, hrank c y hy]
    exact Nat.le_of_lt hbc

/-- Whatever the boxes, spatial queries are answered in one round. -/
theorem passes_answerSpatial {queries : Fin n → List (Query α)}
    (hspatial : ∀ i, ∀ q ∈ queries i, q.isSpatial = true)
    (hqueries : ∑ i, (queries i).length < Count.room)
    (hanswers : ∀ i, ((spatialInquiry shares (queries i)).answers shares
      options.neighborLimit).length < Count.room) :
    ∃ tables : Fin n → HitTable α, Passes roundTags
        (fun i => ((joint shares options i).answerSpatial (queries i)).run)
        (fun i => .ok (tables i)) ∧
      ∀ i, (tables i).size = (queries i).length ∧ ∀ q < (queries i).length,
        (tables i).hits? q = some ((((spatialInquiry shares (queries i)).answers shares
          options.neighborLimit).filter (·.number == q)).map (toHit false)) := by
  let v : Fin n → Inquiry n α := fun i => spatialInquiry shares (queries i)
  let answers : Fin n → List (Answer α) := fun i => (v i).answers shares options.neighborLimit
  have hlimit : ∀ i q t, ((v i).request q).query = .nearest t →
      t.k ≤ options.neighborLimit := by
    intro i q t ht
    have hq : ((v i).request q).query.isSpatial = true :=
      hspatial i _ (List.getElem_mem q.isLt)
    rw [ht] at hq
    nomatch hq
  have htable := fun i => tabulate_eq (m := (queries i).length) false
    (pairwise_mergeSort_number (answers i)) fun a ha =>
      (v i).number_lt_of_mem_answers shares _ ((List.mergeSort_perm _ _).mem_iff.mp ha)
  choose tables htables hsize hrows using htable
  simp only [filter_mergeSort_number] at hrows
  refine ⟨tables, ?_, fun i => ⟨hsize i, hrows i⟩⟩
  simp only [answerSpatial, spatialRequests_eq (hspatial _), Search.ofIndex_ok_bind]
  refine (passes_exchange v hlimit hqueries hanswers).bind ?_
  have hend : ∀ i, tabulate (queries i).length
      (((v i).answers shares options.neighborLimit).mergeSort (·.number ≤ ·.number)) false =
        pure (tables i) := htables
  simp only [hend]
  exact Passes.done _

variable (options) in
theorem together_searchSpatial (hshares : ∀ b, (shares b).AllNumeric)
    {queries : Fin n → List (Query α)} (hspatial : ∀ i, ∀ q ∈ queries i, q.isSpatial = true)
    (hfits : Fits shares queries) :
    ∃ tables, Together (fun i => (joint shares options i).answerSpatial (queries i)) tables ∧
      ∀ i, SpatiallySearched shares (queries i) (tables i) := by
  have hanswers : ∀ i, ((spatialInquiry shares (queries i)).answers shares
      options.neighborLimit).length < Count.room := by
    intro i
    have hbound := (spatialInquiry shares (queries i)).length_answers_le shares
      options.neighborLimit (h := fun q b => Share.length_hits_le_mostHits (hshares b)
        fun t ht => by
          have hq : ((spatialInquiry shares (queries i)).request q).query.isSpatial = true :=
            hspatial i _ (List.getElem_mem q.isLt)
          rw [ht] at hq
          nomatch hq)
    refine Nat.lt_of_le_of_lt hbound ?_
    have := hfits.2 i
    rwa [← Fin.sum_univ_fun_getElem] at this
  obtain ⟨tables, htables, hrows⟩ := passes_answerSpatial hspatial hfits.1 hanswers
  refine ⟨tables, htables.together, fun i => ⟨(hrows i).1, fun q hq =>
    ⟨_, (hrows i).2 q hq, ?_, ?_⟩⟩⟩
  · rw [List.map_map]
    exact spatial_answers_perm hshares (hspatial i) _ ⟨q, hq⟩
  · rw [List.pairwise_map]
    exact pairwise_rank_answers _ _ ⟨q, hq⟩

variable (options) in
theorem together_answerSpatial (hshares : ∀ b, (shares b).AllNumeric)
    {queries : Fin n → List (Query α)} (hspatial : ∀ i, ∀ q ∈ queries i, q.isSpatial = true)
    (hempty : ∀ i, ∀ q ∈ queries i, ∀ b, ∀ e ∈ (shares b).entries, e.box.isEmpty = true →
      q.accepts e.box = false)
    (hfits : Fits shares queries) :
    ∃ tables, Together (fun i => (joint shares options i).answerSpatial (queries i)) tables ∧
      ∀ i, SpatiallyExact shares (queries i) (tables i) := by
  obtain ⟨tables, htables, hsearched⟩ :=
    together_searchSpatial options hshares hspatial hfits
  exact ⟨tables, htables, fun i => (hsearched i).exact hshares (hempty i)⟩

/-- Spatial queries of one kind are exact, whatever the order in which the ranks act, if no
empty box matches them. -/
theorem spatial_queries_exact (hshares : ∀ b, (shares b).AllNumeric)
    {queries : Fin n → List (Query α)} {kind : QueryKind} (hkind : kind ≠ .nearest)
    (hvalid : ∀ i, ∀ q ∈ queries i, q.kind = kind ∧ q.check = .ok ())
    (hempty : ∀ i, ∀ q ∈ queries i, ∀ b, ∀ e ∈ (shares b).entries, e.box.isEmpty = true →
      q.accepts e.box = false)
    (hfits : Fits shares queries) :
    Group.AlwaysEnds (Answered fun i => SpatiallyExact shares (queries i))
      (session shares options queries) := by
  have hspatial : ∀ i, ∀ q ∈ queries i, q.isSpatial = true := by
    intro i q hq
    rw [Query.isSpatial, (hvalid i q hq).1]
    exact bne_iff_ne.mpr hkind
  have hbatch : ∀ i, ∀ q ∈ queries i, Batch.Valid options kind q := by
    intro i q hq
    refine ⟨(hvalid i q hq).1, (hvalid i q hq).2, ?_⟩
    have := hspatial i q hq
    cases q with
    | nearest _ => nomatch this
    | overlapping _ => rfl
    | touching _ => rfl
  obtain ⟨tables, htables, hexact⟩ := together_answerSpatial options hshares
    hspatial hempty hfits
  obtain ⟨tables, htables, hexact⟩ := together_query shares
    (P := fun i => SpatiallyExact shares (queries i)) hbatch
    (fun hnil i => ⟨by rw [hnil]; rfl, fun q hq => by
      rw [hnil] at hq
      nomatch hq⟩)
    ⟨tables, by cases kind <;> first | exact htables | exact absurd rfl hkind, hexact⟩
  exact alwaysEnds_session htables hexact

def atOrigin (_ : Fin 2) : List (Query Binary64) := [.overlapping (.ofPoint .origin)]

theorem spatial_queries_exact_atOrigin :
    Group.AlwaysEnds (Answered fun i => SpatiallyExact twoRanks (atOrigin i))
      (session twoRanks {} atOrigin) := by
  have hshares : ∀ b, (twoRanks b).AllNumeric := by decide
  have hkind : QueryKind.overlapping ≠ .nearest := by decide
  have hvalid : ∀ i, ∀ q ∈ atOrigin i, q.kind = .overlapping ∧ q.check = .ok () := by decide
  have hempty : ∀ i, ∀ q ∈ atOrigin i, ∀ b, ∀ e ∈ (twoRanks b).entries,
      e.box.isEmpty = true → q.accepts e.box = false := by decide
  have hfits : Fits twoRanks atOrigin := ⟨by decide, by decide⟩
  exact spatial_queries_exact hshares hkind hvalid hempty hfits

end PartitionedIndex

end SpatialSearch
