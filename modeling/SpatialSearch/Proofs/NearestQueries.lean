import SpatialSearch.Proofs.Batches
import SpatialSearch.Proofs.Located

/-!
# Nearest queries are exact

The row of a nearest query is the beginning of the list of all neighbors on all ranks,
sorted by distance, index and rank. Both methods leave out only what is farther away than a
limit within which there are enough neighbors: the refining one takes the limit from the
answers of its first round, the enclosing one from the far corners of the ranks.
-/

namespace SpatialSearch

namespace PartitionedIndex

variable {α : Type} [Scalar α] {n : Nat}

def NearestExact (shares : Fin n → Share α) (targets : List (NearestQuery α))
    (t : HitTable α) : Prop :=
  t.size = targets.length ∧ ∀ q (hq : q < targets.length), t.hits? q =
    some (((Ranking.sort Located.order (Located.all shares targets[q].target)).take
      (min targets[q].k (∑ b, Entry.countNonEmpty (shares b).entries))).map Located.toHit)

/-- The requests of a round: each query goes to some ranks, with a limit. -/
def nearestInquiry (targets : List (NearestQuery α)) (asked : Fin targets.length → List (Fin n))
    (hasked : ∀ q, (asked q).Nodup) (limit : Fin targets.length → α) : Inquiry n α where
  size := targets.length
  asked := asked
  request q := ⟨q, .nearest targets[q], limit q⟩
  nodup_asked := hasked
  number_request _ := rfl

def rowsOf {m : Nat} (rows : Fin m → List (Located α)) : List (List (Answer α)) :=
  (List.finRange m).map fun q => (rows q).map (Located.toAnswer q.val)

variable {shares : Fin n → Share α} {options : SearchOptions}

theorem best_map_toAnswer (number k : Nat) (l : List (Located α)) :
    best k (l.map (Located.toAnswer number)) =
      (Ranking.firsts Located.order k l).map (Located.toAnswer number) :=
  (Ranking.map_firsts (f := Located.toAnswer number) (fun _ _ => rfl) k l).symm

theorem lastDistance_map_toAnswer (number : Nat) {k : Nat} (hk : 0 < k)
    (l : List (Located α)) :
    lastDistance k (l.map (Located.toAnswer number)) = Located.lastDistance k l := by
  rw [lastDistance, if_neg (Nat.ne_of_gt hk), Located.lastDistance, List.getElem?_map]
  cases l[k - 1]? <;> rfl

/-- The answers to a query in a round. -/
theorem filter_answers_nearest {targets : List (NearestQuery α)}
    {asked : Fin targets.length → List (Fin n)} (hasked : ∀ q, (asked q).Nodup)
    (limit : Fin targets.length → α) (room : Nat) (q : Fin targets.length) :
    ((nearestInquiry targets asked hasked limit).answers shares room).filter
        (·.number == q.val) =
      (Located.foundBy shares room ⟨q, .nearest targets[q], limit q⟩ (asked q)).map
        (Located.toAnswer q.val) := by
  have hfilter := (nearestInquiry targets asked hasked limit).filter_answers shares room q
  rw [hfilter, Located.foundBy, List.map_flatMap]
  refine List.flatMap_congr fun b _ => ?_
  change (if b ∈ asked q then _ else _) = _
  by_cases hb : b ∈ asked q
  · rw [if_pos hb, if_pos hb, List.map_map]
    rfl
  · rw [if_neg hb, if_neg hb]
    rfl

/-- The table of rows of neighbors. -/
theorem tabulate_rowsOf {m : Nat} (rows : Fin m → List (Located α)) :
    ∃ table, tabulate m (rowsOf rows).flatten true = pure table ∧ table.size = m ∧
      ∀ q : Fin m, table.hits? q = some ((rows q).map Located.toHit) := by
  have hnumber : ∀ q : Fin m, ∀ a ∈ (rows q).map (Located.toAnswer q.val), a.number = q.val := by
    intro q a ha
    obtain ⟨l, -, rfl⟩ := List.mem_map.mp ha
    rfl
  have hflatten : (rowsOf rows).flatten =
      (List.finRange m).flatMap fun q => (rows q).map (Located.toAnswer q.val) := rfl
  have hsorted : ((rowsOf rows).flatten).Pairwise (·.number ≤ ·.number) := by
    rw [hflatten, List.pairwise_flatMap]
    constructor
    · intro q _
      refine List.pairwise_of_forall_mem_list fun a ha b hb => ?_
      rw [hnumber q a ha, hnumber q b hb]
    · refine (List.pairwise_lt_finRange m).imp fun {q c} hqc a ha b hb => ?_
      rw [hnumber q a ha, hnumber c b hb]
      exact Nat.le_of_lt hqc
  have hlt : ∀ a ∈ (rowsOf rows).flatten, a.number < m := by
    intro a ha
    obtain ⟨q, -, ha⟩ := List.mem_flatMap.mp (hflatten ▸ ha)
    rw [hnumber q a ha]
    exact q.isLt
  obtain ⟨table, htable, hsize, hrows⟩ := tabulate_eq true hsorted hlt
  refine ⟨table, htable, hsize, fun q => ?_⟩
  have hrow : ((rowsOf rows).flatten).filter (·.number == q.val) =
      (rows q).map (Located.toAnswer q.val) := by
    refine filter_flatMap_eq (List.nodup_finRange m) (List.mem_finRange q) ?_ ?_
    · intro a ha
      exact beq_iff_eq.mpr (hnumber q a ha)
    · intro c hcq a ha
      rw [hnumber c a ha]
      simpa [Fin.ext_iff] using hcq
  rw [hrows q q.isLt, hrow, List.map_map]
  rfl

theorem bestOfEach_rowsOf {targets : List (NearestQuery α)}
    (rows : Fin targets.length → List (Located α)) :
    bestOfEach targets (rowsOf rows) =
      rowsOf fun q => Ranking.firsts Located.order targets[q].k (rows q) := by
  have hzip : bestOfEach ((List.finRange targets.length).map fun q => targets[q]) (rowsOf rows) =
      rowsOf fun q => Ranking.firsts Located.order targets[q].k (rows q) := by
    rw [bestOfEach, rowsOf, List.zipWith_map, List.zipWith_self, rowsOf]
    refine List.map_congr_left fun q _ => ?_
    exact best_map_toAnswer q.val targets[q].k (rows q)
  rwa [map_finRange_getElem] at hzip

omit [Scalar α] in
theorem append_rowsOf {m : Nat} (rows more : Fin m → List (Located α)) :
    (rowsOf rows).zipWith (· ++ ·) (rowsOf more) = rowsOf fun q => rows q ++ more q := by
  rw [rowsOf, rowsOf, List.zipWith_map, List.zipWith_self, rowsOf]
  simp only [List.map_append]

variable [LawfulScalar α]

/-- There is room for all requests that a rank can get and for all answers to each batch,
whichever ranks are asked. -/
structure RoundsFit (shares : Fin n → Share α) (options : SearchOptions)
    (targets : Fin n → List (NearestQuery α)) : Prop where
  k_le : ∀ i, ∀ t ∈ targets i, t.k ≤ options.neighborLimit
  queries : ∑ i, (targets i).length < Count.room
  answers : ∀ i asked hasked limit, ((nearestInquiry (targets i) asked hasked limit).answers shares
    options.neighborLimit).length < Count.room

omit [LawfulScalar α] in
theorem RoundsFit.of_bound {targets : Fin n → List (NearestQuery α)}
    (hlimit : ∀ i, ∀ t ∈ targets i, t.k ≤ options.neighborLimit)
    (hqueries : ∑ i, (targets i).length < Count.room) (bound : NearestQuery α → Fin n → Nat)
    (hbound : ∀ (t : NearestQuery α) b (r : Request α), r.query = .nearest t →
      t.k ≤ options.neighborLimit → ((shares b).hits options.neighborLimit r).length ≤ bound t b)
    (hsum : ∀ i, ((targets i).map fun t => ∑ b, bound t b).sum < Count.room) :
    RoundsFit shares options targets where
  k_le := hlimit
  queries := hqueries
  answers i asked hasked limit := by
    refine Nat.lt_of_le_of_lt (Inquiry.length_answers_le _ shares _ fun q b => ?_)
      ((Fin.sum_univ_fun_getElem (targets i) fun t => ∑ b, bound t b).trans_lt (hsum i))
    exact hbound _ b _ rfl (hlimit i _ (List.getElem_mem q.isLt))

theorem Fits.rounds (hshares : ∀ b, (shares b).AllNumeric)
    {targets : Fin n → List (NearestQuery α)}
    (hlimit : ∀ i, ∀ t ∈ targets i, t.k ≤ options.neighborLimit)
    (hfits : Fits shares fun i => (targets i).map .nearest) :
    RoundsFit shares options targets := by
  have hqueries := hfits.1
  simp only [List.length_map] at hqueries
  refine .of_bound hlimit hqueries (fun t b => (Query.nearest t).mostHits (shares b))
    (fun t b r hr hk => ?_) fun i => ?_
  · have := Share.length_hits_le_mostHits (r := r) (hshares b) fun n hn => by
      obtain rfl := Query.nearest.inj (hr.symm.trans hn)
      exact hk
    rwa [hr] at this
  · have := hfits.2 i
    rwa [List.map_map] at this

/-- A round of nearest queries, whatever the boxes. -/
theorem passes_round {targets : Fin n → List (NearestQuery α)}
    (hfits : RoundsFit shares options targets)
    {asked : (i : Fin n) → Fin (targets i).length → List (Fin n)}
    (hasked : ∀ i q, (asked i q).Nodup) (limit : (i : Fin n) → Fin (targets i).length → α) :
    Passes roundTags
      (fun i => ((joint shares options i).exchange
        (nearestInquiry (targets i) (asked i) (hasked i) (limit i)).requests >>=
          deal (targets i).length).run)
      fun i => .ok (rowsOf fun q => Located.foundBy shares options.neighborLimit
        ⟨q, .nearest (targets i)[q], limit i q⟩ (asked i q)) := by
  let v : Fin n → Inquiry n α :=
    fun i => nearestInquiry (targets i) (asked i) (hasked i) (limit i)
  have hk : ∀ i q t, ((v i).request q).query = .nearest t → t.k ≤ options.neighborLimit := by
    intro i q t ht
    obtain rfl := Query.nearest.inj ht
    exact hfits.k_le i _ (List.getElem_mem _)
  refine (passes_exchange v hk hfits.queries fun i => hfits.answers i _ _ _).bind ?_
  have hdeal : ∀ i, deal (targets i).length ((v i).answers shares options.neighborLimit) =
      (pure (rowsOf fun q => Located.foundBy shares options.neighborLimit
        ⟨q, .nearest (targets i)[q], limit i q⟩ (asked i q)) : Search α _) := by
    intro i
    have hnumber : ∀ a ∈ (v i).answers shares options.neighborLimit,
        a.number < (targets i).length :=
      fun a ha => (v i).number_lt_of_mem_answers shares _ ha
    rw [deal_eq hnumber, rowsOf]
    exact congrArg pure (List.map_congr_left fun q _ =>
      filter_answers_nearest (hasked i) (limit i) _ q)
  simp only [hdeal]
  exact Passes.done _

omit [Scalar α] [LawfulScalar α] in
theorem firstHolding_map (x : PartitionedIndex α) (k held : Nat) (ranks : List (Fin n)) :
    ∃ first : List (Fin n), x.firstHolding k held (ranks.map Fin.val) = first.map Fin.val ∧
      first.Sublist ranks := by
  induction ranks generalizing held with
  | nil => exact ⟨[], rfl, .refl _⟩
  | cons b rest ih =>
    rw [List.map_cons, firstHolding]
    split
    · exact ⟨[], rfl, List.nil_sublist _⟩
    · obtain ⟨first, hfirst, hsub⟩ :=
        ih (held + (x.roster.holdings? b).elim 0 (·.nonEmptySize))
      exact ⟨b :: first, congrArg (b.val :: ·) hfirst, hsub.cons_cons b⟩

variable (shares options) in
/-- Each query asks some ranks first, none of them twice. -/
theorem exists_askedFirst (i : Fin n) (targets : List (NearestQuery α)) :
    ∃ asked : Fin targets.length → List (Fin n), (∀ q, (asked q).Nodup) ∧
      (joint shares options i).askedFirst targets =
        .ok ((List.finRange targets.length).map fun q => (asked q).map Fin.val) := by
  have hone : ∀ q : Fin targets.length, ∃ first : List (Fin n), first.Nodup ∧
      ((joint shares options i).roster.ranksNearestFirst targets[q].target).map
        ((joint shares options i).firstHolding targets[q].k 0) = .ok (first.map Fin.val) := by
    intro q
    obtain ⟨ranks, hranks, hperm⟩ := Roster.ranksNearestFirst_joint shares targets[q].target
    obtain ⟨first, hfirst, hsub⟩ :=
      firstHolding_map (joint shares options i) targets[q].k 0 ranks
    refine ⟨first, (hperm.nodup_iff.mpr (Roster.nodup_worth shares)).sublist hsub, ?_⟩
    change ((Roster.joint shares).ranksNearestFirst targets[q].target).map _ = _
    rw [hranks]
    exact congrArg Except.ok hfirst
  choose asked hnodup hasked using hone
  exact ⟨asked, hnodup, mapM_eq_ok hasked⟩

/-- The ranks near a point are found by the bounds of all ranks. -/
theorem ranksNear_joint (shares : Fin n → Share α) (target : Point α) (limit : α) :
    (Roster.joint shares).ranksNear target limit =
      .ok ((Roster.near shares target limit).map Fin.val) :=
  Roster.ranksMatching_joint shares rfl

omit [LawfulScalar α] in
theorem firstRequests_eq {targets : List (NearestQuery α)}
    {asked : Fin targets.length → List (Fin n)} (hasked : ∀ q, (asked q).Nodup) :
    requestsFrom firstRequests 0
        (targets.zip ((List.finRange targets.length).map fun q => (asked q).map Fin.val)) =
      .ok (nearestInquiry targets asked hasked fun _ => Scalar.infinity).requests := by
  rw [zip_map_finRange]
  refine requestsFrom_eq fun q => ?_
  rw [firstRequests, List.map_map, Nat.zero_add]
  rfl

theorem coveringRequests_eq (i : Fin n) {targets : List (NearestQuery α)}
    (limit : Fin targets.length → α)
    {asked : Fin targets.length → List (Fin n)} (hnodup : ∀ q, (asked q).Nodup)
    (hasked : ∀ q, asked q = Roster.near shares targets[q].target (limit q)) :
    requestsFrom (joint shares options i).coveringRequests 0
        (targets.zip ((List.finRange targets.length).map limit)) =
      .ok (nearestInquiry targets asked hnodup limit).requests := by
  rw [zip_map_finRange]
  refine requestsFrom_eq fun q => ?_
  rw [coveringRequests, Nat.zero_add]
  change ((Roster.joint shares).ranksNear targets[q].target (limit q)).map _ = _
  rw [ranksNear_joint shares, ← hasked q]
  change Except.ok ((List.map Fin.val _).map _) = _
  rw [List.map_map]
  rfl

theorem secondRequests_eq (i : Fin n) {targets : List (NearestQuery α)}
    (hk : ∀ t ∈ targets, 0 < t.k)
    (asked : Fin targets.length → List (Fin n)) (found : Fin targets.length → List (Located α))
    {limit : Fin targets.length → α}
    (hlimit : ∀ q, limit q = Located.lastDistance targets[q].k (found q))
    {further : Fin targets.length → List (Fin n)} (hnodup : ∀ q, (further q).Nodup)
    (hfurther : ∀ q, further q = (Roster.near shares targets[q].target (limit q)).filter
      fun b => !(asked q).contains b) :
    requestsFrom (joint shares options i).secondRequests 0
        (targets.zip (((List.finRange targets.length).map fun q => (asked q).map Fin.val).zip
          (rowsOf found))) =
      .ok (nearestInquiry targets further hnodup limit).requests := by
  rw [rowsOf, List.zip_map', zip_map_finRange]
  refine requestsFrom_eq fun q => ?_
  have hdistance : lastDistance targets[q].k ((found q).map (Located.toAnswer q.val)) =
      limit q :=
    (lastDistance_map_toAnswer q.val (hk _ (List.getElem_mem q.isLt)) (found q)).trans
      (hlimit q).symm
  have hcontains : ∀ b : Fin n,
      ((asked q).map Fin.val).contains b.val = (asked q).contains b := by
    intro b
    rw [Bool.eq_iff_iff, List.contains_iff_mem, List.contains_iff_mem,
      List.mem_map_of_injective Fin.val_injective]
  rw [secondRequests, hdistance, Nat.zero_add]
  change ((Roster.joint shares).ranksNear targets[q].target (limit q)).map _ = _
  rw [ranksNear_joint shares]
  change Except.ok (((List.map Fin.val _).filter _).map _) = _
  rw [List.filter_map, List.map_map]
  simp only [Function.comp_def, hcontains]
  rw [← hfurther q]
  rfl

def nearestRows (shares : Fin n → Share α) (targets : List (NearestQuery α))
    (q : Fin targets.length) : List (Located α) :=
  Ranking.firsts Located.order targets[q].k (Located.all shares targets[q].target)

omit [LawfulScalar α] in
/-- The table of the first neighbors for each query. -/
theorem exists_nearestTable (shares : Fin n → Share α) (targets : List (NearestQuery α)) :
    ∃ table, tabulate targets.length (rowsOf (nearestRows shares targets)).flatten true =
      pure table ∧ NearestExact shares targets table := by
  obtain ⟨table, htable, hsize, hhits⟩ := tabulate_rowsOf (nearestRows shares targets)
  refine ⟨table, htable, hsize, fun q hq => ?_⟩
  have hlength := Located.length_all shares targets[q].target
  have hrow : nearestRows shares targets ⟨q, hq⟩ = Ranking.firsts Located.order targets[q].k
      (Located.all shares targets[q].target) := rfl
  rw [hhits ⟨q, hq⟩, hrow, ← Ranking.firsts_min (Nat.le_of_eq hlength)]
  rfl

/-- The rows of the refining method, by the ranks that each query asks first. -/
def refinedRows (shares : Fin n → Share α) (room : Nat) (targets : List (NearestQuery α))
    (asked : Fin targets.length → List (Fin n)) (q : Fin targets.length) : List (Located α) :=
  let first := Ranking.firsts Located.order targets[q].k
    (Located.foundBy shares room ⟨q, .nearest targets[q], Scalar.infinity⟩ (asked q))
  let limit := Located.lastDistance targets[q].k first
  Ranking.firsts Located.order targets[q].k (first ++
    Located.foundBy shares room ⟨q, .nearest targets[q], limit⟩
      ((Roster.near shares targets[q].target limit).filter fun b => !(asked q).contains b))

/-- Whatever the boxes, the refining method takes two rounds. -/
theorem passes_refine {targets : Fin n → List (NearestQuery α)}
    (hfits : RoundsFit shares options targets) (hk : ∀ i, ∀ t ∈ targets i, 0 < t.k)
    {asked : (i : Fin n) → Fin (targets i).length → List (Fin n)}
    (hnodup : ∀ i q, (asked i q).Nodup)
    (hasked : ∀ i, (joint shares options i).askedFirst (targets i) =
      .ok ((List.finRange (targets i).length).map fun q => (asked i q).map Fin.val))
    {tables : Fin n → HitTable α}
    (htables : ∀ i, tabulate (targets i).length (rowsOf (refinedRows shares
      options.neighborLimit (targets i) (asked i))).flatten true = pure (tables i)) :
    Passes (roundTags ++ roundTags) (fun i => ((joint shares options i).refine (targets i)).run)
      fun i => .ok (tables i) := by
  let room := options.neighborLimit
  let found : (i : Fin n) → Fin (targets i).length → List (Located α) := fun i q =>
    Ranking.firsts Located.order (targets i)[q].k
      (Located.foundBy shares room ⟨q, .nearest (targets i)[q], Scalar.infinity⟩ (asked i q))
  let limit : (i : Fin n) → Fin (targets i).length → α := fun i q =>
    Located.lastDistance (targets i)[q].k (found i q)
  let further : (i : Fin n) → Fin (targets i).length → List (Fin n) := fun i q =>
    (Roster.near shares (targets i)[q].target (limit i q)).filter fun b =>
      !(asked i q).contains b
  have hfurther : ∀ i q, (further i q).Nodup := fun i q =>
    ((Roster.nodup_worth shares).filter _).filter _
  have hsecond : ∀ i, requestsFrom (joint shares options i).secondRequests 0
      ((targets i).zip (((List.finRange (targets i).length).map fun q =>
        (asked i q).map Fin.val).zip (rowsOf (found i)))) =
        .ok (nearestInquiry (targets i) (further i) (hfurther i) (limit i)).requests :=
    fun i => secondRequests_eq i (hk i) (asked i) (found i) (fun _ => rfl) (hfurther i)
      fun _ => rfl
  simp only [refine, hasked, firstRequests_eq (hnodup _), Search.ofIndex_ok_bind]
  refine (passes_round hfits _ _).bind_bind ?_
  simp only [bestOfEach_rowsOf]
  change Passes _ (fun i => ExceptT.run (Search.ofIndex (requestsFrom
      (joint shares options i).secondRequests 0 ((targets i).zip
        (((List.finRange (targets i).length).map fun q => (asked i q).map Fin.val).zip
          (rowsOf (found i))))) >>= fun requests =>
    (joint shares options i).exchange requests >>= fun answers =>
      deal (targets i).length answers >>= fun more =>
        tabulate (targets i).length
          (bestOfEach (targets i) ((rowsOf (found i)).zipWith (· ++ ·) more)).flatten true)) _
  simp only [hsecond, Search.ofIndex_ok_bind]
  have hlast : Passes [] (fun i => ExceptT.run (tabulate (targets i).length
      (rowsOf (refinedRows shares room (targets i) (asked i))).flatten true))
        fun i => .ok (tables i) := by
    simp only [room, htables]
    exact Passes.done _
  refine (passes_round hfits _ _).bind_bind ?_
  simp only [append_rowsOf, bestOfEach_rowsOf]
  exact hlast

/-- The refining method ends with the tables of the first neighbors. -/
theorem together_refine_tables (options : SearchOptions) (hshares : ∀ b, (shares b).AllNumeric)
    {targets : Fin n → List (NearestQuery α)}
    (hk : ∀ i, ∀ t ∈ targets i, 0 < t.k ∧ t.k ≤ options.neighborLimit)
    (hfits : Fits shares fun i => (targets i).map .nearest) {tables : Fin n → HitTable α}
    (htables : ∀ i, tabulate (targets i).length
      (rowsOf (nearestRows shares (targets i))).flatten true = pure (tables i)) :
    Together (fun i => (joint shares options i).refine (targets i)) tables := by
  choose asked hnodup hasked using
    fun i => exists_askedFirst shares options i (targets i)
  have hrows : ∀ i, refinedRows shares options.neighborLimit (targets i) (asked i) =
      nearestRows shares (targets i) := by
    intro i
    funext q
    have hq : (targets i)[q].k ≤ options.neighborLimit :=
      (hk i _ (List.getElem_mem q.isLt)).2
    rw [refinedRows, Located.foundBy_eq hshares hq, Located.foundBy_eq hshares hq]
    exact Located.firsts_two_rounds hshares _ _ (asked i q) rfl rfl
  have hpasses := passes_refine (hfits.rounds hshares fun i t ht => (hk i t ht).2)
    (fun i t ht => (hk i t ht).1) hnodup hasked (by simpa only [hrows] using htables)
  exact hpasses.together

theorem together_refine (hshares : ∀ b, (shares b).AllNumeric)
    {targets : Fin n → List (NearestQuery α)}
    (hk : ∀ i, ∀ t ∈ targets i, 0 < t.k ∧ t.k ≤ options.neighborLimit)
    (hfits : Fits shares fun i => (targets i).map .nearest) :
    ∃ tables, Together (fun i => (joint shares options i).refine (targets i)) tables ∧
      ∀ i, NearestExact shares (targets i) (tables i) := by
  choose tables htables hexact using fun i => exists_nearestTable shares (targets i)
  exact ⟨tables, together_refine_tables options hshares hk hfits htables, hexact⟩

omit [LawfulScalar α] in
/-- There is room for the answers to each single query. -/
theorem sum_lt_room {targets : Fin n → List (NearestQuery α)}
    (hfits : Fits shares fun i => (targets i).map .nearest) (i : Fin n)
    (q : Fin (targets i).length) :
    ∑ b, min (targets i)[q].k (Entry.countNonEmpty (shares b).entries) < Count.room := by
  have hmem : Query.nearest (targets i)[q] ∈ (targets i).map .nearest :=
    List.mem_map_of_mem (List.getElem_mem q.isLt)
  have hle := List.le_sum_of_mem
    (List.mem_map_of_mem (f := fun query => ∑ b, query.mostHits (shares b)) hmem)
  exact Nat.lt_of_le_of_lt hle (hfits.2 i)

def enclosedRows (shares : Fin n → Share α) (room : Nat) (targets : List (NearestQuery α))
    (limit : Fin targets.length → α) (q : Fin targets.length) : List (Located α) :=
  Ranking.firsts Located.order targets[q].k
    (Located.foundBy shares room ⟨q, .nearest targets[q], limit q⟩
      (Roster.near shares targets[q].target (limit q)))

/-- Whatever the boxes, the enclosing method takes one round. -/
theorem passes_enclose {targets : Fin n → List (NearestQuery α)}
    (hfits : RoundsFit shares options targets)
    {limit : (i : Fin n) → Fin (targets i).length → α}
    (hlimits : ∀ i q, ((Roster.joint shares).coveringRadius (targets i)[q].target
      (targets i)[q].k).map (·.getD Scalar.infinity) = .ok (limit i q))
    {tables : Fin n → HitTable α}
    (htables : ∀ i, tabulate (targets i).length (rowsOf (enclosedRows shares
      options.neighborLimit (targets i) (limit i))).flatten true = pure (tables i)) :
    Passes roundTags (fun i => ((joint shares options i).enclose (targets i)).run)
      fun i => .ok (tables i) := by
  let asked : (i : Fin n) → Fin (targets i).length → List (Fin n) := fun i q =>
    Roster.near shares (targets i)[q].target (limit i q)
  have hasked : ∀ i q, (asked i q).Nodup := fun i q => (Roster.nodup_worth shares).filter _
  have hcovering : ∀ i, (joint shares options i).coveringLimits (targets i) =
      .ok ((List.finRange (targets i).length).map (limit i)) := fun i => mapM_eq_ok (hlimits i)
  have hrequests : ∀ i, requestsFrom (joint shares options i).coveringRequests 0
      ((targets i).zip ((List.finRange (targets i).length).map (limit i))) =
        .ok (nearestInquiry (targets i) (asked i) (hasked i) (limit i)).requests :=
    fun i => coveringRequests_eq i (limit i) (hasked i) fun _ => rfl
  simp only [enclose, hcovering, Search.ofCount_ok_bind, hrequests, Search.ofIndex_ok_bind]
  refine (passes_round hfits _ _).bind_bind ?_
  simp only [bestOfEach_rowsOf]
  change Passes _ (fun i => ExceptT.run (tabulate (targets i).length
    (rowsOf (enclosedRows shares options.neighborLimit (targets i) (limit i))).flatten true)) _
  simp only [htables]
  exact Passes.done _

/-- With limits that are as good as none the enclosing method ends with the tables of the rows
within them. -/
theorem together_enclose_tables (options : SearchOptions) (hshares : ∀ b, (shares b).AllNumeric)
    {targets : Fin n → List (NearestQuery α)}
    (hlimit : ∀ i, ∀ t ∈ targets i, t.k ≤ options.neighborLimit)
    (hfits : Fits shares fun i => (targets i).map .nearest)
    {limit : (i : Fin n) → Fin (targets i).length → α}
    (hlimits : ∀ i q, ((Roster.joint shares).coveringRadius (targets i)[q].target
      (targets i)[q].k).map (·.getD Scalar.infinity) = .ok (limit i q))
    {tables : Fin n → HitTable α}
    (htables : ∀ i, tabulate (targets i).length (rowsOf (enclosedRows shares
      options.neighborLimit (targets i) (limit i))).flatten true = pure (tables i)) :
    Together (fun i => (joint shares options i).enclose (targets i)) tables :=
  (passes_enclose (hfits.rounds hshares hlimit) hlimits htables).together

/-- Where all far corners have a distance, the limits of the enclosing method cover enough. -/
theorem exists_coveringLimits (hshares : ∀ b, (shares b).AllNumeric)
    {targets : Fin n → List (NearestQuery α)} {room : Nat}
    (hlimit : ∀ i, ∀ t ∈ targets i, t.k ≤ room)
    (htargets : ∀ i, ∀ t ∈ targets i, t.target.Numeric)
    (hreach : ∀ i, ∀ t ∈ targets i, ∀ b ∈ Roster.worth shares,
      (shares b).holdings.bounds.Reaches t.target)
    (hlocal : ∀ b, (shares b).entries.length < UInt64.size / 2)
    (hfits : Fits shares fun i => (targets i).map .nearest) :
    ∃ limit : (i : Fin n) → Fin (targets i).length → α,
      (∀ i q, ((Roster.joint shares).coveringRadius (targets i)[q].target
        (targets i)[q].k).map (·.getD Scalar.infinity) = .ok (limit i q)) ∧
      ∀ i, enclosedRows shares room (targets i) (limit i) = nearestRows shares (targets i) := by
  have hone : ∀ i, ∀ q : Fin (targets i).length, ∃ limit : α,
      ((Roster.joint shares).coveringRadius (targets i)[q].target (targets i)[q].k).map
        (·.getD Scalar.infinity) = .ok limit ∧
      enclosedRows shares room (targets i) (fun _ => limit) q =
        nearestRows shares (targets i) q := by
    intro i q
    have hmem : (targets i)[q] ∈ targets i := List.getElem_mem q.isLt
    obtain ⟨found, hfound, hcovers⟩ := Roster.coveringRadius_joint shares (htargets i _ hmem)
      (hreach i _ hmem) (targets i)[q].k hlocal (sum_lt_room hfits i q)
    refine ⟨found.getD Scalar.infinity, congrArg (Except.map _) hfound, ?_⟩
    rw [enclosedRows, Located.foundBy_eq hshares (hlimit i _ hmem)]
    refine Located.firsts_one_round hshares ?_
    cases found with
    | none => exact Or.inl rfl
    | some r =>
      exact Or.inr (Located.count_of_coveringRadius hshares (htargets i _ hmem)
        (hreach i _ hmem) (hcovers r rfl) [])
  choose limit hlimits hrows using hone
  exact ⟨limit, hlimits, fun i => funext (hrows i)⟩

theorem together_enclose (hregular : ∀ b, (shares b).AllRegular)
    {targets : Fin n → List (NearestQuery α)}
    (htargets : ∀ i, ∀ t ∈ targets i, t.target.Finite)
    (hlimit : ∀ i, ∀ t ∈ targets i, t.k ≤ options.neighborLimit)
    (hlocal : ∀ b, (shares b).entries.length < UInt64.size / 2)
    (hfits : Fits shares fun i => (targets i).map .nearest) :
    ∃ tables, Together (fun i => (joint shares options i).enclose (targets i)) tables ∧
      ∀ i, NearestExact shares (targets i) (tables i) := by
  have hshares : ∀ b, (shares b).AllNumeric := fun b => (hregular b).allNumeric
  obtain ⟨limit, hlimits, hrows⟩ := exists_coveringLimits hshares hlimit
    (fun i t ht => (htargets i t ht).numeric)
    (fun i t ht b hb => (Share.finite_bounds (hregular b) ((Roster.mem_worth shares).mp hb)).reaches
      (htargets i t ht)) hlocal hfits
  choose tables htables hexact using fun i => exists_nearestTable shares (targets i)
  refine ⟨tables, together_enclose_tables options hshares hlimit hfits hlimits fun i => ?_, hexact⟩
  rw [hrows]
  exact htables i

omit [LawfulScalar α] in
theorem valid_nearest {targets : List (NearestQuery α)}
    (hk : ∀ t ∈ targets, 0 < t.k ∧ t.k ≤ options.neighborLimit) :
    ∀ q ∈ targets.map .nearest, Batch.Valid options .nearest q := by
  intro q hq
  obtain ⟨t, ht, rfl⟩ := List.mem_map.mp hq
  obtain ⟨hpos, hle⟩ := hk t ht
  exact ⟨rfl, if_neg (Nat.ne_of_gt hpos), if_neg (Nat.not_lt.mpr hle)⟩

omit [Scalar α] [LawfulScalar α] in
theorem nearestQueries_map (targets : List (NearestQuery α)) :
    nearestQueries (targets.map .nearest) = targets := by
  rw [nearestQueries, List.filterMap_map]
  exact List.filterMap_some

omit [LawfulScalar α] in
theorem nearestExact_empty {targets : List (NearestQuery α)}
    (h : targets.map Query.nearest = []) :
    NearestExact shares targets (.empty 0 false) := by
  obtain rfl := List.map_eq_nil_iff.mp h
  exact ⟨rfl, fun q hq => nomatch hq⟩

/-- The refining method gives exact answers, whatever the order in which the ranks act. -/
theorem refined_queries_exact (hmethod : options.method = .refining)
    (hshares : ∀ b, (shares b).AllNumeric) {targets : Fin n → List (NearestQuery α)}
    (hk : ∀ i, ∀ t ∈ targets i, 0 < t.k ∧ t.k ≤ options.neighborLimit)
    (hfits : Fits shares fun i => (targets i).map .nearest) :
    Group.AlwaysEnds (Answered fun i => NearestExact shares (targets i))
      (session shares options fun i => (targets i).map .nearest) := by
  have hbody : ∃ tables, Together (fun i => (joint shares options i).answerKind
      ((targets i).map .nearest) .nearest) tables ∧
        ∀ i, NearestExact shares (targets i) (tables i) := by
    simp only [answerKind, joint, hmethod, nearestQueries_map]
    exact together_refine hshares hk hfits
  obtain ⟨tables, htables, hexact⟩ := together_query shares (fun i => valid_nearest (hk i))
    (fun hnil i => nearestExact_empty (hnil i)) hbody
  exact alwaysEnds_session htables hexact

def nearOrigin (_ : Fin 2) : List (NearestQuery Binary64) := [⟨.origin, 3⟩]

theorem refined_queries_exact_nearOrigin :
    Group.AlwaysEnds (Answered fun i => NearestExact twoRanks (nearOrigin i))
      (session twoRanks {} fun i => (nearOrigin i).map .nearest) := by
  have hshares : ∀ b, (twoRanks b).AllNumeric := by decide
  have hk : ∀ i, ∀ t ∈ nearOrigin i, 0 < t.k ∧ t.k ≤ 256 := by decide
  have hfits : Fits twoRanks fun i => (nearOrigin i).map .nearest := ⟨by decide, by decide⟩
  exact refined_queries_exact rfl hshares hk hfits

/-- The enclosing method gives exact answers for finite boxes and targets. -/
theorem enclosed_queries_exact (hmethod : options.method = .enclosing)
    (hregular : ∀ b, (shares b).AllRegular) {targets : Fin n → List (NearestQuery α)}
    (htargets : ∀ i, ∀ t ∈ targets i, t.target.Finite)
    (hk : ∀ i, ∀ t ∈ targets i, 0 < t.k ∧ t.k ≤ options.neighborLimit)
    (hlocal : ∀ b, (shares b).entries.length < UInt64.size / 2)
    (hfits : Fits shares fun i => (targets i).map .nearest) :
    Group.AlwaysEnds (Answered fun i => NearestExact shares (targets i))
      (session shares options fun i => (targets i).map .nearest) := by
  have hbody : ∃ tables, Together (fun i => (joint shares options i).answerKind
      ((targets i).map .nearest) .nearest) tables ∧
        ∀ i, NearestExact shares (targets i) (tables i) := by
    simp only [answerKind, joint, hmethod, nearestQueries_map]
    exact together_enclose hregular htargets (fun i t ht => (hk i t ht).2) hlocal hfits
  obtain ⟨tables, htables, hexact⟩ := together_query shares (fun i => valid_nearest (hk i))
    (fun hnil i => nearestExact_empty (hnil i)) hbody
  exact alwaysEnds_session htables hexact

theorem enclosed_queries_exact_nearOrigin :
    Group.AlwaysEnds (Answered fun i => NearestExact twoRanks (nearOrigin i))
      (session twoRanks { method := .enclosing } fun i => (nearOrigin i).map .nearest) := by
  have hregular : ∀ b, (twoRanks b).AllRegular := by decide
  have htargets : ∀ i, ∀ t ∈ nearOrigin i, t.target.Finite := by decide
  have hk : ∀ i, ∀ t ∈ nearOrigin i, 0 < t.k ∧ t.k ≤ 256 := by decide
  have hlocal : ∀ b, (twoRanks b).entries.length < UInt64.size / 2 := by decide
  have hfits : Fits twoRanks fun i => (nearOrigin i).map .nearest := ⟨by decide, by decide⟩
  exact enclosed_queries_exact rfl hregular htargets hk hlocal hfits

end PartitionedIndex

end SpatialSearch
