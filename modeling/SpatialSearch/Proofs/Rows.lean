import SpatialSearch.PartitionedIndex.Basic
import SpatialSearch.Proofs.Tables
import SpatialSearch.Scalar.Binary64

/-!
# Rows put together in one pass

A table can be put together in one pass over its hits: each one is counted for its query and
appended to the columns, and in the end the counts are added up to offsets. `assemble` is that
pass. It gives the table of the hits exactly if they are in the order of their queries, and gives
up otherwise. Such a table loses nothing: the row of a query holds its hits, and all rows in a
line are the hits that went in, whichever queries have none.
-/

namespace SpatialSearch

namespace HitTable

variable {α : Type} [Scalar α]

/-- What a pass over hits has counted and collected. -/
structure Tally (α : Type) where
  counts : List Nat
  last : Nat
  indices : List Nat
  ranks : List Nat
  distances : Option (List α)

def Tally.start (queries : Nat) (measured : Bool) : Tally α :=
  ⟨List.replicate queries 0, 0, [], [], if measured then some [] else none⟩

/-- Count and append a hit. It has to be of one of the queries, and of none before the last. -/
def Tally.add (t : Tally α) (item : Nat × Hit α) : Except Abort (Tally α) :=
  if item.1 < t.counts.length ∧ t.last ≤ item.1 then
    .ok {
      counts := t.counts.modify item.1 (· + 1)
      last := item.1
      indices := t.indices ++ [item.2.index]
      ranks := t.ranks ++ [item.2.rank]
      distances := t.distances.map (· ++ [item.2.distance.getD Scalar.infinity]) }
  else .error .outOfOrder

/-- Set the offset behind each query to the one before it and the count of the query. -/
def fillOffsets (offsets : List Nat) (query : Nat) : (counts : List Nat) → List Nat
  | [] => offsets
  | c :: counts =>
    fillOffsets (offsets.set (query + 1) (offsets.getD query 0 + c)) (query + 1) counts

def Tally.table (t : Tally α) : HitTable α where
  offsets := fillOffsets (List.replicate (t.counts.length + 1) 0) 0 t.counts
  indices := t.indices
  ranks := t.ranks
  distances := t.distances

/-- Put a table together in one pass over its hits. -/
def assemble (queries : Nat) (hits : List (Nat × Hit α)) (measured : Bool) :
    Except Abort (HitTable α) :=
  (hits.foldlM Tally.add (Tally.start queries measured)).map Tally.table

def hitsOf {α : Type} (hits : List (Nat × Hit α)) (q : Nat) : List (Hit α) :=
  (hits.filter (·.1 == q)).map (·.2)

/-- The hits of all queries in a line, row by row, each with its query. -/
def unroll {α : Type} (t : HitTable α) : List (Nat × Hit α) :=
  (List.range t.size).flatMap fun q => ((t.hits? q).getD []).map fun h => (q, h)

/-! ### The pass -/

theorem fillOffsets_eq (before : List Nat) (sum : Nat) (counts : List Nat) :
    fillOffsets (before ++ sum :: List.replicate counts.length 0) before.length counts =
      before ++ runningSums sum counts := by
  induction counts generalizing before sum with
  | nil => rfl
  | cons c rest ih =>
    have hnext := ih (before ++ [sum]) (sum + c)
    rw [List.length_append, List.length_singleton, List.append_assoc, List.singleton_append,
      List.append_assoc, List.singleton_append] at hnext
    rw [fillOffsets, runningSums, ← hnext]
    congr 1
    simp [List.replicate_succ]

def lastQuery (hits : List (Nat × Hit α)) : Nat := hits.getLast?.elim 0 (·.1)

def Tally.ofHits (queries : Nat) (hits : List (Nat × Hit α)) (measured : Bool) : Tally α where
  counts := (List.range queries).map fun q => hits.countP (·.1 == q)
  last := lastQuery hits
  indices := hits.map (·.2.index)
  ranks := hits.map (·.2.rank)
  distances :=
    if measured then some (hits.map fun h => h.2.distance.getD Scalar.infinity)
    else none

variable (queries : Nat) (measured : Bool)

theorem Tally.start_eq :
    (Tally.start queries measured : Tally α) = .ofHits queries [] measured := by
  simp [Tally.start, Tally.ofHits, lastQuery]

theorem Tally.table_ofHits (hits : List (Nat × Hit α)) :
    (Tally.ofHits queries hits measured).table = .ofHits queries hits measured := by
  have hfill := fillOffsets_eq [] 0 (Tally.ofHits queries hits measured).counts
  rw [List.nil_append, List.nil_append, List.length_nil, ← List.replicate_succ] at hfill
  rw [Tally.table, hfill]
  rfl

omit [Scalar α] in
theorem counts_concat (seen : List (Nat × Hit α)) (h : Nat × Hit α) :
    ((List.range queries).map fun q => seen.countP (·.1 == q)).modify h.1 (· + 1) =
      (List.range queries).map fun q => (seen ++ [h]).countP (·.1 == q) := by
  refine List.ext_getElem (by simp) fun q hq _ => ?_
  rw [List.getElem_modify, List.getElem_map, List.getElem_map, List.getElem_range,
    List.countP_append, List.countP_singleton]
  by_cases hquery : h.1 = q
  · rw [if_pos hquery, if_pos (beq_iff_eq.mpr hquery)]
  · rw [if_neg hquery, if_neg (beq_iff_eq.not.mpr hquery), Nat.add_zero]

/-- One more hit is taken exactly if the hits with it are still in order. -/
theorem Tally.add_ofHits (seen : List (Nat × Hit α)) (h : Nat × Hit α) :
    (Tally.ofHits queries seen measured).add h =
      if h.1 < queries ∧ lastQuery seen ≤ h.1 then .ok (.ofHits queries (seen ++ [h]) measured)
      else .error .outOfOrder := by
  have hlength : (Tally.ofHits queries seen measured).counts.length = queries := by
    simp [Tally.ofHits]
  have hcounts := counts_concat queries seen h
  rw [Tally.add, hlength]
  congr 2
  cases measured <;> simp [Tally.ofHits, hcounts, lastQuery]

/-- The pass over the rest of the hits takes them exactly if they go on in order. -/
theorem Tally.foldlM_add (seen hits : List (Nat × Hit α)) :
    hits.foldlM Tally.add (Tally.ofHits queries seen measured) =
      if inOrder queries (lastQuery seen) hits then .ok (.ofHits queries (seen ++ hits) measured)
      else .error .outOfOrder := by
  induction hits generalizing seen with
  | nil =>
    rw [List.append_nil]
    rfl
  | cons h rest ih =>
    have hlast : lastQuery (seen ++ [h]) = h.1 := by simp [lastQuery]
    rw [List.foldlM_cons, Tally.add_ofHits, inOrder]
    by_cases hnext : h.1 < queries ∧ lastQuery seen ≤ h.1
    · have hrest := ih (seen ++ [h])
      rw [hlast, List.append_assoc, List.singleton_append] at hrest
      rw [if_pos hnext]
      simp only [hnext, decide_true, Bool.true_and]
      exact hrest
    · rw [if_neg hnext, if_neg]
      · rfl
      · simp only [Bool.and_eq_true, decide_eq_true_eq]
        exact fun hall => hnext hall.1

/-- The pass gives the table of the hits, or gives up if they are not in order. -/
theorem assemble_eq (hits : List (Nat × Hit α)) :
    assemble queries hits measured =
      if inOrder queries 0 hits then .ok (.ofHits queries hits measured)
      else .error .outOfOrder := by
  have hpass := Tally.foldlM_add queries measured [] hits
  rw [← Tally.start_eq, List.nil_append] at hpass
  rw [assemble, hpass]
  change Except.map Tally.table (if inOrder queries 0 hits then _ else _) = _
  split
  · exact congrArg Except.ok (Tally.table_ofHits queries measured hits)
  · rfl

/-! ### The rows -/

section

variable {queries : Nat} {measured : Bool} {hits : List (Nat × Hit α)}

omit [Scalar α] in
/-- Hits in order of their queries are those of the first query, then those of the second, and
so on. -/
theorem flatMap_range_filter (hsorted : hits.Pairwise (·.1 ≤ ·.1)) (n : Nat) :
    ((List.range n).flatMap fun q => hits.filter (·.1 == q)) = hits.filter (·.1 < n) := by
  induction n with
  | zero => simp
  | succ n ih =>
    have hcut := filter_append_filter_not (p := fun h : Nat × Hit α => decide (h.1 < n))
      ((hsorted.sublist List.filter_sublist : (hits.filter (·.1 < n + 1)).Pairwise _).imp
        fun hab hb => by
          simp only [decide_eq_true_eq] at hb ⊢
          omega)
    have hlow : (hits.filter (·.1 < n + 1)).filter (·.1 < n) = hits.filter (·.1 < n) := by
      rw [List.filter_filter]
      refine List.filter_congr fun h _ => ?_
      grind
    have hnew : (hits.filter (·.1 < n + 1)).filter (fun h => !decide (h.1 < n)) =
        hits.filter (·.1 == n) := by
      rw [List.filter_filter]
      refine List.filter_congr fun h _ => ?_
      grind
    rw [List.range_succ, List.flatMap_append, ih, List.flatMap_singleton, ← hcut, hlow, hnew]

theorem shown_eq {h : Hit α} (hmeasured : h.distance.isSome = measured) : shown measured h = h := by
  obtain ⟨index, rank, distance⟩ := h
  subst hmeasured
  cases distance <;> rfl

omit [Scalar α] in
theorem map_hitsOf (hits : List (Nat × Hit α)) (q : Nat) :
    ((hitsOf hits q).map fun h => (q, h)) = hits.filter (·.1 == q) := by
  rw [hitsOf, List.map_map]
  refine (List.map_congr_left fun h hh => ?_).trans (List.map_id _)
  have hquery : h.1 = q := beq_iff_eq.mp (List.mem_filter.mp hh).2
  rw [Function.comp_apply, ← hquery]
  rfl

omit [Scalar α] in
theorem map_unroll (t : HitTable α) : t.unroll.map (·.2) =
    (List.range t.size).flatMap fun q => (t.hits? q).getD [] := by
  rw [unroll, List.map_flatMap]
  refine List.flatMap_congr fun q _ => ?_
  rw [List.map_map]
  exact List.map_id _

theorem hits?_ofHits_of_measured (hsorted : hits.Pairwise (·.1 ≤ ·.1))
    (hmeasured : ∀ h ∈ hits, h.2.distance.isSome = measured) {q : Nat} (hq : q < queries) :
    (ofHits queries hits measured).hits? q = some (hitsOf hits q) := by
  rw [hits?_ofHits hsorted hq]
  refine congrArg some (List.map_congr_left fun h hh => ?_)
  exact shown_eq (hmeasured h (List.mem_of_mem_filter hh))

theorem unroll_ofHits (hsorted : hits.Pairwise (·.1 ≤ ·.1)) (hlt : ∀ h ∈ hits, h.1 < queries)
    (hmeasured : ∀ h ∈ hits, h.2.distance.isSome = measured) :
    (ofHits queries hits measured).unroll = hits := by
  have hrow : ∀ q ∈ List.range queries,
      (((ofHits queries hits measured).hits? q).getD []).map (fun h => (q, h)) =
        hits.filter (·.1 == q) := by
    intro q hq
    rw [hits?_ofHits_of_measured hsorted hmeasured (List.mem_range.mp hq), Option.getD_some,
      map_hitsOf]
  rw [unroll, size_ofHits, List.flatMap_congr hrow, flatMap_range_filter hsorted]
  exact List.filter_eq_self.mpr fun h hh => decide_eq_true (hlt h hh)

/-- Hits in the order of their queries go into a table in one pass, and nothing is lost: every
query gets its hits back in their order, also where others have none, and the rows in a line are
all the hits. -/
theorem assembly_lossless (hsorted : hits.Pairwise (·.1 ≤ ·.1)) (hlt : ∀ h ∈ hits, h.1 < queries)
    (hmeasured : ∀ h ∈ hits, h.2.distance.isSome = measured) :
    ∃ table, assemble queries hits measured = .ok table ∧
      ofHits queries hits measured = table ∧ table.size = queries ∧
      (∀ q < queries, table.hits? q = some (hitsOf hits q)) ∧
      ((List.range queries).flatMap fun q => (table.hits? q).getD []) = hits.map (·.2) ∧
      table.unroll = hits := by
  have horder : inOrder queries 0 hits = true :=
    inOrder_of_pairwise hsorted hlt fun h _ => Nat.zero_le h.1
  have hunroll := unroll_ofHits hsorted hlt hmeasured
  refine ⟨_, ?_, rfl, size_ofHits, fun q hq => hits?_ofHits_of_measured hsorted hmeasured hq, ?_,
    hunroll⟩
  · rw [assemble_eq, if_pos horder]
  · have hline := map_unroll (ofHits queries hits measured)
    rw [hunroll, size_ofHits] at hline
    exact hline.symm

end

def sparseHits : List (Nat × Hit Binary64) :=
  [(1, ⟨7, 0, some .half⟩), (1, ⟨7, 2, some .half⟩), (3, ⟨0, 1, some .infinity⟩)]

theorem assembly_lossless_sparse :
    sparseHits.Pairwise (·.1 ≤ ·.1) ∧ (∀ h ∈ sparseHits, h.1 < 5) ∧
      (∀ h ∈ sparseHits, h.2.distance.isSome = true) ∧
      ∃ table, assemble 5 sparseHits true = .ok table ∧
        ofHits 5 sparseHits true = table ∧ table.size = 5 ∧
        (∀ q < 5, table.hits? q = some (hitsOf sparseHits q)) ∧
        ((List.range 5).flatMap fun q => (table.hits? q).getD []) = sparseHits.map (·.2) ∧
        table.unroll = sparseHits := by
  have hsorted : sparseHits.Pairwise (·.1 ≤ ·.1) := by decide
  have hlt : ∀ h ∈ sparseHits, h.1 < 5 := by decide
  have hmeasured : ∀ h ∈ sparseHits, h.2.distance.isSome = true := by decide
  exact ⟨hsorted, hlt, hmeasured, assembly_lossless hsorted hlt hmeasured⟩

end HitTable

namespace PartitionedIndex

variable {α : Type} [Scalar α]

/-- The table of a batch is made by such a pass over its answers. -/
theorem tabulate_eq_assemble (queries : Nat) (answers : List (Answer α)) (measured : Bool) :
    let hits := answers.map fun a =>
      (a.number, (⟨a.index, a.rank, if measured then some a.distance else none⟩ : Hit α))
    tabulate queries answers measured =
      match HitTable.assemble queries hits measured with
      | .ok table => pure table
      | .error cause => Search.abort cause := by
  intro hits
  rw [HitTable.assemble_eq]
  change (if HitTable.inOrder queries 0 hits then _ else _) = _
  cases HitTable.inOrder queries 0 hits <;> rfl

end PartitionedIndex

end SpatialSearch
