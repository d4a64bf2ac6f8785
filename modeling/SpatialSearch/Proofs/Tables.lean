import Mathlib.Algebra.Ring.Nat
import Mathlib.Data.List.Basic
import SpatialSearch.HitTable

/-!
# Rows of hit tables

A table that is made of hits in the order of their queries has a row for each query, and
the row holds the hits of that query in the order in which they came. `WellFormed` is the
shape of its columns, from which alone it follows that all rows can be read.
-/

namespace SpatialSearch

namespace HitTable

variable {α : Type}

theorem inOrder_of_pairwise {queries first : Nat} {hits : List (Nat × Hit α)}
    (hsorted : hits.Pairwise (·.1 ≤ ·.1)) (hlt : ∀ h ∈ hits, h.1 < queries)
    (hfirst : ∀ h ∈ hits, first ≤ h.1) : inOrder queries first hits = true := by
  induction hits generalizing first with
  | nil => rfl
  | cons hit rest ih =>
    obtain ⟨hle, hsorted⟩ := List.pairwise_cons.mp hsorted
    have hrest := ih hsorted (fun h hh => hlt h (List.mem_cons_of_mem _ hh)) hle
    simp [inOrder, hrest, hlt hit, hfirst hit]

/-- A list in order is cut in two by a test that those before a passing one pass as well. -/
theorem filter_append_filter_not {β : Type} {p : β → Bool} {l : List β}
    (h : l.Pairwise fun a b => p b → p a) : l.filter p ++ l.filter (fun a => !p a) = l := by
  induction l with
  | nil => rfl
  | cons a rest ih =>
    obtain ⟨ha, hrest⟩ := List.pairwise_cons.mp h
    by_cases hpa : p a
    · rw [List.filter_cons_of_pos hpa, List.filter_cons_of_neg (by simp [hpa]),
        List.cons_append, ih hrest]
    · have hnone : rest.filter p = [] :=
        List.filter_eq_nil_iff.mpr fun b hb hpb => hpa (ha b hb hpb)
      have hall : rest.filter (fun a => !p a) = rest := by
        have := ih hrest
        rwa [hnone, List.nil_append] at this
      rw [List.filter_cons_of_neg hpa, List.filter_cons_of_pos (by simp [hpa]), hnone, hall,
        List.nil_append]

theorem getElem?_runningSums {start q : Nat} {counts : List Nat} (h : q ≤ counts.length) :
    (runningSums start counts)[q]? = some (start + (counts.take q).sum) := by
  induction counts generalizing start q with
  | nil =>
    obtain rfl : q = 0 := by simpa using h
    rfl
  | cons c rest ih =>
    cases q with
    | zero => simp [runningSums]
    | succ q =>
      rw [runningSums, List.getElem?_cons_succ, ih (Nat.le_of_succ_le_succ h), List.take_succ_cons,
        List.sum_cons, Nat.add_assoc]

theorem length_runningSums (start : Nat) (counts : List Nat) :
    (runningSums start counts).length = counts.length + 1 := by
  induction counts generalizing start with
  | nil => rfl
  | cons c rest ih => rw [runningSums, List.length_cons, ih, List.length_cons]

theorem le_of_mem_runningSums {start sum : Nat} {counts : List Nat}
    (h : sum ∈ runningSums start counts) : start ≤ sum := by
  induction counts generalizing start with
  | nil => exact Nat.le_of_eq (List.mem_singleton.mp h).symm
  | cons c rest ih =>
    rcases List.mem_cons.mp h with rfl | h
    · exact Nat.le_refl _
    · exact Nat.le_trans (Nat.le_add_right start c) (ih h)

theorem pairwise_runningSums (start : Nat) (counts : List Nat) :
    (runningSums start counts).Pairwise (· ≤ ·) := by
  induction counts generalizing start with
  | nil => exact List.pairwise_singleton _ start
  | cons c rest ih =>
    refine List.pairwise_cons.mpr ⟨fun sum hsum => ?_, ih (start + c)⟩
    exact Nat.le_trans (Nat.le_add_right start c) (le_of_mem_runningSums hsum)

theorem countP_lt_succ (hits : List (Nat × Hit α)) (q : Nat) :
    hits.countP (·.1 < q + 1) = hits.countP (·.1 < q) + hits.countP (·.1 == q) := by
  induction hits with
  | nil => rfl
  | cons hit rest ih => grind

/-- How many hits come before those of a query. -/
theorem sum_counts (hits : List (Nat × Hit α)) (q : Nat) :
    ((List.range q).map fun j => hits.countP (·.1 == j)).sum = hits.countP (·.1 < q) := by
  induction q with
  | zero => simp
  | succ q ih =>
    rw [List.range_succ, List.map_append, List.sum_append, ih, countP_lt_succ]
    rfl

/-- The shape of a table with a row for each of so many queries: the offsets ascend from zero to
the number of hits, and all columns are of this length. -/
structure WellFormed (t : HitTable α) (queries : Nat) : Prop where
  length_offsets : t.offsets.length = queries + 1
  starts : t.offsets.head? = some 0
  ascends : t.offsets.Pairwise (· ≤ ·)
  ends : t.offsets.getLast? = some t.indices.length
  length_ranks : t.ranks.length = t.indices.length
  length_distances : ∀ distances, t.distances = some distances →
    distances.length = t.indices.length

namespace WellFormed

variable {t : HitTable α} {queries : Nat}

theorem exists_hitAt (h : t.WellFormed queries) {i : Nat} (hi : i < t.indices.length) :
    ∃ hit, t.hitAt? i = some hit := by
  have hrank : i < t.ranks.length := h.length_ranks ▸ hi
  rw [hitAt?, List.getElem?_eq_getElem hi, List.getElem?_eq_getElem hrank]
  cases hdistances : t.distances with
  | none => exact ⟨_, rfl⟩
  | some distances =>
    have hdistance : i < distances.length := h.length_distances _ hdistances ▸ hi
    simp [List.getElem?_eq_getElem hdistance]

theorem exists_hitsFrom (h : t.WellFormed queries) (start count : Nat)
    (hfits : start + count ≤ t.indices.length) : ∃ row, t.hitsFrom? start count = some row := by
  induction count generalizing start with
  | zero => exact ⟨[], rfl⟩
  | succ count ih =>
    obtain ⟨hit, hhit⟩ := h.exists_hitAt (show start < _ by omega)
    obtain ⟨rest, hrest⟩ := ih (start + 1) (by omega)
    exact ⟨hit :: rest, by rw [hitsFrom?, hhit, hrest]; rfl⟩

/-- Every row of a table of this shape can be read. -/
theorem exists_hits (h : t.WellFormed queries) {q : Nat} (hq : q < queries) :
    ∃ row, t.hits? q = some row := by
  have hstop : q + 1 < t.offsets.length := by
    rw [h.length_offsets]
    omega
  have hstart : q < t.offsets.length := by omega
  have horder : t.offsets[q] ≤ t.offsets[q + 1] :=
    List.pairwise_iff_getElem.mp h.ascends q (q + 1) hstart hstop (Nat.lt_succ_self q)
  have hlast : t.offsets[q + 1] ≤ t.indices.length := by
    have hends := h.ends
    rw [List.getLast?_eq_getElem?, List.getElem?_eq_some_iff] at hends
    obtain ⟨hlt, hends⟩ := hends
    rw [← hends]
    rcases Nat.lt_or_ge (q + 1) (t.offsets.length - 1) with hbefore | hafter
    · exact List.pairwise_iff_getElem.mp h.ascends _ _ hstop hlt hbefore
    · have heq : q + 1 = t.offsets.length - 1 := by omega
      simp only [heq, Nat.le_refl]
  obtain ⟨row, hrow⟩ :=
    h.exists_hitsFrom t.offsets[q] (t.offsets[q + 1] - t.offsets[q]) (by omega)
  refine ⟨row, ?_⟩
  rw [hits?, row?, List.getElem?_eq_getElem hstart, List.getElem?_eq_getElem hstop]
  exact hrow

end WellFormed

theorem wellFormed_empty (queries : Nat) (measured : Bool) :
    (empty queries measured : HitTable α).WellFormed queries where
  length_offsets := List.length_replicate
  starts := rfl
  ascends := List.pairwise_replicate.mpr (Or.inr (Nat.le_refl 0))
  ends := by
    rw [empty, List.getLast?_replicate]
    rfl
  length_ranks := rfl
  length_distances distances h := by
    cases measured with
    | false => cases h
    | true =>
      cases h
      rfl

variable [Scalar α]

def shown (measured : Bool) (h : Hit α) : Hit α :=
  ⟨h.index, h.rank, if measured then some (h.distance.getD Scalar.infinity) else none⟩

variable {queries : Nat} {hits : List (Nat × Hit α)} {measured : Bool}

theorem hitAt?_ofHits (i : Nat) :
    (ofHits queries hits measured).hitAt? i = hits[i]?.map fun h => shown measured h.2 := by
  cases hi : hits[i]? with
  | none => simp [hitAt?, ofHits, hi]
  | some h => cases measured <;> simp [hitAt?, ofHits, hi, shown]

variable (queries measured) in
theorem hitsFrom?_ofHits {before row after : List (Nat × Hit α)}
    (hhits : hits = before ++ (row ++ after)) :
    (ofHits queries hits measured).hitsFrom? before.length row.length =
      some (row.map fun h => shown measured h.2) := by
  induction row generalizing before with
  | nil => rfl
  | cons hit row ih =>
    have hnext := ih (show hits = before ++ [hit] ++ (row ++ after) by simpa using hhits)
    rw [List.length_append, List.length_singleton] at hnext
    have hhit : hits[before.length]? = some hit := by simp [hhits]
    rw [List.length_cons, hitsFrom?, hitAt?_ofHits, hhit, hnext]
    rfl

/-- A row starts behind the hits of all queries before it. -/
theorem getElem?_offsets_ofHits {j : Nat} (hj : j ≤ queries) :
    (ofHits queries hits measured).offsets[j]? = some (hits.countP (·.1 < j)) := by
  rw [ofHits, getElem?_runningSums (by simpa using hj), Nat.zero_add, ← List.map_take,
    List.take_range, Nat.min_eq_left hj, sum_counts]

theorem length_offsets_ofHits : (ofHits queries hits measured).offsets.length = queries + 1 := by
  rw [ofHits, length_runningSums, List.length_map, List.length_range]

/-- A table of hits of its queries is of the right shape. -/
theorem wellFormed_ofHits (hlt : ∀ h ∈ hits, h.1 < queries) :
    (ofHits queries hits measured).WellFormed queries where
  length_offsets := length_offsets_ofHits
  starts := by
    rw [List.head?_eq_getElem?, getElem?_offsets_ofHits (Nat.zero_le queries)]
    simp
  ascends := pairwise_runningSums 0 _
  ends := by
    rw [List.getLast?_eq_getElem?, length_offsets_ofHits, Nat.add_sub_cancel,
      getElem?_offsets_ofHits (Nat.le_refl queries), ofHits, List.length_map]
    refine congrArg some (List.countP_eq_length.mpr fun h hh => ?_)
    exact decide_eq_true (hlt h hh)
  length_ranks := by simp [ofHits]
  length_distances distances h := by
    cases measured with
    | false => cases h
    | true =>
      cases h
      simp [ofHits]

/-- The row of a query holds its hits. -/
theorem hits?_ofHits (hsorted : hits.Pairwise (·.1 ≤ ·.1)) {q : Nat} (hq : q < queries) :
    (ofHits queries hits measured).hits? q =
      some ((hits.filter (·.1 == q)).map fun h => shown measured h.2) := by
  have hbefore : hits.filter (·.1 < q) ++ hits.filter (fun h => !decide (h.1 < q)) = hits :=
    filter_append_filter_not (hsorted.imp fun hab hb => by
      simp only [decide_eq_true_eq] at hb ⊢
      omega)
  have hafter := filter_append_filter_not (p := fun h : Nat × Hit α => h.1 == q)
    (l := hits.filter fun h => !decide (h.1 < q)) <|
      List.Pairwise.imp_of_mem (fun {a b} ha hb hab hbq => by
        have := (List.mem_filter.mp ha).2
        simp only [beq_iff_eq, Bool.not_eq_true', decide_eq_false_iff_not] at hbq this ⊢
        omega) (hsorted.sublist List.filter_sublist)
  have hrow : (hits.filter fun h => !decide (h.1 < q)).filter (·.1 == q) =
      hits.filter (·.1 == q) := by
    rw [List.filter_filter]
    refine List.filter_congr fun h _ => ?_
    grind
  rw [hrow] at hafter
  rw [← hafter] at hbefore
  have hcount : hits.countP (·.1 < q + 1) - hits.countP (·.1 < q) =
      (hits.filter (·.1 == q)).length := by
    rw [countP_lt_succ, Nat.add_sub_cancel_left, List.countP_eq_length_filter]
  have hrows := hitsFrom?_ofHits queries measured hbefore.symm
  rw [← List.countP_eq_length_filter, ← hcount] at hrows
  rw [hits?, row?, getElem?_offsets_ofHits (Nat.le_of_lt hq), getElem?_offsets_ofHits hq]
  exact hrows

theorem size_ofHits : (ofHits queries hits measured).size = queries := by
  rw [size, length_offsets_ofHits, Nat.add_sub_cancel]

end HitTable

end SpatialSearch
