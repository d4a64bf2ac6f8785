import Mathlib.Data.Nat.Log
import SpatialSearch.Proofs.ExactCounts
import SpatialSearch.Proofs.Splits

/-!
# Even splits

Where no division is cheaper than one that is more balanced, a split halves its entries. A tree
all of whose splits do so has the least depth that a binary tree of its entries can have. So it
is with many copies of one point, whose divisions all cost nothing, and with points in a row at
equal distances, where the cost grows with the imbalance as long as it is computed exactly.
-/

namespace SpatialSearch

namespace Split

section Balance

variable {α : Type} [Scalar α] [CongruentScalar α] {entries sorted : List (Entry α)}

/-- Some entries under distinct indices have no division that is cheaper than a more balanced
one. -/
structure FavorsBalance (entries : List (Entry α)) : Prop where
  nodup : (entries.map (·.index)).Nodup
  cost_le : ∀ p q : Division entries, p.imbalance ≤ q.imbalance → p.cost ≤ q.cost

omit [CongruentScalar α] in
theorem exists_even_division [LawfulScalar α] (h : 2 ≤ entries.length) :
    ∃ p : Division entries, p.imbalance ≤ 1 := by
  refine ⟨⟨.x, orderedAlong .x entries, arranged_orderedAlong .x entries, entries.length / 2,
    by omega, by omega⟩, ?_⟩
  simp only [Division.imbalance]
  omega

/-- The best division is even. -/
theorem FavorsBalance.length_left (hf : FavorsBalance entries) (h : 2 ≤ entries.length) :
    entries.length / 2 ≤ (ofEntries entries).left.length ∧
      (ofEntries entries).left.length ≤ (entries.length + 1) / 2 := by
  have hnum : ∀ p : Division entries, Scalar.isNaN p.cost = false := fun p =>
    (LawfulScalar.isNaN_of_le (hf.cost_le p p le_rfl)).1
  obtain ⟨best, hchoose, hbest⟩ := exists_best h hf.nodup hnum
  obtain ⟨even, heven⟩ := exists_even_division h
  have himbalance : best.imbalance ≤ even.imbalance := by
    rcases hbest even with hlt | ⟨-, hlt | ⟨heq, -⟩⟩
    · by_contra hmore
      exact Scalar.not_le_of_lt hlt (hf.cost_le even best (Nat.le_of_not_le hmore))
    · exact hlt.le
    · exact heq.le
  rw [Split.length_left h, hchoose]
  simp only [Division.imbalance] at himbalance heven
  omega

/-- A split divides the one list that is in order along every axis. -/
theorem exists_ofEntries_eq (h : 2 ≤ entries.length) (hindex : (entries.map (·.index)).Nodup)
    (hsorted : ∀ d, Arranged d entries sorted) :
    ∃ k < entries.length, ofEntries entries = ⟨sorted.take k, sorted.drop k⟩ := by
  have hfinal : orderedAlong (choose entries).1 (alongZ entries) = sorted :=
    (arranged_final _ entries).eq hindex (hsorted _)
  exact ⟨(choose entries).2, (choose_bounds h).2, hfinal ▸ rfl⟩

/-- A property of lists of entries that favor balance, which both sides of a split keep. -/
structure SplitsEvenly (P : List (Entry α) → Prop) : Prop where
  favors : ∀ {entries}, P entries → FavorsBalance entries
  sides : ∀ {entries}, P entries → 2 ≤ entries.length →
    P (ofEntries entries).left ∧ P (ofEntries entries).right

end Balance

end Split

namespace BoxNode

variable {α : Type} [Scalar α] [CongruentScalar α]

/-- With every split the number of entries is halved. -/
theorem depth_build {P : List (Entry α) → Prop} (hP : Split.SplitsEvenly P)
    (entries : List (Entry α)) (h : 0 < entries.length) (hentries : P entries) :
    (build entries h).depth = Nat.clog 2 entries.length + 1 := by
  fun_induction build entries h with
  | case1 entries h h2 ihleft ihright =>
    obtain ⟨hlow, hhigh⟩ := (hP.favors hentries).length_left h2
    obtain ⟨hleft, hright⟩ := hP.sides hentries h2
    have hsum := (Split.append_perm entries).length_eq
    rw [List.length_append] at hsum
    have hhalf : Nat.clog 2 entries.length = Nat.clog 2 ((entries.length + 1) / 2) + 1 :=
      Nat.clog_of_two_le Nat.one_lt_two h2
    have hmax : max (Nat.clog 2 (Split.ofEntries entries).left.length)
        (Nat.clog 2 (Split.ofEntries entries).right.length) =
          Nat.clog 2 ((entries.length + 1) / 2) := by
      rw [← (Nat.clog_monotone 2).map_max]
      congr 1
      omega
    rw [depth, ihleft hleft, ihright hright, Nat.add_max_add_right, hmax, hhalf]
  | case2 entries h h2 =>
    have hone : entries.length = 1 := by omega
    rw [depth, hone, Nat.clog_one_right]

end BoxNode

theorem BoxTree.depth_ofEntries {α : Type} [Scalar α] [CongruentScalar α]
    {P : List (Entry α) → Prop} (hP : Split.SplitsEvenly P) {entries : List (Entry α)}
    (h : 0 < entries.length) (hentries : P entries) :
    (BoxTree.ofEntries entries).depth = Nat.clog 2 entries.length + 1 := by
  rw [BoxTree.depth, BoxTree.root_ofEntries h, Option.elim_some]
  exact BoxNode.depth_build hP entries h hentries

/-! ### Measures of lines -/

namespace Box

theorem union_self {α : Type} [Scalar α] (b : Box α) : b.union b = b := by
  have hlo : ∀ a : α, Scalar.lesser a a = a := fun a => (Scalar.lesser_eq a a).elim id id
  have hhi : ∀ a : α, Scalar.greater a a = a := fun a => (Scalar.greater_eq a a).elim id id
  simp only [union, hlo, hhi, Point.ofCoords_coord]

theorem unionAll_replicate {α : Type} [Scalar α] [LawfulScalar α] {b : Box α} (hb : b.Numeric)
    {n : ℕ} (hn : 0 < n) : unionAll (List.replicate n b) = b := by
  obtain ⟨n, rfl⟩ := Nat.exists_eq_add_of_lt hn
  have hfold : ∀ n, (List.replicate n b).foldl union b = b := by
    intro n
    induction n with
    | zero => rfl
    | succ n ih => rw [List.replicate_succ, List.foldl_cons, union_self, ih]
  rw [unionAll, Nat.zero_add, List.replicate_succ, List.foldl_cons, empty_union hb, hfold]

theorem isCount_extent {b : Box Binary64} {d : Axis} {n : ℕ}
    (h : (b.hi.coord d - b.lo.coord d).IsCount n) : (b.extent d).IsCount n := by
  rwa [extent, h.greater_zero]

/-- The measure of a box that extends along the first axis only is its length. -/
theorem isCount_measure {b : Box Binary64} {m : ℕ} (hempty : b.isEmpty = false)
    (hx : (b.extent .x).IsCount m) (hy : (b.extent .y).IsCount 0)
    (hz : (b.extent .z).IsCount 0) : (Split.measure b).IsCount m := by
  have hsmall := hx.small
  have hfaces : b.halfSurface.IsCount 0 := by
    rw [halfSurface, hempty, if_neg Bool.false_ne_true]
    have hxy := hx.mul hy (by omega)
    have hyz := hy.mul hz (by omega)
    have hzx := hz.mul hx (by omega)
    simpa only [Nat.zero_mul, Nat.mul_zero, Nat.add_zero] using
      (hxy.add hyz (by omega)).add hzx (by omega)
  have hedges : b.margin.IsCount m := by
    rw [margin, hempty, if_neg Bool.false_ne_true, Axis.sum]
    have hsum := ((Binary64.IsCount.zero.add hx (by omega)).add hy (by omega)).add hz (by omega)
    simpa only [Nat.zero_add, Nat.add_zero] using hsum
  rw [Split.measure]
  simpa only [Nat.zero_add] using hfaces.add hedges (by omega)

end Box

namespace Split

open Binary64 (IsCount)

/-! ### Copies of a point -/

/-- Some entries under distinct indices, no more than can be counted, hold the same point. -/
structure Copies (p : Point Binary64) (entries : List (Entry Binary64)) : Prop where
  nodup : (entries.map (·.index)).Nodup
  box : ∀ e ∈ entries, e.box = .ofPoint p
  count : entries.length < UInt64.size

theorem isCount_measure_ofPoint {p : Point Binary64} (hp : p.Finite) :
    IsCount (measure (.ofPoint p)) 0 := by
  have hextent : ∀ d, IsCount ((Box.ofPoint p).extent d) 0 := fun d =>
    Box.isCount_extent (.sub_self (hp d))
  refine Box.isCount_measure (Box.isEmpty_eq_false fun d => ?_) (hextent .x) (hextent .y)
    (hextent .z)
  exact Scalar.le_self (hp.numeric d)

namespace Copies

variable {p : Point Binary64} {entries l : List (Entry Binary64)}

theorem of_sublist (h : Copies p entries) (hl : l.Sublist entries) : Copies p l :=
  ⟨h.nodup.sublist (hl.map _), fun e he => h.box e (hl.subset he),
    hl.length_le.trans_lt h.count⟩

theorem of_perm (h : Copies p entries) (hl : l.Perm entries) : Copies p l :=
  ⟨(hl.map _).nodup_iff.mpr h.nodup, fun e he => h.box e (hl.subset he),
    hl.length_eq.trans_lt h.count⟩

theorem bounds (h : Copies p entries) (hp : p.Finite) (hpos : 0 < entries.length) :
    Entry.bounds entries = .ofPoint p := by
  have hboxes : entries.map (·.box) = List.replicate entries.length (.ofPoint p) :=
    List.eq_replicate_iff.mpr ⟨List.length_map _, List.forall_mem_map.mpr h.box⟩
  rw [Entry.bounds, hboxes, Box.unionAll_replicate ⟨hp.numeric, hp.numeric⟩ hpos]

/-- All divisions cost nothing. -/
theorem isCount_cost (h : Copies p entries) (hp : p.Finite) (q : Division entries) :
    IsCount q.cost 0 := by
  have hsorted := h.of_perm q.arranged.perm
  have hlength := q.length_sorted
  have hleft := q.left_lt
  have hpos := q.left_pos
  have hmeasure := isCount_measure_ofPoint hp
  have hcount := h.count
  rw [Division.cost, Split.cost,
    (hsorted.of_sublist (List.take_sublist _ _)).bounds hp (by rw [List.length_take]; omega),
    (hsorted.of_sublist (List.drop_sublist _ _)).bounds hp (by rw [List.length_drop]; omega)]
  exact (hmeasure.mul_ofCount (by omega)).add (hmeasure.mul_ofCount (by omega)) (by decide)

theorem splitsEvenly (hp : p.Finite) : SplitsEvenly (Copies p) where
  favors h := ⟨h.nodup, fun q r _ => (h.isCount_cost hp q).le (h.isCount_cost hp r) le_rfl⟩
  sides {entries} h _ := by
    have hall := h.of_perm (append_perm entries)
    exact ⟨hall.of_sublist (List.sublist_append_left _ _),
      hall.of_sublist (List.sublist_append_right _ _)⟩

end Copies

/-! ### Points in a row -/

def pointAt (i : ℕ) : Point Binary64 := ⟨.ofCount i, 0, 0⟩

def row (start count : ℕ) : List (Entry Binary64) :=
  (List.range' start count).map fun i => ⟨i, .ofPoint (pointAt i)⟩

@[simp] theorem length_row (start count : ℕ) : (row start count).length = count := by
  rw [row, List.length_map, List.length_range']

theorem row_add (start m n : ℕ) : row start (m + n) = row start m ++ row (start + m) n := by
  rw [row, row, row, ← List.map_append, List.range'_append_1]

theorem numeric_pointAt (i : ℕ) : (pointAt i).Numeric := by
  intro d
  cases d with
  | x => exact (Binary64.isNaN_eq _).trans (Binary64.ofCount_spec i).1
  | y => rfl
  | z => rfl

theorem lesser_of_le {a b : Binary64} (h : a ≤ b) : Scalar.lesser a b = a := by
  rw [Scalar.lesser, (LawfulScalar.isNaN_of_le h).1, if_neg Bool.false_ne_true,
    if_neg fun hlt => Scalar.not_le_of_lt hlt h]

/-- The bounds of a row run from its first to its last point. -/
theorem bounds_row {start n : ℕ} (h : start + n < 2 ^ 53) :
    Entry.bounds (row start (n + 1)) = ⟨pointAt start, pointAt (start + n)⟩ := by
  induction n with
  | zero => exact Box.empty_union ⟨numeric_pointAt start, numeric_pointAt start⟩
  | succ n ih =>
    have hfirst : IsCount (Binary64.ofCount start) start := .of_ofCount (by omega)
    have hlast : IsCount (Binary64.ofCount (start + n)) (start + n) := .of_ofCount (by omega)
    have hnext : IsCount (Binary64.ofCount (start + (n + 1))) (start + (n + 1)) := .of_ofCount h
    have hlo := lesser_of_le (hfirst.le hnext (by omega))
    have hhi : Scalar.greater (Binary64.ofCount (start + n)) (Binary64.ofCount (start + (n + 1))) =
        Binary64.ofCount (start + (n + 1)) := by
      rw [Scalar.greater, Binary64.isNaN_eq, hlast.number, if_neg Bool.false_ne_true,
        if_pos (hlast.lt hnext (by omega))]
    have hgrow : Entry.bounds (row start (n + 1 + 1)) =
        (Entry.bounds (row start (n + 1))).union (.ofPoint (pointAt (start + (n + 1)))) := by
      rw [row_add, Entry.bounds, List.map_append, Box.unionAll, List.foldl_append]
      rfl
    have hzero : Scalar.lesser (0 : Binary64) 0 = 0 ∧ Scalar.greater (0 : Binary64) 0 = 0 := by
      decide
    rw [hgrow, ih (by omega)]
    simp only [Box.union, Box.ofPoint, Point.ofCoords, Point.coord, pointAt, hlo, hhi, hzero]

/-- The measure of a row is its length. -/
theorem isCount_measure_row (start n : ℕ) (h : start + n < 2 ^ 53) :
    IsCount (measure (Entry.bounds (row start (n + 1)))) n := by
  have hfirst : IsCount (Binary64.ofCount start) start := .of_ofCount (by omega)
  have hlast : IsCount (Binary64.ofCount (start + n)) (start + n) := .of_ofCount h
  have hlength := hlast.sub hfirst (by omega)
  have hflat : IsCount ((0 : Binary64) - 0) 0 := IsCount.zero.sub IsCount.zero le_rfl
  rw [Nat.add_sub_cancel_left] at hlength
  rw [bounds_row h]
  refine Box.isCount_measure (Box.isEmpty_eq_false fun d => ?_) (Box.isCount_extent hlength)
    (Box.isCount_extent hflat) (Box.isCount_extent hflat)
  cases d with
  | x => exact hfirst.le hlast (by omega)
  | y => exact Axis.zero_le_zero
  | z => exact Axis.zero_le_zero

/-- What it costs to divide a row. -/
theorem isCount_cost_row {start m n : ℕ} (h : (start + (m + 1 + (n + 1))) ^ 2 < 2 ^ 53) :
    IsCount (Split.cost (row start (m + 1 + (n + 1))) (m + 1))
      (m * (m + 1) + n * (n + 1)) := by
  have hsmall : start + (m + 1 + (n + 1)) < 2 ^ 53 :=
    (Nat.le_self_pow two_ne_zero _).trans_lt h
  have hcost : m * (m + 1) + n * (n + 1) < 2 ^ 53 := by
    refine Nat.lt_of_le_of_lt ?_ h
    nlinarith
  have hleft := (isCount_measure_row start m (by omega)).mul
    (.of_ofCount (n := m + 1) (by omega)) (by omega)
  have hright := (isCount_measure_row (start + (m + 1)) n (by omega)).mul
    (.of_ofCount (n := n + 1) (by omega)) (by omega)
  have htake : (row start (m + 1 + (n + 1))).take (m + 1) = row start (m + 1) := by
    rw [row_add, List.take_left' (length_row _ _)]
  have hdrop : (row start (m + 1 + (n + 1))).drop (m + 1) = row (start + (m + 1)) (n + 1) := by
    rw [row_add, List.drop_left' (length_row _ _)]
  rw [Split.cost, htake, hdrop, length_row, Nat.add_sub_cancel_left]
  exact hleft.add hright hcost

theorem isCount_centroid {i : ℕ} (h : i + i < 2 ^ 53) :
    IsCount ((Box.ofPoint (pointAt i)).centroid.coord .x) i := by
  have hcount : IsCount (Binary64.ofCount i) i := .of_ofCount (by omega)
  rw [Box.centroid, Point.coord_ofCoords]
  exact (hcount.add hcount h).half_mul

theorem centroid_level (i : ℕ) {d : Axis} (hd : d ≠ .x) :
    (Box.ofPoint (pointAt i)).centroid.coord d = Scalar.half * (0 + 0) := by
  rw [Box.centroid, Point.coord_ofCoords]
  cases d with
  | x => exact absurd rfl hd
  | y => rfl
  | z => rfl

/-- A row is in order along every axis: where all points lie level, the indices decide. -/
theorem arranged_row {start n : ℕ} (h : start + n < 2 ^ 52) {entries : List (Entry Binary64)}
    (hp : entries.Perm (row start n)) (d : Axis) : Arranged d entries (row start n) where
  perm := hp.symm
  pairwise := by
    have hascending : (List.range' start n).Pairwise (· < ·) := List.pairwise_lt_range'
    rw [row, List.pairwise_map]
    refine hascending.imp_of_mem fun {i j} hi hj hij => ?_
    rw [List.mem_range'_1] at hi hj
    rw [order]
    by_cases hd : d = .x
    · have hleft : IsCount ((Box.ofPoint (pointAt i)).centroid.coord .x) i :=
        isCount_centroid (by omega)
      have hright : IsCount ((Box.ofPoint (pointAt j)).centroid.coord .x) j :=
        isCount_centroid (by omega)
      rw [hd, LawfulScalar.totalOrder_of_lt (hleft.lt hright hij)]
      rfl
    · have hlevel : Scalar.totalOrder (Scalar.half * (0 + 0) : Binary64) (Scalar.half * (0 + 0)) =
        .eq := Std.ReflCmp.compare_self
      rw [centroid_level i hd, centroid_level j hd, hlevel, Nat.compare_eq_lt.mpr hij]
      rfl

/-- Some entries are the points of a row in any order, and costs are exact on all of it. -/
def InRow (entries : List (Entry Binary64)) : Prop :=
  ∃ start, entries.Perm (row start entries.length) ∧ (start + entries.length) ^ 2 < 2 ^ 53

theorem small_of_sq {n : ℕ} (h : n ^ 2 < 2 ^ 53) : n < 2 ^ 52 := by
  by_contra hle
  have := Nat.pow_le_pow_left (Nat.le_of_not_lt hle) 2
  omega

theorem nodup_of_perm_row {entries : List (Entry Binary64)} {start n : ℕ}
    (hp : entries.Perm (row start n)) : (entries.map (·.index)).Nodup := by
  have hindices : (row start n).map (·.index) = List.range' start n := by
    rw [row, List.map_map]
    exact List.map_id _
  rw [(hp.map _).nodup_iff, hindices]
  exact List.nodup_range'

/-- The cost of dividing a row grows with the imbalance. -/
theorem cost_le_of_imbalance_le {m n m' n' : ℕ} (hsum : m + n = m' + n')
    (h : ((m : ℤ) - n).natAbs ≤ ((m' : ℤ) - n').natAbs) :
    m * (m + 1) + n * (n + 1) ≤ m' * (m' + 1) + n' * (n' + 1) := by
  have hsq := Int.natAbs_le_iff_sq_le.mp h
  zify at hsum ⊢
  have hsum_sq : ((m : ℤ) + n) ^ 2 = (m' + n') ^ 2 := congrArg (· ^ 2) hsum
  nlinarith

theorem exists_isCount_cost {entries : List (Entry Binary64)} {start : ℕ}
    (hp : entries.Perm (row start entries.length)) (h : (start + entries.length) ^ 2 < 2 ^ 53)
    (q : Division entries) : ∃ m n, q.left = m + 1 ∧ entries.length = m + 1 + (n + 1) ∧
      IsCount q.cost (m * (m + 1) + n * (n + 1)) := by
  obtain ⟨m, hm⟩ := Nat.exists_eq_add_of_lt q.left_pos
  obtain ⟨n, hn⟩ := Nat.exists_eq_add_of_lt q.left_lt
  rw [Nat.zero_add] at hm
  rw [hm, Nat.add_assoc] at hn
  have hsorted : q.sorted = row start entries.length :=
    q.arranged.eq (nodup_of_perm_row hp) (arranged_row (small_of_sq h) hp q.axis)
  refine ⟨m, n, hm, hn, ?_⟩
  rw [Division.cost, hsorted, hm]
  rw [hn] at h ⊢
  exact isCount_cost_row h

theorem inRow_row {start n : ℕ} (h : (start + n) ^ 2 < 2 ^ 53) : InRow (row start n) :=
  ⟨start, by rw [length_row], by rwa [length_row]⟩

theorem splitsEvenly_inRow : SplitsEvenly InRow where
  favors := by
    rintro entries ⟨start, hp, h⟩
    refine ⟨nodup_of_perm_row hp, fun p q himbalance => ?_⟩
    obtain ⟨m, n, hleft, hlength, hcost⟩ := exists_isCount_cost hp h p
    obtain ⟨m', n', hleft', hlength', hcost'⟩ := exists_isCount_cost hp h q
    refine hcost.le hcost' (cost_le_of_imbalance_le (by omega) ?_)
    simp only [Division.imbalance] at himbalance
    omega
  sides := by
    rintro entries ⟨start, hp, h⟩ h2
    obtain ⟨k, hk, heq⟩ := exists_ofEntries_eq h2 (nodup_of_perm_row hp)
      (arranged_row (small_of_sq h) hp)
    obtain ⟨r, hr⟩ := Nat.exists_eq_add_of_lt hk
    rw [Nat.add_assoc] at hr
    rw [hr, row_add, List.take_left' (length_row _ _), List.drop_left' (length_row _ _)] at heq
    rw [heq]
    constructor
    · exact inRow_row (Nat.lt_of_le_of_lt (Nat.pow_le_pow_left (by omega) 2) h)
    · exact inRow_row (Nat.lt_of_le_of_lt (Nat.pow_le_pow_left (by omega) 2) h)

end Split

namespace Entry

variable {α : Type}

theorem map_index_number (boxes : List (Box α)) :
    (number boxes).map (·.index) = List.range boxes.length := by
  rw [number, List.map_map, List.range_eq_range', ← List.zipIdx_map_snd]
  rfl

theorem map_box_number (boxes : List (Box α)) : (number boxes).map (·.box) = boxes := by
  rw [number, List.map_map]
  exact List.zipIdx_map_fst 0 boxes

theorem length_number (boxes : List (Box α)) : (number boxes).length = boxes.length := by
  rw [number, List.length_map, List.length_zipIdx]

end Entry

namespace BoxTree

/-- The tree over copies of a point, and the tree over points in a row as long as the costs of
its divisions are exact, has the least depth that it can have. -/
theorem depth_of_degenerate {n : ℕ} (hn : 0 < n) :
    (∀ p : Point Binary64, p.Finite → n < UInt64.size →
      (ofEntries (Entry.number (List.replicate n (.ofPoint p)))).depth = Nat.clog 2 n + 1) ∧
    (n ^ 2 < 2 ^ 53 →
      (ofEntries (Entry.number ((List.range n).map fun i =>
        .ofPoint (⟨.ofCount i, 0, 0⟩ : Point Binary64)))).depth = Nat.clog 2 n + 1) := by
  constructor
  · intro p hp hsize
    let entries := Entry.number (List.replicate n (Box.ofPoint p))
    have hlength : entries.length = n := by
      rw [Entry.length_number, List.length_replicate]
    have hcopies : Split.Copies p entries := by
      refine ⟨?_, fun e he => ?_, hlength ▸ hsize⟩
      · rw [Entry.map_index_number]
        exact List.nodup_range
      · refine List.eq_of_mem_replicate (n := n) ?_
        rw [← Entry.map_box_number (List.replicate n _)]
        exact List.mem_map_of_mem he
    rw [depth_ofEntries (Split.Copies.splitsEvenly hp) (hlength ▸ hn) hcopies, hlength]
  · intro hexact
    have hrow : Entry.number ((List.range n).map fun i =>
        .ofPoint (⟨.ofCount i, 0, 0⟩ : Point Binary64)) = Split.row 0 n := by
      refine List.ext_getElem ?_ fun i _ _ => ?_
      · rw [Entry.length_number, List.length_map, List.length_range, Split.length_row]
      · simp [Entry.number, Split.row, Split.pointAt]
    have hin : Split.InRow (Split.row 0 n) := Split.inRow_row (by rwa [Nat.zero_add])
    rw [hrow, depth_ofEntries Split.splitsEvenly_inRow (by rwa [Split.length_row]) hin,
      Split.length_row]

theorem depth_of_degenerate_five :
    let p : Point Binary64 := ⟨.half, 0, ⟨Binary64.signBit⟩⟩
    p.Finite ∧ (ofEntries (Entry.number (List.replicate 5 (.ofPoint p)))).depth = 4 ∧
      (ofEntries (Entry.number ((List.range 5).map fun i =>
        .ofPoint (⟨.ofCount i, 0, 0⟩ : Point Binary64)))).depth = 4 := by
  intro p
  have hp : p.Finite := by decide
  have hlog : Nat.clog 2 5 = 3 := by norm_num
  obtain ⟨hcopies, hrow⟩ := depth_of_degenerate (n := 5) (by decide)
  have hcopied := hcopies p hp (by decide)
  have hlined := hrow (by decide)
  rw [hlog] at hcopied hlined
  exact ⟨hp, hcopied, hlined⟩

end BoxTree

end SpatialSearch
