import SpatialSearch.Proofs.Assembly
import SpatialSearch.Proofs.Congruence
import SpatialSearch.Proofs.Ranking

/-!
# The cheapest cut is taken

A division of some entries sorts them along an axis and takes so many of them to the left. A
split is the first of the cheapest divisions: no other one costs less, of those that cost the
same none is more balanced, and of those that are as balanced none comes earlier. The bounds of
the right sides are collected from the end of the list, so that a cost is that of a division up
to the choice among equal numbers.
-/

namespace SpatialSearch

open Scalar (Alike)

/-! ### Unions in any order -/

namespace Box

variable {α : Type} [Scalar α]

/-- A box with coordinates that take no part in a union in place of those that are no numbers. -/
def filled (b : Box α) : Box α where
  lo := .ofCoords fun d =>
    if Scalar.isNaN (b.lo.coord d) then Scalar.infinity else b.lo.coord d
  hi := .ofCoords fun d =>
    if Scalar.isNaN (b.hi.coord d) then Scalar.negInfinity else b.hi.coord d

variable [LawfulScalar α]

open LawfulScalar

theorem numeric_filled (b : Box α) : b.filled.Numeric := by
  constructor
  · intro d
    rw [filled, Point.coord_ofCoords]
    split
    · exact isNaN_infinity
    · exact Bool.eq_false_iff.mpr ‹_›
  · intro d
    rw [filled, Point.coord_ofCoords]
    split
    · exact isNaN_negInfinity
    · exact Bool.eq_false_iff.mpr ‹_›

theorem union_filled {a : Box α} (ha : a.Numeric) (b : Box α) : a.union b.filled = a.union b := by
  have hlo : ∀ d, Scalar.lesser (a.lo.coord d) (b.filled.lo.coord d) =
      Scalar.lesser (a.lo.coord d) (b.lo.coord d) := by
    intro d
    rw [filled, Point.coord_ofCoords]
    split
    · rename_i hnan
      have hlt : ¬ b.lo.coord d < a.lo.coord d := fun hlt =>
        Bool.false_ne_true ((isNaN_of_le (Scalar.le_of_lt hlt)).1.symm.trans hnan)
      rw [Scalar.lesser_infinity_right (ha.1 d), Scalar.lesser, ha.1 d, if_neg Bool.false_ne_true,
        if_neg hlt]
    · rfl
  have hhi : ∀ d, Scalar.greater (a.hi.coord d) (b.filled.hi.coord d) =
      Scalar.greater (a.hi.coord d) (b.hi.coord d) := by
    intro d
    rw [filled, Point.coord_ofCoords]
    split
    · rename_i hnan
      have hlt : ¬ a.hi.coord d < b.hi.coord d := fun hlt =>
        Bool.false_ne_true ((isNaN_of_le (Scalar.le_of_lt hlt)).2.symm.trans hnan)
      rw [Scalar.greater_negInfinity_right (ha.2 d), Scalar.greater, ha.2 d,
        if_neg Bool.false_ne_true, if_neg hlt]
    · rfl
  simp only [union, hlo, hhi]

theorem unionAll_filled (boxes : List (Box α)) : unionAll (boxes.map filled) = unionAll boxes := by
  have hfold : ∀ acc : Box α, acc.Numeric →
      (boxes.map filled).foldl union acc = boxes.foldl union acc := by
    induction boxes with
    | nil => exact fun _ _ => rfl
    | cons b boxes ih =>
      intro acc hacc
      rw [List.map_cons, List.foldl_cons, List.foldl_cons, union_filled hacc]
      exact ih _ (hacc.union b)
  exact hfold empty numeric_empty

end Box

namespace Entry

variable {α : Type} [Scalar α]

def filled (e : Entry α) : Entry α := { e with box := e.box.filled }

theorem bounds_filled [LawfulScalar α] (entries : List (Entry α)) :
    bounds (entries.map filled) = bounds entries := by
  have hboxes : (entries.map filled).map (·.box) = (entries.map (·.box)).map Box.filled := by
    rw [List.map_map, List.map_map]
    rfl
  rw [bounds, bounds, hboxes, Box.unionAll_filled]

/-- The union of any boxes does not depend on their order. -/
theorem bounds_beq [LawfulEqScalar α] {entries l : List (Entry α)} (hp : l.Perm entries) :
    (bounds entries == bounds l) = true := by
  have hnum : AllNumeric (entries.map filled) :=
    List.forall_mem_map.mpr fun e _ => e.box.numeric_filled
  have hbeq := bounds_beq_of_perm hnum (hp.map filled)
  rwa [bounds_filled, bounds_filled] at hbeq

end Entry

def Axis.place : Axis → Nat
  | .x => 0
  | .y => 1
  | .z => 2

/-! ### Divisions -/

namespace Split

section Divisions

variable {α : Type} [Scalar α]

/-- A list is some entries in their order along an axis. -/
structure Arranged (d : Axis) (entries sorted : List (Entry α)) : Prop where
  perm : sorted.Perm entries
  pairwise : sorted.Pairwise fun a b => (order d a b).isLE

/-- What it costs to cut a list after its first entries: the measure of the bounds of each side
times the number of its entries. -/
def cost (sorted : List (Entry α)) (left : Nat) : α :=
  measure (Entry.bounds (sorted.take left)) * Scalar.ofCount left +
    measure (Entry.bounds (sorted.drop left)) * Scalar.ofCount (sorted.length - left)

/-- A way to divide entries in two sides that both hold some: in their order along an axis,
after so many of them. -/
structure Division (entries : List (Entry α)) where
  axis : Axis
  sorted : List (Entry α)
  arranged : Arranged axis entries sorted
  left : Nat
  left_pos : 0 < left
  left_lt : left < entries.length

variable {entries : List (Entry α)}

def Division.cost (p : Division entries) : α := Split.cost p.sorted p.left

def Division.imbalance (p : Division entries) : Nat :=
  (2 * (p.left : Int) - entries.length).natAbs

/-- A division is found no later than another: axis by axis, and along an axis from left to
right. -/
def Division.NoLater (p q : Division entries) : Prop :=
  p.axis.place < q.axis.place ∨ p.axis = q.axis ∧ p.left ≤ q.left

/-- A division is as good as another or better: by cost, then by balance, then by place. -/
def Division.Precedes (p q : Division entries) : Prop :=
  p.cost < q.cost ∨ (p.cost == q.cost) = true ∧
    (p.imbalance < q.imbalance ∨ p.imbalance = q.imbalance ∧ p.NoLater q)

end Divisions

/-! ### Entries in order -/

section Order

variable {α : Type} [Scalar α] [LawfulScalar α]

instance (d : Axis) : Std.TransCmp (order (α := α) d) :=
  have : Std.TransCmp fun a b : Entry α =>
      Scalar.totalOrder (a.box.centroid.coord d) (b.box.centroid.coord d) :=
    Ranking.transCmp_on _ _
  inferInstanceAs <| Std.TransCmp <| compareLex
    (fun a b : Entry α => Scalar.totalOrder (a.box.centroid.coord d) (b.box.centroid.coord d))
    (compareOn (·.index))

theorem arranged_orderedAlong (d : Axis) (entries : List (Entry α)) :
    Arranged d entries (orderedAlong d entries) where
  perm := orderedAlong_perm d entries
  pairwise := Ranking.pairwise_sort (order d) entries

variable {d : Axis} {entries l m : List (Entry α)}

/-- Entries under distinct indices have one order along an axis. -/
theorem Arranged.eq (hindex : (entries.map (·.index)).Nodup) (hl : Arranged d entries l)
    (hm : Arranged d entries m) : l = m := by
  refine List.Perm.eq_of_pairwise ?_ hl.pairwise hm.pairwise (hl.perm.trans hm.perm.symm)
  intro a b ha hb hab hba
  have hswap : order d b a = (order d a b).swap := Std.OrientedCmp.eq_swap
  rw [hswap, Ordering.isLE_swap] at hba
  have heq := Ordering.eq_eq_of_isLE_of_isGE hab hba
  have hindices : a.index = b.index :=
    Std.LawfulEqCmp.eq_of_compare (Ordering.then_eq_eq.mp heq).2
  exact List.inj_on_of_nodup_map hindex (hl.perm.subset ha) (hm.perm.subset hb) hindices

/-- The entries as they stand when the cuts along an axis are looked at. -/
def along (d : Axis) (entries : List (Entry α)) : List (Entry α) :=
  match d with
  | .x => alongX entries
  | .y => alongY entries
  | .z => alongZ entries

theorem arranged_along (d : Axis) (entries : List (Entry α)) :
    Arranged d entries (along d entries) := by
  have hx := arranged_orderedAlong .x entries
  have hy := arranged_orderedAlong .y (alongX entries)
  have hz := arranged_orderedAlong .z (alongY entries)
  cases d with
  | x => exact hx
  | y => exact ⟨hy.perm.trans hx.perm, hy.pairwise⟩
  | z => exact ⟨hz.perm.trans (hy.perm.trans hx.perm), hz.pairwise⟩

theorem arranged_final (d : Axis) (entries : List (Entry α)) :
    Arranged d entries (orderedAlong d (alongZ entries)) where
  perm := (orderedAlong_perm d _).trans (arranged_along .z entries).perm
  pairwise := (arranged_orderedAlong d _).pairwise

end Order

/-! ### The cuts along an axis -/

section Cuts

variable {α : Type} [Scalar α]

theorem getElem_growing (acc : Box α) (entries : List (Entry α)) {i : Nat}
    (h : i < (growing acc entries).length) : (growing acc entries)[i] =
      ((entries.take (i + 1)).map (·.box)).foldl Box.union acc := by
  induction entries generalizing acc i with
  | nil => exact absurd h (Nat.not_lt_zero i)
  | cons e rest ih =>
    cases i with
    | zero => rfl
    | succ i => exact ih _ (by simpa [growing] using h)

theorem getElem_shrinking (entries : List (Entry α)) {i : Nat}
    (h : i < (shrinking entries).length) :
    (shrinking entries)[i] = Entry.bounds (entries.drop i).reverse := by
  have hi : i < entries.length := by rwa [length_shrinking] at h
  have htake : entries.reverse.take (entries.length - 1 - i + 1) = (entries.drop i).reverse := by
    rw [List.take_reverse]
    congr 2
    omega
  simp only [shrinking, List.getElem_reverse, getElem_growing, length_growing,
    List.length_reverse, htake]
  rfl

def cutAt (d : Axis) (sorted : List (Entry α)) (left : Nat) : Cut α :=
  .ofBounds d sorted.length left (Entry.bounds (sorted.take left))
    (Entry.bounds (sorted.drop left).reverse)

theorem cuts_eq (d : Axis) (sorted : List (Entry α)) :
    cuts d sorted = (List.range (sorted.length - 1)).map fun i => cutAt d sorted (i + 1) := by
  refine List.ext_getElem ?_ fun i hi hi' => ?_
  · simp [cuts]
  · simp only [cuts, List.getElem_map, List.getElem_zipIdx, List.getElem_zip, getElem_growing,
      List.getElem_tail, getElem_shrinking, List.getElem_range, Nat.zero_add]
    rfl

theorem mem_cuts_iff {d : Axis} {sorted : List (Entry α)} {c : Cut α} : c ∈ cuts d sorted ↔
    ∃ left, 0 < left ∧ left < sorted.length ∧ c = cutAt d sorted left := by
  rw [cuts_eq, List.mem_map]
  constructor
  · rintro ⟨i, hi, rfl⟩
    have := List.mem_range.mp hi
    exact ⟨i + 1, by omega, by omega, rfl⟩
  · rintro ⟨left, hpos, hlt, rfl⟩
    refine ⟨left - 1, List.mem_range.mpr (by omega), ?_⟩
    rw [Nat.sub_add_cancel hpos]

def Cut.Before (a b : Cut α) : Prop :=
  a.axis.place < b.axis.place ∨ a.axis = b.axis ∧ a.left < b.left

theorem pairwise_cuts (d : Axis) (sorted : List (Entry α)) :
    (cuts d sorted).Pairwise Cut.Before := by
  rw [cuts_eq, List.pairwise_map]
  exact List.pairwise_lt_range.imp fun h => .inr ⟨rfl, Nat.succ_lt_succ h⟩

theorem allCuts_eq (entries : List (Entry α)) :
    allCuts entries = Axis.all.flatMap fun d => cuts d (along d entries) := by
  rw [allCuts, List.append_assoc]
  simp [Axis.all, along]

theorem mem_allCuts_iff {entries : List (Entry α)} {c : Cut α} :
    c ∈ allCuts entries ↔ ∃ d, c ∈ cuts d (along d entries) := by
  rw [allCuts_eq, List.mem_flatMap]
  constructor
  · rintro ⟨d, -, hc⟩
    exact ⟨d, hc⟩
  · rintro ⟨d, hc⟩
    exact ⟨d, d.mem_all, hc⟩

/-- Cuts are tried in the order in which ties are broken. -/
theorem pairwise_allCuts (entries : List (Entry α)) : (allCuts entries).Pairwise Cut.Before := by
  have haxes : Axis.all.Pairwise fun d e => d.place < e.place := by decide
  rw [allCuts_eq, List.pairwise_flatMap]
  refine ⟨fun d _ => pairwise_cuts d _, haxes.imp ?_⟩
  intro d e hde a ha b hb
  obtain ⟨-, -, -, rfl⟩ := mem_cuts_iff.mp ha
  obtain ⟨-, -, -, rfl⟩ := mem_cuts_iff.mp hb
  exact .inl hde

end Cuts

/-! ### The running best -/

section Best

variable {α : Type} [Scalar α]

theorem Cut.beats_iff {a b : Cut α} : a.beats b = true ↔
    a.cost < b.cost ∨ (a.cost == b.cost) = true ∧ a.imbalance < b.imbalance := by
  simp [beats]

def Cut.AsGood (a b : Cut α) : Prop :=
  a.cost < b.cost ∨ (a.cost == b.cost) = true ∧ a.imbalance ≤ b.imbalance

theorem Cut.AsGood.of_beats {a b : Cut α} (h : a.beats b = true) : a.AsGood b := by
  rcases beats_iff.mp h with hlt | ⟨heq, himb⟩
  · exact .inl hlt
  · exact .inr ⟨heq, himb.le⟩

variable [LawfulEqScalar α] {a b c : Cut α}

open LawfulScalar LawfulEqScalar

theorem Cut.not_beats_self (c : Cut α) : c.beats c = false := by
  rw [Bool.eq_false_iff, ne_eq, beats_iff, not_or]
  exact ⟨Scalar.lt_irrefl _, fun h => Nat.lt_irrefl _ h.2⟩

/-- Of two cuts whose costs are numbers one beats the other, or the other is as good. -/
theorem Cut.AsGood.of_not_beats (ha : Scalar.isNaN a.cost = false)
    (hb : Scalar.isNaN b.cost = false) (h : b.beats a = false) : a.AsGood b := by
  rw [Bool.eq_false_iff, ne_eq, beats_iff, not_or, not_and] at h
  have hle := Scalar.le_of_not_lt hb ha h.1
  by_cases hge : b.cost ≤ a.cost
  · exact .inr ⟨beq_iff.mpr ⟨hle, hge⟩, Nat.le_of_not_lt (h.2 (beq_iff.mpr ⟨hge, hle⟩))⟩
  · exact .inl (lt_iff.mpr ⟨hle, hge⟩)

/-- What beats a cut beats all that the cut is as good as. -/
theorem Cut.AsGood.beats (hbc : b.AsGood c) (hab : a.beats b = true) : a.beats c = true := by
  rw [beats_iff] at hab ⊢
  rcases hab with hab | ⟨hab, himb⟩
  · rcases hbc with hbc | ⟨hbc, -⟩
    · exact .inl (Scalar.lt_of_lt_of_le hab (Scalar.le_of_lt hbc))
    · exact .inl (Scalar.lt_of_lt_of_le hab (beq_iff.mp hbc).1)
  · obtain ⟨hle, hge⟩ := beq_iff.mp hab
    rcases hbc with hbc | ⟨hbc, himb'⟩
    · exact .inl (Scalar.lt_of_le_of_lt hle hbc)
    · obtain ⟨hle', hge'⟩ := beq_iff.mp hbc
      exact .inr ⟨beq_iff.mpr ⟨le_trans hle hle', le_trans hge' hge⟩, himb.trans_le himb'⟩

/-- A cut beats all that come before it in a list, and none that comes after it beats it. -/
def FirstBest (best : Cut α) (cs : List (Cut α)) : Prop :=
  ∃ before after, cs = before ++ best :: after ∧ (∀ c ∈ before, best.beats c = true) ∧
    ∀ c ∈ after, c.beats best = false

theorem FirstBest.skip_first {best first next : Cut α} {cs : List (Cut α)}
    (hbeats : next.beats first = true) (h : FirstBest best (next :: cs)) :
    FirstBest best (first :: next :: cs) := by
  obtain ⟨before, after, hsplit, hbefore, hafter⟩ := h
  refine ⟨first :: before, after, by rw [hsplit, List.cons_append], ?_, hafter⟩
  refine List.forall_mem_cons.mpr ⟨?_, hbefore⟩
  -- The best one is the next cut or beats it, and so it beats what the next cut beats.
  cases before with
  | nil =>
    obtain ⟨rfl, -⟩ := List.cons.inj hsplit
    exact hbeats
  | cons c before =>
    obtain ⟨rfl, -⟩ := List.cons.inj hsplit
    exact (Cut.AsGood.of_beats hbeats).beats (hbefore next (by simp))

theorem FirstBest.skip_second {best first next : Cut α} {cs : List (Cut α)}
    (hfirst : Scalar.isNaN first.cost = false) (hnext : Scalar.isNaN next.cost = false)
    (hbeats : next.beats first = false) (h : FirstBest best (first :: cs)) :
    FirstBest best (first :: next :: cs) := by
  obtain ⟨before, after, hsplit, hbefore, hafter⟩ := h
  -- The next cut falls on the side of the first one: after the best one if that is the first.
  cases before with
  | nil =>
    obtain ⟨rfl, rfl⟩ := List.cons.inj hsplit
    exact ⟨[], next :: cs, rfl, by simp, List.forall_mem_cons.mpr ⟨hbeats, hafter⟩⟩
  | cons c before =>
    obtain ⟨rfl, rfl⟩ := List.cons.inj hsplit
    obtain ⟨hwins, hothers⟩ := List.forall_mem_cons.mp hbefore
    have hwins' := (Cut.AsGood.of_not_beats hfirst hnext hbeats).beats hwins
    exact ⟨first :: next :: before, after, rfl,
      List.forall_mem_cons.mpr ⟨hwins, List.forall_mem_cons.mpr ⟨hwins', hothers⟩⟩, hafter⟩

/-- Keeping a cut until one beats it ends with the first of the best ones. -/
theorem firstBest_foldl_better (first : Cut α) (cs : List (Cut α))
    (hnum : ∀ c ∈ first :: cs, Scalar.isNaN c.cost = false) :
    FirstBest (cs.foldl Cut.better first) (first :: cs) := by
  induction cs generalizing first with
  | nil => exact ⟨[], [], rfl, by simp, by simp⟩
  | cons next cs ih =>
    obtain ⟨hfirst, hrest⟩ := List.forall_mem_cons.mp hnum
    obtain ⟨hnext, hcs⟩ := List.forall_mem_cons.mp hrest
    rw [List.foldl_cons, Cut.better]
    by_cases hbeats : next.beats first = true
    · rw [if_pos hbeats]
      exact (ih next hrest).skip_first hbeats
    · rw [if_neg hbeats]
      have hkept := ih first (List.forall_mem_cons.mpr ⟨hfirst, hcs⟩)
      exact hkept.skip_second hfirst hnext (Bool.eq_false_iff.mpr hbeats)

theorem exists_best?_eq {cs : List (Cut α)} (hpos : 0 < cs.length)
    (hnum : ∀ c ∈ cs, Scalar.isNaN c.cost = false) :
    ∃ best, best? cs = some best ∧ FirstBest best cs := by
  cases cs with
  | nil => exact absurd hpos (Nat.lt_irrefl 0)
  | cons first rest => exact ⟨_, rfl, firstBest_foldl_better first rest hnum⟩

end Best

/-! ### Cuts of divisions -/

section Choice

variable {α : Type} [Scalar α] {entries : List (Entry α)}

def Division.cut (p : Division entries) : Cut α := cutAt p.axis p.sorted p.left

theorem Division.length_sorted (p : Division entries) : p.sorted.length = entries.length :=
  p.arranged.perm.length_eq

theorem Division.imbalance_cut (p : Division entries) : p.cut.imbalance = p.imbalance := by
  have hlength := p.length_sorted
  simp only [cut, cutAt, Cut.ofBounds, imbalance]
  omega

/-- A computed cost is that of the division, up to the choice among equal numbers. -/
theorem Division.cost_alike [CongruentScalar α] (p : Division entries) :
    Alike p.cut.cost p.cost := by
  have hbounds : (Entry.bounds (p.sorted.drop p.left).reverse ==
      Entry.bounds (p.sorted.drop p.left)) = true :=
    Entry.bounds_beq (List.reverse_perm _).symm
  exact CongruentScalar.add_alike (.refl _)
    (CongruentScalar.mul_alike (Box.measure_alike hbounds) (.refl _))

theorem exists_division [LawfulScalar α] {c : Cut α} (h : c ∈ allCuts entries) :
    ∃ p : Division entries, p.cut = c := by
  obtain ⟨d, hd⟩ := mem_allCuts_iff.mp h
  obtain ⟨left, hpos, hlt, rfl⟩ := mem_cuts_iff.mp hd
  have harranged := arranged_along d entries
  exact ⟨⟨d, along d entries, harranged, left, hpos, harranged.perm.length_eq ▸ hlt⟩, rfl⟩

/-- Entries under distinct indices are cut in every way there is to divide them. -/
theorem Division.cut_mem [LawfulScalar α] (hindex : (entries.map (·.index)).Nodup)
    (p : Division entries) : p.cut ∈ allCuts entries := by
  refine mem_allCuts_iff.mpr ⟨p.axis, mem_cuts_iff.mpr ⟨p.left, p.left_pos, ?_, ?_⟩⟩
  · rw [(arranged_along p.axis entries).perm.length_eq]
    exact p.left_lt
  · rw [(arranged_along p.axis entries).eq hindex p.arranged]
    rfl

variable [CongruentScalar α] {p q : Division entries}

theorem Division.precedes_of_beats (h : p.cut.beats q.cut = true) : p.Precedes q := by
  rcases Cut.beats_iff.mp h with hlt | ⟨heq, himb⟩
  · exact .inl ((p.cost_alike.lt_iff_lt q.cost_alike).mp hlt)
  · rw [p.cost_alike.beq_eq_beq q.cost_alike] at heq
    rw [p.imbalance_cut, q.imbalance_cut] at himb
    exact .inr ⟨heq, .inl himb⟩

theorem Division.precedes_of_not_beats (hp : Scalar.isNaN p.cut.cost = false)
    (hq : Scalar.isNaN q.cut.cost = false) (h : q.cut.beats p.cut = false) (hfound : p.NoLater q) :
    p.Precedes q := by
  rcases Cut.AsGood.of_not_beats hp hq h with hlt | ⟨heq, himb⟩
  · exact .inl ((p.cost_alike.lt_iff_lt q.cost_alike).mp hlt)
  · rw [p.cost_alike.beq_eq_beq q.cost_alike] at heq
    rw [p.imbalance_cut, q.imbalance_cut] at himb
    refine .inr ⟨heq, ?_⟩
    rcases Nat.lt_or_eq_of_le himb with hlt | heq
    · exact .inl hlt
    · exact .inr ⟨heq, hfound⟩

theorem Division.precedes_of_firstBest (hnum : ∀ c ∈ allCuts entries, Scalar.isNaN c.cost = false)
    (hbest : FirstBest p.cut (allCuts entries)) (hq : q.cut ∈ allCuts entries) :
    p.Precedes q := by
  obtain ⟨before, after, hsplit, hbefore, hafter⟩ := hbest
  have hordered := pairwise_allCuts entries
  have hp : p.cut ∈ allCuts entries := by simp [hsplit]
  have hpnum := hnum _ hp
  have hqnum := hnum _ hq
  rw [hsplit] at hordered hq
  rcases List.mem_append.mp hq with hq | hq
  · exact precedes_of_beats (hbefore _ hq)
  · refine precedes_of_not_beats hpnum hqnum ?_ ?_
    · rcases List.mem_cons.mp hq with heq | hq
      · rw [heq]
        exact p.cut.not_beats_self
      · exact hafter _ hq
    · rcases List.mem_cons.mp hq with heq | hq
      · have haxis : q.axis = p.axis := congrArg Cut.axis heq
        have hleft : q.left = p.left := congrArg Cut.left heq
        exact .inr ⟨haxis.symm, hleft.ge⟩
      · have hplaces := List.rel_of_pairwise_cons (List.pairwise_append.mp hordered).2.1 hq
        rcases hplaces with haxis | ⟨haxis, hlt⟩
        · exact .inl haxis
        · exact .inr ⟨haxis, hlt.le⟩

/-- The cut that is chosen stands for a division that precedes all others. -/
theorem exists_best (h : 2 ≤ entries.length) (hindex : (entries.map (·.index)).Nodup)
    (hnum : ∀ p : Division entries, Scalar.isNaN p.cost = false) :
    ∃ best : Division entries, choose entries = (best.axis, best.left) ∧
      ∀ p : Division entries, best.Precedes p := by
  have hcuts : ∀ c ∈ allCuts entries, Scalar.isNaN c.cost = false := by
    intro c hc
    obtain ⟨p, rfl⟩ := exists_division hc
    exact p.cost_alike.isNaN_eq.trans (hnum p)
  have hpos : 0 < (allCuts entries).length := by
    simp only [allCuts, List.length_append, cuts_eq, List.length_map, List.length_range, alongX,
      length_orderedAlong]
    omega
  obtain ⟨c, hc, hbest⟩ := exists_best?_eq hpos hcuts
  obtain ⟨best, rfl⟩ := exists_division (best?_mem hc)
  refine ⟨best, ?_, fun p => Division.precedes_of_firstBest hcuts hbest (p.cut_mem hindex)⟩
  rw [choose, hc]
  rfl

/-- A split holds all entries, some on each side. If they stand under distinct indices and no
cost lacks a value, it is the division that precedes all others: the one of least cost, of those
the most balanced, and of those the first. -/
theorem divides_at_first_best (h : 2 ≤ entries.length) :
    (((ofEntries entries).left ++ (ofEntries entries).right).Perm entries ∧
      0 < (ofEntries entries).left.length ∧ (ofEntries entries).left.length < entries.length) ∧
    ((entries.map (·.index)).Nodup → (∀ p : Division entries, Scalar.isNaN p.cost = false) →
      ∃ best : Division entries,
        (ofEntries entries).left ++ (ofEntries entries).right = best.sorted ∧
        (ofEntries entries).left.length = best.left ∧
        ∀ p : Division entries, best.Precedes p) := by
  refine ⟨⟨append_perm entries, left_pos h, left_lt h⟩, fun hindex hnum => ?_⟩
  obtain ⟨best, hchoose, hbest⟩ := exists_best h hindex hnum
  refine ⟨best, ?_, ?_, hbest⟩
  · -- Sorting once more along the axis gives the order that was costed: there is no other.
    have hsorted := (arranged_final best.axis entries).eq hindex best.arranged
    rw [← hsorted, ofEntries, hchoose]
    exact List.take_append_drop best.left _
  · rw [length_left h, hchoose]

/-- Three points in a row, one of them with a minus zero: along the row it costs as much to cut
after the first as after the second. -/
def pointsInRow : List (Entry Binary64) :=
  [⟨4, .ofPoint .origin⟩, ⟨1, .ofPoint ⟨⟨Binary64.signBit⟩, 0, .ofCount 1⟩⟩,
    ⟨2, .ofPoint ⟨0, 0, .half⟩⟩]

theorem divides_at_first_best_pointsInRow : 2 ≤ pointsInRow.length ∧
    (pointsInRow.map (·.index)).Nodup ∧
    (∀ p : Division pointsInRow, Scalar.isNaN p.cost = false) ∧
    ∃ best : Division pointsInRow,
      (ofEntries pointsInRow).left ++ (ofEntries pointsInRow).right = best.sorted ∧
      (ofEntries pointsInRow).left.length = best.left ∧
      ∀ p : Division pointsInRow, best.Precedes p := by
  have hall : ∀ l ∈ pointsInRow.permutations', ∀ left < pointsInRow.length,
      Scalar.isNaN (Split.cost l left) = false := by decide +kernel
  have hnum : ∀ p : Division pointsInRow, Scalar.isNaN p.cost = false := fun p =>
    hall p.sorted (List.mem_permutations'.mpr p.arranged.perm) p.left p.left_lt
  have hindex : (pointsInRow.map (·.index)).Nodup := by decide
  exact ⟨by decide, hindex, hnum, (divides_at_first_best (by decide)).2 hindex hnum⟩

end Choice

end Split

end SpatialSearch
