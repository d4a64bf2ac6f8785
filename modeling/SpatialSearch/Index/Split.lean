import SpatialSearch.Index.Entry

/-!
# Splits

How a set of entries is divided in two. The entries are sorted by the middles of their
boxes along each axis in turn, every position between two of them is a cut, and the
cheapest cut is taken. Each side of a cut costs the measure of its bounds times the
number of its entries. The measure is half the surface area plus the margin; the margin
keeps flat and collinear sets, which have no surface, splitting evenly.

Of cuts of equal cost the more balanced one is taken, and then the one found first. A
comparison with a cost that is not a number is false, so a cut of such a cost neither
beats another nor is beaten.
-/

namespace SpatialSearch

namespace Split

variable {α : Type} [Scalar α]

def measure (b : Box α) : α := b.halfSurface + b.margin

/-- The order along an axis: by the middle of the box, then by index. -/
def order (d : Axis) (a b : Entry α) : Ordering :=
  (Scalar.totalOrder (a.box.centroid.coord d) (b.box.centroid.coord d)).then
    (compare a.index b.index)

/-- Entries sorted along an axis; those that are equal in the order keep their places. -/
def orderedAlong (d : Axis) (entries : List (Entry α)) : List (Entry α) :=
  entries.mergeSort fun a b => order d a b != .gt

@[simp] theorem length_orderedAlong (d : Axis) (entries : List (Entry α)) :
    (orderedAlong d entries).length = entries.length :=
  List.length_mergeSort entries

theorem orderedAlong_perm (d : Axis) (entries : List (Entry α)) :
    (orderedAlong d entries).Perm entries :=
  List.mergeSort_perm entries _

/-- The bounds of every non-empty initial part of a list, the shortest first. -/
def growing (acc : Box α) : List (Entry α) → List (Box α)
  | [] => []
  | e :: rest => acc.union e.box :: growing (acc.union e.box) rest

@[simp] theorem length_growing (acc : Box α) (entries : List (Entry α)) :
    (growing acc entries).length = entries.length := by
  induction entries generalizing acc with
  | nil => rfl
  | cons e rest ih => simp [growing, ih]

def shrinking (entries : List (Entry α)) : List (Box α) :=
  (growing .empty entries.reverse).reverse

@[simp] theorem length_shrinking (entries : List (Entry α)) :
    (shrinking entries).length = entries.length := by
  simp [shrinking]

/-- A way to divide a list that is sorted along an axis. -/
structure Cut (α : Type) where
  axis : Axis
  left : Nat
  cost : α
  imbalance : Nat

/-- The cut after the first `left` of `count` entries, by the bounds of its sides. -/
def Cut.ofBounds (d : Axis) (count left : Nat) (leftBounds rightBounds : Box α) : Cut α where
  axis := d
  left := left
  cost :=
    measure leftBounds * Scalar.ofCount left +
      measure rightBounds * Scalar.ofCount (count - left)
  imbalance := (2 * left - count) + (count - 2 * left)

def cuts (d : Axis) (sorted : List (Entry α)) : List (Cut α) :=
  ((growing .empty sorted).zip (shrinking sorted).tail).zipIdx.map fun ((l, r), i) =>
    .ofBounds d sorted.length (i + 1) l r

/-- Both sides of a cut hold entries. -/
theorem left_of_mem_cuts {d : Axis} {sorted : List (Entry α)} {c : Cut α}
    (h : c ∈ cuts d sorted) : 0 < c.left ∧ c.left < sorted.length := by
  obtain ⟨⟨⟨l, r⟩, i⟩, hi, rfl⟩ := List.mem_map.mp h
  have := (List.mem_zipIdx' hi).1
  simp only [List.length_zip, length_growing, List.length_tail, length_shrinking] at this
  simp only [Cut.ofBounds]
  omega

def Cut.beats (c best : Cut α) : Bool :=
  c.cost < best.cost || (c.cost == best.cost && c.imbalance < best.imbalance)

/-- The better of two cuts, the first unless it is beaten. -/
def Cut.better (best c : Cut α) : Cut α := if c.beats best then c else best

theorem Cut.better_eq (best c : Cut α) : best.better c = best ∨ best.better c = c := by
  unfold better
  split
  · exact .inr rfl
  · exact .inl rfl

/-- The best cut of a list: going from left to right, a cut is kept until one beats it. -/
def best? : List (Cut α) → Option (Cut α)
  | [] => none
  | c :: rest => some (rest.foldl Cut.better c)

theorem foldl_better_mem (c : Cut α) (cs : List (Cut α)) :
    cs.foldl Cut.better c ∈ c :: cs := by
  induction cs generalizing c with
  | nil => simp
  | cons d cs ih =>
    rw [List.foldl_cons]
    rcases Cut.better_eq c d with h | h <;> rw [h]
    · rcases List.mem_cons.mp (ih c) with h | h <;> simp [h]
    · exact List.mem_cons_of_mem _ (ih d)

theorem best?_mem {cs : List (Cut α)} {c : Cut α} (h : best? cs = some c) : c ∈ cs := by
  cases cs with
  | nil => simp [best?] at h
  | cons first rest => exact Option.some.inj h ▸ foldl_better_mem first rest

end Split

structure Split (α : Type) where
  left : List (Entry α)
  right : List (Entry α)

namespace Split

variable {α : Type} [Scalar α]

def alongX (entries : List (Entry α)) : List (Entry α) := orderedAlong .x entries

def alongY (entries : List (Entry α)) : List (Entry α) := orderedAlong .y (alongX entries)

/-- Entries sorted along each axis in turn. -/
def alongZ (entries : List (Entry α)) : List (Entry α) := orderedAlong .z (alongY entries)

/-- The cuts along all axes, in the order in which they are tried. -/
def allCuts (entries : List (Entry α)) : List (Cut α) :=
  cuts .x (alongX entries) ++ cuts .y (alongY entries) ++ cuts .z (alongZ entries)

/-- The axis of the best cut and the number of entries on its left side. -/
def choose (entries : List (Entry α)) : Axis × Nat :=
  match best? (allCuts entries) with
  | some c => (c.axis, c.left)
  | none => (.z, entries.length / 2)

def ofEntries (entries : List (Entry α)) : Split α :=
  let (d, k) := choose entries
  let sorted := orderedAlong d (alongZ entries)
  ⟨sorted.take k, sorted.drop k⟩

/-- Each side of a split of two entries or more holds an entry. -/
theorem choose_bounds {entries : List (Entry α)} (h : 2 ≤ entries.length) :
    0 < (choose entries).2 ∧ (choose entries).2 < entries.length := by
  unfold choose
  split
  · rename_i c hc
    have := best?_mem hc
    simp only [allCuts, List.mem_append] at this
    rcases this with (h | h) | h <;>
      simpa [alongX, alongY, alongZ] using left_of_mem_cuts h
  · dsimp only
    omega

theorem length_left {entries : List (Entry α)} (h : 2 ≤ entries.length) :
    (ofEntries entries).left.length = (choose entries).2 := by
  have := choose_bounds h
  simp only [ofEntries, alongZ, alongY, alongX, List.length_take, length_orderedAlong]
  omega

theorem length_right (entries : List (Entry α)) :
    (ofEntries entries).right.length = entries.length - (choose entries).2 := by
  simp [ofEntries, alongZ, alongY, alongX]

theorem left_pos {entries : List (Entry α)} (h : 2 ≤ entries.length) :
    0 < (ofEntries entries).left.length :=
  length_left h ▸ (choose_bounds h).1

theorem left_lt {entries : List (Entry α)} (h : 2 ≤ entries.length) :
    (ofEntries entries).left.length < entries.length :=
  length_left h ▸ (choose_bounds h).2

theorem right_pos {entries : List (Entry α)} (h : 2 ≤ entries.length) :
    0 < (ofEntries entries).right.length :=
  length_right entries ▸ Nat.sub_pos_of_lt (choose_bounds h).2

theorem right_lt {entries : List (Entry α)} (h : 2 ≤ entries.length) :
    (ofEntries entries).right.length < entries.length := by
  have := choose_bounds h
  rw [length_right]
  omega

/-- A split only moves entries. -/
theorem append_perm (entries : List (Entry α)) :
    ((ofEntries entries).left ++ (ofEntries entries).right).Perm entries := by
  simp only [ofEntries, List.take_append_drop]
  exact ((orderedAlong_perm ..).trans (orderedAlong_perm ..)).trans
    ((orderedAlong_perm ..).trans (orderedAlong_perm ..))

end Split

end SpatialSearch
