import SpatialSearch.Index.BoxTree

/-!
# Assembly of tables

The table of a tree is filled in with a stack of tasks and no recursion. A task is a slot
together with the range of entries that the subtree at the slot is over. To carry out a task
with two entries or more, its range is divided in place, two blank slots are added for the
children, the slot becomes a branch that names them, and each side of the division is a new
task; a task with one entry makes its slot a leaf.

Which way a range is divided is left open. `SplitRule` says what assembly needs of it.
-/

namespace SpatialSearch

/-- A way to divide two entries or more in two parts, both with entries. -/
structure SplitRule (α : Type) where
  divide : List (Entry α) → Split α
  perm : ∀ entries, ((divide entries).left ++ (divide entries).right).Perm entries
  left_pos : ∀ {entries}, 2 ≤ entries.length → 0 < (divide entries).left.length
  right_pos : ∀ {entries}, 2 ≤ entries.length → 0 < (divide entries).right.length

namespace SplitRule

variable {α : Type} (rule : SplitRule α)

theorem length_add (entries : List (Entry α)) :
    (rule.divide entries).left.length + (rule.divide entries).right.length = entries.length := by
  simpa using (rule.perm entries).length_eq

theorem left_lt {entries : List (Entry α)} (h : 2 ≤ entries.length) :
    (rule.divide entries).left.length < entries.length := by
  have := rule.length_add entries
  have := rule.right_pos h
  omega

theorem right_lt {entries : List (Entry α)} (h : 2 ≤ entries.length) :
    (rule.divide entries).right.length < entries.length := by
  have := rule.length_add entries
  have := rule.left_pos h
  omega

def cheapest [Scalar α] : SplitRule α where
  divide := Split.ofEntries
  perm := Split.append_perm
  left_pos := Split.left_pos
  right_pos := Split.right_pos

variable [Scalar α]

/-- The subtree that a rule gives over a list of entries that is not empty. -/
def grow (entries : List (Entry α)) (h : 0 < entries.length) : BoxNode α :=
  if h2 : 2 ≤ entries.length then
    .branch (Entry.bounds entries)
      (grow (rule.divide entries).left (rule.left_pos h2))
      (grow (rule.divide entries).right (rule.right_pos h2))
  else .leaf (Entry.bounds entries) entries[0].index
termination_by entries.length
decreasing_by
  · exact rule.left_lt h2
  · exact rule.right_lt h2

/-- The cheapest cuts give the tree that is searched. -/
theorem grow_cheapest (entries : List (Entry α)) (h : 0 < entries.length) :
    cheapest.grow entries h = BoxNode.build entries h := by
  fun_induction BoxNode.build entries h with
  | case1 entries h h2 ihl ihr =>
    rw [grow, dif_pos h2]
    exact congr (congrArg (BoxNode.branch _) ihl) ihr
  | case2 entries h h2 => rw [grow, dif_neg h2]

end SplitRule

/-- A slot and the range of entries that are to go below it. -/
structure Task where
  slot : Nat
  lo : Nat
  hi : Nat

namespace Task

variable {α : Type}

def range (t : Task) (entries : List (Entry α)) : List (Entry α) :=
  (entries.drop t.lo).take (t.hi - t.lo)

/-- The number of slots that a task fills before it and all that come of it are done. -/
def size (t : Task) : Nat := 2 * (t.hi - t.lo) - 1

structure Fits (t : Task) (slots entries : Nat) : Prop where
  slot_lt : t.slot < slots
  lo_lt : t.lo < t.hi
  hi_le : t.hi ≤ entries

variable {t : Task}

theorem Fits.mono {slots more entries : Nat} (h : t.Fits slots entries)
    (hs : slots ≤ more) : t.Fits more entries :=
  ⟨Nat.lt_of_lt_of_le h.slot_lt hs, h.lo_lt, h.hi_le⟩

variable {slots : Nat} {entries : List (Entry α)}

theorem Fits.length_range (h : t.Fits slots entries.length) :
    (t.range entries).length = t.hi - t.lo := by
  have := h.hi_le
  rw [range, List.length_take, List.length_drop]
  omega

/-- Both sides of a divided range have entries, and together they have all of them. -/
theorem Fits.length_sides (h : t.Fits slots entries.length) (h2 : 2 ≤ t.hi - t.lo)
    (rule : SplitRule α) :
    0 < (rule.divide (t.range entries)).left.length ∧
      0 < (rule.divide (t.range entries)).right.length ∧
      (rule.divide (t.range entries)).left.length +
        (rule.divide (t.range entries)).right.length = t.hi - t.lo := by
  have hlen : 2 ≤ (t.range entries).length := h.length_range.symm ▸ h2
  exact ⟨rule.left_pos hlen, rule.right_pos hlen,
    (rule.length_add _).trans h.length_range⟩

end Task

/-- A table that is being filled in. -/
structure Assembly (α : Type) where
  entries : List (Entry α)
  /-- The slots; a slot that is still blank is `none`. -/
  slots : List (Option (BoxSlot α))
  pending : List Task
  fits : ∀ t ∈ pending, t.Fits slots.length entries.length

namespace Assembly

variable {α : Type}

def start (entries : List (Entry α)) (h : 0 < entries.length) : Assembly α where
  entries := entries
  slots := [none]
  pending := [⟨0, 0, entries.length⟩]
  fits := by
    intro t ht
    rw [List.mem_singleton.mp ht]
    exact ⟨Nat.one_pos, h, Nat.le_refl _⟩

variable {t : Task} {rest : List Task}

theorem fits_next {a : Assembly α} (h : a.pending = t :: rest) :
    t.Fits a.slots.length a.entries.length :=
  a.fits t (h ▸ List.mem_cons_self)

variable [Scalar α]

def placeLeaf (a : Assembly α) (h : a.pending = t :: rest) : Assembly α :=
  have ht := fits_next h
  have hpos : 0 < (t.range a.entries).length :=
    ht.length_range ▸ Nat.sub_pos_of_lt ht.lo_lt
  { a with
    slots := a.slots.set t.slot
      (some (.leaf (Entry.bounds (t.range a.entries)) (t.range a.entries)[0].index))
    pending := rest
    fits := by
      intro u hu
      rw [List.length_set]
      exact a.fits u (h ▸ List.mem_cons_of_mem t hu) }

/-- Divide the range of the next task and make its slot a branch; the sides are the next
tasks, the left one first. -/
def placeBranch (rule : SplitRule α) (a : Assembly α) (h : a.pending = t :: rest)
    (h2 : 2 ≤ t.hi - t.lo) : Assembly α :=
  let sides := rule.divide (t.range a.entries)
  let middle := t.lo + sides.left.length
  let left := a.slots.length
  let right := a.slots.length + 1
  { entries := a.entries.take t.lo ++ (sides.left ++ sides.right) ++ a.entries.drop t.hi
    slots := (a.slots ++ [none, none]).set t.slot
      (some (.branch (Entry.bounds (t.range a.entries)) left right))
    pending := ⟨left, t.lo, middle⟩ :: ⟨right, middle, t.hi⟩ :: rest
    fits := by
      have ht := fits_next h
      obtain ⟨hl, hr, hall⟩ := ht.length_sides h2 rule
      have hlo := ht.lo_lt
      have hhi := ht.hi_le
      have hentries : (a.entries.take t.lo ++ (sides.left ++ sides.right) ++
          a.entries.drop t.hi).length = a.entries.length := by
        simp only [List.length_append, List.length_take, List.length_drop, sides]
        omega
      intro u hu
      rw [hentries, List.length_set, List.length_append]
      rcases List.mem_cons.mp hu with rfl | hu
      · constructor <;> simp only [left, middle, sides, List.length_cons, List.length_nil] <;>
          omega
      rcases List.mem_cons.mp hu with rfl | hu
      · constructor <;> simp only [right, middle, sides, List.length_cons, List.length_nil] <;>
          omega
      · exact (a.fits u (h ▸ List.mem_cons_of_mem t hu)).mono (Nat.le_add_right _ _) }

def advance (rule : SplitRule α) (a : Assembly α) (h : a.pending = t :: rest) : Assembly α :=
  if h2 : 2 ≤ t.hi - t.lo then a.placeBranch rule h h2 else a.placeLeaf h

def work (a : Assembly α) : Nat := a.pending.foldr (fun t rest => t.size + rest) 0

/-- Every task fills one slot and leaves the others to the tasks it makes. -/
theorem work_advance (rule : SplitRule α) (a : Assembly α) (h : a.pending = t :: rest) :
    (a.advance rule h).work + 1 = a.work := by
  have ht := fits_next h
  have hlo := ht.lo_lt
  by_cases h2 : 2 ≤ t.hi - t.lo
  · obtain ⟨hl, hr, hall⟩ := ht.length_sides h2 rule
    simp only [advance, dif_pos h2, placeBranch, work, h, List.foldr_cons, Task.size]
    omega
  · simp only [advance, dif_neg h2, placeLeaf, work, h, List.foldr_cons, Task.size]
    omega

def run (rule : SplitRule α) (a : Assembly α) : Assembly α :=
  match h : a.pending with
  | [] => a
  | _ :: _ => run rule (a.advance rule h)
termination_by a.work
decreasing_by exact work_advance rule a h ▸ Nat.lt_succ_self _

def table (rule : SplitRule α) (entries : List (Entry α)) : List (Option (BoxSlot α)) :=
  if h : 0 < entries.length then ((start entries h).run rule).slots else []

end Assembly

end SpatialSearch
