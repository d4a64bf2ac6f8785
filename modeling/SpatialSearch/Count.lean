import SpatialSearch.Abort

/-!
# Counts

How many items there are. A count is a number below 2^64, and room is made for fewer than
2^56 items at a time; what would go beyond gives up. Below these bounds counts are exact:
`sum_eq_ok_iff` says that adding up gives the sum or no answer at all.
-/

namespace SpatialSearch

namespace Count

def add (a b : Nat) : Except Abort Nat :=
  if a + b < UInt64.size then .ok (a + b) else .error .overflow

def sumFrom (seen : Nat) : List Nat → Except Abort Nat
  | [] => .ok seen
  | count :: rest =>
    match add seen count with
    | .ok seen => sumFrom seen rest
    | .error cause => .error cause

def sum (counts : List Nat) : Except Abort Nat := sumFrom 0 counts

/-- The bound on the number of items that room is made for: with 2^7 bytes for each they
fill 2^63 bytes. -/
def room : Nat := 72057594037927936

def reserve (count : Nat) : Except Abort Unit :=
  if count < room then .ok () else .error .noRoom

theorem le_foldl_add (seen : Nat) (counts : List Nat) :
    seen ≤ counts.foldl (· + ·) seen := by
  induction counts generalizing seen with
  | nil => exact Nat.le_refl seen
  | cons count rest ih => exact Nat.le_trans (Nat.le_add_right seen count) (ih _)

theorem sumFrom_eq_ok_iff {seen total : Nat} {counts : List Nat} (h : seen < UInt64.size) :
    sumFrom seen counts = .ok total ↔
      counts.foldl (· + ·) seen = total ∧ total < UInt64.size := by
  induction counts generalizing seen with
  | nil =>
    simp only [sumFrom, List.foldl_nil, Except.ok.injEq]
    exact ⟨fun heq => ⟨heq, heq ▸ h⟩, And.left⟩
  | cons count rest ih =>
    rw [sumFrom, List.foldl_cons, add]
    split
    · rename_i next hnext
      split at hnext
      · rename_i hlt
        cases hnext
        exact ih hlt
      · cases hnext
    · rename_i cause hnext
      split at hnext
      · cases hnext
      · rename_i hge
        have := le_foldl_add (seen + count) rest
        exact ⟨fun heq => (nomatch heq), fun ⟨heq, hlt⟩ => by omega⟩

/-- Counts add up exactly or not at all. -/
theorem sum_eq_ok_iff {total : Nat} {counts : List Nat} :
    sum counts = .ok total ↔ counts.foldl (· + ·) 0 = total ∧ total < UInt64.size :=
  sumFrom_eq_ok_iff (by decide)

end Count

end SpatialSearch
