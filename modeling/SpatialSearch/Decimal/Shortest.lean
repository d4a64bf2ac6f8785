import SpatialSearch.Decimal.Rounding

/-!
# Shortest decimals

The decimal of fewest digits that reads back as a given binary64 value; of several the
one nearest to it. Which of two equally near ones is taken is left to the caller. The
decimal is searched on grids of powers of ten from coarse to fine: on each grid only the
two neighbors of the value are tried, and a candidate counts only if reading it gives the
value back.
-/

namespace SpatialSearch

namespace Binary64

def powerAbove (x : Binary64) : Int :=
  let (num, den) := x.ratio
  (((Nat.log2 num : Int) - Nat.log2 den + 1) * 30103) / 100000 + 1

/-- The two neighbors of a positive finite value on the grid `10 ^ scale`, the nearer one
first. -/
def neighborsOn (tie : Tie) (x : Binary64) (scale : Int) : List Decimal :=
  let (num, den) := x.ratio
  let (a, b) := scaleDown 10 num den scale
  let below : Decimal := ⟨a / b, scale⟩
  let above : Decimal := ⟨a / b + 1, scale⟩
  if tie.round a b = a / b then [below, above] else [above, below]

/-- The candidates for the shortest decimal, from coarse grids to fine ones. -/
def shortDecimals (tie : Tie) (x : Binary64) : List Decimal :=
  (List.range 22).flatMap fun i : Nat => neighborsOn tie x (x.powerAbove - (i : Int))

def exactDecimal (x : Binary64) : Decimal :=
  let (m, e) := x.decompose
  if 0 ≤ e then ⟨m * Nat.pow 2 e.toNat, 0⟩ else ⟨m * Nat.pow 5 (-e).toNat, e⟩

/-- The shortest decimal that reads back as the magnitude of a finite value. -/
def shortestDecimal (tie : Tie) (x : Binary64) : Decimal :=
  if x.magnitude = 0 then ⟨0, 0⟩
  else
    ((shortDecimals tie x).find? fun d => ofDecimal x.isNegative d = x).getD x.exactDecimal

end Binary64

end SpatialSearch
