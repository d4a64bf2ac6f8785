import SpatialSearch.Scalar.Binary64

/-!
# Rounding to binary64

The binary64 value nearest to a ratio of natural numbers, ties to the even
significand, in exact integer arithmetic; and with it the value of a decimal.

The encoding of a magnitude `m * 2 ^ e` with `m ≤ 2 ^ 53` and `-1074 ≤ e` is
`(e + 1074) * 2 ^ 52 + m`, so a significand that rounds up to `2 ^ 53` carries into
the exponent by itself, and subnormal values need no case of their own.
-/

namespace SpatialSearch

/-- A decimal: `digits * 10 ^ scale`. -/
structure Decimal where
  digits : Nat
  scale : Int
deriving DecidableEq

/-- The integer nearest to `a / b`; a half goes to the even neighbor. -/
def roundHalfEven (a b : Nat) : Nat :=
  let q := a / b
  let r := a % b
  if 2 * r < b then q else if b < 2 * r then q + 1 else q + q % 2

/-- Where a number goes that is halfway between two neighbors. -/
inductive Tie where
  | toEven
  | up
deriving DecidableEq

def Tie.round (tie : Tie) (a b : Nat) : Nat :=
  match tie with
  | toEven => roundHalfEven a b
  | up => (2 * a + b) / (2 * b)

/-- The pair of natural numbers whose ratio is `num / den` divided by `base ^ e`. -/
def scaleDown (base num den : Nat) (e : Int) : Nat × Nat :=
  if 0 ≤ e then (num, den * Nat.pow base e.toNat) else (num * Nat.pow base (-e).toNat, den)

namespace Binary64

/-- The least significand of a normal value, `2 ^ 52`, and the weight of an exponent in
the encoding. -/
def normalUnit : Nat := 4503599627370496

/-- The exponent of the unit in the last place of a positive ratio: the significand then
has 53 bits, or fewer at the least exponent. -/
def unitExponent (num den : Nat) : Int :=
  let l : Int := (Nat.log2 num : Int) - Nat.log2 den
  let (a, b) := scaleDown 2 num den l
  max (if b ≤ a then l - 52 else l - 53) (-1074)

def nearestMagnitude (num den : Nat) : Nat :=
  if num = 0 then 0
  else
    let e := unitExponent num den
    let (a, b) := scaleDown 2 num den e
    min ((e + 1074).toNat * normalUnit + roundHalfEven a b) infinityBits.toNat

def ofMagnitude (negative : Bool) (magnitude : Nat) : Binary64 :=
  ⟨(if negative then signBit else 0) + UInt64.ofNat magnitude⟩

/-- The value nearest to a decimal. A decimal far beyond either end of the range is
recognised by its length, without computing its power of ten. -/
def ofDecimal (negative : Bool) (d : Decimal) : Binary64 :=
  let length : Int := (Nat.toDigits 10 d.digits).length
  if d.digits = 0 || d.scale + length < -330 then ofMagnitude negative 0
  else if 310 < d.scale + length then ofMagnitude negative infinityBits.toNat
  else
    let (num, den) := scaleDown 10 d.digits 1 (-d.scale)
    ofMagnitude negative (nearestMagnitude num den)

/-- The significand and exponent of a finite value: its magnitude is `m * 2 ^ e`. -/
def decompose (x : Binary64) : Nat × Int :=
  let field : Nat := x.magnitude.toNat / normalUnit
  let fraction : Nat := x.magnitude.toNat % normalUnit
  if field = 0 then (fraction, -1074) else (normalUnit + fraction, (field : Int) - 1075)

def ratio (x : Binary64) : Nat × Nat :=
  let (m, e) := x.decompose
  scaleDown 2 m 1 (-e)

end Binary64

end SpatialSearch
