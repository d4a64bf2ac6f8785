import SpatialSearch.Decimal.Shortest

/-!
# Numerals

Numbers as they are written: a sign, a whole part without leading zeros, digits after
a point and a power of ten. Two styles of writing binary64 values differ in where
positional notation ends and in which way ties go; both keep at least one digit after the
point in positional notation.
-/

namespace SpatialSearch

structure Numeral where
  negative : Bool
  whole : Nat
  fraction : List (Fin 10)
  exponent : Option Int
deriving DecidableEq

/-- The last `width` decimal digits of a number, leading zeros included. -/
def lastDigits : Nat → Nat → List (Fin 10)
  | 0, _ => []
  | width + 1, n => lastDigits width (n / 10) ++ [Fin.ofNat 10 n]

/-- The number that digits denote after those of `start`. -/
def appendDigits (start : Nat) (digits : List (Fin 10)) : Nat :=
  digits.foldl (fun n d => 10 * n + d.val) start

def digitChar (d : Fin 10) : Char := Char.ofNat ('0'.toNat + d.val)

def digitOfChar? (c : Char) : Option (Fin 10) :=
  if c.isDigit then some (Fin.ofNat 10 (c.toNat - '0'.toNat)) else none

namespace Decimal

/-- How many digits of a decimal are read. Numbers halfway between two binary64 values have
at most 767. -/
def readDigits : Nat := 768

/-- A decimal of which only the first digits are read. A one in the next place stands for
all that follow, also if they are zeros. -/
def abridged (d : Decimal) : Decimal :=
  let length := (Nat.toDigits 10 d.digits).length
  if length ≤ readDigits then d
  else
    let skipped := length - readDigits
    ⟨d.digits / Nat.pow 10 skipped * 10 + 1, d.scale + (skipped - 1 : Nat)⟩

end Decimal

namespace Numeral

/-- Whether neither a point nor a power of ten is written. -/
def isInteger (n : Numeral) : Bool := n.fraction.isEmpty && n.exponent.isNone

/-- The decimal without its sign; zeros at the end of the fraction are no digits of it. -/
def decimal (n : Numeral) : Decimal :=
  let fraction := (n.fraction.reverse.dropWhile (· == 0)).reverse
  ⟨appendDigits n.whole fraction, n.exponent.getD 0 - fraction.length⟩

/-- The nearest binary64 value, infinite beyond the range. A very long numeral is read by
its first digits. -/
def toBinary64 (n : Numeral) : Binary64 := .ofDecimal n.negative n.decimal.abridged

/-- The value of an integer numeral without a sign, if it fits 64 bits. -/
def toNat? (n : Numeral) : Option Nat :=
  if n.isInteger && !n.negative && n.whole < UInt64.size then some n.whole else none

/-- The value of an integer numeral, if it fits 64 bits with a sign; minus zero does not
count as an integer. -/
def toInt? (n : Numeral) : Option Int :=
  if !n.isInteger then none
  else if n.negative then
    if n.whole ≠ 0 && n.whole ≤ UInt64.size / 2 then some (-(n.whole : Int)) else none
  else if n.whole < UInt64.size / 2 then some n.whole
  else none

def ofNat (n : Nat) : Numeral := ⟨false, n, [], none⟩

def ofInt (i : Int) : Numeral := ⟨i < 0, i.natAbs, [], none⟩

def toChars (n : Numeral) : List Char :=
  let sign := if n.negative then ['-'] else []
  let fraction := if n.fraction.isEmpty then [] else '.' :: n.fraction.map digitChar
  let exponent := match n.exponent with
    | none => []
    | some e => 'e' :: (if e < 0 then ['-'] else []) ++ Nat.toDigits 10 e.natAbs
  sign ++ Nat.toDigits 10 n.whole ++ fraction ++ exponent

/-- How binary64 values are written. Positional notation is used if the point comes after
at least `leastPoint` and at most `greatestPoint` digits, counting zeros in front as
negative. -/
structure Style where
  leastPoint : Int
  greatestPoint : Int
  /-- Which of two equally short and near decimals is written. -/
  tie : Tie
deriving DecidableEq

/-- Descriptions are positional from `1e-4` to below `1e16`. A tie goes up. -/
def Style.description : Style := ⟨-3, 16, .up⟩

/-- JSON numbers are positional from `1e-5` to below `1e16`. A tie goes to the even digit. -/
def Style.json : Style := ⟨-4, 16, .toEven⟩

/-- Write a decimal in a style, with a digit on each side of the point where it is
positional, and with one digit before the point where it is not. -/
def ofDecimal (style : Style) (negative : Bool) (d : Decimal) : Numeral :=
  let length := (Nat.toDigits 10 d.digits).length
  let point : Int := length + d.scale
  if style.leastPoint ≤ point && point ≤ style.greatestPoint then
    if 0 ≤ d.scale then ⟨negative, d.digits * Nat.pow 10 d.scale.toNat, [0], none⟩
    else
      let places := (-d.scale).toNat
      ⟨negative, d.digits / Nat.pow 10 places, lastDigits places d.digits, none⟩
  else
    ⟨negative, d.digits / Nat.pow 10 (length - 1), lastDigits (length - 1) d.digits,
      some (point - 1)⟩

/-- Write a finite value with the fewest digits that read back. -/
def ofBinary64 (style : Style) (x : Binary64) : Numeral :=
  ofDecimal style x.isNegative (x.shortestDecimal style.tie)

end Numeral

end SpatialSearch
