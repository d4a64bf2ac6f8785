import SpatialSearch.Scalar

/-!
# Binary64 scalars

The scalars that run: IEEE 754 binary64 values, kept as their 64 bits so that every
value, each NaN included, is told from every other. Comparison and sorting are
defined on the bits; addition, subtraction, multiplication and square root are the
correctly rounded operations of `Float`.

A NaN operand is passed on by arithmetic with its sign and payload, the first one
first, and an operation without a value gives the negative quiet NaN.
-/

namespace SpatialSearch

/-- A binary64 value by its bits: sign, eleven bits of exponent, 52 of significand. -/
structure Binary64 where
  bits : UInt64
deriving DecidableEq

namespace Binary64

/-- The bits of the sign alone, also the encoding of minus zero. -/
def signBit : UInt64 := 0x8000000000000000

/-- The encoding of plus infinity; the magnitudes above it are those of NaNs. -/
def infinityBits : UInt64 := 0x7ff0000000000000

def isNegative (x : Binary64) : Bool := signBit ≤ x.bits

def magnitude (x : Binary64) : UInt64 :=
  if signBit ≤ x.bits then x.bits - signBit else x.bits

def isNaN (x : Binary64) : Bool := infinityBits < x.magnitude

def isFinite (x : Binary64) : Bool := x.magnitude < infinityBits

/-- The place of `x` among all values: negative NaNs, negative numbers, minus zero, plus
zero, positive numbers, positive NaNs. -/
def place (x : Binary64) : UInt64 :=
  if signBit ≤ x.bits then 0xffffffffffffffff - x.bits else x.bits + signBit

/-- The place of `x` among the numbers, where both zeros share one. -/
def level (x : Binary64) : UInt64 :=
  if x.magnitude = 0 then signBit else x.place

instance : LT Binary64 where
  lt a b := a.isNaN = false ∧ b.isNaN = false ∧ a.level < b.level

instance : LE Binary64 where
  le a b := a.isNaN = false ∧ b.isNaN = false ∧ a.level ≤ b.level

instance : BEq Binary64 where
  beq a b := !a.isNaN && !b.isNaN && a.level == b.level

instance decidableLT (a b : Binary64) : Decidable (a < b) :=
  inferInstanceAs (Decidable (_ ∧ _ ∧ _))

instance decidableLE (a b : Binary64) : Decidable (a ≤ b) :=
  inferInstanceAs (Decidable (_ ∧ _ ∧ _))

def totalOrder (a b : Binary64) : Ordering := compare a.place b.place

def zero : Binary64 := ⟨0⟩

def half : Binary64 := ⟨0x3fe0000000000000⟩

def infinity : Binary64 := ⟨infinityBits⟩

def negInfinity : Binary64 := ⟨0xfff0000000000000⟩

/-- What an operation without a value gives: the negative quiet NaN. -/
def invalid : Binary64 := ⟨0xfff8000000000000⟩

def quiet (x : Binary64) : Binary64 := ⟨x.bits ||| 0x0008000000000000⟩

/-- The value in hardware arithmetic. -/
def toFloat (x : Binary64) : Float := Float.ofBits x.bits

def ofFloat (x : Float) : Binary64 := if x.isNaN then invalid else ⟨x.toBits⟩

/-- Apply an operation to two numbers; a NaN among them is passed on instead. -/
def lift (op : Float → Float → Float) (a b : Binary64) : Binary64 :=
  if a.isNaN then a.quiet
  else if b.isNaN then b.quiet
  else ofFloat (op a.toFloat b.toFloat)

instance : Zero Binary64 := ⟨zero⟩

instance : Add Binary64 := ⟨lift (· + ·)⟩

instance : Sub Binary64 := ⟨lift (· - ·)⟩

instance : Mul Binary64 := ⟨lift (· * ·)⟩

/-- The rounded square root; a negative number has none. -/
def sqrt (x : Binary64) : Binary64 :=
  if x.isNaN then x.quiet else ofFloat x.toFloat.sqrt

def ofCount (n : Nat) : Binary64 := ofFloat (Float.ofNat n)

instance : Scalar Binary64 where
  half := half
  infinity := infinity
  negInfinity := negInfinity
  ofCount := ofCount
  sqrt := sqrt
  totalOrder := totalOrder
  decidableLT := decidableLT
  decidableLE := decidableLE

end Binary64

end SpatialSearch
