import SpatialSearch.Decimal.Numeral

/-!
# JSON values

Values as they are written: numbers keep their numeral, objects keep their members
in order with repetitions. A string is `none` if its literal denotes no text.
-/

namespace SpatialSearch

inductive Json where
  | null
  | bool (b : Bool)
  | number (n : Numeral)
  | string (text : Option String)
  | array (items : List Json)
  | object (members : List (Option String × Json))

namespace Json

def ofString (s : String) : Json := .string (some s)

def ofNat (n : Nat) : Json := .number (.ofNat n)

def ofInt (i : Int) : Json := .number (.ofInt i)

def record (members : List (String × Json)) : Json :=
  .object (members.map fun (key, value) => (some key, value))

/-- The member of an object under a key; of several the last. -/
def member? (key : String) : Json → Option Json
  | .object members => members.reverse.lookup (some key)
  | _ => none

def string? : Json → Option String
  | .string text => text
  | _ => none

/-- A natural number of at most 64 bits, written without point or power of ten. -/
def nat? : Json → Option Nat
  | .number n => n.toNat?
  | _ => none

/-- An integer of at most 64 bits, written without point or power of ten. -/
def int? : Json → Option Int
  | .number n => n.toInt?
  | _ => none

def bool? : Json → Option Bool
  | .bool b => some b
  | _ => none

def array? : Json → Option (List Json)
  | .array items => some items
  | _ => none

def binary64? : Json → Option Binary64
  | .number n => if n.toBinary64.isFinite then some n.toBinary64 else none
  | _ => none

end Json

end SpatialSearch
