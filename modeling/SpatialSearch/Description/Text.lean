import SpatialSearch.Decimal.Numeral
import SpatialSearch.Geometry.Box
import SpatialSearch.Neighbor

/-!
# Descriptions

One-line texts for people to look at: the name of a type with its fields in braces, or
in parentheses if they have no names. A description that leaves out fields ends in two
dots. The names are fixed, so that descriptions can be compared from one version to the
next.
-/

namespace SpatialSearch

class Described (β : Type) where
  describe : β → String

namespace Described

def fields (name : String) (fields : List (String × String)) : String :=
  name ++ " \x7b " ++ ", ".intercalate (fields.map fun (key, text) => key ++ ": " ++ text)

def record (name : String) (items : List (String × String)) : String :=
  fields name items ++ " \x7d"

def partialRecord (name : String) (items : List (String × String)) : String :=
  fields name items ++ ", .. \x7d"

def wrapped (name content : String) : String := name ++ "(" ++ content ++ ")"

instance : Described Nat := ⟨Nat.repr⟩

instance : Described Int := ⟨Int.repr⟩

instance {β : Type} [Described β] : Described (List β) where
  describe items := "[" ++ ", ".intercalate (items.map describe) ++ "]"

instance {β : Type} [Described β] : Described (Option β) where
  describe
    | none => "None"
    | some x => wrapped "Some" (describe x)

instance : Described Binary64 where
  describe x :=
    if x.isNaN then "NaN"
    else if x.isFinite then .ofList (Numeral.ofBinary64 .description x).toChars
    else if x.isNegative then "-inf"
    else "inf"

instance : Described (Point Binary64) where
  describe p := wrapped "Point3" (describe p.toList)

instance : Described (Box Binary64) where
  describe b := record "Aabb3D" [("min", describe b.lo), ("max", describe b.hi)]

instance : Described (Neighbor Binary64) where
  describe n :=
    record "Neighbor" [("distance", describe n.distance), ("index", describe n.index)]

end Described

end SpatialSearch
