import SpatialSearch.Json.Form
import SpatialSearch.Query
import SpatialSearch.Options
import SpatialSearch.HitTable

/-!
# JSON forms of the domain types

The forms in which points, boxes, balls, queries, options and hit tables are exchanged.
Nothing is checked on reading: a negative radius or an inverted box is a value too.
-/

namespace SpatialSearch

open JsonForm Json

instance : JsonForm (Point Binary64) where
  write p := write p.toList
  read? v := do
    let [x, y, z] ← (read? v : Option (List Binary64)) | none
    return ⟨x, y, z⟩

instance : JsonForm (Box Binary64) where
  write b := record [("min", write b.lo), ("max", write b.hi)]
  read? v := do
    let [lo, hi] ← v.fields? ["min", "max"] 2 | none
    return ⟨← required? lo, ← required? hi⟩

instance : JsonForm (Ball Binary64) where
  write s := record [("center", write s.center), ("radius", write s.radius)]
  read? v := do
    let [center, radius] ← v.fields? ["center", "radius"] 2 | none
    return ⟨← required? center, ← required? radius⟩

instance : JsonForm (NearestQuery Binary64) where
  write n := record [("target", write n.target), ("k", write n.k)]
  read? v := do
    let [target, k] ← v.fields? ["target", "k"] 2 | none
    return ⟨← required? target, ← required? k⟩

instance : JsonForm (Query Binary64) where
  write
    | .overlapping box => record [(QueryKind.overlapping.name, write box)]
    | .touching ball => record [(QueryKind.touching.name, write ball)]
    | .nearest query => record [(QueryKind.nearest.name, write query)]
  read? v := do
    let (name, some content) ← v.choice? | none
    if name = QueryKind.overlapping.name then (read? content).map .overlapping
    else if name = QueryKind.touching.name then (read? content).map .touching
    else if name = QueryKind.nearest.name then (read? content).map .nearest
    else none

instance : JsonForm QueryKind where
  write kind := ofString kind.name
  read? v := do
    let name ← v.bareChoice?
    [QueryKind.overlapping, .touching, .nearest].find? (·.name = name)

namespace NearestMethod

def jsonName : NearestMethod → String
  | refining => "two_round"
  | enclosing => "conservative"

end NearestMethod

instance : JsonForm NearestMethod where
  write method := ofString method.jsonName
  read? v := do
    let name ← v.bareChoice?
    [NearestMethod.refining, .enclosing].find? (·.jsonName = name)

/-- Missing options have their defaults. -/
instance : JsonForm SearchOptions where
  write o := record
    [("max_neighbors", write o.neighborLimit), ("nearest_strategy", write o.method)]
  read? v := do
    let [neighborLimit, method] ← v.fields? ["max_neighbors", "nearest_strategy"] 0 | none
    let default : SearchOptions := {}
    return ⟨← withDefault? default.neighborLimit neighborLimit,
      ← withDefault? default.method method⟩

/-- The distance may be missing from an object. -/
instance : JsonForm (Hit Binary64) where
  write h := record
    [("index", write h.index), ("rank", write h.rank), ("distance", write h.distance)]
  read? v := do
    let [index, rank, distance] ← v.fields? ["index", "rank", "distance"] 3 | none
    return ⟨← required? index, ← required? rank, ← withDefault? none distance⟩

/-- The distances may be missing from an object. -/
instance : JsonForm (HitTable Binary64) where
  write r := record
    [("offsets", write r.offsets), ("indices", write r.indices), ("ranks", write r.ranks),
      ("distances", write r.distances)]
  read? v := do
    let [offsets, indices, ranks, distances] ←
      v.fields? ["offsets", "indices", "ranks", "distances"] 4 | none
    return ⟨← required? offsets, ← required? indices, ← required? ranks,
      ← withDefault? none distances⟩

end SpatialSearch
