import SpatialSearch.Json.Value

/-!
# JSON forms of types

How values of a type are written in JSON and which JSON values are read as one. A
record is written as an object and is read from an object, with unknown members passed
over, or from an array of its fields in order.
-/

namespace SpatialSearch

/-- The JSON form of a type. -/
class JsonForm (β : Type) where
  write : β → Json
  read? : Json → Option β

namespace JsonForm

instance : JsonForm Nat where
  write := Json.ofNat
  read? := Json.nat?

/-- A finite number is written as such, all else as null; only numbers are read. -/
instance : JsonForm Binary64 where
  write x := if x.isFinite then .number (.ofBinary64 .json x) else .null
  read? := Json.binary64?

instance {β : Type} [JsonForm β] : JsonForm (List β) where
  write items := .array (items.map write)
  read?
    | .array items => items.mapM read?
    | _ => none

instance {β : Type} [JsonForm β] : JsonForm (Option β) where
  write
    | none => .null
    | some x => write x
  read?
    | .null => some none
    | v => (read? v).map some

end JsonForm

namespace Json

/-- The value of a field among the members of an object: none if it is missing, and a
failure if it is there twice. -/
def uniqueMember? (members : List (String × Json)) (name : String) :
    Option (Option Json) :=
  match members.filter (·.1 == name) with
  | [] => some none
  | [(_, v)] => some (some v)
  | _ => none

/-- The fields of a record by their names. An array holds the fields from the first on,
at least `least` of them. -/
def fields? (names : List String) (least : Nat) : Json → Option (List (Option Json))
  | .object members => do
    let members ← members.mapM fun (key, v) => key.map fun key => (key, v)
    names.mapM (uniqueMember? members)
  | .array items =>
    if least ≤ items.length && items.length ≤ names.length then
      some (items.map some ++ List.replicate (names.length - items.length) none)
    else none
  | _ => none

def required? {β : Type} [JsonForm β] (field : Option Json) : Option β :=
  field.bind JsonForm.read?

def withDefault? {β : Type} [JsonForm β] (default : β) : Option Json → Option β
  | none => some default
  | some v => JsonForm.read? v

/-- The name and the content of a choice: a name alone has no content. -/
def choice? : Json → Option (String × Option Json)
  | .string (some name) => some (name, none)
  | .object [(some name, content)] => some (name, some content)
  | _ => none

/-- The name of a choice without content, which may also be written as null. -/
def bareChoice? (v : Json) : Option String :=
  match v.choice? with
  | some (name, none) => some name
  | some (name, some .null) => some name
  | _ => none

end Json

end SpatialSearch
