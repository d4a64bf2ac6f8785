import SpatialSearch.Json.Token

/-!
# Writing JSON

The tokens of a value, and its text: the tokens in a row without blanks.
-/

namespace SpatialSearch.Json

mutual

def toTokens : Json → List Token
  | .null => [.null]
  | .bool b => [.bool b]
  | .number n => [.number n]
  | .string text => [.string text]
  | .array items => .openArray :: itemTokens items ++ [.closeArray]
  | .object members => .openObject :: memberTokens members ++ [.closeObject]

def itemTokens : List Json → List Token
  | [] => []
  | [v] => toTokens v
  | v :: w :: rest => toTokens v ++ .comma :: itemTokens (w :: rest)

def memberTokens : List (Option String × Json) → List Token
  | [] => []
  | [(key, v)] => .string key :: .colon :: toTokens v
  | (key, v) :: w :: rest =>
    .string key :: .colon :: toTokens v ++ .comma :: memberTokens (w :: rest)

end

def render (v : Json) : String :=
  String.ofList (v.toTokens.flatMap Token.toChars)

end SpatialSearch.Json
