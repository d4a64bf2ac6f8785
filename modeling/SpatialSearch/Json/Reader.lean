import SpatialSearch.Json.Token

/-!
# Reading JSON

A value is put together from tokens by a machine that keeps the arrays and objects it
is inside of. Each token is one step, so reading a concatenation of tokens is reading
the parts one after the other. A text is read if it holds exactly one value.
-/

namespace SpatialSearch.Json

/-- An array or object that is being read; what is complete is kept in reverse. -/
inductive Frame where
  | items (done : List Json)
  /-- An object with its members so far and the key of the value being read. -/
  | members (done : List (Option String × Json)) (key : Option String)

/-- What the machine has to see next. -/
inductive Expectation where
  | value
  | firstItem
  | firstMember
  | member (done : List (Option String × Json))
  | colon (done : List (Option String × Json)) (key : Option String)
  | after (value : Json)

/-- The machine: what it has to see next and what it is inside of, innermost first. -/
structure Machine where
  expects : Expectation
  inside : List Frame

namespace Machine

def start : Machine := ⟨.value, []⟩

def beginValue (inside : List Frame) : Token → Option Machine
  | .openArray => some ⟨.firstItem, inside⟩
  | .openObject => some ⟨.firstMember, inside⟩
  | .null => some ⟨.after .null, inside⟩
  | .bool b => some ⟨.after (.bool b), inside⟩
  | .number n => some ⟨.after (.number n), inside⟩
  | .string text => some ⟨.after (.string text), inside⟩
  | _ => none

def step (m : Machine) (t : Token) : Option Machine :=
  match m.expects, m.inside, t with
  | .value, inside, t => beginValue inside t
  | .firstItem, inside, .closeArray => some ⟨.after (.array []), inside⟩
  | .firstItem, inside, t => beginValue (.items [] :: inside) t
  | .firstMember, inside, .closeObject => some ⟨.after (.object []), inside⟩
  | .firstMember, inside, .string key => some ⟨.colon [] key, inside⟩
  | .member done, inside, .string key => some ⟨.colon done key, inside⟩
  | .colon done key, inside, .colon => some ⟨.value, .members done key :: inside⟩
  | .after v, .items done :: inside, .comma => some ⟨.value, .items (v :: done) :: inside⟩
  | .after v, .items done :: inside, .closeArray =>
    some ⟨.after (.array (v :: done).reverse), inside⟩
  | .after v, .members done key :: inside, .comma =>
    some ⟨.member ((key, v) :: done), inside⟩
  | .after v, .members done key :: inside, .closeObject =>
    some ⟨.after (.object ((key, v) :: done).reverse), inside⟩
  | _, _, _ => none

def result? : Machine → Option Json
  | ⟨.after v, []⟩ => some v
  | _ => none

end Machine

def ofTokens? (tokens : List Token) : Option Json :=
  (tokens.foldlM Machine.step .start).bind Machine.result?

def parse? (text : String) : Option Json :=
  (tokenize text.toList).bind ofTokens?

end SpatialSearch.Json
