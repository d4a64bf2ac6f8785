import SpatialSearch.Json.Value
import SpatialSearch.Json.Text

/-!
# JSON tokens

The tokens of JSON text, how they are read and how they are written. Blanks between
tokens are the space, the tabulator, the line feed and the carriage return.
-/

namespace SpatialSearch.Json

inductive Token where
  | openArray
  | closeArray
  | openObject
  | closeObject
  | comma
  | colon
  | null
  | bool (b : Bool)
  | number (n : Numeral)
  | string (text : Option String)
deriving DecidableEq

def isBlank (c : Char) : Bool := c = ' ' || c = '\n' || c = '\t' || c = '\r'

def scanDigits : List Char → List (Fin 10) × List Char
  | [] => ([], [])
  | c :: rest =>
    match digitOfChar? c with
    | none => ([], c :: rest)
    | some d =>
      let (digits, rest) := scanDigits rest
      (d :: digits, rest)

def scanDigits1? (text : List Char) : Option (List (Fin 10) × List Char) :=
  match scanDigits text with
  | ([], _) => none
  | found => some found

/-- The part of a numeral before the point: zero stands alone. -/
def scanWhole? : List Char → Option (Nat × List Char)
  | '0' :: rest => some (0, rest)
  | text => (scanDigits1? text).map fun (digits, rest) => (appendDigits 0 digits, rest)

def scanFraction? : List Char → Option (List (Fin 10) × List Char)
  | '.' :: rest => scanDigits1? rest
  | text => some ([], text)

/-- A sign, if there is one: whether it is a minus. -/
def scanSign : List Char → Bool × List Char
  | '-' :: rest => (true, rest)
  | '+' :: rest => (false, rest)
  | text => (false, text)

def scanExponent? : List Char → Option (Option Int × List Char)
  | [] => some (none, [])
  | c :: rest =>
    if c = 'e' || c = 'E' then do
      let (negative, rest) := scanSign rest
      let (digits, rest) ← scanDigits1? rest
      let e : Int := appendDigits 0 digits
      return (some (if negative then -e else e), rest)
    else some (none, c :: rest)

def scanNumeral? (text : List Char) : Option (Numeral × List Char) := do
  let (negative, text) := match text with
    | '-' :: rest => (true, rest)
    | text => (false, text)
  let (whole, text) ← scanWhole? text
  let (fraction, text) ← scanFraction? text
  let (exponent, text) ← scanExponent? text
  return (⟨negative, whole, fraction, exponent⟩, text)

/-- The token at the start of a text without blanks in front, and what follows it. -/
def scanToken? : List Char → Option (Token × List Char)
  | '[' :: rest => some (.openArray, rest)
  | ']' :: rest => some (.closeArray, rest)
  | '\x7b' :: rest => some (.openObject, rest)
  | '\x7d' :: rest => some (.closeObject, rest)
  | ',' :: rest => some (.comma, rest)
  | ':' :: rest => some (.colon, rest)
  | 'n' :: 'u' :: 'l' :: 'l' :: rest => some (.null, rest)
  | 't' :: 'r' :: 'u' :: 'e' :: rest => some (.bool true, rest)
  | 'f' :: 'a' :: 'l' :: 's' :: 'e' :: rest => some (.bool false, rest)
  | '"' :: rest => (scanPieces rest).map fun (pieces, rest) =>
    (.string ((decodePieces pieces).map String.ofList), rest)
  | text => (scanNumeral? text).map fun (n, rest) => (.number n, rest)

theorem length_scanPieces {text rest : List Char} {pieces : List Piece}
    (h : scanPieces text = some (pieces, rest)) : rest.length < text.length := by
  fun_induction scanPieces text generalizing pieces rest with
  | case1 => simp at h
  | case2 => simp_all
  | case3 a b c d text ih =>
    simp only [bind, Option.bind_eq_some_iff, pure] at h
    obtain ⟨_, _, ⟨_, _⟩, hrest, hout⟩ := h
    cases hout
    have := ih hrest
    simp only [List.length_cons]
    omega
  | case4 e text _ ih =>
    simp only [bind, Option.bind_eq_some_iff, pure] at h
    obtain ⟨_, _, ⟨_, _⟩, hrest, hout⟩ := h
    cases hout
    have := ih hrest
    simp only [List.length_cons]
    omega
  | case5 => simp at h
  | case6 c text _ _ _ _ ih =>
    simp only [bind, Option.bind_eq_some_iff, pure] at h
    obtain ⟨⟨_, _⟩, hrest, hout⟩ := h
    cases hout
    have := ih hrest
    simp only [List.length_cons]
    omega

theorem length_scanDigits (text : List Char) :
    (scanDigits text).1.length + (scanDigits text).2.length = text.length := by
  induction text with
  | nil => rfl
  | cons c rest ih =>
    simp only [scanDigits]
    split
    · simp
    · simp only [List.length_cons]
      omega

theorem length_scanDigits1? {text rest : List Char} {digits : List (Fin 10)}
    (h : scanDigits1? text = some (digits, rest)) : rest.length < text.length := by
  have hlen := length_scanDigits text
  unfold scanDigits1? at h
  split at h
  · simp at h
  · rename_i hne
    have heq := Option.some.inj h
    rw [heq] at hlen hne
    cases digits with
    | nil => exact absurd rfl (hne rest)
    | cons => simp only [List.length_cons] at hlen; omega

theorem length_scanWhole? {text rest : List Char} {n : Nat}
    (h : scanWhole? text = some (n, rest)) : rest.length < text.length := by
  unfold scanWhole? at h
  split at h
  · cases h; simp
  · obtain ⟨⟨_, _⟩, hdigits, hout⟩ := Option.map_eq_some_iff.mp h
    cases hout
    exact length_scanDigits1? hdigits

theorem length_scanFraction? {text rest : List Char} {digits : List (Fin 10)}
    (h : scanFraction? text = some (digits, rest)) : rest.length ≤ text.length := by
  unfold scanFraction? at h
  split at h
  · have := length_scanDigits1? h
    simp only [List.length_cons]
    omega
  · cases h; exact Nat.le_refl _

theorem length_scanSign (text : List Char) : (scanSign text).2.length ≤ text.length := by
  unfold scanSign
  split <;> simp

theorem length_scanExponent? {text rest : List Char} {e : Option Int}
    (h : scanExponent? text = some (e, rest)) : rest.length ≤ text.length := by
  unfold scanExponent? at h
  split at h
  · cases h; exact Nat.le_refl _
  · rename_i c text
    split at h
    · simp only [bind, Option.bind_eq_some_iff, pure] at h
      obtain ⟨⟨_, _⟩, hdigits, hout⟩ := h
      cases hout
      have := length_scanDigits1? hdigits
      have := length_scanSign text
      simp only [List.length_cons]
      omega
    · cases h; exact Nat.le_refl _

theorem length_scanNumeral? {text rest : List Char} {n : Numeral}
    (h : scanNumeral? text = some (n, rest)) : rest.length < text.length := by
  unfold scanNumeral? at h
  have key : ∀ (negative : Bool) (body : List Char),
      (do
        let (whole, text) ← scanWhole? body
        let (fraction, text) ← scanFraction? text
        let (exponent, text) ← scanExponent? text
        return (⟨negative, whole, fraction, exponent⟩, text) :
          Option (Numeral × List Char)) = some (n, rest) →
      rest.length < body.length := by
    intro negative body h
    simp only [bind, Option.bind_eq_some_iff, pure] at h
    obtain ⟨⟨_, _⟩, hwhole, ⟨_, _⟩, hfraction, ⟨_, _⟩, hexponent, hout⟩ := h
    cases hout
    have h₁ := length_scanWhole? hwhole
    have h₂ := length_scanFraction? hfraction
    have h₃ := length_scanExponent? hexponent
    simp only at h₂ h₃ ⊢
    omega
  split at h
  · rename_i tail hmatch
    split at hmatch
    · cases hmatch
      have := key _ _ h
      simp only [List.length_cons]
      omega
    · cases hmatch
      exact key _ _ h

/-- Reading a token uses up characters. -/
theorem length_scanToken? {text rest : List Char} {t : Token}
    (h : scanToken? text = some (t, rest)) : rest.length < text.length := by
  unfold scanToken? at h
  split at h
  case h_10 =>
    obtain ⟨⟨_, _⟩, hpieces, hout⟩ := Option.map_eq_some_iff.mp h
    cases hout
    have := length_scanPieces hpieces
    simp only [List.length_cons]
    omega
  case h_11 =>
    obtain ⟨⟨_, _⟩, hnumeral, hout⟩ := Option.map_eq_some_iff.mp h
    cases hout
    exact length_scanNumeral? hnumeral
  all_goals
    cases h
    simp only [List.length_cons]
    omega

def tokenize (text : List Char) : Option (List Token) :=
  match text with
  | [] => some []
  | c :: rest =>
    if isBlank c then tokenize rest
    else match _found : scanToken? (c :: rest) with
      | none => none
      | some (t, rest) => (tokenize rest).map (t :: ·)
termination_by text.length
decreasing_by
  · simp
  · exact length_scanToken? _found

namespace Token

/-- How a token is written. A string that denotes no text is written as a lone surrogate. -/
def toChars : Token → List Char
  | openArray => ['[']
  | closeArray => [']']
  | openObject => ['\x7b']
  | closeObject => ['\x7d']
  | comma => [',']
  | colon => [':']
  | null => ['n', 'u', 'l', 'l']
  | bool true => ['t', 'r', 'u', 'e']
  | bool false => ['f', 'a', 'l', 's', 'e']
  | number n => n.toChars
  | string (some text) => quote text.toList
  | string none => ['"', '\\', 'u', 'd', '8', '0', '0', '"']

end Token

end SpatialSearch.Json
