import Mathlib.Tactic
import SpatialSearch.Proofs.Numerals
import SpatialSearch.Json.Printer
import SpatialSearch.Json.Reader

/-!
# Texts hold what they were written from

A written value is read back as it is, with the order and the repetitions of its members. Tokens
are read one by one: a token ends where it was written to end, if a number is not followed by
what would go on with it, and in a written value it never is. The machine that puts a value
together comes out of the tokens of a part with that part complete and all around it unchanged.
-/

namespace SpatialSearch

/-! ### Digits -/

theorem digitOfChar?_digitChar (d : Fin 10) : digitOfChar? (digitChar d) = some d := by
  revert d
  decide

theorem digitChar_ofNat {n : ℕ} (h : n < 10) : digitChar (Fin.ofNat 10 n) = n.digitChar := by
  revert h
  revert n
  decide

/-- The characters of a number are those of its last digits, as many as there are. -/
theorem toDigits_eq (n : ℕ) :
    Nat.toDigits 10 n = (lastDigits (Nat.toDigits 10 n).length n).map digitChar := by
  induction n using Nat.strongRecOn with
  | ind n ih =>
    by_cases hn : n < 10
    · rw [Nat.toDigits_of_lt_base hn]
      change _ = [digitChar (Fin.ofNat 10 n)]
      rw [digitChar_ofNat hn]
    · have hlast : digitChar (Fin.ofNat 10 n) = (n % 10).digitChar := by
        rw [← digitChar_ofNat (Nat.mod_lt n (by decide))]
        exact congrArg digitChar (Fin.ext (Nat.mod_mod n 10).symm)
      rw [Nat.toDigits_of_base_le (by decide) (Nat.le_of_not_lt hn), List.length_append,
        List.length_singleton, lastDigits, List.map_append, List.map_singleton, hlast]
      congr 1
      exact ih (n / 10) (by omega)

/-- What the characters of a number are read as. -/
theorem exists_digits (n : ℕ) : ∃ d digits,
    Nat.toDigits 10 n = (d :: digits).map digitChar ∧ appendDigits 0 (d :: digits) = n := by
  have hlt : n < 10 ^ (Nat.toDigits 10 n).length :=
    (Nat.length_toDigits_le_iff (by decide) Nat.length_toDigits_pos).mp (le_refl _)
  have hvalue := appendDigits_lastDigits 0 (Nat.toDigits 10 n).length n
  have hlength := length_lastDigits (Nat.toDigits 10 n).length n
  rw [zero_mul, zero_add, Nat.mod_eq_of_lt hlt] at hvalue
  cases hdigits : lastDigits (Nat.toDigits 10 n).length n with
  | nil =>
    rw [hdigits] at hlength
    exact absurd hlength.symm Nat.length_toDigits_pos.ne'
  | cons d digits =>
    refine ⟨d, digits, ?_, ?_⟩
    · rw [toDigits_eq n, hdigits]
    · rw [← hdigits]
      exact hvalue

/-- Only zero starts with a zero. -/
theorem head_toDigits {n : ℕ} (h : 0 < n) : ∃ c rest, Nat.toDigits 10 n = c :: rest ∧ c ≠ '0' := by
  induction n using Nat.strongRecOn with
  | ind n ih =>
    by_cases hn : n < 10
    · have hdigit : ∀ m < 10, 0 < m → m.digitChar ≠ '0' := by decide
      exact ⟨n.digitChar, [], Nat.toDigits_of_lt_base hn, hdigit n hn h⟩
    · obtain ⟨c, rest, hdigits, hc⟩ := ih (n / 10) (by omega) (by omega)
      rw [Nat.toDigits_of_base_le (by decide) (Nat.le_of_not_lt hn), hdigits]
      exact ⟨c, _, rfl, hc⟩

namespace Json

/-- A text that does not go on with a numeral in front of it. -/
def EndsNumeral (text : List Char) : Prop :=
  ∀ c ∈ text.head?, digitOfChar? c = none ∧ c ≠ '.' ∧ c ≠ 'e' ∧ c ≠ 'E'

theorem endsNumeral_nil : EndsNumeral [] := fun _ h => nomatch h

theorem endsNumeral_cons {c : Char} (h : digitOfChar? c = none ∧ c ≠ '.' ∧ c ≠ 'e' ∧ c ≠ 'E')
    (rest : List Char) : EndsNumeral (c :: rest) := by
  intro b hb
  obtain rfl := Option.mem_some.mp hb
  exact h

theorem scanDigits_append (digits : List (Fin 10)) {rest : List Char}
    (h : ∀ c ∈ rest.head?, digitOfChar? c = none) :
    scanDigits (digits.map digitChar ++ rest) = (digits, rest) := by
  induction digits with
  | nil =>
    cases rest with
    | nil => rfl
    | cons c rest => simp only [List.map_nil, List.nil_append, scanDigits, h c rfl]
  | cons d digits ih =>
    simp only [List.map_cons, List.cons_append, scanDigits, digitOfChar?_digitChar, ih]

theorem scanDigits1?_append (d : Fin 10) (digits : List (Fin 10)) {rest : List Char}
    (h : ∀ c ∈ rest.head?, digitOfChar? c = none) :
    scanDigits1? ((d :: digits).map digitChar ++ rest) = some (d :: digits, rest) := by
  rw [scanDigits1?, scanDigits_append _ h]

theorem scanWhole?_append (n : ℕ) {rest : List Char}
    (h : ∀ c ∈ rest.head?, digitOfChar? c = none) :
    scanWhole? (Nat.toDigits 10 n ++ rest) = some (n, rest) := by
  rcases Nat.eq_zero_or_pos n with rfl | hpos
  · rfl
  · obtain ⟨d, digits, hdigits, hvalue⟩ := exists_digits n
    obtain ⟨c, tail, hhead, hc⟩ := head_toDigits hpos
    have hscan := scanDigits1?_append d digits h
    rw [← hdigits, hhead] at hscan
    rw [hhead, scanWhole?, hscan]
    · change some (appendDigits 0 (d :: digits), rest) = _
      rw [hvalue]
    · intro tail' heq
      exact hc (List.cons.inj heq).1

def fractionChars (fraction : List (Fin 10)) : List Char :=
  if fraction.isEmpty then [] else '.' :: fraction.map digitChar

def exponentChars : Option ℤ → List Char
  | none => []
  | some e => 'e' :: (if e < 0 then ['-'] else []) ++ Nat.toDigits 10 e.natAbs

theorem toChars_eq (n : Numeral) : n.toChars = (if n.negative then ['-'] else []) ++
    (Nat.toDigits 10 n.whole ++ (fractionChars n.fraction ++ exponentChars n.exponent)) := by
  rw [Numeral.toChars, ← List.append_assoc, ← List.append_assoc]
  cases n.exponent <;> rfl

theorem scanFraction?_append (fraction : List (Fin 10)) {rest : List Char}
    (h : ∀ c ∈ rest.head?, digitOfChar? c = none ∧ c ≠ '.') :
    scanFraction? (fractionChars fraction ++ rest) = some (fraction, rest) := by
  cases fraction with
  | nil =>
    cases rest with
    | nil => rfl
    | cons c rest =>
      have hc := (h c rfl).2
      simp [fractionChars, scanFraction?, hc]
  | cons d digits => exact scanDigits1?_append d digits fun c hc => (h c hc).1

theorem scanSign_digit (d : Fin 10) (text : List Char) :
    scanSign (digitChar d :: text) = (false, digitChar d :: text) := by
  fin_cases d <;> rfl

theorem scanExponent?_sign (negative : Bool) {text tail rest : List Char} {digits : List (Fin 10)}
    (hsign : scanSign text = (negative, tail)) (hdigits : scanDigits1? tail = some (digits, rest)) :
    scanExponent? ('e' :: text) = some (some (if negative then -(appendDigits 0 digits : ℤ)
      else appendDigits 0 digits), rest) := by
  simp [scanExponent?, hsign, hdigits]

theorem scanExponent?_append (exponent : Option ℤ) {rest : List Char} (h : EndsNumeral rest) :
    scanExponent? (exponentChars exponent ++ rest) = some (exponent, rest) := by
  cases exponent with
  | none =>
    cases rest with
    | nil => rfl
    | cons c rest =>
      have hc := h c rfl
      simp [exponentChars, scanExponent?, hc]
  | some e =>
    obtain ⟨d, digits, hdigits, hvalue⟩ := exists_digits e.natAbs
    have hscan := scanDigits1?_append d digits fun c hc => (h c hc).1
    rw [exponentChars, hdigits]
    by_cases he : e < 0
    · have hneg : -(appendDigits 0 (d :: digits) : ℤ) = e := by omega
      rw [if_pos he]
      refine (scanExponent?_sign true rfl hscan).trans ?_
      rw [if_pos rfl, hneg]
    · have hpos : (appendDigits 0 (d :: digits) : ℤ) = e := by omega
      rw [if_neg he]
      refine (scanExponent?_sign false (scanSign_digit d _) hscan).trans ?_
      rw [if_neg Bool.false_ne_true, hpos]

theorem head_exponentChars (exponent : Option ℤ) {rest : List Char} (h : EndsNumeral rest) :
    ∀ c ∈ (exponentChars exponent ++ rest).head?, digitOfChar? c = none ∧ c ≠ '.' := by
  intro c hc
  cases exponent with
  | none => exact ⟨(h c hc).1, (h c hc).2.1⟩
  | some e =>
    obtain rfl := Option.mem_some.mp hc
    decide

theorem head_fractionChars (fraction : List (Fin 10)) {rest : List Char}
    (h : ∀ c ∈ rest.head?, digitOfChar? c = none) :
    ∀ c ∈ (fractionChars fraction ++ rest).head?, digitOfChar? c = none := by
  intro c hc
  cases fraction with
  | nil => exact h c hc
  | cons d digits =>
    obtain rfl := Option.mem_some.mp hc
    decide

/-- A numeral is read back from its characters. -/
theorem scanNumeral?_append (n : Numeral) {rest : List Char} (h : EndsNumeral rest) :
    scanNumeral? (n.toChars ++ rest) = some (n, rest) := by
  obtain ⟨negative, whole, fraction, exponent⟩ := n
  have hexponent := head_exponentChars exponent h
  have hfraction := head_fractionChars fraction fun c hc => (hexponent c hc).1
  have hscan := scanWhole?_append whole hfraction
  rw [toChars_eq]
  simp only [List.append_assoc]
  cases negative with
  | true =>
    simp only [if_true, List.singleton_append, scanNumeral?, hscan, scanFraction?_append _ hexponent,
      scanExponent?_append _ h, Option.bind_eq_bind, Option.bind_some, Option.pure_def]
  | false =>
    obtain ⟨d, digits, hdigits, -⟩ := exists_digits whole
    have hminus : ∀ tail, Nat.toDigits 10 whole ++
        (fractionChars fraction ++ (exponentChars exponent ++ rest)) ≠ '-' :: tail := by
      intro tail heq
      rw [hdigits] at heq
      have hhead : digitChar d = '-' := (List.cons.inj heq).1
      revert hhead
      fin_cases d <;> decide
    rw [if_neg Bool.false_ne_true, List.nil_append, scanNumeral?.eq_2 _ hminus]
    simp only [hscan, scanFraction?_append _ hexponent, scanExponent?_append _ h,
      Option.bind_eq_bind, Option.bind_some, Option.pure_def]

/-! ### Strings -/

/-- A character is written by a short escape, by its number, or as it is. -/
theorem escapeChar_cases (c : Char) :
    (∃ e, e ≠ 'u' ∧ shortEscapes.lookup e = some c ∧ escapeChar c = ['\\', e]) ∨
    (c.toNat < 0x20 ∧ escapeChar c =
      ['\\', 'u', '0', '0', hexDigit (c.toNat / 16), hexDigit (c.toNat % 16)]) ∨
    (c ≠ '"' ∧ c ≠ '\\' ∧ ¬ c.toNat < 0x20 ∧ escapeChar c = [c]) := by
  unfold escapeChar
  split_ifs with quote backslash backspace feed newline carriage tab control
  · exact Or.inl ⟨'"', by decide, by rw [quote]; rfl, rfl⟩
  · exact Or.inl ⟨'\\', by decide, by rw [backslash]; rfl, rfl⟩
  · exact Or.inl ⟨'b', by decide, by rw [backspace]; rfl, rfl⟩
  · exact Or.inl ⟨'f', by decide, by rw [feed]; rfl, rfl⟩
  · exact Or.inl ⟨'n', by decide, by rw [newline]; rfl, rfl⟩
  · exact Or.inl ⟨'r', by decide, by rw [carriage]; rfl, rfl⟩
  · exact Or.inl ⟨'t', by decide, by rw [tab]; rfl, rfl⟩
  · exact Or.inr (Or.inl ⟨control, rfl⟩)
  · exact Or.inr (Or.inr ⟨quote, backslash, control, rfl⟩)

theorem hexQuad?_control {n : ℕ} (h : n < 0x20) :
    hexQuad? '0' '0' (hexDigit (n / 16)) (hexDigit (n % 16)) = some n := by
  revert h
  revert n
  decide

/-- A character is read back from how it is written, and the text goes on as before. -/
theorem scanPieces_escapeChar (c : Char) {text rest : List Char} {pieces : List Piece}
    (h : scanPieces text = some (pieces, rest)) :
    ∃ piece, scanPieces (escapeChar c ++ text) = some (piece :: pieces, rest) ∧
      decodePieces (piece :: pieces) = (decodePieces pieces).map (c :: ·) := by
  rcases escapeChar_cases c with ⟨e, hu, hc, hescape⟩ | ⟨hcontrol, hescape⟩ | ⟨hq, hb, hc, hescape⟩
  · refine ⟨.char c, ?_, rfl⟩
    simp [hescape, scanPieces, h, hc, hu]
  · refine ⟨.unit c.toNat, ?_, ?_⟩
    · simp [hescape, scanPieces, h, hexQuad?_control hcontrol]
    · have hlow : isLowSurrogate c.toNat = false := by simp [isLowSurrogate]; omega
      have hhigh : isHighSurrogate c.toNat = false := by simp [isHighSurrogate]; omega
      rw [decodePieces.eq_def]
      simp [hlow, hhigh, Char.ofNat_toNat]
  · refine ⟨.char c, ?_, rfl⟩
    simp [hescape, scanPieces, h, hb, hc]

/-- A text is read back from between its quotation marks. -/
theorem scanPieces_text (text : List Char) (rest : List Char) :
    ∃ pieces, scanPieces (text.flatMap escapeChar ++ '"' :: rest) = some (pieces, rest) ∧
      decodePieces pieces = some text := by
  induction text with
  | nil => exact ⟨[], rfl, rfl⟩
  | cons c text ih =>
    obtain ⟨pieces, hscan, hdecode⟩ := ih
    obtain ⟨piece, hscan', hdecode'⟩ := scanPieces_escapeChar c hscan
    refine ⟨piece :: pieces, ?_, ?_⟩
    · rw [List.flatMap_cons, List.append_assoc]
      exact hscan'
    · rw [hdecode', hdecode]
      rfl

/-! ### Tokens -/

/-- Whether a token goes on with what follows it. -/
def Token.isNumber : Token → Bool
  | .number _ => true
  | _ => false

theorem scanToken?_number (n : Numeral) {rest : List Char} (h : EndsNumeral rest) :
    scanToken? (n.toChars ++ rest) = some (.number n, rest) := by
  have hscan := scanNumeral?_append n h
  have hhead : ∃ tail, n.toChars ++ rest = '-' :: tail ∨
      ∃ d, n.toChars ++ rest = digitChar d :: tail := by
    obtain ⟨d, digits, hdigits, -⟩ := exists_digits n.whole
    rw [toChars_eq, hdigits]
    cases n.negative with
    | true => exact ⟨_, Or.inl rfl⟩
    | false => exact ⟨_, Or.inr ⟨d, rfl⟩⟩
  have hfall : scanToken? (n.toChars ++ rest) =
      (scanNumeral? (n.toChars ++ rest)).map fun found => (.number found.1, found.2) := by
    obtain ⟨tail, hminus | ⟨d, hdigit⟩⟩ := hhead
    · rw [hminus]
      rfl
    · rw [hdigit]
      fin_cases d <;> rfl
  rw [hfall, hscan]
  rfl

/-- A token is read back from its characters. -/
theorem scanToken?_append (t : Token) {rest : List Char}
    (h : t.isNumber = true → EndsNumeral rest) :
    scanToken? (t.toChars ++ rest) = some (t, rest) := by
  cases t with
  | number n => exact scanToken?_number n (h rfl)
  | bool b => cases b <;> rfl
  | string text =>
    cases text with
    | none => rfl
    | some text =>
      obtain ⟨pieces, hscan, hdecode⟩ := scanPieces_text text.toList rest
      have htext : (Token.string (some text)).toChars ++ rest =
          '"' :: (text.toList.flatMap escapeChar ++ '"' :: rest) := by
        simp [Token.toChars, quote]
      rw [htext, scanToken?, hscan]
      simp [hdecode]
  | _ => rfl

/-- No token starts with a blank. -/
theorem head_toChars (t : Token) : ∃ c tail, t.toChars = c :: tail ∧ isBlank c = false := by
  cases t with
  | number n =>
    obtain ⟨d, digits, hdigits, -⟩ := exists_digits n.whole
    rw [Token.toChars, toChars_eq, hdigits]
    cases n.negative with
    | true => exact ⟨_, _, rfl, rfl⟩
    | false =>
      refine ⟨digitChar d, _, rfl, ?_⟩
      fin_cases d <;> rfl
  | bool b => cases b <;> exact ⟨_, _, rfl, rfl⟩
  | string text => cases text <;> exact ⟨_, _, rfl, rfl⟩
  | _ => exact ⟨_, _, rfl, rfl⟩

theorem tokenize_append (t : Token) {rest : List Char} (h : t.isNumber = true → EndsNumeral rest) :
    tokenize (t.toChars ++ rest) = (tokenize rest).map (t :: ·) := by
  have hscan := scanToken?_append t h
  obtain ⟨c, tail, hhead, hblank⟩ := head_toChars t
  rw [hhead, List.cons_append] at hscan ⊢
  rw [tokenize, if_neg (Bool.eq_false_iff.mp hblank)]
  split
  · rename_i hnone
    rw [hscan] at hnone
    cases hnone
  · rename_i hsome
    rw [hscan] at hsome
    cases hsome
    rfl

namespace Token

def separates : Token → Bool
  | comma | closeArray | closeObject => true
  | _ => false

theorem endsNumeral_of_separates {t : Token} (h : t.separates = true) (rest : List Char) :
    EndsNumeral (t.toChars ++ rest) := by
  cases t with
  | comma => exact endsNumeral_cons (by decide) rest
  | closeArray => exact endsNumeral_cons (by decide) rest
  | closeObject => exact endsNumeral_cons (by decide) rest
  | _ => cases h

/-- The second token may be written right behind the first one. -/
def Apart (t u : Token) : Prop := t.isNumber = true → u.separates = true

end Token

/-- Tokens of which no number goes on in the next token are read back from their characters. -/
theorem tokenize_flatMap {tokens : List Token} (h : tokens.IsChain Token.Apart) :
    tokenize (tokens.flatMap Token.toChars) = some tokens := by
  induction tokens with
  | nil => rw [List.flatMap_nil, tokenize]
  | cons t tokens ih =>
    obtain ⟨hnext, hrest⟩ := List.isChain_cons.mp h
    rw [List.flatMap_cons, tokenize_append t, ih hrest]
    · rfl
    · intro hnum
      cases tokens with
      | nil => exact endsNumeral_nil
      | cons u tokens => exact Token.endsNumeral_of_separates (hnext u rfl hnum) _

/-! ### Values -/

/-- Tokens that may stand behind a value. -/
def Follows (tokens : List Token) : Prop :=
  tokens.IsChain Token.Apart ∧ ∀ t ∈ tokens.head?, t.separates = true

theorem follows_nil : Follows [] := ⟨List.isChain_nil, fun _ h => nomatch h⟩

theorem Follows.cons {t : Token} {tokens : List Token} (ht : t.separates = true)
    (h : tokens.IsChain Token.Apart) : Follows (t :: tokens) := by
  refine ⟨List.isChain_cons.mpr ⟨?_, h⟩, ?_⟩
  · intro u _ hnum
    cases t <;> simp_all [Token.isNumber, Token.separates]
  · intro u hu
    obtain rfl := Option.mem_some.mp hu
    exact ht

theorem isChain_cons_of_not_number {t : Token} {tokens : List Token} (ht : t.isNumber = false)
    (h : tokens.IsChain Token.Apart) : (t :: tokens).IsChain Token.Apart := by
  refine List.isChain_cons.mpr ⟨?_, h⟩
  intro u _ hnum
  exact absurd (ht.symm.trans hnum) Bool.false_ne_true

mutual

/-- In a written value no number goes on in the next token. -/
theorem isChain_toTokens (v : Json) {tokens : List Token} (h : Follows tokens) :
    (toTokens v ++ tokens).IsChain Token.Apart := by
  cases v with
  | number n => exact List.isChain_cons.mpr ⟨fun u hu _ => h.2 u hu, h.1⟩
  | array items =>
    rw [toTokens, List.cons_append, List.cons_append, List.append_assoc]
    exact isChain_cons_of_not_number rfl (isChain_itemTokens items (.cons rfl h.1))
  | object members =>
    rw [toTokens, List.cons_append, List.cons_append, List.append_assoc]
    exact isChain_cons_of_not_number rfl (isChain_memberTokens members (.cons rfl h.1))
  | _ => exact isChain_cons_of_not_number rfl h.1

theorem isChain_itemTokens (items : List Json) {tokens : List Token} (h : Follows tokens) :
    (itemTokens items ++ tokens).IsChain Token.Apart := by
  match items with
  | [] => exact h.1
  | [v] => exact isChain_toTokens v h
  | v :: w :: rest =>
    rw [itemTokens, List.append_assoc, List.cons_append]
    exact isChain_toTokens v (.cons rfl (isChain_itemTokens (w :: rest) h))

theorem isChain_memberTokens (members : List (Option String × Json)) {tokens : List Token}
    (h : Follows tokens) : (memberTokens members ++ tokens).IsChain Token.Apart := by
  match members with
  | [] => exact h.1
  | [(key, v)] =>
    exact isChain_cons_of_not_number rfl (isChain_cons_of_not_number rfl (isChain_toTokens v h))
  | (key, v) :: w :: rest =>
    have hrest := isChain_memberTokens (w :: rest) h
    have hvalue : (toTokens v ++ .comma :: (memberTokens (w :: rest) ++ tokens)).IsChain
        Token.Apart := isChain_toTokens v (.cons rfl hrest)
    rw [memberTokens]
    simp only [List.cons_append, List.append_assoc]
    exact isChain_cons_of_not_number rfl (isChain_cons_of_not_number rfl hvalue)

end

/-- At the start of an array its first item is read like any other. -/
theorem foldlM_firstItem (v : Json) (rest : List Json) (inside : List Frame)
    (tokens : List Token) :
    (itemTokens (v :: rest) ++ tokens).foldlM Machine.step ⟨.firstItem, inside⟩ =
      (itemTokens (v :: rest) ++ tokens).foldlM Machine.step ⟨.value, .items [] :: inside⟩ := by
  cases rest <;> cases v <;> rfl

/-- At the start of an object its first member is read like any other. -/
theorem foldlM_firstMember (w : Option String × Json) (rest : List (Option String × Json))
    (inside : List Frame) (tokens : List Token) :
    (memberTokens (w :: rest) ++ tokens).foldlM Machine.step ⟨.firstMember, inside⟩ =
      (memberTokens (w :: rest) ++ tokens).foldlM Machine.step ⟨.member [], inside⟩ := by
  cases rest <;> rfl

mutual

/-- The machine comes out of the tokens of a value with the value complete. -/
theorem foldlM_toTokens (v : Json) (inside : List Frame) (tokens : List Token) :
    (toTokens v ++ tokens).foldlM Machine.step ⟨.value, inside⟩ =
      tokens.foldlM Machine.step ⟨.after v, inside⟩ := by
  match v with
  | .array [] => rfl
  | .array (v :: rest) =>
    change (itemTokens (v :: rest) ++ [Token.closeArray] ++ tokens).foldlM Machine.step
      ⟨.firstItem, inside⟩ = _
    rw [List.append_assoc, foldlM_firstItem]
    exact foldlM_itemTokens (v :: rest) (List.cons_ne_nil v rest) [] inside tokens
  | .object [] => rfl
  | .object (w :: rest) =>
    change (memberTokens (w :: rest) ++ [Token.closeObject] ++ tokens).foldlM Machine.step
      ⟨.firstMember, inside⟩ = _
    rw [List.append_assoc, foldlM_firstMember]
    exact foldlM_memberTokens (w :: rest) (List.cons_ne_nil w rest) [] inside tokens
  | .null => rfl
  | .bool _ => rfl
  | .number _ => rfl
  | .string _ => rfl

theorem foldlM_itemTokens (items : List Json) (h : items ≠ []) (done : List Json)
    (inside : List Frame) (tokens : List Token) :
    (itemTokens items ++ .closeArray :: tokens).foldlM Machine.step
        ⟨.value, .items done :: inside⟩ =
      tokens.foldlM Machine.step ⟨.after (.array (done.reverse ++ items)), inside⟩ := by
  match items with
  | [] => exact absurd rfl h
  | [v] =>
    rw [itemTokens, foldlM_toTokens v]
    change tokens.foldlM Machine.step ⟨.after (.array (v :: done).reverse), inside⟩ = _
    rw [List.reverse_cons]
  | v :: w :: rest =>
    rw [itemTokens, List.append_assoc, foldlM_toTokens v]
    change (itemTokens (w :: rest) ++ .closeArray :: tokens).foldlM Machine.step
      ⟨.value, .items (v :: done) :: inside⟩ = _
    rw [foldlM_itemTokens (w :: rest) (List.cons_ne_nil w rest), List.reverse_cons,
      List.append_assoc, List.singleton_append]

theorem foldlM_memberTokens (members : List (Option String × Json)) (h : members ≠ [])
    (done : List (Option String × Json)) (inside : List Frame) (tokens : List Token) :
    (memberTokens members ++ .closeObject :: tokens).foldlM Machine.step ⟨.member done, inside⟩ =
      tokens.foldlM Machine.step ⟨.after (.object (done.reverse ++ members)), inside⟩ := by
  match members with
  | [] => exact absurd rfl h
  | [(key, v)] =>
    change (toTokens v ++ .closeObject :: tokens).foldlM Machine.step
      ⟨.value, .members done key :: inside⟩ = _
    rw [foldlM_toTokens v]
    change tokens.foldlM Machine.step ⟨.after (.object ((key, v) :: done).reverse), inside⟩ = _
    rw [List.reverse_cons]
  | (key, v) :: w :: rest =>
    rw [memberTokens]
    simp only [List.cons_append, List.append_assoc]
    change (toTokens v ++ .comma :: (memberTokens (w :: rest) ++ .closeObject :: tokens)).foldlM
      Machine.step ⟨.value, .members done key :: inside⟩ = _
    rw [foldlM_toTokens v]
    change (memberTokens (w :: rest) ++ .closeObject :: tokens).foldlM Machine.step
      ⟨.member ((key, v) :: done), inside⟩ = _
    rw [foldlM_memberTokens (w :: rest) (List.cons_ne_nil w rest), List.reverse_cons,
      List.append_assoc, List.singleton_append]

end

/-- Every value is read back from its text as it is. -/
theorem parse?_render (v : Json) : parse? v.render = some v := by
  have htokens := tokenize_flatMap (List.append_nil (toTokens v) ▸ isChain_toTokens v follows_nil)
  have hmachine := foldlM_toTokens v [] []
  rw [List.append_nil] at hmachine
  rw [parse?, render, String.toList_ofList, htokens]
  change ((toTokens v).foldlM Machine.step .start).bind Machine.result? = _
  rw [Machine.start, hmachine]
  rfl

end Json

end SpatialSearch
