import SqlSelect.Text.Digits

/-!
# JSON tokens

A JSON text is a run of tokens with blanks between them. String literals keep their `\u` escapes as
16-bit codes, and numerals keep their digits, so that a text can be read without giving every string
and number in it a meaning. Reading a token always shortens the text (`next?_length`).
-/

namespace SqlSelect.Json

/-- A part of a string literal: a character, or the code of a `\u` escape. -/
inductive StringUnit where
  | char (c : Char)
  | code (n : Nat)
deriving DecidableEq

/-- A numeral by its digits. An empty `fraction` means that there is no point; the flag of
`exponent` is set when it is negative. -/
structure Numeral where
  negative : Bool
  whole : List Char
  fraction : List Char
  exponent : Option (Bool × List Char)
deriving DecidableEq

/-- A token of a JSON text. -/
inductive Token where
  | openBrace
  | closeBrace
  | openBracket
  | closeBracket
  | colon
  | comma
  | null
  | bool (b : Bool)
  | string (units : List StringUnit)
  | number (n : Numeral)
deriving DecidableEq

/-- The four blanks of JSON. -/
def isSpace (c : Char) : Bool :=
  c == ' ' || c == '\n' || c == '\t' || c == '\r'

/-- The character that a backslash and `c` stand for. -/
def shortEscape? (c : Char) : Option Char :=
  match c with
  | '"' => some '"'
  | '\\' => some '\\'
  | '/' => some '/'
  | 'b' => some '\x08'
  | 'f' => some '\x0c'
  | 'n' => some '\n'
  | 'r' => some '\r'
  | 't' => some '\t'
  | _ => none

/-- The code written by four hexadecimal digits. -/
def hexCode? (a b c d : Char) : Option Nat := do
  let a ← Text.hexValue? a
  let b ← Text.hexValue? b
  let c ← Text.hexValue? c
  let d ← Text.hexValue? d
  some (((a * 16 + b) * 16 + c) * 16 + d)

/-- The rest of a string literal after its opening quote, up to and without the closing one.
Control characters below U+0020 must be escaped. -/
def scanString? : List Char → Option (List StringUnit × List Char)
  | [] => none
  | '"' :: rest => some ([], rest)
  | '\\' :: 'u' :: a :: b :: c :: d :: rest => do
    let n ← hexCode? a b c d
    let (units, rest) ← scanString? rest
    some (.code n :: units, rest)
  | '\\' :: c :: rest => do
    let c ← shortEscape? c
    let (units, rest) ← scanString? rest
    some (.char c :: units, rest)
  | c :: rest =>
    if c = '\\' ∨ c.toNat < 0x20 then none
    else do
      let (units, rest) ← scanString? rest
      some (.char c :: units, rest)

/-- One or more decimal digits. -/
def scanDigits? (text : List Char) : Option (List Char × List Char) :=
  match text.takeWhile Char.isDigit with
  | [] => none
  | digits => some (digits, text.dropWhile Char.isDigit)

/-- The whole part of a numeral: a lone zero, or digits that do not start with one. -/
def scanWhole? : List Char → Option (List Char × List Char)
  | '0' :: rest => some (['0'], rest)
  | text => scanDigits? text

/-- A point with digits behind it, or nothing. -/
def scanFraction? : List Char → Option (List Char × List Char)
  | '.' :: rest => scanDigits? rest
  | text => some ([], text)

/-- The sign of an exponent, set when negative; a missing one is a plus. -/
def scanSign : List Char → Bool × List Char
  | '+' :: rest => (false, rest)
  | '-' :: rest => (true, rest)
  | text => (false, text)

/-- An exponent mark with an optional sign and digits behind it, or nothing. -/
def scanExponent? : List Char → Option (Option (Bool × List Char) × List Char)
  | [] => some (none, [])
  | c :: rest =>
    if c = 'e' ∨ c = 'E' then do
      let (negative, rest) := scanSign rest
      let (digits, rest) ← scanDigits? rest
      some (some (negative, digits), rest)
    else some (none, c :: rest)

/-- The parts of a numeral after its sign. -/
def scanUnsigned? (negative : Bool) (text : List Char) : Option (Numeral × List Char) := do
  let (whole, text) ← scanWhole? text
  let (fraction, text) ← scanFraction? text
  let (exponent, text) ← scanExponent? text
  some (⟨negative, whole, fraction, exponent⟩, text)

/-- A numeral and the text after it. -/
def scanNumeral? : List Char → Option (Numeral × List Char)
  | '-' :: rest => scanUnsigned? true rest
  | text => scanUnsigned? false text

/-- The token at the start of a text, and the text after it. -/
def next? : List Char → Option (Token × List Char)
  | [] => none
  | '{' :: rest => some (.openBrace, rest)
  | '}' :: rest => some (.closeBrace, rest)
  | '[' :: rest => some (.openBracket, rest)
  | ']' :: rest => some (.closeBracket, rest)
  | ':' :: rest => some (.colon, rest)
  | ',' :: rest => some (.comma, rest)
  | 'n' :: 'u' :: 'l' :: 'l' :: rest => some (.null, rest)
  | 't' :: 'r' :: 'u' :: 'e' :: rest => some (.bool true, rest)
  | 'f' :: 'a' :: 'l' :: 's' :: 'e' :: rest => some (.bool false, rest)
  | '"' :: rest => (scanString? rest).map fun (units, rest) => (.string units, rest)
  | text => (scanNumeral? text).map fun (n, rest) => (.number n, rest)

theorem length_dropWhile_le {α : Type} (p : α → Bool) (l : List α) :
    (l.dropWhile p).length ≤ l.length :=
  (l.dropWhile_suffix p).length_le

theorem scanString?_length {text rest : List Char} {units : List StringUnit}
    (h : scanString? text = some (units, rest)) : rest.length < text.length := by
  fun_induction scanString? text generalizing units with
  | case1 => simp at h
  | case2 => simp_all
  | case3 a b c d tail ih =>
    simp only [Option.bind_eq_bind, Option.bind_eq_some_iff, Option.some.injEq, Prod.mk.injEq] at h
    obtain ⟨n, -, ⟨us, r⟩, hs, -, rfl⟩ := h
    have : r.length < tail.length := ih hs
    simp only [List.length_cons]
    omega
  | case4 c tail _ ih =>
    simp only [Option.bind_eq_bind, Option.bind_eq_some_iff, Option.some.injEq, Prod.mk.injEq] at h
    obtain ⟨e, -, ⟨us, r⟩, hs, -, rfl⟩ := h
    have : r.length < tail.length := ih hs
    simp only [List.length_cons]
    omega
  | case5 => simp at h
  | case6 c tail _ _ _ _ ih =>
    simp only [Option.bind_eq_bind, Option.bind_eq_some_iff, Option.some.injEq, Prod.mk.injEq] at h
    obtain ⟨⟨us, r⟩, hs, -, rfl⟩ := h
    have : r.length < tail.length := ih hs
    simp only [List.length_cons]
    omega

theorem scanDigits?_length {text digits rest : List Char}
    (h : scanDigits? text = some (digits, rest)) : rest.length < text.length := by
  unfold scanDigits? at h
  split at h
  · simp at h
  · rename_i hne
    simp only [Option.some.injEq, Prod.mk.injEq] at h
    obtain ⟨-, rfl⟩ := h
    have happ := congrArg List.length
      (List.takeWhile_append_dropWhile (p := Char.isDigit) (l := text))
    have hpos : 0 < (text.takeWhile Char.isDigit).length :=
      List.length_pos_iff.2 fun h0 => hne h0
    simp only [List.length_append] at happ
    omega

theorem scanWhole?_length {text digits rest : List Char}
    (h : scanWhole? text = some (digits, rest)) : rest.length < text.length := by
  unfold scanWhole? at h
  split at h
  · simp_all
  · exact scanDigits?_length h

theorem scanFraction?_length {text digits rest : List Char}
    (h : scanFraction? text = some (digits, rest)) : rest.length ≤ text.length := by
  unfold scanFraction? at h
  split at h
  · have := scanDigits?_length h
    simp only [List.length_cons]
    omega
  · simp_all

theorem scanSign_length (text : List Char) : (scanSign text).2.length ≤ text.length := by
  unfold scanSign
  split <;> simp

theorem scanExponent?_length {text rest : List Char} {e : Option (Bool × List Char)}
    (h : scanExponent? text = some (e, rest)) : rest.length ≤ text.length := by
  unfold scanExponent? at h
  split at h
  · simp_all
  · rename_i c tail
    split at h
    · simp only [Option.bind_eq_bind, Option.bind_eq_some_iff, Option.some.injEq,
        Prod.mk.injEq] at h
      obtain ⟨⟨digits, r⟩, hd, -, rfl⟩ := h
      have h1 := scanDigits?_length hd
      have h2 := scanSign_length tail
      simp only [List.length_cons]
      omega
    · simp_all

theorem scanUnsigned?_length {negative : Bool} {text rest : List Char} {n : Numeral}
    (h : scanUnsigned? negative text = some (n, rest)) : rest.length < text.length := by
  simp only [scanUnsigned?, Option.bind_eq_bind, Option.bind_eq_some_iff, Option.some.injEq,
    Prod.mk.injEq] at h
  obtain ⟨⟨w, t1⟩, h1, ⟨f, t2⟩, h2, ⟨e, t3⟩, h3, -, rfl⟩ := h
  have h1 : t1.length < text.length := scanWhole?_length h1
  have h2 : t2.length ≤ t1.length := scanFraction?_length h2
  have h3 : t3.length ≤ t2.length := scanExponent?_length h3
  exact Nat.lt_of_le_of_lt (Nat.le_trans h3 h2) h1

theorem scanNumeral?_length {text rest : List Char} {n : Numeral}
    (h : scanNumeral? text = some (n, rest)) : rest.length < text.length := by
  unfold scanNumeral? at h
  split at h
  · have := scanUnsigned?_length h
    simp only [List.length_cons]
    omega
  · exact scanUnsigned?_length h

/-- A token takes at least one character. -/
theorem next?_length {text rest : List Char} {t : Token} (h : next? text = some (t, rest)) :
    rest.length < text.length := by
  unfold next? at h
  split at h
  case h_1 => simp at h
  case h_11 =>
    simp only [Option.map_eq_some_iff, Prod.mk.injEq] at h
    obtain ⟨⟨units, r⟩, hs, -, rfl⟩ := h
    have := scanString?_length hs
    simp only [List.length_cons]
    omega
  case h_12 =>
    simp only [Option.map_eq_some_iff, Prod.mk.injEq] at h
    obtain ⟨⟨n, r⟩, hs, -, rfl⟩ := h
    exact scanNumeral?_length hs
  all_goals
    simp only [Option.some.injEq, Prod.mk.injEq] at h
    obtain ⟨-, rfl⟩ := h
    simp only [List.length_cons]
    omega

/-- The tokens of a text, blanks dropped; nothing if some part of it is no token. -/
def tokens? : List Char → Option (List Token)
  | [] => some []
  | c :: rest =>
    if isSpace c then tokens? rest
    else
      match _h : next? (c :: rest) with
      | none => none
      | some (t, after) => (tokens? after).map (t :: ·)
termination_by text => text.length
decreasing_by
  · exact Nat.lt_succ_self rest.length
  · exact next?_length _h

end SqlSelect.Json
