import SqlSelect.Json.Document
import SqlSelect.Json.Print
import Mathlib.Logic.Basic

/-!
# String literals

A character of a string is written as itself, as a short escape, or, for the other control
characters, by its code. Whatever the string is, its literal is scanned unit by unit up to the
closing quote, and the units stand for the string again.
-/

namespace SqlSelect.Json

/-- The control characters that have a short escape. -/
def shortControls : List Char := ['\x08', '\x0c', '\n', '\r', '\t']

/-- The unit that a character is written as. -/
def StringUnit.ofChar (c : Char) : StringUnit :=
  if c.toNat < 0x20 ∧ c ∉ shortControls then .code c.toNat else .char c

/-- The units of a string's literal. -/
def units (s : String) : List StringUnit := s.toList.map .ofChar

theorem StringUnit.ofChar_of_le {c : Char} (h : 0x20 ≤ c.toNat) : ofChar c = .char c :=
  if_neg fun hc => absurd hc.1 (Nat.not_lt.mpr h)

/-! ## Scanning -/

/-- The code of a control character is written with two zeros in front. -/
theorem hexCode?_control {n : Nat} (h : n < 0x20) :
    hexCode? '0' '0' (Text.hexDigit (n / 16)) (Text.hexDigit (n % 16)) = some n := by
  have hzero : Text.hexValue? '0' = some 0 := by decide
  have hhigh := Text.hexValue?_hexDigit (n := n / 16) (by omega)
  have hlow := Text.hexValue?_hexDigit (n := n % 16) (by omega)
  simp only [hexCode?, hzero, hhigh, hlow, Option.bind_eq_bind, Option.bind_some]
  congr 1
  omega

theorem scanString?_char {c : Char} (hquote : c ≠ '"') (hslash : c ≠ '\\') (hc : 0x20 ≤ c.toNat)
    (rest : List Char) :
    scanString? (c :: rest) = (scanString? rest).map fun r => (.char c :: r.1, r.2) := by
  have hplain : ¬ (c = '\\' ∨ c.toNat < 0x20) := not_or.mpr ⟨hslash, Nat.not_lt.mpr hc⟩
  rw [scanString?, if_neg hplain]
  · cases scanString? rest <;> rfl
  · exact hquote
  · exact fun _ _ _ _ _ h _ => hslash h
  · exact fun _ _ h _ => hslash h

theorem scanString?_short {c e : Char} (he : shortEscape? e = some c) (rest : List Char) :
    scanString? ('\\' :: e :: rest) = (scanString? rest).map fun r => (.char c :: r.1, r.2) := by
  rw [scanString?]
  · rw [he]
    cases scanString? rest <;> rfl
  · rintro a b d f tail rfl
    cases he

theorem scanString?_code {n : Nat} (hn : n < 0x20) (rest : List Char) :
    scanString? ('\\' :: 'u' :: '0' :: '0' :: Text.hexDigit (n / 16) :: Text.hexDigit (n % 16) ::
      rest) = (scanString? rest).map fun r => (.code n :: r.1, r.2) := by
  rw [scanString?, hexCode?_control hn]
  cases scanString? rest <;> rfl

/-- A character in a literal is scanned as one unit. -/
theorem scanString?_escape (c : Char) (rest : List Char) :
    scanString? (escape c ++ rest) =
      (scanString? rest).map fun r => (StringUnit.ofChar c :: r.1, r.2) := by
  unfold escape
  split
  case h_8 hquote hslash h8 hc hn hr ht =>
    have hshort : c ∉ shortControls := by
      simp only [shortControls, List.mem_cons, List.not_mem_nil, or_false, not_or]
      exact ⟨h8, hc, hn, hr, ht⟩
    split
    · rename_i hlt
      rw [StringUnit.ofChar, if_pos ⟨hlt, hshort⟩]
      exact scanString?_code hlt rest
    · rename_i hge
      rw [StringUnit.ofChar_of_le (Nat.not_lt.mp hge)]
      exact scanString?_char hquote hslash (Nat.not_lt.mp hge) rest
  case h_1 => exact scanString?_short rfl rest
  case h_2 => exact scanString?_short rfl rest
  case h_3 => exact scanString?_short rfl rest
  case h_4 => exact scanString?_short rfl rest
  case h_5 => exact scanString?_short rfl rest
  case h_6 => exact scanString?_short rfl rest
  case h_7 => exact scanString?_short rfl rest

/-- A literal is scanned up to its closing quote. -/
theorem scanString?_literal (s : String) (rest : List Char) :
    scanString? (s.toList.flatMap escape ++ '"' :: rest) = some (units s, rest) := by
  rw [units]
  induction s.toList with
  | nil => rfl
  | cons c cs ih =>
    rw [List.flatMap_cons, List.append_assoc, scanString?_escape, ih]
    rfl

/-! ## Decoding -/

/-- The units of a string stand for the string. -/
theorem stringOfUnits?_units (s : String) : stringOfUnits? (units s) = some s := by
  have hdecode : ∀ cs : List Char, decodeUnits? (cs.map StringUnit.ofChar) = some cs := by
    intro cs
    induction cs with
    | nil => rfl
    | cons c cs ih =>
      rw [List.map_cons, StringUnit.ofChar]
      split
      · rename_i hc
        -- a control character is no surrogate
        have hlead : isLeadSurrogate c.toNat = false := by simp [isLeadSurrogate]; omega
        have htrail : isTrailSurrogate c.toNat = false := by simp [isTrailSurrogate]; omega
        rw [decodeUnits?.eq_def]
        simp only [hlead, htrail, if_neg Bool.false_ne_true, ih, Option.map_some, Char.ofNat_toNat]
      · rw [decodeUnits?, ih, Option.map_some]
  rw [stringOfUnits?, units, hdecode, Option.map_some, String.ofList_toList]

end SqlSelect.Json
