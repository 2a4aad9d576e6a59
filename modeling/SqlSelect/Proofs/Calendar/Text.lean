import SqlSelect.Calendar.Timestamp
import SqlSelect.Proofs.Text.Digits

/-!
# Reading dates and timestamps back

Years, months and times of day are written as numbers padded to their width, so that each field ends
where its width does; only the year outside 0 to 9999 and the fraction of a second end where the
digits do. Reading takes the fields in turn and finds the date that was written, or the instant that
the clock shows: that is another one if a leap second is shown with the number of an ordinary
second.
-/

namespace SqlSelect

/-! ## Blanks -/

namespace Text

theorem isBlank_of_isDigit {c : Char} (h : c.isDigit = true) : isBlank c = false := by
  have hnot : ∀ n ∈ blankCodePoints, ¬ (48 ≤ n ∧ n ≤ 57) := by decide
  rw [isBlank, ← Bool.not_eq_true, List.contains_iff_mem]
  exact fun hmem => hnot _ hmem (toNat_of_isDigit h)

theorem skipBlanks_cons {c : Char} (h : isBlank c = false) (rest : List Char) :
    skipBlanks (c :: rest) = c :: rest := by
  rw [skipBlanks, List.dropWhile_cons_of_neg (Bool.eq_false_iff.mp h)]

theorem skipBlanks_digits {digits : List Char} (hnil : digits ≠ [])
    (hdigits : ∀ c ∈ digits, c.isDigit = true) (rest : List Char) :
    skipBlanks (digits ++ rest) = digits ++ rest := by
  obtain ⟨c, cs, rfl⟩ := List.exists_cons_of_ne_nil hnil
  exact skipBlanks_cons (isBlank_of_isDigit (hdigits c List.mem_cons_self)) _

end Text

/-! ## Fields -/

namespace Calendar

/-- A run of digits ends at the limit or before something else. -/
theorem spanDigits_append {digits rest : List Char} {limit : Nat}
    (hdigits : ∀ c ∈ digits, c.isDigit = true) (hle : digits.length ≤ limit)
    (hend : digits.length = limit ∨ ∀ c ∈ rest.head?, c.isDigit = false) :
    spanDigits limit (digits ++ rest) = (digits, rest) := by
  induction digits generalizing limit with
  | nil =>
    cases limit with
    | zero => rw [List.nil_append, spanDigits]
    | succ limit =>
      have hstop := hend.resolve_left (Nat.succ_ne_zero limit).symm
      cases rest with
      | nil => rfl
      | cons c rest =>
        rw [List.nil_append, spanDigits, if_neg (Bool.eq_false_iff.mp (hstop c rfl))]
  | cons c cs ih =>
    obtain ⟨more, rfl⟩ := Nat.exists_eq_succ_of_ne_zero (Nat.ne_zero_of_lt hle)
    have hrest := ih (fun d hd => hdigits d (List.mem_cons_of_mem c hd))
      (Nat.le_of_succ_le_succ hle) (hend.imp_left Nat.succ.inj)
    rw [List.cons_append, spanDigits, if_pos (hdigits c List.mem_cons_self), hrest]

theorem number?_append {digits rest : List Char} {limit : Nat} (hnil : digits ≠ [])
    (hdigits : ∀ c ∈ digits, c.isDigit = true) (hle : digits.length ≤ limit)
    (hend : digits.length = limit ∨ ∀ c ∈ rest.head?, c.isDigit = false) :
    number? limit (digits ++ rest) = some (digitsValue digits, rest) := by
  rw [number?, spanDigits_append hdigits hle hend]
  split
  · rename_i heq
    exact absurd (congrArg Prod.fst heq) hnil
  · rename_i heq
    cases heq
    rfl

/-- A padded number that has its width is read from exactly these digits. -/
theorem number?_padded {width n : Nat} (hwidth : 0 < width) (hn : n < 10 ^ width)
    (rest : List Char) : number? width (Text.padded width n ++ rest) = some (n, rest) := by
  have hlength := Text.length_padded hwidth hn
  rw [number?_append (Text.padded_ne_nil width n) Text.isDigit_of_mem_padded (Nat.le_of_eq hlength)
    (.inl hlength), digitsValue, Text.ofDigitChars_padded]

/-- A field of two digits is read from exactly these. -/
theorem field?_padded {n : Nat} (hn : n < 100) (rest : List Char) :
    field? (Text.padded 2 n ++ rest) = some (n, rest) := by
  rw [field?, Text.skipBlanks_digits (Text.padded_ne_nil 2 n) Text.isDigit_of_mem_padded,
    number?_padded Nat.two_pos hn]

theorem mark?_cons {c : Char} (h : Text.isBlank c = false) (rest : List Char) :
    mark? c (c :: rest) = some rest := by
  rw [mark?, Text.skipBlanks_cons h]
  exact if_pos rfl

end Calendar

open Calendar

/-! ## Dates -/

namespace Date

/-- A year is written with a digit or a sign in front. -/
theorem yearChars_eq_cons (year : Int) :
    ∃ c rest, yearChars year = c :: rest ∧ Text.isBlank c = false := by
  unfold yearChars
  split
  · obtain ⟨c, rest, hcons, hdigit⟩ := Text.padded_eq_cons 4 year.toNat
    exact ⟨c, rest, hcons, Text.isBlank_of_isDigit hdigit⟩
  · refine ⟨_, _, rfl, ?_⟩
    split <;> rfl

/-- Behind a sign the number of the year ends where its digits do. -/
theorem number?_signed (year : Int) (rest : List Char) :
    number? (Text.padded 4 year.natAbs ++ '-' :: rest).length
        (Text.padded 4 year.natAbs ++ '-' :: rest) = some (year.natAbs, '-' :: rest) := by
  have hle : (Text.padded 4 year.natAbs).length ≤
      (Text.padded 4 year.natAbs ++ '-' :: rest).length := by
    rw [List.length_append]
    exact Nat.le_add_right _ _
  have hstop : ∀ c ∈ ('-' :: rest).head?, c.isDigit = false := by
    rintro c ⟨⟩
    rfl
  rw [number?_append (Text.padded_ne_nil 4 _) Text.isDigit_of_mem_padded hle (.inr hstop),
    digitsValue, Text.ofDigitChars_padded]

theorem year?_yearChars (year : Int) (rest : List Char) :
    year? (yearChars year ++ '-' :: rest) = some (year, '-' :: rest) := by
  unfold yearChars
  by_cases hplain : 0 ≤ year ∧ year ≤ 9999
  · have hfour : year.toNat < 10 ^ 4 := by omega
    have hnumber := number?_padded (by decide) hfour ('-' :: rest)
    have hyear : ((year.toNat : Nat) : Int) = year := Int.toNat_of_nonneg hplain.1
    obtain ⟨c, cs, hcons, hdigit⟩ := Text.padded_eq_cons 4 year.toNat
    rw [if_pos hplain]
    rw [hcons, List.cons_append] at hnumber ⊢
    rw [year?, hnumber]
    · exact congrArg (fun y => some (y, '-' :: rest)) hyear
    -- a digit is no sign
    · rintro tail heq
      rw [(List.cons.inj heq).1] at hdigit
      exact absurd hdigit (by decide)
    · rintro tail heq
      rw [(List.cons.inj heq).1] at hdigit
      exact absurd hdigit (by decide)
  · rw [if_neg hplain]
    by_cases hneg : year < 0
    · have hyear : -(year.natAbs : Int) = year := by omega
      rw [if_pos hneg, List.cons_append, year?, number?_signed]
      exact congrArg (fun y => some (y, '-' :: rest)) hyear
    · have hyear : (year.natAbs : Int) = year := by omega
      rw [if_neg hneg, List.cons_append, year?, number?_signed]
      exact congrArg (fun y => some (y, '-' :: rest)) hyear

/-- Month and day have two digits at most. -/
theorem lt_hundred (d : Date) : d.month < 100 ∧ d.day < 100 := by
  obtain ⟨-, -, -, hmonth, -, hday⟩ := d.valid
  have hmost : daysInMonth d.year d.month ≤ 31 := by
    unfold daysInMonth
    split
    · split <;> decide
    · split <;> decide
  omega

/-- A date is read from its written form, whatever follows. -/
theorem read?_chars (d : Date) (rest : List Char) : read? (d.chars ++ rest) = some (d, rest) := by
  obtain ⟨c, cs, hcons, hblank⟩ := yearChars_eq_cons d.year
  obtain ⟨hmonth, hday⟩ := d.lt_hundred
  have hskip : Text.skipBlanks (d.chars ++ rest) = d.chars ++ rest := by
    rw [chars, hcons]
    exact Text.skipBlanks_cons hblank _
  have hhyphen : Text.isBlank '-' = false := by decide
  rw [read?, hskip, chars]
  simp only [List.append_assoc, List.cons_append, year?_yearChars, mark?_cons hhyphen,
    field?_padded hmonth, field?_padded hday, of?_self, Option.bind_eq_bind, Option.bind_some]

/-- A date is what its written form stands for. -/
theorem parse?_chars (d : Date) : parse? (String.ofList d.chars) = some d := by
  have hread := d.read?_chars []
  rw [List.append_nil] at hread
  rw [parse?, String.toList_ofList, hread]
  rfl

end Date

/-! ## Timestamps -/

namespace Timestamp

/-- A padded fraction counts its unit, whatever follows that is no digit. -/
theorem fraction?_padded {width n : Nat} (hwidth : 0 < width) (hnine : width ≤ 9)
    (hn : n < 10 ^ width) {rest : List Char} (hrest : ∀ c ∈ rest.head?, c.isDigit = false) :
    fraction? ('.' :: (Text.padded width n ++ rest)) = some (n * 10 ^ (9 - width), rest) := by
  have hlength := Text.length_padded hwidth hn
  have hspan : spanDigits 9 (Text.padded width n ++ rest) = (Text.padded width n, rest) :=
    spanDigits_append Text.isDigit_of_mem_padded (by omega) (.inr hrest)
  have hdrop : rest.dropWhile Char.isDigit = rest :=
    Text.dropWhile_append_stop (List.forall_mem_nil _) hrest
  rw [fraction?, hspan]
  split
  · rename_i heq
    exact absurd (congrArg Prod.fst heq) (Text.padded_ne_nil width n)
  · rename_i heq
    cases heq
    rw [hdrop, fractionNanos, digitsValue, Text.ofDigitChars_padded, hlength]
    rfl

/-- A fraction of a second is read from its written form: cutting off zeros loses nothing. -/
theorem fraction?_fractionChars {nano : Nat} (h : nano < 1000000000) {rest : List Char}
    (hdigit : ∀ c ∈ rest.head?, c.isDigit = false) (hpoint : ∀ c ∈ rest.head?, c ≠ '.') :
    fraction? (fractionChars nano ++ rest) = some (nano, rest) := by
  unfold fractionChars
  by_cases hzero : nano = 0
  · rw [if_pos hzero, List.nil_append, fraction?, hzero]
    rintro tail rfl
    exact hpoint '.' rfl rfl
  · by_cases hmilli : nano % 1000000 = 0
    · rw [if_neg hzero, if_pos hmilli, List.cons_append,
        fraction?_padded (by decide) (by decide) (by omega) hdigit,
        show nano / 1000000 * 10 ^ (9 - 3) = nano by omega]
    · by_cases hmicro : nano % 1000 = 0
      · rw [if_neg hzero, if_neg hmilli, if_pos hmicro, List.cons_append,
          fraction?_padded (by decide) (by decide) (by omega) hdigit,
          show nano / 1000 * 10 ^ (9 - 6) = nano by omega]
      · rw [if_neg hzero, if_neg hmilli, if_neg hmicro, List.cons_append,
          fraction?_padded (by decide) (by decide) (by omega) hdigit,
          show nano * 10 ^ (9 - 9) = nano by omega]

/-! ## What the clock shows -/

theorem of?_self (t : Timestamp) : of? t.date t.hour t.minute t.second t.nano = some t :=
  dif_pos t.valid

/-- An ordinary second is shown as it is, and a leap second with the next number and a fraction of
its own. -/
theorem clock_cases (t : Timestamp) :
    t.nano < nanosInSecond ∧ t.clockSecond = t.second ∧ t.clockNano = t.nano ∨
      nanosInSecond ≤ t.nano ∧ t.clockSecond = t.second + 1 ∧
        nanosInSecond + t.clockNano = t.nano := by
  obtain ⟨-, -, -, hnano⟩ := t.valid
  rw [clockSecond, clockNano]
  rcases Nat.lt_or_ge t.nano nanosInSecond with h | h
  · exact .inl ⟨h, by rw [Nat.div_eq_of_lt h, Nat.add_zero], Nat.mod_eq_of_lt h⟩
  · have hdiv : t.nano / nanosInSecond = 1 := Nat.div_eq_of_lt_le (by omega) (by omega)
    have hmod := Nat.div_add_mod t.nano nanosInSecond
    rw [hdiv, Nat.mul_one] at hmod
    exact .inr ⟨h, by rw [hdiv], hmod⟩

theorem clockNano_lt (t : Timestamp) : t.clockNano < nanosInSecond := Nat.mod_lt _ (by decide)

theorem clockSecond_le (t : Timestamp) : t.clockSecond ≤ 60 := by
  obtain ⟨-, -, hsecond, -⟩ := t.valid
  have hclock := t.clock_cases
  omega

/-- The instant that is read off the clock. A leap second that is not shown as 60 is taken for the
ordinary second that is shown so. -/
def onClock (t : Timestamp) : Timestamp :=
  if h : t.clockSecond = 60 then t
  else
    { t with
      second := t.clockSecond
      nano := t.clockNano
      valid := by
        obtain ⟨hhour, hminute, -, -⟩ := t.valid
        have hsecond := t.clockSecond_le
        have hnano := t.clockNano_lt
        exact ⟨hhour, hminute, by omega, by omega⟩ }

/-- What the clock shows of an instant is read as the instant on the clock. -/
theorem ofClock?_clock (t : Timestamp) :
    ofClock? t.date t.hour t.minute t.clockSecond t.clockNano = some t.onClock := by
  obtain ⟨-, -, hsecond, -⟩ := t.valid
  have hclock := t.clock_cases
  rw [ofClock?, onClock]
  split
  · rename_i h
    -- only the leap second behind the second 59 is shown as 60
    have hlast : t.second = 59 := by omega
    have hleap : nanosInSecond + t.clockNano = t.nano := by omega
    rw [hleap, ← hlast, of?_self]
  · exact dif_pos _

/-- An instant stays where it is unless it lies in a leap second that is not shown as 60. -/
theorem onClock_eq_self_iff (t : Timestamp) :
    t.onClock = t ↔ t.nano < nanosInSecond ∨ t.second = 59 := by
  obtain ⟨-, -, hsecond, -⟩ := t.valid
  have hclock := t.clock_cases
  rw [onClock]
  split
  · rename_i h
    exact iff_of_true rfl (.inr (by omega))
  · rename_i h
    constructor
    · intro heq
      have hshown : t.clockSecond = t.second := congrArg second heq
      omega
    · intro hkept
      have hsame : t.clockSecond = t.second ∧ t.clockNano = t.nano := by omega
      simp only [hsame]

/-! ## Instants in universal time -/

/-- Without an offset an instant stays where it is. -/
theorem minusMinutes?_zero (t : Timestamp) : t.minusMinutes? 0 = some t := by
  obtain ⟨hhour, hminute, -, -⟩ := t.valid
  have hinDay : (((60 * t.hour + t.minute : Nat) - 0 : Int) % 1440).toNat =
      60 * t.hour + t.minute := by omega
  have hhours : (60 * t.hour + t.minute) / 60 = t.hour := by omega
  have hminutes : (60 * t.hour + t.minute) % 60 = t.minute := by omega
  have hnotBefore : ¬ ((60 * t.hour + t.minute : Nat) - 0 : Int) < 0 := by omega
  have hnotAfter : ((60 * t.hour + t.minute : Nat) - 0 : Int) < 1440 := by omega
  rw [minusMinutes?]
  rw [hinDay, hhours, hminutes, if_neg hnotBefore, if_pos hnotAfter, Option.bind_some, of?_self]

/-- From the written form of an instant in universal time the instant on the clock is read, whatever
follows. -/
theorem read?_zuluChars (t : Timestamp) (rest : List Char) :
    read? (t.zuluChars ++ rest) = some (t.onClock, rest) := by
  obtain ⟨hhour, hminute, -, -⟩ := t.valid
  have hsecond := t.clockSecond_le
  have hcolon : Text.isBlank ':' = false := by decide
  have hzone : Text.isBlank 'Z' = false := by decide
  have hfraction : fraction? (fractionChars t.clockNano ++ 'Z' :: rest) =
      some (t.clockNano, 'Z' :: rest) :=
    fraction?_fractionChars t.clockNano_lt (by rintro c ⟨⟩; rfl) (by rintro c ⟨⟩; decide)
  rw [read?, zuluChars, chars, timeChars]
  simp only [List.append_assoc, List.cons_append, List.nil_append, Date.read?_chars, separator?,
    field?_padded (show t.hour < 100 by omega), field?_padded (show t.minute < 100 by omega),
    field?_padded (show t.clockSecond < 100 by omega), mark?_cons hcolon, hfraction,
    Text.skipBlanks_cons hzone, offset?, ofClock?_clock, minusMinutes?_zero, Option.bind_eq_bind,
    Option.bind_some]

/-- The written form of an instant stands for the instant on the clock. -/
theorem parse?_zuluChars (t : Timestamp) : parse? (String.ofList t.zuluChars) = some t.onClock := by
  have hread := t.read?_zuluChars []
  rw [List.append_nil] at hread
  rw [parse?, String.toList_ofList, hread]
  rfl

end Timestamp

end SqlSelect
