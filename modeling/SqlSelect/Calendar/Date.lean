import SqlSelect.Calendar.Scan
import SqlSelect.Text.Digits

/-!
# Dates

Days of the Gregorian calendar, extended backwards without a break, in years -262143 to 262142. A
date is written `YYYY-MM-DD`; a year outside 0 to 9999 carries its sign.
-/

namespace SqlSelect

namespace Calendar

/-- Whether February has 29 days. -/
def isLeapYear (year : Int) : Bool :=
  year % 4 == 0 && (year % 100 != 0 || year % 400 == 0)

/-- The number of days in a month from 1 to 12. -/
def daysInMonth (year : Int) (month : Nat) : Nat :=
  if month = 2 then (if isLeapYear year then 29 else 28)
  else if month = 4 ∨ month = 6 ∨ month = 9 ∨ month = 11 then 30
  else 31

/-- The years that dates may have. -/
def firstYear : Int := -262143

/-- The last year that dates may have. -/
def lastYear : Int := 262142

/-- Whether year, month and day name a day. -/
def IsDay (year : Int) (month day : Nat) : Prop :=
  firstYear ≤ year ∧ year ≤ lastYear ∧ 1 ≤ month ∧ month ≤ 12 ∧ 1 ≤ day ∧
    day ≤ daysInMonth year month

instance (year : Int) (month day : Nat) : Decidable (IsDay year month day) :=
  inferInstanceAs (Decidable (_ ∧ _ ∧ _ ∧ _ ∧ _ ∧ _))

end Calendar

open Calendar

/-- A day of the calendar. -/
structure Date where
  year : Int
  month : Nat
  day : Nat
  valid : IsDay year month day
deriving DecidableEq

namespace Date

/-- The day of that year, month and number. -/
def of? (year : Int) (month day : Nat) : Option Date :=
  if h : IsDay year month day then some ⟨year, month, day, h⟩ else none

/-- The day after, unless the calendar ends. -/
def next? (d : Date) : Option Date :=
  if d.day < daysInMonth d.year d.month then of? d.year d.month (d.day + 1)
  else if d.month < 12 then of? d.year (d.month + 1) 1
  else of? (d.year + 1) 1 1

/-- The day before, unless the calendar begins. -/
def previous? (d : Date) : Option Date :=
  if 1 < d.day then of? d.year d.month (d.day - 1)
  else if 1 < d.month then of? d.year (d.month - 1) (daysInMonth d.year (d.month - 1))
  else of? (d.year - 1) 12 31

/-- A year: four digits from 0 to 9999, else a sign and at least four digits. -/
def yearChars (year : Int) : List Char :=
  if 0 ≤ year ∧ year ≤ 9999 then Text.padded 4 year.toNat
  else (if year < 0 then '-' else '+') :: Text.padded 4 year.natAbs

/-- The written form of a date. -/
def chars (d : Date) : List Char :=
  yearChars d.year ++ '-' :: (Text.padded 2 d.month ++ '-' :: Text.padded 2 d.day)

/-- A year: up to four digits, or a sign and any number of digits. -/
def year? : List Char → Option (Int × List Char)
  | '-' :: rest => (number? rest.length rest).map fun (n, rest) => (-(n : Int), rest)
  | '+' :: rest => (number? rest.length rest).map fun (n, rest) => ((n : Int), rest)
  | text => (number? 4 text).map fun (n, rest) => ((n : Int), rest)

/-- A date at the start of a text, and the text after it. -/
def read? (text : List Char) : Option (Date × List Char) := do
  let (year, text) ← year? (Text.skipBlanks text)
  let text ← mark? '-' text
  let (month, text) ← field? text
  let text ← mark? '-' text
  let (day, text) ← field? text
  let date ← of? year month day
  some (date, text)

/-- The date that a string writes. -/
def parse? (s : String) : Option Date := do
  let (date, rest) ← read? s.toList
  if Text.skipBlanks rest = [] then some date else none

example : (parse? "+12345-6-7").map (fun d => String.ofList d.chars) = some "+12345-06-07" := by
  decide +kernel

theorem of?_self (d : Date) : of? d.year d.month d.day = some d :=
  dif_pos d.valid

end Date

end SqlSelect
