import SqlSelect.Calendar.Date

/-!
# Timestamps

Instants of universal time to the nanosecond. Behind any second there may be a leap second: it is
told as more nanoseconds of the second before it. A text gives a local time with its offset, which
is taken off on reading; writing is always in universal time, with 0, 3, 6 or 9 fraction digits, the
fewest that lose nothing. In a text a leap second has a number of its own, the next one: 60 at the
end of a minute, which reading takes for a leap second, and elsewhere that of an ordinary second.
-/

namespace SqlSelect

open Calendar

/-- The number of nanoseconds in a second. -/
def Calendar.nanosInSecond : Nat := 1000000000

/-- Whether hour, minute, second and nanosecond name a time of day. Nanoseconds that do not fit in
the second lie in a leap second behind it. -/
def Calendar.IsTime (hour minute second nano : Nat) : Prop :=
  hour < 24 ∧ minute < 60 ∧ second < 60 ∧ nano < 2 * nanosInSecond

instance (hour minute second nano : Nat) : Decidable (IsTime hour minute second nano) :=
  inferInstanceAs (Decidable (_ ∧ _ ∧ _ ∧ _))

/-- An instant of universal time. -/
structure Timestamp where
  date : Date
  hour : Nat
  minute : Nat
  second : Nat
  nano : Nat
  valid : IsTime hour minute second nano
deriving DecidableEq

namespace Timestamp

/-- The instant of that date and time of day. -/
def of? (date : Date) (hour minute second nano : Nat) : Option Timestamp :=
  if h : IsTime hour minute second nano then some ⟨date, hour, minute, second, nano, h⟩ else none

/-- The instant that a clock shows: its second 60 is the leap second behind the second 59. -/
def ofClock? (date : Date) (hour minute second nano : Nat) : Option Timestamp :=
  if second = 60 then of? date hour minute 59 (nanosInSecond + nano)
  else of? date hour minute second nano

/-- The instant `offset` minutes before the one named; `offset` is less than a day. -/
def minusMinutes? (t : Timestamp) (offset : Int) : Option Timestamp :=
  let minutes : Int := (60 * t.hour + t.minute : Nat) - offset
  let inDay := (minutes % 1440).toNat
  let date? :=
    if minutes < 0 then t.date.previous?
    else if minutes < 1440 then some t.date
    else t.date.next?
  date?.bind fun date => of? date (inDay / 60) (inDay % 60) t.second t.nano

/-- The digits of a fraction of a second, as nanoseconds. -/
def fractionNanos (digits : List Char) : Nat :=
  digitsValue digits * Nat.pow 10 (9 - digits.length)

/-- A fraction of a second behind a point: one digit or more, of which nine count. -/
def fraction? : List Char → Option (Nat × List Char)
  | '.' :: rest =>
    match spanDigits 9 rest with
    | ([], _) => none
    | (digits, rest) => some (fractionNanos digits, rest.dropWhile Char.isDigit)
  | text => some (0, text)

/-- Exactly two digits. -/
def twoDigits? : List Char → Option (Nat × List Char)
  | a :: b :: rest =>
    if a.isDigit && b.isDigit then some (digitsValue [a, b], rest) else none
  | _ => none

/-- A signed offset in minutes: two digits of hours, colons or blanks, two digits of minutes. It
must be less than a day. -/
def signedOffset? (sign : Int) (text : List Char) : Option (Int × List Char) := do
  let (hours, text) ← twoDigits? text
  let (minutes, text) ← twoDigits? (text.dropWhile fun c => c == ':' || Text.isBlank c)
  if minutes < 60 ∧ hours < 24 then some (sign * (60 * hours + minutes : Nat), text) else none

/-- The offset of a local time: `Z`, `UTC` in any case, or a sign with hours and minutes. The sign
may be the true minus of typography. -/
def offset? : List Char → Option (Int × List Char)
  | '+' :: rest => signedOffset? 1 rest
  | '-' :: rest => signedOffset? (-1) rest
  | '−' :: rest => signedOffset? (-1) rest
  | 'Z' :: rest => some (0, rest)
  | 'z' :: rest => some (0, rest)
  | a :: b :: c :: rest =>
    if [a, b, c].map Char.toUpper = ['U', 'T', 'C'] then some (0, rest) else none
  | _ => none

/-- What stands between date and time of day. -/
def separator? : List Char → Option (List Char)
  | 't' :: rest => some rest
  | 'T' :: rest => some rest
  | ' ' :: rest => some rest
  | _ => none

/-- A timestamp at the start of a text, and the text after it. -/
def read? (text : List Char) : Option (Timestamp × List Char) := do
  let (date, text) ← Date.read? text
  let text ← separator? text
  let (hour, text) ← field? text
  let text ← mark? ':' text
  let (minute, text) ← field? text
  let text ← mark? ':' text
  let (second, text) ← field? text
  let (nano, text) ← fraction? text
  let (offset, text) ← offset? (Text.skipBlanks text)
  let moment ← ofClock? date hour minute second nano
  let moment ← moment.minusMinutes? offset
  some (moment, text)

/-- The timestamp that a string writes. -/
def parse? (s : String) : Option Timestamp := do
  let (moment, rest) ← read? s.toList
  if Text.skipBlanks rest = [] then some moment else none

/-- The fraction of a second with its point; nothing when it is zero. -/
def fractionChars (nano : Nat) : List Char :=
  if nano = 0 then []
  else if nano % 1000000 = 0 then '.' :: Text.padded 3 (nano / 1000000)
  else if nano % 1000 = 0 then '.' :: Text.padded 6 (nano / 1000)
  else '.' :: Text.padded 9 nano

/-- The second that a clock shows: that of a leap second is one more. -/
def clockSecond (t : Timestamp) : Nat := t.second + t.nano / nanosInSecond

/-- The nanosecond that a clock shows. -/
def clockNano (t : Timestamp) : Nat := t.nano % nanosInSecond

/-- The time of day that a clock shows, with its fraction. -/
def timeChars (t : Timestamp) : List Char :=
  Text.padded 2 t.hour ++ ':' :: (Text.padded 2 t.minute ++ ':' ::
    (Text.padded 2 t.clockSecond ++ fractionChars t.clockNano))

/-- Date and time of day with a mark for universal time. -/
def chars (zone : List Char) (t : Timestamp) : List Char :=
  t.date.chars ++ 'T' :: (t.timeChars ++ zone)

/-- The written form with a numeric offset. -/
def offsetChars (t : Timestamp) : List Char :=
  t.chars ['+', '0', '0', ':', '0', '0']

/-- The written form that ends in `Z`. -/
def zuluChars (t : Timestamp) : List Char :=
  t.chars ['Z']

example :
    (parse? "2016-12-31T23:59:60.5+01:00").map (fun t => String.ofList t.zuluChars) =
      some "2016-12-31T22:59:60.500Z" := by decide +kernel

end Timestamp

end SqlSelect
