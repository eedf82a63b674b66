import Phrasebook.Text.Digit

/-!
# Dates and times

A date of the Gregorian calendar, a time of the day, and a moment, which is both and may state its distance from
universal time.

* The fields of each lie in their ranges: `Date.of`, `Clock.of` and `Offset.of` say which field does not.
* `Moment.sameInstant` compares moments: two with an offset by the instant, two without one by their fields.
* `toText` and `quoted` are the two ways to write each of them.
-/

namespace Phrasebook.Calendar

/-! ## Ranges -/

/-- Whether a year has a 29 February. -/
def isLeap (year : Nat) : Bool := year % 4 = 0 && (year % 100 ≠ 0 || year % 400 = 0)

/-- The number of days of a month. -/
def daysIn (year month : Nat) : Nat :=
  if month = 2 then (if isLeap year then 29 else 28)
  else if month = 4 || month = 6 || month = 9 || month = 11 then 30 else 31

/-- The field of a date or a time that is out of its range. -/
inductive Misfit where
  | year (given : Nat)
  | month
  | day
  | hour
  | minute
  | second
  | offset (minutes : Int)
  deriving DecidableEq, Repr

/-- A length of time in minutes, written as days and seconds. -/
def lengthText (minutes : Int) : String :=
  let days := Int.fdiv minutes 1440
  let seconds := 60 * Int.fmod minutes 1440
  let parts := (if days = 0 then [] else [s!"days={days}"]) ++ (if seconds = 0 then [] else [s!"seconds={seconds}"])
  "datetime.timedelta(" ++ (if parts.isEmpty then "0" else ", ".intercalate parts) ++ ")"

/-- The text of a misfit. -/
def Misfit.message : Misfit → String
  | .year given => s!"year {given} is out of range"
  | .month => "month must be in 1..12"
  | .day => "day is out of range for month"
  | .hour => "hour must be in 0..23"
  | .minute => "minute must be in 0..59"
  | .second => "second must be in 0..59"
  | .offset minutes => "offset must be a timedelta strictly between -timedelta(hours=24) and timedelta(hours=24), not " ++
      lengthText minutes ++ "."

/-! ## Dates -/

/-- A date. -/
structure Date where
  year : Nat
  month : Nat
  day : Nat
  year_mem : 1 ≤ year ∧ year ≤ 9999 := by decide
  month_mem : 1 ≤ month ∧ month ≤ 12 := by decide
  day_mem : 1 ≤ day ∧ day ≤ daysIn year month := by decide
  deriving DecidableEq

/-- The date with the given fields. -/
def Date.of (year month day : Nat) : Except Misfit Date :=
  if hy : 1 ≤ year ∧ year ≤ 9999 then
    if hm : 1 ≤ month ∧ month ≤ 12 then
      if hd : 1 ≤ day ∧ day ≤ daysIn year month then .ok ⟨year, month, day, hy, hm, hd⟩ else .error .day
    else .error .month
  else .error (.year year)

/-- The number of days from the first day of the calendar. -/
def Date.ordinal (d : Date) : Nat :=
  let y := d.year - 1
  let months := (List.range (d.month - 1)).foldl (fun n m => n + daysIn d.year (m + 1)) 0
  365 * y + y / 4 - y / 100 + y / 400 + months + d.day

/-- The date with dashes. -/
def Date.toText (d : Date) : String :=
  Text.padded 4 d.year ++ "-" ++ Text.padded 2 d.month ++ "-" ++ Text.padded 2 d.day

/-- The date as a message shows it. -/
def Date.quoted (d : Date) : String := s!"datetime.date({d.year}, {d.month}, {d.day})"

/-! ## Times of the day -/

/-- A time of the day. -/
structure Clock where
  hour : Nat
  minute : Nat
  second : Nat
  micro : Nat
  hour_lt : hour < 24 := by decide
  minute_lt : minute < 60 := by decide
  second_lt : second < 60 := by decide
  micro_lt : micro < 1000000 := by decide
  deriving DecidableEq

/-- The time of the day with the given fields and millionths of a second. -/
def Clock.of (hour minute second : Nat) (micro : Fin 1000000) : Except Misfit Clock :=
  if hh : hour < 24 then
    if hm : minute < 60 then
      if hs : second < 60 then .ok ⟨hour, minute, second, micro.val, hh, hm, hs, micro.isLt⟩ else .error .second
    else .error .minute
  else .error .hour

/-- The millionths of a second that the first six digits of a fraction stand for. -/
def microOfFraction (ds : List Char) : Fin 1000000 :=
  Fin.ofNat 1000000 (Text.numeral ((ds ++ List.replicate 6 '0').take 6))

/-- The number of millionths of a second since midnight. -/
def Clock.micros (t : Clock) : Nat := ((t.hour * 60 + t.minute) * 60 + t.second) * 1000000 + t.micro

/-- The time with colons, and with the millionths of a second if there are any. -/
def Clock.toText (t : Clock) : String :=
  Text.padded 2 t.hour ++ ":" ++ Text.padded 2 t.minute ++ ":" ++ Text.padded 2 t.second ++
    (if t.micro = 0 then "" else "." ++ Text.padded 6 t.micro)

/-- The fields of a time as a message lists them: no millionths that are zero, and then no seconds that are zero. -/
def Clock.fieldTexts (t : Clock) : List String :=
  let fields :=
    if t.micro ≠ 0 then [t.hour, t.minute, t.second, t.micro]
    else if t.second ≠ 0 then [t.hour, t.minute, t.second]
    else [t.hour, t.minute]
  fields.map toString

/-- The time as a message shows it. -/
def Clock.quoted (t : Clock) : String := "datetime.time(" ++ ", ".intercalate t.fieldTexts ++ ")"

/-! ## Moments -/

/-- A distance from universal time, less than a day. -/
structure Offset where
  minutes : Int
  minutes_lt : minutes.natAbs < 1440 := by decide
  deriving DecidableEq

/-- The offset of a number of minutes. -/
def Offset.of (minutes : Int) : Except Misfit Offset :=
  if h : minutes.natAbs < 1440 then .ok ⟨minutes, h⟩ else .error (.offset minutes)

/-- Universal time. -/
def Offset.zero : Offset := { minutes := 0 }

/-- The offset as hours and minutes with a sign. -/
def Offset.toText (o : Offset) : String :=
  (if o.minutes < 0 then "-" else "+") ++
    Text.padded 2 (o.minutes.natAbs / 60) ++ ":" ++ Text.padded 2 (o.minutes.natAbs % 60)

/-- The offset as a message shows it. -/
def Offset.quoted (o : Offset) : String :=
  if o.minutes = 0 then "datetime.timezone.utc" else s!"datetime.timezone(" ++ lengthText o.minutes ++ ")"

/-- A date and a time of the day, with an offset or without. -/
structure Moment where
  date : Date
  clock : Clock
  offset : Option Offset
  deriving DecidableEq

/-- The millionths of a second since the calendar began, in universal time if an offset is stated. -/
def Moment.instant (m : Moment) : Int :=
  let minutes : Int := (m.offset.map Offset.minutes).getD 0
  (m.date.ordinal : Int) * 86400000000 + m.clock.micros - minutes * 60000000

/-- Whether two moments are equal: both or neither state an offset, and the instants agree. -/
def Moment.sameInstant (a b : Moment) : Bool := a.offset.isSome = b.offset.isSome && a.instant = b.instant

/-- The date and the time with `between` between them, and the offset. -/
def Moment.toText (between : String) (m : Moment) : String :=
  m.date.toText ++ between ++ m.clock.toText ++ (m.offset.map Offset.toText).getD ""

/-- The moment as a message shows it. -/
def Moment.quoted (m : Moment) : String :=
  let fields := [m.date.year, m.date.month, m.date.day].map toString ++ m.clock.fieldTexts ++
    (m.offset.map fun o => "tzinfo=" ++ o.quoted).toList
  "datetime.datetime(" ++ ", ".intercalate fields ++ ")"

/-! ## Reading -/

/-- Reads a date with dashes and fields of full width. -/
def cutDate? (cs : List Char) : Option ((Nat × Nat × Nat) × List Char) := do
  let (y, cs) ← Text.cutDigits? 4 4 cs
  let '-' :: cs := cs | none
  let (m, cs) ← Text.cutDigits? 2 2 cs
  let '-' :: cs := cs | none
  let (d, cs) ← Text.cutDigits? 2 2 cs
  return ((Text.numeral y, Text.numeral m, Text.numeral d), cs)

/-- Reads a time with colons and fields of full width, and a fraction of a second if there is one. -/
def cutClock? (cs : List Char) : Option ((Nat × Nat × Nat × Fin 1000000) × List Char) := do
  let (h, cs) ← Text.cutDigits? 2 2 cs
  let ':' :: cs := cs | none
  let (m, cs) ← Text.cutDigits? 2 2 cs
  let ':' :: cs := cs | none
  let (s, cs) ← Text.cutDigits? 2 2 cs
  let (fraction, cs) := match cs with
    | '.' :: d :: rest =>
      if d.isDigit then ((d :: rest).takeWhile Char.isDigit, (d :: rest).dropWhile Char.isDigit) else ([], cs)
    | _ => ([], cs)
  return ((Text.numeral h, Text.numeral m, Text.numeral s, microOfFraction fraction), cs)

/-- The minutes of an offset with a sign. -/
def offsetMinutes (sign : Char) (hours minutes : Nat) : Int :=
  let n : Int := 60 * hours + minutes
  if sign = '-' then -n else n

/-- Reads an offset: a sign, hours and minutes. -/
def cutOffset? (cs : List Char) : Option ((Char × Nat × Nat) × List Char) := do
  let sign :: cs := cs | none
  if sign ≠ '+' && sign ≠ '-' then none
  let (h, cs) ← Text.cutDigits? 2 2 cs
  let ':' :: cs := cs | none
  let (m, cs) ← Text.cutDigits? 2 2 cs
  return ((sign, Text.numeral h, Text.numeral m), cs)

/-- Reads a whole text as a date. -/
def Date.ofText? (s : String) : Option Date := do
  let ((y, m, d), []) ← cutDate? s.toList | none
  (Date.of y m d).toOption

/-- Reads a whole text as a time. -/
def Clock.ofText? (s : String) : Option Clock := do
  let ((h, m, s, f), []) ← cutClock? s.toList | none
  (Clock.of h m s f).toOption

/-- Reads a whole text as a date, a letter `T`, a time and perhaps an offset. -/
def Moment.ofText? (s : String) : Option Moment := do
  let ((y, mo, d), 'T' :: cs) ← cutDate? s.toList | none
  let ((h, mi, s, f), cs) ← cutClock? cs
  let offset ← match cs with
    | [] => some none
    | cs => do
      let ((sign, h, m), []) ← cutOffset? cs | none
      (Offset.of (offsetMinutes sign h m)).toOption.map some
  let date ← (Date.of y mo d).toOption
  let clock ← (Clock.of h mi s f).toOption
  return ⟨date, clock, offset⟩

end Phrasebook.Calendar
