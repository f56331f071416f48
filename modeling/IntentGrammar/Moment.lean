/-!
# Moments

A `Moment` is a date, or a date with a time of day; the time may name the zone that it is told in.
`Moment.isReal` says which moments the calendar has, `text` how a moment is written and `notated`
how a message shows it.
-/

namespace IntentGrammar

/-- A zone, by the minutes that it is ahead, and the name that it was given. -/
structure Zone where
  ahead : Int
  name : String
deriving DecidableEq, Repr

/-- A time of day. -/
structure Clock where
  hour : Nat
  minute : Nat
  second : Nat
  micro : Nat
  zone : Option Zone
  /-- It is set off from the date by a letter. -/
  lettered : Bool
deriving DecidableEq, Repr

/-- A date, with a time of day or without. -/
structure Moment where
  year : Nat
  month : Nat
  day : Nat
  clock : Option Clock
deriving DecidableEq, Repr

namespace Moment

/-- How many days a month has. -/
def daysIn (year month : Nat) : Nat :=
  if month = 2 then
    if year % 4 = 0 ∧ (year % 100 ≠ 0 ∨ year % 400 = 0) then 29 else 28
  else if [4, 6, 9, 11].contains month then 30
  else 31

/-- The digits of a number, in a field of some width. -/
def padded (width n : Nat) : String :=
  let digits := toString n
  String.ofList (List.replicate (width - digits.length) '0') ++ digits

end Moment

namespace Zone

/-- The zone is less than a day ahead or behind. -/
def isReal (z : Zone) : Bool := z.ahead.natAbs < 24 * 60

/-- Hours and minutes, with a sign. -/
def text (z : Zone) : String :=
  (if z.ahead < 0 then "-" else "+") ++ Moment.padded 2 (z.ahead.natAbs / 60) ++ ":" ++
    Moment.padded 2 (z.ahead.natAbs % 60)

/-- The notation of a zone: days and seconds, of which only the days are ever less than zero, and
the name. -/
def notated (z : Zone) : String :=
  let seconds := z.ahead % (24 * 60) * 60
  let fields := (if z.ahead < 0 then ["days=-1"] else []) ++
    (if seconds = 0 then [] else ["seconds=" ++ toString seconds])
  let delta := if fields.isEmpty then "0" else ", ".intercalate fields
  "datetime.timezone(datetime.timedelta(" ++ delta ++ "), '" ++ z.name ++ "')"

end Zone

/-- A time that is set off by a letter, or told in a zone by hours, is of a kind of its own. -/
def Clock.isMarked (c : Clock) : Bool := c.lettered || c.zone.any (·.name != "Z")

namespace Moment

/-- The calendar and the clock have such a moment. -/
def isReal (m : Moment) : Bool :=
  1 ≤ m.year && 1 ≤ m.month && m.month ≤ 12 && 1 ≤ m.day && m.day ≤ daysIn m.year m.month &&
    m.clock.all fun c => c.hour < 24 && c.minute < 60 && c.second < 60 && c.zone.all Zone.isReal

/-- The moment with the parts of a second that make up whole ones carried over. -/
def carry (m : Moment) : Moment :=
  match m.clock with
  | none => m
  | some c =>
    let second := c.second + c.micro / 1000000
    let minute := c.minute + second / 60
    let hour := c.hour + minute / 60
    let day := m.day + hour / 24
    let clock :=
      { c with hour := hour % 24, minute := minute % 60, second := second % 60,
               micro := c.micro % 1000000 }
    if day ≤ daysIn m.year m.month then ⟨m.year, m.month, day, some clock⟩
    else if m.month < 12 then ⟨m.year, m.month + 1, 1, some clock⟩
    else ⟨m.year + 1, 1, 1, some clock⟩

/-- The same day and time, told in the same zone. -/
def same (m n : Moment) : Bool :=
  let key (m : Moment) := (m.year, m.month, m.day, m.clock.map fun c =>
    (c.hour, c.minute, c.second, c.micro, c.zone.map Zone.ahead))
  key m == key n

/-- The text of a moment.  Parts of a second are written if there are any. -/
def text (m : Moment) : String :=
  let date := "-".intercalate [padded 4 m.year, padded 2 m.month, padded 2 m.day]
  match m.clock with
  | none => date
  | some c =>
    date ++ (if c.lettered then "T" else " ") ++
      ":".intercalate [padded 2 c.hour, padded 2 c.minute, padded 2 c.second] ++
      (if c.micro = 0 then "" else "." ++ padded 6 c.micro) ++ (c.zone.map Zone.text).getD ""

/-- The notation of a moment.  Seconds and parts of a second are left out at the end. -/
def notated (m : Moment) : String :=
  let numbers (name : String) (ns : List Nat) (more : List String) : String :=
    name ++ "(" ++ ", ".intercalate (ns.map toString ++ more) ++ ")"
  match m.clock with
  | none => numbers "datetime.date" [m.year, m.month, m.day] []
  | some c =>
    let seconds :=
      if c.micro ≠ 0 then [c.second, c.micro] else if c.second ≠ 0 then [c.second] else []
    numbers (if c.isMarked then "TimeStamp" else "datetime.datetime")
      ([m.year, m.month, m.day, c.hour, c.minute] ++ seconds)
      (c.zone.toList.map fun z => "tzinfo=" ++ z.notated)

end Moment

end IntentGrammar
