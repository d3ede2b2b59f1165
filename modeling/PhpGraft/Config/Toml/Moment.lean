import PhpGraft.Config.Toml.Number

/-!
# Dates and times

A moment is a date of the calendar, a time of day, or both, and only both can have an offset from
universal time. Each of its numbers has a fixed count of digits, up to the fraction of a second.
-/

namespace PhpGraft.Toml

open Text

/-! ## Dates -/

/-- Whether a year has a 29th of February. -/
def isLeapYear (year : Nat) : Bool := year % 4 == 0 && (year % 100 != 0 || year % 400 == 0)

/-- The number of days of a month. -/
def daysOfMonth (year month : Nat) : Nat :=
  match month with
  | 2 => if isLeapYear year then 29 else 28
  | 4 | 6 | 9 | 11 => 30
  | _ => 31

/-- The text behind a date. -/
def afterDate? (cs : List Char) : Option (List Char) := do
  let (year, rest) ← readFixed 10 4 cs
  let (month, rest) ← readFixed 10 2 (← stripPrefix? ['-'] rest)
  let (day, rest) ← readFixed 10 2 (← stripPrefix? ['-'] rest)
  if 1 ≤ month ∧ month ≤ 12 ∧ 1 ≤ day ∧ day ≤ daysOfMonth year month then some rest else none

/-! ## Times -/

/-- The text behind a number of two digits that is at most `last`. -/
def afterUpTo? (last : Nat) (cs : List Char) : Option (List Char) :=
  (readFixed 10 2 cs).bind fun (n, rest) => if n ≤ last then some rest else none

/-- The text behind an hour and a minute. -/
def afterMinute? (cs : List Char) : Option (List Char) := do
  afterUpTo? 59 (← stripPrefix? [':'] (← afterUpTo? 23 cs))

/-- The text behind the fraction of a second. -/
def afterSecondFraction? : List Char → Option (List Char)
  | '.' :: cs => if cs.head?.any Char.isDigit then some (cs.dropWhile Char.isDigit) else none
  | _ => none

/-- The text behind a second. The second 60 is one that is added to a minute. -/
def afterSecond? (cs : List Char) : Option (List Char) := do
  return skipOptional afterSecondFraction? (← afterUpTo? 60 (← stripPrefix? [':'] cs))

/-- The text behind a time of day. -/
def afterTime? (cs : List Char) : Option (List Char) :=
  (afterMinute? cs).map (skipOptional afterSecond?)

/-- The text behind an offset from universal time. -/
def afterOffset? : List Char → Option (List Char)
  | 'Z' :: cs => some cs
  | 'z' :: cs => some cs
  | '+' :: cs => afterMinute? cs
  | '-' :: cs => afterMinute? cs
  | _ => none

/-! ## Moments -/

/-- The text behind the time of a date, ahead of which a letter or a single space stands. -/
def afterTimeOfDate? : List Char → Option (List Char)
  | 'T' :: cs | 't' :: cs | ' ' :: cs => (afterTime? cs).map (skipOptional afterOffset?)
  | _ => none

/-- The text behind a moment. -/
def afterMoment? (cs : List Char) : Option (List Char) :=
  (afterDate? cs).map (skipOptional afterTimeOfDate?) <|> afterTime? cs

end PhpGraft.Toml
