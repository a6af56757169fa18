import CueFlow.Toml.Number
/-!
# Reading TOML dates and times

A moment is a date, a time of day, or both with or without an offset from universal time. It is
checked against the calendar and kept as written.
-/

namespace CueFlow.Toml

/-- Read a number of exactly so many digits that lies between two bounds. -/
def readCount (digits low high : Nat) (cs : List Char) : Option (Nat × List Char) :=
  let read := cs.take digits
  let n := natInBase 10 read
  if read.length = digits ∧ read.all isDigit ∧ low ≤ n ∧ n ≤ high then some (n, cs.drop digits)
  else none

/-- What is left after this character. -/
def after? (c : Char) : List Char → Option (List Char)
  | first :: rest => if first == c then some rest else none
  | [] => none

/-- How many days a month has. -/
def daysIn (year month : Nat) : Nat :=
  if month = 2 then if year % 4 = 0 ∧ (year % 100 ≠ 0 ∨ year % 400 = 0) then 29 else 28
  else if month ∈ [4, 6, 9, 11] then 30
  else 31

/-- What is left after a date. -/
def afterDate? (cs : List Char) : Option (List Char) := do
  let (year, rest) ← readCount 4 0 9999 cs
  let (month, rest) ← readCount 2 1 12 (← after? '-' rest)
  let (_, rest) ← readCount 2 1 (daysIn year month) (← after? '-' rest)
  return rest

/-- What is left after the fraction of a second, if there is one. -/
def afterFraction (cs : List Char) : List Char :=
  match cs with
  | '.' :: c :: rest => if isDigit c then rest.dropWhile isDigit else cs
  | cs => cs

/-- What is left after a time of day. A minute may have a leap second. -/
def afterTime? (cs : List Char) : Option (List Char) := do
  let (_, rest) ← readCount 2 0 23 cs
  let (_, rest) ← readCount 2 0 59 (← after? ':' rest)
  let (_, rest) ← readCount 2 0 60 (← after? ':' rest)
  return afterFraction rest

/-- What is left after an offset from universal time, if there is one. -/
def afterOffset? : List Char → Option (List Char)
  | 'Z' :: rest => some rest
  | 'z' :: rest => some rest
  | cs =>
    match cs with
    | sign :: rest =>
      if sign == '+' || sign == '-' then do
        let (_, rest) ← readCount 2 0 23 rest
        let (_, rest) ← readCount 2 0 59 (← after? ':' rest)
        return rest
      else some cs
    | [] => some cs

/-- What is left after the time that may follow a date. -/
def afterDateTime? (cs : List Char) : Option (List Char) :=
  match cs with
  | mark :: rest =>
    if mark == 'T' || mark == 't' || mark == ' ' then
      match afterTime? rest with
      | some rest => afterOffset? rest
      | none => some cs
    else some cs
  | [] => some cs

/-- Read a date, a time or both. -/
def readMoment (cs : List Char) : Option (Toml × List Char) := do
  let rest ← match afterDate? cs with
    | some rest => afterDateTime? rest
    | none => afterTime? cs
  return (.moment (String.ofList (cs.take (cs.length - rest.length))), rest)

end CueFlow.Toml
