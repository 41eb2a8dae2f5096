import AssetServer.Calendar

/-!
# Dates and times in TOML texts

A date, a time of day, or both, with or without an offset from universal time. They are kept as the
text in which they are shown: a capital `T` between date and time, a capital `Z` for no offset, and
as many places of a second as needed, at most nine.
-/

namespace AssetServer.Toml

/-- The number that decimal digits write. -/
def decimalValue (ds : List Char) : Nat :=
  ds.foldl (fun n c => n * 10 + (c.toNat - '0'.toNat)) 0

/-- A number of exactly `width` decimal digits within bounds, as its digits. -/
def fixed? (width low high : Nat) (cs : List Char) : Option (List Char × List Char) :=
  let ds := cs.take width
  let n := decimalValue ds
  if ds.length = width ∧ ds.all Char.isDigit ∧ low ≤ n ∧ n ≤ high then
    some (ds, cs.drop width)
  else none

/-- What follows a given character. -/
def mark? (c : Char) : List Char → Option (List Char)
  | d :: rest => if c = d then some rest else none
  | [] => none

/-- A date. -/
def date? (cs : List Char) : Option (List Char × List Char) := do
  let (year, rest) ← fixed? 4 0 9999 cs
  let (month, rest) ← fixed? 2 1 12 (← mark? '-' rest)
  let (day, rest) ←
    fixed? 2 1 (Calendar.daysInMonth (decimalValue year) (decimalValue month)) (← mark? '-' rest)
  return (year ++ '-' :: month ++ '-' :: day, rest)

/-- The places after a second, without zeros at their end. -/
def places (cs : List Char) : List Char × List Char :=
  match cs with
  | '.' :: rest =>
    let ds := rest.takeWhile Char.isDigit
    if ds = [] then ([], cs)
    else
      let kept := ((ds.take 9).reverse.dropWhile (· == '0')).reverse
      (if kept = [] then [] else '.' :: kept, rest.drop ds.length)
  | _ => ([], cs)

/-- A time of day. -/
def time? (cs : List Char) : Option (List Char × List Char) := do
  let (hour, rest) ← fixed? 2 0 23 cs
  let (minute, rest) ← fixed? 2 0 59 (← mark? ':' rest)
  let (second, rest) ← fixed? 2 0 60 (← mark? ':' rest)
  let (more, rest) := places rest
  return (hour ++ ':' :: minute ++ ':' :: second ++ more, rest)

/-- An offset from universal time, if there is one. -/
def offset (cs : List Char) : List Char × List Char :=
  match cs with
  | c :: rest =>
    if c = 'Z' ∨ c = 'z' then (['Z'], rest)
    else if c = '+' ∨ c = '-' then
      let found := do
        let (hour, rest) ← fixed? 2 0 23 rest
        let (minute, rest) ← fixed? 2 0 59 (← mark? ':' rest)
        let sign := if decimalValue hour = 0 ∧ decimalValue minute = 0 then '+' else c
        return (sign :: hour ++ ':' :: minute, rest)
      found.getD ([], cs)
    else ([], cs)
  | [] => ([], [])

/-- A date, a time or both, as text. -/
def dateTime? (cs : List Char) : Option (String × List Char) :=
  match date? cs with
  | some (date, rest) =>
    let withTime := match rest with
      | c :: more =>
        if c = 'T' ∨ c = 't' ∨ c = ' ' then
          (time? more).map fun (time, after) =>
            let (shift, after) := offset after
            (String.ofList (date ++ 'T' :: time ++ shift), after)
        else none
      | [] => none
    some (withTime.getD (String.ofList date, rest))
  | none => (time? cs).map fun (time, after) => (String.ofList time, after)

end AssetServer.Toml
