import AssetServer.Calendar
import AssetServer.Instant
import AssetServer.Text.Blank

/-!
# Dates in headers

Instants as dates of the Gregorian calendar, written like `Tue, 14 Nov 2023 22:13:20 GMT` and read
by the more liberal grammar of mail headers: the weekday and the seconds may be missing, years may
be short, zones may be offsets or names, and comments may follow.

`HttpDate.format?` writes, `HttpDate.parse?` reads.
-/

namespace AssetServer.HttpDate

open Calendar

/-! ## §1 Names -/

def weekdayNames : List String :=
  ["Mon", "Tue", "Wed", "Thu", "Fri", "Sat", "Sun"]

def monthNames : List String :=
  ["Jan", "Feb", "Mar", "Apr", "May", "Jun", "Jul", "Aug", "Sep", "Oct", "Nov", "Dec"]

/-! ## §2 Writing -/

/-- A number with zeros in front up to `width` digits. -/
def padded (width n : Nat) : String :=
  let digits := toString n
  String.ofList (List.replicate (width - digits.length) '0') ++ digits

/-- A year with at least four digits; outside 0 to 9999 with its sign. -/
def showYear (year : Int) : String :=
  let digits := padded 4 year.natAbs
  if year < 0 then "-" ++ digits else if 9999 < year then "+" ++ digits else digits

/-- The text of an instant in a header, to the second; none if its year has no date. -/
def format? (t : Instant) : Option String :=
  let days := Int.fdiv t.seconds 86400
  let second := Int.toNat (Int.fmod t.seconds 86400)
  let date := ofDays days
  if minYear ≤ date.year ∧ date.year ≤ maxYear then
    some (weekdayNames.getD (weekday days) "" ++ ", " ++ padded 2 date.day ++ " " ++
      monthNames.getD (date.month - 1) "" ++ " " ++ showYear date.year ++ " " ++
      padded 2 (second / 3600) ++ ":" ++ padded 2 (second / 60 % 60) ++ ":" ++
      padded 2 (second % 60) ++ " GMT")
  else none

/-! ## §3 Reading -/

/-- Characters without the white space in front. -/
def skipBlank (cs : List Char) : List Char :=
  cs.dropWhile Text.isBlank

/-- Skips white space, of which there must be some. -/
def blank? (cs : List Char) : Option (List Char) :=
  match cs with
  | c :: rest => if Text.isBlank c then some (skipBlank rest) else none
  | [] => none

/-- The number that digits spell. -/
def numeral (digits : List Char) : Nat :=
  digits.foldl (fun n d => n * 10 + (d.toNat - '0'.toNat)) 0

/-- A number of at least `low` digits, taking no more than `high`. -/
def number? (low high : Nat) (cs : List Char) : Option (Nat × List Char) :=
  let digits := (cs.take high).takeWhile Char.isDigit
  if low ≤ digits.length then some (numeral digits, cs.drop digits.length) else none

/-- A name of three letters from a list, in letters of any case: its place in the list. -/
def name? (names : List String) (cs : List Char) : Option (Nat × List Char) :=
  let key := (cs.take 3).map Char.toLower
  (names.findIdx? (fun n => n.toList.map Char.toLower == key)).map (·, cs.drop 3)

/-- The character `c`, skipped. -/
def char? (c : Char) : List Char → Option (List Char)
  | d :: rest => if d = c then some rest else none
  | [] => none

/-- The hours that a zone name stands for, relative to UTC. -/
def zoneHours? (name : String) : Option Int :=
  match name with
  | "gmt" | "ut" | "z" => some 0
  | "edt" => some (-4)
  | "est" | "cdt" => some (-5)
  | "cst" | "mdt" => some (-6)
  | "mst" | "pdt" => some (-7)
  | "pst" => some (-8)
  | _ => if name.length = 1 ∧ name ≠ "j" then some 0 else none

/-- A zone, by name or as a signed offset of four digits: its seconds ahead of UTC. -/
def zone? (cs : List Char) : Option (Int × List Char) :=
  let letters := cs.takeWhile Char.isAlpha
  if letters ≠ [] then
    (zoneHours? (String.ofList (letters.map Char.toLower))).map
      (fun h => (h * 3600, cs.drop letters.length))
  else match cs with
    | sign :: h₁ :: h₂ :: m₁ :: m₂ :: rest =>
      let seconds : Int := numeral [h₁, h₂] * 3600 + numeral [m₁, m₂] * 60
      if [h₁, h₂, m₁, m₂].all Char.isDigit ∧ numeral [m₁, m₂] < 60 ∧ numeral [h₁, h₂] < 24 then
        if sign = '+' then some (seconds, rest)
        else if sign = '-' then some (-seconds, rest)
        else none
      else none
    | _ => none

/-- The text after the bracket that closes a comment, `depth` brackets being open. A backslash takes
    the meaning from the character after it. -/
def comment? : Nat → List Char → Option (List Char)
  | _, [] => none
  | _, ['\\'] => none
  | depth, '\\' :: _ :: rest => comment? depth rest
  | depth, '(' :: rest => comment? (depth + 1) rest
  | depth, ')' :: rest => if depth ≤ 1 then some rest else comment? (depth - 1) rest
  | depth, _ :: rest => comment? depth rest

/-- Whether a text consists of comments with white space in front of each. -/
def onlyComments (fuel : Nat) (cs : List Char) : Bool :=
  match fuel with
  | 0 => cs.isEmpty
  | fuel + 1 =>
    match skipBlank cs with
    | '(' :: rest =>
      match comment? 1 rest with
      | some after => onlyComments fuel after
      | none => false
    | _ => cs.isEmpty

/-- The full year for a year written with `digits` digits. -/
def fullYear (digits year : Nat) : Nat :=
  if digits = 2 then (if year < 50 then year + 2000 else year + 1900)
  else if digits = 3 then year + 1900
  else year

/-- The weekday in front with its comma, if there is one: its place in the week. -/
def leadingWeekday? (cs : List Char) : Option (Option Nat × List Char) :=
  match name? weekdayNames cs with
  | some (day, rest) => (char? ',' rest).map (some day, ·)
  | none => some (none, cs)

/-- The seconds of a time, if it has any. -/
def seconds? (cs : List Char) : Option (Nat × List Char) :=
  match char? ':' (skipBlank cs) with
  | some rest => number? 2 2 rest
  | none => some (0, cs)

/-- The instant that a header's date names. A second 60 is the one after second 59. -/
def parse? (text : String) : Option Instant := do
  let (dayOfWeek, cs) ← leadingWeekday? (skipBlank text.toList)
  let (day, cs) ← number? 1 2 (skipBlank cs)
  let (month, cs) ← name? monthNames (← blank? cs)
  let cs ← blank? cs
  let (year, rest) ← number? 2 cs.length cs
  let date : Date := ⟨fullYear (cs.length - rest.length) year, month + 1, day⟩
  let (hour, cs) ← number? 2 2 (← blank? rest)
  let cs ← char? ':' (skipBlank cs)
  let (minute, cs) ← number? 2 2 (skipBlank cs)
  let (second, cs) ← seconds? cs
  let (offset, cs) ← zone? (← blank? cs)
  if !onlyComments cs.length cs || !date.valid || 24 ≤ hour || 60 ≤ minute || 60 < second then none
  else
    let days := toDays date
    if dayOfWeek.any (· != weekday days) then none
    else
      let clock : Int := days * 86400 + hour * 3600 + minute * 60 + second
      let leap := if second = 60 then 1 else 0
      let utcYear := (ofDays (Int.fdiv (clock - leap - offset) 86400)).year
      if minYear ≤ utcYear ∧ utcYear ≤ maxYear then some ⟨clock - offset, 0⟩ else none

end AssetServer.HttpDate
