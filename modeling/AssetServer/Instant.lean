/-!
# Instants

Points in time as file systems report them: a whole number of seconds in 64 bits since the start of
1970, and nanoseconds.
-/

namespace AssetServer

/-- A point in time: seconds since the start of 1970 in UTC, and nanoseconds after that second. -/
structure Instant where
  seconds : Int
  nanos : Nat
  deriving DecidableEq, Repr, Inhabited

namespace Instant

/-- The greatest second that a clock can hold. -/
def maxSeconds : Int := 9223372036854775807

/-- Whether `a` is not before `b`. -/
def notBefore (a b : Instant) : Bool :=
  b.seconds < a.seconds || (a.seconds == b.seconds && b.nanos ≤ a.nanos)

/-- One second later; none past the last second that a clock can hold. -/
def nextSecond? (t : Instant) : Option Instant :=
  if t.seconds < maxSeconds then some ⟨t.seconds + 1, t.nanos⟩ else none

/-- The whole second that an instant lies in. -/
def floor (t : Instant) : Instant :=
  ⟨t.seconds, 0⟩

/-- Whether something modified at `modified` counts as changed for a reader who saw it at `since`.
    Dates in headers have whole seconds, so less than a second is no change. None if no clock can
    tell. -/
def modifiedSince? (modified since : Instant) : Option Bool :=
  since.nextSecond?.map modified.notBefore

/-- The time from one instant to a later one in seconds, with two places. -/
def elapsed (started ended : Instant) : String :=
  let nanos : Int :=
    (ended.seconds - started.seconds) * 1000000000 + ended.nanos - started.nanos
  let hundredths := (nanos.toNat + 5000000) / 10000000
  let places := toString (hundredths % 100)
  toString (hundredths / 100) ++ "." ++ (if places.length < 2 then "0" ++ places else places)

end Instant

end AssetServer
