import AssetServer.OsError
import AssetServer.Text.Utf8

/-!
# Sinks

A sink receives the output of a compilation. It may refuse a write, and holds what it accepted
before then. A copy passes data on piece by piece, up to the first piece that is refused.

`Sink.Limit` is what a sink makes of writes; that of a sink with little room is `Limit.ofSize`.
-/

namespace AssetServer

namespace Sink

/-- When a sink refuses a write. -/
structure Limit where
  /-- Why data is refused by a sink that holds something, and how much of it the sink has taken
      before that; none if the data is accepted. -/
  refusal? : Bytes → Bytes → Option (OsError × Nat)

/-- The words of a sink without room. -/
def full : OsError := .refused "sink full"

/-- Room for a number of bytes in all. A write that does not fit is refused as a whole. -/
def Limit.ofSize (size : Nat) : Limit where
  refusal? held data := if held.length + data.length ≤ size then none else some (full, 0)

instance : Coe Nat Limit := ⟨Limit.ofSize⟩

end Sink

/-- A receiver of data. -/
structure Sink where
  /-- What has been accepted so far. -/
  held : Bytes
  /-- What it has room for; without a limit every write is accepted. -/
  room : Option Sink.Limit
  deriving Inhabited

namespace Sink

/-- A sink that accepts every write. -/
def unlimited : Sink := ⟨[], none⟩

/-- The sink with data behind what it holds. -/
def accept (s : Sink) (data : Bytes) : Sink :=
  { s with held := s.held ++ data }

/-- Why the sink refuses a write, and how much of it it has taken before that; none if it accepts
    the write. -/
def refusal? (s : Sink) (data : Bytes) : Option (OsError × Nat) :=
  s.room.bind fun limit => limit.refusal? s.held data

/-- One write. -/
def write (s : Sink) (data : Bytes) : Except OsError Unit × Sink :=
  match s.refusal? data with
  | none => (.ok (), s.accept data)
  | some (e, taken) => (.error e, s.accept (data.take taken))

/-- How much data a copy passes on with one write. -/
def pieceBytes : Nat := 8192

/-- Copies data into a sink piece by piece, with at most `fuel` writes, up to the first write that
    is refused. -/
def copyWithin : Nat → Sink → Bytes → Except OsError Unit × Sink
  | 0, s, _ => (.ok (), s)
  | _ + 1, s, [] => (.ok (), s)
  | fuel + 1, s, b :: data =>
    match s.write ((b :: data).take pieceBytes) with
    | (.error e, s) => (.error e, s)
    | (.ok (), s) => copyWithin fuel s ((b :: data).drop pieceBytes)

/-- Copies data into a sink. -/
def copy (s : Sink) (data : Bytes) : Except OsError Unit × Sink :=
  match s.room with
  | none => (.ok (), s.accept data)
  | some _ => copyWithin (data.length / pieceBytes + 1) s data

end Sink

end AssetServer
