import AssetServer.Http.Message
import AssetServer.Text.Split

/-!
# Compressed responses

Content is sent compressed to clients that prefer it so. Short content, images and streams of events
are sent as they are. A response that could have been compressed says that it depends on what the
client accepts.
-/

namespace AssetServer.Http.Compression

/-! ## §1 What clients accept -/

/-- An encoding that a client can name. -/
inductive Coding where
  | gzip
  | identity
  deriving DecidableEq, Repr

/-- The coding with a name. -/
def Coding.ofText? (name : String) : Option Coding :=
  let name := Text.lowerAscii name
  if name = "gzip" ∨ name = "x-gzip" then some .gzip
  else if name = "identity" then some .identity
  else none

/-- The thousandths that up to three places write. -/
def places? : Nat → List Char → Option Nat
  | _, [] => some 0
  | 0, _ => none
  | unit, c :: rest =>
    if c.isDigit then (places? (unit / 10) rest).map ((c.toNat - '0'.toNat) * unit + ·) else none

/-- A preference between 0 and 1 with at most three places, in thousandths. -/
def preference? (cs : List Char) : Option Nat :=
  match cs with
  | q :: '=' :: first :: rest =>
    if q ≠ 'q' ∧ q ≠ 'Q' then none
    else
      let whole := if first = '0' then some 0 else if first = '1' then some 1000 else none
      match whole, rest with
      | some n, [] => some n
      | some n, '.' :: more =>
        match places? 100 more with
        | some m => if n + m ≤ 1000 then some (n + m) else none
        | none => none
      | _, _ => none
  | _ => none

/-- One element of a list of accepted encodings. -/
def element? (cs : List Char) : Option (Coding × Nat) := do
  let coding ← Coding.ofText? (String.ofList (Text.trim (cs.takeWhile (· != ';'))))
  match cs.dropWhile (· != ';') with
  | _ :: preference => return (coding, ← preference? (Text.trim preference))
  | [] => return (coding, 1000)

/-- What the values of the header say. -/
def accepted (values : List String) : List (Coding × Nat) :=
  (values.filterMap visible?).flatMap fun v => (Text.split ',' v.toList).filterMap element?

/-- Whether a client prefers gzip: it accepts it, and does not prefer plain content to it. -/
def prefersGzip (values : List String) : Bool :=
  let all := accepted values
  let best (coding : Coding) : Nat :=
    (all.filter (·.1 = coding)).foldl (fun m (_, q) => max m q) 0
  0 < best .gzip && best .identity ≤ best .gzip

/-! ## §2 What is compressed -/

/-- The least length of content that is worth compressing. -/
def minLength : Nat := 32

/-- Whether content of a type is worth compressing. -/
def isCompressible (mediaType : String) : Bool :=
  let starts (text : String) : Bool := text.toList.isPrefixOf mediaType.toList
  !starts "application/grpc" && (mediaType = "image/svg+xml" || !starts "image/") &&
    !starts "text/event-stream"

/-- Whether a response may be compressed. -/
def isEligible (r : Response) : Bool :=
  !r.headers.has "content-encoding" && !r.headers.has "content-range" &&
    minLength ≤ r.body.length &&
    isCompressible (((r.headers.get? "content-type").bind visible?).getD "")

/-- The response to a client that accepts what `accept` says. Its body stays as it is here; the
    header tells that it is to be sent compressed. -/
def apply (accept : List String) (r : Response) : Response :=
  if isEligible r then
    let headers := r.headers.append "vary" "accept-encoding"
    if prefersGzip accept then
      { r with headers := (headers.erase "accept-ranges").set "content-encoding" "gzip" }
    else { r with headers }
  else r

end AssetServer.Http.Compression
