import AssetServer.Text.Blank
import AssetServer.Text.Quoted
import AssetServer.Text.Utf8

/-!
# Requests and responses

Headers are a list of names and values in the order in which they are sent. Names do not depend on
case; the names of a response are in small letters.
-/

namespace AssetServer.Http

/-- Header names with their values. -/
abbrev Headers := List (String × String)

namespace Headers

/-- The values of a header, in order. -/
def values (headers : Headers) (name : String) : List String :=
  headers.filterMap fun (n, v) => if Text.sameIgnoringCase n name then some v else none

/-- The first value of a header. -/
def get? (headers : Headers) (name : String) : Option String :=
  (headers.values name).head?

/-- Whether a header is there. -/
def has (headers : Headers) (name : String) : Bool :=
  (headers.get? name).isSome

/-- Without a header. -/
def erase (headers : Headers) (name : String) : Headers :=
  headers.filter fun (n, _) => !Text.sameIgnoringCase n name

/-- With a header in place of all of its name. -/
def set (headers : Headers) (name value : String) : Headers :=
  headers.erase name ++ [(name, value)]

/-- With one more value for a header. -/
def append (headers : Headers) (name value : String) : Headers :=
  headers ++ [(name, value)]

end Headers

/-- Whether a text can be the name of a header. -/
def isHeaderName (name : String) : Bool :=
  name != "" && name.length ≤ 65535 &&
    name.toList.all fun c => c.isAlphanum || "!#$%&'*+-.^_`|~".toList.contains c

/-- Whether a text can be the value of a header: no control characters but tabs. -/
def isHeaderValue (value : String) : Bool :=
  value.toList.all fun c => c == '\t' || (0x20 ≤ c.toNat && c.toNat != 0x7F)

/-- The value of a header if it is made of visible ASCII characters and blanks only. -/
def visible? (value : String) : Option String :=
  if value.toList.all fun c => c == '\t' || (0x20 ≤ c.toNat && c.toNat < 0x7F) then some value
  else none

/-- A header that cannot be sent. -/
inductive HeaderFault where
  | name (name : String)
  | value (name : String)
  deriving DecidableEq, Repr

/-- How messages word a header that cannot be sent. -/
def HeaderFault.message : HeaderFault → String
  | .name n => "bad header name " ++ Text.quoted n ++ ": invalid HTTP header name"
  | .value n => "bad value for header " ++ n ++ ": failed to parse header value"

/-- A header that is to be sent, its name in small letters. -/
def checkHeader (name value : String) : Except HeaderFault (String × String) :=
  if !isHeaderName name then .error (.name name)
  else
    let name := Text.lowerAscii name
    if isHeaderValue value then .ok (name, value) else .error (.value name)

/-- A request. -/
structure Request where
  method : String
  /-- The path, still encoded. -/
  path : String
  headers : Headers
  deriving DecidableEq, Repr

/-- A response. -/
structure Response where
  status : Nat
  headers : Headers
  /-- The content before any encoding for transport. -/
  body : Bytes
  deriving DecidableEq, Repr

namespace Response

/-- A response without content. -/
def empty (status : Nat) : Response :=
  ⟨status, [], []⟩

/-- A response with a message for people. -/
def message (status : Nat) (text : String) : Response :=
  ⟨status, [("content-type", "text/plain; charset=utf-8")], Utf8.encode text⟩

/-- With a header in place of all of its name. -/
def setHeader (r : Response) (name value : String) : Response :=
  { r with headers := r.headers.set name value }

end Response

end AssetServer.Http
