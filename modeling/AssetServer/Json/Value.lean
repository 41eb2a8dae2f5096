import AssetServer.Json.Number

/-!
# Values in JSON texts

Reading is by expectation: the reader of a list asks for elements, the reader of an object for
members, and whatever is not asked for is skipped. A text is read from front to back, so the first
fault in document order is the one reported.
-/

namespace AssetServer.Json

/-! ## §1 White space and words -/

/-- Whether a byte is white space between tokens. -/
def isSpace (b : UInt8) : Bool :=
  b == 0x20 || b == 0x0A || b == 0x09 || b == 0x0D

/-- Skips white space. -/
def skipSpace (bytes : Bytes) : Bytes :=
  bytes.dropWhile isSpace

/-- The rest of a word such as `null`, after its first letter. -/
def word : List UInt8 → Bytes → Except Problem Bytes
  | [], bytes => .ok bytes
  | _ :: _, [] => .error .endInValue
  | c :: more, b :: rest => if b = c then word more rest else .error .expectedWord

/-- The bytes of a word. -/
def letters (text : String) : List UInt8 :=
  text.toList.map byte

/-! ## §2 Lists and objects -/

/-- Moves to the next element of a list: what it starts with, or none at the closing bracket. -/
def nextElement (first : Bool) (bytes : Bytes) : Except Problem (Option Bytes) :=
  match skipSpace bytes with
  | [] => .error .endInList
  | b :: rest =>
    if b = byte ']' then .ok none
    else if first then .ok (some (b :: rest))
    else if b = byte ',' then
      match skipSpace rest with
      | [] => .error .endInValue
      | c :: more => if c = byte ']' then .error .trailingComma else .ok (some (c :: more))
    else .error .expectedCommaOrBracket

/-- What follows a list whose elements have all been read. -/
def closeList (bytes : Bytes) : Except Problem Bytes :=
  match skipSpace bytes with
  | [] => .error .endInList
  | b :: rest =>
    if b = byte ']' then .ok rest
    else if b = byte ',' then
      match skipSpace rest with
      | c :: _ => if c = byte ']' then .error .trailingComma else .error .trailingCharacters
      | [] => .error .trailingCharacters
    else .error .trailingCharacters

/-- Moves to the next member of an object: what follows the opening quote of its key, or none at the
    closing brace. -/
def nextKey (first : Bool) (bytes : Bytes) : Except Problem (Option Bytes) :=
  match skipSpace bytes with
  | [] => .error .endInObject
  | b :: rest =>
    if b = byte '\x7d' then .ok none
    else if first then
      if b = byte '"' then .ok (some rest) else .error .keyNotString
    else if b = byte ',' then
      match skipSpace rest with
      | [] => .error .endInValue
      | c :: more =>
        if c = byte '"' then .ok (some more)
        else if c = byte '\x7d' then .error .trailingComma
        else .error .keyNotString
    else .error .expectedCommaOrBrace

/-- What follows an object whose members have all been read. -/
def closeObject (bytes : Bytes) : Bytes :=
  (skipSpace bytes).drop 1

/-- What follows the colon after a key. -/
def colon (bytes : Bytes) : Except Problem Bytes :=
  match skipSpace bytes with
  | [] => .error .endInObject
  | b :: rest => if b = byte ':' then .ok rest else .error .expectedColon

/-! ## §3 Values that are not needed -/

/-- An open list or object. -/
inductive Frame where
  | list
  | object
  deriving DecidableEq, Repr

/-- What skipping a value does next. -/
inductive Skip where
  /-- A value comes. -/
  | value
  /-- A value has ended. -/
  | after
  /-- The innermost list or object has just been opened. -/
  | opened
  deriving DecidableEq, Repr

/-- The key and colon in front of a member's value. -/
def skipKey (bytes : Bytes) : Except Problem Bytes :=
  match skipSpace bytes with
  | [] => .error .endInObject
  | b :: rest =>
    if b = byte '"' then do colon (← skipString (rest.length + 1) rest)
    else .error .keyNotString

/-- The key in front of a value inside `frame`; in a list there is none. -/
def skipKeyIn : Frame → Bytes → Except Problem Bytes
  | .list, bytes => .ok bytes
  | .object, bytes => skipKey bytes

/-- Skips values, `frames` being open around them, in at most `fuel` steps. There is no limit on how
    deep they are nested. -/
def skip : Nat → Skip → List Frame → Bytes → Except Problem Bytes
  | 0, _, _, _ => .error .endInValue
  | _ + 1, .after, [], bytes => .ok bytes
  | _ + 1, .opened, [], bytes => .ok bytes
  | fuel + 1, .value, frames, bytes =>
    match skipSpace bytes with
    | [] => .error .endInValue
    | b :: rest =>
      if b = byte 'n' then do skip fuel .after frames (← word (letters "ull") rest)
      else if b = byte 't' then do skip fuel .after frames (← word (letters "rue") rest)
      else if b = byte 'f' then do skip fuel .after frames (← word (letters "alse") rest)
      else if b = byte '-' then do skip fuel .after frames (← skipNumber rest)
      else if isDigit b then do skip fuel .after frames (← skipNumber (b :: rest))
      else if b = byte '"' then do
        skip fuel .after frames (← skipString (rest.length + 1) rest)
      else if b = byte '[' then skip fuel .opened (.list :: frames) rest
      else if b = byte '\x7b' then skip fuel .opened (.object :: frames) rest
      else .error .expectedValue
  | fuel + 1, .opened, frame :: frames, bytes =>
    match skipSpace bytes, frame with
    | [], .list => .error .endInList
    | [], .object => .error .endInObject
    | b :: rest, frame =>
      if (frame = .list ∧ b = byte ']') ∨ (frame = .object ∧ b = byte '\x7d') then
        skip fuel .after frames rest
      else do skip fuel .value (frame :: frames) (← skipKeyIn frame (b :: rest))
  | fuel + 1, .after, frame :: frames, bytes =>
    match skipSpace bytes, frame with
    | [], .list => .error .endInList
    | [], .object => .error .endInObject
    | b :: rest, frame =>
      if (frame = .list ∧ b = byte ']') ∨ (frame = .object ∧ b = byte '\x7d') then
        skip fuel .after frames rest
      else if b = byte ',' then do skip fuel .value (frame :: frames) (← skipKeyIn frame rest)
      else .error (match frame with
        | .list => .expectedCommaOrBracket
        | .object => .expectedCommaOrBrace)

/-- What follows a value that is not needed. -/
def skipValue (bytes : Bytes) : Except Problem Bytes :=
  skip (2 * bytes.length + 2) .value [] bytes

/-! ## §4 Values of the wrong type -/

/-- The fault of a value that starts with `bytes` where `expected` should stand: its type, or an
    earlier fault in it. -/
def wrongType (expected : String) (bytes : Bytes) : Problem :=
  let type (found : Except Problem Found) : Problem := match found with
    | .ok found => .mismatch (.wrongType found expected)
    | .error e => e
  match bytes with
  | [] => .expectedValue
  | b :: rest =>
    if b = byte 'n' then type ((word (letters "ull") rest).map fun _ => .null)
    else if b = byte 't' then type ((word (letters "rue") rest).map fun _ => .boolean true)
    else if b = byte 'f' then type ((word (letters "alse") rest).map fun _ => .boolean false)
    else if b = byte '-' then type ((number false rest).map Prod.fst)
    else if isDigit b then type ((number true bytes).map Prod.fst)
    else if b = byte '"' then type ((string rest).map fun s => .string s.1)
    else if b = byte '[' then type (.ok .sequence)
    else if b = byte '\x7b' then type (.ok .map)
    else .expectedValue

/-! ## §5 Values that are needed -/

/-- A string value. -/
def stringValue (bytes : Bytes) : Except Problem (String × Bytes) :=
  match skipSpace bytes with
  | [] => .error .endInValue
  | b :: rest =>
    if b = byte '"' then string rest else .error (wrongType "a string" (b :: rest))

/-- A string value or the word `null`. -/
def optionalString (bytes : Bytes) : Except Problem (Option String × Bytes) :=
  match skipSpace bytes with
  | b :: rest =>
    if b = byte 'n' then do return (none, ← word (letters "ull") rest)
    else do
      let (text, rest) ← stringValue bytes
      return (some text, rest)
  | [] => .error .endInValue

/-- The elements of a list from after its opening bracket or an element, put behind `done`, which is
    in reverse. -/
def elementsOnto {α : Type} (element : Bytes → Except Problem (α × Bytes)) :
    Nat → Bool → List α → Bytes → Except Problem (List α × Bytes)
  | 0, _, _, _ => .error .endInList
  | fuel + 1, first, done, bytes => do
    match ← nextElement first bytes with
    | none => return (done.reverse, ← closeList bytes)
    | some start =>
      let (value, rest) ← element start
      elementsOnto element fuel false (value :: done) rest

/-- A list of values. -/
def listValue {α : Type} (element : Bytes → Except Problem (α × Bytes)) (bytes : Bytes) :
    Except Problem (List α × Bytes) :=
  match skipSpace bytes with
  | [] => .error .endInValue
  | b :: rest =>
    if b = byte '[' then elementsOnto element (rest.length + 1) true [] rest
    else .error (wrongType "a sequence" (b :: rest))

/-- The members of an object from after its opening brace or a member. `member` reads the value of
    one key into the state, from after the key. -/
def members {σ : Type} (member : String → σ → Bytes → Except Problem (σ × Bytes)) :
    Nat → Bool → σ → Bytes → Except Problem (σ × Bytes)
  | 0, _, _, _ => .error .endInObject
  | fuel + 1, first, state, bytes => do
    match ← nextKey first bytes with
    | none => return (state, bytes)
    | some start =>
      let (key, rest) ← string start
      let (state, rest) ← member key state rest
      members member fuel false state rest

/-- The value after the colon of a member. -/
def afterColon {α : Type} (value : Bytes → Except Problem (α × Bytes)) (bytes : Bytes) :
    Except Problem (α × Bytes) := do
  value (← colon bytes)

/-- A record with named fields: an object with its fields in any order, or a list of its fields in
    their own order. -/
def recordValue {α : Type} (name : String) (ofObject ofList : Bytes → Except Problem (α × Bytes))
    (bytes : Bytes) : Except Problem (α × Bytes) :=
  match skipSpace bytes with
  | [] => .error .endInValue
  | b :: rest =>
    if b = byte '[' then do
      let (value, rest) ← ofList rest
      return (value, ← closeList rest)
    else if b = byte '\x7b' then do
      let (value, rest) ← ofObject rest
      return (value, closeObject rest)
    else .error (wrongType ("struct " ++ name) (b :: rest))

/-- The next field of a record written as a list, or what stands for it past the end. -/
def fieldInList {α : Type} (first : Bool) (value : Bytes → Except Problem (α × Bytes))
    (missing : Except Problem α) (bytes : Bytes) : Except Problem (α × Bytes) := do
  match ← nextElement first bytes with
  | some start => value start
  | none => return (← missing, bytes)

/-- A whole text: one value and nothing but white space after it. -/
def document {α : Type} (value : Bytes → Except Problem (α × Bytes)) (bytes : Bytes) :
    Except Problem α := do
  let (result, rest) ← value bytes
  if skipSpace rest = [] then return result else .error .trailingCharacters

end AssetServer.Json
