import AssetServer.Text.Utf8

/-!
# Request targets

What a client asks for: a path, an absolute address, an authority alone, or a star. `Target.path?`
gives the path that it names, still encoded and without query and fragment.
-/

namespace AssetServer.Http.Target

/-! ## §1 Characters -/

/-- Whether a character stands between two others in the order of code points. -/
def within (low high c : Char) : Bool :=
  low ≤ c && c ≤ high

/-- Whether a character may stand in a path. Characters outside ASCII may. -/
def isPathChar (c : Char) : Bool :=
  c == '!' || within '$' ';' c || c == '=' || within '@' '_' c || within 'a' '~' c || c == '"' ||
  0x7F ≤ c.toNat

/-- Whether a character may stand in a query. -/
def isQueryChar (c : Char) : Bool :=
  c == '!' || within '$' ';' c || c == '=' || within '?' '~' c || 0x7F ≤ c.toNat

/-- Whether a character may stand in an authority, besides those with a meaning there. -/
def isNameChar (c : Char) : Bool :=
  c.isAlphanum || "!$&'()*+,-.;=_~".toList.contains c

/-- Whether a character may stand in the name of a scheme. -/
def isSchemeChar (c : Char) : Bool :=
  c.isAlphanum || c == '+' || c == '-' || c == '.' || c == '~'

/-! ## §2 Parts -/

/-- A path with an optional query and fragment. The empty path stands for the root. -/
def pathOf? (cs : List Char) : Option (List Char) :=
  let ends (c : Char) : Bool := c == '?' || c == '#'
  let path := cs.takeWhile (!ends ·)
  let queryOk := match cs.dropWhile (!ends ·) with
    | '?' :: query => (query.takeWhile (· != '#')).all isQueryChar
    | _ => true
  if path.all isPathChar && queryOk then some (if path = [] then ['/'] else path) else none

/-- What has been seen of an authority. -/
structure Seen where
  /-- Colons that may stand in front of a number. -/
  colons : Nat
  opened : Bool
  closed : Bool
  /-- Whether a percent sign has been seen that user data does not explain. -/
  percent : Bool
  deriving DecidableEq, Repr

/-- Takes one character of an authority. User data in front of an at sign may hold colons and
    percent signs, and so may an address in brackets. -/
def Seen.take? (s : Seen) (c : Char) : Option Seen :=
  if c = ':' then if 8 ≤ s.colons then none else some { s with colons := s.colons + 1 }
  else if c = '[' then if s.percent || s.opened then none else some { s with opened := true }
  else if c = ']' then
    if !s.opened || s.closed then none
    else some { s with colons := 0, closed := true, percent := false }
  else if c = '@' then some { s with colons := 0, percent := false }
  else if c = '%' then some { s with percent := true }
  else if isNameChar c then some s
  else none

/-- Whether a text can be an authority. -/
def isAuthority (cs : List Char) : Bool :=
  match cs.foldlM Seen.take? ⟨0, false, false, false⟩ with
  | some s => s.opened == s.closed && s.colons ≤ 1 && cs.getLast? != some '@' && !s.percent
  | none => false

/-- Splits off an authority. -/
def authority? (cs : List Char) : Option (List Char × List Char) :=
  let ends (c : Char) : Bool := c == '/' || c == '?' || c == '#'
  let front := cs.takeWhile (!ends ·)
  if isAuthority front then some (front, cs.dropWhile (!ends ·)) else none

/-- What follows a scheme and the two slashes after it, if the text starts with them. -/
def afterScheme? (cs : List Char) : Option (List Char) :=
  if cs.length ≤ 3 then none
  else match cs.dropWhile isSchemeChar with
    | ':' :: '/' :: '/' :: rest => some rest
    | _ => none

/-! ## §3 Targets -/

/-- The greatest number of bytes in a target. -/
def maxBytes : Nat := 65534

/-- The greatest length of the name of a scheme. -/
def maxScheme : Nat := 64

/-- The path in an absolute address or an authority. -/
def absolutePath? (cs : List Char) : Option (List Char) :=
  match afterScheme? cs with
  | some rest =>
    if maxScheme + 3 < cs.length - rest.length then none
    else match authority? rest with
      | some (front, rest) => if front = [] then none else pathOf? rest
      | none => none
  | none =>
    match authority? cs with
    | some (_, rest) => if rest = [] then some [] else none
    | none => none

/-- The path that a target names; none for a text that is no target. -/
def path? (text : String) : Option String :=
  let cs := text.toList
  let found := match cs with
    | [] => none
    | ['*'] => some ['*']
    | '/' :: _ => pathOf? cs
    | _ => absolutePath? cs
  if text.utf8ByteSize ≤ maxBytes then found.map String.ofList else none

end AssetServer.Http.Target
