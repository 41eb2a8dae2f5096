import AssetServer.Text.Split

/-!
# Request paths

A request path is read as moves in a tree whose root is its own parent: a name goes down, `..` goes
up, and empty parts and `.` stay. `RequestPath.clean` writes the place that a path leads to in one
form, and `RequestPath.below?` gives the rest of a path below a mount point.
-/

namespace AssetServer.RequestPath

/-! ## §1 Moves -/

/-- One move: `place` holds the names from the current place up to the root. -/
def move (place : List (List Char)) (part : List Char) : List (List Char) :=
  if part = [] ∨ part = ['.'] then place
  else if part = ['.', '.'] then place.tail
  else part :: place

/-- The names that lead from the root to where a path ends. -/
def segments (path : List Char) : List (List Char) :=
  ((Text.split '/' path).foldl move []).reverse

/-! ## §2 Clean form -/

/-- The one form of the place that a path leads to: a slash, then the names with a slash between
    each two. -/
def clean (path : String) : String :=
  String.ofList ('/' :: Text.unite '/' (segments path.toList))

/-- `cs` without the characters `start` at its front. -/
def strip? (start cs : List Char) : Option (List Char) :=
  if start.isPrefixOf cs then some (cs.drop start.length) else none

/-! ## §3 Mount points -/

/-- The rest of a path below a mount point, without a leading slash; none for a path outside it.
    Names count whole: `/app` does not mount `/apple`. -/
def below? (mount path : String) : Option String :=
  let mount := (clean mount).toList
  let cleaned := (clean path).toList
  if mount = ['/'] then some (String.ofList (cleaned.drop 1))
  else if cleaned = mount then some ""
  else ((strip? mount cleaned).bind (strip? ['/'])).map String.ofList

end AssetServer.RequestPath
