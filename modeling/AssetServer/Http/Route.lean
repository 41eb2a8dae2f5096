import AssetServer.Text.Split

/-!
# Routes

A route is a path that requests must match. A part that starts with a colon at some place matches
any text up to the next slash, and one that starts with a star matches all that follows.
-/

namespace AssetServer.Http

/-- One piece of a route. -/
inductive RoutePiece where
  | text (cs : List Char)
  /-- Any text up to the next slash. -/
  | segment
  /-- All that follows. -/
  | rest
  deriving DecidableEq, Repr

/-- A path that requests must match. -/
structure Route where
  pieces : List RoutePiece
  deriving DecidableEq, Repr

namespace Route

/-- Whether a character begins a piece that matches more than itself. -/
def isMark (c : Char) : Bool :=
  c == ':' || c == '*'

/-- The pieces of a route, in at most `fuel` steps; none if a name is missing or a star does not
    stand alone at the end. -/
def pieces? : Nat → List Char → Option (List RoutePiece)
  | 0, _ => none
  | fuel + 1, cs =>
    let front := cs.takeWhile (!isMark ·)
    match cs.dropWhile (!isMark ·) with
    | [] => some (if front = [] then [] else [.text front])
    | mark :: after =>
      let name := after.takeWhile (· != '/')
      let more := after.dropWhile (· != '/')
      if name = [] ∨ name.any isMark then none
      else if mark = ':' then (pieces? fuel more).map fun ps => .text front :: .segment :: ps
      else if more = [] ∧ front.getLast? = some '/' then some [.text front, .rest]
      else none

/-- The route that a path describes. It must start with a slash. -/
def ofText? (text : String) : Option Route :=
  match text.toList with
  | '/' :: cs => (pieces? (cs.length + 2) ('/' :: cs)).map Route.mk
  | _ => none

/-- Whether a path matches some pieces. -/
def matchesFrom : List RoutePiece → List Char → Bool
  | [], path => path.isEmpty
  | .text cs :: ps, path => cs.isPrefixOf path && matchesFrom ps (path.drop cs.length)
  | .segment :: ps, path =>
    !(path.takeWhile (· != '/')).isEmpty && matchesFrom ps (path.dropWhile (· != '/'))
  | .rest :: _, path => !path.isEmpty

/-- Whether a path matches the route. -/
def accepts (r : Route) (path : String) : Bool :=
  matchesFrom r.pieces path.toList

end Route

end AssetServer.Http
