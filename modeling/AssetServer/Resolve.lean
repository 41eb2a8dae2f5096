import AssetServer.Host
import AssetServer.Kind
import AssetServer.RequestPath

/-!
# Resolution

From a request path to a file under one of several roots. Roots are looked at in order and the first
hit wins. A directory is hit through its `index.html`. If nothing exists at the requested path and
it names a script or a stylesheet, the sources that compile into it are looked for.
-/

namespace AssetServer

/-- How a file was found. -/
inductive Hit where
  /-- At the path itself. -/
  | file
  /-- As the index of the directory at the path. -/
  | directory
  deriving DecidableEq, Repr

/-- What a request path leads to. -/
structure Target where
  /-- How the answer is made; a direct hit is used as it is. -/
  kind : Kind
  /-- The file to read or compile. -/
  path : Path
  hit : Hit
  /-- Whether a directory was requested without the slash at its end. -/
  redirect : Bool
  deriving DecidableEq, Repr

namespace Resolve

/-- A root followed by the parts of a relative path that are not empty. -/
def joinRelative (root : Path) (rel : String) : Path :=
  ((Text.parts '/' rel).filter (· != "")).foldl Path.join root

/-- What is hit under one root. -/
def hit? (h : Host) (root : Path) (rel : String) : Option (Path × Hit) :=
  let target := joinRelative root rel
  match h.tree.stat h.directory target with
  | .error _ => none
  | .ok (_, .directory) =>
    let index := target.join "index.html"
    if h.tree.isFile h.directory index then some (index, .directory) else none
  | .ok _ => some (target, .file)

/-- The first hit under several roots. -/
def find? (h : Host) (roots : List Path) (rel : String) : Option (Path × Hit) :=
  roots.findSome? fun root => hit? h root rel

/-- The source of a kind that compiles into the output with a stem. -/
def candidate? (h : Host) (roots : List Path) (stem : String) (kind : Kind) : Option Target := do
  let suffix ← kind.suffix?
  match ← find? h roots (stem ++ suffix) with
  | (path, .file) => some ⟨kind, path, .file, false⟩
  | (_, .directory) => none

/-- The source that compiles into a relative path. -/
def derived? (h : Host) (roots : List Path) (rel : String) : Option Target := do
  let output ← Output.ofText? rel
  let stem ← Kind.stem? rel output.extension
  output.candidates.findSome? (candidate? h roots stem)

/-- What a relative path leads to; `slash` tells whether the request ended in a slash. -/
def relative? (h : Host) (roots : List Path) (slash : Bool) (rel : String) : Option Target :=
  match find? h roots rel with
  | some (path, hit) => some ⟨.passthrough, path, hit, hit == .directory && !slash⟩
  | none => derived? h roots rel

/-- What a request path leads to under a mount point. -/
def request? (h : Host) (roots : List Path) (mount path : String) : Option Target :=
  (RequestPath.below? mount path).bind
    (relative? h roots (path.toList.getLast? == some '/'))

end Resolve

end AssetServer
