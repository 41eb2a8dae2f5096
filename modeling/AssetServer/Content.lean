import AssetServer.Compile
import AssetServer.MediaType
import AssetServer.Resolve

/-!
# Served content

The roots that a server takes its answers from, in order of precedence, and how to compile what it
finds there.

- `Content.serve` answers one request: a file as it is, or a source in its compiled form.
- `Content.sources` are the roots that exports take their files from. Roots that exports have added
  hold outputs, so they are not among them.
-/

namespace AssetServer

/-- The roots of a server and how to compile their sources. -/
structure Content where
  /-- All roots, highest precedence first. -/
  roots : List Path
  /-- The roots that exports have added, oldest first. -/
  exports : List Path
  settings : Settings
  tools : Toolchain
  deriving DecidableEq, Repr, Inhabited

/-- A request for content. -/
structure ContentRequest where
  /-- The path under which the roots are mounted. -/
  mount : String
  path : String
  /-- When the client last saw the content. -/
  since : Option Instant
  deriving DecidableEq, Repr

/-- What has been written of an answer. -/
structure Reply where
  mediaType : Option String
  lastModified : Option Instant
  body : Bytes
  deriving DecidableEq, Repr, Inhabited

/-- How a request was answered. -/
inductive Outcome where
  | served
  | notFound
  /-- A directory was requested without the slash at its end. -/
  | redirect (location : String)
  | notModified
  /-- The time in the request is the last one a clock can hold, so nothing can be said of later. -/
  | outOfTime
  deriving DecidableEq, Repr

namespace Content

/-- Content with given roots, before any export. -/
def ofRoots (roots : List Path) (settings : Settings) (tools : Toolchain) : Content :=
  ⟨roots, [], settings, tools⟩

/-- The compiler for sources. -/
def compiler (c : Content) : Compiler :=
  ⟨c.tools, c.settings⟩

/-- The roots that are not exports. -/
def sources (c : Content) : List Path :=
  c.roots.filter fun r => !c.exports.any r.alike

/-- The media type of a file that is served as it is. -/
def mediaTypeOf (path : Path) : Hit → String
  | .directory => MediaType.html
  | .file => MediaType.ofPath path

/-- Answers with a file as it is. -/
def serveFile (h : Host) (target : Target) (since : Option Instant) :
    Except Failure Outcome × Reply :=
  match h.tree.openFile h.directory target.path with
  | .error e => (.error (.file target.path e), default)
  | .ok opened =>
    let modified := match opened with
      | .file f => f.modified
      | .directory => h.now
    match since.map (Instant.modifiedSince? modified) with
    | some none => (.ok .outOfTime, default)
    | some (some false) => (.ok .notModified, default)
    | _ =>
      let reply : Reply := ⟨some (mediaTypeOf target.path target.hit), some modified, []⟩
      match opened.read with
      | .ok data => (.ok .served, { reply with body := data })
      | .error e => (.error (.file target.path e), reply)

/-- Answers a request. The reply holds what was written, also when the answer fails. -/
def serve (c : Content) (r : ContentRequest) (h : Host) :
    Except Failure Outcome × Reply × Host :=
  match Resolve.request? h c.roots r.mount r.path with
  | none => (.ok .notFound, default, h)
  | some target =>
    if target.redirect then (.ok (.redirect (r.path ++ "/")), default, h)
    else match target.kind.output? with
      | none =>
        let (outcome, reply) := serveFile h target r.since
        (outcome, reply, h)
      | some output =>
        let (result, body, h) := (c.compiler.compile target.kind target.path).collect h
        (result.map fun _ => .served, ⟨some output.mediaType, none, body⟩, h)

end Content

end AssetServer
