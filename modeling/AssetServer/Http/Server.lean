import AssetServer.Config.Basic
import AssetServer.Export
import AssetServer.Http.Compression
import AssetServer.Http.Percent
import AssetServer.Http.Route
import AssetServer.Http.Target
import AssetServer.HttpDate

/-!
# The server

Answers requests from content. Requests for content are `GET` and `HEAD`, which are answered alike;
a `POST` to the rebuild route runs an export again.

- `Options.ofConfig` takes what the configuration says about responses.
- `Server.respond` answers one request. Configured headers replace those of the answer, and the
  answer is marked for compression last.
-/

namespace AssetServer.Http

/-- How to answer requests. -/
structure Options where
  /-- The path under which the content is mounted. -/
  mount : String
  /-- Headers of every response. -/
  headers : Headers
  notFoundPage : Option Path
  gzip : Bool
  rebuildPath : String
  deriving DecidableEq, Repr

/-- What the configuration says about responses. The first header that cannot be sent is a fault. -/
def Options.ofConfig (c : Config.Server) : Except HeaderFault Options := do
  let headers ← c.headers.mapM fun (name, value) => checkHeader name value
  return {
    mount := c.mount
    headers
    notFoundPage := c.notFoundPage.map Path.mk
    gzip := c.gzip
    rebuildPath := c.rebuildPath }

/-- An export that can be run again. -/
structure Rebuild where
  route : Route
  dest : Path
  deriving DecidableEq, Repr

/-- A server. -/
structure Server where
  content : Content
  options : Options
  rebuild : Option Rebuild
  deriving DecidableEq, Repr

namespace Server

/-- The server for some content, and for running an export again if `exported` names its
    destination; none if the path for that is no route. -/
def ofContent? (content : Content) (options : Options) (exported : Option Path) : Option Server :=
  match exported with
  | none => some ⟨content, options, none⟩
  | some dest =>
    (Route.ofText? options.rebuildPath).map fun route => ⟨content, options, some ⟨route, dest⟩⟩

/-! ## §1 Content -/

/-- The response for content that does not exist: the configured page, if it can be read. -/
def notFound (s : Server) (h : Host) : Response :=
  let plain := Response.message 404 "404 page not found\n"
  match s.options.notFoundPage with
  | none => plain
  | some page =>
    match h.tree.bytesAt h.directory page with
    | .ok body => ⟨404, [("content-type", MediaType.html)], body⟩
    | .error _ => plain

/-- The response with content; none if it was last modified at a time without a date. -/
def served? (reply : Reply) : Option Response :=
  let type : Headers := reply.mediaType.toList.map fun t => ("content-type", t)
  match reply.lastModified with
  | none => some ⟨200, type, reply.body⟩
  | some t =>
    (HttpDate.format? t).map fun date => ⟨200, type ++ [("last-modified", date)], reply.body⟩

/-- The response to what became of a request for content. -/
def ofOutcome? (s : Server) (h : Host) (reply : Reply) :
    Except Failure Outcome → Option Response
  | .ok .served => served? reply
  | .ok .notFound => some (s.notFound h)
  | .ok .notModified => some (.empty 304)
  | .ok (.redirect location) => some ((Response.empty 301).setHeader "location"
      (Percent.encode location))
  | .ok .outOfTime => some (.empty 500)
  | .error _ => some (.message 500 "internal server error\n")

/-- When the client last saw what it asks for. -/
def since? (r : Request) : Option Instant :=
  ((r.headers.get? "if-modified-since").bind visible?).bind HttpDate.parse?

/-- Answers a request for content. -/
def respondContent? (s : Server) (r : Request) (h : Host) : Option (Response × Host) :=
  if r.method ≠ "GET" ∧ r.method ≠ "HEAD" then some (.empty 405, h)
  else match Utf8.decode? (Percent.decode (Utf8.encode r.path)) with
    | none => some (.message 400 "request path is not UTF-8\n", h)
    | some path =>
      let (result, reply, h) := s.content.serve ⟨s.options.mount, path, since? r⟩ h
      (s.ofOutcome? h reply result).map fun response => (response, h)

/-! ## §2 Rebuilding -/

/-- Runs the export again and tells what came of it. -/
def runRebuild (s : Server) (rebuild : Rebuild) (h : Host) : Response × Server × Host :=
  let (result, _, content, after) := s.content.exportTo rebuild.dest h
  let response := match result with
    | .ok report => Response.message 200 ("compiled " ++ toString report.compiled ++ " copied " ++
        toString report.copied ++ " skipped " ++ toString report.skipped ++ " in " ++
        Instant.elapsed h.now after.now ++ "s\n")
    | .error e => .message 500 ("rebuild failed: " ++ e.message ++ "\n")
  (response, { s with content }, after)

/-! ## §3 Requests -/

/-- What every response goes through: configured headers, then compression. -/
def finish (s : Server) (r : Request) (response : Response) : Response :=
  let response := s.options.headers.foldl (fun x (name, value) => x.setHeader name value) response
  if s.options.gzip then Compression.apply (r.headers.values "accept-encoding") response
  else response

/-- Names the method of the rebuild route in a refusal, unless a configured header does. -/
def allowPost (response : Response) : Response :=
  if response.headers.has "allow" then response else response.setHeader "allow" "POST"

/-- Answers a request; none if the answer cannot be written. -/
def respond? (s : Server) (r : Request) (h : Host) : Option (Response × Server × Host) :=
  match s.rebuild.filter fun rebuild => rebuild.route.accepts r.path with
  | some rebuild =>
    if r.method = "POST" then
      let (response, server, after) := s.runRebuild rebuild h
      some (s.finish r response, server, after)
    else some (allowPost (s.finish r (.empty 405)), s, h)
  | none =>
    (s.respondContent? r h).map fun (response, after) => (s.finish r response, s, after)

end Server

end AssetServer.Http
