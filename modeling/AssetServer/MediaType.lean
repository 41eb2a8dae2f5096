import AssetServer.Path
import AssetServer.Text.Blank

/-!
# Media types

The media type of a file by the extension of its name, in letters of any case.
-/

namespace AssetServer.MediaType

/-- The media type of files of unknown content. -/
def unknown : String := "application/octet-stream"

/-- The media type of an index page. -/
def html : String := "text/html; charset=utf-8"

/-- The media type of short messages. -/
def plainText : String := "text/plain; charset=utf-8"

/-- Extensions and their media types. -/
def table : List (String × String) :=
  [("otf", "application/font-sfnt"), ("woff", "application/font-woff"),
   ("gz", "application/gzip"), ("mjs", "application/javascript"),
   ("json", "application/json"), ("pdf", "application/pdf"), ("wasm", "application/wasm"),
   ("zip", "application/zip"), ("mp3", "audio/mpeg"), ("wav", "audio/wav"),
   ("ttf", "font/ttf"), ("woff2", "font/woff2"), ("gif", "image/gif"), ("jpg", "image/jpeg"),
   ("jpeg", "image/jpeg"), ("png", "image/png"), ("svg", "image/svg+xml"),
   ("webp", "image/webp"), ("ico", "image/x-icon"), ("css", "text/css"), ("csv", "text/csv"),
   ("htm", "text/html"), ("html", "text/html"), ("js", "text/javascript"),
   ("jsx", "text/javascript"), ("md", "text/markdown"), ("map", "text/plain"),
   ("txt", "text/plain"), ("rs", "text/x-rust"), ("scss", "text/x-scss"),
   ("toml", "text/x-toml"), ("yaml", "text/x-yaml"), ("yml", "text/x-yaml"), ("xml", "text/xml"),
   ("mp4", "video/mp4"), ("ts", "video/vnd.dlna.mpeg-tts"), ("webm", "video/webm")]

/-- The part of a file name after its last dot. A dot in front does not begin an extension. -/
def extension? (name : String) : Option String :=
  let cs := name.toList
  let ending := cs.reverse.takeWhile (· != '.')
  if ending.length + 1 < cs.length then some (String.ofList ending.reverse) else none

/-- The media type of the file at a path. -/
def ofPath (p : Path) : String :=
  match p.fileName.bind extension? with
  | some e => (table.lookup (Text.lowerAscii e)).getD unknown
  | none => unknown

end AssetServer.MediaType
