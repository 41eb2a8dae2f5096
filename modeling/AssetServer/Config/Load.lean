import AssetServer.Config.Text
import AssetServer.Host

/-!
# The configuration of a user

A configuration is kept in a file in the home directory. Paths of tools can also be set by
environment variables, which go before the file.
-/

namespace AssetServer

namespace Host

/-- The home directory of the user: the one that the environment names, else that of the account. -/
def home? (h : Host) : Option Path :=
  match h.setting? "HOME" with
  | some path => if path = "" then h.accountHome else some ⟨path⟩
  | none => h.accountHome

end Host

namespace Config

/-- The directory that the configuration is kept in. -/
def directory (h : Host) : Except Failure Path :=
  match h.home? with
  | some home => .ok (home.join ".kiln")
  | none => .error (.config .noHome)

/-- The file that the configuration is kept in. -/
def file (h : Host) : Except Failure Path :=
  (directory h).map (·.join "kiln.toml")

/-- Reads the configuration in a file. -/
def readFrom (path : Path) (h : Host) : Except Failure Config :=
  match h.tree.bytesAt h.directory path with
  | .error e => .error (.file path e)
  | .ok data =>
    match Utf8.decode? data with
    | none => .error (.file path .notText)
    | some text =>
      match ofText text with
      | .ok c => .ok c
      | .error problem => .error (.config (.refused path problem))

/-- The configuration of the user. Without a file it is the standard one. -/
def load (h : Host) : Except Failure Config := do
  let path ← file h
  let c ← if (h.tree.stat h.directory path).isOk then readFrom path h else .ok standard
  return c.override h.setting?

/-- Writes the standard configuration to the file of the user, whatever it held before. -/
def init : Act Path := do
  let dir ← Act.read directory
  Act.ofPair fun h =>
    match h.tree.makeDirectories h.directory dir with
    | (.ok (), tree) => (.ok (), { h with tree })
    | (.error e, tree) => (.error (.file dir e), { h with tree })
  let path := dir.join "kiln.toml"
  Act.ofPair fun h =>
    match h.tree.createFile h.directory h.now path with
    | .error e => (.error (.file path e), h)
    | .ok (loc, tree) =>
      (.ok path, { h with tree := tree.fill h.now loc (Utf8.encode standard.toText) })

end Config

end AssetServer
