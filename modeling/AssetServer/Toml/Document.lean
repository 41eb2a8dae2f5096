import AssetServer.Toml.Statement

/-!
# TOML documents

What a row of statements says as a whole. A key may name each thing once; a table may be opened once
by a header and grows by its own entries only. What was merely passed through on the way to
something deeper may still be opened.

- `Entries` are the entries of a table that is being put together.
- `Document.read?` reads a text; none if it breaks a rule of grammar or of these.
-/

namespace AssetServer.Toml

/-- How a table came to be. -/
inductive Origin where
  /-- By a header of its own. -/
  | header
  /-- On the way of a header to a deeper table. -/
  | path
  /-- By the dots in the key of an entry. -/
  | dots
  deriving DecidableEq, Repr

/-- What a key stands for in a document. -/
inductive Node where
  | value (v : Value)
  | table (origin : Origin) (entries : List (String × Node))
  | tables (all : List (List (String × Node)))
  deriving Inhabited

/-- The entries of a table. -/
abbrev Entries := List (String × Node)

namespace Entries

/-- The entries with another node for a key. -/
def replace (key : String) (node : Node) (es : Entries) : Entries :=
  es.map fun (k, n) => if k = key then (k, node) else (k, n)

/-- Adds an entry whose key has one part, or leads through tables that dotted keys have made. -/
def insert? (v : Value) : List String → Entries → Option Entries
  | [], _ => none
  | [key], es => if (es.lookup key).isSome then none else some (es ++ [(key, .value v)])
  | key :: next :: more, es =>
    match es.lookup key with
    | none => do
      let inner ← insert? v (next :: more) []
      return es ++ [(key, .table .dots inner)]
    | some (.table origin inner) =>
      if origin = .header ∨ (more = [] ∧ origin ≠ .dots) then none
      else do
        let inner ← insert? v (next :: more) inner
        return es.replace key (.table origin inner)
    | some (.tables all) =>
      match all.getLast?, more with
      | some last, _ :: _ => do
        let last ← insert? v (next :: more) last
        return es.replace key (.tables (all.dropLast ++ [last]))
      | _, _ => none
    | some (.value _) => none

/-- Changes the table that the parts of a header's key lead to, its last part apart. A list of
    tables stands for its last table. -/
def descend? (change : String → Entries → Option Entries) : List String → Entries → Option Entries
  | [], _ => none
  | [key], es => change key es
  | key :: next :: more, es =>
    match es.lookup key with
    | none => do
      let inner ← descend? change (next :: more) []
      return es ++ [(key, .table .path inner)]
    | some (.table origin inner) => do
      let inner ← descend? change (next :: more) inner
      return es.replace key (.table origin inner)
    | some (.tables all) =>
      match all.getLast? with
      | some last => do
        let last ← descend? change (next :: more) last
        return es.replace key (.tables (all.dropLast ++ [last]))
      | none => none
    | some (.value _) => none

/-- Adds entries in order. -/
def insertAll? (new : List (List String × Value)) (es : Entries) : Option Entries :=
  new.foldlM (fun es (key, v) => insert? v key es) es

/-- Opens a table by its header and fills it. -/
def openTable? (new : List (List String × Value)) (key : String) (es : Entries) :
    Option Entries :=
  let fill (inner : Entries) : Option Entries := do
    let inner ← insertAll? new inner
    return es.filter (fun e => e.1 != key) ++ [(key, .table .header inner)]
  match es.lookup key with
  | none => fill []
  | some (.table .path inner) => fill inner
  | some _ => none

/-- Adds a table to a list of tables and fills it. -/
def addTable? (new : List (List String × Value)) (key : String) (es : Entries) :
    Option Entries := do
  let table ← insertAll? new []
  match es.lookup key with
  | none => return es ++ [(key, .tables [table])]
  | some (.tables all) => return es.replace key (.tables (all ++ [table]))
  | some _ => none

end Entries

mutual

/-- The value of a node. -/
def Node.toValue : Node → Value
  | .value v => v
  | .table _ es => .table (entryValues es)
  | .tables all => .list (tableValues all)

/-- The values of entries. -/
def entryValues : List (String × Node) → List (String × Value)
  | [] => []
  | (k, n) :: rest => (k, n.toValue) :: entryValues rest

/-- The values of tables. -/
def tableValues : List (List (String × Node)) → List Value
  | [] => []
  | es :: rest => .table (entryValues es) :: tableValues rest

end

/-- The inline table with given entries. -/
def inlineTable (es : List (List String × Value)) : Option Value :=
  (Entries.insertAll? es []).map fun es => .table (entryValues es)

namespace Document

/-- The entries at the front of some statements, up to the next header, and the statements from
    there. -/
def ownEntries : List Statement → List (List String × Value) × List Statement
  | .entry key v :: rest =>
    let (es, more) := ownEntries rest
    ((key, v) :: es, more)
  | rest => ([], rest)

/-- Adds the tables that headers open, in at most `fuel` headers. -/
def addSections? : Nat → List Statement → Entries → Option Entries
  | 0, _, _ => none
  | _ + 1, [], es => some es
  | fuel + 1, s :: rest, es => do
    let (own, more) := ownEntries rest
    match s with
    | .entry .. => none
    | .table key => addSections? fuel more (← Entries.descend? (Entries.openTable? own) key es)
    | .tables key => addSections? fuel more (← Entries.descend? (Entries.addTable? own) key es)

/-- What a row of statements says. -/
def ofStatements? (all : List Statement) : Option Value := do
  let (own, more) := ownEntries all
  let es ← addSections? (more.length + 1) more (← Entries.insertAll? own [])
  return .table (entryValues es)

/-- The document that a text writes. A byte order mark in front does not count. -/
def read? (text : String) : Option Value := do
  let cs := match text.toList with
    | c :: rest => if c = '\ufeff' then rest else c :: rest
    | [] => []
  ofStatements? (← statements? inlineTable cs)

end Document

end AssetServer.Toml
