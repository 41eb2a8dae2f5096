import AssetServer.CommandLine.Run
import AssetServer.Proofs.Amid
import AssetServer.Proofs.Documents
import AssetServer.Proofs.Mirror
import AssetServer.Proofs.Utf8

/-!
# Configurations are kept

What is written for a configuration is read as this configuration.

- `Config.Ordered` is what every configuration has that is read: each header once, in the order of
  the names.
- `Config.ofText_toText`: the text of a configuration is read back.
- `Config.load_settled`: the configuration that holds has its headers in order, and the environment
  adds nothing to it.
- `Config.shown_holds`: the same for files, for the file that is written first, and for what is
  shown.
-/

namespace AssetServer.Config

open Toml (Value Section Entries)

variable {c : Config}

/-! ## §1 Headers in order -/

/-- Whether the headers are as a map has them: each name once, in the order of the names. -/
def Ordered (c : Config) : Prop :=
  c.server.headers.Pairwise fun a b => a.1 < b.1

namespace Server

variable {key value : String} {hs : List (String × String)}

/-- A header with the greatest name goes to the end. -/
theorem insertHeader_last (h : ∀ e ∈ hs, e.1 < key) :
    insertHeader key value hs = hs ++ [(key, value)] := by
  induction hs with
  | nil => rfl
  | cons e hs ih =>
    have hlt : e.1 < key := h e List.mem_cons_self
    rw [insertHeader, if_neg hlt.asymm, if_neg hlt.ne',
      ih fun d hd => h d (List.mem_cons_of_mem _ hd)]
    rfl

/-- Headers in order are sorted already. -/
theorem sortHeaders_ordered (h : hs.Pairwise fun a b => a.1 < b.1) : sortHeaders hs = hs := by
  have hfold : ∀ done, (done ++ hs).Pairwise (fun a b : String × String => a.1 < b.1) →
      hs.foldl (fun sorted e => insertHeader e.1 e.2 sorted) done = done ++ hs := by
    clear h
    induction hs with
    | nil => simp
    | cons e hs ih =>
      intro done hall
      have hlast : ∀ d ∈ done, d.1 < e.1 := fun d hd =>
        (List.pairwise_append.mp hall).2.2 d hd e List.mem_cons_self
      rw [List.foldl_cons, insertHeader_last hlast, ih _ (by simpa using hall)]
      simp
  exact hfold [] h

theorem mem_insertHeader {e : String × String} (h : e ∈ insertHeader key value hs) :
    e.1 = key ∨ e ∈ hs := by
  induction hs with
  | nil =>
    rw [insertHeader, List.mem_singleton] at h
    exact .inl (by rw [h])
  | cons d hs ih =>
    rw [insertHeader] at h
    split_ifs at h
    · rcases List.mem_cons.mp h with rfl | h
      · exact .inl rfl
      · exact .inr h
    · rcases List.mem_cons.mp h with rfl | h
      · exact .inl rfl
      · exact .inr (List.mem_cons_of_mem _ h)
    · rcases List.mem_cons.mp h with rfl | h
      · exact .inr List.mem_cons_self
      · exact (ih h).imp_right (List.mem_cons_of_mem _)

/-- Putting a header in keeps headers in order. -/
theorem insertHeader_ordered (h : hs.Pairwise fun a b => a.1 < b.1) :
    (insertHeader key value hs).Pairwise fun a b => a.1 < b.1 := by
  fun_induction insertHeader key value hs with
  | case1 => exact List.pairwise_singleton _ _
  | case2 k v rest hlt =>
    refine List.pairwise_cons.mpr ⟨fun e he => ?_, h⟩
    rcases List.mem_cons.mp he with rfl | he
    · exact hlt
    · exact hlt.trans ((List.pairwise_cons.mp h).1 e he)
  | case3 v rest hlt =>
    obtain ⟨hfirst, hrest⟩ := List.pairwise_cons.mp h
    exact List.pairwise_cons.mpr ⟨hfirst, hrest⟩
  | case4 k v rest hlt hne ih =>
    obtain ⟨hfirst, hrest⟩ := List.pairwise_cons.mp h
    -- what is behind the first header is the new one or has been there before
    refine List.pairwise_cons.mpr ⟨fun e he => ?_, ih hrest⟩
    rcases mem_insertHeader he with heq | he
    · rw [heq]
      exact lt_of_le_of_ne (not_lt.mp hlt) (Ne.symm hne)
    · exact hfirst e he

/-- Sorted headers are in order. -/
theorem ordered_sortHeaders (hs : List (String × String)) :
    (sortHeaders hs).Pairwise fun a b => a.1 < b.1 := by
  have hfold : ∀ done : List (String × String), (done.Pairwise fun a b => a.1 < b.1) →
      (hs.foldl (fun sorted e => insertHeader e.1 e.2 sorted) done).Pairwise
        fun a b => a.1 < b.1 := by
    induction hs with
    | nil => exact fun _ h => h
    | cons e hs ih => exact fun done h => ih _ (insertHeader_ordered h)
  exact hfold [] .nil

end Server

/-! ## §2 Reading back -/

section Values

@[simp] theorem ok_bind {α β : Type} (a : α) (read : α → Reading β) :
    ((.ok a : Reading α) >>= read) = read a := rfl

theorem expect_asText (text : String) : expect Value.asText (.string text) = .ok text := rfl

theorem expect_asFlag (b : Bool) : expect Value.asFlag (.boolean b) = .ok b := rfl

theorem expect_asTexts (texts : List String) :
    expect Value.asTexts (.list (texts.map .string)) = .ok texts := by
  have hall : (texts.map Value.string).mapM Value.asText = Except.ok texts := by
    induction texts with
    | nil => rfl
    | cons text texts ih =>
      rw [List.map_cons, List.mapM_cons, ih]
      rfl
  rw [expect, Value.asTexts, hall]

theorem expect_asTextTable (entries : List (String × String)) :
    expect Value.asTextTable (.table (entries.map fun e => (e.1, .string e.2))) = .ok entries := by
  have hall : (entries.map fun e => (e.1, Value.string e.2)).mapM
      (fun e => e.2.asText.map (e.1, ·)) = Except.ok entries := by
    induction entries with
    | nil => rfl
    | cons e entries ih =>
      rw [List.map_cons, List.mapM_cons, ih]
      rfl
  have htable : Value.asTextTable (.table (entries.map fun e => (e.1, .string e.2))) =
      .ok entries := hall
  rw [expect, htable]

end Values

theorem levelOfValue_lowerName (level : Level) :
    levelOfValue (.string level.lowerName) = .ok level := by
  have hnamed : Level.ofText? level.lowerName = some level := by
    cases level <;> decide
  rw [levelOfValue, expect_asText, ok_bind, hnamed]
  rfl

/-- A tool is read back from its section. -/
theorem ToolEntry.ofValue_section (role : Role) (t : ToolEntry) :
    ofValue (.table (t.toSection role).values) = .ok t := by
  obtain ⟨path, arguments⟩ := t
  cases arguments with
  | nil => rfl
  | cons argument arguments =>
    have hvalues : ((⟨path, argument :: arguments⟩ : ToolEntry).toSection role).values =
        [("path", .string path), ("args", .list ((argument :: arguments).map .string))] := by
      simp [toSection, Section.values, Toml.Item.toValue]
    rw [hvalues, ofValue, Value.asRecord]
    simp only [List.foldlM_cons, List.foldlM_nil, member, expect_asText, expect_asTexts]
    rfl

/-- The tools are read back from the tables of their sections. -/
theorem Tools.ofValue_sections (tools : Tools) :
    ofValue (.table (Role.all.map fun role =>
      (role.key, .table ((tools.get role).toSection role).values))) = .ok tools := by
  have hmember : ∀ role read, member role.key
      (.table ((tools.get role).toSection role).values) read =
        .ok (read.set role (tools.get role)) := by
    intro role read
    have hfind : Role.all.find? (·.key = role.key) = some role := by
      cases role <;> decide
    rw [member, hfind]
    simp only [ToolEntry.ofValue_section, ok_bind]
    rfl
  rw [ofValue, Value.asRecord]
  simp only [Role.all, List.map_cons, List.map_nil, List.foldlM_cons, List.foldlM_nil, hmember,
    ok_bind]
  rfl

/-- How to compile is read back. -/
theorem Build.ofValue_section (b : Build) : ofValue (.table b.toSection.values) = .ok b := by
  have hvalues : b.toSection.values = [("level", .string b.level.lowerName),
      ("component_includes", .list (b.componentIncludes.map .string)),
      ("preprocessor_includes", .list (b.preprocessorIncludes.map .string)),
      ("stylesheet_includes", .list (b.stylesheetIncludes.map .string)),
      ("externs", .list (b.externs.map .string)),
      ("preprocessor_flags", .list (b.preprocessorFlags.map .string))] := rfl
  rw [hvalues, ofValue, Value.asRecord]
  simp only [List.foldlM_cons, List.foldlM_nil, member, expect_asTexts, levelOfValue_lowerName,
    ok_bind, pure_bind]
  rfl

/-- How to serve is read back, with the headers. -/
theorem Server.ofValue_sections (s : Server) (h : s.headers.Pairwise fun a b => a.1 < b.1) :
    ofValue (.table (s.toSection.values ++ [("headers", .table s.headerSection.values)])) =
      .ok s := by
  obtain ⟨address, mount, roots, headers, page, gzip, rebuildPath⟩ := s
  have hheaders : (⟨address, mount, roots, headers, page, gzip, rebuildPath⟩ :
      Server).headerSection.values = headers.map fun e => (e.1, .string e.2) := by
    simp [headerSection, Section.values, Toml.Item.toValue]
  rw [hheaders]
  have hsorted : sortHeaders headers = headers := sortHeaders_ordered h
  rw [ofValue, Value.asRecord]
  cases page
  all_goals
    simp only [Section.values, toSection, Toml.Item.toValue, List.map_cons, List.map_nil,
      Option.map_none, Option.map_some, Option.toList_none, Option.toList_some, List.append_nil,
      List.cons_append, List.nil_append, List.foldlM_cons, List.foldlM_nil, member, expect_asText,
      expect_asTexts, expect_asTextTable, expect_asFlag, ok_bind, pure_bind, hsorted]
    rfl

/-! ## §3 The text of a configuration -/

theorem Server.toSection_nodup (s : Server) : (s.toSection.entries.map Prod.fst).Nodup := by
  unfold toSection
  cases s.notFoundPage <;> simp

theorem Server.headerSection_nodup {s : Server} (h : s.headers.Pairwise fun a b => a.1 < b.1) :
    (s.headerSection.entries.map Prod.fst).Nodup := by
  have hkeys : s.headerSection.entries.map Prod.fst = s.headers.map Prod.fst := by
    simp [headerSection]
  rw [hkeys]
  exact List.pairwise_map.mpr (h.imp fun hlt => hlt.ne)

/-- The headers have a section of their own. -/
theorem Server.lookup_headers (s : Server) :
    (Entries.ofValues s.toSection.values).lookup "headers" = none := by
  obtain ⟨address, mount, roots, headers, page, gzip, rebuildPath⟩ := s
  cases page <;> rfl

/-- The tables of some tools. -/
def toolNodes (tools : Tools) (roles : List Role) : Entries :=
  roles.map fun role =>
    (role.key, ((tools.get role).toSection role).node)

theorem ToolEntry.toSection_nodup (role : Role) (t : ToolEntry) :
    ((t.toSection role).entries.map Prod.fst).Nodup := by
  unfold toSection
  split <;> simp

theorem key_injective {role other : Role} (h : role.key = other.key) : role = other := by
  cases role <;> cases other <;> first | rfl | exact absurd h (by decide)

/-- The sections of tools open the tables of these tools, one after the other. -/
theorem open?_tools (tools : Tools) {done roles : List Role} (hnodup : (done ++ roles).Nodup) :
    (roles.map fun role => (tools.get role).toSection role).foldlM Section.open?
        [("tools", .table .path (toolNodes tools done))] =
      some [("tools", .table .path (toolNodes tools (done ++ roles)))] := by
  induction roles generalizing done with
  | nil => simp
  | cons role roles ih =>
    -- each role has a key of its own, so its table is new
    have hnew : (toolNodes tools done).lookup role.key = none := by
      rw [List.lookup_eq_none_iff]
      rintro node hnode
      obtain ⟨other, hother, rfl⟩ := List.mem_map.mp hnode
      rw [bne_iff_ne]
      intro heq
      exact (List.nodup_append.mp hnodup).2.2 other hother role List.mem_cons_self
        (key_injective heq.symm)
    have hmore : (roles.map fun role => (tools.get role).toSection role).foldlM Section.open?
        [("tools", .table .path (toolNodes tools (done ++ [role])))] = _ :=
      ih (by simpa using hnodup)
    rw [List.map_cons, List.foldlM_cons,
      Section.open?_into rfl (ToolEntry.toSection_nodup role _) List.lookup_cons_self hnew]
    rw [List.append_assoc] at hmore
    refine Eq.trans ?_ hmore
    simp [Entries.replace, toolNodes]

theorem entryValues_toolNodes (tools : Tools) (roles : List Role) :
    Toml.entryValues (toolNodes tools roles) =
      roles.map fun role => (role.key, .table ((tools.get role).toSection role).values) := by
  induction roles with
  | nil => rfl
  | cons role roles ih =>
    rw [toolNodes, List.map_cons, Toml.entryValues, Section.toValue_node]
    exact congrArg (_ :: ·) ih

/-- What a configuration says, as a document. -/
def toValue (c : Config) : Value :=
  .table [
    ("tools", .table (Role.all.map fun role =>
      (role.key, .table ((c.tools.get role).toSection role).values))),
    ("build", .table c.build.toSection.values),
    ("server", .table (c.server.toSection.values ++
      [("headers", .table c.server.headerSection.values)]))]

/-- The sections of a configuration open its tables. -/
theorem open?_sections (h : c.Ordered) :
    (c.sections.foldlM Section.open? []).map (fun es => .table (Toml.entryValues es)) =
      some c.toValue := by
  have htools : (Role.all.map fun role => (c.tools.get role).toSection role).foldlM
      Section.open? [] = some [("tools", .table .path (toolNodes c.tools Role.all))] := by
    have hfirst : Section.open? [] ((c.tools.get .component).toSection .component) =
        some [("tools", .table .path (toolNodes c.tools [.component]))] :=
      Section.open?_through rfl (ToolEntry.toSection_nodup _ _) rfl
    rw [Role.all, List.map_cons, List.foldlM_cons, hfirst]
    exact open?_tools c.tools (by decide)
  -- each later section is a new table at the top, but for the headers, which go into one
  have hbuild : Section.open? [("tools", .table .path (toolNodes c.tools Role.all))]
      c.build.toSection = some [("tools", .table .path (toolNodes c.tools Role.all)),
        ("build", c.build.toSection.node)] :=
    Section.open?_one rfl (by simp [Build.toSection]) rfl
  have hserver : Section.open? [("tools", .table .path (toolNodes c.tools Role.all)),
      ("build", c.build.toSection.node)] c.server.toSection =
        some [("tools", .table .path (toolNodes c.tools Role.all)),
          ("build", c.build.toSection.node), ("server", c.server.toSection.node)] :=
    Section.open?_one rfl c.server.toSection_nodup rfl
  have hheaders : Section.open? [("tools", .table .path (toolNodes c.tools Role.all)),
      ("build", c.build.toSection.node), ("server", c.server.toSection.node)]
        c.server.headerSection = some [("tools", .table .path (toolNodes c.tools Role.all)),
          ("build", c.build.toSection.node), ("server", .table .header
            (Entries.ofValues c.server.toSection.values ++
              [("headers", c.server.headerSection.node)]))] :=
    (Section.open?_into rfl (Server.headerSection_nodup h) rfl c.server.lookup_headers).trans
      (by simp [Entries.replace])
  rw [sections, List.foldlM_append, htools]
  simp only [List.foldlM_cons, List.foldlM_nil, Option.bind_eq_bind, Option.bind_some, hbuild,
    hserver, hheaders]
  simp [Toml.entryValues, Toml.Node.toValue, Toml.entryValues_append, Section.toValue_node,
    Entries.entryValues_ofValues, entryValues_toolNodes, toValue]

theorem ofValue_toValue (h : c.Ordered) : ofValue c.toValue = .ok c := by
  rw [toValue, ofValue, Value.asRecord]
  simp only [List.foldlM_cons, List.foldlM_nil, member, Tools.ofValue_sections,
    Build.ofValue_section, Server.ofValue_sections _ h, ok_bind, pure_bind]
  rfl

/-- The text of a configuration is read back, also with a line end behind it. -/
theorem ofText_toText (h : c.Ordered) {tail : String} (htail : tail = "" ∨ tail = "\n") :
    ofText (c.toText ++ tail) = .ok c := by
  have hnames : ∀ s ∈ c.sections, s.name ≠ [] ∧ s.name.length ≤ Toml.maxDepth := by
    intro s hs
    rw [sections, List.mem_append, List.mem_map] at hs
    rcases hs with ⟨role, -, rfl⟩ | hs
    · simp [ToolEntry.toSection, Toml.maxDepth]
    · simp only [List.mem_cons, List.not_mem_nil, or_false] at hs
      rcases hs with rfl | rfl | rfl
      all_goals simp [Build.toSection, Server.toSection, Server.headerSection, Toml.maxDepth]
  have hread : Toml.Document.read? (c.toText ++ tail) = some c.toValue :=
    (Toml.Document.read?_writeAll hnames htail).trans (open?_sections h)
  rw [ofText, hread]
  exact ofValue_toValue h

/-! ## §4 The configuration that holds -/

theorem bind_ok {α β : Type} {act : Reading α} {read : α → Reading β} {b : β}
    (h : act >>= read = .ok b) : ∃ a, act = .ok a ∧ read a = .ok b := by
  cases act with
  | ok a => exact ⟨a, rfl, h⟩
  | error e => cases h

/-- What is true at the start and stays true with each field is true of the record. -/
theorem asRecord_preserves {σ : Type} {P : σ → Prop} {label : String} {fields : List String}
    {read : String → Value → σ → Reading σ} {start s : σ} {v : Value} (hstart : P start)
    (hread : ∀ key v s s', read key v s = .ok s' → P s → P s')
    (h : v.asRecord .mismatch label fields read start = .ok s) : P s := by
  have hfold : ∀ (entries : List (String × Value)) start, P start →
      entries.foldlM (fun s e => read e.1 e.2 s) start = .ok s → P s := by
    intro entries
    induction entries with
    | nil =>
      rintro start hstart ⟨⟩
      exact hstart
    | cons e entries ih =>
      intro start hstart hrun
      rw [List.foldlM_cons] at hrun
      obtain ⟨next, hnext, hrest⟩ := bind_ok hrun
      exact ih next (hread _ _ _ _ hnext hstart) hrest
  -- a record is a table, or what a single field is read from
  unfold Value.asRecord at h
  split at h
  · exact hfold _ _ hstart h
  · exact hfold _ _ hstart h
  · exact hread _ _ _ _ h hstart
  · cases h

theorem standard_ordered : standard.Ordered :=
  List.Pairwise.nil

/-- Headers that are read are in order. -/
theorem Server.ofValue_ordered {v : Value} {s : Server} (h : ofValue v = .ok s) :
    s.headers.Pairwise fun a b => a.1 < b.1 := by
  refine asRecord_preserves (P := fun s : Server => s.headers.Pairwise fun a b => a.1 < b.1)
    List.Pairwise.nil (fun key v s s' hread hs => ?_) h
  unfold member at hread
  split at hread
  -- the headers are put in order as they are read; a field that is not known is passed over
  case h_4 =>
    obtain ⟨headers, -, hset⟩ := bind_ok hread
    cases hset
    exact ordered_sortHeaders headers
  case h_8 =>
    cases hread
    exact hs
  all_goals
    obtain ⟨_, -, hset⟩ := bind_ok hread
    cases hset
    exact hs

/-- A configuration that is read has its headers in order. -/
theorem ofText_ordered {text : String} (h : ofText text = .ok c) : c.Ordered := by
  unfold ofText at h
  split at h
  · refine asRecord_preserves (P := Ordered) standard_ordered (fun key v c c' hread hc => ?_) h
    unfold member at hread
    split at hread
    -- only the table of the server has headers; a table that is not known is passed over
    case h_3 =>
      obtain ⟨server, hserver, hset⟩ := bind_ok hread
      cases hset
      exact Server.ofValue_ordered hserver
    case h_4 =>
      cases hread
      exact hc
    all_goals
      obtain ⟨_, -, hset⟩ := bind_ok hread
      cases hset
      exact hc
  · cases h

/-- The tool for a role, with the path that `lookup` has for it. -/
def ToolEntry.overridden (lookup : String → Option String) (role : Role) (t : ToolEntry) :
    ToolEntry :=
  match lookup (overrideName role) with
  | some path => if path = "" then t else { t with path }
  | none => t

theorem get_override (c : Config) (lookup : String → Option String) (role : Role) :
    (c.override lookup).tools.get role = (c.tools.get role).overridden lookup role := by
  -- each role is looked up by itself, and changes the path of its own tool only
  have hstep : ∀ (tools : Tools) (role : Role), (match lookup (overrideName role) with
      | some path => if path = "" then tools else tools.set role { tools.get role with path }
      | none => tools) = tools.set role ((tools.get role).overridden lookup role) := by
    intro tools role
    have hself : tools.set role (tools.get role) = tools := by cases role <;> rfl
    unfold ToolEntry.overridden
    split
    · split
      · exact hself.symm
      · rfl
    · exact hself.symm
  have htools : (c.override lookup).tools = Role.all.foldl (fun tools role =>
      tools.set role ((tools.get role).overridden lookup role)) c.tools :=
    congrArg (fun step => Role.all.foldl step c.tools)
      (funext fun tools => funext fun role => hstep tools role)
  rw [htools]
  cases role <;> rfl

theorem Tools.ext_get {tools other : Tools} (h : ∀ role, tools.get role = other.get role) :
    tools = other := by
  obtain ⟨_, _, _, _, _⟩ := tools
  obtain ⟨_, _, _, _, _⟩ := other
  simpa using ⟨h .component, h .typescript, h .stylesheet, h .preprocessor, h .optimizer⟩

/-- Overriding twice is overriding once. -/
theorem override_override (c : Config) (lookup : String → Option String) :
    (c.override lookup).override lookup = c.override lookup := by
  have htools : ((c.override lookup).override lookup).tools = (c.override lookup).tools := by
    refine Tools.ext_get fun role => ?_
    rw [get_override, get_override]
    unfold ToolEntry.overridden
    cases lookup (overrideName role) with
    | none => rfl
    | some path =>
      by_cases hempty : path = ""
      · simp [hempty]
      · simp [hempty]
  exact congrArg (fun tools => { c with tools }) htools

/-! ## §5 Files -/

variable {h k : Host} {path : Path} {tail : String}

/-- A file with the text of a configuration is read as this configuration. -/
theorem readFrom_text (hc : c.Ordered) (htail : tail = "" ∨ tail = "\n")
    (hbytes : h.tree.bytesAt h.directory path = .ok (Utf8.encode (c.toText ++ tail))) :
    readFrom path h = .ok c := by
  unfold readFrom
  simp only [hbytes, Utf8.decode?_encode, ofText_toText hc htail]

theorem readFrom_ordered (hread : readFrom path h = .ok c) : c.Ordered := by
  unfold readFrom at hread
  split at hread
  · cases hread
  · split at hread
    · cases hread
    · split at hread
      · rename_i htext
        cases hread
        exact ofText_ordered htext
      · cases hread

theorem load_eq (hfile : file h = .ok path) : load h =
    (if (h.tree.stat h.directory path).isOk then readFrom path h else .ok standard).map
      (·.override h.setting?) := by
  unfold load
  rw [hfile]
  change (if (h.tree.stat h.directory path).isOk then _ else _) = _
  split
  · cases readFrom path h <;> rfl
  · rfl

/-- With the text of a configuration in the file of the user, it holds up to the environment. -/
theorem load_text (hc : c.Ordered) (htail : tail = "" ∨ tail = "\n") (hfile : file h = .ok path)
    (hbytes : h.tree.bytesAt h.directory path = .ok (Utf8.encode (c.toText ++ tail))) :
    load h = .ok (c.override h.setting?) := by
  have hstat : (h.tree.stat h.directory path).isOk = true := by
    obtain ⟨loc, f, hfound, -⟩ := Tree.stat_of_bytesAt hbytes
    rw [hfound]
    rfl
  rw [load_eq hfile, if_pos hstat, readFrom_text hc htail hbytes]
  rfl

/-- A configuration that holds has its headers in order, and the environment adds nothing to it. -/
theorem load_settled (hload : load h = .ok c) : c.Ordered ∧ c.override h.setting? = c := by
  -- the environment is taken over last, and taking it over twice changes nothing
  have hread : ∃ c₀ : Config, c₀.Ordered ∧ c₀.override h.setting? = c := by
    cases hfile : file h with
    | error e =>
      unfold load at hload
      rw [hfile] at hload
      cases hload
    | ok path =>
      rw [load_eq hfile] at hload
      split at hload
      · cases hfrom : readFrom path h with
        | error e =>
          rw [hfrom] at hload
          cases hload
        | ok c₀ =>
          rw [hfrom] at hload
          exact ⟨c₀, readFrom_ordered hfrom, Except.ok.inj hload⟩
      · exact ⟨standard, standard_ordered, Except.ok.inj hload⟩
  obtain ⟨c₀, hordered, rfl⟩ := hread
  exact ⟨hordered, override_override c₀ h.setting?⟩

/-- The file that is written first holds the text of the standard configuration. -/
theorem init_writes (hwf : h.tree.WellFormed) (hcwd : h.tree.get? h.directory = some .directory)
    (hrun : runFrom init h = (.ok path, k)) :
    file k = .ok path ∧ k.tree.bytesAt k.directory path = .ok (Utf8.encode standard.toText) := by
  unfold init at hrun
  obtain ⟨dir, h₁, hdir, hrun⟩ := runFrom_bind_ok.mp hrun
  rw [runFrom_read] at hdir
  obtain ⟨⟨⟩, h₂, hmade, hrun⟩ := runFrom_bind_ok.mp hrun
  rw [runFrom_ofPair] at hmade hrun
  rw [Prod.mk.injEq] at hdir
  obtain ⟨hdir, rfl⟩ := hdir
  -- directories are made first, and the file is written in what they leave
  have hgrown := Tree.makeDirectories_grown dir hwf hcwd
  rcases hdirs : h.tree.makeDirectories h.directory dir with ⟨result, t⟩
  rw [hdirs] at hmade hgrown
  cases result with
  | error e => cases hmade
  | ok u =>
    cases hmade
    simp only at hrun
    split at hrun
    · cases hrun
    · rename_i loc t' hcreate
      cases hrun
      have hcwd' : t.get? h.directory = some .directory := hgrown.partOf _ _ hcwd
      refine ⟨?_, Tree.bytesAt_written hgrown.wellFormed hcwd' hcreate _⟩
      show (directory h).map (·.join "kiln.toml") = _
      rw [hdir]
      rfl

/-- What is shown is the text of the configuration that holds. -/
theorem run_showConfig {line : CommandLine} (htask : line.task = .showConfig)
    (hload : load h = .ok c) :
    CommandLine.run line h = (.ok .done, ⟨h, c.toText ++ "\n"⟩) := by
  have hread : StateT.run (ExceptT.run (CommandLine.Work.ofAct (Act.read load))) ⟨h, ""⟩ =
      (.ok c, (⟨h, ""⟩ : CommandLine.Console)) := by
    show ((load h).mapError _, (⟨h, ""⟩ : CommandLine.Console)) = _
    rw [hload]
    rfl
  rw [CommandLine.run, htask]
  show StateT.run (ExceptT.run CommandLine.showConfig) _ = _
  unfold CommandLine.showConfig CommandLine.loadConfig
  simp only [ExceptT.run_bind, StateT.run_bind, hread]
  show (Except.ok CommandLine.Ending.done, CommandLine.Console.mk h ("" ++ (c.toText ++ "\n"))) = _
  rw [String.empty_append]

/-! ## §6 The round trip -/

/-- What is written for a configuration is what is read. The text of a configuration, also with a
    line end behind it, is read as this configuration from whatever file it is in; that its headers
    are in order is no more than what is so of every configuration that is read. The file that is
    written first holds the standard configuration. What is shown is the text of the configuration
    that holds, and this configuration holds again, under the same environment, where the text is
    kept in the file of the user. -/
theorem shown_holds :
    (∀ (c : Config) (h : Host) (path : Path) (tail : String), c.Ordered →
      tail = "" ∨ tail = "\n" →
      h.tree.bytesAt h.directory path = .ok (Utf8.encode (c.toText ++ tail)) →
      readFrom path h = .ok c) ∧
    (∀ (text : String) (c : Config), ofText text = .ok c → c.Ordered) ∧
    (∀ (h k : Host) (path : Path), h.tree.WellFormed → h.tree.get? h.directory = some .directory →
      runFrom init h = (.ok path, k) →
      file k = .ok path ∧ readFrom path k = .ok standard ∧
        load k = .ok (standard.override k.setting?)) ∧
    (∀ (line : CommandLine) (h : Host) (c : Config), line.task = .showConfig → load h = .ok c →
      CommandLine.run line h = (.ok .done, ⟨h, c.toText ++ "\n"⟩) ∧
      ∀ (k : Host) (path : Path), k.environment = h.environment → file k = .ok path →
        k.tree.bytesAt k.directory path = .ok (Utf8.encode (c.toText ++ "\n")) → load k = .ok c) := by
  refine ⟨fun c h path tail hc htail hbytes => readFrom_text hc htail hbytes,
    fun text c htext => ofText_ordered htext, fun h k path hwf hcwd hrun => ?_,
    fun line h c htask hload => ⟨run_showConfig htask hload, fun k path henv hfile hbytes => ?_⟩⟩
  · obtain ⟨hfile, hbytes⟩ := init_writes hwf hcwd hrun
    rw [← String.append_empty (s := standard.toText)] at hbytes
    exact ⟨hfile, readFrom_text standard_ordered (.inl rfl) hbytes,
      load_text standard_ordered (.inl rfl) hfile hbytes⟩
  · obtain ⟨hordered, hsettled⟩ := load_settled hload
    have hsettings : k.setting? = h.setting? := by
      unfold Host.setting?
      rw [henv]
    rw [load_text hordered (.inr rfl) hfile hbytes, hsettings, hsettled]

/-- A configuration with texts that have to be quoted in every way there is, and with lists and
    texts that are empty. -/
def quotedConfig : Config where
  tools := { Tools.standard with
    stylesheet := ⟨"C:\\sass \"3\"", ["it's \"\"\"\"", "line\nend\r\n", "", "\\'''\x00"]⟩ }
  build := { Build.standard with
    level := .advanced, externs := ["größe.js"], preprocessorFlags := [] }
  server := { Server.standard with
    headers := [("", "a\tb"), ("X-\"'", "''"), ("x y", "\n'\"")], notFoundPage := some "" }

/-- The home directory of a user with an empty configuration file. -/
def userTree : Tree :=
  ⟨[(["home"], .directory), (["home", ".kiln"], .directory),
    (["home", ".kiln", "kiln.toml"], plainFile [])]⟩

/-- A host with this content in the file of the user, and with another path for a tool. -/
def userHost (content : String) : Host :=
  { Host.ofTree (userTree.put ["home", ".kiln", "kiln.toml"] (plainFile (Utf8.encode content)))
      (fun _ => none) with environment := [("HOME", "/home"), ("KILN_JSX", "/opt/jsx")] }

theorem userHost_bytes (content : String) : (userHost content).tree.bytesAt
    (userHost content).directory ⟨"/home/.kiln/kiln.toml"⟩ = .ok (Utf8.encode content) := by
  have htarget : userTree.target [] ⟨"/home/.kiln/kiln.toml"⟩ RegularFile.defaultMode =
      .ok (["home", ".kiln", "kiln.toml"], RegularFile.defaultMode) := by decide +kernel
  have hwf : userTree.WellFormed :=
    Tree.wellFormed_of_entries (by decide +kernel) (by decide +kernel)
  have hstat : (userHost content).tree.stat [] ⟨"/home/.kiln/kiln.toml"⟩ = .ok (_, .file _) :=
    Tree.stat_written hwf (Tree.get?_nil _) htarget
      (fun place hother => Tree.get?_put_of_ne _ hother _) (Tree.get?_put_self _ (by decide) _)
  exact Tree.bytesAt_of_stat hstat

theorem quoted_shown :
    readFrom ⟨"/home/.kiln/kiln.toml"⟩ (userHost (quotedConfig.toText ++ "")) = .ok quotedConfig ∧
    (∃ k, runFrom init (userHost "") = (.ok ⟨"/home/.kiln/kiln.toml"⟩, k) ∧
      load k = .ok (standard.override (userHost "").setting?)) ∧
    ∃ c, c.tools.component = .named "/opt/jsx" ∧
      CommandLine.run ⟨.text, 0, .showConfig⟩ (userHost (quotedConfig.toText ++ "")) =
        (.ok .done, ⟨userHost (quotedConfig.toText ++ ""), c.toText ++ "\n"⟩) ∧
      load (userHost (c.toText ++ "\n")) = .ok c := by
  have hordered : quotedConfig.Ordered := by
    unfold Ordered
    decide +kernel
  have hfile : ∀ content, file (userHost content) = .ok ⟨"/home/.kiln/kiln.toml"⟩ := by
    have hempty : file (userHost "") = .ok ⟨"/home/.kiln/kiln.toml"⟩ := by decide +kernel
    exact fun _ => hempty
  have hsettings : ∀ content, (userHost content).setting? = (userHost "").setting? := fun _ => rfl
  have hrun : (runFrom init (userHost "")).1 = .ok ⟨"/home/.kiln/kiln.toml"⟩ := by decide +kernel
  have hwf : (userHost "").tree.WellFormed :=
    Tree.wellFormed_of_entries (by decide +kernel) (by decide +kernel)
  have hload := load_text hordered (.inl rfl) (hfile (quotedConfig.toText ++ "")) (userHost_bytes _)
  rw [hsettings] at hload
  obtain ⟨hshown, hagain⟩ := shown_holds.2.2.2 ⟨.text, 0, .showConfig⟩ _ _ rfl hload
  have henv : (runFrom init (userHost "")).2.setting? = (userHost "").setting? := by
    unfold Host.setting?
    rw [show (runFrom init (userHost "")).2.environment = (userHost "").environment by
      decide +kernel]
  refine ⟨shown_holds.1 _ _ _ _ hordered (.inl rfl) (userHost_bytes _),
    ⟨_, Prod.ext hrun rfl,
      (shown_holds.2.2.1 _ _ _ hwf (Tree.get?_nil _) (Prod.ext hrun rfl)).2.2.trans
        (by rw [henv])⟩,
    quotedConfig.override (userHost "").setting?, by decide +kernel, hshown,
    hagain _ _ rfl (hfile _) (userHost_bytes _)⟩

end AssetServer.Config
