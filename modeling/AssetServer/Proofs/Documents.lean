import AssetServer.Proofs.Sections
import AssetServer.Toml.Document

/-!
# Sections as a document

What is written for sections is read as the tables that their headers open, one after the other.

- `Entries.insertAll?_fresh`: entries with keys of their own are kept in order.
- `Section.openTable?_new`: a header with a new key opens a table with the entries of its section.
- `Document.read?_writeAll`: the document of a row of sections.
-/

namespace AssetServer.Toml

/-! ## §1 Entries -/

namespace Entries

variable {es : Entries} {key : String}

/-- The entries of a table that has values only. -/
def ofValues (values : List (String × Value)) : Entries :=
  values.map fun (k, v) => (k, .value v)

/-- Entries whose keys are new and differ are added in order. -/
theorem insertAll?_fresh {values : List (String × Value)} (hnodup : (values.map Prod.fst).Nodup)
    (hfresh : ∀ e ∈ values, es.lookup e.1 = none) :
    insertAll? (values.map fun (k, v) => ([k], v)) es = some (es ++ ofValues values) := by
  unfold insertAll?
  induction values generalizing es with
  | nil => simp [ofValues]
  | cons e values ih =>
    obtain ⟨k, v⟩ := e
    obtain ⟨hnew, hnodup⟩ := List.nodup_cons.mp hnodup
    have hinsert : insert? v [k] es = some (es ++ [(k, Node.value v)]) := by
      rw [insert?, hfresh (k, v) List.mem_cons_self]
      rfl
    -- a key that is new is no key of the rest, since keys do not repeat
    have hrest : ∀ d ∈ values, (es ++ [(k, Node.value v)]).lookup d.1 = none := by
      intro d hd
      have hne : d.1 ≠ k := fun heq => hnew (List.mem_map.mpr ⟨d, hd, heq⟩)
      rw [List.lookup_append, hfresh d (List.mem_cons_of_mem _ hd)]
      simp [List.lookup_cons, beq_eq_false_iff_ne.mpr hne]
    rw [List.map_cons, List.foldlM_cons]
    simp only [hinsert]
    exact (ih hnodup hrest).trans (by simp [ofValues])

theorem entryValues_ofValues (values : List (String × Value)) :
    entryValues (ofValues values) = values := by
  induction values with
  | nil => rfl
  | cons e values ih =>
    rw [ofValues, List.map_cons, entryValues, Node.toValue]
    exact congrArg (e :: ·) ih

end Entries

theorem entryValues_append (es es' : Entries) :
    entryValues (es ++ es') = entryValues es ++ entryValues es' := by
  induction es with
  | nil => rfl
  | cons e es ih => simp [entryValues, ih]

/-! ## §2 Sections -/

namespace Section

/-- The keys of a section and what they stand for. -/
def values (s : Section) : List (String × Value) :=
  s.entries.map fun (k, v) => (k, v.toValue)

/-- The table of a section. -/
def node (s : Section) : Node :=
  .table .header (Entries.ofValues s.values)

theorem toValue_node (s : Section) : s.node.toValue = .table s.values := by
  rw [node, Node.toValue, Entries.entryValues_ofValues]

/-- Opens the table of a section. -/
def open? (es : Entries) (s : Section) : Option Entries :=
  Entries.descend? (Entries.openTable? (s.values.map fun (k, v) => ([k], v))) s.name es

variable {s : Section} {es inner : Entries} {key next : String} {origin : Origin}

/-- A header with a new key opens a table with the entries of its section. -/
theorem openTable?_new (hnodup : (s.entries.map Prod.fst).Nodup) (hkey : es.lookup key = none) :
    Entries.openTable? (s.values.map fun (k, v) => ([k], v)) key es =
      some (es ++ [(key, s.node)]) := by
  have hkeys : (s.values.map Prod.fst).Nodup := by
    rw [values, List.map_map]
    exact hnodup
  have hall : es.filter (fun e => e.1 != key) = es := by
    rw [List.filter_eq_self]
    intro e he
    rw [bne_comm]
    exact List.lookup_eq_none_iff.mp hkey e he
  have hfill : Entries.insertAll? (s.values.map fun (k, v) => ([k], v)) [] =
      some (Entries.ofValues s.values) := Entries.insertAll?_fresh hkeys fun _ _ => rfl
  unfold Entries.openTable?
  simp only [hkey, hfill, hall]
  rfl

/-- A header of one part. -/
theorem open?_one (hname : s.name = [key]) (hnodup : (s.entries.map Prod.fst).Nodup)
    (hkey : es.lookup key = none) :
    open? es s = some (es ++ [(key, s.node)]) := by
  rw [open?, hname, Entries.descend?, openTable?_new hnodup hkey]

/-- A header that leads through a table that is not there yet. -/
theorem open?_through (hname : s.name = [key, next]) (hnodup : (s.entries.map Prod.fst).Nodup)
    (hkey : es.lookup key = none) :
    open? es s = some (es ++
      [(key, .table .path [(next, s.node)])]) := by
  rw [open?, hname, Entries.descend?, hkey]
  simp only [Entries.descend?, openTable?_new hnodup List.lookup_nil]
  rfl

/-- A header that leads into a table. -/
theorem open?_into (hname : s.name = [key, next]) (hnodup : (s.entries.map Prod.fst).Nodup)
    (hkey : es.lookup key = some (.table origin inner)) (hnext : inner.lookup next = none) :
    open? es s = some (es.replace key
      (.table origin (inner ++ [(next, s.node)]))) := by
  rw [open?, hname, Entries.descend?, hkey]
  simp only [Entries.descend?, openTable?_new hnodup hnext]
  rfl

end Section

namespace Document

/-- The statements of a section are its header and its own entries. -/
theorem ownEntries_entries (s : Section) {rest : List Statement}
    (hrest : ∀ key v more, rest ≠ .entry key v :: more) :
    ownEntries ((s.entries.map fun (k, v) => .entry [k] v.toValue) ++ rest) =
      (s.values.map fun (k, v) => ([k], v), rest) := by
  unfold Section.values
  induction s.entries with
  | nil => exact ownEntries.eq_2 rest hrest
  | cons e es ih =>
    rw [List.map_cons, List.cons_append, ownEntries, ih]
    rfl

/-- Sections open their tables one after the other. -/
theorem addSections?_sections (sections : List Section) {fuel : Nat}
    (hfuel : sections.length < fuel) (es : Entries) :
    addSections? fuel (sections.flatMap Section.statements) es =
      sections.foldlM Section.open? es := by
  induction sections generalizing fuel es with
  | nil =>
    obtain ⟨fuel, rfl⟩ := Nat.exists_eq_add_one_of_ne_zero (Nat.ne_zero_of_lt hfuel)
    rfl
  | cons s sections ih =>
    obtain ⟨fuel, rfl⟩ := Nat.exists_eq_add_one_of_ne_zero (Nat.ne_zero_of_lt hfuel)
    -- what follows a section is another header or nothing
    have hrest : ∀ key v more, sections.flatMap Section.statements ≠ .entry key v :: more := by
      intro key v more
      cases sections with
      | nil => simp
      | cons next sections => simp [Section.statements]
    rw [List.flatMap_cons, Section.statements, List.cons_append, addSections?,
      ownEntries_entries s hrest, List.foldlM_cons]
    exact Option.bind_congr fun es' _ => ih (Nat.lt_of_succ_lt_succ hfuel) es'

theorem length_le_statements (sections : List Section) :
    sections.length ≤ (sections.flatMap Section.statements).length := by
  induction sections with
  | nil => exact Nat.zero_le _
  | cons s sections ih =>
    simp only [List.flatMap_cons, Section.statements, List.length_append, List.length_cons]
    omega

/-- The statements of sections say what tables they open. -/
theorem ofStatements?_sections (sections : List Section) :
    ofStatements? (sections.flatMap Section.statements) =
      (sections.foldlM Section.open? []).map fun es => .table (entryValues es) := by
  -- no entry stands before the first header
  have hown : ownEntries (sections.flatMap Section.statements) =
      ([], sections.flatMap Section.statements) := by
    cases sections <;> rfl
  have hinsert : Entries.insertAll? [] [] = some [] := rfl
  unfold ofStatements?
  rw [hown]
  simp only [hinsert, Option.bind_eq_bind, Option.bind_some,
    addSections?_sections sections (Nat.lt_succ_of_le (length_le_statements sections))]
  cases sections.foldlM Section.open? [] <;> rfl

/-- What is written for sections starts with a bracket. -/
theorem writeAll_start (s : Section) (sections : List Section) :
    ∃ rest, (Section.writeAll (s :: sections)).toList = '[' :: rest := by
  have hstart : ∃ rest, s.write.toList = '[' :: rest := by
    rw [Section.write, String.toList_append, String.toList_append, String.toList_append]
    exact ⟨_, rfl⟩
  obtain ⟨rest, hrest⟩ := hstart
  cases sections with
  | nil => exact ⟨rest, by simpa [Section.writeAll] using hrest⟩
  | cons next sections =>
    rw [Section.writeAll, List.map_cons, String.intercalate_cons_of_ne_nil (by simp)]
    simp only [String.toList_append, hrest]
    exact ⟨_, rfl⟩

/-- What is written for sections is the document with the tables that they open. A line end behind
    it does not matter. -/
theorem read?_writeAll {s : Section} {sections : List Section}
    (hnames : ∀ s' ∈ s :: sections, s'.name ≠ [] ∧ s'.name.length ≤ maxDepth) {tail : String}
    (htail : tail = "" ∨ tail = "\n") :
    read? (Section.writeAll (s :: sections) ++ tail) =
      ((s :: sections).foldlM Section.open? []).map fun es => .table (entryValues es) := by
  have hreads : Reads inlineTable (Section.writeAll (s :: sections) ++ tail).toList
      ((s :: sections).flatMap Section.statements) := by
    have hend : Reads inlineTable tail.toList [] := by
      rcases htail with rfl | rfl
      · exact .nil
      · exact Reads.nil.feed
    rw [String.toList_append, ← List.append_nil ((s :: sections).flatMap _)]
    exact hend.sections hnames
  -- the text starts with a bracket, so with no mark of its byte order
  obtain ⟨rest, hstart⟩ := writeAll_start s sections
  have hstatements := hreads.statements?
  unfold read?
  rw [String.toList_append, hstart, List.cons_append] at hstatements ⊢
  simp only [if_neg (by decide : ¬ '[' = '\ufeff'), hstatements]
  exact ofStatements?_sections (s :: sections)

end Document

end AssetServer.Toml
