import Mathlib.Data.List.Nodup
import Mathlib.Data.String.Basic
import AssetServer.Proofs.Visit

/-!
# All files of an export

An export goes through the names of each directory in order and writes one file after another, so
of several files that are exported to one place the last one stays. `Export.walk_exports` says so
for one directory and `Export.tree_ok` for a whole export.
-/

namespace AssetServer

namespace Tree

/-! ## §1 Names in a directory -/

variable {t : Tree} {dir loc : Location} {n : String}

/-- The name in `dir` of a location, if it lies directly in it. -/
def nameIn? (dir loc : Location) : Option String :=
  if loc.length = dir.length + 1 ∧ dir.isPrefixOf loc then loc.getLast? else none

theorem nameIn?_iff : nameIn? dir loc = some n ↔ loc = dir ++ [n] := by
  unfold nameIn?
  constructor
  · intro h
    split at h
    · rename_i hin
      obtain ⟨rest, rfl⟩ := List.isPrefixOf_iff_prefix.mp hin.2
      have hlength := hin.1
      rw [List.length_append] at hlength
      obtain ⟨m, rfl⟩ := List.length_eq_one_iff.mp (by omega : rest.length = 1)
      simp only [List.getLast?_append, List.getLast?_singleton, Option.some_or] at h
      rw [Option.some.inj h]
    · cases h
  · rintro rfl
    simp

theorem perm_insertName (n : String) (names : List String) :
    (insertName n names).Perm (n :: names) := by
  induction names with
  | nil => rfl
  | cons m rest ih =>
    unfold insertName
    split
    · exact (ih.cons m).trans (List.Perm.swap n m rest)
    · rfl

theorem pairwise_insertName {n : String} {names : List String} (h : names.Pairwise (· ≤ ·)) :
    (insertName n names).Pairwise (· ≤ ·) := by
  induction names with
  | nil => simp [insertName]
  | cons m rest ih =>
    obtain ⟨hm, hrest⟩ := List.pairwise_cons.mp h
    unfold insertName
    split
    · rename_i hlt
      refine List.pairwise_cons.mpr ⟨fun k hk => ?_, ih hrest⟩
      rcases List.mem_cons.mp ((perm_insertName n rest).mem_iff.mp hk) with rfl | hk
      · exact hlt.le
      · exact hm k hk
    · rename_i hnot
      refine List.pairwise_cons.mpr ⟨fun k hk => ?_, h⟩
      rcases List.mem_cons.mp hk with rfl | hk
      · exact not_lt.mp hnot
      · exact (not_lt.mp hnot).trans (hm k hk)

/-- Names are listed in order. -/
theorem pairwise_names : (t.names dir).Pairwise (· ≤ ·) := by
  unfold names
  generalize t.entries.filterMap _ = below
  induction below with
  | nil => exact List.Pairwise.nil
  | cons n rest ih => exact pairwise_insertName ih

theorem names_perm (t : Tree) (dir : Location) :
    (t.names dir).Perm ((t.entries.map Prod.fst).filterMap (nameIn? dir)) := by
  rw [List.filterMap_map]
  show (List.foldr insertName [] (t.entries.filterMap (nameIn? dir ∘ Prod.fst))).Perm _
  generalize t.entries.filterMap (nameIn? dir ∘ Prod.fst) = below
  induction below with
  | nil => rfl
  | cons n rest ih => exact (perm_insertName n _).trans (ih.cons n)

theorem mem_names_iff : n ∈ t.names dir ↔ ∃ e, t.get? (dir ++ [n]) = some e := by
  rw [(names_perm t dir).mem_iff, List.mem_filterMap]
  unfold get?
  rw [if_neg (by simp), ← Option.isSome_iff_exists, List.lookup_isSome_iff]
  constructor
  · rintro ⟨loc, hloc, hname⟩
    obtain ⟨e, he, rfl⟩ := List.mem_map.mp hloc
    exact ⟨e, he, by simpa using (nameIn?_iff.mp hname).symm⟩
  · rintro ⟨e, he, hkey⟩
    have hloc : e.1 = dir ++ [n] := (by simpa using hkey : dir ++ [n] = e.1).symm
    exact ⟨e.1, List.mem_map_of_mem he, nameIn?_iff.mpr hloc⟩

theorem nodup_names (hwf : t.WellFormed) : (t.names dir).Nodup := by
  rw [(names_perm t dir).nodup_iff]
  refine hwf.nodup.filterMap fun a b m ha hb => ?_
  rw [nameIn?_iff.mp ha, nameIn?_iff.mp hb]

/-- What is listed after a name is greater. -/
theorem lt_of_names_eq (hwf : t.WellFormed) {before after : List String}
    (h : t.names dir = before ++ n :: after) : ∀ m ∈ after, n < m := by
  intro m hm
  have hnodup : (t.names dir).Nodup := nodup_names hwf
  have hsorted : (t.names dir).Pairwise (· ≤ ·) := pairwise_names
  rw [h, List.nodup_append] at hnodup
  rw [h, List.pairwise_append] at hsorted
  have hne : n ≠ m := by
    rintro rfl
    exact (List.nodup_cons.mp hnodup.2.1).1 hm
  exact lt_of_le_of_ne ((List.pairwise_cons.mp hsorted.2.1).1 m hm) hne

end Tree

namespace Export

variable {x : Export} {h₁ k k' : Host} {root : Path} {R : Location}

/-! ## §2 Sources of a place -/

/-- Under a root, the file `n` of a directory is exported as `o` there. -/
structure Produces (h : Host) (root : Path) (dir : List String) (o n : String) : Prop where
  isName : ∀ m ∈ dir ++ [n], IsName m
  isFile : h.tree.isFile h.directory (descend root (dir ++ [n])) = true
  exported : Kind.exportName? n = some o

/-- What is a file below a root, on every host of an export. -/
theorem Apart.isFile_iff {names : List String} (ha : x.Apart h₁ root R) (hb : x.Begins h₁)
    (hu : x.Under h₁ k) (hnames : ∀ m ∈ names, IsName m) :
    k.tree.isFile k.directory (descend root names) = true ↔
      Tree.Fits (descend root names) ∧ ∃ f, h₁.tree.get? (R ++ names) = some (.file f) := by
  rw [Tree.isFile_iff]
  constructor
  · rintro ⟨loc, f, hstat⟩
    obtain ⟨hfits, -, hf⟩ := (ha.stat_names_iff hb hu hnames).mp hstat
    exact ⟨hfits, f, hf⟩
  · rintro ⟨hfits, f, hf⟩
    exact ⟨_, f, (ha.stat_names_iff hb hu hnames).mpr ⟨hfits, rfl, hf⟩⟩

theorem Produces.file {dir : List String} {o n : String} (hp : Produces h₁ root dir o n)
    (ha : x.Apart h₁ root R) (hb : x.Begins h₁) :
    Tree.Fits (descend root (dir ++ [n])) ∧ ∃ f, h₁.tree.get? (R ++ (dir ++ [n])) = some (.file f) :=
  (ha.isFile_iff hb hb.under hp.isName).mp hp.isFile

/-! ## §3 What is done for one entry -/

/-- What exporting the entry that `pre` leads to, with all that lies below it, does to the files
    below the destination: those with no source there stay, those whose last source lies there come
    from it, and every source there was rendered. -/
structure Effect (x : Export) (h₁ : Host) (root : Path) (pre : List String) (k k' : Host) :
    Prop where
  under : x.Under h₁ k'
  keeps : ∀ dir o b, (∀ n, Produces h₁ root dir o n → ¬ pre <+: dir ++ [n]) →
    k.Holds b (x.location ++ (dir ++ [o])) → k'.Holds b (x.location ++ (dir ++ [o]))
  makes : ∀ dir o n, Produces h₁ root dir o n → (∀ m, Produces h₁ root dir o m → m ≤ n) →
    pre <+: dir ++ [n] → ∃ b, x.Rendered h₁ (descend root (dir ++ [n])) b ∧
      k'.Holds b (x.location ++ (dir ++ [o]))
  renders : ∀ dir o n, Produces h₁ root dir o n → pre <+: dir ++ [n] →
    ∃ b, x.Rendered h₁ (descend root (dir ++ [n])) b

/-- A file leads to no other file. -/
theorem eq_of_file_below {t : Tree} (hwf : t.WellFormed) {base pre names : List String}
    {f g : RegularFile} (hf : t.get? (base ++ pre) = some (.file f))
    (hg : t.get? (base ++ names) = some (.file g)) (hpre : pre <+: names) : pre = names := by
  obtain ⟨rest, rfl⟩ := hpre
  by_cases hrest : rest = []
  · simp [hrest]
  · rw [← List.append_assoc] at hg
    rw [hwf.parents hg hrest] at hf
    cases hf

theorem effect_file {dir : List String} {n : String} {f : RegularFile} {p p' : Pass}
    (hb : x.Begins h₁) (ha : x.Apart h₁ root R) (hu : x.Under h₁ p.host)
    (hfile : h₁.tree.get? (R ++ (dir ++ [n])) = some (.file f))
    (hfits : Tree.Fits (descend root (dir ++ [n])))
    (hrun : runFrom (x.file root (dir ++ [n])) p = (.ok (), p')) :
    Effect x h₁ root (dir ++ [n]) p.host p'.host := by
  obtain ⟨hu', hskip, hwrite⟩ := file_ok hb ha hu hfile hfits hrun
  have hself : ∀ o, Kind.exportName? n = some o → Produces h₁ root dir o n := fun o ho =>
    ⟨(hb.isName hfile),
      (ha.isFile_iff hb hb.under (hb.isName hfile)).mpr ⟨hfits, f, hfile⟩, ho⟩
  -- the file is the only source below itself
  have honly : ∀ dir' o' n', Produces h₁ root dir' o' n' → dir ++ [n] <+: dir' ++ [n'] →
      ∃ b, x.Rendered h₁ (descend root (dir' ++ [n'])) b ∧
        p'.host.Holds b (x.location ++ (dir' ++ [o'])) := by
    intro dir' o' n' hp hpre
    obtain ⟨-, g, hg⟩ := hp.file ha hb
    have heq := eq_of_file_below hb.ready.wellFormed hfile hg hpre
    obtain ⟨rfl, hlast⟩ := List.append_inj' heq rfl
    rw [List.cons.injEq] at hlast
    obtain ⟨rfl, -⟩ := hlast
    obtain ⟨b, hb, hwrote⟩ := hwrite o' hp.exported
    exact ⟨b, hb, hwrote.holds⟩
  refine ⟨hu', fun dir' o' b hnone hholds => ?_, fun dir' o' n' hp _ => honly dir' o' n' hp,
    fun dir' o' n' hp hpre => ?_⟩
  · cases ho : Kind.exportName? n with
    | none =>
      rw [hskip ho]
      exact hholds
    | some o =>
      obtain ⟨c, -, hwrote⟩ := hwrite o ho
      refine hwrote.keeps ?_ hholds
      intro heq
      obtain ⟨rfl, hlast⟩ := List.append_inj' (List.append_cancel_left heq) rfl
      rw [List.cons.injEq] at hlast
      rw [hlast.1] at hnone
      exact hnone n (hself o ho) List.prefix_rfl
  · obtain ⟨b, hrendered, -⟩ := honly dir' o' n' hp hpre
    exact ⟨b, hrendered⟩

/-- A file whose path is too long to be looked up is passed over. -/
theorem effect_unfit {names : List String} {f : RegularFile} (hb : x.Begins h₁)
    (ha : x.Apart h₁ root R) (hu : x.Under h₁ k)
    (hfile : h₁.tree.get? (R ++ names) = some (.file f))
    (hfits : ¬ Tree.Fits (descend root names)) : Effect x h₁ root names k k := by
  have hnone : ∀ dir o n, Produces h₁ root dir o n → ¬ names <+: dir ++ [n] := by
    intro dir o n hp hpre
    obtain ⟨hfits', g, hg⟩ := hp.file ha hb
    rw [eq_of_file_below hb.ready.wellFormed hfile hg hpre] at hfits
    exact hfits hfits'
  exact ⟨hu, fun _ _ _ _ hholds => hholds, fun dir o n hp _ hpre => absurd hpre (hnone dir o n hp),
    fun dir o n hp hpre => absurd hpre (hnone dir o n hp)⟩

/-- What an export does for one entry of the directory that `names` lead to. -/
def entry (x : Export) (root : Path) (room : Nat) (names : List String) :
    String × Bool → ExportStep Unit
  | (name, isDirectory) => do
    let inner := names ++ [name]
    let path := descend root inner
    if isDirectory then
      let here ← ExportStep.look fun h => h.tree.canonical h.directory path
      if here.toOption == some x.location then return ()
      else x.walk root room inner
    else if ← ExportStep.look fun h => h.tree.isFile h.directory path then
      x.file root inner

/-- What is listed is what the directory holds, and nothing changes. -/
theorem entries_ok_iff {dir : Path} {list : List (String × Bool)} {p p' : Pass} :
    runFrom (entries dir) p = (.ok list, p') ↔ p' = p ∧
      ∃ loc, p.host.tree.stat p.host.directory dir = .ok (loc, .directory) ∧
        list = (p.host.tree.names loc).map
          fun n => (n, p.host.tree.get? (loc ++ [n]) == some .directory) := by
  unfold entries
  rw [runFrom_export, runFrom_read]
  cases hlist : p.host.tree.list p.host.directory dir with
  | error e =>
    constructor
    · intro h
      cases h
    · rintro ⟨-, loc, hstat, -⟩
      rw [Tree.list_ok_iff.mpr ⟨hstat, rfl⟩] at hlist
      cases hlist
  | ok found =>
    obtain ⟨loc, names⟩ := found
    obtain ⟨hstat, rfl⟩ := Tree.list_ok_iff.mp hlist
    rw [hstat, Prod.mk.injEq]
    simp only [Except.ok.injEq, Prod.mk.injEq, and_true, exists_eq_left']
    exact and_comm.trans (and_congr eq_comm eq_comm)

theorem entries_error_iff {dir : Path} {failure : Failure} {p p' : Pass} :
    runFrom (entries dir) p = (.error failure, p') ↔ p' = p ∧
      ∃ e, p.host.tree.list p.host.directory dir = .error e ∧ failure = .file dir e := by
  unfold entries
  rw [runFrom_export, runFrom_read, Prod.mk.injEq]
  rw [and_comm, eq_comm (a := p)]
  cases p.host.tree.list p.host.directory dir <;> simp [eq_comm]

theorem walk_succ (x : Export) (root : Path) (room : Nat) (names : List String) :
    x.walk root (room + 1) names =
      entries (descend root names) >>= fun list => list.forM (x.entry root room names) := rfl

/-- A directory is passed over if it is the destination, and else gone through. -/
theorem runFrom_entry_directory (x : Export) (root : Path) (room : Nat) (names : List String)
    (n : String) (p : Pass) : runFrom (x.entry root room names (n, true)) p =
      if p.host.tree.canonical p.host.directory (descend root (names ++ [n])) = .ok x.location then
        (.ok (), p)
      else runFrom (x.walk root room (names ++ [n])) p := by
  unfold entry
  simp only [if_true]
  rw [runFrom_bind, runFrom_look]
  cases p.host.tree.canonical p.host.directory (descend root (names ++ [n])) with
  | error e => simp [Except.toOption]
  | ok loc =>
    simp only [Except.toOption, beq_iff_eq, Option.some.injEq, Except.ok.injEq]
    split
    · rfl
    · rfl

/-- What is no directory is exported if its path leads to a file. -/
theorem runFrom_entry_file (x : Export) (root : Path) (room : Nat) (names : List String)
    (n : String) (p : Pass) : runFrom (x.entry root room names (n, false)) p =
      if p.host.tree.isFile p.host.directory (descend root (names ++ [n])) then
        runFrom (x.file root (names ++ [n])) p
      else (.ok (), p) := by
  unfold entry
  simp only [Bool.false_eq_true, if_false]
  rw [runFrom_bind, runFrom_look]
  simp only
  split
  · rfl
  · rfl

theorem effect_entry {room : Nat} {names : List String} {m : String} {e : Entry} {p p' : Pass}
    (hwalk : ∀ {names p p'}, h₁.tree.get? (R ++ names) = some .directory → x.Under h₁ p.host →
      runFrom (x.walk root room names) p = (.ok (), p') → Effect x h₁ root names p.host p'.host)
    (hb : x.Begins h₁) (ha : x.Apart h₁ root R) (hu : x.Under h₁ p.host)
    (he : h₁.tree.get? (R ++ (names ++ [m])) = some e)
    (hrun : runFrom (x.entry root room names (m, some e == some .directory)) p = (.ok (), p')) :
    Effect x h₁ root (names ++ [m]) p.host p'.host := by
  have hnames := (hb.isName he)
  cases e with
  | directory =>
    -- the destination does not lie below the root, so it is not passed over
    have hother : p.host.tree.canonical p.host.directory (descend root (names ++ [m])) ≠
        .ok x.location := by
      intro hsame
      obtain ⟨e, hstat⟩ := Tree.canonical_ok_iff.mp hsame
      have hloc := ((ha.stat_names_iff hb hu hnames).mp hstat).2.1
      exact ha.outside (names ++ [m]) ⟨[], by rw [hloc, List.append_nil]⟩
    rw [beq_self_eq_true, runFrom_entry_directory, if_neg hother] at hrun
    exact hwalk he hu hrun
  | file f =>
    have hkind : (some (Entry.file f) == some .directory) = false := by
      rw [beq_eq_false_iff_ne]
      simp
    have hiff := ha.isFile_iff hb hu hnames
    rw [hkind, runFrom_entry_file] at hrun
    by_cases hfits : Tree.Fits (descend root (names ++ [m]))
    · rw [if_pos (hiff.mpr ⟨hfits, f, he⟩)] at hrun
      exact effect_file hb ha hu he hfits hrun
    · rw [if_neg fun htrue => hfits (hiff.mp htrue).1, Prod.mk.injEq] at hrun
      rw [← hrun.2]
      exact effect_unfit hb ha hu he hfits
  | link target => exact absurd he (ha.linkFree _ target)

/-! ## §4 Directories -/

/-- The entries that an export goes through are those that lay below the root from the start. -/
theorem entries_ok {names : List String} {list : List (String × Bool)} {p p' : Pass}
    (hb : x.Begins h₁) (ha : x.Apart h₁ root R) (hu : x.Under h₁ p.host)
    (hnames : ∀ m ∈ names, IsName m)
    (hrun : runFrom (entries (descend root names)) p = (.ok list, p')) :
    p'.host = p.host ∧ list = (p.host.tree.names (R ++ names)).map fun m =>
      (m, h₁.tree.get? (R ++ (names ++ [m])) == some .directory) := by
  obtain ⟨rfl, loc, hstat, rfl⟩ := entries_ok_iff.mp hrun
  obtain ⟨-, rfl, -⟩ := (ha.stat_names_iff hb hu hnames).mp hstat
  refine ⟨rfl, List.map_congr_left fun m _ => ?_⟩
  rw [List.append_assoc, ha.get? hu]

/-- Names that lead to a file lead through an entry of each directory on the way. -/
theorem exists_entry {t : Tree} {names path : List String} {f : RegularFile} (hwf : t.WellFormed)
    (hthere : t.get? (R ++ names) = some .directory) (hfile : t.get? (R ++ path) = some (.file f))
    (hpre : names <+: path) :
    ∃ c rest, names ++ c :: rest = path ∧ ∃ e, t.get? (R ++ (names ++ [c])) = some e := by
  obtain ⟨below, hbelow⟩ := hpre
  cases below with
  | nil =>
    rw [List.append_nil] at hbelow
    rw [← hbelow, hthere] at hfile
    cases hfile
  | cons c rest =>
    refine ⟨c, rest, hbelow, ?_⟩
    by_cases hrest : rest = []
    · rw [← hbelow, hrest] at hfile
      exact ⟨_, hfile⟩
    · have hup : t.get? ((R ++ (names ++ [c])) ++ rest) = some (.file f) := by
        rw [List.append_assoc, List.append_assoc, List.singleton_append, hbelow]
        exact hfile
      exact ⟨.directory, hwf.parents hup hrest⟩

/-- Of two sources in one directory, the one that lies in a later entry is greater. -/
theorem not_lt_of_sources {names rest dir : List String} {c m n n' : String}
    (hbelow : names ++ c :: rest = dir ++ [n]) (hpre : names ++ [m] <+: dir ++ [n'])
    (hle : n' ≤ n) : ¬ c < m := by
  obtain ⟨rest', hrest'⟩ := hpre
  rw [List.append_assoc, List.singleton_append] at hrest'
  rcases List.eq_nil_or_concat rest with rfl | ⟨init, last, rfl⟩
  · -- the sources are the entries
    obtain ⟨rfl, hcn⟩ := List.append_inj' hbelow rfl
    have hmn := List.append_cancel_left hrest'
    rw [List.cons.injEq] at hcn hmn
    rw [hmn.1, hcn.1]
    exact not_lt.mpr hle
  · -- the directory lies in one entry
    have hdir : names ++ c :: init = dir := by
      have hcut : (names ++ c :: init) ++ [last] = dir ++ [n] := by
        rw [← hbelow]
        simp
      exact (List.append_inj' hcut rfl).1
    rw [← hdir, List.append_assoc, List.cons_append] at hrest'
    have hmc := List.append_cancel_left hrest'
    rw [List.cons.injEq] at hmc
    rw [hmc.1]
    exact lt_irrefl c

/-- Exporting some entries of a directory keeps every place that has no source below them. -/
theorem entries_keep {room : Nat} {names part : List String} {isDirectory : String → Bool}
    {q q' : Pass}
    (hone : ∀ m ∈ part, ∀ s s', x.Under h₁ s.host →
      runFrom (x.entry root room names (m, isDirectory m)) s = (.ok (), s') →
        Effect x h₁ root (names ++ [m]) s.host s'.host)
    (hq : x.Under h₁ q.host)
    (hrun : runFrom ((part.map fun m => (m, isDirectory m)).forM (x.entry root room names)) q =
      (.ok (), q')) :
    x.Under h₁ q'.host ∧
      ∀ dir o b, (∀ m ∈ part, ∀ n, Produces h₁ root dir o n → ¬ names ++ [m] <+: dir ++ [n]) →
        q.host.Holds b (x.location ++ (dir ++ [o])) →
        q'.host.Holds b (x.location ++ (dir ++ [o])) := by
  refine ⟨runFrom_forM (P := fun s => x.Under h₁ s.host) hrun hq ?_, fun dir o b hnone hholds => ?_⟩
  · intro a ha s s' hs hstep
    obtain ⟨m, hm, rfl⟩ := List.mem_map.mp ha
    exact (hone m hm s s' hs hstep).under
  -- each entry keeps the place, as it has no source for it
  · refine (runFrom_forM (P := fun s => x.Under h₁ s.host ∧
      s.host.Holds b (x.location ++ (dir ++ [o]))) hrun ⟨hq, hholds⟩ ?_).2
    rintro a ha s s' ⟨hs, hheld⟩ hstep
    obtain ⟨m, hm, rfl⟩ := List.mem_map.mp ha
    have heffect := hone m hm s s' hs hstep
    exact ⟨heffect.under, heffect.keeps dir o b (hnone m hm) hheld⟩

/-- A source below a directory lies below one of its entries. When all of them are exported, that one
    has its turn after some and before the others. -/
theorem exists_turn {room : Nat} {names list dir : List String} {isDirectory : String → Bool}
    {o n : String} {p p' : Pass} (hb : x.Begins h₁) (ha : x.Apart h₁ root R)
    (hthere : h₁.tree.get? (R ++ names) = some .directory)
    (hmem : ∀ {m : String}, m ∈ list ↔ ∃ e, h₁.tree.get? (R ++ (names ++ [m])) = some e)
    (hone : ∀ m ∈ list, ∀ q q', x.Under h₁ q.host →
      runFrom (x.entry root room names (m, isDirectory m)) q = (.ok (), q') →
        Effect x h₁ root (names ++ [m]) q.host q'.host)
    (hu : x.Under h₁ p.host)
    (hrun : runFrom ((list.map fun m => (m, isDirectory m)).forM (x.entry root room names)) p =
      (.ok (), p'))
    (hp : Produces h₁ root dir o n) (hpre : names <+: dir ++ [n]) :
    ∃ before c after q₁ q₂ rest, list = before ++ c :: after ∧ names ++ c :: rest = dir ++ [n] ∧
      Effect x h₁ root (names ++ [c]) (q₁ : Pass).host (q₂ : Pass).host ∧
      runFrom ((after.map fun m => (m, isDirectory m)).forM (x.entry root room names)) q₂ =
        (.ok (), p') := by
  obtain ⟨-, f, hf⟩ := hp.file ha hb
  obtain ⟨c, rest, hbelow, hentry⟩ := exists_entry hb.ready.wellFormed hthere hf hpre
  have hc := hmem.mpr hentry
  obtain ⟨before, after, rfl⟩ := List.append_of_mem hc
  rw [List.map_append, List.map_cons] at hrun
  obtain ⟨q₁, q₂, hfirst, hstep, hrest⟩ := runFrom_forM_append hrun
  obtain ⟨hq₁, -⟩ :=
    entries_keep (fun m hm => hone m (List.mem_append_left _ hm)) hu hfirst
  exact ⟨before, c, after, q₁, q₂, rest, rfl, hbelow, hone c hc q₁ q₂ hq₁ hstep, hrest⟩

/-- Exporting a directory exports each of its entries, in order. -/
theorem walk_exports {room : Nat} {names : List String} {p p' : Pass} (hb : x.Begins h₁)
    (ha : x.Apart h₁ root R) (hthere : h₁.tree.get? (R ++ names) = some .directory)
    (hu : x.Under h₁ p.host) (hrun : runFrom (x.walk root room names) p = (.ok (), p')) :
    Effect x h₁ root names p.host p'.host := by
  induction room generalizing names p p' with
  | zero => cases hrun
  | succ room ih =>
    rw [walk_succ] at hrun
    obtain ⟨list, p₀, hentries, hrun⟩ := runFrom_bind_ok.mp hrun
    obtain ⟨hhost, rfl⟩ := entries_ok hb ha hu (hb.isName hthere) hentries
    rw [← hhost] at hu ⊢
    -- the root holds what it held when the export began
    have hmem : ∀ {m : String}, m ∈ p.host.tree.names (R ++ names) ↔
        ∃ e, h₁.tree.get? (R ++ (names ++ [m])) = some e := by
      intro m
      rw [Tree.mem_names_iff, ← hhost, List.append_assoc, ha.get? hu]
    have hone : ∀ m ∈ p.host.tree.names (R ++ names), ∀ q q', x.Under h₁ q.host →
        runFrom (x.entry root room names
          (m, h₁.tree.get? (R ++ (names ++ [m])) == some .directory)) q = (.ok (), q') →
        Effect x h₁ root (names ++ [m]) q.host q'.host := by
      intro m hm q q' hq hstep
      obtain ⟨e, he⟩ := hmem.mp hm
      rw [he] at hstep
      exact effect_entry ih hb ha hq he hstep
    obtain ⟨hu', hkeeps⟩ := entries_keep hone hu hrun
    refine ⟨hu', fun dir o b hnone hholds => ?_, fun dir o n hp hlast hpre => ?_,
      fun dir o n hp hpre => ?_⟩
    · refine hkeeps dir o b (fun m _ n hp hpre => ?_) hholds
      exact hnone n hp ((List.prefix_append names [m]).trans hpre)
    · obtain ⟨before, c, after, q₁, q₂, rest, hsplit, hbelow, heffect, hrest⟩ :=
        exists_turn hb ha hthere hmem hone hu hrun hp hpre
      obtain ⟨b, hrendered, hholds⟩ := heffect.makes dir o n hp hlast
        ⟨rest, by rw [← hbelow]; simp⟩
      refine ⟨b, hrendered, ?_⟩
      refine (entries_keep (fun m hm => hone m ?_) heffect.under hrest).2 dir o b
        (fun m hm n' hp' hpre' => ?_) hholds
      · rw [hsplit]
        exact List.mem_append_right _ (List.mem_cons_of_mem _ hm)
      · -- a later entry with a source of the same place would be a greater source
        exact not_lt_of_sources hbelow hpre' (hlast n' hp')
          (Tree.lt_of_names_eq (hhost ▸ hu.ready.wellFormed) hsplit m hm)
    · obtain ⟨before, c, after, q₁, q₂, rest, -, hbelow, heffect, -⟩ :=
        exists_turn hb ha hthere hmem hone hu hrun hp hpre
      exact heffect.renders dir o n hp ⟨rest, by rw [← hbelow]; simp⟩

/-! ## §5 A whole export -/

/-- A destination that is absent on `h` and no scratch directory: making it gives the host `made`,
    where it is at `D`. -/
structure Absent (h : Host) (dest : Path) (D : Location) (made : Host) : Prop where
  makes : (makeDestination dest).runOn h = (.ok D, made)
  absent : h.tree.get? D = none
  noScratch : made.tree.NoScratch h.temporary

/-- A root without links that does not hold the place `D`. -/
def SourceRoot (h : Host) (D : Location) (root : Path) : Prop :=
  ∃ R, h.tree.stat h.directory root = .ok (R, .directory) ∧ h.tree.LinkFree R ∧ ¬ R <+: D

variable {h made : Host} {dest : Path} {D : Location} {compiler : Compiler}

/-- Making a destination adds directories and nothing else. -/
theorem Absent.grown (hd : Absent h dest D made) (hready : h.Ready) :
    made = { h with tree := made.tree } ∧ Tree.Grown (fun _ => True) h.tree made.tree ∧
      ∃ e, made.tree.stat h.directory dest = .ok (D, e) := by
  have hmade := hd.makes
  rw [Act.runOn_eq] at hmade
  obtain ⟨rfl, hthere⟩ := makeDestination_run hmade
  exact ⟨rfl, Tree.makeDirectories_grown dest hready.wellFormed hready.directory,
    (hthere D rfl).2⟩

theorem Absent.begins (hd : Absent h dest D made) (hready : h.Ready) :
    Begins ⟨compiler, dest, D⟩ made := by
  obtain ⟨hmade, hgrown, e, hstat⟩ := hd.grown hready
  have hdirectory : made.directory = h.directory := by rw [hmade]
  have hprograms : made.programs = h.programs := by rw [hmade]
  have hcwd := hgrown.partOf _ _ hready.directory
  have hbare : ∀ rest e, made.tree.get? (D ++ rest) = some e → e = .directory := by
    intro rest e he
    rcases hgrown.same (D ++ rest) with hsame | ⟨-, -, hnew⟩
    · rw [hsame, hready.wellFormed.absent_below hd.absent] at he
      cases he
    · rw [hnew] at he
      exact (Option.some.inj he).symm
  have hbeside : h.Beside (fun _ => True) made := by
    rw [hmade]
    exact .withTree fun _ hfalse => absurd trivial hfalse
  have htemporary := (Host.temporary_of_partOf hready hgrown.partOf hbeside.directory
    hbeside.environment).1
  refine ⟨hready.of_partOf hgrown.partOf hbeside hgrown.wellFormed hd.noScratch, ?_, hbare, ?_⟩
  · rw [hdirectory]
    have he := Tree.get?_of_stat hgrown.wellFormed hcwd hstat
    rw [hbare [] e (by rw [List.append_nil]; exact he)] at hstat
    exact hstat
  · -- the directory for scratch directories was there before the destination was
    rintro ⟨rest, hrest⟩
    have hthere := hready.get?_temporary
    rw [← htemporary, ← hrest, hready.wellFormed.absent_below hd.absent] at hthere
    cases hthere

theorem SourceRoot.apart (hroot : SourceRoot h D root) (hd : Absent h dest D made)
    (hready : h.Ready) (compiler : Compiler) : ∃ R, Apart ⟨compiler, dest, D⟩ made root R ∧
      ∀ names f, made.tree.get? (R ++ names) = some (.file f) ↔
        h.tree.get? (R ++ names) = some (.file f) := by
  obtain ⟨R, hstat, hfree, hout⟩ := hroot
  obtain ⟨hmade, hgrown, -⟩ := hd.grown hready
  have hdirectory : made.directory = h.directory := by rw [hmade]
  have hR := Tree.get?_of_stat hready.wellFormed hready.directory hstat
  refine ⟨R, ⟨?_, hgrown.linkFree hfree, fun names hbelow => ?_⟩, fun names f => ⟨fun hf => ?_,
    fun hf => hgrown.partOf _ _ hf⟩⟩
  · rw [hdirectory]
    exact Tree.stat_of_partOf hstat hgrown.partOf
  · rcases List.prefix_or_prefix_of_prefix hbelow (List.prefix_append R names) with hin | hin
    · obtain ⟨rest, rfl⟩ := hin
      have hR : h.tree.get? (D ++ rest) = some .directory := hR
      rw [hready.wellFormed.absent_below hd.absent] at hR
      cases hR
    · exact hout hin
  · exact hgrown.of_ne_directory hf (by simp)

/-- Making the destination changes nothing about the files under a root. -/
theorem SourceRoot.produces_iff (hroot : SourceRoot h D root) (hd : Absent h dest D made)
    (hready : h.Ready) {dir : List String} {o n : String} :
    Produces made root dir o n ↔ Produces h root dir o n := by
  obtain ⟨hmade, hgrown, -⟩ := hd.grown hready
  have hdirectory : made.directory = h.directory := by rw [hmade]
  constructor
  · intro hp
    obtain ⟨R, ha, hfiles⟩ := hroot.apart hd hready default
    obtain ⟨hfits, f, hf⟩ := hp.file ha (hd.begins hready)
    refine ⟨hp.isName, ?_, hp.exported⟩
    obtain ⟨R', hstat', hfree', hout'⟩ := hroot
    have hsameR : R' = R := by
      have := Tree.stat_of_partOf hstat' hgrown.partOf
      rw [← hdirectory, ha.stat] at this
      cases this
      rfl
    subst hsameR
    rw [Tree.isFile_iff]
    refine ⟨_, f, (Tree.stat_names_iff hstat' (.refl h.tree) hready.wellFormed
      (Tree.get?_of_stat hready.wellFormed hready.directory hstat') hfree' hp.isName).mpr
      ⟨hfits, rfl, (hfiles _ _).mp hf⟩⟩
  · intro hp
    obtain ⟨loc, f, hstat⟩ := Tree.isFile_iff.mp hp.isFile
    refine ⟨hp.isName, ?_, hp.exported⟩
    rw [Tree.isFile_iff, hdirectory]
    exact ⟨loc, f, Tree.stat_of_partOf hstat hgrown.partOf⟩

/-- Exporting one root. -/
theorem root_exports {p p' : Pass} (hb : x.Begins h₁) (ha : x.Apart h₁ root R)
    (hu : x.Under h₁ p.host) (hrun : runFrom (x.root root) p = (.ok (), p')) :
    Effect x h₁ root [] p.host p'.host := by
  unfold Export.root at hrun
  obtain ⟨_, p₁, htell, hrun⟩ := runFrom_bind_ok.mp hrun
  rw [runFrom_tell, Prod.mk.injEq] at htell
  obtain ⟨-, rfl⟩ := htell
  refine walk_exports (p := { p with progress := p.progress ++ [.root root] }) hb ha ?_ hu hrun
  rw [List.append_nil]
  exact ha.location hb

/-- After an export of several roots, the place of an output holds what the last of its sources in
    the last root that has one is rendered as. -/
theorem roots_export {before after : List Path} {p p' : Pass} (hb : x.Begins h₁)
    (hroots : ∀ r ∈ before ++ root :: after, ∃ R, x.Apart h₁ r R) (hu : x.Under h₁ p.host)
    (hrun : runFrom ((before ++ root :: after).forM x.root) p = (.ok (), p'))
    {dir : List String} {o n : String} (hp : Produces h₁ root dir o n)
    (hlast : ∀ m, Produces h₁ root dir o m → m ≤ n)
    (hafter : ∀ r ∈ after, ∀ m, ¬ Produces h₁ r dir o m) :
    x.Under h₁ p'.host ∧ ∃ b, x.Rendered h₁ (descend root (dir ++ [n])) b ∧
      p'.host.Holds b (x.location ++ (dir ++ [o])) := by
  obtain ⟨q₁, q₂, hfirst, hstep, hrest⟩ := runFrom_forM_append hrun
  have hu₁ : x.Under h₁ q₁.host := by
    refine runFrom_forM (P := fun s => x.Under h₁ s.host) hfirst hu fun r hr s s' hs hone => ?_
    obtain ⟨R, ha⟩ := hroots r (List.mem_append_left _ hr)
    exact (root_exports hb ha hs hone).under
  obtain ⟨R, ha⟩ := hroots root (by simp)
  have heffect := root_exports hb ha hu₁ hstep
  obtain ⟨b, hrendered, hholds⟩ := heffect.makes dir o n hp hlast List.nil_prefix
  have hkept := runFrom_forM (P := fun s => x.Under h₁ s.host ∧
    s.host.Holds b (x.location ++ (dir ++ [o]))) hrest ⟨heffect.under, hholds⟩ ?_
  · exact ⟨hkept.1, b, hrendered, hkept.2⟩
  · rintro r hr s s' ⟨hs, hheld⟩ hone
    obtain ⟨R', ha'⟩ := hroots r (List.mem_append_right _ (List.mem_cons_of_mem _ hr))
    have hnext := root_exports hb ha' hs hone
    exact ⟨hnext.under, hnext.keeps dir o b (fun m hm => absurd hm (hafter r hr m)) hheld⟩

theorem tree_eq (roots : List Path) (dest : Path) (compiler : Compiler) (h : Host) :
    Export.tree roots dest compiler h =
      ((runFrom (Export.all roots dest compiler) ⟨h, default, []⟩).1,
        (runFrom (Export.all roots dest compiler) ⟨h, default, []⟩).2.progress,
        (runFrom (Export.all roots dest compiler) ⟨h, default, []⟩).2.host) := rfl

/-- What an export gives after its roots have been gone through. -/
def outcome (p : Pass) : Except Failure Unit → Except Failure Report × List Progress × Host
  | .ok () => (.ok p.report, p.progress ++ [.done p.report], p.host)
  | .error e => (.error e, p.progress, p.host)

theorem outcome_host (p : Pass) (result : Except Failure Unit) :
    (outcome p result).2.2 = p.host := by
  cases result <;> rfl

theorem outcome_failure? (p : Pass) (result : Except Failure Unit) :
    failure? (outcome p result).1 = failure? result := by
  cases result <;> rfl

/-- Without a destination nothing is exported. -/
theorem tree_unmade {e : Failure} (roots : List Path) (compiler : Compiler)
    (hdest : runFrom (makeDestination dest) h = (.error e, made)) :
    Export.tree roots dest compiler h = (.error e, [], made) := by
  have hall : runFrom (Export.all roots dest compiler) ⟨h, default, []⟩ =
      (.error e, ⟨made, default, []⟩) := by
    unfold Export.all
    rw [runFrom_bind, runFrom_export, hdest]
  rw [tree_eq, hall]

/-- An export makes its destination, and goes through its roots from there. -/
theorem tree_made {roots : List Path} {result : Except Failure Unit} {p : Pass}
    (hdest : runFrom (makeDestination dest) h = (.ok D, made))
    (hloop : runFrom (roots.forM (⟨compiler, dest, D⟩ : Export).root) ⟨made, default, []⟩ =
      (result, p)) : Export.tree roots dest compiler h = outcome p result := by
  have hall : runFrom (Export.all roots dest compiler) ⟨h, default, []⟩ =
      match result with
      | .error e => (.error e, p)
      | .ok () => (.ok p.report, { p with progress := p.progress ++ [.done p.report] }) := by
    unfold Export.all
    rw [runFrom_bind, runFrom_export, hdest]
    simp only [runFrom_bind, hloop]
    cases result <;> rfl
  rw [tree_eq, hall]
  cases result <;> rfl

/-- An export that succeeds has made its destination and exported every root. -/
theorem tree_exports {roots : List Path} {report : Report} {progress : List Progress} {h' : Host}
    (hd : Absent h dest D made)
    (hrun : Export.tree roots dest compiler h = (.ok report, progress, h')) :
    ∃ p : Pass, runFrom (roots.forM (⟨compiler, dest, D⟩ : Export).root) ⟨made, default, []⟩ =
      (.ok (), p) ∧ p.host = h' := by
  rcases hloop : runFrom (roots.forM (⟨compiler, dest, D⟩ : Export).root) ⟨made, default, []⟩ with
    ⟨result, p⟩
  rw [tree_made hd.makes hloop] at hrun
  cases result with
  | error e => cases hrun
  | ok =>
    cases hrun
    exact ⟨p, rfl, rfl⟩

/-- What an export that succeeds leaves at the place of an output. -/
theorem tree_ok {before after : List Path} {report : Report} {progress : List Progress} {h' : Host}
    (hready : h.Ready) (hd : Absent h dest D made)
    (hroots : ∀ r ∈ before ++ root :: after, SourceRoot h D r)
    (hrun : Export.tree (before ++ root :: after) dest compiler h = (.ok report, progress, h'))
    {dir : List String} {o n : String} (hp : Produces h root dir o n)
    (hlast : ∀ m, Produces h root dir o m → m ≤ n)
    (hafter : ∀ r ∈ after, ∀ m, ¬ Produces h r dir o m) :
    Under ⟨compiler, dest, D⟩ made h' ∧
      ∃ b, Rendered ⟨compiler, dest, D⟩ made (descend root (dir ++ [n])) b ∧
        h'.Holds b (D ++ (dir ++ [o])) := by
  obtain ⟨p, hloop, rfl⟩ := tree_exports hd hrun
  have hiff : ∀ r ∈ before ++ root :: after, ∀ m, Produces made r dir o m ↔ Produces h r dir o m :=
    fun r hr m => (hroots r hr).produces_iff hd hready
  refine roots_export (hd.begins hready) (fun r hr => ?_) (hd.begins hready).under hloop
    ((hiff root (by simp) n).mpr hp) (fun m hm => hlast m ((hiff root (by simp) m).mp hm))
    fun r hr m hm => hafter r hr m ((hiff r (List.mem_append_right _
      (List.mem_cons_of_mem _ hr)) m).mp hm)
  obtain ⟨R, ha, -⟩ := (hroots r hr).apart hd hready compiler
  exact ⟨R, ha⟩

/-- An export that succeeds has rendered every source under its roots. -/
theorem tree_renders {roots : List Path} {report : Report} {progress : List Progress} {h' : Host}
    (hready : h.Ready) (hd : Absent h dest D made) (hroots : ∀ r ∈ roots, SourceRoot h D r)
    (hrun : Export.tree roots dest compiler h = (.ok report, progress, h')) (hroot : root ∈ roots)
    {dir : List String} {o n : String} (hp : Produces h root dir o n) :
    ∃ b, Rendered ⟨compiler, dest, D⟩ made (descend root (dir ++ [n])) b := by
  obtain ⟨p, hloop, -⟩ := tree_exports hd hrun
  have hb : Begins ⟨compiler, dest, D⟩ made := hd.begins hready
  have hp' := ((hroots root hroot).produces_iff hd hready).mpr hp
  obtain ⟨before, after, rfl⟩ := List.append_of_mem hroot
  obtain ⟨q₁, q₂, hfirst, hstep, -⟩ := runFrom_forM_append hloop
  have hu : Under ⟨compiler, dest, D⟩ made q₁.host := by
    refine runFrom_forM (P := fun s => Under ⟨compiler, dest, D⟩ made s.host) hfirst hb.under
      fun r hr s s' hs hone => ?_
    obtain ⟨R, ha, -⟩ := (hroots r (List.mem_append_left _ hr)).apart hd hready compiler
    exact (root_exports hb ha hs hone).under
  obtain ⟨R, ha, -⟩ := (hroots root hroot).apart hd hready compiler
  exact (root_exports hb ha hu hstep).renders dir o n hp' List.nil_prefix

end Export

end AssetServer
