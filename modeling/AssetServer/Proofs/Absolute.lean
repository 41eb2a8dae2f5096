import AssetServer.Host
import AssetServer.Proofs.Lookup

/-!
# Absolute paths of executables

An executable is found from the working directory and started later from another one, by the
absolute path that is made of the path it was found by.

- `Tree.walk_respelled_last`: parts that lead nowhere may be left out in front of a last name.
- `Path.extends_joined` gives the steps of a path to which names are joined.
- `Tree.Starts` is an absolute path to where the lookups of a path start.
- `Tree.Executable` is an absolute path of an executable file, and `Host.absolute?_executable` says
  that making the path of one absolute gives such a path.
- `Host.locate?_executable`: what a lookup finds is such a path.
-/

namespace AssetServer

/-! ## §1 Lookups that end at a file -/

namespace Tree

variable {t : Tree} {links : Nat} {here loc : Location} {ps ps' : List String} {last : String}
  {f : RegularFile}

/-- What is looked up last, if it is a file, is a name. -/
theorem last_of_file (h : t.walk true links here (ps ++ [last]) = .ok (.taken loc (.file f))) :
    ¬ (last = "" ∨ last = ".") ∧ last ≠ ".." := by
  obtain ⟨dir, hdir⟩ := exists_directory_of_ok (by simp) h (.inr ⟨_, _, rfl⟩)
  obtain ⟨left, hleft⟩ := walk_directory hdir
  rw [hleft t (.refl t)] at h
  -- any other last part leads to a directory
  constructor
  · intro hskip
    rw [walk_skip hskip, walk_nil] at h
    cases h
  · rintro rfl
    rw [walk_up, walk_nil] at h
    cases h

/-- Parts that lead nowhere may be left out in front of a last name. -/
theorem walk_respelled_last {spot : Spot} (hlast : last ≠ "")
    (hsame : ps'.filter (fun part => part != "" && part != ".") =
      ps.filter fun part => part != "" && part != ".")
    (h : t.walk true links here (ps ++ [last]) = .ok spot) :
    t.walk true links here (ps' ++ [last]) = .ok spot := by
  fun_induction t.walk true links here ps generalizing ps' with
  | case1 links here =>
    -- all parts before the last one lead nowhere
    have hall : ∀ q ∈ ps', q = "" ∨ q = "." := by
      intro q hq
      have hnot := List.filter_eq_nil_iff.mp hsame q hq
      simpa [or_iff_not_imp_left] using hnot
    rwa [walk_skips hall]
  | case2 links here part rest hskip ih =>
    rw [List.cons_append, walk_skip hskip] at h
    refine ih ?_ h
    rw [hsame, List.filter_cons_of_neg]
    rcases hskip with rfl | rfl <;> simp
  | case3 links here rest hstep ih =>
    obtain ⟨junk, more, rfl, hjunk, hmore⟩ := exists_junk_of_filter hstep hsame
    rw [List.cons_append, walk_up] at h
    rw [List.append_assoc, walk_skips hjunk, List.cons_append, walk_up]
    exact ih hmore h
  | case4 links here part rest hstep hdown hlong =>
    rw [List.cons_append, walk_long hstep hdown hlong] at h
    cases h
  | case7 links here part rest hstep hdown hshort next hnext =>
    rename_i ih
    obtain ⟨junk, more, rfl, hjunk, hmore⟩ := exists_junk_of_filter hstep hsame
    rw [List.cons_append, walk_into ⟨hstep, hdown, hshort⟩ hnext] at h
    rw [List.append_assoc, walk_skips hjunk, List.cons_append,
      walk_into ⟨hstep, hdown, hshort⟩ hnext]
    exact ih hmore h
  | case8 links here part rest hstep hdown hshort next f hnext
  | case9 links here part rest hstep hdown hshort next f hnext =>
    rw [List.cons_append, walk_file ⟨hstep, hdown, hshort⟩ hnext, if_neg (by simp)] at h
    cases h
  | case10 links here part rest hstep hdown hshort next target hnext =>
    rename_i hstay
    simp at hstay
  | case11 here part rest hstep hdown hshort next target hnext =>
    rw [List.cons_append, walk_limit ⟨hstep, hdown, hshort⟩ hnext (by simp)] at h
    cases h
  | case12 here part rest hstep hdown hshort next target hnext hgo links start =>
    rename_i ih
    obtain ⟨junk, more, rfl, hjunk, hmore⟩ := exists_junk_of_filter hstep hsame
    rw [List.cons_append, walk_link ⟨hstep, hdown, hshort⟩ hnext (by simp),
      ← List.append_assoc] at h
    rw [List.append_assoc, walk_skips hjunk, List.cons_append,
      walk_link ⟨hstep, hdown, hshort⟩ hnext (by simp), ← List.append_assoc]
    refine ih ?_ h
    rw [List.filter_append, List.filter_append, hmore]
  -- nothing can follow a missing name but slashes
  | case5 links here part rest hstep hdown hshort next hnext
  | case6 links here part rest hstep hdown hshort next hnext =>
    rw [List.cons_append, walk_missing ⟨hstep, hdown, hshort⟩ hnext, if_neg (by simp [hlast])] at h
    cases h

end Tree

/-! ## §2 Names joined to a path -/

namespace Path

variable {p : Path} {n : String} {names : List String}

/-- What a path keeps when names are joined to it. -/
structure Extends (p : Path) (names : List String) (q : Path) : Prop where
  stem : q.stem = p.stem ++ names
  nonempty : q.text ≠ ""
  ends : names ≠ [] → q.text.toList.getLast? ≠ some '/'
  absolute : q.isAbsolute = p.isAbsolute
  no_nul : '\x00' ∉ p.text.toList → (∀ n ∈ names, '\x00' ∉ n.toList) → '\x00' ∉ q.text.toList

theorem extends_join (hp : p.text ≠ "") (hn : n ≠ "") (hslash : '/' ∉ n.toList) :
    Extends p [n] (p.join n) := by
  have htext := join_text (name_head hslash) hp
  have hne : n.toList ≠ [] := by simpa using hn
  have hlast : n.toList.getLast? ≠ some '/' := fun h => hslash (List.mem_of_getLast? h)
  have hends : (p.join n).text.toList.getLast? ≠ some '/' := by
    rw [htext]
    split
    · rwa [List.getLast?_append_of_ne_nil _ hne]
    · rwa [List.append_cons, List.getLast?_append_of_ne_nil _ hne]
  refine ⟨?_, ?_, fun _ => hends, join_isAbsolute hp hslash, ?_⟩
  -- the joined path ends in the name, so its stem is all of its steps
  · unfold Path.stem
    rw [if_neg hends]
    exact steps_join hp hslash
  · intro hempty
    rw [hempty] at htext
    split at htext <;> simp_all
  · intro hnul hnames
    have hn := hnames n (by simp)
    rw [htext]
    split
    · simp [hnul, hn]
    · simp [hnul, hn]

theorem extends_joined (hp : p.text ≠ "") (hnames : ∀ n ∈ names, n ≠ "" ∧ '/' ∉ n.toList) :
    Extends p names (names.foldl join p) := by
  induction names generalizing p with
  | nil => exact ⟨by simp, hp, by simp, rfl, fun hnul _ => hnul⟩
  | cons n rest ih =>
    obtain ⟨hn, hslash⟩ := hnames n (by simp)
    have hfirst := extends_join hp hn hslash
    have hrest := ih hfirst.nonempty fun m hm => hnames m (by simp [hm])
    refine ⟨?_, hrest.nonempty, fun _ => ?_, hrest.absolute.trans hfirst.absolute, ?_⟩
    · rw [List.foldl_cons, hrest.stem, hfirst.stem, List.append_assoc, List.singleton_append]
    · by_cases hnil : rest = []
      · subst hnil
        exact hfirst.ends (by simp)
      · exact hrest.ends hnil
    · intro hnul hall
      exact hrest.no_nul (hfirst.no_nul hnul (by simp [hall n])) fun m hm => hall m (by simp [hm])

/-- The steps of a path to which names are joined. -/
theorem Extends.steps {q : Path} (h : Extends p names q) (hne : names ≠ []) :
    q.steps = p.stem ++ names := by
  rw [← h.stem]
  unfold Path.stem
  rw [if_neg (h.ends hne)]

theorem foldl_components (p start : Path) :
    (p.components.filter fun c => c != .root && c != .here).foldl
      (fun acc c => acc.join c.text) start = p.moves.foldl join start := by
  have hanchor : (fun c : Component => c != .root && c != .here) = fun c => !isAnchor c := by
    funext c
    unfold isAnchor
    rw [Bool.not_or]
    rfl
  have htext : ∀ part : List Char, (Component.ofPart part).text = String.ofList part := by
    intro part
    unfold Component.ofPart
    split_ifs with hup
    · rw [hup]
      rfl
    · rfl
  rw [hanchor, (filter_components p).2, moves, List.foldl_map, List.foldl_map]
  simp only [htext]

/-- A path is made absolute by joining its moves to the root, or to the directory it is seen from. -/
theorem absolute?_joined {q cwd : Path} (hne : p.text ≠ "")
    (hlast : p.text.toList.getLast? ≠ some '/') (h : p.absolute? cwd = some q) :
    ∃ start, q = p.moves.foldl join start ∧
      (p.isAbsolute = true ∧ (start = ⟨"/"⟩ ∨ start = ⟨"//"⟩) ∨
        p.isAbsolute = false ∧ start = cwd) := by
  unfold absolute? at h
  simp only at h
  rw [if_neg (by simpa using hne), foldl_components, if_neg hlast, Option.some.injEq] at h
  refine ⟨_, h.symm, ?_⟩
  split_ifs with habs hslashes
  · exact .inl ⟨habs, .inr rfl⟩
  · exact .inl ⟨habs, .inl rfl⟩
  · exact .inr ⟨by simpa using habs, rfl⟩

/-- The path of a location is made by joining the names that lead there to the root. -/
theorem ofNames_eq_joined (hnames : ∀ n ∈ names, IsName n) :
    ofNames names = names.foldl join ⟨"/"⟩ := by
  have hroot : (⟨"/"⟩ : Path).text ≠ "" := by decide
  cases names with
  | nil => rfl
  | cons n rest =>
    -- a list of names does not start with a slash, so joining it is joining its names
    have hhead := head?_intercalate fun m hm => ⟨(hnames m hm).ne_empty, (hnames m hm).no_slash⟩
    have hdescend := join_intercalate hroot hnames
    unfold join at hdescend
    rw [if_neg hhead, if_pos (.inr rfl)] at hdescend
    exact hdescend

/-- The path of a location has the steps of the names that lead there. -/
theorem ofNames_joined (hnames : ∀ n ∈ names, IsName n) :
    Extends ⟨"/"⟩ names (ofNames names) := by
  rw [ofNames_eq_joined hnames]
  exact extends_joined (by decide) fun n hn => ⟨(hnames n hn).ne_empty, (hnames n hn).no_slash⟩

end Path

/-! ## §3 Executables -/

/-- An absolute path that leads from the root to a regular file that may be executed. It does so from
    every directory, unless it is longer than a lookup allows. -/
structure Tree.Executable (t : Tree) (p : Path) : Prop where
  absolute : p.isAbsolute = true
  leads : ∃ loc f, t.walk true maxLinks [] p.steps = .ok (.taken loc (.file f)) ∧
    f.executable = true
  found : ∀ cwd, Fits p → t.isExecutable cwd p = true

namespace Tree

variable {t : Tree} {cwd loc : Location} {p q : Path} {f : RegularFile}

/-- The last step of a path to a file is a name, and nothing follows it. -/
theorem exists_last (h : t.stat cwd p = .ok (loc, .file f)) : ∃ init last,
    p.steps = init ++ [last] ∧ ¬ (last = "" ∨ last = ".") ∧
      p.text.toList.getLast? ≠ some '/' := by
  obtain ⟨-, -, -, hwalk⟩ := find_ok (stat_ok_iff.mp h)
  rcases List.eq_nil_or_concat p.steps with hnil | ⟨init, last, hsteps⟩
  · rw [hnil, walk_nil] at hwalk
    cases hwalk
  · rw [List.concat_eq_append] at hsteps
    rw [hsteps] at hwalk
    obtain ⟨hlast, -⟩ := last_of_file hwalk
    refine ⟨init, last, hsteps, hlast, fun hslash => hlast (.inl ?_)⟩
    -- behind a slash at the end there is an empty part
    have hempty : p.steps = (Text.split '/' p.text.toList.dropLast).map String.ofList ++ [""] := by
      simp [Path.steps, Text.parts, (Path.split_of_getLast hslash).2]
    rw [hsteps] at hempty
    simpa using (List.append_inj' hempty rfl).2

/-- The moves of a path to a file lead to this file. -/
theorem walk_moves (h : t.stat cwd p = .ok (loc, .file f)) :
    p.moves ≠ [] ∧ t.walk true maxLinks (startOf cwd p) p.moves = .ok (.taken loc (.file f)) := by
  obtain ⟨-, -, -, hwalk⟩ := find_ok (stat_ok_iff.mp h)
  obtain ⟨init, last, hsteps, hlast, -⟩ := exists_last h
  have hmoves : p.moves = init.filter (fun part => part != "" && part != ".") ++ [last] := by
    rw [not_or] at hlast
    rw [Path.moves_eq_filter, hsteps, List.filter_append]
    simp [hlast.1, hlast.2]
  rw [hmoves]
  refine ⟨by simp, ?_⟩
  rw [hsteps] at hwalk
  apply walk_respelled_last _ _ hwalk
  · exact fun hempty => hlast (.inl hempty)
  · rw [List.filter_filter]
    simp

/-- A move of a path is a part that can be joined to another path. -/
theorem clean_moves (hnul : '\x00' ∉ p.text.toList) :
    ∀ n ∈ p.moves, (n ≠ "" ∧ '/' ∉ n.toList) ∧ '\x00' ∉ n.toList := by
  intro n hn
  rw [Path.moves_eq_filter, List.mem_filter] at hn
  have hclean : Clean p.steps := clean_parts hnul
  obtain ⟨hslash, hnul⟩ := hclean n hn.1
  exact ⟨⟨fun hempty => by simp [hempty] at hn, hslash⟩, hnul⟩

/-- An absolute path to the directory in which the lookups of another path start. -/
structure Starts (t : Tree) (cwd : Location) (p start : Path) : Prop where
  absolute : start.isAbsolute = true
  no_nul : '\x00' ∉ start.text.toList
  nonempty : start.text ≠ ""
  leads : ∀ rest, t.walk true maxLinks [] (start.stem ++ rest) =
    t.walk true maxLinks (startOf cwd p) rest

theorem starts_root (habs : p.isAbsolute = true) : t.Starts cwd p ⟨"/"⟩ := by
  have hstem : (⟨"/"⟩ : Path).stem = [""] := by decide
  refine ⟨by decide, by decide, by decide, fun rest => ?_⟩
  rw [hstem, walk_skips (by simp), startOf, if_pos habs]

theorem starts_slashes (habs : p.isAbsolute = true) : t.Starts cwd p ⟨"//"⟩ := by
  have hstem : (⟨"//"⟩ : Path).stem = ["", ""] := by decide
  refine ⟨by decide, by decide, by decide, fun rest => ?_⟩
  rw [hstem, walk_skips (by simp), startOf, if_pos habs]

/-- The names of the working directory lead to it from the root, since none of them is a link. -/
theorem starts_directory (hwf : t.WellFormed) (hcwd : t.get? cwd = some .directory)
    (habs : p.isAbsolute = false) : t.Starts cwd p (Path.ofNames cwd) := by
  have hthere : t.get? ([] ++ cwd) = some .directory := by simpa using hcwd
  have hnames : ∀ n ∈ cwd, IsName n := hwf.names hthere
  have hjoined := Path.ofNames_joined hnames
  have hroot : (⟨"/"⟩ : Path).stem = [""] := by decide
  refine ⟨hjoined.absolute.trans (by decide), ?_, hjoined.nonempty, fun rest => ?_⟩
  · exact hjoined.no_nul (by decide) fun n hn => (hnames n hn).no_nul
  · rw [hjoined.stem, hroot, List.singleton_append, List.cons_append, walk_skip (.inl rfl),
      walk_directories hwf hthere, startOf, if_neg (by simp [habs]), List.nil_append]

/-- An absolute path with the moves of a path to a file leads to this file. -/
theorem walk_absolute (hwf : t.WellFormed) (hcwd : t.get? cwd = some .directory)
    (h : t.stat cwd p = .ok (loc, .file f)) (hq : p.absolute? (Path.ofNames cwd) = some q) :
    q.isAbsolute = true ∧ '\x00' ∉ q.text.toList ∧ q.text ≠ "" ∧
      t.walk true maxLinks [] q.steps = .ok (.taken loc (.file f)) := by
  obtain ⟨hnul, hne, -, -⟩ := find_ok (stat_ok_iff.mp h)
  obtain ⟨-, -, -, -, hends⟩ := exists_last h
  obtain ⟨hsome, hwalk⟩ := walk_moves h
  have hparts := clean_moves hnul
  obtain ⟨start, rfl, hcases⟩ := Path.absolute?_joined hne hends hq
  have hstart : t.Starts cwd p start := by
    rcases hcases with ⟨habs, rfl | rfl⟩ | ⟨habs, rfl⟩
    · exact starts_root habs
    · exact starts_slashes habs
    · exact starts_directory hwf hcwd habs
  have hjoined := Path.extends_joined hstart.nonempty fun n hn => (hparts n hn).1
  refine ⟨hjoined.absolute.trans hstart.absolute, ?_, hjoined.nonempty, ?_⟩
  · exact hjoined.no_nul hstart.no_nul fun n hn => (hparts n hn).2
  · rw [hjoined.steps hsome, hstart.leads, hwalk]

end Tree

namespace Host

variable {k : Host} {p q program : Path}

/-- Making the path of an executable absolute gives an absolute path of an executable. -/
theorem absolute?_executable (hwf : k.tree.WellFormed)
    (hcwd : k.tree.get? k.directory = some .directory)
    (hp : k.tree.isExecutable k.directory p = true) (hq : k.absolute? p = some q) :
    k.tree.Executable q := by
  obtain ⟨loc, f, hstat, hf⟩ := Tree.isExecutable_iff.mp hp
  obtain ⟨habs, hnul, hne, hwalk⟩ := Tree.walk_absolute hwf hcwd hstat hq
  refine ⟨habs, ⟨loc, f, hwalk, hf⟩, fun cwd hfits => ?_⟩
  refine Tree.isExecutable_iff.mpr ⟨loc, f, ?_, hf⟩
  rw [Tree.stat_ok_iff, Tree.find_eq_walk hnul hne hfits, Tree.startOf, if_pos habs]
  exact hwalk

/-- What is found for a program is an absolute path of an executable, whether the program is named by
    a path of several steps or searched for. -/
theorem locate?_executable (hwf : k.tree.WellFormed)
    (hcwd : k.tree.get? k.directory = some .directory) (h : k.locate? program = some q) :
    k.tree.Executable q := by
  unfold locate? at h
  simp only [Option.bind_eq_some_iff] at h
  obtain ⟨p, hfound, hq⟩ := h
  refine absolute?_executable hwf hcwd ?_ hq
  split_ifs at hfound with hseveral hexec
  · cases hfound
    exact hexec
  · obtain ⟨dirs, -, hfind⟩ := Option.bind_eq_some_iff.mp hfound
    exact List.find?_some hfind

end Host

end AssetServer
