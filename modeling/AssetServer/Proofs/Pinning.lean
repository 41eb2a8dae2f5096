import AssetServer.Proofs.Vantage

/-!
# Pinned pipelines

Pinning replaces the program of every stage by the absolute path of an executable. The path names the
same file from everywhere, so a second pass finds each stage where the first one left it.

- `Path.fileName_eq_some_iff`: the file name of a path is its last step, if that is a name.
- `Path.Tidy` is the form that absolute paths have once they are made absolute; making such a path
  absolute again leaves it as it is (`Path.Tidy.absolute?_self`).
- `Host.Finds` says which file a lookup finds for a program, `Host.locate?_eq_some_iff` that this is
  what `Host.locate?` makes absolute.
- `Pipeline.Pinned` relates a stage to what it is pinned to.
- `Pipeline.resolveTools_pins` puts these together for a pipeline.
-/

namespace AssetServer

namespace Path

variable {p q dir cwd start : Path} {n last : String} {init names : List String}

/-! ## §1 The last step -/

/-- The file name of a path is its last step, if that is a name. -/
theorem fileName_eq_some_iff : p.fileName = some n ↔ p.components.getLast? = some (.name n) := by
  have hanchor : p.components = p.anchor ++ (p.parts.filter isStep).map Component.ofPart := rfl
  rcases List.eq_nil_or_concat p.parts with hnil | ⟨before, part, hparts⟩
  · have hlast : p.anchor.getLast? ≠ some (.name n) := by
      unfold anchor
      split <;> simp
    simp [fileName, hnil, hanchor, hlast]
  · rw [List.concat_eq_append] at hparts
    have hpart : p.parts.getLast? = some part := by simp [hparts]
    -- what is left when the parts are trimmed ends in a step
    have hstep : isStep part = true := trimParts_last hpart
    rw [fileName, hpart, hanchor, hparts]
    simp only [List.filter_append, List.filter_cons_of_pos hstep, List.filter_nil,
      List.map_append, List.map_cons, List.map_nil, ← List.append_assoc, List.getLast?_concat]
    unfold Component.ofPart
    split <;> simp

/-- A last part that is a name is the last step. -/
theorem fileName_of_steps (hsteps : p.steps = init ++ [last])
    (hname : ¬ (last = "" ∨ last = ".") ∧ last ≠ "..") : p.fileName = some last := by
  obtain ⟨hstep, hdown⟩ := hname
  rw [not_or] at hstep
  -- only empty parts and dots are dropped, so the last step is the last move
  have hmoves : p.moves = init.filter (fun part => part != "" && part != ".") ++ [last] := by
    rw [moves_eq_filter, hsteps, List.filter_append]
    simp [hstep.1, hstep.2]
  have hparts : (stepsOf p.text.toList).map Component.ofPart =
      p.moves.map fun part => Component.ofPart part.toList := by
    simp [moves, Function.comp_def]
  have hlast : Component.ofPart last.toList = .name last := by
    unfold Component.ofPart
    rw [if_neg, String.ofList_toList]
    intro hup
    exact hdown (String.toList_injective hup)
  rw [fileName_eq_some_iff, components_eq, hparts, hmoves, List.map_append, List.map_cons, hlast]
  simp [← List.append_assoc]

/-- The parts of what is joined to a path come last. -/
theorem exists_steps_join (dir p : Path) : ∃ front, (dir.join p.text).steps = front ++ p.steps := by
  have hcut : ∀ front : List Char, (⟨String.ofList (front ++ '/' :: p.text.toList)⟩ : Path).steps =
      (Text.split '/' front).map String.ofList ++ p.steps := by
    intro front
    simp [steps, Text.parts, Text.split_append]
  unfold join
  split_ifs with habs hend
  · exact ⟨[], rfl⟩
  · rcases hend with hempty | hslash
    · refine ⟨[], ?_⟩
      have hdir : dir.text = "" := by simpa using hempty
      simp [hdir]
    · -- the slash at the end of the directory stands between the two
      obtain ⟨hdir, -⟩ := split_of_getLast hslash
      have htext : dir.text ++ p.text =
          String.ofList (dir.text.toList.dropLast ++ '/' :: p.text.toList) := by
        apply String.toList_injective
        rw [String.toList_append, hdir]
        simp
      exact ⟨_, htext ▸ hcut _⟩
  · have htext : dir.text ++ "/" ++ p.text =
        String.ofList (dir.text.toList ++ '/' :: p.text.toList) := by
      apply String.toList_injective
      simp
    exact ⟨_, htext ▸ hcut _⟩

/-- Names of steps all lead somewhere. -/
theorem filter_steps (hnames : ∀ n ∈ names, isStep n.toList = true) :
    (names.filter fun part => part != "" && part != ".") = names := by
  apply List.filter_eq_self.mpr
  intro n hn
  have hstep := hnames n hn
  have hhere : n ≠ "." := by
    rintro rfl
    exact absurd hstep (by decide)
  simp [ne_empty_of_isStep hstep, hhere]

/-- What is joined to a path ends in the last part that it has on its own. -/
theorem steps_of_join (h : (dir.join p.text).steps = init ++ [last]) :
    ∃ init', p.steps = init' ++ [last] := by
  obtain ⟨front, hfront⟩ := exists_steps_join dir p
  rcases List.eq_nil_or_concat p.steps with hnil | ⟨init', part, hparts⟩
  · exact absurd hnil (by simp [steps, Text.parts, Text.split_ne_nil])
  · rw [List.concat_eq_append] at hparts
    rw [hfront, hparts, ← List.append_assoc] at h
    obtain rfl : part = last := by simpa using (List.append_inj' h rfl).2
    exact ⟨init', hparts⟩

/-! ## §2 Absolute paths -/

/-- One slash or two, and after it the names of steps, with one slash between each two. -/
def Tidy (q : Path) : Prop :=
  ∃ start names, (start = ⟨"/"⟩ ∨ start = ⟨"//"⟩) ∧ names ≠ [] ∧
    (∀ n ∈ names, isStep n.toList = true ∧ '/' ∉ n.toList) ∧ q = names.foldl join start

/-- What is made absolute, as it is seen from the path of a directory, is tidy. -/
theorem tidy_absolute? {names : List String} (hnames : ∀ n ∈ names, IsName n) (hp : p.text ≠ "")
    (hlast : p.text.toList.getLast? ≠ some '/') (hmoves : p.moves ≠ [])
    (h : p.absolute? (ofNames names) = some q) : q.Tidy := by
  obtain ⟨start, rfl, ⟨-, hstart⟩ | ⟨-, rfl⟩⟩ := absolute?_joined hp hlast h
  · exact ⟨start, p.moves, hstart, hmoves, moves_steps, rfl⟩
  · refine ⟨⟨"/"⟩, names ++ p.moves, .inl rfl, by simp [hmoves], ?_, ?_⟩
    · intro n hn
      rcases List.mem_append.mp hn with hn | hn
      · exact ⟨isStep_name (hnames n hn), (hnames n hn).no_slash⟩
      · exact moves_steps n hn
    · rw [List.foldl_append, ofNames_eq_joined hnames]

namespace Tidy

/-- The parts of a tidy path. -/
theorem exists_steps (h : q.Tidy) : ∃ start n rest,
    (start = ⟨"/"⟩ ∧ q.steps = "" :: n :: rest ∨ start = ⟨"//"⟩ ∧ q.steps = "" :: "" :: n :: rest) ∧
      (∀ m ∈ n :: rest, isStep m.toList = true ∧ '/' ∉ m.toList) ∧
      Extends start (n :: rest) q ∧ q = (n :: rest).foldl join start := by
  obtain ⟨start, names, hstart, hne, hnames, rfl⟩ := h
  obtain ⟨n, rest, rfl⟩ := List.exists_cons_of_ne_nil hne
  have hparts : ∀ m ∈ n :: rest, m ≠ "" ∧ '/' ∉ m.toList :=
    fun m hm => ⟨ne_empty_of_isStep (hnames m hm).1, (hnames m hm).2⟩
  rcases hstart with rfl | rfl
  · have hstem : (⟨"/"⟩ : Path).stem = [""] := by decide
    have hjoined := extends_joined (p := ⟨"/"⟩) (by decide) hparts
    exact ⟨_, n, rest, .inl ⟨rfl, by rw [hjoined.steps hne, hstem]; rfl⟩, hnames, hjoined, rfl⟩
  · have hstem : (⟨"//"⟩ : Path).stem = ["", ""] := by decide
    have hjoined := extends_joined (p := ⟨"//"⟩) (by decide) hparts
    exact ⟨_, n, rest, .inr ⟨rfl, by rw [hjoined.steps hne, hstem]; rfl⟩, hnames, hjoined, rfl⟩

/-- A name and what follows it do not begin with a slash. -/
theorem exists_unite (rest : List String) (hn : isStep n.toList = true ∧ '/' ∉ n.toList) :
    ∃ c more, Text.unite '/' ((n :: rest).map String.toList) = c :: more ∧ c ≠ '/' := by
  have hne : n.toList ≠ [] := by simpa using ne_empty_of_isStep hn.1
  obtain ⟨c, more, hcs⟩ := List.exists_cons_of_ne_nil hne
  have hc : c ≠ '/' := by
    rintro rfl
    exact hn.2 (by simp [hcs])
  cases rest with
  | nil => exact ⟨c, more, by simp [Text.unite, hcs], hc⟩
  | cons m names => exact ⟨c, _, by simp [Text.unite, hcs]; rfl, hc⟩

theorem unite_steps (q : Path) : Text.unite '/' (q.steps.map String.toList) = q.text.toList := by
  simp [steps, Text.parts, Function.comp_def, Text.unite_split]

/-- Making a tidy path absolute leaves it as it is, wherever it is seen from. -/
theorem absolute?_self (h : q.Tidy) (cwd : Path) : q.absolute? cwd = some q := by
  obtain ⟨start, n, rest, hcases, hnames, hextends, hq⟩ := h.exists_steps
  obtain ⟨c, more, htail, hc⟩ := exists_unite rest (hnames n (by simp))
  have hmoves := filter_steps fun m hm => (hnames m hm).1
  have hends := hextends.ends (by simp)
  unfold absolute?
  simp only
  rw [if_neg (by simpa using hextends.nonempty), foldl_components, if_neg hends, moves_eq_filter]
  -- the text begins with as many slashes as the start has
  rcases hcases with ⟨rfl, hsteps⟩ | ⟨rfl, hsteps⟩
  · have htext : q.text.toList = '/' :: c :: more := by
      rw [← unite_steps, hsteps, List.map_cons, List.map_cons, Text.unite, ← List.map_cons, htail]
      rfl
    have habs : q.isAbsolute = true := by simp [isAbsolute, htext]
    rw [if_pos habs, if_neg (by simp [htext, hc]), hsteps,
      List.filter_cons_of_neg (by decide), hmoves, ← hq]
  · have htext : q.text.toList = '/' :: '/' :: c :: more := by
      rw [← unite_steps, hsteps, List.map_cons, List.map_cons, List.map_cons, Text.unite,
        Text.unite, ← List.map_cons, htail]
      rfl
    have habs : q.isAbsolute = true := by simp [isAbsolute, htext]
    rw [if_pos habs, if_pos (by simp [htext, hc]), hsteps,
      List.filter_cons_of_neg (by decide), List.filter_cons_of_neg (by decide), hmoves, ← hq]

/-- A tidy path has more steps than one, the root and a name. -/
theorem one_lt_components (h : q.Tidy) : 1 < q.components.length := by
  obtain ⟨start, n, rest, hcases, hnames, -, rfl⟩ := h.exists_steps
  have hroot : start.text ≠ "" ∧ start.components = [.root] := by
    rcases hcases with ⟨rfl, -⟩ | ⟨rfl, -⟩ <;> decide
  rw [components_joined hroot.1 hnames, hroot.2]
  simp

end Tidy

end Path

/-! ## §3 What a lookup finds -/

namespace Host

variable {h k : Host} {program file q : Path}

/-- The file that is found for a program: a path of several steps stands for itself, and a bare name
    for the file of that name in the first directory of the search path that has an executable one.
    Both are seen from the working directory. -/
inductive Finds (h : Host) (program : Path) : Path → Prop where
  | given (hseveral : 1 < program.components.length)
      (hexec : h.tree.isExecutable h.directory program = true) : Finds h program program
  | searched {text dir : String} {before after : List String}
      (hbare : program.components.length ≤ 1) (hpath : h.environment.lookup "PATH" = some text)
      (hdirs : Text.parts ':' text = before ++ dir :: after)
      (hbefore : ∀ d ∈ before,
        h.tree.isExecutable h.directory ((Path.mk d).join program.text) = false)
      (hexec : h.tree.isExecutable h.directory ((Path.mk dir).join program.text) = true) :
      Finds h program ((Path.mk dir).join program.text)

theorem found?_eq_some_iff : h.found? program = some file ↔ h.Finds program file := by
  unfold found?
  split_ifs with hseveral hexec
  · constructor
    · rintro ⟨⟩
      exact .given hseveral hexec
    · rintro (_ | ⟨hbare, -, -, -, -⟩)
      · rfl
      · omega
  · constructor
    · rintro ⟨⟩
    · rintro (⟨-, hexec'⟩ | ⟨hbare, -, -, -, -⟩)
      · exact absurd hexec' hexec
      · omega
  -- a bare name is looked for in the directories of the search path, first to last
  · unfold searchPath? setting?
    constructor
    · intro hfind
      obtain ⟨dirs, hdirs, hfind⟩ := Option.bind_eq_some_iff.mp hfind
      obtain ⟨text, htext, rfl⟩ := Option.map_eq_some_iff.mp hdirs
      rw [List.map_map, List.find?_map, Option.map_eq_some_iff] at hfind
      obtain ⟨dir, hdir, rfl⟩ := hfind
      obtain ⟨hexec, before, after, hparts, hbefore⟩ := List.find?_eq_some_iff_append.mp hdir
      refine .searched (by omega) htext hparts (fun d hd => ?_) hexec
      simpa using hbefore d hd
    · rintro (⟨hmany, -⟩ | ⟨-, hpath, hdirs, hbefore, hexec⟩)
      · exact absurd hmany hseveral
      · rw [hpath, Option.map_some, Option.bind_some, List.map_map, List.find?_map, hdirs,
          Option.map_eq_some_iff]
        refine ⟨_, List.find?_eq_some_iff_append.mpr ⟨hexec, _, _, rfl, fun d hd => ?_⟩, rfl⟩
        simpa using hbefore d hd

theorem locate?_eq_some_iff : h.locate? program = some q ↔
    ∃ file, h.Finds program file ∧ h.absolute? file = some q := by
  simp only [locate?_eq, Option.bind_eq_some_iff, found?_eq_some_iff]

theorem Finds.executable (hfinds : h.Finds program file) :
    h.tree.isExecutable h.directory file = true := by
  cases hfinds with
  | given _ hexec => exact hexec
  | searched _ _ _ _ hexec => exact hexec

/-- Nothing is located for a program exactly if no file is found. -/
theorem locate?_eq_none_iff : h.locate? program = none ↔ ∀ file, ¬ h.Finds program file := by
  constructor
  · intro hnone file hfinds
    obtain ⟨loc, f, hstat, -⟩ := Tree.isExecutable_iff.mp hfinds.executable
    obtain ⟨-, hne, -, -⟩ := Tree.find_ok (Tree.stat_ok_iff.mp hstat)
    obtain ⟨q, hq⟩ : ∃ q, h.absolute? file = some q := Path.exists_absolute hne
    rw [locate?_eq_some_iff.mpr ⟨file, hfinds, hq⟩] at hnone
    cases hnone
  · intro hmissing
    rw [Option.eq_none_iff_forall_ne_some]
    intro q hq
    obtain ⟨file, hfinds, -⟩ := locate?_eq_some_iff.mp hq
    exact hmissing file hfinds

/-- What is found for a program has the file name of the program. -/
theorem Finds.fileName (hfinds : h.Finds program file) :
    ∃ n, program.fileName = some n ∧ file.fileName = some n := by
  obtain ⟨loc, f, hstat, -⟩ := Tree.isExecutable_iff.mp hfinds.executable
  obtain ⟨-, -, -, hwalk⟩ := Tree.find_ok (Tree.stat_ok_iff.mp hstat)
  obtain ⟨init, last, hsteps, -⟩ := Tree.exists_last hstat
  have hname : ¬ (last = "" ∨ last = ".") ∧ last ≠ ".." :=
    Tree.last_of_file (hsteps ▸ hwalk)
  refine ⟨last, ?_, Path.fileName_of_steps hsteps hname⟩
  cases hfinds with
  | given => exact Path.fileName_of_steps hsteps hname
  | searched =>
    obtain ⟨init', hprogram⟩ := Path.steps_of_join hsteps
    exact Path.fileName_of_steps hprogram hname

/-- The absolute form of a path to a file: it has the steps that the path has as it is seen from the
    working directory, and it leads to the file from everywhere. -/
structure AbsoluteForm (h : Host) (file q : Path) : Prop where
  made : h.absolute? file = some q
  absolute : q.isAbsolute = true
  components : q.components = (h.workingPath.join file.text).components
  leads : ∃ loc f, h.tree.stat h.directory file = .ok (loc, .file f) ∧ f.executable = true ∧
    h.tree.walk true Tree.maxLinks [] q.steps = .ok (.taken loc (.file f))

/-- What is found for a program has an absolute form, which is tidy and keeps the file name. -/
theorem Finds.absoluteForm (hfinds : h.Finds program file) (hwf : h.tree.WellFormed)
    (hcwd : h.tree.get? h.directory = some .directory) (hq : h.absolute? file = some q) :
    h.AbsoluteForm file q ∧ q.Tidy ∧ q.fileName = program.fileName := by
  obtain ⟨loc, f, hstat, hf⟩ := Tree.isExecutable_iff.mp hfinds.executable
  obtain ⟨habs, -, -, hwalk⟩ := Tree.walk_absolute hwf hcwd hstat hq
  have hcomponents := Path.components_absolute h.workingPath_ne_empty hq
  refine ⟨⟨hq, habs, hcomponents, loc, f, hstat, hf, hwalk⟩, ?_, ?_⟩
  · obtain ⟨-, hne, -, -⟩ := Tree.find_ok (Tree.stat_ok_iff.mp hstat)
    obtain ⟨-, -, -, -, hends⟩ := Tree.exists_last hstat
    have hthere : h.tree.get? ([] ++ h.directory) = some .directory := by simpa using hcwd
    exact Path.tidy_absolute? (hwf.names hthere) hne hends (Tree.walk_moves hstat).1 hq
  -- the name of the file is the last component, which stays when dots are dropped
  · obtain ⟨n, hprogram, hfile⟩ := hfinds.fileName
    rw [hprogram, Path.fileName_eq_some_iff, hcomponents,
      Path.components_seen h.workingPath_ne_empty]
    have hlast := Path.fileName_eq_some_iff.mp hfile
    split_ifs
    · exact hlast
    · obtain ⟨front, hfront⟩ := List.getLast?_eq_some_iff.mp hlast
      rw [hfront, List.filter_append, List.filter_cons_of_pos rfl, List.filter_nil,
        ← List.append_assoc, List.getLast?_concat]

/-- A tidy path to an executable is located as it is, if it is no longer than a path may be, by every
    host with the same files. -/
theorem locate?_self (htree : k.tree = h.tree) (htidy : q.Tidy) (hexec : h.tree.Executable q) :
    k.locate? q = some q ↔ Tree.Fits q := by
  rw [locate?_eq_some_iff]
  constructor
  · rintro ⟨file, hfinds, -⟩
    cases hfinds with
    | given _ hfound =>
      obtain ⟨loc, f, hstat, -⟩ := Tree.isExecutable_iff.mp hfound
      exact Tree.fits_of_stat hstat
    | searched hbare => exact absurd htidy.one_lt_components (Nat.not_lt.mpr hbare)
  · intro hfits
    refine ⟨q, .given htidy.one_lt_components ?_, htidy.absolute?_self _⟩
    rw [htree]
    exact hexec.found _ hfits

end Host

/-! ## §4 Pinned stages -/

namespace Pipeline

variable {h k : Host} {c stage : Command} {cs stages : List Command} {e : Failure}

/-- A stage is a command that runs the absolute form of the file that is found for its program, and is
    the same command otherwise, with the same name. -/
structure Pinned (h : Host) (c stage : Command) : Prop where
  program : ∃ file, h.Finds c.program file ∧ h.AbsoluteForm file stage.program
  rest : stage = { c with program := stage.program }
  name : stage.name = c.name

theorem name_withProgram {path : Path} (hname : path.fileName = c.program.fileName)
    (hsome : c.program.fileName ≠ none) : (c.withProgram path).name = c.name := by
  obtain ⟨n, hn⟩ := Option.ne_none_iff_exists'.mp hsome
  unfold Command.name Command.withProgram
  simp only [hname, hn, Option.getD_some]

theorem Pins.pinned (hpins : Pins h c stage) (hwf : h.tree.WellFormed)
    (hcwd : h.tree.get? h.directory = some .directory) :
    Pinned h c stage ∧ stage.program.Tidy ∧ h.tree.Executable stage.program := by
  obtain ⟨path, hlocate, rfl⟩ := hpins
  obtain ⟨file, hfinds, hpath⟩ := Host.locate?_eq_some_iff.mp hlocate
  obtain ⟨hform, htidy, hname⟩ := hfinds.absoluteForm hwf hcwd hpath
  obtain ⟨n, hn, -⟩ := hfinds.fileName
  exact ⟨⟨⟨file, hfinds, hform⟩, rfl, name_withProgram hname (by simp [hn])⟩, htidy,
    Host.locate?_executable hwf hcwd hlocate⟩

/-- Stages stay as they are if each of them is located where it is. -/
theorem pin_self_iff : pin k stages = (stages, none) ↔
    ∀ stage ∈ stages, k.locate? stage.program = some stage.program := by
  have hpins : ∀ stage : Command, Pins k stage stage ↔
      k.locate? stage.program = some stage.program := by
    intro stage
    constructor
    · rintro ⟨path, hpath, hstage⟩
      have hprogram := congrArg Command.program hstage
      exact hprogram ▸ hpath
    · intro hlocate
      exact ⟨_, hlocate, rfl⟩
  rw [pin_ok_iff, List.forall₂_same]
  exact forall₂_congr fun stage _ => hpins stage

/-- If an executable is missing then the stages before it are pinned, and no others. -/
theorem pin_fails (h : pin k cs = (stages, some e)) : ∃ before c after pinned,
    cs = before ++ c :: after ∧ stages = pinned ++ c :: after ∧
      List.Forall₂ (Pins k) before pinned ∧ k.locate? c.program = none ∧
      e = .toolNotFound c.name c.program := by
  obtain ⟨before, c, after, rfl, hbefore, hmissing, rfl⟩ := pin_error_iff.mp ⟨stages, h⟩
  rcases hpin : pin k before with ⟨pinned, failure⟩
  obtain rfl : failure = none := (congrArg Prod.snd hpin).symm.trans (pin_none_iff.mpr hbefore)
  rw [pin_append, hpin, pin, hmissing] at h
  cases h
  exact ⟨before, c, after, pinned, rfl, rfl, pin_ok_iff.mp hpin, hmissing, rfl⟩

theorem resolveTools_eq_iff {p q : Pipeline} {failure : Option Failure} :
    resolveTools h p = (q, failure) ↔ pin h p.stages = (q.stages, failure) := by
  cases q with
  | mk stages => simp [resolveTools, Prod.ext_iff]

/-- Pinning the tools of a pipeline changes programs only. If it succeeds then each stage runs the
    absolute form of the file that is found for its program, and a second pass over the same files,
    by a host with whatever search path, finds each stage where it is, exactly if none of these
    paths is longer than a path may be. If it fails then the stages before the one that is reported
    are pinned, and it and those after it are as they were. -/
theorem resolveTools_pins {p q : Pipeline} (hwf : h.tree.WellFormed)
    (hcwd : h.tree.get? h.directory = some .directory) :
    (resolveTools h p = (q, none) →
      List.Forall₂ (Pinned h) p.stages q.stages ∧
      ∀ k : Host, k.tree = h.tree →
        (resolveTools k q = (q, none) ↔ ∀ stage ∈ q.stages, Tree.Fits stage.program)) ∧
    ∀ e, resolveTools h p = (q, some e) → ∃ before c after pinned,
      p.stages = before ++ c :: after ∧ q.stages = pinned ++ c :: after ∧
        List.Forall₂ (Pinned h) before pinned ∧ (∀ file, ¬ h.Finds c.program file) ∧
        e = .toolNotFound c.name c.program := by
  constructor
  · intro hresolve
    have hpins := pin_ok_iff.mp (resolveTools_eq_iff.mp hresolve)
    refine ⟨hpins.imp fun c stage hstage => (hstage.pinned hwf hcwd).1, fun k htree => ?_⟩
    rw [resolveTools_eq_iff, pin_self_iff]
    refine forall₂_congr fun stage hstage => ?_
    obtain ⟨c, -, hc⟩ := exists_pins hpins stage hstage
    obtain ⟨-, htidy, hexec⟩ := hc.pinned hwf hcwd
    exact Host.locate?_self htree htidy hexec
  · intro e hresolve
    obtain ⟨before, c, after, pinned, hbefore, hafter, hpinned, hmissing, rfl⟩ :=
      pin_fails (resolveTools_eq_iff.mp hresolve)
    exact ⟨before, c, after, pinned, hbefore, hafter,
      hpinned.imp fun c stage hstage => (hstage.pinned hwf hcwd).1,
      Host.locate?_eq_none_iff.mp hmissing, rfl⟩

/-- A host whose search path lists its working directory, a directory that is missing, and one with a
    tool, twice and spelled in two ways. -/
def listingHost : Host :=
  { Host.ofTree Compiler.bundleTree (installed .echoing) with
    directory := ["site"], environment := [("PATH", ":nowhere:../bin/:../bin")] }

/-- A command that runs elsewhere and has a role. -/
def roleCommand (program : String) : Command :=
  ⟨⟨program⟩, some "optimizer", ["-x"], some ⟨"../tmp"⟩, [("A", "b")]⟩

/-- Tools that are searched for, or given by a relative path, are pinned, and are found again without
    a search path. If a stage is missing then those before it are pinned. -/
theorem listed_pins :
    (List.Forall₂ (Pinned listingHost) [.ofProgram ⟨"tool"⟩, roleCommand "./../bin//tool"]
        [.ofProgram ⟨"/site/../bin/tool"⟩, roleCommand "/site/../bin/tool"] ∧
      resolveTools { listingHost with environment := [] }
        ⟨[.ofProgram ⟨"/site/../bin/tool"⟩, roleCommand "/site/../bin/tool"]⟩ =
        (⟨[.ofProgram ⟨"/site/../bin/tool"⟩, roleCommand "/site/../bin/tool"]⟩, none)) ∧
    ∃ before c after pinned, [Command.ofProgram ⟨"tool"⟩, .ofProgram ⟨"a.main.js"⟩] =
        before ++ c :: after ∧
      [Command.ofProgram ⟨"/site/../bin/tool"⟩, .ofProgram ⟨"a.main.js"⟩] = pinned ++ c :: after ∧
      List.Forall₂ (Pinned listingHost) before pinned ∧
      (∀ file, ¬ listingHost.Finds c.program file) ∧
      Failure.toolNotFound "a.main.js" ⟨"a.main.js"⟩ = .toolNotFound c.name c.program := by
  have hwf : listingHost.tree.WellFormed :=
    Tree.wellFormed_of_entries (by decide +kernel) (by decide +kernel)
  have hcwd : listingHost.tree.get? listingHost.directory = some .directory := by decide +kernel
  constructor
  · obtain ⟨hpinned, hagain⟩ := (resolveTools_pins
      (p := ⟨[.ofProgram ⟨"tool"⟩, roleCommand "./../bin//tool"]⟩)
      (q := ⟨[.ofProgram ⟨"/site/../bin/tool"⟩, roleCommand "/site/../bin/tool"]⟩) hwf hcwd).1
      (by decide +kernel)
    refine ⟨hpinned, (hagain { listingHost with environment := [] } rfl).mpr ?_⟩
    have hfits : Tree.Fits ⟨"/site/../bin/tool"⟩ := by
      unfold Tree.Fits
      decide
    simpa [Command.ofProgram, roleCommand] using hfits
  · exact (resolveTools_pins (p := ⟨[.ofProgram ⟨"tool"⟩, .ofProgram ⟨"a.main.js"⟩]⟩)
      (q := ⟨[.ofProgram ⟨"/site/../bin/tool"⟩, .ofProgram ⟨"a.main.js"⟩]⟩) hwf hcwd).2
      _ (by decide +kernel)

/-! ## §5 Paths that get too long -/

/-- Steps into a directory and out again, several times, and then a tool. -/
def detours : Nat → List String
  | 0 => ["tools"]
  | n + 1 => "a" :: ".." :: detours n

/-- A host with this tool and this directory in its working directory. -/
def detourHost : Host :=
  { Host.ofTree ⟨[(["site"], .directory), (["site", "a"], .directory),
      (["site", "tools"], executableFile)]⟩ fun _ => none with directory := ["site"] }

theorem detours_parts (n : Nat) : ∀ part ∈ detours n,
    (Path.isStep part.toList = true ∧ '/' ∉ part.toList) ∧ '\x00' ∉ part.toList := by
  induction n with
  | zero => simp [detours, Path.isStep]
  | succ n ih => simpa [detours, Path.isStep] using ih

theorem walk_detours (n : Nat) : detourHost.tree.walk true Tree.maxLinks ["site"] (detours n) =
    detourHost.tree.walk true Tree.maxLinks ["site"] ["tools"] := by
  induction n with
  | zero => rfl
  | succ n ih =>
    have hplain : Tree.Plain "a" := ⟨by decide, by decide, by decide⟩
    have hinto : detourHost.tree.get? (["site"] ++ ["a"]) = some .directory := by decide +kernel
    rw [detours, Tree.walk_into hplain hinto, Tree.walk_up]
    exact ih

/-- A name that is joined to a path adds itself and a slash. -/
theorem size_join {p : Path} {n : String} (hp : p.text ≠ "")
    (hends : p.text.toList.getLast? ≠ some '/') (hn : '/' ∉ n.toList) :
    (p.join n).text.utf8ByteSize = p.text.utf8ByteSize + n.utf8ByteSize + 1 := by
  rw [Path.size_joined p hn, if_neg (by simp [hp, hends])]
  omega

theorem size_detours (n : Nat) {p : Path} (hp : p.text ≠ "")
    (hends : p.text.toList.getLast? ≠ some '/') :
    ((detours n).foldl Path.join p).text.utf8ByteSize = p.text.utf8ByteSize + 5 * n + 6 := by
  induction n generalizing p with
  | zero =>
    have htools : "tools".utf8ByteSize = 5 := rfl
    rw [detours, List.foldl_cons, List.foldl_nil, size_join hp hends (by decide), htools]
  | succ n ih =>
    have hsize : "a".utf8ByteSize = 1 ∧ "..".utf8ByteSize = 2 := ⟨rfl, rfl⟩
    have ha := Path.extends_join hp (by decide : "a" ≠ "") (by decide)
    have hup := Path.extends_join ha.nonempty (by decide : ".." ≠ "") (by decide)
    rw [detours, List.foldl_cons, List.foldl_cons, ih hup.nonempty (hup.ends (by simp)),
      size_join ha.nonempty (ha.ends (by simp)) (by decide), size_join hp hends (by decide)]
    omega

/-- A relative path to the tool. -/
def detour (n : Nat) : Path :=
  (detours n).foldl Path.join ⟨"."⟩

theorem detours_joinable (n : Nat) : ∀ part ∈ detours n, part ≠ "" ∧ '/' ∉ part.toList :=
  fun part hpart => ⟨Path.ne_empty_of_isStep (detours_parts n part hpart).1.1,
    (detours_parts n part hpart).1.2⟩

theorem detour_extends (n : Nat) : Path.Extends ⟨"."⟩ (detours n) (detour n) :=
  Path.extends_joined (by decide) (detours_joinable n)

theorem steps_detour (n : Nat) : (detour n).steps = "." :: detours n := by
  have hstem : (⟨"."⟩ : Path).stem = ["."] := by decide
  rw [(detour_extends n).steps (by cases n <;> simp [detours]), hstem]
  rfl

theorem moves_detour (n : Nat) : (detour n).moves = detours n := by
  rw [Path.moves_eq_filter, steps_detour, List.filter_cons_of_neg (by decide),
    Path.filter_steps fun part hpart => (detours_parts n part hpart).1.1]

theorem fits_detour {n : Nat} (hn : 5 * n + 7 ≤ Tree.maxPathBytes) : Tree.Fits (detour n) := by
  have hdot : ".".utf8ByteSize = 1 := rfl
  unfold Tree.Fits detour
  rw [size_detours n (by decide) (by decide), hdot]
  omega

theorem detour_executable {n : Nat} (hn : 5 * n + 7 ≤ Tree.maxPathBytes) :
    detourHost.tree.isExecutable detourHost.directory (detour n) = true := by
  have hextends := detour_extends n
  have hrelative : (detour n).isAbsolute = false := hextends.absolute.trans (by decide)
  have hnul : '\x00' ∉ (detour n).text.toList :=
    hextends.no_nul (by decide) fun part hpart => (detours_parts n part hpart).2
  obtain ⟨f, hf, htool⟩ : ∃ f, f.executable = true ∧
      detourHost.tree.walk true Tree.maxLinks ["site"] ["tools"] =
        .ok (.taken ["site", "tools"] (.file f)) :=
    ⟨⟨[], 0o755, default⟩, by decide, by decide +kernel⟩
  refine Tree.isExecutable_iff.mpr ⟨["site", "tools"], f, ?_, hf⟩
  rw [Tree.stat_ok_iff, Tree.find_eq_walk hnul hextends.nonempty (fits_detour hn), Tree.startOf,
    hrelative, steps_detour, Tree.walk_skip (.inr rfl)]
  exact (walk_detours n).trans htool

/-- The absolute form of the path is longer by the path of the working directory. -/
theorem detour_located {n : Nat} (hn : 5 * n + 7 ≤ Tree.maxPathBytes) :
    ∃ q, detourHost.locate? (detour n) = some q ∧ q.text.utf8ByteSize = 5 * n + 11 := by
  have hextends := detour_extends n
  have hseveral : 1 < (detour n).components.length := by
    have hsome : detours n ≠ [] := by cases n <;> simp [detours]
    rw [detour, Path.components_joined (by decide) fun part hpart => (detours_parts n part hpart).1,
      List.length_append, List.length_map]
    exact Nat.lt_add_of_pos_right (List.length_pos_iff.mpr hsome)
  obtain ⟨q, hq⟩ : ∃ q, detourHost.absolute? (detour n) = some q :=
    Path.exists_absolute hextends.nonempty
  -- each detour takes five bytes, and the working directory is put in front
  have hends := hextends.ends (by cases n <;> simp [detours])
  refine ⟨q, Host.locate?_eq_some_iff.mpr ⟨_, .given hseveral (detour_executable hn), hq⟩, ?_⟩
  obtain ⟨start, rfl, ⟨habs, -⟩ | ⟨-, rfl⟩⟩ := Path.absolute?_joined hextends.nonempty hends hq
  · exact absurd habs (by rw [hextends.absolute]; decide)
  · have hcwd : detourHost.workingPath.text.utf8ByteSize = 5 := by decide
    rw [moves_detour, size_detours n (by decide) (by decide), hcwd]
    omega

/-- The absolute form of a path that is as long as a path may be is not located again. -/
theorem detour_lost : ∃ p q : Pipeline, resolveTools detourHost p = (q, none) ∧
    resolveTools detourHost q ≠ (q, none) := by
  obtain ⟨n, hn, hlong⟩ : ∃ n, 5 * n + 7 ≤ Tree.maxPathBytes ∧ Tree.maxPathBytes < 5 * n + 11 :=
    ⟨817, by decide, by decide⟩
  obtain ⟨q, hlocate, hsize⟩ := detour_located hn
  have hwf : detourHost.tree.WellFormed :=
    Tree.wellFormed_of_entries (by decide +kernel) (by decide +kernel)
  have hcwd : detourHost.tree.get? detourHost.directory = some .directory := by decide +kernel
  have hpins : Pins detourHost (.ofProgram (detour n)) (.ofProgram q) := ⟨q, hlocate, rfl⟩
  obtain ⟨-, htidy, hexec⟩ := hpins.pinned hwf hcwd
  refine ⟨⟨[.ofProgram (detour n)]⟩, ⟨[.ofProgram q]⟩, ?_, fun hagain => ?_⟩
  · rw [resolveTools_eq_iff, pin_ok_iff]
    exact .cons hpins .nil
  · rw [resolveTools_eq_iff, pin_self_iff] at hagain
    have hfits := (Host.locate?_self rfl htidy hexec).mp (hagain _ (by simp))
    exact absurd (hsize ▸ hfits) (Nat.not_le.mpr hlong)

end Pipeline

end AssetServer
