import AssetServer.Proofs.Correspondence
import AssetServer.Proofs.Tooling

/-!
# Stages that run in another directory

The component compiler runs in the directory of the source, all other tools where the server runs.
What a command line names is looked up where its stage runs, so it has to be spelled for that place.

- `Path.components_seen`: the steps of a path as it is seen from a directory;
  `Path.components_absolute` says that making the path absolute leaves them as they are.
- `Path.components_parent`: a path has the steps of its parent and then its name.
- `Compiler.Designates` says which files a stage names, as they are seen from the directory in which
  it runs, and which ones it should.
- `Compiler.plan_names`: the stages of every plan name the files that they should.
-/

namespace AssetServer

namespace Path

variable {p q dir cwd : Path} {n text : String} {names : List String}

/-! ## §1 Paths seen from a directory -/

/-- An absolute path stands alone, wherever it is seen from. -/
theorem join_of_absolute (h : p.isAbsolute = true) : cwd.join p.text = p := by
  unfold isAbsolute at h
  unfold join
  rw [if_pos (by simpa using h)]

theorem isAbsolute_join (hcwd : cwd.isAbsolute = true) : (cwd.join text).isAbsolute = true := by
  unfold isAbsolute at hcwd ⊢
  have hhead : cwd.text.toList.head? = some '/' := by simpa using hcwd
  unfold join
  split_ifs with habs hend
  · simpa using habs
  · simp [hhead]
  · simp [hhead]

theorem text_ne_empty_of_absolute (h : p.isAbsolute = true) : p.text ≠ "" := by
  intro hempty
  rw [isAbsolute, hempty] at h
  cases h

/-- Whether a path is absolute can be told from its steps. -/
theorem isAbsolute_congr (h : p.components = q.components) : p.isAbsolute = q.isAbsolute := by
  refine (same_of_alike ?_).2
  rw [alike, h, beq_self_eq_true]

/-- The steps of a path as it is seen from a directory. -/
theorem components_seen (hcwd : cwd.text ≠ "") : (cwd.join p.text).components =
    if p.isAbsolute then p.components
    else cwd.components ++ p.components.filter fun c => !isAnchor c := by
  split_ifs with habs
  · rw [join_of_absolute habs]
  · rw [components_join_relative (by simpa [isAbsolute] using habs) hcwd, (filter_components p).2]

theorem ne_empty_of_isStep (h : isStep n.toList = true) : n ≠ "" := by
  rintro rfl
  cases h

/-- Parts that are joined one after another are steps of their own. -/
theorem components_joined (hp : p.text ≠ "")
    (hnames : ∀ n ∈ names, isStep n.toList = true ∧ '/' ∉ n.toList) :
    (names.foldl join p).components =
      p.components ++ names.map fun n => Component.ofPart n.toList := by
  induction names generalizing p with
  | nil => simp
  | cons n rest ih =>
    obtain ⟨hstep, hslash⟩ := hnames n (by simp)
    have hone : stepsOf n.toList = [n.toList] := by
      unfold stepsOf
      rw [Text.split_of_not_mem hslash, List.filter_singleton, hstep, cond_true]
    have hnonempty := (extends_join hp (ne_empty_of_isStep hstep) hslash).nonempty
    rw [List.foldl_cons, ih hnonempty fun m hm => hnames m (List.mem_cons_of_mem _ hm),
      components_join_relative (name_head hslash) hp, hone, List.append_assoc]
    rfl

theorem moves_steps : ∀ n ∈ p.moves, isStep n.toList = true ∧ '/' ∉ n.toList := by
  intro n hn
  obtain ⟨part, hpart, rfl⟩ := List.mem_map.mp hn
  rw [String.toList_ofList]
  obtain ⟨hsplit, hstep⟩ := List.mem_filter.mp hpart
  exact ⟨hstep, Text.not_mem_of_mem_split hsplit⟩

/-- Every path but the empty one can be made absolute. -/
theorem exists_absolute (hp : p.text ≠ "") : ∃ q, p.absolute? cwd = some q := by
  unfold absolute?
  simp only
  rw [if_neg (by simpa using hp)]
  exact ⟨_, rfl⟩

/-- The steps of a path that moves are joined to, and maybe a slash at the end. -/
theorem components_moves (slash : Prop) [Decidable slash] (hdir : dir.text ≠ "") :
    (if slash then (p.moves.foldl join dir).join "" else p.moves.foldl join dir).components =
      dir.components ++ (stepsOf p.text.toList).map Component.ofPart := by
  have hmoves : p.moves.map (fun n => Component.ofPart n.toList) =
      (stepsOf p.text.toList).map Component.ofPart := by
    simp [moves, Function.comp_def]
  have hnames : ∀ n ∈ p.moves, n ≠ "" ∧ '/' ∉ n.toList := by
    intro n hn
    obtain ⟨hstep, hslash⟩ := moves_steps n hn
    exact ⟨ne_empty_of_isStep hstep, hslash⟩
  have hbody := components_joined hdir (moves_steps (p := p))
  rw [hmoves] at hbody
  split_ifs with hslash
  · -- nothing that is a step follows the slash
    have hempty : stepsOf "".toList = [] := by decide
    rw [components_join_relative (by decide) (extends_joined hdir hnames).nonempty, hempty, hbody,
      List.map_nil, List.append_nil]
  · exact hbody

/-- Making a path absolute leaves the steps that it has as it is seen from the directory. -/
theorem components_absolute (hcwd : cwd.text ≠ "") (h : p.absolute? cwd = some q) :
    q.components = (cwd.join p.text).components := by
  have hne : p.text.toList ≠ [] := by
    intro hempty
    rw [absolute?, if_pos hempty] at h
    cases h
  unfold absolute? at h
  simp only at h
  rw [if_neg hne, foldl_components, Option.some.injEq] at h
  subst h
  -- the moves are joined to the root, or to the directory behind which a relative path is seen
  by_cases habs : p.isAbsolute = true
  · have hanchor : p.anchor = [.root] := by
      have hroot := isAbsolute_iff_anchor p
      rw [habs] at hroot
      exact eq_of_beq hroot.symm
    rw [join_of_absolute habs, components_eq p, hanchor, if_pos habs, components_moves]
    · split_ifs
      · rfl
      · rfl
    · split_ifs <;> decide
  · have hrelative : p.text.toList.head? ≠ some '/' := by simpa [isAbsolute] using habs
    rw [if_neg habs, components_moves _ hcwd, components_join_relative hrelative hcwd]

/-- An absolute path is what a path is made into as it is seen from an absolute directory. -/
theorem isAbsolute_absolute (hcwd : cwd.isAbsolute = true) (h : p.absolute? cwd = some q) :
    q.isAbsolute = true := by
  rw [isAbsolute_congr (components_absolute (text_ne_empty_of_absolute hcwd) h)]
  exact isAbsolute_join hcwd

/-! ## §2 A path and its parent -/

/-- What is left of a text without its last part has the same lead, and the parts in front. -/
theorem lead_init {cs : List Char} {init : List (List Char)} {part : List Char}
    {junk : List (List Char)} (hne : init ≠ [])
    (hsplit : Text.split '/' (lead cs).2 = init ++ part :: junk) :
    (lead cs).1 ++ Text.unite '/' init ≠ [] ∧
      lead ((lead cs).1 ++ Text.unite '/' init) = ((lead cs).1, Text.unite '/' init) := by
  have hbody : (lead cs).2 = Text.unite '/' init ++ '/' :: Text.unite '/' (part :: junk) := by
    rw [← unite_append hne (List.cons_ne_nil _ _), ← hsplit, Text.unite_split]
  have htext : cs =
      ((lead cs).1 ++ Text.unite '/' init) ++ '/' :: Text.unite '/' (part :: junk) := by
    rw [List.append_assoc, ← hbody, lead_append]
  have hnonempty : (lead cs).1 ++ Text.unite '/' init ≠ [] := by
    intro hempty
    -- a text that starts with a slash has a lead
    have hstart := (List.append_eq_nil_iff.mp hempty).1
    rw [hempty, List.nil_append] at htext
    rw [htext] at hstart
    cases hstart
  have hlead := lead_append_slash hnonempty (Text.unite '/' (part :: junk))
  rw [← htext] at hlead
  refine ⟨hnonempty, Prod.ext (congrArg Prod.fst hlead).symm ?_⟩
  have hrest := congrArg Prod.snd hlead
  simp only at hrest
  rw [hbody] at hrest
  exact (List.append_cancel_right hrest).symm

/-- Cutting a path in front of a part leaves the steps that come before. -/
theorem components_init {init junk : List (List Char)} {part : List Char}
    (hsplit : Text.split '/' (lead p.text.toList).2 = init ++ part :: junk) :
    (ofParts (lead p.text.toList).1 (trimParts init)).components =
      p.anchor ++ (init.filter isStep).map Component.ofPart := by
  by_cases hnil : init = []
  · -- the lead alone is left
    subst hnil
    unfold anchor
    rcases lead_cases p.text.toList with hstart | hstart | ⟨hstart, -⟩
    · rw [hstart]
      rfl
    · rw [hstart]
      rfl
    · rw [hstart]
      rfl
  · obtain ⟨hnonempty, hlead⟩ := lead_init hnil hsplit
    have hslash : ∀ part ∈ init, '/' ∉ part := by
      intro first hfirst
      have hmem : first ∈ Text.split '/' (lead p.text.toList).2 := by
        rw [hsplit]
        exact List.mem_append_left _ hfirst
      exact Text.not_mem_of_mem_split hmem
    obtain ⟨-, -, -, hsteps⟩ := exists_ofParts_trimParts hnonempty
    have hfirst := lead_ofParts hnonempty
    rw [hlead, Text.split_unite hnil hslash] at hsteps hfirst
    rw [components_eq, hsteps, stepsOf_lead, hlead, stepsOf, Text.split_unite hnil hslash,
      anchor_eq hfirst]

/-- A path that ends in a name has a parent, and its steps are those of the parent and then the
    name. -/
theorem components_parent (hname : p.fileName = some n) : Tree.IsPart n ∧
    ∃ d, p.parent = some d ∧ p.components = d.components ++ [.name n] := by
  unfold fileName at hname
  split at hname
  · rename_i part hlast
    split_ifs at hname with hup
    obtain rfl := Option.some.inj hname
    have hstep : isStep part = true := trimParts_last hlast
    obtain ⟨init, hparts⟩ := List.getLast?_eq_some_iff.mp hlast
    -- the parts behind the name are no steps
    obtain ⟨junk, hjunk, hnone⟩ := trimParts_append (Text.split '/' (lead p.text.toList).2)
    have hsplit : Text.split '/' (lead p.text.toList).2 = init ++ part :: junk := by
      rw [List.append_cons, ← hparts]
      exact hjunk
    have hsteps : stepsOf p.text.toList = init.filter isStep ++ [part] := by
      have hrest : junk.filter isStep = [] := by
        rw [List.filter_eq_nil_iff]
        intro q hq
        simp [hnone q hq]
      rw [stepsOf_lead, stepsOf, hsplit, List.filter_append, List.filter_cons_of_pos hstep, hrest]
    have hslash : '/' ∉ part := by
      have hmem : part ∈ Text.split '/' (lead p.text.toList).2 := by
        rw [hsplit]
        exact List.mem_append_right _ List.mem_cons_self
      exact Text.not_mem_of_mem_split hmem
    have hname : Tree.IsPart (String.ofList part) := by
      have hkind : part ≠ [] ∧ part ≠ ['.'] := by simpa [isStep] using hstep
      exact Tree.isPart_ofList_iff.mpr ⟨hkind.1, hkind.2, hup, hslash⟩
    refine ⟨hname, ofParts (lead p.text.toList).1 (trimParts init), ?_, ?_⟩
    · unfold parent
      rw [hparts]
      simp
    · have hlastStep := ofPart_isPart hname
      rw [String.toList_ofList] at hlastStep
      rw [components_init hsplit, components_eq, hsteps, List.map_append, List.map_singleton,
        hlastStep, List.append_assoc]
  · cases hname

/-! ## §3 Paths that go on -/

/-- Steps that are added to a path are added to it as it is seen from a directory. -/
theorem seen_append {rest : List Component} (hcwd : cwd.text ≠ "")
    (hrest : ∀ c ∈ rest, isAnchor c = false) (h : p.components = dir.components ++ rest) :
    (cwd.join p.text).components = (cwd.join dir.text).components ++ rest := by
  have hnone : rest.filter isAnchor = [] := by
    rw [List.filter_eq_nil_iff]
    intro c hc
    simp [hrest c hc]
  have hall : rest.filter (fun c => !isAnchor c) = rest := by
    rw [List.filter_eq_self]
    intro c hc
    simp [hrest c hc]
  -- both are absolute or both are not, since what is added holds no anchor
  have habs : p.isAbsolute = dir.isAbsolute := by
    rw [isAbsolute_iff_anchor, isAbsolute_iff_anchor, ← (filter_components p).1,
      ← (filter_components dir).1, h, List.filter_append, hnone, List.append_nil]
  rw [components_seen hcwd, components_seen hcwd, habs, h, List.filter_append, hall]
  split_ifs
  · rfl
  · rw [List.append_assoc]

/-- A name in a directory is the path that ends in it, from wherever the directory is seen. -/
theorem seen_name (hcwd : cwd.text ≠ "") (hn : Tree.IsPart n)
    (h : p.components = dir.components ++ [.name n]) :
    ((cwd.join dir.text).join n).components = (cwd.join p.text).components := by
  rw [components_join _ hn, seen_append hcwd (by simp [isAnchor]) h]

theorem seen_ne_empty (hcwd : cwd.text ≠ "") : (cwd.join text).text ≠ "" := by
  intro hempty
  unfold join at hempty
  split_ifs at hempty with habs hend
  · obtain rfl : text = "" := hempty
    cases habs
  · exact hcwd (String.append_eq_empty_iff.mp hempty).1
  · exact hcwd (String.append_eq_empty_iff.mp (String.append_eq_empty_iff.mp hempty).1).1

/-- What is joined to a directory is seen from where the directory is seen. -/
theorem seen_join (hcwd : cwd.text ≠ "") (dir : Path) (text : String) :
    (cwd.join (dir.join text).text).components = ((cwd.join dir.text).join text).components := by
  have hsteps : ∀ c ∈ (stepsOf text.toList).map Component.ofPart, isAnchor c = false := by
    intro c hc
    obtain ⟨part, -, rfl⟩ := List.mem_map.mp hc
    unfold Component.ofPart
    split_ifs
    · rfl
    · rfl
  by_cases habs : text.toList.head? = some '/'
  · -- an absolute text stands alone on both sides
    have halone : ∀ p : Path, p.join text = ⟨text⟩ := fun p => if_pos habs
    rw [halone, halone, halone]
  · rw [components_join_relative habs (seen_ne_empty hcwd)]
    by_cases hdir : dir.text = ""
    · obtain rfl : dir = ⟨""⟩ := congrArg Path.mk hdir
      have htext : (⟨""⟩ : Path).join text = ⟨text⟩ := by
        unfold join
        rw [if_neg habs]
        simp
      have hempty : (cwd.join "").components = cwd.components := by
        have hnone : stepsOf "".toList = [] := by decide
        rw [components_join_relative (by decide) hcwd, hnone, List.map_nil, List.append_nil]
      rw [htext, hempty]
      exact components_join_relative habs hcwd
    · exact seen_append hcwd hsteps (components_join_relative habs hdir)

end Path

/-! ## §4 What a command names -/

namespace Host

/-- What is found for a program as it is seen from the working directory, before it is made
    absolute. -/
def found? (h : Host) (program : Path) : Option Path :=
  if 1 < program.components.length then
    if h.tree.isExecutable h.directory program then some program else none
  else h.searchPath?.bind fun dirs =>
    (dirs.map (·.join program.text)).find? (h.tree.isExecutable h.directory)

theorem locate?_eq (h : Host) (program : Path) :
    h.locate? program = (h.found? program).bind h.absolute? := rfl

theorem workingPath_absolute (h : Host) : h.workingPath.isAbsolute = true := by
  unfold Path.isAbsolute workingPath Path.ofNames
  rw [String.toList_append]
  rfl

theorem workingPath_ne_empty (h : Host) : h.workingPath.text ≠ "" :=
  Path.text_ne_empty_of_absolute h.workingPath_absolute

end Host

/-- The directory that a stage runs in, for a server that runs in `cwd`. -/
def Command.vantage (cwd : Path) (stage : Command) : Path :=
  match stage.directory with
  | none => cwd
  | some dir => cwd.join dir.text

/-- A path that is seen from one directory has the steps of another path that is seen from another
    directory. -/
def Path.Denotes (there p here q : Path) : Prop :=
  (there.join p.text).alike (here.join q.text) = true

theorem Path.denotes_iff {there p here q : Path} : Denotes there p here q ↔
    (there.join p.text).components = (here.join q.text).components := by
  unfold Denotes alike
  exact beq_iff_eq

theorem Path.Denotes.refl (here p : Path) : Denotes here p here p :=
  denotes_iff.mpr rfl

/-- The paths that are configured for the tool of a role: search directories, and the declarations
    for the optimizer. -/
def Settings.named (s : Settings) : Role → List Path
  | .component => s.componentIncludes
  | .typescript => []
  | .stylesheet => s.stylesheetIncludes
  | .preprocessor => s.preprocessorIncludes
  | .optimizer => s.externs

/-- The paths that a unit of a manifest adds, as the manifest spells them. -/
def BundleUnit.named (u : BundleUnit) (m : Manifest) : Role → List String
  | .typescript => []
  | .component | .stylesheet | .preprocessor => m.includes ++ u.includes
  | .optimizer => m.externs ++ u.externs

/-- How a configured path is written in the command line of a role. -/
def Role.words (role : Role) (path : Path) : List String :=
  match role with
  | .component => ["--add-search-path", path.text]
  | .typescript => []
  | .stylesheet => ["-I", path.text]
  | .preprocessor => ["-I" ++ path.text]
  | .optimizer => ["--externs", path.text]

/-- What stands at the end of the command line of a role: the source, but for the optimizer, which
    reads what is passed on to it. -/
def Role.operands (role : Role) (source : Path) : List Path :=
  if role = .optimizer then [] else [source]

namespace Compiler

/-- The arguments in front of the configured paths. -/
def flagsBefore (c : Compiler) (artifact : Path) : Role → List String
  | .component => []
  | .typescript => ["--out", artifact.text]
  | .stylesheet => stylesheetFlags c.settings.level
  | .preprocessor => c.settings.preprocessorFlags
  | .optimizer => ["--compilation_level", optimizerLevel c.settings.level]

/-- The arguments between the configured paths and the operand. -/
def flagsAfter (c : Compiler) : Role → List String
  | .component => componentFlags c.settings.level
  | .typescript | .stylesheet | .preprocessor | .optimizer => []

/-- What a stage names, as it is seen from the directory that it runs in, is what it should name, as
    that is seen from the working directory of the server. -/
structure Designates (c : Compiler) (h : Host) (source artifact : Path) (role : Role)
    (stage : Command) : Prop where
  /-- The program is the one that is found for the tool. -/
  program : ∃ found, h.found? (c.tools.get role).program = some found ∧
    Path.Denotes (stage.vantage h.workingPath) stage.program h.workingPath found
  /-- The arguments name the configured paths and the source. -/
  arguments : ∃ paths operands,
    stage.arguments = (c.tools.get role).arguments ++ (c.flagsBefore artifact role ++
      paths.flatMap role.words ++ c.flagsAfter role ++ operands.map Path.text) ∧
    List.Forall₂ (Path.Denotes (stage.vantage h.workingPath) · h.workingPath ·) paths
      (c.settings.named role) ∧
    List.Forall₂ (Path.Denotes (stage.vantage h.workingPath) · h.workingPath ·) operands
      (role.operands source)
  /-- All other tools run where the server runs. -/
  directory : role ≠ .component → stage.directory = none

variable {c : Compiler} {h k l : Host} {kind : Kind} {source artifact scratch path : Path}
  {role : Role} {plan : Plan} {stage : Command}

/-! ## §5 What the stages of a plan name -/

/-- A path that has been made absolute names the same from every directory. -/
theorem denotes_absolute {p q : Path} (hq : h.absolute? p = some q) (there : Path) :
    Path.Denotes there q h.workingPath p := by
  rw [Path.denotes_iff, Path.join_of_absolute (Path.isAbsolute_absolute h.workingPath_absolute hq)]
  exact Path.components_absolute h.workingPath_ne_empty hq

theorem program_names (hpins : Pipeline.Pins h (c.command h source artifact role) stage)
    (there : Path) : ∃ found, h.found? (c.tools.get role).program = some found ∧
      Path.Denotes there stage.program h.workingPath found := by
  obtain ⟨path, hpath, rfl⟩ := hpins
  rw [command_program, Host.locate?_eq, Option.bind_eq_some_iff] at hpath
  obtain ⟨found, hfound, habsolute⟩ := hpath
  exact ⟨found, hfound, denotes_absolute habsolute there⟩

/-- The search directories of the component compiler are made absolute before it changes its
    directory. -/
theorem searches_denote (hsearch : ∀ dir ∈ c.settings.componentIncludes, dir.text ≠ "")
    (there : Path) : List.Forall₂ (Path.Denotes there · h.workingPath ·)
      (c.settings.componentIncludes.map fun dir => (h.absolute? dir).getD dir)
      c.settings.componentIncludes := by
  rw [List.forall₂_map_left_iff, List.forall₂_same]
  intro dir hdir
  obtain ⟨q, hq⟩ : ∃ q, h.absolute? dir = some q := Path.exists_absolute (hsearch dir hdir)
  rw [hq, Option.getD_some]
  exact denotes_absolute hq there

/-- The component compiler is given the name of the source in the directory of the source, or the
    source itself if that is a name. -/
theorem component_operand (hsource : source.fileName ≠ none) : ∃ operand,
    (c.component h source).arguments = c.tools.component.arguments ++
      ((c.settings.componentIncludes.map fun dir => (h.absolute? dir).getD dir).flatMap
        (Role.words .component) ++ componentFlags c.settings.level ++ [operand.text]) ∧
    Path.Denotes ((c.component h source).vantage h.workingPath) operand h.workingPath source := by
  obtain ⟨n, hname⟩ := Option.ne_none_iff_exists'.mp hsource
  obtain ⟨hn, d, hparent, hsteps⟩ := Path.components_parent hname
  have hwords : (c.settings.componentIncludes.map fun dir => (h.absolute? dir).getD dir).flatMap
      (Role.words .component) = c.settings.componentIncludes.flatMap fun dir =>
        ["--add-search-path", ((h.absolute? dir).getD dir).text] := by
    rw [List.flatMap_map]
    rfl
  rw [hwords]
  unfold component
  simp only [hparent, hname]
  split_ifs with hhere
  · -- a source without a directory is named as it is, and the compiler stays where the server runs
    exact ⟨source, by simp [Command.append, Command.ofTool], .refl _ _⟩
  · refine ⟨⟨n⟩, by simp [Command.append, Command.ofTool], ?_⟩
    rw [Path.denotes_iff]
    exact Path.seen_name h.workingPath_ne_empty hn hsteps

theorem component_names (hsource : source.fileName ≠ none)
    (hsearch : ∀ dir ∈ c.settings.componentIncludes, dir.text ≠ "")
    (hpins : Pipeline.Pins h (c.command h source artifact .component) stage) :
    c.Designates h source artifact .component stage := by
  obtain ⟨operand, harguments, hoperand⟩ := component_operand (c := c) (h := h) hsource
  refine ⟨program_names hpins _, ?_, fun hother => absurd rfl hother⟩
  obtain ⟨path, -, rfl⟩ := hpins
  exact ⟨_, [operand], harguments, searches_denote hsearch _, .cons hoperand .nil⟩

/-- The other tools are given the configured paths and the source as they are spelled. -/
theorem other_arguments (hrole : role ≠ .component) :
    (c.command h source artifact role).arguments = (c.tools.get role).arguments ++
      (c.flagsBefore artifact role ++ (c.settings.named role).flatMap role.words ++
        c.flagsAfter role ++ (role.operands source).map Path.text) := by
  -- only the component compiler has flags behind its search directories
  have hafter : c.flagsAfter role = [] := by
    cases role with
    | component => exact absurd rfl hrole
    | _ => rfl
  rw [hafter, List.append_nil]
  cases role with
  | component => exact absurd rfl hrole
  | typescript => rfl
  | stylesheet => rfl
  | preprocessor =>
    -- a search directory is one word with its flag
    have hwords : c.settings.preprocessorIncludes.map (fun dir => "-I" ++ dir.text) =
        c.settings.preprocessorIncludes.flatMap (Role.words .preprocessor) := List.map_eq_flatMap
    unfold command preprocessor
    simp only [hwords]
    rfl
  | optimizer =>
    rw [Role.operands, if_pos rfl, List.map_nil, List.append_nil]
    rfl

/-- A stage that runs where the server runs names what it is given. -/
theorem other_names (hrole : role ≠ .component)
    (hpins : Pipeline.Pins h (c.command h source artifact role) stage) :
    c.Designates h source artifact role stage := by
  have hdirectory : stage.directory = none := by
    obtain ⟨path, -, rfl⟩ := hpins
    cases role with
    | component => exact absurd rfl hrole
    | _ => rfl
  have hsame : ∀ paths, List.Forall₂
      (Path.Denotes (stage.vantage h.workingPath) · h.workingPath ·) paths paths := by
    intro paths
    rw [Command.vantage, hdirectory, List.forall₂_same]
    exact fun p _ => .refl _ p
  refine ⟨program_names hpins _, ⟨_, _, ?_, hsame _, hsame _⟩, fun _ => hdirectory⟩
  obtain ⟨path, -, rfl⟩ := hpins
  exact other_arguments hrole

/-- Preparing a plan does not change where the server runs. -/
theorem prepared_directory (hprep : kind.Prepared h scratch k) : k.directory = h.directory := by
  cases hprep with
  | unmade => rfl
  | made hkind hmake =>
    unfold makeScratch at hmake
    rw [runFrom_ofPair] at hmake
    simp only at hmake
    split at hmake
    · rw [← (Prod.mk.inj hmake).2]
    · cases (Prod.mk.inj hmake).1

/-- A unit of a bundle is compiled with the paths of the manifest, which are joined to the directory
    that they are spelled for. -/
theorem ofUnit_named (base : Compiler) (m : Manifest) (dir : Path) (u : BundleUnit) (role : Role) :
    (base.ofUnit m dir u).settings.named role =
      base.settings.named role ++ (u.named m role).map dir.join := by
  cases role with
  | typescript => rfl
  | _ => rfl

/-- Each stage of a plan names the program that is found for its tool, the configured paths and the
    source, as they are seen from where the server runs, whatever directory the stage itself runs
    in. For a unit of a bundle, what the manifest adds is seen so from the directory of the
    manifest. -/
theorem plan_names (hplan : runFrom (c.plan kind source) h = (.ok plan, l))
    (hsource : source.fileName ≠ none)
    (hsearch : ∀ dir ∈ c.settings.componentIncludes, dir.text ≠ "") :
    l.workingPath = h.workingPath ∧
    (∃ artifact, List.Forall₂ (c.Designates l source artifact) (c.roles kind) plan.stages) ∧
    ∀ (base : Compiler) (m : Manifest) (dir : Path) (u : BundleUnit), c = base.ofUnit m dir u →
      ∀ role, c.settings.named role = base.settings.named role ++ (u.named m role).map dir.join ∧
        ∀ text ∈ u.named m role,
          Path.Denotes (h.workingPath.join dir.text) ⟨text⟩ h.workingPath (dir.join text) := by
  obtain ⟨scratch, hprep⟩ := exists_prepared hplan
  obtain ⟨-, hstages⟩ := plan_stages hprep hplan
  refine ⟨?_, ⟨scratch.join "out.js", ?_⟩, ?_⟩
  · unfold Host.workingPath
    rw [prepared_directory hprep]
  · rw [commands, List.forall₂_map_left_iff] at hstages
    refine hstages.imp fun role stage hpins => ?_
    by_cases hrole : role = .component
    · subst hrole
      exact component_names hsource hsearch hpins
    · exact other_names hrole hpins
  · rintro base m dir u rfl role
    refine ⟨ofUnit_named base m dir u role, fun text _ => ?_⟩
    rw [Path.denotes_iff, Path.seen_join h.workingPath_ne_empty]

/-- A unit with a search directory of its own. -/
def nestedUnit : BundleUnit :=
  ⟨"a.main.jsx", none, [], ["parts"]⟩

/-- The compiler for that unit, where the manifest is one directory down, and all paths are
    relative. -/
def nestedCompiler : Compiler :=
  ofUnit ⟨searchedTools,
      { (default : Settings) with level := .none, componentIncludes := [⟨"lib"⟩] }⟩
    ⟨[], [], [nestedUnit]⟩ ⟨"deep"⟩ nestedUnit

/-- How that unit is compiled. -/
def nestedStage : Command where
  program := ⟨"/site/../bin/tool"⟩
  role := some "component compiler"
  arguments := ["--add-search-path", "/site/lib", "--add-search-path", "/site/deep/parts",
    "a.main.jsx"]
  directory := some ⟨"deep"⟩
  bindings := []

theorem plan_nested :
    runFrom (nestedCompiler.plan .component ⟨"deep/a.main.jsx"⟩) searchingHost =
      (.ok (.stream ⟨[nestedStage]⟩), searchingHost) ∧
    (∃ artifact, nestedCompiler.Designates searchingHost ⟨"deep/a.main.jsx"⟩ artifact .component
      nestedStage) ∧
    Path.Denotes ⟨"/site/deep"⟩ ⟨"parts"⟩ ⟨"/site"⟩ ⟨"deep/parts"⟩ := by
  have hplan : runFrom (nestedCompiler.plan .component ⟨"deep/a.main.jsx"⟩) searchingHost =
      (.ok (.stream ⟨[nestedStage]⟩), searchingHost) := Prod.ext (by decide +kernel) rfl
  have hroles : nestedCompiler.roles .component = [.component] := by decide +kernel
  obtain ⟨-, ⟨artifact, hnames⟩, hunit⟩ := plan_names hplan (by decide +kernel) (by decide +kernel)
  rw [hroles] at hnames
  refine ⟨hplan, ⟨artifact, (List.forall₂_cons.mp hnames).1⟩, ?_⟩
  exact (hunit _ _ _ _ rfl .component).2 "parts" (by decide)

end Compiler

end AssetServer
