import AssetServer.Proofs.Action
import AssetServer.Proofs.Growth

/-!
# What compiling leaves behind

Tools may write into the scratch directory that is made for them and nowhere else
(`Program.Confined`). Compiling a source then leaves every file as it was, whether it succeeds or
fails: a scratch directory is removed with all it holds.

- `Host.Beside` compares hosts that differ only in hidden places.
- `removeScratch_quiet` is the step that restores the file system.
- `Compiler.compile_quiet` says that compiling changes nothing.
- `StepRelation.compile` carries over to a compilation what each of its steps does, for tools that
  may write anywhere.
-/

namespace AssetServer

/-! ## §1 Names of scratch directories -/

namespace Host

theorem scratchName_toList (k : Nat) : (scratchName k).toList =
    "kiln-tsc".toList ++ (List.replicate (6 - k.repr.length) '0' ++ Nat.toDigits 10 k) := by
  unfold scratchName
  simp only [String.toList_append, String.toList_ofList, Nat.toString_eq_repr, Nat.toList_repr,
    List.append_assoc]

/-- Every character of a scratch name is a letter, a digit or a hyphen. -/
theorem mem_scratchName {k : Nat} {c : Char} (h : c ∈ (scratchName k).toList) :
    c ∈ "kiln-tsc".toList ∨ c.isDigit = true := by
  rw [scratchName_toList, List.mem_append, List.mem_append] at h
  rcases h with h | h | h
  · exact .inl h
  · rw [List.eq_of_mem_replicate h]
    exact .inr rfl
  · exact .inr (Nat.isDigit_of_mem_toDigits (by decide) (by decide) h)

theorem not_mem_scratchName {k : Nat} {c : Char} (hletter : c ∉ "kiln-tsc".toList)
    (hdigit : c.isDigit = false) : c ∉ (scratchName k).toList := by
  intro h
  rcases mem_scratchName h with h | h
  · exact hletter h
  · rw [hdigit] at h
    cases h

theorem head?_scratchName (k : Nat) : (scratchName k).toList.head? = some 'k' := by
  rw [scratchName_toList]
  rfl

theorem isPart_scratchName (k : Nat) : Tree.IsPart (scratchName k) := by
  have hhead := head?_scratchName k
  refine ⟨?_, ?_, not_mem_scratchName (by decide) (by decide)⟩
  · rintro (h | h)
    · rw [h] at hhead
      cases hhead
    · rw [h] at hhead
      cases hhead
  · intro h
    rw [h] at hhead
    cases hhead

theorem isName_scratchName {k : Nat}
    (h : (scratchName k).utf8ByteSize ≤ Tree.maxNameBytes) : IsName (scratchName k) := by
  obtain ⟨hstep, hdown, hslash⟩ := isPart_scratchName k
  rw [not_or] at hstep
  exact ⟨hstep.1, hstep.2, hdown, hslash, not_mem_scratchName (by decide) (by decide), h⟩

end Host

/-! ## §2 Places in scratch directories -/

/-- The location lies in a directory of `T` that is named like a scratch directory. -/
def InScratch (T loc : Location) : Prop :=
  ∃ k rest, rest ≠ [] ∧ loc = T ++ Host.scratchName k :: rest

/-- Nothing in `T` has the name of a scratch directory. -/
def Tree.NoScratch (t : Tree) (T : Location) : Prop :=
  ∀ k, t.get? (T ++ [Host.scratchName k]) = none

theorem not_inScratch (T : Location) (n : String) : ¬ InScratch T (T ++ [n]) := by
  rintro ⟨k, rest, hrest, h⟩
  have htail := List.append_cancel_left h
  rw [List.cons.injEq] at htail
  exact hrest htail.2.symm

/-- Nothing lies in scratch directories where there are none. -/
theorem Tree.NoScratch.absent {t : Tree} {T loc : Location} (h : t.NoScratch T)
    (hwf : t.WellFormed) (hloc : InScratch T loc) : t.get? loc = none := by
  obtain ⟨k, rest, -, rfl⟩ := hloc
  rw [List.append_cons]
  exact hwf.absent_below (h k) rest

/-- Without scratch directories before, what agrees outside of them agrees everywhere. -/
theorem Tree.NoScratch.agree {t t' : Tree} {T : Location} (h : t.NoScratch T)
    (hwf : t.WellFormed) (hwf' : t'.WellFormed)
    (hsame : ∀ loc, ¬ InScratch T loc → t'.get? loc = t.get? loc) (loc : Location) :
    t'.get? loc = t.get? loc := by
  by_cases hloc : InScratch T loc
  · obtain ⟨k, rest, -, rfl⟩ := hloc
    have hnone : t'.get? (T ++ [Host.scratchName k]) = none :=
      (hsame _ (not_inScratch T _)).trans (h k)
    rw [List.append_cons, hwf'.absent_below hnone rest, hwf.absent_below (h k) rest]
  · exact hsame loc hloc

/-! ## §3 Hosts -/

/-- The program changes files in the scratch directories of `T` only. -/
def Program.Confined (T : Location) (run : Program) : Prop :=
  ∀ call t, t.WellFormed → (run call t).tree.WellFormed ∧
    ∀ loc, ¬ InScratch T loc → (run call t).tree.get? loc = t.get? loc

namespace Host

/-- The location of the directory in which scratch directories are made. -/
def temporary (h : Host) : Location :=
  match h.tree.stat h.directory h.temporaryPath with
  | .ok (loc, _) => loc
  | .error _ => h.directory

/-- What a host has between compilations: a file system with a working directory and a directory for
    scratch directories, in which there are none, and programs that keep to those made for them. -/
structure Ready (h : Host) : Prop where
  wellFormed : h.tree.WellFormed
  directory : h.tree.get? h.directory = some .directory
  temporary : h.tree.Opens h.directory h.temporaryPath h.temporary
  confined : ∀ loc run, h.programs loc = some run → run.Confined h.temporary
  noScratch : h.tree.NoScratch h.temporary

/-- What a host has while a scratch directory may be there as well. -/
structure Sound (T : Location) (h : Host) : Prop where
  wellFormed : h.tree.WellFormed
  directory : h.tree.get? h.directory = some .directory
  confined : ∀ loc run, h.programs loc = some run → run.Confined T
  outside : ¬ InScratch T h.directory

theorem Ready.sound {h : Host} (hready : h.Ready) : h.Sound h.temporary := by
  refine ⟨hready.wellFormed, hready.directory, hready.confined, fun hin => ?_⟩
  have := hready.noScratch.absent hready.wellFormed hin
  rw [hready.directory] at this
  cases this

theorem temporary_of_opens {h : Host} {dir : Location}
    (hopens : h.tree.Opens h.directory h.temporaryPath dir) : h.temporary = dir := by
  unfold temporary
  unfold Tree.Opens at hopens
  split at hopens
  · rename_i hempty
    have hstat : h.tree.stat h.directory h.temporaryPath = .error .notFound := by
      unfold Tree.stat Tree.find
      simp [hempty]
    rw [hstat, hopens]
  · rw [hopens]

theorem Ready.get?_temporary {h : Host} (hready : h.Ready) :
    h.tree.get? h.temporary = some .directory := by
  have hopens := hready.temporary
  unfold Tree.Opens at hopens
  split at hopens
  · rw [hopens]
    exact hready.directory
  · exact Tree.get?_of_stat hready.wellFormed hready.directory hopens

/-- The directory for scratch directories stays when files are added. -/
theorem temporary_of_partOf {h k : Host} (hready : h.Ready) (hpart : h.tree.PartOf k.tree)
    (hdirectory : k.directory = h.directory) (henvironment : k.environment = h.environment) :
    k.temporary = h.temporary ∧ k.tree.Opens k.directory k.temporaryPath k.temporary := by
  have hpath : k.temporaryPath = h.temporaryPath := by
    unfold temporaryPath setting?
    rw [henvironment]
  have hopens : k.tree.Opens k.directory k.temporaryPath h.temporary := by
    rw [hdirectory, hpath]
    exact hready.temporary.partOf hpart
  rw [temporary_of_opens hopens]
  exact ⟨rfl, hopens⟩

/-- `k` differs from `h` only in the files at hidden places, and in what was counted and noted. -/
structure Beside (G : Location → Prop) (h k : Host) : Prop where
  directory : k.directory = h.directory
  environment : k.environment = h.environment
  accountHome : k.accountHome = h.accountHome
  programs : k.programs = h.programs
  now : k.now = h.now
  tree : ∀ loc, ¬ G loc → k.tree.get? loc = h.tree.get? loc

variable {G G' : Location → Prop} {h k l : Host}

theorem Beside.refl (h : Host) : h.Beside G h :=
  ⟨rfl, rfl, rfl, rfl, rfl, fun _ _ => rfl⟩

theorem Beside.trans (hk : h.Beside G k) (hl : k.Beside G l) : h.Beside G l where
  directory := hl.directory.trans hk.directory
  environment := hl.environment.trans hk.environment
  accountHome := hl.accountHome.trans hk.accountHome
  programs := hl.programs.trans hk.programs
  now := hl.now.trans hk.now
  tree loc hloc := (hl.tree loc hloc).trans (hk.tree loc hloc)

theorem Beside.symm (hk : h.Beside G k) : k.Beside G h where
  directory := hk.directory.symm
  environment := hk.environment.symm
  accountHome := hk.accountHome.symm
  programs := hk.programs.symm
  now := hk.now.symm
  tree loc hloc := (hk.tree loc hloc).symm

theorem Beside.mono (hk : h.Beside G k) (hG : ∀ loc, G loc → G' loc) : h.Beside G' k :=
  { hk with tree := fun loc hloc => hk.tree loc fun hin => hloc (hG loc hin) }

/-- The host with other files. -/
theorem Beside.withTree {t : Tree} (ht : ∀ loc, ¬ G loc → t.get? loc = h.tree.get? loc) :
    h.Beside G { h with tree := t } :=
  ⟨rfl, rfl, rfl, rfl, rfl, ht⟩

/-- Everything is as it was before, files included, and nothing is being compiled. -/
structure Quiet (h k : Host) : Prop where
  ready : k.Ready
  beside : h.Beside (fun _ => False) k
  scratches : h.scratches ≤ k.scratches

theorem Quiet.refl (hready : h.Ready) : h.Quiet h :=
  ⟨hready, .refl h, Nat.le_refl _⟩

theorem Quiet.trans (hk : h.Quiet k) (hl : k.Quiet l) : h.Quiet l :=
  ⟨hl.ready, hk.beside.trans hl.beside, Nat.le_trans hk.scratches hl.scratches⟩

theorem Quiet.get? (hk : h.Quiet k) (loc : Location) : k.tree.get? loc = h.tree.get? loc :=
  hk.beside.tree loc id

/-- What happens while a scratch directory is there. -/
structure Working (T : Location) (h k : Host) : Prop where
  sound : k.Sound T
  beside : h.Beside (InScratch T) k
  scratches : h.scratches = k.scratches

variable {T : Location}

theorem Working.refl (hsound : h.Sound T) : h.Working T h :=
  ⟨hsound, .refl h, rfl⟩

theorem Working.trans (hk : h.Working T k) (hl : k.Working T l) : h.Working T l :=
  ⟨hl.sound, hk.beside.trans hl.beside, hk.scratches.trans hl.scratches⟩

theorem rests_trans (h k l : Host) (hk : h.Ready → h.Quiet k) (hl : k.Ready → k.Quiet l)
    (hready : h.Ready) : h.Quiet l :=
  (hk hready).trans (hl (hk hready).ready)

theorem works_trans (h k l : Host) (hk : h.Sound T → h.Working T k)
    (hl : k.Sound T → k.Working T l) (hsound : h.Sound T) : h.Working T l :=
  (hk hsound).trans (hl (hk hsound).sound)

/-- Files may be added, but for scratch directories. -/
theorem Ready.of_partOf (hready : h.Ready) (hpart : h.tree.PartOf k.tree) (hk : h.Beside G k)
    (hwf : k.tree.WellFormed) (hnone : k.tree.NoScratch h.temporary) : k.Ready := by
  obtain ⟨htemporary, hopens⟩ := temporary_of_partOf hready hpart hk.directory hk.environment
  refine ⟨hwf, ?_, hopens, ?_, ?_⟩
  · rw [hk.directory]
    exact hpart _ _ hready.directory
  · rw [hk.programs, htemporary]
    exact hready.confined
  · rw [htemporary]
    exact hnone

theorem Ready.of_same (hready : h.Ready) (hk : h.Beside (fun _ => False) k)
    (hwf : k.tree.WellFormed) : k.Ready := by
  have hsame : ∀ loc, k.tree.get? loc = h.tree.get? loc := fun loc => hk.tree loc id
  exact hready.of_partOf (fun loc e he => (hsame loc).trans he) hk hwf
    fun n => (hsame _).trans (hready.noScratch n)

/-- Work without a scratch directory changes nothing. -/
theorem Working.quiet (hk : h.Working h.temporary k) (hready : h.Ready) : h.Quiet k := by
  have hsame := hready.noScratch.agree hready.wellFormed hk.sound.wellFormed hk.beside.tree
  have hbeside : h.Beside (fun _ => False) k := { hk.beside with tree := fun loc _ => hsame loc }
  exact ⟨hready.of_same hbeside hk.sound.wellFormed, hbeside, Nat.le_of_eq hk.scratches⟩

end Host

/-! ## §4 Scratch directories -/

/-- A scratch directory is put where nothing was. -/
theorem makeScratch_put {h k : Host} {scratch : Path} (hwf : h.tree.WellFormed)
    (hcwd : h.tree.get? h.directory = some .directory)
    (hmake : runFrom makeScratch h = (.ok scratch, k)) :
    scratch = h.temporaryPath.join (Host.scratchName h.scratches) ∧
    ∃ dir n slash, h.tree.find h.directory false scratch = .ok (.vacant dir n slash) ∧
      h.tree.get? dir = some .directory ∧ h.tree.get? (dir ++ [n]) = none ∧ IsName n ∧
      k = { h with tree := h.tree.put (dir ++ [n]) .directory, scratches := h.scratches + 1 } := by
  unfold makeScratch at hmake
  rw [runFrom_ofPair] at hmake
  simp only at hmake
  split at hmake
  · rename_i tree htree
    rw [Prod.mk.injEq, Except.ok.injEq] at hmake
    obtain ⟨rfl, rfl⟩ := hmake
    obtain ⟨dir, n, slash, hfind, rfl, hdir, hnone, hn⟩ := Tree.makeDirectory_ok hwf hcwd htree
    exact ⟨rfl, dir, n, slash, hfind, hdir, hnone, hn, rfl⟩
  · rw [Prod.mk.injEq] at hmake
    cases hmake.1

theorem makeScratch_ok {h h₁ : Host} {path : Path} (hready : h.Ready)
    (hmake : runFrom makeScratch h = (.ok path, h₁)) :
    path = h.temporaryPath.join (Host.scratchName h.scratches) ∧
      h.tree.get? h.temporary = some .directory ∧
      h.tree.find h.directory false path =
        .ok (.vacant h.temporary (Host.scratchName h.scratches) false) ∧
      IsName (Host.scratchName h.scratches) ∧
      h₁ = { h with
        tree := h.tree.put (h.temporary ++ [Host.scratchName h.scratches]) .directory
        scratches := h.scratches + 1 } := by
  obtain ⟨hpath, dir, n, slash, hfind, hdir, -, -, hk⟩ :=
    makeScratch_put hready.wellFormed hready.directory hmake
  have hjoined := hfind
  rw [hpath] at hjoined
  obtain ⟨hopens, hn, hslash, hshort, -⟩ :=
    Tree.find_join_vacant (Host.isPart_scratchName h.scratches) hjoined
  -- the name is missing in the directory for scratch directories, and nowhere else
  have hat := Host.temporary_of_opens hopens
  rw [← hat, hn, hslash] at hfind
  rw [← hat] at hdir
  rw [← hat, hn] at hk
  exact ⟨hpath, hdir, hfind, Host.isName_scratchName hshort, hk⟩

theorem makeScratch_sound {h h₁ : Host} {path : Path} (hready : h.Ready)
    (hmake : runFrom makeScratch h = (.ok path, h₁)) : h₁.Sound h.temporary := by
  obtain ⟨-, hdir, -, hname, rfl⟩ := makeScratch_ok hready hmake
  have hgrown := Tree.Grown.put (P := fun _ => True) hready.wellFormed hdir hname
    (hready.noScratch _) trivial
  exact ⟨hgrown.wellFormed, hgrown.partOf _ _ hready.directory, hready.confined,
    hready.sound.outside⟩

/-- Without the scratch directory that was made, and what is in it, everything is as it was. -/
theorem get?_delete_scratch {h h₂ : Host} (hready : h.Ready) (hwf : h₂.tree.WellFormed)
    (hbefore : ∀ loc, ¬ InScratch h.temporary loc →
      loc ≠ h.temporary ++ [Host.scratchName h.scratches] → h₂.tree.get? loc = h.tree.get? loc)
    (loc : Location) : (h₂.tree.delete (h.temporary ++ [Host.scratchName h.scratches])).get? loc =
      h.tree.get? loc := by
  rw [Tree.get?_delete (by simp)]
  split
  · rename_i hbelow
    obtain ⟨rest, rfl⟩ := hbelow
    rw [hready.wellFormed.absent_below (hready.noScratch h.scratches)]
  · rename_i hbelow
    by_cases hloc : InScratch h.temporary loc
    · -- other scratch directories are missing before and after
      obtain ⟨k, rest, -, rfl⟩ := hloc
      have hne : h.temporary ++ [Host.scratchName k] ≠
          h.temporary ++ [Host.scratchName h.scratches] := by
        intro heq
        exact hbelow ⟨rest, by rw [← heq, List.append_assoc, List.singleton_append]⟩
      have hmissing : h₂.tree.get? (h.temporary ++ [Host.scratchName k]) = none := by
        rw [hbefore _ (not_inScratch h.temporary _) hne]
        exact hready.noScratch k
      rw [List.append_cons, hwf.absent_below hmissing,
        hready.wellFormed.absent_below (hready.noScratch k)]
    · refine hbefore loc hloc ?_
      rintro rfl
      exact hbelow List.prefix_rfl

/-- Making a scratch directory and removing it again, after some work in it, changes nothing. -/
theorem removeScratch_quiet {h h₁ h₂ : Host} {path : Path} (hready : h.Ready)
    (hmake : runFrom makeScratch h = (.ok path, h₁)) (hwork : h₁.Working h.temporary h₂) :
    h.Quiet (removeScratch path h₂) := by
  obtain ⟨-, hdir, hfind, hname, rfl⟩ := makeScratch_ok hready hmake
  set S := h.temporary ++ [Host.scratchName h.scratches] with hS
  have hSne : S ≠ [] := by simp [hS]
  -- the work is done in the scratch directory, which is still there
  have hbefore : ∀ loc, ¬ InScratch h.temporary loc → loc ≠ S →
      h₂.tree.get? loc = h.tree.get? loc := by
    intro loc hloc hne
    rw [hwork.beside.tree loc hloc]
    exact Tree.get?_put_of_ne _ hne _
  have hthere : h₂.tree.get? S = some .directory := by
    rw [hwork.beside.tree S (not_inScratch h.temporary _)]
    exact Tree.get?_put_self _ hSne _
  have hpart : h.tree.PartOf h₂.tree := by
    intro loc e he
    rw [hbefore loc, he]
    · intro hin
      rw [hready.noScratch.absent hready.wellFormed hin] at he
      cases he
    · rintro rfl
      rw [hready.noScratch h.scratches] at he
      cases he
  -- so its path leads to it, and it is what is deleted
  have hcanonical : h₂.tree.canonical h₂.directory path = .ok S := by
    rw [show h₂.directory = h.directory from hwork.beside.directory]
    exact Tree.canonical_of_stat (Tree.stat_filled hfind hpart hthere (.inl rfl))
  have hremove : removeScratch path h₂ = { h₂ with tree := h₂.tree.delete S } := by
    unfold removeScratch
    rw [hcanonical]
  have hsame := get?_delete_scratch hready hwork.sound.wellFormed hbefore
  have hbeside : h.Beside (fun _ => False) { h₂ with tree := h₂.tree.delete S } :=
    ⟨hwork.beside.directory, hwork.beside.environment, hwork.beside.accountHome,
      hwork.beside.programs, hwork.beside.now, fun loc _ => hsame loc⟩
  rw [hremove]
  refine ⟨hready.of_same hbeside (hwork.sound.wellFormed.delete hSne), hbeside, ?_⟩
  show h.scratches ≤ h₂.scratches
  rw [← hwork.scratches]
  exact Nat.le_succ _

/-! ## §5 Processes -/

namespace Host

variable {h : Host}

theorem execute_program {cwd : Location} {depth : Nat} {p : Path} {arguments : List String}
    {found : Program × List String} (hrun : h.execute cwd depth p arguments = .ok found) :
    ∃ loc, h.programs loc = some found.1 := by
  induction depth generalizing p arguments with
  | zero => cases hrun
  | succ depth ih =>
    unfold execute at hrun
    split at hrun
    · cases hrun
    · cases hrun
    · cases hrun
    · split at hrun
      · cases hrun
      · split at hrun
        · rename_i loc f _ _ run _ hprogram
          cases hrun
          exact ⟨_, hprogram⟩
        -- an interpreter is looked for in the same way
        · exact ih hrun
        · cases hrun

theorem search_program {cwd : Location} {program : String} {arguments dirs : List String}
    {denied : Bool} {found : Program × List String}
    (hrun : h.search cwd program arguments denied dirs = .ok found) :
    ∃ loc, h.programs loc = some found.1 := by
  induction dirs generalizing denied with
  | nil => cases hrun
  | cons dir dirs ih =>
    unfold search at hrun
    split at hrun
    · rename_i hexec
      cases hrun
      exact execute_program hexec
    · split at hrun
      · exact ih hrun
      · split at hrun
        · exact ih hrun
        · cases hrun

/-- The directory that a command runs in. -/
def commandDirectory (h : Host) (c : Command) : Except OsError Location :=
  match c.directory with
  | none => .ok h.directory
  | some dir =>
    match h.tree.stat h.directory dir with
    | .ok (loc, .directory) => .ok loc
    | .ok (_, _) => .error .notDirectory
    | .error e => .error e

/-- What a command that runs in a directory executes. -/
def commandProgram (h : Host) (c : Command) (cwd : Location) :
    Except OsError (Program × List String) :=
  if c.program.text = "" then .error .notFound
  else if c.program.text.toList.contains '/' then h.execute cwd 5 c.program c.arguments
  else h.search cwd c.program.text c.arguments false (Text.parts ':'
    (((c.bindings.foldl setVariable h.environment).lookup "PATH").getD "/bin:/usr/bin"))

theorem launch_eq (h : Host) (c : Command) : h.launch c =
    if (c.program.text :: c.arguments).any (·.toList.contains '\x00') then .error .nulInArgument
    else match h.commandDirectory c with
      | .error e => .error e
      | .ok cwd => match h.commandProgram c cwd with
        | .error e => .error e
        | .ok (program, arguments) =>
            .ok ⟨program, arguments, cwd, c.bindings.foldl setVariable h.environment⟩ :=
  rfl

/-- A command is started in its directory, with the program that is found from there. -/
theorem launch_ok_iff {c : Command} {l : Launch} : h.launch c = .ok l ↔
    ¬ (c.program.text :: c.arguments).any (·.toList.contains '\x00') ∧
      ∃ cwd found, h.commandDirectory c = .ok cwd ∧ h.commandProgram c cwd = .ok found ∧
        l = ⟨found.1, found.2, cwd, c.bindings.foldl setVariable h.environment⟩ := by
  rw [launch_eq]
  split
  · simp_all
  · rename_i hnul
    rw [and_iff_right hnul]
    rcases h.commandDirectory c with _ | cwd
    · simp
    · simp only [Except.ok.injEq, exists_and_left, exists_eq_left']
      rcases h.commandProgram c cwd with _ | found <;> simp [eq_comm]

/-- What a command starts is an installed program. -/
theorem launch_program {c : Command} {l : Launch} (hrun : h.launch c = .ok l) :
    ∃ loc, h.programs loc = some l.program := by
  obtain ⟨-, cwd, found, -, hfound, rfl⟩ := launch_ok_iff.mp hrun
  unfold commandProgram at hfound
  split at hfound
  · cases hfound
  · split at hfound
    · exact execute_program hfound
    · exact search_program hfound

end Host

namespace Pipeline

theorem abandon_eq (processes : List Nat) (h : Host) :
    ∃ journal, abandon processes h = { h with journal } := by
  induction processes generalizing h with
  | nil => exact ⟨h.journal, rfl⟩
  | cons p rest ih =>
    obtain ⟨journal, heq⟩ := ih ((h.note (.killed p)).note (.reaped p))
    exact ⟨journal, heq⟩

/-- Starting stages only makes notes. -/
theorem start_eq (h : Host) (index : Nat) (started : List Started) (cs : List Command) :
    ∃ journal, (start h index started cs).2 = { h with journal } := by
  induction cs generalizing h index started with
  | nil => exact ⟨h.journal, rfl⟩
  | cons c rest ih =>
    unfold start
    split
    · exact abandon_eq _ h
    · obtain ⟨journal, heq⟩ := ih (h.note (.started h.processes)) (index + 1)
        (⟨index, c.name, h.processes, _⟩ :: started)
      exact ⟨journal, heq⟩

/-- The stages that were started run installed programs. -/
theorem start_programs {h h' : Host} {index : Nat} {started stages : List Started}
    {cs : List Command} (hrun : start h index started cs = (.ok stages, h'))
    (hstarted : ∀ s ∈ started, ∃ loc, h.programs loc = some s.launch.program) :
    ∀ s ∈ stages, ∃ loc, h.programs loc = some s.launch.program := by
  induction cs generalizing h index started with
  | nil =>
    cases hrun
    intro s hs
    exact hstarted s (List.mem_reverse.mp hs)
  | cons c rest ih =>
    unfold start at hrun
    split at hrun
    · cases hrun
    · rename_i launch hlaunch
      have hfound : ∃ loc, h.programs loc = some launch.program := Host.launch_program hlaunch
      refine ih (h := h.note (.started h.processes)) hrun fun s hs => ?_
      rcases List.mem_cons.mp hs with rfl | hs
      · exact hfound
      · exact hstarted s hs

/-- What each program of a chain keeps of the files, the chain keeps. -/
theorem executions_keeps {I : Tree → Prop} (now : Instant) {launches : List Launch}
    (hkeeps : ∀ l ∈ launches, ∀ call t, I t → I (l.program call t).tree) (input : Bytes)
    (broken : Bool) {t : Tree} (hI : I t) : I (executions now launches input broken t).2 := by
  -- each process runs on the files that the one before it leaves
  induction launches generalizing input broken t with
  | nil => exact hI
  | cons l rest ih =>
    exact ih (fun x hx => hkeeps x (List.mem_cons_of_mem _ hx))
      (l.program ⟨l.arguments, l.directory, l.environment, input, broken, now⟩ t).output false
      (hkeeps l (by simp) _ t hI)

/-- A chain of confined programs changes files in scratch directories only. -/
theorem executions_confined {T : Location} (now : Instant) {launches : List Launch}
    (hconfined : ∀ l ∈ launches, l.program.Confined T) (input : Bytes) (broken : Bool) {t : Tree}
    (hwf : t.WellFormed) :
    (executions now launches input broken t).2.WellFormed ∧
      ∀ loc, ¬ InScratch T loc → (executions now launches input broken t).2.get? loc = t.get? loc := by
  refine executions_keeps (I := fun t' => t'.WellFormed ∧
    ∀ loc, ¬ InScratch T loc → t'.get? loc = t.get? loc) now ?_ input broken ⟨hwf, fun _ _ => rfl⟩
  rintro l hl call t' ⟨hwf', hsame⟩
  obtain ⟨hwf'', hsame'⟩ := hconfined l hl call t' hwf'
  exact ⟨hwf'', fun loc hloc => (hsame' loc hloc).trans (hsame loc hloc)⟩

/-- Starting a pipeline makes notes, and runs a chain of installed programs. -/
theorem spawn_run (p : Pipeline) (input : PipelineInput) (h : Host) :
    ∃ journal launches data broken,
      (∀ l ∈ launches, ∃ loc, h.programs loc = some l.program) ∧
        (runFrom (p.spawn input) h).2 = { h with
          journal
          tree := (executions h.now launches data broken h.tree).2 } := by
  unfold spawn
  rw [runFrom_ofPair]
  split
  · exact ⟨h.journal, [], [], false, by simp, rfl⟩
  · rename_i data broken _
    -- whether all stages can be started or not, starting them is only noted
    obtain ⟨journal, hjournal⟩ := start_eq h 0 [] p.stages
    split
    · rename_i hstart
      rw [hstart] at hjournal
      exact ⟨journal, [], [], false, by simp, hjournal⟩
    · rename_i started h' hstart
      rw [hstart] at hjournal
      subst hjournal
      refine ⟨journal, started.map Started.launch, data, broken, fun l hl => ?_, rfl⟩
      obtain ⟨s, hs, rfl⟩ := List.mem_map.mp hl
      exact start_programs hstart (by simp) s hs

/-- Waiting for stages only makes notes. -/
theorem wait_eq (r : Running) (h : Host) : ∃ journal, (r.wait h).2.2 = { h with journal } := by
  show ∃ journal, r.stages.foldl (fun h s => h.note (.reaped s.process)) h = { h with journal }
  induction r.stages generalizing h with
  | nil => exact ⟨h.journal, rfl⟩
  | cons s rest ih =>
    obtain ⟨journal, heq⟩ := ih (h.note (.reaped s.process))
    exact ⟨journal, heq⟩

/-- A whole run of a pipeline makes notes, and runs a chain of installed programs. -/
theorem runInto_run (p : Pipeline) (input : PipelineInput) (o : Outlet) :
    ∃ journal launches data broken,
      (∀ l ∈ launches, ∃ loc, o.host.programs loc = some l.program) ∧
        (runFrom (p.runInto input) o).2.host = { o.host with
          journal
          tree := (executions o.host.now launches data broken o.host.tree).2 } := by
  obtain ⟨journal, launches, data, broken, hprograms, hspawn⟩ := spawn_run p input o.host
  unfold runInto
  rw [runFrom_bind, runFrom_ofAct]
  rcases hrun : runFrom (p.spawn input) o.host with ⟨result, k⟩
  rw [hrun] at hspawn
  simp only at hspawn
  subst hspawn
  cases result with
  | error e => exact ⟨journal, launches, data, broken, hprograms, rfl⟩
  | ok running =>
    -- so is how they end
    obtain ⟨journal', hwait⟩ := wait_eq (running.drain o.sink).2.1 { o.host with
      journal
      tree := (executions o.host.now launches data broken o.host.tree).2 }
    exact ⟨journal', launches, data, broken, hprograms, hwait⟩

/-- A whole run of a pipeline changes files in scratch directories only. -/
theorem runInto_working {T : Location} (p : Pipeline) (input : PipelineInput) :
    MovesHost (fun h k => h.Sound T → h.Working T k) (p.runInto input) := by
  intro o hsound
  obtain ⟨journal, launches, data, broken, hprograms, hrun⟩ := runInto_run p input o
  have hconfined : ∀ l ∈ launches, l.program.Confined T := by
    intro l hl
    obtain ⟨loc, hloc⟩ := hprograms l hl
    exact hsound.confined loc _ hloc
  obtain ⟨hwf, hsame⟩ := executions_confined o.host.now hconfined data broken hsound.wellFormed
  rw [hrun]
  refine ⟨⟨hwf, ?_, hsound.confined, hsound.outside⟩, ⟨rfl, rfl, rfl, rfl, rfl, hsame⟩, rfl⟩
  show (executions _ _ _ _ _).2.get? o.host.directory = _
  rw [hsame _ hsound.outside]
  exact hsound.directory

end Pipeline

/-! ## §6 Reading -/

section Reading

variable {R : Host → Host → Prop}

theorem copyFile_moves (refl : ∀ h, R h h) (trans : ∀ h k l, R h k → R k l → R h l)
    (path : Path) : MovesHost R (copyFile path) :=
  .bind trans (.ofAct (.read refl _)) fun _ => .copy refl _ _

theorem appendFile_moves (refl : ∀ h, R h h) (trans : ∀ h k l, R h k → R k l → R h l)
    (source path : Path) : MovesHost R (appendFile source path) := by
  refine .bind trans (.ofAct (.read refl _)) fun opened => ?_
  cases opened.read with
  | ok data => exact .copy refl _ _
  | error e => exact .throw refl _

theorem appendFiles_moves (refl : ∀ h, R h h) (trans : ∀ h k l, R h k → R k l → R h l)
    (source : Path) (paths : List Path) :
    MovesHost R (appendFiles source paths) := by
  induction paths with
  | nil => exact .pure refl 0
  | cons path rest ih =>
    exact .bind trans (appendFile_moves refl trans source path) fun _ =>
      .bind trans ih fun _ => .pure refl _

/-- Following directives only reads. -/
theorem expand_moves (refl : ∀ h, R h h) (trans : ∀ h k l, R h k → R k l → R h l)
    (source : Path) : MovesHost R (expand source) :=
  .bind trans (.ofAct (.read refl _)) fun _ => appendFiles_moves refl trans _ _

end Reading

/-! ## §7 Compiling -/

namespace Compiler

/-- A pipeline that is run for its effect changes files in scratch directories only. -/
theorem runAside_working {T : Location} (p : Pipeline) :
    Moves (fun h k => h.Sound T → h.Working T k) (runAside p) :=
  fun h hsound => p.runInto_working .null ⟨h, .unlimited⟩ hsound

/-- Making an artifact and passing it on changes files in scratch directories only. -/
theorem passArtifact_working {T : Location} (compile : Pipeline) (artifact : Path)
    (optimize : Option Pipeline) :
    MovesHost (fun h k => h.Sound T → h.Working T k)
      (passArtifact compile artifact optimize) := by
  refine .bind Host.works_trans (.ofAct (runAside_working compile)) fun _ => ?_
  cases optimize with
  | some p => exact p.runInto_working (.file artifact)
  | none => exact copyFile_moves (fun _ => .refl) Host.works_trans artifact

section Plans

variable (c : Compiler) (source : Path)

theorem plan_component : c.plan .component source = Act.read fun h =>
    streamPlan h (c.component h source) (c.optimizerStage? .component) := rfl

theorem plan_stylesheet : c.plan .stylesheet source = Act.read fun h =>
    streamPlan h (c.stylesheet source) (c.optimizerStage? .stylesheet) := rfl

theorem plan_preprocessedScript : c.plan .preprocessedScript source = Act.read fun h =>
    streamPlan h (c.preprocessor source) (c.optimizerStage? .preprocessedScript) := rfl

theorem plan_typedSuperset : c.plan .typedSuperset source = makeScratch >>= fun scratch =>
    Act.ofPair fun h =>
      match c.intermediatePlan h source scratch (c.optimizerStage? .typedSuperset) with
      | .ok plan => (.ok plan, h)
      | .error e => (.error e, removeScratch scratch h) := rfl

theorem plan_bundle : c.plan .bundle source = Act.read fun _ => .ok (.bundle source) := rfl

theorem plan_passthrough : c.plan .passthrough source =
    Act.read fun _ => .ok (.passthrough source) := rfl

theorem plan_unknown : c.plan .unknown source =
    Act.read fun _ => .error (.unsupportedKind Kind.unknown.label source) := rfl

end Plans

theorem streamPlan_ne_intermediate (h : Host) (first : Command) (optimizer : Option Command)
    (compile : Pipeline) (artifact : Path) (optimize : Option Pipeline) (scratch : Path) :
    streamPlan h first optimizer ≠ .ok (.intermediate compile artifact optimize scratch) := by
  intro heq
  unfold streamPlan at heq
  cases hlocated : located h ⟨first :: optimizer.toList⟩ with
  | error e => rw [hlocated] at heq; cases heq
  | ok p => rw [hlocated] at heq; cases heq

/-- Planning reads only, and makes no scratch directory, for every kind but one. -/
theorem plan_reads (c : Compiler) {kind : Kind} (hkind : kind ≠ .typedSuperset) (source : Path) :
    ∃ f : Host → Except Failure Plan, c.plan kind source = Act.read f ∧
      ∀ h compile artifact optimize scratch,
        f h ≠ .ok (.intermediate compile artifact optimize scratch) := by
  cases kind with
  | typedSuperset => exact absurd rfl hkind
  | component => exact ⟨_, plan_component c source, fun h => streamPlan_ne_intermediate h _ _⟩
  | stylesheet => exact ⟨_, plan_stylesheet c source, fun h => streamPlan_ne_intermediate h _ _⟩
  | preprocessedScript =>
    exact ⟨_, plan_preprocessedScript c source, fun h => streamPlan_ne_intermediate h _ _⟩
  | bundle => exact ⟨_, plan_bundle c source, fun _ _ _ _ _ heq => by cases heq⟩
  | passthrough => exact ⟨_, plan_passthrough c source, fun _ _ _ _ _ heq => by cases heq⟩
  | unknown => exact ⟨_, plan_unknown c source, fun _ _ _ _ _ heq => by cases heq⟩

/-- The plan that makes a scratch directory leaves none if it fails; else the directory waits for
    the work to be done in it. -/
theorem plan_scratch (c : Compiler) (source : Path) {h : Host} (hready : h.Ready) :
    (∃ e k, runFrom (c.plan .typedSuperset source) h = (.error e, k) ∧ h.Quiet k) ∨
      ∃ scratch k plan, runFrom makeScratch h = (.ok scratch, k) ∧
        c.intermediatePlan k source scratch (c.optimizerStage? .typedSuperset) = .ok plan ∧
        runFrom (c.plan .typedSuperset source) h = (.ok plan, k) := by
  rw [plan_typedSuperset, runFrom_bind]
  rcases hmake : runFrom makeScratch h with ⟨made, k⟩
  cases made with
  | error e =>
    left
    refine ⟨e, k, rfl, ?_⟩
    unfold makeScratch at hmake
    rw [runFrom_ofPair] at hmake
    simp only at hmake
    split at hmake
    · rw [Prod.mk.injEq] at hmake
      cases hmake.1
    · rw [Prod.mk.injEq] at hmake
      rw [← hmake.2]
      exact .refl hready
  | ok scratch =>
    simp only [runFrom_ofPair]
    cases hinner : c.intermediatePlan k source scratch (c.optimizerStage? .typedSuperset) with
    | ok plan => exact .inr ⟨scratch, k, plan, rfl, hinner, rfl⟩
    | error e =>
      left
      exact ⟨e, _, rfl, removeScratch_quiet hready hmake (.refl (makeScratch_sound hready hmake))⟩

/-- The pipeline of an optimizer stage that was located, if there is such a stage. -/
def Optimizes (h : Host) : Option Command → Option Pipeline → Prop
  | none, optimize => optimize = none
  | some stage, optimize => ∃ p, located h ⟨[stage]⟩ = .ok p ∧ optimize = some p

/-- What the plan with an artifact consists of. -/
theorem intermediatePlan_ok_iff {c : Compiler} {h : Host} {source scratch : Path}
    {optimizer : Option Command} {plan : Plan} :
    c.intermediatePlan h source scratch optimizer = .ok plan ↔
      ∃ compile optimize, located h ⟨[c.typescript source (scratch.join "out.js")]⟩ = .ok compile ∧
        Optimizes h optimizer optimize ∧
        plan = .intermediate compile (scratch.join "out.js") optimize scratch := by
  unfold intermediatePlan
  cases hcompile : located h ⟨[c.typescript source (scratch.join "out.js")]⟩ with
  | error e =>
    simp only [hcompile]
    constructor
    · rintro ⟨⟩
    · rintro ⟨_, _, hnone, -⟩
      cases hnone
  | ok compile =>
    simp only [hcompile, Except.ok.injEq, exists_and_left, exists_eq_left']
    -- the optimizer is located last, and only where there is one
    cases optimizer with
    | none =>
      constructor
      · rintro ⟨⟩
        exact ⟨none, rfl, rfl⟩
      · rintro ⟨optimize, rfl, rfl⟩
        rfl
    | some stage =>
      cases hstage : located h ⟨[stage]⟩ with
      | error e =>
        simp only [hstage]
        constructor
        · rintro ⟨⟩
        · rintro ⟨_, ⟨p, hp, -⟩, -⟩
          rw [hstage] at hp
          cases hp
      | ok p =>
        simp only [hstage]
        constructor
        · rintro ⟨⟩
          exact ⟨some p, ⟨p, hstage, rfl⟩, rfl⟩
        · rintro ⟨_, ⟨p', hp, rfl⟩, rfl⟩
          rw [hstage, Except.ok.injEq] at hp
          rw [hp]
          rfl

/-- A plan for a typed source succeeds once a scratch directory is made and the tools are located. -/
theorem plan_typedSuperset_ok_iff {c : Compiler} {source : Path} {h k : Host} {plan : Plan} :
    runFrom (c.plan .typedSuperset source) h = (.ok plan, k) ↔
      ∃ scratch compile optimize, runFrom makeScratch h = (.ok scratch, k) ∧
        located k ⟨[c.typescript source (scratch.join "out.js")]⟩ = .ok compile ∧
        Optimizes k (c.optimizerStage? .typedSuperset) optimize ∧
        plan = .intermediate compile (scratch.join "out.js") optimize scratch := by
  have hinner : ∀ {scratch : Path} {l : Host}, runFrom (Act.ofPair fun h =>
      match c.intermediatePlan h source scratch (c.optimizerStage? .typedSuperset) with
      | .ok plan => (.ok plan, h)
      | .error e => (.error e, removeScratch scratch h)) l = (.ok plan, k) ↔
        c.intermediatePlan l source scratch (c.optimizerStage? .typedSuperset) = .ok plan ∧
          l = k := by
    intro scratch l
    rw [runFrom_ofPair]
    cases c.intermediatePlan l source scratch (c.optimizerStage? .typedSuperset) <;> simp
  rw [plan_typedSuperset, runFrom_bind_ok]
  simp only [hinner, intermediatePlan_ok_iff]
  constructor
  · rintro ⟨scratch, l, hmake, ⟨compile, optimize, hparts⟩, rfl⟩
    exact ⟨scratch, compile, optimize, hmake, hparts⟩
  · rintro ⟨scratch, compile, optimize, hmake, hparts⟩
    exact ⟨scratch, k, hmake, ⟨compile, optimize, hparts⟩, rfl⟩

/-- Work in a scratch directory that is removed afterwards changes nothing. -/
theorem withScratch_quiet {α : Type} {act : Emit α} {h k : Host} {scratch : Path}
    (hact : MovesHost (fun k l => k.Sound h.temporary → k.Working h.temporary l) act)
    (hready : h.Ready) (hmake : runFrom makeScratch h = (.ok scratch, k)) (sink : Sink) :
    h.Quiet (runFrom (withScratch scratch act) ⟨k, sink⟩).2.host :=
  removeScratch_quiet hready hmake (hact ⟨k, sink⟩ (makeScratch_sound hready hmake))

/-- Compiling one source changes no file. -/
theorem compileSource_quiet (c : Compiler) (kind : Kind) (source : Path) :
    MovesHost (fun h k => h.Ready → h.Quiet k) (c.compileSource kind source) := by
  have expand_quiet : MovesHost (fun h k => h.Ready → h.Quiet k) (expand source) :=
    expand_moves (fun _ => .refl) Host.rests_trans source
  have stream_quiet : ∀ p : Pipeline, MovesHost (fun h k => h.Ready → h.Quiet k) (p.runInto .null) :=
    fun p o hready => (p.runInto_working .null o hready.sound).quiet hready
  intro o hready
  unfold compileSource
  rw [runFrom_bind, runFrom_ofAct]
  -- only a plan for the typed superset changes the host
  by_cases hkind : kind = .typedSuperset
  · subst hkind
    rcases plan_scratch c source hready with
      ⟨e, k, hrun, hquiet⟩ | ⟨scratch, k, plan, hmake, hplan, hrun⟩
    · rw [hrun]
      exact hquiet
    · rw [hrun]
      obtain ⟨compile, optimize, -, -, rfl⟩ := intermediatePlan_ok_iff.mp hplan
      have hquiet := withScratch_quiet (passArtifact_working compile (scratch.join "out.js") optimize)
        hready hmake o.sink
      show o.host.Quiet (runFrom (withScratch scratch (passArtifact compile (scratch.join "out.js")
        optimize) >>= fun n => expand source >>= fun more => pure (n + more)) ⟨k, o.sink⟩).2.host
      rw [runFrom_bind]
      rcases hwork : runFrom (withScratch scratch (passArtifact compile (scratch.join "out.js")
        optimize)) ⟨k, o.sink⟩ with ⟨result, o'⟩
      rw [hwork] at hquiet
      cases result with
      | error e => exact hquiet
      | ok n =>
        exact hquiet.trans (MovesHost.bind Host.rests_trans expand_quiet
          (fun _ => .pure (fun _ => .refl) _) o' hquiet.ready)
  · obtain ⟨f, hplan, hstream⟩ := plan_reads c hkind source
    rw [hplan, runFrom_read]
    cases hplanned : f o.host with
    | error e => exact .refl hready
    | ok plan =>
      cases plan with
      | passthrough path => exact copyFile_moves (fun _ => .refl) Host.rests_trans path _ hready
      | bundle manifest => exact .refl hready
      | stream p =>
        exact MovesHost.bind Host.rests_trans (stream_quiet p) (fun _ =>
          .bind Host.rests_trans expand_quiet fun _ => .pure (fun _ => .refl) _) _ hready
      | intermediate compile artifact optimize scratch =>
        exact absurd hplanned (hstream _ compile artifact optimize scratch)

theorem compileUnits_quiet (c : Compiler) (manifest dir : Path) (m : Manifest) (index : Nat)
    (units : List BundleUnit) :
    MovesHost (fun h k => h.Ready → h.Quiet k) (c.compileUnits manifest dir m index units) := by
  induction units generalizing index with
  | nil => exact .pure (fun _ => .refl) 0
  | cons u rest ih =>
    unfold compileUnits
    simp only
    split
    · exact .throw (fun _ => .refl) _
    · exact .bind Host.rests_trans (compileSource_quiet _ _ _) fun _ =>
        .bind Host.rests_trans (ih (index + 1)) fun _ => .pure (fun _ => .refl) _

/-- Compiling leaves every file as it was, whether it succeeds or fails. -/
theorem compile_quiet (c : Compiler) (kind : Kind) (source : Path) :
    MovesHost (fun h k => h.Ready → h.Quiet k) (c.compile kind source) := by
  unfold compile
  split
  · exact .bind Host.rests_trans (.ofAct (.read (fun _ => .refl) _)) fun m =>
      compileUnits_quiet c _ _ m 0 m.units
  · exact compileSource_quiet c kind source

end Compiler

/-! ## §8 What every step of a compilation keeps -/

/-- A relation between hosts that the steps of a compilation establish, and that goes on over
    several of them. -/
structure StepRelation (R : Host → Host → Prop) : Prop where
  refl : ∀ h, R h h
  trans : ∀ h k l, R h k → R k l → R h l
  makeScratch : Moves R makeScratch
  removeScratch : ∀ scratch h, R h (removeScratch scratch h)
  runInto : ∀ (p : Pipeline) (input : PipelineInput), MovesHost R (p.runInto input)

namespace StepRelation

variable {R : Host → Host → Prop} (hR : StepRelation R) (c : Compiler) (kind : Kind) (source : Path)

include hR

theorem plan : Moves R (c.plan kind source) := by
  by_cases htyped : kind = .typedSuperset
  · subst htyped
    rw [Compiler.plan_typedSuperset]
    refine .bind hR.trans hR.makeScratch fun scratch h => ?_
    rw [runFrom_ofPair]
    split
    · exact hR.refl h
    · exact hR.removeScratch scratch h
  · obtain ⟨f, hplan, -⟩ := c.plan_reads htyped source
    rw [hplan]
    exact .read hR.refl f

theorem passArtifact (compile : Pipeline) (artifact : Path) (optimize : Option Pipeline) :
    MovesHost R (passArtifact compile artifact optimize) := by
  refine .bind hR.trans (.ofAct fun h => hR.runInto compile .null ⟨h, .unlimited⟩) fun _ => ?_
  cases optimize with
  | some p => exact hR.runInto p (.file artifact)
  | none => exact copyFile_moves hR.refl hR.trans artifact

theorem withScratch {α : Type} {act : Emit α} (hact : MovesHost R act) (scratch : Path) :
    MovesHost R (withScratch scratch act) :=
  fun o => hR.trans _ _ _ (hact o) (hR.removeScratch scratch _)

theorem compileSource : MovesHost R (c.compileSource kind source) := by
  have hexpand : ∀ n : Nat, MovesHost R (expand source >>= fun more => pure (n + more)) :=
    fun n => .bind hR.trans (expand_moves hR.refl hR.trans source) fun _ => .pure hR.refl _
  unfold Compiler.compileSource
  refine .bind hR.trans (.ofAct (hR.plan c kind source)) fun plan => ?_
  cases plan with
  | passthrough path => exact copyFile_moves hR.refl hR.trans path
  | bundle path => exact .pure hR.refl 0
  | stream p => exact .bind hR.trans (hR.runInto p .null) hexpand
  | intermediate compile artifact optimize scratch =>
    exact .bind hR.trans (hR.withScratch (hR.passArtifact compile artifact optimize) scratch)
      hexpand

theorem compileUnits (manifest dir : Path) (m : Manifest) (index : Nat) (units : List BundleUnit) :
    MovesHost R (c.compileUnits manifest dir m index units) := by
  induction units generalizing index with
  | nil => exact .pure hR.refl 0
  | cons u rest ih =>
    unfold Compiler.compileUnits
    simp only
    split
    · exact .throw hR.refl _
    · exact .bind hR.trans (hR.compileSource _ _ _) fun _ =>
        .bind hR.trans (ih (index + 1)) fun _ => .pure hR.refl _

/-- What the steps of a compilation establish, a compilation does. -/
theorem compile : MovesHost R (c.compile kind source) := by
  unfold Compiler.compile
  split
  · exact .bind hR.trans (.ofAct (.read hR.refl _)) fun m => hR.compileUnits c _ _ m 0 m.units
  · exact hR.compileSource c kind source

end StepRelation

end AssetServer
