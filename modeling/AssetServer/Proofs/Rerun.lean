import AssetServer.Proofs.Coverage

/-!
# A file whose output is there

What exporting a file comes to, with the modes of files and the lengths of paths that decide whether
it can be done once more. A file that is written (`Visit.Writes`) leaves an output that its owner
may write to, unless it was copied from a file without that permission (`Visit.Written.writable`).
Where the directories and the output are there, nothing is in the way of writing the output
(`Export.runFrom_copy_there`, `Export.runFrom_compileToFile_there`).
-/

namespace AssetServer

/-- The place holds a file that its owner may write to. -/
def Host.Writable (loc : Location) (h : Host) : Prop :=
  ∃ f, h.tree.get? loc = some (.file f) ∧ f.ownerWrites = true

namespace Visit

/-- An export writes an output for the file. -/
def Writes (x : Export) (v : Visit) : Prop :=
  v.Compiled ∨ v.Copied x

instance (x : Export) (v : Visit) : Decidable (v.Writes x) := by
  unfold Writes
  infer_instance

end Visit

namespace Export

variable {x : Export} {k k' : Host} {v : Visit} {visits : List Visit} {ending : Ending}
  {dir : List String} {n o : String} {q source : Path} {f g : RegularFile} {roots : List Path}

/-! ## §1 Writing to an output that is there -/

/-- The path of an output leads to the output. -/
theorem stat_there {e : Entry} (hb : x.Based k) (hdir : ∀ m ∈ dir, IsName m)
    (hq : Tree.Spells x.dest dir q) (hn : IsName n) (hfits : Tree.Fits (q.join n))
    (he : k.tree.get? (x.location ++ (dir ++ [n])) = some e) :
    k.tree.stat k.directory q = .ok (x.location ++ dir, .directory) ∧
      k.tree.stat k.directory (q.join n) = .ok (x.location ++ (dir ++ [n]), e) := by
  rw [← List.append_assoc] at he ⊢
  have hthere := hb.wellFormed.parent he
  have hstat := hb.stat_parent hdir hthere hq hn hfits
  have hfree := hb.linkFree.append dir
  have hnames : ∀ m ∈ [n], IsName m := by
    intro m hm
    exact List.mem_singleton.mp hm ▸ hn
  exact ⟨hstat, (Tree.stat_names_iff hstat (.refl k.tree) hb.wellFormed hthere hfree hnames).mpr
    ⟨hfits, rfl, he⟩⟩

/-- Directories that are there are left as they are. -/
theorem makeParent_there {e : Entry} (hb : x.Based k) (hdir : ∀ m ∈ dir, IsName m)
    (hq : Tree.Spells x.dest dir q) (hn : IsName n) (hfits : Tree.Fits (q.join n))
    (he : k.tree.get? (x.location ++ (dir ++ [n])) = some e) :
    runFrom (Compiler.makeParent (q.join n)) k = (.ok (), k) := by
  obtain ⟨up, hparent, hup⟩ := hq.parent hb.dest_ne_empty hdir hn
  have hstat : k.tree.stat k.directory up = .ok (x.location ++ dir, .directory) := by
    -- above the output is the destination as it is spelled, but for slashes at its end
    by_cases hnone : dir = []
    · subst hnone
      cases hup with
      | here htrims => simpa using Tree.stat_of_trims htrims hb.dest
      | below hne => exact absurd rfl hne
    · rw [hup.eq_descend hnone, ← hq.eq_descend hnone]
      exact (stat_there hb hdir hq hn hfits he).1
  unfold Compiler.makeParent
  rw [hparent]
  show runFrom (Act.ofPair _) k = _
  rw [runFrom_ofPair, Tree.makeDirectories_there hstat]

/-- A file that may be written to is where its path leads. -/
theorem target_there (hb : x.Based k) (hdir : ∀ m ∈ dir, IsName m)
    (hq : Tree.Spells x.dest dir q) (hn : IsName n) (hfits : Tree.Fits (q.join n))
    (hg : k.tree.get? (x.location ++ (dir ++ [n])) = some (.file g))
    (hwrites : g.ownerWrites = true) (mode : Nat) :
    k.tree.target k.directory (q.join n) mode = .ok (x.location ++ (dir ++ [n]), g.mode) := by
  obtain ⟨-, hstat⟩ := stat_there hb hdir hq hn hfits hg
  exact Tree.target_ok_iff.mpr (.inl ⟨g, Tree.stat_ok_iff.mp hstat, hwrites, rfl⟩)

/-- An output that is there is emptied and filled with what compiling the source writes. -/
theorem runFrom_compileToFile_there {kind : Kind} {result : Except Failure Nat} {out : Outlet}
    (hb : x.Based k) (hdir : ∀ m ∈ dir, IsName m) (hq : Tree.Spells x.dest dir q) (hn : IsName n)
    (hfits : Tree.Fits (q.join n))
    (hg : k.tree.get? (x.location ++ (dir ++ [n])) = some (.file g))
    (hwrites : g.ownerWrites = true)
    (hcompile : runFrom (x.compiler.compile kind source)
      ⟨{ k with tree := k.tree.put (x.location ++ (dir ++ [n])) (.file ⟨[], g.mode, k.now⟩) },
        .unlimited⟩ = (result, out)) :
    runFrom (x.compiler.compileToFile kind source (q.join n)) k =
      (result, { out.host with
        tree := out.host.tree.fill out.host.now (x.location ++ (dir ++ [n])) out.sink.held }) :=
  runFrom_compileToFile (makeParent_there hb hdir hq hn hfits hg)
    (target_there hb hdir hq hn hfits hg hwrites RegularFile.defaultMode) hcompile

/-- An output that is there takes over the content and the mode of the file that is copied to it. -/
theorem runFrom_copy_there {p : Pass} (hb : x.Based p.host) (hdir : ∀ m ∈ dir, IsName m)
    (hn : IsName n) (hfits : Tree.Fits (descend x.dest (dir ++ [n])))
    (hplace : p.host.tree.samePlace p.host.directory source (descend x.dest (dir ++ [n])) = false)
    (hopen : p.host.tree.openFile p.host.directory source = .ok (.file f))
    (hg : p.host.tree.get? (x.location ++ (dir ++ [n])) = some (.file g))
    (hwrites : g.ownerWrites = true) :
    runFrom (copy source (descend x.dest (dir ++ [n]))) p =
      (.ok (), ⟨{ p.host with
          tree := p.host.tree.put (x.location ++ (dir ++ [n]))
            (.file ⟨f.content, f.mode, p.host.now⟩) },
        { p.report with copied := p.report.copied + 1 },
        p.progress ++ [.file source (descend x.dest (dir ++ [n])) .passthrough]⟩) := by
  have hq : Tree.Spells x.dest dir (descend x.dest dir) := .descend hb.dest_ne_empty
  rw [Path.descend_concat x.dest] at hfits hplace ⊢
  have htarget := target_there hb hdir hq hn hfits hg hwrites f.mode
  unfold copy
  rw [runFrom_bind, runFrom_look, hplace]
  simp only [Bool.false_eq_true, if_false]
  rw [runFrom_bind, runFrom_export, makeParent_there hb hdir hq hn hfits hg]
  simp only
  rw [runFrom_bind, runFrom_export, runFrom_ofPair,
    Tree.copyFile_ok_iff.mpr ⟨f, _, _, hopen, htarget, rfl⟩]
  simp only [runFrom_bind, runFrom_count, runFrom_tell]

end Export

/-! ## §2 What is written -/

namespace Visit

variable {x : Export} {v : Visit} {k : Host} {visits : List Visit} {roots : List Path}

/-- How an export wrote the output of a file: by copying it, or by compiling it into an output that
    was made or emptied for it. -/
inductive Written (x : Export) (v : Visit) : Host → Prop where
  | copied {f : RegularFile} {k : Host} (hcopied : v.Copied x)
      (hf : v.host.tree.get? (v.base ++ v.names) = some (.file f))
      (hfits : Tree.Fits (Export.descend x.dest v.names))
      (hputs : x.Puts v.dir v.name ⟨f.content, f.mode, v.host.now⟩ v.host k) : Written x v k
  | compiled {o : String} {q : Path} {f : RegularFile} {k₂ : Host} {m : Nat} {out : Outlet}
      (hcompiled : v.Compiled) (ho : Kind.exportName? v.name = some o)
      (hq : Tree.Spells x.dest v.dir q)
      (hfile : ∀ {p : Pass} {m : Nat} {k : Host},
        runFrom (x.compiler.compileToFile v.kind v.source (q.join o)) p.host = (.ok m, k) →
          ∃ p', runFrom (x.file v.root v.names) p = (.ok (), p') ∧ p'.host = k)
      (hfits : Tree.Fits (q.join o)) (hwrites : f.ownerWrites = true)
      (hputs : x.Puts v.dir o f v.host k₂)
      (hcompile : runFrom (x.compiler.compile v.kind v.source) ⟨k₂, .unlimited⟩ = (.ok m, out)) :
      Written x v { out.host with
        tree := out.host.tree.fill out.host.now (x.location ++ (v.dir ++ [o])) out.sink.held }

theorem exportName?_of_copied (h : v.Copied x) : Kind.exportName? v.name = some v.name :=
  Kind.exportName?_plain h.1

theorem Writes.exists_exportName? (h : v.Writes x) : ∃ o, Kind.exportName? v.name = some o := by
  rcases h with hcompiled | hcopied
  · refine Option.ne_none_iff_exists'.mp fun hnone => ?_
    exact Export.not_compiled_of_kind (Kind.exportName?_eq_none_iff.mp hnone) (by decide) hcompiled
  · exact ⟨v.name, exportName?_of_copied hcopied⟩

theorem Compiled.ne_passthrough (h : v.Compiled) : v.kind ≠ .passthrough :=
  fun hplain => Export.not_compiled_of_kind hplain (by decide) h

/-- Names of a file that is met. -/
theorem Met.isName (h : v.Met x roots) (ha : x.Amid v.host) :
    (∀ m ∈ v.dir, IsName m) ∧ IsName v.name ∧ v.root.text ≠ "" := by
  obtain ⟨f, hf⟩ := h.isFile
  have hnames : ∀ m ∈ v.dir ++ [v.name], IsName m := ha.ready.wellFormed.names hf
  exact ⟨fun m hm => hnames m (List.mem_append_left _ hm), hnames v.name (by simp),
    Tree.ne_empty_of_stat h.stat_root⟩

/-- A file that has to be copied is not in its place. -/
theorem Copied.samePlace (h : v.Copied x) (hmet : v.Met x roots) (ha : x.Amid v.host) :
    v.host.tree.samePlace v.host.directory v.source (Export.descend x.dest v.names) = false := by
  obtain ⟨f, hf⟩ := hmet.isFile
  rw [← Bool.not_eq_true]
  intro hsame
  have hplace := Export.eq_location_of_samePlace ha.based hmet.stat_root
    (ha.linkFree.below v.base) hf hmet.fits hsame
  exact h.2 (by rw [hplace])

section Run

variable {p p' : Pass}

/-- The run of a compiled source is that of the compiler, into an output that was made or emptied. -/
theorem Compiled.written (h : v.Compiled) (ha : x.Amid v.host) (hmet : v.Met x roots)
    (hhost : p.host = v.host) (hrun : runFrom (x.file v.root v.names) p = (.ok (), p')) :
    v.Written x p'.host := by
  obtain ⟨hdir, hn, hroot⟩ := hmet.isName ha
  obtain ⟨o, ho⟩ := Writes.exists_exportName? (x := x) (.inl h)
  obtain ⟨q, hq, hfile⟩ := Export.file_compiled ha.based.dest_ne_empty hroot hdir hn ho
    h.ne_passthrough
  -- compiling it again on any pass comes to what the compiler comes to there
  have hgoes : ∀ {p : Pass} {m : Nat} {k : Host},
      runFrom (x.compiler.compileToFile v.kind v.source (q.join o)) p.host = (.ok m, k) →
        ∃ p', runFrom (x.file v.root v.names) p = (.ok (), p') ∧ p'.host = k := by
    intro p m k hmade
    have hstep := hfile p
    rw [show runFrom (x.compiler.compileToFile (Kind.ofName v.name)
      (Export.descend v.root (v.dir ++ [v.name])) (q.join o)) p.host = _ from hmade] at hstep
    exact ⟨_, hstep, rfl⟩
  rcases hmade : runFrom (x.compiler.compileToFile v.kind v.source (q.join o)) p.host with
    ⟨made, k'⟩
  rw [show x.file v.root v.names = x.file v.root (v.dir ++ [v.name]) from rfl, hfile,
    show runFrom (x.compiler.compileToFile (Kind.ofName v.name)
      (Export.descend v.root (v.dir ++ [v.name])) (q.join o)) p.host = _ from hmade] at hrun
  cases made with
  | error e => cases hrun
  | ok m =>
    simp only [Prod.mk.injEq, true_and] at hrun
    subst hrun
    rw [hhost] at hmade
    rcases Export.compileToFile_cases ha.based hdir hq (Kind.exportName?_isName hn ho) hmade with
      ⟨⟨e, herror⟩, -⟩ | ⟨g, k₂, out, -, hwrites, hfits, hputs, hcompile, rfl⟩
    · cases herror
    · exact .compiled h ho hq hgoes hfits hwrites hputs hcompile

/-- A file that is used as it is is copied: directories that are made for the output leave it as it
    was. -/
theorem Copied.written (h : v.Copied x) (ha : x.Amid v.host) (hmet : v.Met x roots)
    (hhost : p.host = v.host) (hrun : runFrom (x.file v.root v.names) p = (.ok (), p')) :
    v.Written x p'.host := by
  obtain ⟨hdir, hn, hroot⟩ := hmet.isName ha
  obtain ⟨f, hf⟩ := hmet.isFile
  have hplain : Kind.ofName v.name = .passthrough := h.1
  rw [show x.file v.root v.names = x.file v.root (v.dir ++ [v.name]) from rfl,
    Export.file_plain ha.based.dest_ne_empty hroot hdir hn hplain] at hrun
  have hplace := h.samePlace hmet ha
  rw [← hhost] at hplace
  rcases Export.copy_cases (hhost ▸ ha.based) hdir hn hplace hrun with
    ⟨e, -, herror, -⟩ | ⟨k₁, g, k₂, -, hfits, hclears, hopen, hputs, rfl⟩
  · cases herror
  rw [hhost] at hclears hputs
  -- the directories that are made in between do not change what the source opens
  have hthere : k₁.tree.openFile k₁.directory v.source = .ok (.file f) :=
    Export.openFile_cleared ha hmet.stat_root hf hmet.fits hclears
  rw [hthere] at hopen
  cases hopen
  have hnow : k₁.now = v.host.now := by
    obtain ⟨t, -, rfl⟩ := hclears
    rfl
  rw [hnow] at hputs
  exact .copied h hf hfits hputs

end Run

/-- A run that exports a file with an output writes that output. -/
theorem Ran.written (h : v.Ran x k) (ha : x.Amid v.host) (hmet : v.Met x roots)
    (hw : v.Writes x) : v.Written x k := by
  obtain ⟨p, p', hhost, hrun, rfl⟩ := h
  rcases hw with hcompiled | hcopied
  · exact hcompiled.written ha hmet hhost hrun
  · exact hcopied.written ha hmet hhost hrun

end Visit

/-! ## §3 What is left for another export -/

namespace Export

variable {x : Export} {k k' : Host} {v : Visit} {dir : List String} {n o : String} {f : RegularFile}

theorem Puts.scratches (hp : x.Puts dir n f k k') : k'.scratches = k.scratches := by
  obtain ⟨k₁, ⟨t, -, rfl⟩, -, rfl⟩ := hp.exists_clears
  rfl

/-- Files other than the one that is put stay as they are. -/
theorem Puts.writable (hp : x.Puts dir n f k k') (hwrites : f.ownerWrites = true) {loc : Location}
    (hloc : k.Writable loc ∨ loc = x.location ++ (dir ++ [n])) : k'.Writable loc := by
  by_cases hplace : loc = x.location ++ (dir ++ [n])
  · rw [hplace]
    exact ⟨f, hp.get?_self, hwrites⟩
  · obtain ⟨g, hg, hgwrites⟩ := hloc.resolve_right hplace
    rcases (Changes.of_puts hp).places loc with hsame | ⟨hnone, -⟩ | ⟨hself, -⟩
    · exact ⟨g, hsame.trans hg, hgwrites⟩
    · rw [hnone] at hg
      cases hg
    · exact absurd hself hplace

/-- An export goes on after a file is put at an output. -/
theorem Amid.puts {k₂ : Host} (ha : x.Amid v.host) (hfile : v.IsFile)
    (ho : Kind.exportName? v.name = some o) (hp : x.Puts v.dir o f v.host k₂) : x.Amid k₂ :=
  ha.changes (.of_puts hp) (ha.output_clear hfile ho)

end Export

namespace Visit

variable {x : Export} {v : Visit} {k : Host} {names : List String}

/-- What is written may be written again, and what might be written before still may. -/
theorem Written.writable (h : v.Written x k) (ha : x.Amid v.host) (hfile : v.IsFile)
    (hmode : v.Copied x → v.host.Writable (v.base ++ v.names)) {loc : Location}
    (hloc : v.host.Writable loc ∨ ∃ names, v.output? = some names ∧ loc = x.location ++ names) :
    k.Writable loc := by
  have hplace : ∀ {o : String}, Kind.exportName? v.name = some o →
      v.host.Writable loc ∨ loc = x.location ++ (v.dir ++ [o]) := by
    intro o ho
    refine hloc.imp_right fun ⟨names, hnames, hself⟩ => ?_
    rw [Export.output?_eq ho, Option.some.injEq] at hnames
    rw [hself, hnames]
  cases h with
  | copied hcopied hf hfits hputs =>
    obtain ⟨g, hg, hwrites⟩ := hmode hcopied
    rw [hf] at hg
    cases hg
    exact hputs.writable hwrites (hplace (exportName?_of_copied hcopied))
  | @compiled o q f k₂ m out hcompiled ho hq hgoes hfits hwrites hputs hcompile =>
    obtain ⟨hquiet, -, hfill, -⟩ :=
      Export.fill_compiled (ha.puts hfile ho hputs).ready hputs.get?_self hcompile
    obtain ⟨g, hg, hgwrites⟩ := hputs.writable hwrites (hplace ho)
    -- compiling keeps all files but the output, and the mode of the output
    rw [hfill]
    by_cases hself : loc = x.location ++ (v.dir ++ [o])
    · rw [hself]
      exact ⟨_, Tree.get?_put_self _ (by simp) _, hwrites⟩
    · exact ⟨g, (Tree.get?_put_of_ne _ hself _).trans ((hquiet.get? loc).trans hg), hgwrites⟩

theorem Written.scratches (h : v.Written x k) (ha : x.Amid v.host) (hfile : v.IsFile) :
    v.host.scratches ≤ k.scratches := by
  cases h with
  | copied hcopied hf hfits hputs => rw [hputs.scratches]
  | compiled hcompiled ho hq hgoes hfits hwrites hputs hcompile =>
    obtain ⟨hquiet, -⟩ :=
      Export.fill_compiled (ha.puts hfile ho hputs).ready hputs.get?_self hcompile
    exact hputs.scratches ▸ hquiet.scratches

end Visit

end AssetServer
