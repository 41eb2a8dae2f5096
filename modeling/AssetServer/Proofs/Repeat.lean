import AssetServer.Proofs.Fold
import AssetServer.Proofs.Layers
import AssetServer.Proofs.Retrace

/-!
# Exports that are repeated

An export that succeeded, run once more, succeeds, writes and counts the same, and leaves every file
with the bytes that it had (`Session.exportTo_repeats`), if it does not get in its own way
(`Export.Repeatable`). Two things can be in its way. Where a root is the destination, an output may
have the name of a source, so that a second export compiles it as well. And a copy has the mode of
the file that it was made from, so it cannot be written again if that file may not be written to.
-/

namespace AssetServer

/-- Nothing was made or removed, and every file holds what it held. -/
structure Host.Unchanged (h k : Host) : Prop where
  directory : ∀ loc, k.tree.get? loc = some .directory ↔ h.tree.get? loc = some .directory
  holds : ∀ b loc, k.Holds b loc ↔ h.Holds b loc
  link : ∀ loc target, k.tree.get? loc = some (.link target) ↔
    h.tree.get? loc = some (.link target)

namespace Export

variable {x : Export} {roots : List Path} {made h₁ k k₁ k' p p₁ p' : Host} {u v : Visit}
  {visits us ws : List Visit} {ending : Ending} {names : List String} {loc : Location}

/-! ## §1 One file, written again

The two exports are followed side by side, from one file that the first wrote to the next. At each
of them the second export finds the source as the first did, since sources are not marked, and the
output as a file that may be written to. Where both are on their way their hosts differ at marked
places only, so what compiled for the first compiles for the second, to the same bytes. -/

/-- The hosts of both exports at the same file: `k` in the first one, `p` in the second. Every file
    holds on `p` what it held between the two, or what it holds on `k`. -/
structure Again (x : Export) (roots : List Path) (made h₁ k p : Host) : Prop where
  shaped : x.Shaped roots made h₁ p
  writable : ∀ loc, x.OutputAt roots h₁ loc → p.Writable loc
  scratches : ∃ c, k.scratches = made.scratches + c ∧ p.scratches = h₁.scratches + c
  holds : ∀ b loc, h₁.Holds b loc → p.Holds b loc ∨ ∃ b', k.Holds b' loc ∧ p.Holds b' loc

/-- The second export can do with a file what the first one has done. -/
def Redone (x : Export) (u : Visit) (k₁ p : Host) : Prop :=
  ∀ q : Pass, q.host = p → ∃ q' b names, runFrom (x.file u.root u.names) q = (.ok (), q') ∧
    q'.host.scratches + u.host.scratches = p.scratches + k₁.scratches ∧
    u.output? = some names ∧ k₁.Holds b (x.location ++ names) ∧
    q'.host.Holds b (x.location ++ names)

/-- A file that is written is met by the second export as it was before. -/
theorem Shaped.met_again (hs : x.Shaped roots made h₁ p) (hmet : (u.on h₁).Met x roots) :
    (u.on p).Met x roots :=
  hmet.kept hs.keeps hs.beside.directory

theorem Shaped.source (hs : x.Shaped roots made h₁ p) (hl : x.Leaves roots made visits h₁)
    (hr : x.Repeatable roots made h₁) (hmet : (u.on h₁).Met x roots) (hw : u.Writes x) :
    p.tree.get? (u.base ++ u.names) = h₁.tree.get? (u.base ++ u.names) :=
  hs.beside.tree _ (hl.not_marked hr (v := u.on h₁) rfl hmet hw)

/-- A file that was copied can be copied again. -/
theorem Again.copied (h : x.Again roots made h₁ u.host p) (hl : x.Leaves roots made visits h₁)
    (hr : x.Repeatable roots made h₁) (hahead : x.Ahead roots made visits h₁ u.host (u :: us))
    (hcopied : u.Copied x) {f : RegularFile}
    (hf : u.host.tree.get? (u.base ++ u.names) = some (.file f))
    (hfits : Tree.Fits (descend x.dest u.names))
    (hputs : x.Puts u.dir u.name ⟨f.content, f.mode, u.host.now⟩ u.host k₁) :
    x.Redone u k₁ p := by
  have hw : u.Writes x := .inr hcopied
  have hmet := hl.met (hahead.mem u List.mem_cons_self)
  have hmet' := h.shaped.met_again hmet
  have ha : x.Amid (u.on p).host := h.shaped.amid
  obtain ⟨hdir, hn, hroot⟩ : (∀ m ∈ u.dir, IsName m) ∧ IsName u.name ∧ u.root.text ≠ "" :=
    hmet'.isName ha
  obtain ⟨g, hg, hwrites⟩ : p.Writable (x.location ++ (u.dir ++ [u.name])) :=
    h.writable _ ⟨u.on h₁, rfl, hmet, hw, _,
      output?_eq (Visit.exportName?_of_copied hcopied), rfl⟩
  have hfile : p.tree.get? (u.base ++ u.names) = some (.file f) := by
    rw [h.shaped.source hl hr hmet hw, ← hahead.source hl hr hw, hf]
  have hclears : x.Clears [] p p := .refl ha.based
  have hopen : p.tree.openFile p.directory u.source = .ok (.file f) :=
    openFile_cleared ha hmet'.stat_root hfile hmet'.fits hclears
  -- a file that was copied did not lie in its place, and its copy does not either
  rintro q rfl
  have hplace : q.host.tree.samePlace q.host.directory u.source (descend x.dest u.names) = false :=
    Visit.Copied.samePlace (v := u.on q.host) hcopied hmet' ha
  have hplain : x.file u.root u.names = copy u.source (descend x.dest u.names) :=
    file_plain ha.based.dest_ne_empty hroot hdir hn hcopied.1
  have hrun := runFrom_copy_there (p := q) ha.based hdir hn hfits hplace hopen hg hwrites
  rw [show copy u.source (descend x.dest (u.dir ++ [u.name])) = _ from hplain.symm] at hrun
  exact ⟨_, f.content, u.names, hrun, by rw [hputs.scratches],
    output?_eq (Visit.exportName?_of_copied hcopied), ⟨_, hputs.get?_self, rfl⟩,
    _, Tree.get?_put_self _ (by simp) _, rfl⟩

/-- A file that is put at an output is at a marked place. -/
theorem beside_of_puts {o : String} {f : RegularFile} (hb : h₁.Beside (x.Marked roots made h₁) k)
    (hmet : (u.on h₁).Met x roots) (hw : u.Writes x) (ho : Kind.exportName? u.name = some o)
    (hputs : x.Puts u.dir o f k k₁)
    (hnew : ∀ loc, k.tree.get? loc = none → k₁.tree.get? loc = some .directory →
      x.Marked roots made h₁ loc) : h₁.Beside (x.Marked roots made h₁) k₁ := by
  have hchanges : x.Changes (u.dir ++ [o]) k k₁ := .of_puts hputs
  refine hb.trans ⟨hchanges.beside.directory, hchanges.beside.environment,
    hchanges.beside.accountHome, hchanges.beside.programs, hchanges.beside.now,
    fun loc hloc => ?_⟩
  rcases hchanges.places loc with hsame | ⟨hnone, hdir, -⟩ | ⟨hself, -⟩
  · exact hsame
  · exact absurd (hnew loc hnone hdir) hloc
  · exact absurd (.inl ⟨u.on h₁, rfl, hmet, hw, _, output?_eq ho, hself⟩) hloc

/-- When the first export compiles into an output, what differs from the host that it leaves are
    marked places. -/
theorem Ahead.matches {o : String} {f : RegularFile}
    (h : x.Ahead roots made visits h₁ u.host (u :: us)) (hl : x.Leaves roots made visits h₁)
    (hw : u.Writes x) (ho : Kind.exportName? u.name = some o)
    (hputs : x.Puts u.dir o f u.host k) (hkeeps : k.tree.Keeps h₁.tree) :
    h₁.Matches (x.Marked roots made h₁) k := by
  have hready := (h.amid.puts (h.met hl).isFile ho hputs).ready
  -- a directory that was made for the output is one that the first export made
  have hbeside := beside_of_puts (h.beside hl) (hl.met (h.mem u List.mem_cons_self)) hw ho hputs
    fun loc hnone hdir => .inr (.inl ⟨h.keeps.get?_none hl.amid.linkFree hnone,
      hkeeps.directory _ hdir⟩)
  exact ⟨hready, hbeside, ((hready.temporary_kept hkeeps hbeside.symm).2).symm⟩

/-- The same holds when the second export does. -/
theorem Again.matches {o : String} {f g : RegularFile} (h : x.Again roots made h₁ k p)
    (ha₁ : x.Amid h₁) (hmet : (u.on h₁).Met x roots) (hw : u.Writes x)
    (ho : Kind.exportName? u.name = some o)
    (hg : p.tree.get? (x.location ++ (u.dir ++ [o])) = some (.file g))
    (hputs : x.Puts u.dir o f p p₁) : h₁.Matches (x.Marked roots made h₁) p₁ := by
  have hchanges : x.Changes (u.dir ++ [o]) p p₁ := .of_puts hputs
  have hready := (h.shaped.amid.puts (v := u.on p) (h.shaped.met_again hmet).isFile ho hputs).ready
  have hkeeps := h.shaped.keeps.trans (hchanges.keeps h.shaped.amid.underway.linkFree)
  have hbeside := beside_of_puts h.shaped.beside hmet hw ho hputs fun loc hnone hdir => by
    rcases hchanges.places loc with hsame | ⟨-, -, hway⟩ | ⟨-, -, f', hf'⟩
    · rw [hsame, hnone] at hdir
      cases hdir
    · exact absurd hnone (h.shaped.not_new hg hway)
    · rw [hf'] at hdir
      cases hdir
  exact ⟨hready, hbeside, (ha₁.ready.temporary_kept hkeeps hbeside).2⟩

theorem hidesScratch : HidesScratch h₁ (x.Marked roots made h₁) :=
  fun n rest => .inr (.inr ⟨n, rest, rfl⟩)

/-- Both exports are at the same scratch directory, counted from where they began. -/
theorem Again.paired {k₂ p₂ : Host} (h : x.Again roots made h₁ k p)
    (hr : x.Repeatable roots made h₁) (hk : h₁.Matches (x.Marked roots made h₁) k₂)
    (hp : h₁.Matches (x.Marked roots made h₁) p₂) (hscratches : k₂.scratches = k.scratches)
    (hscratches' : p₂.scratches = p.scratches) :
    Paired h₁ (x.Marked roots made h₁) h₁.scratches p₂ k₂ := by
  obtain ⟨c, hfirst, hsecond⟩ := h.scratches
  refine ⟨hp, hk, fun n hn => ?_⟩
  rw [hscratches, hfirst, Nat.add_assoc] at hn ⊢
  rw [hscratches', hsecond, Nat.add_assoc]
  exact hr.shorter (c + n) hn

/-- A file that was compiled can be compiled again. -/
theorem Again.compiled {o : String} {q : Path} {f : RegularFile} {k₂ : Host} {m : Nat}
    {out : Outlet} (h : x.Again roots made h₁ u.host p) (hl : x.Leaves roots made visits h₁)
    (hr : x.Repeatable roots made h₁) (hahead : x.Ahead roots made visits h₁ u.host (u :: us))
    (hcompiled : u.Compiled) (ho : Kind.exportName? u.name = some o)
    (hq : Tree.Spells x.dest u.dir q)
    (hgoes : ∀ {p : Pass} {m : Nat} {k : Host},
      runFrom (x.compiler.compileToFile u.kind u.source (q.join o)) p.host = (.ok m, k) →
        ∃ p', runFrom (x.file u.root u.names) p = (.ok (), p') ∧ p'.host = k)
    (hfits : Tree.Fits (q.join o)) (hputs : x.Puts u.dir o f u.host k₂)
    (hcompile : runFrom (x.compiler.compile u.kind u.source) ⟨k₂, .unlimited⟩ = (.ok m, out))
    (hafter : x.Ahead roots made visits h₁ { out.host with
      tree := out.host.tree.fill out.host.now (x.location ++ (u.dir ++ [o])) out.sink.held } us) :
    x.Redone u { out.host with
      tree := out.host.tree.fill out.host.now (x.location ++ (u.dir ++ [o])) out.sink.held } p := by
  have hw : u.Writes x := .inl hcompiled
  have ha₁ := hl.amid_after.1
  have hne : x.location ++ (u.dir ++ [o]) ≠ [] := by simp
  have hmet := hl.met (hahead.mem u List.mem_cons_self)
  have ha := h.shaped.amid
  obtain ⟨hdir, hn, -⟩ : (∀ m ∈ u.dir, IsName m) ∧ IsName u.name ∧ u.root.text ≠ "" :=
    (h.shaped.met_again hmet).isName ha
  have hon := Kind.exportName?_isName hn ho
  obtain ⟨g, hg, hwrites⟩ : p.Writable (x.location ++ (u.dir ++ [o])) :=
    h.writable _ ⟨u.on h₁, rfl, hmet, hw, _, output?_eq ho, rfl⟩
  -- the first export, from the empty output on
  obtain ⟨hquiet, hthere, hfill, -⟩ := fill_compiled
    (hahead.amid.puts (hahead.met hl).isFile ho hputs).ready hputs.get?_self hcompile
  have hlimit := hafter.scratches hl
  have hkeeps := (hafter.chain.amid hafter.amid).2
  rw [hfill] at hkeeps ⊢
  have hk := hahead.matches hl hw ho hputs ((Tree.Keeps.of_partOf fun loc e he =>
    (hquiet.get? loc).trans he).trans ((Tree.Keeps.put hne (.inr ⟨_, hthere⟩)).trans hkeeps))
  -- the second export empties the output as well
  have htarget := target_there ha.based hdir hq hon hfits hg hwrites g.mode
  have hputs' : x.Puts u.dir o ⟨[], g.mode, p.now⟩ p { p with
      tree := p.tree.put (x.location ++ (u.dir ++ [o])) (.file ⟨[], g.mode, p.now⟩) } :=
    ⟨⟨p, .refl ha.based, by simp [hg], rfl⟩,
      ha.ready.wellFormed.put_target ha.ready.directory htarget _⟩
  have hp := h.matches ha₁ hmet hw ho hg hputs'
  -- both compile on hosts that differ at marked places only, and the compilation is steady
  obtain ⟨l, hagain, -, hsum⟩ := (Compiler.compile_follows ha₁.ready hidesScratch
    (hr.steady (u.on h₁) rfl hmet hcompiled)).runs
      (h.paired hr hk hp hputs.scratches hputs'.scratches) hcompile hlimit
  obtain ⟨-, -, hfill', -⟩ := fill_compiled hp.ready hputs'.get?_self hagain
  have hmade := runFrom_compileToFile_there ha.based hdir hq hon hfits hg hwrites hagain
  rw [hputs'.scratches, hputs.scratches] at hsum
  rw [hfill'] at hmade
  rintro r rfl
  obtain ⟨r', hrun, hhost⟩ := hgoes hmade
  refine ⟨r', out.sink.held, u.dir ++ [o], hrun, ?_, output?_eq ho,
    ⟨_, Tree.get?_put_self _ hne _, rfl⟩, ?_⟩
  · rw [hhost]
    exact hsum
  · rw [hhost]
    exact ⟨_, Tree.get?_put_self _ hne _, rfl⟩

/-- What the first export wrote the second one can write. -/
theorem Again.redone (h : x.Again roots made h₁ k p) (hl : x.Leaves roots made visits h₁)
    (hr : x.Repeatable roots made h₁) (hahead : x.Ahead roots made visits h₁ k (u :: us))
    (hw : u.Writes x) : ∃ k₁, u.Done x k₁ ∧ k.scratches ≤ k₁.scratches ∧
      x.Ahead roots made visits h₁ k₁ us ∧ x.Redone u k₁ p := by
  obtain ⟨k₁, hwritten, hdone, hafter⟩ := hahead.written hl hw
  obtain rfl := hahead.step.1
  refine ⟨k₁, hdone, hwritten.scratches hahead.amid (hahead.met hl).isFile, hafter, ?_⟩
  cases hwritten with
  | copied hcopied hf hfits hputs => exact h.copied hl hr hahead hcopied hf hfits hputs
  | compiled hcompiled ho hq hgoes hfits hwrites hputs hcompile =>
    exact h.compiled hl hr hahead hcompiled ho hq hgoes hfits hputs hcompile hafter

/-- Other files hold what they held. -/
theorem done_holds_of_ne {b : Bytes} (hd : v.Done x k) (hloc : ∀ names, v.output? = some names →
    loc ≠ x.location ++ names) (hb : v.host.Holds b loc) : k.Holds b loc := by
  obtain ⟨f, hf, hc⟩ := hb
  rcases done_places hd loc with hsame | ⟨hnone, -⟩ | ⟨⟨-, names, hnames, hself⟩, -⟩
  · exact ⟨f, hsame.trans hf, hc⟩
  · rw [hnone] at hf
    cases hf
  · exact absurd hself (hloc names hnames)

/-- The second export does what the first one did with a file. -/
theorem Again.step (h : x.Again roots made h₁ k p) (hl : x.Leaves roots made visits h₁)
    (hr : x.Repeatable roots made h₁) (hahead : x.Ahead roots made visits h₁ k (u :: us))
    (hw : u.Writes x) (hran : (u.on p).Ran x p₁) (hdone : (u.on p).Done x p₁) :
    ∃ k₁, x.Ahead roots made visits h₁ k₁ us ∧ x.Again roots made h₁ k₁ p₁ := by
  obtain ⟨k₁, hdone₁, hraised, hafter, hredone⟩ := h.redone hl hr hahead hw
  have hmet := hl.met (hahead.mem u List.mem_cons_self)
  have hmet' := h.shaped.met_again hmet
  have hwritten := hran.written h.shaped.amid hmet' hw
  obtain rfl := hahead.step.1
  obtain ⟨q, q', hhost, hrun, rfl⟩ := hran
  obtain ⟨q'', b, names, hrun', hscratches, hnames, hheld, hheld'⟩ := hredone q hhost
  obtain rfl : q' = q'' := congrArg Prod.snd (hrun.symm.trans hrun')
  have hmode : (u.on p).Copied x → p.Writable (u.base ++ u.names) := by
    intro hcopied
    unfold Host.Writable
    rw [h.shaped.source hl hr hmet hw]
    exact hr.writable (u.on h₁) rfl hmet hcopied
  refine ⟨k₁, hafter, h.shaped.done (v := u.on p) hl hr hmet' hdone, fun loc hout => ?_, ?_,
    fun b' loc hb' => ?_⟩
  -- outputs may still be written to
  · exact hwritten.writable h.shaped.amid hmet'.isFile hmode (.inl (h.writable loc hout))
  -- both have made as many scratch directories for this file
  · obtain ⟨c, hfirst, hsecond⟩ := h.scratches
    exact ⟨k₁.scratches - made.scratches, by omega, by omega⟩
  -- the output holds what the first export wrote to it
  · by_cases hself : loc = x.location ++ names
    · rw [hself]
      exact .inr ⟨b, hheld, hheld'⟩
    · have hother : ∀ names', u.output? = some names' → loc ≠ x.location ++ names' := by
        intro names' hnames'
        rw [hnames, Option.some.injEq] at hnames'
        rw [← hnames']
        exact hself
      rcases h.holds b' loc hb' with hheld | ⟨b'', hfirst, hsecond⟩
      · exact .inl (done_holds_of_ne (v := u.on p) hdone hother hheld)
      · exact .inr ⟨b'', done_holds_of_ne hdone₁ hother hfirst,
          done_holds_of_ne (v := u.on p) hdone hother hsecond⟩

/-! ## §2 All files -/

theorem eq_on_of_on_eq (h : u.on h₁ = v.on h₁) : v = u.on v.host := by
  obtain ⟨root, base, dir, name, host⟩ := v
  cases h
  rfl

/-- Files in their places are seen to be there during the second export as well. -/
theorem Shaped.samePlace (hs : x.Shaped roots made h₁ v.host) (hr : x.Repeatable roots made h₁)
    (hmet : v.Met x roots) (hplain : v.kind = .passthrough) (hbase : v.base = x.location) :
    v.host.tree.samePlace v.host.directory v.source (descend x.dest v.names) = true := by
  have hbefore := hr.inPlace (v.on h₁) rfl (hs.met hmet) hplain hbase
  obtain ⟨f, hf⟩ := hmet.isFile
  by_cases hfits : Tree.Fits (descend x.dest v.names)
  · have hroot := hmet.stat_root
    rw [hbase] at hroot hf
    exact samePlace_of_location hs.amid.based hroot hf hmet.fits hfits
  -- a path that is too long leads nowhere, so the spellings have decided
  · obtain ⟨hnul, hne, -⟩ := Tree.find_ok (Tree.stat_ok_iff.mp hs.amid.dest)
    obtain ⟨hne', hnul', -⟩ := Path.descend_keeps hne hnul (hs.amid.ready.wellFormed.names hf)
    have hnone : h₁.tree.canonical h₁.directory (descend x.dest v.names) = .error .nameTooLong := by
      unfold Tree.canonical
      rw [stat_of_long hnul' hne' hfits]
      rfl
    refine Tree.samePlace_of_alike ?_
    unfold Tree.samePlace at hbefore
    rw [show descend x.dest (v.on h₁).names = descend x.dest v.names from rfl, hnone] at hbefore
    split at hbefore
    · rename_i herror
      cases herror
    · exact hbefore

/-- A file without an output cannot fail. -/
theorem Shaped.not_fails {e : Failure} (hs : x.Shaped roots made h₁ v.host)
    (hr : x.Repeatable roots made h₁) (hmet : v.Met x roots) (hw : ¬ v.Writes x) :
    ¬ v.Fails x e p := by
  rintro ⟨⟨q, q', hhost, hrun, -⟩, o, ho, -⟩
  obtain ⟨hdir, hn, hroot⟩ := hmet.isName hs.amid
  have hplain : v.kind = .passthrough := by
    by_contra hkind
    exact hw (.inl (compiled_of_exportName? ho hkind))
  have hbase : v.base = x.location := by
    by_contra hne
    exact hw (.inr ⟨hplain, fun heq => hne (List.append_cancel_right heq)⟩)
  have hsame := hs.samePlace hr hmet hplain hbase
  rw [← hhost] at hsame
  rw [show x.file v.root v.names = copy v.source (descend x.dest v.names) from
    file_plain hs.amid.based.dest_ne_empty hroot hdir hn hplain, runFrom_copy_inPlace hsame] at hrun
  cases hrun

/-- The files that the first export wrote are written again, one after another. -/
theorem Again.chain {rest : List Visit} (h : x.Again roots made h₁ k p)
    (hl : x.Leaves roots made visits h₁) (hr : x.Repeatable roots made h₁)
    (hahead : x.Ahead roots made visits h₁ k us) (hus : ∀ u ∈ us, u.Writes x)
    (hchain : Chain x p ws p' ending) (hsteps : Steps x ws (ending.reached p'))
    (hsame : us.map (·.on h₁) = ws.map (·.on h₁) ++ rest) (hdone : ending = .finished → rest = [])
    (hfails : ∀ v e, ending = .failed v e → ∃ more, rest = v.on h₁ :: more)
    (hlisted : ∀ dir e, ending ≠ .unlisted dir e) :
    ending = .finished ∧ x.Again roots made h₁ h₁ p' := by
  -- the induction is on the files that the second export writes
  induction ws generalizing k p us with
  | nil =>
    cases hchain with
    | finished =>
      -- nothing is left for the first export either, so its host is the last one
      obtain rfl := hdone rfl
      obtain rfl : us = [] := List.map_eq_nil_iff.mp hsame
      cases hahead.chain
      exact ⟨rfl, h⟩
    | unlisted => exact absurd rfl (hlisted _ _)
    | @failed v e p' hfile hvfails =>
      -- the file at which it would fail is one that the first export wrote, so it can be written
      obtain ⟨more, rfl⟩ := hfails v e rfl
      cases us with
      | nil => cases hsame
      | cons u us =>
        obtain ⟨hu, -⟩ := List.cons.inj hsame
        obtain ⟨k₁, -, -, -, hredone⟩ := h.redone hl hr hahead (hus u List.mem_cons_self)
        obtain ⟨⟨q, q', hhost, hrun, -⟩, -⟩ := hvfails
        obtain ⟨q'', b, names, hrun', -⟩ := hredone q hhost
        rw [eq_on_of_on_eq hu] at hrun
        cases hrun.symm.trans hrun'
  | cons v ws ih =>
    cases us with
    | nil => cases hsame
    | cons u us =>
      obtain ⟨hu, hrest⟩ := List.cons.inj hsame
      cases hchain with
      | @visit _ p₁ _ _ _ hfile hvdone hchain =>
        obtain ⟨hran, hsteps⟩ := hsteps
        rw [hchain.start_eq, eq_on_of_on_eq hu] at hran
        rw [eq_on_of_on_eq hu] at hvdone
        obtain ⟨k₁, hafter, hagain⟩ := h.step hl hr hahead (hus u List.mem_cons_self) hran hvdone
        exact ih hagain hafter (fun w hw => hus w (List.mem_cons_of_mem _ hw)) hchain hsteps hrest

theorem Leaves.again (hl : x.Leaves roots made visits h₁) (hr : x.Repeatable roots made h₁) :
    x.Again roots made h₁ made h₁ :=
  ⟨hl.shaped, fun _ => hl.writable hr, ⟨0, rfl, rfl⟩, fun _ _ => .inl⟩

theorem Again.unchanged (h : x.Again roots made h₁ h₁ p) : h₁.Unchanged p := by
  have hback : ∀ {b loc}, h₁.Holds b loc → p.Holds b loc := by
    intro b loc hb
    rcases h.holds b loc hb with hheld | ⟨b', hbefore, hheld⟩
    · exact hheld
    · obtain ⟨f, hf, rfl⟩ := hb
      obtain ⟨g, hg, rfl⟩ := hbefore
      rw [hf] at hg
      cases hg
      exact hheld
  refine ⟨fun loc => ⟨h.shaped.kept.directory loc, h.shaped.keeps.directory loc⟩,
    fun b loc => ⟨fun hb => ?_, hback⟩,
    fun loc target => ⟨h.shaped.kept.link loc target, h.shaped.keeps.link loc target⟩⟩
  obtain ⟨f, hf, rfl⟩ := hb
  obtain ⟨g, hg⟩ := h.shaped.kept.file loc f hf
  obtain ⟨f', hf', hsame⟩ := hback ⟨g, hg, rfl⟩
  rw [hf] at hf'
  cases hf'
  exact ⟨g, hg, hsame.symm⟩

/-- Counting files that are written is counting those that have an output. -/
theorem countP_writers {P : Visit → Bool} (hP : ∀ v, P v = true → v.Writes x)
    (hon : ∀ v, P (v.on h₁) = P v) : (x.writers h₁ visits).countP P = visits.countP P := by
  unfold writers
  rw [List.countP_map, List.countP_filter]
  refine List.countP_congr fun v _ => ?_
  simp only [Function.comp_apply, hon, Bool.and_eq_true, decide_eq_true_eq]
  exact ⟨fun h => h.1, fun h => ⟨h, hP v h⟩⟩

theorem tally_eq_of_writers {us : List Visit} (h : x.writers h₁ visits = x.writers h₁ us) :
    (tally x visits).compiled = (tally x us).compiled ∧
      (tally x visits).copied = (tally x us).copied := by
  have hcompiled : ∀ vs : List Visit,
      (x.writers h₁ vs).countP (fun v => v.Compiled) = vs.countP fun v => v.Compiled :=
    fun vs => countP_writers (fun v hv => .inl (by simpa using hv)) fun _ => rfl
  have hcopied : ∀ vs : List Visit,
      (x.writers h₁ vs).countP (fun v => v.Copied x) = vs.countP fun v => v.Copied x :=
    fun vs => countP_writers (fun v hv => .inr (by simpa using hv)) fun _ => rfl
  constructor
  · show visits.countP (fun v => v.Compiled) = us.countP fun v => v.Compiled
    rw [← hcompiled visits, h, hcompiled us]
  · show visits.countP (fun v => v.Copied x) = us.countP fun v => v.Copied x
    rw [← hcopied visits, h, hcopied us]

/-- The course of the second export. -/
theorem Leaves.repeats {second : List Visit} (hl : x.Leaves roots made visits h₁)
    (hr : x.Repeatable roots made h₁) (htour : Tour x roots h₁ second p' ending)
    (hsteps : Steps x second (ending.reached p')) :
    ending = .finished ∧ h₁.Unchanged p' ∧
      (tally x second).compiled = (tally x visits).compiled ∧
      (tally x second).copied = (tally x visits).copied := by
  have ha := hl.amid_after.1
  obtain ⟨rest, hwriters, hdone, hfails, hlisted⟩ := hl.retraces hr htour
  -- files without outputs are left out of both exports
  obtain ⟨hchain, hsteps⟩ := htour.chain.writers hsteps
  have hends : ∀ v e, ending = .failed v e → v.Writes x := by
    rintro v e rfl
    have hmet := htour.met ha (.inr ⟨e, rfl⟩)
    have hs : x.Shaped roots made h₁ v.host := htour.chain.shaped hl hr
      (fun w hw => htour.met ha (.inl hw)) hl.shaped
    by_contra hw
    exact hs.not_fails hr hmet hw (htour.chain.fails rfl)
  obtain ⟨rfl, hagain⟩ := (hl.again hr).chain hl hr hl.ahead.writers
    (fun u hu => by simpa using (List.mem_filter.mp hu).2) hchain hsteps hwriters hdone
    (fun v e he => hfails v e he (hends v e he)) hlisted
  obtain rfl := hdone rfl
  rw [List.append_nil] at hwriters
  obtain ⟨hcompiled, hcopied⟩ := tally_eq_of_writers hwriters
  exact ⟨rfl, hagain.unchanged, hcompiled.symm, hcopied.symm⟩

/-! ## §3 Whole exports -/

variable {h h' : Host} {dest : Path} {D : Location} {compiler : Compiler} {progress : List Progress}

/-- A destination that is there is left as it is. -/
theorem makeDestination_there (hdest : h.tree.stat h.directory dest = .ok (D, .directory)) :
    (makeDestination dest).runOn h = (.ok D, h) := by
  rw [Act.runOn_eq]
  unfold makeDestination
  rw [runFrom_bind, runFrom_ofPair, Tree.makeDirectories_there hdest]
  simp only [runFrom_read, Tree.canonical_of_stat hdest]

/-- What an export leaves is a host with its destination. -/
theorem Amid.destined (ha : x.Amid h) : Destined h x.dest x.location h :=
  ⟨makeDestination_there ha.dest, ha.ready.noScratch, ha.clear⟩

/-- An export that succeeded has visited all that it came to. -/
theorem Destined.leaves {report : Report} (hd : Destined h dest D made) (hready : h.Ready)
    (hfree : h.tree.LinkFree [])
    (hrun : Export.tree roots dest compiler h = (.ok report, progress, h₁)) :
    ∃ visits, Leaves ⟨compiler, dest, D⟩ roots made visits h₁ ∧
      report = tally ⟨compiler, dest, D⟩ visits := by
  obtain ⟨visits, ending, htour, hresult, hsteps⟩ := hd.tour hready hfree hrun
  obtain rfl : ending = .finished := by
    by_contra hne
    obtain ⟨e, he⟩ := ending.error_of_ne_finished hne
    rw [he] at hresult
    cases hresult
  exact ⟨visits, ⟨hd.amid hready hfree, htour, hsteps⟩, Except.ok.inj hresult⟩

/-- An export that succeeded and does not get in its own way can be run again, and changes nothing
    then. -/
theorem tree_repeats {report : Report} (hready : h.Ready) (hfree : h.tree.LinkFree [])
    (hd : Destined h dest D made)
    (hrun : Export.tree roots dest compiler h = (.ok report, progress, h₁))
    (hr : Repeatable ⟨compiler, dest, D⟩ roots made h₁) :
    ∃ report' progress' h', Export.tree roots dest compiler h₁ = (.ok report', progress', h') ∧
      report'.compiled = report.compiled ∧ report'.copied = report.copied ∧ h₁.Unchanged h' := by
  obtain ⟨visits, hl, rfl⟩ := hd.leaves hready hfree hrun
  have ha := hl.amid_after.1
  rcases hagain : Export.tree roots dest compiler h₁ with ⟨result, progress', h'⟩
  obtain ⟨second, ending, htour, hresult, hsteps⟩ := ha.destined.tour ha.ready ha.linkFree hagain
  obtain ⟨rfl, hsame, hcompiled, hcopied⟩ := hl.repeats hr htour hsteps
  rw [hresult]
  exact ⟨_, progress', h', rfl, hcompiled, hcopied, hsame⟩

end Export

/-! ## §4 Sessions -/

namespace Session

variable {dest : Path}

/-- An export leaves the compiler of a session as it is. -/
theorem exportTo_compiler (s : Session) (dest : Path) :
    (s.exportTo dest).content.compiler = s.content.compiler := by
  rcases s.after_cases (.exportTo dest) with hsame | ⟨dest', report, -, -, -, hcontent⟩
  · exact congrArg Content.compiler hsame
  · rw [show (s.exportTo dest).content = _ from hcontent]
    rfl

/-- After any course of events, an export that succeeds and does not get in its own way can be run
    again: it succeeds, compiles and copies as many files, and leaves every file as it is. -/
theorem exportTo_repeats (R : List Path) (settings : Settings) (tools : Toolchain) (h₀ : Host)
    (events : List Event) {dest : Path} {D : Location} {made : Host} {report : Report} :
    let s := Session.run ⟨.ofRoots R settings tools, h₀⟩ events
    let s₁ := s.exportTo dest
    s.host.Ready → s.host.tree.LinkFree [] → Export.Destined s.host dest D made →
    (s.content.exportTo dest s.host).1 = .ok report →
    Export.Repeatable ⟨s.content.compiler, dest, D⟩ R made s₁.host →
    ∃ report', (s₁.content.exportTo dest s₁.host).1 = .ok report' ∧
      report'.compiled = report.compiled ∧ report'.copied = report.copied ∧
      s₁.host.Unchanged (s₁.exportTo dest).host := by
  intro s s₁ hready hfree hd hok hr
  -- both exports take the roots from the beginning for their sources
  have hs : s.content.Layered R := layered_run R settings tools h₀ events
  have hs₁ : s₁.content.Layered R := after_layered hs (.exportTo dest)
  have hrun := s.exportTo_run dest
  rw [hok] at hrun
  have htree := Content.tree_of_exportTo hrun
  rw [hs.sources] at htree
  obtain ⟨report', progress', h', htree', hcompiled, hcopied, hsame⟩ :=
    Export.tree_repeats hready hfree hd htree hr
  rw [← hs₁.sources, ← exportTo_compiler s dest] at htree'
  have hagain := Content.exportTo_of_tree htree'
  have hhost : (s₁.exportTo dest).host = h' := congrArg (fun r => r.2.2.2) hagain
  rw [← hhost] at hsame
  exact ⟨report', congrArg Prod.fst hagain, hcompiled, hcopied, hsame⟩

/-! ## §5 A script that is exported into its own root -/

open Export

/-- A script with macros under the root that it is exported into. -/
def sole : Session :=
  run ⟨.ofRoots [⟨"site"⟩] default oneTool, soleHost⟩ []

/-- The export of that script. -/
def soleInPlace : Export :=
  ⟨sole.content.compiler, ⟨"site"⟩, ["site"]⟩

/-- What the export leaves. -/
def soleAfter : Session :=
  sole.exportTo ⟨"site"⟩

theorem sole_temporary : soleHost.temporary = ["tmp"] :=
  Host.temporary_of_opens (Host.opens_ofTree _ (by decide +kernel))

/-- The host of that script as the one that an export into its root starts from. -/
def soleDestination : {h : Host // Destined soleHost ⟨"site"⟩ ["site"] h} where
  val := soleHost
  property := by
    refine ⟨makeDestination_there (by decide +kernel), sole_ready.noScratch, ?_⟩
    rw [sole_temporary]
    exact fun hbelow => absurd hbelow (by decide)

theorem sole_destined : Destined soleHost ⟨"site"⟩ ["site"] soleHost :=
  soleDestination.property

theorem soleAfter_entries : soleAfter.host.tree.entries =
    (["site", "app.js"], plainFile (Utf8.encode "site/app.main.js")) :: soleTree.entries := by
  decide +kernel

theorem soleAfter_root : soleAfter.host.tree.stat soleAfter.host.directory ⟨"site"⟩ =
    .ok (["site"], .directory) := by
  decide +kernel

/-- The second export comes to the script and to its output. -/
theorem sole_met {v : Visit} (hhost : v.host = soleAfter.host)
    (hmet : v.Met soleInPlace [⟨"site"⟩]) :
    ∃ n, v = ⟨⟨"site"⟩, ["site"], [], n, soleAfter.host⟩ ∧ (n = "app.js" ∨ n = "app.main.js") := by
  obtain ⟨f, hf⟩ := hmet.isFile
  have hstat := hmet.stat_root
  have hroot := List.mem_singleton.mp hmet.root_mem
  obtain ⟨root, base, dir, name, host⟩ := v
  simp only [Visit.names] at hroot hstat hf hhost
  subst hroot hhost
  rw [soleAfter_root, Except.ok.injEq, Prod.mk.injEq] at hstat
  obtain ⟨rfl, -⟩ := hstat
  have hmem := Tree.mem_of_get? (by simp) hf
  rw [soleAfter_entries] at hmem
  have hnames : dir ++ [name] = [] ++ ["app.js"] ∨ dir ++ [name] = [] ++ ["app.main.js"] := by
    have hentry := hmem
    simp [soleTree, plainFile, executableFile] at hentry
    tauto
  rcases hnames with h | h
  · obtain ⟨rfl, hname⟩ := List.append_inj' h rfl
    exact ⟨name, rfl, .inl (List.singleton_inj.mp hname)⟩
  · obtain ⟨rfl, hname⟩ := List.append_inj' h rfl
    exact ⟨name, rfl, .inr (List.singleton_inj.mp hname)⟩

theorem sole_compiled {v : Visit} (hhost : v.host = soleAfter.host)
    (hmet : v.Met soleInPlace [⟨"site"⟩]) (hw : v.Writes soleInPlace) :
    v = ⟨⟨"site"⟩, ["site"], [], "app.main.js", soleAfter.host⟩ := by
  obtain ⟨n, rfl, rfl | rfl⟩ := sole_met hhost hmet
  · exact absurd hw (by decide)
  · rfl

/-- Nothing lies where the export changes something. -/
theorem sole_vacates :
    soleHost.Vacates (soleInPlace.Marked [⟨"site"⟩] soleHost soleAfter.host) := by
  rintro loc (⟨v, hhost, hmet, hw, names, hnames, rfl⟩ | ⟨hnone, -⟩ | ⟨n, rest, rfl⟩)
  · obtain rfl := sole_compiled hhost hmet hw
    rw [output?_eq (o := "app.js") (by decide +kernel), Option.some.injEq] at hnames
    subst hnames
    decide +kernel
  · exact hnone
  · have htemporary : soleAfter.host.temporary = soleHost.temporary := by decide +kernel
    rw [htemporary, List.append_cons]
    exact sole_ready.wellFormed.absent_below (sole_ready.noScratch n) rest

theorem sole_steady_after {v : Visit} (hhost : v.host = soleAfter.host)
    (hmet : v.Met soleInPlace [⟨"site"⟩]) (hcompiled : v.Compiled) :
    soleInPlace.compiler.Steady soleAfter.host
      (soleInPlace.Marked [⟨"site"⟩] soleHost soleAfter.host) v.kind v.source := by
  have hsources : sole.content.sources = [⟨"site"⟩] := by decide +kernel
  have hok : (sole.content.exportTo ⟨"site"⟩ sole.host).1 = .ok ⟨1, 0, 0⟩ := by decide +kernel
  have hrun := sole.exportTo_run ⟨"site"⟩
  rw [hok] at hrun
  have htree := Content.tree_of_exportTo hrun
  rw [hsources] at htree
  obtain ⟨visits, hl, -⟩ := sole_destined.leaves sole_ready
    (Tree.linkFree_of_entries (by decide +kernel) []) htree
  -- it is enough to look at the host before, where the output was not there yet
  refine Compiler.Steady.matches ?_ hl.matches
  obtain rfl := sole_compiled hhost hmet (.inl hcompiled)
  have hcomponents : 1 < (⟨"/bin/tool"⟩ : Path).components.length := by decide +kernel
  have hlocate : soleHost.locate? ⟨"/bin/tool"⟩ = some ⟨"/bin/tool"⟩ := by decide +kernel
  exact steady_of_blind ⟨"/bin/tool"⟩ sole_vacates rfl rfl
    (fun loc run h => installed_eq h ▸ Program.echoing_blind) hcomponents hlocate (by decide)
    (by decide +kernel) (by decide +kernel)

theorem sole_repeatable :
    Repeatable soleInPlace [⟨"site"⟩] soleHost soleAfter.host where
  settled v hhost hmet := by
    refine settled_of_names (fun root hroot base hbase _ => ?_)
      (fun _ _ _ u huhost humet hu t => ?_) hhost hmet
    · rw [List.mem_singleton.mp hroot, soleAfter_root] at hbase
      cases hbase
      rfl
    · obtain rfl := sole_compiled huhost humet (.inl hu)
      intro hname
      have hends := Kind.endsIn_iff.mpr ⟨t, Option.some.inj hname⟩
      exact absurd hends (by decide)
  writable v hhost hmet hcopied := by
    obtain rfl := sole_compiled hhost hmet (.inr hcopied)
    exact absurd rfl hcopied.2
  inPlace v hhost hmet hplain _ := by
    obtain ⟨n, rfl, rfl | rfl⟩ := sole_met hhost hmet
    · decide +kernel
    · exact absurd hplain (by decide)
  listed root hroot base names _ hnone hdir _ := by
    generalize base ++ names = loc at hnone hdir
    have hne : loc ≠ [] := by
      rintro rfl
      rw [Tree.get?_nil] at hnone
      cases hnone
    have hmem := Tree.mem_of_get? hne hdir
    rw [soleAfter_entries] at hmem
    -- the export has made a file, and no directory
    have hthere : ∀ e ∈ soleTree.entries, soleTree.get? e.1 = some e.2 := by decide +kernel
    rcases List.mem_cons.mp hmem with hfile | hmem
    · cases hfile
    · rw [show soleHost.tree.get? loc = _ from hthere _ hmem] at hnone
      cases hnone
  steady _ := sole_steady_after
  shorter n hn := by
    have hnone : soleAfter.host.scratches = 0 := by decide +kernel
    omega

theorem sole_repeats :
    ∃ report', (soleAfter.content.exportTo ⟨"site"⟩ soleAfter.host).1 = .ok report' ∧
      report'.compiled = 1 ∧ report'.copied = 0 ∧
      soleAfter.host.Unchanged (soleAfter.exportTo ⟨"site"⟩).host :=
  exportTo_repeats [⟨"site"⟩] default oneTool soleHost [] sole_ready
    (Tree.linkFree_of_entries (by decide +kernel) []) sole_destined
    (show (sole.content.exportTo ⟨"site"⟩ sole.host).1 = .ok ⟨1, 0, 0⟩ by decide +kernel)
    sole_repeatable

/-! ## §6 Exports that get in their own way -/

/-- A file that nobody may write to. -/
def locked : Session :=
  ⟨.ofRoots [⟨"site"⟩] default default, .ofTree
    ⟨[(["site"], .directory), (["site", "a.txt"], .file ⟨[1], 0o444, ⟨0, 0⟩⟩),
      (["tmp"], .directory)]⟩ fun _ => none⟩

/-- A script with macros whose output has the name of another one. -/
def stacked : Session :=
  ⟨.ofRoots [⟨"site"⟩] default oneTool, .ofTree
    ⟨[(["bin"], .directory), (["bin", "tool"], executableFile), (["site"], .directory),
      (["site", "a.main.main.js"], plainFile []), (["tmp"], .directory)]⟩ (installed .echoing)⟩

/-- The result of exporting into a destination once more. -/
def again (s : Session) (dest : Path) : Except Failure Report :=
  ((s.exportTo dest).content.exportTo dest (s.exportTo dest).host).1

/-- The copy of a file that nobody may write to cannot be written again. In place, the output of a
    script is compiled if it has the name of a script, and a file is made that was not there. -/
theorem again_differs :
    ((locked.content.exportTo ⟨"out"⟩ locked.host).1 = .ok ⟨0, 1, 0⟩ ∧
      locked.again ⟨"out"⟩ = .error (.file ⟨"site/a.txt"⟩ .permissionDenied)) ∧
    ((stacked.content.exportTo ⟨"site"⟩ stacked.host).1 = .ok ⟨1, 0, 0⟩ ∧
      stacked.again ⟨"site"⟩ = .ok ⟨2, 0, 0⟩ ∧
      (stacked.exportTo ⟨"site"⟩).host.tree.get? ["site", "a.js"] = none ∧
      ((stacked.exportTo ⟨"site"⟩).exportTo ⟨"site"⟩).host.Holds (Utf8.encode "site/a.main.js")
        ["site", "a.js"]) := by
  refine ⟨⟨by decide +kernel, by decide +kernel⟩, by decide +kernel, by decide +kernel,
    by decide +kernel, ?_⟩
  exact ⟨⟨Utf8.encode "site/a.main.js", RegularFile.defaultMode, ⟨0, 0⟩⟩, by decide +kernel, rfl⟩

end Session

end AssetServer
