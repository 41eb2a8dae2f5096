import AssetServer.Proofs.Naming

/-!
# How an export changes the file system

Wherever the destination lies (`Export.Based`), exporting one file makes directories below it, on
the way to the output (`Export.Clears`), and then writes that output (`Export.Puts`). Each function
of an export is taken apart once into these two changes, for runs that succeed and for runs that
fail: `copy_cases`, `compileToFile_cases` and, for a file of any kind, `file_cases`.
-/

namespace AssetServer.Export

variable {x : Export} {k k' k'' : Host} {dir : List String} {n : String} {q : Path}

/-! ## §1 Hosts with a destination -/

/-- The destination is a directory, and no links lie below it. -/
structure Based (x : Export) (k : Host) : Prop where
  wellFormed : k.tree.WellFormed
  directory : k.tree.get? k.directory = some .directory
  dest : k.tree.stat k.directory x.dest = .ok (x.location, .directory)
  linkFree : k.tree.LinkFree x.location

theorem Based.location (hb : x.Based k) : k.tree.get? x.location = some .directory :=
  Tree.get?_of_stat hb.wellFormed hb.directory hb.dest

theorem Based.dest_ne_empty (hb : x.Based k) : x.dest.text ≠ "" :=
  Tree.ne_empty_of_stat hb.dest

/-- The places of the directories on the way to names below the destination. -/
def OnTheWay (x : Export) (dir : List String) (loc : Location) : Prop :=
  ∃ pre, pre <+: dir ∧ loc = x.location ++ pre

theorem OnTheWay.below {loc : Location} (h : x.OnTheWay dir loc) : x.location <+: loc := by
  obtain ⟨pre, -, rfl⟩ := h
  exact List.prefix_append _ _

theorem Based.grown {t : Tree} (hb : x.Based k) (hg : Tree.Grown (x.OnTheWay dir) k.tree t) :
    x.Based { k with tree := t } :=
  ⟨hg.wellFormed, hg.partOf _ _ hb.directory, Tree.stat_of_partOf hb.dest hg.partOf,
    hg.linkFree hb.linkFree⟩

/-- `k'` is `k` with some of the directories on the way to names below the destination. -/
def Clears (x : Export) (dir : List String) (k k' : Host) : Prop :=
  ∃ t, Tree.Grown (x.OnTheWay dir) k.tree t ∧ k' = { k with tree := t }

theorem Clears.refl (hb : x.Based k) : x.Clears dir k k :=
  ⟨k.tree, .refl hb.wellFormed, rfl⟩

theorem Clears.based (hc : x.Clears dir k k') (hb : x.Based k) : x.Based k' := by
  obtain ⟨t, hg, rfl⟩ := hc
  exact hb.grown hg

/-- `k'` is `k` with the file `f` at a name below the destination, and with the directories on the
    way to it. -/
structure Puts (x : Export) (dir : List String) (n : String) (f : RegularFile) (k k' : Host) :
    Prop where
  exists_clears : ∃ k₁, x.Clears dir k k₁ ∧
    k₁.tree.get? (x.location ++ (dir ++ [n])) ≠ some .directory ∧
    k' = { k₁ with tree := k₁.tree.put (x.location ++ (dir ++ [n])) (.file f) }
  wellFormed : k'.tree.WellFormed

theorem Puts.get?_self {f : RegularFile} (hp : x.Puts dir n f k k') :
    k'.tree.get? (x.location ++ (dir ++ [n])) = some (.file f) := by
  obtain ⟨k₁, -, -, rfl⟩ := hp.exists_clears
  exact Tree.get?_put_self _ (by simp) _

/-! ## §2 The parts of an export -/

/-- Making the directories above a path changes the tree only, whether it succeeds or fails. -/
theorem makeParent_run {p : Path} {result : Except Failure Unit}
    (hrun : runFrom (Compiler.makeParent p) k = (result, k')) :
    (p.parent = none ∧ k' = k) ∨
    ∃ up, p.parent = some up ∧
      k' = { k with tree := (k.tree.makeDirectories k.directory up).2 } ∧
      (result = .ok () → (k.tree.makeDirectories k.directory up).1 = .ok ()) := by
  unfold Compiler.makeParent at hrun
  split at hrun
  · rename_i hparent
    rw [runFrom_pure, Prod.mk.injEq] at hrun
    exact .inl ⟨hparent, hrun.2.symm⟩
  · rename_i up hparent
    refine .inr ⟨up, hparent, ?_⟩
    rw [runFrom_ofPair] at hrun
    rcases hmade : k.tree.makeDirectories k.directory up with ⟨made, t⟩
    rw [hmade] at hrun
    cases made with
    | error failure =>
      simp only [Prod.mk.injEq] at hrun
      obtain ⟨rfl, rfl⟩ := hrun
      exact ⟨rfl, fun h => by cases h⟩
    | ok =>
      rw [Prod.mk.injEq] at hrun
      exact ⟨hrun.2.symm, fun _ => rfl⟩

/-- Making a destination changes the tree only, whether it succeeds or fails. -/
theorem makeDestination_run {dest : Path} {result : Except Failure Location}
    (hrun : runFrom (makeDestination dest) k = (result, k')) :
    k' = { k with tree := (k.tree.makeDirectories k.directory dest).2 } ∧
      ∀ D, result = .ok D → (k.tree.makeDirectories k.directory dest).1 = .ok () ∧
        ∃ e, k'.tree.stat k.directory dest = .ok (D, e) := by
  unfold makeDestination at hrun
  rw [runFrom_bind, runFrom_ofPair] at hrun
  rcases hmade : k.tree.makeDirectories k.directory dest with ⟨made, t⟩
  rw [hmade] at hrun
  cases made with
  | error failure =>
    simp only [Prod.mk.injEq] at hrun
    obtain ⟨rfl, rfl⟩ := hrun
    exact ⟨rfl, fun D h => by cases h⟩
  | ok =>
    -- the location is that of the directory that has just been made
    simp only [runFrom_read, Prod.mk.injEq] at hrun
    obtain ⟨hcanonical, rfl⟩ := hrun
    refine ⟨rfl, fun D hD => ⟨rfl, ?_⟩⟩
    subst hD
    refine Tree.canonical_ok_iff.mp ?_
    cases hplace : t.canonical k.directory dest with
    | error e =>
      rw [hplace] at hcanonical
      cases hcanonical
    | ok loc =>
      rw [hplace] at hcanonical
      cases hcanonical
      rfl

variable {source root target : Path} {p p' : Pass}

/-- Where writing to a path goes, there is an empty file once one has been created at the path. -/
theorem runFrom_createFile {loc : Location} {mode : Nat}
    (htarget : k.tree.target k.directory target RegularFile.defaultMode = .ok (loc, mode)) :
    runFrom (Compiler.createFile target) k =
      (.ok loc, { k with tree := k.tree.put loc (.file ⟨[], mode, k.now⟩) }) := by
  unfold Compiler.createFile
  rw [runFrom_ofPair, Tree.createFile_ok_iff.mpr ⟨mode, htarget, rfl⟩]

/-- A file is created where writing to its path goes, or nothing changes. -/
theorem createFile_run {result : Except Failure Location}
    (hrun : runFrom (Compiler.createFile target) k = (result, k')) :
    (∃ e, result = .error e ∧ k' = k) ∨
      ∃ loc mode, result = .ok loc ∧
        k.tree.target k.directory target RegularFile.defaultMode = .ok (loc, mode) ∧
        k' = { k with tree := k.tree.put loc (.file ⟨[], mode, k.now⟩) } := by
  unfold Compiler.createFile at hrun
  rw [runFrom_ofPair] at hrun
  cases hcreate : k.tree.createFile k.directory k.now target with
  | error e =>
    simp only [hcreate, Prod.mk.injEq] at hrun
    exact .inl ⟨_, hrun.1.symm, hrun.2.symm⟩
  | ok created =>
    obtain ⟨loc, t⟩ := created
    simp only [hcreate, Prod.mk.injEq] at hrun
    obtain ⟨mode, htarget, rfl⟩ := Tree.createFile_ok_iff.mp hcreate
    exact .inr ⟨loc, mode, hrun.1.symm, htarget, hrun.2.symm⟩

/-- What is written while the file is empty is what the file is filled with. -/
theorem runFrom_compileToFile {c : Compiler} {kind : Kind} {result : Except Failure Nat}
    {k₁ : Host} {loc : Location} {mode : Nat} {o : Outlet}
    (hparent : runFrom (Compiler.makeParent target) k = (.ok (), k₁))
    (htarget : k₁.tree.target k₁.directory target RegularFile.defaultMode = .ok (loc, mode))
    (hcompile : runFrom (c.compile kind source)
      ⟨{ k₁ with tree := k₁.tree.put loc (.file ⟨[], mode, k₁.now⟩) }, .unlimited⟩ = (result, o)) :
    runFrom (c.compileToFile kind source target) k =
      (result, { o.host with tree := o.host.tree.fill o.host.now loc o.sink.held }) := by
  unfold Compiler.compileToFile
  simp only [runFrom_bind, hparent, runFrom_createFile htarget, runFrom_ofPair, Emit.collect_eq,
    hcompile]

/-- Compiling into a file runs the compilation while that file is empty, and then fills it with what
    was written, whether the compilation succeeded or not. -/
theorem compileToFile_run {c : Compiler} {kind : Kind} {result : Except Failure Nat}
    (hrun : runFrom (c.compileToFile kind source target) k = (result, k')) :
    (∃ e made, result = .error e ∧ runFrom (Compiler.makeParent target) k = (made, k')) ∨
      ∃ k₁ loc mode o, runFrom (Compiler.makeParent target) k = (.ok (), k₁) ∧
        k₁.tree.target k₁.directory target RegularFile.defaultMode = .ok (loc, mode) ∧
        runFrom (c.compile kind source)
          ⟨{ k₁ with tree := k₁.tree.put loc (.file ⟨[], mode, k₁.now⟩) }, .unlimited⟩ =
            (result, o) ∧
        k' = { o.host with tree := o.host.tree.fill o.host.now loc o.sink.held } := by
  unfold Compiler.compileToFile at hrun
  rw [runFrom_bind] at hrun
  rcases hparent : runFrom (Compiler.makeParent target) k with ⟨made, k₁⟩
  rw [hparent] at hrun
  cases made with
  | error e =>
    simp only [Prod.mk.injEq] at hrun
    obtain ⟨rfl, rfl⟩ := hrun
    exact .inl ⟨e, _, rfl, rfl⟩
  | ok =>
    simp only at hrun
    rw [runFrom_bind] at hrun
    rcases hcreate : runFrom (Compiler.createFile target) k₁ with ⟨created, k₂⟩
    rw [hcreate] at hrun
    rcases createFile_run hcreate with ⟨e, rfl, rfl⟩ | ⟨loc, mode, rfl, htarget, rfl⟩
    · -- without a place to write to, nothing is compiled
      simp only [Prod.mk.injEq] at hrun
      obtain ⟨rfl, rfl⟩ := hrun
      exact .inl ⟨_, _, rfl, rfl⟩
    · simp only [runFrom_ofPair, Emit.collect_eq] at hrun
      rcases hcompile : runFrom (c.compile kind source)
        ⟨{ k₁ with tree := k₁.tree.put loc (.file ⟨[], mode, k₁.now⟩) }, .unlimited⟩ with
        ⟨compiled, o⟩
      rw [hcompile] at hrun
      simp only [Prod.mk.injEq] at hrun
      obtain ⟨rfl, rfl⟩ := hrun
      exact .inr ⟨k₁, loc, mode, o, rfl, htarget, hcompile, rfl⟩

/-- A file that is in place already is only counted. -/
theorem runFrom_copy_inPlace
    (hplace : p.host.tree.samePlace p.host.directory source target = true) :
    runFrom (copy source target) p =
      (.ok (), { p with report := { p.report with skipped := p.report.skipped + 1 } }) := by
  unfold copy
  rw [runFrom_bind, runFrom_look, hplace]
  simp only [if_true, runFrom_count]

/-- Copying a file that is not in place already writes what its path opens then. -/
theorem copy_run {result : Except Failure Unit}
    (hplace : p.host.tree.samePlace p.host.directory source target = false)
    (hrun : runFrom (copy source target) p = (result, p')) :
    (∃ e made k₁, result = .error e ∧
        runFrom (Compiler.makeParent target) p.host = (made, k₁) ∧ p' = { p with host := k₁ }) ∨
      ∃ k₁ f loc mode, result = .ok () ∧
        runFrom (Compiler.makeParent target) p.host = (.ok (), k₁) ∧
        k₁.tree.openFile k₁.directory source = .ok (.file f) ∧
        k₁.tree.target k₁.directory target f.mode = .ok (loc, mode) ∧
        p' = ⟨{ k₁ with tree := k₁.tree.put loc (.file ⟨f.content, f.mode, k₁.now⟩) },
          { p.report with copied := p.report.copied + 1 },
          p.progress ++ [.file source target .passthrough]⟩ := by
  unfold copy at hrun
  rw [runFrom_bind, runFrom_look, hplace] at hrun
  simp only [Bool.false_eq_true, if_false] at hrun
  rw [runFrom_bind, runFrom_export] at hrun
  rcases hparent : runFrom (Compiler.makeParent target) p.host with ⟨made, k₁⟩
  rw [hparent] at hrun
  cases made with
  | error e =>
    simp only [Prod.mk.injEq] at hrun
    obtain ⟨rfl, rfl⟩ := hrun
    exact .inl ⟨e, _, k₁, rfl, rfl, rfl⟩
  | ok =>
    simp only at hrun
    rw [runFrom_bind, runFrom_export, runFrom_ofPair] at hrun
    -- the source is opened after the directories have been made
    cases hcopy : k₁.tree.copyFile k₁.directory k₁.now source target with
    | error e =>
      simp only [hcopy, Prod.mk.injEq] at hrun
      obtain ⟨rfl, rfl⟩ := hrun
      exact .inl ⟨_, _, k₁, rfl, rfl, rfl⟩
    | ok t =>
      simp only [hcopy, runFrom_bind, runFrom_count, runFrom_tell, Prod.mk.injEq] at hrun
      obtain ⟨f, loc, mode, hopen, htarget, rfl⟩ := Tree.copyFile_ok_iff.mp hcopy
      exact .inr ⟨k₁, f, loc, mode, hrun.1.symm, rfl, hopen, htarget, hrun.2.symm⟩

/-! ## §3 Places below the destination -/

/-- Making the directories for a file makes them below the destination. -/
theorem makeParent_cases (hb : x.Based k) (hdir : ∀ m ∈ dir, IsName m)
    (hq : Tree.Spells x.dest dir q) (hn : IsName n) {result : Except Failure Unit}
    (hrun : runFrom (Compiler.makeParent (q.join n)) k = (result, k')) :
    x.Clears dir k k' ∧
      (result = .ok () → k'.tree.get? (x.location ++ dir) = some .directory) := by
  obtain ⟨up, hparent, hup⟩ := hq.parent hb.dest_ne_empty hdir hn
  obtain ⟨hgrown, hmade⟩ := Tree.makeDirectories_below hb.wellFormed hb.dest hb.location hb.linkFree
    hdir hup
  rcases makeParent_run hrun with ⟨hnone, -⟩ | ⟨up', hparent', rfl, hok⟩
  · rw [hparent] at hnone
    cases hnone
  · rw [hparent] at hparent'
    cases hparent'
    exact ⟨⟨_, hgrown, rfl⟩, fun h => hmade (hok h)⟩

/-- The path that a name below the destination is joined to leads to the directory of that name. -/
theorem Based.stat_parent (hb : x.Based k) (hdir : ∀ m ∈ dir, IsName m)
    (hthere : k.tree.get? (x.location ++ dir) = some .directory) (hq : Tree.Spells x.dest dir q)
    (hn : IsName n) (hfits : Tree.Fits (q.join n)) :
    k.tree.stat k.directory q = .ok (x.location ++ dir, .directory) :=
  hq.stat hb.wellFormed hb.dest hb.location hb.linkFree hdir
    (Nat.le_trans (Tree.join_size q hn.no_slash) hfits) hthere

/-- Writing to a name below the destination goes to that name, where no directory is. -/
theorem target_cases {loc : Location} {mode mode' : Nat} (hb : x.Based k)
    (hdir : ∀ m ∈ dir, IsName m) (hthere : k.tree.get? (x.location ++ dir) = some .directory)
    (hq : Tree.Spells x.dest dir q) (hn : IsName n)
    (htarget : k.tree.target k.directory (q.join n) mode = .ok (loc, mode')) :
    loc = x.location ++ (dir ++ [n]) ∧ Tree.Fits (q.join n) ∧
      k.tree.get? loc ≠ some .directory ∧ ∀ f, (k.tree.put loc (.file f)).WellFormed := by
  have hfits : Tree.Fits (q.join n) := by
    rcases Tree.target_ok_iff.mp htarget with ⟨f, hfind, -⟩ | ⟨dir, m, hfind, -⟩
    · exact (Tree.find_ok hfind).2.2.1
    · exact (Tree.find_ok hfind).2.2.1
  have hstat := hb.stat_parent hdir hthere hq hn hfits
  have hloc := Tree.target_join hstat hthere (hb.linkFree.append dir) hn htarget
  obtain ⟨-, -, -, -, -, hplace⟩ := Tree.target_cases hb.wellFormed hb.directory htarget
  refine ⟨by rw [hloc, List.append_assoc], hfits, ?_, fun f =>
    hb.wellFormed.put_target hb.directory htarget f⟩
  rcases hplace with hnone | ⟨g, hg⟩
  · simp [hnone]
  · simp [hg]

/-- A file below a root is in place already only if the root is the destination. -/
theorem eq_location_of_samePlace {root : Path} {R : Location} {names : List String} {e : Entry}
    (hb : x.Based k) (hroot : k.tree.stat k.directory root = .ok (R, .directory))
    (hfree : k.tree.LinkFree R) (he : k.tree.get? (R ++ names) = some e)
    (hfits : Tree.Fits (descend root names))
    (hsame : k.tree.samePlace k.directory (descend root names) (descend x.dest names) = true) :
    R = x.location := by
  have hnames := hb.wellFormed.names he
  have hR := Tree.get?_of_stat hb.wellFormed hb.directory hroot
  have hsource : k.tree.canonical k.directory (descend root names) = .ok (R ++ names) := by
    exact Tree.canonical_of_stat ((Tree.stat_names_iff hroot (.refl k.tree) hb.wellFormed hR hfree
      hnames).mpr ⟨hfits, rfl, he⟩)
  unfold Tree.samePlace at hsame
  rw [hsource] at hsame
  cases htarget : k.tree.canonical k.directory (descend x.dest names) with
  | ok T =>
    rw [htarget] at hsame
    have hT : T = x.location ++ names := by
      obtain ⟨e', hstat⟩ := Tree.canonical_ok_iff.mp htarget
      exact ((Tree.stat_names_iff hb.dest (.refl k.tree) hb.wellFormed hb.location hb.linkFree
        hnames).mp hstat).2.1
    have heq : R ++ names = T := by simpa using hsame
    exact List.append_cancel_right (heq.trans hT)
  | error e' =>
    rw [htarget] at hsame
    -- paths that are spelled alike lead to the same place
    obtain ⟨hroot_nul, hroot_ne, -, -⟩ := Tree.find_ok (Tree.stat_ok_iff.mp hroot)
    obtain ⟨hdest_nul, hdest_ne, hdest_fits, -⟩ := Tree.find_ok (Tree.stat_ok_iff.mp hb.dest)
    obtain ⟨hmoves, habs⟩ := Path.same_of_alike hsame
    rw [Path.moves_descend hroot_ne hnames, Path.moves_descend hdest_ne hnames] at hmoves
    rw [(Path.descend_keeps hroot_ne hroot_nul hnames).2.2,
      (Path.descend_keeps hdest_ne hdest_nul hnames).2.2] at habs
    have hstat := Tree.stat_respelled (List.append_cancel_right hmoves).symm habs.symm hdest_nul
      hdest_ne hdest_fits hroot
    rw [hb.dest] at hstat
    cases hstat
    rfl

/-- A file below the destination is in place already, under any spelling that can be looked up. -/
theorem samePlace_of_location {root : Path} {names : List String} {e : Entry} (hb : x.Based k)
    (hroot : k.tree.stat k.directory root = .ok (x.location, .directory))
    (he : k.tree.get? (x.location ++ names) = some e) (hfits : Tree.Fits (descend root names))
    (hfits' : Tree.Fits (descend x.dest names)) :
    k.tree.samePlace k.directory (descend root names) (descend x.dest names) = true := by
  have hnames := hb.wellFormed.names he
  have hcanonical : ∀ {p : Path}, k.tree.stat k.directory p = .ok (x.location, .directory) →
      Tree.Fits (descend p names) →
      k.tree.canonical k.directory (descend p names) = .ok (x.location ++ names) := by
    intro p hp hpfits
    exact Tree.canonical_of_stat ((Tree.stat_names_iff hp (.refl k.tree) hb.wellFormed hb.location
      hb.linkFree hnames).mpr ⟨hpfits, rfl, he⟩)
  unfold Tree.samePlace
  rw [hcanonical hroot hfits, hcanonical hb.dest hfits']
  exact beq_self_eq_true _

/-! ## §4 Compiling and copying -/

/-- What a compilation wrote fills the file that was there before it, and changes nothing else. -/
theorem fill_compiled {c : Compiler} {kind : Kind} {result : Except Failure Nat} {loc : Location}
    {f : RegularFile} {o : Outlet} (hready : k.Ready) (hf : k.tree.get? loc = some (.file f))
    (hcompile : runFrom (c.compile kind source) ⟨k, .unlimited⟩ = (result, o)) :
    k.Quiet o.host ∧ o.host.tree.get? loc = some (.file f) ∧
      o.host.tree.fill o.host.now loc o.sink.held = o.host.tree.put loc
        (.file { f with content := o.sink.held, modified := o.host.now }) ∧
      (o.host.tree.put loc
        (.file { f with content := o.sink.held, modified := o.host.now })).WellFormed := by
  have hquiet := c.compile_quiet kind source ⟨k, .unlimited⟩ hready
  rw [hcompile] at hquiet
  have hthere : o.host.tree.get? loc = some (.file f) := (hquiet.get? loc).trans hf
  have hfill := Tree.fill_of_file o.host.now o.sink.held hthere
  have hwf := hquiet.ready.wellFormed.fill o.host.now loc o.sink.held
  rw [hfill] at hwf
  exact ⟨hquiet, hthere, hfill, hwf⟩

/-- Compiling into a file below the destination makes directories on the way to it, and nothing else
    if it fails before the compilation. -/
theorem compileToFile_cases {kind : Kind} {result : Except Failure Nat} (hb : x.Based k)
    (hdir : ∀ m ∈ dir, IsName m) (hq : Tree.Spells x.dest dir q) (hn : IsName n)
    (hrun : runFrom (x.compiler.compileToFile kind source (q.join n)) k = (result, k')) :
    ((∃ e, result = .error e) ∧ x.Clears dir k k') ∨
      ∃ f k₂ o, f.content = [] ∧ f.ownerWrites = true ∧ Tree.Fits (q.join n) ∧
        x.Puts dir n f k k₂ ∧
        runFrom (x.compiler.compile kind source) ⟨k₂, .unlimited⟩ = (result, o) ∧
        k' = { o.host with
          tree := o.host.tree.fill o.host.now (x.location ++ (dir ++ [n])) o.sink.held } := by
  rcases compileToFile_run hrun with
    ⟨e, made, rfl, hparent⟩ | ⟨k₁, loc, mode, o, hparent, htarget, hcompile, rfl⟩
  · exact .inl ⟨⟨e, rfl⟩, (makeParent_cases hb hdir hq hn hparent).1⟩
  · obtain ⟨hclears, hthere⟩ := makeParent_cases hb hdir hq hn hparent
    obtain ⟨rfl, hfits, hplace, hwf⟩ :=
      target_cases (hclears.based hb) hdir (hthere rfl) hq hn htarget
    have hwrites : (⟨[], mode, k₁.now⟩ : RegularFile).ownerWrites = true :=
      Tree.target_writes htarget (Tree.ownerWrites_default _ _)
    exact .inr ⟨_, _, o, rfl, hwrites, hfits, ⟨⟨k₁, hclears, hplace, rfl⟩, hwf _⟩, hcompile, rfl⟩

/-- Copying a file to a place below the destination makes directories on the way to it, and nothing
    else if it fails. -/
theorem copy_cases {result : Except Failure Unit} (hb : x.Based p.host)
    (hdir : ∀ m ∈ dir, IsName m) (hn : IsName n)
    (hplace : p.host.tree.samePlace p.host.directory source (descend x.dest (dir ++ [n])) = false)
    (hrun : runFrom (copy source (descend x.dest (dir ++ [n]))) p = (result, p')) :
    (∃ e k₁, result = .error e ∧ x.Clears dir p.host k₁ ∧ p' = { p with host := k₁ }) ∨
      ∃ k₁ f k₂, result = .ok () ∧ Tree.Fits (descend x.dest (dir ++ [n])) ∧
        x.Clears dir p.host k₁ ∧ k₁.tree.openFile k₁.directory source = .ok (.file f) ∧
        x.Puts dir n ⟨f.content, f.mode, k₁.now⟩ p.host k₂ ∧
        p' = ⟨k₂, { p.report with copied := p.report.copied + 1 },
          p.progress ++ [.file source (descend x.dest (dir ++ [n])) .passthrough]⟩ := by
  have hq : Tree.Spells x.dest dir (descend x.dest dir) := .descend hb.dest_ne_empty
  rcases copy_run hplace hrun with
    ⟨e, made, k₁, rfl, hparent, rfl⟩ | ⟨k₁, f, loc, mode, rfl, hparent, hopen, htarget, rfl⟩
  · rw [Path.descend_concat x.dest] at hparent
    exact .inl ⟨e, k₁, rfl, (makeParent_cases hb hdir hq hn hparent).1, rfl⟩
  · rw [Path.descend_concat x.dest] at hparent htarget
    obtain ⟨hclears, hthere⟩ := makeParent_cases hb hdir hq hn hparent
    obtain ⟨rfl, hfits, hfree, hwf⟩ :=
      target_cases (hclears.based hb) hdir (hthere rfl) hq hn htarget
    rw [← Path.descend_concat x.dest] at hfits
    exact .inr ⟨k₁, f, _, rfl, hfits, hclears, hopen, ⟨⟨k₁, hclears, hfree, rfl⟩, hwf _⟩, rfl⟩

/-! ## §5 Files of any kind -/

/-- The kind of a source is that of its name. -/
theorem ofPath_descend {p : Path} (hp : p.text ≠ "") (hdir : ∀ m ∈ dir, IsName m) (hn : IsName n) :
    Kind.ofPath (descend p (dir ++ [n])) = Kind.ofName n := by
  have hne : (descend p dir).text ≠ "" :=
    (Tree.Spells.descend hp).ne_empty hp hdir
  rw [Path.descend_concat]
  unfold Kind.ofPath
  rw [(Path.exists_parent_join hne hn).1]

/-- The output of a source lies in the directory of the source, under the name of the output. -/
theorem outputName?_descend {p : Path} (hp : p.text ≠ "") (hdir : ∀ m ∈ dir, IsName m)
    (hn : IsName n) : ∃ q, Tree.Spells p dir q ∧
      ∀ k : Kind, k.outputName? (descend p (dir ++ [n])) = (k.outputFileName? n).map q.join := by
  have hne : (descend p dir).text ≠ "" := (Tree.Spells.descend hp).ne_empty hp hdir
  obtain ⟨q, hparent, hq⟩ := (Tree.Spells.descend hp).parent hp hdir hn
  refine ⟨q, hq, fun k => ?_⟩
  have hname := (Path.exists_parent_join hne hn).1
  rw [Path.descend_concat]
  unfold Kind.outputName?
  cases hout : k.outputFileName? n with
  | none => simp [hname, hout]
  | some o => simp [hname, hout, Path.withFileName, hparent]

theorem join_intercalate_names (hdest : x.dest.text ≠ "") (hdir : ∀ m ∈ dir, IsName m)
    (hn : IsName n) :
    x.dest.join ("/".intercalate (dir ++ [n])) = descend x.dest (dir ++ [n]) := by
  have hnames : ∀ m ∈ dir ++ [n], IsName m := by
    intro m hm
    rcases List.mem_append.mp hm with hm | hm
    · exact hdir m hm
    · exact List.mem_singleton.mp hm ▸ hn
  obtain ⟨m, rest, hcons⟩ := List.exists_cons_of_ne_nil (by simp : dir ++ [n] ≠ [])
  rw [hcons] at hnames ⊢
  exact Path.join_intercalate hdest hnames

/-- A fragment is only counted. -/
theorem file_fragment (hroot : root.text ≠ "") (hdir : ∀ m ∈ dir, IsName m) (hn : IsName n)
    (hnone : Kind.exportName? n = none) (p : Pass) :
    runFrom (x.file root (dir ++ [n])) p =
      (.ok (), { p with report := { p.report with skipped := p.report.skipped + 1 } }) := by
  have hkind := ofPath_descend hroot hdir hn
  unfold file
  simp only [hkind, Kind.exportName?_eq_none_iff.mp hnone]
  exact runFrom_count _ p

/-- A file that is used as it is is copied. -/
theorem file_plain (hdest : x.dest.text ≠ "") (hroot : root.text ≠ "")
    (hdir : ∀ m ∈ dir, IsName m) (hn : IsName n) (hplain : Kind.ofName n = .passthrough) :
    x.file root (dir ++ [n]) = copy (descend root (dir ++ [n])) (descend x.dest (dir ++ [n])) := by
  have hkind := ofPath_descend hroot hdir hn
  unfold file
  simp only [join_intercalate_names hdest hdir hn, hkind, hplain]

/-- Any other file is compiled into the file that its name says. -/
theorem file_compiled {o : String} (hdest : x.dest.text ≠ "") (hroot : root.text ≠ "")
    (hdir : ∀ m ∈ dir, IsName m) (hn : IsName n) (ho : Kind.exportName? n = some o)
    (hplain : Kind.ofName n ≠ .passthrough) : ∃ q, Tree.Spells x.dest dir q ∧ ∀ p,
      runFrom (x.file root (dir ++ [n])) p =
        match runFrom (x.compiler.compileToFile (Kind.ofName n) (descend root (dir ++ [n]))
          (q.join o)) p.host with
        | (.error e, k') => (.error e, { p with host := k' })
        | (.ok _, k') => (.ok (), ⟨k', { p.report with compiled := p.report.compiled + 1 },
            p.progress ++ [.file (descend root (dir ++ [n])) (q.join o) (Kind.ofName n)]⟩) := by
  have hkind := ofPath_descend hroot hdir hn
  obtain ⟨q, hq, houtput⟩ := outputName?_descend hdest hdir hn
  refine ⟨q, hq, fun p => ?_⟩
  unfold file
  simp only [join_intercalate_names hdest hdir hn, hkind]
  split
  · rename_i hunknown
    rw [Kind.exportName?_eq_none_iff.mpr hunknown] at ho
    cases ho
  · rename_i hpassthrough
    exact absurd hpassthrough hplain
  · rw [houtput, Kind.outputFileName?_of_exportName? ho hplain]
    simp only [Option.map_some]
    rw [runFrom_bind, runFrom_export]
    rcases hmade : runFrom (x.compiler.compileToFile (Kind.ofName n)
      (descend root (dir ++ [n])) (q.join o)) p.host with ⟨made, k'⟩
    cases made with
    | error e => rfl
    | ok m => simp only [runFrom_bind, runFrom_count, runFrom_tell]

/-- Exporting a file counts it, and copies it or compiles it into the file that its name says. -/
theorem file_cases {result : Except Failure Unit} (hdest : x.dest.text ≠ "")
    (hroot : root.text ≠ "") (hdir : ∀ m ∈ dir, IsName m) (hn : IsName n)
    (hrun : runFrom (x.file root (dir ++ [n])) p = (result, p')) :
    (Kind.exportName? n = none ∧ result = .ok () ∧
        p' = { p with report := { p.report with skipped := p.report.skipped + 1 } }) ∨
      (Kind.ofName n = .passthrough ∧
        runFrom (copy (descend root (dir ++ [n])) (descend x.dest (dir ++ [n]))) p =
          (result, p')) ∨
      ∃ o q made k', Kind.exportName? n = some o ∧ Kind.ofName n ≠ .passthrough ∧
        Tree.Spells x.dest dir q ∧
        runFrom (x.compiler.compileToFile (Kind.ofName n) (descend root (dir ++ [n])) (q.join o))
          p.host = (made, k') ∧
        ((∃ e, made = .error e ∧ result = .error e ∧ p' = { p with host := k' }) ∨
          ∃ m, made = .ok m ∧ result = .ok () ∧
            p' = ⟨k', { p.report with compiled := p.report.compiled + 1 },
              p.progress ++ [.file (descend root (dir ++ [n])) (q.join o) (Kind.ofName n)]⟩) := by
  by_cases hplain : Kind.ofName n = .passthrough
  · rw [file_plain hdest hroot hdir hn hplain] at hrun
    exact .inr (.inl ⟨hplain, hrun⟩)
  cases ho : Kind.exportName? n with
  | none =>
    rw [file_fragment hroot hdir hn ho, Prod.mk.injEq] at hrun
    exact .inl ⟨rfl, hrun.1.symm, hrun.2.symm⟩
  | some o =>
    obtain ⟨q, hq, hfile⟩ := file_compiled hdest hroot hdir hn ho hplain
    rw [hfile] at hrun
    rcases hmade : runFrom (x.compiler.compileToFile (Kind.ofName n)
      (descend root (dir ++ [n])) (q.join o)) p.host with ⟨made, k'⟩
    rw [hmade] at hrun
    refine .inr (.inr ⟨o, q, made, k', rfl, hplain, hq, hmade, ?_⟩)
    cases made with
    | error e =>
      simp only [Prod.mk.injEq] at hrun
      exact .inl ⟨e, rfl, hrun.1.symm, hrun.2.symm⟩
    | ok m =>
      simp only [Prod.mk.injEq] at hrun
      exact .inr ⟨m, rfl, hrun.1.symm, hrun.2.symm⟩

end AssetServer.Export
