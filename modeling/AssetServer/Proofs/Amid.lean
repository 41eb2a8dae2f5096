import AssetServer.Proofs.Traversal

/-!
# Hosts in the course of an export

Roots and destination may lie anywhere, so an export may walk what it writes and write over what it
will read. What stays true on the way is `Export.Underway`, and `Export.Amid` where there are no
links; what one file may change is `Export.Changes`: the file at its output, and directories that are
made on the way to it. Directories stay directories and files stay files (`Tree.Keeps`), which is
enough for the paths of the roots and of the destination to lead where they did (`Tree.stat_kept`).

- `Underway.changes` is the invariant of a step. It looks at links only where files are written, so
  they may lie, and lead, anywhere else.
- `compileToFile_changes` says what compiling into a file changes, also when it fails.
-/

namespace AssetServer

/-! ## §1 What stays where it is -/

namespace Tree

variable {t t' t'' : Tree} {cwd here loc : Location} {follow : Bool} {links : Nat} {p : Path}

/-- Directories and links of `t` are there in `t'`, and files are files. -/
structure Keeps (t t' : Tree) : Prop where
  directory : ∀ loc, t.get? loc = some .directory → t'.get? loc = some .directory
  file : ∀ loc f, t.get? loc = some (.file f) → ∃ g, t'.get? loc = some (.file g)
  link : ∀ loc target, t.get? loc = some (.link target) → t'.get? loc = some (.link target)

theorem Keeps.of_partOf (h : t.PartOf t') : t.Keeps t' :=
  ⟨fun loc => h loc _, fun loc f hf => ⟨f, h loc _ hf⟩, fun loc _ => h loc _⟩

theorem Keeps.refl (t : Tree) : t.Keeps t :=
  .of_partOf (.refl t)

theorem Keeps.trans (h : t.Keeps t') (h' : t'.Keeps t'') : t.Keeps t'' := by
  refine ⟨fun loc hloc => h'.directory loc (h.directory loc hloc), fun loc f hf => ?_,
    fun loc target hlink => h'.link loc target (h.link loc target hlink)⟩
  obtain ⟨g, hg⟩ := h.file loc f hf
  exact h'.file loc g hg

/-- Writing a file where nothing or a file is keeps directories, files and links. -/
theorem Keeps.of_rest {f : RegularFile}
    (hplace : t.get? loc = none ∨ ∃ g, t.get? loc = some (.file g))
    (hother : ∀ place, place ≠ loc → t'.get? place = t.get? place)
    (hf : t'.get? loc = some (.file f)) : t.Keeps t' := by
  -- directories and links are elsewhere
  have hrest : ∀ {place e}, t.get? place = some e → (∀ g, e ≠ .file g) →
      t'.get? place = some e := by
    intro place e he hnot
    rw [hother place _, he]
    rintro rfl
    rcases hplace with hnone | ⟨g, hg⟩
    · rw [hnone] at he
      cases he
    · rw [hg, Option.some.injEq] at he
      exact hnot g he.symm
  refine ⟨fun place hdir => hrest hdir (by simp), fun place g hg => ?_,
    fun place target hlink => hrest hlink (by simp)⟩
  by_cases hsame : place = loc
  · exact ⟨f, hsame ▸ hf⟩
  · exact ⟨g, (hother place hsame).trans hg⟩

/-- A file may be put where nothing or a file is. -/
theorem Keeps.put {f : RegularFile} (hne : loc ≠ [])
    (hplace : t.get? loc = none ∨ ∃ g, t.get? loc = some (.file g)) :
    t.Keeps (t.put loc (.file f)) :=
  .of_rest hplace (fun _ hother => get?_put_of_ne _ hother _) (get?_put_self _ hne _)

/-- What is a directory stays one or the other, where no links are. -/
theorem Keeps.isDirectory (h : t.Keeps t') (hfree : t.LinkFree []) {e : Entry}
    (he : t.get? loc = some e) :
    ∃ e', t'.get? loc = some e' ∧
      ((some e' == some Entry.directory) = (some e == some Entry.directory)) := by
  cases e with
  | directory => exact ⟨_, h.directory loc he, rfl⟩
  | file f =>
    obtain ⟨g, hg⟩ := h.file loc f he
    exact ⟨_, hg, rfl⟩
  | link target => exact absurd he (hfree loc target)

/-- Where nothing is, nothing was. -/
theorem Keeps.get?_none (h : t.Keeps t') (hfree : t.LinkFree []) (hnone : t'.get? loc = none) :
    t.get? loc = none := by
  cases he : t.get? loc with
  | none => rfl
  | some e =>
    obtain ⟨e', he', -⟩ := h.isDirectory hfree he
    rw [hnone] at he'
    cases he'

/-- A lookup that ends at a directory goes through directories and links only. -/
theorem walk_kept {ps : List String} (ht : t.Keeps t')
    (h : t.walk follow links here ps = .ok (.taken loc .directory)) :
    t'.walk follow links here ps = .ok (.taken loc .directory) := by
  -- a file or a missing name ends a lookup, so only the other steps are left
  fun_induction t.walk follow links here ps with
  | case1 links here => rw [walk_nil, h]
  | case2 links here part rest hskip ih => rw [walk_skip hskip, ih h]
  | case3 links here rest hstep ih => rw [walk_up, ih h]
  | case7 links here part rest hstep hdown hshort next hnext ih =>
    rw [walk_into ⟨hstep, hdown, hshort⟩ (ht.directory _ hnext), ih h]
  | case12 here part rest hstep hdown hshort next target hnext hgo links start ih =>
    exact (walk_link ⟨hstep, hdown, hshort⟩ (ht.link _ _ hnext) (by simpa using hgo)).trans (ih h)
  | _ => simp_all

theorem stat_kept (ht : t.Keeps t')
    (h : t.stat cwd p = .ok (loc, .directory)) : t'.stat cwd p = .ok (loc, .directory) := by
  rw [stat_ok_iff] at h ⊢
  obtain ⟨hnul, hne, hfits, hwalk⟩ := find_ok h
  rw [find_eq_walk hnul hne hfits]
  exact walk_kept ht hwalk

/-- A lookup that ends at a file ends at the file that is there later. -/
theorem walk_refilled {ps : List String} {f g : RegularFile} (ht : t.Keeps t')
    (hg : t'.get? loc = some (.file g))
    (h : t.walk follow links here ps = .ok (.taken loc (.file f))) :
    t'.walk follow links here ps = .ok (.taken loc (.file g)) := by
  fun_induction t.walk follow links here ps with
  | case2 links here part rest hskip ih => rw [walk_skip hskip, ih h]
  | case3 links here rest hstep ih => rw [walk_up, ih h]
  | case7 links here part rest hstep hdown hshort next hnext ih =>
    rw [walk_into ⟨hstep, hdown, hshort⟩ (ht.directory _ hnext), ih h]
  | case8 links here part rest hstep hdown hshort next f' hnext hlast =>
    rw [Except.ok.injEq, Spot.taken.injEq] at h
    rw [← h.1] at hg ⊢
    rw [walk_file ⟨hstep, hdown, hshort⟩ hg, if_pos hlast]
  | case12 here part rest hstep hdown hshort next target hnext hgo links start ih =>
    exact (walk_link ⟨hstep, hdown, hshort⟩ (ht.link _ _ hnext) (by simpa using hgo)).trans (ih h)
  | _ => simp_all

/-- A path that can be written to leads to what is written there. -/
theorem stat_written {mode mode' : Nat} {g : RegularFile} (hwf : t.WellFormed)
    (hcwd : t.get? cwd = some .directory)
    (htarget : t.target cwd p mode = .ok (loc, mode'))
    (hother : ∀ place, place ≠ loc → t'.get? place = t.get? place)
    (hg : t'.get? loc = some (.file g)) : t'.stat cwd p = .ok (loc, .file g) := by
  rcases target_ok_iff.mp htarget with ⟨f, hfind, -⟩ | ⟨dir, name, hfind, rfl, -⟩
  · -- the lookup goes through directories and links, which are still there
    have hthere : t.get? loc = some (.file f) := find_shows hwf hcwd hfind
    obtain ⟨hnul, hne, hfits, hwalk⟩ := find_ok hfind
    rw [stat_ok_iff, find_eq_walk hnul hne hfits]
    exact walk_refilled (.of_rest (.inr ⟨f, hthere⟩) hother hg) hg hwalk
  · obtain ⟨-, hnone⟩ := find_shows hwf hcwd hfind
    refine stat_filled hfind (fun place e he => ?_) hg (.inr ⟨rfl, g, rfl⟩)
    rw [hother place, he]
    rintro rfl
    rw [hnone] at he
    cases he

/-- What is written to a file that was created is read from it. -/
theorem bytesAt_written {now : Instant} (hwf : t.WellFormed) (hcwd : t.get? cwd = some .directory)
    (hcreate : t.createFile cwd now p = .ok (loc, t')) (content : Bytes) :
    (t'.fill now loc content).bytesAt cwd p = .ok content := by
  obtain ⟨mode, htarget, rfl⟩ := createFile_ok_iff.mp hcreate
  have hne : loc ≠ [] := target_ne_nil hwf hcwd htarget
  -- the file is put empty and then filled at the same place
  have hfilled := fill_of_file now content (get?_put_self t hne (.file ⟨[], mode, now⟩))
  have hstat : ((t.put loc (.file ⟨[], mode, now⟩)).fill now loc content).stat cwd p =
      .ok (loc, .file ⟨content, mode, now⟩) := by
    rw [hfilled]
    refine stat_written hwf hcwd htarget (fun place hother => ?_) (get?_put_self _ hne _)
    rw [get?_put_of_ne _ hother, get?_put_of_ne _ hother]
  exact bytesAt_of_stat hstat

theorem Opens.kept (h : t.Opens cwd p loc) (ht : t.Keeps t') :
    t'.Opens cwd p loc := by
  unfold Opens at h ⊢
  split at h
  · rename_i hempty
    rw [if_pos hempty]
    exact h
  · rename_i hempty
    rw [if_neg hempty]
    exact stat_kept ht h

theorem LinkFree.below (hfree : t.LinkFree []) (base : Location) : t.LinkFree base :=
  hfree.append base

end Tree

/-- Scratch directories are made in the same place as long as directories are kept. -/
theorem Host.Ready.temporary_kept {G : Location → Prop} {h k : Host} (hready : h.Ready)
    (ht : h.tree.Keeps k.tree) (hk : h.Beside G k) :
    k.tree.Opens k.directory k.temporaryPath h.temporary ∧ k.temporary = h.temporary := by
  have hpath : k.temporaryPath = h.temporaryPath := by
    unfold Host.temporaryPath Host.setting?
    rw [hk.environment]
  have hopens : k.tree.Opens k.directory k.temporaryPath h.temporary := by
    rw [hk.directory, hpath]
    exact hready.temporary.kept ht
  exact ⟨hopens, Host.temporary_of_opens hopens⟩

/-- A host that keeps its directories stays fit for compilations, if no scratch directory is
    left. -/
theorem Host.Ready.kept {G : Location → Prop} {h k : Host} (hready : h.Ready)
    (ht : h.tree.Keeps k.tree) (hk : h.Beside G k)
    (hwf : k.tree.WellFormed) (hnone : k.tree.NoScratch h.temporary) :
    k.Ready ∧ k.temporary = h.temporary := by
  obtain ⟨hopens, htemporary⟩ := hready.temporary_kept ht hk
  refine ⟨⟨hwf, ?_, ?_, ?_, ?_⟩, htemporary⟩
  · rw [hk.directory]
    exact ht.directory _ hready.directory
  · rw [htemporary]
    exact hopens
  · rw [hk.programs, htemporary]
    exact hready.confined
  · rw [htemporary]
    exact hnone

namespace Export

variable {x : Export} {h k l : Host} {dir names : List String} {n : String} {q : Path}

/-! ## §2 Hosts of any export -/

/-- No output is named like a scratch directory. -/
theorem exportName?_ne_scratchName {n : String} {m : Nat} (hn : n ≠ Host.scratchName m) :
    Kind.exportName? n ≠ some (Host.scratchName m) := by
  intro ho
  rcases Kind.exportName?_iff.mp ho with ⟨-, hsame⟩ | ⟨k, suffix, out, s, -, -, -, hname⟩
  · exact hn hsame.symm
  · -- the ending of an output has a dot
    have hdot : '.' ∈ (s ++ out.extension).toList := by
      rw [String.toList_append, List.mem_append]
      right
      cases out <;> decide
    rw [← hname] at hdot
    exact Host.not_mem_scratchName (by decide) (by decide) hdot

/-- What a host has during an export: the destination is there, links are not, and if scratch
    directories are made below the destination then nothing else is named like one. -/
structure Amid (x : Export) (k : Host) : Prop where
  ready : k.Ready
  linkFree : k.tree.LinkFree []
  dest : k.tree.stat k.directory x.dest = .ok (x.location, .directory)
  clear : x.location <+: k.temporary → ∀ loc m, k.tree.get? (loc ++ [Host.scratchName m]) = none

/-- The same where only the destination has no links below it. -/
structure Underway (x : Export) (k : Host) : Prop where
  ready : k.Ready
  linkFree : k.tree.LinkFree x.location
  dest : k.tree.stat k.directory x.dest = .ok (x.location, .directory)
  clear : x.location <+: k.temporary → ∀ loc m, k.tree.get? (loc ++ [Host.scratchName m]) = none

theorem Amid.underway (ha : x.Amid k) : x.Underway k :=
  ⟨ha.ready, ha.linkFree.below _, ha.dest, ha.clear⟩

theorem Underway.based (hu : x.Underway k) : x.Based k :=
  ⟨hu.ready.wellFormed, hu.ready.directory, hu.dest, hu.linkFree⟩

theorem Amid.based (ha : x.Amid k) : x.Based k :=
  ha.underway.based

/-- `k` is `h` with a file at names below the destination, and with directories on the way to it. -/
structure Changes (x : Export) (names : List String) (h k : Host) : Prop where
  wellFormed : k.tree.WellFormed
  beside : h.Beside (fun loc => x.location <+: loc) k
  places : ∀ loc, k.tree.get? loc = h.tree.get? loc ∨
    h.tree.get? loc = none ∧ k.tree.get? loc = some .directory ∧ x.OnTheWay names loc ∨
    loc = x.location ++ names ∧ h.tree.get? loc ≠ some .directory ∧
      ∃ f, k.tree.get? loc = some (.file f)

namespace Changes

theorem refl (hwf : h.tree.WellFormed) : x.Changes names h h :=
  ⟨hwf, .refl h, fun _ => .inl rfl⟩

theorem trans (hk : x.Changes names h k) (hl : x.Changes names k l) : x.Changes names h l := by
  refine ⟨hl.wellFormed, hk.beside.trans hl.beside, fun loc => ?_⟩
  rcases hl.places loc with hsame | ⟨hnone, hdir, hway⟩ | ⟨hplace, hfree, f, hf⟩
  · rw [hsame]
    exact hk.places loc
  · rcases hk.places loc with hsame | ⟨-, hthere, -⟩ | ⟨-, -, f, hf⟩
    · exact .inr (.inl ⟨hsame ▸ hnone, hdir, hway⟩)
    · rw [hthere] at hnone
      cases hnone
    · rw [hf] at hnone
      cases hnone
  · rcases hk.places loc with hsame | ⟨-, hthere, -⟩ | ⟨-, hbefore, -⟩
    · exact .inr (.inr ⟨hplace, hsame ▸ hfree, f, hf⟩)
    · exact absurd hthere hfree
    · exact .inr (.inr ⟨hplace, hbefore, f, hf⟩)

theorem of_clears (hc : x.Clears dir h k) : x.Changes (dir ++ [n]) h k := by
  obtain ⟨t, hg, rfl⟩ := hc
  refine ⟨hg.wellFormed, .withTree fun loc hloc => ?_, fun loc => ?_⟩
  · rcases hg.same loc with hsame | ⟨hway, -⟩
    · exact hsame
    · exact absurd hway.below hloc
  · rcases hg.same loc with hsame | ⟨⟨pre, hpre, hloc⟩, hnone, hdir⟩
    · exact .inl hsame
    · exact .inr (.inl ⟨hnone, hdir, pre, hpre.trans (List.prefix_append dir [n]), hloc⟩)

/-- A file is put where no directory is. -/
theorem put {f : RegularFile} (hne : names ≠ [])
    (hfree : h.tree.get? (x.location ++ names) ≠ some .directory)
    (hwf : (h.tree.put (x.location ++ names) (.file f)).WellFormed) :
    x.Changes names h { h with tree := h.tree.put (x.location ++ names) (.file f) } := by
  have hplace : x.location ++ names ≠ [] := by simp [hne]
  refine ⟨hwf, .withTree fun loc hloc => ?_, fun loc => ?_⟩
  · refine Tree.get?_put_of_ne _ ?_ _
    rintro rfl
    exact hloc (List.prefix_append _ _)
  · by_cases hloc : loc = x.location ++ names
    · subst hloc
      exact .inr (.inr ⟨rfl, hfree, f, Tree.get?_put_self _ hplace _⟩)
    · exact .inl (Tree.get?_put_of_ne _ hloc _)

theorem of_puts {f : RegularFile} (hp : x.Puts dir n f h k) : x.Changes (dir ++ [n]) h k := by
  have hwf := hp.wellFormed
  obtain ⟨k₁, hc, hfree, rfl⟩ := hp.exists_clears
  exact (of_clears hc).trans (.put (by simp) hfree hwf)

theorem of_quiet (hq : h.Quiet k) : x.Changes names h k :=
  ⟨hq.ready.wellFormed, hq.beside.mono fun _ hfalse => hfalse.elim, fun loc => .inl (hq.get? loc)⟩

theorem keeps (hc : x.Changes names h k) (hfree : h.tree.LinkFree x.location) :
    h.tree.Keeps k.tree := by
  refine ⟨fun loc hdir => ?_, fun loc f hf => ?_, fun loc target hlink => ?_⟩
  -- each place is as it was, is new, or is the one that was written
  · rcases hc.places loc with hsame | ⟨hnone, -⟩ | ⟨-, hfree, -⟩
    · exact hsame.trans hdir
    · rw [hnone] at hdir
      cases hdir
    · exact absurd hdir hfree
  · rcases hc.places loc with hsame | ⟨hnone, -⟩ | ⟨-, -, hg⟩
    · exact ⟨f, hsame.trans hf⟩
    · rw [hnone] at hf
      cases hf
    · exact hg
  · rcases hc.places loc with hsame | ⟨hnone, -⟩ | ⟨rfl, -⟩
    · exact hsame.trans hlink
    · rw [hnone] at hlink
      cases hlink
    · exact absurd hlink (hfree names target)

theorem linkFree {base : Location} (hc : x.Changes names h k) (hfree : h.tree.LinkFree base) :
    k.tree.LinkFree base := by
  intro rest target hlink
  rcases hc.places (base ++ rest) with hsame | ⟨-, hdir, -⟩ | ⟨-, -, f, hf⟩
  · exact hfree rest target (hsame.symm.trans hlink)
  · rw [hdir] at hlink
    cases hlink
  · rw [hf] at hlink
    cases hlink

/-- What is new lies under one of the names. -/
theorem mem_of_new (hc : x.Changes names h k) (hdest : h.tree.get? x.location = some .directory)
    {loc : Location} {m : String} {e : Entry} (hnone : h.tree.get? (loc ++ [m]) = none)
    (he : k.tree.get? (loc ++ [m]) = some e) : m ∈ names ∧ x.location <+: loc := by
  have hway : x.OnTheWay names (loc ++ [m]) := by
    rcases hc.places (loc ++ [m]) with hsame | ⟨-, -, hway⟩ | ⟨hplace, -⟩
    · rw [hsame, hnone] at he
      cases he
    · exact hway
    · exact ⟨names, List.prefix_rfl, hplace⟩
  obtain ⟨pre, hpre, hloc⟩ := hway
  -- the destination itself is not new, so something lies below it on the way
  cases pre using List.reverseRecOn with
  | nil =>
    rw [hloc, List.append_nil, hdest] at hnone
    cases hnone
  | append_singleton init last =>
    rw [← List.append_assoc] at hloc
    obtain ⟨rfl, hm⟩ := List.append_inj' hloc rfl
    rw [List.cons.injEq] at hm
    exact ⟨hm.1 ▸ hpre.mem (by simp), List.prefix_append _ _⟩

end Changes

/-- An export goes on after a change, if the change uses no name of a scratch directory. -/
theorem Underway.changes (hu : x.Underway h) (hc : x.Changes names h k)
    (hnames : x.location <+: h.temporary → ∀ m, Host.scratchName m ∉ names) : x.Underway k := by
  have hdest := hu.based.location
  -- a change makes places with the names of the export only, none of which is that of a
  -- scratch directory
  have hnew : x.location <+: h.temporary → ∀ loc m,
      h.tree.get? (loc ++ [Host.scratchName m]) = none →
      k.tree.get? (loc ++ [Host.scratchName m]) = none := by
    intro hbelow loc m hnone
    cases he : k.tree.get? (loc ++ [Host.scratchName m]) with
    | none => rfl
    | some e => exact absurd (hc.mem_of_new hdest hnone he).1 (hnames hbelow m)
  have hscratch : k.tree.NoScratch h.temporary := by
    intro m
    have hnone := hu.ready.noScratch m
    cases he : k.tree.get? (h.temporary ++ [Host.scratchName m]) with
    | none => rfl
    | some e =>
      obtain ⟨hmem, hbelow⟩ := hc.mem_of_new hdest hnone he
      exact absurd hmem (hnames hbelow m)
  have hkeeps := hc.keeps hu.linkFree
  obtain ⟨hready, htemporary⟩ := hu.ready.kept hkeeps hc.beside hc.wellFormed hscratch
  refine ⟨hready, hc.linkFree hu.linkFree, ?_, fun hbelow loc m => ?_⟩
  · rw [hc.beside.directory]
    exact Tree.stat_kept hkeeps hu.dest
  · rw [htemporary] at hbelow
    exact hnew hbelow loc m (hu.clear hbelow loc m)

theorem Amid.changes (ha : x.Amid h) (hc : x.Changes names h k)
    (hnames : x.location <+: h.temporary → ∀ m, Host.scratchName m ∉ names) : x.Amid k :=
  have hu := ha.underway.changes hc hnames
  ⟨hu.ready, hc.linkFree ha.linkFree, hu.dest, hu.clear⟩

/-- Whatever is there has the name of no scratch directory, if there are none. -/
theorem Underway.names_clear (hu : x.Underway k) {base : Location} {e : Entry}
    (he : k.tree.get? (base ++ names) = some e) (hbelow : x.location <+: k.temporary) (m : Nat) :
    Host.scratchName m ∉ names := by
  intro hmem
  obtain ⟨before, after, rfl⟩ := List.append_of_mem hmem
  have hnone : k.tree.get? ((base ++ before) ++ [Host.scratchName m]) = none :=
    hu.clear hbelow (base ++ before) m
  rw [List.append_cons, ← List.append_assoc, ← List.append_assoc,
    hu.ready.wellFormed.absent_below hnone] at he
  cases he

/-- Whatever is exported has the name of no scratch directory either. -/
theorem Underway.output_clear (hu : x.Underway k) {base : Location} {e : Entry} {o : String}
    (he : k.tree.get? (base ++ (dir ++ [n])) = some e) (ho : Kind.exportName? n = some o)
    (hbelow : x.location <+: k.temporary) (m : Nat) : Host.scratchName m ∉ dir ++ [o] := by
  have hclear := hu.names_clear he hbelow m
  rw [List.mem_append, not_or, List.mem_singleton] at hclear ⊢
  refine ⟨hclear.1, fun heq => ?_⟩
  rw [← heq] at ho
  exact exportName?_ne_scratchName (Ne.symm hclear.2) ho

/-- No directory of `k` is new but those on the way to some names. -/
def Paves (x : Export) (dir : List String) (h k : Host) : Prop :=
  ∀ loc, k.tree.get? loc = some .directory →
    h.tree.get? loc = some .directory ∨ x.OnTheWay dir loc

theorem Clears.paves (hc : x.Clears dir h k) : x.Paves dir h k := by
  obtain ⟨t, hg, rfl⟩ := hc
  intro loc hdir
  rcases hg.same loc with hsame | ⟨hway, -⟩
  · exact .inl (hsame ▸ hdir)
  · exact .inr hway

/-- A file in addition is no directory. -/
theorem Paves.put {place : Location} {f : RegularFile} (hp : x.Paves dir h k) (hne : place ≠ []) :
    x.Paves dir h { k with tree := k.tree.put place (.file f) } := by
  intro loc hdir
  have hthere : (k.tree.put place (.file f)).get? loc = some .directory := hdir
  rw [Tree.get?_put hne] at hthere
  split at hthere
  · cases hthere
  · exact hp loc hthere

theorem Puts.paves {f : RegularFile} (hp : x.Puts dir n f h k) : x.Paves dir h k := by
  obtain ⟨k₁, hc, -, rfl⟩ := hp.exists_clears
  exact hc.paves.put (by simp)

theorem Paves.quiet (hp : x.Paves dir h k) (hq : k.Quiet l) : x.Paves dir h l :=
  fun loc hdir => hp loc ((hq.get? loc).symm.trans hdir)

/-! ## §3 Compiling -/

variable {source : Path}

/-- Compiling into a file below the destination changes that file, and fills it with the output if
    it succeeds. -/
theorem compileToFile_changes {kind : Kind} {result : Except Failure Nat} (hu : x.Underway h)
    (hdir : ∀ m ∈ dir, IsName m) (hq : Tree.Spells x.dest dir q) (hn : IsName n)
    (hnames : x.location <+: h.temporary → ∀ m, Host.scratchName m ∉ dir ++ [n])
    (hrun : runFrom (x.compiler.compileToFile kind source (q.join n)) h = (result, k)) :
    x.Changes (dir ++ [n]) h k ∧ x.Paves dir h k ∧ ∀ m, result = .ok m →
      ∃ f k₂ o, f.content = [] ∧ x.Puts dir n f h k₂ ∧
        runFrom (x.compiler.compile kind source) ⟨k₂, .unlimited⟩ = (.ok m, o) ∧
        k.Holds o.sink.held (x.location ++ (dir ++ [n])) := by
  rcases compileToFile_cases hu.based hdir hq hn hrun with
    ⟨⟨e, rfl⟩, hclears⟩ | ⟨f, k₂, o, hempty, -, -, hputs, hcompile, rfl⟩
  · exact ⟨.of_clears hclears, hclears.paves, fun m hm => by cases hm⟩
  · have hchanges : x.Changes (dir ++ [n]) h k₂ := .of_puts hputs
    have hu₂ := hu.changes hchanges hnames
    obtain ⟨hquiet, hthere, hfill, hwf⟩ := fill_compiled hu₂.ready hputs.get?_self hcompile
    rw [hfill]
    refine ⟨(hchanges.trans (.of_quiet hquiet)).trans (.put (by simp) (by simp [hthere]) hwf),
      (hputs.paves.quiet hquiet).put (by simp), ?_⟩
    rintro m rfl
    exact ⟨f, k₂, o, hempty, hputs, hcompile, _, Tree.get?_put_self _ (by simp) _, rfl⟩

end Export

end AssetServer
