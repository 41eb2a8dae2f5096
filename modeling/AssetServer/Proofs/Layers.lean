import AssetServer.Proofs.Origin

/-!
# The roots of a session

Exports put their destinations before the roots that a session began with. Two questions are asked
of a destination: whether it is a root already, which is a question about places, and later which
roots are exports, which is a question about spellings. The answers fit together, since two
spellings of the same steps lead to the same place wherever both lead somewhere
(`Tree.samePlace_of_alike`): no spelling is a root and an export, or an export twice.

- `Content.Layered` is the invariant: exports, newest first, and then the roots from the beginning.
- `Session.after_cases` says what one event does to the roots.
- `Session.run_layered` is the invariant of every course of events.
-/

namespace AssetServer

/-! ## §1 Spellings of one place -/

namespace Tree

variable {t : Tree} {links : Nat} {here loc loc' : Location}

/-- Two lists of parts that differ in parts that lead nowhere do not lead to two entries. -/
theorem walk_unique {ps ps' : List String} {e e' : Entry}
    (hsame : ps'.filter (fun part => part != "" && part != ".") =
      ps.filter fun part => part != "" && part != ".")
    (h : t.walk true links here ps = .ok (.taken loc e))
    (h' : t.walk true links here ps' = .ok (.taken loc' e')) : loc' = loc := by
  fun_induction t.walk true links here ps generalizing ps' with
  | case1 links here =>
    have hdirectory : t.walk true links here ps' = .ok (.taken here .directory) :=
      walk_respelled hsame walk_nil
    simp_all
  | case2 links here part rest hskip ih =>
    refine ih ?_ h h'
    rw [hsame, List.filter_cons_of_neg]
    rcases hskip with rfl | rfl <;> simp
  | case3 links here rest hstep ih =>
    obtain ⟨junk, more, rfl, hjunk, hmore⟩ := exists_junk_of_filter hstep hsame
    rw [walk_skips hjunk, walk_up] at h'
    exact ih hmore h h'
  | case7 links here part rest hstep hdown hshort next hnext =>
    rename_i ih
    obtain ⟨junk, more, rfl, hjunk, hmore⟩ := exists_junk_of_filter hstep hsame
    rw [walk_skips hjunk, walk_into ⟨hstep, hdown, hshort⟩ hnext] at h'
    exact ih hmore h h'
  -- a lookup that finds a file has nothing left to follow, in either spelling
  | case8 links here part rest hstep hdown hshort next f hnext =>
    obtain ⟨junk, more, rfl, hjunk, -⟩ := exists_junk_of_filter hstep hsame
    rw [walk_skips hjunk, walk_file ⟨hstep, hdown, hshort⟩ hnext] at h'
    simp only [Except.ok.injEq, Spot.taken.injEq] at h
    split at h'
    · simp only [Except.ok.injEq, Spot.taken.injEq] at h'
      exact h'.1.symm.trans h.1
    · cases h'
  | case12 here part rest hstep hdown hshort next target hnext hgo links start =>
    rename_i ih
    obtain ⟨junk, more, rfl, hjunk, hmore⟩ := exists_junk_of_filter hstep hsame
    rw [walk_skips hjunk, walk_link ⟨hstep, hdown, hshort⟩ hnext (by simp)] at h'
    refine ih ?_ h h'
    rw [List.filter_append, List.filter_append, hmore]
  | _ => simp_all

/-- Two spellings of the same steps lead to one place, if both lead anywhere. -/
theorem canonical_of_alike {cwd : Location} {p q : Path} (hpq : p.alike q = true)
    (hp : t.canonical cwd p = .ok loc) (hq : t.canonical cwd q = .ok loc') : loc = loc' := by
  have hstat : ∀ {p : Path} {loc : Location}, t.canonical cwd p = .ok loc →
      ∃ e, t.walk true maxLinks (startOf cwd p) p.steps = .ok (.taken loc e) := by
    intro p loc hp
    obtain ⟨e, hstat⟩ := canonical_ok_iff.mp hp
    exact ⟨e, (find_ok (stat_ok_iff.mp hstat)).2.2.2⟩
  obtain ⟨e, hwalk⟩ := hstat hp
  obtain ⟨e', hwalk'⟩ := hstat hq
  obtain ⟨hmoves, habsolute⟩ := Path.same_of_alike hpq
  have hstart : startOf cwd q = startOf cwd p := by
    unfold startOf
    rw [habsolute]
  -- both paths make the same moves from the same place
  rw [Path.moves_eq_filter, Path.moves_eq_filter] at hmoves
  rw [hstart] at hwalk'
  exact walk_unique hmoves hwalk' hwalk

/-- Spellings of the same steps are the same place, wherever they lead. -/
theorem samePlace_of_alike {cwd : Location} {p q : Path} (h : p.alike q = true) :
    t.samePlace cwd p q = true := by
  unfold samePlace
  split
  · rename_i hp hq
    simpa using canonical_of_alike h hp hq
  · exact h

end Tree

namespace Path

theorem alike_refl (p : Path) : p.alike p = true := by
  simp [alike]

end Path

/-! ## §2 Roots and exports -/

namespace Content

/-- The roots are the exports, newest first, before the roots `R`, and no two spellings say the same
    among the exports, or of an export and one of the roots `R`. -/
structure Layered (R : List Path) (c : Content) : Prop where
  roots : c.roots = c.exports.reverse ++ R
  distinct : c.exports.Pairwise fun d d' => d.alike d' = false
  apart : ∀ d ∈ c.exports, ∀ r ∈ R, r.alike d = false

variable {R : List Path} {c : Content} {dest : Path}

theorem layered_ofRoots (R : List Path) (settings : Settings) (tools : Toolchain) :
    (ofRoots R settings tools).Layered R :=
  ⟨rfl, .nil, by simp [ofRoots]⟩

/-- What is exported are the roots from the beginning, in their order. -/
theorem Layered.sources (h : c.Layered R) : c.sources = R := by
  unfold Content.sources
  rw [h.roots, List.filter_append, List.filter_eq_nil_iff.mpr, List.nil_append,
    List.filter_eq_self.mpr]
  · intro r hr
    have hnone : c.exports.any r.alike = false :=
      List.any_eq_false.mpr fun d hd => by simp [h.apart d hd r hr]
    simp [hnone]
  · intro d hd
    have hsome : c.exports.any d.alike = true :=
      List.any_eq_true.mpr ⟨d, List.mem_reverse.mp hd, d.alike_refl⟩
    simp [hsome]

/-- The content with a destination as its first root and its last export. -/
def prepend (c : Content) (dest : Path) : Content :=
  { c with roots := dest :: c.roots, exports := c.exports ++ [dest] }

theorem Layered.prepend (h : c.Layered R) (hdest : ∀ r ∈ c.roots, r.alike dest = false) :
    (c.prepend dest).Layered R := by
  rw [h.roots] at hdest
  refine ⟨?_, ?_, ?_⟩
  · simp [Content.prepend, h.roots]
  · refine List.pairwise_append.mpr ⟨h.distinct, List.pairwise_singleton _ _, fun d hd d' hd' => ?_⟩
    rw [List.mem_singleton.mp hd']
    exact hdest d (by simp [hd])
  · intro d hd r hr
    rcases List.mem_append.mp hd with hold | hnew
    · exact h.apart d hold r hr
    · rw [List.mem_singleton.mp hnew]
      exact hdest r (by simp [hr])

/-- Exporting the sources of a server is one export of its source roots. -/
theorem tree_of_exportTo {c content : Content} {dest : Path} {h h' : Host}
    {result : Except Failure Report} {progress : List Progress}
    (hrun : c.exportTo dest h = (result, progress, content, h')) :
    Export.tree c.sources dest c.compiler h = (result, progress, h') := by
  unfold Content.exportTo at hrun
  split at hrun
  · rename_i e told k htree
    cases hrun
    exact htree
  · rename_i report told k htree
    cases hrun
    exact htree

theorem exportTo_of_tree {c : Content} {dest : Path} {h h' : Host} {report : Report}
    {progress : List Progress}
    (htree : Export.tree c.sources dest c.compiler h = (.ok report, progress, h')) :
    c.exportTo dest h = (.ok report, progress, c.addExport h' dest, h') := by
  unfold Content.exportTo
  rw [htree]

end Content

/-! ## §3 Courses of events -/

/-- What may happen to a session. An export may be the first one into its destination or be run
    again. Anything may become of the host between two events. -/
inductive Event where
  | request (r : ContentRequest)
  | exportTo (dest : Path)
  | edit (h : Host)

namespace Session

/-- The session after an event. -/
def after (s : Session) : Event → Session
  | .request r => s.request r
  | .exportTo dest => s.exportTo dest
  | .edit h => { s with host := h }

/-- The session after several events. -/
def run (s : Session) (events : List Event) : Session :=
  events.foldl after s

variable {s : Session} {R : List Path}

/-- An event leaves the roots as they are, unless it is an export that succeeds into a place that is
    no root. -/
theorem after_cases (s : Session) (event : Event) :
    (s.after event).content = s.content ∨
      ∃ dest report, event = .exportTo dest ∧
        (s.content.exportTo dest s.host).1 = .ok report ∧
        (∀ r ∈ s.content.roots, r.alike dest = false ∧
          (s.after event).host.tree.samePlace (s.after event).host.directory r dest = false) ∧
        (s.after event).content = s.content.prepend dest := by
  cases event with
  | request r =>
    left
    unfold after request
    rfl
  | edit h => exact .inl rfl
  | exportTo dest =>
    -- only an export changes the roots, and only one that succeeded
    simp only [after, exportTo, Content.exportTo]
    rcases hrun : Export.tree s.content.sources dest s.content.compiler s.host with
      ⟨result, progress, h'⟩
    cases result with
    | error e => exact .inl rfl
    | ok report =>
      simp only [Content.addExport]
      split
      · exact .inl rfl
      · rename_i hnone
        -- the new root is none of those before it, by place and so by spelling
        refine .inr ⟨dest, report, rfl, by simp [hrun], fun r hr => ?_, rfl⟩
        have hplace : h'.tree.samePlace h'.directory r dest = false := by
          by_contra hsame
          exact hnone (List.any_eq_true.mpr ⟨r, hr, by simpa using hsame⟩)
        refine ⟨?_, hplace⟩
        by_contra halike
        rw [Tree.samePlace_of_alike (by simpa using halike)] at hplace
        cases hplace

theorem exportTo_run (s : Session) (dest : Path) : s.content.exportTo dest s.host =
    ((s.content.exportTo dest s.host).1, (s.content.exportTo dest s.host).2.1,
      (s.exportTo dest).content, (s.exportTo dest).host) := rfl

theorem after_layered (h : s.content.Layered R) (event : Event) :
    (s.after event).content.Layered R := by
  rcases s.after_cases event with hsame | ⟨dest, report, -, -, hnew, hcontent⟩
  · rw [hsame]
    exact h
  · rw [hcontent]
    exact h.prepend fun r hr => (hnew r hr).1

/-- Every course of events from the beginning on leaves the roots layered. -/
theorem layered_run (R : List Path) (settings : Settings) (tools : Toolchain) (h : Host)
    (events : List Event) :
    (Session.run ⟨.ofRoots R settings tools, h⟩ events).content.Layered R := by
  unfold Session.run
  -- the invariant holds before every event, from any session on
  generalize hs : (⟨.ofRoots R settings tools, h⟩ : Session) = s
  have hbegin : s.content.Layered R := hs ▸ Content.layered_ofRoots R settings tools
  clear hs
  induction events generalizing s with
  | nil => exact hbegin
  | cons event rest ih => exact ih _ (after_layered hbegin event)

/-- In every course of events the roots are the exports, newest first, before the roots that the
    session began with, which are what is exported. One event more adds a destination only if its
    export succeeds, and if no spelling of the place is a root. -/
theorem run_layered (R : List Path) (settings : Settings) (tools : Toolchain) (h : Host)
    (events : List Event) :
    let s := Session.run ⟨.ofRoots R settings tools, h⟩ events
    s.content.Layered R ∧ s.content.sources = R ∧
      ∀ event, (s.after event).content = s.content ∨
        ∃ dest report, event = .exportTo dest ∧
          (s.content.exportTo dest s.host).1 = .ok report ∧
          (∀ r ∈ s.content.roots, r.alike dest = false ∧
            (s.after event).host.tree.samePlace (s.after event).host.directory r dest = false) ∧
          (s.after event).content = s.content.prepend dest := by
  have hlayered := layered_run R settings tools h events
  exact ⟨hlayered, hlayered.sources, Session.after_cases _⟩

end Session

end AssetServer
