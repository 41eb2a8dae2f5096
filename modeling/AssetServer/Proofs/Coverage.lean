import AssetServer.Proofs.Walking

/-!
# Which files an export comes to

An export comes to the files that its roots lead to, by paths that the host takes and not through the
destination (`Visit.Met`). Nothing else decides it: not who wrote a file, and not when.

- `Tour.met`: whatever an export visits is such a file, also in an export that fails.
- `Tour.meets`: an export that finishes has visited each of those that were there when it began.
-/

namespace AssetServer

/-! ## §1 Files that roots lead to -/

/-- No directory that `names` lead through from `base` is the destination, and they do not end at
    it. -/
def Export.Avoids (x : Export) (base : Location) (names : List String) : Prop :=
  ∀ pre, pre ≠ [] → pre <+: names → base ++ pre ≠ x.location

/-- The file is one that an export of some roots comes to. -/
structure Visit.Met (x : Export) (roots : List Path) (v : Visit) : Prop where
  root_mem : v.root ∈ roots
  stat_root : v.host.tree.stat v.host.directory v.root = .ok (v.base, .directory)
  isFile : v.IsFile
  fits : Tree.Fits v.source
  avoids : x.Avoids v.base v.names

/-- The same file on another host. -/
def Visit.on (v : Visit) (k : Host) : Visit :=
  { v with host := k }

/-- A host that keeps directories and files keeps what is met. -/
theorem Visit.Met.kept {x : Export} {roots : List Path} {v : Visit} {k : Host} (h : v.Met x roots)
    (hkeeps : v.host.tree.Keeps k.tree) (hdirectory : k.directory = v.host.directory) :
    (v.on k).Met x roots := by
  obtain ⟨f, hf⟩ := h.isFile
  obtain ⟨g, hg⟩ := hkeeps.file _ f hf
  refine ⟨h.root_mem, ?_, ⟨g, hg⟩, h.fits, h.avoids⟩
  show k.tree.stat k.directory v.root = _
  rw [hdirectory]
  exact Tree.stat_kept hkeeps h.stat_root

/-- The file was visited, or the export failed at it. -/
def Visited (visits : List Visit) (ending : Ending) (v : Visit) : Prop :=
  v ∈ visits ∨ ∃ e, ending = .failed v e

namespace Export

variable {x : Export} {k k₁ k' : Host} {u v : Visit} {visits more : List Visit} {ending : Ending}
  {names list : List String} {root : Path} {roots : List Path} {R : Location} {n : String}

theorem Avoids.nil : x.Avoids R [] := by
  intro pre hne hpre
  exact absurd (List.prefix_nil.mp hpre) hne

theorem Avoids.concat (h : x.Avoids R names) (hplace : R ++ (names ++ [n]) ≠ x.location) :
    x.Avoids R (names ++ [n]) := by
  intro pre hne hpre
  rcases List.prefix_concat_iff.mp hpre with rfl | hbefore
  · exact hplace
  · exact h pre hne hbefore

/-- Where a file lies is not the destination. -/
theorem Amid.ne_location {f : RegularFile} (ha : x.Amid k) {loc : Location}
    (hfile : k.tree.get? loc = some (.file f)) : loc ≠ x.location := by
  rintro rfl
  rw [ha.based.location] at hfile
  cases hfile

theorem visited_cons (h : Visited (u :: visits) ending v) : v = u ∨ Visited visits ending v := by
  rcases h with hmem | hfails
  · rcases List.mem_cons.mp hmem with rfl | hmem
    · exact .inl rfl
    · exact .inr (.inl hmem)
  · exact .inr (.inr hfails)

theorem visited_append (h : Visited (visits ++ more) ending v) :
    Visited visits .finished v ∨ Visited more ending v := by
  rcases h with hmem | hfails
  · rcases List.mem_append.mp hmem with hmem | hmem
    · exact .inl (.inl hmem)
    · exact .inr (.inl hmem)
  · exact .inr (.inr hfails)

theorem not_visited_nil (hends : ∀ e, ending ≠ .failed v e) : ¬ Visited [] ending v := by
  rintro (hmem | ⟨e, rfl⟩)
  · cases hmem
  · exact hends e rfl

/-! ## §2 What is visited is met -/

/-- A visit finds a file on a host between the first and the last. -/
theorem Chain.visited (h : Chain x k visits k' ending) (ha : x.Amid k)
    (hv : Visited visits ending v) :
    v.IsFile ∧ x.Amid v.host ∧ k.tree.Keeps v.host.tree ∧ v.host.tree.Keeps k'.tree ∧
      k'.directory = v.host.directory := by
  induction h with
  | finished => exact absurd hv (not_visited_nil (by simp))
  | unlisted => exact absurd hv (not_visited_nil (by simp))
  | failed hfile hfails =>
    obtain ⟨e, he⟩ := hv.resolve_left (by simp)
    cases he
    obtain ⟨o, -, hchanges⟩ := hfails.changes
    exact ⟨hfile, ha, .refl _, (fails_amid hfails hfile ha).2, hchanges.beside.directory⟩
  | visit hfile hdone hrest ih =>
    obtain ⟨ha₁, hkeeps⟩ := done_amid hdone hfile ha
    -- the rest of the chain starts from the host that the first visit leaves
    rcases visited_cons hv with rfl | hlater
    · exact ⟨hfile, ha, .refl _, hkeeps.trans (hrest.amid ha₁).2,
        hrest.directory.trans (done_directory hdone)⟩
    · obtain ⟨hthere, hamid, hbefore, hafter, hdirectory⟩ := ih ha₁ hlater
      exact ⟨hthere, hamid, hkeeps.trans hbefore, hafter, hdirectory⟩

/-- What is visited in a directory lies below it, and was not reached through the destination. -/
theorem Goes.met (h : Goes x root R names list k visits k' ending) (ha : x.Amid k)
    (havoids : x.Avoids R names) (hv : Visited visits ending v) :
    v.root = root ∧ v.base = R ∧ Tree.Fits v.source ∧ x.Avoids R v.names := by
  induction h with
  | done => exact absurd hv (not_visited_nil (by simp))
  | destination hplace hfits hrest ih => exact ih ha havoids hv
  | directory hdir hplace hfits hinner hrest ihinner ih =>
    rcases visited_append hv with hv | hv
    · exact ihinner ha (havoids.concat hplace) hv
    · exact ih (hinner.chain.amid ha).1 havoids hv
  | directoryEnds hdir hplace hfits hinner hends ih => exact ih ha (havoids.concat hplace) hv
  | directoryLong hdir hlong => exact absurd hv (not_visited_nil (by simp))
  | file hfile hfits hdone hrest ih =>
    rcases visited_cons hv with rfl | hv
    · exact ⟨rfl, rfl, hfits, havoids.concat (ha.ne_location hfile.choose_spec)⟩
    · exact ih (done_amid hdone hfile ha).1 havoids hv
  | fileFails hfile hfits hfails =>
    obtain ⟨e, he⟩ := hv.resolve_left (by simp)
    cases he
    exact ⟨rfl, rfl, hfits, havoids.concat (ha.ne_location hfile.choose_spec)⟩
  | fileLong hfile hlong hrest ih => exact ih ha havoids hv

theorem Goes.met_root (h : Goes x root R names list k visits k' ending) (ha : x.Amid k)
    (hroot : k.tree.stat k.directory root = .ok (R, .directory)) (havoids : x.Avoids R names)
    (hmem : root ∈ roots) (hv : Visited visits ending v) : v.Met x roots := by
  obtain ⟨hsame, hbase, hfits, hnames⟩ := h.met ha havoids hv
  obtain ⟨hfile, -, hkeeps, hrest, hdirectory⟩ := h.chain.visited ha hv
  have hstat := Tree.stat_kept hkeeps hroot
  rw [← h.chain.directory, hdirectory, ← hsame, ← hbase] at hstat
  exact ⟨hsame ▸ hmem, hstat, hfile, hfits, hbase ▸ hnames⟩

/-- Whatever an export visits is a file that its roots lead to, on the host as it is then. -/
theorem Tour.met (h : Tour x roots k visits k' ending) (ha : x.Amid k)
    (hv : Visited visits ending v) : v.Met x roots := by
  induction h with
  | done => exact absurd hv (not_visited_nil (by simp))
  | root hroot hinner hrest ih =>
    rcases visited_append hv with hv | hv
    · exact hinner.met_root ha hroot .nil List.mem_cons_self hv
    · have hmet := ih (hinner.chain.amid ha).1 hv
      exact { hmet with root_mem := List.mem_cons_of_mem _ hmet.root_mem }
  | rootEnds hroot hinner hends => exact hinner.met_root ha hroot .nil List.mem_cons_self hv
  | unlisted hlist => exact absurd hv (not_visited_nil (by simp))

/-- What is visited is met as well on the host that the export leaves. -/
theorem Tour.met_after (h : Tour x roots k visits k' ending) (ha : x.Amid k)
    (hv : Visited visits ending v) : (v.on k').Met x roots := by
  obtain ⟨-, -, -, hkeeps, hdirectory⟩ := h.chain.visited ha hv
  exact (h.met ha hv).kept hkeeps hdirectory

/-! ## §3 What can be met is visited -/

/-- An entry of a directory leads to each file below it. -/
theorem mem_names_of_file {t : Tree} (hwf : t.WellFormed) {dir : Location} {rest : List String}
    {f : RegularFile} (hfile : t.get? (dir ++ n :: rest) = some (.file f)) : n ∈ t.names dir := by
  rw [Tree.mem_names_iff]
  rw [List.append_cons] at hfile
  cases rest with
  | nil => exact ⟨_, by simpa using hfile⟩
  | cons m rest => exact ⟨_, hwf.parents hfile (List.cons_ne_nil _ _)⟩

/-- An export that is done with the entries of a directory has visited each file that lay below
    them. -/
theorem Goes.meets (h : Goes x root R names list k visits k' ending) (ha : x.Amid k)
    (hend : ending = .finished) {rest : List String} {f : RegularFile} (hn : n ∈ list)
    (hfile : k.tree.get? (R ++ (names ++ n :: rest)) = some (.file f))
    (hfits : Tree.Fits (descend root (names ++ n :: rest)))
    (havoids : x.Avoids R (names ++ n :: rest)) :
    ∃ v ∈ visits, v.root = root ∧ v.base = R ∧ v.names = names ++ n :: rest := by
  have hstep : ∀ {names rest : List String} {n : String}, R ++ (names ++ n :: rest) =
      R ++ (names ++ [n]) ++ rest := by simp
  have hpre : ∀ (names : List String) {rest : List String} (n : String),
      names ++ [n] <+: names ++ n :: rest := by simp
  induction h generalizing n rest f with
  | done => cases hn
  | destination hplace hfits' hrest ih =>
    rcases List.mem_cons.mp hn with rfl | hn
    · exact absurd hplace (havoids _ (by simp) (by simp))
    · exact ih ha hend hn hfile hfits havoids
  | directory hdir hplace hfits' hinner hrest ihinner ih =>
    rcases List.mem_cons.mp hn with rfl | hn
    -- the file lies in this directory, below one of its entries
    · cases rest with
      | nil =>
        rw [hdir] at hfile
        cases hfile
      | cons m rest =>
        rw [hstep] at hfile
        have hm := mem_names_of_file ha.ready.wellFormed hfile
        rw [← hstep, List.append_cons] at hfile
        rw [List.append_cons] at hfits havoids ⊢
        obtain ⟨v, hv, hplace⟩ := ihinner ha rfl hm hfile hfits havoids
        exact ⟨v, List.mem_append_left _ hv, hplace⟩
    · obtain ⟨ha₁, hkeeps⟩ := hinner.chain.amid ha
      obtain ⟨g, hg⟩ := hkeeps.file _ f hfile
      obtain ⟨v, hv, hplace⟩ := ih ha₁ hend hn hg hfits havoids
      exact ⟨v, List.mem_append_right _ hv, hplace⟩
  | directoryEnds hdir hplace hfits' hinner hends ih => exact absurd hend hends
  | directoryLong hdir hlong => cases hend
  | file hthere hfits' hdone hrest ih =>
    rcases List.mem_cons.mp hn with rfl | hn
    · obtain ⟨g, hg⟩ := hthere
      obtain rfl : rest = [] := by
        simpa [Visit.names] using eq_of_file_below ha.ready.wellFormed hg hfile (hpre _ _)
      exact ⟨_, List.mem_cons_self, rfl, rfl, rfl⟩
    · obtain ⟨ha₁, hkeeps⟩ := done_amid hdone hthere ha
      obtain ⟨g, hg⟩ := hkeeps.file _ f hfile
      obtain ⟨v, hv, hplace⟩ := ih ha₁ hend hn hg hfits havoids
      exact ⟨v, List.mem_cons_of_mem _ hv, hplace⟩
  | fileFails hthere hfits' hfails => cases hend
  | fileLong hthere hlong hrest ih =>
    rcases List.mem_cons.mp hn with rfl | hn
    · obtain ⟨g, hg⟩ := hthere
      obtain rfl : rest = [] := by
        simpa [Visit.names] using eq_of_file_below ha.ready.wellFormed hg hfile (hpre _ _)
      exact absurd hfits hlong
    · exact ih ha hend hn hfile hfits havoids

/-- An export that finishes has visited every file that was there when it began, and that its roots
    lead to at its end. -/
theorem Tour.meets (h : Tour x roots k visits k' ending) (ha : x.Amid k) (hend : ending = .finished)
    (hmet : v.Met x roots) (hhost : v.host = k')
    {f : RegularFile} (hfile : k.tree.get? (v.base ++ v.names) = some (.file f)) :
    ∃ u ∈ visits, u.root = v.root ∧ u.base = v.base ∧ u.names = v.names := by
  induction h generalizing f with
  | done => exact absurd hmet.root_mem List.not_mem_nil
  | @root root R roots k k₁ k' inner visits ending hroot hinner hrest ih =>
    obtain ⟨ha₁, hkeeps⟩ := hinner.chain.amid ha
    by_cases hsame : v.root = root
    -- the root leads to where it led when it was gone through
    · have hstat := Tree.stat_kept (hkeeps.trans (hrest.chain.amid ha₁).2) hroot
      rw [← hinner.chain.directory, ← hrest.chain.directory, ← hhost, ← hsame, hmet.stat_root] at hstat
      cases hstat
      obtain ⟨m, rest, hnames⟩ : ∃ m rest, v.names = m :: rest :=
        List.exists_cons_of_ne_nil (by simp [Visit.names])
      have hfits := hmet.fits
      have havoids := hmet.avoids
      unfold Visit.source at hfits
      rw [hnames] at hfile hfits havoids
      have hm := mem_names_of_file ha.ready.wellFormed hfile
      rw [← List.nil_append (m :: rest)] at hfile hfits havoids
      obtain ⟨u, hu, huroot, hubase, hunames⟩ :=
        hinner.meets ha rfl hm hfile (hsame ▸ hfits) havoids
      exact ⟨u, List.mem_append_left _ hu, huroot.trans hsame.symm, hubase, hunames.trans hnames.symm⟩
    · obtain ⟨g, hg⟩ := hkeeps.file _ f hfile
      have hlater : v.Met x roots :=
        { hmet with root_mem := (List.mem_cons.mp hmet.root_mem).resolve_left hsame }
      obtain ⟨u, hu, hplace⟩ := ih ha₁ hend hlater hhost hg
      exact ⟨u, List.mem_append_right _ hu, hplace⟩
  | rootEnds hroot hinner hends => exact absurd hend hends
  | unlisted hlist => cases hend

end Export

end AssetServer
