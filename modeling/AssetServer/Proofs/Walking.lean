import AssetServer.Proofs.Course

/-!
# Runs of an export follow their course

Every run of an export, one that fails included, goes through its roots in the order that
`Export.Tour` describes, and its counts are those of the visits: `file_visits` for one file,
`walk_walked` for a directory, `roots_tour` for all roots.
-/

namespace AssetServer.Export

variable {x : Export} {k : Host} {v : Visit} {visits more : List Visit} {ending : Ending}
  {names list : List String} {root : Path} {R : Location}

/-! ## §1 One file -/

theorem compiled_of_exportName? {o : String} (ho : Kind.exportName? v.name = some o)
    (hkind : v.kind ≠ .passthrough) : v.Compiled := by
  unfold Visit.Compiled
  cases hk : v.kind with
  | passthrough => exact absurd hk hkind
  | unknown =>
    rw [Kind.exportName?_eq_none_iff.mpr hk] at ho
    cases ho
  | _ => decide

theorem not_compiled_of_kind {kind : Kind} (h : v.kind = kind) (hkind : kind ∉ Kind.compiled) :
    ¬ v.Compiled := by
  unfold Visit.Compiled
  rw [h]
  exact hkind

variable {p p' : Pass} {result : Except Failure Unit} {f : RegularFile}

/-- A file is still there when directories have been made. -/
theorem openFile_cleared {k₁ : Host} {dir : List String} (ha : x.Amid k)
    (hroot : k.tree.stat k.directory root = .ok (R, .directory))
    (hfile : k.tree.get? (R ++ names) = some (.file f)) (hfits : Tree.Fits (descend root names))
    (hclears : x.Clears dir k k₁) :
    k₁.tree.openFile k₁.directory (descend root names) = .ok (.file f) := by
  have hwf := ha.ready.wellFormed
  have hR := Tree.get?_of_stat hwf ha.ready.directory hroot
  have hstat := (Tree.stat_names_iff hroot (.refl _) hwf hR (ha.linkFree.below R)
    (hwf.names hfile)).mpr ⟨hfits, rfl, hfile⟩
  obtain ⟨t, hg, rfl⟩ := hclears
  exact Tree.openFile_file_iff.mpr ⟨_, Tree.stat_of_partOf hstat hg.partOf⟩

/-- Copying a file is a visit of it, unless it fails. -/
theorem copy_visits (hhost : p.host = v.host) (ha : x.Amid v.host)
    (hroot : v.host.tree.stat v.host.directory v.root = .ok (v.base, .directory))
    (hfile : v.host.tree.get? (v.base ++ v.names) = some (.file f)) (hfits : Tree.Fits v.source)
    (hplain : v.kind = .passthrough)
    (hrun : runFrom (copy v.source (descend x.dest v.names)) p = (result, p')) :
    (result = .ok () ∧ v.Done x p'.host ∧ p'.report = v.count x p.report) ∨
      ∃ e, result = .error e ∧ x.Changes v.names v.host p'.host := by
  have hwf := ha.ready.wellFormed
  have hnames : ∀ m ∈ v.dir ++ [v.name], IsName m := hwf.names hfile
  have hdir : ∀ m ∈ v.dir, IsName m := fun m hm => hnames m (List.mem_append_left _ hm)
  have hself : Kind.exportName? v.name = some v.name := Kind.exportName?_plain hplain
  have hnot : ¬ v.Compiled := not_compiled_of_kind hplain (by decide)
  rw [← hhost] at ha hroot hfile ⊢
  have hfree := ha.linkFree.below v.base
  cases hsame : p.host.tree.samePlace p.host.directory v.source (descend x.dest v.names) with
  | true =>
    have hplace := eq_location_of_samePlace ha.based hroot hfree hfile hfits hsame
    rw [runFrom_copy_inPlace hsame, Prod.mk.injEq] at hrun
    obtain ⟨rfl, rfl⟩ := hrun
    refine .inl ⟨rfl, ?_, ?_⟩
    · rw [hhost]
      exact .inPlace hplain (by rw [hplace])
    · unfold Visit.count
      rw [if_neg hnot, if_neg fun hcopied => hcopied.2 (by rw [hplace])]
  | false =>
    rcases copy_cases ha.based hdir (hnames v.name (by simp)) hsame hrun with
      ⟨e, k₁, rfl, hclears, rfl⟩ | ⟨k₁, g, k₂, rfl, hfits', hclears, hopen, hputs, rfl⟩
    · exact .inr ⟨e, rfl, .of_clears hclears⟩
    -- in its own place the file would have been passed over
    · have hcopied : v.Copied x := by
        refine ⟨hplain, fun heq => ?_⟩
        have hplace : v.base = x.location := List.append_cancel_right heq
        rw [hplace] at hroot hfile
        rw [show v.source = descend v.root v.names from rfl,
          samePlace_of_location ha.based hroot hfile hfits hfits'] at hsame
        cases hsame
      -- only directories have been made, so what was opened is the file that was there
      have hgf : g = f := by
        rw [show v.source = descend v.root v.names from rfl,
          openFile_cleared ha hroot hfile hfits hclears] at hopen
        cases hopen
        rfl
      subst hgf
      have hgives : v.Gives x g.content := by
        unfold Visit.Gives
        rw [if_pos hplain, ← hhost]
        exact ⟨g, hfile, rfl⟩
      refine .inl ⟨rfl, .written hself (.inr hcopied) hgives ?_ ⟨_, hputs.get?_self, rfl⟩, ?_⟩
      · rw [← hhost]
        exact .of_puts hputs
      · unfold Visit.count
        rw [if_neg hnot, if_pos hcopied]

/-- Exporting a file is a visit of it. -/
theorem file_visits (hhost : p.host = v.host) (ha : x.Amid v.host)
    (hroot : v.host.tree.stat v.host.directory v.root = .ok (v.base, .directory))
    (hfile : v.host.tree.get? (v.base ++ v.names) = some (.file f)) (hfits : Tree.Fits v.source)
    (hrun : runFrom (x.file v.root v.names) p = (result, p')) :
    (result = .ok () ∧ v.Done x p'.host ∧ p'.report = v.count x p.report) ∨
      ∃ e, result = .error e ∧ v.Fails x e p'.host := by
  have hnames : ∀ m ∈ v.dir ++ [v.name], IsName m := ha.ready.wellFormed.names hfile
  have hdir : ∀ m ∈ v.dir, IsName m := fun m hm => hnames m (List.mem_append_left _ hm)
  have hn : IsName v.name := hnames v.name (by simp)
  have hroot_ne : v.root.text ≠ "" := Tree.ne_empty_of_stat hroot
  have hclear := fun {o : String} (ho : Kind.exportName? v.name = some o) hbelow m =>
    ha.output_clear ⟨f, hfile⟩ ho hbelow m
  have hfails : ∀ {e : Failure} {o : String}, result = .error e →
      Kind.exportName? v.name = some o → x.Changes (v.dir ++ [o]) v.host p'.host →
      v.Fails x e p'.host := by
    rintro e o rfl ho hchanges
    exact ⟨⟨p, p', hhost, hrun, rfl⟩, o, ho, hchanges⟩
  rcases file_cases ha.based.dest_ne_empty hroot_ne hdir hn hrun with
    ⟨hnone, rfl, rfl⟩ | ⟨hplain, hcopy⟩ | ⟨o, q, made, k', ho, hcompiled, hq, hmade, hdone⟩
  · have hkind : v.kind = .unknown := Kind.exportName?_eq_none_iff.mp hnone
    have hnot : ¬ v.Copied x := by
      intro hcopied
      rw [hcopied.1] at hkind
      cases hkind
    refine .inl ⟨rfl, ?_, ?_⟩
    · show v.Done x p.host
      rw [hhost]
      exact .fragment hnone
    · unfold Visit.count
      rw [if_neg (not_compiled_of_kind hkind (by decide)), if_neg hnot]
  · rcases copy_visits hhost ha hroot hfile hfits hplain hcopy with hdone | ⟨e, he, hchanges⟩
    · exact .inl hdone
    · exact .inr ⟨e, he, hfails he (Kind.exportName?_plain hplain) hchanges⟩
  · rw [hhost] at hmade
    obtain ⟨hchanges, -, hfilled⟩ :=
      compileToFile_changes ha.underway hdir hq (Kind.exportName?_isName hn ho) (hclear ho) hmade
    -- compiling changes the output also when it fails
    rcases hdone with ⟨e, rfl, he, rfl⟩ | ⟨m, rfl, rfl, rfl⟩
    · exact .inr ⟨e, he, hfails he ho hchanges⟩
    · have hkind : v.Compiled := compiled_of_exportName? ho hcompiled
      obtain ⟨g, k₂, out, hempty, hputs, hcompile, hheld⟩ := hfilled m rfl
      have hgives : v.Gives x out.sink.held := by
        unfold Visit.Gives
        rw [if_neg (show v.kind ≠ .passthrough from hcompiled)]
        exact ⟨o, g, k₂, m, out, ho, hempty, hputs, hcompile, rfl⟩
      refine .inl ⟨rfl, .written ho (.inl hkind) hgives hchanges hheld, ?_⟩
      unfold Visit.count
      rw [if_pos hkind]

/-! ## §2 Directories -/

/-- What a run gives fits the ending of its course, its counts fit the visits, and each of the visits
    is a run of its own. -/
structure Accounts (x : Export) (p p' : Pass) (result : Except Failure Unit) (visits : List Visit)
    (ending : Ending) : Prop where
  result : result = ending.result
  report : ending = .finished → p'.report = visits.foldl (fun r v => v.count x r) p.report
  steps : Steps x visits (ending.reached p'.host)

theorem Accounts.append {p₁ : Pass} {first result : Except Failure Unit}
    (h : Accounts x p p₁ first visits .finished) (hmore : Accounts x p₁ p' result more ending)
    (hchain : Chain x p₁.host more p'.host ending) :
    Accounts x p p' result (visits ++ more) ending := by
  refine ⟨hmore.result, fun hend => ?_, steps_append.mpr ⟨?_, hmore.steps⟩⟩
  · rw [hmore.report hend, h.report rfl, List.foldl_append]
  · rw [hchain.start_eq]
    exact h.steps

theorem stat_of_long {t : Tree} {cwd : Location} {path : Path} (hnul : '\x00' ∉ path.text.toList)
    (hne : path.text ≠ "") (hlong : ¬ Tree.Fits path) : t.stat cwd path = .error .nameTooLong := by
  unfold Tree.stat Tree.find
  rw [if_neg (by simpa using hnul), if_neg hne, if_pos (Nat.not_le.mp hlong)]

/-- Each name makes a path longer. -/
theorem length_le_size {path : Path} (hnames : ∀ m ∈ names, IsName m) :
    names.length ≤ (descend path names).text.utf8ByteSize := by
  induction names using List.reverseRecOn with
  | nil => exact Nat.zero_le _
  | append_singleton init n ih =>
    have hinit : ∀ m ∈ init, IsName m := fun m hm => hnames m (List.mem_append_left _ hm)
    have hn : IsName n := hnames n (by simp)
    have hsize : 0 < n.utf8ByteSize := by
      rw [Nat.pos_iff_ne_zero]
      exact fun hzero => hn.ne_empty (String.utf8ByteSize_eq_zero_iff.mp hzero)
    have hstep := ih hinit
    rw [Path.descend_concat, List.length_append, List.length_singleton,
      Path.size_joined _ hn.no_slash]
    omega

/-- A directory whose path is too long cannot be gone through. -/
theorem walk_long {room : Nat} (hne : root.text ≠ "") (hnul : '\x00' ∉ root.text.toList)
    (hnames : ∀ m ∈ names, IsName m) (hlong : ¬ Tree.Fits (descend root names)) :
    runFrom (x.walk root room names) p = (.error (.file (descend root names) .nameTooLong), p) := by
  obtain ⟨hne', hnul', -⟩ := Path.descend_keeps hne hnul hnames
  cases room with
  | zero => rfl
  | succ room =>
    have hlist : runFrom (entries (descend root names)) p =
        (.error (.file (descend root names) .nameTooLong), p) :=
      entries_error_iff.mpr
        ⟨rfl, _, Tree.list_of_stat_error (stat_of_long hnul' hne' hlong), rfl⟩
    rw [walk_succ, runFrom_bind, hlist]

theorem stat_descend (ha : x.Amid k)
    (hroot : k.tree.stat k.directory root = .ok (R, .directory)) {e : Entry}
    (he : k.tree.get? (R ++ names) = some e) (hfits : Tree.Fits (descend root names)) :
    k.tree.stat k.directory (descend root names) = .ok (R ++ names, e) := by
  have hwf := ha.ready.wellFormed
  exact (Tree.stat_names_iff hroot (.refl _) hwf
    (Tree.get?_of_stat hwf ha.ready.directory hroot) (ha.linkFree.below R) (hwf.names he)).mpr
    ⟨hfits, rfl, he⟩

/-- The entry `n` is the first of a directory: what is left goes on from the host after it, unless
    the course ends with it. -/
structure First (x : Export) (root : Path) (R : Location) (names : List String) (n : String)
    (k : Host) (visits : List Visit) (k₁ : Host) (ending : Ending) : Prop where
  ends : ending ≠ .finished → ∀ rest, Goes x root R names (n :: rest) k visits k₁ ending
  goesOn : ending = .finished → ∀ {rest more k' ending'},
    Goes x root R names rest k₁ more k' ending' →
      Goes x root R names (n :: rest) k (visits ++ more) k' ending'

theorem First.chain {n : String} (h : First x root R names n k visits k' ending) :
    Chain x k visits k' ending := by
  by_cases hend : ending = .finished
  · have hdone : Goes x root R names [] k' [] k' .finished := .done
    have hgoes := h.goesOn hend hdone
    rw [List.append_nil] at hgoes
    rw [hend]
    exact hgoes.chain
  · exact (h.ends hend []).chain

/-- The course of a run from a pass to another. -/
def Walked (x : Export) (root : Path) (R : Location) (names list : List String) (p p' : Pass)
    (result : Except Failure Unit) : Prop :=
  ∃ visits ending, Goes x root R names list p.host visits p'.host ending ∧
    Accounts x p p' result visits ending

variable {room : Nat} {n : String}

/-- A directory is passed over if it is the destination, and else gone through. -/
theorem directory_first
    (hwalk : Tree.Fits (descend root (names ++ [n])) →
      runFrom (x.walk root room (names ++ [n])) p = (result, p') →
      Walked x root R (names ++ [n]) (p.host.tree.names (R ++ (names ++ [n]))) p p' result)
    (ha : x.Amid p.host) (hroot : p.host.tree.stat p.host.directory root = .ok (R, .directory))
    (hdir : p.host.tree.get? (R ++ (names ++ [n])) = some .directory)
    (hrun : runFrom (x.entry root room names (n, true)) p = (result, p')) :
    ∃ visits ending, First x root R names n p.host visits p'.host ending ∧
      Accounts x p p' result visits ending := by
  obtain ⟨hnul, hne, -, -⟩ := Tree.find_ok (Tree.stat_ok_iff.mp hroot)
  have hnames := ha.ready.wellFormed.names hdir
  rw [runFrom_entry_directory] at hrun
  by_cases hfits : Tree.Fits (descend root (names ++ [n]))
  · rw [Tree.canonical_of_stat (stat_descend ha hroot hdir hfits)] at hrun
    simp only [Except.ok.injEq] at hrun
    by_cases hplace : R ++ (names ++ [n]) = x.location
    · rw [if_pos hplace, Prod.mk.injEq] at hrun
      obtain ⟨rfl, rfl⟩ := hrun
      exact ⟨[], .finished, ⟨fun h => absurd rfl h, fun _ => .destination hplace hfits⟩, rfl,
        fun _ => rfl, trivial⟩
    · rw [if_neg hplace] at hrun
      obtain ⟨visits, ending, hgoes, haccounts⟩ := hwalk hfits hrun
      refine ⟨visits, ending, ⟨fun hends rest => ?_, fun hend => ?_⟩, haccounts⟩
      · exact .directoryEnds hdir hplace hfits hgoes hends
      · exact .directory hdir hplace hfits (hend ▸ hgoes)
  · -- a path that is too long leads nowhere, and cannot be listed
    have hnowhere : p.host.tree.canonical p.host.directory (descend root (names ++ [n])) ≠
        .ok x.location := by
      intro hsame
      obtain ⟨e, hstat⟩ := Tree.canonical_ok_iff.mp hsame
      exact hfits (Tree.fits_of_stat hstat)
    rw [if_neg hnowhere, walk_long hne hnul hnames hfits, Prod.mk.injEq] at hrun
    obtain ⟨rfl, rfl⟩ := hrun
    exact ⟨[], .unlisted (descend root (names ++ [n])) .nameTooLong,
      ⟨fun _ _ => .directoryLong hdir hfits, fun h => by cases h⟩, rfl, (fun h => by cases h),
      trivial⟩

/-- A file is visited, unless its path is too long. -/
theorem file_first (ha : x.Amid p.host)
    (hroot : p.host.tree.stat p.host.directory root = .ok (R, .directory))
    (hfile : p.host.tree.get? (R ++ (names ++ [n])) = some (.file f))
    (hrun : runFrom (x.entry root room names (n, false)) p = (result, p')) :
    ∃ visits ending, First x root R names n p.host visits p'.host ending ∧
      Accounts x p p' result visits ending := by
  have hthere : Visit.IsFile ⟨root, R, names, n, p.host⟩ := ⟨f, hfile⟩
  rw [runFrom_entry_file] at hrun
  by_cases hfits : Tree.Fits (descend root (names ++ [n]))
  · rw [if_pos (Tree.isFile_iff.mpr ⟨_, f, stat_descend ha hroot hfile hfits⟩)] at hrun
    rcases file_visits (v := ⟨root, R, names, n, p.host⟩) rfl ha hroot hfile hfits hrun with
      ⟨rfl, hdone, hreport⟩ | ⟨e, rfl, hfails⟩
    · exact ⟨[⟨root, R, names, n, p.host⟩], .finished,
        ⟨fun h => absurd rfl h, fun _ => .file hthere hfits hdone⟩, rfl, fun _ => hreport,
        ⟨p, p', rfl, hrun, rfl⟩, trivial⟩
    · exact ⟨[], .failed ⟨root, R, names, n, p.host⟩ e,
        ⟨fun _ _ => .fileFails hthere hfits hfails, fun h => by cases h⟩, rfl, (fun h => by cases h),
        trivial⟩
  · have hnot : ¬ p.host.tree.isFile p.host.directory (descend root (names ++ [n])) = true := by
      intro htrue
      obtain ⟨loc, g, hg⟩ := Tree.isFile_iff.mp htrue
      exact hfits (Tree.fits_of_stat hg)
    rw [if_neg hnot, Prod.mk.injEq] at hrun
    obtain ⟨rfl, rfl⟩ := hrun
    exact ⟨[], .finished, ⟨fun h => absurd rfl h, fun _ => .fileLong hthere hfits⟩, rfl,
      fun _ => rfl, trivial⟩

/-- The entries of a directory are gone through in order, as they were listed. -/
theorem entries_walked {isDirectory : String → Bool}
    (hwalk : ∀ {m p p' result}, x.Amid p.host →
      p.host.tree.stat p.host.directory root = .ok (R, .directory) →
      p.host.tree.get? (R ++ (names ++ [m])) = some .directory →
      Tree.Fits (descend root (names ++ [m])) →
      runFrom (x.walk root room (names ++ [m])) p = (result, p') →
      Walked x root R (names ++ [m]) (p.host.tree.names (R ++ (names ++ [m]))) p p' result)
    (ha : x.Amid p.host) (hroot : p.host.tree.stat p.host.directory root = .ok (R, .directory))
    (hlist : ∀ m ∈ list, ∃ e, p.host.tree.get? (R ++ (names ++ [m])) = some e ∧
      isDirectory m = (some e == some .directory))
    (hrun : runFrom ((list.map fun m => (m, isDirectory m)).forM (x.entry root room names)) p =
      (result, p')) : Walked x root R names list p p' result := by
  induction list generalizing p with
  | nil =>
    rw [List.map_nil, List.forM_eq_forM, List.forM_nil, runFrom_pure, Prod.mk.injEq] at hrun
    obtain ⟨rfl, rfl⟩ := hrun
    exact ⟨[], .finished, .done, rfl, fun _ => rfl, trivial⟩
  | cons m rest ih =>
    rw [List.map_cons, List.forM_eq_forM, List.forM_cons, runFrom_bind] at hrun
    rcases hentry : runFrom (x.entry root room names (m, isDirectory m)) p with ⟨first, p₁⟩
    rw [hentry] at hrun
    obtain ⟨e, he, hflag⟩ := hlist m (by simp)
    rw [hflag] at hentry
    obtain ⟨visits, ending, hfirst, haccounts⟩ : ∃ visits ending,
        First x root R names m p.host visits p₁.host ending ∧
          Accounts x p p₁ first visits ending := by
      cases e with
      | directory => exact directory_first (fun hfits => hwalk ha hroot he hfits) ha hroot he hentry
      | file f => exact file_first ha hroot he hentry
      | link target => exact absurd he (ha.linkFree _ target)
    -- the loop goes on after an entry exactly if nothing has failed
    by_cases hend : ending = .finished
    · subst hend
      obtain ⟨ha₁, hkeeps⟩ := hfirst.chain.amid ha
      have hok := haccounts.result
      subst hok
      -- what was listed is still there, and of the same kind
      have hlist₁ : ∀ m ∈ rest, ∃ e, p₁.host.tree.get? (R ++ (names ++ [m])) = some e ∧
          isDirectory m = (some e == some .directory) := by
        intro m hm
        obtain ⟨e, he, hflag⟩ := hlist m (List.mem_cons_of_mem _ hm)
        obtain ⟨e', he', hsame⟩ := hkeeps.isDirectory ha.linkFree he
        exact ⟨e', he', hflag.trans hsame.symm⟩
      have hroot₁ : p₁.host.tree.stat p₁.host.directory root = .ok (R, .directory) := by
        rw [hfirst.chain.directory]
        exact Tree.stat_kept hkeeps hroot
      obtain ⟨more, ending', hgoes, haccounts'⟩ := ih ha₁ hroot₁ hlist₁ hrun
      exact ⟨visits ++ more, ending', hfirst.goesOn rfl hgoes,
        haccounts.append haccounts' hgoes.chain⟩
    · have hresult := haccounts.result
      obtain ⟨failure, hfailure⟩ := ending.error_of_ne_finished hend
      rw [hfailure] at hresult
      subst hresult
      simp only [Prod.mk.injEq] at hrun
      obtain ⟨rfl, rfl⟩ := hrun
      exact ⟨visits, ending, hfirst.ends hend rest, haccounts⟩

/-- A directory is gone through as it is listed when the export reaches it. -/
theorem walk_walked (ha : x.Amid p.host)
    (hroot : p.host.tree.stat p.host.directory root = .ok (R, .directory))
    (hdir : p.host.tree.get? (R ++ names) = some .directory)
    (hfits : Tree.Fits (descend root names)) (hroom : maxLevels ≤ room + names.length)
    (hrun : runFrom (x.walk root room names) p = (result, p')) :
    Walked x root R names (p.host.tree.names (R ++ names)) p p' result := by
  induction room generalizing names p p' result with
  | zero =>
    -- so many names do not fit into a path
    have hnames := ha.ready.wellFormed.names hdir
    have hlength : names.length ≤ Tree.maxPathBytes := (length_le_size hnames).trans hfits
    unfold maxLevels at hroom
    omega
  | succ room ih =>
    have hlist : runFrom (entries (descend root names)) p =
        (.ok ((p.host.tree.names (R ++ names)).map fun m =>
          (m, p.host.tree.get? (R ++ names ++ [m]) == some .directory)), p) :=
      entries_ok_iff.mpr ⟨rfl, _, stat_descend ha hroot hdir hfits, rfl⟩
    rw [walk_succ, runFrom_bind, hlist] at hrun
    refine entries_walked (fun ha hroot hdir hfits hrun => ?_) ha hroot (fun m hm => ?_) hrun
    · refine ih ha hroot hdir hfits ?_ hrun
      rw [List.length_append, List.length_singleton]
      omega
    · obtain ⟨e, he⟩ := Tree.mem_names_iff.mp hm
      refine ⟨e, by rw [← List.append_assoc]; exact he, ?_⟩
      show (p.host.tree.get? (R ++ names ++ [m]) == some .directory) = _
      rw [he]

/-! ## §3 Roots -/

/-- A root is gone through, or cannot be listed. -/
theorem root_walked (ha : x.Amid p.host) (hrun : runFrom (x.root root) p = (result, p')) :
    (∃ R, p.host.tree.stat p.host.directory root = .ok (R, .directory) ∧
        Walked x root R [] (p.host.tree.names R) p p' result) ∨
      ∃ e, p.host.tree.list p.host.directory root = .error e ∧ result = .error (.file root e) ∧
        p'.host = p.host := by
  unfold Export.root at hrun
  rw [runFrom_bind, runFrom_tell] at hrun
  simp only at hrun
  set p₀ : Pass := { p with progress := p.progress ++ [.root root] } with hp₀
  cases hlist : p.host.tree.list p.host.directory root with
  | error e =>
    right
    have hentries : runFrom (entries (descend root [])) p₀ = (.error (.file root e), p₀) :=
      entries_error_iff.mpr ⟨rfl, e, hlist, rfl⟩
    rw [show maxLevels = Tree.maxPathBytes + 1 from rfl, walk_succ, runFrom_bind, hentries,
      Prod.mk.injEq] at hrun
    obtain ⟨rfl, rfl⟩ := hrun
    exact ⟨e, rfl, rfl, rfl⟩
  | ok found =>
    left
    obtain ⟨R, names⟩ := found
    obtain ⟨hroot, -⟩ := Tree.list_ok_iff.mp hlist
    have hR := Tree.get?_of_stat ha.ready.wellFormed ha.ready.directory hroot
    have hfits : Tree.Fits (descend root []) := Tree.fits_of_stat hroot
    have ha₀ : x.Amid p₀.host := ha
    obtain ⟨visits, ending, hgoes, haccounts⟩ := walk_walked ha₀ hroot
      (by rw [List.append_nil]; exact hR) hfits (Nat.le_add_right _ _) hrun
    rw [List.append_nil] at hgoes
    exact ⟨R, hroot, visits, ending, hgoes, haccounts.result, haccounts.report, haccounts.steps⟩

/-- The course of an export of some roots. -/
theorem roots_tour {roots : List Path} (ha : x.Amid p.host)
    (hrun : runFrom (roots.forM x.root) p = (result, p')) :
    ∃ visits ending, Tour x roots p.host visits p'.host ending ∧
      Accounts x p p' result visits ending := by
  -- the host of the next root is what the roots before it leave
  induction roots generalizing p with
  | nil =>
    rw [List.forM_eq_forM, List.forM_nil, runFrom_pure, Prod.mk.injEq] at hrun
    obtain ⟨rfl, rfl⟩ := hrun
    exact ⟨[], .finished, .done, rfl, fun _ => rfl, trivial⟩
  | cons root rest ih =>
    rw [List.forM_eq_forM, List.forM_cons, runFrom_bind] at hrun
    rcases hfirst : runFrom (x.root root) p with ⟨first, p₁⟩
    rw [hfirst] at hrun
    rcases root_walked ha hfirst with
      ⟨R, hroot, visits, ending, hgoes, haccounts⟩ | ⟨e, hlist, rfl, hhost⟩
    · by_cases hend : ending = .finished
      · subst hend
        have hok := haccounts.result
        subst hok
        obtain ⟨more, ending', htour, haccounts'⟩ := ih (hgoes.chain.amid ha).1 hrun
        exact ⟨visits ++ more, ending', .root hroot hgoes htour,
          haccounts.append haccounts' htour.chain⟩
      · have hresult := haccounts.result
        obtain ⟨failure, hfailure⟩ := ending.error_of_ne_finished hend
        rw [hfailure] at hresult
        subst hresult
        simp only [Prod.mk.injEq] at hrun
        obtain ⟨rfl, rfl⟩ := hrun
        exact ⟨visits, ending, .rootEnds hroot hgoes hend, haccounts⟩
    · simp only [Prod.mk.injEq] at hrun
      obtain ⟨rfl, rfl⟩ := hrun
      rw [hhost]
      exact ⟨[], .unlisted root e, .unlisted hlist, rfl, (fun h => by cases h), trivial⟩

end AssetServer.Export
