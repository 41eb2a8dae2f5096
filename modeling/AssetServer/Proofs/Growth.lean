import AssetServer.Proofs.Lookup

/-!
# Making directories and files

What the changes of a file system leave behind. A change that makes directories only adds
directories where nothing was (`Tree.Grown`); a change that writes a file puts it below a directory
that is there (`Tree.target_cases`).

- `Tree.WellFormed.put` keeps a file system well formed.
- `Tree.makeDirectories_grown` holds for every path, also when making the directories fails.
- `Tree.makeDirectories_below` says where the directories on the way to some names below a
  directory go.
-/

namespace AssetServer.Tree

variable {t t' t'' : Tree} {cwd loc base : Location} {n : String} {e : Entry}

/-! ## §1 One entry -/

theorem get?_put (hloc : loc ≠ []) (other : Location) :
    (t.put loc e).get? other = if other = loc then some e else t.get? other := by
  split
  · rename_i h
    rw [h, get?_put_self t hloc]
  · rename_i h
    exact get?_put_of_ne t h e

/-- An entry may be put below a directory, under a name, where no directory is. -/
theorem WellFormed.put (hwf : t.WellFormed) (hdir : t.get? loc = some .directory)
    (hn : IsName n) (hfree : t.get? (loc ++ [n]) ≠ some .directory)
    (htarget : ∀ text, e ≠ .link text) : (t.put (loc ++ [n]) e).WellFormed := by
  have hne : loc ++ [n] ≠ [] := by simp
  have hself : loc ≠ loc ++ [n] := by simp
  -- in order: one entry a place, directories above entries, good names, good targets
  refine ⟨?_, ?_, ?_, ?_⟩
  · show (((loc ++ [n], e) :: t.entries.filter _).map Prod.fst).Nodup
    rw [List.map_cons, List.nodup_cons]
    constructor
    · rw [List.mem_map]
      rintro ⟨⟨l, e'⟩, hmem, rfl⟩
      simpa using (List.mem_filter.mp hmem).2
    · exact hwf.nodup.sublist (List.filter_sublist.map Prod.fst)
  · intro l m e' h
    rw [get?_put hne] at h ⊢
    split at h
    · rename_i heq
      obtain ⟨rfl, -⟩ := List.append_inj' heq rfl
      rw [if_neg hself]
      exact hdir
    · have hup := hwf.parent h
      rw [if_neg]
      · exact hup
      -- no entry lies below what is replaced, as that is no directory
      · rintro rfl
        exact hfree hup
  · intro l m e' h
    rw [get?_put hne] at h
    split at h
    · rename_i heq
      have := (List.append_inj' heq rfl).2
      rw [List.cons.injEq] at this
      rw [this.1]
      exact hn
    · exact hwf.name h
  · intro l text h
    rw [get?_put hne] at h
    split at h
    · exact absurd (Option.some.inj h) (htarget text)
    · exact hwf.target h

/-! ## §2 Growth -/

/-- `t'` is `t` with directories at some of the vacant places that `P` allows. -/
structure Grown (P : Location → Prop) (t t' : Tree) : Prop where
  wellFormed : t'.WellFormed
  same : ∀ loc, t'.get? loc = t.get? loc ∨
    P loc ∧ t.get? loc = none ∧ t'.get? loc = some .directory

variable {P Q : Location → Prop}

theorem Grown.refl (hwf : t.WellFormed) : Grown P t t :=
  ⟨hwf, fun _ => .inl rfl⟩

theorem Grown.trans (h : Grown P t t') (h' : Grown P t' t'') : Grown P t t'' := by
  refine ⟨h'.wellFormed, fun loc => ?_⟩
  rcases h'.same loc with hsame | ⟨hP, hnone, hdir⟩
  · rw [hsame]
    exact h.same loc
  · rcases h.same loc with hbefore | ⟨-, -, hthere⟩
    · exact .inr ⟨hP, hbefore ▸ hnone, hdir⟩
    · rw [hthere] at hnone
      cases hnone

theorem Grown.partOf (h : Grown P t t') : t.PartOf t' := by
  intro loc e he
  rcases h.same loc with hsame | ⟨-, hnone, -⟩
  · rw [hsame]
    exact he
  · rw [hnone] at he
    cases he

/-- Growing adds nothing but directories. -/
theorem Grown.of_ne_directory (h : Grown P t t') (he : t'.get? loc = some e)
    (hne : e ≠ .directory) : t.get? loc = some e := by
  rcases h.same loc with hsame | ⟨-, -, hdir⟩
  · rw [← hsame]
    exact he
  · rw [hdir] at he
    exact absurd (Option.some.inj he).symm hne

theorem Grown.linkFree (h : Grown P t t') (hfree : t.LinkFree base) : t'.LinkFree base :=
  fun rest target he => hfree rest target (h.of_ne_directory he (by simp))

theorem Grown.put (hwf : t.WellFormed) (hdir : t.get? loc = some .directory) (hn : IsName n)
    (hnone : t.get? (loc ++ [n]) = none) (hP : P (loc ++ [n])) :
    Grown P t (t.put (loc ++ [n]) .directory) := by
  refine ⟨hwf.put hdir hn (by simp [hnone]) (by simp), fun other => ?_⟩
  rw [get?_put (by simp)]
  split
  · rename_i h
    rw [h]
    exact .inr ⟨hP, hnone, rfl⟩
  · exact .inl rfl

/-! ## §3 Directories -/

/-- A directory is made at a missing name of a directory. -/
theorem makeDirectory_ok {p : Path} (hwf : t.WellFormed) (hcwd : t.get? cwd = some .directory)
    (h : t.makeDirectory cwd p = .ok t') :
    ∃ dir n slash, t.find cwd false p = .ok (.vacant dir n slash) ∧
      t' = t.put (dir ++ [n]) .directory ∧ t.get? dir = some .directory ∧
      t.get? (dir ++ [n]) = none ∧ IsName n := by
  unfold makeDirectory at h
  split at h
  · cases h
  · rename_i dir n slash hfind
    cases h
    obtain ⟨hdir, hnone⟩ := find_shows hwf hcwd hfind
    exact ⟨dir, n, slash, hfind, rfl, hdir, hnone, find_isName hwf.named hfind⟩
  · cases h

theorem makeDirectory_grown {p : Path} (hwf : t.WellFormed) (hcwd : t.get? cwd = some .directory)
    (h : t.makeDirectory cwd p = .ok t') : Grown (fun _ => True) t t' := by
  obtain ⟨dir, n, slash, -, rfl, hdir, hnone, hn⟩ := makeDirectory_ok hwf hcwd h
  exact .put hwf hdir hn hnone trivial

/-- `q` is the path `p` or one of those above it. -/
inductive Leads (p : Path) : Path → Prop where
  | here : Leads p p
  | up {q q' : Path} (h : Leads p q) (hparent : q.parent = some q') : Leads p q'

theorem Leads.of_parent {p q q' : Path} (hparent : p.parent = some q) (h : Leads q q') :
    Leads p q' := by
  induction h with
  | here => exact .up .here hparent
  | up _ hup ih => exact .up ih hup

/-- How making the directory of a path ends, once those above it are made where that is needed. -/
inductive Attempt (cwd : Location) (p : Path) (t : Tree) : Except OsError Unit × Tree → Prop where
  | fails (e : OsError) : Attempt cwd p t (.error e, t)
  | empty (h : p.text = "") : Attempt cwd p t (.ok (), t)
  | there (h : t.isDirectory cwd p = true) : Attempt cwd p t (.ok (), t)
  | makes {t' : Tree} (h : t.makeDirectory cwd p = .ok t') : Attempt cwd p t (.ok (), t')

/-- The last attempt is made as things are, or after the directories above. -/
theorem makeDirectoriesWithin_attempt (t : Tree) (cwd : Location) (room : Nat) (p : Path) : ∃ t₁,
    (t₁ = t ∨ ∃ below dir, room = below + 1 ∧ p.parent = some dir ∧
      t₁ = (t.makeDirectoriesWithin cwd below dir).2) ∧
    Attempt cwd p t₁ (t.makeDirectoriesWithin cwd room p) := by
  cases room with
  | zero => exact ⟨t, .inl rfl, .fails _⟩
  | succ room =>
    rw [makeDirectoriesWithin]
    split
    · exact ⟨t, .inl rfl, .empty ‹_›⟩
    · split
      · exact ⟨t, .inl rfl, .makes ‹_›⟩
      · split
        · split
          · exact ⟨t, .inl rfl, .there ‹_›⟩
          · exact ⟨t, .inl rfl, .fails _⟩
        · split
          · exact ⟨t, .inl rfl, .fails _⟩
          · rename_i dir hparent
            -- the directories above are made first, then this one is tried again
            split
            · rename_i t₁ hrun
              exact ⟨t₁, .inr ⟨room, dir, rfl, hparent, by rw [hrun]⟩, .fails _⟩
            · rename_i t₁ hrun
              refine ⟨t₁, .inr ⟨room, dir, rfl, hparent, by rw [hrun]⟩, ?_⟩
              split
              · exact .makes ‹_›
              · split
                · exact .there ‹_›
                · exact .fails _

/-- Making the directories of a path makes one at a time, each at a path above it or at the path
    itself. What each of them keeps is kept, whether the directories can be made or not. -/
theorem makeDirectoriesWithin_keeps {I : Tree → Prop} (room : Nat) (p : Path) (hI : I t)
    (hstep : ∀ {t t' q}, Leads p q → I t → t.makeDirectory cwd q = .ok t' → I t') :
    I (t.makeDirectoriesWithin cwd room p).2 := by
  induction room using Nat.strongRecOn generalizing p with
  | ind room ih =>
    obtain ⟨t₁, hbefore, hattempt⟩ := makeDirectoriesWithin_attempt t cwd room p
    have h₁ : I t₁ := by
      rcases hbefore with rfl | ⟨below, dir, rfl, hparent, rfl⟩
      · exact hI
      · exact ih below (Nat.lt_succ_self below) dir fun hq => hstep (.of_parent hparent hq)
    generalize t.makeDirectoriesWithin cwd room p = result at hattempt
    cases hattempt with
    | fails | empty | there => exact h₁
    | makes hmake => exact hstep .here h₁ hmake

/-- Making directories adds directories and nothing else, whether it succeeds or not. -/
theorem makeDirectoriesWithin_grown (room : Nat) (p : Path) (hwf : t.WellFormed)
    (hcwd : t.get? cwd = some .directory) :
    Grown (fun _ => True) t (t.makeDirectoriesWithin cwd room p).2 :=
  makeDirectoriesWithin_keeps room p (.refl hwf) fun _ hgrown hmake =>
    hgrown.trans (makeDirectory_grown hgrown.wellFormed (hgrown.partOf _ _ hcwd) hmake)

theorem makeDirectories_grown (p : Path) (hwf : t.WellFormed)
    (hcwd : t.get? cwd = some .directory) :
    Grown (fun _ => True) t (t.makeDirectories cwd p).2 :=
  makeDirectoriesWithin_grown _ p hwf hcwd

/-! ## §4 Directories below a directory -/

/-- Paths for names below `dest`: the parents on the way up from a file that was joined to it. -/
inductive Spells (dest : Path) : List String → Path → Prop where
  | here {q : Path} (h : Path.Trims q dest) : Spells dest [] q
  | below {names : List String} (h : names ≠ []) : Spells dest names (Export.descend dest names)

variable {dest q : Path} {names : List String}

theorem Spells.eq_descend (h : Spells dest names q) (hne : names ≠ []) :
    q = Export.descend dest names := by
  cases h with
  | here h => exact absurd rfl hne
  | below h => rfl

theorem Spells.ne_empty (h : Spells dest names q) (hdest : dest.text ≠ "")
    (hnames : ∀ m ∈ names, IsName m) : q.text ≠ "" := by
  cases h with
  | here h => exact h.nonempty
  | below h =>
    clear h
    induction names using List.reverseRecOn with
    | nil => exact hdest
    | append_singleton init n ih =>
      rw [Path.descend_concat]
      exact Path.join_ne_empty (ih fun m hm => hnames m (List.mem_append_left _ hm))
        (hnames n (by simp))

theorem Spells.descend (hdest : dest.text ≠ "") : Spells dest names (Export.descend dest names) := by
  by_cases h : names = []
  · subst h
    exact .here (.refl hdest)
  · exact .below h

/-- The parent of a name joined to a path for some names is a path for the same names. -/
theorem Spells.parent (h : Spells dest names q) (hdest : dest.text ≠ "")
    (hnames : ∀ m ∈ names, IsName m) (hn : IsName n) :
    ∃ q', (q.join n).parent = some q' ∧ Spells dest names q' := by
  cases h with
  | here h =>
    obtain ⟨-, q', hparent, htrims⟩ := Path.exists_parent_join h.nonempty hn
    exact ⟨q', hparent, .here (htrims.trans h)⟩
  | below hne =>
    obtain ⟨init, m, rfl⟩ : ∃ init m, names = init ++ [m] :=
      ⟨_, _, (List.dropLast_append_getLast hne).symm⟩
    have hinit : (Export.descend dest init).text ≠ "" :=
      (Spells.descend hdest).ne_empty hdest fun k hk => hnames k (List.mem_append_left _ hk)
    refine ⟨Export.descend dest (init ++ [m]), ?_, .below hne⟩
    rw [Path.descend_concat]
    exact Path.parent_join_join hinit (hnames m (by simp)) hn

/-- A path for names leads to where they do. -/
theorem Spells.stat (h : Spells dest names q) (hwf : t.WellFormed)
    (hdest : t.stat cwd dest = .ok (base, .directory)) (hbase : t.get? base = some .directory)
    (hfree : t.LinkFree base) (hnames : ∀ m ∈ names, IsName m) (hfits : Fits q)
    (hthere : t.get? (base ++ names) = some .directory) :
    t.stat cwd q = .ok (base ++ names, .directory) := by
  cases h with
  | here h => simpa using stat_of_trims h hdest
  | below hne =>
    exact (stat_names_iff hdest (.refl t) hwf hbase hfree hnames).mpr ⟨hfits, rfl, hthere⟩

/-- Making one directory at names below a directory puts it where the names say. -/
theorem makeDirectory_names
    (hdest : t.stat cwd dest = .ok (base, .directory)) (hbase : t.get? base = some .directory)
    (hfree : t.LinkFree base) (hnames : ∀ m ∈ names ++ [n], IsName m)
    (h : t.makeDirectory cwd (Export.descend dest (names ++ [n])) = .ok t') :
    t.get? (base ++ names) = some .directory ∧ t.get? (base ++ (names ++ [n])) = none ∧
      t' = t.put (base ++ (names ++ [n])) .directory := by
  unfold makeDirectory at h
  split at h
  · cases h
  · rename_i dir m slash hfind
    cases h
    rcases find_names hdest (.refl t) hbase hfree (by simp) hnames hfind with
      ⟨_, _, heq⟩ | ⟨dir', m', hsplit, hdir, hnone, heq⟩
    · cases heq
    · cases heq
      obtain ⟨rfl, hm⟩ := List.append_inj' hsplit rfl
      rw [List.cons.injEq] at hm
      rw [hm.1] at hnone ⊢
      exact ⟨hdir, hnone, by simp⟩
  · cases h

/-- Making one directory more, whatever has been made on the way to it. -/
theorem makeDirectory_below {P : Location → Prop} {t₁ t₂ : Tree}
    (hdest : t.stat cwd dest = .ok (base, .directory)) (hbase : t.get? base = some .directory)
    (hfree : t.LinkFree base) (hnames : ∀ m ∈ names ++ [n], IsName m)
    (hP : P (base ++ (names ++ [n]))) (hgrown : Grown P t t₁)
    (h : t₁.makeDirectory cwd (Export.descend dest (names ++ [n])) = .ok t₂) :
    Grown P t t₂ ∧ t₂.get? (base ++ (names ++ [n])) = some .directory := by
  obtain ⟨hdir, hnone, rfl⟩ := makeDirectory_names (stat_of_partOf hdest hgrown.partOf)
    (hgrown.partOf _ _ hbase) (hgrown.linkFree hfree) hnames h
  have hassoc : base ++ (names ++ [n]) = (base ++ names) ++ [n] := by simp
  refine ⟨hgrown.trans ?_, get?_put_self _ (by simp) _⟩
  rw [hassoc] at hnone hP ⊢
  exact .put hgrown.wellFormed hdir (hnames n (by simp)) hnone hP

theorem get?_of_isDirectory {P : Location → Prop} {t₁ : Tree}
    (hdest : t.stat cwd dest = .ok (base, .directory)) (hbase : t.get? base = some .directory)
    (hfree : t.LinkFree base) (hnames : ∀ m ∈ names, IsName m) (hgrown : Grown P t t₁)
    (h : t₁.isDirectory cwd (Export.descend dest names) = true) :
    t₁.get? (base ++ names) = some .directory := by
  obtain ⟨loc, hstat⟩ := isDirectory_iff.mp h
  exact ((stat_names_iff (stat_of_partOf hdest hgrown.partOf) (.refl t₁) hgrown.wellFormed
    (hgrown.partOf _ _ hbase) (hgrown.linkFree hfree) hnames).mp hstat).2.2

/-- Making a directory that is there succeeds and changes nothing. -/
theorem makeDirectoriesWithin_succ_there {loc : Location} (room : Nat)
    (hq : t.stat cwd q = .ok (loc, .directory)) :
    t.makeDirectoriesWithin cwd (room + 1) q = (.ok (), t) := by
  obtain ⟨loc', e, htaken⟩ := find_nofollow hq
  have hmake : t.makeDirectory cwd q = .error .alreadyExists := by
    unfold makeDirectory
    rw [htaken]
  have hdirectory : t.isDirectory cwd q = true := isDirectory_iff.mpr ⟨loc, hq⟩
  unfold makeDirectoriesWithin
  rw [if_neg (find_ok htaken).2.1, hmake]
  show (if OsError.alreadyExists ≠ .notFound then
    if t.isDirectory cwd q then _ else _ else _ : Except OsError Unit × Tree) = _
  rw [if_pos (by intro h; cases h), if_pos hdirectory]

theorem makeDirectories_there {loc : Location} (hq : t.stat cwd q = .ok (loc, .directory)) :
    t.makeDirectories cwd q = (.ok (), t) :=
  makeDirectoriesWithin_succ_there _ hq

theorem makeDirectoriesWithin_there {loc : Location} (room : Nat)
    (hq : t.stat cwd q = .ok (loc, .directory)) :
    (t.makeDirectoriesWithin cwd room q).2 = t := by
  cases room with
  | zero => rfl
  | succ room => rw [makeDirectoriesWithin_succ_there room hq]

/-- Making the directories on the way to names below a directory makes them there. -/
theorem makeDirectoriesWithin_below {P : Location → Prop} (room : Nat) (hwf : t.WellFormed)
    (hdest : t.stat cwd dest = .ok (base, .directory)) (hbase : t.get? base = some .directory)
    (hfree : t.LinkFree base) (hnames : ∀ m ∈ names, IsName m) (hq : Spells dest names q)
    (hP : ∀ pre, pre <+: names → P (base ++ pre)) :
    Grown P t (t.makeDirectoriesWithin cwd room q).2 ∧
      ((t.makeDirectoriesWithin cwd room q).1 = .ok () →
        (t.makeDirectoriesWithin cwd room q).2.get? (base ++ names) = some .directory) := by
  have hnonempty : dest.text ≠ "" := (find_ok (stat_ok_iff.mp hdest)).2.1
  -- the way up ends at `dest` at the latest, so the induction is on the names below it
  induction names using List.reverseRecOn generalizing room q with
  | nil =>
    have hstat : t.stat cwd q = .ok (base, .directory) := by
      cases hq with
      | here h => exact stat_of_trims h hdest
      | below h => exact absurd rfl h
    rw [makeDirectoriesWithin_there room hstat, List.append_nil]
    exact ⟨.refl hwf, fun _ => hbase⟩
  | append_singleton init n ih =>
    have hempty : q.text ≠ "" := hq.ne_empty hnonempty hnames
    have hinit : ∀ m ∈ init, IsName m := fun m hm => hnames m (List.mem_append_left _ hm)
    obtain rfl : q = Export.descend dest (init ++ [n]) := hq.eq_descend (by simp)
    obtain ⟨t₁, hbefore, hattempt⟩ :=
      makeDirectoriesWithin_attempt t cwd room (Export.descend dest (init ++ [n]))
    have hgrown : Grown P t t₁ := by
      rcases hbefore with rfl | ⟨below, dir, rfl, hparent, rfl⟩
      · exact .refl hwf
      · obtain ⟨up, hparent', hup⟩ :=
          (Spells.descend hnonempty).parent hnonempty hinit (hnames n (by simp))
        rw [← Path.descend_concat, hparent] at hparent'
        cases hparent'
        exact (ih below hinit hup fun pre hpre =>
          hP pre (hpre.trans (List.prefix_append init [n]))).1
    generalize t.makeDirectoriesWithin cwd room (Export.descend dest (init ++ [n])) = result
      at hattempt
    cases hattempt with
    | fails => exact ⟨hgrown, fun h => by cases h⟩
    | empty h => exact absurd h hempty
    | there h =>
      exact ⟨hgrown, fun _ => get?_of_isDirectory hdest hbase hfree hnames hgrown h⟩
    | makes hmake =>
      obtain ⟨hgrown', hthere⟩ :=
        makeDirectory_below hdest hbase hfree hnames (hP _ List.prefix_rfl) hgrown hmake
      exact ⟨hgrown', fun _ => hthere⟩

theorem makeDirectories_below (hwf : t.WellFormed)
    (hdest : t.stat cwd dest = .ok (base, .directory)) (hbase : t.get? base = some .directory)
    (hfree : t.LinkFree base) (hnames : ∀ m ∈ names, IsName m) (hq : Spells dest names q) :
    Grown (fun loc => ∃ pre, pre <+: names ∧ loc = base ++ pre) t (t.makeDirectories cwd q).2 ∧
      ((t.makeDirectories cwd q).1 = .ok () →
        (t.makeDirectories cwd q).2.get? (base ++ names) = some .directory) :=
  makeDirectoriesWithin_below _ hwf hdest hbase hfree hnames hq fun pre hpre => ⟨pre, hpre, rfl⟩

/-! ## §5 Files -/

/-- Writing to a path goes to the file that it leads to, or to the name that it leads to if that is
    missing and no slash follows it. -/
theorem target_ok_iff {p : Path} {mode mode' : Nat} : t.target cwd p mode = .ok (loc, mode') ↔
    (∃ f, t.find cwd true p = .ok (.taken loc (.file f)) ∧ f.ownerWrites = true ∧ mode' = f.mode) ∨
      ∃ dir n, t.find cwd true p = .ok (.vacant dir n false) ∧ loc = dir ++ [n] ∧ mode' = mode := by
  constructor
  · intro h
    unfold target at h
    split at h
    · rename_i loc' f hfind
      split at h
      · rename_i hwrites
        cases h
        exact .inl ⟨f, hfind, hwrites, rfl⟩
      · cases h
    · cases h
    · rename_i dir n slash hfind
      split at h
      · cases h
      · rename_i hslash
        cases h
        rw [Bool.not_eq_true] at hslash
        exact .inr ⟨dir, n, hslash ▸ hfind, rfl, rfl⟩
    · cases h
  · unfold target
    rintro (⟨f, hfind, hwrites, rfl⟩ | ⟨dir, n, hfind, rfl, rfl⟩)
    · rw [hfind]
      exact if_pos hwrites
    · rw [hfind]
      rfl

/-- Creating a file puts an empty one where writing to its path goes. -/
theorem createFile_ok_iff {p : Path} {now : Instant} : t.createFile cwd now p = .ok (loc, t') ↔
    ∃ mode, t.target cwd p RegularFile.defaultMode = .ok (loc, mode) ∧
      t' = t.put loc (.file ⟨[], mode, now⟩) := by
  unfold createFile
  constructor
  · intro h
    split at h
    · rename_i place mode htarget
      cases h
      exact ⟨mode, htarget, rfl⟩
    · cases h
  · rintro ⟨mode, htarget, rfl⟩
    rw [htarget]

/-- Copying a file puts what its path opens where writing to the other path goes. -/
theorem copyFile_ok_iff {source dest : Path} {now : Instant} :
    t.copyFile cwd now source dest = .ok t' ↔
      ∃ f loc mode, t.openFile cwd source = .ok (.file f) ∧
        t.target cwd dest f.mode = .ok (loc, mode) ∧
        t' = t.put loc (.file ⟨f.content, f.mode, now⟩) := by
  unfold copyFile
  constructor
  · intro h
    split at h
    · cases h
    · cases h
    · rename_i f hopen
      split at h
      · cases h
      · rename_i loc mode htarget
        cases h
        exact ⟨f, loc, mode, hopen, htarget, rfl⟩
  · rintro ⟨f, loc, mode, hopen, htarget, rfl⟩
    simp only [hopen, htarget]
/-- A file is written at a name of a directory, where nothing or another file is. -/
theorem target_cases {p : Path} {mode mode' : Nat} (hwf : t.WellFormed)
    (hcwd : t.get? cwd = some .directory) (h : t.target cwd p mode = .ok (loc, mode')) :
    ∃ dir n, loc = dir ++ [n] ∧ t.get? dir = some .directory ∧ IsName n ∧
      (t.get? loc = none ∨ ∃ f, t.get? loc = some (.file f)) := by
  rcases target_ok_iff.mp h with ⟨f, hfind, -, -⟩ | ⟨dir, n, hfind, rfl, -⟩
  · have hfile : t.get? loc = some (.file f) := find_shows hwf hcwd hfind
    cases loc using List.reverseRecOn with
    | nil =>
      rw [get?_nil] at hfile
      cases hfile
    | append_singleton dir n =>
      exact ⟨dir, n, rfl, hwf.parent hfile, hwf.name hfile, .inr ⟨f, hfile⟩⟩
  · obtain ⟨hdir, hnone⟩ := find_shows hwf hcwd hfind
    exact ⟨dir, n, rfl, hdir, find_isName hwf.named hfind, .inl hnone⟩

theorem ownerWrites_default (content : Bytes) (now : Instant) :
    (⟨content, RegularFile.defaultMode, now⟩ : RegularFile).ownerWrites = true := by
  show (RegularFile.defaultMode &&& 0o200 != 0) = true
  decide

/-- Where a file may be written, it has a mode that allows it. -/
theorem target_writes {p : Path} {mode mode' : Nat} {content : Bytes} {now : Instant}
    (h : t.target cwd p mode = .ok (loc, mode'))
    (hmode : (⟨content, mode, now⟩ : RegularFile).ownerWrites = true) :
    (⟨content, mode', now⟩ : RegularFile).ownerWrites = true := by
  rcases target_ok_iff.mp h with ⟨f, -, hwrites, rfl⟩ | ⟨dir, n, -, -, rfl⟩
  · exact hwrites
  · exact hmode

theorem target_ne_nil {p : Path} {mode mode' : Nat} (hwf : t.WellFormed)
    (hcwd : t.get? cwd = some .directory) (h : t.target cwd p mode = .ok (loc, mode')) : loc ≠ [] := by
  obtain ⟨dir, n, rfl, -⟩ := target_cases hwf hcwd h
  simp

/-- A file may be put where writing to a path goes. -/
theorem WellFormed.put_target {p : Path} {mode mode' : Nat} (hwf : t.WellFormed)
    (hcwd : t.get? cwd = some .directory) (h : t.target cwd p mode = .ok (loc, mode'))
    (f : RegularFile) : (t.put loc (.file f)).WellFormed := by
  obtain ⟨dir, n, rfl, hdir, hn, hthere⟩ := target_cases hwf hcwd h
  refine hwf.put hdir hn ?_ (by simp)
  rcases hthere with hnone | ⟨g, hg⟩
  · simp [hnone]
  · simp [hg]

/-- Writing to a name joined to a path goes to that name, where the path leads. -/
theorem target_join {p : Path} {mode mode' : Nat} (hp : t.stat cwd p = .ok (base, .directory))
    (hbase : t.get? base = some .directory) (hfree : t.LinkFree base) (hn : IsName n)
    (h : t.target cwd (p.join n) mode = .ok (loc, mode')) : loc = base ++ [n] := by
  have hsingle : ∀ m ∈ [n], IsName m := List.forall_mem_singleton.mpr hn
  -- a lookup of one name below a directory without links ends at that name
  have hwhere : ∀ {spot : Spot}, t.find cwd true (p.join n) = .ok spot →
      (∃ e, spot = .taken (base ++ [n]) e) ∨ spot = .vacant base n false := by
    intro spot hfind
    rcases find_names hp (.refl t) hbase hfree (by simp) hsingle hfind with
      ⟨e, -, hspot⟩ | ⟨dir, m, hsplit, -, -, hspot⟩
    · exact .inl ⟨e, hspot⟩
    · have hcut : [] ++ [n] = dir ++ [m] := hsplit
      obtain ⟨rfl, hm⟩ := List.append_inj' hcut rfl
      rw [List.cons.injEq] at hm
      rw [← hm.1, List.append_nil] at hspot
      exact .inr hspot
  rcases target_ok_iff.mp h with ⟨f, hfind, -, -⟩ | ⟨dir, m, hfind, rfl, -⟩
  · rcases hwhere hfind with ⟨e, hspot⟩ | hspot
    · cases hspot
      rfl
    · cases hspot
  · rcases hwhere hfind with ⟨e, hspot⟩ | hspot
    · cases hspot
    · cases hspot
      rfl

theorem WellFormed.ne_nil_of_file {f : RegularFile} (h : t.get? loc = some (.file f)) :
    loc ≠ [] := by
  rintro rfl
  rw [get?_nil] at h
  cases h

/-- New content for a file that is there. -/
theorem fill_of_file {f : RegularFile} (now : Instant) (content : Bytes)
    (h : t.get? loc = some (.file f)) :
    t.fill now loc content = t.put loc (.file { f with content, modified := now }) := by
  unfold fill
  rw [h]

theorem WellFormed.fill (hwf : t.WellFormed) (now : Instant) (loc : Location) (content : Bytes) :
    (t.fill now loc content).WellFormed := by
  unfold Tree.fill
  split
  · rename_i f hfile
    cases loc using List.reverseRecOn with
    | nil => exact absurd rfl (WellFormed.ne_nil_of_file hfile)
    | append_singleton dir n =>
      exact hwf.put (hwf.parent hfile) (hwf.name hfile) (by simp [hfile]) (by simp)
  · exact hwf

/-! ## §6 Deleting -/

theorem lookup_filter_key {entries : List (Location × Entry)} {keep : Location → Bool}
    (loc : Location) : (entries.filter fun e => keep e.1).lookup loc =
      if keep loc then entries.lookup loc else none := by
  induction entries with
  | nil => simp
  | cons e rest ih =>
    obtain ⟨l, entry⟩ := e
    by_cases hl : loc = l
    · subst hl
      by_cases hkeep : keep loc = true
      · simp [hkeep]
      · simp [hkeep, ih]
    · have hne : (loc == l) = false := by simpa using hl
      by_cases hkeep : keep l = true
      · simp [hkeep, List.lookup_cons, hne, ih]
      · simp [hkeep, List.lookup_cons, hne, ih]

/-- Deleting a location takes away what lies at or below it. -/
theorem get?_delete (hloc : loc ≠ []) (other : Location) :
    (t.delete loc).get? other = if loc <+: other then none else t.get? other := by
  unfold get? delete
  by_cases hroot : other = []
  · subst hroot
    simp [hloc]
  · rw [if_neg hroot, if_neg hroot, @lookup_filter_key _ fun l => !loc.isPrefixOf l]
    by_cases hpre : loc <+: other
    · have : loc.isPrefixOf other = true := List.isPrefixOf_iff_prefix.mpr hpre
      simp [this, hpre]
    · have : loc.isPrefixOf other = false := by
        rw [← Bool.not_eq_true, List.isPrefixOf_iff_prefix]
        exact hpre
      simp [this, hpre]

theorem WellFormed.delete (hwf : t.WellFormed) (hloc : loc ≠ []) : (t.delete loc).WellFormed := by
  refine ⟨hwf.nodup.sublist (List.filter_sublist.map Prod.fst), ?_, ?_, ?_⟩
  · intro l m e h
    rw [get?_delete hloc] at h ⊢
    split at h
    · cases h
    · rename_i hout
      rw [if_neg fun hpre => hout (hpre.trans (List.prefix_append l [m]))]
      exact hwf.parent h
  · intro l m e h
    rw [get?_delete hloc] at h
    split at h
    · cases h
    · exact hwf.name h
  · intro l text h
    rw [get?_delete hloc] at h
    split at h
    · cases h
    · exact hwf.target h

end AssetServer.Tree
