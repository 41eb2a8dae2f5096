import Mathlib.Data.List.Induction
import AssetServer.Proofs.Spelling

/-!
# Where paths lead in a growing file system

A lookup goes through directories and links only, so it finds the same place in every file system
that has kept what it went through. This is stated once for lookups that end at a directory
(`Tree.walk_directory`), from which lookups can go on, and once for lookups that find an entry
(`Tree.stat_of_partOf`).

- `Tree.WellFormed` says what a file system promises: one entry for each location, names that a
  directory can hold, and a directory above each entry.
- `Tree.find_descend` reduces a lookup of names below a path to a walk from where the path leads.
- `Tree.stat_respelled` compares two spellings of one path.
-/

namespace AssetServer.Tree

/-! ## §1 File systems -/

/-- What every file system has: a location holds one entry, below a directory, under a name. -/
structure WellFormed (t : Tree) : Prop where
  nodup : (t.entries.map Prod.fst).Nodup
  parent : ∀ {loc n e}, t.get? (loc ++ [n]) = some e → t.get? loc = some .directory
  name : ∀ {loc n e}, t.get? (loc ++ [n]) = some e → IsName n
  target : ∀ {loc text}, t.get? loc = some (.link text) → '\x00' ∉ text.toList

/-- What a file system can be given to hold at all: its entries have names that a directory can
    hold, and its links stand for paths. -/
structure Named (t : Tree) : Prop where
  name : ∀ {loc n e}, t.get? (loc ++ [n]) = some e → IsName n
  target : ∀ {loc text}, t.get? loc = some (.link text) → '\x00' ∉ text.toList

theorem WellFormed.named {t : Tree} (hwf : t.WellFormed) : t.Named :=
  ⟨hwf.name, hwf.target⟩

instance (n : String) : Decidable (IsName n) :=
  decidable_of_iff (n ≠ "" ∧ n ≠ "." ∧ n ≠ ".." ∧ '/' ∉ n.toList ∧ '\x00' ∉ n.toList ∧
    n.utf8ByteSize ≤ maxNameBytes)
    ⟨fun ⟨h₁, h₂, h₃, h₄, h₅, h₆⟩ => ⟨h₁, h₂, h₃, h₄, h₅, h₆⟩,
      fun ⟨h₁, h₂, h₃, h₄, h₅, h₆⟩ => ⟨h₁, h₂, h₃, h₄, h₅, h₆⟩⟩

theorem mem_of_get? {t : Tree} {loc : Location} {e : Entry} (hne : loc ≠ [])
    (h : t.get? loc = some e) : (loc, e) ∈ t.entries := by
  unfold get? at h
  rw [if_neg hne] at h
  obtain ⟨before, after, hentries, -⟩ := List.lookup_eq_some_iff.mp h
  rw [hentries]
  simp

/-- Whether an entry has a good name in a directory and, if it is a link, stands for a path. -/
def isGoodEntry (t : Tree) (e : Location × Entry) : Bool :=
  t.get? e.1.dropLast == some .directory && e.1.getLast?.any (fun n => decide (IsName n)) &&
    match e.2 with
    | .link text => !text.toList.contains '\x00'
    | _ => true

/-- A list of entries is a file system if each of them lies in a directory. -/
theorem wellFormed_of_good {t : Tree} (hnodup : (t.entries.map Prod.fst).Nodup)
    (hentries : t.entries.all t.isGoodEntry = true) : t.WellFormed := by
  have hgood : ∀ {loc e}, loc ≠ [] → t.get? loc = some e → t.isGoodEntry (loc, e) = true :=
    fun hne he => List.all_eq_true.mp hentries _ (mem_of_get? hne he)
  -- each field is one of the conditions that an entry is checked for
  refine ⟨hnodup, fun {loc n e} he => ?_, fun {loc n e} he => ?_, fun {loc text} he => ?_⟩
  · have := hgood (by simp) he
    simp only [isGoodEntry, Bool.and_eq_true, List.dropLast_concat] at this
    simpa using this.1.1
  · have := hgood (by simp) he
    simp only [isGoodEntry, Bool.and_eq_true, List.getLast?_concat] at this
    simpa using this.1.2
  · have hne : loc ≠ [] := by
      rintro rfl
      simp [get?] at he
    have := hgood hne he
    simp only [isGoodEntry, Bool.and_eq_true] at this
    simpa using this.2

/-- Whether an entry has a good name in a directory, and is no link. -/
def isPlainEntry (t : Tree) (e : Location × Entry) : Bool :=
  t.get? e.1.dropLast == some .directory && e.1.getLast?.any (fun n => decide (IsName n)) &&
    match e.2 with
    | .link _ => false
    | _ => true

theorem isGoodEntry_of_plain {t : Tree} {e : Location × Entry} (h : t.isPlainEntry e = true) :
    t.isGoodEntry e = true := by
  obtain ⟨loc, entry⟩ := e
  cases entry with
  | link text => simp [isPlainEntry] at h
  | directory => exact h
  | file f => exact h

/-- A list of entries without links is a file system if each of them lies in a directory. -/
theorem wellFormed_of_entries {t : Tree} (hnodup : (t.entries.map Prod.fst).Nodup)
    (hentries : t.entries.all t.isPlainEntry = true) : t.WellFormed :=
  wellFormed_of_good hnodup (List.all_eq_true.mpr fun e he =>
    isGoodEntry_of_plain (List.all_eq_true.mp hentries e he))

/-- Every entry of `t` is an entry of `t'`. -/
def PartOf (t t' : Tree) : Prop :=
  ∀ loc e, t.get? loc = some e → t'.get? loc = some e

theorem PartOf.refl (t : Tree) : t.PartOf t := fun _ _ h => h

theorem PartOf.trans {t t' t'' : Tree} (h : t.PartOf t') (h' : t'.PartOf t'') : t.PartOf t'' :=
  fun loc e he => h' loc e (h loc e he)

theorem get?_nil (t : Tree) : t.get? [] = some .directory := by
  simp [get?]

theorem WellFormed.parents {t : Tree} (hwf : t.WellFormed) {loc rest : Location} {e : Entry}
    (h : t.get? (loc ++ rest) = some e) (hne : rest ≠ []) : t.get? loc = some .directory := by
  induction rest using List.reverseRecOn generalizing e with
  | nil => exact absurd rfl hne
  | append_singleton init n ih =>
    rw [← List.append_assoc] at h
    have hup := hwf.parent h
    by_cases hinit : init = []
    · simpa [hinit] using hup
    · exact ih hup hinit

/-- Nothing lies below a location that holds nothing. -/
theorem WellFormed.absent_below {t : Tree} (hwf : t.WellFormed) {loc : Location}
    (h : t.get? loc = none) (rest : Location) : t.get? (loc ++ rest) = none := by
  by_cases hrest : rest = []
  · simpa [hrest] using h
  · cases he : t.get? (loc ++ rest) with
    | none => rfl
    | some e => rw [hwf.parents he hrest] at h; cases h

theorem WellFormed.names {t : Tree} (hwf : t.WellFormed) {loc rest : Location} {e : Entry}
    (h : t.get? (loc ++ rest) = some e) : ∀ n ∈ rest, IsName n := by
  induction rest using List.reverseRecOn generalizing e with
  | nil => simp
  | append_singleton init n ih =>
    rw [← List.append_assoc] at h
    intro m hm
    rcases List.mem_append.mp hm with hm | hm
    · exact ih (hwf.parent h) m hm
    · rw [List.mem_singleton.mp hm]
      exact hwf.name h

/-! ## §2 Walks -/

variable {t t' : Tree} {follow : Bool} {links : Nat} {here loc : Location}

theorem walk_nil : t.walk follow links here [] = .ok (.taken here .directory) := by
  rw [walk]

theorem walk_skip {part : String} (h : part = "" ∨ part = ".") (rest : List String) :
    t.walk follow links here (part :: rest) = t.walk follow links here rest := by
  rw [walk, if_pos h]

theorem walk_skips {junk : List String} (h : ∀ part ∈ junk, part = "" ∨ part = ".")
    (rest : List String) : t.walk follow links here (junk ++ rest) =
      t.walk follow links here rest := by
  induction junk with
  | nil => rfl
  | cons part more ih =>
    rw [List.cons_append, walk_skip (h part (by simp))]
    exact ih fun q hq => h q (List.mem_cons_of_mem _ hq)

theorem walk_up (rest : List String) :
    t.walk follow links here (".." :: rest) = t.walk follow links here.dropLast rest := by
  rw [walk, if_neg (by simp), if_pos rfl]

/-- A name that is no step back, whatever its length. -/
structure IsPart (n : String) : Prop where
  step : ¬ (n = "" ∨ n = ".")
  down : n ≠ ".."
  no_slash : '/' ∉ n.toList

theorem IsPart.of_name {n : String} (hn : IsName n) : IsPart n :=
  ⟨not_or.mpr ⟨hn.ne_empty, hn.ne_here⟩, hn.ne_up, hn.no_slash⟩

theorem IsPart.stem_no_slash {s ending : String} (hn : IsPart (s ++ ending)) : '/' ∉ s.toList := by
  have hslash := hn.no_slash
  rw [String.toList_append, List.mem_append, not_or] at hslash
  exact hslash.1

theorem IsPart.isName {n : String} (hn : IsPart n) (hnul : '\x00' ∉ n.toList)
    (hshort : n.utf8ByteSize ≤ maxNameBytes) : IsName n :=
  ⟨fun hempty => hn.step (.inl hempty), fun hhere => hn.step (.inr hhere), hn.down, hn.no_slash,
    hnul, hshort⟩

/-- A text is a name if it has no slash and ends neither in nothing nor in a dot. -/
theorem isPart_of_ending {s ending : String} (hs : '/' ∉ s.toList)
    (hending : '/' ∉ ending.toList ∧ ending.toList.getLast? ≠ some '.' ∧ ending.toList ≠ []) :
    IsPart (s ++ ending) := by
  have hlast : (s ++ ending).toList.getLast? = ending.toList.getLast? := by
    rw [String.toList_append, List.getLast?_append_of_ne_nil _ hending.2.2]
  refine ⟨?_, ?_, ?_⟩
  · rintro (hempty | hhere)
    · rw [hempty] at hlast
      exact hending.2.2 (List.getLast?_eq_none_iff.mp hlast.symm)
    · rw [hhere] at hlast
      exact hending.2.1 hlast.symm
  · intro hup
    rw [hup] at hlast
    exact hending.2.1 hlast.symm
  · rw [String.toList_append, List.mem_append, not_or]
    exact ⟨hs, hending.1⟩

/-- A part that is looked up in a directory. -/
structure Plain (part : String) : Prop where
  step : ¬ (part = "" ∨ part = ".")
  down : part ≠ ".."
  short : ¬ maxNameBytes < part.utf8ByteSize

theorem Plain.of_name {n : String} (hn : IsName n) : Plain n :=
  ⟨not_or.mpr ⟨hn.ne_empty, hn.ne_here⟩, hn.ne_up, Nat.not_lt.mpr hn.short⟩

theorem walk_long {part : String} (hstep : ¬ (part = "" ∨ part = ".")) (hdown : part ≠ "..")
    (h : maxNameBytes < part.utf8ByteSize) (rest : List String) :
    t.walk follow links here (part :: rest) = .error .nameTooLong := by
  rw [walk, if_neg hstep, if_neg hdown, if_pos h]

theorem walk_missing {part : String} (hp : Plain part) (h : t.get? (here ++ [part]) = none)
    (rest : List String) : t.walk follow links here (part :: rest) =
      if rest.all (· == "") then .ok (.vacant here part (!rest.isEmpty)) else .error .notFound := by
  rw [walk, if_neg hp.step, if_neg hp.down, if_neg hp.short]
  grind

theorem walk_into {part : String} (hp : Plain part)
    (h : t.get? (here ++ [part]) = some .directory) (rest : List String) :
    t.walk follow links here (part :: rest) = t.walk follow links (here ++ [part]) rest := by
  rw [walk, if_neg hp.step, if_neg hp.down, if_neg hp.short]
  grind

theorem walk_file {part : String} (hp : Plain part) {f : RegularFile}
    (h : t.get? (here ++ [part]) = some (.file f)) (rest : List String) :
    t.walk follow links here (part :: rest) =
      if rest.isEmpty then .ok (.taken (here ++ [part]) (.file f)) else .error .notDirectory := by
  rw [walk, if_neg hp.step, if_neg hp.down, if_neg hp.short]
  grind

theorem walk_stop {part target : String} (hp : Plain part)
    (h : t.get? (here ++ [part]) = some (.link target)) {rest : List String}
    (hstay : (rest.isEmpty && !follow) = true) :
    t.walk follow links here (part :: rest) = .ok (.taken (here ++ [part]) (.link target)) := by
  rw [walk, if_neg hp.step, if_neg hp.down, if_neg hp.short]
  grind

theorem walk_limit {part target : String} (hp : Plain part)
    (h : t.get? (here ++ [part]) = some (.link target)) {rest : List String}
    (hgo : (rest.isEmpty && !follow) = false) :
    t.walk follow 0 here (part :: rest) = .error .tooManyLinks := by
  rw [walk, if_neg hp.step, if_neg hp.down, if_neg hp.short]
  grind

theorem walk_link {part target : String} (hp : Plain part)
    (h : t.get? (here ++ [part]) = some (.link target)) {rest : List String}
    (hgo : (rest.isEmpty && !follow) = false) :
    t.walk follow (links + 1) here (part :: rest) =
      t.walk follow links (if target.toList.head? = some '/' then [] else here)
        (Text.parts '/' target ++ rest) := by
  conv_lhs => rw [walk]
  rw [if_neg hp.step, if_neg hp.down, if_neg hp.short]
  grind

/-- A lookup that leads to a directory can go on from there, with the links that are left, in every
    file system that has kept what the lookup went through. -/
theorem walk_directory {ps : List String}
    (h : t.walk true links here ps = .ok (.taken loc .directory)) :
    ∃ left, ∀ t', t.PartOf t' → ∀ follow q qs,
      t'.walk follow links here (ps ++ q :: qs) = t'.walk follow left loc (q :: qs) := by
  -- a lookup that goes on takes the same steps up to the end of the first one
  fun_induction t.walk true links here ps with
  | case1 links here =>
    cases h
    exact ⟨links, fun _ _ _ _ _ => rfl⟩
  | case2 links here part rest hskip ih =>
    obtain ⟨left, hleft⟩ := ih h
    refine ⟨left, fun t' ht follow q qs => ?_⟩
    rw [List.cons_append, walk_skip hskip, hleft t' ht]
  | case3 links here rest hstep ih =>
    obtain ⟨left, hleft⟩ := ih h
    refine ⟨left, fun t' ht follow q qs => ?_⟩
    rw [List.cons_append, walk_up, hleft t' ht]
  | case7 links here part rest hstep hdown hshort next hnext ih =>
    obtain ⟨left, hleft⟩ := ih h
    refine ⟨left, fun t' ht follow q qs => ?_⟩
    rw [List.cons_append, walk_into ⟨hstep, hdown, hshort⟩ (ht _ _ hnext), hleft t' ht]
  -- what a link stands for comes in front of the parts that are left
  | case12 here part rest hstep hdown hshort next target hnext hgo links start ih =>
    obtain ⟨left, hleft⟩ := ih h
    refine ⟨left, fun t' ht follow q qs => ?_⟩
    rw [List.cons_append, walk_link ⟨hstep, hdown, hshort⟩ (ht _ _ hnext) (by simp),
      ← List.append_assoc]
    exact hleft t' ht follow q qs
  | _ => simp_all

/-- A lookup that finds an entry finds it in every file system that has kept its entries. -/
theorem walk_taken {ps : List String} {e : Entry}
    (h : t.walk follow links here ps = .ok (.taken loc e)) (ht : t.PartOf t') :
    t'.walk follow links here ps = .ok (.taken loc e) := by
  fun_induction t.walk follow links here ps with
  | case1 links here => rw [walk_nil, h]
  | case2 links here part rest hskip ih => rw [walk_skip hskip, ih h]
  | case3 links here rest hstep ih => rw [walk_up, ih h]
  | case7 links here part rest hstep hdown hshort next hnext ih =>
    rw [walk_into ⟨hstep, hdown, hshort⟩ (ht _ _ hnext), ih h]
  | case8 links here part rest hstep hdown hshort next f hnext hlast =>
    rw [walk_file ⟨hstep, hdown, hshort⟩ (ht _ _ hnext), if_pos hlast, h]
  | case10 links here part rest hstep hdown hshort next target hnext hstay =>
    rw [walk_stop ⟨hstep, hdown, hshort⟩ (ht _ _ hnext) hstay, h]
  | case12 here part rest hstep hdown hshort next target hnext hgo links start ih =>
    rw [walk_link ⟨hstep, hdown, hshort⟩ (ht _ _ hnext) (by simpa using hgo)]
    exact ih h
  | _ => simp_all

/-- A lookup that gets past some parts went through a directory there. -/
theorem exists_directory_of_ok {ps qs : List String} (hqs : qs ≠ []) {spot : Spot}
    (h : t.walk follow links here (ps ++ qs) = .ok spot)
    (hspot : (∃ q ∈ qs, q ≠ "") ∨ ∃ loc e, spot = .taken loc e) :
    ∃ loc, t.walk true links here ps = .ok (.taken loc .directory) := by
  have hnonempty : ∀ rest : List String, (rest ++ qs).isEmpty = false := by
    intro rest
    simp [hqs]
  fun_induction t.walk true links here ps with
  | case1 links here => exact ⟨here, rfl⟩
  | case2 links here part rest hskip ih =>
    rw [List.cons_append, walk_skip hskip] at h
    exact ih h
  | case3 links here rest hstep ih =>
    rw [List.cons_append, walk_up] at h
    exact ih h
  | case4 links here part rest hstep hdown hlong =>
    rw [List.cons_append, walk_long hstep hdown hlong] at h
    cases h
  | case7 links here part rest hstep hdown hshort next hnext ih =>
    rw [List.cons_append, walk_into ⟨hstep, hdown, hshort⟩ hnext] at h
    exact ih h
  | case8 links here part rest hstep hdown hshort next f hnext hlast =>
    rw [List.cons_append, walk_file ⟨hstep, hdown, hshort⟩ hnext, hnonempty] at h
    cases h
  | case9 links here part rest hstep hdown hshort next f hnext hlast =>
    rw [List.cons_append, walk_file ⟨hstep, hdown, hshort⟩ hnext, hnonempty] at h
    cases h
  | case10 links here part rest hstep hdown hshort next target hnext hstay => simp at hstay
  | case11 here part rest hstep hdown hshort next target hnext hgo =>
    rw [List.cons_append, walk_limit ⟨hstep, hdown, hshort⟩ hnext (by simp [hnonempty])] at h
    cases h
  | case12 here part rest hstep hdown hshort next target hnext hgo links start ih =>
    rw [List.cons_append, walk_link ⟨hstep, hdown, hshort⟩ hnext (by simp [hnonempty]),
      ← List.append_assoc] at h
    exact ih h
  -- a missing name is no error only if nothing but slashes follows
  | case5 links here part rest hstep hdown hshort next hnext hempty =>
    rw [List.cons_append, walk_missing ⟨hstep, hdown, hshort⟩ hnext] at h
    split at h
    · rename_i hall
      rcases hspot with ⟨q, hq, hne⟩ | ⟨loc, e, rfl⟩
      · have := List.all_eq_true.mp hall q (List.mem_append_right _ hq)
        exact absurd (by simpa using this) hne
      · cases h
    · cases h
  | case6 links here part rest hstep hdown hshort next hnext hfull =>
    rw [List.cons_append, walk_missing ⟨hstep, hdown, hshort⟩ hnext, if_neg] at h
    · cases h
    · intro hall
      rw [List.all_append, Bool.and_eq_true] at hall
      exact hfull hall.1

/-- Directories on the way to a location are gone through without any link. -/
theorem walk_directories (hwf : t.WellFormed) {base dir : Location}
    (h : t.get? (base ++ dir) = some .directory) (rest : List String) :
    t.walk follow links base (dir ++ rest) = t.walk follow links (base ++ dir) rest := by
  induction dir generalizing base with
  | nil => simp
  | cons n more ih =>
    have hsplit : base ++ n :: more = (base ++ [n]) ++ more := by simp
    have hname : IsName n := hwf.names h n (by simp)
    have hnext : t.get? (base ++ [n]) = some .directory := by
      by_cases hmore : more = []
      · simpa [hmore] using h
      · exact hwf.parents (hsplit ▸ h) hmore
    rw [List.cons_append, walk_into (.of_name hname) hnext, ih (hsplit ▸ h), hsplit]

/-- No link lies at a location or below it. -/
def LinkFree (t : Tree) (base : Location) : Prop :=
  ∀ rest target, t.get? (base ++ rest) ≠ some (.link target)

theorem LinkFree.append {base : Location} (hfree : t.LinkFree base) (names : List String) :
    t.LinkFree (base ++ names) := by
  intro rest target
  rw [List.append_assoc]
  exact hfree _ target

/-- Whether an entry is no link at a location or below it. -/
def isLinkless (base : Location) (e : Location × Entry) : Bool :=
  match e.2 with
  | .link _ => !base.isPrefixOf e.1
  | _ => true

theorem linkFree_of_linkless {base : Location} (hentries : t.entries.all (isLinkless base) = true) :
    t.LinkFree base := by
  intro rest target h
  have hne : base ++ rest ≠ [] := by
    intro hnil
    rw [hnil, get?_nil] at h
    cases h
  have hapart := List.all_eq_true.mp hentries _ (mem_of_get? hne h)
  simp only [isLinkless, Bool.not_eq_true', ← Bool.not_eq_true,
    List.isPrefixOf_iff_prefix] at hapart
  exact hapart (List.prefix_append _ _)

theorem linkFree_of_entries (hentries : t.entries.all t.isPlainEntry = true) (base : Location) :
    t.LinkFree base := by
  refine linkFree_of_linkless (List.all_eq_true.mpr fun e he => ?_)
  have hplain := List.all_eq_true.mp hentries e he
  obtain ⟨loc, entry⟩ := e
  cases entry with
  | link text => simp [isPlainEntry] at hplain
  | directory => rfl
  | file f => rfl

/-- Without links below a directory, a lookup of names from there can end in two ways: at the entry
    that the names say, or at a missing one in a directory that is there. -/
theorem walk_names {base : Location} (hbase : t.get? base = some .directory)
    (hfree : t.LinkFree base) {names : List String} (hnames : ∀ n ∈ names, IsName n) {spot : Spot}
    (h : t.walk follow links base names = .ok spot) :
    (∃ e, t.get? (base ++ names) = some e ∧ spot = .taken (base ++ names) e) ∨
      ∃ dir n, names = dir ++ [n] ∧ t.get? (base ++ dir) = some .directory ∧
        t.get? (base ++ names) = none ∧ spot = .vacant (base ++ dir) n false := by
  induction names generalizing base with
  | nil =>
    rw [walk_nil] at h
    cases h
    exact .inl ⟨.directory, by simpa using hbase, by simp⟩
  | cons n rest ih =>
    have hplain := Plain.of_name (hnames n (by simp))
    have hrest : ∀ m ∈ rest, IsName m := fun m hm => hnames m (List.mem_cons_of_mem _ hm)
    have hassoc : base ++ n :: rest = (base ++ [n]) ++ rest := by simp
    -- the next name is missing, is entered, or has to be the last one
    cases hnext : t.get? (base ++ [n]) with
    | none =>
      rw [walk_missing hplain hnext] at h
      cases rest with
      | nil =>
        cases h
        exact .inr ⟨[], n, rfl, by simpa using hbase, hnext, by simp⟩
      | cons m more =>
        have hm : (m == "") = false := by simpa using (hrest m (by simp)).ne_empty
        simp [hm] at h
    | some e =>
      cases e with
      | directory =>
        rw [walk_into hplain hnext] at h
        rcases ih hnext (hfree.append [n]) hrest h with ⟨e, he, hspot⟩ | ⟨dir, m, hdir, hthere, hnone, hspot⟩
        · exact .inl ⟨e, by rw [hassoc]; exact he, by rw [hassoc]; exact hspot⟩
        · refine .inr ⟨n :: dir, m, by simp [hdir], ?_, by rw [hassoc]; exact hnone, ?_⟩
          · simpa using hthere
          · simpa using hspot
      | file f =>
        rw [walk_file hplain hnext] at h
        cases rest with
        | nil =>
          cases h
          exact .inl ⟨.file f, hnext, rfl⟩
        | cons m more => cases h
      | link target => exact absurd hnext (hfree [n] target)

/-- Cutting two lists of parts down to steps: what stands before the first step of one. -/
theorem exists_junk_of_filter {part : String} {rest ps : List String}
    (hstep : ¬ (part = "" ∨ part = "."))
    (h : ps.filter (fun part => part != "" && part != ".") =
      (part :: rest).filter fun part => part != "" && part != ".") :
    ∃ junk more, ps = junk ++ part :: more ∧ (∀ q ∈ junk, q = "" ∨ q = ".") ∧
      more.filter (fun part => part != "" && part != ".") =
        rest.filter fun part => part != "" && part != "." := by
  have hkeep : (part != "" && part != ".") = true := by
    rw [not_or] at hstep
    simp [hstep.1, hstep.2]
  simp only [List.filter_cons, hkeep, if_true] at h
  obtain ⟨junk, more, rfl, hjunk, -, hmore⟩ := List.filter_eq_cons_iff.mp h
  refine ⟨junk, more, rfl, fun q hq => ?_, hmore⟩
  by_contra hnot
  rw [not_or] at hnot
  exact hjunk q hq (by simp [hnot.1, hnot.2])

/-- Parts that lead nowhere may be left out of a lookup that ends at a directory. -/
theorem walk_respelled {ps ps' : List String}
    (hsame : ps'.filter (fun part => part != "" && part != ".") =
      ps.filter fun part => part != "" && part != ".")
    (h : t.walk true links here ps = .ok (.taken loc .directory)) :
    t.walk true links here ps' = .ok (.taken loc .directory) := by
  fun_induction t.walk true links here ps generalizing ps' with
  | case1 links here =>
    have hall : ∀ q ∈ ps', q = "" ∨ q = "." := by
      intro q hq
      have := List.filter_eq_nil_iff.mp hsame q hq
      by_contra hnot
      rw [not_or] at hnot
      exact this (by simp [hnot.1, hnot.2])
    rw [← List.append_nil ps', walk_skips hall, walk_nil, h]
  | case2 links here part rest hskip ih =>
    refine ih ?_ h
    rw [hsame, List.filter_cons_of_neg]
    rcases hskip with rfl | rfl <;> simp
  -- the other spelling may have more such parts before this step
  | case3 links here rest hstep ih =>
    obtain ⟨junk, more, rfl, hjunk, hmore⟩ := exists_junk_of_filter hstep hsame
    rw [walk_skips hjunk, walk_up]
    exact ih hmore h
  | case7 links here part rest hstep hdown hshort next hnext =>
    rename_i ih
    obtain ⟨junk, more, rfl, hjunk, hmore⟩ := exists_junk_of_filter hstep hsame
    rw [walk_skips hjunk, walk_into ⟨hstep, hdown, hshort⟩ hnext]
    exact ih hmore h
  | case12 here part rest hstep hdown hshort next target hnext hgo links start =>
    rename_i ih
    obtain ⟨junk, more, rfl, hjunk, hmore⟩ := exists_junk_of_filter hstep hsame
    rw [walk_skips hjunk, walk_link ⟨hstep, hdown, hshort⟩ hnext (by simp)]
    refine ih ?_ h
    rw [List.filter_append, List.filter_append, hmore]
  | _ => simp_all

/-- What a lookup says is so: the entry is there, or the name is missing in a directory. -/
def Shows (t : Tree) : Spot → Prop
  | .taken loc e => t.get? loc = some e
  | .vacant dir n _ => t.get? dir = some .directory ∧ t.get? (dir ++ [n]) = none

/-- A lookup from a directory that is there tells what is so. -/
theorem walk_shows (hwf : t.WellFormed) (hhere : t.get? here = some .directory)
    {ps : List String} {spot : Spot} (h : t.walk follow links here ps = .ok spot) :
    t.Shows spot := by
  fun_induction t.walk follow links here ps with
  | case1 links here => cases h; exact hhere
  | case2 links here part rest hskip ih => exact ih hhere h
  | case3 links here rest hstep ih =>
    refine ih ?_ h
    cases here using List.reverseRecOn with
    | nil => exact hhere
    | append_singleton init n =>
      rw [List.dropLast_concat]
      exact hwf.parent hhere
  -- the lookup ends: at a missing name, a file or a link, each as it was found
  | case5 links here part rest hstep hdown hshort next hnext hempty => cases h; exact ⟨hhere, hnext⟩
  | case7 links here part rest hstep hdown hshort next hnext ih => exact ih hnext h
  | case8 links here part rest hstep hdown hshort next f hnext hlast => cases h; exact hnext
  | case10 links here part rest hstep hdown hshort next target hnext hstay =>
    cases h; exact hnext
  | case12 here part rest hstep hdown hshort next target hnext hgo links start ih =>
    refine ih ?_ h
    -- a link starts again from the root or from the directory that it is in
    show t.get? (if target.toList.head? = some '/' then [] else here) = _
    split
    · exact get?_nil t
    · exact hhere
  | _ => cases h

/-- Parts that may stand in the text of a path. -/
def Clean (ps : List String) : Prop :=
  ∀ part ∈ ps, '/' ∉ part.toList ∧ '\x00' ∉ part.toList

theorem clean_parts {text : String} (h : '\x00' ∉ text.toList) : Clean (Text.parts '/' text) := by
  intro part hpart
  obtain ⟨cs, hcs, rfl⟩ := List.mem_map.mp hpart
  rw [String.toList_ofList]
  exact ⟨Text.not_mem_of_mem_split hcs, fun hnul => h (Text.mem_of_mem_split hcs hnul)⟩

/-- The missing name that a lookup ends at is one that a directory can hold. -/
theorem walk_isName (hnamed : t.Named) {ps : List String} (hps : Clean ps) {n : String}
    {slash : Bool} (h : t.walk follow links here ps = .ok (.vacant loc n slash)) : IsName n := by
  have htail : ∀ {part : String} {rest : List String}, Clean (part :: rest) → Clean rest :=
    fun hclean q hq => hclean q (List.mem_cons_of_mem _ hq)
  fun_induction t.walk follow links here ps with
  | case2 links here part rest hskip ih => exact ih (htail hps) h
  | case3 links here rest hstep ih => exact ih (htail hps) h
  | case5 links here part rest hstep hdown hshort next hnext hempty =>
    cases h
    -- the last part was neither skipped nor a step up, and has passed the check of its length
    rw [not_or] at hstep
    obtain ⟨hslash, hnul⟩ := hps n (by simp)
    exact ⟨hstep.1, hstep.2, hdown, hslash, hnul, Nat.not_lt.mp hshort⟩
  | case7 links here part rest hstep hdown hshort next hnext ih => exact ih (htail hps) h
  | case12 here part rest hstep hdown hshort next target hnext hgo links start ih =>
    refine ih (fun q hq => ?_) h
    -- the parts of a target are parts of a good text
    rcases List.mem_append.mp hq with hq | hq
    · exact clean_parts (hnamed.target hnext) q hq
    · exact htail hps q hq
  | _ => simp_all

/-- A lookup that ends at a missing name leads to what is put there. -/
theorem walk_filled {ps : List String} {n : String} {slash : Bool} {e : Entry}
    (h : t.walk follow links here ps = .ok (.vacant loc n slash)) (ht : t.PartOf t')
    (he : t'.get? (loc ++ [n]) = some e)
    (hfit : e = .directory ∨ slash = false ∧ ∃ f, e = .file f) :
    t'.walk true links here ps = .ok (.taken (loc ++ [n]) e) := by
  fun_induction t.walk follow links here ps with
  | case2 links here part rest hskip ih => rw [walk_skip hskip, ih h]
  | case3 links here rest hstep ih => rw [walk_up, ih h]
  -- the lookup ended here, and now goes to the new entry
  | case5 links here part rest hstep hdown hshort next hnext hempty =>
    cases h
    rcases hfit with rfl | ⟨hslash, f, rfl⟩
    · have hjunk : ∀ q ∈ rest, q = "" ∨ q = "." := by
        intro q hq
        left
        simpa using List.all_eq_true.mp hempty q hq
      rw [walk_into ⟨hstep, hdown, hshort⟩ he, ← List.append_nil rest, walk_skips hjunk, walk_nil]
    · rw [walk_file ⟨hstep, hdown, hshort⟩ he, if_pos (by simpa using hslash)]
  | case7 links here part rest hstep hdown hshort next hnext ih =>
    rw [walk_into ⟨hstep, hdown, hshort⟩ (ht _ _ hnext), ih h]
  | case12 here part rest hstep hdown hshort next target hnext hgo links start ih =>
    rw [walk_link ⟨hstep, hdown, hshort⟩ (ht _ _ hnext) (by simp)]
    exact ih h
  | _ => simp_all

/-- A lookup gets past parts that are short enough for names only. -/
theorem walk_short {ps : List String} {spot : Spot} (h : t.walk follow links here ps = .ok spot) :
    ∀ q ∈ ps, IsPart q → q.utf8ByteSize ≤ maxNameBytes := by
  fun_induction t.walk follow links here ps with
  | case1 links here => simp
  | case2 links here part rest hskip ih =>
    intro q hq hpart
    rcases List.mem_cons.mp hq with rfl | hq
    -- skipped parts are no names
    · exact absurd hskip hpart.step
    · exact ih h q hq hpart
  | case3 links here rest hstep ih =>
    intro q hq hpart
    rcases List.mem_cons.mp hq with rfl | hq
    · exact absurd rfl hpart.down
    · exact ih h q hq hpart
  | case5 links here part rest hstep hdown hshort next hnext hall =>
    intro q hq hpart
    rcases List.mem_cons.mp hq with rfl | hq
    · exact Nat.not_lt.mp hshort
    -- behind a missing name there are only slashes
    · have hempty : q = "" := by simpa using List.all_eq_true.mp hall q hq
      exact absurd (.inl hempty) hpart.step
  | case7 links here part rest hstep hdown hshort next hnext ih =>
    intro q hq hpart
    rcases List.mem_cons.mp hq with rfl | hq
    · exact Nat.not_lt.mp hshort
    · exact ih h q hq hpart
  | case8 links here part rest hstep hdown hshort next f hnext hlast =>
    intro q hq _
    rw [List.isEmpty_iff.mp hlast, List.mem_singleton] at hq
    exact hq ▸ Nat.not_lt.mp hshort
  | case10 links here part rest hstep hdown hshort next target hnext hstay =>
    intro q hq _
    rw [Bool.and_eq_true] at hstay
    rw [List.isEmpty_iff.mp hstay.1, List.mem_singleton] at hq
    exact hq ▸ Nat.not_lt.mp hshort
  | case12 here part rest hstep hdown hshort next target hnext hgo links start ih =>
    intro q hq hpart
    rcases List.mem_cons.mp hq with rfl | hq
    · exact Nat.not_lt.mp hshort
    · exact ih h q (List.mem_append_right _ hq) hpart
  | _ => cases h

/-- A lookup that does not go through the last link ends at an entry as well. -/
theorem walk_nofollow {ps : List String} {e : Entry}
    (h : t.walk true links here ps = .ok (.taken loc e)) :
    ∃ loc' e', t.walk false links here ps = .ok (.taken loc' e') := by
  fun_induction t.walk true links here ps with
  | case1 links here => exact ⟨_, _, walk_nil⟩
  | case2 links here part rest hskip ih => rw [walk_skip hskip]; exact ih h
  | case3 links here rest hstep ih => rw [walk_up]; exact ih h
  | case7 links here part rest hstep hdown hshort next hnext ih =>
    rw [walk_into ⟨hstep, hdown, hshort⟩ hnext]
    exact ih h
  | case8 links here part rest hstep hdown hshort next f hnext hlast =>
    rw [walk_file ⟨hstep, hdown, hshort⟩ hnext, if_pos hlast]
    exact ⟨_, _, rfl⟩
  | case12 here part rest hstep hdown hshort next target hnext hgo links start ih =>
    -- without following, a link that stands last is where the lookup ends
    by_cases hlast : rest.isEmpty = true
    · exact ⟨_, _, walk_stop ⟨hstep, hdown, hshort⟩ hnext (by simp [hlast])⟩
    · rw [walk_link ⟨hstep, hdown, hshort⟩ hnext (by simpa using hlast)]
      exact ih h
  | _ => simp_all

/-! ## §3 Paths -/

variable {cwd : Location} {p q : Path}

/-- The path is short enough for a lookup. -/
def Fits (p : Path) : Prop :=
  p.text.utf8ByteSize ≤ maxPathBytes

/-- Where the lookup of a path starts. -/
def startOf (cwd : Location) (p : Path) : Location :=
  if p.isAbsolute then [] else cwd

theorem find_eq_walk (hnul : '\x00' ∉ p.text.toList) (hne : p.text ≠ "") (hfits : Fits p) :
    t.find cwd follow p = t.walk follow maxLinks (startOf cwd p) p.steps := by
  unfold find
  rw [if_neg (by simpa using hnul), if_neg hne, if_neg (Nat.not_lt.mpr hfits)]
  rfl

theorem find_ok {spot : Spot} (h : t.find cwd follow p = .ok spot) :
    '\x00' ∉ p.text.toList ∧ p.text ≠ "" ∧ Fits p ∧
      t.walk follow maxLinks (startOf cwd p) p.steps = .ok spot := by
  unfold find at h
  split at h
  · cases h
  · rename_i hnul
    split at h
    · cases h
    · rename_i hne
      split at h
      · cases h
      · rename_i hfits
        exact ⟨by simpa using hnul, hne, Nat.not_lt.mp hfits, h⟩

theorem stat_ok_iff {e : Entry} :
    t.stat cwd p = .ok (loc, e) ↔ t.find cwd true p = .ok (.taken loc e) := by
  unfold stat
  cases hfind : t.find cwd true p with
  | error e' => simp
  | ok spot => cases spot <;> simp

theorem ne_empty_of_stat {e : Entry} (h : t.stat cwd p = .ok (loc, e)) : p.text ≠ "" :=
  (find_ok (stat_ok_iff.mp h)).2.1

theorem fits_of_stat {e : Entry} (h : t.stat cwd p = .ok (loc, e)) : Fits p :=
  (find_ok (stat_ok_iff.mp h)).2.2.1

/-- The canonical form of a path is the place that it leads to, whatever is there. -/
theorem canonical_ok_iff : t.canonical cwd p = .ok loc ↔ ∃ e, t.stat cwd p = .ok (loc, e) := by
  unfold canonical
  rcases t.stat cwd p with e | ⟨loc', e⟩
  · simp [Except.map]
  · simp [Except.map]

theorem canonical_of_stat {e : Entry} (h : t.stat cwd p = .ok (loc, e)) :
    t.canonical cwd p = .ok loc :=
  canonical_ok_iff.mpr ⟨e, h⟩

theorem stat_of_openFile {opened : Opened} (h : t.openFile cwd p = .ok opened) :
    ∃ found, t.stat cwd p = .ok found := by
  unfold openFile at h
  cases hstat : t.stat cwd p with
  | error e =>
    simp only [hstat] at h
    cases h
  | ok found => exact ⟨found, rfl⟩

/-- A file is opened just where the path leads to one. -/
theorem openFile_file_iff {f : RegularFile} :
    t.openFile cwd p = .ok (.file f) ↔ ∃ loc, t.stat cwd p = .ok (loc, .file f) := by
  unfold openFile
  rcases t.stat cwd p with e | ⟨loc, e⟩
  · simp
  · cases e <;> simp

theorem isDirectory_iff : t.isDirectory cwd p = true ↔
    ∃ loc, t.stat cwd p = .ok (loc, .directory) := by
  unfold isDirectory
  split
  · rename_i loc hstat
    simp [hstat]
  · rename_i hother
    simp only [Bool.false_eq_true, false_iff]
    rintro ⟨loc, hstat⟩
    exact hother loc hstat

theorem isFile_iff : t.isFile cwd p = true ↔ ∃ loc f, t.stat cwd p = .ok (loc, .file f) := by
  unfold isFile
  split
  · rename_i loc f hstat
    simp [hstat]
  · rename_i hother
    simp only [Bool.false_eq_true, false_iff]
    rintro ⟨loc, f, hstat⟩
    exact hother loc f hstat

theorem isExecutable_iff : t.isExecutable cwd p = true ↔
    ∃ loc f, t.stat cwd p = .ok (loc, .file f) ∧ f.executable = true := by
  unfold isExecutable
  split
  · rename_i loc f hstat
    simp [hstat]
  · rename_i hother
    simp only [Bool.false_eq_true, false_iff]
    rintro ⟨loc, f, hstat, -⟩
    exact hother loc f hstat

/-- Directories can be listed, and nothing else. -/
theorem list_ok_iff {names : List String} : t.list cwd p = .ok (loc, names) ↔
    t.stat cwd p = .ok (loc, .directory) ∧ names = t.names loc := by
  unfold list
  split
  · rename_i found hstat
    constructor
    · intro h
      cases h
      exact ⟨hstat, rfl⟩
    · rintro ⟨h, rfl⟩
      cases hstat.symm.trans h
      rfl
  · rename_i hnot hstat
    simp only [hstat, reduceCtorEq, Except.ok.injEq, false_iff]
    rintro ⟨h, -⟩
    cases h
    exact hnot rfl
  · rename_i hstat
    simp [hstat]

theorem list_of_stat_error {e : OsError} (h : t.stat cwd p = .error e) :
    t.list cwd p = .error e := by
  rw [list, h]

theorem bytesAt_ok_iff {data : Bytes} : t.bytesAt cwd p = .ok data ↔
    ∃ opened, t.openFile cwd p = .ok opened ∧ opened.read = .ok data := by
  unfold bytesAt
  cases t.openFile cwd p <;> simp

theorem bytesAt_of_stat {f : RegularFile} (h : t.stat cwd p = .ok (loc, .file f)) :
    t.bytesAt cwd p = .ok f.content :=
  bytesAt_ok_iff.mpr ⟨.file f, openFile_file_iff.mpr ⟨loc, h⟩, rfl⟩

/-- Bytes are read from files only. -/
theorem openFile_of_bytesAt {data : Bytes} (h : t.bytesAt cwd p = .ok data) :
    ∃ f, t.openFile cwd p = .ok (.file f) ∧ f.content = data := by
  obtain ⟨opened, hopen, hread⟩ := bytesAt_ok_iff.mp h
  cases opened with
  | file f => exact ⟨f, hopen, Except.ok.inj hread⟩
  | directory => cases hread

theorem stat_of_bytesAt {data : Bytes} (h : t.bytesAt cwd p = .ok data) :
    ∃ loc f, t.stat cwd p = .ok (loc, .file f) ∧ f.content = data := by
  obtain ⟨f, hopen, hdata⟩ := openFile_of_bytesAt h
  obtain ⟨loc, hstat⟩ := openFile_file_iff.mp hopen
  exact ⟨loc, f, hstat, hdata⟩

theorem bytesAt_congr {cwd' : Location} (h : t'.openFile cwd' q = t.openFile cwd p) :
    t'.bytesAt cwd' q = t.bytesAt cwd p := by
  unfold bytesAt
  rw [h]

/-- What a path leads to, it leads to in every file system that has kept its entries. -/
theorem stat_of_partOf {e : Entry} (h : t.stat cwd p = .ok (loc, e)) (ht : t.PartOf t') :
    t'.stat cwd p = .ok (loc, e) := by
  rw [stat_ok_iff] at h ⊢
  obtain ⟨hnul, hne, hfits, hwalk⟩ := find_ok h
  rw [find_eq_walk hnul hne hfits]
  exact walk_taken hwalk ht

theorem get?_startOf (hcwd : t.get? cwd = some .directory) (p : Path) :
    t.get? (startOf cwd p) = some .directory := by
  unfold startOf
  split
  · exact get?_nil t
  · exact hcwd

theorem get?_of_stat (hwf : t.WellFormed) (hcwd : t.get? cwd = some .directory) {e : Entry}
    (h : t.stat cwd p = .ok (loc, e)) : t.get? loc = some e :=
  walk_shows hwf (get?_startOf hcwd p) (find_ok (stat_ok_iff.mp h)).2.2.2

/-- A path and a respelling of it by the same steps lead to the same directory. -/
theorem stat_respelled (hmoves : q.moves = p.moves) (habs : q.isAbsolute = p.isAbsolute)
    (hnul : '\x00' ∉ q.text.toList) (hne : q.text ≠ "") (hfits : Fits q)
    (h : t.stat cwd p = .ok (loc, .directory)) : t.stat cwd q = .ok (loc, .directory) := by
  rw [stat_ok_iff] at h ⊢
  obtain ⟨-, -, -, hwalk⟩ := find_ok h
  rw [find_eq_walk hnul hne hfits]
  have hstart : startOf cwd q = startOf cwd p := by simp [startOf, habs]
  rw [hstart]
  refine walk_respelled ?_ hwalk
  rw [← Path.moves_eq_filter, ← Path.moves_eq_filter, hmoves]

theorem stat_of_trims (htrims : Path.Trims q p) (h : t.stat cwd p = .ok (loc, .directory)) :
    t.stat cwd q = .ok (loc, .directory) := by
  obtain ⟨hnul, -, hfits, -⟩ := find_ok (stat_ok_iff.mp h)
  exact stat_respelled htrims.moves htrims.absolute (htrims.no_nul hnul) htrims.nonempty
    (Nat.le_trans htrims.short hfits) h

/-- What a lookup of a path says is so. -/
theorem find_shows (hwf : t.WellFormed) (hcwd : t.get? cwd = some .directory) {spot : Spot}
    (h : t.find cwd follow p = .ok spot) : t.Shows spot :=
  walk_shows hwf (get?_startOf hcwd p) (find_ok h).2.2.2

theorem find_isName (hnamed : t.Named) {n : String} {slash : Bool}
    (h : t.find cwd follow p = .ok (.vacant loc n slash)) : IsName n :=
  walk_isName hnamed (clean_parts (find_ok h).1) (find_ok h).2.2.2

/-- A path that led to a missing name leads to what is put there. -/
theorem stat_filled {n : String} {slash : Bool} {e : Entry}
    (h : t.find cwd follow p = .ok (.vacant loc n slash)) (ht : t.PartOf t')
    (he : t'.get? (loc ++ [n]) = some e)
    (hfit : e = .directory ∨ slash = false ∧ ∃ f, e = .file f) :
    t'.stat cwd p = .ok (loc ++ [n], e) := by
  obtain ⟨hnul, hne, hfits, hwalk⟩ := find_ok h
  rw [stat_ok_iff, find_eq_walk hnul hne hfits]
  exact walk_filled hwalk ht he hfit

/-- What leads to an entry leads to one without its last link. -/
theorem find_nofollow {e : Entry} (h : t.stat cwd p = .ok (loc, e)) :
    ∃ loc' e', t.find cwd false p = .ok (.taken loc' e') := by
  obtain ⟨hnul, hne, hfits, hwalk⟩ := find_ok (stat_ok_iff.mp h)
  rw [find_eq_walk hnul hne hfits]
  exact walk_nofollow hwalk

/-! ## §4 Names below a path -/

/-- The lookup of names below a path is a walk from where the path leads. -/
theorem find_descend (h : t.stat cwd p = .ok (loc, .directory)) :
    ∃ left, ∀ t', t.PartOf t' → ∀ follow names, names ≠ [] → (∀ n ∈ names, IsName n) →
      Fits (Export.descend p names) →
      t'.find cwd follow (Export.descend p names) = t'.walk follow left loc names := by
  obtain ⟨hnul, hne, -, hwalk⟩ := find_ok (stat_ok_iff.mp h)
  -- the stem of the path leads to the same directory; the names come behind it
  have hstem : t.walk true maxLinks (startOf cwd p) p.stem = .ok (.taken loc .directory) := by
    rcases Path.stem_cases p with hs | hs
    · rwa [hs] at hwalk
    · refine walk_respelled ?_ hwalk
      rw [hs, List.filter_append]
      simp
  obtain ⟨left, hleft⟩ := walk_directory hstem
  refine ⟨left, fun t' ht follow names hnonempty hnames hfits => ?_⟩
  obtain ⟨n, rest, rfl⟩ := List.exists_cons_of_ne_nil hnonempty
  obtain ⟨hne', hnul', habs⟩ := Path.descend_keeps hne hnul hnames
  have hstart : startOf cwd (Export.descend p (n :: rest)) = startOf cwd p := by
    simp [startOf, habs]
  rw [find_eq_walk hnul' hne' hfits, hstart, Path.steps_descend hne hnames]
  exact hleft t' ht follow n rest

/-- What a name joined to a path leads to has a name that a directory can hold. -/
theorem isName_of_stat {n : String} (hp : p.text ≠ "") (hn : IsPart n) {e : Entry}
    (h : t.stat cwd (p.join n) = .ok (loc, e)) : IsName n := by
  obtain ⟨hnul, -, -, hwalk⟩ := find_ok (stat_ok_iff.mp h)
  rw [Path.steps_join hp hn.no_slash] at hwalk
  refine hn.isName (fun hmem => hnul ?_) (walk_short hwalk n (by simp) hn)
  rw [Path.join_text (Path.name_head hn.no_slash) hp]
  split <;> simp [hmem]

/-- Without links below a directory, names lead to the entry that they say, or to a missing one. -/
theorem find_names (h : t.stat cwd p = .ok (loc, .directory)) (ht : t.PartOf t')
    (hloc : t'.get? loc = some .directory) (hfree : t'.LinkFree loc) {names : List String}
    (hnonempty : names ≠ []) (hnames : ∀ n ∈ names, IsName n) {spot : Spot}
    (hfind : t'.find cwd follow (Export.descend p names) = .ok spot) :
    (∃ e, t'.get? (loc ++ names) = some e ∧ spot = .taken (loc ++ names) e) ∨
      ∃ dir n, names = dir ++ [n] ∧ t'.get? (loc ++ dir) = some .directory ∧
        t'.get? (loc ++ names) = none ∧ spot = .vacant (loc ++ dir) n false := by
  obtain ⟨left, hleft⟩ := find_descend h
  rw [hleft t' ht follow names hnonempty hnames (find_ok hfind).2.2.1] at hfind
  exact walk_names hloc hfree hnames hfind

/-- Without links below a directory, what names lead to is what their location holds. -/
theorem stat_names_iff (h : t.stat cwd p = .ok (loc, .directory)) (ht : t.PartOf t')
    (hwf : t'.WellFormed) (hloc : t'.get? loc = some .directory) (hfree : t'.LinkFree loc)
    {names : List String} (hnames : ∀ n ∈ names, IsName n) {spot : Location} {e : Entry} :
    t'.stat cwd (Export.descend p names) = .ok (spot, e) ↔
      Fits (Export.descend p names) ∧ spot = loc ++ names ∧ t'.get? (loc ++ names) = some e := by
  by_cases hnonempty : names = []
  -- no names: the path itself, which leads where it led
  · have hthere := stat_of_partOf h ht
    have hfits := (find_ok (stat_ok_iff.mp hthere)).2.2.1
    subst hnonempty
    show t'.stat cwd p = _ ↔ Fits p ∧ _
    rw [hthere, List.append_nil, hloc]
    constructor
    · intro heq
      cases heq
      exact ⟨hfits, rfl, rfl⟩
    · rintro ⟨-, rfl, heq⟩
      cases heq
      rfl
  · rw [stat_ok_iff]
    constructor
    · intro hfind
      refine ⟨(find_ok hfind).2.2.1, ?_⟩
      rcases find_names h ht hloc hfree hnonempty hnames hfind with
        ⟨e', he, hspot⟩ | ⟨dir, n, -, -, -, hspot⟩
      · cases hspot
        exact ⟨rfl, he⟩
      · cases hspot
    · rintro ⟨hfits, rfl, he⟩
      obtain ⟨left, hleft⟩ := find_descend h
      rw [hleft t' ht true names hnonempty hnames hfits]
      -- what is there has directories on the way to it, and links are excluded
      obtain ⟨dir, n, rfl⟩ : ∃ dir n, names = dir ++ [n] :=
        ⟨_, _, (List.dropLast_append_getLast hnonempty).symm⟩
      have hplain := Plain.of_name (hnames n (by simp))
      rw [← List.append_assoc] at he
      rw [walk_directories hwf (hwf.parent he), ← List.append_assoc]
      cases e with
      | directory => rw [walk_into hplain he, walk_nil]
      | file f => rw [walk_file hplain he]; rfl
      | link target =>
        rw [List.append_assoc] at he
        exact absurd he (hfree _ target)

/-! ## §5 A missing name below a path -/

/-- The directory in which names joined to a path are looked up. -/
def Opens (t : Tree) (cwd : Location) (p : Path) (dir : Location) : Prop :=
  if p.text = "" then dir = cwd else t.stat cwd p = .ok (dir, .directory)

theorem Opens.partOf (h : t.Opens cwd p loc) (ht : t.PartOf t') : t'.Opens cwd p loc := by
  unfold Opens at h ⊢
  split at h
  · rename_i hempty
    rw [if_pos hempty]
    exact h
  · rename_i hempty
    rw [if_neg hempty]
    exact stat_of_partOf h ht

/-- A lookup of a single part that does not go through links ends at that part. -/
theorem walk_single {n m : String} {slash : Bool} (hn : IsPart n)
    (h : t.walk false links here [n] = .ok (.vacant loc m slash)) :
    loc = here ∧ m = n ∧ slash = false ∧ n.utf8ByteSize ≤ maxNameBytes ∧
      t.get? (here ++ [n]) = none := by
  by_cases hlong : maxNameBytes < n.utf8ByteSize
  · rw [walk_long hn.step hn.down hlong] at h
    cases h
  have hplain : Plain n := ⟨hn.step, hn.down, hlong⟩
  -- every entry that is there would end the lookup at itself
  match hnext : t.get? (here ++ [n]) with
  | none =>
    rw [walk_missing hplain hnext] at h
    cases h
    exact ⟨rfl, rfl, rfl, Nat.not_lt.mp hlong, rfl⟩
  | some .directory =>
    rw [walk_into hplain hnext, walk_nil] at h
    cases h
  | some (.file f) =>
    rw [walk_file hplain hnext] at h
    cases h
  | some (.link target) =>
    rw [walk_stop hplain hnext rfl] at h
    cases h

theorem join_of_empty {n : String} (hp : p.text = "") (hn : '/' ∉ n.toList) :
    p.join n = ⟨n⟩ := by
  unfold Path.join
  rw [if_neg (Path.name_head hn), if_pos (by simp [hp]), hp, String.empty_append]

theorem parts_of_no_slash {n : String} (hn : '/' ∉ n.toList) : Text.parts '/' n = [n] := by
  unfold Text.parts
  rw [Text.split_of_not_mem hn]
  simp

/-- A text without slashes is looked up from the working directory. -/
theorem startOf_of_no_slash {n : String} (hn : '/' ∉ n.toList) : startOf cwd ⟨n⟩ = cwd := by
  unfold startOf Path.isAbsolute
  rw [if_neg]
  simpa using Path.name_head hn

theorem join_size (p : Path) {n : String} (hn : '/' ∉ n.toList) :
    p.text.utf8ByteSize ≤ (p.join n).text.utf8ByteSize := by
  rw [Path.size_joined p hn, Nat.add_assoc]
  exact Nat.le_add_right _ _

theorem no_nul_of_join {n : String} (hn : '/' ∉ n.toList)
    (h : '\x00' ∉ (p.join n).text.toList) : '\x00' ∉ p.text.toList := by
  unfold Path.join at h
  rw [if_neg (Path.name_head hn)] at h
  split at h
  · simp only [String.toList_append, List.mem_append, not_or] at h
    exact h.1
  · simp only [String.toList_append, List.mem_append, not_or] at h
    exact h.1.1

/-- A lookup that ends at the missing name that was joined to a path went through the directory of
    the path. -/
theorem find_join_vacant {n m : String} {slash : Bool} (hn : IsPart n)
    (h : t.find cwd false (p.join n) = .ok (.vacant loc m slash)) :
    t.Opens cwd p loc ∧ m = n ∧ slash = false ∧ n.utf8ByteSize ≤ maxNameBytes ∧
      t.get? (loc ++ [n]) = none := by
  obtain ⟨hnul, -, hfits, hwalk⟩ := find_ok h
  unfold Opens
  by_cases hp : p.text = ""
  · rw [if_pos hp]
    -- an empty path: the name is looked up in the working directory
    rw [join_of_empty hp hn.no_slash] at hwalk
    rw [Path.steps, parts_of_no_slash hn.no_slash, startOf_of_no_slash hn.no_slash] at hwalk
    obtain ⟨rfl, hrest⟩ := walk_single hn hwalk
    exact ⟨rfl, hrest⟩
  · rw [if_neg hp]
    have hstart : startOf cwd (p.join n) = startOf cwd p := by
      simp [startOf, Path.join_isAbsolute hp hn.no_slash]
    rw [Path.steps_join hp hn.no_slash, hstart] at hwalk
    have hnonempty : n ≠ "" := fun h => hn.step (.inl h)
    -- the lookup went through the stem of the path first, and that of the path does the same
    obtain ⟨dir, hdir⟩ := exists_directory_of_ok (by simp) hwalk (.inl ⟨n, by simp, hnonempty⟩)
    obtain ⟨left, hleft⟩ := walk_directory hdir
    rw [hleft t (.refl t) false n []] at hwalk
    obtain ⟨rfl, hrest⟩ := walk_single hn hwalk
    refine ⟨?_, hrest⟩
    rw [stat_ok_iff, find_eq_walk (no_nul_of_join hn.no_slash hnul) hp
      (Nat.le_trans (join_size p hn.no_slash) hfits)]
    refine walk_respelled ?_ hdir
    rcases Path.stem_cases p with hs | hs
    · rw [hs]
    · rw [hs, List.filter_append]
      simp

/-- A missing name joined to a path is looked up in the directory of the path. -/
theorem find_join_of_opens {n : String} (hn : IsName n) (h : t.Opens cwd p loc)
    (hnone : t.get? (loc ++ [n]) = none) (hfits : Fits (p.join n)) :
    t.find cwd follow (p.join n) = .ok (.vacant loc n false) := by
  have hplain := Plain.of_name hn
  unfold Opens at h
  by_cases hp : p.text = ""
  · rw [if_pos hp] at h
    subst h
    rw [join_of_empty hp hn.no_slash] at hfits ⊢
    rw [find_eq_walk hn.no_nul hn.ne_empty hfits, Path.steps, parts_of_no_slash hn.no_slash,
      startOf_of_no_slash hn.no_slash, walk_missing hplain hnone]
    rfl
  · rw [if_neg hp] at h
    obtain ⟨left, hleft⟩ := find_descend h
    have hsingle : ∀ m ∈ [n], IsName m := List.forall_mem_singleton.mpr hn
    have hfind := hleft t (.refl t) follow [n] (by simp) hsingle hfits
    rw [walk_missing hplain hnone] at hfind
    exact hfind

end AssetServer.Tree
