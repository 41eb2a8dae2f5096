import AssetServer.Proofs.Coverage
import AssetServer.Proofs.Entering
import AssetServer.Proofs.Fold
import Mathlib.Algebra.GroupWithZero.Nat

/-!
# How many directories an export enters

An export makes directories in the tree that it goes through, and may come to them: those below the
destination lie below a root as well, if the root is the destination or lies in it. Such a directory
repeats names that lead somewhere already: what is written for a source at `names` below its root is
written to `names` below the destination, and a root inside of the destination sees only an end of
them. So all names that lead from a root to a directory end a location that was there when the
destination had been made (`Tree.Tail`), and these are finitely many (`Tree.ways`). The destination
is not entered from above, and links are not gone through, so no directory is entered twice from one
root.

- `file_onward`: exporting a file makes directories only on the way to its output.
- `Spread` is the invariant of an export, and `Spread.tail` what it says about a directory that is
  entered.
- `Wanders.bounded` and `Rounds.bounded` carry the invariant over all walks.
- `tree_returns`: every export returns, and enters no more directories than that.
-/

namespace AssetServer

/-! ## §1 Tails of locations -/

namespace Tree

variable {t : Tree} {cwd loc base : Location} {names pre rest : List String}

/-- The names are the last ones in the location of a directory. -/
def Tail (t : Tree) (names : List String) : Prop :=
  ∃ loc, t.get? loc = some .directory ∧ names <:+ loc

theorem Tail.back (h : t.Tail names) (hrest : rest <:+ names) : t.Tail rest := by
  obtain ⟨loc, hdir, hnames⟩ := h
  exact ⟨loc, hdir, hrest.trans hnames⟩

/-- The directories above a directory are directories. -/
theorem Tail.front (h : t.Tail names) (hwf : t.WellFormed) (hpre : pre <+: names) :
    t.Tail pre := by
  obtain ⟨_, hdir, before, rfl⟩ := h
  obtain ⟨rest, rfl⟩ := hpre
  refine ⟨before ++ pre, ?_, List.suffix_append _ _⟩
  rw [← List.append_assoc] at hdir
  by_cases hrest : rest = []
  · rwa [hrest, List.append_nil] at hdir
  · exact hwf.parents hdir hrest

/-- The locations of the directories, with the root. -/
def directories (t : Tree) : List Location :=
  [] :: t.entries.filterMap fun e => if e.2 = .directory then some e.1 else none

theorem mem_directories (h : t.get? loc = some .directory) : loc ∈ t.directories := by
  unfold directories
  by_cases hroot : loc = []
  · rw [hroot]
    exact List.mem_cons_self
  · refine List.mem_cons_of_mem _ (List.mem_filterMap.mpr ⟨_, mem_of_get? hroot h, ?_⟩)
    rw [if_pos rfl]

/-- All tails of locations of directories. -/
def ways (t : Tree) : List (List String) :=
  t.directories.flatMap List.tails

theorem Tail.mem_ways (h : t.Tail names) : names ∈ t.ways := by
  obtain ⟨loc, hdir, hnames⟩ := h
  exact List.mem_flatMap.mpr ⟨loc, mem_directories hdir, (List.mem_tails _ _).mpr hnames⟩

theorem length_ways (t : Tree) :
    t.ways.length = (t.directories.map fun loc => loc.length + 1).sum := by
  unfold ways
  rw [List.length_flatMap]
  congr 2
  funext loc
  exact List.length_tails loc

/-- Directories below a directory are found through links on the way to it, and no other. -/
theorem stat_directory {p : Path} (hwf : t.WellFormed) (h : t.stat cwd p = .ok (base, .directory))
    (hdir : t.get? (base ++ names) = some .directory) (hfits : Fits (Export.descend p names)) :
    t.stat cwd (Export.descend p names) = .ok (base ++ names, .directory) := by
  by_cases hnil : names = []
  · subst hnil
    rw [List.append_nil]
    exact h
  · obtain ⟨left, hleft⟩ := find_descend h
    rw [stat_ok_iff, hleft t (.refl t) true names hnil (hwf.names hdir) hfits]
    have hwalk : t.walk true left base (names ++ []) = t.walk true left (base ++ names) [] :=
      walk_directories hwf hdir []
    rwa [List.append_nil, walk_nil] at hwalk

end Tree

namespace Export

/-! ## §2 One file -/

variable {x : Export} {root : Path} {R : Location} {dir names : List String} {n : String}
  {h k m : Host} {p p' : Pass} {result : Except Failure Unit}

/-- `k` is `h` after a file in the directory that `dir` leads to. -/
structure Onward (x : Export) (dir : List String) (h k : Host) : Prop where
  underway : x.Underway k
  keeps : h.tree.Keeps k.tree
  beside : h.Beside (fun loc => x.location <+: loc) k
  paves : x.Paves dir h k

theorem Onward.refl (hu : x.Underway h) : x.Onward dir h h :=
  ⟨hu, .refl _, .refl h, fun _ hdir => .inl hdir⟩

theorem Onward.of_changes (hu : x.Underway h) (hc : x.Changes names h k)
    (hnames : x.location <+: h.temporary → ∀ m, Host.scratchName m ∉ names)
    (hp : x.Paves dir h k) : x.Onward dir h k :=
  ⟨hu.changes hc hnames, hc.keeps hu.linkFree, hc.beside, hp⟩

/-- Exporting a file, or what a link leads to, makes directories only on the way to the output. -/
theorem file_onward {e : Entry} (hu : x.Underway p.host) (hroot : root.text ≠ "")
    (he : p.host.tree.get? (R ++ (dir ++ [n])) = some e)
    (hrun : runFrom (x.file root (dir ++ [n])) p = (result, p')) :
    x.Onward dir p.host p'.host := by
  have hnames : ∀ m ∈ dir ++ [n], IsName m := hu.ready.wellFormed.names he
  have hdir : ∀ m ∈ dir, IsName m := fun m hm => hnames m (List.mem_append_left _ hm)
  have hn : IsName n := hnames n (by simp)
  rcases file_cases hu.based.dest_ne_empty hroot hdir hn hrun with
    ⟨-, -, rfl⟩ | ⟨-, hcopy⟩ | ⟨o, q, made, k', ho, -, hq, hmade, hdone⟩
  · exact .refl hu
  · cases hsame : p.host.tree.samePlace p.host.directory (descend root (dir ++ [n]))
      (descend x.dest (dir ++ [n])) with
    | true =>
      rw [runFrom_copy_inPlace hsame, Prod.mk.injEq] at hcopy
      obtain ⟨-, rfl⟩ := hcopy
      exact .refl hu
    | false =>
      rcases copy_cases hu.based hdir hn hsame hcopy with
        ⟨e, k₁, -, hclears, rfl⟩ | ⟨k₁, f, k₂, -, -, -, -, hputs, rfl⟩
      · exact .of_changes hu (.of_clears hclears) (hu.names_clear he) hclears.paves
      · exact .of_changes hu (.of_puts hputs) (hu.names_clear he) hputs.paves
  · obtain ⟨hchanges, hpaves, -⟩ := compileToFile_changes hu hdir hq
      (Kind.exportName?_isName hn ho) (hu.output_clear he ho) hmade
    have honward := Onward.of_changes hu hchanges (hu.output_clear he ho) hpaves
    rcases hdone with ⟨e, -, -, rfl⟩ | ⟨m, -, -, rfl⟩
    · exact honward
    · exact honward

theorem leaf_onward {e : Entry} (hu : x.Underway p.host) (hroot : root.text ≠ "")
    (he : p.host.tree.get? (R ++ (dir ++ [n])) = some e)
    (hrun : runFrom (x.leaf root (dir ++ [n])) p = (result, p')) :
    x.Onward dir p.host p'.host := by
  unfold leaf at hrun
  rw [runFrom_bind, runFrom_look] at hrun
  simp only at hrun
  split at hrun
  · exact file_onward hu hroot he hrun
  · cases hrun
    exact .refl hu

/-! ## §3 The invariant -/

/-- `k` is `m`, on which the destination was made, in the course of an export: the names of every
    directory below the destination end a location that was a directory then. -/
structure Spread (x : Export) (m k : Host) : Prop where
  underway : x.Underway k
  keeps : m.tree.Keeps k.tree
  beside : m.Beside (fun loc => x.location <+: loc) k
  below : ∀ names, k.tree.get? (x.location ++ names) = some .directory → m.tree.Tail names

theorem Spread.refl (hu : x.Underway m) : x.Spread m m :=
  ⟨hu, .refl _, .refl m, fun _ hdir => ⟨_, hdir, List.suffix_append _ _⟩⟩

theorem Spread.onward (hs : x.Spread m h) (hwf : m.tree.WellFormed) (hdir : m.tree.Tail dir)
    (ho : x.Onward dir h k) : x.Spread m k := by
  refine ⟨ho.underway, hs.keeps.trans ho.keeps, hs.beside.trans ho.beside, fun names hthere => ?_⟩
  rcases ho.paves _ hthere with hbefore | ⟨pre, hpre, hplace⟩
  · exact hs.below names hbefore
  · -- made on the way to an output, whose directory has the names of its source's
    rw [List.append_cancel_left hplace]
    exact hdir.front hwf hpre

/-- The names that lead from a root to a directory, and not through the destination, end a location
    that was a directory when the destination was made. -/
theorem Spread.tail (hs : x.Spread m k) (havoids : x.Avoids R names)
    (hdir : k.tree.get? (R ++ names) = some .directory) : m.tree.Tail names := by
  by_cases hbelow : x.location <+: R ++ names
  · obtain ⟨rest, hrest⟩ := hbelow
    have htail : m.tree.Tail rest := hs.below rest (hrest.symm ▸ hdir)
    -- either the root lies in the destination, or the names lead through it
    rcases List.append_eq_append_iff.mp hrest with ⟨inside, rfl, rfl⟩ | ⟨through, hplace, rfl⟩
    · exact htail.back (List.suffix_append _ _)
    · by_cases hthrough : through = []
      · rwa [hthrough, List.nil_append]
      · exact absurd hplace.symm (havoids through hthrough (List.prefix_append _ _))
  · exact ⟨_, (hs.beside.tree _ hbelow).symm.trans hdir, List.suffix_append _ _⟩

/-! ## §4 All walks -/

/-- What was listed is there, and what was listed as a directory is one. -/
def Listed (k : Host) (place : Location) (list : List (String × Bool)) : Prop :=
  ∀ entry ∈ list, ∃ e, k.tree.get? (place ++ [entry.1]) = some e ∧
    (entry.2 = true → e = .directory)

theorem Listed.kept {place : Location} {list : List (String × Bool)} (hl : Listed h place list)
    (hk : h.tree.Keeps k.tree) : Listed k place list := by
  intro entry hentry
  obtain ⟨e, he, hflag⟩ := hl entry hentry
  cases e with
  | directory => exact ⟨_, hk.directory _ he, fun _ => rfl⟩
  | file f =>
    obtain ⟨g, hg⟩ := hk.file _ f he
    exact ⟨_, hg, fun htrue => by cases hflag htrue⟩
  | link target => exact ⟨_, hk.link _ _ he, fun htrue => by cases hflag htrue⟩

/-- What a walk needs where it begins, from a root at `R`. -/
structure Rooted (x : Export) (m : Host) (root : Path) (R : Location) (k : Host) : Prop where
  spread : x.Spread m k
  root : k.tree.stat k.directory root = .ok (R, .directory)

theorem Rooted.kept (hr : x.Rooted m root R h) (hs : x.Spread m k) (hk : h.tree.Keeps k.tree) :
    x.Rooted m root R k := by
  refine ⟨hs, ?_⟩
  rw [hs.beside.directory, ← hr.spread.beside.directory]
  exact Tree.stat_kept hk hr.root

theorem Rooted.root_ne_empty (hr : x.Rooted m root R k) : root.text ≠ "" :=
  Tree.ne_empty_of_stat hr.root

/-- What a leg of a walk needs: a directory that was not reached through the destination, and in the
    middle of it what was listed. -/
def Fit (x : Export) (m : Host) (root : Path) (R : Location) (k : Host) : Leg → Prop
  | .enter names => k.tree.get? (R ++ names) = some .directory ∧
      (Tree.Fits (descend root names) → x.Avoids R names)
  | .through names list => m.tree.Tail names ∧ x.Avoids R names ∧
      (list.map Prod.fst).Nodup ∧ Listed k (R ++ names) list

/-- The directories that a leg may enter: those at or below its own, and those below what is left of
    its listing. -/
def Leg.Covers : Leg → List String → Prop
  | .enter names, names' => names <+: names'
  | .through names list, names' => ∃ n ∈ list.map Prod.fst, names ++ [n] <+: names'

theorem Leg.Covers.cons {list : List (String × Bool)} {entry : String × Bool} {names' : List String}
    (hc : (Leg.through names list).Covers names') :
    (Leg.through names (entry :: list)).Covers names' := by
  obtain ⟨n, hn, hpre⟩ := hc
  exact ⟨n, List.mem_cons_of_mem _ hn, hpre⟩

/-- Nothing lies below two names of one directory. -/
theorem not_covers {list : List (String × Bool)} {b : Bool} {names' : List String}
    (hnodup : (((n, b) :: list).map Prod.fst).Nodup) (hpre : names ++ [n] <+: names') :
    ¬ (Leg.through names list).Covers names' := by
  rintro ⟨n', hn', hpre'⟩
  have hsame : names ++ [n] = names ++ [n'] := by
    refine (List.prefix_of_prefix_length_le hpre hpre' ?_).eq_of_length ?_
    · simp
    · simp
  rw [List.append_cancel_left_eq, List.cons.injEq] at hsame
  rw [List.map_cons, List.nodup_cons] at hnodup
  exact hnodup.1 (hsame.1 ▸ hn')

/-- What is left of a listing can be gone through when its first entry has been. -/
theorem Fit.next {list : List (String × Bool)} {entry : String × Bool}
    (hfit : x.Fit m root R h (.through names (entry :: list))) (hk : h.tree.Keeps k.tree) :
    x.Fit m root R k (.through names list) := by
  obtain ⟨htail, havoids, hnodup, hlisted⟩ := hfit
  rw [List.map_cons, List.nodup_cons] at hnodup
  exact ⟨htail, havoids, hnodup.2,
    Listed.kept (fun entry hentry => hlisted entry (List.mem_cons_of_mem _ hentry)) hk⟩

/-- A directory in a listing can be entered, unless it is the destination. -/
theorem Fit.enter {list : List (String × Bool)} (hr : x.Rooted m root R p.host)
    (hfit : x.Fit m root R p.host (.through names ((n, true) :: list)))
    (hplace : ¬ x.AtDestination root (names ++ [n]) p) :
    x.Fit m root R p.host (.enter (names ++ [n])) := by
  obtain ⟨-, havoids, -, hlisted⟩ := hfit
  obtain ⟨e, he, hflag⟩ := hlisted _ List.mem_cons_self
  obtain rfl := hflag rfl
  rw [List.append_assoc] at he
  -- a path that is too long has no canonical form to be compared, but is not listed either
  refine ⟨he, fun hfits => havoids.concat fun hsame => hplace ?_⟩
  unfold AtDestination
  rw [← hsame]
  exact Tree.canonical_of_stat
    (Tree.stat_directory hr.spread.underway.ready.wellFormed hr.root he hfits)

/-- What a directory lists when it is entered can be gone through. -/
theorem Fit.listed {list : List (String × Bool)} (hr : x.Rooted m root R p.host)
    (hfit : x.Fit m root R p.host (.enter names))
    (hlist : runFrom (entries (descend root names)) p = (.ok list, p)) :
    x.Fit m root R p.host (.through names list) := by
  obtain ⟨hdir, havoids⟩ := hfit
  obtain ⟨-, loc, hstat, rfl⟩ := entries_ok_iff.mp hlist
  have hwf := hr.spread.underway.ready.wellFormed
  have hfits : Tree.Fits (descend root names) := Tree.fits_of_stat hstat
  -- the names were not only listed, they lead from the place of the root
  rw [Tree.stat_directory hwf hr.root hdir hfits] at hstat
  cases hstat
  refine ⟨hr.spread.tail (havoids hfits) hdir, havoids hfits, ?_, ?_⟩
  · rw [List.map_map]
    exact (List.map_id' _).symm ▸ Tree.nodup_names hwf
  · intro entry hentry
    obtain ⟨n, hn, rfl⟩ := List.mem_map.mp hentry
    obtain ⟨e, he⟩ := Tree.mem_names_iff.mp hn
    refine ⟨e, he, fun htrue => ?_⟩
    rw [he] at htrue
    simpa using htrue

/-- An entry of a listing that is no directory can be exported. -/
theorem Fit.leaf {list : List (String × Bool)} {b : Bool} (hwf : m.tree.WellFormed)
    (hr : x.Rooted m root R p.host)
    (hfit : x.Fit m root R p.host (.through names ((n, b) :: list)))
    (hleaf : runFrom (x.leaf root (names ++ [n])) p = (result, p')) :
    x.Spread m p'.host ∧ p.host.tree.Keeps p'.host.tree := by
  obtain ⟨htail, -, -, hlisted⟩ := hfit
  obtain ⟨e, he, -⟩ := hlisted _ List.mem_cons_self
  rw [List.append_assoc] at he
  have honward := leaf_onward hr.spread.underway hr.root_ne_empty he hleaf
  exact ⟨hr.spread.onward hwf htail honward, honward.keeps⟩

/-- What a leg has done when it ends. -/
structure Bounded (x : Export) (m : Host) (leg : Leg) (h k : Host) (entered : List (List String)) :
    Prop where
  spread : x.Spread m k
  keeps : h.tree.Keeps k.tree
  nodup : entered.Nodup
  covers : ∀ names ∈ entered, leg.Covers names
  tails : ∀ names ∈ entered, m.tree.Tail names

/-- The invariant holds after each leg of a walk, and no directory is entered twice. -/
theorem Wanders.bounded {leg : Leg} {entered : List (List String)} (hwf : m.tree.WellFormed)
    (h : Wanders x root leg p entered result p') (hr : x.Rooted m root R p.host)
    (hfit : x.Fit m root R p.host leg) : x.Bounded m leg p.host p'.host entered := by
  -- on the derivation; each premise begins on the host that the one before it has left
  induction h with
  | unlisted hlist => exact ⟨hr.spread, .refl _, .nil, by simp, by simp⟩
  | @listed names list p p' entered result hlist hrest ih =>
    have hthrough := Fit.listed hr hfit hlist
    obtain ⟨hspread, hkeeps, hnodup, hcovers, hall⟩ := ih hr hthrough
    refine ⟨hspread, hkeeps, List.nodup_cons.mpr ⟨fun hmem => ?_, hnodup⟩, ?_, ?_⟩
    · -- what is entered from the listing has more names
      obtain ⟨n, -, hpre⟩ := hcovers names hmem
      have hlength := hpre.length_le
      rw [List.length_append, List.length_singleton] at hlength
      omega
    · intro names' hmem
      rcases List.mem_cons.mp hmem with rfl | hmem
      · exact List.prefix_rfl
      · obtain ⟨n, -, hpre⟩ := hcovers names' hmem
        exact (List.prefix_append _ _).trans hpre
    · exact List.forall_mem_cons.mpr ⟨hthrough.1, hall⟩
  | done => exact ⟨hr.spread, .refl _, .nil, by simp, by simp⟩
  | destination hplace hrest ih =>
    obtain ⟨hspread, hkeeps, hnodup, hcovers, hall⟩ := ih hr (Fit.next hfit (.refl _))
    exact ⟨hspread, hkeeps, hnodup, fun names' hmem => (hcovers names' hmem).cons, hall⟩
  | @directory names n list p p₁ p' inner entered result hplace hinner hrest ihinner ih =>
    obtain ⟨hspread₁, hkeeps₁, hnodup₁, hcovers₁, hall₁⟩ := ihinner hr (Fit.enter hr hfit hplace)
    obtain ⟨hspread, hkeeps, hnodup₂, hcovers₂, hall₂⟩ :=
      ih (hr.kept hspread₁ hkeeps₁) (Fit.next hfit hkeeps₁)
    obtain ⟨-, -, hnodup, -⟩ := hfit
    refine ⟨hspread, hkeeps₁.trans hkeeps, ?_, ?_, List.forall_mem_append.mpr ⟨hall₁, hall₂⟩⟩
    · -- the listing was fixed when the directory was entered, and has every name once
      refine List.nodup_append.mpr ⟨hnodup₁, hnodup₂, ?_⟩
      rintro names' hmem _ hmem' rfl
      exact not_covers hnodup (hcovers₁ names' hmem) (hcovers₂ names' hmem')
    · intro names' hmem
      rcases List.mem_append.mp hmem with hmem | hmem
      · exact ⟨n, by simp, hcovers₁ names' hmem⟩
      · exact (hcovers₂ names' hmem).cons
  | @directoryFails names n list p p' inner e hplace hinner ih =>
    obtain ⟨hspread, hkeeps, hnodup, hcovers, hall⟩ := ih hr (Fit.enter hr hfit hplace)
    exact ⟨hspread, hkeeps, hnodup, fun names' hmem => ⟨n, by simp, hcovers names' hmem⟩, hall⟩
  | leaf hleaf hrest ih =>
    obtain ⟨hspread₁, hkeeps₁⟩ := Fit.leaf hwf hr hfit hleaf
    obtain ⟨hspread, hkeeps, hnodup, hcovers, hall⟩ :=
      ih (hr.kept hspread₁ hkeeps₁) (Fit.next hfit hkeeps₁)
    exact ⟨hspread, hkeeps₁.trans hkeeps, hnodup,
      fun names' hmem => (hcovers names' hmem).cons, hall⟩
  | leafFails hleaf =>
    obtain ⟨hspread₁, hkeeps₁⟩ := Fit.leaf hwf hr hfit hleaf
    exact ⟨hspread₁, hkeeps₁, .nil, by simp, by simp⟩

/-- A root is listed where its path leads, and nothing has been gone through on the way. -/
theorem Wanders.root_bounded {entered : List (List String)} (hwf : m.tree.WellFormed)
    (h : Wanders x root (.enter []) p entered result p') (hs : x.Spread m p.host) :
    x.Bounded m (.enter []) p.host p'.host entered := by
  cases h with
  | unlisted hlist => exact ⟨hs, .refl _, .nil, by simp, by simp⟩
  | listed hlist hrest =>
    obtain ⟨-, R, hroot, -⟩ := entries_ok_iff.mp hlist
    have hR : p.host.tree.get? (R ++ []) = some .directory := by
      rw [List.append_nil]
      exact Tree.get?_of_stat hs.underway.ready.wellFormed hs.underway.ready.directory hroot
    exact (Wanders.listed hlist hrest).bounded hwf ⟨hs, hroot⟩ ⟨hR, fun _ => Avoids.nil⟩

/-- From one root no more directories are entered than there are tails of locations. -/
theorem Bounded.length_le {leg : Leg} {entered : List (List String)}
    (hb : x.Bounded m leg h k entered) : entered.length ≤ m.tree.ways.length :=
  (List.subperm_of_subset hb.nodup fun names hmem => (hb.tails names hmem).mem_ways).length_le

theorem Rounds.bounded {roots : List Path} {entered : List (Path × List String)}
    (hwf : m.tree.WellFormed) (h : Rounds x roots p entered result p') (hs : x.Spread m p.host) :
    entered.length ≤ roots.length * m.tree.ways.length ∧
      ∀ e ∈ entered, e.1 ∈ roots ∧ m.tree.Tail e.2 := by
  induction h with
  | done => exact ⟨Nat.zero_le _, by simp⟩
  | @root root rest p p₁ p' inner entered result hwalk hrest ih =>
    have hb := hwalk.root_bounded hwf hs
    obtain ⟨hlength, hall⟩ := ih hb.spread
    refine ⟨?_, List.forall_mem_append.mpr ⟨?_, fun e he => ?_⟩⟩
    · have hfirst := hb.length_le
      rw [List.length_append, List.length_map, List.length_cons, Nat.succ_mul]
      omega
    · rintro _ he
      obtain ⟨names, hnames, rfl⟩ := List.mem_map.mp he
      exact ⟨List.mem_cons_self, hb.tails names hnames⟩
    · exact ⟨List.mem_cons_of_mem _ (hall e he).1, (hall e he).2⟩
  | @rootFails root rest p p' inner e hwalk =>
    have hb := hwalk.root_bounded hwf hs
    refine ⟨?_, ?_⟩
    · have hfirst := hb.length_le
      rw [List.length_map, List.length_cons, Nat.succ_mul]
      omega
    · rintro _ he
      obtain ⟨names, hnames, rfl⟩ := List.mem_map.mp he
      exact ⟨List.mem_cons_self, hb.tails names hnames⟩

/-! ## §5 Every export -/

/-- An export returns on every file system, whatever its roots and its destination are and wherever
    links lead: without any limit its walks end, in one way, and come to what `Export.tree` gives.
    Where tools keep to their scratch directories and no link lies below the destination, no more
    directories are entered from a root than there are tails of locations of directories when the
    destination has been made, however many directories the export itself makes; each of them is
    reached by such a tail. -/
theorem tree_returns {h : Host} (hnamed : h.Named) (roots : List Path) (dest : Path)
    (compiler : Compiler) :
    ∃ entered, Returns roots dest compiler h entered (Export.tree roots dest compiler h) ∧
      (∀ entered' given, Returns roots dest compiler h entered' given →
        entered' = entered ∧ given = Export.tree roots dest compiler h) ∧
      ∀ D made, h.Ready → Destined h dest D made → h.tree.LinkFree D →
        entered.length ≤
            roots.length * (made.tree.directories.map fun loc => loc.length + 1).sum ∧
          ∀ e ∈ entered, e.1 ∈ roots ∧
            ∃ loc, made.tree.get? loc = some .directory ∧ e.2 <:+ loc := by
  obtain ⟨entered, hreturns⟩ := exists_returns hnamed roots dest compiler
  refine ⟨entered, hreturns, fun entered' given hgiven => hgiven.unique hreturns,
    fun D made hready hd hfree => ?_⟩
  rw [← Tree.length_ways]
  have hmakes : runFrom (makeDestination dest) h = (.ok D, made) := hd.makes
  generalize Export.tree roots dest compiler h = given at hreturns
  cases hreturns with
  | unmade hdest =>
    rw [hmakes] at hdest
    cases hdest
  | made hdest hrounds =>
    rw [hmakes] at hdest
    cases hdest
    have hu : Underway ⟨compiler, dest, D⟩ made := hd.underway hready hfree
    exact hrounds.bounded hu.ready.wellFormed (.refl hu)

/-- A root with a link to itself, a script to be compiled, and a file two directories down. -/
def loopTree : Tree :=
  ⟨[(["bin"], .directory), (["bin", "tool"], executableFile), (["site"], .directory),
    (["site", "a.main.js"], plainFile [1]), (["site", "loop"], .link "../site"),
    (["site", "x"], .directory), (["site", "x", "y"], .directory),
    (["site", "x", "y", "c.txt"], plainFile [2]), (["tmp"], .directory)]⟩

/-- A host with that root, and a preprocessor that writes the path it is given. -/
def loopHost : Host :=
  .ofTree loopTree (installed .echoing)

/-- What making a destination in the root leads to. -/
def loopMade : Host :=
  ((makeDestination ⟨"site/out"⟩).runOn loopHost).2

/-- An export into a destination in the first root, whose second root is made by the export
    itself. -/
def loopExport : Except Failure Report × List Progress × Host :=
  Export.tree [⟨"site"⟩, ⟨"site/out/x"⟩] ⟨"site/out"⟩ ⟨oneTool, default⟩ loopHost

theorem loop_wellFormed : loopTree.WellFormed :=
  Tree.wellFormed_of_good (by decide) (by decide +kernel)

theorem loop_named : loopHost.Named :=
  ⟨loop_wellFormed.named, fun loc run hrun call t ht => by
    rw [installed_eq hrun, Program.echoing_blind.tree]
    exact ht⟩

theorem loop_ready : loopHost.Ready :=
  Host.ready_of_wellFormed loop_wellFormed (by decide +kernel) (by decide +kernel)
    fun loc run hrun => installed_eq hrun ▸ Program.echoing_blind.confined ["tmp"]

theorem loop_destined : Destined loopHost ⟨"site/out"⟩ ["site", "out"] loopMade :=
  destined_of_names (Host.temporary_of_opens (Host.opens_ofTree _ (by decide +kernel)))
    (by decide +kernel) (by decide +kernel) (by decide)

theorem loop_returns :
    (loopHost.Named ∧ loopHost.Ready ∧
      Destined loopHost ⟨"site/out"⟩ ["site", "out"] loopMade ∧
      loopHost.tree.LinkFree ["site", "out"] ∧
      loopHost.tree.stat [] ⟨"site/loop/loop/x"⟩ = .ok (["site", "x"], .directory)) ∧
    (∃ entered, Returns [⟨"site"⟩, ⟨"site/out/x"⟩] ⟨"site/out"⟩ ⟨oneTool, default⟩ loopHost entered
        loopExport ∧
      entered.length ≤ 2 * (loopMade.tree.directories.map fun loc => loc.length + 1).sum) ∧
    loopExport.1 = .ok ⟨1, 2, 0⟩ ∧
      loopExport.2.2.tree.get? ["site", "out", "y"] = some .directory := by
  have hfree : loopHost.tree.LinkFree ["site", "out"] :=
    Tree.linkFree_of_linkless (by decide +kernel)
  obtain ⟨entered, hreturns, -, hbound⟩ := tree_returns loop_named [⟨"site"⟩, ⟨"site/out/x"⟩]
    ⟨"site/out"⟩ ⟨oneTool, default⟩
  exact ⟨⟨loop_named, loop_ready, loop_destined, hfree, by decide +kernel⟩,
    ⟨entered, hreturns, (hbound _ _ loop_ready loop_destined hfree).1⟩, by decide +kernel,
    by decide +kernel⟩

end Export

end AssetServer
