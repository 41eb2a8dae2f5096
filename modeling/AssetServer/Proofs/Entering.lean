import AssetServer.Proofs.Named
import AssetServer.Proofs.Walking

/-!
# Walks without a limit

`Export.walk` carries how many levels of directories it may still go down. Here the same walk is a
relation between where it begins and what it comes to, and nothing limits it: `Export.Wanders` has a
derivation exactly if the walk ends. It also keeps the directories that were entered, in order.

- `Wanders.unique`: what a walk comes to, and what it enters on the way, is determined.
- `walk_ends`: every walk ends, and `Export.walk` gives what it comes to. The path of a directory
  gets longer with every level, and one that is too long cannot be listed; this needs good names,
  and nothing about links or about where files are written.
- `exists_returns`: an export of any roots into any destination returns.
-/

namespace AssetServer.Export

variable {x : Export} {root : Path} {names : List String} {n : String}
  {list : List (String × Bool)} {p p' p'' p₁ : Pass} {result result' : Except Failure Unit}

/-! ## §1 Walks -/

/-- What an export does for an entry that is no directory. -/
def leaf (x : Export) (root : Path) (names : List String) : ExportStep Unit := do
  if ← ExportStep.look fun h => h.tree.isFile h.directory (descend root names) then
    x.file root names

theorem entry_leaf (x : Export) (root : Path) (room : Nat) (names : List String) (n : String) :
    x.entry root room names (n, false) = x.leaf root (names ++ [n]) := rfl

/-- The path for names leads to the destination. -/
def AtDestination (x : Export) (root : Path) (names : List String) (p : Pass) : Prop :=
  p.host.tree.canonical p.host.directory (descend root names) = .ok x.location

instance : Decidable (x.AtDestination root names p) := by
  unfold AtDestination
  infer_instance

theorem entry_passed {room : Nat} (hplace : x.AtDestination root (names ++ [n]) p) :
    runFrom (x.entry root room names (n, true)) p = (.ok (), p) := by
  rw [runFrom_entry_directory]
  exact if_pos hplace

theorem entry_entered {room : Nat} (hplace : ¬ x.AtDestination root (names ++ [n]) p) :
    runFrom (x.entry root room names (n, true)) p =
      runFrom (x.walk root room (names ++ [n])) p := by
  rw [runFrom_entry_directory]
  exact if_neg hplace

/-- What a walk has before it. -/
inductive Leg where
  /-- The directory that names lead to. -/
  | enter (names : List String)
  /-- What is left of the listing of that directory. -/
  | through (names : List String) (list : List (String × Bool))

/-- The walk of a leg ends: what it enters on the way, what it comes to, and what it leaves. -/
inductive Wanders (x : Export) (root : Path) :
    Leg → Pass → List (List String) → Except Failure Unit → Pass → Prop where
  | unlisted {names : List String} {p : Pass} {e : Failure}
      (hlist : runFrom (entries (descend root names)) p = (.error e, p)) :
      Wanders x root (.enter names) p [] (.error e) p
  | listed {names : List String} {list : List (String × Bool)} {p p' : Pass}
      {entered : List (List String)} {result : Except Failure Unit}
      (hlist : runFrom (entries (descend root names)) p = (.ok list, p))
      (hrest : Wanders x root (.through names list) p entered result p') :
      Wanders x root (.enter names) p (names :: entered) result p'
  | done {names : List String} {p : Pass} : Wanders x root (.through names []) p [] (.ok ()) p
  | destination {names : List String} {n : String} {list : List (String × Bool)} {p p' : Pass}
      {entered : List (List String)} {result : Except Failure Unit}
      (hplace : x.AtDestination root (names ++ [n]) p)
      (hrest : Wanders x root (.through names list) p entered result p') :
      Wanders x root (.through names ((n, true) :: list)) p entered result p'
  | directory {names : List String} {n : String} {list : List (String × Bool)} {p p₁ p' : Pass}
      {inner entered : List (List String)} {result : Except Failure Unit}
      (hplace : ¬ x.AtDestination root (names ++ [n]) p)
      (hinner : Wanders x root (.enter (names ++ [n])) p inner (.ok ()) p₁)
      (hrest : Wanders x root (.through names list) p₁ entered result p') :
      Wanders x root (.through names ((n, true) :: list)) p (inner ++ entered) result p'
  | directoryFails {names : List String} {n : String} {list : List (String × Bool)} {p p' : Pass}
      {inner : List (List String)} {e : Failure} (hplace : ¬ x.AtDestination root (names ++ [n]) p)
      (hinner : Wanders x root (.enter (names ++ [n])) p inner (.error e) p') :
      Wanders x root (.through names ((n, true) :: list)) p inner (.error e) p'
  | leaf {names : List String} {n : String} {list : List (String × Bool)} {p p₁ p' : Pass}
      {entered : List (List String)} {result : Except Failure Unit}
      (hleaf : runFrom (x.leaf root (names ++ [n])) p = (.ok (), p₁))
      (hrest : Wanders x root (.through names list) p₁ entered result p') :
      Wanders x root (.through names ((n, false) :: list)) p entered result p'
  | leafFails {names : List String} {n : String} {list : List (String × Bool)} {p p' : Pass}
      {e : Failure} (hleaf : runFrom (x.leaf root (names ++ [n])) p = (.error e, p')) :
      Wanders x root (.through names ((n, false) :: list)) p [] (.error e) p'

/-- A walk comes to one thing, and enters the same directories. -/
theorem Wanders.unique {leg : Leg} {entered entered' : List (List String)}
    (h : Wanders x root leg p entered result p') (h' : Wanders x root leg p entered' result' p'') :
    entered = entered' ∧ result = result' ∧ p' = p'' := by
  induction h generalizing entered' result' p'' with
  -- what is listed and written is fixed by the host, so the same rule applies to both
  | unlisted hlist =>
    cases h' with
    | unlisted hlist' =>
      rw [hlist] at hlist'
      cases hlist'
      exact ⟨rfl, rfl, rfl⟩
    | listed hlist' hrest' =>
      rw [hlist] at hlist'
      cases hlist'
  | listed hlist hrest ih =>
    cases h' with
    | unlisted hlist' =>
      rw [hlist] at hlist'
      cases hlist'
    | listed hlist' hrest' =>
      rw [hlist] at hlist'
      cases hlist'
      obtain ⟨rfl, rfl, rfl⟩ := ih hrest'
      exact ⟨rfl, rfl, rfl⟩
  | done =>
    cases h'
    exact ⟨rfl, rfl, rfl⟩
  | destination hplace hrest ih =>
    cases h' with
    | destination hplace' hrest' => exact ih hrest'
    | directory hplace' => exact absurd hplace hplace'
    | directoryFails hplace' => exact absurd hplace hplace'
  | directory hplace hinner hrest ihinner ih =>
    cases h' with
    | destination hplace' => exact absurd hplace' hplace
    | directory hplace' hinner' hrest' =>
      obtain ⟨rfl, -, rfl⟩ := ihinner hinner'
      obtain ⟨rfl, rfl, rfl⟩ := ih hrest'
      exact ⟨rfl, rfl, rfl⟩
    | directoryFails hplace' hinner' => cases (ihinner hinner').2.1
  | directoryFails hplace hinner ih =>
    cases h' with
    | destination hplace' => exact absurd hplace' hplace
    | directory hplace' hinner' => cases (ih hinner').2.1
    | directoryFails hplace' hinner' => exact ih hinner'
  | leaf hleaf hrest ih =>
    cases h' with
    | leaf hleaf' hrest' =>
      rw [hleaf] at hleaf'
      cases hleaf'
      exact ih hrest'
    | leafFails hleaf' =>
      rw [hleaf] at hleaf'
      cases hleaf'
  | leafFails hleaf =>
    cases h' with
    | leaf hleaf' =>
      rw [hleaf] at hleaf'
      cases hleaf'
    | leafFails hleaf' =>
      rw [hleaf] at hleaf'
      cases hleaf'
      exact ⟨rfl, rfl, rfl⟩

/-! ## §2 Every walk ends -/

theorem leaf_named (hnamed : p.host.Named) (hrun : runFrom (x.leaf root names) p = (result, p')) :
    p'.host.Named := by
  unfold leaf at hrun
  rw [runFrom_bind, runFrom_look] at hrun
  simp only at hrun
  split at hrun
  · have hfile := file_named x root names p hnamed
    rwa [hrun] at hfile
  · cases hrun
    exact hnamed

/-- The root can be spelled in a path. -/
structure Spelled (root : Path) : Prop where
  nonempty : root.text ≠ ""
  no_nul : '\x00' ∉ root.text.toList

/-- The walk of a directory ends as `Export.walk` does, and leaves good names. -/
def Concludes (x : Export) (root : Path) (leg : Leg) (p p' : Pass)
    (result : Except Failure Unit) : Prop :=
  (∃ entered, Wanders x root leg p entered result p') ∧ p'.host.Named

variable {room : Nat}

/-- A listing is gone through to its end, if the walk ends in each directory below. -/
theorem through_ends
    (hwalk : ∀ {m p p' result}, IsName m → p.host.Named →
      runFrom (x.walk root room (names ++ [m])) p = (result, p') →
      x.Concludes root (.enter (names ++ [m])) p p' result)
    (hlist : ∀ entry ∈ list, IsName entry.1) (hnamed : p.host.Named)
    (hrun : runFrom (list.forM (x.entry root room names)) p = (result, p')) :
    x.Concludes root (.through names list) p p' result := by
  induction list generalizing p with
  | nil =>
    rw [List.forM_eq_forM, List.forM_nil, runFrom_pure, Prod.mk.injEq] at hrun
    obtain ⟨rfl, rfl⟩ := hrun
    exact ⟨⟨[], .done⟩, hnamed⟩
  | cons entry list ih =>
    obtain ⟨n, isDirectory⟩ := entry
    have hn : IsName n := hlist (n, isDirectory) (by simp)
    have hrestlist : ∀ entry ∈ list, IsName entry.1 :=
      fun entry hentry => hlist entry (List.mem_cons_of_mem _ hentry)
    rw [List.forM_eq_forM, List.forM_cons, runFrom_bind] at hrun
    cases isDirectory with
    -- the loop goes on after an entry unless that has failed
    | false =>
      rcases hleaf : runFrom (x.leaf root (names ++ [n])) p with ⟨first, p₁⟩
      rw [entry_leaf, hleaf] at hrun
      have hnamed₁ := leaf_named hnamed hleaf
      cases first with
      | error e =>
        cases hrun
        exact ⟨⟨[], .leafFails hleaf⟩, hnamed₁⟩
      | ok =>
        obtain ⟨⟨entered, hrest⟩, hnamed'⟩ := ih hrestlist hnamed₁ hrun
        exact ⟨⟨entered, .leaf hleaf hrest⟩, hnamed'⟩
    | true =>
      by_cases hplace : x.AtDestination root (names ++ [n]) p
      · rw [entry_passed hplace] at hrun
        obtain ⟨⟨entered, hrest⟩, hnamed'⟩ := ih hrestlist hnamed hrun
        exact ⟨⟨entered, .destination hplace hrest⟩, hnamed'⟩
      · rw [entry_entered hplace] at hrun
        rcases hdown : runFrom (x.walk root room (names ++ [n])) p with ⟨first, p₁⟩
        rw [hdown] at hrun
        obtain ⟨⟨inner, hinner⟩, hnamed₁⟩ := hwalk hn hnamed hdown
        cases first with
        | error e =>
          cases hrun
          exact ⟨⟨inner, .directoryFails hplace hinner⟩, hnamed₁⟩
        | ok =>
          obtain ⟨⟨entered, hrest⟩, hnamed'⟩ := ih hrestlist hnamed₁ hrun
          exact ⟨⟨inner ++ entered, .directory hplace hinner hrest⟩, hnamed'⟩

/-- The walk ends in every directory, and comes to what `Export.walk` gives. -/
theorem walk_ends (hnamed : p.host.Named) (hnames : ∀ m ∈ names, IsName m)
    (hroot : names ≠ [] → Spelled root) (hroom : maxLevels ≤ room + names.length)
    (hrun : runFrom (x.walk root room names) p = (result, p')) :
    x.Concludes root (.enter names) p p' result := by
  -- on the levels that are left; with the names so far they are more than a path can hold
  induction room generalizing names p p' result with
  | zero =>
    -- no levels are left, so the path is too long for a listing
    have hlong : ¬ Tree.Fits (descend root names) := by
      intro hfits
      have hlength : names.length ≤ Tree.maxPathBytes := (length_le_size hnames).trans hfits
      unfold maxLevels at hroom
      omega
    have hne : names ≠ [] := by
      rintro rfl
      simp [maxLevels] at hroom
    obtain ⟨hempty, hnul⟩ := hroot hne
    obtain ⟨hempty', hnul', -⟩ := Path.descend_keeps hempty hnul hnames
    cases hrun
    refine ⟨⟨[], .unlisted ?_⟩, hnamed⟩
    exact entries_error_iff.mpr
      ⟨rfl, _, Tree.list_of_stat_error (stat_of_long hnul' hempty' hlong), rfl⟩
  | succ room ih =>
    rw [walk_succ, runFrom_bind] at hrun
    rcases hlist : runFrom (entries (descend root names)) p with ⟨listed, p₁⟩
    rw [hlist] at hrun
    cases listed with
    | error e =>
      obtain ⟨rfl, -⟩ := entries_error_iff.mp hlist
      cases hrun
      exact ⟨⟨[], .unlisted hlist⟩, hnamed⟩
    | ok list =>
      obtain ⟨rfl, loc, hstat, hentries⟩ := entries_ok_iff.mp hlist
      have hspelled : Spelled root := by
        by_cases hnil : names = []
        · subst hnil
          obtain ⟨hnul, hempty, -, -⟩ := Tree.find_ok (Tree.stat_ok_iff.mp hstat)
          exact ⟨hempty, hnul⟩
        · exact hroot hnil
      have hgood : ∀ entry ∈ list, IsName entry.1 := by
        intro entry hentry
        rw [hentries] at hentry
        obtain ⟨m, hm, rfl⟩ := List.mem_map.mp hentry
        obtain ⟨e, he⟩ := Tree.mem_names_iff.mp hm
        exact hnamed.tree.name he
      -- each directory below has one more name, and one level less
      obtain ⟨⟨entered, hrest⟩, hnamed'⟩ := through_ends (fun {m p p' result} hm hp hdown =>
        ih hp (fun k hk => (List.mem_append.mp hk).elim (hnames k) fun hk =>
          List.mem_singleton.mp hk ▸ hm) (fun _ => hspelled)
          (by rw [List.length_append, List.length_singleton]; omega) hdown) hgood hnamed hrun
      exact ⟨⟨names :: entered, .listed hlist hrest⟩, hnamed'⟩

/-! ## §3 Every export returns -/

/-- The walks of some roots end, one after another up to the first that fails: the directories that
    are entered, each by its root and the names that lead to it, and what the walks come to. -/
inductive Rounds (x : Export) : List Path → Pass → List (Path × List String) →
    Except Failure Unit → Pass → Prop where
  | done {p : Pass} : Rounds x [] p [] (.ok ()) p
  | root {root : Path} {rest : List Path} {p p₁ p' : Pass} {inner : List (List String)}
      {entered : List (Path × List String)} {result : Except Failure Unit}
      (hwalk : Wanders x root (.enter []) { p with progress := p.progress ++ [.root root] } inner
        (.ok ()) p₁)
      (hrest : Rounds x rest p₁ entered result p') :
      Rounds x (root :: rest) p (inner.map (Prod.mk root) ++ entered) result p'
  | rootFails {root : Path} {rest : List Path} {p p' : Pass} {inner : List (List String)}
      {e : Failure}
      (hwalk : Wanders x root (.enter []) { p with progress := p.progress ++ [.root root] } inner
        (.error e) p') :
      Rounds x (root :: rest) p (inner.map (Prod.mk root)) (.error e) p'

/-- An export returns: the directories that it enters, and what it gives. -/
inductive Returns (roots : List Path) (dest : Path) (compiler : Compiler) (h : Host) :
    List (Path × List String) → Except Failure Report × List Progress × Host → Prop where
  | unmade {e : Failure} {k : Host} (hdest : runFrom (makeDestination dest) h = (.error e, k)) :
      Returns roots dest compiler h [] (.error e, [], k)
  | made {D : Location} {k : Host} {entered : List (Path × List String)}
      {result : Except Failure Unit} {p : Pass}
      (hdest : runFrom (makeDestination dest) h = (.ok D, k))
      (hrounds : Rounds ⟨compiler, dest, D⟩ roots ⟨k, default, []⟩ entered result p) :
      Returns roots dest compiler h entered (outcome p result)

variable {roots : List Path} {dest : Path} {compiler : Compiler} {h : Host}
  {entered entered' : List (Path × List String)}

theorem Rounds.unique (h : Rounds x roots p entered result p')
    (h' : Rounds x roots p entered' result' p'') :
    entered = entered' ∧ result = result' ∧ p' = p'' := by
  induction h generalizing entered' result' p'' with
  | done =>
    cases h'
    exact ⟨rfl, rfl, rfl⟩
  | root hwalk hrest ih =>
    cases h' with
    | root hwalk' hrest' =>
      obtain ⟨rfl, -, rfl⟩ := hwalk.unique hwalk'
      obtain ⟨rfl, rfl, rfl⟩ := ih hrest'
      exact ⟨rfl, rfl, rfl⟩
    | rootFails hwalk' => cases (hwalk.unique hwalk').2.1
  | rootFails hwalk =>
    cases h' with
    | root hwalk' => cases (hwalk.unique hwalk').2.1
    | rootFails hwalk' =>
      obtain ⟨rfl, herror, rfl⟩ := hwalk.unique hwalk'
      exact ⟨rfl, herror, rfl⟩

/-- An export returns in one way only. -/
theorem Returns.unique {given given' : Except Failure Report × List Progress × Host}
    (hreturns : Returns roots dest compiler h entered given)
    (hreturns' : Returns roots dest compiler h entered' given') :
    entered = entered' ∧ given = given' := by
  cases hreturns with
  | unmade hdest =>
    cases hreturns' with
    | unmade hdest' =>
      rw [hdest] at hdest'
      cases hdest'
      exact ⟨rfl, rfl⟩
    | made hdest' =>
      rw [hdest] at hdest'
      cases hdest'
  | made hdest hrounds =>
    cases hreturns' with
    | unmade hdest' =>
      rw [hdest] at hdest'
      cases hdest'
    | made hdest' hrounds' =>
      rw [hdest] at hdest'
      cases hdest'
      obtain ⟨rfl, rfl, rfl⟩ := hrounds.unique hrounds'
      exact ⟨rfl, rfl⟩

theorem exists_rounds (hnamed : p.host.Named)
    (hrun : runFrom (roots.forM x.root) p = (result, p')) :
    ∃ entered, Rounds x roots p entered result p' := by
  induction roots generalizing p with
  | nil =>
    rw [List.forM_eq_forM, List.forM_nil, runFrom_pure, Prod.mk.injEq] at hrun
    obtain ⟨rfl, rfl⟩ := hrun
    exact ⟨[], .done⟩
  | cons root rest ih =>
    rw [List.forM_eq_forM, List.forM_cons, runFrom_bind] at hrun
    unfold Export.root at hrun
    rw [runFrom_bind, runFrom_tell] at hrun
    simp only at hrun
    -- telling of a root changes no host, so its walk starts on the same
    rcases hwalk : runFrom (x.walk root maxLevels [])
      { p with progress := p.progress ++ [.root root] } with ⟨first, p₁⟩
    rw [hwalk] at hrun
    obtain ⟨⟨inner, hinner⟩, hnamed₁⟩ := walk_ends
      (show ({ p with progress := p.progress ++ [.root root] } : Pass).host.Named from hnamed)
      (by simp) (fun hne => absurd rfl hne) (Nat.le_add_right _ _) hwalk
    cases first with
    | error e =>
      cases hrun
      exact ⟨_, .rootFails hinner⟩
    | ok =>
      obtain ⟨entered, hrest⟩ := ih hnamed₁ hrun
      exact ⟨_, .root hinner hrest⟩

/-- Every export returns, and gives what `Export.tree` does. -/
theorem exists_returns (hnamed : h.Named) (roots : List Path) (dest : Path) (compiler : Compiler) :
    ∃ entered, Returns roots dest compiler h entered (Export.tree roots dest compiler h) := by
  rcases hdest : runFrom (makeDestination dest) h with ⟨found, made⟩
  cases found with
  | error e =>
    rw [tree_unmade roots compiler hdest]
    exact ⟨[], .unmade hdest⟩
  | ok D =>
    rcases hloop : runFrom (roots.forM (⟨compiler, dest, D⟩ : Export).root) ⟨made, default, []⟩ with
      ⟨result, p⟩
    have hmade : made.Named := makeDestination_named hnamed hdest
    obtain ⟨entered, hrounds⟩ :=
      exists_rounds (show (⟨made, default, []⟩ : Pass).host.Named from hmade) hloop
    rw [tree_made hdest hloop]
    exact ⟨entered, .made hdest hrounds⟩

end AssetServer.Export
