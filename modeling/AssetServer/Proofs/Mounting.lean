import AssetServer.Proofs.Correspondence
import AssetServer.Proofs.Meaning

/-!
# Paths below a mount point

`RequestPath.below?` compares two clean texts, and yet it counts whole names: a path lies below a
mount point exactly if the names of the mount point come first among its own.

- `RequestPath.names` are the names between the slashes of a text; `names_clean` says that those of
  a clean form are where the moves lead, so `clean_eq_iff`: they determine the clean form.
- `RequestPath.clean_append_congr`: what follows a slash leads on from the place that was reached,
  however that was spelled.
- `RequestPath.below?_whole_names`: the rest of a path below a mount point, in terms of names.
-/

namespace AssetServer.RequestPath

variable {mount path rel u v : String}

/-! ## §1 The names of a clean form -/

/-- The names between the slashes of a path, as it is spelled. -/
def names (path : String) : List String :=
  (Text.parts '/' path).filter (· != "")

theorem isPart_of_mem_segments {cs : List Char} :
    ∀ n ∈ (segments cs).map String.ofList, Tree.IsPart n := by
  intro n hn
  obtain ⟨name, hname, rfl⟩ := List.mem_map.mp hn
  exact isPart_of_segments hname

theorem map_toList_segments (cs : List Char) :
    ((segments cs).map String.ofList).map String.toList = segments cs := by
  simp [Function.comp_def]

theorem toList_slash_append (text : String) : ("/" ++ text).toList = '/' :: text.toList := by
  rw [String.toList_append]
  rfl

theorem parts_slash_append (text : String) :
    Text.parts '/' ("/" ++ text) = "" :: Text.parts '/' text := by
  unfold Text.parts
  rw [toList_slash_append]
  rfl

/-- A clean form is a slash and the names that the moves lead to. -/
theorem clean_eq_intercalate (path : String) :
    clean path = "/" ++ "/".intercalate ((segments path.toList).map String.ofList) := by
  rw [← String.toList_inj, String.toList_append, Path.toList_intercalate, map_toList_segments]
  unfold clean
  rw [String.toList_ofList]
  rfl

/-- A clean form leads where the path leads. -/
theorem segments_clean (path : String) : segments (clean path).toList = segments path.toList := by
  rw [clean_eq_intercalate, toList_slash_append, segments_names isPart_of_mem_segments,
    map_toList_segments]

/-- The names of a clean form are those that the moves lead to. -/
theorem names_clean (path : String) :
    names (clean path) = (segments path.toList).map String.ofList := by
  unfold names
  rw [clean_eq_intercalate, parts_slash_append, List.filter_cons_of_neg (by simp)]
  by_cases hnil : (segments path.toList).map String.ofList = []
  · rw [hnil]
    rfl
  · rw [Path.parts_intercalate hnil isPart_of_mem_segments, List.filter_eq_self]
    intro n hn
    simpa using fun hempty => (isPart_of_mem_segments n hn).step (.inl hempty)

theorem isPart_of_mem_names {n : String} (hn : n ∈ names (clean path)) : Tree.IsPart n := by
  rw [names_clean] at hn
  exact isPart_of_mem_segments n hn

theorem isPart_of_names_append {front rest : List String}
    (hnames : names (clean path) = front ++ rest) : ∀ n ∈ rest, Tree.IsPart n := by
  intro n hn
  have hmem : n ∈ names (clean path) := by
    rw [hnames]
    exact List.mem_append_right _ hn
  exact isPart_of_mem_names hmem

/-- The names of a clean form determine it. -/
theorem clean_eq_iff : clean u = clean v ↔ names (clean u) = names (clean v) := by
  constructor
  · intro hclean
    rw [hclean]
  · intro hnames
    rw [names_clean, names_clean] at hnames
    rw [clean_eq_intercalate, clean_eq_intercalate v, hnames]

/-- A clean form is clean already. -/
theorem clean_clean (path : String) : clean (clean path) = clean path := by
  rw [clean_eq_iff, names_clean, segments_clean, ← names_clean]

/-! ## §2 Paths that go on -/

/-- What follows a slash leads on from the place that was reached. -/
theorem segments_append (u rel : List Char) : segments (u ++ '/' :: rel) =
    ((Text.split '/' rel).foldl move (segments u).reverse).reverse := by
  unfold segments
  rw [Text.split_append, List.foldl_append, List.reverse_reverse]

theorem toList_append_slash (u rel : String) :
    (u ++ "/" ++ rel).toList = u.toList ++ '/' :: rel.toList := by
  rw [String.toList_append, String.toList_append, List.append_assoc]
  rfl

/-- It does not matter how the place that a path goes on from is spelled. -/
theorem clean_append_congr (hclean : clean u = clean v) (rel : String) :
    clean (u ++ "/" ++ rel) = clean (v ++ "/" ++ rel) := by
  have hplace : segments u.toList = segments v.toList := by
    rw [← segments_clean u, hclean, segments_clean]
  have hsame : segments (u ++ "/" ++ rel).toList = segments (v ++ "/" ++ rel).toList := by
    rw [toList_append_slash, toList_append_slash, segments_append, segments_append, hplace]
  rw [clean_eq_intercalate, hsame, ← clean_eq_intercalate]

/-- A clean relative path adds its parts to the names of what it follows. -/
theorem names_clean_append (hrel : Path.Clean ⟨rel⟩) (mount : String) :
    names (clean (mount ++ "/" ++ rel)) = names (clean mount) ++ Text.parts '/' rel := by
  have hback : ((Text.parts '/' rel).map String.toList).map String.ofList = Text.parts '/' rel := by
    simp [Function.comp_def]
  rw [names_clean, names_clean, toList_append_slash, segments_of_clean hrel, List.map_append, hback]

/-! ## §3 Below a mount point -/

/-- A path that is found below a mount point is the mount point, followed by what is left. -/
theorem clean_of_below? (h : below? mount path = some rel) :
    clean (mount ++ "/" ++ rel) = clean path := by
  unfold below? at h
  simp only at h
  split_ifs at h with hroot hsame
  · -- at the root all of the path is left, but for the slash at its front
    have hempty : clean mount = clean "" := by
      rw [← String.toList_inj, hroot]
      decide
    have hwhole : "" ++ "/" ++ rel = clean path := by
      rw [← Option.some.inj h, ← String.toList_inj, toList_append_slash, String.toList_ofList,
        clean_eq_intercalate path, toList_slash_append, List.drop_one, List.tail_cons,
        String.ofList_toList]
      rfl
    rw [clean_append_congr hempty, hwhole, clean_clean]
  · rw [← Option.some.inj h, String.append_empty, clean_slash, ← String.toList_inj]
    exact hsame.symm
  · obtain ⟨rest, hrest, rfl⟩ := Option.map_eq_some_iff.mp h
    obtain ⟨more, hmount, hslash⟩ := Option.bind_eq_some_iff.mp hrest
    have hwhole : clean mount ++ "/" ++ String.ofList rest = clean path := by
      rw [← String.toList_inj, toList_append_slash, String.toList_ofList, strip?_eq_some hmount,
        strip?_eq_some hslash]
      rfl
    rw [← clean_append_congr (clean_clean mount), hwhole, clean_clean]

/-- At a mount point itself nothing is left. -/
theorem below?_self (h : clean path = clean mount) : below? mount path = some "" := by
  unfold below?
  simp only [h, if_true]
  split_ifs with hroot
  · rw [hroot]
    rfl
  · rfl

/-- The rest of a path below a mount point is made of the names that follow those of the mount
    point. -/
theorem below?_eq_some_iff : below? mount path = some rel ↔
    ∃ rest, names (clean path) = names (clean mount) ++ rest ∧ rel = "/".intercalate rest := by
  constructor
  · intro h
    have hpath := clean_of_below? h
    rcases below?_clean h with rfl | hrel
    · refine ⟨[], ?_, rfl⟩
      rw [← hpath, String.append_empty, clean_slash, List.append_nil]
    · refine ⟨Text.parts '/' rel, ?_, (Path.intercalate_parts rel).symm⟩
      rw [← hpath, names_clean_append hrel]
  · rintro ⟨rest, hnames, rfl⟩
    by_cases hnil : rest = []
    · subst hnil
      rw [List.append_nil, ← clean_eq_iff] at hnames
      exact below?_self hnames
    · have hparts : ∀ n ∈ rest, Tree.IsPart n := isPart_of_names_append hnames
      have hrel := Path.clean_intercalate hnil hparts
      -- the path leads where the mount point with these names leads
      have hclean : clean path = clean (mount ++ "/" ++ "/".intercalate rest) := by
        rw [clean_eq_iff, names_clean_append hrel, Path.parts_intercalate hnil hparts, hnames]
      rw [below?_congr_clean hclean, below?_append hrel]

/-- Names with a slash between each two have no slash at their front. -/
theorem head?_intercalate {rest : List String} (hparts : ∀ n ∈ rest, Tree.IsPart n) :
    ("/".intercalate rest).toList.head? ≠ some '/' :=
  Path.head?_intercalate fun n hn =>
    ⟨fun hempty => (hparts n hn).step (.inl hempty), (hparts n hn).no_slash⟩

/-- A mount point counts whole names. A path is below it exactly if the names of its clean form
    start with those of the mount point's clean form; what is left is the other names with a slash
    between each two, without a slash at either end, and leads from the mount point to where the
    path leads. Any other path is not below it: one that shares a part of a name, or that climbs out
    of the mount point. -/
theorem below?_whole_names (mount path : String) :
    (∀ rel, below? mount path = some rel ↔
      ∃ rest, names (clean path) = names (clean mount) ++ rest ∧ rel = "/".intercalate rest) ∧
    (below? mount path = none ↔ ¬ names (clean mount) <+: names (clean path)) ∧
    ∀ rel, below? mount path = some rel →
      rel.toList.head? ≠ some '/' ∧ rel.toList.getLast? ≠ some '/' ∧
        clean (mount ++ "/" ++ rel) = clean path := by
  refine ⟨fun rel => below?_eq_some_iff, ?_, fun rel h => ?_⟩
  · rw [Option.eq_none_iff_forall_ne_some]
    constructor
    · rintro hnone ⟨rest, hrest⟩
      exact hnone _ (below?_eq_some_iff.mpr ⟨rest, hrest.symm, rfl⟩)
    · intro hapart rel h
      obtain ⟨rest, hrest, -⟩ := below?_eq_some_iff.mp h
      exact hapart ⟨rest, hrest.symm⟩
  · have hpath := clean_of_below? h
    obtain ⟨rest, hrest, rfl⟩ := below?_eq_some_iff.mp h
    have hparts : ∀ n ∈ rest, Tree.IsPart n := isPart_of_names_append hrest
    exact ⟨head?_intercalate hparts, Path.getLast?_intercalate hparts, hpath⟩

theorem static_whole_names :
    clean ("/static/" ++ "/" ++ "js/app.js") = clean "//static/x/../js/./app.js" ∧
      below? "/static" "/staticky/a.js" = none ∧ below? "/static" "/static/../a.js" = none := by
  refine ⟨((below?_whole_names "/static/" "//static/x/../js/./app.js").2.2 "js/app.js" ?_).2.2,
    (below?_whole_names _ _).2.1.mpr ?_, (below?_whole_names _ _).2.1.mpr ?_⟩
  · decide +kernel
  · decide +kernel
  · decide +kernel

end AssetServer.RequestPath
