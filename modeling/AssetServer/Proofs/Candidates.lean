import AssetServer.Proofs.Correspondence
import Mathlib.Data.Prod.Lex
import Mathlib.Order.Bounds.Basic

/-!
# The best source in place of an output

If nothing is at a requested path that names a script or a stylesheet, the kinds of source that
compile into it are tried in order, and all roots for each of them. So what is found is the least
place in the order of kinds and then of roots.

A directory with an index ends the search of its kind, although it is no source: it shadows the
files of the same name under later roots.

- `Resolve.Stands`, `Resolve.Indexed`: what a root has at a relative path.
- `Resolve.standing`, `Resolve.visible`: where sources are, and which of them are in no shadow.
- `Resolve.candidate?_eq_some_iff`: the search for one kind.
- `Resolve.request?_least`: the search as a whole, and when the shadows make no difference.
-/

namespace AssetServer.Resolve

variable {h : Host} {roots : List Path} {root p : Path} {rel stem suffix : String} {out : Output}
  {k : Kind}

/-! ## §1 What a root has -/

/-- Something that is no directory is at a relative path under a root. -/
def Stands (h : Host) (root : Path) (rel : String) : Prop :=
  ∃ loc e, h.tree.stat h.directory (joinRelative root rel) = .ok (loc, e) ∧ e ≠ .directory

/-- A directory with an index is at a relative path under a root. -/
def Indexed (h : Host) (root : Path) (rel : String) : Prop :=
  (∃ loc, h.tree.stat h.directory (joinRelative root rel) = .ok (loc, .directory)) ∧
    h.tree.isFile h.directory ((joinRelative root rel).join "index.html") = true

/-- What is found at a relative path under a root is what stands there, or the index there. -/
theorem hit?_cases_iff (h : Host) (root : Path) (rel : String) :
    (hit? h root rel = none ∧ ¬ Stands h root rel ∧ ¬ Indexed h root rel) ∨
      (hit? h root rel = some (joinRelative root rel, .file) ∧ Stands h root rel ∧
        ¬ Indexed h root rel) ∨
      (hit? h root rel = some ((joinRelative root rel).join "index.html", .directory) ∧
        ¬ Stands h root rel ∧ Indexed h root rel) := by
  unfold hit? Stands Indexed
  dsimp only
  generalize (joinRelative root rel).join "index.html" = index
  cases h.tree.stat h.directory (joinRelative root rel) with
  | error e => simp
  | ok found =>
    obtain ⟨loc, e⟩ := found
    cases e with
    | directory =>
      cases h.tree.isFile h.directory index with
      | true => simp
      | false => simp
    | file f => simp
    | link target => simp

theorem hit?_eq_none_iff : hit? h root rel = none ↔ ¬ Stands h root rel ∧ ¬ Indexed h root rel := by
  rcases hit?_cases_iff h root rel with ⟨hhit, hnot⟩ | ⟨hhit, hstands, -⟩ | ⟨hhit, -, hindexed⟩
  · simp [hhit, hnot]
  · simp [hhit, hstands]
  · simp [hhit, hindexed]

theorem hit?_eq_file_iff : hit? h root rel = some (p, .file) ↔
    Stands h root rel ∧ p = joinRelative root rel := by
  rcases hit?_cases_iff h root rel with ⟨hhit, hnot⟩ | ⟨hhit, hstands, -⟩ | ⟨hhit, hnot, -⟩
  · simp [hhit, hnot]
  · simp [hhit, hstands, eq_comm]
  · simp [hhit, hnot]

/-! ## §2 The search for one name -/

/-- The first result of a search, by its place in the list. -/
theorem findSome?_eq_some_iff_place {α β : Type} {f : α → Option β} {xs : List α} {b : β} :
    xs.findSome? f = some b ↔ ∃ (i : Nat) (x : α), xs[i]? = some x ∧ f x = some b ∧
      ∀ j < i, ∀ y, xs[j]? = some y → f y = none := by
  rw [List.findSome?_eq_some_iff]
  constructor
  · rintro ⟨before, x, after, rfl, hx, hbefore⟩
    refine ⟨before.length, x, by simp, hx, fun j hj y hy => hbefore y ?_⟩
    rw [List.getElem?_append_left hj] at hy
    exact List.mem_of_getElem? hy
  · rintro ⟨i, x, hi, hx, hbefore⟩
    obtain ⟨hlt, rfl⟩ := List.getElem?_eq_some_iff.mp hi
    refine ⟨xs.take i, xs[i], xs.drop (i + 1), by simp, hx, fun y hy => ?_⟩
    obtain ⟨j, hj⟩ := List.mem_iff_getElem?.mp hy
    rw [List.getElem?_take] at hj
    split at hj
    · exact hbefore j ‹_› y hj
    · cases hj

/-- A root before the one at the place `j` has a directory with an index at a relative path. -/
def Shadowed (h : Host) (roots : List Path) (rel : String) (j : Nat) : Prop :=
  ∃ i < j, ∃ root, roots[i]? = some root ∧ Indexed h root rel

/-- The file that is found by a name is the first that stands there, if it is in no shadow. -/
theorem find?_eq_file_iff : find? h roots rel = some (p, .file) ↔
    ∃ j root, roots[j]? = some root ∧ Stands h root rel ∧ ¬ Shadowed h roots rel j ∧
      (∀ i < j, ∀ r, roots[i]? = some r → ¬ Stands h r rel) ∧ p = joinRelative root rel := by
  unfold find?
  rw [findSome?_eq_some_iff_place]
  simp only [hit?_eq_file_iff, hit?_eq_none_iff]
  constructor
  · rintro ⟨j, root, hroot, ⟨hstands, rfl⟩, hbefore⟩
    refine ⟨j, root, hroot, hstands, ?_, fun i hi r hr => (hbefore i hi r hr).1, rfl⟩
    rintro ⟨i, hi, r, hr, hindexed⟩
    exact (hbefore i hi r hr).2 hindexed
  · rintro ⟨j, root, hroot, hstands, hshadow, hfirst, rfl⟩
    exact ⟨j, root, hroot, ⟨hstands, rfl⟩, fun i hi r hr =>
      ⟨hfirst i hi r hr, fun hindexed => hshadow ⟨i, hi, r, hr, hindexed⟩⟩⟩

/-- If a file stands somewhere in no shadow, then some file is found. -/
theorem exists_find?_of_stands {j : Nat} (hroot : roots[j]? = some root)
    (hstands : Stands h root rel) (hshadow : ¬ Shadowed h roots rel j) :
    ∃ p, find? h roots rel = some (p, .file) := by
  classical
  have hsome : ∃ i r, roots[i]? = some r ∧ Stands h r rel := ⟨j, root, hroot, hstands⟩
  obtain ⟨r, hr, hfirst⟩ := Nat.find_spec hsome
  have hle : Nat.find hsome ≤ j := Nat.find_min' hsome ⟨root, hroot, hstands⟩
  refine ⟨_, find?_eq_file_iff.mpr ⟨Nat.find hsome, r, hr, hfirst, ?_, ?_, rfl⟩⟩
  -- what shadows the first file shadows all later ones
  · rintro ⟨i, hi, r', hr', hindexed⟩
    exact hshadow ⟨i, Nat.lt_of_lt_of_le hi hle, r', hr', hindexed⟩
  · intro i hi r' hr' hstands'
    exact Nat.find_min hsome hi ⟨r', hr', hstands'⟩

/-! ## §3 Places of sources -/

/-- The place of a source: that of its kind among the kinds that compile into an output, and that of
    its root. Kinds come before roots. -/
abbrev Place := Nat ×ₗ Nat

/-- The kind, the ending and the root of a place. -/
structure Place.Names (roots : List Path) (out : Output) (place : Place) (k : Kind)
    (suffix : String) (root : Path) : Prop where
  kind : out.candidates[(ofLex place).1]? = some k
  suffix : k.suffix? = some suffix
  root : roots[(ofLex place).2]? = some root

/-- A place has one kind, one ending and one root. -/
theorem Place.Names.unique {place : Place} {k' : Kind} {suffix' : String} {root' : Path}
    (hnames : place.Names roots out k suffix root)
    (hnames' : place.Names roots out k' suffix' root') :
    k = k' ∧ suffix = suffix' ∧ root = root' := by
  obtain rfl : k = k' := Option.some.inj (hnames.kind.symm.trans hnames'.kind)
  obtain rfl : suffix = suffix' := Option.some.inj (hnames.suffix.symm.trans hnames'.suffix)
  obtain rfl : root = root' := Option.some.inj (hnames.root.symm.trans hnames'.root)
  exact ⟨rfl, rfl, rfl⟩

/-- Where sources stand that compile into the output with a stem. -/
def standing (h : Host) (roots : List Path) (stem : String) (out : Output) : Set Place :=
  {place | ∃ k suffix root, place.Names roots out k suffix root ∧ Stands h root (stem ++ suffix)}

/-- Where sources stand that are in no shadow. -/
def visible (h : Host) (roots : List Path) (stem : String) (out : Output) : Set Place :=
  {place | ∃ k suffix root, place.Names roots out k suffix root ∧ Stands h root (stem ++ suffix) ∧
    ¬ Shadowed h roots (stem ++ suffix) (ofLex place).2}

/-- All sources are visible exactly if none of them is in a shadow. -/
theorem visible_eq_standing_iff : visible h roots stem out = standing h roots stem out ↔
    ∀ (place : Place) (k : Kind) (suffix : String) (root : Path),
      place.Names roots out k suffix root → Stands h root (stem ++ suffix) →
      ¬ Shadowed h roots (stem ++ suffix) (ofLex place).2 := by
  constructor
  · intro hsame place k suffix root hnames hstands
    obtain ⟨k', suffix', root', hnames', -, hshadow⟩ : place ∈ visible h roots stem out := by
      rw [hsame]
      exact ⟨k, suffix, root, hnames, hstands⟩
    obtain ⟨rfl, rfl, rfl⟩ := hnames.unique hnames'
    exact hshadow
  · intro hclear
    ext place
    constructor
    · rintro ⟨k, suffix, root, hnames, hstands, -⟩
      exact ⟨k, suffix, root, hnames, hstands⟩
    · rintro ⟨k, suffix, root, hnames, hstands⟩
      exact ⟨k, suffix, root, hnames, hstands, hclear place k suffix root hnames hstands⟩

theorem exists_suffix_of_candidate {i : Nat} (hk : out.candidates[i]? = some k) :
    ∃ suffix, k.suffix? = some suffix :=
  Kind.exists_suffix_iff_output.mpr ⟨out, Kind.mem_candidates_iff.mp (List.mem_of_getElem? hk)⟩

/-- The search for a kind finds the first of its sources, if that is in no shadow. -/
theorem candidate?_eq_some_iff {target : Target} (hsuffix : k.suffix? = some suffix) :
    candidate? h roots stem k = some target ↔
      ∃ j root, roots[j]? = some root ∧ Stands h root (stem ++ suffix) ∧
        ¬ Shadowed h roots (stem ++ suffix) j ∧
        (∀ i < j, ∀ r, roots[i]? = some r → ¬ Stands h r (stem ++ suffix)) ∧
        target = ⟨k, joinRelative root (stem ++ suffix), .file, false⟩ := by
  rw [candidate?_some_iff]
  constructor
  · rintro ⟨suffix', p, hsuffix', hfind, rfl⟩
    obtain rfl : suffix = suffix' := Option.some.inj (hsuffix.symm.trans hsuffix')
    obtain ⟨j, root, hroot, hstands, hshadow, hfirst, rfl⟩ := find?_eq_file_iff.mp hfind
    exact ⟨j, root, hroot, hstands, hshadow, hfirst, rfl⟩
  · rintro ⟨j, root, hroot, hstands, hshadow, hfirst, rfl⟩
    exact ⟨suffix, _, hsuffix,
      find?_eq_file_iff.mpr ⟨j, root, hroot, hstands, hshadow, hfirst, rfl⟩, rfl⟩

/-- A kind with a visible source is not passed over. -/
theorem candidate?_ne_none {place : Place} (hplace : place ∈ visible h roots stem out)
    (hk : out.candidates[(ofLex place).1]? = some k) : candidate? h roots stem k ≠ none := by
  obtain ⟨k', suffix, root, hnames, hstands, hshadow⟩ := hplace
  obtain rfl : k = k' := Option.some.inj (hk.symm.trans hnames.kind)
  obtain ⟨p, hfind⟩ := exists_find?_of_stands hnames.root hstands hshadow
  obtain ⟨j, root', hsource⟩ := find?_eq_file_iff.mp hfind
  obtain ⟨hroot', hstands', hshadow', hfirst', rfl⟩ := hsource
  have hcandidate := (candidate?_eq_some_iff hnames.suffix).mpr
    ⟨j, root', hroot', hstands', hshadow', hfirst', rfl⟩
  rw [hcandidate]
  exact Option.some_ne_none _

/-! ## §4 The search as a whole -/

theorem lex_le_iff {a b : Place} : a ≤ b ↔
    (ofLex a).1 < (ofLex b).1 ∨ (ofLex a).1 = (ofLex b).1 ∧ (ofLex a).2 ≤ (ofLex b).2 :=
  Prod.Lex.le_iff

/-- The search in place of an output finds the least visible source. -/
theorem derived?_eq_some_iff {target : Target} :
    out.candidates.findSome? (candidate? h roots stem) = some target ↔
      ∃ place k suffix root, IsLeast (visible h roots stem out) place ∧
        place.Names roots out k suffix root ∧
        target = ⟨k, joinRelative root (stem ++ suffix), .file, false⟩ := by
  rw [findSome?_eq_some_iff_place]
  constructor
  · rintro ⟨i, k, hk, hcandidate, hearlier⟩
    obtain ⟨suffix, hsuffix⟩ := exists_suffix_of_candidate hk
    obtain ⟨j, root, hroot, hstands, hshadow, hfirst, rfl⟩ :=
      (candidate?_eq_some_iff hsuffix).mp hcandidate
    refine ⟨toLex (i, j), k, suffix, root, ⟨⟨k, suffix, root, ⟨hk, hsuffix, hroot⟩, hstands,
      hshadow⟩, fun place hplace => lex_le_iff.mpr ?_⟩, ⟨hk, hsuffix, hroot⟩, rfl⟩
    show i < _ ∨ i = _ ∧ j ≤ _
    obtain ⟨k', suffix', root', hnames, hstands', -⟩ := id hplace
    rcases Nat.lt_trichotomy i (ofLex place).1 with hlt | heq | hgt
    · exact .inl hlt
    · -- a source of the same kind stands under no root before the one that was found
      refine .inr ⟨heq, Nat.not_lt.mp fun hj => ?_⟩
      obtain rfl : k = k' := Option.some.inj (hk.symm.trans (heq ▸ hnames.kind))
      obtain rfl : suffix = suffix' := Option.some.inj (hsuffix.symm.trans hnames.suffix)
      exact hfirst _ hj root' hnames.root hstands'
    · -- an earlier kind has been passed over
      exact absurd (hearlier _ hgt k' hnames.kind) (candidate?_ne_none hplace hnames.kind)
  · rintro ⟨place, k, suffix, root, ⟨hplace, hleast⟩, hnames, rfl⟩
    obtain ⟨k', suffix', root', hnames', hstands, hshadow⟩ := id hplace
    obtain ⟨rfl, rfl, rfl⟩ := hnames.unique hnames'
    refine ⟨_, k, hnames.kind, (candidate?_eq_some_iff hnames.suffix).mpr
      ⟨_, root, hnames.root, hstands, hshadow, fun j hj r hr hstands' => ?_, rfl⟩,
      fun i hi k' hk' => ?_⟩
    · -- a source that stands before the least one is in the same shadows as it, that is, in none
      have hearlier : toLex ((ofLex place).1, j) ∈ visible h roots stem out := by
        refine ⟨k, suffix, r, ⟨hnames.kind, hnames.suffix, hr⟩, hstands', ?_⟩
        rintro ⟨i, hi, r', hr', hindexed⟩
        exact hshadow ⟨i, Nat.lt_trans hi hj, r', hr', hindexed⟩
      have hle : _ ∨ _ := lex_le_iff.mp (hleast hearlier)
      simp only [ofLex_toLex] at hle
      omega
    · -- what an earlier kind finds would be visible, and come before the least
      cases hcandidate : candidate? h roots stem k' with
      | none => rfl
      | some target =>
        obtain ⟨suffix', hsuffix'⟩ := exists_suffix_of_candidate hk'
        obtain ⟨j, r, hr, hstands', hshadow', -, -⟩ :=
          (candidate?_eq_some_iff hsuffix').mp hcandidate
        have hearlier : toLex (i, j) ∈ visible h roots stem out :=
          ⟨k', suffix', r, ⟨hk', hsuffix', hr⟩, hstands', hshadow'⟩
        have hle : _ ∨ _ := lex_le_iff.mp (hleast hearlier)
        simp only [ofLex_toLex] at hle
        omega

/-- Nothing is found in place of an output exactly if no source is visible. -/
theorem derived?_eq_none_iff :
    out.candidates.findSome? (candidate? h roots stem) = none ↔ visible h roots stem out = ∅ := by
  constructor
  · intro hnone
    refine Set.eq_empty_iff_forall_notMem.mpr fun place hplace => ?_
    obtain ⟨k, suffix, root, hnames, -⟩ := id hplace
    exact candidate?_ne_none hplace hnames.kind
      (List.findSome?_eq_none_iff.mp hnone k (List.mem_of_getElem? hnames.kind))
  · intro hempty
    -- whatever is found would be the least of the visible ones
    cases hfound : out.candidates.findSome? (candidate? h roots stem) with
    | none => rfl
    | some target =>
      obtain ⟨place, k, suffix, root, hleast, -⟩ := derived?_eq_some_iff.mp hfound
      rw [hempty] at hleast
      exact hleast.1.elim

theorem exists_stem_of_ofText? (hout : Output.ofText? rel = some out) :
    ∃ stem, rel = stem ++ out.extension := by
  unfold Output.ofText? at hout
  split at hout
  · rename_i hends
    cases hout
    exact Kind.endsIn_iff.mp hends
  · split at hout
    · rename_i hends
      cases hout
      exact Kind.endsIn_iff.mp hends
    · cases hout

/-- A request for an output that no root has itself finds the source at the least place, in the
    order of kinds and then of roots, among those that no directory with an index shadows, and
    nothing exactly if there is none. These are all the sources exactly if none of them is in a
    shadow. -/
theorem request?_least {mount path : String} (hbelow : RequestPath.below? mount path = some rel)
    (hout : Output.ofText? rel = some out)
    (hmiss : ∀ root ∈ roots, ¬ Stands h root rel ∧ ¬ Indexed h root rel) :
    ∃ stem, rel = stem ++ out.extension ∧
      (∀ target, request? h roots mount path = some target ↔
        ∃ place k suffix root, IsLeast (visible h roots stem out) place ∧
          place.Names roots out k suffix root ∧
          target = ⟨k, joinRelative root (stem ++ suffix), .file, false⟩) ∧
      (request? h roots mount path = none ↔ visible h roots stem out = ∅) ∧
      (visible h roots stem out = standing h roots stem out ↔
        ∀ (place : Place) (k : Kind) (suffix : String) (root : Path),
          place.Names roots out k suffix root → Stands h root (stem ++ suffix) →
          ¬ Shadowed h roots (stem ++ suffix) (ofLex place).2) := by
  obtain ⟨stem, rfl⟩ := exists_stem_of_ofText? hout
  have hnone : find? h roots (stem ++ out.extension) = none :=
    find?_none fun root hroot => hit?_eq_none_iff.mpr (hmiss root hroot)
  have hrequest : request? h roots mount path =
      out.candidates.findSome? (candidate? h roots stem) := by
    unfold request? relative? derived?
    rw [hbelow, Option.bind_some, hnone, ofText?_append]
    simp [Kind.stem?_iff.mpr rfl]
  refine ⟨stem, rfl, fun target => ?_, ?_, visible_eq_standing_iff⟩
  · rw [hrequest]
    exact derived?_eq_some_iff
  · rw [hrequest]
    exact derived?_eq_none_iff

/-- Two roots. The first has directories with an index under names of sources, and the second has
    files there. -/
def overlayTree : Tree :=
  ⟨[(["a"], .directory), (["a", "app.main.jsx"], .directory),
    (["a", "app.main.jsx", "index.html"], plainFile []), (["a", "page.main.jsx"], .directory),
    (["a", "page.main.jsx", "index.html"], plainFile []), (["a", "page.barrel"], plainFile []),
    (["b"], .directory), (["b", "app.main.jsx"], plainFile []),
    (["b", "page.main.jsx"], plainFile []), (["b", "page.main.ts"], plainFile [])]⟩

/-- A host with these roots. -/
def overlayHost : Host :=
  .ofTree overlayTree fun _ => none

theorem overlay_missing {rel : String}
    (hmiss : [(⟨"a"⟩ : Path), ⟨"b"⟩].all fun root => (hit? overlayHost root rel).isNone) :
    ∀ root ∈ [(⟨"a"⟩ : Path), ⟨"b"⟩],
      ¬ Stands overlayHost root rel ∧ ¬ Indexed overlayHost root rel :=
  fun root hroot => hit?_eq_none_iff.mp (Option.isNone_iff_eq_none.mp
    (List.all_eq_true.mp hmiss root hroot))

theorem overlay_least :
    request? overlayHost [⟨"a"⟩, ⟨"b"⟩] "/" "/page.js" =
        some ⟨.typedSuperset, ⟨"b/page.main.ts"⟩, .file, false⟩ ∧
      ∃ place, IsLeast (visible overlayHost [⟨"a"⟩, ⟨"b"⟩] "page" .script) place ∧
        place.Names [⟨"a"⟩, ⟨"b"⟩] .script .typedSuperset ".main.ts" ⟨"b"⟩ := by
  have hrequest : request? overlayHost [⟨"a"⟩, ⟨"b"⟩] "/" "/page.js" =
      some ⟨.typedSuperset, ⟨"b/page.main.ts"⟩, .file, false⟩ := by decide +kernel
  have hbelow : RequestPath.below? "/" "/page.js" = some "page.js" := by decide +kernel
  have hout : Output.ofText? "page.js" = some .script := by decide +kernel
  obtain ⟨stem, hstem, hfound, -, -⟩ :=
    request?_least hbelow hout (overlay_missing (by decide +kernel))
  obtain rfl : stem = "page" := by
    rw [← String.toList_inj] at hstem ⊢
    rw [String.toList_append] at hstem
    have hname : "page.js".toList = "page".toList ++ ".js".toList := by decide
    exact List.append_cancel_right (hstem.symm.trans hname)
  obtain ⟨place, k, suffix, root, hleast, hnames, htarget⟩ := (hfound _).mp hrequest
  rw [Target.mk.injEq] at htarget
  obtain ⟨rfl, hpath, -⟩ := htarget
  obtain rfl : ".main.ts" = suffix := Option.some.inj hnames.suffix
  have hroot := List.mem_of_getElem? hnames.root
  rw [List.mem_cons, List.mem_singleton] at hroot
  rcases hroot with rfl | rfl
  · exact absurd hpath (by decide +kernel)
  · exact ⟨hrequest, place, hleast, hnames⟩

theorem shadowed_missed :
    RequestPath.below? "/" "/app.js" = some "app.js" ∧ Output.ofText? "app.js" = some .script ∧
      (∀ root ∈ [(⟨"a"⟩ : Path), ⟨"b"⟩],
        ¬ Stands overlayHost root "app.js" ∧ ¬ Indexed overlayHost root "app.js") ∧
      toLex (0, 1) ∈ standing overlayHost [⟨"a"⟩, ⟨"b"⟩] "app" .script ∧
      request? overlayHost [⟨"a"⟩, ⟨"b"⟩] "/" "/app.js" = none := by
  refine ⟨by decide +kernel, by decide +kernel, overlay_missing (by decide +kernel), ?_,
    by decide +kernel⟩
  have hhit : hit? overlayHost ⟨"b"⟩ "app.main.jsx" = some (⟨"b/app.main.jsx"⟩, .file) := by
    decide +kernel
  exact ⟨.component, ".main.jsx", ⟨"b"⟩, ⟨rfl, rfl, rfl⟩, (hit?_eq_file_iff.mp hhit).1⟩

end AssetServer.Resolve
