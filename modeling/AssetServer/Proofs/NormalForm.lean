import AssetServer.Proofs.Mounting

/-!
# The clean form is a normal form

`RequestPath.clean` folds the parts of a path over a stack, and a `..` on an empty stack does
nothing. Here the stack is compared with what it stands for: a walk from the root of a tree, where
the root is its own parent.

- `RequestPath.Hierarchy` is any such tree; `Hierarchy.denote` walks the parts of a path in it, and
  `Hierarchy.descend` only ever goes down.
- `Hierarchy.descend_names_clean`: the names of a clean form lead down to the place that the path
  denotes. `Hierarchy.descend_injective`: no other names do.
- `RequestPath.clean_eq_self_iff`: the paths in clean form are the fixed points.
- `RequestPath.clean_normal_form`: clean forms stand for the places of the tree, one for each.
-/

namespace AssetServer.RequestPath

variable {Node : Type*} {p q : String}

/-! ## §1 Places -/

/-- A tree of places. Every place has a child of each name, and the way back to its parent; the root
    is the parent of itself. -/
structure Hierarchy (Node : Type*) where
  root : Node
  child : Node → String → Node
  parent : Node → Node
  parent_root : parent root = root
  parent_child (n : Node) (name : String) : parent (child n name) = n
  child_ne_root (n : Node) (name : String) : child n name ≠ root
  child_name (n : Node) {a b : String} : child n a = child n b → a = b

namespace Hierarchy

variable (T : Hierarchy Node)

/-- Where one part of a path leads. -/
def step (n : Node) (part : String) : Node :=
  if part = "" ∨ part = "." then n
  else if part = ".." then T.parent n
  else T.child n part

/-- The place that a path denotes: its parts are followed one after another from the root. -/
def denote (path : String) : Node :=
  (Text.parts '/' path).foldl T.step T.root

/-- The place that names lead down to. -/
def descend (names : List String) : Node :=
  names.foldl T.child T.root

theorem descend_concat (names : List String) (n : String) :
    T.descend (names ++ [n]) = T.child (T.descend names) n := by
  unfold descend
  rw [List.foldl_append, List.foldl_cons, List.foldl_nil]

/-- Other names lead to another place. -/
theorem descend_injective {ms ns : List String} (h : T.descend ms = T.descend ns) : ms = ns := by
  induction ms using List.reverseRecOn generalizing ns with
  | nil =>
    induction ns using List.reverseRecOn with
    | nil => rfl
    | append_singleton ns n _ =>
      rw [descend_concat] at h
      exact absurd h.symm (T.child_ne_root _ n)
  | append_singleton ms m ih =>
    induction ns using List.reverseRecOn with
    | nil =>
      rw [descend_concat] at h
      exact absurd h (T.child_ne_root _ m)
    | append_singleton ns n _ =>
      rw [descend_concat, descend_concat] at h
      -- equal places have equal parents, and then the last names are equal too
      have hplace : T.descend ms = T.descend ns := by
        rw [← T.parent_child (T.descend ms) m, h, T.parent_child]
      rw [hplace] at h
      rw [ih hplace, T.child_name _ h]

/-! ## §2 The stack stands for a place -/

/-- The place that a stack stands for; its top is the last name. -/
def place (stack : List (List Char)) : Node :=
  T.descend (stack.reverse.map String.ofList)

theorem place_cons (name : List Char) (stack : List (List Char)) :
    T.place (name :: stack) = T.child (T.place stack) (String.ofList name) := by
  unfold place
  rw [List.reverse_cons, List.map_append, List.map_singleton, descend_concat]

theorem place_tail (stack : List (List Char)) : T.place stack.tail = T.parent (T.place stack) := by
  cases stack with
  | nil =>
    -- nothing is popped at the root, which is its own parent
    exact T.parent_root.symm
  | cons name stack => rw [List.tail_cons, place_cons, T.parent_child]

/-- A move of the stack is a step in the tree. -/
theorem place_move (stack : List (List Char)) (part : List Char) :
    T.place (move stack part) = T.step (T.place stack) (String.ofList part) := by
  have hempty : String.ofList part = "" ↔ part = [] := String.ofList_inj
  have hhere : String.ofList part = "." ↔ part = ['.'] := String.ofList_inj
  have hup : String.ofList part = ".." ↔ part = ['.', '.'] := String.ofList_inj
  unfold move step
  simp only [hempty, hhere, hup]
  split_ifs
  · rfl
  · exact T.place_tail stack
  · exact T.place_cons part stack

theorem place_foldl_move (parts stack : List (List Char)) :
    T.place (parts.foldl move stack) = (parts.map String.ofList).foldl T.step (T.place stack) := by
  induction parts generalizing stack with
  | nil => rfl
  | cons part parts ih => rw [List.foldl_cons, ih, place_move, List.map_cons, List.foldl_cons]

/-- The names of a clean form lead down to the place that the path denotes. -/
theorem descend_names_clean (path : String) : T.descend (names (clean path)) = T.denote path := by
  have hstack := T.place_foldl_move (Text.split '/' path.toList) []
  rw [names_clean]
  exact hstack

end Hierarchy

/-- The tree whose places are lists of names, from the last name to the first. -/
def byNames : Hierarchy (List String) where
  root := []
  child n name := name :: n
  parent := List.tail
  parent_root := rfl
  parent_child _ _ := rfl
  child_ne_root _ _ := List.cons_ne_nil _ _
  child_name _ _ _ h := List.head_eq_of_cons_eq h

/-! ## §3 Paths in clean form -/

/-- A path in clean form: a slash, and behind it names with one slash between each two. -/
structure IsClean (path : String) : Prop where
  starts : path.toList.head? = some '/'
  parts : path ≠ "/" → ∀ part ∈ (Text.parts '/' path).tail, part ≠ "" ∧ part ≠ "." ∧ part ≠ ".."
  ends : path ≠ "/" → path.toList.getLast? ≠ some '/'

theorem isClean_clean (path : String) : IsClean (clean path) := by
  have hparts : ∀ n ∈ (segments path.toList).map String.ofList, Tree.IsPart n :=
    isPart_of_mem_segments
  rw [clean_eq_intercalate]
  generalize (segments path.toList).map String.ofList = ns at hparts
  have hne : "/" ++ "/".intercalate ns ≠ "/" → ns ≠ [] := by
    rintro h rfl
    exact h rfl
  refine ⟨?_, fun h part hpart => ?_, fun h => ?_⟩
  · rw [toList_slash_append]
    rfl
  · rw [parts_slash_append, List.tail_cons, Path.parts_intercalate (hne h) hparts] at hpart
    have hname := hparts part hpart
    exact ⟨fun he => hname.step (.inl he), fun he => hname.step (.inr he), hname.down⟩
  · have hsome : ("/".intercalate ns).toList ≠ [] := by
      intro hempty
      rw [String.toList_inj.mp (hempty.trans String.toList_empty.symm)] at h
      exact h rfl
    rw [toList_slash_append, List.getLast?_cons_of_ne_nil hsome]
    exact Path.getLast?_intercalate hparts

/-- The clean form of a path in clean form is the path itself. -/
theorem IsClean.clean_eq (hp : IsClean p) : clean p = p := by
  by_cases hroot : p = "/"
  · subst hroot
    decide
  obtain ⟨cs, hcs⟩ := List.head?_eq_some_iff.mp hp.starts
  have hwhole : p = "/" ++ String.ofList cs := by
    rw [← String.toList_inj, hcs, toList_slash_append, String.toList_ofList]
  have hnames : ∀ n ∈ Text.parts '/' (String.ofList cs), Tree.IsPart n := by
    intro n hn
    have htail : n ∈ (Text.parts '/' p).tail := by
      rwa [hwhole, parts_slash_append, List.tail_cons]
    obtain ⟨hempty, hhere, hup⟩ := hp.parts hroot n htail
    obtain ⟨part, hpart, rfl⟩ := List.mem_map.mp hn
    refine ⟨not_or.mpr ⟨hempty, hhere⟩, hup, ?_⟩
    rw [String.toList_ofList]
    exact Text.not_mem_of_mem_split hpart
  -- these names are what the path is read as, so it is put together from them again
  have hsegments : (segments p.toList).map String.ofList = Text.parts '/' (String.ofList cs) := by
    have hread := segments_names hnames
    rw [Path.intercalate_parts, ← toList_slash_append, ← hwhole] at hread
    rw [hread]
    simp [Function.comp_def]
  rw [clean_eq_intercalate, hsegments, Path.intercalate_parts, ← hwhole]

/-- Exactly the paths in clean form are left as they are. -/
theorem clean_eq_self_iff : clean p = p ↔ IsClean p := by
  constructor
  · intro h
    rw [← h]
    exact isClean_clean p
  · exact IsClean.clean_eq

/-! ## §4 The normal form -/

/-- Two paths have one clean form exactly if they denote one place. -/
theorem clean_eq_iff_denote (T : Hierarchy Node) :
    clean p = clean q ↔ T.denote p = T.denote q := by
  rw [clean_eq_iff, ← T.descend_names_clean, ← T.descend_names_clean]
  exact ⟨congrArg T.descend, T.descend_injective⟩

/-- Cleaning gives every path its normal form. The clean form starts with a slash, and no part of it
    is empty, `.` or `..`, nor does it end with a slash, unless it is the root; it is the same for
    all spellings of a place, also in front of what goes on from there, and the paths that are in
    this form are left as they are. In any tree whose root is its own parent the names of the clean
    form, and no others, lead down to the place that the path denotes. -/
theorem clean_normal_form (T : Hierarchy Node) :
    (∀ p, IsClean (clean p)) ∧
    (∀ p, clean p = p ↔ IsClean p) ∧
    (∀ p, clean (clean p) = clean p) ∧
    (∀ p q, clean (p ++ "/" ++ q) = clean (clean p ++ "/" ++ q)) ∧
    (∀ p ns, T.descend ns = T.denote p ↔ ns = names (clean p)) ∧
    ∀ p q, clean p = clean q ↔ T.denote p = T.denote q := by
  refine ⟨isClean_clean, fun p => clean_eq_self_iff, clean_clean,
    fun p q => clean_append_congr (clean_clean p).symm q, fun p ns => ?_,
    fun p q => clean_eq_iff_denote T⟩
  rw [← T.descend_names_clean]
  exact ⟨fun h => T.descend_injective h, fun h => by rw [h]⟩

example : byNames.denote "/a/../../etc/./passwd/" = ["passwd", "etc"] := by decide +kernel

end AssetServer.RequestPath
