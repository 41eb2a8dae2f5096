import Mathlib.Data.List.Basic
import Mathlib.Tactic.Common
import AssetServer.Export

/-!
# How paths are spelled

What joining names to a path, and taking its last step off again, does to the parts between its
slashes. A path and its parent may differ in slashes and dots that lead nowhere; what stays is the
list of steps, and that is all that a lookup depends on.

- `Path.stem` is what names are appended to: the steps without the empty one after a last slash.
- `Path.steps_descend` gives the steps of a path that names were joined to.
- `Path.exists_parent_join` describes the parent of such a path.
-/

namespace AssetServer

/-- A name that a directory can hold. -/
structure IsName (n : String) : Prop where
  ne_empty : n ≠ ""
  ne_here : n ≠ "."
  ne_up : n ≠ ".."
  no_slash : '/' ∉ n.toList
  no_nul : '\x00' ∉ n.toList
  short : n.utf8ByteSize ≤ Tree.maxNameBytes

namespace Text

/-- A mark inside a text cuts it into two texts that are cut on their own. -/
theorem split_append (mark : Char) (xs ys : List Char) :
    split mark (xs ++ mark :: ys) = split mark xs ++ split mark ys := by
  induction xs with
  | nil => simp [split]
  | cons c rest ih =>
    by_cases hc : c = mark
    · simp [split, hc, ih]
    · cases hs : split mark rest with
      | nil => exact absurd hs (split_ne_nil mark rest)
      | cons part parts =>
        rw [hs] at ih
        simp [split, hc, ih, hs]

/-- A part of a cut holds nothing but what the text holds. -/
theorem mem_of_mem_split {mark c : Char} {cs part : List Char} (h : part ∈ split mark cs)
    (hc : c ∈ part) : c ∈ cs := by
  induction cs generalizing part with
  | nil =>
    rw [split, List.mem_singleton] at h
    rwa [h] at hc
  | cons d rest ih =>
    unfold split at h
    split at h
    · rcases List.mem_cons.mp h with rfl | h
      · cases hc
      · exact List.mem_cons_of_mem _ (ih h hc)
    -- what is no mark goes to the front of the part behind it
    · cases hs : split mark rest with
      | nil => exact absurd hs (split_ne_nil mark rest)
      | cons first parts =>
        rw [hs] at h
        rcases List.mem_cons.mp h with rfl | h
        · rcases List.mem_cons.mp hc with rfl | hc
          · exact List.mem_cons_self
          · exact List.mem_cons_of_mem _ (ih (by rw [hs]; simp) hc)
        · exact List.mem_cons_of_mem _ (ih (by rw [hs]; exact List.mem_cons_of_mem _ h) hc)

end Text

namespace Path

/-! ## §1 Steps of a joined path -/

/-- The parts of a path between its slashes, as a lookup goes through them. -/
def steps (p : Path) : List String := Text.parts '/' p.text

/-- The steps to which a joined name is added: those of the path, without the empty one after a
    slash at its end. -/
def stem (p : Path) : List String :=
  if p.text.toList.getLast? = some '/' then p.steps.dropLast else p.steps

theorem name_head {n : String} (hn : '/' ∉ n.toList) : n.toList.head? ≠ some '/' := by
  intro h
  obtain ⟨rest, hrest⟩ := List.head?_eq_some_iff.mp h
  exact hn (by simp [hrest])

theorem join_text {p : Path} {n : String} (hn : n.toList.head? ≠ some '/') (hp : p.text ≠ "") :
    (p.join n).text.toList =
      if p.text.toList.getLast? = some '/' then p.text.toList ++ n.toList
      else p.text.toList ++ '/' :: n.toList := by
  have hne : p.text.toList ≠ [] := by simpa using hp
  unfold join
  rw [if_neg hn]
  by_cases hend : p.text.toList.getLast? = some '/'
  · simp [hend]
  · simp [hend, hne]

/-- A joined name adds itself to a path, and a slash where the path does not end in one. -/
theorem size_joined (p : Path) {n : String} (hn : '/' ∉ n.toList) : (p.join n).text.utf8ByteSize =
    p.text.utf8ByteSize +
      (if p.text.toList = [] ∨ p.text.toList.getLast? = some '/' then 0 else 1) +
        n.utf8ByteSize := by
  have hslash : "/".utf8ByteSize = 1 := rfl
  unfold join
  rw [if_neg (name_head hn)]
  split
  · rw [String.utf8ByteSize_append, Nat.add_zero]
  · rw [String.utf8ByteSize_append, String.utf8ByteSize_append, hslash]

/-- A text that ends in a mark is cut into what stands before it and an empty part. -/
theorem split_of_getLast {cs : List Char} (h : cs.getLast? = some '/') :
    cs = cs.dropLast ++ ['/'] ∧ Text.split '/' cs = Text.split '/' cs.dropLast ++ [[]] := by
  obtain ⟨init, rfl⟩ := List.getLast?_eq_some_iff.mp h
  refine ⟨by simp, ?_⟩
  rw [Text.split_append, List.dropLast_concat]
  rfl

theorem stem_cases (p : Path) : p.steps = p.stem ∨ p.steps = p.stem ++ [""] := by
  unfold stem
  split
  · rename_i hend
    right
    have hsplit := (split_of_getLast hend).2
    have hsteps : p.steps = (Text.split '/' p.text.toList.dropLast).map String.ofList ++ [""] := by
      simp [steps, Text.parts, hsplit]
    rw [hsteps]
    simp
  · exact .inl rfl

theorem steps_join {p : Path} {n : String} (hp : p.text ≠ "") (hn : '/' ∉ n.toList) :
    (p.join n).steps = p.stem ++ [n] := by
  have hname : Text.split '/' n.toList = [n.toList] := Text.split_of_not_mem hn
  unfold stem steps Text.parts
  rw [join_text (name_head hn) hp]
  by_cases hend : p.text.toList.getLast? = some '/'
  · obtain ⟨htext, hsplit⟩ := split_of_getLast hend
    have hjoined : p.text.toList ++ n.toList = p.text.toList.dropLast ++ '/' :: n.toList := by
      conv_lhs => rw [htext]
      simp
    rw [if_pos hend, if_pos hend, hsplit, hjoined, Text.split_append, hname]
    simp
  · rw [if_neg hend, if_neg hend, Text.split_append, hname]
    simp

/-! ## §2 What joining keeps -/

theorem join_ne_empty {p : Path} {n : String} (hp : p.text ≠ "") (hn : IsName n) :
    (p.join n).text ≠ "" := by
  intro h
  have htext := join_text (name_head hn.no_slash) hp
  have hne : p.text.toList ≠ [] := by simpa using hp
  rw [h] at htext
  split at htext <;> simp_all

theorem join_getLast {p : Path} {n : String} (hp : p.text ≠ "") (hn : IsName n) :
    (p.join n).text.toList.getLast? ≠ some '/' := by
  have hne : n.toList ≠ [] := by simpa using hn.ne_empty
  have hlast : n.toList.getLast? ≠ some '/' := fun h => hn.no_slash (List.mem_of_getLast? h)
  rw [join_text (name_head hn.no_slash) hp]
  split
  · rwa [List.getLast?_append_of_ne_nil _ hne]
  · have hcons : '/' :: n.toList = ['/'] ++ n.toList := rfl
    rwa [List.getLast?_append_of_ne_nil _ (List.cons_ne_nil _ _), hcons,
      List.getLast?_append_of_ne_nil _ hne]

theorem join_isAbsolute {p : Path} {n : String} (hp : p.text ≠ "") (hn : '/' ∉ n.toList) :
    (p.join n).isAbsolute = p.isAbsolute := by
  have hne : p.text.toList ≠ [] := by simpa using hp
  unfold isAbsolute
  rw [join_text (name_head hn) hp]
  split <;> rw [List.head?_append_of_ne_nil _ hne]

theorem join_no_nul {p : Path} {n : String} (hp : p.text ≠ "") (hn : IsName n)
    (hnul : '\x00' ∉ p.text.toList) : '\x00' ∉ (p.join n).text.toList := by
  rw [join_text (name_head hn.no_slash) hp]
  split
  · simp [hnul, hn.no_nul]
  · simp [hnul, hn.no_nul]

/-! ## §3 Several names -/

/-- The path that several names lead to has their steps at its end. -/
theorem steps_descend {p : Path} (hp : p.text ≠ "") {n : String} {names : List String}
    (hnames : ∀ m ∈ n :: names, IsName m) :
    (Export.descend p (n :: names)).steps = p.stem ++ n :: names := by
  induction names generalizing p n with
  | nil => exact steps_join hp (hnames n (by simp)).no_slash
  | cons m rest ih =>
    have hn := hnames n (by simp)
    -- the steps of the path with a name are the stem for the names after it
    have hstem : (p.join n).stem = p.stem ++ [n] := by
      unfold stem
      rw [if_neg (join_getLast hp hn)]
      exact steps_join hp hn.no_slash
    have hrest := ih (join_ne_empty hp hn) (n := m)
      (fun k hk => hnames k (List.mem_cons_of_mem _ hk))
    show (Export.descend (p.join n) (m :: rest)).steps = _
    rw [hrest, hstem]
    simp

theorem descend_concat (p : Path) (names : List String) (n : String) :
    Export.descend p (names ++ [n]) = (Export.descend p names).join n := by
  simp [Export.descend]

/-- What names keep of the path they are joined to. -/
theorem descend_keeps {p : Path} (hp : p.text ≠ "") (hnul : '\x00' ∉ p.text.toList)
    {names : List String} (hnames : ∀ m ∈ names, IsName m) :
    (Export.descend p names).text ≠ "" ∧
      '\x00' ∉ (Export.descend p names).text.toList ∧
      (Export.descend p names).isAbsolute = p.isAbsolute := by
  induction names generalizing p with
  | nil => exact ⟨hp, hnul, rfl⟩
  | cons n rest ih =>
    have hn := hnames n (by simp)
    obtain ⟨hne, hno, habs⟩ := ih (join_ne_empty hp hn) (join_no_nul hp hn hnul)
      (fun m hm => hnames m (List.mem_cons_of_mem _ hm))
    exact ⟨hne, hno, habs.trans (join_isAbsolute hp hn.no_slash)⟩

/-- Names with a slash between each two have no slash at their front. -/
theorem head?_intercalate {names : List String}
    (hnames : ∀ n ∈ names, n ≠ "" ∧ '/' ∉ n.toList) :
    ("/".intercalate names).toList.head? ≠ some '/' := by
  cases names with
  | nil => simp
  | cons n more =>
    obtain ⟨hne, hslash⟩ := hnames n (by simp)
    have hhead := name_head hslash
    cases more with
    | nil => rwa [String.intercalate_singleton]
    | cons m more =>
      rwa [String.intercalate_cons_cons, String.toList_append, String.toList_append,
        List.append_assoc, List.head?_append_of_ne_nil _ (by simpa using hne)]

/-- Names may be joined one after another or all at once. -/
theorem join_intercalate {p : Path} (hp : p.text ≠ "") {n : String} {names : List String}
    (hnames : ∀ m ∈ n :: names, IsName m) :
    p.join ("/".intercalate (n :: names)) = Export.descend p (n :: names) := by
  induction names generalizing p n with
  | nil => simp [Export.descend, String.intercalate_singleton]
  | cons m rest ih =>
    have hn := hnames n (by simp)
    have hrest : ∀ k ∈ m :: rest, IsName k := fun k hk => hnames k (List.mem_cons_of_mem _ hk)
    -- neither what is joined at once nor what is left after the first name is an absolute path
    have hhead := head?_intercalate fun k hk => ⟨(hnames k hk).ne_empty, (hnames k hk).no_slash⟩
    have htail := head?_intercalate fun k hk => ⟨(hrest k hk).ne_empty, (hrest k hk).no_slash⟩
    have hsame : p.join ("/".intercalate (n :: m :: rest)) =
        (p.join n).join ("/".intercalate (m :: rest)) := by
      have htext : (p.join ("/".intercalate (n :: m :: rest))).text.toList =
          ((p.join n).join ("/".intercalate (m :: rest))).text.toList := by
        rw [join_text htail (join_ne_empty hp hn), if_neg (join_getLast hp hn),
          join_text hhead hp, join_text (name_head hn.no_slash) hp, String.intercalate_cons_cons]
        split <;> simp
      have := String.toList_inj.mp htext
      cases hl : p.join ("/".intercalate (n :: m :: rest))
      cases hr : (p.join n).join ("/".intercalate (m :: rest))
      simp_all
    rw [hsame, ih (join_ne_empty hp hn) hrest]
    rfl

/-! ## §4 The last step -/

/-- The lead of a text and what follows it make up the text. -/
theorem lead_append (cs : List Char) : (lead cs).1 ++ (lead cs).2 = cs := by
  unfold lead
  split <;> rfl

/-- The lead of a text does not change when the text goes on with a slash or already has a part. -/
theorem lead_append_slash {cs : List Char} (hne : cs ≠ []) (xs : List Char) :
    lead (cs ++ '/' :: xs) = ((lead cs).1, (lead cs).2 ++ '/' :: xs) := by
  -- the first two characters decide what the lead is
  match cs with
  | [] => exact absurd rfl hne
  | [c] =>
    by_cases hslash : c = '/'
    · subst hslash; rfl
    · by_cases hdot : c = '.'
      · subst hdot; rfl
      · simp [lead, hslash, hdot]
  | c :: d :: rest =>
    by_cases hslash : c = '/'
    · subst hslash; rfl
    · by_cases hdot : c = '.'
      · subst hdot
        by_cases hd : d = '/'
        · subst hd; rfl
        · simp [lead, hd]
      · simp [lead, hslash, hdot]

theorem trimParts_concat {parts : List (List Char)} {part : List Char} (h : isStep part = true) :
    trimParts (parts ++ [part]) = parts ++ [part] := by
  simp [trimParts, h]

/-- Trimming takes off parts at the end that are no steps. -/
theorem trimParts_append (parts : List (List Char)) :
    ∃ junk, parts = trimParts parts ++ junk ∧ ∀ part ∈ junk, isStep part = false := by
  refine ⟨(parts.reverse.takeWhile (fun part => !isStep part)).reverse, ?_, ?_⟩
  · unfold trimParts
    rw [← List.reverse_append, List.takeWhile_append_dropWhile, List.reverse_reverse]
  · intro part hpart
    have hall := List.all_takeWhile (p := fun part => !isStep part) (l := parts.reverse)
    simpa using List.all_eq_true.mp hall part (List.mem_reverse.mp hpart)

/-- The last part that is left is a step. -/
theorem trimParts_last {parts : List (List Char)} {part : List Char}
    (h : (trimParts parts).getLast? = some part) : isStep part = true := by
  unfold trimParts at h
  rw [List.getLast?_reverse] at h
  have := List.head?_dropWhile_not (fun part => !isStep part) parts.reverse
  rw [h] at this
  simpa using this

theorem isStep_name {n : String} (hn : IsName n) : isStep n.toList = true := by
  have hempty : n.toList ≠ [] := by simpa using hn.ne_empty
  have hdot : n.toList ≠ ['.'] := fun h => hn.ne_here (String.toList_inj.mp (by simpa using h))
  simp [isStep, hempty, hdot]

/-- The parts of a text that are steps. -/
def stepsOf (cs : List Char) : List (List Char) :=
  (Text.split '/' cs).filter isStep

/-- The parts of a path that lead somewhere. -/
def moves (p : Path) : List String :=
  (stepsOf p.text.toList).map String.ofList

/-- The lead of a text holds no step. -/
theorem stepsOf_lead (cs : List Char) : stepsOf cs = stepsOf (lead cs).2 := by
  unfold lead stepsOf
  split
  · simp [Text.split, isStep]
  · simp [Text.split, isStep]
  · rename_i body
    have hcut : Text.split '/' ('.' :: '/' :: body) = ['.'] :: Text.split '/' body :=
      Text.split_append_mark (by simp : '/' ∉ ['.']) body
    rw [hcut]
    simp [Text.split, isStep]
  · rfl

theorem stepsOf_trimParts (cs : List Char) :
    (trimParts (Text.split '/' cs)).filter isStep = stepsOf cs := by
  obtain ⟨junk, hsplit, hjunk⟩ := trimParts_append (Text.split '/' cs)
  have hnone : junk.filter isStep = [] := by
    rw [List.filter_eq_nil_iff]
    intro part hpart
    simp [hjunk part hpart]
  unfold stepsOf
  conv_rhs => rw [hsplit]
  rw [List.filter_append, hnone, List.append_nil]

/-! ## §5 The parent -/

/-- A text without the slash at its end. -/
def trunk (cs : List Char) : List Char :=
  if cs.getLast? = some '/' then cs.dropLast else cs

theorem join_trunk {p : Path} {n : String} (hn : n.toList.head? ≠ some '/') (hp : p.text ≠ "") :
    (p.join n).text.toList = trunk p.text.toList ++ '/' :: n.toList := by
  rw [join_text hn hp]
  unfold trunk
  split
  · rename_i hend
    conv_lhs => rw [(split_of_getLast hend).1]
    simp
  · rfl

/-- The lead of a text does not change with what follows a slash at its end. -/
theorem lead_trunk_append {cs : List Char} (hne : cs ≠ []) (xs : List Char) :
    (lead (trunk cs ++ '/' :: xs)).1 = (lead cs).1 := by
  unfold trunk
  split
  · rename_i hend
    rw [(split_of_getLast hend).1]
    -- a text that is one slash has no trunk, and the slash that follows stands for it
    by_cases hroot : cs.dropLast = []
    · rw [hroot]
      rfl
    · rw [List.dropLast_concat, lead_append_slash hroot, lead_append_slash hroot]
  · rw [lead_append_slash hne]

theorem stepsOf_trunk (cs : List Char) : stepsOf (trunk cs) = stepsOf cs := by
  unfold trunk
  split
  · rename_i hend
    simp [stepsOf, (split_of_getLast hend).2, isStep]
  · rfl

theorem trunk_append (cs : List Char) : ∃ rest, cs = trunk cs ++ rest := by
  unfold trunk
  split
  · rename_i hend
    exact ⟨['/'], (split_of_getLast hend).1⟩
  · exact ⟨[], (List.append_nil cs).symm⟩

theorem unite_append {xs ys : List (List Char)} (hxs : xs ≠ []) (hys : ys ≠ []) :
    Text.unite '/' (xs ++ ys) = Text.unite '/' xs ++ '/' :: Text.unite '/' ys := by
  induction xs with
  | nil => exact absurd rfl hxs
  | cons x rest ih =>
    cases rest with
    | nil =>
      obtain ⟨y, more, rfl⟩ := List.exists_cons_of_ne_nil hys
      rfl
    | cons y more =>
      have := ih (by simp)
      simp only [List.cons_append] at this ⊢
      simp [Text.unite, this]

/-- `q` has the steps of `p` and is spelled by a beginning of its text. -/
structure Trims (q p : Path) : Prop where
  moves : q.moves = p.moves
  absolute : q.isAbsolute = p.isAbsolute
  nonempty : q.text ≠ ""
  short : q.text.utf8ByteSize ≤ p.text.utf8ByteSize
  no_nul : '\x00' ∉ p.text.toList → '\x00' ∉ q.text.toList

theorem Trims.of_append {q p : Path} {rest : List Char}
    (htext : p.text.toList = q.text.toList ++ rest) (hne : q.text ≠ "")
    (hsteps : stepsOf q.text.toList = stepsOf p.text.toList) : Trims q p where
  moves := by unfold Path.moves; rw [hsteps]
  absolute := by
    have : q.text.toList ≠ [] := by simpa using hne
    unfold isAbsolute
    rw [htext, List.head?_append_of_ne_nil _ this]
  nonempty := hne
  short := by
    have : p.text = q.text ++ String.ofList rest := by
      rw [← String.toList_inj, htext]
      simp
    rw [this, String.utf8ByteSize_append]
    exact Nat.le_add_right _ _
  no_nul := by
    intro h hmem
    exact h (by rw [htext]; exact List.mem_append_left _ hmem)

/-- What follows a dot in front of a path is nothing, or starts with a slash. -/
theorem split_of_lead_dot {cs : List Char} (hstart : (lead cs).1 = ['.']) :
    ∃ more, Text.split '/' (lead cs).2 = [] :: more := by
  unfold lead at hstart ⊢
  split at hstart
  · cases hstart
  · exact ⟨[], rfl⟩
  · rename_i body
    refine ⟨Text.split '/' body, ?_⟩
    show Text.split '/' ('/' :: body) = _
    rw [Text.split, if_pos rfl]
  · cases hstart

theorem lead_cases (cs : List Char) :
    (lead cs).1 = ['/'] ∨ (lead cs).1 = ['.'] ∨ ((lead cs).1 = [] ∧ (lead cs).2 = cs) := by
  unfold lead
  split <;> simp

/-- A text without a lead starts with a step. -/
theorem isStep_of_lead_nil {cs part : List Char} {parts : List (List Char)} (hne : cs ≠ [])
    (hlead : (lead cs).1 = []) (hs : Text.split '/' cs = part :: parts) : isStep part = true := by
  by_contra hnot
  have hunite : Text.unite '/' (part :: parts) = cs := by
    rw [← hs]
    exact Text.unite_split _ _
  have hkind : part = [] ∨ part = ['.'] := by
    by_contra hboth
    rw [not_or] at hboth
    exact hnot (by simp [isStep, hboth.1, hboth.2])
  rw [← hunite] at hne hlead
  -- an empty part in front makes the lead a slash, and a dot makes it a dot
  rcases hkind with rfl | rfl
  · cases parts with
    | nil => exact hne rfl
    | cons next more => cases hlead
  · cases parts with
    | nil => cases hlead
    | cons next more => cases hlead

theorem unite_ne_nil {parts : List (List Char)} {part : List Char} (hpart : part ∈ parts)
    (hne : part ≠ []) : Text.unite '/' parts ≠ [] := by
  cases parts with
  | nil => cases hpart
  | cons first rest =>
    cases rest with
    | nil => exact List.mem_singleton.mp hpart ▸ hne
    | cons next more => simp [Text.unite]

/-- A text without a single step starts with the root or with a dot. -/
theorem lead_of_trimParts_nil {cs : List Char} (hne : cs ≠ [])
    (hnil : trimParts (Text.split '/' (lead cs).2) = []) :
    (lead cs).1 = ['/'] ∨ (lead cs).1 = ['.'] := by
  rcases lead_cases cs with h | h | ⟨hstart, hrest⟩
  · exact .inl h
  · exact .inr h
  · -- without a lead the first part would be a step
    obtain ⟨junk, hsplit, hjunk⟩ := trimParts_append (Text.split '/' cs)
    obtain ⟨part, parts, hparts⟩ := List.exists_cons_of_ne_nil (Text.split_ne_nil '/' cs)
    have hstep := isStep_of_lead_nil hne hstart hparts
    rw [hrest] at hnil
    rw [hnil, List.nil_append, hparts] at hsplit
    rw [hjunk part (by rw [← hsplit]; exact List.mem_cons_self)] at hstep
    cases hstep

theorem ofParts_trimParts_ne_empty {cs : List Char} (hne : cs ≠ []) :
    (ofParts (lead cs).1 (trimParts (Text.split '/' (lead cs).2))).text ≠ "" := by
  have htext : (ofParts (lead cs).1 (trimParts (Text.split '/' (lead cs).2))).text.toList =
      (lead cs).1 ++ Text.unite '/' (trimParts (Text.split '/' (lead cs).2)) := String.toList_ofList
  rw [← String.toList_eq_nil_iff.ne, htext, ne_eq, List.append_eq_nil_iff, not_and_or]
  by_cases hnil : trimParts (Text.split '/' (lead cs).2) = []
  · left
    rcases lead_of_trimParts_nil hne hnil with h | h <;> simp [h]
  · right
    have hlast := List.getLast?_eq_getLast_of_ne_nil hnil
    refine unite_ne_nil (List.mem_of_getLast? hlast) fun hempty => ?_
    have hstep := trimParts_last hlast
    simp [hempty, isStep] at hstep

/-- Cutting a text after its last step leaves a beginning of it with the same steps. -/
theorem exists_ofParts_trimParts {cs : List Char} (hne : cs ≠ []) :
    ∃ rest, cs = (ofParts (lead cs).1 (trimParts (Text.split '/' (lead cs).2))).text.toList ++ rest ∧
      (ofParts (lead cs).1 (trimParts (Text.split '/' (lead cs).2))).text ≠ "" ∧
      stepsOf (ofParts (lead cs).1 (trimParts (Text.split '/' (lead cs).2))).text.toList =
        stepsOf cs := by
  have hnonempty := ofParts_trimParts_ne_empty hne
  have hroot := lead_of_trimParts_nil hne
  obtain ⟨junk, hsplit, hjunk⟩ := trimParts_append (Text.split '/' (lead cs).2)
  have hbody : Text.unite '/' (Text.split '/' (lead cs).2) = (lead cs).2 := Text.unite_split _ _
  have hlead := lead_append cs
  set trimmed := trimParts (Text.split '/' (lead cs).2) with htrimmed
  by_cases hnil : trimmed = []
  · -- nothing but slashes and dots: the lead alone is left
    have hsteps : stepsOf cs = [] := by
      rw [stepsOf_lead, ← stepsOf_trimParts, ← htrimmed, hnil]
      rfl
    have htext : (ofParts (lead cs).1 trimmed).text.toList = (lead cs).1 := by
      simp [ofParts, hnil, Text.unite]
    refine ⟨(lead cs).2, by rw [htext, hlead], hnonempty, ?_⟩
    rw [htext, hsteps]
    rcases hroot hnil with h | h <;> rw [h] <;> rfl
  by_cases hjnil : junk = []
  · -- the text ends in a step, so nothing is cut
    rw [hjnil, List.append_nil] at hsplit
    have hall : (ofParts (lead cs).1 trimmed).text.toList = cs := by
      simp [ofParts, ← hsplit, hbody, hlead]
    exact ⟨[], by rw [hall, List.append_nil], hnonempty, by rw [hall]⟩
  -- what is cut off is a slash, and parts that are no steps
  · have hcut : cs = (ofParts (lead cs).1 trimmed).text.toList ++ '/' :: Text.unite '/' junk := by
      rw [hsplit, unite_append hnil hjnil] at hbody
      simp [ofParts, List.append_assoc, hbody, hlead]
    refine ⟨_, hcut, hnonempty, ?_⟩
    have hclean : ∀ part ∈ junk, '/' ∉ part := by
      intro part hpart
      have hmem : part ∈ Text.split '/' (lead cs).2 := by
        rw [hsplit]
        exact List.mem_append_right _ hpart
      exact Text.not_mem_of_mem_split hmem
    have hnone : junk.filter isStep = [] := by
      rw [List.filter_eq_nil_iff]
      intro part hpart
      simp [hjunk part hpart]
    conv_rhs => rw [hcut]
    unfold stepsOf
    rw [Text.split_append, List.filter_append, Text.split_unite hjnil hclean, hnone,
      List.append_nil]

/-- A step joined to a path is its file name. Its parent is the root, or the trunk of the path without
    what nothing depends on at its end. -/
theorem parent_join_cases {p : Path} {n : String} (hp : p.text ≠ "") (hslash : '/' ∉ n.toList)
    (hstep : isStep n.toList = true) (hup : n.toList ≠ ['.', '.']) :
    (p.join n).fileName = some n ∧
      ((p = ⟨"/"⟩ ∧ (p.join n).parent = some ⟨"/"⟩) ∨
        (trunk p.text.toList ≠ [] ∧ (p.join n).parent = some (ofParts (lead (trunk p.text.toList)).1
          (trimParts (Text.split '/' (lead (trunk p.text.toList)).2))))) := by
  have htext := join_trunk (name_head hslash) hp
  have hsplit : Text.split '/' n.toList = [n.toList] := Text.split_of_not_mem hslash
  -- only the path that is one slash leaves nothing in front of that slash
  by_cases hroot : trunk p.text.toList = []
  · rw [hroot, List.nil_append] at htext
    have hparts : (p.join n).parts = [n.toList] := by
      unfold parts
      rw [htext]
      show trimParts (Text.split '/' n.toList) = _
      rw [hsplit]
      exact @trimParts_concat [] _ hstep
    have hp' : p.text.toList = ['/'] := by
      unfold trunk at hroot
      split at hroot
      · rename_i hend
        rw [(split_of_getLast hend).1, hroot]
        rfl
      · exact absurd hroot (by simpa using hp)
    refine ⟨?_, .inl ⟨congrArg Path.mk (String.toList_inj.mp hp'), ?_⟩⟩
    · unfold fileName
      rw [hparts]
      simp [hup]
    · unfold parent
      rw [hparts, htext]
      rfl
  · have hlead := lead_append_slash hroot n.toList
    have hparts : (p.join n).parts =
        Text.split '/' (lead (trunk p.text.toList)).2 ++ [n.toList] := by
      unfold parts
      rw [htext, hlead]
      show trimParts (Text.split '/' ((lead (trunk p.text.toList)).2 ++ '/' :: n.toList)) = _
      rw [Text.split_append, hsplit]
      exact trimParts_concat hstep
    refine ⟨?_, .inr ⟨hroot, ?_⟩⟩
    · unfold fileName
      rw [hparts]
      simp [hup]
    · unfold parent
      rw [hparts, htext, hlead]
      simp

/-- A name joined to a path is its last step, and its parent has the steps of the path. -/
theorem exists_parent_join {p : Path} {n : String} (hp : p.text ≠ "") (hn : IsName n) :
    (p.join n).fileName = some n ∧ ∃ q, (p.join n).parent = some q ∧ Trims q p := by
  have hup : n.toList ≠ ['.', '.'] := fun h => hn.ne_up (String.toList_inj.mp (by simpa using h))
  obtain ⟨hname, hcases⟩ := parent_join_cases hp hn.no_slash (isStep_name hn) hup
  refine ⟨hname, ?_⟩
  rcases hcases with ⟨rfl, hparent⟩ | ⟨hroot, hparent⟩
  · exact ⟨⟨"/"⟩, hparent, @Trims.of_append _ _ [] (by simp) (by simp) (by simp)⟩
  · obtain ⟨rest, hrest⟩ := trunk_append p.text.toList
    obtain ⟨junk, hq, hne, hsteps⟩ := exists_ofParts_trimParts hroot
    refine ⟨_, hparent, @Trims.of_append _ _ (junk ++ rest) ?_ hne ?_⟩
    · rw [← List.append_assoc, ← hq]
      exact hrest
    · rw [hsteps, stepsOf_trunk]

theorem Trims.refl {p : Path} (hne : p.text ≠ "") : Trims p p :=
  ⟨rfl, rfl, hne, Nat.le_refl _, id⟩

theorem Trims.trans {p q r : Path} (h : Trims r q) (h' : Trims q p) : Trims r p where
  moves := h.moves.trans h'.moves
  absolute := h.absolute.trans h'.absolute
  nonempty := h.nonempty
  short := Nat.le_trans h.short h'.short
  no_nul := fun hnul => h.no_nul (h'.no_nul hnul)

/-- A path that ends in a name is its own trim: it is the parent of what is joined to it. -/
theorem parent_join_join {p : Path} {m n : String} (hp : p.text ≠ "") (hm : IsName m)
    (hn : IsName n) : ((p.join m).join n).parent = some (p.join m) := by
  have hne := join_ne_empty hp hm
  have hend : (p.join m).text.toList.getLast? ≠ some '/' := join_getLast hp hm
  have htrunk : trunk (p.join m).text.toList = (p.join m).text.toList := if_neg hend
  have hup : n.toList ≠ ['.', '.'] := fun h => hn.ne_up (String.toList_inj.mp (by simpa using h))
  have hslash : Text.split '/' m.toList = [m.toList] := Text.split_of_not_mem hm.no_slash
  -- the last part before `n` is `m`, so there is nothing to trim
  have hlast : ∃ init, Text.split '/' (lead (p.join m).text.toList).2 = init ++ [m.toList] := by
    rw [join_trunk (name_head hm.no_slash) hp]
    by_cases hroot : trunk p.text.toList = []
    · rw [hroot]
      exact ⟨[], hslash⟩
    · rw [lead_append_slash hroot m.toList]
      refine ⟨Text.split '/' (lead (trunk p.text.toList)).2, ?_⟩
      show Text.split '/' ((lead (trunk p.text.toList)).2 ++ '/' :: m.toList) = _
      rw [Text.split_append, hslash]
  obtain ⟨init, hinit⟩ := hlast
  have hkeep : trimParts (Text.split '/' (lead (p.join m).text.toList).2) =
      Text.split '/' (lead (p.join m).text.toList).2 := by
    rw [hinit]
    exact trimParts_concat (isStep_name hm)
  rcases (parent_join_cases hne hn.no_slash (isStep_name hn) hup).2 with
    ⟨hroot, -⟩ | ⟨-, hparent⟩
  · rw [hroot] at hend
    exact absurd rfl hend
  · rw [hparent, htrunk, hkeep]
    unfold ofParts
    rw [Text.unite_split]
    show some (⟨String.ofList ((lead _).1 ++ (lead _).2)⟩ : Path) = _
    rw [lead_append, String.ofList_toList]

/-! ## §6 Paths that are spelled alike -/

theorem moves_eq_filter (p : Path) :
    p.moves = p.steps.filter fun part => part != "" && part != "." := by
  unfold moves stepsOf steps Text.parts
  rw [List.filter_map]
  congr 1
  apply List.filter_congr
  intro part _
  have hempty : (part != []) = (String.ofList part != "") := by
    rw [Bool.eq_iff_iff]
    simp
  have hhere : (part != ['.']) = (String.ofList part != ".") := by
    rw [Bool.eq_iff_iff, bne_iff_ne, bne_iff_ne, ← String.toList_inj.ne]
    simp
  simp only [Function.comp, isStep, hempty, hhere]

theorem moves_descend {p : Path} (hp : p.text ≠ "") {names : List String}
    (hnames : ∀ m ∈ names, IsName m) : (Export.descend p names).moves = p.moves ++ names := by
  cases names with
  | nil => simp [Export.descend]
  | cons n rest =>
    have hall : (n :: rest).filter (fun part => part != "" && part != ".") = n :: rest := by
      rw [List.filter_eq_self]
      intro m hm
      simp [(hnames m hm).ne_empty, (hnames m hm).ne_here]
    have hstem : p.stem.filter (fun part => part != "" && part != ".") = p.moves := by
      rw [moves_eq_filter]
      rcases stem_cases p with h | h
      · rw [h]
      · rw [h, List.filter_append]
        simp
    rw [moves_eq_filter, steps_descend hp hnames, List.filter_append, hall, hstem]

/-- The steps of parts that are united are among them. -/
theorem mem_of_mem_stepsOf_unite {part : List Char} {parts : List (List Char)}
    (hslash : ∀ part ∈ parts, '/' ∉ part) (hpart : part ∈ stepsOf (Text.unite '/' parts)) :
    part ∈ parts := by
  unfold stepsOf at hpart
  rw [List.mem_filter] at hpart
  by_cases hnil : parts = []
  · rw [hnil] at hpart
    simp [Text.unite, Text.split, isStep] at hpart
    exact absurd hpart.1 hpart.2.1
  · rw [Text.split_unite hnil hslash] at hpart
    exact hpart.1

/-- The steps of a text that starts like another one are among the parts that follow the start. -/
theorem mem_of_mem_stepsOf_lead {cs part : List Char} {parts : List (List Char)}
    (hparts : parts <+: Text.split '/' (lead cs).2)
    (hpart : part ∈ stepsOf ((lead cs).1 ++ Text.unite '/' parts)) : part ∈ parts := by
  have hslash : ∀ part ∈ parts, '/' ∉ part := fun part hmem =>
    Text.not_mem_of_mem_split (hparts.mem hmem)
  rcases lead_cases cs with hlead | hlead | ⟨hlead, -⟩
  · rw [hlead, stepsOf_lead] at hpart
    exact mem_of_mem_stepsOf_unite hslash hpart
  · -- after a dot comes nothing, or a slash, so the first part is empty
    obtain ⟨later, hsplit⟩ := split_of_lead_dot hlead
    rw [hlead] at hpart
    rw [hsplit] at hparts
    cases parts with
    | nil => simp [Text.unite, stepsOf, Text.split, isStep] at hpart
    | cons first rest =>
      obtain rfl : first = [] := (List.cons_prefix_cons.mp hparts).1
      cases rest with
      | nil => simp [Text.unite, stepsOf, Text.split, isStep] at hpart
      | cons next more =>
        have hslash' : ∀ part ∈ next :: more, '/' ∉ part :=
          fun q hq => hslash q (List.mem_cons_of_mem _ hq)
        have hdot : stepsOf (['.'] ++ Text.unite '/' ([] :: next :: more)) =
            stepsOf (Text.unite '/' (next :: more)) :=
          (stepsOf_lead ('.' :: '/' :: _)).trans (stepsOf_lead ('/' :: _))
        rw [hdot] at hpart
        exact List.mem_cons_of_mem _ (mem_of_mem_stepsOf_unite hslash' hpart)
  · rw [hlead, List.nil_append] at hpart
    exact mem_of_mem_stepsOf_unite hslash hpart

/-- What leads up leads nowhere else: the parent of a path has no other moves. -/
theorem mem_moves_of_parent {p q : Path} (h : p.parent = some q) {n : String} (hn : n ∈ q.moves) :
    n ∈ p.moves := by
  unfold parent at h
  unfold moves at hn ⊢
  obtain ⟨part, hpart, rfl⟩ := List.mem_map.mp hn
  refine List.mem_map_of_mem ?_
  simp only at h
  split at h
  · split at h
    · cases h
      simp [stepsOf, Text.split, isStep] at hpart
    · cases h
  · rw [Option.some.injEq] at h
    subst h
    -- the parent is spelled with the first parts of the path
    have hinit : trimParts p.parts.dropLast <+: Text.split '/' (lead p.text.toList).2 := by
      obtain ⟨junk, hsplit, -⟩ := trimParts_append (Text.split '/' (lead p.text.toList).2)
      obtain ⟨rest, hrest, -⟩ := trimParts_append p.parts.dropLast
      refine List.IsPrefix.trans ⟨rest, hrest.symm⟩ ((List.dropLast_prefix _).trans ?_)
      exact ⟨junk, hsplit.symm⟩
    have htext : (ofParts (lead p.text.toList).1 (trimParts p.parts.dropLast)).text.toList =
        (lead p.text.toList).1 ++ Text.unite '/' (trimParts p.parts.dropLast) :=
      String.toList_ofList
    rw [htext] at hpart
    have hstep : isStep part = true := (List.mem_filter.mp hpart).2
    rw [stepsOf_lead]
    exact List.mem_filter.mpr ⟨hinit.mem (mem_of_mem_stepsOf_lead hinit hpart), hstep⟩

/-- The first component of a path that is no step. -/
def anchor (p : Path) : List Component :=
  match (lead p.text.toList).1 with
  | ['/'] => [.root]
  | ['.'] => [.here]
  | _ => []

theorem components_eq (p : Path) :
    p.components = p.anchor ++ (stepsOf p.text.toList).map Component.ofPart := by
  have hsteps : (trimParts (Text.split '/' (lead p.text.toList).2)).filter isStep =
      stepsOf p.text.toList := (stepsOf_trimParts _).trans (stepsOf_lead _).symm
  unfold components anchor parts
  exact congrArg (fun steps => _ ++ steps.map Component.ofPart) hsteps

theorem ofPart_injective : Function.Injective Component.ofPart := by
  intro a b h
  unfold Component.ofPart at h
  split at h <;> split at h
  · simp_all
  · cases h
  · cases h
  · exact String.ofList_injective (Component.name.inj h)

/-- Whether a component is no step. -/
def isAnchor (c : Component) : Bool :=
  c == .root || c == .here

theorem filter_components (p : Path) :
    p.components.filter isAnchor = p.anchor ∧
      p.components.filter (fun c => !isAnchor c) =
        (stepsOf p.text.toList).map Component.ofPart := by
  have hsteps : ∀ c ∈ (stepsOf p.text.toList).map Component.ofPart, isAnchor c = false := by
    intro c hc
    obtain ⟨part, -, rfl⟩ := List.mem_map.mp hc
    unfold Component.ofPart
    split <;> rfl
  have hanchor : ∀ c ∈ p.anchor, isAnchor c = true := by
    intro c hc
    unfold anchor at hc
    split at hc
    · rw [List.mem_singleton.mp hc]; rfl
    · rw [List.mem_singleton.mp hc]; rfl
    · cases hc
  rw [components_eq, List.filter_append, List.filter_append]
  constructor
  · rw [List.filter_eq_self.mpr hanchor, List.filter_eq_nil_iff.mpr, List.append_nil]
    intro c hc
    simp [hsteps c hc]
  · rw [List.filter_eq_nil_iff.mpr, List.filter_eq_self.mpr, List.nil_append]
    · intro c hc
      simp [hsteps c hc]
    · intro c hc
      simp [hanchor c hc]

theorem isAbsolute_iff_anchor (p : Path) : p.isAbsolute = (p.anchor == [.root]) := by
  unfold isAbsolute anchor
  cases hp : p.text.toList with
  | nil => rfl
  | cons c rest =>
    by_cases hslash : c = '/'
    · subst hslash; rfl
    · have hfalse : ((c :: rest).head? == some '/') = false := by simpa using hslash
      rw [hfalse]
      rcases lead_cases (c :: rest) with h | h | ⟨h, -⟩
      · have := lead_append (c :: rest)
        rw [h] at this
        exact absurd (List.cons.inj this).1.symm hslash
      · rw [h]; rfl
      · rw [h]; rfl

/-- Paths with the same components have the same steps from the same start. -/
theorem same_of_alike {a b : Path} (h : a.alike b = true) :
    a.moves = b.moves ∧ a.isAbsolute = b.isAbsolute := by
  have heq : a.components = b.components := by simpa [alike] using h
  have hsteps : stepsOf a.text.toList = stepsOf b.text.toList := by
    apply List.map_injective_iff.mpr ofPart_injective
    rw [← (filter_components a).2, ← (filter_components b).2, heq]
  have hanchor : a.anchor = b.anchor := by
    rw [← (filter_components a).1, ← (filter_components b).1, heq]
  refine ⟨?_, ?_⟩
  · unfold moves
    rw [hsteps]
  · rw [isAbsolute_iff_anchor, isAbsolute_iff_anchor, hanchor]

end Path

end AssetServer
