/-!
# Cutting text at a mark

`Text.split` cuts characters at every occurrence of a mark and `Text.unite` puts them together
again. Both ways lose nothing: `unite_split` and `split_unite`.
-/

namespace AssetServer.Text

/-- Cuts at every `mark`. Always at least one part, possibly empty. -/
def split (mark : Char) : List Char → List (List Char)
  | [] => [[]]
  | c :: rest =>
    if c = mark then [] :: split mark rest
    else match split mark rest with
      | [] => [[c]]
      | part :: parts => (c :: part) :: parts

/-- Puts parts together with a `mark` between each two. -/
def unite (mark : Char) : List (List Char) → List Char
  | [] => []
  | [part] => part
  | part :: next :: parts => part ++ mark :: unite mark (next :: parts)

theorem split_ne_nil (mark : Char) (cs : List Char) : split mark cs ≠ [] := by
  induction cs with
  | nil => simp [split]
  | cons c rest ih =>
    unfold split
    split
    · simp
    · split <;> simp

/-- Putting the parts of a cut together gives the text back. -/
theorem unite_split (mark : Char) (cs : List Char) : unite mark (split mark cs) = cs := by
  induction cs with
  | nil => rfl
  | cons c rest ih =>
    unfold split
    split
    · rename_i h
      cases hs : split mark rest with
      | nil => exact absurd hs (split_ne_nil mark rest)
      | cons part parts => simp [unite, ← hs, ih, h]
    · cases hs : split mark rest with
      | nil => exact absurd hs (split_ne_nil mark rest)
      | cons part parts =>
        rw [hs] at ih
        cases parts with
        | nil => simpa [unite] using ih
        | cons next more => simpa [unite] using ih

theorem split_of_not_mem {mark : Char} {part : List Char} (h : mark ∉ part) :
    split mark part = [part] := by
  induction part with
  | nil => rfl
  | cons c rest ih =>
    simp only [List.mem_cons, not_or] at h
    simp [split, Ne.symm h.1, ih h.2]

theorem split_append_mark {mark : Char} {part : List Char} (h : mark ∉ part)
    (rest : List Char) : split mark (part ++ mark :: rest) = part :: split mark rest := by
  induction part with
  | nil => simp [split]
  | cons c more ih =>
    simp only [List.mem_cons, not_or] at h
    simp [split, Ne.symm h.1, ih h.2]

/-- Cutting what was put together gives the parts back, if no part holds the mark. -/
theorem split_unite {mark : Char} {parts : List (List Char)} (hne : parts ≠ [])
    (h : ∀ part ∈ parts, mark ∉ part) : split mark (unite mark parts) = parts := by
  induction parts with
  | nil => exact absurd rfl hne
  | cons part rest ih =>
    cases rest with
    | nil => exact split_of_not_mem (h part (by simp))
    | cons next more =>
      rw [unite, split_append_mark (h part (by simp)),
        ih (by simp) (fun p hp => h p (List.mem_cons_of_mem _ hp))]

/-- A part of a cut never holds the mark. -/
theorem not_mem_of_mem_split {mark : Char} {cs part : List Char} (h : part ∈ split mark cs) :
    mark ∉ part := by
  induction cs generalizing part with
  | nil => simp only [split, List.mem_singleton] at h; simp [h]
  | cons c rest ih =>
    unfold split at h
    split at h
    · rcases List.mem_cons.1 h with rfl | h
      · simp
      · exact ih h
    · rename_i hc
      cases hs : split mark rest with
      | nil => exact absurd hs (split_ne_nil mark rest)
      | cons first parts =>
        rw [hs] at h ih
        rcases List.mem_cons.1 h with rfl | h
        · simp [Ne.symm hc, @ih first (by simp)]
        · exact ih (List.mem_cons_of_mem _ h)

/-- The parts of a text between marks, as text. -/
def parts (mark : Char) (text : String) : List String :=
  (split mark text.toList).map String.ofList

end AssetServer.Text
