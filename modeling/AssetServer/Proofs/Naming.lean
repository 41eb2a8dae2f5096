import AssetServer.Proofs.Confinement

/-!
# Names of sources and of what they are exported as

A compiled source is exported under its name with another ending, any other file under its own
name, and a fragment not at all (`Kind.exportName?`). Endings do not overlap, so a name has the kind
that its ending says (`Kind.ofName_append`), and the sources of one output differ in their endings
only (`Kind.exportName?_iff`). An output has the name of a source again if the rest of such a name
is left before its ending (`Kind.ofName_exportName?_iff`).
-/

namespace AssetServer

namespace Kind

/-! ## §1 Endings -/

theorem stem?_iff {text suffix s : String} :
    stem? text suffix = some s ↔ text = s ++ suffix := by
  unfold stem?
  constructor
  · intro h
    split at h
    · rename_i hsuffix
      obtain ⟨init, hinit⟩ := List.isSuffixOf_iff_suffix.mp hsuffix
      cases h
      have hlength : text.length - suffix.length = init.length := by
        rw [← String.length_toList, ← String.length_toList, ← hinit, List.length_append]
        omega
      rw [← String.toList_inj, String.toList_append, String.toList_ofList, hlength, ← hinit,
        List.take_left]
    · cases h
  · rintro rfl
    have hsuffix : suffix.toList.isSuffixOf (s ++ suffix).toList = true := by
      rw [List.isSuffixOf_iff_suffix, String.toList_append]
      exact List.suffix_append _ _
    rw [if_pos hsuffix, String.length_append, Nat.add_sub_cancel, String.toList_append,
      ← String.length_toList, List.take_left, String.ofList_toList]

theorem endsIn_iff {text suffix : String} : endsIn text suffix = true ↔ ∃ s, text = s ++ suffix := by
  constructor
  · intro h
    refine ⟨String.ofList (text.toList.take (text.length - suffix.length)), ?_⟩
    rw [← stem?_iff]
    exact if_pos h
  · rintro ⟨s, rfl⟩
    unfold endsIn
    rw [List.isSuffixOf_iff_suffix, String.toList_append]
    exact List.suffix_append _ _

/-- A text has only one of two endings that do not overlap. -/
theorem endsIn_append_of_apart {s suffix other : String} (h : ¬ other.toList <:+ suffix.toList)
    (h' : ¬ suffix.toList <:+ other.toList) : endsIn (s ++ suffix) other = false := by
  rw [← Bool.not_eq_true]
  intro hend
  have hother : other.toList <:+ (s ++ suffix).toList := List.isSuffixOf_iff_suffix.mp hend
  have hself : suffix.toList <:+ (s ++ suffix).toList := by
    rw [String.toList_append]
    exact List.suffix_append _ _
  rcases List.suffix_or_suffix_of_suffix hother hself with hx | hx
  · exact h hx
  · exact h' hx

/-- A name has the endings of no two compiled kinds. -/
theorem endsIn_suffix_iff {k k' : Kind} {suffix other : String} (hk : k.suffix? = some suffix)
    (hk' : k'.suffix? = some other) (s : String) : endsIn (s ++ suffix) other = true ↔ k' = k := by
  constructor
  · intro hend
    by_contra hne
    have hapart : ¬ other.toList <:+ suffix.toList ∧ ¬ suffix.toList <:+ other.toList := by
      revert hne
      cases k <;> cases hk <;> cases k' <;> cases hk' <;> decide
    rw [endsIn_append_of_apart hapart.1 hapart.2] at hend
    cases hend
  · rintro rfl
    cases hk.symm.trans hk'
    exact endsIn_iff.mpr ⟨s, rfl⟩

/-- A name with the ending of a compiled kind has that kind. -/
theorem ofName_append {k : Kind} {suffix : String} (hk : k.suffix? = some suffix) (s : String) :
    ofName (s ++ suffix) = k := by
  -- of all compiled kinds, the name has the ending of `k` only
  have hends : (fun k' : Kind => k'.suffix?.any (endsIn (s ++ suffix))) = fun k' => k' = k := by
    funext k'
    cases hk' : k'.suffix? with
    | none =>
      have hne : k' ≠ k := by
        rintro rfl
        rw [hk] at hk'
        cases hk'
      simp [hne]
    | some other => simpa using Bool.eq_iff_iff.mpr (by simpa using endsIn_suffix_iff hk hk' s)
  have hself : compiled.find? (fun k' => k' = k) = some k := by
    cases k <;> cases hk <;> rfl
  unfold ofName
  rw [hends, hself]

/-- A name of a compiled kind has the ending of that kind. -/
theorem exists_of_ofName {k : Kind} {n suffix : String} (hk : k.suffix? = some suffix)
    (h : ofName n = k) : ∃ s, n = s ++ suffix := by
  unfold ofName at h
  split at h
  · rename_i k' hfind
    subst h
    have hend := List.find?_some hfind
    rw [hk] at hend
    exact endsIn_iff.mp hend
  · split at h
    · subst h
      cases hk
    · subst h
      cases hk

theorem suffix_no_slash {k : Kind} {suffix : String} (hk : k.suffix? = some suffix) :
    '/' ∉ suffix.toList := by
  cases k <;> cases hk <;> decide

/-- What ends like a source is a name, whatever it begins with. -/
theorem isPart_append {k : Kind} {s suffix : String} (hk : k.suffix? = some suffix)
    (hs : '/' ∉ s.toList) : Tree.IsPart (s ++ suffix) :=
  Tree.isPart_of_ending hs (by cases k <;> cases hk <;> decide)

end Kind

theorem Output.extension_no_slash (out : Output) : '/' ∉ out.extension.toList := by
  cases out <;> decide

theorem Output.isPart_append {s : String} (out : Output) (hs : '/' ∉ s.toList) :
    Tree.IsPart (s ++ out.extension) :=
  Tree.isPart_of_ending hs (by cases out <;> decide)

namespace Kind

/-! ## §2 Kinds and outputs -/

/-- The kinds that have an ending are those that have an output. -/
theorem exists_suffix_iff_output {k : Kind} :
    (∃ suffix, k.suffix? = some suffix) ↔ ∃ out, k.output? = some out := by
  cases k <;> simp [suffix?, output?]

theorem mem_candidates_iff {k : Kind} {out : Output} :
    k ∈ out.candidates ↔ k.output? = some out := by
  cases k <;> cases out <;> simp [Output.candidates, output?]

/-- No ending is shorter than that of the output. -/
theorem extension_size_le {k : Kind} {suffix : String} {out : Output}
    (hs : k.suffix? = some suffix) (ho : k.output? = some out) :
    out.extension.utf8ByteSize ≤ suffix.utf8ByteSize := by
  cases k <;> cases hs <;> cases ho <;> decide

theorem outputFileName?_append {k : Kind} {suffix : String} {out : Output}
    (hs : k.suffix? = some suffix) (ho : k.output? = some out) (s : String) :
    k.outputFileName? (s ++ suffix) = some (s ++ out.extension) := by
  unfold outputFileName?
  simp [hs, ho, stem?_iff.mpr rfl]

theorem mem_compiled_iff {k : Kind} : k ∈ compiled ↔ ∃ suffix, k.suffix? = some suffix := by
  cases k <;> simp [compiled, suffix?]

/-- The only ending of a source that goes together with that of an output. -/
theorem eq_of_suffix_overlap {k : Kind} {suffix : String} {out : Output}
    (hk : k.suffix? = some suffix)
    (h : suffix.toList <:+ out.extension.toList ∨ out.extension.toList <:+ suffix.toList) :
    suffix = ".main.js" := by
  revert h
  cases out <;> cases k <;> cases hk <;> decide

/-- The name of an output is that of a source only if it has the one ending of a source that ends in
    that of an output. -/
theorem ofName_output_iff {out : Output} {s : String} :
    ofName (s ++ out.extension) ∈ compiled ↔ ∃ t, s ++ out.extension = t ++ ".main.js" := by
  constructor
  · intro h
    obtain ⟨suffix, hsuffix⟩ := mem_compiled_iff.mp h
    obtain ⟨t, ht⟩ := exists_of_ofName hsuffix rfl
    -- two endings of one name overlap
    have hoverlap : suffix.toList <:+ out.extension.toList ∨
        out.extension.toList <:+ suffix.toList := by
      by_contra hapart
      rw [not_or] at hapart
      have hnot := endsIn_append_of_apart (s := s) hapart.1 hapart.2
      rw [endsIn_iff.mpr ⟨t, ht⟩] at hnot
      cases hnot
    obtain rfl := eq_of_suffix_overlap hsuffix hoverlap
    exact ⟨t, ht⟩
  · rintro ⟨t, ht⟩
    rw [ht, ofName_append (k := .preprocessedScript) rfl]
    decide

/-! ## §3 Names in an export -/

/-- The name that a file is exported under, in the directory that its own leads to. -/
def exportName? (n : String) : Option String :=
  match ofName n with
  | .unknown => none
  | .passthrough => some n
  | k => k.outputFileName? n

theorem unknown_or_plain_or_compiled (k : Kind) : k = .unknown ∨ k = .passthrough ∨
    ∃ suffix out, k.suffix? = some suffix ∧ k.output? = some out := by
  cases k <;> simp [suffix?, output?]

theorem exportName?_plain {n : String} (h : ofName n = .passthrough) : exportName? n = some n := by
  unfold exportName?
  rw [h]

theorem exportName?_append {k : Kind} {suffix : String} {out : Output}
    (hs : k.suffix? = some suffix) (ho : k.output? = some out) (s : String) :
    exportName? (s ++ suffix) = some (s ++ out.extension) := by
  have hname := outputFileName?_append hs ho s
  unfold exportName?
  rw [ofName_append hs s]
  cases k with
  | passthrough | unknown => cases hs
  | _ => exact hname

/-- The files that are not exported are the fragments. -/
theorem exportName?_eq_none_iff {n : String} : exportName? n = none ↔ ofName n = .unknown := by
  constructor
  · intro h
    rcases unknown_or_plain_or_compiled (ofName n) with hkind | hkind | ⟨suffix, out, hs, ho⟩
    · exact hkind
    · rw [exportName?_plain hkind] at h
      cases h
    · obtain ⟨s, rfl⟩ := exists_of_ofName hs rfl
      rw [exportName?_append hs ho] at h
      cases h
  · intro h
    unfold exportName?
    rw [h]

/-- A file is exported under a name if it is used as it is and has that name, or if it is compiled
    and its name is that of the output with another ending. -/
theorem exportName?_iff {n o : String} :
    exportName? n = some o ↔ (ofName n = .passthrough ∧ o = n) ∨
      ∃ (k : Kind) (suffix : String) (out : Output) (s : String), k.suffix? = some suffix ∧
        k.output? = some out ∧ n = s ++ suffix ∧ o = s ++ out.extension := by
  constructor
  · intro h
    rcases unknown_or_plain_or_compiled (ofName n) with hkind | hkind | ⟨suffix, out, hs, ho⟩
    · rw [exportName?_eq_none_iff.mpr hkind] at h
      cases h
    · rw [exportName?_plain hkind] at h
      exact .inl ⟨hkind, (Option.some.inj h).symm⟩
    · obtain ⟨s, rfl⟩ := exists_of_ofName hs rfl
      rw [exportName?_append hs ho] at h
      exact .inr ⟨_, suffix, out, s, hs, ho, rfl, (Option.some.inj h).symm⟩
  · rintro (⟨hkind, rfl⟩ | ⟨k, suffix, out, s, hs, ho, rfl, rfl⟩)
    · exact exportName?_plain hkind
    · exact exportName?_append hs ho s

/-- What is compiled is exported under the name that its kind says. -/
theorem outputFileName?_of_exportName? {n o : String} (h : exportName? n = some o)
    (hplain : ofName n ≠ .passthrough) : (ofName n).outputFileName? n = some o := by
  rcases exportName?_iff.mp h with ⟨hkind, -⟩ | ⟨k, suffix, out, s, hs, ho, rfl, rfl⟩
  · exact absurd hkind hplain
  · rw [ofName_append hs s]
    exact outputFileName?_append hs ho s

/-- What is compiled is exported as a source if nothing but `.js` follows a second `.main` in its
    name. -/
theorem ofName_exportName?_iff {n o : String} (hn : ofName n ∈ compiled)
    (h : exportName? n = some o) : ofName o ∈ compiled ↔ ∃ t, o = t ++ ".main.js" := by
  rcases exportName?_iff.mp h with ⟨hplain, -⟩ | ⟨k, suffix, out, s, -, -, -, rfl⟩
  · rw [hplain] at hn
    exact absurd hn (by decide)
  · exact ofName_output_iff

theorem exportName?_isName {n o : String} (hn : IsName n) (h : exportName? n = some o) :
    IsName o := by
  rcases exportName?_iff.mp h with ⟨-, rfl⟩ | ⟨k, suffix, out, s, hs, ho, rfl, rfl⟩
  · exact hn
  · have hsize := extension_size_le hs ho
    have hshort := hn.short
    have hslash := hn.no_slash
    have hnul := hn.no_nul
    rw [String.utf8ByteSize_append] at hshort
    rw [String.toList_append, List.mem_append, not_or] at hslash hnul
    refine (out.isPart_append hslash.1).isName ?_ ?_
    · rw [String.toList_append, List.mem_append, not_or]
      exact ⟨hnul.1, by cases out <;> decide⟩
    · rw [String.utf8ByteSize_append]
      omega

end Kind

end AssetServer
