import AssetServer.Proofs.Placing

/-!
# One file of an export

From the host on which a destination has just been made (`Export.Begins`), an export only adds files
and directories below the destination (`Export.Under`). Exporting one file either does nothing or
writes one file, at the place that its own path under the root says, under the name that
`Kind.exportName?` gives (`Export.file_ok`).
-/

namespace AssetServer

/-- The host has a file with content `b` at a location. -/
def Host.Holds (b : Bytes) (loc : Location) (h : Host) : Prop :=
  ∃ f, h.tree.get? loc = some (.file f) ∧ f.content = b

/-- A file with content `b` was written, and directories were made for it where nothing was. -/
structure Host.Wrote (b : Bytes) (loc : Location) (h k : Host) : Prop where
  holds : k.Holds b loc
  rest : ∀ other, other ≠ loc → k.tree.get? other = h.tree.get? other ∨
    h.tree.get? other = none ∧ k.tree.get? other = some .directory

/-- Other files stay when one is written. -/
theorem Host.Wrote.keeps {b c : Bytes} {loc other : Location} {h k : Host} (hw : Host.Wrote b loc h k)
    (hne : other ≠ loc) (hother : h.Holds c other) : k.Holds c other := by
  obtain ⟨f, hf, hc⟩ := hother
  rcases hw.rest other hne with hsame | ⟨hnone, -⟩
  · exact ⟨f, hsame.trans hf, hc⟩
  · rw [hnone] at hf
    cases hf

namespace Export

variable {x : Export} {h₁ k k' : Host} {root source : Path} {R : Location}

/-! ## §1 Hosts of a pass -/

/-- The destination has just been made: nothing but directories lies below it, and scratch
    directories are made elsewhere. -/
structure Begins (x : Export) (h₁ : Host) : Prop where
  ready : h₁.Ready
  dest : h₁.tree.stat h₁.directory x.dest = .ok (x.location, .directory)
  bare : ∀ rest e, h₁.tree.get? (x.location ++ rest) = some e → e = .directory
  apart : ¬ x.location <+: h₁.temporary

/-- `k` is `h₁` with more below the destination. -/
structure Under (x : Export) (h₁ k : Host) : Prop where
  ready : k.Ready
  beside : h₁.Beside (fun loc => x.location <+: loc) k
  partOf : h₁.tree.PartOf k.tree
  linkFree : k.tree.LinkFree x.location
  scratches : h₁.scratches ≤ k.scratches

theorem Begins.under (hb : x.Begins h₁) : x.Under h₁ h₁ :=
  ⟨hb.ready, .refl h₁, .refl h₁.tree,
    fun rest _ he => Entry.noConfusion (hb.bare rest _ he), Nat.le_refl _⟩

theorem Begins.location (hb : x.Begins h₁) : h₁.tree.get? x.location = some .directory :=
  Tree.get?_of_stat hb.ready.wellFormed hb.ready.directory hb.dest

theorem Begins.dest_ne_empty (hb : x.Begins h₁) : x.dest.text ≠ "" :=
  Tree.ne_empty_of_stat hb.dest

theorem Under.dest (hu : x.Under h₁ k) (hb : x.Begins h₁) :
    k.tree.stat k.directory x.dest = .ok (x.location, .directory) := by
  rw [hu.beside.directory]
  exact Tree.stat_of_partOf hb.dest hu.partOf

theorem Under.location (hu : x.Under h₁ k) (hb : x.Begins h₁) :
    k.tree.get? x.location = some .directory :=
  hu.partOf _ _ hb.location

/-- No scratch directory is made below the destination. -/
theorem Begins.outside (hb : x.Begins h₁) (n : Nat) :
    ¬ x.location <+: h₁.temporary ++ [Host.scratchName n] := by
  intro hbelow
  rcases List.prefix_concat_iff.mp hbelow with hself | hbelow
  · have := hb.location
    rw [hself, hb.ready.noScratch n] at this
    cases this
  · exact hb.apart hbelow

/-- What is changed below the destination does not matter to compilations. -/
theorem Begins.ready_of (hb : x.Begins h₁) (hpart : h₁.tree.PartOf k.tree)
    (hbeside : h₁.Beside (fun loc => x.location <+: loc) k) (hwf : k.tree.WellFormed) : k.Ready :=
  hb.ready.of_partOf hpart hbeside hwf fun n =>
    (hbeside.tree _ (hb.outside n)).trans (hb.ready.noScratch n)

/-- Directories may be made below the destination. -/
theorem Under.grown {P : Location → Prop} {t : Tree} (hu : x.Under h₁ k) (hb : x.Begins h₁)
    (hg : Tree.Grown P k.tree t) (hbelow : ∀ loc, P loc → x.location <+: loc) :
    x.Under h₁ { k with tree := t } := by
  have hbeside : h₁.Beside (fun loc => x.location <+: loc) { k with tree := t } := by
    refine hu.beside.trans ⟨rfl, rfl, rfl, rfl, rfl, fun loc hloc => ?_⟩
    rcases hg.same loc with hsame | ⟨hnew, -⟩
    · exact hsame
    · exact absurd (hbelow loc hnew) hloc
  have hpart : h₁.tree.PartOf t := hu.partOf.trans hg.partOf
  exact ⟨hb.ready_of hpart hbeside hg.wellFormed, hbeside, hpart, hg.linkFree hu.linkFree,
    hu.scratches⟩

/-- A file may be written below the destination. -/
theorem Under.put {loc : Location} {f : RegularFile} (hu : x.Under h₁ k) (hb : x.Begins h₁)
    (hwf : (k.tree.put loc (.file f)).WellFormed) (hbelow : x.location <+: loc) (hne : loc ≠ [])
    (hplace : k.tree.get? loc ≠ some .directory) :
    x.Under h₁ { k with tree := k.tree.put loc (.file f) } := by
  have hbeside : h₁.Beside (fun loc => x.location <+: loc)
      { k with tree := k.tree.put loc (.file f) } := by
    refine hu.beside.trans ⟨rfl, rfl, rfl, rfl, rfl, fun other hother => ?_⟩
    refine Tree.get?_put_of_ne k.tree ?_ _
    rintro rfl
    exact hother hbelow
  have hpart : h₁.tree.PartOf (k.tree.put loc (.file f)) := by
    intro other e he
    rw [Tree.get?_put hne, if_neg]
    · exact hu.partOf other e he
    · rintro rfl
      obtain ⟨rest, rfl⟩ := hbelow
      -- what lay below the destination from the start are directories, and they stay
      have hdir := hb.bare rest e he
      rw [hdir] at he
      exact hplace (hu.partOf _ _ he)
  refine ⟨hb.ready_of hpart hbeside hwf, hbeside, hpart, fun rest target he => ?_, hu.scratches⟩
  rw [Tree.get?_put hne] at he
  split at he
  · cases he
  · exact hu.linkFree rest target he

/-- Compiling keeps what an export has written. -/
theorem Under.quiet (hu : x.Under h₁ k) (hq : k.Quiet k') : x.Under h₁ k' where
  ready := hq.ready
  beside := hu.beside.trans (hq.beside.mono fun _ h => h.elim)
  partOf := fun loc e he => (hq.get? loc).trans (hu.partOf loc e he)
  linkFree := fun rest target => by
    rw [hq.get?]
    exact hu.linkFree rest target
  scratches := Nat.le_trans hu.scratches hq.scratches

/-! ## §2 Places below the destination -/

variable {dir : List String} {q : Path} {n : String}

theorem Under.based (hu : x.Under h₁ k) (hb : x.Begins h₁) : x.Based k :=
  ⟨hu.ready.wellFormed, hu.ready.directory, hu.dest hb, hu.linkFree⟩

/-- Making the directories for a file makes them below the destination. -/
theorem Under.clears (hu : x.Under h₁ k) (hb : x.Begins h₁) (hc : x.Clears dir k k') :
    x.Under h₁ k' := by
  obtain ⟨t, hg, rfl⟩ := hc
  exact hu.grown hb hg fun _ => OnTheWay.below

/-- Writing a file below the destination writes its content. -/
theorem Under.puts {f : RegularFile} (hu : x.Under h₁ k) (hb : x.Begins h₁)
    (hp : x.Puts dir n f k k') :
    x.Under h₁ k' ∧ Host.Wrote f.content (x.location ++ (dir ++ [n])) k k' := by
  have hwf := hp.wellFormed
  have hself := hp.get?_self
  obtain ⟨k₁, hc, hplace, rfl⟩ := hp.exists_clears
  refine ⟨(hu.clears hb hc).put hb hwf (List.prefix_append _ _) (by simp) hplace,
    ⟨f, hself, rfl⟩, fun other hother => ?_⟩
  obtain ⟨t, hg, rfl⟩ := hc
  rw [Tree.get?_put_of_ne _ hother]
  rcases hg.same other with hstay | ⟨-, hnone, hnew⟩
  · exact .inl hstay
  · exact .inr ⟨hnone, hnew⟩

/-! ## §3 Roots -/

/-- A root without links that lies apart from the destination. -/
structure Apart (x : Export) (h₁ : Host) (root : Path) (R : Location) : Prop where
  stat : h₁.tree.stat h₁.directory root = .ok (R, .directory)
  linkFree : h₁.tree.LinkFree R
  outside : ∀ names, ¬ x.location <+: R ++ names

variable {names : List String}

/-- An export does not change what lies below a root. -/
theorem Apart.get? (ha : x.Apart h₁ root R) (hu : x.Under h₁ k) (names : List String) :
    k.tree.get? (R ++ names) = h₁.tree.get? (R ++ names) :=
  hu.beside.tree _ (ha.outside names)

theorem Apart.stat_under (ha : x.Apart h₁ root R) (hu : x.Under h₁ k) :
    k.tree.stat k.directory root = .ok (R, .directory) := by
  rw [hu.beside.directory]
  exact Tree.stat_of_partOf ha.stat hu.partOf

theorem Apart.location (ha : x.Apart h₁ root R) (hb : x.Begins h₁) :
    h₁.tree.get? R = some .directory :=
  Tree.get?_of_stat hb.ready.wellFormed hb.ready.directory ha.stat

theorem Begins.isName (hb : x.Begins h₁) {e : Entry} (he : h₁.tree.get? (R ++ names) = some e) :
    ∀ m ∈ names, IsName m :=
  hb.ready.wellFormed.names he

/-- What names lead to below a root, during an export. -/
theorem Apart.stat_names_iff (ha : x.Apart h₁ root R) (hb : x.Begins h₁) (hu : x.Under h₁ k)
    (hnames : ∀ m ∈ names, IsName m) {loc : Location} {e : Entry} :
    k.tree.stat k.directory (descend root names) = .ok (loc, e) ↔
      Tree.Fits (descend root names) ∧ loc = R ++ names ∧ h₁.tree.get? (R ++ names) = some e := by
  rw [← ha.get? hu]
  refine Tree.stat_names_iff (ha.stat_under hu) (.refl k.tree) hu.ready.wellFormed ?_ ?_ hnames
  · exact hu.partOf _ _ (ha.location hb)
  · intro rest target
    rw [ha.get? hu]
    exact ha.linkFree rest target

/-- A file below a root is in another place than what its names lead to below the destination. -/
theorem Apart.samePlace (ha : x.Apart h₁ root R) (hb : x.Begins h₁) (hu : x.Under h₁ k) {e : Entry}
    (he : h₁.tree.get? (R ++ names) = some e) (hfits : Tree.Fits (descend root names)) :
    k.tree.samePlace k.directory (descend root names) (descend x.dest names) = false := by
  rw [← Bool.not_eq_true]
  intro hsame
  rw [← ha.get? hu] at he
  have hfree : k.tree.LinkFree R := by
    intro rest target
    rw [ha.get? hu]
    exact ha.linkFree rest target
  have hR := eq_location_of_samePlace (hu.based hb) (ha.stat_under hu) hfree he hfits hsame
  exact ha.outside [] ⟨[], by rw [hR]⟩

/-! ## §4 One file -/

/-- The bytes that a source is exported as: its own, or what compiling it wrote in the course of the
    export. -/
def Rendered (x : Export) (h₁ : Host) (source : Path) (b : Bytes) : Prop :=
  if Kind.ofPath source = .passthrough then h₁.tree.bytesAt h₁.directory source = .ok b
  else ∃ k n o, x.Under h₁ k ∧
    runFrom (x.compiler.compile (Kind.ofPath source) source) ⟨k, .unlimited⟩ = (.ok n, o) ∧
    o.sink.held = b

/-- Compiling into a file below the destination writes what compiling gives. -/
theorem compileToFile_under {kind : Kind} {m : Nat} (hb : x.Begins h₁) (hu : x.Under h₁ k)
    (hdir : ∀ m ∈ dir, IsName m) (hq : Tree.Spells x.dest dir q) (hn : IsName n)
    (hrun : runFrom (x.compiler.compileToFile kind source (q.join n)) k = (.ok m, k')) :
    x.Under h₁ k' ∧ ∃ k₂ o, x.Under h₁ k₂ ∧
      runFrom (x.compiler.compile kind source) ⟨k₂, .unlimited⟩ = (.ok m, o) ∧
      Host.Wrote o.sink.held (x.location ++ (dir ++ [n])) k k' := by
  rcases compileToFile_cases (hu.based hb) hdir hq hn hrun with
    ⟨⟨e, herror⟩, -⟩ | ⟨f, k₂, o, -, -, -, hputs, hcompile, rfl⟩
  · cases herror
  -- the output is emptied, the source compiled, and then the output filled
  obtain ⟨hu₂, hwrote⟩ := hu.puts hb hputs
  obtain ⟨hquiet, hempty, hfill, hwf⟩ := fill_compiled hu₂.ready hputs.get?_self hcompile
  have hu₃ := hu₂.quiet hquiet
  have hne : x.location ++ (dir ++ [n]) ≠ [] := by simp
  rw [hfill]
  refine ⟨hu₃.put hb hwf (List.prefix_append _ _) hne (by simp [hempty]),
    k₂, o, hu₂, hcompile, ⟨_, Tree.get?_put_self _ hne _, rfl⟩, fun other hother => ?_⟩
  rw [Tree.get?_put_of_ne _ hother, hquiet.get?]
  exact hwrote.rest other hother

/-- Copying a file to below the destination writes its content. -/
theorem copy_under {f : RegularFile} {p p' : Pass} (hb : x.Begins h₁) (ha : x.Apart h₁ root R)
    (hu : x.Under h₁ p.host) (hfile : h₁.tree.get? (R ++ (dir ++ [n])) = some (.file f))
    (hfits : Tree.Fits (descend root (dir ++ [n])))
    (hrun : runFrom (copy (descend root (dir ++ [n])) (descend x.dest (dir ++ [n]))) p =
      (.ok (), p')) :
    x.Under h₁ p'.host ∧ Host.Wrote f.content (x.location ++ (dir ++ [n])) p.host p'.host := by
  have hnames := hb.isName hfile
  have hdir : ∀ m ∈ dir, IsName m := fun m hm => hnames m (List.mem_append_left _ hm)
  rcases copy_cases (hu.based hb) hdir (hnames n (by simp)) (ha.samePlace hb hu hfile hfits) hrun
    with ⟨e, -, herror, -⟩ | ⟨k₁, g, k₂, -, -, hclears, hopen, hputs, rfl⟩
  · cases herror
  · have hstat := (ha.stat_names_iff hb (hu.clears hb hclears) hnames).mpr ⟨hfits, rfl, hfile⟩
    cases hopen.symm.trans (Tree.openFile_file_iff.mpr ⟨_, hstat⟩)
    obtain ⟨hu', hwrote⟩ := hu.puts hb hputs
    exact ⟨hu', hwrote⟩

/-- Exporting a file does nothing, for a fragment, or writes what it is rendered as. -/
theorem file_ok {f : RegularFile} {p p' : Pass} (hb : x.Begins h₁) (ha : x.Apart h₁ root R)
    (hu : x.Under h₁ p.host) (hfile : h₁.tree.get? (R ++ (dir ++ [n])) = some (.file f))
    (hfits : Tree.Fits (descend root (dir ++ [n])))
    (hrun : runFrom (x.file root (dir ++ [n])) p = (.ok (), p')) :
    x.Under h₁ p'.host ∧ (Kind.exportName? n = none → p'.host = p.host) ∧
      ∀ o, Kind.exportName? n = some o → ∃ b, x.Rendered h₁ (descend root (dir ++ [n])) b ∧
        Host.Wrote b (x.location ++ (dir ++ [o])) p.host p'.host := by
  have hnames := hb.isName hfile
  have hdir : ∀ m ∈ dir, IsName m := fun m hm => hnames m (List.mem_append_left _ hm)
  have hn : IsName n := hnames n (by simp)
  have hroot_ne : root.text ≠ "" := Tree.ne_empty_of_stat ha.stat
  have hkind := ofPath_descend hroot_ne hdir hn
  rcases file_cases (hu.based hb).dest_ne_empty hroot_ne hdir hn hrun with
    ⟨hnone, -, rfl⟩ | ⟨hplain, hcopy⟩ | ⟨o, q, made, k', ho, hcompiled, hq, hmade, hdone⟩
  · refine ⟨hu, fun _ => rfl, fun o ho => ?_⟩
    rw [hnone] at ho
    cases ho
  -- a copy has the name of its source
  · have hself : Kind.exportName? n = some n := Kind.exportName?_plain hplain
    obtain ⟨hu', hwrote⟩ := copy_under hb ha hu hfile hfits hcopy
    refine ⟨hu', fun hnone => ?_, fun o ho => ?_⟩
    · rw [hself] at hnone
      cases hnone
    · rw [hself] at ho
      cases ho
      refine ⟨f.content, ?_, hwrote⟩
      have hstat := (ha.stat_names_iff hb hb.under hnames).mpr ⟨hfits, rfl, hfile⟩
      unfold Rendered
      rw [hkind, hplain, if_pos rfl]
      exact Tree.bytesAt_of_stat hstat
  · rcases hdone with ⟨e, -, herror, -⟩ | ⟨m, rfl, -, rfl⟩
    · cases herror
    obtain ⟨hu', k₂, o₂, hu₂, hrendered, hwrote⟩ :=
      compileToFile_under hb hu hdir hq (Kind.exportName?_isName hn ho) hmade
    refine ⟨hu', fun hnone => ?_, fun o' ho' => ?_⟩
    · rw [ho] at hnone
      cases hnone
    · rw [ho] at ho'
      cases ho'
      refine ⟨o₂.sink.held, ?_, hwrote⟩
      unfold Rendered
      rw [hkind, if_neg hcompiled]
      exact ⟨k₂, m, o₂, hu₂, hrendered, rfl⟩

end Export

end AssetServer
