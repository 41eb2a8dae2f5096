import Mathlib.Data.List.Sort
import AssetServer.Proofs.Rerun
import AssetServer.Proofs.Steady

/-!
# An export that is run again

A second export finds the outputs of the first one where it goes. If none of them is compiled or
copied itself (`Export.Repeatable`), then the files that it writes are those that the first one
wrote, in the same order, whatever else it comes to on the way (`Export.Tour.retraces`).
-/

namespace AssetServer.Export

variable {x : Export} {roots : List Path} {made h₁ k k₁ k' p p' : Host} {u v : Visit}
  {visits : List Visit} {ending : Ending} {names : List String} {loc : Location}

/-! ## §1 Places that an export writes to -/

/-- The place of an output. -/
def OutputAt (x : Export) (roots : List Path) (h₁ : Host) (loc : Location) : Prop :=
  ∃ v : Visit, v.host = h₁ ∧ v.Met x roots ∧ v.Writes x ∧
    ∃ names, v.output? = some names ∧ loc = x.location ++ names

/-- Where an export changes something that began on `made` and left `h₁`, if it is run again: at
    outputs, at directories that it has made, and at scratch directories. -/
def Marked (x : Export) (roots : List Path) (made h₁ : Host) (loc : Location) : Prop :=
  x.OutputAt roots h₁ loc ∨
    (made.tree.get? loc = none ∧ h₁.tree.get? loc = some .directory) ∨
    ∃ n rest, loc = h₁.temporary ++ Host.scratchName n :: rest

/-- An export that began on `made` and left `h₁` does not get in its own way when it is run
    again. -/
structure Repeatable (x : Export) (roots : List Path) (made h₁ : Host) : Prop where
  /-- No output is compiled or copied itself. -/
  settled : ∀ v : Visit, v.host = h₁ → v.Met x roots →
    x.OutputAt roots h₁ (v.base ++ v.names) → ¬ v.Writes x
  /-- Files that are copied may be written to, since their copies take over their modes. -/
  writable : ∀ v : Visit, v.host = h₁ → v.Met x roots → v.Copied x →
    h₁.Writable (v.base ++ v.names)
  /-- Files in their places are seen to be there. -/
  inPlace : ∀ v : Visit, v.host = h₁ → v.Met x roots → v.kind = .passthrough →
    v.base = x.location →
    h₁.tree.samePlace h₁.directory v.source (descend x.dest v.names) = true
  /-- Directories that were made, and that a root leads to, can be listed. -/
  listed : ∀ root ∈ roots, ∀ base names, h₁.tree.stat h₁.directory root = .ok (base, .directory) →
    made.tree.get? (base ++ names) = none → h₁.tree.get? (base ++ names) = some .directory →
    x.Avoids base names → Tree.Fits (descend root names)
  /-- No compilation depends on what the export writes. -/
  steady : ∀ v : Visit, v.host = h₁ → v.Met x roots → v.Compiled →
    x.compiler.Steady h₁ (x.Marked roots made h₁) v.kind v.source
  /-- The next scratch directories have no longer names than the ones before. -/
  shorter : ∀ n, made.scratches + n < h₁.scratches →
    (Host.scratchName (h₁.scratches + n)).utf8ByteSize ≤
      (Host.scratchName (made.scratches + n)).utf8ByteSize

/-- Outputs are neither compiled nor copied if no root lies below the destination and, where a root
    is the destination, no output has the name of a source. -/
theorem settled_of_names
    (hbelow : ∀ root ∈ roots, ∀ base, h₁.tree.stat h₁.directory root = .ok (base, .directory) →
      x.location <+: base → base = x.location)
    (hnames : ∀ root ∈ roots, h₁.tree.stat h₁.directory root = .ok (x.location, .directory) →
      ∀ u : Visit, u.host = h₁ → u.Met x roots → u.Compiled → ∀ t,
        Kind.exportName? u.name ≠ some (t ++ ".main.js"))
    (hhost : v.host = h₁) (hmet : v.Met x roots) (hout : x.OutputAt roots h₁ (v.base ++ v.names)) :
    ¬ v.Writes x := by
  obtain ⟨u, huhost, humet, huwrites, names, hu, hplace⟩ := hout
  obtain ⟨o, ho⟩ := huwrites.exists_exportName?
  rw [output?_eq ho, Option.some.injEq] at hu
  subst hu
  have hroot := hmet.stat_root
  rw [hhost] at hroot
  -- a root above the destination leads to an output only through the destination
  have hbase : v.base = x.location := by
    rcases List.prefix_or_prefix_of_prefix (List.prefix_append v.base v.names)
      (hplace ▸ List.prefix_append x.location (u.dir ++ [o])) with ⟨rest, hrest⟩ | habove
    · by_contra hne
      refine hmet.avoids rest ?_ ?_ hrest
      · rintro rfl
        rw [List.append_nil] at hrest
        exact hne hrest
      · rw [← hrest, List.append_assoc] at hplace
        exact ⟨_, (List.append_cancel_left hplace).symm⟩
    · exact hbelow v.root hmet.root_mem v.base hroot habove
  rw [hbase] at hplace hroot
  obtain ⟨-, hname⟩ := List.append_inj' (List.append_cancel_left hplace) rfl
  obtain rfl : v.name = o := List.singleton_inj.mp hname
  rintro (hcompiled | hcopied)
  · rcases huwrites with hucompiled | hucopied
    · obtain ⟨t, ht⟩ := (Kind.ofName_exportName?_iff hucompiled ho).mp hcompiled
      exact hnames v.root hmet.root_mem hroot u huhost humet hucompiled t
        (ho.trans (congrArg some ht))
    · rw [Visit.exportName?_of_copied hucopied, Option.some.injEq] at ho
      have hplain : v.kind = .passthrough := by
        unfold Visit.kind
        rw [← ho]
        exact hucopied.1
      exact hcompiled.ne_passthrough hplain
  · exact hcopied.2 (by rw [hbase])

/-! ## §2 What changes along a chain -/

theorem Chain.beside (h : Chain x k visits k' ending) :
    k.Beside (fun loc => x.location <+: loc) k' := by
  induction h with
  | finished => exact .refl _
  | unlisted => exact .refl _
  | failed hfile hfails =>
    obtain ⟨o, -, hchanges⟩ := hfails.changes
    exact hchanges.beside
  | visit hfile hdone hrest ih =>
    cases hdone with
    | fragment hkind => exact ih
    | inPlace hkind hplace => exact ih
    | written ho hkind hb hchanges hheld => exact hchanges.beside.trans ih

/-- A file without an output of its own changes nothing. -/
theorem host_of_done (hd : v.Done x k) (hnot : ¬ v.Writes x) : k = v.host := by
  cases hd with
  | fragment hkind => rfl
  | inPlace hkind hplace => rfl
  | written ho hkind hb hchanges hheld => exact absurd hkind hnot

/-- What one visit leaves at a place. -/
theorem done_places (hd : v.Done x k) (loc : Location) :
    k.tree.get? loc = v.host.tree.get? loc ∨
      v.host.tree.get? loc = none ∧ k.tree.get? loc = some .directory ∨
      (v.Writes x ∧ ∃ names, v.output? = some names ∧ loc = x.location ++ names) ∧
        ∃ f, k.tree.get? loc = some (.file f) := by
  cases hd with
  | fragment hkind => exact .inl rfl
  | inPlace hkind hplace => exact .inl rfl
  | written ho hkind hb hchanges hheld =>
    rcases hchanges.places loc with hsame | ⟨hnone, hdir, -⟩ | ⟨hself, -, hf⟩
    · exact .inl hsame
    · exact .inr (.inl ⟨hnone, hdir⟩)
    · exact .inr (.inr ⟨⟨hkind, _, output?_eq ho, hself⟩, hf⟩)

/-- What visits leave at a place: what was there, a directory where nothing was, or an output. -/
theorem Chain.places (h : Chain x k visits k' ending) (hend : ending = .finished) (loc : Location) :
    k'.tree.get? loc = k.tree.get? loc ∨
      k.tree.get? loc = none ∧ k'.tree.get? loc = some .directory ∨
      (∃ v ∈ visits, v.Writes x ∧ ∃ names, v.output? = some names ∧ loc = x.location ++ names) ∧
        ∃ f, k'.tree.get? loc = some (.file f) := by
  induction h with
  | finished => exact .inl rfl
  | unlisted => cases hend
  | failed hfile hfails => cases hend
  | @visit v k₁ k' visits ending hfile hdone hrest ih =>
    rcases ih hend with hsame | ⟨hnone, hdir⟩ | ⟨⟨w, hw, hwrites⟩, hf⟩
    -- later visits leave the place as this one did
    · rw [hsame]
      refine (done_places hdone loc).imp_right (.imp_right ?_)
      rintro ⟨⟨hwrites, hplace⟩, hf⟩
      exact ⟨⟨v, List.mem_cons_self, hwrites, hplace⟩, hf⟩
    -- a later visit makes a directory there
    · rcases done_places hdone loc with hsame | ⟨-, hthere⟩ | ⟨-, f, hf⟩
      · exact .inr (.inl ⟨hsame ▸ hnone, hdir⟩)
      · rw [hthere] at hnone
        cases hnone
      · rw [hf] at hnone
        cases hnone
    · exact .inr (.inr ⟨⟨w, List.mem_cons_of_mem _ hw, hwrites⟩, hf⟩)

/-- Files without an output do not matter. -/
theorem Chain.writers (h : Chain x k visits k' ending)
    (hsteps : Steps x visits (ending.reached k')) :
    Chain x k (visits.filter fun v => v.Writes x) k' ending ∧
      Steps x (visits.filter fun v => v.Writes x) (ending.reached k') := by
  induction h with
  | finished => exact ⟨.finished, trivial⟩
  | unlisted => exact ⟨.unlisted, trivial⟩
  | failed hfile hfails => exact ⟨.failed hfile hfails, trivial⟩
  | @visit v k₁ k' visits ending hfile hdone hrest ih =>
    obtain ⟨hran, hsteps⟩ := hsteps
    obtain ⟨hchain, hsteps⟩ := ih hsteps
    by_cases hw : v.Writes x
    · rw [hrest.start_eq] at hran
      rw [List.filter_cons_of_pos (by simpa using hw)]
      exact ⟨.visit hfile hdone hchain, hchain.start_eq.symm ▸ hran, hsteps⟩
    · rw [List.filter_cons_of_neg (by simpa using hw)]
      rw [host_of_done hdone hw] at hchain
      exact ⟨hchain, hsteps⟩

/-! ## §3 The first export -/

/-- A first export that finished, and visited these files. -/
structure Leaves (x : Export) (roots : List Path) (made : Host) (visits : List Visit) (h₁ : Host) :
    Prop where
  amid : x.Amid made
  tour : x.Tour roots made visits h₁ .finished
  steps : Steps x visits h₁

namespace Leaves

theorem amid_after (hl : x.Leaves roots made visits h₁) : x.Amid h₁ ∧ made.tree.Keeps h₁.tree :=
  hl.tour.chain.amid hl.amid

theorem met (hl : x.Leaves roots made visits h₁) (hu : u ∈ visits) : (u.on h₁).Met x roots :=
  hl.tour.met_after hl.amid (.inl hu)

/-- A file that was not there before is an output. -/
theorem outputAt_of_new (hl : x.Leaves roots made visits h₁) (hnone : made.tree.get? loc = none)
    {f : RegularFile} (hf : h₁.tree.get? loc = some (.file f)) : x.OutputAt roots h₁ loc := by
  rcases hl.tour.chain.places rfl loc with hsame | ⟨-, hdir⟩ | ⟨⟨u, hu, hwrites, hplace⟩, -⟩
  · rw [hsame, hnone] at hf
    cases hf
  · rw [hdir] at hf
    cases hf
  · exact ⟨u.on h₁, rfl, hl.met hu, hwrites, hplace⟩

/-- Whatever a second export writes has been written by the first. -/
theorem visited (hl : x.Leaves roots made visits h₁) (hr : x.Repeatable roots made h₁)
    (hhost : v.host = h₁) (hmet : v.Met x roots) (hw : v.Writes x) : ∃ u ∈ visits, u.on h₁ = v := by
  obtain ⟨f, hf⟩ := hmet.isFile
  rw [hhost] at hf
  -- a file that is new is an output, and one that is not has been visited
  cases hbefore : made.tree.get? (v.base ++ v.names) with
  | none => exact absurd hw (hr.settled v hhost hmet (hl.outputAt_of_new hbefore hf))
  | some e =>
    cases e with
    | file g =>
      obtain ⟨u, hu, hroot, hbase, hnames⟩ := hl.tour.meets hl.amid rfl hmet hhost hbefore
      obtain ⟨hdir, hname⟩ := List.append_inj' hnames rfl
      refine ⟨u, hu, ?_⟩
      obtain ⟨root, base, dir, name, host⟩ := v
      simp only [Visit.on, List.cons.injEq, and_true] at *
      rw [hroot, hbase, hdir, hname, hhost]
    | directory =>
      rw [hl.amid_after.2.directory _ hbefore] at hf
      cases hf
    | link target => exact absurd hbefore (hl.amid.linkFree _ target)

/-- Sources of what is written are not marked. -/
theorem not_marked (hl : x.Leaves roots made visits h₁) (hr : x.Repeatable roots made h₁)
    (hhost : v.host = h₁) (hmet : v.Met x roots) (hw : v.Writes x) :
    ¬ x.Marked roots made h₁ (v.base ++ v.names) := by
  obtain ⟨f, hf⟩ := hmet.isFile
  rw [hhost] at hf
  have hready := hl.amid_after.1.ready
  rintro (hout | ⟨-, hdir⟩ | ⟨n, rest, hscratch⟩)
  · exact hr.settled v hhost hmet hout hw
  · rw [hdir] at hf
    cases hf
  · rw [hscratch, List.append_cons, hready.wellFormed.absent_below (hready.noScratch n)] at hf
    cases hf

end Leaves

/-- What the first export has yet to visit on the host `k`. -/
structure Ahead (x : Export) (roots : List Path) (made : Host) (visits : List Visit) (h₁ k : Host)
    (rest : List Visit) : Prop where
  chain : Chain x k rest h₁ .finished
  steps : Steps x rest h₁
  mem : ∀ u ∈ rest, u ∈ visits
  amid : x.Amid k
  keeps : made.tree.Keeps k.tree

theorem Leaves.ahead (hl : x.Leaves roots made visits h₁) :
    x.Ahead roots made visits h₁ made visits :=
  ⟨hl.tour.chain, hl.steps, fun _ hu => hu, hl.amid, .refl _⟩

namespace Ahead

variable {rest : List Visit}

theorem step (h : x.Ahead roots made visits h₁ k (u :: rest)) :
    u.host = k ∧ u.IsFile ∧
      ∃ k₁, u.Ran x k₁ ∧ u.Done x k₁ ∧ x.Ahead roots made visits h₁ k₁ rest := by
  obtain ⟨hchain, ⟨hran, hsteps⟩, hmem, ha, hkeeps⟩ := h
  cases hchain with
  | visit hfile hdone hrest =>
    obtain ⟨ha₁, hkeeps₁⟩ := done_amid hdone hfile ha
    have hstart := hrest.start_eq
    rw [show start rest h₁ = _ from hstart] at hran
    exact ⟨rfl, hfile, _, hran, hdone, hrest, hsteps,
      fun w hw => hmem w (List.mem_cons_of_mem _ hw), ha₁, hkeeps.trans hkeeps₁⟩

theorem writers (h : x.Ahead roots made visits h₁ k rest) :
    x.Ahead roots made visits h₁ k (rest.filter fun v => v.Writes x) := by
  obtain ⟨hchain, hsteps⟩ := h.chain.writers h.steps
  exact ⟨hchain, hsteps, fun u hu => h.mem u (List.mem_of_mem_filter hu), h.amid, h.keeps⟩

/-- From here on the first export changes marked places only. -/
theorem beside (h : x.Ahead roots made visits h₁ k rest) (hl : x.Leaves roots made visits h₁) :
    h₁.Beside (x.Marked roots made h₁) k := by
  have hb := h.chain.beside
  refine Host.Beside.symm ⟨hb.directory, hb.environment, hb.accountHome, hb.programs, hb.now,
    fun loc hloc => ?_⟩
  rcases h.chain.places rfl loc with hsame | ⟨hnone, hdir⟩ | ⟨⟨u, hu, hwrites, hplace⟩, -⟩
  · exact hsame
  · exact absurd (.inr (.inl ⟨h.keeps.get?_none hl.amid.linkFree hnone, hdir⟩)) hloc
  · exact absurd (.inl ⟨u.on h₁, rfl, hl.met (h.mem u hu), hwrites, hplace⟩) hloc

/-- A file that is written is as it will be when the export is done. -/
theorem source (h : x.Ahead roots made visits h₁ k (u :: rest))
    (hl : x.Leaves roots made visits h₁) (hr : x.Repeatable roots made h₁) (hw : u.Writes x) :
    k.tree.get? (u.base ++ u.names) = h₁.tree.get? (u.base ++ u.names) :=
  (h.beside hl).tree _
    (hl.not_marked hr (v := u.on h₁) rfl (hl.met (h.mem u List.mem_cons_self)) hw)

theorem met (h : x.Ahead roots made visits h₁ k (u :: rest))
    (hl : x.Leaves roots made visits h₁) : u.Met x roots :=
  hl.tour.met hl.amid (.inl (h.mem u List.mem_cons_self))

theorem written (h : x.Ahead roots made visits h₁ k (u :: rest))
    (hl : x.Leaves roots made visits h₁) (hw : u.Writes x) :
    ∃ k₁, u.Written x k₁ ∧ u.Done x k₁ ∧ x.Ahead roots made visits h₁ k₁ rest := by
  have hmet := h.met hl
  have ha := h.amid
  obtain ⟨rfl, -, k₁, hran, hdone, hrest⟩ := h.step
  exact ⟨k₁, hran.written ha hmet hw, hdone, hrest⟩

/-- The owner may write to what has been written, and to what is still to be written. -/
theorem writable (h : x.Ahead roots made visits h₁ k rest) (hl : x.Leaves roots made visits h₁)
    (hr : x.Repeatable roots made h₁)
    (hloc : k.Writable loc ∨ ∃ u ∈ rest, u.Writes x ∧
      ∃ names, u.output? = some names ∧ loc = x.location ++ names) : h₁.Writable loc := by
  -- the induction is on what is left to visit; a visit that writes adds its own output
  induction rest generalizing k with
  | nil =>
    cases h.chain
    exact hloc.resolve_right (by simp)
  | cons u rest ih =>
    obtain ⟨rfl, hfile, k₁, -, hdone, hrest⟩ := h.step
    by_cases hw : u.Writes x
    · obtain ⟨k₁, hwritten, -, hrest⟩ := h.written hl hw
      have hmode : u.Copied x → u.host.Writable (u.base ++ u.names) := by
        intro hcopied
        unfold Host.Writable
        rw [h.source hl hr hw]
        exact hr.writable (u.on h₁) rfl (hl.met (h.mem u List.mem_cons_self)) hcopied
      refine ih hrest ?_
      rcases hloc with hthere | ⟨w, hmem, hwrites, hplace⟩
      · exact .inl (hwritten.writable h.amid hfile hmode (.inl hthere))
      · rcases List.mem_cons.mp hmem with rfl | hmem
        · exact .inl (hwritten.writable h.amid hfile hmode (.inr hplace))
        · exact .inr ⟨w, hmem, hwrites, hplace⟩
    · rw [host_of_done hdone hw] at hrest
      refine ih hrest (hloc.imp_right ?_)
      rintro ⟨w, hmem, hwrites, hplace⟩
      rcases List.mem_cons.mp hmem with rfl | hmem
      · exact absurd hwrites hw
      · exact ⟨w, hmem, hwrites, hplace⟩

theorem scratches (h : x.Ahead roots made visits h₁ k rest) (hl : x.Leaves roots made visits h₁) :
    k.scratches ≤ h₁.scratches := by
  induction rest generalizing k with
  | nil =>
    cases h.chain
    exact Nat.le_refl _
  | cons u rest ih =>
    obtain ⟨rfl, hfile, k₁, -, hdone, hrest⟩ := h.step
    by_cases hw : u.Writes x
    · obtain ⟨k₁, hwritten, -, hrest⟩ := h.written hl hw
      exact (hwritten.scratches h.amid hfile).trans (ih hrest)
    · rw [host_of_done hdone hw] at hrest
      exact ih hrest

end Ahead

/-- A first export changes marked places only. -/
theorem Leaves.matches (hl : x.Leaves roots made visits h₁) :
    made.Matches (x.Marked roots made h₁) h₁ := by
  have hbeside := (hl.ahead.beside hl).symm
  exact ⟨hl.amid_after.1.ready, hbeside, (hl.amid.ready.temporary_kept hl.amid_after.2 hbeside).2⟩

/-- Outputs are files that may be written to. -/
theorem Leaves.writable (hl : x.Leaves roots made visits h₁) (hr : x.Repeatable roots made h₁)
    (hout : x.OutputAt roots h₁ loc) : h₁.Writable loc := by
  obtain ⟨v, hhost, hmet, hw, hplace⟩ := hout
  obtain ⟨u, hu, rfl⟩ := hl.visited hr hhost hmet hw
  exact hl.ahead.writable hl hr (.inr ⟨u, hu, hw, hplace⟩)

/-! ## §4 Hosts of the second export -/

/-- A host of the second export: what differs from the host before it are files at marked places. -/
structure Shaped (x : Export) (roots : List Path) (made h₁ p : Host) : Prop where
  amid : x.Amid p
  beside : h₁.Beside (x.Marked roots made h₁) p
  keeps : h₁.tree.Keeps p.tree
  kept : p.tree.Keeps h₁.tree

theorem Leaves.shaped (hl : x.Leaves roots made visits h₁) : x.Shaped roots made h₁ h₁ :=
  ⟨hl.amid_after.1, .refl h₁, .refl _, .refl _⟩

namespace Shaped

/-- What is met during the second export was met before it. -/
theorem met (hs : x.Shaped roots made h₁ v.host) (hmet : v.Met x roots) : (v.on h₁).Met x roots :=
  hmet.kept hs.kept hs.beside.symm.directory

/-- Where a file lies, nothing is made on the way to it. -/
theorem not_new (hs : x.Shaped roots made h₁ p) {f : RegularFile}
    (hf : p.tree.get? (x.location ++ names) = some (.file f)) (hway : x.OnTheWay names loc) :
    p.tree.get? loc ≠ none := by
  obtain ⟨pre, ⟨rest, rfl⟩, rfl⟩ := hway
  intro hnone
  rw [← List.append_assoc, hs.amid.ready.wellFormed.absent_below hnone] at hf
  cases hf

/-- Writing an output that is there keeps the shape. -/
theorem done (hs : x.Shaped roots made h₁ v.host) (hl : x.Leaves roots made visits h₁)
    (hr : x.Repeatable roots made h₁) (hmet : v.Met x roots) (hd : v.Done x p) :
    x.Shaped roots made h₁ p := by
  obtain ⟨hamid, hkeeps⟩ := done_amid hd hmet.isFile hs.amid
  cases hd with
  | fragment hkind => exact hs
  | inPlace hkind hplace => exact hs
  | @written o b k ho hw hb hchanges hheld =>
    have hout : x.OutputAt roots h₁ (x.location ++ (v.dir ++ [o])) :=
      ⟨v.on h₁, rfl, hs.met hmet, hw, _, output?_eq ho, rfl⟩
    obtain ⟨f, hf, -⟩ := hl.writable hr hout
    obtain ⟨g, hg⟩ := hs.keeps.file _ f hf
    refine ⟨hamid, hs.beside.trans ⟨hchanges.beside.directory, hchanges.beside.environment,
      hchanges.beside.accountHome, hchanges.beside.programs, hchanges.beside.now,
      fun loc hloc => ?_⟩, hs.keeps.trans hkeeps, ?_⟩
    · rcases hchanges.places loc with hsame | ⟨hnone, -, hway⟩ | ⟨hself, -⟩
      · exact hsame
      · exact absurd hnone (hs.not_new hg hway)
      · exact absurd (hself ▸ .inl hout) hloc
    · refine ⟨fun loc hdir => ?_, fun loc g' hg' => ?_, fun loc target hlink =>
        absurd hlink (hamid.linkFree loc target)⟩
      · rcases hchanges.places loc with hsame | ⟨hnone, -, hway⟩ | ⟨-, -, f', hf'⟩
        · exact hs.kept.directory loc (hsame.symm.trans hdir)
        · exact absurd hnone (hs.not_new hg hway)
        · rw [hf'] at hdir
          cases hdir
      · rcases hchanges.places loc with hsame | ⟨hnone, -, hway⟩ | ⟨hself, -⟩
        · exact hs.kept.file loc g' (hsame.symm.trans hg')
        · exact absurd hnone (hs.not_new hg hway)
        · exact hself ▸ ⟨f, hf⟩

end Shaped

/-- The second export keeps the shape as long as nothing fails. -/
theorem Chain.shaped (h : Chain x p visits p' ending) {first : List Visit}
    (hl : x.Leaves roots made first h₁) (hr : x.Repeatable roots made h₁)
    (hmet : ∀ v ∈ visits, v.Met x roots) (hs : x.Shaped roots made h₁ p) :
    x.Shaped roots made h₁ (ending.reached p') := by
  induction h with
  | finished => exact hs
  | unlisted => exact hs
  | failed hfile hfails => exact hs
  | visit hfile hdone hrest ih =>
    exact ih (fun w hw => hmet w (List.mem_cons_of_mem _ hw))
      (hs.done hl hr (hmet _ List.mem_cons_self) hdone)

/-! ## §5 The same files, in the same order

The second export may come to more files than the first one, since there are new ones. They have no
outputs of their own, so what both come to is compared without such files (`writers`). -/

/-- The files with outputs, on the host between the two exports. -/
def writers (x : Export) (h₁ : Host) (visits : List Visit) : List Visit :=
  (visits.filter fun v => v.Writes x).map (·.on h₁)

/-- The second visits write what the first ones wrote, up to the file at which they fail. -/
def Retraces (x : Export) (h₁ : Host) (first second : List Visit) (ending : Ending) : Prop :=
  ∃ rest, x.writers h₁ first = x.writers h₁ second ++ rest ∧ (ending = .finished → rest = []) ∧
    (∀ v e, ending = .failed v e → v.Writes x → ∃ more, rest = v.on h₁ :: more) ∧
    ∀ dir e, ending ≠ .unlisted dir e

variable {first second more : List Visit}

theorem writers_append :
    x.writers h₁ (visits ++ more) = x.writers h₁ visits ++ x.writers h₁ more := by
  unfold writers
  rw [List.filter_append, List.map_append]

theorem writers_cons_of_writes (hw : v.Writes x) :
    x.writers h₁ (v :: visits) = v.on h₁ :: x.writers h₁ visits := by
  unfold writers
  rw [List.filter_cons_of_pos (by simpa using hw), List.map_cons]

theorem writers_cons_of_not (hw : ¬ v.Writes x) :
    x.writers h₁ (v :: visits) = x.writers h₁ visits := by
  unfold writers
  rw [List.filter_cons_of_neg (by simpa using hw)]

theorem retraces_nil : x.Retraces h₁ [] [] .finished :=
  ⟨[], rfl, fun _ => rfl, by simp, by simp⟩

theorem Retraces.append {first' second' : List Visit} (h : x.Retraces h₁ first second .finished)
    (hmore : x.Retraces h₁ first' second' ending) :
    x.Retraces h₁ (first ++ first') (second ++ second') ending := by
  obtain ⟨rest, hwriters, hdone, -⟩ := h
  obtain ⟨rest', hwriters', hends⟩ := hmore
  refine ⟨rest', ?_, hends⟩
  rw [writers_append, writers_append, hwriters, hdone rfl, hwriters', List.append_nil,
    List.append_assoc]

/-- What the first visits do after the second ones have failed does not matter. -/
theorem Retraces.cut {first' : List Visit} (h : x.Retraces h₁ first second ending)
    (hends : ending ≠ .finished) : x.Retraces h₁ (first ++ first') second ending := by
  obtain ⟨rest, hwriters, -, hfails, hlisted⟩ := h
  refine ⟨rest ++ x.writers h₁ first', ?_, fun hend => absurd hend hends, fun v e he hw => ?_,
    hlisted⟩
  · rw [writers_append, hwriters, List.append_assoc]
  · obtain ⟨more, rfl⟩ := hfails v e he hw
    exact ⟨_, rfl⟩

/-- Both come to the same file. -/
theorem Retraces.cons (h : x.Retraces h₁ first second ending) (hsame : u.on h₁ = v.on h₁) :
    x.Retraces h₁ (u :: first) (v :: second) ending := by
  have hwrites : u.Writes x ↔ v.Writes x := by
    show (u.on h₁).Writes x ↔ (v.on h₁).Writes x
    rw [hsame]
  obtain ⟨rest, hwriters, hends⟩ := h
  refine ⟨rest, ?_, hends⟩
  by_cases hw : v.Writes x
  · rw [writers_cons_of_writes hw, writers_cons_of_writes (hwrites.mpr hw), hwriters, hsame,
      List.cons_append]
  · rw [writers_cons_of_not hw, writers_cons_of_not fun h => hw (hwrites.mp h), hwriters]

/-- The second export comes to a file without an output. -/
theorem Retraces.idle (h : x.Retraces h₁ first second ending) (hw : ¬ v.Writes x) :
    x.Retraces h₁ first (v :: second) ending := by
  obtain ⟨rest, hwriters, hends⟩ := h
  exact ⟨rest, by rw [writers_cons_of_not hw, hwriters], hends⟩

/-- The second export fails at a file without an output, or at the one that the first came to. -/
theorem retraces_failed {e : Failure}
    (h : v.Writes x → ∃ u rest, first = u :: rest ∧ u.on h₁ = v.on h₁) :
    x.Retraces h₁ first [] (.failed v e) := by
  refine ⟨x.writers h₁ first, rfl, (fun h => by cases h), fun w e' he hw => ?_,
    fun _ _ h => by cases h⟩
  cases he
  obtain ⟨u, rest, rfl, hsame⟩ := h hw
  have hwrites : u.Writes x := by
    show (u.on h₁).Writes x
    rw [hsame]
    exact hw
  exact ⟨_, by rw [writers_cons_of_writes hwrites, hsame]⟩

/-! ## §6 Entries of a directory

Both exports list a directory by name. The names that the first one found are among those that the
second one finds, in the same order, so the two lists are gone through together: a name that is in
both is for both the same file or directory, and the others are new. -/

variable {root : Path} {R : Location} {list list₁ rest : List String} {n : String}

/-- `list` are the names in a directory, some of which were there as `list₁` when the first export
    listed it; the others are new. -/
structure Relisted (made : Host) (dir : Location) (list₁ list : List String) : Prop where
  sublist : list₁.Sublist list
  nodup : list.Nodup
  new : ∀ n ∈ list, n ∉ list₁ → made.tree.get? (dir ++ [n]) = none

theorem Relisted.cons {dir : Location} (h : Relisted made dir list₁ (n :: rest)) :
    (∃ rest₁, list₁ = n :: rest₁ ∧ Relisted made dir rest₁ rest) ∨
      Relisted made dir list₁ rest ∧ made.tree.get? (dir ++ [n]) = none := by
  obtain ⟨hsub, hnodup, hnew⟩ := h
  obtain ⟨hn, hrest⟩ := List.nodup_cons.mp hnodup
  cases hsub with
  | cons _ hsub =>
    refine .inr ⟨⟨hsub, hrest, fun m hm => hnew m (List.mem_cons_of_mem _ hm)⟩, ?_⟩
    exact hnew n List.mem_cons_self fun hmem => hn (hsub.subset hmem)
  | cons_cons _ hsub =>
    refine .inl ⟨_, rfl, hsub, hrest, fun m hm hnot => hnew m (List.mem_cons_of_mem _ hm) ?_⟩
    rintro (_ | _)
    · exact hn hm
    · exact hnot ‹_›

/-- Where directories and files stay, names stay. -/
theorem relisted (dir : Location) (hwf : k.tree.WellFormed) (hwf' : p.tree.WellFormed)
    (hbefore : made.tree.Keeps k.tree) (hfree : made.tree.LinkFree [])
    (hkeeps : k.tree.Keeps p.tree) (hfree' : k.tree.LinkFree []) :
    Relisted made dir (k.tree.names dir) (p.tree.names dir) := by
  refine ⟨?_, Tree.nodup_names hwf', fun n hn hnot => ?_⟩
  · refine List.sublist_of_subperm_of_pairwise (List.subperm_of_subset (Tree.nodup_names hwf) ?_)
      Tree.pairwise_names Tree.pairwise_names
    intro n hn
    obtain ⟨e, he⟩ := Tree.mem_names_iff.mp hn
    obtain ⟨e', he', -⟩ := hkeeps.isDirectory hfree' he
    exact Tree.mem_names_iff.mpr ⟨e', he'⟩
  · refine hbefore.get?_none hfree (Option.eq_none_iff_forall_ne_some.mpr fun e he => hnot ?_)
    exact Tree.mem_names_iff.mpr ⟨e, he⟩

/-- The first export has gone through some entries of a directory. -/
def Went (x : Export) (made h₁ : Host) (root : Path) (R : Location) (names list : List String)
    (first : List Visit) : Prop :=
  ∃ k k', Goes x root R names list k first k' .finished ∧ x.Amid k ∧ made.tree.Keeps k.tree ∧
    k'.tree.Keeps h₁.tree

namespace Went

theorem nil (h : x.Went made h₁ root R names [] first) : first = [] := by
  obtain ⟨k, k', hgoes, -⟩ := h
  cases hgoes
  rfl

/-- A directory was passed over as the destination, or gone through. -/
theorem directory (h : x.Went made h₁ root R names (n :: rest) first)
    (hdir : h₁.tree.get? (R ++ (names ++ [n])) = some .directory) :
    Tree.Fits (descend root (names ++ [n])) ∧
      (R ++ (names ++ [n]) = x.location ∧ x.Went made h₁ root R names rest first ∨
        R ++ (names ++ [n]) ≠ x.location ∧ ∃ k inner more, first = inner ++ more ∧
          (x.Amid k ∧ made.tree.Keeps k.tree ∧ k.tree.Keeps h₁.tree) ∧
          x.Went made h₁ root R (names ++ [n]) (k.tree.names (R ++ (names ++ [n]))) inner ∧
          x.Went made h₁ root R names rest more) := by
  obtain ⟨k, k', hgoes, ha, hbefore, hafter⟩ := h
  have hkeeps := (hgoes.chain.amid ha).2
  have hnot : ∀ f, k.tree.get? (R ++ (names ++ [n])) ≠ some (.file f) := by
    intro f hf
    obtain ⟨g, hg⟩ := (hkeeps.trans hafter).file _ f hf
    rw [hdir] at hg
    cases hg
  cases hgoes with
  | destination hplace hfits hrest =>
    exact ⟨hfits, .inl ⟨hplace, k, k', hrest, ha, hbefore, hafter⟩⟩
  | directory hthere hplace hfits hinner hrest =>
    obtain ⟨ha₁, hkeeps₁⟩ := hinner.chain.amid ha
    have hlater := (hrest.chain.amid ha₁).2.trans hafter
    exact ⟨hfits, .inr ⟨hplace, k, _, _, rfl, ⟨ha, hbefore, hkeeps.trans hafter⟩,
      ⟨k, _, hinner, ha, hbefore, hlater⟩, _, k', hrest, ha₁, hbefore.trans hkeeps₁, hafter⟩⟩
  | directoryEnds hthere hplace hfits hinner hends => exact absurd rfl hends
  | file hfile hfits hdone hrest => exact absurd hfile.choose_spec (hnot _)
  | fileLong hfile hlong hrest => exact absurd hfile.choose_spec (hnot _)

/-- A file was visited, unless its path is too long. -/
theorem file (h : x.Went made h₁ root R names (n :: rest) first) {f : RegularFile}
    (hf : h₁.tree.get? (R ++ (names ++ [n])) = some (.file f)) :
    (Tree.Fits (descend root (names ++ [n])) → ∃ u more, first = u :: more ∧
        u.on h₁ = ⟨root, R, names, n, h₁⟩ ∧ x.Went made h₁ root R names rest more) ∧
      (¬ Tree.Fits (descend root (names ++ [n])) → x.Went made h₁ root R names rest first) := by
  obtain ⟨k, k', hgoes, ha, hbefore, hafter⟩ := h
  have hkeeps := (hgoes.chain.amid ha).2
  have hnot : k.tree.get? (R ++ (names ++ [n])) ≠ some .directory := by
    intro hdir
    rw [(hkeeps.trans hafter).directory _ hdir] at hf
    cases hf
  cases hgoes with
  | destination hplace hfits hrest => exact absurd (hplace ▸ ha.based.location) hnot
  | directory hthere hplace hfits hinner hrest => exact absurd hthere hnot
  | directoryEnds hthere hplace hfits hinner hends => exact absurd rfl hends
  | file hfile hfits hdone hrest =>
    obtain ⟨ha₁, hkeeps₁⟩ := done_amid hdone hfile ha
    exact ⟨fun _ => ⟨_, _, rfl, rfl, _, k', hrest, ha₁, hbefore.trans hkeeps₁, hafter⟩,
      fun hlong => absurd hfits hlong⟩
  | fileLong hfile hlong hrest =>
    exact ⟨fun hfits => absurd hfits hlong, fun _ => ⟨k, k', hrest, ha, hbefore, hafter⟩⟩

end Went

/-- What is new is not written. -/
theorem Shaped.not_writes_of_new (hs : x.Shaped roots made h₁ v.host)
    (hl : x.Leaves roots made visits h₁) (hr : x.Repeatable roots made h₁) (hmet : v.Met x roots)
    (hnone : made.tree.get? (v.base ++ v.names) = none) : ¬ v.Writes x := by
  have hmet₁ := hs.met hmet
  obtain ⟨f, hf⟩ := hmet₁.isFile
  exact hr.settled (v.on h₁) rfl hmet₁ (hl.outputAt_of_new hnone hf)

theorem went_nil (hl : x.Leaves roots made visits h₁) : x.Went made h₁ root R names [] [] :=
  ⟨made, made, .done, hl.amid, .refl _, hl.amid_after.2⟩

/-- All names in a new directory are new. -/
theorem relisted_new (hwf : made.tree.WellFormed) (hwf' : p.tree.WellFormed) {dir : Location}
    (hnone : made.tree.get? dir = none) : Relisted made dir [] (p.tree.names dir) :=
  ⟨List.nil_sublist _, Tree.nodup_names hwf', fun n _ _ => hwf.absent_below hnone [n]⟩

/-- The second export comes to a directory: the first one has gone through it, or all that is in it
    is new. -/
theorem Went.entered (h : x.Went made h₁ root R names list₁ first)
    (hl : x.Leaves roots made visits h₁) (hs : x.Shaped roots made h₁ p)
    (hlist : Relisted made (R ++ names) list₁ (n :: rest))
    (hdir : p.tree.get? (R ++ (names ++ [n])) = some .directory)
    (hplace : R ++ (names ++ [n]) ≠ x.location) :
    ∃ inside inner rest₁ more, first = inner ++ more ∧
      (x.Went made h₁ root R (names ++ [n]) inside inner ∧
        Relisted made (R ++ (names ++ [n])) inside (p.tree.names (R ++ (names ++ [n])))) ∧
      x.Went made h₁ root R names rest₁ more ∧ Relisted made (R ++ names) rest₁ rest := by
  rcases hlist.cons with ⟨rest₁, rfl, hrest⟩ | ⟨hrest, hnone⟩
  · obtain ⟨-, ⟨hdest, -⟩ | ⟨-, k, inner, more, rfl, ⟨ha, hbefore, hkeeps⟩, hinner, hmore⟩⟩ :=
      h.directory (hs.kept.directory _ hdir)
    · exact absurd hdest hplace
    · exact ⟨_, inner, rest₁, more, rfl, ⟨hinner, relisted _ ha.ready.wellFormed
        hs.amid.ready.wellFormed hbefore hl.amid.linkFree (hkeeps.trans hs.keeps) ha.linkFree⟩,
        hmore, hrest⟩
  · rw [List.append_assoc] at hnone
    exact ⟨[], [], list₁, first, rfl, ⟨went_nil hl,
      relisted_new hl.amid.ready.wellFormed hs.amid.ready.wellFormed hnone⟩, h, hrest⟩

/-- The second export comes to a file: the first one has visited it, or it is new and not written. -/
theorem Went.visited (h : x.Went made h₁ root R names list₁ first)
    (hl : x.Leaves roots made visits h₁) (hr : x.Repeatable roots made h₁)
    (hs : x.Shaped roots made h₁ p) (hlist : Relisted made (R ++ names) list₁ (n :: rest))
    (hmet : Visit.Met x roots ⟨root, R, names, n, p⟩) :
    (∃ u more rest₁, first = u :: more ∧ u.on h₁ = ⟨root, R, names, n, h₁⟩ ∧
      x.Went made h₁ root R names rest₁ more ∧ Relisted made (R ++ names) rest₁ rest) ∨
    (¬ (⟨root, R, names, n, p⟩ : Visit).Writes x ∧ x.Went made h₁ root R names list₁ first ∧
      Relisted made (R ++ names) list₁ rest) := by
  obtain ⟨f, hf⟩ := hmet.isFile
  obtain ⟨g, hg⟩ := hs.kept.file _ f hf
  rcases hlist.cons with ⟨rest₁, rfl, hrel⟩ | ⟨hrel, hnone⟩
  · obtain ⟨u, more, rfl, hsame, hwent⟩ := (h.file hg).1 hmet.fits
    exact .inl ⟨u, more, rest₁, rfl, hsame, hwent, hrel⟩
  · rw [List.append_assoc] at hnone
    exact .inr ⟨hs.not_writes_of_new hl hr hmet hnone, h, hrel⟩

/-- The second export goes through a directory as the first did, and comes to what is new on the
    way. -/
theorem Goes.retraces (h : Goes x root R names list p second p' ending)
    (hl : x.Leaves roots made visits h₁) (hr : x.Repeatable roots made h₁) (hmem : root ∈ roots)
    (hroot : h₁.tree.stat h₁.directory root = .ok (R, .directory)) (hs : x.Shaped roots made h₁ p)
    (havoids : x.Avoids R names) (hwent : x.Went made h₁ root R names list₁ first)
    (hlist : Relisted made (R ++ names) list₁ list) : x.Retraces h₁ first second ending := by
  have ha₁ := hl.amid_after.1
  have hstat : ∀ {p : Host}, x.Shaped roots made h₁ p →
      p.tree.stat p.directory root = .ok (R, .directory) := by
    intro p hs
    rw [hs.beside.directory]
    exact Tree.stat_kept hs.keeps hroot
  -- what the inner visits of a directory leave is shaped like what was there before
  have hafter : ∀ {names list p inner p₁}, Goes x root R names list p inner p₁ .finished →
      x.Avoids R names → x.Shaped roots made h₁ p → x.Shaped roots made h₁ p₁ :=
    fun hgoes havoids hs => hgoes.chain.shaped hl hr
      (fun v hv => hgoes.met_root hs.amid (hstat hs) havoids hmem (.inl hv)) hs
  have hmet : ∀ {names n p f}, x.Shaped roots made h₁ p → x.Avoids R names →
      Tree.Fits (descend root (names ++ [n])) →
      p.tree.get? (R ++ (names ++ [n])) = some (.file f) →
      Visit.Met x roots ⟨root, R, names, n, p⟩ :=
    fun hs havoids hfits hf => ⟨hmem, hstat hs, ⟨_, hf⟩, hfits,
      havoids.concat (hs.amid.ne_location hf)⟩
  induction h generalizing list₁ first with
  | done =>
    obtain rfl := List.sublist_nil.mp hlist.sublist
    rw [hwent.nil]
    exact retraces_nil
  | @destination names rest n p p' second ending hplace hfits hrest ih =>
    rcases hlist.cons with ⟨rest₁, rfl, hrel⟩ | ⟨hrel, -⟩
    · obtain ⟨-, ⟨-, hwent⟩ | ⟨hother, -⟩⟩ := hwent.directory (hplace ▸ ha₁.based.location)
      · exact ih hs havoids hwent hrel
      · exact absurd hplace hother
    · exact ih hs havoids hwent hrel
  -- a directory: the first export has gone through it as well, or all in it is new
  | @directory names rest n p p₁ p' inner second ending hdir hplace hfits hgoes hrest ihinner ih =>
    have havoids' := havoids.concat hplace
    obtain ⟨inside, inner₁, rest₁, more, rfl, ⟨hinner, hinside⟩, hmore, hrel⟩ :=
      hwent.entered hl hs hlist hdir hplace
    exact (ihinner hs havoids' hinner hinside).append
      (ih (hafter hgoes havoids' hs) havoids hmore hrel)
  | @directoryEnds names rest n p p' inner ending hdir hplace hfits hgoes hends ih =>
    obtain ⟨inside, inner₁, rest₁, more, rfl, ⟨hinner, hinside⟩, -⟩ :=
      hwent.entered hl hs hlist hdir hplace
    exact (ih hs (havoids.concat hplace) hinner hinside).cut hends
  -- what the first export could list is not too long for the second one either
  | @directoryLong names rest n p hdir hlong =>
    have hdir₁ := hs.kept.directory _ hdir
    rcases hlist.cons with ⟨rest₁, rfl, hrel⟩ | ⟨hrel, hnone⟩
    · exact absurd (hwent.directory hdir₁).1 hlong
    · rw [List.append_assoc] at hnone
      have hplace : R ++ (names ++ [n]) ≠ x.location := by
        intro hplace
        rw [hplace, hl.amid.based.location] at hnone
        cases hnone
      exact absurd (hr.listed root hmem R _ hroot hnone hdir₁ (havoids.concat hplace)) hlong
  -- a file: the first export has visited it, or it has no output
  | @file names rest n p p₁ p' second ending hfile hfits hdone hrest ih =>
    obtain ⟨f, hf⟩ := hfile
    have hv := hmet hs havoids hfits hf
    have hs₁ := hs.done (v := ⟨root, R, names, n, p⟩) hl hr hv hdone
    rcases hwent.visited hl hr hs hlist hv with
      ⟨u, more, rest₁, rfl, hsame, hwent, hrel⟩ | ⟨hnot, hwent, hrel⟩
    · exact (ih hs₁ havoids hwent hrel).cons hsame
    · exact (ih hs₁ havoids hwent hrel).idle hnot
  | @fileFails names rest n p p' e hfile hfits hfails =>
    obtain ⟨f, hf⟩ := hfile
    refine retraces_failed fun hw => ?_
    rcases hwent.visited hl hr hs hlist (hmet hs havoids hfits hf) with
      ⟨u, more, -, rfl, hsame, -⟩ | ⟨hnot, -⟩
    · exact ⟨u, more, rfl, hsame⟩
    · exact absurd hw hnot
  | @fileLong names rest n p p' second ending hfile hlong hrest ih =>
    obtain ⟨f, hf⟩ := hfile
    obtain ⟨g, hg⟩ := hs.kept.file _ f hf
    rcases hlist.cons with ⟨rest₁, rfl, hrel⟩ | ⟨hrel, -⟩
    · exact ih hs havoids ((hwent.file hg).2 hlong) hrel
    · exact ih hs havoids hwent hrel

/-! ## §7 Roots -/

/-- A first export has gone through its first root, which still leads where it led. -/
theorem Tour.first_root {rs : List Path} (h : Tour x (root :: rs) k first k' .finished)
    (ha : x.Amid k) (hlater : k'.tree.Keeps h₁.tree) (hdirectory : k.directory = h₁.directory) :
    ∃ R k₁ inner more, first = inner ++ more ∧
      Goes x root R [] (k.tree.names R) k inner k₁ .finished ∧ Tour x rs k₁ more k' .finished ∧
      (x.Amid k₁ ∧ k.tree.Keeps k₁.tree ∧ k₁.tree.Keeps h₁.tree) ∧
      h₁.tree.stat h₁.directory root = .ok (R, .directory) := by
  cases h with
  | @root _ R _ _ k₁ _ inner more _ hroot hinner hrest =>
    obtain ⟨ha₁, hkeeps⟩ := hinner.chain.amid ha
    have hafter := (hrest.chain.amid ha₁).2.trans hlater
    have hplace := Tree.stat_kept (hkeeps.trans hafter) hroot
    rw [hdirectory] at hplace
    exact ⟨R, k₁, inner, more, rfl, hinner, hrest, ⟨ha₁, hkeeps, hafter⟩, hplace⟩
  | rootEnds hroot hinner hends => exact absurd rfl hends

/-- The second export goes through a root as the first did. -/
theorem Goes.retraces_root (h : Goes x root R [] (p.tree.names R) p second p' ending)
    (hl : x.Leaves roots made visits h₁) (hr : x.Repeatable roots made h₁) (hmem : root ∈ roots)
    (hroot : h₁.tree.stat h₁.directory root = .ok (R, .directory)) (hs : x.Shaped roots made h₁ p)
    (hfirst : Goes x root R [] (k.tree.names R) k first k' .finished) (ha : x.Amid k)
    (hbefore : made.tree.Keeps k.tree) (hlater : k'.tree.Keeps h₁.tree) :
    x.Retraces h₁ first second ending := by
  have hkeeps := (hfirst.chain.amid ha).2.trans hlater
  have hrel := relisted (R ++ []) ha.ready.wellFormed hs.amid.ready.wellFormed hbefore
    hl.amid.linkFree (hkeeps.trans hs.keeps) ha.linkFree
  rw [List.append_nil] at hrel
  refine h.retraces hl hr hmem hroot hs .nil ⟨k, k', hfirst, ha, hbefore, hlater⟩ ?_
  rw [List.append_nil]
  exact hrel

/-- The second export goes through its roots as the first did. -/
theorem Tour.retraces {rs : List Path} (h : Tour x rs p second p' ending)
    (hl : x.Leaves roots made visits h₁) (hr : x.Repeatable roots made h₁)
    (hsub : ∀ root ∈ rs, root ∈ roots) (hs : x.Shaped roots made h₁ p)
    (hfirst : Tour x rs k first k' .finished) (ha : x.Amid k) (hbefore : made.tree.Keeps k.tree)
    (hlater : k'.tree.Keeps h₁.tree) (hdirectory : k.directory = h₁.directory) :
    x.Retraces h₁ first second ending := by
  -- a root leads to the same place for both
  have hsame : ∀ {root R R₁ p}, x.Shaped roots made h₁ p →
      h₁.tree.stat h₁.directory root = .ok (R₁, .directory) →
      p.tree.stat p.directory root = .ok (R, .directory) → R₁ = R := by
    intro root R R₁ p hs hroot hplace
    have hthere := Tree.stat_kept hs.keeps hroot
    rw [← hs.beside.directory, hplace] at hthere
    cases hthere
    rfl
  induction h generalizing k first with
  | done =>
    cases hfirst
    exact retraces_nil
  | @root root R rs p p₁ p' inner second ending hroot hinner hrest ih =>
    obtain ⟨R₁, k₁, inner₁, more, rfl, hinner₁, hrest₁, ⟨ha₁, hkeeps, hafter⟩, hplace⟩ :=
      hfirst.first_root ha hlater hdirectory
    obtain rfl := hsame hs hplace hroot
    have hmem := hsub root List.mem_cons_self
    have hs₁ := hinner.chain.shaped hl hr
      (fun v hv => hinner.met_root hs.amid hroot .nil hmem (.inl hv)) hs
    exact (hinner.retraces_root hl hr hmem hplace hs hinner₁ ha hbefore hafter).append
      (ih (fun r hmem => hsub r (List.mem_cons_of_mem _ hmem)) hs₁ hrest₁ ha₁
        (hbefore.trans hkeeps) (hinner₁.chain.directory.trans hdirectory))
  | @rootEnds root R rs p p' inner ending hroot hinner hends =>
    obtain ⟨R₁, k₁, inner₁, more, rfl, hinner₁, -, ⟨-, -, hafter⟩, hplace⟩ :=
      hfirst.first_root ha hlater hdirectory
    obtain rfl := hsame hs hplace hroot
    exact (hinner.retraces_root hl hr (hsub root List.mem_cons_self) hplace hs hinner₁ ha hbefore
      hafter).cut hends
  | @unlisted root rs p e hlist =>
    -- a root that leads to a directory can be listed
    obtain ⟨R₁, -, -, -, -, -, -, -, hplace⟩ := hfirst.first_root ha hlater hdirectory
    have hthere := Tree.stat_kept hs.keeps hplace
    rw [← hs.beside.directory] at hthere
    rw [Tree.list_ok_iff.mpr ⟨hthere, rfl⟩] at hlist
    cases hlist

/-- The second export writes what the first one wrote. -/
theorem Leaves.retraces (hl : x.Leaves roots made visits h₁) (hr : x.Repeatable roots made h₁)
    (h : Tour x roots h₁ second p' ending) : x.Retraces h₁ visits second ending :=
  h.retraces hl hr (fun _ hmem => hmem) hl.shaped hl.tour hl.amid (.refl _) (.refl _)
    hl.tour.chain.directory.symm

end AssetServer.Export
