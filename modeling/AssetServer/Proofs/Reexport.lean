import AssetServer.Proofs.Coverage
import AssetServer.Proofs.Fold
import AssetServer.Proofs.Layers

/-!
# Exports that are sources again

A session leaves the destinations of its exports out of the roots that it exports later, and an
export does not enter its own destination. Nothing else keeps earlier outputs from being exported
once more: a later export comes to all that the first roots lead to, past its own destination, also
to earlier destinations (`Session.exports_recur`).

- `Export.Shields` says when a root does not lead into an earlier destination.
-/

namespace AssetServer

/-! ## §1 What roots lead to -/

namespace Export

variable {x : Export} {base E : Location} {names : List String}

/-- The roots lead to a file at the place, and not through the destination. -/
def Reaches (x : Export) (roots : List Path) (k : Host) (loc : Location) : Prop :=
  ∃ v : Visit, v.host = k ∧ v.Met x roots ∧ v.base ++ v.names = loc

/-- A root at `base` does not lead to what lies in `E`: neither holds the other, or the way goes
    through the destination. -/
def Shields (x : Export) (base E : Location) : Prop :=
  ¬ base <+: E ∧ ¬ E <+: base ∨ base ≠ x.location ∧ base <+: x.location ∧ x.location <+: E

theorem Shields.not_below (h : x.Shields base E) (havoids : x.Avoids base names) :
    ¬ E <+: base ++ names := by
  intro hbelow
  rcases h with ⟨hnot, hnot'⟩ | ⟨hne, ⟨pre, hpre⟩, hinner⟩
  · rcases List.prefix_or_prefix_of_prefix hbelow (List.prefix_append base names) with hE | hbase
    · exact hnot' hE
    · exact hnot hbase
  -- the destination is on the way from the root to the file
  · have hway : base ++ pre <+: base ++ names := hpre ▸ hinner.trans hbelow
    refine havoids pre ?_ ((List.prefix_append_right_inj base).mp hway) hpre
    rintro rfl
    exact hne (by simpa using hpre)

/-- A finished export has visited those of the files that were there when it began that its roots
    lead to. -/
theorem Tour.visits_iff {roots : List Path} {k k' : Host} {visits : List Visit}
    (h : Tour x roots k visits k' .finished) (ha : x.Amid k) {loc : Location} {f : RegularFile}
    (hfile : k.tree.get? loc = some (.file f)) :
    (∃ v ∈ visits, v.base ++ v.names = loc) ↔ x.Reaches roots k' loc := by
  constructor
  · rintro ⟨v, hv, hplace⟩
    exact ⟨v.on k', rfl, h.met_after ha (.inl hv), hplace⟩
  · rintro ⟨v, hhost, hmet, rfl⟩
    obtain ⟨u, hu, -, hbase, hnames⟩ := h.meets ha rfl hmet hhost hfile
    exact ⟨u, hu, by rw [hbase, hnames]⟩

end Export

/-! ## §2 Sessions -/

namespace Session

/-- What an export that comes after any course of events takes for a source. It visits what the roots
    lead to that the session began with. Where they are all shielded from an earlier destination, it
    visits nothing there; what lies there and can be reached, it visits, unless it fails first. -/
theorem exports_recur (R : List Path) (settings : Settings) (tools : Toolchain) (h₀ : Host)
    (events : List Event) {dest : Path} {D : Location} {made h' : Host} {content : Content}
    {result : Except Failure Report} {progress : List Progress} :
    let s := Session.run ⟨.ofRoots R settings tools, h₀⟩ events
    let x : Export := ⟨s.content.compiler, dest, D⟩
    s.host.Ready → s.host.tree.LinkFree [] → Export.Destined s.host dest D made →
    s.content.exportTo dest s.host = (result, progress, content, h') →
    ∃ visits ending, x.Tour R made visits h' ending ∧
      result = ending.result.map (fun _ => Export.tally x visits) ∧
      (Export.tally x visits).compiled + (Export.tally x visits).copied +
        (Export.tally x visits).skipped = visits.length ∧
      (∀ d ∈ s.content.exports, ∀ E, h'.tree.stat h'.directory d = .ok (E, .directory) →
        (∀ r ∈ R, ∀ base, h'.tree.stat h'.directory r = .ok (base, .directory) →
          x.Shields base E) → ∀ v, Visited visits ending v → ¬ E <+: v.base ++ v.names) ∧
      (ending = .finished → ∀ loc f, made.tree.get? loc = some (.file f) →
        ((∃ v ∈ visits, v.base ++ v.names = loc) ↔ x.Reaches R h' loc)) := by
  intro s x hready hfree hd hrun
  have hsources : s.content.sources = R := (layered_run R settings tools h₀ events).sources
  have ha : x.Amid made := hd.amid hready hfree
  have htree := Content.tree_of_exportTo hrun
  rw [hsources] at htree
  obtain ⟨visits, ending, htour, hresult, -⟩ := hd.tour hready hfree htree
  refine ⟨visits, ending, htour, hresult, Export.tally_total visits, ?_, ?_⟩
  · intro _ _ E _ hshields v hv
    have hmet := htour.met_after ha hv
    exact (hshields v.root hmet.root_mem v.base hmet.stat_root).not_below hmet.avoids
  · rintro rfl loc f hfile
    exact htour.visits_iff ha hfile

/-! ## §3 One file, exported twice -/

/-- One file under the root, after an export into a directory in that root. -/
def nested : Session :=
  run ⟨.ofRoots [⟨"site"⟩] default default, Export.loneHost⟩ [.exportTo ⟨"site/one"⟩]

/-- What making a second destination in the root leads to. -/
def nestedMade : Host :=
  ((Export.makeDestination ⟨"site/two"⟩).runOn nested.host).2

/-- An export into that destination. -/
def nestedAgain : Except Failure Report × List Progress × Content × Host :=
  nested.content.exportTo ⟨"site/two"⟩ nested.host

theorem nested_amid : Export.Amid ⟨(Content.ofRoots [⟨"site"⟩] default default).compiler,
    ⟨"site/one"⟩, ["site", "one"]⟩ nested.host := by
  have hT : Export.loneHost.temporary = ["tmp"] := by decide +kernel
  have hfree : Export.loneHost.tree.LinkFree [] := Tree.linkFree_of_entries (by decide +kernel) []
  have hd : Export.Destined Export.loneHost ⟨"site/one"⟩ ["site", "one"]
      ((Export.makeDestination ⟨"site/one"⟩).runOn Export.loneHost).2 :=
    Export.destined_of_names hT (by decide +kernel) (by decide +kernel) (by decide)
  have hnested : nested = exportTo ⟨.ofRoots [⟨"site"⟩] default default, Export.loneHost⟩
      ⟨"site/one"⟩ := rfl
  have hrun := exportTo_run ⟨.ofRoots [⟨"site"⟩] default default, Export.loneHost⟩ ⟨"site/one"⟩
  rw [← hnested] at hrun
  exact hd.amid_after Export.lone_ready hfree (Content.tree_of_exportTo hrun)

/-- What making the second destination leads to, as the host that an export into it starts from. -/
def nestedDestination :
    {h : Host // Export.Destined nested.host ⟨"site/two"⟩ ["site", "two"] h} where
  val := nestedMade
  property := by
    have hT : nested.host.temporary = ["tmp"] := by decide +kernel
    exact Export.destined_of_names hT (by decide +kernel) (by decide +kernel) (by decide)

theorem nested_destined :
    Export.Destined nested.host ⟨"site/two"⟩ ["site", "two"] nestedMade :=
  nestedDestination.property

theorem nested_recurs :
    let x : Export := ⟨nested.content.compiler, ⟨"site/two"⟩, ["site", "two"]⟩
    let h' := nestedAgain.2.2.2
    ∃ visits ending, x.Tour [⟨"site"⟩] nestedMade visits h' ending ∧
      nestedAgain.1 = ending.result.map (fun _ => Export.tally x visits) ∧
      (Export.tally x visits).compiled + (Export.tally x visits).copied +
        (Export.tally x visits).skipped = visits.length ∧
      (∀ d ∈ nested.content.exports, ∀ E, h'.tree.stat h'.directory d = .ok (E, .directory) →
        (∀ r ∈ [⟨"site"⟩], ∀ base, h'.tree.stat h'.directory r = .ok (base, .directory) →
          x.Shields base E) → ∀ v, Visited visits ending v → ¬ E <+: v.base ++ v.names) ∧
      (ending = .finished → ∀ loc f, nestedMade.tree.get? loc = some (.file f) →
        ((∃ v ∈ visits, v.base ++ v.names = loc) ↔ x.Reaches [⟨"site"⟩] h' loc)) :=
  exports_recur [⟨"site"⟩] default default Export.loneHost [.exportTo ⟨"site/one"⟩]
    nested_amid.ready nested_amid.linkFree nested_destined rfl

/-- The second export takes the output of the first one for a source. -/
theorem nested_reexported : nested.content.exports = [⟨"site/one"⟩] ∧
    nestedAgain.1 = .ok ⟨0, 2, 0⟩ ∧
    .file ⟨"site/one/f.txt"⟩ ⟨"site/two/one/f.txt"⟩ .passthrough ∈ nestedAgain.2.1 ∧
    nestedAgain.2.2.2.tree.get? ["site", "two", "one", "f.txt"] = some (plainFile [1]) := by
  refine ⟨by decide +kernel, by decide +kernel, by decide +kernel, by decide +kernel⟩

end Session

end AssetServer
