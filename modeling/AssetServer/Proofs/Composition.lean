import AssetServer.Proofs.Placing
import AssetServer.Proofs.Rendering

/-!
# Compiling one source

Front end, then optimizer, then includes, into a sink or into a file.

- `Compiler.compileToFile_leaves`: a compilation into a file leaves what it writes to a sink.
- `Compiler.compile_stops`: where a pipeline fails, the directives of the source are not followed.
- `Compiler.compile_composes`: all of this, with what a compilation that succeeds writes.
-/

namespace AssetServer

/-! ## §1 Compiling into a file -/

namespace Compiler

variable {c : Compiler} {kind : Kind} {source dest : Path} {h k k₁ : Host} {n : Nat}

/-- The host with an empty file at a path, and with directories on the way to it. -/
def emptied (dest : Path) (h : Host) : Host :=
  (runFrom (makeParent dest >>= fun _ => createFile dest) h).2

/-- The places that change when a file is created or emptied at a path, and those of scratch
    directories. -/
def Touched (h : Host) (dest : Path) (loc : Location) : Prop :=
  (emptied dest h).tree.get? loc ≠ h.tree.get? loc ∨ scratchPlaces h loc

/-- Making the directory of a path only adds directories. -/
theorem makeParent_grown {made : Except Failure Unit} (hready : h.Ready)
    (hrun : runFrom (makeParent dest) h = (made, k₁)) :
    k₁ = { h with tree := k₁.tree } ∧ Tree.Grown (fun _ => True) h.tree k₁.tree := by
  rcases Export.makeParent_run hrun with ⟨-, rfl⟩ | ⟨dir, -, rfl, -⟩
  · exact ⟨rfl, .refl hready.wellFormed⟩
  · exact ⟨rfl, Tree.makeDirectories_grown dir hready.wellFormed hready.directory⟩

theorem emptied_eq {loc : Location} {mode : Nat}
    (hparent : runFrom (makeParent dest) h = (.ok (), k₁))
    (htarget : k₁.tree.target k₁.directory dest RegularFile.defaultMode = .ok (loc, mode)) :
    emptied dest h = { k₁ with tree := k₁.tree.put loc (.file ⟨[], mode, k₁.now⟩) } := by
  unfold emptied
  rw [runFrom_bind, hparent]
  simp only [Export.runFrom_createFile htarget]

/-- The host with an empty file at a path differs from the one before at touched places only. -/
theorem emptied_twin {loc : Location} {mode : Nat} (hready : h.Ready)
    (hclear : (emptied dest h).tree.NoScratch h.temporary)
    (hparent : runFrom (makeParent dest) h = (.ok (), k₁))
    (htarget : k₁.tree.target k₁.directory dest RegularFile.defaultMode = .ok (loc, mode)) :
    Twin h (Touched h dest) h (emptied dest h) := by
  obtain ⟨hk₁, hgrown⟩ := makeParent_grown hready hparent
  have hcwd : k₁.tree.get? k₁.directory = some .directory := by
    rw [hk₁]
    exact hgrown.partOf _ _ hready.directory
  have hopened := emptied_eq hparent htarget
  have hbeside : h.Beside (Touched h dest) (emptied dest h) := by
    refine ⟨?_, ?_, ?_, ?_, ?_, fun place hplace => ?_⟩
    · rw [hopened, hk₁]
    · rw [hopened, hk₁]
    · rw [hopened, hk₁]
    · rw [hopened, hk₁]
    · rw [hopened, hk₁]
    · by_contra hne
      exact hplace (.inl hne)
  have hscratches : h.scratches = (emptied dest h).scratches := by rw [hopened, hk₁]
  -- no directory and no link goes away, so scratch directories are made where they were
  obtain ⟨dir, name, rfl, -, -, hplace⟩ := Tree.target_cases hgrown.wellFormed hcwd htarget
  have hkeeps : h.tree.Keeps (emptied dest h).tree := by
    rw [hopened]
    exact (Tree.Keeps.of_partOf hgrown.partOf).trans (.put (by simp) hplace)
  have hwf : (emptied dest h).tree.WellFormed := by
    rw [hopened]
    exact hgrown.wellFormed.put_target hcwd htarget _
  obtain ⟨hready', htemporary⟩ := hready.kept hkeeps hbeside hwf hclear
  exact ⟨hready.matches h.scratches, ⟨hready', hbeside, htemporary⟩, Nat.le_of_eq hscratches⟩

/-- A compilation into a file that succeeds leaves the file with what it writes to a sink, if
    nothing that it depends on changes when the file is created or emptied. -/
theorem compileToFile_leaves (hready : h.Ready)
    (hclear : (emptied dest h).tree.NoScratch h.temporary)
    (hsteady : c.Steady h (Touched h dest) kind source)
    (hrun : runFrom (c.compileToFile kind source dest) h = (.ok n, k)) :
    ∃ b k', k.tree.bytesAt k.directory dest = .ok b ∧ n = b.length ∧
      (c.compile kind source).collect h = (.ok n, b, k') := by
  rcases Export.compileToFile_run hrun with
    ⟨e, made, heq, -⟩ | ⟨k₁, loc, mode, o, hparent, htarget, hcompile, rfl⟩
  · cases heq
  have htwin := emptied_twin hready hclear hparent htarget
  have hopened := emptied_eq hparent htarget
  rw [← hopened] at hcompile
  -- what compiles with the empty file compiles on the host as it was
  have hcollect : (c.compile kind source).collect (emptied dest h) =
      (.ok n, o.sink.held, o.host) := by
    rw [Emit.collect_eq, hcompile]
  obtain ⟨k', hleft, -⟩ := (compile_follows hready (fun m rest => .inr ⟨m, rest, rfl⟩)
    hsteady).collect htwin hcollect
  -- and the file that was empty is filled with it
  obtain ⟨hk₁, hgrown⟩ := makeParent_grown hready hparent
  have hcwd : k₁.tree.get? k₁.directory = some .directory := by
    rw [hk₁]
    exact hgrown.partOf _ _ hready.directory
  have hne : loc ≠ [] := Tree.target_ne_nil hgrown.wellFormed hcwd htarget
  have hfile : (emptied dest h).tree.get? loc = some (.file ⟨[], mode, k₁.now⟩) := by
    rw [hopened]
    exact Tree.get?_put_self _ hne _
  obtain ⟨hquiet, -, hfill, -⟩ := Export.fill_compiled htwin.right.ready hfile hcompile
  refine ⟨o.sink.held, k', ?_, c.compile_counts kind source _ _ _ _ hleft, hleft⟩
  have hcwd' : o.host.directory = k₁.directory := by
    rw [hquiet.beside.directory, hopened]
  have hwritten : (o.host.tree.fill o.host.now loc o.sink.held).get? loc =
      some (.file ⟨o.sink.held, mode, o.host.now⟩) := by
    rw [hfill, Tree.get?_put_self _ hne]
  have hstat := Tree.stat_written hgrown.wellFormed hcwd htarget (fun place hother => by
    rw [hfill, Tree.get?_put_of_ne _ hother, hquiet.get?, hopened, Tree.get?_put_of_ne _ hother])
    hwritten
  rw [← hcwd'] at hstat
  exact Tree.bytesAt_of_stat hstat

/-! ## §2 Compilations that fail -/

/-- Where planning or a pipeline fails, a compilation ends as it would without any directives. -/
theorem compile_stops {e : Failure} {o o' : Outlet} (hkind : kind ∈ unitKinds)
    (hfails : runFrom (Emit.ofAct (c.plan kind source) >>= runPlan) o = (.error e, o')) :
    runFrom (c.compile kind source) o = (.error e, o') := by
  rw [compile_of_mem hkind, compileSource_eq, runFrom_bind]
  rw [runFrom_bind] at hfails
  -- both start with planning, and what comes after the plan is run is never reached
  rcases hplan : runFrom (Emit.ofAct (c.plan kind source)) o with ⟨result, o₁⟩
  rw [hplan] at hfails
  cases result with
  | error e' => exact hfails
  | ok plan =>
    simp only at hfails ⊢
    obtain ⟨h₁, hplanned, -⟩ := runFrom_ofAct_ok.mp hplan
    rw [finishPlan_of_runs (plan_runs hkind hplanned), runFrom_bind, hfails]

/-! ## §3 The whole -/

/-- A source that is no bundle compiles, into a sink that takes everything, exactly to what its
    front end and optimizer make and then the files that its directives name, and the number of
    these bytes is returned. An artifact that is streamed through a pipeline comes to the same as
    its content. If planning or a pipeline fails, no directive is followed. A compilation into a
    file that succeeds leaves it with what would be written to a sink, whatever it held before, if
    nothing that the compilation depends on changes when the file is emptied. -/
theorem compile_composes (hkind : kind ∈ unitKinds) :
    (∀ (s s' : Sink) (t : Tree), s.room = none →
      ((∃ k, runFrom (c.compile kind source) ⟨h, s⟩ = (.ok n, ⟨k, s'⟩) ∧ k.tree = t) ↔
        ∃ out extra, c.Renders kind source h out t ∧ Includes t h.directory source extra ∧
          n = (out ++ extra).length ∧ s' = s.accept (out ++ extra))) ∧
    (∀ (p : Pipeline) (artifact : Path) (f : RegularFile) (s : Sink),
      h.tree.openFile h.directory artifact = .ok (.file f) → h.feeding f.content = none →
      runFrom (p.runInto (.file artifact)) ⟨h, s⟩ = runFrom (p.runInto (.bytes f.content)) ⟨h, s⟩) ∧
    (∀ (s : Sink) (e : Failure) (o' : Outlet),
      runFrom (Emit.ofAct (c.plan kind source) >>= runPlan) ⟨h, s⟩ = (.error e, o') →
      runFrom (c.compile kind source) ⟨h, s⟩ = (.error e, o')) ∧
    (∀ (dest : Path) (k : Host), h.Ready → (emptied dest h).tree.NoScratch h.temporary →
      c.Steady h (Touched h dest) kind source →
      runFrom (c.compileToFile kind source dest) h = (.ok n, k) →
      ∃ b k', k.tree.bytesAt k.directory dest = .ok b ∧ n = b.length ∧
        (c.compile kind source).collect h = (.ok n, b, k')) := by
  refine ⟨fun s s' t hroom => compile_ok_iff hkind hroom, fun p artifact f s hopen hfeeding => ?_,
    fun s e o' hfails => compile_stops hkind hfails,
    fun dest k hready hclear hsteady hrun => compileToFile_leaves hready hclear hsteady hrun⟩
  have hspawn : runFrom (p.spawn (.file artifact)) h = runFrom (p.spawn (.bytes f.content)) h :=
    Pipeline.spawn_congr (by simp [Pipeline.inputData, hfeeding, hopen])
      (by simp [Pipeline.feedFault?, hfeeding])
  rw [Pipeline.runInto_eq, Pipeline.runInto_eq, runFrom_bind, runFrom_bind, runFrom_ofAct,
    runFrom_ofAct, hspawn]

/-- A program that writes to the artifact it is told, and prints something else. Without an artifact
    it writes its input behind one more byte. -/
def draftingProgram : Program := fun call t =>
  match call.arguments with
  | "--out" :: artifact :: _ =>
    match t.createFile call.directory call.now ⟨artifact⟩ with
    | .ok (loc, t) => ⟨[0x21], .exited 0, 0, t.fill call.now loc [0x31]⟩
    | .error _ => ⟨[], .exited 1, 0, t⟩
  | _ => ⟨0x32 :: call.input, .exited 0, 0, t⟩

/-- A host with this program for every tool, and a source that includes a file. -/
def draftingHost : Host :=
  .ofTree ⟨[(["bin"], .directory), (["bin", "tool"], executableFile), (["site"], .directory),
    (["site", "b.main.ts"], plainFile (Utf8.encode "//@include(\"x.txt\")\n")),
    (["site", "x.txt"], plainFile [0x33]), (["tmp"], .directory)]⟩ (installed draftingProgram)

/-- The output of a unit of `bundleHost`, compiled into a file, is new, and so is its directory. -/
theorem bundle_touched : bundleHost.Vacates (Touched bundleHost ⟨"out/a.js"⟩) ∧
    (emptied ⟨"out/a.js"⟩ bundleHost).tree.NoScratch bundleHost.temporary := by
  have htree : (emptied ⟨"out/a.js"⟩ bundleHost).tree = (bundleHost.tree.put ["out"] .directory).put
      ["out", "a.js"] (.file ⟨[], RegularFile.defaultMode, bundleHost.now⟩) := by decide +kernel
  refine ⟨?_, Host.noScratch_of_names (by decide +kernel)⟩
  rintro loc (hchanged | hscratch)
  · by_cases hfile : loc = ["out", "a.js"]
    · rw [hfile]
      decide +kernel
    by_cases hdir : loc = ["out"]
    · rw [hdir]
      decide +kernel
    rw [htree, Tree.get?_put_of_ne _ hfile, Tree.get?_put_of_ne _ hdir] at hchanged
    exact absurd rfl hchanged
  · exact scratchPlaces_vacates bundle_ready loc hscratch

theorem drafting_composes :
    (∃ out extra t, Renders ⟨oneTool, { (default : Settings) with level := .basic }⟩ .typedSuperset
        ⟨"site/b.main.ts"⟩ draftingHost out t ∧ Includes t [] ⟨"site/b.main.ts"⟩ extra ∧
        out ++ extra = [0x32, 0x31, 0x33]) ∧
    ∃ k, runFrom ((⟨oneTool, default⟩ : Compiler).compileToFile .preprocessedScript
        ⟨"site/a.main.js"⟩ ⟨"out/a.js"⟩) bundleHost = (.ok 14, k) ∧
      k.tree.bytesAt k.directory ⟨"out/a.js"⟩ = .ok (Utf8.encode "site/a.main.js") := by
  constructor
  · have hrun : (runFrom ((⟨oneTool, { (default : Settings) with level := .basic }⟩ :
        Compiler).compile .typedSuperset ⟨"site/b.main.ts"⟩) ⟨draftingHost, ⟨[7], none⟩⟩).1 =
          .ok 3 ∧
        (runFrom ((⟨oneTool, { (default : Settings) with level := .basic }⟩ : Compiler).compile
          .typedSuperset ⟨"site/b.main.ts"⟩) ⟨draftingHost, ⟨[7], none⟩⟩).2.sink.held =
          [7, 0x32, 0x31, 0x33] := by decide +kernel
    obtain ⟨out, extra, hrenders, hincludes, -, hsink⟩ :=
      ((compile_composes (by decide)).1 ⟨[7], none⟩ _ _ rfl).mp ⟨_, Prod.ext hrun.1 rfl, rfl⟩
    have hheld : [7] ++ (out ++ extra) = [7, 0x32, 0x31, 0x33] :=
      (congrArg Sink.held hsink).symm.trans hrun.2
    exact ⟨out, extra, _, hrenders, hincludes, List.append_cancel_left hheld⟩
  · have hrun : (runFrom ((⟨oneTool, default⟩ : Compiler).compileToFile .preprocessedScript
        ⟨"site/a.main.js"⟩ ⟨"out/a.js"⟩) bundleHost).1 = .ok 14 := by decide +kernel
    have hsteady : (⟨oneTool, default⟩ : Compiler).Steady bundleHost
        (Touched bundleHost ⟨"out/a.js"⟩) .preprocessedScript ⟨"site/a.main.js"⟩ :=
      steady_of_blind ⟨"/bin/tool"⟩ bundle_touched.1 rfl (by decide +kernel)
        (fun loc run h => installed_eq h ▸ Program.echoing_blind) (by decide +kernel)
        (by decide +kernel) (by decide) (by decide +kernel) (by decide +kernel)
    obtain ⟨b, k', hbytes, -, hcollect⟩ := (compile_composes (by decide)).2.2.2 ⟨"out/a.js"⟩ _
      bundle_ready bundle_touched.2 hsteady (Prod.ext hrun rfl)
    have hwritten : (((⟨oneTool, default⟩ : Compiler).compile .preprocessedScript
        ⟨"site/a.main.js"⟩).collect bundleHost).2.1 = Utf8.encode "site/a.main.js" := by
      decide +kernel
    rw [hcollect] at hwritten
    exact ⟨_, Prod.ext hrun rfl, hwritten ▸ hbytes⟩

end Compiler

end AssetServer
