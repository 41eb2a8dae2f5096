import AssetServer.Proofs.Pipelining

/-!
# Compilations that do not depend on hidden files

A compilation is steady at a host if nothing that it looks up, starts or reads depends on the files
at some hidden places (`Compiler.Steady`), and what the typed-superset compiler writes does not
depend on the name of its scratch directory. What compiles on one of two hosts that differ at those
places only then compiles on the other, to the same bytes (`Compiler.compile_follows`), and what is
steady on one is steady on the other (`Compiler.Steady.matches`).
-/

namespace AssetServer

/-! ## §1 What does not depend on hidden places -/

/-- What a run shows to those that read from it or wait for it. -/
def Execution.shown (run : Execution) : Bytes × ExitStatus × Nat :=
  (run.output, run.status, run.unread)

namespace Host

/-- What `f` reads from a host does not depend on the files at the places `G`. -/
def Fixes {α : Type} (h : Host) (G : Location → Prop) (f : Host → α) : Prop :=
  ∀ k, h.Beside G k → k.tree.WellFormed → f k = f h

/-- What opening a path gives does not depend on the files at the places `G`. -/
def Reads (h : Host) (G : Location → Prop) (p : Path) : Prop :=
  h.Fixes G fun k => k.tree.openFile k.directory p

/-- Where the `n`-th scratch directory holds the artifact of its compilation. -/
def artifact (h : Host) (n : Nat) : Path :=
  (h.temporaryPath.join (scratchName n)).join "out.js"

/-- The `n`-th scratch directory has been made in `T`, and nothing is in it yet. -/
structure Made (T : Location) (n : Nat) (h : Host) : Prop where
  there : h.tree.get? (T ++ [scratchName n]) = some .directory
  bare : ∀ loc, InScratch T loc → h.tree.get? loc = none

end Host

/-- Starting the executable of a command does not depend on the places `G`, and neither does what it
    shows when it runs. -/
structure Command.Settled (h : Host) (G : Location → Prop) (c : Command) : Prop where
  launched : h.Fixes G (·.launch c)
  shown : ∀ l, h.launch c = .ok l → ∀ input broken,
    h.Fixes G fun k => (l.run h.now input broken k.tree).shown

/-- Locating the executable of a command, starting and running it do not depend on the places `G`. -/
structure Command.Steady (h : Host) (G : Location → Prop) (c : Command) : Prop where
  located : h.Fixes G (·.locate? c.program)
  settled : ∀ path, h.locate? c.program = some path → (c.withProgram path).Settled h G

namespace Compiler

/-- What comes of compiling a source into an artifact in the `n`-th scratch directory: what the run
    shows, and what opening the artifact gives then. -/
def draft (c : Compiler) (source : Path) (n : Nat) (h : Host) :
    Option ((Bytes × ExitStatus × Nat) × Except OsError (Except OsError Bytes)) := do
  let command := c.typescript source (h.artifact n)
  let path ← h.locate? command.program
  let l ← (h.launch (command.withProgram path)).toOption
  let run := l.run h.now [] false h.tree
  return (run.shown, (run.tree.openFile h.directory (h.artifact n)).map Tree.Opened.read)

/-- What comes of compiling a source into an artifact depends neither on the places `G` nor on the
    name of the scratch directory. -/
def DraftSteady (c : Compiler) (h : Host) (G : Location → Prop) (source : Path) : Prop :=
  ∀ k k' n n', h.Beside G k → h.Beside G k' → k.tree.WellFormed → k'.tree.WellFormed →
    k.Made h.temporary n → k'.Made h.temporary n' →
    Tree.Fits (h.artifact n) → Tree.Fits (h.artifact n') →
    c.draft source n k = c.draft source n' k'

/-- The tools that compile a source of a kind do not depend on the places `G`. -/
def ToolsSteady (c : Compiler) (h : Host) (G : Location → Prop) (kind : Kind) (source : Path) :
    Prop :=
  (∀ stage, c.optimizerStage? kind = some stage → stage.Steady h G) ∧
  match kind with
  | .component => (c.component h source).Steady h G
  | .stylesheet => (c.stylesheet source).Steady h G
  | .preprocessedScript => (c.preprocessor source).Steady h G
  | .typedSuperset => c.DraftSteady h G source
  | .bundle | .passthrough | .unknown => True

/-- Compiling a source that is no bundle depends on none of the places `G`: neither its tools do, nor
    the files that it names, itself among them. -/
structure SourceSteady (c : Compiler) (h : Host) (G : Location → Prop) (kind : Kind)
    (source : Path) : Prop where
  tools : c.ToolsSteady h G kind source
  reads : h.Reads G source
  includes : ∀ data directives, h.tree.bytesAt h.directory source = .ok data →
    Directive.scan data = .ok directives → ∀ name ∈ Directive.files directives,
    h.Reads G ((source.parent.getD ⟨""⟩).join name)

/-- The compiler that a unit of a bundle is compiled with. -/
def ofUnit (c : Compiler) (m : Manifest) (dir : Path) (u : BundleUnit) : Compiler :=
  { c with settings := m.unitSettings u c.settings dir }

/-- Compiling a source depends on none of the places `G`; for a bundle, compiling its units does
    not. -/
def Steady (c : Compiler) (h : Host) (G : Location → Prop) (kind : Kind) (source : Path) : Prop :=
  if kind = .bundle then
    h.Reads G source ∧ ∀ data m, h.tree.bytesAt h.directory source = .ok data →
      Manifest.read data = .ok m → ∀ u ∈ m.units,
        let dir := source.parent.getD ⟨""⟩
        (c.ofUnit m dir u).SourceSteady h G (Kind.ofPath (dir.join u.file)) (dir.join u.file)
  else c.SourceSteady h G kind source

end Compiler

/-! ## §2 Chains of processes -/

namespace Pipeline

variable {h k k' : Host} {G : Location → Prop}

/-- The statuses of a chain are those of what its runs show. -/
theorem statuses_of_shown {runs runs' : List Execution}
    (hshown : runs.map Execution.shown = runs'.map Execution.shown) :
    statuses runs = statuses runs' := by
  induction runs generalizing runs' with
  | nil => rw [List.map_eq_nil_iff.mp hshown.symm]
  | cons run rest ih =>
    cases runs' with
    | nil => simp at hshown
    | cons run' rest' =>
      rw [List.map_cons, List.map_cons, List.cons.injEq] at hshown
      obtain ⟨hhead, htail⟩ := hshown
      have hrest := ih htail
      simp only [Execution.shown, Prod.mk.injEq] at hhead
      cases rest with
      | nil =>
        rw [List.map_eq_nil_iff.mp htail.symm]
        simp [statuses, hhead.2.1]
      | cons next more =>
        cases rest' with
        | nil => simp at htail
        | cons next' more' =>
          simp only [List.map_cons, List.cons.injEq, Execution.shown, Prod.mk.injEq] at htail
          simp only [statuses, hrest, hhead.2.1, htail.1.2.2]

theorem lastOutput_of_shown {runs runs' : List Execution}
    (hshown : runs.map Execution.shown = runs'.map Execution.shown) (input : Bytes) :
    lastOutput input runs = lastOutput input runs' := by
  have houtput : ∀ l : List Execution,
      l.getLast?.map Execution.output = (l.map Execution.shown).getLast?.map Prod.fst := by
    intro l
    rw [List.getLast?_map, Option.map_map]
    rfl
  unfold lastOutput
  rw [houtput, houtput, hshown]

/-- What a chain of settled commands shows does not depend on hidden places. -/
theorem executions_shown {T : Location} (hG : ∀ loc, InScratch T loc → G loc) {cs : List Command}
    {ls : List Launch} (hsettled : ∀ c ∈ cs, c.Settled h G)
    (hls : cs.map h.launch = ls.map .ok)
    (hconfined : ∀ l ∈ ls, l.program.Confined T) (input : Bytes) (broken : Bool)
    (hk : h.Beside G k) (hk' : h.Beside G k') (hwf : k.tree.WellFormed)
    (hwf' : k'.tree.WellFormed) :
    (executions h.now ls input broken k.tree).1.map Execution.shown =
      (executions h.now ls input broken k'.tree).1.map Execution.shown := by
  induction ls generalizing cs input broken k k' with
  | nil => rfl
  | cons l ls ih =>
    obtain ⟨c, cs, rfl⟩ : ∃ c rest, cs = c :: rest := by
      refine List.exists_cons_of_ne_nil ?_
      rintro rfl
      cases hls
    rw [List.map_cons, List.map_cons, List.cons.injEq] at hls
    obtain ⟨hlaunch, hrest⟩ := hls
    have hshown := (hsettled c (by simp)).shown l hlaunch input broken
    have hsame : (l.run h.now input broken k.tree).shown = (l.run h.now input broken k'.tree).shown :=
      (hshown k hk hwf).trans (hshown k' hk' hwf').symm
    -- the rest of the chain runs on the files that this process leaves
    have hafter : ∀ {k : Host}, h.Beside G k → k.tree.WellFormed →
        h.Beside G { k with tree := (l.run h.now input broken k.tree).tree } ∧
          (l.run h.now input broken k.tree).tree.WellFormed := by
      intro k hk hwf
      obtain ⟨hwf₁, hstay⟩ := hconfined l (by simp) ⟨l.arguments, l.directory, l.environment, input,
        broken, h.now⟩ k.tree hwf
      exact ⟨hk.trans (.withTree fun loc hloc => hstay loc fun hin => hloc (hG loc hin)), hwf₁⟩
    obtain ⟨hk₁, hwf₁⟩ := hafter hk hwf
    obtain ⟨hk₁', hwf₁'⟩ := hafter hk' hwf'
    have hinner := ih (fun c hc => hsettled c (List.mem_cons_of_mem _ hc)) hrest
      (fun l hl => hconfined l (List.mem_cons_of_mem _ hl))
      (l.run h.now input broken k.tree).output false hk₁ hk₁' hwf₁ hwf₁'
    have houtput : (l.run h.now input broken k.tree).output =
        (l.run h.now input broken k'.tree).output := congrArg Prod.fst hsame
    show _ :: _ = _ :: _
    rw [List.cons.injEq]
    refine ⟨hsame, hinner.trans ?_⟩
    rw [houtput]
    rfl

/-! ## §3 Whole pipelines -/

/-- A pipeline of settled commands succeeds on a host if it does so on another that differs at hidden
    places only, and writes the same. -/
theorem runInto_steady {p : Pipeline} {input input' : PipelineInput} {s sink : Sink} {n : Nat}
    {k₁' : Host} (hready : h.Ready) (hG : ∀ loc, InScratch h.temporary loc → G loc)
    (hsettled : ∀ c ∈ p.stages, c.Settled h G) (hk : h.Beside G k) (hk' : h.Beside G k')
    (hwf : k.tree.WellFormed) (hwf' : k'.tree.WellFormed)
    (hinput : ∀ found, inputData k' input' = .ok found → inputData k input = .ok found)
    (hfed : feedFault? k input = none)
    (hrun : runFrom (p.runInto input') ⟨k', s⟩ = (.ok n, ⟨k₁', sink⟩)) :
    ∃ k₁, runFrom (p.runInto input) ⟨k, s⟩ = (.ok n, ⟨k₁, sink⟩) := by
  obtain ⟨data, broken, ls, hdata, hls', hcopy, hn, hall, -, -⟩ := runInto_ok_iff.mp ⟨_, hrun, rfl⟩
  -- the same processes are launched on either host, and show the same
  have hlaunched : ∀ {l : Host}, h.Beside G l → l.tree.WellFormed →
      p.stages.map l.launch = p.stages.map h.launch :=
    fun hl hwf => List.map_congr_left fun c hc => (hsettled c hc).launched _ hl hwf
  have hls := (hlaunched hk' hwf').symm.trans hls'
  have hshown := executions_shown hG hsettled hls (hready.confined_launches hls) data broken hk hk'
    hwf hwf'
  rw [hk'.now, ← lastOutput_of_shown hshown] at hcopy hn
  rw [hk'.now, ← statuses_of_shown hshown] at hall
  rw [← hk.now] at hcopy hn hall
  obtain ⟨k₁, hdone, -⟩ := runInto_ok_iff.mpr ⟨data, broken, ls, hinput _ hdata,
    (hlaunched hk hwf).trans hls, hcopy, hn, hall, fun _ => hfed, rfl⟩
  exact ⟨k₁, hdone⟩

/-! ## §4 Locating tools -/

theorem pin_steady {cs : List Command} (hsteady : ∀ c ∈ cs, c.Steady h G) (hk : h.Beside G k)
    (hwf : k.tree.WellFormed) : pin k cs = pin h cs := by
  induction cs with
  | nil => rfl
  | cons c rest ih =>
    have hfound : k.locate? c.program = h.locate? c.program :=
      (hsteady c (by simp)).located k hk hwf
    rw [pin, pin, hfound, ih fun c hc => hsteady c (List.mem_cons_of_mem _ hc)]

theorem pin_settled {cs stages : List Command} (hsteady : ∀ c ∈ cs, c.Steady h G)
    (hpin : pin h cs = (stages, none)) : ∀ c ∈ stages, c.Settled h G := by
  intro stage hstage
  obtain ⟨c, hc, path, hpath, rfl⟩ := exists_pins (pin_ok_iff.mp hpin) stage hstage
  exact (hsteady c hc).settled path hpath

end Pipeline

/-- What is located on one host is located on every host that differs at hidden places only, and is
    settled. -/
theorem Compiler.located_steady {h k : Host} {G : Location → Prop} {p : Pipeline}
    (hsteady : ∀ c ∈ p.stages, c.Steady h G) (hk : h.Beside G k) (hwf : k.tree.WellFormed) :
    Compiler.located k p = Compiler.located h p ∧
      ∀ q, Compiler.located h p = .ok q → ∀ c ∈ q.stages, c.Settled h G := by
  refine ⟨?_, fun q hq => Pipeline.pin_settled hsteady (located_ok_iff.mp hq)⟩
  unfold Compiler.located Pipeline.resolveTools
  rw [Pipeline.pin_steady hsteady hk hwf]

/-! ## §5 Two runs -/

variable {h : Host} {G : Location → Prop}

/-- Between compilations, `k` differs from `h` at hidden places only. -/
structure Host.Matches (h : Host) (G : Location → Prop) (k : Host) : Prop where
  ready : k.Ready
  beside : h.Beside G k
  temporary : k.temporary = h.temporary

/-- Two hosts that differ at hidden places only; more scratch directories have been made on the
    second. -/
structure Twin (h : Host) (G : Location → Prop) (k k' : Host) : Prop where
  left : h.Matches G k
  right : h.Matches G k'
  scratches : k.scratches ≤ k'.scratches

/-- Two hosts that differ at hidden places only. The next scratch directories of the first have no
    longer names than those of the second, as far as these have numbers below the limit. -/
structure Paired (h : Host) (G : Location → Prop) (limit : Nat) (k k' : Host) : Prop where
  left : h.Matches G k
  right : h.Matches G k'
  shorter : ∀ n, k'.scratches + n < limit →
    (Host.scratchName (k.scratches + n)).utf8ByteSize ≤
      (Host.scratchName (k'.scratches + n)).utf8ByteSize

/-- If the action succeeds on the second of two such hosts, and makes no scratch directory past the
    limit there, then it succeeds on the first, writes the same and makes as many scratch
    directories. -/
structure Follows {α : Type} (h : Host) (G : Location → Prop) (act : Emit α) : Prop where
  quiet : MovesHost (fun h k => h.Ready → h.Quiet k) act
  runs : ∀ {limit k k' s a k₁' sink}, Paired h G limit k k' →
    runFrom act ⟨k', s⟩ = (.ok a, ⟨k₁', sink⟩) → k₁'.scratches ≤ limit →
    ∃ k₁, runFrom act ⟨k, s⟩ = (.ok a, ⟨k₁, sink⟩) ∧ Paired h G limit k₁ k₁' ∧
      k₁.scratches + k'.scratches = k.scratches + k₁'.scratches

namespace Follows

variable {α β : Type}

theorem pure (a : α) : Follows h G (Pure.pure a : Emit α) := by
  refine ⟨.pure (fun _ => .refl) a, fun {limit k k' s b k₁' sink} hpair hrun _ => ?_⟩
  rw [runFrom_pure, Prod.mk.injEq, Outlet.mk.injEq] at hrun
  obtain ⟨hb, rfl, rfl⟩ := hrun
  exact ⟨k, by rw [runFrom_pure, hb], hpair, rfl⟩

theorem throw (e : Failure) : Follows h G (MonadExcept.throw e : Emit α) :=
  ⟨.throw (fun _ => .refl) e, fun _ hrun _ => by cases hrun⟩

theorem bind {act : Emit α} {next : α → Emit β} (hact : Follows h G act)
    (hnext : ∀ a, Follows h G (next a)) : Follows h G (act >>= next) := by
  refine ⟨.bind Host.rests_trans hact.quiet fun a => (hnext a).quiet,
    fun {limit k k' s b k₁' sink} hpair hrun hlimit => ?_⟩
  obtain ⟨a, ⟨k₂', s₂⟩, hfirst, hrest⟩ := runFrom_bind_ok.mp hrun
  -- the scratch directories of the first action are among those of both
  have hready : k₂'.Ready := by
    have hquiet := hact.quiet ⟨k', s⟩ hpair.right.ready
    rw [hfirst] at hquiet
    exact hquiet.ready
  have hraised : k₂'.scratches ≤ k₁'.scratches := by
    have hquiet := (hnext a).quiet ⟨k₂', s₂⟩ hready
    rw [hrest] at hquiet
    exact hquiet.scratches
  obtain ⟨k₂, hleft, hpair, hsame⟩ := hact.runs hpair hfirst (Nat.le_trans hraised hlimit)
  obtain ⟨k₁, hdone, hpair, hsame'⟩ := (hnext a).runs hpair hrest hlimit
  exact ⟨k₁, runFrom_bind_ok.mpr ⟨a, ⟨k₂, s₂⟩, hleft, hdone⟩, hpair, by omega⟩

/-- What is read must not depend on hidden places, as far as reading succeeds. -/
theorem read {f : Host → Except Failure α}
    (hf : ∀ k k' a, h.Matches G k → h.Matches G k' → f k' = .ok a → f k = .ok a) :
    Follows h G (Emit.ofAct (Act.read f)) := by
  refine ⟨.ofAct (.read (fun _ => .refl) f), fun {limit k k' s a k₁' sink} hpair hrun _ => ?_⟩
  obtain ⟨l, hread, hafter⟩ := runFrom_ofAct_ok.mp hrun
  obtain ⟨ha, rfl⟩ := runFrom_read_ok.mp hread
  obtain ⟨rfl, rfl⟩ := Outlet.mk.inj hafter
  exact ⟨k, runFrom_ofAct_ok.mpr
    ⟨k, runFrom_read_ok.mpr ⟨hf k _ a hpair.left hpair.right ha, rfl⟩, rfl⟩, hpair, rfl⟩

/-- An action that only reads and does not depend on hidden places, as far as it succeeds. What
    comes next need be taken for what it can give only. -/
theorem ofAct_bind {act : Act α} {next : α → Emit β}
    (hquiet : MovesHost (fun h k => h.Ready → h.Quiet k) (Emit.ofAct act >>= next))
    (hact : ∀ {k k' l' a}, h.Matches G k → h.Matches G k' → runFrom act k' = (.ok a, l') →
      l' = k' ∧ runFrom act k = (.ok a, k) ∧ Follows h G (next a)) :
    Follows h G (Emit.ofAct act >>= next) := by
  refine ⟨hquiet, fun {limit k k' s b k₁' sink} hpair hrun hlimit => ?_⟩
  obtain ⟨a, o, hfirst, hrest⟩ := runFrom_bind_ok.mp hrun
  obtain ⟨l', hfound, rfl⟩ := runFrom_ofAct_ok.mp hfirst
  obtain ⟨rfl, hleft, hnext⟩ := hact hpair.left hpair.right hfound
  obtain ⟨k₁, hdone, hafter⟩ := hnext.runs hpair hrest hlimit
  exact ⟨k₁, runFrom_bind_ok.mpr ⟨a, ⟨k, s⟩, runFrom_ofAct_ok.mpr ⟨k, hleft, rfl⟩, hdone⟩, hafter⟩

theorem copy (fault : OsError → Failure) (data : Bytes) : Follows h G (Emit.copy fault data) := by
  refine ⟨.copy (fun _ => .refl) fault data, fun {limit k k' s n k₁' sink} hpair hrun _ => ?_⟩
  obtain ⟨after, hcopy, rfl, hafter⟩ := copy_ok_iff.mp hrun
  obtain ⟨rfl, rfl⟩ := Outlet.mk.inj hafter
  exact ⟨k, copy_ok_iff.mpr ⟨_, hcopy, rfl, rfl⟩, hpair, rfl⟩

end Follows

/-! ## §6 Reading files -/

theorem Host.Reads.same {p : Path} {k k' : Host} (hreads : h.Reads G p) (hk : h.Matches G k)
    (hk' : h.Matches G k') :
    k.tree.openFile k.directory p = k'.tree.openFile k'.directory p :=
  (hreads k hk.beside hk.ready.wellFormed).trans (hreads k' hk'.beside hk'.ready.wellFormed).symm

theorem Host.Reads.bytesAt {p : Path} {k : Host} (hreads : h.Reads G p) (hk : h.Matches G k) :
    k.tree.bytesAt k.directory p = h.tree.bytesAt h.directory p :=
  Tree.bytesAt_congr (hreads k hk.beside hk.ready.wellFormed)

theorem Host.Reads.bytesAt_same {p : Path} {k k' : Host} (hreads : h.Reads G p)
    (hk : h.Matches G k) (hk' : h.Matches G k') :
    k.tree.bytesAt k.directory p = k'.tree.bytesAt k'.directory p :=
  (hreads.bytesAt hk).trans (hreads.bytesAt hk').symm

theorem copyFile_follows {p : Path} (hreads : h.Reads G p) : Follows h G (copyFile p) := by
  refine .bind (.read fun k k' a hk hk' hread => ?_) fun data => .copy _ data
  rw [hreads.bytesAt_same hk hk']
  exact hread

theorem appendFile_follows {source p : Path} (hreads : h.Reads G p) :
    Follows h G (appendFile source p) := by
  refine .bind (.read fun k k' a hk hk' hread => ?_) fun opened => ?_
  · rw [hreads.same hk hk']
    exact hread
  · cases opened.read with
    | ok data => exact .copy _ data
    | error e => exact .throw _

theorem appendFiles_follows {source : Path} {paths : List Path} (hreads : ∀ p ∈ paths, h.Reads G p) :
    Follows h G (appendFiles source paths) := by
  induction paths with
  | nil => exact .pure 0
  | cons p rest ih =>
    exact .bind (appendFile_follows (hreads p (by simp))) fun n =>
      .bind (ih fun q hq => hreads q (List.mem_cons_of_mem _ hq)) fun more => .pure _

/-- Following directives does not depend on hidden places if the files that they name do not. -/
theorem expand_follows {source : Path} (hreads : h.Reads G source)
    (hincludes : ∀ data directives, h.tree.bytesAt h.directory source = .ok data →
      Directive.scan data = .ok directives → ∀ name ∈ Directive.files directives,
      h.Reads G ((source.parent.getD ⟨""⟩).join name)) : Follows h G (expand source) := by
  refine .ofAct_bind (expand_moves (fun _ => .refl) Host.rests_trans source) fun hk hk' hfound => ?_
  obtain ⟨⟨data, hbytes, hscan⟩, rfl⟩ := directivesOf_ok_iff.mp hfound
  have hsame := (hreads.bytesAt_same hk hk').trans hbytes
  refine ⟨rfl, directivesOf_ok_iff.mpr ⟨⟨data, hsame, hscan⟩, rfl⟩, ?_⟩
  -- only what the source names must not depend on hidden places
  refine appendFiles_follows fun p hp => ?_
  obtain ⟨name, hname, rfl⟩ := List.mem_map.mp hp
  rw [hreads.bytesAt hk'] at hbytes
  exact hincludes data _ hbytes hscan name hname

/-! ## §7 Scratch directories -/

namespace Host

theorem size_ofList {l : List Char} (hl : ∀ c ∈ l, c.utf8Size = 1) :
    (String.ofList l).utf8ByteSize = l.length := by
  induction l with
  | nil => rfl
  | cons c rest ih =>
    have hsplit : String.ofList (c :: rest) = String.singleton c ++ String.ofList rest := by
      rw [← String.toList_inj]
      simp
    rw [hsplit, String.utf8ByteSize_append, String.utf8ByteSize_singleton, hl c (by simp),
      ih fun d hd => hl d (List.mem_cons_of_mem _ hd), List.length_cons, Nat.add_comm]

theorem size_scratchName (n : Nat) :
    (scratchName n).utf8ByteSize = 8 + max 6 n.repr.length := by
  have hascii : ∀ c ∈ (scratchName n).toList, c.utf8Size = 1 := by
    intro c hc
    rcases mem_scratchName hc with hletter | hdigit
    · have hletters : "kiln-tsc".toList.all (fun c => c.utf8Size == 1) = true := by decide
      simpa using List.all_eq_true.mp hletters c hletter
    · have hbound : c.toNat ≤ '9'.toNat := (Char.isDigit_iff_toNat.mp hdigit).2
      exact Char.utf8Size_eq_one_iff.mpr (Nat.le_trans hbound (by decide))
  have hsize := size_ofList hascii
  rw [String.ofList_toList, scratchName_toList] at hsize
  rw [hsize]
  have hdigits : (Nat.toDigits 10 n).length = n.repr.length := by
    rw [← Nat.toList_repr, String.length_toList]
  simp only [List.length_append, List.length_replicate, hdigits]
  have hword : "kiln-tsc".toList.length = 8 := rfl
  omega

/-- Names of scratch directories do not get shorter. -/
theorem size_scratchName_mono {n n' : Nat} (hn : n ≤ n') :
    (scratchName n).utf8ByteSize ≤ (scratchName n').utf8ByteSize := by
  have hpos : 0 < n'.repr.length := Nat.length_repr_pos
  have hlength : n.repr.length ≤ n'.repr.length :=
    (Nat.length_repr_le_iff hpos).mpr
      (Nat.lt_of_le_of_lt hn ((Nat.length_repr_le_iff hpos).mp (Nat.le_refl _)))
  rw [size_scratchName, size_scratchName]
  omega

end Host

theorem Path.join_size_mono (p : Path) {n n' : String} (hn : '/' ∉ n.toList)
    (hn' : '/' ∉ n'.toList) (hsize : n.utf8ByteSize ≤ n'.utf8ByteSize) :
    (p.join n).text.utf8ByteSize ≤ (p.join n').text.utf8ByteSize := by
  rw [size_joined p hn, size_joined p hn']
  exact Nat.add_le_add_left hsize _

theorem Host.artifact_size (h : Host) (n : Nat) : (h.artifact n).text.utf8ByteSize =
    (h.temporaryPath.join (scratchName n)).text.utf8ByteSize + 1 + "out.js".utf8ByteSize := by
  obtain ⟨hstep, -, hslash⟩ := isPart_scratchName n
  have hne : (scratchName n).toList ≠ [] := fun hnil => hstep (.inl (by simpa using hnil))
  have hlast : (scratchName n).toList.getLast? ≠ some '/' := fun hend =>
    hslash (List.mem_of_getLast? hend)
  -- the name stands at the end of the path of the scratch directory
  have hjoined : ∃ init, (h.temporaryPath.join (scratchName n)).text = init ++ scratchName n := by
    unfold Path.join
    rw [if_neg (Path.name_head hslash)]
    split
    · exact ⟨_, rfl⟩
    · exact ⟨_, rfl⟩
  obtain ⟨init, hinit⟩ := hjoined
  unfold artifact
  rw [Path.size_joined _ (by decide), if_neg]
  rw [hinit, String.toList_append, List.getLast?_append_of_ne_nil _ hne]
  rintro (hnil | hend)
  · exact hne (List.append_eq_nil_iff.mp hnil).2
  · exact hlast hend

/-- Where artifacts lie fits in a path for every number with a shorter name as well. -/
theorem Host.fits_artifact {n n' : Nat}
    (hn : (scratchName n).utf8ByteSize ≤ (scratchName n').utf8ByteSize)
    (hfits : Tree.Fits (h.artifact n')) : Tree.Fits (h.artifact n) := by
  have hsize := Path.join_size_mono h.temporaryPath (isPart_scratchName n).no_slash
    (isPart_scratchName n').no_slash hn
  unfold Tree.Fits at hfits ⊢
  rw [artifact_size] at hfits ⊢
  omega

theorem Host.Matches.quiet {k k₁ : Host} (hk : h.Matches G k) (hq : k.Quiet k₁) :
    h.Matches G k₁ := by
  have hpart : k.tree.PartOf k₁.tree := fun loc e he => (hq.get? loc).trans he
  refine ⟨hq.ready, hk.beside.trans (hq.beside.mono fun _ hfalse => hfalse.elim), ?_⟩
  rw [(Host.temporary_of_partOf hk.ready hpart hq.beside.directory hq.beside.environment).1,
    hk.temporary]

theorem Host.Matches.temporaryPath {k : Host} (hk : h.Beside G k) :
    k.temporaryPath = h.temporaryPath := by
  unfold Host.temporaryPath Host.setting?
  rw [hk.environment]

/-- A host on which a scratch directory has just been made. -/
structure Host.Drafting (h : Host) (G : Location → Prop) (n : Nat) (l : Host) : Prop where
  sound : l.Sound h.temporary
  beside : h.Beside G l
  made : l.Made h.temporary n
  scratches : l.scratches = n + 1

/-- The places of scratch directories are hidden. -/
def HidesScratch (h : Host) (G : Location → Prop) : Prop :=
  ∀ n rest, G (h.temporary ++ Host.scratchName n :: rest)

theorem HidesScratch.inScratch (hG : HidesScratch h G) {loc : Location}
    (hloc : InScratch h.temporary loc) : G loc := by
  obtain ⟨n, rest, -, rfl⟩ := hloc
  exact hG n rest

theorem makeScratch_drafting {k l : Host} {path : Path} (hG : HidesScratch h G)
    (hk : h.Matches G k) (hmake : runFrom makeScratch k = (.ok path, l)) :
    path = h.temporaryPath.join (Host.scratchName k.scratches) ∧ h.Drafting G k.scratches l := by
  have hsound := makeScratch_sound hk.ready hmake
  obtain ⟨hpath, -, -, -, rfl⟩ := makeScratch_ok hk.ready hmake
  rw [hk.temporary] at hsound ⊢
  rw [Host.Matches.temporaryPath hk.beside] at hpath
  have hne : h.temporary ++ [Host.scratchName k.scratches] ≠ [] := by simp
  refine ⟨hpath, hsound, hk.beside.trans ⟨rfl, rfl, rfl, rfl, rfl, fun loc hloc => ?_⟩,
    ⟨Tree.get?_put_self _ hne _, fun loc hloc => ?_⟩, rfl⟩
  · refine Tree.get?_put_of_ne _ ?_ _
    rintro rfl
    exact hloc (hG k.scratches [])
  · have hother : loc ≠ h.temporary ++ [Host.scratchName k.scratches] := by
      rintro rfl
      exact not_inScratch _ _ hloc
    show (k.tree.put _ .directory).get? loc = none
    rw [Tree.get?_put_of_ne _ hother]
    refine hk.ready.noScratch.absent hk.ready.wellFormed ?_
    rw [hk.temporary]
    exact hloc

theorem Host.Drafting.artifact {n : Nat} {l : Host} (hl : h.Drafting G n l) :
    (h.temporaryPath.join (Host.scratchName n)).join "out.js" = l.artifact n := by
  unfold Host.artifact
  rw [Host.Matches.temporaryPath hl.beside]

/-- If a scratch directory can be made on the second of two hosts, one can be made on the first. -/
theorem makeScratch_follows {k k' l' : Host} {path' : Path} (hk : h.Matches G k)
    (hk' : h.Matches G k') (hsize : (Host.scratchName k.scratches).utf8ByteSize ≤
      (Host.scratchName k'.scratches).utf8ByteSize)
    (hmake : runFrom makeScratch k' = (.ok path', l')) :
    ∃ path l, runFrom makeScratch k = (.ok path, l) := by
  obtain ⟨hpath, -, hfind, hname, -⟩ := makeScratch_ok hk'.ready hmake
  have hname' : IsName (Host.scratchName k.scratches) :=
    Host.isName_scratchName (Nat.le_trans hsize hname.short)
  have hfits : Tree.Fits (k.temporaryPath.join (Host.scratchName k.scratches)) := by
    have hfits' := (Tree.find_ok hfind).2.2.1
    rw [hpath, Host.Matches.temporaryPath hk'.beside] at hfits'
    rw [Host.Matches.temporaryPath hk.beside]
    exact Nat.le_trans (Path.join_size_mono _ hname'.no_slash hname.no_slash hsize) hfits'
  have hvacant : k.tree.find k.directory false
      (k.temporaryPath.join (Host.scratchName k.scratches)) =
        .ok (.vacant k.temporary (Host.scratchName k.scratches) false) :=
    Tree.find_join_of_opens hname' hk.ready.temporary (hk.ready.noScratch _) hfits
  refine ⟨k.temporaryPath.join (Host.scratchName k.scratches), { k with
    tree := k.tree.put (k.temporary ++ [Host.scratchName k.scratches]) .directory
    scratches := k.scratches + 1 }, ?_⟩
  unfold makeScratch Tree.makeDirectory
  rw [runFrom_ofPair]
  simp only [hvacant]

/-- Names of scratch directories get no shorter, so an action that succeeds on a host succeeds on a
    twin on which fewer have been made. -/
theorem Follows.twin {α : Type} {act : Emit α} (hact : Follows h G act) {k k' k₁' : Host} {s sink : Sink} {a : α}
    (htwin : Twin h G k k') (hrun : runFrom act ⟨k', s⟩ = (.ok a, ⟨k₁', sink⟩)) :
    ∃ k₁, runFrom act ⟨k, s⟩ = (.ok a, ⟨k₁, sink⟩) ∧ Twin h G k₁ k₁' := by
  have hpair : Paired h G k₁'.scratches k k' :=
    ⟨htwin.left, htwin.right, fun n _ =>
      Host.size_scratchName_mono (Nat.add_le_add_right htwin.scratches n)⟩
  obtain ⟨k₁, hdone, hpair', hsame⟩ := hact.runs hpair hrun (Nat.le_refl _)
  have hle := htwin.scratches
  exact ⟨k₁, hdone, hpair'.left, hpair'.right, by omega⟩

/-! ## §8 Artifacts -/

namespace Compiler

variable {c : Compiler} {source : Path} {l l' : Host} {n n' : Nat}

theorem draft_eq : c.draft source n l =
    match l.locate? (c.typescript source (l.artifact n)).program with
    | none => none
    | some path =>
      match l.launch ((c.typescript source (l.artifact n)).withProgram path) with
      | .error _ => none
      | .ok launch => some ((launch.run l.now [] false l.tree).shown,
          ((launch.run l.now [] false l.tree).tree.openFile l.directory (l.artifact n)).map
            Tree.Opened.read) := by
  unfold draft
  cases hlocate : l.locate? (c.typescript source (l.artifact n)).program with
  | none => simp [hlocate]
  | some path =>
    cases hlaunch : l.launch ((c.typescript source (l.artifact n)).withProgram path) with
    | error e => simp [hlocate, hlaunch, Except.toOption]
    | ok launch => simp [hlocate, hlaunch, Except.toOption]

/-- A draft succeeds if its tool is located and its pipeline succeeds; it shows what opening the
    artifact gives after that. -/
theorem draft_iff {found : Except OsError (Except OsError Bytes)} :
    (∃ compile m, located l ⟨[c.typescript source (l.artifact n)]⟩ = .ok compile ∧
      runFrom (runAside compile) l = (.ok (), m) ∧
      (m.tree.openFile l.directory (l.artifact n)).map Tree.Opened.read = found) ↔
    ∃ shown, c.draft source n l = some (shown, found) ∧ shown.2.1.success = true := by
  rw [draft_eq]
  cases hlocate : l.locate? (c.typescript source (l.artifact n)).program with
  | none =>
    constructor
    · rintro ⟨compile, m, hlocated, -⟩
      obtain ⟨path, hpath, -⟩ := located_single_iff.mp hlocated
      cases hlocate.symm.trans hpath
    · rintro ⟨shown, hnone, -⟩
      cases hnone
  | some path =>
    constructor
    · rintro ⟨compile, m, hlocated, hrun, rfl⟩
      obtain ⟨path', hpath', rfl⟩ := located_single_iff.mp hlocated
      obtain rfl := Option.some.inj (hlocate.symm.trans hpath')
      obtain ⟨launch, hlaunch, hsuccess, htree⟩ := Pipeline.runAside_single_iff.mp ⟨m, hrun, rfl⟩
      exact ⟨(launch.run l.now [] false l.tree).shown, by simp only [hlaunch, htree], hsuccess⟩
    · rintro ⟨shown, hsome, hsuccess⟩
      -- a tool that cannot be started leaves no draft
      cases hlaunch : l.launch ((c.typescript source (l.artifact n)).withProgram path) with
      | error e =>
        simp only [hlaunch] at hsome
        cases hsome
      | ok launch =>
        simp only [hlaunch, Option.some.injEq, Prod.mk.injEq] at hsome
        obtain ⟨rfl, rfl⟩ := hsome
        obtain ⟨m, hrun, htree⟩ := Pipeline.runAside_single_iff.mpr ⟨launch, hlaunch, hsuccess, rfl⟩
        exact ⟨_, m, located_single_iff.mpr ⟨path, hlocate, rfl⟩, hrun, by rw [htree]⟩

/-- What an artifact opens as decides what the actions after it read. -/
theorem opened_cases {t t' : Tree} {cwd cwd' : Location} {p p' : Path} {opened : Tree.Opened}
    (hsame : (t.openFile cwd p).map Tree.Opened.read = (t'.openFile cwd' p').map Tree.Opened.read)
    (hopen : t'.openFile cwd' p' = .ok opened) :
    ∃ opened', t.openFile cwd p = .ok opened' ∧ opened'.read = opened.read := by
  rw [hopen] at hsame
  cases hthere : t.openFile cwd p with
  | error e =>
    rw [hthere] at hsame
    cases hsame
  | ok opened' =>
    rw [hthere] at hsame
    exact ⟨opened', rfl, Except.ok.inj hsame⟩

/-- Passing an artifact on needs it to be opened. -/
theorem pass_opens {optimize : Option Pipeline} {artifact : Path} {m m₁ : Host} {s sink : Sink}
    {a : Nat} (hrun : runFrom (match optimize with
      | some p => p.runInto (.file artifact)
      | none => copyFile artifact) ⟨m, s⟩ = (.ok a, ⟨m₁, sink⟩)) :
    ∃ opened, m.tree.openFile m.directory artifact = .ok opened := by
  cases optimize with
  | some p =>
    obtain ⟨data, broken, ls, hdata, -⟩ := Pipeline.runInto_ok_iff.mp ⟨m₁, hrun, rfl⟩
    unfold Pipeline.inputData at hdata
    cases hopen : m.tree.openFile m.directory artifact with
    | error e =>
      simp only [hopen] at hdata
      cases hdata
    | ok opened => exact ⟨opened, rfl⟩
  | none =>
    obtain ⟨data, after, hbytes, -⟩ := copyFile_ok_iff.mp hrun
    obtain ⟨opened, hopen, -⟩ := Tree.bytesAt_ok_iff.mp hbytes
    exact ⟨opened, hopen⟩

/-- A stage is fed alike from artifacts that read alike. -/
theorem inputData_alike {m m' : Host} {artifact artifact' : Path} {opened opened' : Tree.Opened}
    {found : Bytes × Bool} (hopen : m.tree.openFile m.directory artifact = .ok opened)
    (hopen' : m'.tree.openFile m'.directory artifact' = .ok opened')
    (hread : opened.read = opened'.read)
    (hfound : Pipeline.inputData m' (.file artifact') = .ok found) :
    Pipeline.inputData m (.file artifact) = .ok found := by
  unfold Pipeline.inputData at hfound ⊢
  -- a file and a directory read differently
  cases opened with
  | file f =>
    cases opened' with
    | file f' =>
      simp only [hopen, hopen'] at hfound ⊢
      rw [show f.content = f'.content from Except.ok.inj hread]
      exact hfound
    | directory => cases hread
  | directory =>
    cases opened' with
    | file f' => cases hread
    | directory =>
      simp only [hopen, hopen'] at hfound ⊢
      exact hfound

/-- Passing artifacts on that read alike comes to the same on hosts that differ at hidden places
    only. -/
theorem pass_steady {optimize : Option Pipeline} {artifact artifact' : Path} {m m' m₁' : Host}
    {s sink : Sink} {a : Nat} (hready : h.Ready) (hG : HidesScratch h G)
    (hsettled : ∀ p, optimize = some p → ∀ stage ∈ p.stages, stage.Settled h G)
    (hm : h.Beside G m) (hm' : h.Beside G m') (hwf : m.tree.WellFormed) (hwf' : m'.tree.WellFormed)
    (hsame : (m.tree.openFile m.directory artifact).map Tree.Opened.read =
      (m'.tree.openFile m'.directory artifact').map Tree.Opened.read)
    (hrun : runFrom (match optimize with
      | some p => p.runInto (.file artifact')
      | none => copyFile artifact') ⟨m', s⟩ = (.ok a, ⟨m₁', sink⟩)) :
    ∃ m₁, runFrom (match optimize with
      | some p => p.runInto (.file artifact)
      | none => copyFile artifact) ⟨m, s⟩ = (.ok a, ⟨m₁, sink⟩) := by
  obtain ⟨opened', hopen'⟩ := pass_opens hrun
  obtain ⟨opened, hopen, hread⟩ := opened_cases hsame hopen'
  cases optimize with
  | some p =>
    refine Pipeline.runInto_steady hready (fun _ => hG.inScratch) (hsettled p rfl) hm hm' hwf hwf'
      (fun found hfound => ?_) rfl hrun
    exact inputData_alike hopen hopen' hread hfound
  | none =>
    obtain ⟨data, after, hbytes', hcopy, rfl, hafter⟩ := copyFile_ok_iff.mp hrun
    obtain ⟨-, rfl⟩ := Outlet.mk.inj hafter
    obtain ⟨found, hfound, hsource⟩ := Tree.bytesAt_ok_iff.mp hbytes'
    obtain rfl : opened' = found := Except.ok.inj (hopen'.symm.trans hfound)
    have hbytes : m.tree.bytesAt m.directory artifact = .ok data :=
      Tree.bytesAt_ok_iff.mpr ⟨opened, hopen, hread.trans hsource⟩
    exact ⟨m, copyFile_ok_iff.mpr ⟨data, _, hbytes, hcopy, rfl, rfl⟩⟩

/-! ## §9 Sources -/

theorem stream_follows {p : Pipeline} (hready : h.Ready) (hG : HidesScratch h G)
    (hsettled : ∀ stage ∈ p.stages, stage.Settled h G) : Follows h G (p.runInto .null) := by
  refine ⟨fun o hready => (p.runInto_working .null o hready.sound).quiet hready,
    fun {limit k k' s a k₁' sink} hpair hrun hlimit => ?_⟩
  have hinput : ∀ found, Pipeline.inputData k' .null = .ok found →
      Pipeline.inputData k .null = .ok found := fun _ hfound => hfound
  obtain ⟨k₁, hdone⟩ := Pipeline.runInto_steady hready (fun _ => hG.inScratch) hsettled
    hpair.left.beside hpair.right.beside hpair.left.ready.wellFormed hpair.right.ready.wellFormed
    hinput rfl hrun
  have hleft := p.runInto_working .null ⟨k, s⟩ hpair.left.ready.sound
  have hright := p.runInto_working .null ⟨k', s⟩ hpair.right.ready.sound
  rw [hdone] at hleft
  rw [hrun] at hright
  refine ⟨k₁, hdone, ⟨hpair.left.quiet (hleft.quiet hpair.left.ready),
    hpair.right.quiet (hright.quiet hpair.right.ready), ?_⟩, ?_⟩
  · rw [← hleft.scratches, ← hright.scratches]
    exact hpair.shorter
  · rw [← hleft.scratches, ← hright.scratches]

theorem removeScratch_scratches (path : Path) (k : Host) :
    (removeScratch path k).scratches = k.scratches := by
  unfold removeScratch
  split
  · rfl
  · rfl

/-- A steady optimizer is the same on hosts that differ at hidden places only. -/
theorem optimizes_steady {l x : Host} {optimizer : Option Command} {optimize : Option Pipeline}
    (hsteady : ∀ stage, optimizer = some stage → stage.Steady h G)
    (hl : h.Beside G l) (hlwf : l.tree.WellFormed) (hx : h.Beside G x) (hxwf : x.tree.WellFormed)
    (hoptimize : Optimizes x optimizer optimize) : Optimizes l optimizer optimize ∧
      ∀ p, optimize = some p → ∀ st ∈ p.stages, st.Settled h G := by
  cases optimizer with
  | none =>
    obtain rfl : optimize = none := hoptimize
    exact ⟨rfl, fun p hp => by cases hp⟩
  | some stage =>
    obtain ⟨q, hq, rfl⟩ := hoptimize
    have hstages : ∀ st ∈ (⟨[stage]⟩ : Pipeline).stages, st.Steady h G := by
      intro st hst
      rw [List.mem_singleton.mp hst]
      exact hsteady stage rfl
    obtain ⟨hleft, -⟩ := located_steady hstages hl hlwf
    obtain ⟨hright, hsettled⟩ := located_steady hstages hx hxwf
    refine ⟨⟨q, by rw [hleft, ← hright, hq], rfl⟩, fun p hp => ?_⟩
    obtain rfl := Option.some.inj hp
    exact hsettled q (hright.symm.trans hq)

/-- What is left after an artifact has been passed on and its scratch directory removed. -/
theorem drafted {k l m : Host} {path : Path} {compile : Pipeline} {optimize : Option Pipeline}
    {s sink : Sink} {a : Except Failure Nat} (hk : h.Matches G k) (hl : h.Drafting G k.scratches l)
    (hmake : runFrom makeScratch k = (.ok path, l))
    (hrun : runFrom (passArtifact compile (path.join "out.js") optimize) ⟨l, s⟩ =
      (a, ⟨m, sink⟩)) :
    h.Matches G (removeScratch path m) ∧ (removeScratch path m).scratches = k.scratches + 1 := by
  have hquiet := withScratch_quiet (passArtifact_working compile (path.join "out.js") optimize)
    hk.ready hmake s
  have hwork := passArtifact_working compile (path.join "out.js") optimize ⟨l, s⟩ hl.sound
  have hafter : (runFrom (withScratch path (passArtifact compile (path.join "out.js") optimize))
      ⟨l, s⟩).2.host = removeScratch path
        (runFrom (passArtifact compile (path.join "out.js") optimize) ⟨l, s⟩).2.host := rfl
  rw [hafter, hrun] at hquiet
  rw [hrun] at hwork
  refine ⟨hk.quiet hquiet, ?_⟩
  rw [removeScratch_scratches, ← hwork.scratches, hl.scratches]

theorem passArtifact_ok_iff {compile : Pipeline} {artifact : Path} {optimize : Option Pipeline}
    {s : Sink} {a : Nat} {o : Outlet} :
    runFrom (passArtifact compile artifact optimize) ⟨l, s⟩ = (.ok a, o) ↔
      ∃ m, runFrom (runAside compile) l = (.ok (), m) ∧ runFrom (match optimize with
        | some p => p.runInto (.file artifact)
        | none => copyFile artifact) ⟨m, s⟩ = (.ok a, o) := by
  unfold passArtifact
  rw [runFrom_bind_ok]
  constructor
  · rintro ⟨u, o₁, haside, hpass⟩
    obtain ⟨m, hmade, rfl⟩ := runFrom_ofAct_ok.mp haside
    exact ⟨m, hmade, hpass⟩
  · rintro ⟨m, haside, hpass⟩
    exact ⟨(), ⟨m, s⟩, runFrom_ofAct_ok.mpr ⟨m, haside, rfl⟩, hpass⟩

/-- An artifact that can be passed on from one scratch directory can be passed on from another one
    with a shorter name, and comes to the same. -/
theorem passArtifact_steady {l x m' : Host} {n n' a : Nat} {s sink : Sink} {compile' : Pipeline}
    {optimize : Option Pipeline} (hready : h.Ready) (hG : HidesScratch h G)
    (hstage : ∀ stage, c.optimizerStage? .typedSuperset = some stage → stage.Steady h G)
    (hdraft : c.DraftSteady h G source) (hl : h.Drafting G n l) (hx : h.Drafting G n' x)
    (hsize : (Host.scratchName n).utf8ByteSize ≤ (Host.scratchName n').utf8ByteSize)
    (hlocated' : located x ⟨[c.typescript source (x.artifact n')]⟩ = .ok compile')
    (hoptimize : Optimizes x (c.optimizerStage? .typedSuperset) optimize)
    (hrun : runFrom (passArtifact compile' (x.artifact n') optimize) ⟨x, s⟩ =
      (.ok a, ⟨m', sink⟩)) :
    ∃ compile m, located l ⟨[c.typescript source (l.artifact n)]⟩ = .ok compile ∧
      Optimizes l (c.optimizerStage? .typedSuperset) optimize ∧
      runFrom (passArtifact compile (l.artifact n) optimize) ⟨l, s⟩ = (.ok a, ⟨m, sink⟩) := by
  obtain ⟨m₁', hran', hpass'⟩ := passArtifact_ok_iff.mp hrun
  have hwork' := runAside_working compile' x hx.sound
  rw [hran'] at hwork'
  -- the artifact was opened, so its path fits, and so does the one in the other directory
  have hfits' : Tree.Fits (h.artifact n') := by
    obtain ⟨opened', hopen'⟩ := pass_opens hpass'
    obtain ⟨⟨loc, e⟩, hstat⟩ := Tree.stat_of_openFile hopen'
    rw [← hx.artifact] at hstat
    exact Tree.fits_of_stat hstat
  have hsame := hdraft l x n n' hl.beside hx.beside hl.sound.wellFormed hx.sound.wellFormed hl.made
    hx.made (Host.fits_artifact hsize hfits') hfits'
  obtain ⟨shown, hdone', hsuccess⟩ := draft_iff.mp ⟨compile', m₁', hlocated', hran', rfl⟩
  rw [← hsame] at hdone'
  obtain ⟨compile, m₁, hlocated, hran, hopened⟩ := draft_iff.mpr ⟨shown, hdone', hsuccess⟩
  have hwork := runAside_working compile l hl.sound
  rw [hran] at hwork
  obtain ⟨hoptimizes, hsettled⟩ := optimizes_steady hstage hl.beside hl.sound.wellFormed hx.beside
    hx.sound.wellFormed hoptimize
  have hm : h.Beside G m₁ := hl.beside.trans (hwork.beside.mono fun _ => hG.inScratch)
  have hm' : h.Beside G m₁' := hx.beside.trans (hwork'.beside.mono fun _ => hG.inScratch)
  have hopened' : (m₁.tree.openFile m₁.directory (l.artifact n)).map Tree.Opened.read =
      (m₁'.tree.openFile m₁'.directory (x.artifact n')).map Tree.Opened.read := by
    rw [hwork.beside.directory, hwork'.beside.directory]
    exact hopened
  obtain ⟨m, hpass⟩ := pass_steady hready hG hsettled hm hm' hwork.sound.wellFormed
    hwork'.sound.wellFormed hopened' hpass'
  exact ⟨compile, m, hlocated, hoptimizes, passArtifact_ok_iff.mpr ⟨m₁, hran, hpass⟩⟩

/-- Compiling into a scratch directory of another name comes to the same. -/
theorem typescript_steady {k k' k₁' : Host} {s sink : Sink} {a : Nat} {compile' : Pipeline}
    {path' : Path} {optimize : Option Pipeline} (hready : h.Ready) (hG : HidesScratch h G)
    (hstage : ∀ stage, c.optimizerStage? .typedSuperset = some stage → stage.Steady h G)
    (hdraft : c.DraftSteady h G source) {limit : Nat} (hpair : Paired h G limit k k')
    (hlimit : k₁'.scratches ≤ limit) (hmake' : runFrom makeScratch k' = (.ok path', l'))
    (hlocated' : located l' ⟨[c.typescript source (path'.join "out.js")]⟩ = .ok compile')
    (hoptimize : Optimizes l' (c.optimizerStage? .typedSuperset) optimize)
    (hrun : runFrom (withScratch path' (passArtifact compile' (path'.join "out.js") optimize))
      ⟨l', s⟩ = (.ok a, ⟨k₁', sink⟩)) :
    ∃ compile path l k₁,
      runFrom (c.plan .typedSuperset source) k =
        (.ok (.intermediate compile (path.join "out.js") optimize path), l) ∧
      runFrom (withScratch path (passArtifact compile (path.join "out.js") optimize)) ⟨l, s⟩ =
        (.ok a, ⟨k₁, sink⟩) ∧ Paired h G limit k₁ k₁' ∧
      k₁.scratches + k'.scratches = k.scratches + k₁'.scratches := by
  obtain ⟨hpath', hl'⟩ := makeScratch_drafting hG hpair.right hmake'
  -- the second run without the directory that it removes
  rcases hpassed' : runFrom (passArtifact compile' (path'.join "out.js") optimize) ⟨l', s⟩ with
    ⟨result', m', sink'⟩
  have hwith' : runFrom (withScratch path' (passArtifact compile' (path'.join "out.js") optimize))
      ⟨l', s⟩ = (result', ⟨removeScratch path' m', sink'⟩) := by
    rw [runFrom_withScratch, hpassed']
  rw [hwith', Prod.mk.injEq, Outlet.mk.injEq] at hrun
  obtain ⟨rfl, rfl, rfl⟩ := hrun
  obtain ⟨hright, hscratches'⟩ := drafted hpair.right hl' hmake' hpassed'
  have hsize := hpair.shorter 0 (by omega)
  obtain ⟨path, l, hmake⟩ := makeScratch_follows hpair.left hpair.right hsize hmake'
  obtain ⟨hpath, hl⟩ := makeScratch_drafting hG hpair.left hmake
  have hartifact : path.join "out.js" = l.artifact k.scratches := by rw [hpath, hl.artifact]
  have hartifact' : path'.join "out.js" = l'.artifact k'.scratches := by rw [hpath', hl'.artifact]
  rw [hartifact'] at hlocated' hpassed'
  obtain ⟨compile, m, hlocated, hoptimizes, hpassed⟩ := passArtifact_steady hready hG hstage hdraft
    hl hl' hsize hlocated' hoptimize hpassed'
  rw [← hartifact] at hlocated hpassed
  obtain ⟨hleft, hscratches⟩ := drafted hpair.left hl hmake hpassed
  refine ⟨compile, path, l, removeScratch path m, plan_typedSuperset_ok_iff.mpr
    ⟨path, compile, optimize, hmake, hlocated, hoptimizes, rfl⟩, ?_,
    ⟨hleft, hright, fun n hn => ?_⟩, by omega⟩
  · rw [runFrom_withScratch, hpassed]
  · rw [hscratches'] at hn
    rw [hscratches, hscratches', Nat.add_assoc, Nat.add_assoc]
    exact hpair.shorter (1 + n) (by omega)

/-- Streaming a source through steady tools comes to the same on hosts that differ at hidden places
    only. -/
theorem streamSource_follows {kind : Kind} {first : Host → Command} {optimizer : Option Command}
    (hready : h.Ready) (hG : HidesScratch h G)
    (hplan : c.plan kind source = Act.read fun k => streamPlan k (first k) optimizer)
    (hfirst : ∀ k, h.Beside G k → first k = first h) (hsteady : (first h).Steady h G)
    (hstage : ∀ stage, optimizer = some stage → stage.Steady h G)
    (hexpand : Follows h G (expand source)) : Follows h G (c.compileSource kind source) := by
  have hall : ∀ st ∈ (⟨first h :: optimizer.toList⟩ : Pipeline).stages, st.Steady h G := by
    intro st hst
    rcases List.mem_cons.mp hst with rfl | hst
    · exact hsteady
    · exact hstage st (by simpa using hst)
  have hsame : ∀ k, h.Matches G k → streamPlan k (first k) optimizer =
      (located h ⟨first h :: optimizer.toList⟩).map .stream := by
    intro k hk
    unfold streamPlan
    rw [hfirst k hk.beside, (located_steady hall hk.beside hk.ready.wellFormed).1]
  refine .ofAct_bind (c.compileSource_quiet kind source) fun {k k' l' plan} hk hk' hfound => ?_
  rw [hplan] at hfound ⊢
  obtain ⟨hstream, rfl⟩ := runFrom_read_ok.mp hfound
  rw [hsame _ hk'] at hstream
  refine ⟨rfl, runFrom_read_ok.mpr ⟨(hsame k hk).trans hstream, rfl⟩, ?_⟩
  cases hlocated : located h ⟨first h :: optimizer.toList⟩ with
  | error e =>
    rw [hlocated] at hstream
    cases hstream
  | ok p =>
    rw [hlocated] at hstream
    obtain rfl := Except.ok.inj hstream
    have hsettled := (located_steady hall (.refl h) hready.wellFormed).2 p hlocated
    exact .bind (stream_follows hready hG hsettled) fun _ => .bind hexpand fun _ => .pure _

theorem component_of_beside {k : Host} (hk : h.Beside G k) (c : Compiler) (source : Path) :
    c.component k source = c.component h source := by
  unfold component Host.absolute? Host.workingPath
  rw [hk.directory]

/-- Compiling a typed source comes to the same on hosts that differ at hidden places only. -/
theorem typedSource_follows (hready : h.Ready) (hG : HidesScratch h G)
    (hstage : ∀ stage, c.optimizerStage? .typedSuperset = some stage → stage.Steady h G)
    (hdraft : c.DraftSteady h G source) (hexpand : Follows h G (expand source)) :
    Follows h G (c.compileSource .typedSuperset source) := by
  refine ⟨c.compileSource_quiet .typedSuperset source,
    fun {limit k k' s a k₁' sink} hpair hrun hlimit => ?_⟩
  unfold compileSource at hrun ⊢
  obtain ⟨plan', o', hplan', hrun⟩ := runFrom_bind_ok.mp hrun
  obtain ⟨l', hplanned', rfl⟩ := runFrom_ofAct_ok.mp hplan'
  obtain ⟨path', compile', optimize, hmake', hlocated', hoptimize, rfl⟩ :=
    plan_typedSuperset_ok_iff.mp hplanned'
  obtain ⟨n, ⟨k₂', s₂⟩, hwith', hrest'⟩ := runFrom_bind_ok.mp hrun
  have hafter : Follows h G (expand source >>= fun more => (Pure.pure (n + more) : Emit Nat)) :=
    .bind hexpand fun _ => .pure _
  have hraised : k₂'.scratches ≤ k₁'.scratches := by
    have hquiet := withScratch_quiet (passArtifact_working compile' (path'.join "out.js") optimize)
      hpair.right.ready hmake' s
    rw [hwith'] at hquiet
    have hquiet' := hafter.quiet ⟨k₂', s₂⟩ hquiet.ready
    rw [hrest'] at hquiet'
    exact hquiet'.scratches
  obtain ⟨compile, path, l, k₂, hplanned, hwith, hpair, hsame⟩ := typescript_steady hready hG hstage
    hdraft hpair (Nat.le_trans hraised hlimit) hmake' hlocated' hoptimize hwith'
  obtain ⟨k₁, hdone, hpair, hsame'⟩ := hafter.runs hpair hrest' hlimit
  exact ⟨k₁, runFrom_bind_ok.mpr ⟨.intermediate compile (path.join "out.js") optimize path, ⟨l, s⟩,
    runFrom_ofAct_ok.mpr ⟨l, hplanned, rfl⟩,
    runFrom_bind_ok.mpr ⟨n, ⟨k₂, s₂⟩, hwith, hdone⟩⟩, hpair, by omega⟩

/-- Compiling a source that is no bundle comes to the same on hosts that differ at hidden places
    only. -/
theorem compileSource_follows {kind : Kind} (hready : h.Ready) (hG : HidesScratch h G)
    (hsteady : c.SourceSteady h G kind source) : Follows h G (c.compileSource kind source) := by
  have hexpand := expand_follows hsteady.reads hsteady.includes
  obtain ⟨hstage, htool⟩ := hsteady.tools
  cases kind with
  | component =>
    exact streamSource_follows hready hG (plan_component c source)
      (fun k hk => component_of_beside hk c source) htool hstage hexpand
  | stylesheet =>
    exact streamSource_follows hready hG (plan_stylesheet c source) (fun _ _ => rfl) htool hstage
      hexpand
  | preprocessedScript =>
    exact streamSource_follows hready hG (plan_preprocessedScript c source) (fun _ _ => rfl) htool
      hstage hexpand
  | typedSuperset => exact typedSource_follows hready hG hstage htool hexpand
  | passthrough =>
    have hcopy : c.compileSource .passthrough source = copyFile source := rfl
    rw [hcopy]
    exact copyFile_follows hsteady.reads
  | bundle =>
    have hnothing : c.compileSource .bundle source = Pure.pure 0 := rfl
    rw [hnothing]
    exact .pure 0
  | unknown =>
    have hrefused : c.compileSource .unknown source =
        MonadExcept.throw (.unsupportedKind Kind.unknown.label source) := rfl
    rw [hrefused]
    exact .throw _

/-! ## §10 Bundles -/

theorem compileUnits_follows {manifest dir : Path} {m : Manifest} {units : List BundleUnit}
    (hready : h.Ready) (hG : HidesScratch h G)
    (hsteady : ∀ u ∈ units, (c.ofUnit m dir u).SourceSteady h G (Kind.ofPath (dir.join u.file))
      (dir.join u.file)) (index : Nat) :
    Follows h G (c.compileUnits manifest dir m index units) := by
  induction units generalizing index with
  | nil => exact .pure 0
  | cons u rest ih =>
    unfold compileUnits
    simp only
    split
    · exact .throw _
    · exact .bind (compileSource_follows hready hG (hsteady u (by simp))) fun _ =>
        .bind (ih (fun v hv => hsteady v (List.mem_cons_of_mem _ hv)) (index + 1)) fun _ => .pure _

theorem compileBundle_follows (hready : h.Ready) (hG : HidesScratch h G) (hreads : h.Reads G source)
    (hunits : ∀ data m, h.tree.bytesAt h.directory source = .ok data → Manifest.read data = .ok m →
      ∀ u ∈ m.units, (c.ofUnit m (source.parent.getD ⟨""⟩) u).SourceSteady h G
        (Kind.ofPath ((source.parent.getD ⟨""⟩).join u.file))
        ((source.parent.getD ⟨""⟩).join u.file)) :
    Follows h G (c.compileBundle source) := by
  have hquiet := c.compile_quiet .bundle source
  unfold compile at hquiet
  rw [if_pos rfl] at hquiet
  refine .ofAct_bind hquiet fun hk hk' hfound => ?_
  obtain ⟨⟨data, hbytes, hparsed⟩, rfl⟩ := loadManifest_ok_iff.mp hfound
  have hsame := (hreads.bytesAt_same hk hk').trans hbytes
  refine ⟨rfl, loadManifest_ok_iff.mpr ⟨⟨data, hsame, hparsed⟩, rfl⟩, ?_⟩
  rw [hreads.bytesAt hk'] at hbytes
  exact compileUnits_follows hready hG (hunits data _ hbytes hparsed) 0

/-- Steady compilation: what compiles on one of two hosts that differ at hidden places only compiles
    on the other, to the same bytes. -/
theorem compile_follows {kind : Kind} (hready : h.Ready) (hG : HidesScratch h G)
    (hsteady : c.Steady h G kind source) : Follows h G (c.compile kind source) := by
  unfold Steady at hsteady
  unfold compile
  split at hsteady
  · rename_i hbundle
    rw [if_pos hbundle]
    exact compileBundle_follows hready hG hsteady.1 hsteady.2
  · rename_i hbundle
    rw [if_neg hbundle]
    exact compileSource_follows hready hG hsteady

end Compiler

/-! ## §11 Steadiness on another host -/

variable {k : Host} {c : Compiler} {source : Path}

/-- What does not depend on hidden places does not do so on a host that differs there. -/
theorem Host.Fixes.beside {α : Type} {f : Host → α} (hf : h.Fixes G f) (hk : h.Beside G k)
    (hwf : k.tree.WellFormed) : k.Fixes G f :=
  fun l hl hl' => (hf l (hk.trans hl) hl').trans (hf k hk hwf).symm

theorem Command.Settled.beside {cmd : Command} (hc : cmd.Settled h G) (hk : h.Beside G k)
    (hwf : k.tree.WellFormed) : cmd.Settled k G := by
  refine ⟨hc.launched.beside hk hwf, fun l hl input broken => ?_⟩
  rw [show k.launch cmd = h.launch cmd from hc.launched k hk hwf] at hl
  rw [hk.now]
  exact (hc.shown l hl input broken).beside hk hwf

theorem Command.Steady.beside {cmd : Command} (hc : cmd.Steady h G) (hk : h.Beside G k)
    (hwf : k.tree.WellFormed) : cmd.Steady k G := by
  refine ⟨hc.located.beside hk hwf, fun path hpath => ?_⟩
  rw [show k.locate? cmd.program = h.locate? cmd.program from hc.located k hk hwf] at hpath
  exact (hc.settled path hpath).beside hk hwf

namespace Compiler

theorem DraftSteady.matches (hd : c.DraftSteady h G source) (hk : h.Matches G k) :
    c.DraftSteady k G source := by
  intro l l' n n' hl hl'
  unfold Host.artifact
  rw [Host.Matches.temporaryPath hk.beside, hk.temporary]
  exact hd l l' n n' (hk.beside.trans hl) (hk.beside.trans hl')

theorem SourceSteady.matches {kind : Kind} (hs : c.SourceSteady h G kind source)
    (hk : h.Matches G k) : c.SourceSteady k G kind source := by
  have hwf := hk.ready.wellFormed
  have hreads : ∀ {p : Path}, h.Reads G p → k.Reads G p :=
    fun hp => Host.Fixes.beside hp hk.beside hwf
  refine ⟨⟨fun stage hstage => (hs.tools.1 stage hstage).beside hk.beside hwf, ?_⟩,
    hreads hs.reads, fun data directives hdata hscan name hname => ?_⟩
  · have htools := hs.tools.2
    cases kind with
    | component =>
      show (c.component k source).Steady k G
      rw [component_of_beside hk.beside]
      exact Command.Steady.beside htools hk.beside hwf
    | stylesheet => exact Command.Steady.beside htools hk.beside hwf
    | preprocessedScript => exact Command.Steady.beside htools hk.beside hwf
    | typedSuperset => exact DraftSteady.matches htools hk
    | bundle => trivial
    | passthrough => trivial
    | unknown => trivial
  · rw [hs.reads.bytesAt hk] at hdata
    exact hreads (hs.includes data directives hdata hscan name hname)

/-- A compilation that is steady at a host is so at each host that differs at hidden places only. -/
theorem Steady.matches {kind : Kind} (hs : c.Steady h G kind source) (hk : h.Matches G k) :
    c.Steady k G kind source := by
  unfold Steady at hs ⊢
  split at hs
  · rename_i hbundle
    rw [if_pos hbundle]
    refine ⟨Host.Fixes.beside hs.1 hk.beside hk.ready.wellFormed, fun data m hdata hm u hu => ?_⟩
    rw [hs.1.bytesAt hk] at hdata
    exact (hs.2 data m hdata hm u hu).matches hk
  · rename_i hbundle
    rw [if_neg hbundle]
    exact hs.matches hk

end Compiler

end AssetServer
