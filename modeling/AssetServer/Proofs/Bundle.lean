import AssetServer.Proofs.Mirror
import AssetServer.Proofs.Writing

/-!
# Bundles

A bundle is the concatenation of its units, each compiled alone under settings of its own.

- `Compiler.Chain`: units that compile alone, one after another.
- `Compiler.compileUnits_ok_iff`, `Compiler.compileUnits_error_iff`: a bundle succeeds exactly if
  such a chain exists, and fails exactly at the first unit that breaks it.
- `Compiler.chain_iff_alone`: with tools that are functions of what they are given, each unit comes
  to what it comes to on the files that the bundle starts with.
- `Compiler.bundle_concatenates`: all of this for a manifest.
-/

namespace AssetServer

/-! ## §1 Units -/

namespace Compiler

/-- The kinds of source that a bundle takes as units. -/
def unitKinds : List Kind :=
  [.component, .typedSuperset, .stylesheet, .preprocessedScript]

/-- The directory that the paths of a manifest start from. -/
def unitsDirectory (manifest : Path) : Path :=
  manifest.parent.getD ⟨""⟩

/-- The settings of a unit: the lower of two levels, and its lists behind those of the manifest and
    of the base settings. -/
structure UnitSettings (base : Settings) (m : Manifest) (dir : Path) (u : BundleUnit)
    (s : Settings) : Prop where
  level : s.level.rank = min u.level.rank base.level.rank
  externs : s.externs = base.externs ++ m.externs.map dir.join ++ u.externs.map dir.join
  component : s.componentIncludes =
    base.componentIncludes ++ m.includes.map dir.join ++ u.includes.map dir.join
  preprocessor : s.preprocessorIncludes =
    base.preprocessorIncludes ++ m.includes.map dir.join ++ u.includes.map dir.join
  stylesheet : s.stylesheetIncludes =
    base.stylesheetIncludes ++ m.includes.map dir.join ++ u.includes.map dir.join
  flags : s.preprocessorFlags = base.preprocessorFlags

/-- A unit compiles alone on a host, to some bytes. -/
structure UnitCompiles (c : Compiler) (m : Manifest) (dir : Path) (u : BundleUnit) (h : Host)
    (b : Bytes) (k : Host) : Prop where
  kind : Kind.ofPath (dir.join u.file) ∈ unitKinds
  run : ((c.ofUnit m dir u).compile (Kind.ofPath (dir.join u.file)) (dir.join u.file)).collect h =
    (.ok b.length, b, k)

/-- A unit cannot be compiled alone: for its kind, before anything runs, or in its own run. -/
inductive UnitFails (c : Compiler) (manifest : Path) (m : Manifest) (dir : Path) (index : Nat)
    (u : BundleUnit) (h : Host) : Failure → Bytes → Host → Prop where
  | nested (hkind : Kind.ofPath (dir.join u.file) = .bundle) :
      UnitFails c manifest m dir index u h (.manifest manifest (.nested index u.file)) [] h
  | unsupported {kind : Kind} (hkind : Kind.ofPath (dir.join u.file) = kind)
      (hcopied : kind = .passthrough ∨ kind = .unknown) :
      UnitFails c manifest m dir index u h (.unsupportedKind kind.label (dir.join u.file)) [] h
  | run {e : Failure} {b : Bytes} {k : Host} (hkind : Kind.ofPath (dir.join u.file) ∈ unitKinds)
      (hrun : ((c.ofUnit m dir u).compile (Kind.ofPath (dir.join u.file))
        (dir.join u.file)).collect h = (.error e, b, k)) :
      UnitFails c manifest m dir index u h e b k

/-- Units that compile alone, each on the host that the one before it leaves. -/
inductive Chain (c : Compiler) (m : Manifest) (dir : Path) :
    List BundleUnit → Host → List Bytes → Host → Prop where
  | nil (h : Host) : Chain c m dir [] h [] h
  | cons {u : BundleUnit} {rest : List BundleUnit} {h k l : Host} {b : Bytes} {bs : List Bytes}
      (hunit : c.UnitCompiles m dir u h b k) (hrest : Chain c m dir rest k bs l) :
      Chain c m dir (u :: rest) h (b :: bs) l

variable {c : Compiler} {manifest dir : Path} {m : Manifest} {u : BundleUnit} {h k : Host}
  {index : Nat} {units rest : List BundleUnit} {b : Bytes} {bs : List Bytes}

theorem rank_cappedBy (a b : Level) : (a.cappedBy b).rank = min a.rank b.rank := by
  cases a <;> cases b <;> rfl

theorem ofUnit_settings (c : Compiler) (m : Manifest) (dir : Path) (u : BundleUnit) :
    UnitSettings c.settings m dir u (c.ofUnit m dir u).settings where
  level := rank_cappedBy _ _
  externs := by simp [ofUnit, Manifest.unitSettings]
  component := by simp [ofUnit, Manifest.unitSettings]
  preprocessor := by simp [ofUnit, Manifest.unitSettings]
  stylesheet := by simp [ofUnit, Manifest.unitSettings]
  flags := rfl

/-! ## §2 Successful units -/

theorem unitFailure?_of_mem (hkind : Kind.ofPath (dir.join u.file) ∈ unitKinds) :
    unitFailure? manifest (dir.join u.file) index u = none := by
  unfold unitFailure?
  cases hk : Kind.ofPath (dir.join u.file) with
  | component | typedSuperset | stylesheet | preprocessedScript => rfl
  | bundle | passthrough | unknown =>
    rw [hk] at hkind
    simp [unitKinds] at hkind

theorem compile_of_mem {kind : Kind} (hkind : kind ∈ unitKinds) (source : Path) :
    c.compile kind source = c.compileSource kind source := by
  unfold compile
  rw [if_neg]
  rintro rfl
  simp [unitKinds] at hkind

/-- A unit of a kind that is taken compiles, and the others follow. -/
theorem compileUnits_cons (hkind : Kind.ofPath (dir.join u.file) ∈ unitKinds) :
    c.compileUnits manifest dir m index (u :: rest) =
      (c.ofUnit m dir u).compile (Kind.ofPath (dir.join u.file)) (dir.join u.file) >>= fun n =>
        c.compileUnits manifest dir m (index + 1) rest >>= fun more =>
          (pure (n + more) : Emit Nat) := by
  have hnone : unitFailure? manifest (dir.join u.file) index u = none := unitFailure?_of_mem hkind
  conv_lhs => unfold compileUnits
  simp only
  split
  · rename_i failure hsome
    rw [hnone] at hsome
    cases hsome
  · rw [compile_of_mem hkind]
    rfl

/-- A unit of another kind ends the bundle. -/
theorem compileUnits_refused (hkind : Kind.ofPath (dir.join u.file) ∉ unitKinds) :
    ∃ e, unitFailure? manifest (dir.join u.file) index u = some e ∧
      c.compileUnits manifest dir m index (u :: rest) = (throw e : Emit Nat) ∧
      c.UnitFails manifest m dir index u h e [] h := by
  obtain ⟨e, hfailure, hfails⟩ : ∃ e, unitFailure? manifest (dir.join u.file) index u = some e ∧
      c.UnitFails manifest m dir index u h e [] h := by
    unfold unitFailure?
    cases hk : Kind.ofPath (dir.join u.file) with
    | component | typedSuperset | stylesheet | preprocessedScript => simp [hk, unitKinds] at hkind
    | bundle => exact ⟨_, rfl, .nested hk⟩
    | passthrough => exact ⟨_, rfl, .unsupported hk (.inl rfl)⟩
    | unknown => exact ⟨_, rfl, .unsupported hk (.inr rfl)⟩
  refine ⟨e, hfailure, ?_, hfails⟩
  unfold compileUnits
  simp only [hfailure]

/-- A run over units succeeds exactly if they compile alone, one after another, and writes what they
    write, in order. -/
theorem compileUnits_ok_iff {n : Nat} :
    (c.compileUnits manifest dir m index units).collect h = (.ok n, b, k) ↔
      ∃ bs, c.Chain m dir units h bs k ∧ b = bs.flatten ∧ n = b.length := by
  induction units generalizing index h n b with
  | nil =>
    constructor
    · intro hrun
      cases hrun
      exact ⟨[], .nil h, rfl, rfl⟩
    · rintro ⟨bs, hchain, rfl, rfl⟩
      cases hchain
      rfl
  | cons u rest ih =>
    -- both directions take the loop apart at its first unit, whose bytes stay in front
    constructor
    · intro hrun
      by_cases hkind : Kind.ofPath (dir.join u.file) ∈ unitKinds
      · rw [compileUnits_cons hkind, Emit.collect_add_ok (compile_appends _ _ _)
          (compileUnits_appends c manifest dir m rest _)] at hrun
        obtain ⟨n₁, b₁, k₁, n₂, b₂, hunit, hmore, rfl, rfl⟩ := hrun
        obtain ⟨bs, hchain, rfl, rfl⟩ := ih.mp hmore
        obtain rfl := compile_counts _ _ _ _ _ _ _ hunit
        exact ⟨b₁ :: bs, .cons ⟨hkind, hunit⟩ hchain, List.flatten_cons.symm,
          List.length_append.symm⟩
      · obtain ⟨e, -, hthrow, -⟩ := compileUnits_refused (h := h) hkind
        rw [hthrow] at hrun
        cases hrun
    · rintro ⟨bs, hchain, rfl, rfl⟩
      cases hchain with
      | @cons _ _ _ k₁ _ b₁ bs hunit hchain =>
        rw [compileUnits_cons hunit.kind, Emit.collect_add_ok (compile_appends _ _ _)
          (compileUnits_appends c manifest dir m rest _)]
        refine ⟨b₁.length, b₁, k₁, bs.flatten.length, bs.flatten, hunit.run,
          ih.mpr ⟨bs, hchain, rfl, rfl⟩, ?_, List.flatten_cons⟩
        rw [List.flatten_cons, List.length_append]

/-! ## §3 The first unit that fails -/

/-- A unit of a kind that is not taken fails for that alone, and nothing runs. -/
theorem UnitFails.refused {e : Failure} (hfails : c.UnitFails manifest m dir index u h e b k)
    (hkind : Kind.ofPath (dir.join u.file) ∉ unitKinds) :
    unitFailure? manifest (dir.join u.file) index u = some e ∧ b = [] ∧ k = h := by
  cases hfails with
  | nested hbundle =>
    unfold unitFailure?
    rw [hbundle]
    exact ⟨rfl, rfl, rfl⟩
  | unsupported hcopied hcases =>
    unfold unitFailure?
    rw [hcopied]
    rcases hcases with rfl | rfl
    · exact ⟨rfl, rfl, rfl⟩
    · exact ⟨rfl, rfl, rfl⟩
  | run hmem hrun => exact absurd hmem hkind

/-- A unit of a kind that is taken fails in its own run. -/
theorem UnitFails.of_mem {e : Failure} (hfails : c.UnitFails manifest m dir index u h e b k)
    (hkind : Kind.ofPath (dir.join u.file) ∈ unitKinds) :
    ((c.ofUnit m dir u).compile (Kind.ofPath (dir.join u.file)) (dir.join u.file)).collect h =
      (.error e, b, k) := by
  cases hfails with
  | nested hbundle =>
    rw [hbundle] at hkind
    simp [unitKinds] at hkind
  | unsupported hcopied hcases =>
    rw [hcopied] at hkind
    rcases hcases with rfl | rfl
    · simp [unitKinds] at hkind
    · simp [unitKinds] at hkind
  | run hmem hrun => exact hrun

/-- A run over units fails at the first of them, or at the others once that one has compiled. -/
theorem compileUnits_cons_error_iff {e : Failure} :
    (c.compileUnits manifest dir m index (u :: rest)).collect h = (.error e, b, k) ↔
      c.UnitFails manifest m dir index u h e b k ∨
        ∃ b₁ k₁ b₂, c.UnitCompiles m dir u h b₁ k₁ ∧
          (c.compileUnits manifest dir m (index + 1) rest).collect k₁ = (.error e, b₂, k) ∧
          b = b₁ ++ b₂ := by
  by_cases hkind : Kind.ofPath (dir.join u.file) ∈ unitKinds
  · rw [compileUnits_cons hkind, Emit.collect_add_error (compile_appends _ _ _)
      (compileUnits_appends c manifest dir m rest _)]
    constructor
    · rintro (hunit | ⟨n₁, b₁, k₁, b₂, hunit, hfail, rfl⟩)
      · exact .inl (.run hkind hunit)
      · obtain rfl := compile_counts _ _ _ _ _ _ _ hunit
        exact .inr ⟨b₁, k₁, b₂, ⟨hkind, hunit⟩, hfail, rfl⟩
    · rintro (hfails | ⟨b₁, k₁, b₂, hunit, hfail, rfl⟩)
      · exact .inl (hfails.of_mem hkind)
      · exact .inr ⟨b₁.length, b₁, k₁, b₂, hunit.run, hfail, rfl⟩
  -- nothing of this unit runs, so it is the one that fails
  · obtain ⟨e', hfailure, hthrow, hrefused⟩ :
        ∃ e, unitFailure? manifest (dir.join u.file) index u = some e ∧
          c.compileUnits manifest dir m index (u :: rest) = (throw e : Emit Nat) ∧
          c.UnitFails manifest m dir index u h e [] h := compileUnits_refused hkind
    rw [hthrow, Emit.collect_throw]
    constructor
    · intro heq
      rw [Prod.mk.injEq, Prod.mk.injEq, Except.error.injEq] at heq
      obtain ⟨rfl, rfl, rfl⟩ := heq
      exact .inl hrefused
    · rintro (hfails | ⟨b₁, k₁, b₂, hunit, -, -⟩)
      · obtain ⟨hsome, rfl, rfl⟩ := hfails.refused hkind
        rw [hfailure, Option.some.injEq] at hsome
        rw [hsome]
      · exact absurd hunit.kind hkind

/-- A run over units fails exactly if one of them fails after those before it have compiled alone. It
    has written what these write, and what the failing one wrote itself. -/
theorem compileUnits_error_iff {e : Failure} :
    (c.compileUnits manifest dir m index units).collect h = (.error e, b, k) ↔
      ∃ front u rest bs k₁ b₁, units = front ++ u :: rest ∧ c.Chain m dir front h bs k₁ ∧
        c.UnitFails manifest m dir (index + front.length) u k₁ e b₁ k ∧ b = bs.flatten ++ b₁ := by
  induction units generalizing index h b with
  | nil =>
    constructor
    · intro hrun
      cases hrun
    · rintro ⟨front, u, rest, bs, k₁, b₁, hunits, -⟩
      simp at hunits
  | cons u rest ih =>
    rw [compileUnits_cons_error_iff]
    constructor
    -- either this unit fails, or it is one more of those before the unit that does
    · rintro (hfails | ⟨b₁, k₁, b₂, hunit, hfail, rfl⟩)
      · exact ⟨[], u, rest, [], h, b, rfl, .nil h, hfails, rfl⟩
      · obtain ⟨front, v, later, bs, k₂, b₃, rfl, hchain, hfails, rfl⟩ := ih.mp hfail
        refine ⟨u :: front, v, later, b₁ :: bs, k₂, b₃, rfl, .cons hunit hchain, ?_, ?_⟩
        · rw [List.length_cons, Nat.add_comm front.length, ← Nat.add_assoc]
          exact hfails
        · rw [List.flatten_cons, List.append_assoc]
    · rintro ⟨front, v, later, bs, k₁, b₁, hunits, hchain, hfails, rfl⟩
      cases hchain with
      | nil =>
        rw [List.nil_append, List.cons.injEq] at hunits
        obtain ⟨rfl, rfl⟩ := hunits
        exact .inl hfails
      | @cons w front _ k₂ _ b₂ bs hunit hchain =>
        rw [List.cons_append, List.cons.injEq] at hunits
        obtain ⟨rfl, rfl⟩ := hunits
        rw [List.length_cons, Nat.add_comm front.length, ← Nat.add_assoc] at hfails
        refine .inr ⟨b₂, k₂, bs.flatten ++ b₁, hunit,
          ih.mpr ⟨front, v, later, bs, k₁, b₁, rfl, hchain, hfails, rfl⟩, ?_⟩
        rw [List.flatten_cons, List.append_assoc]

/-! ## §4 The parts of an output -/

/-- Whether a plan starts processes. -/
def Runs : Plan → Prop
  | .stream _ | .intermediate .. => True
  | .passthrough _ | .bundle _ => False

theorem streamPlan_runs {plan : Plan} {first : Command} {optimizer : Option Command}
    (hplan : streamPlan h first optimizer = .ok plan) : Runs plan := by
  unfold streamPlan at hplan
  cases hlocated : located h ⟨first :: optimizer.toList⟩ with
  | error e =>
    rw [hlocated] at hplan
    cases hplan
  | ok p =>
    rw [hlocated] at hplan
    cases hplan
    trivial

/-- The plans of units start processes. -/
theorem plan_runs {kind : Kind} {source : Path} {plan : Plan} (hkind : kind ∈ unitKinds)
    (hplan : runFrom (c.plan kind source) h = (.ok plan, k)) : Runs plan := by
  cases kind with
  | component =>
    rw [plan_component, runFrom_read, Prod.mk.injEq] at hplan
    exact streamPlan_runs hplan.1
  | stylesheet =>
    rw [plan_stylesheet, runFrom_read, Prod.mk.injEq] at hplan
    exact streamPlan_runs hplan.1
  | preprocessedScript =>
    rw [plan_preprocessedScript, runFrom_read, Prod.mk.injEq] at hplan
    exact streamPlan_runs hplan.1
  | typedSuperset =>
    obtain ⟨scratch, compile, optimize, -, -, -, rfl⟩ := plan_typedSuperset_ok_iff.mp hplan
    trivial
  | bundle | passthrough | unknown => simp [unitKinds] at hkind

theorem finishPlan_of_runs {plan : Plan} {source : Path} (hruns : Runs plan) :
    finishPlan source plan = runPlan plan >>= fun n =>
      expand source >>= fun more => (pure (n + more) : Emit Nat) := by
  cases plan with
  | stream pipeline => rfl
  | intermediate compile artifact optimize scratch => rfl
  | passthrough path => exact hruns.elim
  | bundle path => exact hruns.elim

/-- What a unit compiles to is the output of its pipelines and then the files that its directives
    name. -/
theorem UnitCompiles.parts (hunit : c.UnitCompiles m dir u h b k) :
    ∃ plan h₁ out j extra,
      runFrom ((c.ofUnit m dir u).plan (Kind.ofPath (dir.join u.file)) (dir.join u.file)) h =
        (.ok plan, h₁) ∧
      (runPlan plan).collect h₁ = (.ok out.length, out, j) ∧
      (expand (dir.join u.file)).collect j = (.ok extra.length, extra, k) ∧ b = out ++ extra := by
  obtain ⟨hkind, hrun⟩ := hunit
  rw [compile_of_mem hkind, compileSource_eq] at hrun
  obtain ⟨plan, b₁, h₁, b₂, hplan, hfinish, rfl⟩ :=
    (Emit.collect_bind_ok (.ofAct _) (finishPlan_appends _)).mp hrun
  rw [Emit.collect_ofAct, Prod.mk.injEq, Prod.mk.injEq] at hplan
  obtain ⟨hplan, rfl, hafter⟩ := hplan
  have hplanned := Prod.ext (y := (.ok plan, h₁)) hplan hafter
  -- a unit has a pipeline to run, and what follows it are the files that its directives name
  rw [finishPlan_of_runs (plan_runs hkind hplanned)] at hfinish
  obtain ⟨n, out, j, more, extra, hout, hextra, -, rfl⟩ :=
    (Emit.collect_add_ok (runPlan_appends plan) (expand_appends _)).mp hfinish
  obtain rfl := runPlan_counts plan _ _ _ _ hout
  obtain rfl := expand_counts _ _ _ _ _ hextra
  exact ⟨plan, h₁, out, j, extra, hplanned, hout, hextra, rfl⟩

end Compiler

/-! ## §5 Units on the files that a bundle starts with -/

/-- The host with another number for the next scratch directory. -/
def Host.numbered (h : Host) (n : Nat) : Host :=
  { h with scratches := n }

theorem Host.Ready.matches {h : Host} {G : Location → Prop} (hready : h.Ready) (n : Nat) :
    h.Matches G (h.numbered n) where
  ready := ⟨hready.wellFormed, hready.directory, hready.temporary, hready.confined,
    hready.noScratch⟩
  beside := ⟨rfl, rfl, rfl, rfl, rfl, fun _ _ => rfl⟩
  temporary := rfl

/-- What an action that does not depend on hidden places writes to an empty sink does not either. -/
theorem Follows.collect {α : Type} {h k k' l' : Host} {G : Location → Prop} {act : Emit α} {a : α}
    {b : Bytes} (hact : Follows h G act) (htwin : Twin h G k k')
    (hrun : act.collect k' = (.ok a, b, l')) :
    ∃ l, act.collect k = (.ok a, b, l) ∧ Twin h G l l' := by
  rw [Emit.collect_eq, Prod.mk.injEq, Prod.mk.injEq] at hrun
  obtain ⟨hresult, rfl, rfl⟩ := hrun
  obtain ⟨l, hleft, htwin⟩ := hact.twin htwin (Prod.ext hresult rfl)
  exact ⟨l, by rw [Emit.collect_eq, hleft], htwin⟩

namespace Compiler

/-- A unit whose compilation depends on none of the places `G`. -/
def UnitSteady (c : Compiler) (h : Host) (G : Location → Prop) (m : Manifest) (dir : Path)
    (u : BundleUnit) : Prop :=
  (c.ofUnit m dir u).SourceSteady h G (Kind.ofPath (dir.join u.file)) (dir.join u.file)

/-- Units that compile alone on the files of one host. What one unit does to the host does not
    reach the next one, but for the number of its scratch directory. -/
inductive ChainAlone (c : Compiler) (m : Manifest) (dir : Path) (h : Host) :
    Nat → List BundleUnit → List Bytes → Prop where
  | nil (n : Nat) : ChainAlone c m dir h n [] []
  | cons {u : BundleUnit} {rest : List BundleUnit} {n : Nat} {k : Host} {b : Bytes}
      {bs : List Bytes} (hunit : c.UnitCompiles m dir u (h.numbered n) b k)
      (hrest : ChainAlone c m dir h k.scratches rest bs) :
      ChainAlone c m dir h n (u :: rest) (b :: bs)

section Steady

variable {c : Compiler} {manifest dir : Path} {m : Manifest} {u : BundleUnit} {h k k' l l' : Host}
  {G : Location → Prop} {units rest : List BundleUnit} {b b' : Bytes} {bs bs' : List Bytes}

theorem UnitCompiles.unique (hunit : c.UnitCompiles m dir u h b k)
    (hunit' : c.UnitCompiles m dir u h b' k') : b = b' ∧ k = k' := by
  have hrun := hunit.run
  rw [hunit'.run, Prod.mk.injEq, Prod.mk.injEq] at hrun
  exact ⟨hrun.2.1.symm, hrun.2.2.symm⟩

theorem UnitCompiles.quiet (hunit : c.UnitCompiles m dir u h b k) (hready : h.Ready) : h.Quiet k := by
  have hquiet := (c.ofUnit m dir u).compile_quiet (Kind.ofPath (dir.join u.file))
    (dir.join u.file) ⟨h, .unlimited⟩ hready
  have hrun := hunit.run
  rw [Emit.collect_eq, Prod.mk.injEq, Prod.mk.injEq] at hrun
  obtain ⟨-, -, rfl⟩ := hrun
  exact hquiet

/-- A unit that compiles on one of two hosts that differ at hidden places only compiles on the
    other, to the same bytes. -/
theorem UnitCompiles.follows (hready : h.Ready) (hG : HidesScratch h G)
    (hsteady : c.UnitSteady h G m dir u) (htwin : Twin h G k k')
    (hunit : c.UnitCompiles m dir u k' b l') :
    ∃ l, c.UnitCompiles m dir u k b l ∧ Twin h G l l' := by
  obtain ⟨hkind, hrun⟩ := hunit
  rw [compile_of_mem hkind] at hrun
  obtain ⟨l, hleft, htwin⟩ := (compileSource_follows hready hG hsteady).collect htwin hrun
  rw [← compile_of_mem hkind] at hleft
  exact ⟨l, ⟨hkind, hleft⟩, htwin⟩

/-- With scratch directories of the same number, hosts that differ at hidden places only are left
    such hosts. -/
theorem UnitCompiles.same (hready : h.Ready) (hG : HidesScratch h G)
    (hsteady : c.UnitSteady h G m dir u) (hk : h.Matches G k) (hk' : h.Matches G k')
    (hscratches : k.scratches = k'.scratches) (hunit : c.UnitCompiles m dir u k' b l') :
    ∃ l, c.UnitCompiles m dir u k b l ∧ h.Matches G l ∧ h.Matches G l' ∧
      l.scratches = l'.scratches := by
  obtain ⟨l, hleft, htwin⟩ :=
    hunit.follows hready hG hsteady ⟨hk, hk', Nat.le_of_eq hscratches⟩
  obtain ⟨x, hback, htwinBack⟩ :=
    hleft.follows hready hG hsteady ⟨hk', hk, Nat.le_of_eq hscratches.symm⟩
  obtain ⟨-, rfl⟩ := hunit.unique hback
  exact ⟨l, hleft, htwin.left, htwin.right, Nat.le_antisymm htwin.scratches htwinBack.scratches⟩

/-- Where a unit compiles on two such hosts, it compiles to the same bytes. -/
theorem UnitCompiles.agree (hready : h.Ready) (hG : HidesScratch h G)
    (hsteady : c.UnitSteady h G m dir u) (hk : h.Matches G k) (hk' : h.Matches G k')
    (hunit : c.UnitCompiles m dir u k b l) (hunit' : c.UnitCompiles m dir u k' b' l') :
    b = b' := by
  rcases Nat.le_total k.scratches k'.scratches with hle | hle
  · obtain ⟨x, hleft, -⟩ := hunit'.follows hready hG hsteady ⟨hk, hk', hle⟩
    exact (hunit.unique hleft).1
  · obtain ⟨x, hleft, -⟩ := hunit.follows hready hG hsteady ⟨hk', hk, hle⟩
    exact (hleft.unique hunit').1

/-- Units compile one after another exactly if each of them compiles on the files that are there
    at first. -/
theorem chain_iff_alone (hready : h.Ready) (hG : HidesScratch h G)
    (hsteady : ∀ u ∈ units, c.UnitSteady h G m dir u) (hk : h.Matches G k) :
    (∃ l, c.Chain m dir units k bs l) ↔ c.ChainAlone m dir h k.scratches units bs := by
  induction units generalizing k bs with
  | nil =>
    constructor
    · rintro ⟨l, hchain⟩
      cases hchain
      exact .nil _
    · intro halone
      cases halone
      exact ⟨k, .nil k⟩
  | cons u rest ih =>
    have hrest := fun v hv => hsteady v (List.mem_cons_of_mem _ hv)
    have hnumbered : h.Matches G (h.numbered k.scratches) := hready.matches _
    constructor
    · rintro ⟨l, hchain⟩
      cases hchain with
      -- the files after this unit match those at first, with one scratch directory more
      | cons hunit hchain =>
        obtain ⟨x, hleft, -, hx, hscratches⟩ :=
          hunit.same hready hG (hsteady u (by simp)) hnumbered hk rfl
        refine .cons hleft ?_
        rw [hscratches]
        exact (ih hrest hx).mp ⟨l, hchain⟩
    · intro halone
      cases halone with
      | cons hunit halone =>
        obtain ⟨x, hleft, hx, -, hscratches⟩ :=
          hunit.same hready hG (hsteady u (by simp)) hk hnumbered rfl
        rw [← hscratches] at halone
        obtain ⟨l, hchain⟩ := (ih hrest hx).mpr halone
        exact ⟨l, .cons hleft hchain⟩

/-! ## §6 Changing one unit -/

theorem Chain.matches (hchain : c.Chain m dir units k bs l) (hk : h.Matches G k) :
    h.Matches G l := by
  induction hchain with
  | nil k => exact hk
  | cons hunit hrest ih => exact ih (hk.quiet (hunit.quiet hk.ready))

theorem Chain.split {front : List BundleUnit} (hchain : c.Chain m dir (front ++ rest) k bs l) :
    ∃ bs₁ j bs₂, c.Chain m dir front k bs₁ j ∧ c.Chain m dir rest j bs₂ l ∧ bs = bs₁ ++ bs₂ := by
  induction front generalizing k bs with
  | nil => exact ⟨[], k, bs, .nil k, hchain, rfl⟩
  | cons u front ih =>
    cases hchain with
    | cons hunit hchain =>
      obtain ⟨bs₁, j, bs₂, hfront, hrest, rfl⟩ := ih hchain
      exact ⟨_ :: bs₁, j, bs₂, .cons hunit hfront, hrest, rfl⟩

theorem Chain.length (hchain : c.Chain m dir units k bs l) : bs.length = units.length := by
  induction hchain with
  | nil k => rfl
  | cons hunit hrest ih => rw [List.length_cons, List.length_cons, ih]

/-- The outputs of a chain are the same on hosts that differ at hidden places only. -/
theorem Chain.agree {m' : Manifest} (hready : h.Ready) (hG : HidesScratch h G)
    (hexterns : m'.externs = m.externs) (hincludes : m'.includes = m.includes)
    (hsteady : ∀ u ∈ units, c.UnitSteady h G m dir u) (hk : h.Matches G k) (hk' : h.Matches G k')
    (hchain : c.Chain m dir units k bs l) (hchain' : c.Chain m' dir units k' bs' l') :
    bs = bs' := by
  have hsame : ∀ v, c.ofUnit m' dir v = c.ofUnit m dir v := by
    intro v
    unfold ofUnit Manifest.unitSettings
    rw [hexterns, hincludes]
  induction hchain generalizing k' bs' with
  | nil k =>
    cases hchain'
    rfl
  | @cons u rest k j _ b bs hunit hrest ih =>
    cases hchain' with
    | @cons _ _ _ j' _ b' bs' hunit' hrest' =>
      -- a unit of the other manifest compiles with the same settings
      have hmoved : c.UnitCompiles m dir u k' b' j' := by
        refine ⟨hunit'.kind, ?_⟩
        rw [← hsame]
        exact hunit'.run
      rw [hunit.agree hready hG (hsteady u (by simp)) hk hk' hmoved,
        ih (fun v hv => hsteady v (List.mem_cons_of_mem _ hv)) (hk.quiet (hunit.quiet hk.ready))
          (hk'.quiet (hunit'.quiet hk'.ready)) hrest']

/-- Changing one unit of a manifest changes its own part of the bundle only. -/
theorem Chain.change {m' : Manifest} {front : List BundleUnit} {u' : BundleUnit} (hready : h.Ready)
    (hG : HidesScratch h G) (hexterns : m'.externs = m.externs) (hincludes : m'.includes = m.includes)
    (hsteady : ∀ v ∈ front ++ rest, c.UnitSteady h G m dir v)
    (hk : h.Matches G k) (hk' : h.Matches G k')
    (hchain : c.Chain m dir (front ++ u :: rest) k bs l)
    (hchain' : c.Chain m' dir (front ++ u' :: rest) k' bs' l') :
    ∃ before own own' after, bs = before ++ own :: after ∧ bs' = before ++ own' :: after ∧
      before.length = front.length := by
  obtain ⟨before, j, bs₂, hfront, hlater, rfl⟩ := hchain.split
  obtain ⟨before', j', bs₂', hfront', hlater', rfl⟩ := hchain'.split
  obtain rfl := hfront.agree hready hG hexterns hincludes
    (fun v hv => hsteady v (List.mem_append_left _ hv)) hk hk' hfront'
  -- what one unit leaves behind, in hidden places, makes no difference to those after it
  have hj := hfront.matches hk
  have hj' := hfront'.matches hk'
  cases hlater with
  | @cons _ _ _ x _ own after hunit hrest =>
    cases hlater' with
    | @cons _ _ _ x' _ own' after' hunit' hrest' =>
      obtain rfl := hrest.agree hready hG hexterns hincludes
        (fun v hv => hsteady v (List.mem_append_right _ hv)) (hj.quiet (hunit.quiet hj.ready))
        (hj'.quiet (hunit'.quiet hj'.ready)) hrest'
      exact ⟨before, own, own', after, rfl, rfl, hfront.length⟩

end Steady

/-! ## §7 Bundles -/

section Bundles

variable {c : Compiler} {manifest : Path} {h : Host} {m : Manifest} {s : Sink}

theorem runFrom_compileBundle (hload : runFrom (loadManifest manifest) h = (.ok m, h))
    (hsink : s.room = none) :
    runFrom (c.compileBundle manifest) ⟨h, s⟩ =
      (((c.compileUnits manifest (unitsDirectory manifest) m 0 m.units).collect h).1,
        ⟨((c.compileUnits manifest (unitsDirectory manifest) m 0 m.units).collect h).2.2,
          ⟨s.held ++ ((c.compileUnits manifest (unitsDirectory manifest) m 0 m.units).collect h).2.1,
            none⟩⟩) := by
  obtain ⟨held, room⟩ := s
  obtain rfl : room = none := hsink
  unfold compileBundle
  rw [runFrom_bind, runFrom_ofAct, hload]
  exact compileUnits_appends c manifest (unitsDirectory manifest) m m.units 0 h held

/-- A bundle that compiles has appended what its units compile to alone. -/
theorem compileBundle_ok_iff (hload : runFrom (loadManifest manifest) h = (.ok m, h))
    (hsink : s.room = none) {n : Nat} {o : Outlet} :
    runFrom (c.compileBundle manifest) ⟨h, s⟩ = (.ok n, o) ↔
      ∃ bs k, c.Chain m (unitsDirectory manifest) m.units h bs k ∧ n = bs.flatten.length ∧
        o = ⟨k, ⟨s.held ++ bs.flatten, none⟩⟩ := by
  rw [runFrom_compileBundle hload hsink]
  rcases hunits : (c.compileUnits manifest (unitsDirectory manifest) m 0 m.units).collect h with
    ⟨result, written, last⟩
  constructor
  · intro heq
    rw [Prod.mk.injEq] at heq
    obtain ⟨rfl, rfl⟩ := heq
    obtain ⟨bs, hchain, rfl, rfl⟩ := compileUnits_ok_iff.mp hunits
    exact ⟨bs, last, hchain, rfl, rfl⟩
  · rintro ⟨bs, k, hchain, rfl, rfl⟩
    rw [compileUnits_ok_iff.mpr ⟨bs, hchain, rfl, rfl⟩] at hunits
    cases hunits
    rfl

/-- A bundle that fails has appended what the units before the failing one compile to, and what the
    failing one wrote itself. -/
theorem compileBundle_error_iff (hload : runFrom (loadManifest manifest) h = (.ok m, h))
    (hsink : s.room = none) {e : Failure} {o : Outlet} :
    runFrom (c.compileBundle manifest) ⟨h, s⟩ = (.error e, o) ↔
      ∃ front u rest bs k b j, m.units = front ++ u :: rest ∧
        c.Chain m (unitsDirectory manifest) front h bs k ∧
        c.UnitFails manifest m (unitsDirectory manifest) front.length u k e b j ∧
        o = ⟨j, ⟨s.held ++ (bs.flatten ++ b), none⟩⟩ := by
  rw [runFrom_compileBundle hload hsink]
  rcases hunits : (c.compileUnits manifest (unitsDirectory manifest) m 0 m.units).collect h with
    ⟨result, written, last⟩
  constructor
  · intro heq
    rw [Prod.mk.injEq] at heq
    obtain ⟨rfl, rfl⟩ := heq
    obtain ⟨front, u, rest, bs, k, b, hsplit, hchain, hfails, rfl⟩ :=
      compileUnits_error_iff.mp hunits
    rw [Nat.zero_add] at hfails
    exact ⟨front, u, rest, bs, k, b, last, hsplit, hchain, hfails, rfl⟩
  · rintro ⟨front, u, rest, bs, k, b, j, hsplit, hchain, hfails, rfl⟩
    rw [← Nat.zero_add front.length] at hfails
    rw [compileUnits_error_iff.mpr ⟨front, u, rest, bs, k, b, hsplit, hchain, hfails, rfl⟩]
      at hunits
    cases hunits
    rfl

/-- A bundle is the concatenation of its units compiled alone.

    On a sink that takes everything it succeeds exactly if the units compile alone, one after
    another, and then has appended their outputs in order. It fails exactly at the first unit that
    does not, and then has appended the outputs of those before it and what that unit wrote in its
    own run; later units have not run. Each output ends in what the directives of its source name,
    and each unit has its own settings.

    If what the tools do does not depend on hidden places, which those of scratch directories are,
    then each unit comes to what it comes to on the files that the bundle starts with, and another
    unit in one place changes no part of the bundle but that one. -/
theorem bundle_concatenates (hload : runFrom (loadManifest manifest) h = (.ok m, h))
    (hsink : s.room = none) :
    (∀ n o, runFrom (c.compileBundle manifest) ⟨h, s⟩ = (.ok n, o) ↔
      ∃ bs k, c.Chain m (unitsDirectory manifest) m.units h bs k ∧ n = bs.flatten.length ∧
        o = ⟨k, ⟨s.held ++ bs.flatten, none⟩⟩) ∧
    (∀ e o, runFrom (c.compileBundle manifest) ⟨h, s⟩ = (.error e, o) ↔
      ∃ front u rest bs k b j, m.units = front ++ u :: rest ∧
        c.Chain m (unitsDirectory manifest) front h bs k ∧
        c.UnitFails manifest m (unitsDirectory manifest) front.length u k e b j ∧
        o = ⟨j, ⟨s.held ++ (bs.flatten ++ b), none⟩⟩) ∧
    (∀ u k b l, c.UnitCompiles m (unitsDirectory manifest) u k b l → ∃ out j extra, b = out ++ extra ∧
      (expand ((unitsDirectory manifest).join u.file)).collect j = (.ok extra.length, extra, l)) ∧
    (∀ u, (c.ofUnit m (unitsDirectory manifest) u).tools = c.tools ∧
      UnitSettings c.settings m (unitsDirectory manifest) u
        (c.ofUnit m (unitsDirectory manifest) u).settings) ∧
    (∀ G, h.Ready → HidesScratch h G →
      (∀ u ∈ m.units, c.UnitSteady h G m (unitsDirectory manifest) u) → ∀ bs,
        (∃ k, c.Chain m (unitsDirectory manifest) m.units h bs k) ↔
          c.ChainAlone m (unitsDirectory manifest) h h.scratches m.units bs) ∧
    (∀ G front u u' rest m' h' bs bs' k k', h.Ready → HidesScratch h G → h.Matches G h' →
      m.units = front ++ u :: rest → m'.units = front ++ u' :: rest →
      m'.externs = m.externs → m'.includes = m.includes →
      (∀ v ∈ front ++ rest, c.UnitSteady h G m (unitsDirectory manifest) v) →
      c.Chain m (unitsDirectory manifest) m.units h bs k →
      c.Chain m' (unitsDirectory manifest) m'.units h' bs' k' →
      ∃ before own own' after, bs = before ++ own :: after ∧ bs' = before ++ own' :: after ∧
        before.length = front.length) := by
  refine ⟨fun n o => compileBundle_ok_iff hload hsink, fun e o => compileBundle_error_iff hload hsink,
    ?_, fun u => ⟨rfl, ofUnit_settings c m _ u⟩, ?_, ?_⟩
  · intro u k b l hunit
    obtain ⟨plan, h₁, out, j, extra, -, -, hextra, rfl⟩ := hunit.parts
    exact ⟨out, j, extra, rfl, hextra⟩
  · intro G hready hG hsteady bs
    exact chain_iff_alone hready hG hsteady (hready.matches h.scratches)
  · intro G front u u' rest m' h' bs bs' k k' hready hG hh' hsplit hsplit' hexterns hincludes
      hsteady hchain hchain'
    rw [hsplit] at hchain
    rw [hsplit'] at hchain'
    exact Chain.change hready hG hexterns hincludes hsteady (hready.matches h.scratches) hh' hchain
      hchain'

end Bundles

/-- A bundle of two scripts with macros, and a program for every tool. -/
def bundleTree : Tree :=
  ⟨[(["bin"], .directory), (["bin", "tool"], executableFile), (["site"], .directory),
    (["site", "all.barrel"], plainFile (Utf8.encode
      "[[],[],[[\"a.main.js\"],[\"b.main.js\",\"Basic\"]]]")),
    (["site", "a.main.js"], plainFile []), (["site", "b.main.js"], plainFile []),
    (["tmp"], .directory)]⟩

/-- A host with that bundle, and a preprocessor that writes the path it is given. -/
def bundleHost : Host :=
  .ofTree bundleTree (installed .echoing)

/-- What the manifest of the bundle says. -/
def bundleManifest : Manifest :=
  ⟨[], [], [⟨"a.main.js", none, [], []⟩, ⟨"b.main.js", some "Basic", [], []⟩]⟩

/-- That host as one that is ready. -/
def bundleReady : {h : Host // h.Ready} where
  val := bundleHost
  property := Host.ready_ofTree (by decide) (by decide +kernel) (by decide +kernel) (by decide +kernel)
    fun loc run hrun => installed_eq hrun ▸ Program.echoing_blind.confined ["tmp"]

theorem bundle_ready : bundleHost.Ready :=
  bundleReady.property

/-- The places of scratch directories, which are not there between compilations. -/
def scratchPlaces (h : Host) (loc : Location) : Prop :=
  ∃ n rest, loc = h.temporary ++ Host.scratchName n :: rest

theorem scratchPlaces_vacates {h : Host} (hready : h.Ready) : h.Vacates (scratchPlaces h) := by
  rintro loc ⟨n, rest, rfl⟩
  cases rest with
  | nil => exact hready.noScratch n
  | cons m more => exact hready.noScratch.absent hready.wellFormed ⟨n, m :: more, by simp, rfl⟩

theorem bundle_two : ∃ bs, bs.flatten.length = 28 ∧
    ChainAlone ⟨oneTool, default⟩ bundleManifest ⟨"site"⟩ bundleHost 0 bundleManifest.units bs := by
  have hload : runFrom (loadManifest ⟨"site/all.barrel"⟩) bundleHost =
      (.ok bundleManifest, bundleHost) := Prod.ext (by decide +kernel) rfl
  have hrun : (runFrom ((⟨oneTool, default⟩ : Compiler).compileBundle ⟨"site/all.barrel"⟩)
      ⟨bundleHost, .unlimited⟩).1 = .ok 28 := by decide +kernel
  have hdirectory : unitsDirectory ⟨"site/all.barrel"⟩ = ⟨"site"⟩ := by decide +kernel
  have hsteady : ∀ u ∈ bundleManifest.units, UnitSteady ⟨oneTool, default⟩ bundleHost
      (scratchPlaces bundleHost) bundleManifest ⟨"site"⟩ u := by
    intro u hu
    have hlocate : bundleHost.locate? ⟨"/bin/tool"⟩ = some ⟨"/bin/tool"⟩ := by decide +kernel
    have hcomponents : 1 < (⟨"/bin/tool"⟩ : Path).components.length := by decide +kernel
    have hpath : Kind.ofPath ((⟨"site"⟩ : Path).join u.file) = .preprocessedScript ∧
        (bundleHost.launch (((ofUnit ⟨oneTool, default⟩ bundleManifest ⟨"site"⟩ u).preprocessor
          ((⟨"site"⟩ : Path).join u.file)).withProgram ⟨"/bin/tool"⟩)).toOption.isSome = true ∧
        bundleTree.bytesAt [] ((⟨"site"⟩ : Path).join u.file) = .ok [] ∧
        (ofUnit ⟨oneTool, default⟩ bundleManifest ⟨"site"⟩ u).optimizerStage?
          .preprocessedScript = none := by
      rcases List.mem_cons.mp hu with rfl | hu
      · decide +kernel
      · rw [List.mem_singleton.mp hu]
        decide +kernel
    obtain ⟨hkind, hlaunch, hbytes, hstage⟩ := hpath
    have hall : (ofUnit ⟨oneTool, default⟩ bundleManifest ⟨"site"⟩ u).Steady bundleHost
        (scratchPlaces bundleHost) .preprocessedScript ((⟨"site"⟩ : Path).join u.file) :=
      steady_of_blind ⟨"/bin/tool"⟩ (scratchPlaces_vacates bundle_ready) rfl hstage
      (fun loc run h => installed_eq h ▸ Program.echoing_blind) hcomponents hlocate (by decide)
      hlaunch hbytes
    unfold Compiler.Steady at hall
    rw [if_neg (by decide)] at hall
    unfold UnitSteady
    rw [hkind]
    exact hall
  obtain ⟨hok, -, -, -, halone, -⟩ := bundle_concatenates (c := ⟨oneTool, default⟩) hload
    (rfl : Sink.unlimited.room = none)
  rw [hdirectory] at hok halone
  obtain ⟨bs, k, hchain, hlength, -⟩ := (hok 28 _).mp (Prod.ext hrun rfl)
  exact ⟨bs, hlength.symm, (halone (scratchPlaces bundleHost) bundle_ready
    (fun n rest => ⟨n, rest, rfl⟩) hsteady bs).mp ⟨k, hchain⟩⟩

end Compiler

end AssetServer
