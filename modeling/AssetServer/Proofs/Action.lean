import AssetServer.Export

/-!
# Running actions

Actions on a host, writes to a sink and steps of an export are one kind of thing: they take a state,
may fail, and leave a state in either case. This module opens them once, so that later modules argue
about what a run gives and not about how actions are put together.

- `runFrom` is the result of an action and the state it leaves; `runFrom_bind_ok` takes a run of two
  actions apart.
- `copyFile_ok_iff`, `directivesOf_ok_iff` and `Compiler.loadManifest_ok_iff` say when a file is read
  and what comes of it.
- `Moves` says how an action may change the state, whether it fails or not; it passes through
  sequencing (`Moves.bind`) for every reflexive and transitive relation. `Ends` does the same for
  relations that know how the action failed.
-/

namespace AssetServer

variable {σ α β : Type}

/-! ## §1 Results -/

/-- What an action gives, and the state it leaves. -/
def runFrom (act : ExceptT Failure (StateM σ) α) (s : σ) : Except Failure α × σ :=
  StateT.run (ExceptT.run act) s

theorem runFrom_pure (a : α) (s : σ) :
    runFrom (pure a : ExceptT Failure (StateM σ) α) s = (.ok a, s) := rfl

theorem runFrom_throw (e : Failure) (s : σ) :
    runFrom (throw e : ExceptT Failure (StateM σ) α) s = (.error e, s) := rfl

/-- Two actions in a row: the second starts where the first ended, unless the first failed. -/
theorem runFrom_bind (act : ExceptT Failure (StateM σ) α)
    (next : α → ExceptT Failure (StateM σ) β) (s : σ) :
    runFrom (act >>= next) s = match runFrom act s with
      | (.ok a, s') => runFrom (next a) s'
      | (.error e, s') => (.error e, s') := by
  have hstep : runFrom (act >>= next) s =
      (let r := runFrom act s
       runFrom (ExceptT.mk (ExceptT.bindCont next r.1)) r.2) := rfl
  rw [hstep]
  rcases runFrom act s with ⟨result, s'⟩
  cases result with
  | ok a => rfl
  | error e => rfl

theorem runFrom_bind_ok {act : ExceptT Failure (StateM σ) α}
    {next : α → ExceptT Failure (StateM σ) β} {s t : σ} {b : β} :
    runFrom (act >>= next) s = (.ok b, t) ↔
      ∃ a s', runFrom act s = (.ok a, s') ∧ runFrom (next a) s' = (.ok b, t) := by
  rw [runFrom_bind]
  rcases runFrom act s with ⟨result, s'⟩
  cases result with
  | ok a =>
    constructor
    · intro h
      exact ⟨a, s', rfl, h⟩
    · rintro ⟨a', s'', h, hnext⟩
      cases h
      exact hnext
  | error e => simp

/-- What every step of a loop keeps, a loop that succeeds keeps. -/
theorem runFrom_forM {P : σ → Prop} {f : β → ExceptT Failure (StateM σ) Unit} {l : List β} {s t : σ}
    (hrun : runFrom (l.forM f) s = (.ok (), t)) (hs : P s)
    (hstep : ∀ a ∈ l, ∀ s s', P s → runFrom (f a) s = (.ok (), s') → P s') : P t := by
  induction l generalizing s with
  | nil =>
    cases hrun
    exact hs
  | cons a rest ih =>
    rw [List.forM_eq_forM, List.forM_cons] at hrun
    obtain ⟨_, s', hfirst, hrun⟩ := runFrom_bind_ok.mp hrun
    exact ih hrun (hstep a (by simp) s s' hs hfirst)
      fun b hb => hstep b (List.mem_cons_of_mem _ hb)

/-- A loop passes through a state before and after each of its steps. -/
theorem runFrom_forM_append {f : β → ExceptT Failure (StateM σ) Unit} {l more : List β} {a : β}
    {s t : σ} (hrun : runFrom ((l ++ a :: more).forM f) s = (.ok (), t)) :
    ∃ s₁ s₂, runFrom (l.forM f) s = (.ok (), s₁) ∧ runFrom (f a) s₁ = (.ok (), s₂) ∧
      runFrom (more.forM f) s₂ = (.ok (), t) := by
  rw [List.forM_eq_forM, List.forM_append, List.forM_cons] at hrun
  obtain ⟨_, s₁, hfirst, hrun⟩ := runFrom_bind_ok.mp hrun
  obtain ⟨_, s₂, hstep, hrun⟩ := runFrom_bind_ok.mp hrun
  exact ⟨s₁, s₂, hfirst, hstep, hrun⟩

/-! ## §2 Building blocks -/

theorem Act.runOn_eq (act : Act α) (h : Host) : act.runOn h = runFrom act h := rfl

theorem Emit.runOn_eq (act : Emit α) (o : Outlet) : act.runOn o = runFrom act o := rfl

theorem Emit.collect_eq (act : Emit α) (h : Host) :
    act.collect h = ((runFrom act ⟨h, .unlimited⟩).1, (runFrom act ⟨h, .unlimited⟩).2.sink.held,
      (runFrom act ⟨h, .unlimited⟩).2.host) := rfl

theorem runFrom_ofPair (step : Host → Except Failure α × Host) (h : Host) :
    runFrom (Act.ofPair step) h = step h := rfl

theorem runFrom_read (f : Host → Except Failure α) (h : Host) :
    runFrom (Act.read f) h = (f h, h) := rfl

theorem runFrom_emit (step : Outlet → Except Failure α × Outlet) (o : Outlet) :
    runFrom (Emit.ofPair step) o = step o := rfl

theorem runFrom_ofAct (act : Act α) (o : Outlet) :
    runFrom (Emit.ofAct act) o =
      ((runFrom act o.host).1, { o with host := (runFrom act o.host).2 }) := rfl

theorem runFrom_read_ok {f : Host → Except Failure α} {h k : Host} {a : α} :
    runFrom (Act.read f) h = (.ok a, k) ↔ f h = .ok a ∧ k = h := by
  rw [runFrom_read, Prod.mk.injEq]
  exact and_congr_right fun _ => eq_comm

theorem runFrom_ofAct_ok {act : Act α} {o o' : Outlet} {a : α} :
    runFrom (Emit.ofAct act) o = (.ok a, o') ↔
      ∃ k, runFrom act o.host = (.ok a, k) ∧ o' = { o with host := k } := by
  rw [runFrom_ofAct]
  rcases runFrom act o.host with ⟨result, k⟩
  simp only [Prod.mk.injEq]
  constructor
  · rintro ⟨hresult, rfl⟩
    exact ⟨k, ⟨hresult, rfl⟩, rfl⟩
  · rintro ⟨_, ⟨hresult, rfl⟩, rfl⟩
    exact ⟨hresult, rfl⟩

theorem runFrom_export (act : Act α) (p : Pass) :
    runFrom (ExportStep.ofAct act) p =
      ((runFrom act p.host).1, { p with host := (runFrom act p.host).2 }) := rfl

theorem runFrom_look (f : Host → α) (p : Pass) :
    runFrom (ExportStep.look f) p = (.ok (f p.host), p) := rfl

theorem runFrom_tell (message : Progress) (p : Pass) :
    runFrom (ExportStep.tell message) p =
      (.ok (), { p with progress := p.progress ++ [message] }) := rfl

theorem runFrom_count (f : Report → Report) (p : Pass) :
    runFrom (ExportStep.count f) p = (.ok (), { p with report := f p.report }) := rfl

theorem runFrom_runAside (p : Pipeline) (h : Host) : runFrom (runAside p) h =
    ((runFrom (p.runInto .null) ⟨h, .unlimited⟩).1.map fun _ => (),
      (runFrom (p.runInto .null) ⟨h, .unlimited⟩).2.host) := rfl

theorem runFrom_withScratch (scratch : Path) (act : Emit α) (o : Outlet) :
    runFrom (withScratch scratch act) o = ((runFrom act o).1,
      { (runFrom act o).2 with host := removeScratch scratch (runFrom act o).2.host }) := rfl

/-- A sink without a limit takes everything. -/
theorem Sink.copy_unlimited {s : Sink} (h : s.room = none) (data : Bytes) :
    s.copy data = (.ok (), { s with held := s.held ++ data }) := by
  obtain ⟨held, room⟩ := s
  obtain rfl : room = none := h
  rfl

/-! ## §3 What is read of a source -/

/-- Bytes are copied just where the sink takes all of them. -/
theorem copy_ok_iff {fault : OsError → Failure} {data : Bytes} {k : Host} {s : Sink} {n : Nat}
    {o : Outlet} : runFrom (Emit.copy fault data) ⟨k, s⟩ = (.ok n, o) ↔
      ∃ after, s.copy data = (.ok (), after) ∧ n = data.length ∧ o = ⟨k, after⟩ := by
  unfold Emit.copy
  rw [runFrom_emit]
  rcases s.copy data with ⟨_ | _, after⟩
  · simp
  · simp [eq_comm]

theorem copyFile_ok_iff {p : Path} {k : Host} {s : Sink} {n : Nat} {o : Outlet} :
    runFrom (copyFile p) ⟨k, s⟩ = (.ok n, o) ↔
      ∃ data after, k.tree.bytesAt k.directory p = .ok data ∧ s.copy data = (.ok (), after) ∧
        n = data.length ∧ o = ⟨k, after⟩ := by
  unfold copyFile
  rw [runFrom_bind, runFrom_ofAct, runFrom_read]
  cases k.tree.bytesAt k.directory p with
  | error e => simp
  | ok data => simp [copy_ok_iff]

/-- The directives of a source are found exactly if it can be read and scanned for them. -/
theorem directivesOf_ok_iff {source : Path} {directives : List Directive} {h k : Host} :
    runFrom (directivesOf source) h = (.ok directives, k) ↔
      (∃ data, h.tree.bytesAt h.directory source = .ok data ∧
        Directive.scan data = .ok directives) ∧ k = h := by
  unfold directivesOf
  rw [runFrom_read_ok]
  refine and_congr_left fun _ => ?_
  cases h.tree.bytesAt h.directory source with
  | error e => simp
  | ok data => cases hscan : Directive.scan data <;> simp [hscan]

/-- A manifest is loaded exactly if its file can be read and holds one. -/
theorem Compiler.loadManifest_ok_iff {path : Path} {m : Manifest} {h k : Host} :
    runFrom (Compiler.loadManifest path) h = (.ok m, k) ↔
      (∃ data, h.tree.bytesAt h.directory path = .ok data ∧ Manifest.read data = .ok m) ∧
        k = h := by
  unfold Compiler.loadManifest
  rw [runFrom_read_ok]
  refine and_congr_left fun _ => ?_
  cases h.tree.bytesAt h.directory path with
  | error e => simp
  | ok data => cases hread : Manifest.read data <;> simp [hread]

/-! ## §4 How the state may change -/

/-- The failure that a result is, if it is one. -/
def failure? : Except Failure α → Option Failure
  | .ok _ => none
  | .error e => some e

/-- Every run of `act` leads from a state to one that `R` relates to it by the failure that the run
    gives, if any. -/
def Ends (R : σ → Option Failure → σ → Prop) (act : ExceptT Failure (StateM σ) α) : Prop :=
  ∀ s, R s (failure? (runFrom act s).1) (runFrom act s).2

theorem Ends.bind {R : σ → Option Failure → σ → Prop}
    (trans : ∀ s t u e, R s none t → R t e u → R s e u) {act : ExceptT Failure (StateM σ) α}
    {next : α → ExceptT Failure (StateM σ) β} (hact : Ends R act) (hnext : ∀ a, Ends R (next a)) :
    Ends R (act >>= next) := by
  intro s
  have hfirst := hact s
  rw [runFrom_bind]
  rcases hr : runFrom act s with ⟨result, s'⟩
  rw [hr] at hfirst
  cases result with
  | ok a => exact trans s s' _ _ hfirst (hnext a s')
  | error e => exact hfirst

theorem Ends.forM {R : σ → Option Failure → σ → Prop} (refl : ∀ s, R s none s)
    (trans : ∀ s t u e, R s none t → R t e u → R s e u)
    {f : β → ExceptT Failure (StateM σ) Unit} {l : List β} (hstep : ∀ a ∈ l, Ends R (f a)) :
    Ends R (l.forM f) := by
  induction l with
  | nil => exact refl
  | cons a rest ih =>
    rw [List.forM_eq_forM, List.forM_cons]
    exact .bind trans (hstep a List.mem_cons_self) fun _ =>
      ih fun b hb => hstep b (List.mem_cons_of_mem _ hb)

/-- Every run of `act`, also one that fails, leads from a state to one that `R` relates to it. -/
def Moves (R : σ → σ → Prop) (act : ExceptT Failure (StateM σ) α) : Prop :=
  ∀ s, R s (runFrom act s).2

theorem Moves.pure {R : σ → σ → Prop} (refl : ∀ s, R s s) (a : α) :
    Moves R (Pure.pure a : ExceptT Failure (StateM σ) α) :=
  refl

theorem Moves.throw {R : σ → σ → Prop} (refl : ∀ s, R s s) (e : Failure) :
    Moves R (MonadExcept.throw e : ExceptT Failure (StateM σ) α) :=
  refl

theorem Moves.bind {R : σ → σ → Prop} (trans : ∀ s t u, R s t → R t u → R s u)
    {act : ExceptT Failure (StateM σ) α} {next : α → ExceptT Failure (StateM σ) β}
    (hact : Moves R act) (hnext : ∀ a, Moves R (next a)) : Moves R (act >>= next) :=
  Ends.bind (R := fun s _ t => R s t) (fun s t u _ => trans s t u) hact hnext

/-- An action that only reads leaves the state as it was. -/
theorem Moves.read {R : Host → Host → Prop} (refl : ∀ h, R h h) (f : Host → Except Failure α) :
    Moves R (Act.read f) :=
  refl

/-- Every run of `act` leads from the host of an outlet to one that `R` relates to it. -/
def MovesHost (R : Host → Host → Prop) (act : Emit α) : Prop :=
  Moves (fun o o' : Outlet => R o.host o'.host) act

namespace MovesHost

variable {R : Host → Host → Prop}

theorem pure (refl : ∀ h, R h h) (a : α) : MovesHost R (Pure.pure a : Emit α) :=
  fun o => refl o.host

theorem throw (refl : ∀ h, R h h) (e : Failure) : MovesHost R (MonadExcept.throw e : Emit α) :=
  fun o => refl o.host

theorem bind (trans : ∀ h k l, R h k → R k l → R h l) {act : Emit α} {next : α → Emit β}
    (hact : MovesHost R act) (hnext : ∀ a, MovesHost R (next a)) : MovesHost R (act >>= next) :=
  Moves.bind (fun o p q => trans o.host p.host q.host) hact hnext

/-- An action on a host moves the host of an outlet in the same way. -/
theorem ofAct {act : Act α} (hact : Moves R act) : MovesHost R (Emit.ofAct act) :=
  fun o => hact o.host

/-- Copying into a sink does not touch the host. -/
theorem copy (refl : ∀ h, R h h) (fault : OsError → Failure) (data : Bytes) :
    MovesHost R (Emit.copy fault data) := by
  intro o
  unfold Emit.copy
  rw [runFrom_emit]
  rcases o.sink.copy data with ⟨result, sink⟩
  cases result with
  | ok _ => exact refl o.host
  | error _ => exact refl o.host

end MovesHost

end AssetServer
