import AssetServer.Proofs.Amid

/-!
# The course of an export

The order in which an export comes to its sources, as a relation between the host before, the files
that are visited, and the host afterwards (`Export.Goes` for one root, `Export.Tour` for all). The
relation speaks of places and not of paths: a directory is listed as it stands when it is reached,
its entries come in the order of their names, directories are gone through in place, and the
destination is not entered where it lies in a directory. The first failure ends it (`Ending`).

- `Chain` forgets the directories and keeps the files that were visited, one after another.
- `Chain.last` and `Chain.rest` say what a chain leaves at each place below the destination.
-/

namespace AssetServer

/-! ## §1 Visits -/

/-- A regular file that an export comes to, and the host as it is then. -/
structure Visit where
  root : Path
  /-- The location of the root. -/
  base : Location
  /-- The names of the directories that lead to the file from the root. -/
  dir : List String
  name : String
  host : Host

namespace Visit

variable (x : Export) (v : Visit)

/-- The names that lead to the file from its root. -/
def names : List String :=
  v.dir ++ [v.name]

def source : Path :=
  Export.descend v.root v.names

def kind : Kind :=
  Kind.ofName v.name

/-- The names that lead to the output from the destination. Fragments have none. -/
def output? : Option (List String) :=
  (Kind.exportName? v.name).map fun o => v.dir ++ [o]

def IsFile : Prop :=
  ∃ f, v.host.tree.get? (v.base ++ v.names) = some (.file f)

/-- The file has to be compiled. -/
def Compiled : Prop :=
  v.kind ∈ Kind.compiled

/-- The file is used as it is, and has to be copied since it is not in its place already. -/
def Copied : Prop :=
  v.kind = .passthrough ∧ v.base ++ v.names ≠ x.location ++ v.names

instance : Decidable v.Compiled := by
  unfold Compiled
  infer_instance

instance : Decidable (v.Copied x) := by
  unfold Copied
  infer_instance

/-- What a file that is used as it is holds when it is reached, or what compiling the file writes
    while its output is there and empty. -/
def Gives (b : Bytes) : Prop :=
  if v.kind = .passthrough then v.host.Holds b (v.base ++ v.names)
  else ∃ o f k n out, Kind.exportName? v.name = some o ∧ f.content = [] ∧
    x.Puts v.dir o f v.host k ∧
    runFrom (x.compiler.compile v.kind v.source) ⟨k, .unlimited⟩ = (.ok n, out) ∧ out.sink.held = b

/-- The file was exported. -/
inductive Done : Host → Prop where
  | fragment (hkind : Kind.exportName? v.name = none) : Done v.host
  | inPlace (hkind : v.kind = .passthrough) (hplace : v.base ++ v.names = x.location ++ v.names) :
      Done v.host
  | written {o : String} {b : Bytes} {k : Host} (ho : Kind.exportName? v.name = some o)
      (hkind : v.Compiled ∨ v.Copied x) (hb : v.Gives x b)
      (hchanges : x.Changes (v.dir ++ [o]) v.host k)
      (hheld : k.Holds b (x.location ++ (v.dir ++ [o]))) : Done k

/-- The file could not be exported, and its output may be there in part. -/
structure Fails (e : Failure) (k : Host) : Prop where
  run : ∃ p p' : Pass, p.host = v.host ∧ runFrom (x.file v.root v.names) p = (.error e, p') ∧
    p'.host = k
  changes : ∃ o, Kind.exportName? v.name = some o ∧ x.Changes (v.dir ++ [o]) v.host k

/-- A run that exports the file leaves the host `k`. -/
def Ran (k : Host) : Prop :=
  ∃ p p' : Pass, p.host = v.host ∧ runFrom (x.file v.root v.names) p = (.ok (), p') ∧ p'.host = k

/-- The counts with one file more. -/
def count (r : Report) : Report :=
  if v.Compiled then { r with compiled := r.compiled + 1 }
  else if v.Copied x then { r with copied := r.copied + 1 }
  else { r with skipped := r.skipped + 1 }

end Visit

/-- How the course of an export ends. -/
inductive Ending where
  | finished
  /-- A directory cannot be listed. -/
  | unlisted (dir : Path) (e : OsError)
  /-- A file cannot be exported. -/
  | failed (v : Visit) (e : Failure)

namespace Ending

def result : Ending → Except Failure Unit
  | .finished => .ok ()
  | .unlisted dir e => .error (.file dir e)
  | .failed _ e => .error e

theorem error_of_ne_finished (ending : Ending) (h : ending ≠ .finished) :
    ∃ e, ending.result = .error e := by
  cases ending with
  | finished => exact absurd rfl h
  | unlisted dir e => exact ⟨_, rfl⟩
  | failed v e => exact ⟨_, rfl⟩

/-- The host that the last visit before the ending has left, if `k` is the host afterwards. -/
def reached : Ending → Host → Host
  | .finished, k => k
  | .unlisted _ _, k => k
  | .failed v _, _ => v.host

/-- The output that was not finished. -/
def output? : Ending → Option (List String)
  | .finished => none
  | .unlisted _ _ => none
  | .failed v _ => v.output?

end Ending

/-- The names that lead to the output of one of some visits, or to that of a file that could not be
    exported after them. -/
def Outputs (visits : List Visit) (ending : Ending) (names : List String) : Prop :=
  (∃ v ∈ visits, v.output? = some names) ∨ ending.output? = some names

theorem Outputs.cons {v : Visit} {visits : List Visit} {ending : Ending} {names : List String}
    (h : Outputs visits ending names) : Outputs (v :: visits) ending names := by
  rcases h with ⟨u, hu, ho⟩ | ho
  · exact .inl ⟨u, List.mem_cons_of_mem _ hu, ho⟩
  · exact .inr ho

theorem Outputs.first {v : Visit} {visits : List Visit} {ending : Ending} {names : List String}
    (ho : v.output? = some names) : Outputs (v :: visits) ending names :=
  .inl ⟨v, List.mem_cons_self, ho⟩

namespace Export

variable {x : Export} {k k₁ k' : Host} {v : Visit} {visits more : List Visit} {ending : Ending}
  {names : List String} {b : Bytes}

/-! ## §2 One visit -/

/-- Whatever is exported has the name of no scratch directory, if there are none. -/
theorem Amid.output_clear (ha : x.Amid v.host) (hfile : v.IsFile) {o : String}
    (ho : Kind.exportName? v.name = some o) (hbelow : x.location <+: v.host.temporary) (m : Nat) :
    Host.scratchName m ∉ v.dir ++ [o] := by
  obtain ⟨f, hf⟩ := hfile
  exact ha.underway.output_clear hf ho hbelow m

/-- A step keeps what holds during an export, and directories and files. -/
theorem done_amid (hd : v.Done x k) (hfile : v.IsFile) (ha : x.Amid v.host) :
    x.Amid k ∧ v.host.tree.Keeps k.tree := by
  cases hd with
  | fragment hkind => exact ⟨ha, .refl _⟩
  | inPlace hkind hplace => exact ⟨ha, .refl _⟩
  | written ho hkind hb hchanges hheld =>
    exact ⟨ha.changes hchanges fun hbelow m => ha.output_clear hfile ho hbelow m,
    hchanges.keeps ha.underway.linkFree⟩

theorem fails_amid {e : Failure} (hf : v.Fails x e k) (hfile : v.IsFile) (ha : x.Amid v.host) :
    x.Amid k ∧ v.host.tree.Keeps k.tree := by
  obtain ⟨o, ho, hchanges⟩ := hf.changes
  exact ⟨ha.changes hchanges fun hbelow m => ha.output_clear hfile ho hbelow m,
    hchanges.keeps ha.underway.linkFree⟩

/-- A place is as it was, but that it may have become a directory on the way to an output. -/
def Rests (loc : Location) (h k : Host) : Prop :=
  k.tree.get? loc = h.tree.get? loc ∨ h.tree.get? loc = none ∧ k.tree.get? loc = some .directory

theorem Rests.trans {loc : Location} (hk : Rests loc k k₁) (hk' : Rests loc k₁ k') :
    Rests loc k k' := by
  rcases hk' with hsame | ⟨hnone, hdir⟩
  · unfold Rests
    rw [hsame]
    exact hk
  · rcases hk with hsame | ⟨-, hthere⟩
    · exact .inr ⟨hsame ▸ hnone, hdir⟩
    · rw [hthere] at hnone
      cases hnone

theorem Rests.holds {loc : Location} (hk : Rests loc k k') (hb : k.Holds b loc) :
    k'.Holds b loc := by
  obtain ⟨f, hf, hc⟩ := hb
  rcases hk with hsame | ⟨hnone, -⟩
  · exact ⟨f, hsame.trans hf, hc⟩
  · rw [hnone] at hf
    cases hf

theorem Changes.rests {dir : List String} {o : String} (hc : x.Changes (dir ++ [o]) k k')
    (hne : dir ++ [o] ≠ names) : Rests (x.location ++ names) k k' := by
  rcases hc.places (x.location ++ names) with hsame | ⟨hnone, hdir, -⟩ | ⟨hplace, -⟩
  · exact .inl hsame
  · exact .inr ⟨hnone, hdir⟩
  · exact absurd (List.append_cancel_left hplace).symm hne

theorem output?_eq {o : String} (ho : Kind.exportName? v.name = some o) :
    v.output? = some (v.dir ++ [o]) := by
  unfold Visit.output?
  rw [ho]
  rfl

theorem output?_ne {o : String} (ho : Kind.exportName? v.name = some o)
    (hne : v.output? ≠ some names) : v.dir ++ [o] ≠ names := by
  rintro rfl
  exact hne (output?_eq ho)

/-- Exporting a file leaves all places but that of its output. -/
theorem done_rests (hd : v.Done x k) (hne : v.output? ≠ some names) :
    Rests (x.location ++ names) v.host k := by
  cases hd with
  | fragment hkind => exact .inl rfl
  | inPlace hkind hplace => exact .inl rfl
  | written ho hkind hb hchanges hheld => exact hchanges.rests (output?_ne ho hne)

theorem fails_rests {e : Failure} (hf : v.Fails x e k) (hne : v.output? ≠ some names) :
    Rests (x.location ++ names) v.host k := by
  obtain ⟨o, ho, hchanges⟩ := hf.changes
  exact hchanges.rests (output?_ne ho hne)

/-- The place of an output holds what its source gives. -/
theorem done_holds (hd : v.Done x k) (hfile : v.IsFile) (ho : v.output? = some names) :
    ∃ b, v.Gives x b ∧ k.Holds b (x.location ++ names) := by
  unfold Visit.output? at ho
  cases hd with
  | fragment hkind =>
    rw [hkind] at ho
    cases ho
  | inPlace hkind hplace =>
    have hself : Kind.exportName? v.name = some v.name := Kind.exportName?_plain hkind
    rw [hself] at ho
    cases ho
    obtain ⟨f, hf⟩ := hfile
    refine ⟨f.content, ?_, f, ?_, rfl⟩
    · unfold Visit.Gives
      rw [if_pos hkind]
      exact ⟨f, hf, rfl⟩
    · rw [hplace] at hf
      exact hf
  | written ho' hkind hb hchanges hheld =>
    rw [ho'] at ho
    cases ho
    exact ⟨_, hb, hheld⟩

theorem done_directory (hd : v.Done x k) : k.directory = v.host.directory := by
  cases hd with
  | fragment hkind => rfl
  | inPlace hkind hplace => rfl
  | written ho hkind hb hchanges hheld => exact hchanges.beside.directory

/-- Only places on the way to the output are changed. -/
theorem Changes.still {loc : Location} (hc : x.Changes names k k')
    (hloc : ∀ pre, loc = x.location ++ pre → ¬ pre <+: names) :
    k'.tree.get? loc = k.tree.get? loc := by
  rcases hc.places loc with hsame | ⟨-, -, pre, hpre, hplace⟩ | ⟨hplace, -⟩
  · exact hsame
  · exact absurd hpre (hloc pre hplace)
  · exact absurd List.prefix_rfl (hloc names hplace)

theorem done_still {loc : Location} (hd : v.Done x k)
    (hloc : ∀ pre o, loc = x.location ++ pre → v.output? = some o → ¬ pre <+: o) :
    k.tree.get? loc = v.host.tree.get? loc := by
  cases hd with
  | fragment hkind => rfl
  | inPlace hkind hplace => rfl
  | written ho hkind hb hchanges hheld =>
    exact hchanges.still fun pre hpre => hloc pre _ hpre (output?_eq ho)

/-! ## §3 Visits one after another -/

/-- The files that are visited from one host to another. -/
inductive Chain (x : Export) : Host → List Visit → Host → Ending → Prop where
  | finished {k : Host} : Chain x k [] k .finished
  | unlisted {k : Host} {dir : Path} {e : OsError} : Chain x k [] k (.unlisted dir e)
  | failed {v : Visit} {e : Failure} {k' : Host} (hfile : v.IsFile) (hfails : v.Fails x e k') :
      Chain x v.host [] k' (.failed v e)
  | visit {v : Visit} {k₁ k' : Host} {visits : List Visit} {ending : Ending} (hfile : v.IsFile)
      (hdone : v.Done x k₁) (hrest : Chain x k₁ visits k' ending) :
      Chain x v.host (v :: visits) k' ending

namespace Chain

theorem append (h : Chain x k visits k₁ .finished) (hmore : Chain x k₁ more k' ending) :
    Chain x k (visits ++ more) k' ending := by
  -- a chain that ends early is not finished, so only visits are left
  generalize hend : Ending.finished = finish at h
  induction h with
  | finished => exact hmore
  | unlisted => cases hend
  | failed hfile hfails => cases hend
  | visit hfile hdone hrest ih => exact .visit hfile hdone (ih hmore hend)

/-- What holds during an export holds after each of its visits. -/
theorem amid (h : Chain x k visits k' ending) (ha : x.Amid k) :
    x.Amid k' ∧ k.tree.Keeps k'.tree := by
  induction h with
  | finished => exact ⟨ha, .refl _⟩
  | unlisted => exact ⟨ha, .refl _⟩
  | failed hfile hfails => exact fails_amid hfails hfile ha
  | visit hfile hdone hrest ih =>
    obtain ⟨ha₁, hkeeps⟩ := done_amid hdone hfile ha
    obtain ⟨ha', hkeeps'⟩ := ih ha₁
    exact ⟨ha', hkeeps.trans hkeeps'⟩

theorem directory (h : Chain x k visits k' ending) : k'.directory = k.directory := by
  induction h with
  | finished => rfl
  | unlisted => rfl
  | failed hfile hfails =>
    obtain ⟨o, -, hchanges⟩ := hfails.changes
    exact hchanges.beside.directory
  | visit hfile hdone hrest ih => exact ih.trans (done_directory hdone)

/-- A place that is no output is left as it was. -/
theorem rest (h : Chain x k visits k' ending) (hnone : ¬ Outputs visits ending names) :
    Rests (x.location ++ names) k k' := by
  induction h with
  | finished => exact .inl rfl
  | unlisted => exact .inl rfl
  | failed hfile hfails => exact fails_rests hfails fun ho => hnone (.inr ho)
  | visit hfile hdone hrest ih =>
    have hfirst := done_rests hdone fun ho => hnone (.first ho)
    exact hfirst.trans (ih fun hlater => hnone hlater.cons)

/-- The place of an output holds what the last visit with that output gives. -/
theorem last {before after : List Visit} (h : Chain x k (before ++ v :: after) k' ending)
    (ho : v.output? = some names) (hafter : ¬ Outputs after ending names) :
    ∃ b, v.Gives x b ∧ k'.Holds b (x.location ++ names) := by
  induction before generalizing k with
  -- this is the last visit with that output: the rest leaves the place as it is
  | nil =>
    cases h with
    | visit hfile hdone hrest =>
      obtain ⟨b, hb, hheld⟩ := done_holds hdone hfile ho
      exact ⟨b, hb, (hrest.rest hafter).holds hheld⟩
  | cons u before ih =>
    cases h with
    | visit hfile hdone hrest => exact ih hrest

/-- A place on the way to no output is left as it was: so are all outside of the destination. -/
theorem still {loc : Location} (h : Chain x k visits k' ending)
    (hloc : ∀ pre o, loc = x.location ++ pre → Outputs visits ending o → ¬ pre <+: o) :
    k'.tree.get? loc = k.tree.get? loc := by
  induction h with
  | finished => rfl
  | unlisted => rfl
  | failed hfile hfails =>
    obtain ⟨o, ho, hchanges⟩ := hfails.changes
    exact hchanges.still fun pre hpre => hloc pre _ hpre (.inr (output?_eq ho))
  | visit hfile hdone hrest ih =>
    have hfirst := done_still hdone fun pre o hpre ho => hloc pre o hpre (.first ho)
    exact (ih fun pre o hpre ho => hloc pre o hpre ho.cons).trans hfirst

theorem fails {e : Failure} (h : Chain x k visits k' ending) (hend : ending = .failed v e) :
    v.Fails x e k' := by
  induction h with
  | finished => cases hend
  | unlisted => cases hend
  | failed hfile hfails =>
    cases hend
    exact hfails
  | visit hfile hdone hrest ih => exact ih hend

end Chain

/-- The host on which some visits begin, if they leave `k`. -/
def start : List Visit → Host → Host
  | [], k => k
  | v :: _, _ => v.host

/-- Each file is exported by a run, and the next one is reached on the host that the run leaves. -/
def Steps (x : Export) : List Visit → Host → Prop
  | [], _ => True
  | v :: rest, k => v.Ran x (start rest k) ∧ Steps x rest k

theorem start_append (visits more : List Visit) (k : Host) :
    start (visits ++ more) k = start visits (start more k) := by
  cases visits with
  | nil => rfl
  | cons v rest => rfl

theorem steps_append :
    Steps x (visits ++ more) k ↔ Steps x visits (start more k) ∧ Steps x more k := by
  induction visits with
  | nil => exact (true_and _).to_iff.symm
  | cons v rest ih =>
    simp only [List.cons_append, Steps, start_append, ih, and_assoc]

theorem Chain.start_eq (h : Chain x k visits k' ending) : start visits (ending.reached k') = k := by
  cases h with
  | finished => rfl
  | unlisted => rfl
  | failed hfile hfails => rfl
  | visit hfile hdone hrest => rfl

/-! ## §4 Counts -/

theorem not_compiled_of_copied (h : v.Copied x) : ¬ v.Compiled := by
  unfold Visit.Compiled
  rw [h.1]
  decide

/-- The counts of some visits. What is neither compiled nor copied is a fragment or a file that is
    in its place already. -/
def tally (x : Export) (visits : List Visit) : Report where
  compiled := visits.countP fun v => v.Compiled
  copied := visits.countP fun v => v.Copied x
  skipped := visits.countP fun v => ¬ v.Compiled ∧ ¬ v.Copied x

theorem foldl_count (visits : List Visit) (r : Report) :
    visits.foldl (fun r v => v.count x r) r =
      ⟨r.compiled + (tally x visits).compiled, r.copied + (tally x visits).copied,
        r.skipped + (tally x visits).skipped⟩ := by
  unfold tally
  induction visits generalizing r with
  | nil => rfl
  | cons v rest ih =>
    rw [List.foldl_cons, ih]
    unfold Visit.count
    by_cases hcopied : v.Copied x
    · simp [not_compiled_of_copied hcopied, hcopied, Nat.add_assoc, Nat.add_comm 1]
    · by_cases hcompiled : v.Compiled
      · simp [hcompiled, hcopied, Nat.add_assoc, Nat.add_comm 1]
      · simp [hcompiled, hcopied, Nat.add_assoc, Nat.add_comm 1]

theorem foldl_count_default (visits : List Visit) :
    visits.foldl (fun r v => v.count x r) default = tally x visits := by
  rw [foldl_count]
  show (⟨0 + _, 0 + _, 0 + _⟩ : Report) = _
  simp only [Nat.zero_add]

/-- Every visit is counted once. -/
theorem tally_total (visits : List Visit) :
    (tally x visits).compiled + (tally x visits).copied + (tally x visits).skipped =
      visits.length := by
  unfold tally
  induction visits with
  | nil => rfl
  | cons v rest ih =>
    have hone : (if v.Compiled then 1 else 0) + (if v.Copied x then 1 else 0) +
        (if ¬ v.Compiled ∧ ¬ v.Copied x then 1 else 0) = 1 := by
      by_cases hcopied : v.Copied x
      · simp [hcopied, not_compiled_of_copied hcopied]
      · by_cases hcompiled : v.Compiled <;> simp [hcopied, hcompiled]
    simp only [List.countP_cons, List.length_cons, decide_eq_true_eq] at ih hone ⊢
    omega

/-! ## §5 Directories -/

/-- What an export does with the entries of the directory that some names lead to from a root: the
    entries that are left, the host before, the files that are visited, and the host afterwards. -/
inductive Goes (x : Export) (root : Path) (R : Location) :
    List String → List String → Host → List Visit → Host → Ending → Prop where
  | done {names : List String} {k : Host} : Goes x root R names [] k [] k .finished
  /-- The destination is not entered. -/
  | destination {names rest : List String} {n : String} {k k' : Host} {visits : List Visit}
      {ending : Ending} (hplace : R ++ (names ++ [n]) = x.location)
      (hfits : Tree.Fits (descend root (names ++ [n])))
      (hrest : Goes x root R names rest k visits k' ending) :
      Goes x root R names (n :: rest) k visits k' ending
  /-- A directory is listed when it is reached, and gone through before what comes after it. -/
  | directory {names rest : List String} {n : String} {k k₁ k' : Host} {inner visits : List Visit}
      {ending : Ending} (hdir : k.tree.get? (R ++ (names ++ [n])) = some .directory)
      (hplace : R ++ (names ++ [n]) ≠ x.location) (hfits : Tree.Fits (descend root (names ++ [n])))
      (hinner : Goes x root R (names ++ [n]) (k.tree.names (R ++ (names ++ [n]))) k inner k₁
        .finished)
      (hrest : Goes x root R names rest k₁ visits k' ending) :
      Goes x root R names (n :: rest) k (inner ++ visits) k' ending
  | directoryEnds {names rest : List String} {n : String} {k k' : Host} {inner : List Visit}
      {ending : Ending} (hdir : k.tree.get? (R ++ (names ++ [n])) = some .directory)
      (hplace : R ++ (names ++ [n]) ≠ x.location) (hfits : Tree.Fits (descend root (names ++ [n])))
      (hinner : Goes x root R (names ++ [n]) (k.tree.names (R ++ (names ++ [n]))) k inner k' ending)
      (hends : ending ≠ .finished) : Goes x root R names (n :: rest) k inner k' ending
  /-- A directory cannot be listed if its path is too long. -/
  | directoryLong {names rest : List String} {n : String} {k : Host}
      (hdir : k.tree.get? (R ++ (names ++ [n])) = some .directory)
      (hlong : ¬ Tree.Fits (descend root (names ++ [n]))) :
      Goes x root R names (n :: rest) k [] k (.unlisted (descend root (names ++ [n])) .nameTooLong)
  | file {names rest : List String} {n : String} {k k₁ k' : Host} {visits : List Visit}
      {ending : Ending} (hfile : Visit.IsFile ⟨root, R, names, n, k⟩)
      (hfits : Tree.Fits (descend root (names ++ [n])))
      (hdone : Visit.Done x ⟨root, R, names, n, k⟩ k₁)
      (hrest : Goes x root R names rest k₁ visits k' ending) :
      Goes x root R names (n :: rest) k (⟨root, R, names, n, k⟩ :: visits) k' ending
  | fileFails {names rest : List String} {n : String} {k k' : Host} {e : Failure}
      (hfile : Visit.IsFile ⟨root, R, names, n, k⟩)
      (hfits : Tree.Fits (descend root (names ++ [n])))
      (hfails : Visit.Fails x ⟨root, R, names, n, k⟩ e k') :
      Goes x root R names (n :: rest) k [] k' (.failed ⟨root, R, names, n, k⟩ e)
  /-- A file is passed over if its path is too long. -/
  | fileLong {names rest : List String} {n : String} {k k' : Host} {visits : List Visit}
      {ending : Ending} (hfile : Visit.IsFile ⟨root, R, names, n, k⟩)
      (hlong : ¬ Tree.Fits (descend root (names ++ [n])))
      (hrest : Goes x root R names rest k visits k' ending) :
      Goes x root R names (n :: rest) k visits k' ending

variable {root : Path} {R : Location} {list : List String}

theorem Goes.chain (h : Goes x root R names list k visits k' ending) :
    Chain x k visits k' ending := by
  induction h with
  | done => exact .finished
  | destination hplace hfits hrest ih => exact ih
  -- the visits of a directory come before those of the entries after it
  | directory hdir hplace hfits hinner hrest ihinner ih => exact ihinner.append ih
  | directoryEnds hdir hplace hfits hinner hends ih => exact ih
  | directoryLong hdir hlong => exact .unlisted
  | file hfile hfits hdone hrest ih => exact .visit hfile hdone ih
  | fileFails hfile hfits hfails => exact .failed hfile hfails
  | fileLong hfile hlong hrest ih => exact ih

theorem Goes.root_eq (h : Goes x root R names list k visits k' ending) :
    ∀ v ∈ visits, v.root = root ∧ v.base = R := by
  induction h with
  | done => simp
  | destination hplace hfits hrest ih => exact ih
  | directory hdir hplace hfits hinner hrest ihinner ih =>
    intro v hv
    exact (List.mem_append.mp hv).elim (ihinner v) (ih v)
  | directoryEnds hdir hplace hfits hinner hends ih => exact ih
  | directoryLong hdir hlong => simp
  | file hfile hfits hdone hrest ih =>
    intro v hv
    rcases List.mem_cons.mp hv with rfl | hv
    · exact ⟨rfl, rfl⟩
    · exact ih v hv
  | fileFails hfile hfits hfails => simp
  | fileLong hfile hlong hrest ih => exact ih

/-! ## §6 Roots -/

/-- What an export does with its roots, one after another. -/
inductive Tour (x : Export) : List Path → Host → List Visit → Host → Ending → Prop where
  | done {k : Host} : Tour x [] k [] k .finished
  | root {root : Path} {R : Location} {roots : List Path} {k k₁ k' : Host}
      {inner visits : List Visit} {ending : Ending}
      (hroot : k.tree.stat k.directory root = .ok (R, .directory))
      (hinner : Goes x root R [] (k.tree.names R) k inner k₁ .finished)
      (hrest : Tour x roots k₁ visits k' ending) :
      Tour x (root :: roots) k (inner ++ visits) k' ending
  | rootEnds {root : Path} {R : Location} {roots : List Path} {k k' : Host} {inner : List Visit}
      {ending : Ending} (hroot : k.tree.stat k.directory root = .ok (R, .directory))
      (hinner : Goes x root R [] (k.tree.names R) k inner k' ending) (hends : ending ≠ .finished) :
      Tour x (root :: roots) k inner k' ending
  | unlisted {root : Path} {roots : List Path} {k : Host} {e : OsError}
      (hlist : k.tree.list k.directory root = .error e) :
      Tour x (root :: roots) k [] k (.unlisted root e)

theorem Tour.chain {roots : List Path} (h : Tour x roots k visits k' ending) :
    Chain x k visits k' ending := by
  induction h with
  | done => exact .finished
  | root hroot hinner hrest ih => exact hinner.chain.append ih
  | rootEnds hroot hinner hends => exact hinner.chain
  | unlisted hlist => exact .unlisted

/-- Every visit is one below a root that is a directory. -/
theorem Tour.root_mem {roots : List Path} (h : Tour x roots k visits k' ending) :
    ∀ v ∈ visits, v.root ∈ roots ∧ v.root.text ≠ "" := by
  have hgone : ∀ {root : Path} {R : Location} {k k₁ : Host} {inner : List Visit} {ending : Ending},
      k.tree.stat k.directory root = .ok (R, .directory) →
      Goes x root R [] (k.tree.names R) k inner k₁ ending →
      ∀ v ∈ inner, v.root = root ∧ v.root.text ≠ "" := by
    intro root R k k₁ inner ending hroot hinner v hv
    obtain ⟨hsame, -⟩ := hinner.root_eq v hv
    exact ⟨hsame, hsame ▸ Tree.ne_empty_of_stat hroot⟩
  induction h with
  | done => simp
  | root hroot hinner hrest ih =>
    intro v hv
    rcases List.mem_append.mp hv with hv | hv
    · obtain ⟨hsame, hne⟩ := hgone hroot hinner v hv
      exact ⟨hsame ▸ List.mem_cons_self, hne⟩
    · exact ⟨List.mem_cons_of_mem _ (ih v hv).1, (ih v hv).2⟩
  | rootEnds hroot hinner hends =>
    intro v hv
    obtain ⟨hsame, hne⟩ := hgone hroot hinner v hv
    exact ⟨hsame ▸ List.mem_cons_self, hne⟩
  | unlisted hlist => simp

end Export

end AssetServer
