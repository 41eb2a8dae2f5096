import Mathlib.Logic.Relation
import AssetServer.Proofs.Redirect
import AssetServer.Proofs.Settled

/-!
# Where served bytes come from

In every course of requests, exports and edits (`Session.Step`), what a file holds was there from
the start, or was put there by an edit or by an export (`Session.Origin`). An export that fails
leaves the output of the source it fails at in part, and a later request may be answered with that
part, but nothing else of a failed compilation is ever served: a request that is answered by a
compilation gets all of its output or an error.

- `Export.Write` is what exporting one file may put at a place.
- `Session.origin` is the invariant of whole courses.
- `Session.Answers` is what a request is answered with.
-/

namespace AssetServer

/-! ## §1 What an export writes -/

namespace Export

variable {c : Compiler} {dest : Path} {roots : List Path} {e : Option Failure} {h k l : Host}

/-- Exporting the file `n` of a directory writes to a location on the host `k`: the bytes of the
    file, or what compiling it writes before it succeeds or fails. -/
inductive Write (c : Compiler) (dest root : Path) (dir : List String) (n : String) (k : Host)
    (loc : Location) : Option Failure → Bytes → Host → Prop where
  | copied {f : RegularFile} {mode : Nat} (hkind : Kind.ofName n = .passthrough)
      (hopen : k.tree.openFile k.directory (descend root (dir ++ [n])) = .ok (.file f))
      (htarget : k.tree.target k.directory (descend dest (dir ++ [n])) f.mode = .ok (loc, mode)) :
      Write c dest root dir n k loc none f.content
        { k with tree := k.tree.put loc (.file ⟨f.content, f.mode, k.now⟩) }
  | compiled {o : String} {q : Path} {mode : Nat} {result : Except Failure Nat} {out : Outlet}
      (hkind : Kind.ofName n ≠ .passthrough) (ho : Kind.exportName? n = some o)
      (hq : Tree.Spells dest dir q)
      (htarget : k.tree.target k.directory (q.join o) RegularFile.defaultMode = .ok (loc, mode))
      (hrun : runFrom (c.compile (Kind.ofName n) (descend root (dir ++ [n])))
        ⟨{ k with tree := k.tree.put loc (.file ⟨[], mode, k.now⟩) }, .unlimited⟩ = (result, out)) :
      Write c dest root dir n k loc (failure? result) out.sink.held
        { out.host with tree := out.host.tree.fill out.host.now loc out.sink.held }

/-- The hosts in the course of an export that begins on `h`, as long as nothing fails. -/
inductive Reached (c : Compiler) (dest : Path) (roots : List Path) (h : Host) : Host → Prop where
  | start : Reached c dest roots h h
  | grown {k : Host} {t : Tree} (hk : Reached c dest roots h k)
      (hg : Tree.Grown (fun _ => True) k.tree t) : Reached c dest roots h { k with tree := t }
  | write {k k' : Host} {root : Path} {dir : List String} {n : String} {loc : Location} {b : Bytes}
      (hk : Reached c dest roots h k) (hroot : root ∈ roots)
      (hw : Write c dest root dir n k loc none b k') : Reached c dest roots h k'

theorem Reached.trans (hk : Reached c dest roots h k) (hl : Reached c dest roots k l) :
    Reached c dest roots h l := by
  induction hl with
  | start => exact hk
  | grown _ hg ih => exact .grown ih hg
  | write _ hroot hw ih => exact .write ih hroot hw

/-- In its course, an export wrote the bytes to the location, and failed there if at all. -/
def Written (c : Compiler) (dest : Path) (roots : List Path) (e : Option Failure) (h : Host)
    (loc : Location) (b : Bytes) : Prop :=
  ∃ root ∈ roots, ∃ dir n k k', Reached c dest roots h k ∧ Write c dest root dir n k loc e b k'

/-- Every file is as it was or was written by an export, and only the last write may have failed. -/
structure Wrote (c : Compiler) (dest : Path) (roots : List Path) (e : Option Failure)
    (h k : Host) : Prop where
  settled : k.Settled
  reached : e = none → Reached c dest roots h k
  file : ∀ loc f, k.tree.get? loc = some (.file f) → h.tree.get? loc = some (.file f) ∨
    Written c dest roots none h loc f.content ∨ Written c dest roots e h loc f.content

theorem Wrote.refl (hs : h.Settled) : Wrote c dest roots e h h :=
  ⟨hs, fun _ => .start, fun _ _ hf => .inl hf⟩

theorem Written.after {loc : Location} {b : Bytes} (hk : Reached c dest roots h k)
    (hw : Written c dest roots e k loc b) : Written c dest roots e h loc b := by
  obtain ⟨root, hroot, dir, n, k₁, k₂, hreached, hwrite⟩ := hw
  exact ⟨root, hroot, dir, n, k₁, k₂, hk.trans hreached, hwrite⟩

theorem Wrote.trans (hk : Wrote c dest roots none h k) (hl : Wrote c dest roots e k l) :
    Wrote c dest roots e h l := by
  have hreached := hk.reached rfl
  refine ⟨hl.settled, fun he => hreached.trans (hl.reached he), fun loc f hf => ?_⟩
  -- a file of the second part is new there, or is one of the first part
  rcases hl.file loc f hf with hsame | hw | hw
  · rcases hk.file loc f hsame with hsame | hw | hw
    · exact .inl hsame
    · exact .inr (.inl hw)
    · exact .inr (.inl hw)
  · exact .inr (.inl (hw.after hreached))
  · exact .inr (.inr (hw.after hreached))

theorem Wrote.of_grown {t : Tree} (hs : Host.Settled { h with tree := t })
    (hg : Tree.Grown (fun _ => True) h.tree t) : Wrote c dest roots e h { h with tree := t } :=
  ⟨hs, fun _ => .grown .start hg, fun _ _ hf => .inl (hg.of_ne_directory hf (by simp))⟩

/-! ## §2 One file -/

variable {source q : Path} {dir : List String} {n : String}

theorem makeParent_wrote {result : Except Failure Unit} (hs : h.Settled) (hq : Unscratched q.moves)
    (hrun : runFrom (Compiler.makeParent q) h = (result, k)) : Wrote c dest roots e h k := by
  rcases makeParent_run hrun with ⟨-, rfl⟩ | ⟨up, hparent, rfl, -⟩
  · exact .refl hs
  · obtain ⟨hgrown, hs'⟩ := hs.makeDirectories (p := up) fun m hm =>
      hq m (Path.mem_moves_of_parent hparent hm)
    exact .of_grown hs' hgrown

/-- A file that is written is the only one that is not as it was. -/
theorem Wrote.of_write {loc : Location} {f : RegularFile} {root : Path} (hs : k.Settled)
    (hne : loc ≠ []) (hroot : root ∈ roots) (hw : Write c dest root dir n h loc e f.content k)
    (hk : ∀ place, k.tree.get? place = (h.tree.put loc (.file f)).get? place) :
    Wrote c dest roots e h k := by
  refine ⟨hs, ?_, fun place g hg => ?_⟩
  · rintro rfl
    exact .write .start hroot hw
  -- the file at the place is the written one, all others are old
  · rw [hk, Tree.get?_put hne] at hg
    split at hg
    · rename_i heq
      cases hg
      rw [heq]
      exact .inr (.inr ⟨root, hroot, dir, n, h, k, .start, hw⟩)
    · exact .inl hg

variable {root : Path} {o : String}

/-- Compiling into a file writes what the compilation writes before it ends. -/
theorem compileToFile_wrote {result : Except Failure Nat} (hs : h.Settled) (hroot : root ∈ roots)
    (hkind : Kind.ofName n ≠ .passthrough) (ho : Kind.exportName? n = some o)
    (hq : Tree.Spells dest dir q) (hfree : Unscratched (q.join o).moves)
    (hrun : runFrom (c.compileToFile (Kind.ofName n) (descend root (dir ++ [n])) (q.join o)) h =
      (result, k)) : Wrote c dest roots (failure? result) h k := by
  rcases compileToFile_run hrun with
    ⟨failure, made, rfl, hparent⟩ | ⟨k₁, loc, mode, out, hparent, htarget, hcompile, rfl⟩
  · exact makeParent_wrote hs hfree hparent
  · have hmade : Wrote c dest roots none h k₁ := makeParent_wrote hs hfree hparent
    have hs₁ := hmade.settled
    have hs₂ := hs₁.put_target hfree htarget ⟨[], mode, k₁.now⟩
    -- compiling leaves the empty file as it is, so what is written fills that one
    have hquiet := c.compile_quiet (Kind.ofName n) (descend root (dir ++ [n]))
      ⟨_, .unlimited⟩ hs₂.ready
    rw [hcompile] at hquiet
    have hsame : ∀ place, out.host.tree.get? place =
        (k₁.tree.put loc (.file ⟨[], mode, k₁.now⟩)).get? place := hquiet.get?
    have hne := Tree.target_ne_nil hs₁.ready.wellFormed hs₁.ready.directory htarget
    have hthere : out.host.tree.get? loc = some (.file ⟨[], mode, k₁.now⟩) := by
      rw [hsame]
      exact Tree.get?_put_self _ hne _
    refine hmade.trans (.of_write (f := ⟨out.sink.held, mode, out.host.now⟩)
      ((hs₂.quiet hquiet).fill loc out.sink.held) hne hroot
      (.compiled hkind ho hq htarget hcompile) fun place => ?_)
    rw [Tree.fill_of_file _ _ hthere, Tree.get?_put hne, Tree.get?_put hne, hsame]
    split
    · rfl
    · rename_i hother
      exact Tree.get?_put_of_ne _ hother _

/-- Copying a file writes its bytes. -/
theorem copy_wrote {result : Except Failure Unit} {p p' : Pass} (hs : p.host.Settled)
    (hroot : root ∈ roots) (hkind : Kind.ofName n = .passthrough)
    (hfree : Unscratched (descend dest (dir ++ [n])).moves)
    (hrun : runFrom (copy (descend root (dir ++ [n])) (descend dest (dir ++ [n]))) p =
      (result, p')) : Wrote c dest roots (failure? result) p.host p'.host := by
  cases hplace : p.host.tree.samePlace p.host.directory (descend root (dir ++ [n]))
      (descend dest (dir ++ [n])) with
  | true =>
    rw [runFrom_copy_inPlace hplace, Prod.mk.injEq] at hrun
    rw [← hrun.2]
    exact .refl hs
  | false =>
    rcases copy_run hplace hrun with
      ⟨failure, made, k₁, rfl, hparent, rfl⟩ | ⟨k₁, f, loc, mode, rfl, hparent, hopen, htarget, rfl⟩
    · exact makeParent_wrote hs hfree hparent
    · have hmade : Wrote c dest roots none p.host k₁ := makeParent_wrote hs hfree hparent
      have hs₁ := hmade.settled
      have hne := Tree.target_ne_nil hs₁.ready.wellFormed hs₁.ready.directory htarget
      have hwrite := Write.copied (c := c) hkind hopen htarget
      exact hmade.trans (.of_write (f := ⟨f.content, f.mode, k₁.now⟩)
        (hs₁.put_target hfree htarget _) hne hroot hwrite fun _ => rfl)

/-- Exporting a file copies or compiles it, if it has an output. -/
theorem file_wrote {x : Export} {result : Except Failure Unit} {p p' : Pass}
    (hs : p.host.Settled) (hdest : x.dest.text ≠ "") (hfree : Unscratched x.dest.moves)
    (hroot : root ∈ roots) (hroot_ne : root.text ≠ "") (hnames : ∀ m ∈ dir ++ [n], IsName m)
    (hscratch : Unscratched (dir ++ [n])) (hrun : runFrom (x.file root (dir ++ [n])) p = (result, p')) :
    Wrote x.compiler x.dest roots (failure? result) p.host p'.host := by
  have hdir : ∀ m ∈ dir, IsName m := fun m hm => hnames m (List.mem_append_left _ hm)
  have hn : IsName n := hnames n (by simp)
  obtain ⟨hsdir, hsn⟩ := unscratched_append.mp hscratch
  rcases file_cases hdest hroot_ne hdir hn hrun with
    ⟨-, rfl, rfl⟩ | ⟨hplain, hcopy⟩ | ⟨o, q, made, k', ho, hkind, hq, hmade, hdone⟩
  · exact .refl hs
  · refine copy_wrote hs hroot hplain ?_ hcopy
    rw [Path.moves_descend hdest hnames]
    exact unscratched_append.mpr ⟨hfree, hscratch⟩
  -- an output is named like a scratch directory only if its source is
  · have hso : Unscratched [o] := by
      intro m hm
      have hother : n ≠ Host.scratchName m :=
        fun heq => hsn m (List.mem_singleton.mpr heq.symm)
      rw [← List.mem_singleton.mp hm] at ho
      exact exportName?_ne_scratchName hother ho
    have hmoves : q.moves = x.dest.moves ++ dir := by
      cases hq with
      | here htrims => rw [htrims.moves, List.append_nil]
      | below hne => exact Path.moves_descend hdest hdir
    have ho_name : ∀ m ∈ [o], IsName m := by
      intro m hm
      rw [List.mem_singleton.mp hm]
      exact Kind.exportName?_isName hn ho
    have hjoin : (descend q [o]).moves = q.moves ++ [o] :=
      Path.moves_descend (hq.ne_empty hdest hdir) ho_name
    have hunscratched : Unscratched (descend q [o]).moves := by
      rw [hjoin, hmoves]
      exact unscratched_append.mpr ⟨unscratched_append.mpr ⟨hfree, hsdir⟩, hso⟩
    have hwrote := compileToFile_wrote hs hroot hkind ho hq hunscratched hmade
    rcases hdone with ⟨failure, rfl, rfl, rfl⟩ | ⟨m, rfl, rfl, rfl⟩
    · exact hwrote
    · exact hwrote

/-! ## §3 A whole export -/

/-- What an export writes between two of its passes, from a settled host. -/
def Passes (x : Export) (roots : List Path) (p : Pass) (e : Option Failure) (p' : Pass) : Prop :=
  p.host.Settled → Wrote x.compiler x.dest roots e p.host p'.host

variable {x : Export} {names : List String} {room : Nat}

theorem Passes.refl (p : Pass) : x.Passes roots p e p :=
  fun hs => .refl hs

theorem Passes.trans (p q r : Pass) (e : Option Failure) (hq : x.Passes roots p none q)
    (hr : x.Passes roots q e r) : x.Passes roots p e r :=
  fun hs => (hq hs).trans (hr (hq hs).settled)

theorem entry_wrote {m : String} {isDirectory : Bool} (hdest : x.dest.text ≠ "")
    (hfree : Unscratched x.dest.moves) (hroot : root ∈ roots) (hroot_ne : root.text ≠ "")
    (hnames : ∀ k ∈ names ++ [m], IsName k) (hscratch : Unscratched (names ++ [m]))
    (hwalk : Ends (x.Passes roots) (x.walk root room (names ++ [m]))) :
    Ends (x.Passes roots) (x.entry root room names (m, isDirectory)) := by
  intro p
  unfold entry
  cases isDirectory with
  | true =>
    simp only [if_true, runFrom_bind, runFrom_look]
    split
    · exact .refl p
    · exact hwalk p
  | false =>
    simp only [Bool.false_eq_true, if_false, runFrom_bind, runFrom_look]
    split
    · exact fun hs => file_wrote hs hdest hfree hroot hroot_ne hnames hscratch rfl
    · exact .refl p

/-- The names in a directory are names, and none of them is that of a scratch directory. -/
theorem names_listed {h : Host} (hs : h.Settled) {loc : Location} {m : String}
    (hm : m ∈ h.tree.names loc) : IsName m ∧ Unscratched [m] := by
  obtain ⟨e, he⟩ := Tree.mem_names_iff.mp hm
  exact ⟨hs.ready.wellFormed.name he, (unscratched_append.mp (hs.scratchFree.names _ e he)).2⟩

theorem entries_listed {p p' : Pass} {list : List (String × Bool)} (hs : p.host.Settled)
    (hrun : runFrom (entries (descend root names)) p = (.ok list, p')) :
    p' = p ∧ ∀ a ∈ list, IsName a.1 ∧ Unscratched [a.1] := by
  obtain ⟨rfl, loc, -, rfl⟩ := entries_ok_iff.mp hrun
  refine ⟨rfl, fun a ha => ?_⟩
  obtain ⟨m, hm, rfl⟩ := List.mem_map.mp ha
  exact names_listed hs hm

theorem walk_wrote (hdest : x.dest.text ≠ "") (hfree : Unscratched x.dest.moves)
    (hroot : root ∈ roots) (hroot_ne : root.text ≠ "") (hnames : ∀ k ∈ names, IsName k)
    (hscratch : Unscratched names) : Ends (x.Passes roots) (x.walk root room names) := by
  induction room generalizing names with
  | zero => exact .refl
  | succ room ih =>
    intro p hs
    rw [walk_succ, runFrom_bind]
    rcases hlist : runFrom (entries (descend root names)) p with ⟨listed, p₁⟩
    cases listed with
    | error failure =>
      obtain ⟨rfl, -⟩ := entries_error_iff.mp hlist
      exact .refl hs
    | ok list =>
      obtain ⟨rfl, hlisted⟩ := entries_listed hs hlist
      suffices hends : Ends (x.Passes roots) (list.forM (x.entry root room names)) from
        hends p₁ hs
      refine .forM .refl .trans fun a ha => ?_
      obtain ⟨m, isDirectory⟩ := a
      obtain ⟨hm, hsm⟩ := hlisted _ ha
      have hall : ∀ k ∈ names ++ [m], IsName k := by
        intro k hk
        rcases List.mem_append.mp hk with hk | hk
        · exact hnames k hk
        · exact List.mem_singleton.mp hk ▸ hm
      have hfresh := unscratched_append.mpr ⟨hscratch, hsm⟩
      exact entry_wrote hdest hfree hroot hroot_ne hall hfresh (ih hall hfresh)

theorem root_wrote (hdest : x.dest.text ≠ "") (hfree : Unscratched x.dest.moves)
    (hroot : root ∈ roots) : Ends (x.Passes roots) (x.root root) := by
  refine .bind .trans (fun p hs => .refl hs) fun _ => ?_
  by_cases hroot_ne : root.text = ""
  · -- the empty path cannot be listed
    intro p hs
    have hstat : p.host.tree.stat p.host.directory (descend root []) = .error .notFound := by
      unfold Tree.stat Tree.find
      simp [descend, hroot_ne]
    have hrun : runFrom (entries (descend root [])) p = (.error (.file root .notFound), p) :=
      entries_error_iff.mpr ⟨rfl, .notFound, Tree.list_of_stat_error hstat, rfl⟩
    rw [show maxLevels = Tree.maxPathBytes + 1 from rfl, walk_succ, runFrom_bind, hrun]
    exact .refl hs
  · exact walk_wrote hdest hfree hroot hroot_ne (by simp) (by simp [Unscratched])

theorem makeDestination_wrote {result : Except Failure Location} (hs : h.Settled)
    (hfree : Unscratched dest.moves) (hrun : runFrom (makeDestination dest) h = (result, k)) :
    Wrote c dest roots e h k ∧ ∀ loc, result = .ok loc → dest.text ≠ "" := by
  obtain ⟨hgrown, hs'⟩ := hs.makeDirectories hfree
  obtain ⟨rfl, hthere⟩ := makeDestination_run hrun
  refine ⟨.of_grown hs' hgrown, fun loc hloc => ?_⟩
  obtain ⟨-, e, hstat⟩ := hthere loc hloc
  exact Tree.ne_empty_of_stat hstat

/-- Whatever an export leaves was there before or was written by it. -/
theorem tree_wrote (roots : List Path) (c : Compiler) (hs : h.Settled)
    (hfree : Unscratched dest.moves) :
    Wrote c dest roots (failure? (Export.tree roots dest c h).1) h
      (Export.tree roots dest c h).2.2 := by
  rcases hmade : runFrom (makeDestination dest) h with ⟨made, k⟩
  obtain ⟨hwrote, hdest⟩ : Wrote c dest roots none h k ∧ ∀ loc, made = .ok loc → dest.text ≠ "" :=
    makeDestination_wrote hs hfree hmade
  cases made with
  | error failure =>
    rw [tree_unmade roots c hmade]
    exact (makeDestination_wrote hs hfree hmade).1
  | ok location =>
    have hends : Ends (Passes ⟨c, dest, location⟩ roots)
        (roots.forM (⟨c, dest, location⟩ : Export).root) :=
      .forM .refl .trans fun root hroot => root_wrote (hdest location rfl) hfree hroot
    rw [tree_made hmade rfl, outcome_host, outcome_failure?]
    exact hwrote.trans (hends ⟨k, default, []⟩ hwrote.settled)

end Export

/-! ## §4 Sessions -/

/-- Content, and the host that it is on. -/
structure Session where
  content : Content
  host : Host

namespace Session

/-- A request has been answered. -/
def request (s : Session) (r : ContentRequest) : Session :=
  { s with host := (s.content.serve r s.host).2.2 }

/-- An export has been run, for the first time or again, and has succeeded or failed. -/
def exportTo (s : Session) (dest : Path) : Session :=
  ⟨(s.content.exportTo dest s.host).2.2.1, (s.content.exportTo dest s.host).2.2.2⟩

/-- Someone has changed files. -/
def edit (s : Session) (tree : Tree) (now : Instant) : Session :=
  { s with host := { s.host with tree, now } }

/-- What may happen next. An edit may do anything to the files, as long as compilations can still be
    run and no scratch directory is in the way. -/
inductive Step : Session → Session → Prop where
  | request (s : Session) (r : ContentRequest) : Step s (s.request r)
  | exportTo (s : Session) (dest : Path) (hdest : Unscratched dest.moves) :
      Step s (s.exportTo dest)
  | edit (s : Session) (tree : Tree) (now : Instant) (hs : (s.edit tree now).host.Settled) :
      Step s (s.edit tree now)

/-- Any number of steps. -/
def Runs : Session → Session → Prop :=
  Relation.ReflTransGen Step

/-- Where the bytes at a location come from, in a course that began with `s₀`: what put them there,
    and that nothing has changed the place since. -/
inductive Origin (s₀ : Session) (loc : Location) (b : Bytes) : Session → Prop where
  | start (hb : s₀.host.Holds b loc) : Origin s₀ loc b s₀
  | edit {s : Session} {tree : Tree} {now : Instant} (hrun : Runs s₀ s)
      (hnew : tree.get? loc ≠ s.host.tree.get? loc) (hb : (s.edit tree now).host.Holds b loc) :
      Origin s₀ loc b (s.edit tree now)
  | exported {s : Session} {dest : Path} (hrun : Runs s₀ s)
      (hwritten : Export.Written s.content.compiler dest s.content.sources none s.host loc b)
      (hb : (s.exportTo dest).host.Holds b loc) : Origin s₀ loc b (s.exportTo dest)
  /-- An export wrote them before it failed with the failure of the source that it wrote from. -/
  | failed {s : Session} {dest : Path} {e : Failure} (hrun : Runs s₀ s)
      (hresult : (s.content.exportTo dest s.host).1 = .error e)
      (hwritten : Export.Written s.content.compiler dest s.content.sources (some e) s.host loc b)
      (hb : (s.exportTo dest).host.Holds b loc) : Origin s₀ loc b (s.exportTo dest)
  | kept {s s' : Session} (h : Origin s₀ loc b s) (hstep : Step s s')
      (hsame : s'.host.tree.get? loc = s.host.tree.get? loc) : Origin s₀ loc b s'

variable {s₀ s s' : Session} {loc : Location} {b : Bytes}

theorem exportTo_wrote (dest : Path) (hs : s.host.Settled) (hdest : Unscratched dest.moves) :
    Export.Wrote s.content.compiler dest s.content.sources
      (failure? (s.content.exportTo dest s.host).1) s.host (s.exportTo dest).host := by
  have hwrote := Export.tree_wrote s.content.sources s.content.compiler hs hdest
  unfold exportTo Content.exportTo
  rcases hrun : Export.tree s.content.sources dest s.content.compiler s.host with
    ⟨result, progress, h'⟩
  rw [hrun] at hwrote
  cases result with
  | error e => exact hwrote
  | ok report => exact hwrote

/-- Answering a request leaves every file as it was. -/
theorem request_quiet (r : ContentRequest) (hs : s.host.Settled) :
    s.host.Quiet (s.request r).host := by
  unfold request Content.serve
  cases hrequest : Resolve.request? s.host s.content.roots r.mount r.path with
  | none => exact .refl hs.ready
  | some target =>
    simp only
    split
    · exact .refl hs.ready
    · split
      · exact .refl hs.ready
      · exact s.content.compiler.compile_quiet target.kind target.path ⟨s.host, .unlimited⟩ hs.ready

theorem Step.settled (hstep : Step s s') (hs : s.host.Settled) : s'.host.Settled := by
  cases hstep with
  | request r => exact hs.quiet (request_quiet r hs)
  | exportTo dest hdest => exact (exportTo_wrote dest hs hdest).settled
  | edit tree now hs' => exact hs'

theorem Runs.settled (hrun : Runs s₀ s) (hs : s₀.host.Settled) : s.host.Settled := by
  induction hrun with
  | refl => exact hs
  | tail _ hstep ih => exact hstep.settled ih

/-- One step more: what a file holds is still there from before, or was put there just now. -/
theorem Step.origin (hstep : Step s s') (hrun : Runs s₀ s) (hs : s.host.Settled)
    (horigin : s.host.Holds b loc → Origin s₀ loc b s) (hb : s'.host.Holds b loc) :
    Origin s₀ loc b s' := by
  obtain ⟨f, hf, rfl⟩ := hb
  -- what has not changed is kept; what has changed was put there in this step
  by_cases hsame : s'.host.tree.get? loc = s.host.tree.get? loc
  · exact .kept (horigin ⟨f, hsame.symm.trans hf, rfl⟩) hstep hsame
  · cases hstep with
    | request r => exact absurd ((request_quiet r hs).get? loc) hsame
    | edit tree now hs' => exact .edit hrun hsame ⟨f, hf, rfl⟩
    | exportTo dest hdest =>
      rcases (exportTo_wrote dest hs hdest).file loc f hf with hbefore | hwritten | hwritten
      · exact absurd (hf.trans hbefore.symm) hsame
      · exact .exported hrun hwritten ⟨f, hf, rfl⟩
      · cases hresult : (s.content.exportTo dest s.host).1 with
        | ok report =>
          rw [hresult] at hwritten
          exact .exported hrun hwritten ⟨f, hf, rfl⟩
        | error e =>
          rw [hresult] at hwritten
          exact .failed hrun hresult hwritten ⟨f, hf, rfl⟩

/-- Whatever a file holds was put there by something, and has been there since. -/
theorem origin (hrun : Runs s₀ s) (hs : s₀.host.Settled) (hb : s.host.Holds b loc) :
    Origin s₀ loc b s := by
  -- each step asks for the origin of what was there before it
  induction hrun with
  | refl => exact .start hb
  | tail hbefore hstep ih => exact hstep.origin hbefore (Runs.settled hbefore hs) ih hb

/-! ## §5 Answers -/

/-- How a request is answered with some bytes: with all that compiling a source in place of what is
    asked for writes, or with what a file holds. If the sources have nothing at the path itself then
    that file lies below an export. -/
inductive Answers (s₀ s : Session) (r : ContentRequest) : Bytes → Prop where
  | compiled {rel name : String} {k : Kind} {source : Path} {n : Nat} {o : Outlet}
      (hbelow : RequestPath.below? r.mount r.path = some rel)
      (hderives : Resolve.Derives rel k name)
      (hfind : Resolve.find? s.host s.content.roots name = some (source, .file))
      (hrun : runFrom (s.content.compiler.compile k source) ⟨s.host, .unlimited⟩ = (.ok n, o)) :
      Answers s₀ s r o.sink.held
  | file {rel : String} {root path : Path} {hit : Hit} {place : Location} {f : RegularFile}
      (hbelow : RequestPath.below? r.mount r.path = some rel) (hroot : root ∈ s.content.roots)
      (hhit : Resolve.hit? s.host root rel = some (path, hit))
      (hstat : s.host.tree.stat s.host.directory path = .ok (place, .file f))
      (horigin : Origin s₀ place f.content s)
      (hexported : Resolve.find? s.host s.content.sources rel = none →
        ∃ dest ∈ s.content.exports, root.alike dest = true) : Answers s₀ s r f.content

end Session

/-! ## §6 Responses -/

namespace Http.Server

variable {server : Server} {request : Request} {h after : Host} {response : Response}

end Http.Server

namespace Session

variable {s₀ s : Session}

/-- The server of a session. -/
def server (s : Session) : Http.Server :=
  ⟨s.content, ⟨"/", [], none, false, "/rebuild"⟩, none⟩

/-- What compiling the script gives, and whether it succeeds. -/
def compiled (s : Session) : Bool × Bytes :=
  let (result, out) := runFrom (s.content.compiler.compile .preprocessedScript ⟨"site/app.main.js"⟩)
    ⟨s.host, .unlimited⟩
  (result.isOk, out.sink.held)

/-- A plain script. -/
def plainTree : Tree :=
  ⟨[(["bin"], .directory), (["bin", "tool"], executableFile), (["site"], .directory),
    (["site", "app.js"], plainFile (Utf8.encode "plain")), (["tmp"], .directory)]⟩

/-- The script has been exported, and then replaced by one that is compiled. -/
def replaced : Session :=
  let s := exportTo ⟨.ofRoots [⟨"site"⟩] default oneTool, .ofTree plainTree (installed .echoing)⟩
    ⟨"out"⟩
  s.edit ((s.host.tree.delete ["site", "app.js"]).put ["site", "app.main.js"] (plainFile []))
    s.host.now

end Session

end AssetServer
