import AssetServer.Proofs.Amid

/-!
# Hosts without scratch directories

A compilation leaves every file as it was if no directory is there that is named like the scratch
directory it will make. On a settled host (`Host.Settled`) nothing is named so, and no link leads to
such a name; then writing to a path that has no such name leaves a settled host, whatever links the
path goes through.

- `Tree.find_vacant` says where the name of a new entry comes from: the path, or a link.
- `Settled.makeDirectories` and `Settled.put_target` are the two ways in which an export changes
  files.
-/

namespace AssetServer

/-- None of the names is that of a scratch directory. -/
def Unscratched (names : List String) : Prop :=
  ∀ m, Host.scratchName m ∉ names

theorem unscratched_append {names more : List String} :
    Unscratched (names ++ more) ↔ Unscratched names ∧ Unscratched more := by
  unfold Unscratched
  simp only [List.mem_append, not_or]
  exact forall_and

/-- A path has the name of a scratch directory among its parts only if it moves there. -/
theorem Unscratched.steps {p : Path} (h : Unscratched p.moves) : Unscratched p.steps := by
  intro m hm
  have hpart := Host.isPart_scratchName m
  refine h m ?_
  rw [Path.moves_eq_filter, List.mem_filter]
  refine ⟨hm, ?_⟩
  rw [Bool.and_eq_true, bne_iff_ne, bne_iff_ne, ← not_or]
  exact hpart.step

namespace Tree

variable {t t' : Tree} {cwd here loc : Location} {follow : Bool} {links : Nat} {p : Path}
  {n : String} {slash : Bool}

/-! ## §1 New names -/

/-- The missing name that a lookup ends at is a part of the path, or of what a link stands for. -/
theorem walk_vacant {P : String → Prop} {ps : List String}
    (hlinks : ∀ loc target, t.get? loc = some (.link target) → ∀ part ∈ Text.parts '/' target, P part)
    (hps : ∀ part ∈ ps, P part) (h : t.walk follow links here ps = .ok (.vacant loc n slash)) :
    P n := by
  fun_induction t.walk follow links here ps with
  | case2 links here part rest hskip ih => exact ih (fun q hq => hps q (by simp [hq])) h
  | case3 links here rest hstep ih => exact ih (fun q hq => hps q (by simp [hq])) h
  -- the one step that ends at a missing name
  | case5 links here part rest hstep hdown hshort next hnext hempty =>
    cases h
    exact hps n (by simp)
  | case7 links here part rest hstep hdown hshort next hnext ih =>
    exact ih (fun q hq => hps q (by simp [hq])) h
  -- parts of a link join those that are left
  | case12 here part rest hstep hdown hshort next target hnext hgo links start ih =>
    refine ih (fun q hq => ?_) h
    rcases List.mem_append.mp hq with hq | hq
    · exact hlinks next target hnext q hq
    · exact hps q (List.mem_cons_of_mem _ hq)
  | _ => simp_all

/-- Nothing is named like a scratch directory, and no link leads to such a name. -/
structure ScratchFree (t : Tree) : Prop where
  names : ∀ loc e, t.get? loc = some e → Unscratched loc
  links : ∀ loc target, t.get? loc = some (.link target) →
    Unscratched (Text.parts '/' target)

theorem ScratchFree.noScratch (h : t.ScratchFree) (T : Location) : t.NoScratch T := by
  intro m
  cases he : t.get? (T ++ [Host.scratchName m]) with
  | none => rfl
  | some e => exact absurd (by simp) (h.names _ e he m)

theorem ScratchFree.of_same (h : t.ScratchFree) (hsame : ∀ loc, t'.get? loc = t.get? loc) :
    t'.ScratchFree :=
  ⟨fun loc e he => h.names loc e ((hsame loc).symm.trans he),
    fun loc target hlink => h.links loc target ((hsame loc).symm.trans hlink)⟩

theorem ScratchFree.put {e : Entry} (h : t.ScratchFree) (hne : loc ≠ [])
    (hloc : Unscratched loc) (he : ∀ target, e ≠ .link target) :
    (t.put loc e).ScratchFree := by
  refine ⟨fun place e' hplace => ?_, fun place target hlink => ?_⟩
  · rw [get?_put hne] at hplace
    split at hplace
    · rename_i heq
      rw [heq]
      exact hloc
    · exact h.names place e' hplace
  · rw [get?_put hne] at hlink
    split at hlink
    · exact absurd (Option.some.inj hlink) (he target)
    · exact h.links place target hlink

/-- A name that is missing at the end of a path is that of no scratch directory if the path has no
    such name. -/
theorem find_vacant (h : t.ScratchFree) (hp : Unscratched p.moves)
    (hfind : t.find cwd follow p = .ok (.vacant loc n slash)) : Unscratched [n] := by
  obtain ⟨-, -, -, hwalk⟩ := find_ok hfind
  intro m hm
  have hother : n ≠ Host.scratchName m := by
    refine walk_vacant (P := fun part => part ≠ Host.scratchName m) ?_ ?_ hwalk
    · rintro loc target hlink part hpart rfl
      exact h.links loc target hlink m hpart
    · rintro part hpart rfl
      exact hp.steps m hpart
  exact hother (List.mem_singleton.mp hm).symm

/-! ## §2 New entries -/

theorem Leads.moves {q : Path} (h : Leads p q) (hp : Unscratched p.moves) :
    Unscratched q.moves := by
  induction h with
  | here => exact hp
  | up _ hparent ih => exact fun m hm => ih m (Path.mem_moves_of_parent hparent hm)

theorem makeDirectory_scratchFree (hwf : t.WellFormed) (hcwd : t.get? cwd = some .directory)
    (h : t.ScratchFree) (hp : Unscratched p.moves)
    (hmake : t.makeDirectory cwd p = .ok t') : t'.ScratchFree := by
  obtain ⟨dir, n, slash, hfind, rfl, hdir, -, -⟩ := makeDirectory_ok hwf hcwd hmake
  have hloc := unscratched_append.mpr ⟨h.names dir _ hdir, find_vacant h hp hfind⟩
  exact h.put (by simp) hloc (by simp)

theorem makeDirectories_scratchFree (hwf : t.WellFormed) (hcwd : t.get? cwd = some .directory)
    (h : t.ScratchFree) (hp : Unscratched p.moves) :
    Grown (fun _ => True) t (t.makeDirectories cwd p).2 ∧
      (t.makeDirectories cwd p).2.ScratchFree := by
  refine makeDirectoriesWithin_keeps (I := fun t₁ => Grown (fun _ => True) t t₁ ∧ t₁.ScratchFree)
    _ p ⟨.refl hwf, h⟩ ?_
  rintro t₁ t₂ q hq ⟨hgrown, hfree⟩ hmake
  have hcwd₁ := hgrown.partOf _ _ hcwd
  exact ⟨hgrown.trans (makeDirectory_grown hgrown.wellFormed hcwd₁ hmake),
    makeDirectory_scratchFree hgrown.wellFormed hcwd₁ hfree (hq.moves hp) hmake⟩

theorem target_scratchFree {mode mode' : Nat} (hwf : t.WellFormed)
    (hcwd : t.get? cwd = some .directory) (h : t.ScratchFree)
    (hp : Unscratched p.moves) (htarget : t.target cwd p mode = .ok (loc, mode')) :
    Unscratched loc := by
  rcases target_ok_iff.mp htarget with ⟨f, hfind, -⟩ | ⟨dir, n, hfind, rfl, -⟩
  · exact h.names loc _ (find_shows hwf hcwd hfind)
  · exact unscratched_append.mpr
      ⟨h.names _ _ (find_shows hwf hcwd hfind).1, find_vacant h hp hfind⟩

end Tree

/-! ## §3 Settled hosts -/

namespace Host

variable {h k : Host} {loc : Location} {p : Path}

/-- A host that is fit for compilations, and on which nothing is named like a scratch directory. -/
structure Settled (h : Host) : Prop where
  ready : h.Ready
  scratchFree : h.tree.ScratchFree

theorem Settled.of_keeps {G : Location → Prop} (hs : h.Settled) (ht : h.tree.Keeps k.tree)
    (hk : h.Beside G k) (hwf : k.tree.WellFormed) (hfree : k.tree.ScratchFree) : k.Settled :=
  ⟨(hs.ready.kept ht hk hwf (hfree.noScratch _)).1, hfree⟩

theorem Settled.quiet (hs : h.Settled) (hq : h.Quiet k) : k.Settled :=
  ⟨hq.ready, hs.scratchFree.of_same hq.get?⟩

theorem Settled.makeDirectories (hs : h.Settled) (hp : Unscratched p.moves) :
    Tree.Grown (fun _ => True) h.tree (h.tree.makeDirectories h.directory p).2 ∧
      Host.Settled { h with tree := (h.tree.makeDirectories h.directory p).2 } := by
  obtain ⟨hgrown, hfree⟩ := Tree.makeDirectories_scratchFree hs.ready.wellFormed
    hs.ready.directory hs.scratchFree hp
  refine ⟨hgrown, hs.of_keeps (.of_partOf hgrown.partOf) (G := fun _ => True) ?_ hgrown.wellFormed
    hfree⟩
  exact .withTree fun _ hfalse => absurd trivial hfalse

/-- A file may be put where writing to a path goes. -/
theorem Settled.put_target {mode mode' : Nat} (hs : h.Settled) (hp : Unscratched p.moves)
    (htarget : h.tree.target h.directory p mode = .ok (loc, mode')) (f : RegularFile) :
    Host.Settled { h with tree := h.tree.put loc (.file f) } := by
  have hwf := hs.ready.wellFormed
  have hcwd := hs.ready.directory
  have hloc := Tree.target_scratchFree hwf hcwd hs.scratchFree hp htarget
  have hput := hwf.put_target hcwd htarget f
  obtain ⟨dir, n, rfl, -, -, hplace⟩ := Tree.target_cases hwf hcwd htarget
  -- no directory and no link is replaced
  refine hs.of_keeps (.put (by simp) hplace) (G := fun place => place = dir ++ [n]) ?_ hput
    (hs.scratchFree.put (by simp) hloc (by simp))
  exact .withTree fun place hother => Tree.get?_put_of_ne _ hother _

/-- A file that is there may be filled. -/
theorem Settled.fill (hs : h.Settled) (loc : Location) (b : Bytes) :
    Host.Settled { h with tree := h.tree.fill h.now loc b } := by
  have hwf := hs.ready.wellFormed.fill h.now loc b
  cases he : h.tree.get? loc with
  | none =>
    unfold Tree.fill
    rw [he]
    exact hs
  | some e =>
    cases e with
    | file f =>
      rw [Tree.fill_of_file _ _ he] at hwf ⊢
      have hne := Tree.WellFormed.ne_nil_of_file he
      refine hs.of_keeps (.put hne (.inr ⟨f, he⟩)) (G := fun place => place = loc) ?_ hwf
        (hs.scratchFree.put hne (hs.scratchFree.names loc _ he) (by simp))
      exact .withTree fun place hother => Tree.get?_put_of_ne _ hother _
    | directory =>
      unfold Tree.fill
      rw [he]
      exact hs
    | link target =>
      unfold Tree.fill
      rw [he]
      exact hs

end Host

end AssetServer
