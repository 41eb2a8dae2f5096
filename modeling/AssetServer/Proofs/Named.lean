import AssetServer.Proofs.Placing

/-!
# Names are kept

Whatever is made, written or removed, the entries of a file system have names that a directory can
hold. This needs no promise about where tools write, and none about where links lead, only that
tools give no impossible names either (`Program.Named`).

- `Tree.Named.put` and `Tree.Named.of_partOf` are the changes of a file system.
- `Host.named_steps` makes it a relation that compilations keep.
- `Export.file_named` says the same of exporting a file.
-/

namespace AssetServer

/-! ## §1 Trees -/

namespace Tree

variable {t t' : Tree} {cwd here dir loc : Location} {n : String} {e : Entry} {p : Path}

theorem Named.of_partOf (hnamed : t.Named) (hpart : t'.PartOf t) : t'.Named :=
  ⟨fun he => hnamed.name (hpart _ _ he), fun he => hnamed.target (hpart _ _ he)⟩

theorem Named.put (hnamed : t.Named) (hn : IsName n) (htarget : ∀ text, e ≠ .link text) :
    (t.put (dir ++ [n]) e).Named := by
  have hne : dir ++ [n] ≠ [] := by simp
  refine ⟨fun {loc m e'} he => ?_, fun {loc text} he => ?_⟩
  · rw [get?_put hne] at he
    split at he
    · rename_i heq
      have hlast := (List.append_inj' heq rfl).2
      rw [List.cons.injEq] at hlast
      exact hlast.1 ▸ hn
    · exact hnamed.name he
  · rw [get?_put hne] at he
    split at he
    · exact absurd (Option.some.inj he) (htarget text)
    · exact hnamed.target he

theorem delete_partOf (t : Tree) (loc : Location) : (t.delete loc).PartOf t := by
  intro other e he
  by_cases hroot : other = []
  · rw [hroot, get?_nil] at he ⊢
    exact he
  · unfold get? delete at he
    rw [if_neg hroot, @lookup_filter_key _ fun l => !loc.isPrefixOf l] at he
    unfold get?
    rw [if_neg hroot]
    split at he
    · exact he
    · cases he

theorem Named.makeDirectory (hnamed : t.Named) (hmake : t.makeDirectory cwd p = .ok t') :
    t'.Named := by
  unfold Tree.makeDirectory at hmake
  split at hmake
  · cases hmake
  · rename_i hfind
    cases hmake
    exact hnamed.put (find_isName hnamed hfind) (by simp)
  · cases hmake

theorem Named.makeDirectories (hnamed : t.Named) (cwd : Location) (p : Path) :
    (t.makeDirectories cwd p).2.Named :=
  makeDirectoriesWithin_keeps _ p hnamed fun _ ht hmake => ht.makeDirectory hmake

/-- A lookup that ends at a file shows that file, from wherever it starts. -/
theorem walk_file_shown {follow : Bool} {links : Nat} {ps : List String} {f : RegularFile}
    (h : t.walk follow links here ps = .ok (.taken loc (.file f))) :
    t.get? loc = some (.file f) := by
  fun_induction t.walk follow links here ps with
  | case2 links here part rest hskip ih => exact ih h
  | case3 links here rest hstep ih => exact ih h
  | case7 links here part rest hstep hdown hshort next hnext ih => exact ih h
  | case8 links here part rest hstep hdown hshort next g hnext hlast =>
    rw [Except.ok.injEq, Spot.taken.injEq, Entry.file.injEq] at h
    rw [← h.1, ← h.2]
    exact hnext
  | case12 here part rest hstep hdown hshort next target hnext hgo links start ih => exact ih h
  | _ => simp_all

theorem Named.of_file {f : RegularFile} (hnamed : t.Named) (h : t.get? loc = some (.file f)) :
    ∃ dir n, loc = dir ++ [n] ∧ IsName n := by
  cases loc using List.reverseRecOn with
  | nil => exact absurd rfl (WellFormed.ne_nil_of_file h)
  | append_singleton dir n => exact ⟨dir, n, rfl, hnamed.name h⟩

/-- A file is written under a name. -/
theorem Named.put_target {mode mode' : Nat} (hnamed : t.Named)
    (h : t.target cwd p mode = .ok (loc, mode')) (f : RegularFile) :
    (t.put loc (.file f)).Named := by
  -- a file that is there has its name already, one that is not gets the last part of the path
  have hplace : ∃ dir n, loc = dir ++ [n] ∧ IsName n := by
    rcases target_ok_iff.mp h with ⟨g, hfind, -⟩ | ⟨dir, n, hfind, rfl, -⟩
    · exact hnamed.of_file (walk_file_shown (find_ok hfind).2.2.2)
    · exact ⟨dir, n, rfl, find_isName hnamed hfind⟩
  obtain ⟨dir, n, rfl, hn⟩ := hplace
  exact hnamed.put hn (by simp)

theorem Named.fill (hnamed : t.Named) (now : Instant) (loc : Location) (content : Bytes) :
    (t.fill now loc content).Named := by
  unfold Tree.fill
  split
  · rename_i f hfile
    obtain ⟨dir, n, rfl, hn⟩ := hnamed.of_file hfile
    exact hnamed.put hn (by simp)
  · exact hnamed

end Tree

/-! ## §2 Hosts -/

/-- The program gives no name that a directory cannot hold. -/
def Program.Named (run : Program) : Prop :=
  ∀ call t, t.Named → (run call t).tree.Named

namespace Host

/-- Nothing on the host has, or is given, a name that a directory cannot hold. -/
structure Named (h : Host) : Prop where
  tree : h.tree.Named
  programs : ∀ loc run, h.programs loc = some run → run.Named

variable {h k : Host}

theorem Named.withTree {t : Tree} (hnamed : h.Named) (ht : t.Named) :
    ({ h with tree := t } : Host).Named :=
  ⟨ht, hnamed.programs⟩

/-- Each step of a compilation leaves a host with good names, wherever its tools write. -/
theorem named_steps : StepRelation fun h k => h.Named → k.Named where
  refl _ := id
  trans _ _ _ hk hl hnamed := hl (hk hnamed)
  makeScratch h hnamed := by
    unfold AssetServer.makeScratch
    rw [runFrom_ofPair]
    simp only
    split
    · rename_i t hmake
      exact ⟨hnamed.tree.makeDirectory hmake, hnamed.programs⟩
    · exact hnamed
  removeScratch scratch h hnamed := by
    unfold AssetServer.removeScratch
    split
    · exact hnamed.withTree (hnamed.tree.of_partOf (Tree.delete_partOf _ _))
    · exact hnamed
  runInto p input o hnamed := by
    obtain ⟨journal, launches, data, broken, hprograms, hrun⟩ := p.runInto_run input o
    rw [hrun]
    -- the tools run one after another, each on what those before it have left
    refine ⟨Pipeline.executions_keeps o.host.now (fun l hl call t ht => ?_) data broken hnamed.tree,
      hnamed.programs⟩
    obtain ⟨loc, hloc⟩ := hprograms l hl
    exact hnamed.programs loc _ hloc call t ht

end Host

/-! ## §3 Exports -/

namespace Export

variable {k k' : Host} {p p' : Pass} {target source : Path}

theorem makeParent_named {result : Except Failure Unit} (hnamed : k.Named)
    (hrun : runFrom (Compiler.makeParent target) k = (result, k')) : k'.Named := by
  rcases makeParent_run hrun with ⟨-, rfl⟩ | ⟨up, -, rfl, -⟩
  · exact hnamed
  · exact hnamed.withTree (hnamed.tree.makeDirectories _ up)

theorem makeDestination_named {result : Except Failure Location} (hnamed : k.Named)
    (hrun : runFrom (makeDestination target) k = (result, k')) : k'.Named := by
  obtain ⟨rfl, -⟩ := makeDestination_run hrun
  exact hnamed.withTree (hnamed.tree.makeDirectories _ target)

theorem compileToFile_named {c : Compiler} {kind : Kind} {result : Except Failure Nat}
    (hnamed : k.Named) (hrun : runFrom (c.compileToFile kind source target) k = (result, k')) :
    k'.Named := by
  rcases compileToFile_run hrun with
    ⟨e, made, -, hparent⟩ | ⟨k₁, loc, mode, o, hparent, htarget, hcompile, rfl⟩
  · exact makeParent_named hnamed hparent
  · have hnamed₁ := makeParent_named hnamed hparent
    have hcompiled := Host.named_steps.compile c kind source
      ⟨{ k₁ with tree := k₁.tree.put loc (.file ⟨[], mode, k₁.now⟩) }, .unlimited⟩
      (hnamed₁.withTree (hnamed₁.tree.put_target htarget _))
    rw [hcompile] at hcompiled
    exact hcompiled.withTree (hcompiled.tree.fill _ _ _)

theorem copy_named {result : Except Failure Unit} (hnamed : p.host.Named)
    (hrun : runFrom (copy source target) p = (result, p')) : p'.host.Named := by
  cases hplace : p.host.tree.samePlace p.host.directory source target with
  | true =>
    rw [runFrom_copy_inPlace hplace, Prod.mk.injEq] at hrun
    obtain ⟨-, rfl⟩ := hrun
    exact hnamed
  | false =>
    rcases copy_run hplace hrun with
      ⟨e, made, k₁, -, hparent, rfl⟩ | ⟨k₁, f, loc, mode, -, hparent, -, htarget, rfl⟩
    · exact makeParent_named hnamed hparent
    · have hnamed₁ := makeParent_named hnamed hparent
      exact hnamed₁.withTree (hnamed₁.tree.put_target htarget _)

/-- Exporting a file leaves a host with good names. -/
theorem file_named (x : Export) (root : Path) (names : List String) :
    Moves (fun p p' => p.host.Named → p'.host.Named) (x.file root names) := by
  have hcount : ∀ f, Moves (fun p p' : Pass => p.host.Named → p'.host.Named)
      (ExportStep.count f) := fun f p => id
  have htrans : ∀ p q r : Pass, (p.host.Named → q.host.Named) →
      (q.host.Named → r.host.Named) → p.host.Named → r.host.Named :=
    fun p q r hq hr hp => hr (hq hp)
  unfold file
  simp only
  split
  -- a fragment is counted, a file copied, and any other source compiled to its output
  · exact hcount _
  · exact fun p hnamed => copy_named hnamed rfl
  · split
    · exact hcount _
    · refine .bind htrans (fun p hnamed => ?_) fun _ => .bind htrans (hcount _) fun _ p => id
      rw [runFrom_export]
      exact compileToFile_named hnamed rfl

end Export

end AssetServer
