import AssetServer.Proofs.Agreement
import AssetServer.Proofs.Walking

/-!
# What an export leaves

The result of an export is that of its visits, taken in order (`Export.tree_folds`): the place of an
output holds what its last source gives, other places are as they were, and the counts add up. This
holds wherever the destination lies, also in a root or at one, and for an export that fails up to
the file it fails at.

Three things have to be said with care. The directories that the path of the destination goes
through are made where they are missing, and they lie outside of it. A source is compiled while its
output is there and empty, so a source that reads its own output does not find what was there
before. And a file whose path is too long is not visited.
-/

namespace AssetServer

/-! ## §1 The components of a source -/

namespace Path

variable {p : Path} {n : String} {names : List String}

end Path

/-! ## §2 Making the destination -/

namespace Tree

variable {t t' : Tree} {cwd : Location} {p : Path}

/-- A directory that was made is where its path leads. -/
theorem makeDirectory_leads (hwf : t.WellFormed) (hcwd : t.get? cwd = some .directory)
    (h : t.makeDirectory cwd p = .ok t') :
    Grown (fun _ => True) t t' ∧ ∃ made, t'.stat cwd p = .ok (made, .directory) ∧
      t.get? made = none ∧ ∀ loc, loc ≠ made → t'.get? loc = t.get? loc := by
  have hgrown := makeDirectory_grown hwf hcwd h
  obtain ⟨dir, n, slash, hfind, rfl, -, hnone, -⟩ := makeDirectory_ok hwf hcwd h
  refine ⟨hgrown, dir ++ [n], ?_, hnone, fun loc hloc => get?_put_of_ne t hloc _⟩
  exact stat_filled hfind hgrown.partOf (get?_put_self t (by simp) _) (.inl rfl)

/-- A place is as it was, or it is now a directory that the path leads to or goes through. -/
def GrownOn (t t' : Tree) (cwd : Location) (p : Path) (loc : Location) : Prop :=
  t'.get? loc = t.get? loc ∨
    t.get? loc = none ∧ ∃ q, Leads p q ∧ t'.stat cwd q = .ok (loc, .directory)

/-- What making directories adds are directories that the path leads to or goes through. -/
theorem makeDirectories_grownOn (p : Path) (hwf : t.WellFormed) (hcwd : t.get? cwd = some .directory) :
    Grown (fun _ => True) t (t.makeDirectories cwd p).2 ∧
      ∀ loc, GrownOn t (t.makeDirectories cwd p).2 cwd p loc := by
  refine makeDirectoriesWithin_keeps (I := fun t₁ => Grown (fun _ => True) t t₁ ∧
    ∀ loc, GrownOn t t₁ cwd p loc) _ p ⟨.refl hwf, fun _ => .inl rfl⟩ ?_
  rintro t₁ t₂ q hq ⟨hgrown, hon⟩ hmake
  obtain ⟨hgrown', made, hstat, hnone, hother⟩ :=
    makeDirectory_leads hgrown.wellFormed (hgrown.partOf _ _ hcwd) hmake
  refine ⟨hgrown.trans hgrown', fun loc => ?_⟩
  -- a place that is new was made at an earlier path or is made at this one
  rcases hon loc with hsame | ⟨hnone', q', hq', hleads⟩
  · by_cases hloc : loc = made
    · subst hloc
      exact .inr ⟨hsame ▸ hnone, q, hq, hstat⟩
    · exact .inl ((hother loc hloc).trans hsame)
  · exact .inr ⟨hnone', q', hq', stat_of_partOf hleads hgrown'.partOf⟩

/-- Making directories ends at a directory, unless the path is empty. -/
theorem makeDirectories_ok (hwf : t.WellFormed) (hcwd : t.get? cwd = some .directory)
    (h : t.makeDirectories cwd p = (.ok (), t')) (hne : p.text ≠ "") :
    ∃ loc, t'.stat cwd p = .ok (loc, .directory) := by
  obtain ⟨t₁, hbefore, hattempt⟩ :=
    makeDirectoriesWithin_attempt t cwd (p.text.length + 1) p
  have hgrown : Grown (fun _ => True) t t₁ := by
    rcases hbefore with rfl | ⟨room, dir, -, -, rfl⟩
    · exact .refl hwf
    · exact makeDirectoriesWithin_grown room dir hwf hcwd
  unfold makeDirectories at h
  rw [h] at hattempt
  cases hattempt with
  | empty hempty => exact absurd hempty hne
  | there hthere => exact isDirectory_iff.mp hthere
  | makes hmake =>
    obtain ⟨-, made, hstat, -⟩ :=
      makeDirectory_leads hgrown.wellFormed (hgrown.partOf _ _ hcwd) hmake
    exact ⟨made, hstat⟩

end Tree

namespace Export

variable {x : Export} {h made h' : Host} {dest : Path} {D : Location} {compiler : Compiler}

/-- A destination at `D`: making it gives the host `made`, and leaves the names of scratch
    directories free. -/
structure Destined (h : Host) (dest : Path) (D : Location) (made : Host) : Prop where
  makes : (makeDestination dest).runOn h = (.ok D, made)
  noScratch : made.tree.NoScratch h.temporary
  clear : D <+: h.temporary → ∀ loc m, made.tree.get? (loc ++ [Host.scratchName m]) = none

/-- The host on which an export begins. -/
theorem Destined.grown (hd : Destined h dest D made) (hready : h.Ready) :
    ∃ t, made = { h with tree := t } ∧ Tree.Grown (fun _ => True) h.tree t ∧
      (∀ loc, Tree.GrownOn h.tree t h.directory dest loc) ∧
      t.stat h.directory dest = .ok (D, .directory) := by
  have hmade := hd.makes
  rw [Act.runOn_eq] at hmade
  obtain ⟨rfl, hthere⟩ := makeDestination_run hmade
  obtain ⟨hok, e, hstat⟩ := hthere D rfl
  obtain ⟨hgrown, hleads⟩ :=
    Tree.makeDirectories_grownOn dest hready.wellFormed hready.directory
  refine ⟨_, rfl, hgrown, hleads, ?_⟩
  have hne : dest.text ≠ "" := Tree.ne_empty_of_stat hstat
  obtain ⟨loc, hloc⟩ :=
    Tree.makeDirectories_ok hready.wellFormed hready.directory (Prod.ext hok rfl) hne
  rw [hstat] at hloc
  cases hloc
  exact hstat

theorem Destined.underway (hd : Destined h dest D made) (hready : h.Ready)
    (hfree : h.tree.LinkFree D) : Underway ⟨compiler, dest, D⟩ made := by
  have hnone := hd.noScratch
  have hclear := hd.clear
  obtain ⟨t, rfl, hgrown, -, hstat⟩ := hd.grown hready
  have hbeside : h.Beside (fun _ => True) { h with tree := t } :=
    .withTree fun _ hfalse => absurd trivial hfalse
  obtain ⟨hready', htemporary⟩ := hready.kept (.of_partOf hgrown.partOf) hbeside hgrown.wellFormed hnone
  refine ⟨hready', hgrown.linkFree hfree, hstat, fun hbelow => ?_⟩
  rw [htemporary] at hbelow
  exact hclear hbelow

theorem Destined.amid (hd : Destined h dest D made) (hready : h.Ready)
    (hfree : h.tree.LinkFree []) : Amid ⟨compiler, dest, D⟩ made := by
  have hu : Underway ⟨compiler, dest, D⟩ made := hd.underway hready (hfree.below D)
  obtain ⟨t, rfl, hgrown, -⟩ := hd.grown hready
  exact ⟨hu.ready, hgrown.linkFree hfree, hu.dest, hu.clear⟩

/-! ## §3 What an export leaves -/

/-- The course of an export that has made its destination. -/
theorem Destined.tour {roots : List Path} {result : Except Failure Report}
    {progress : List Progress} (hd : Destined h dest D made) (hready : h.Ready)
    (hfree : h.tree.LinkFree [])
    (hrun : Export.tree roots dest compiler h = (result, progress, h')) :
    ∃ visits ending, Tour ⟨compiler, dest, D⟩ roots made visits h' ending ∧
      result = ending.result.map (fun _ => tally ⟨compiler, dest, D⟩ visits) ∧
      Steps ⟨compiler, dest, D⟩ visits (ending.reached h') := by
  have ha : Amid ⟨compiler, dest, D⟩ made := hd.amid hready hfree
  rcases hloop : runFrom (roots.forM (⟨compiler, dest, D⟩ : Export).root) ⟨made, default, []⟩ with
    ⟨looped, p⟩
  obtain ⟨visits, ending, htour, haccounts⟩ := roots_tour ha hloop
  rw [tree_made hd.makes hloop, haccounts.result] at hrun
  cases hend : ending.result with
  | error e =>
    rw [hend] at hrun
    cases hrun
    exact ⟨visits, ending, htour, by rw [hend]; rfl, haccounts.steps⟩
  | ok u =>
    rw [hend] at hrun
    cases hrun
    -- only a course that goes through to its end has no error
    have hfinished : ending = .finished := by
      by_contra hne
      obtain ⟨e, he⟩ := ending.error_of_ne_finished hne
      rw [he] at hend
      cases hend
    refine ⟨visits, ending, htour, ?_, haccounts.steps⟩
    rw [hend, haccounts.report hfinished, foldl_count_default]
    rfl

/-- What holds during an export holds of what it leaves. -/
theorem Destined.amid_after {roots : List Path} {result : Except Failure Report}
    {progress : List Progress} (hd : Destined h dest D made) (hready : h.Ready)
    (hfree : h.tree.LinkFree [])
    (hrun : Export.tree roots dest compiler h = (result, progress, h')) :
    Amid ⟨compiler, dest, D⟩ h' := by
  obtain ⟨visits, ending, htour, -⟩ := hd.tour hready hfree hrun
  exact (htour.chain.amid (hd.amid hready hfree)).1

/-- An export begins on a host that evaluating it shows to be ready for it. -/
theorem destined_of_names {T : Location} (hT : h.temporary = T)
    (hmakes : ((makeDestination dest).runOn h).1 = .ok D)
    (hnames : ((makeDestination dest).runOn h).2.tree.names T = []) (hclear : ¬ D <+: T) :
    Destined h dest D ((makeDestination dest).runOn h).2 := by
  subst hT
  exact ⟨Prod.ext hmakes rfl, Host.noScratch_of_names hnames, fun hbelow => absurd hbelow hclear⟩

end Export

end AssetServer
