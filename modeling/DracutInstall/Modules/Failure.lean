/-
When `install_module` fails.

A failure of one root leaves its part of the search unfinished, and the roots after
it find paths visited whose dependencies are not.  Still the roots fail exactly when
something they need has a soft dependency that is not found.
-/
import DracutInstall.Modules.Closure

namespace DracutInstall
namespace Modules

open UnixPath DepthFirst

variable {M : Type}

/-- Every soft dependency to load before the module has a name that is found. -/
def SoftFound (kmod : Kmod M) (module : M) : Prop :=
  ∀ pre post, kmod.softDependencies module = some (pre, post) →
    ∀ preMod ∈ pre, ∃ name, kmod.name preMod = some name ∧
      ∃ it, kmod.moduleNewFromLookup name = some it

theorem error_mem_preExpand {kmod : Kmod M} {preMod : M} :
    (∃ e, .error e ∈ preExpand kmod preMod) ↔
      ¬ ∃ name, kmod.name preMod = some name ∧ ∃ it, kmod.moduleNewFromLookup name = some it := by
  rw [preExpand]
  cases kmod.name preMod with
  | none => simp
  | some name =>
      cases hlookup : kmod.moduleNewFromLookup name with
      | none => simp [hlookup]
      | some it => simp [hlookup]

theorem error_mem_expand {kmod : Kmod M} {m : M} :
    (∃ e, .error e ∈ expand kmod m) ↔ ¬ SoftFound kmod m := by
  unfold SoftFound expand
  cases hsoft : kmod.softDependencies m with
  | none => simp
  | some softs =>
      obtain ⟨pre, post⟩ := softs
      constructor
      · rintro ⟨e, he⟩ hfound
        rcases List.mem_append.mp he with hdep | hpre
        · simp at hdep
        · obtain ⟨preMod, hmem, he⟩ := List.mem_flatMap.mp hpre
          exact error_mem_preExpand.mp ⟨e, he⟩ (hfound pre post rfl preMod hmem)
      · intro hnot
        by_contra hnone
        apply hnot
        intro pre' post' heq preMod hmem
        cases heq
        by_contra hlost
        obtain ⟨e, he⟩ := error_mem_preExpand.mpr hlost
        exact hnone ⟨e, List.mem_append_right _ (List.mem_flatMap.mpr ⟨preMod, hmem, he⟩)⟩

/-! ## What the roots need -/

/-- The paths in every set that holds what the roots need. -/
def neededPaths (ctx : RunContext) (kmod : Kmod M) (roots : List M) : Set OsString :=
  {p | ∀ s, HoldsNeeded ctx kmod roots s → p ∈ s}

section Roots

variable {ctx : RunContext} {kmod : Kmod M} {roots : List M}

theorem holdsNeeded_neededPaths : HoldsNeeded ctx kmod roots (neededPaths ctx kmod roots) := by
  refine ⟨fun m hm p hp hpass s hs => ?_, fun m p hp hmem d hd q hq s hs => ?_,
    fun m p hp hmem pre post hsoft preMod hpre name hname it hit d hd q hq s hs => ?_⟩
  · exact hs.1 m hm p hp hpass
  · exact hs.2.1 m p hp (hmem s hs) d hd q hq
  · exact hs.2.2 m p hp (hmem s hs) pre post hsoft preMod hpre name hname it hit d hd q hq

theorem eq_neededPaths {s : Set OsString} (h : IsLeast {s | HoldsNeeded ctx kmod roots s} s) :
    s = neededPaths ctx kmod roots := by
  apply Set.Subset.antisymm
  · exact h.2 holdsNeeded_neededPaths
  · exact fun p hp => hp s h.1

/-! ## Roots that fail -/

variable {depth : Nat} {visited visited' : Finset OsString}
  {results : List (Except InstallModuleError Unit)}

/-- A root that does not pass the filter, or the search from it. -/
theorem installModule_cases {m : M} {r : Except InstallModuleError Unit}
    (h : installModule ctx kmod depth m visited true = some (r, visited')) :
    (isRoot ctx kmod m = false ∧ r = .ok () ∧ visited' = visited) ∨
      isRoot ctx kmod m = true ∧ visit (graph kmod) depth m visited = some (r, visited') := by
  cases hroot : isRoot ctx kmod m with
  | true =>
      rw [installModule_root hroot] at h
      exact Or.inr ⟨rfl, h⟩
  | false =>
      cases depth with
      | zero => cases h
      | succ n =>
          rw [installModule_filtered hroot] at h
          cases h
          exact Or.inl ⟨rfl, rfl, rfl⟩

theorem installRoots_cons {m : M}
    (h : installRoots ctx kmod depth (m :: roots) visited = some (results, visited')) :
    ∃ r seen rs, results = r :: rs ∧
      installModule ctx kmod depth m visited true = some (r, seen) ∧
      installRoots ctx kmod depth roots seen = some (rs, visited') := by
  rw [installRoots, Option.bind_eq_bind, Option.bind_eq_some_iff] at h
  obtain ⟨⟨r, seen⟩, hm, h⟩ := h
  rw [Option.bind_eq_bind, Option.bind_eq_some_iff] at h
  obtain ⟨⟨rs, seen'⟩, hrest, h⟩ := h
  cases h
  exact ⟨r, seen, rs, rfl, hm, hrest⟩

theorem installRoots_mono
    (h : installRoots ctx kmod depth roots visited = some (results, visited')) :
    visited ⊆ visited' := by
  induction roots generalizing visited results with
  | nil =>
      cases h
      exact Finset.Subset.refl _
  | cons m roots ih =>
      obtain ⟨r, seen, rs, _, hm, hrest⟩ := installRoots_cons h
      rcases installModule_cases hm with ⟨_, _, rfl⟩ | ⟨_, hvisit⟩
      · exact ih hrest
      · exact (visit_marks _ _ _ _ _ _ hvisit).mono.trans (ih hrest)

/-- Whatever the roots come back with, they leave nothing but what they need. -/
theorem installRoots_within {s : Set OsString} (hs : HoldsNeeded ctx kmod roots s)
    (h : installRoots ctx kmod depth roots visited = some (results, visited'))
    (hvisited : ∀ p ∈ visited, p ∈ s) : ∀ p ∈ visited', p ∈ s := by
  induction roots generalizing visited results with
  | nil =>
      cases h
      exact hvisited
  | cons m roots ih =>
      obtain ⟨r, seen, rs, _, hm, hrest⟩ := installRoots_cons h
      refine ih ⟨fun d hd => hs.1 d (List.mem_cons_of_mem _ hd), hs.2⟩ hrest ?_
      rcases installModule_cases hm with ⟨_, _, rfl⟩ | ⟨hroot, hvisit⟩
      · exact hvisited
      · intro p hp
        have hmarks := visit_marks _ _ _ _ _ _ hvisit
        have hstart : ∀ d, (.ok d : Except InstallModuleError M) ∈ [.ok m] →
            ∀ q, (graph kmod).key d = some q → q ∈ s := by
          intro d hd q hq
          cases List.mem_singleton.mp hd
          have hq' : kmod.path m = some q := hq
          rw [isRoot, hq'] at hroot
          exact hs.1 m List.mem_cons_self q hq' hroot
        rcases hmarks.within s (closed_graph_iff.mpr hs.2) hstart p hp with hold | hnew
        · exact hvisited p hold
        · exact hnew

/-- An error that a root comes back with is that of a path it has visited. -/
theorem installRoots_error {e : InstallModuleError}
    (h : installRoots ctx kmod depth roots visited = some (results, visited'))
    (he : .error e ∈ results) : FailsIn (graph kmod) ↑visited' e := by
  induction roots generalizing visited results with
  | nil =>
      cases h
      cases he
  | cons m roots ih =>
      obtain ⟨r, seen, rs, rfl, hm, hrest⟩ := installRoots_cons h
      rcases List.mem_cons.mp he with rfl | he
      · rcases installModule_cases hm with ⟨_, hr, _⟩ | ⟨_, hvisit⟩
        · cases hr
        · exact (visit_error _ _ _ _ _ _ hvisit).mono (installRoots_mono hrest)
      · exact ih hrest he

/-- No root comes back with an error exactly when each soft dependency of what the
roots need is found. -/
theorem installRoots_ok_iff (hk : kmod.ByPath)
    (h : installRoots ctx kmod depth roots ∅ = some (results, visited)) :
    (∀ r ∈ results, r = .ok ()) ↔
      ∀ m p, kmod.path m = some p → p ∈ neededPaths ctx kmod roots → SoftFound kmod m := by
  constructor
  · intro hok m p hp hneeded
    by_contra hlost
    obtain ⟨e, he⟩ := error_mem_expand.mpr hlost
    apply visitAll_ok (graph_byKey hk) (installRoots_ok h hok) e
    rw [eq_neededPaths (installRoots_isLeast hk h hok)]
    exact ⟨m, p, hp, hneeded, he⟩
  · intro hfound r hr
    cases r with
    | ok u => rfl
    | error e =>
        obtain ⟨m, p, hp, hvisited, he⟩ := installRoots_error h hr
        have hneeded := installRoots_within holdsNeeded_neededPaths h (fun p hp => by simp at hp)
          p hvisited
        exact absurd (hfound m p hp hneeded) (error_mem_expand.mp ⟨e, he⟩)

end Roots

end Modules
end DracutInstall
