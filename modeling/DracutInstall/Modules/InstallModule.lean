/-
`install_module` and the part of `install_modules` that runs it.

What libkmod answers is a parameter.  The recursion carries a bound on its depth,
which `installModule_eq_visit` hands on to the depth-first search it is an
instance of.
-/
import DracutInstall.Lib.DepthFirst
import DracutInstall.Lib.UnixPath

namespace DracutInstall
namespace Modules

open UnixPath DepthFirst

/-- libkmod's answers about the modules `M`.  A query that can fail answers
`none` when it does. -/
structure Kmod (M : Type) where
  name : M → Option OsString
  path : M → Option OsString
  dependencies : M → List M
  softDependencies : M → Option (List M × List M)
  dependencySymbols : M → Option (List OsString)
  moduleNewFromLookup : OsString → Option (List M)

/-- The regular expressions of the run context, by what they match. -/
structure RunContext where
  modFilterPath : Option (OsString → Bool)
  modFilterNopath : Option (OsString → Bool)
  modFilterSymbol : Option (OsString → Bool)
  modFilterNosymbol : Option (OsString → Bool)
  modFilterNoname : Option (OsString → Bool)

variable {M : Type}

/-- The filter is set and matches. -/
def isMatch (r : Option (OsString → Bool)) (s : OsString) : Bool :=
  match r with
  | some r => r s
  | none => false

/-- The loop over the dependency symbols. -/
def filterSymbols (ctx : RunContext) : List OsString → Bool
  | [] => false
  | symbol :: sit =>
      if isMatch ctx.modFilterNosymbol symbol then false
      else if isMatch ctx.modFilterSymbol symbol then true
      else filterSymbols ctx sit

def filterModuleNamePathSymbols (ctx : RunContext) (kmod : Kmod M) (module : M)
    (path : OsString) : Bool :=
  if (kmod.name module).any (isMatch ctx.modFilterNoname) then false
  else if isMatch ctx.modFilterNopath path then false
  else if ctx.modFilterPath.any (fun r => !r path) then false
  else if ctx.modFilterNosymbol.isNone && ctx.modFilterSymbol.isNone then true
  else
    match kmod.dependencySymbols module with
    | none => true
    | some sit => filterSymbols ctx sit

/-- What the texts of `InstallModuleError` tell. -/
inductive InstallModuleError where
  | failedToGetName
  | failedLookup (name : OsString)
  deriving DecidableEq

/-- `for m in it { install(m)? }`. -/
def installAll (install : M → Finset OsString → Result InstallModuleError OsString) :
    List M → Finset OsString → Result InstallModuleError OsString
  | [], visited => some (.ok (), visited)
  | m :: it, visited => (install m visited).andThen (installAll install it)

/-- The loop over the soft dependencies to load before the module. -/
def installPre (kmod : Kmod M)
    (install : M → Finset OsString → Result InstallModuleError OsString) :
    List M → Finset OsString → Result InstallModuleError OsString
  | [], visited => some (.ok (), visited)
  | preMod :: pre, visited =>
      match kmod.name preMod with
      | none => some (.error .failedToGetName, visited)
      | some name =>
          match kmod.moduleNewFromLookup name with
          | none => some (.error (.failedLookup name), visited)
          | some it => (installAll install it visited).andThen (installPre kmod install pre)

/-- `install_module`, with the depth of the recursion bounded. -/
def installModule (ctx : RunContext) (kmod : Kmod M) :
    Nat → M → Finset OsString → Bool → Result InstallModuleError OsString
  | 0, _, _, _ => none
  | depth + 1, module, visited, filter =>
      match kmod.path module with
      | none => some (.ok (), visited)
      | some path =>
          if filter && !filterModuleNamePathSymbols ctx kmod module path then
            some (.ok (), visited)
          else if path ∉ visited then
            let install := fun m visited => installModule ctx kmod depth m visited false
            (installAll install (kmod.dependencies module) (insert path visited)).andThen
              fun visited =>
                match kmod.softDependencies module with
                | none => some (.ok (), visited)
                | some (pre, _post) => installPre kmod install pre visited
          else some (.ok (), visited)

/-- The results of `install_module` on the modules in turn, one shared set of
visited paths between them. -/
def installRoots (ctx : RunContext) (kmod : Kmod M) (depth : Nat) :
    List M → Finset OsString →
      Option (List (Except InstallModuleError Unit) × Finset OsString)
  | [], visited => some ([], visited)
  | m :: modules, visited => do
      let (r, visited) ← installModule ctx kmod depth m visited true
      let (rs, visited) ← installRoots ctx kmod depth modules visited
      some (r :: rs, visited)

/-! ## The search it is -/

/-- What the recursion looks at after the module itself, in order. -/
def preExpand (kmod : Kmod M) (preMod : M) : List (Except InstallModuleError M) :=
  match kmod.name preMod with
  | none => [.error .failedToGetName]
  | some name =>
      match kmod.moduleNewFromLookup name with
      | none => [.error (.failedLookup name)]
      | some it => it.map .ok

def expand (kmod : Kmod M) (module : M) : List (Except InstallModuleError M) :=
  (kmod.dependencies module).map .ok ++
    match kmod.softDependencies module with
    | none => []
    | some (pre, _) => pre.flatMap (preExpand kmod)

def graph (kmod : Kmod M) : Graph M OsString InstallModuleError :=
  { key := kmod.path, expand := expand kmod }

theorem installAll_eq (install : M → Finset OsString → Result InstallModuleError OsString)
    (ms : List M) (visited : Finset OsString) :
    installAll install ms visited = visitAll install (ms.map .ok) visited := by
  induction ms generalizing visited with
  | nil => rfl
  | cons m ms ih => exact congrArg _ (funext ih)

theorem installPre_eq (kmod : Kmod M)
    (install : M → Finset OsString → Result InstallModuleError OsString) (pre : List M)
    (visited : Finset OsString) :
    installPre kmod install pre visited =
      visitAll install (pre.flatMap (preExpand kmod)) visited := by
  induction pre generalizing visited with
  | nil => rfl
  | cons preMod pre ih =>
      rw [List.flatMap_cons, visitAll_append, installPre, preExpand]
      cases kmod.name preMod with
      | none => rfl
      | some name =>
          cases hlookup : kmod.moduleNewFromLookup name with
          | none => simp only [hlookup, visitAll, Result.andThen_error]
          | some it =>
              simp only [hlookup, installAll_eq]
              exact congrArg _ (funext ih)

/-- Below the roots `install_module` is the search. -/
theorem installModule_eq_visit (ctx : RunContext) (kmod : Kmod M) (depth : Nat) :
    ∀ (module : M) (visited : Finset OsString),
      installModule ctx kmod depth module visited false =
        visit (graph kmod) depth module visited := by
  induction depth with
  | zero => exact fun _ _ => rfl
  | succ depth ih =>
      intro module visited
      have hinstall : (fun m visited => installModule ctx kmod depth m visited false) =
          visit (graph kmod) depth := funext fun m => funext (ih m)
      rw [installModule, visit]
      cases hpath : kmod.path module with
      | none => simp only [graph, hpath]
      | some path =>
          simp only [graph, hpath, Bool.false_and, Bool.false_eq_true, if_false, ite_not]
          by_cases hvisited : path ∈ visited
          · rw [if_pos hvisited, if_pos hvisited]
          · rw [if_neg hvisited, if_neg hvisited, expand, visitAll_append, installAll_eq, hinstall]
            congr 1
            funext visited
            cases kmod.softDependencies module with
            | none => rfl
            | some softs => exact installPre_eq kmod _ softs.1 visited

/-! ## The roots -/

/-- The module has a path that passes the filter. -/
def isRoot (ctx : RunContext) (kmod : Kmod M) (module : M) : Bool :=
  (kmod.path module).any (filterModuleNamePathSymbols ctx kmod module)

theorem installModule_root {ctx : RunContext} {kmod : Kmod M} {module : M}
    (h : isRoot ctx kmod module = true) (depth : Nat) (visited : Finset OsString) :
    installModule ctx kmod depth module visited true =
      visit (graph kmod) depth module visited := by
  rw [← installModule_eq_visit ctx]
  cases depth with
  | zero => rfl
  | succ depth =>
      rw [isRoot] at h
      rw [installModule, installModule]
      cases hpath : kmod.path module with
      | none => rfl
      | some path =>
          rw [hpath, Option.any_some] at h
          simp only [h, Bool.not_true, Bool.and_false, Bool.false_eq_true, if_false]

theorem installModule_filtered {ctx : RunContext} {kmod : Kmod M} {module : M}
    (h : isRoot ctx kmod module = false) (depth : Nat) (visited : Finset OsString) :
    installModule ctx kmod (depth + 1) module visited true = some (.ok (), visited) := by
  rw [isRoot] at h
  rw [installModule]
  cases hpath : kmod.path module with
  | none => rfl
  | some path =>
      rw [hpath, Option.any_some] at h
      simp only [h, Bool.not_false, Bool.and_true, if_true]

/-- Every root is run to its end once the bound exceeds the number of paths. -/
theorem installRoots_isSome (ctx : RunContext) {kmod : Kmod M} {paths : Finset OsString}
    (hpaths : ∀ m p, kmod.path m = some p → p ∈ paths) (roots : List M)
    (visited : Finset OsString) :
    ∃ x, ∀ depth, paths.card < depth → installRoots ctx kmod depth roots visited = some x := by
  induction roots generalizing visited with
  | nil => exact ⟨_, fun _ _ => rfl⟩
  | cons m roots ih =>
      have hone : ∃ r seen, ∀ depth, paths.card < depth →
          installModule ctx kmod depth m visited true = some (r, seen) := by
        by_cases hroot : isRoot ctx kmod m = true
        · have hcard : (paths \ visited).card ≤ paths.card :=
            Finset.card_le_card Finset.sdiff_subset
          obtain ⟨r, seen, hr, _⟩ := visit_isSome (g := graph kmod) hpaths (paths.card + 1) m
            visited (by omega)
          refine ⟨r, seen, fun depth hdepth => ?_⟩
          rw [installModule_root hroot]
          exact visit_of_le (graph kmod) hdepth m visited (r, seen) hr
        · refine ⟨.ok (), visited, fun depth hdepth => ?_⟩
          obtain ⟨n, rfl⟩ : ∃ n, depth = n + 1 := ⟨depth - 1, by omega⟩
          exact installModule_filtered (by simpa using hroot) n visited
      obtain ⟨r, seen, hr⟩ := hone
      obtain ⟨⟨rs, seen'⟩, hrs⟩ := ih seen
      refine ⟨(r :: rs, seen'), fun depth hdepth => ?_⟩
      simp only [installRoots, hr depth hdepth, hrs depth hdepth, Option.bind_eq_bind,
        Option.bind_some]

/-- When no root comes back with an error, the roots together are one search from
those that pass the filter. -/
theorem installRoots_ok {ctx : RunContext} {kmod : Kmod M} {depth : Nat} {roots : List M}
    {visited visited' : Finset OsString} {results : List (Except InstallModuleError Unit)}
    (h : installRoots ctx kmod depth roots visited = some (results, visited'))
    (hok : ∀ r ∈ results, r = .ok ()) :
    visitAll (visit (graph kmod) depth) ((roots.filter (isRoot ctx kmod)).map .ok) visited =
      some (.ok (), visited') := by
  induction roots generalizing visited results with
  | nil =>
      cases h
      rfl
  | cons m roots ih =>
      rw [installRoots, Option.bind_eq_bind, Option.bind_eq_some_iff] at h
      obtain ⟨⟨r, seen⟩, hm, h⟩ := h
      rw [Option.bind_eq_bind, Option.bind_eq_some_iff] at h
      obtain ⟨⟨rs, seen'⟩, hrest, h⟩ := h
      cases h
      have hr : r = .ok () := hok r List.mem_cons_self
      have hrec := ih hrest fun r hr => hok r (List.mem_cons_of_mem _ hr)
      by_cases hroot : isRoot ctx kmod m = true
      · rw [installModule_root hroot] at hm
        rw [List.filter_cons_of_pos hroot, List.map_cons, visitAll, hm, hr]
        exact hrec
      · rw [List.filter_cons_of_neg hroot]
        cases depth with
        | zero => cases hm
        | succ n =>
            rw [installModule_filtered (by simpa using hroot)] at hm
            cases hm
            exact hrec

end Modules
end DracutInstall
