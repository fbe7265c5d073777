/-
The set of paths `install_module` leaves behind.
-/
import DracutInstall.Modules.InstallModule

namespace DracutInstall
namespace Modules

open UnixPath DepthFirst

variable {M : Type}

/-- libkmod's answers about a module that has a path depend on the path alone. -/
structure Kmod.ByPath (kmod : Kmod M) : Prop where
  dependencies : ∀ m m' p, kmod.path m = some p → kmod.path m' = some p →
    kmod.dependencies m = kmod.dependencies m'
  softDependencies : ∀ m m' p, kmod.path m = some p → kmod.path m' = some p →
    kmod.softDependencies m = kmod.softDependencies m'

/-- The set holds the path of every root that has one and passes the filter. -/
def HoldsRoots (ctx : RunContext) (kmod : Kmod M) (roots : List M) (s : Set OsString) : Prop :=
  ∀ m ∈ roots, ∀ p, kmod.path m = some p →
    filterModuleNamePathSymbols ctx kmod m p = true → p ∈ s

/-- With each module the set holds the paths of its hard dependencies. -/
def HoldsDependencies (kmod : Kmod M) (s : Set OsString) : Prop :=
  ∀ m p, kmod.path m = some p → p ∈ s →
    ∀ d ∈ kmod.dependencies m, ∀ q, kmod.path d = some q → q ∈ s

/-- With each module whose soft dependencies can be queried the set holds the
paths of what their names are looked up to. -/
def HoldsSoftDependencies (kmod : Kmod M) (s : Set OsString) : Prop :=
  ∀ m p, kmod.path m = some p → p ∈ s →
    ∀ pre post, kmod.softDependencies m = some (pre, post) →
      ∀ preMod ∈ pre, ∀ name, kmod.name preMod = some name →
        ∀ it, kmod.moduleNewFromLookup name = some it →
          ∀ d ∈ it, ∀ q, kmod.path d = some q → q ∈ s

/-- What the paths installed for the roots have to be closed under. -/
def HoldsNeeded (ctx : RunContext) (kmod : Kmod M) (roots : List M) (s : Set OsString) : Prop :=
  HoldsRoots ctx kmod roots s ∧ HoldsDependencies kmod s ∧ HoldsSoftDependencies kmod s

theorem graph_byKey {kmod : Kmod M} (h : kmod.ByPath) : (graph kmod).ByKey := by
  intro m m' p hm hm'
  show expand kmod m = expand kmod m'
  rw [expand, expand, h.dependencies m m' p hm hm', h.softDependencies m m' p hm hm']

/-- A module to be looked at after another is a dependency of it, or looked up
from the name of a soft one. -/
theorem mem_expand {kmod : Kmod M} {m d : M} :
    .ok d ∈ expand kmod m ↔ d ∈ kmod.dependencies m ∨
      ∃ pre post, kmod.softDependencies m = some (pre, post) ∧
        ∃ preMod ∈ pre, ∃ name, kmod.name preMod = some name ∧
          ∃ it, kmod.moduleNewFromLookup name = some it ∧ d ∈ it := by
  have hpre : ∀ preMod, .ok d ∈ preExpand kmod preMod ↔
      ∃ name, kmod.name preMod = some name ∧
        ∃ it, kmod.moduleNewFromLookup name = some it ∧ d ∈ it := by
    intro preMod
    rw [preExpand]
    cases hname : kmod.name preMod with
    | none => simp
    | some name =>
        cases hlookup : kmod.moduleNewFromLookup name with
        | none => simp [hlookup]
        | some it => simp [hlookup]
  rw [expand, List.mem_append]
  apply or_congr
  · simp
  · cases kmod.softDependencies m with
    | none => simp
    | some softs =>
        obtain ⟨pre, post⟩ := softs
        simp only [List.mem_flatMap, hpre]
        constructor
        · intro h
          exact ⟨pre, post, rfl, h⟩
        · rintro ⟨pre', post', heq, h⟩
          cases heq
          exact h

/-- Closed under the dependencies is closed under the search. -/
theorem closed_graph_iff {kmod : Kmod M} {s : Set OsString} :
    Closed (graph kmod) s ↔ HoldsDependencies kmod s ∧ HoldsSoftDependencies kmod s := by
  constructor
  · intro h
    refine ⟨fun m p hm hp d hd q hq => ?_,
      fun m p hm hp pre post hsoft preMod hpre name hname it hit d hd q hq => ?_⟩
    · exact h m p hm hp d (mem_expand.mpr (Or.inl hd)) q hq
    · exact h m p hm hp d (mem_expand.mpr
        (Or.inr ⟨pre, post, hsoft, preMod, hpre, name, hname, it, hit, hd⟩)) q hq
  · rintro ⟨hdeps, hsofts⟩ m p hm hp d hd q hq
    rcases mem_expand.mp hd with hd | ⟨pre, post, hsoft, preMod, hpre, name, hname, it, hit, hd⟩
    · exact hdeps m p hm hp d hd q hq
    · exact hsofts m p hm hp pre post hsoft preMod hpre name hname it hit d hd q hq

theorem holdsRoots_iff {ctx : RunContext} {kmod : Kmod M} {roots : List M} {s : Set OsString} :
    (∀ m ∈ roots.filter (isRoot ctx kmod), ∀ p, (graph kmod).key m = some p → p ∈ s) ↔
      HoldsRoots ctx kmod roots s := by
  constructor
  · intro h m hm p hp hpass
    refine h m (List.mem_filter.mpr ⟨hm, ?_⟩) p hp
    rw [isRoot, hp]
    exact hpass
  · intro h m hm p hp
    obtain ⟨hm, hroot⟩ := List.mem_filter.mp hm
    have hp' : kmod.path m = some p := hp
    rw [isRoot, hp'] at hroot
    exact h m hm p hp' hroot

theorem installRoots_isLeast {ctx : RunContext} {kmod : Kmod M} (hk : kmod.ByPath) {depth : Nat}
    {roots : List M} {visited : Finset OsString} {results : List (Except InstallModuleError Unit)}
    (h : installRoots ctx kmod depth roots ∅ = some (results, visited))
    (hok : ∀ r ∈ results, r = .ok ()) :
    IsLeast {s | HoldsNeeded ctx kmod roots s} ↑visited := by
  have hleast := visitAll_isLeast (graph_byKey hk) (installRoots_ok h hok)
  simp only [holdsRoots_iff, closed_graph_iff] at hleast
  exact hleast

theorem HoldsNeeded.perm {ctx : RunContext} {kmod : Kmod M} {roots roots' : List M}
    {s : Set OsString} (hperm : roots.Perm roots') (h : HoldsNeeded ctx kmod roots s) :
    HoldsNeeded ctx kmod roots' s :=
  ⟨fun m hm => h.1 m (hperm.mem_iff.mpr hm), h.2⟩

/-- The recursion ends on every finite module graph, and when no root comes back
with an error it leaves the least set that holds what the roots need, in whichever
order they come. -/
theorem installRoots_exact (ctx : RunContext) (kmod : Kmod M) (hk : kmod.ByPath)
    (paths : Finset OsString) (hpaths : ∀ m p, kmod.path m = some p → p ∈ paths)
    (roots : List M) :
    ∃ results visited,
      (∀ depth, paths.card < depth →
        installRoots ctx kmod depth roots ∅ = some (results, visited)) ∧
      ((∀ r ∈ results, r = .ok ()) →
        IsLeast {s | HoldsNeeded ctx kmod roots s} ↑visited ∧
        ∀ roots' depth results' visited', roots'.Perm roots →
          installRoots ctx kmod depth roots' ∅ = some (results', visited') →
          (∀ r ∈ results', r = .ok ()) → visited' = visited) := by
  obtain ⟨⟨results, visited⟩, hrun⟩ := installRoots_isSome ctx hpaths roots ∅
  refine ⟨results, visited, hrun, fun hok => ?_⟩
  have hleast := installRoots_isLeast hk (hrun (paths.card + 1) (Nat.lt_succ_self _)) hok
  refine ⟨hleast, fun roots' depth results' visited' hperm hrun' hok' => ?_⟩
  have hleast' := installRoots_isLeast hk hrun' hok'
  have hsets : {s | HoldsNeeded ctx kmod roots' s} = {s | HoldsNeeded ctx kmod roots s} :=
    Set.ext fun _ => ⟨HoldsNeeded.perm hperm, HoldsNeeded.perm hperm.symm⟩
  rw [hsets] at hleast'
  exact Finset.coe_injective (hleast'.unique hleast)

/-! ## Two modules that depend on each other -/

/-- The first depends on the second and the other way round, and softly on the
third, which is found by its name. -/
def sampleKmod : Kmod (Fin 3) :=
  { name := fun m => some [UInt8.ofNat m.val]
    path := fun m => some [47, UInt8.ofNat m.val]
    dependencies := fun m => if m = 0 then [1] else if m = 1 then [0] else []
    softDependencies := fun m => if m = 0 then some ([2], []) else none
    dependencySymbols := fun _ => none
    moduleNewFromLookup := fun name => if name = [2] then some [2] else none }

/-- Only paths that end in zero pass. -/
def sampleContext : RunContext :=
  { modFilterPath := some fun p => p == [47, 0]
    modFilterNopath := none, modFilterSymbol := none, modFilterNosymbol := none
    modFilterNoname := none }

theorem sampleKmod_path {m m' : Fin 3} {p : OsString} (h : sampleKmod.path m = some p)
    (h' : sampleKmod.path m' = some p) : m = m' := by
  have hinj : ∀ m m', sampleKmod.path m = sampleKmod.path m' → m = m' := by decide
  exact hinj m m' (h.trans h'.symm)

theorem sampleKmod_byPath : sampleKmod.ByPath where
  dependencies := fun _ _ _ h h' => congrArg _ (sampleKmod_path h h')
  softDependencies := fun _ _ _ h h' => congrArg _ (sampleKmod_path h h')

theorem installRoots_sample :
    ∃ results visited,
      installRoots sampleContext sampleKmod 4 [0, 1] ∅ = some (results, visited) ∧
      IsLeast {s | HoldsNeeded sampleContext sampleKmod [0, 1] s} ↑visited := by
  obtain ⟨results, visited, hrun, hexact⟩ := installRoots_exact sampleContext sampleKmod
    sampleKmod_byPath {[47, 0], [47, 1], [47, 2]} (fun m p hp => by
      have hpath : ∀ m, sampleKmod.path m ∈ [some [47, 0], some [47, 1], some [47, 2]] := by decide
      simpa [hp] using hpath m) [0, 1]
  have h4 := hrun 4 (by decide)
  have hcomputed : installRoots sampleContext sampleKmod 4 [0, 1] ∅ =
      some ([.ok (), .ok ()], {[47, 0], [47, 1], [47, 2]}) := by decide
  rw [h4] at hcomputed
  cases hcomputed
  exact ⟨_, _, h4, (hexact (by decide)).1⟩

end Modules
end DracutInstall
