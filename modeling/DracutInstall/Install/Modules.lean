/-
`install_modules`: the modules that the arguments name, and what they need, are put
below the destination.

What libkmod and `walkdir` answer is a parameter, and so is whether `debug!` is
compiled in: its arguments are evaluated then.  The order the set of paths is drained
in is open.
-/
import DracutInstall.Modules.Failure
import DracutInstall.Install.Files

namespace DracutInstall
namespace Install

open ByteCodec Rust UnixPath FileTree DepthFirst Modules File

variable {M : Type}

/-- A context of libkmod, with what `install_modules` asks of it besides. -/
structure KmodContext (M : Type) extends Kmod M where
  dirname : OsString
  moduleNewFromPath : OsString → Option M

/-- What is around `install_modules`. -/
structure ModuleHost (M : Type) where
  env : Env
  contextNewWith : Option OsString → Option (KmodContext M)
  walkDir : Tree → OsString → List OsString
  debug : Bool

/-- The part of the run context that the process reads. -/
structure RunContext extends Modules.RunContext where
  module : Bool
  modalias : Bool
  destrootdir : OsString
  kerneldir : Option OsString
  logdir : Option OsString

/-- An error of libkmod, or the one made up for a module without a name. -/
inductive KmodError where
  | kmod
  | errno (code : Nat)
  deriving DecidableEq

inductive InstallModulesError where
  | contextNewWith
  | moduleErrors
  | install (e : CloneError)
  deriving DecidableEq

/-- `OsStr::to_str` has a value. -/
def isStr (s : OsString) : Bool := (ByteArray.mk s.toArray).validateUTF8

/-- `to_str().unwrap()` in an argument of `debug!`. -/
def debugStr (debug : Bool) (s : OsString) : Option Unit :=
  if debug && !isStr s then none else some ()

/-- A lookup of modules: those found, or an error. -/
abbrev Lookup (M : Type) := Except KmodError (List M)

def lookup (kmod : KmodContext M) (name : OsString) : Lookup M :=
  match kmod.moduleNewFromLookup name with
  | none => .error .kmod
  | some it => .ok it

/-- The lookup of the name that a module found by its path has. -/
def lookupNameOf (kmod : KmodContext M) (m : M) : Lookup M :=
  match kmod.name m with
  | none => .error (.errno 42)
  | some name => lookup kmod name

/-- An argument that starts with `/`. -/
def lookupPath (kmod : KmodContext M) (module : OsString) : Option (List (Lookup M)) :=
  if isStr module then
    match kmod.moduleNewFromPath module with
    | none => none
    | some m => some [lookupNameOf kmod m]
  else none

/-- A file that the walk through a directory has come to. -/
def lookupEntry (kmod : KmodContext M) (e : OsString) : Option (Lookup M) :=
  if isStr e then
    match kmod.moduleNewFromPath e with
    | none => some (.error .kmod)
    | some m => some (lookupNameOf kmod m)
  else none

/-- `Path::is_file` -/
def isFile (v : Tree.View) (t : Tree) (p : OsString) : Bool :=
  match t.status v true p with
  | .ok (.file _ _) => true
  | _ => false

/-- The directory that an argument `=driver_dir` names. -/
def driverDirname (kmod : KmodContext M) (driverDir : OsString) : OsString :=
  let dirname := push kmod.dirname (ascii "kernel")
  if driverDir.isEmpty then dirname else push dirname driverDir

/-- An argument that starts with `=`. -/
def lookupDir (host : ModuleHost M) (kmod : KmodContext M) (t : Tree) (driverDir : OsString) :
    Option (List (Lookup M)) := do
  let dirname := driverDirname kmod driverDir
  debugStr host.debug dirname
  ((host.walkDir t dirname).filter (isFile host.env.view t)).mapM (lookupEntry kmod)

/-- Any other argument: the name is the stem of its stem. -/
def lookupName (host : ModuleHost M) (kmod : KmodContext M) (module : OsString) :
    Option (List (Lookup M)) := do
  debugStr host.debug module
  match fileStem module with
  | some module =>
      debugStr host.debug module
      match fileStem module with
      | some module =>
          debugStr host.debug module
          some [lookup kmod module]
      | none => some [lookup kmod module]
  | none => some [lookup kmod module]

/-- What one argument comes to; nothing where the process unwinds. -/
def lookupArg (host : ModuleHost M) (kmod : KmodContext M) (t : Tree) :
    OsString → Option (List (Lookup M))
  | [] => lookupName host kmod []
  | b :: rest =>
      if b = sep then lookupPath kmod (b :: rest)
      else if b = 61 then lookupDir host kmod t rest
      else lookupName host kmod (b :: rest)

def lookupArgs (host : ModuleHost M) (kmod : KmodContext M) (t : Tree) :
    List OsString → Option (List (Lookup M))
  | [] => some []
  | arg :: args => do
      let found ← lookupArg host kmod t arg
      let rest ← lookupArgs host kmod t args
      some (found ++ rest)

/-- `partition(kmod::Result::is_ok)`, with the modules found one after the other. -/
def partition (lookups : List (Lookup M)) : List M × List KmodError :=
  (lookups.flatMap fun
      | .ok it => it
      | .error _ => [],
    lookups.filterMap fun
      | .ok _ => none
      | .error e => some e)

/-- `install_modules` up to the draining of the set. -/
def visitModules (host : ModuleHost M) (ctx : RunContext) (kmod : KmodContext M) (t : Tree)
    (depth : Nat) (args : List OsString) :
    Option (Outcome InstallModulesError (Finset OsString)) :=
  match lookupArgs host kmod t args with
  | none => some .panic
  | some lookups =>
      let (modules, errors) := partition lookups
      if errors.isEmpty then
        match installRoots ctx.toRunContext kmod.toKmod depth modules ∅ with
        | none => none
        | some (results, visited) =>
            if results.all (·.isOk) then some (.ok visited) else some (.err .moduleErrors)
      else some (.err .moduleErrors)

/-- The outcome of `install_files`, as `install_modules` hands it on. -/
def ofInstall : Outcome CloneError Unit → Outcome InstallModulesError Unit
  | .ok u => .ok u
  | .err e => .err (.install e)
  | .panic => .panic

/-- `install_modules` -/
inductive InstallModules (host : ModuleHost M) (ctx : RunContext) (depth fuel : Nat)
    (args : List OsString) (w : World) : Outcome InstallModulesError Unit → World → Prop
  | noContext (hkmod : host.contextNewWith ctx.kerneldir = none) :
      InstallModules host ctx depth fuel args w (.err .contextNewWith) w
  | unwound {kmod : KmodContext M} (hkmod : host.contextNewWith ctx.kerneldir = some kmod)
      (hvisit : visitModules host ctx kmod w.tree depth args = some .panic) :
      InstallModules host ctx depth fuel args w .panic w
  | failed {kmod : KmodContext M} {e : InstallModulesError}
      (hkmod : host.contextNewWith ctx.kerneldir = some kmod)
      (hvisit : visitModules host ctx kmod w.tree depth args = some (.err e)) :
      InstallModules host ctx depth fuel args w (.err e) w
  | installed {kmod : KmodContext M} {visited : Finset OsString} {files : List OsString}
      {r : Outcome CloneError Unit} {w' : World}
      (hkmod : host.contextNewWith ctx.kerneldir = some kmod)
      (hvisit : visitModules host ctx kmod w.tree depth args = some (.ok visited))
      (hfiles : (files : Multiset OsString) = visited.val)
      (hinstall : installFiles host.env ctx.destrootdir fuel files w = some (r, w')) :
      InstallModules host ctx depth fuel args w (ofInstall r) w'

/-! ## What the arguments name -/

section Modules

variable {host : ModuleHost M} {ctx : RunContext} {kmod : KmodContext M} {t : Tree}
  {args : List OsString} {lookups : List (Lookup M)}

/-- All that the argument is looked up for is found. -/
def Found (host : ModuleHost M) (kmod : KmodContext M) (t : Tree) (arg : OsString) : Prop :=
  ∃ lookups, lookupArg host kmod t arg = some lookups ∧ ∀ x ∈ lookups, ∃ it, x = .ok it

/-- The module is one of those that an argument is looked up to. -/
def Names (host : ModuleHost M) (kmod : KmodContext M) (t : Tree) (args : List OsString)
    (m : M) : Prop :=
  ∃ arg ∈ args, ∃ lookups, lookupArg host kmod t arg = some lookups ∧
    ∃ it, .ok it ∈ lookups ∧ m ∈ it

/-- The stem of the stem names a module in all its forms: bare, as an object, and as an
object that is compressed. -/
theorem lookupName_forms (hdebug : host.debug = false) {file name : OsString}
    (hname : EntryName name) (hdot : 46 ∉ name)
    (hfile : file ∈ [name, name ++ ascii ".ko", name ++ ascii ".ko" ++ ascii ".xz"])
    {arg : OsString} (harg : fileName arg = some file) :
    lookupName host kmod arg = some [lookup kmod name] := by
  have hbare : fileStem name = some name := by
    rw [fileStem, fileName_entryName hname, Option.map_some, stem_of_dot_not_mem hdot]
  have hobject : stem (name ++ 46 :: ascii "ko") = name :=
    stem_suffix hname.1 hname.2.2.1 (by decide)
  have hentry : EntryName (name ++ 46 :: ascii "ko") := by
    refine ⟨by simp, ?_, ?_, ?_⟩
    · intro hmem
      rcases List.mem_append.mp hmem with hmem | hmem
      · exact hname.2.1 hmem
      · revert hmem
        decide
    · intro heq
      have hlength := congrArg List.length heq
      simp [dot, ascii] at hlength
    · intro heq
      have hlength := congrArg List.length heq
      simp [dotDot, ascii] at hlength
  have hcompressed : stem (name ++ 46 :: ascii "ko" ++ 46 :: ascii "xz") =
      name ++ 46 :: ascii "ko" :=
    stem_suffix (by simp) hentry.2.2.1 (by decide)
  have hstem : fileStem arg = some (stem file) := by rw [fileStem, harg, Option.map_some]
  have hstem' : fileStem (stem file) = some name := by
    simp only [List.mem_cons, List.not_mem_nil, or_false] at hfile
    rcases hfile with rfl | rfl | rfl
    · rw [stem_of_dot_not_mem hdot, hbare]
    · show fileStem (stem (name ++ 46 :: ascii "ko")) = some name
      rw [hobject, hbare]
    · show fileStem (stem (name ++ 46 :: ascii "ko" ++ 46 :: ascii "xz")) = some name
      rw [hcompressed, fileStem, fileName_entryName hentry, Option.map_some, hobject]
  simp [lookupName, debugStr, hdebug, hstem, hstem']

theorem mem_lookupArgs (h : lookupArgs host kmod t args = some lookups) {x : Lookup M} :
    x ∈ lookups ↔ ∃ arg ∈ args, ∃ found, lookupArg host kmod t arg = some found ∧ x ∈ found := by
  induction args generalizing lookups with
  | nil =>
      cases h
      simp
  | cons arg args ih =>
      rw [lookupArgs, Option.bind_eq_bind, Option.bind_eq_some_iff] at h
      obtain ⟨found, hfound, h⟩ := h
      obtain ⟨rest, hrest, h⟩ := Option.bind_eq_some_iff.mp h
      cases h
      rw [List.mem_append, ih hrest]
      simp [hfound]

theorem lookupArgs_eq_none :
    lookupArgs host kmod t args = none ↔ ∃ arg ∈ args, lookupArg host kmod t arg = none := by
  induction args with
  | nil => simp [lookupArgs]
  | cons arg args ih =>
      cases hfound : lookupArg host kmod t arg with
      | none => simp [lookupArgs, hfound]
      | some found =>
          cases hrest : lookupArgs host kmod t args with
          | none => simp [lookupArgs, hfound, hrest, ih.mp hrest]
          | some rest =>
              have hnone := mt ih.mpr (by simp [hrest])
              simp [lookupArgs, hfound, hrest, hnone]

theorem mem_partition {m : M} :
    m ∈ (partition lookups).1 ↔ ∃ it, .ok it ∈ lookups ∧ m ∈ it := by
  constructor
  · intro h
    obtain ⟨x, hx, hm⟩ := List.mem_flatMap.mp h
    cases x with
    | error e => cases hm
    | ok it => exact ⟨it, hx, hm⟩
  · rintro ⟨it, hx, hm⟩
    exact List.mem_flatMap.mpr ⟨.ok it, hx, hm⟩

theorem partition_errors :
    (partition lookups).2 = [] ↔ ∀ x ∈ lookups, ∃ it, x = .ok it := by
  show List.filterMap _ lookups = [] ↔ _
  rw [List.filterMap_eq_nil_iff]
  apply forall₂_congr
  intro x _
  cases x with
  | error e => simp
  | ok it => simp

theorem names_iff (h : lookupArgs host kmod t args = some lookups) {m : M} :
    Names host kmod t args m ↔ m ∈ (partition lookups).1 := by
  rw [mem_partition]
  constructor
  · rintro ⟨arg, harg, found, hfound, it, hit, hm⟩
    exact ⟨it, (mem_lookupArgs h).mpr ⟨arg, harg, found, hfound, hit⟩, hm⟩
  · rintro ⟨it, hit, hm⟩
    obtain ⟨arg, harg, found, hfound, hit⟩ := (mem_lookupArgs h).mp hit
    exact ⟨arg, harg, found, hfound, it, hit, hm⟩

theorem found_iff (h : lookupArgs host kmod t args = some lookups) :
    (∀ arg ∈ args, Found host kmod t arg) ↔ (partition lookups).2 = [] := by
  rw [partition_errors]
  constructor
  · intro hall x hx
    obtain ⟨arg, harg, found, hfound, hx⟩ := (mem_lookupArgs h).mp hx
    obtain ⟨found', hfound', hok⟩ := hall arg harg
    cases hfound.symm.trans hfound'
    exact hok x hx
  · intro hok arg harg
    cases hfound : lookupArg host kmod t arg with
    | none =>
        rw [lookupArgs_eq_none.mpr ⟨arg, harg, hfound⟩] at h
        cases h
    | some found =>
        exact ⟨found, hfound, fun x hx => hok x ((mem_lookupArgs h).mpr ⟨arg, harg, found, hfound, hx⟩)⟩

/-! ## What the arguments need -/

theorem all_isOk {results : List (Except InstallModuleError Unit)} :
    results.all (·.isOk) = true ↔ ∀ r ∈ results, r = .ok () := by
  rw [List.all_eq_true]
  apply forall₂_congr
  intro r _
  cases r with
  | error e => simp [Except.isOk, Except.toBool]
  | ok u => simp [Except.isOk, Except.toBool]

/-- The set holds the paths of the modules named that pass the filter, and with each
module those it depends on. -/
def HoldsArgs (host : ModuleHost M) (ctx : RunContext) (kmod : KmodContext M) (t : Tree)
    (args : List OsString) (s : Set OsString) : Prop :=
  (∀ m, Names host kmod t args m → ∀ p, kmod.path m = some p →
    filterModuleNamePathSymbols ctx.toRunContext kmod.toKmod m p = true → p ∈ s) ∧
  HoldsDependencies kmod.toKmod s ∧ HoldsSoftDependencies kmod.toKmod s

/-- The paths in every such set. -/
def argsNeed (host : ModuleHost M) (ctx : RunContext) (kmod : KmodContext M) (t : Tree)
    (args : List OsString) : Set OsString :=
  {p | ∀ s, HoldsArgs host ctx kmod t args s → p ∈ s}

/-- Every argument is found, and so is each soft dependency of what they need. -/
def Installable (host : ModuleHost M) (ctx : RunContext) (kmod : KmodContext M) (t : Tree)
    (args : List OsString) : Prop :=
  (∀ arg ∈ args, Found host kmod t arg) ∧
  ∀ m p, kmod.path m = some p → p ∈ argsNeed host ctx kmod t args → SoftFound kmod.toKmod m

theorem neededPaths_eq (h : lookupArgs host kmod t args = some lookups) :
    neededPaths ctx.toRunContext kmod.toKmod (partition lookups).1 =
      argsNeed host ctx kmod t args := by
  have hholds : ∀ s, HoldsNeeded ctx.toRunContext kmod.toKmod (partition lookups).1 s ↔
      HoldsArgs host ctx kmod t args s := by
    intro s
    apply and_congr_left'
    exact forall_congr' fun m => imp_congr_left (names_iff h).symm
  ext p
  exact forall_congr' fun s => imp_congr_left (hholds s)

variable {depth : Nat} {visited paths : Finset OsString}

theorem visitModules_ok (hk : kmod.toKmod.ByPath)
    (h : visitModules host ctx kmod t depth args = some (.ok visited)) :
    (↑visited : Set OsString) = argsNeed host ctx kmod t args := by
  unfold visitModules at h
  cases hlookups : lookupArgs host kmod t args with
  | none =>
      rw [hlookups] at h
      cases h
  | some lookups =>
      rw [hlookups] at h
      dsimp only at h
      split at h
      · split at h
        · cases h
        · next results seen hrun =>
            split at h
            · next hall =>
                cases h
                rw [← neededPaths_eq hlookups]
                apply eq_neededPaths (installRoots_isLeast hk hrun _)
                exact all_isOk.mp hall
            · cases h
      · cases h

/-- With enough depth `install_modules` comes to the paths that the arguments need, or
fails before it has touched anything, as the arguments and their needs are found or not. -/
theorem visitModules_exact (hk : kmod.toKmod.ByPath)
    (hpaths : ∀ m p, kmod.path m = some p → p ∈ paths) (hdepth : paths.card < depth) :
    (Installable host ctx kmod t args → ∃ visited : Finset OsString,
      ↑visited = argsNeed host ctx kmod t args ∧
      visitModules host ctx kmod t depth args = some (.ok visited)) ∧
    (¬ Installable host ctx kmod t args →
      visitModules host ctx kmod t depth args = some .panic ∨
      visitModules host ctx kmod t depth args = some (.err .moduleErrors)) := by
  unfold visitModules Installable
  cases hlookups : lookupArgs host kmod t args with
  | none =>
      obtain ⟨arg, harg, hnone⟩ := lookupArgs_eq_none.mp hlookups
      refine ⟨fun h => ?_, fun _ => Or.inl rfl⟩
      obtain ⟨found, hfound, _⟩ := h.1 arg harg
      rw [hnone] at hfound
      cases hfound
  | some lookups =>
      rw [found_iff hlookups]
      by_cases herrors : (partition lookups).2 = []
      · obtain ⟨⟨results, visited⟩, hrun⟩ :=
          installRoots_isSome ctx.toRunContext hpaths (partition lookups).1 ∅
        have hrun := hrun depth hdepth
        have hok := installRoots_ok_iff hk hrun
        rw [neededPaths_eq hlookups] at hok
        simp only [herrors, hrun, List.isEmpty_nil, if_true, true_and]
        rw [← hok, ← all_isOk]
        constructor
        · intro h
          refine ⟨visited, ?_, by rw [if_pos h]⟩
          rw [← neededPaths_eq hlookups]
          exact eq_neededPaths (installRoots_isLeast hk hrun (all_isOk.mp h))
        · intro h
          exact Or.inr (by rw [if_neg h])
      · have hempty : (partition lookups).2.isEmpty = false := by simpa using herrors
        refine ⟨fun h => absurd h.1 herrors, fun _ => Or.inr ?_⟩
        simp [hempty]

variable {fuel : Nat} {w : World}

/-- A run of `install_modules` is decided by what it visits. -/
theorem InstallModules.decided {r : Outcome InstallModulesError Unit} {w' : World}
    (hrun : InstallModules host ctx depth fuel args w r w')
    (hkmod : host.contextNewWith ctx.kerneldir = some kmod)
    {out : Outcome InstallModulesError (Finset OsString)}
    (hvisit : visitModules host ctx kmod w.tree depth args = some out) :
    match out with
    | .ok visited => ∃ files : List OsString, ∃ r', (files : Multiset OsString) = visited.val ∧
        installFiles host.env ctx.destrootdir fuel files w = some (r', w') ∧ r = ofInstall r'
    | .err e => r = .err e ∧ w' = w
    | .panic => r = .panic ∧ w' = w := by
  cases hrun with
  | noContext hnone =>
      rw [hkmod] at hnone
      cases hnone
  | unwound hkmod' hvisit' =>
      cases hkmod.symm.trans hkmod'
      cases hvisit.symm.trans hvisit'
      exact ⟨rfl, rfl⟩
  | failed hkmod' hvisit' =>
      cases hkmod.symm.trans hkmod'
      cases hvisit.symm.trans hvisit'
      exact ⟨rfl, rfl⟩
  | installed hkmod' hvisit' hfiles hinstall =>
      cases hkmod.symm.trans hkmod'
      cases hvisit.symm.trans hvisit'
      exact ⟨_, _, hfiles, hinstall, rfl⟩

/-- `install_modules` hands the paths that the arguments need to `install_files`, in
some order and each once, when all is found; else it fails and leaves all as it was. -/
theorem installModules_exact (hkmod : host.contextNewWith ctx.kerneldir = some kmod)
    (hk : kmod.toKmod.ByPath) (hpaths : ∀ m p, kmod.path m = some p → p ∈ paths)
    (hdepth : paths.card < depth) :
    (Installable host ctx kmod w.tree args → ∃ visited : Finset OsString,
      ↑visited = argsNeed host ctx kmod w.tree args ∧ ∀ r w',
        InstallModules host ctx depth fuel args w r w' ↔
          ∃ files : List OsString, ∃ r', (files : Multiset OsString) = visited.val ∧
            installFiles host.env ctx.destrootdir fuel files w = some (r', w') ∧
            r = ofInstall r') ∧
    (¬ Installable host ctx kmod w.tree args → ∃ failure, failure ≠ .ok () ∧ ∀ r w',
      InstallModules host ctx depth fuel args w r w' ↔ r = failure ∧ w' = w) := by
  have hexact := @visitModules_exact M host ctx kmod w.tree args depth paths hk hpaths hdepth
  constructor
  · intro hgood
    obtain ⟨visited, hvisited, hvisit⟩ := hexact.1 hgood
    refine ⟨visited, hvisited, fun r w' => ⟨fun hrun => ?_, ?_⟩⟩
    · exact hrun.decided hkmod hvisit
    · rintro ⟨files, r', hfiles, hinstall, rfl⟩
      exact .installed hkmod hvisit hfiles hinstall
  · intro hbad
    rcases hexact.2 hbad with hvisit | hvisit
    · refine ⟨.panic, by simp, fun r w' => ⟨fun hrun => hrun.decided hkmod hvisit, ?_⟩⟩
      rintro ⟨rfl, rfl⟩
      exact .unwound hkmod hvisit
    · refine ⟨.err .moduleErrors, by simp, fun r w' => ⟨fun hrun => hrun.decided hkmod hvisit, ?_⟩⟩
      rintro ⟨rfl, rfl⟩
      exact .failed hkmod hvisit

/-- What `install_files` is given is what the arguments need. -/
theorem mem_files {files : List OsString} (hk : kmod.toKmod.ByPath)
    (hvisit : visitModules host ctx kmod t depth args = some (.ok visited))
    (hfiles : (files : Multiset OsString) = visited.val) {path : OsString} :
    path ∈ files ↔ path ∈ argsNeed host ctx kmod t args := by
  have hneed : (↑visited : Set OsString) = argsNeed host ctx kmod t args := visitModules_ok hk hvisit
  rw [← hneed, Finset.mem_coe, ← Finset.mem_val, ← hfiles, Multiset.mem_coe]

theorem InstallModules.keepsKinds {r : Outcome InstallModulesError Unit} {w' : World}
    (hrun : InstallModules host ctx depth fuel args w r w') :
    Tree.KeepsKinds w.tree w'.tree := by
  cases hrun with
  | noContext _ => exact .refl _
  | unwound _ _ => exact .refl _
  | failed _ _ => exact .refl _
  | installed _ _ _ hinstall => exact installFiles_keepsKinds hinstall

/-- However `install_modules` ends, each thing that is made is there and is the target of a
path that one of the needed modules needs. -/
theorem InstallModules.needed {S : Tree} {flags : Flags} {r : Outcome InstallModulesError Unit}
    {w' : World} (hk : ∀ dir kmod, host.contextNewWith dir = some kmod → kmod.toKmod.ByPath)
    (hrun : InstallModules host ctx depth fuel args (World.start S flags) r w') :
    ∀ m ∈ w'.made, m.Present host.env.view w'.tree ∧
      ∃ kmod, host.contextNewWith ctx.kerneldir = some kmod ∧
        ∃ path ∈ argsNeed host ctx kmod S args, ∃ p, Needs host.env.view w'.tree path p ∧
          MadeFor host.env.view ctx.destrootdir w'.tree p m := by
  cases hrun with
  | noContext _ => exact fun m hm => absurd hm List.not_mem_nil
  | unwound _ _ => exact fun m hm => absurd hm List.not_mem_nil
  | failed _ _ => exact fun m hm => absurd hm List.not_mem_nil
  | @installed kmod visited files _ _ hkmod hvisit hfiles hinstall =>
      intro m hm
      obtain ⟨hpresent, path, hpath, p, hneeds, hfor⟩ := installFiles_made hinstall hm
      have hneed := (mem_files (hk _ kmod hkmod) hvisit hfiles).mp hpath
      exact ⟨hpresent, kmod, hkmod, path, hneed, p, hneeds, hfor⟩

/-- When `install_modules` returns `Ok`, the target of every module that the arguments need
is there, whatever its calls were answered. -/
theorem installModules_targets {r : Outcome InstallModulesError Unit} {w' : World}
    (hkmod : host.contextNewWith ctx.kerneldir = some kmod) (hk : kmod.toKmod.ByPath)
    (hrun : InstallModules host ctx depth fuel args w r w') (hr : r = .ok ()) :
    ∀ path ∈ argsNeed host ctx kmod w.tree args, parent path ≠ none →
      ∃ n, w'.tree.status host.env.view false (targetOf ctx.destrootdir path) = .ok n := by
  cases hrun with
  | noContext _ => cases hr
  | unwound _ _ => cases hr
  | failed _ _ => cases hr
  | @installed kmod' visited files r' _ hkmod' hvisit hfiles hinstall =>
      cases hkmod.symm.trans hkmod'
      intro path hpath hparent
      cases r' with
      | ok u => exact installFiles_targets hinstall ((mem_files hk hvisit hfiles).mpr hpath) hparent
      | err e => cases hr
      | panic => cases hr

end Modules

/-! ## Two modules that depend on each other -/

namespace Sample

open File.Sample

/-- The second is not found by any name. -/
def kmod : KmodContext (Fin 2) where
  name m := if m = 0 then some (ascii "m") else none
  path m := if m = 0 then some (ascii "/a") else some (ascii "/b")
  dependencies m := if m = 0 then [1] else [0]
  softDependencies _ := none
  dependencySymbols _ := none
  moduleNewFromLookup name := if name = ascii "m" then some [0] else none
  dirname := ascii "/k"
  moduleNewFromPath _ := none

def moduleHost : ModuleHost (Fin 2) :=
  { env := calm, contextNewWith := fun _ => some kmod, walkDir := fun _ _ => [], debug := false }

def context : RunContext :=
  { modFilterPath := none, modFilterNopath := none, modFilterSymbol := none
    modFilterNosymbol := none, modFilterNoname := none
    module := true, modalias := false
    destrootdir := ascii "/r", kerneldir := none, logdir := none }

def modules : Tree := .ofEntries [
  ([ascii "r"], .dir 0o755), ([ascii "a"], .file 0o644 [1]), ([ascii "b"], .file 0o644 [2])]

theorem kmod_path {m m' : Fin 2} {p : OsString} (h : kmod.path m = some p)
    (h' : kmod.path m' = some p) : m = m' := by
  have hinj : ∀ m m', kmod.path m = kmod.path m' → m = m' := by decide
  exact hinj m m' (h.trans h'.symm)

theorem kmod_byPath : kmod.toKmod.ByPath where
  dependencies := fun _ _ _ h h' => congrArg _ (kmod_path h h')
  softDependencies := fun _ _ _ h h' => congrArg _ (kmod_path h h')

theorem kmod_paths : ∀ m p, kmod.path m = some p → p ∈ ({ascii "/a", ascii "/b"} : Finset OsString) := by
  intro m p hp
  have hpath : ∀ m, kmod.path m ∈ [some (ascii "/a"), some (ascii "/b")] := by decide
  simpa [hp] using hpath m

theorem installable : Installable moduleHost context kmod modules [ascii "m.ko"] := by
  constructor
  · intro arg harg
    obtain rfl := List.mem_singleton.mp harg
    refine ⟨[.ok [0]], by decide +kernel, fun x hx => ⟨[0], List.mem_singleton.mp hx⟩⟩
  · intro m p _ _ pre post hsoft
    cases hsoft

theorem modules_visited :
    visitModules moduleHost context kmod modules 3 [ascii "m.ko"] =
      some (.ok {ascii "/b", ascii "/a"}) := by
  decide +kernel

theorem modules_installed :
    ∃ w, InstallModules moduleHost context 3 9 [ascii "m.ko"] (World.start modules ⟨true, true⟩)
        (.ok ()) w ∧ w.made = [.file (ascii "/r/b"), .file (ascii "/r/a")] := by
  obtain ⟨w, hrun, hmade⟩ : ∃ w, installFiles calm (ascii "/r") 9 [ascii "/b", ascii "/a"]
        (World.start modules ⟨true, true⟩) = some (.ok (), w) ∧
      w.made = [.file (ascii "/r/b"), .file (ascii "/r/a")] :=
    Process.exists_ok_of_any (by decide +kernel)
  have hkmod : moduleHost.contextNewWith context.kerneldir = some kmod := rfl
  have hinstall : installFiles moduleHost.env context.destrootdir 9 [ascii "/b", ascii "/a"]
      (World.start modules ⟨true, true⟩) = some (.ok (), w) := hrun
  exact ⟨w, InstallModules.installed (r := .ok ()) hkmod modules_visited rfl hinstall, hmade⟩

end Sample

theorem modules_exact : ∃ visited : Finset OsString,
    ↑visited = argsNeed Sample.moduleHost Sample.context Sample.kmod Sample.modules
      [ascii "m.ko"] ∧
    ∀ r w', InstallModules Sample.moduleHost Sample.context 3 9 [ascii "m.ko"]
        (World.start Sample.modules ⟨true, true⟩) r w' ↔
      ∃ files : List OsString, ∃ r', (files : Multiset OsString) = visited.val ∧
        installFiles Sample.moduleHost.env (ascii "/r") 9 files
          (World.start Sample.modules ⟨true, true⟩) = some (r', w') ∧ r = ofInstall r' :=
  (installModules_exact rfl Sample.kmod_byPath Sample.kmod_paths (by decide)).1 Sample.installable

theorem modules_targets :
    ∃ w, InstallModules Sample.moduleHost Sample.context 3 9 [ascii "m.ko"]
        (World.start Sample.modules ⟨true, true⟩) (.ok ()) w ∧
      ∀ path ∈ argsNeed Sample.moduleHost Sample.context Sample.kmod Sample.modules [ascii "m.ko"],
        parent path ≠ none →
        ∃ n, w.tree.status Sample.moduleHost.env.view false (targetOf (ascii "/r") path) =
          .ok n := by
  obtain ⟨w, hrun, _⟩ := Sample.modules_installed
  exact ⟨w, hrun, installModules_targets rfl Sample.kmod_byPath hrun rfl⟩

end Install
end DracutInstall
