/-
`do_main`: what the process does once the options are read.

The lines that are logged are left out, but not that the log has to be opened.
-/
import DracutInstall.Modules.Modalias
import DracutInstall.Install.Modules

namespace DracutInstall
namespace Install

open ByteCodec Rust UnixPath FileTree Elfkit Modules File

variable {M : Type}

/-- The machine the process runs on. -/
structure Machine (M : Type) extends ModuleHost M where
  devices : Devices
  byteOrder : ByteOrder
  pid : Nat
  opensLog : OsString → Bool
  release : Option OsString
  modaliasHost : ModaliasHost M

def Machine.host (machine : Machine M) : Host :=
  { env := machine.env, devices := machine.devices, byteOrder := machine.byteOrder }

inductive MainError (M : Type) where
  | openLog
  | uname
  | modalias (e : ModaliasError M)
  | modules (e : InstallModulesError)
  | files (e : CloneError)

/-- The log is opened where a directory for it is given. -/
def Machine.setUpLogging (machine : Machine M) (ctx : RunContext) : Bool :=
  match ctx.logdir with
  | none => true
  | some dir => machine.opensLog (push dir (ascii (toString machine.pid ++ ".log")))

/-- The directory that is given, or that of the running kernel. -/
def Machine.kerneldir (machine : Machine M) (ctx : RunContext) : Option OsString :=
  match ctx.kerneldir with
  | some dir => some dir
  | none => machine.release.map fun release => ascii "/lib/modules/" ++ release

def ofModalias : Except (ModaliasError M) (Finset OsString) → Outcome (MainError M) Unit
  | .ok _ => .ok ()
  | .error e => .err (.modalias e)

def ofModules : Outcome InstallModulesError Unit → Outcome (MainError M) Unit
  | .ok u => .ok u
  | .err e => .err (.modules e)
  | .panic => .panic

def ofFiles : Outcome CloneError Unit → Outcome (MainError M) Unit
  | .ok u => .ok u
  | .err e => .err (.files e)
  | .panic => .panic

/-- `do_main` -/
inductive DoMain (machine : Machine M) (ctx : RunContext) (depth fuel : Nat)
    (args : List OsString) (w : World) : Outcome (MainError M) Unit → World → Prop
  | noLog (hlog : machine.setUpLogging ctx = false) :
      DoMain machine ctx depth fuel args w (.err .openLog) w
  | noRelease (hlog : machine.setUpLogging ctx = true) (hdir : machine.kerneldir ctx = none) :
      DoMain machine ctx depth fuel args w (.err .uname) w
  | listed {dir : OsString} (hlog : machine.setUpLogging ctx = true)
      (hdir : machine.kerneldir ctx = some dir) (hmode : ctx.modalias = true) :
      DoMain machine ctx depth fuel args w (ofModalias (modaliasList machine.modaliasHost)) w
  | modules {dir : OsString} {r : Outcome InstallModulesError Unit} {w' : World}
      (hlog : machine.setUpLogging ctx = true) (hdir : machine.kerneldir ctx = some dir)
      (hmode : ctx.modalias = false) (hmodule : ctx.module = true)
      (hrun : InstallModules machine.toModuleHost { ctx with kerneldir := some dir } depth fuel
        args w r w') :
      DoMain machine ctx depth fuel args w (ofModules r) w'
  | files {dir : OsString} {r : Outcome CloneError Unit} {w' : World}
      (hlog : machine.setUpLogging ctx = true) (hdir : machine.kerneldir ctx = some dir)
      (hmode : ctx.modalias = false) (hmodule : ctx.module = false)
      (hrun : InstallFilesLdd machine.host ctx.destrootdir fuel args w r w') :
      DoMain machine ctx depth fuel args w (ofFiles r) w'

/-! ## What a process leaves behind -/

/-- The path is one that the arguments ask for in the mode the process is in. -/
inductive Wanted (machine : Machine M) (ctx : RunContext) (S : Tree) (args : List OsString)
    (path : OsString) : Prop
  | module {dir : OsString} {kmod : KmodContext M} (hmode : ctx.module = true)
      (hdir : machine.kerneldir ctx = some dir) (hkmod : machine.contextNewWith (some dir) = some kmod)
      (hneed : path ∈ argsNeed machine.toModuleHost { ctx with kerneldir := some dir } kmod S args)
  | file {cache : Option LdsoCache} (hmode : ctx.module = false)
      (hcache : machine.host.cache (machine.host.fileSystem S) = .ok cache)
      (hrequired : Required (lddOn (machine.host.fileSystem S) cache ctx.destrootdir) args path)

/-- In every mode, and however the process ends: what was there is there still and of its
kind; what is made is there, and is the target of a path that one that is wanted needs;
and the list of aliases touches nothing. -/
theorem doMain_wanted {machine : Machine M} {ctx : RunContext} {depth fuel : Nat}
    {args : List OsString} {S : Tree} {flags : Flags} {r : Outcome (MainError M) Unit} {w' : World}
    (hk : ∀ dir kmod, machine.contextNewWith dir = some kmod → kmod.toKmod.ByPath)
    (h : DoMain machine ctx depth fuel args (World.start S flags) r w') :
    Tree.KeepsKinds S w'.tree ∧
    (∀ m ∈ w'.made, m.Present machine.env.view w'.tree ∧
      ∃ path, Wanted machine ctx S args path ∧
        ∃ p, Needs machine.env.view w'.tree path p ∧
          MadeFor machine.env.view ctx.destrootdir w'.tree p m) ∧
    (ctx.modalias = true → w' = World.start S flags) := by
  have hnone : ∀ m ∈ (World.start S flags).made, False := fun m hm => List.not_mem_nil hm
  cases h with
  | noLog _ => exact ⟨.refl S, fun m hm => (hnone m hm).elim, fun _ => rfl⟩
  | noRelease _ _ => exact ⟨.refl S, fun m hm => (hnone m hm).elim, fun _ => rfl⟩
  | listed _ _ _ => exact ⟨.refl S, fun m hm => (hnone m hm).elim, fun _ => rfl⟩
  | @modules dir r _ _ hdir hmode hmodule hrun =>
      refine ⟨hrun.keepsKinds, fun m hm => ?_, fun h => by rw [hmode] at h; cases h⟩
      obtain ⟨hpresent, kmod, hkmod, path, hneed, p, hneeds, hfor⟩ := hrun.needed hk m hm
      exact ⟨hpresent, path, .module hmodule hdir hkmod hneed, p, hneeds, hfor⟩
  | @files dir r _ _ hdir hmode hmodule hrun =>
      refine ⟨hrun.keepsKinds, fun m hm => ?_, fun h => by rw [hmode] at h; cases h⟩
      obtain ⟨hpresent, cache, path, p, hcache, hrequired, hneeds, hfor⟩ := hrun.required m hm
      exact ⟨hpresent, path, .file hmodule hcache hrequired, p, hneeds, hfor⟩

/-! ## An object and its library -/

namespace Sample

def machine : Machine (Fin 2) :=
  { moduleHost with
    devices := host.devices, byteOrder := host.byteOrder, pid := 7, opensLog := fun _ => false
    release := some (ascii "6")
    modaliasHost := {
      contextNew := none, modulesLoaded := none, walkDir := []
      readToEnd := fun _ => .error .enoent } }

def fileContext : RunContext := { context with module := false }

end Sample

theorem lib_wanted :
    ∃ w, DoMain Sample.machine Sample.fileContext 3 9 [ascii "/a"]
        (World.start Sample.lib ⟨true, true⟩) (.ok ()) w ∧ w.made.length = 4 ∧
      Tree.KeepsKinds Sample.lib w.tree ∧
      ∀ m ∈ w.made, m.Present Sample.machine.env.view w.tree ∧
        ∃ path, Wanted Sample.machine Sample.fileContext Sample.lib [ascii "/a"] path ∧
          ∃ p, Needs Sample.machine.env.view w.tree path p ∧
            MadeFor Sample.machine.env.view (ascii "/r") w.tree p m := by
  obtain ⟨w, hrun, hmade⟩ := Sample.lib_run
  have hdir : Sample.machine.kerneldir Sample.fileContext = some (ascii "/lib/modules/6") := rfl
  have hmain : DoMain Sample.machine Sample.fileContext 3 9 [ascii "/a"]
      (World.start Sample.lib ⟨true, true⟩) (.ok ()) w := .files (r := .ok ()) rfl hdir rfl rfl hrun
  have hk : ∀ dir kmod, Sample.machine.contextNewWith dir = some kmod → kmod.toKmod.ByPath := by
    intro dir kmod hkmod
    cases hkmod
    exact Sample.kmod_byPath
  obtain ⟨hkeeps, hwanted, _⟩ := doMain_wanted hk hmain
  exact ⟨w, hmain, hmade, hkeeps, hwanted⟩

end Install
end DracutInstall
