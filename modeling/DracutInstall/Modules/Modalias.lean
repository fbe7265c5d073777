/-
`modalias_list`: the modules that are loaded, and those that the aliases of the
devices are looked up to.

What libkmod, `walkdir` and the files of `/sys/devices` answer is a parameter.
-/
import DracutInstall.Lib.Collect
import DracutInstall.Lib.Outcome
import DracutInstall.Modules.Closure

namespace DracutInstall
namespace Modules

open ByteCodec Rust UnixPath Collect

variable {M : Type}

/-- What `modalias_list` has around it. -/
structure ModaliasHost (M : Type) where
  contextNew : Option (Kmod M)
  modulesLoaded : Option (List M)
  walkDir : List OsString
  readToEnd : OsString → Except Errno (List UInt8)

inductive ModaliasError (M : Type) where
  | kmod
  | noName (path : Option OsString)
  | io (e : Errno)

def insertName (kmod : Kmod M) (m : M) (modules : Finset OsString) :
    Except (ModaliasError M) (Finset OsString) :=
  match kmod.name m with
  | none => .error (.noName (kmod.path m))
  | some moduleName => .ok (insert moduleName modules)

/-- The modules that an alias is looked up to. -/
def insertLookup (kmod : Kmod M) (modalias : OsString) (modules : Finset OsString) :
    Except (ModaliasError M) (Finset OsString) :=
  match kmod.moduleNewFromLookup modalias with
  | none => .error .kmod
  | some it => collect (insertName kmod) it modules

/-- A loaded module, and what its name is looked up to. -/
def insertLoaded (kmod : Kmod M) (m : M) (modules : Finset OsString) :
    Except (ModaliasError M) (Finset OsString) :=
  match kmod.name m with
  | none => .error (.noName (kmod.path m))
  | some moduleName => insertLookup kmod moduleName (insert moduleName modules)

/-- The text without one newline at its end. -/
def popNewline (text : List UInt8) : List UInt8 :=
  if text.getLast? = some 10 then text.dropLast else text

/-- What one file called `modalias` adds. -/
def insertDevice (host : ModaliasHost M) (kmod : Kmod M) (path : OsString)
    (modules : Finset OsString) : Except (ModaliasError M) (Finset OsString) :=
  match host.readToEnd path with
  | .error e => .error (.io e)
  | .ok text =>
      let modalias := popNewline text
      if modalias.isEmpty then .ok modules else insertLookup kmod modalias modules

/-- `DirEntry::file_name` -/
def entryFileName (path : OsString) : OsString := (fileName path).getD path

def ModaliasHost.aliases (host : ModaliasHost M) : List OsString :=
  host.walkDir.filter fun path => entryFileName path == ascii "modalias"

def modaliasList (host : ModaliasHost M) : Except (ModaliasError M) (Finset OsString) :=
  match host.contextNew with
  | none => .error .kmod
  | some kmod =>
      match host.modulesLoaded with
      | none => .error .kmod
      | some loaded =>
          match collect (insertLoaded kmod) loaded ∅ with
          | .error e => .error e
          | .ok modules => collect (insertDevice host kmod) host.aliases modules

/-! ## What is listed -/

/-- The alias is looked up to modules that have a name. -/
def Resolves (kmod : Kmod M) (modalias : OsString) : Prop :=
  ∃ it, kmod.moduleNewFromLookup modalias = some it ∧ ∀ m ∈ it, ∃ name, kmod.name m = some name

/-- The name is that of a module that the alias is looked up to. -/
def ResolvesTo (kmod : Kmod M) (modalias name : OsString) : Prop :=
  ∃ it, kmod.moduleNewFromLookup modalias = some it ∧ ∃ m ∈ it, kmod.name m = some name

/-- The file has this alias in it, which is not empty. -/
def HasAlias (host : ModaliasHost M) (path modalias : OsString) : Prop :=
  ∃ text, host.readToEnd path = .ok text ∧ popNewline text = modalias ∧ modalias ≠ []

theorem insertName_adds (kmod : Kmod M) (m : M) :
    Adds (insertName kmod m) (∃ name, kmod.name m = some name)
      fun name => kmod.name m = some name := by
  unfold insertName
  cases kmod.name m with
  | none => exact (Adds.error _).congr (by simp) (by simp)
  | some moduleName => exact (Adds.ok.insert moduleName).congr (by simp) (by simp [eq_comm])

theorem insertLookup_adds (kmod : Kmod M) (modalias : OsString) :
    Adds (insertLookup kmod modalias) (Resolves kmod modalias) (ResolvesTo kmod modalias) := by
  unfold insertLookup Resolves ResolvesTo
  cases kmod.moduleNewFromLookup modalias with
  | none => exact (Adds.error _).congr (by simp) (by simp)
  | some it => exact (Adds.collect (insertName_adds kmod) it).congr (by simp) (by simp)

theorem insertLoaded_adds (kmod : Kmod M) (m : M) :
    Adds (insertLoaded kmod m) (∃ own, kmod.name m = some own ∧ Resolves kmod own)
      fun name => ∃ own, kmod.name m = some own ∧ (name = own ∨ ResolvesTo kmod own name) := by
  unfold insertLoaded
  cases kmod.name m with
  | none => exact (Adds.error _).congr (by simp) (by simp)
  | some own => exact ((insertLookup_adds kmod own).insert own).congr (by simp) (by simp)

theorem insertDevice_adds (host : ModaliasHost M) (kmod : Kmod M) (path : OsString) :
    Adds (insertDevice host kmod path)
      ((∃ text, host.readToEnd path = .ok text) ∧
        ∀ modalias, HasAlias host path modalias → Resolves kmod modalias)
      fun name => ∃ modalias, HasAlias host path modalias ∧ ResolvesTo kmod modalias name := by
  unfold insertDevice HasAlias
  cases host.readToEnd path with
  | error e => exact (Adds.error _).congr (by simp) (by simp)
  | ok text =>
      by_cases hempty : popNewline text = []
      · simp only [hempty, List.isEmpty_nil, if_true]
        exact Adds.ok.congr (by simp [hempty]) (by simp [hempty])
      · have hfalse : (popNewline text).isEmpty = false := by simpa using hempty
        simp only [hfalse, Bool.false_eq_true, if_false]
        exact (insertLookup_adds kmod _).congr (by simp [hempty]) (by simp [hempty])

/-- Every query that the list depends on is answered, every file can be read, and every
module found has a name. -/
def Answered (host : ModaliasHost M) (kmod : Kmod M) (loaded : List M) : Prop :=
  (∀ m ∈ loaded, ∃ own, kmod.name m = some own ∧ Resolves kmod own) ∧
  ∀ path ∈ host.aliases, (∃ text, host.readToEnd path = .ok text) ∧
    ∀ modalias, HasAlias host path modalias → Resolves kmod modalias

/-- The name is one of a loaded module, of what that name is looked up to, or of what
the alias of a device is looked up to. -/
def Listed (host : ModaliasHost M) (kmod : Kmod M) (loaded : List M) (name : OsString) : Prop :=
  (∃ m ∈ loaded, ∃ own, kmod.name m = some own ∧ (name = own ∨ ResolvesTo kmod own name)) ∨
  ∃ path ∈ host.aliases, ∃ modalias, HasAlias host path modalias ∧ ResolvesTo kmod modalias name

/-- `modalias_list` succeeds exactly when nothing it asks for fails, in whichever order
the modules and devices come, and then lists exactly the names it should. -/
theorem modaliasList_exact {host : ModaliasHost M} {kmod : Kmod M} {loaded : List M}
    (hkmod : host.contextNew = some kmod) (hloaded : host.modulesLoaded = some loaded) :
    ((∃ s, modaliasList host = .ok s) ↔ Answered host kmod loaded) ∧
    ∀ s, modaliasList host = .ok s → ∀ name, name ∈ s ↔ Listed host kmod loaded name := by
  have hfirst := Adds.collect (insertLoaded_adds kmod) loaded
  have hsecond := Adds.collect (insertDevice_adds host kmod) host.aliases
  unfold modaliasList Answered
  simp only [hkmod, hloaded]
  rw [← hfirst.succeeds ∅]
  cases hcollect : collect (insertLoaded kmod) loaded ∅ with
  | error e => simp
  | ok modules =>
      constructor
      · rw [hsecond.succeeds modules]
        simp
      · intro s hs name
        rw [hsecond.mem modules s hs, hfirst.mem ∅ modules hcollect]
        simp [Listed]

/-- The name of the second module is an alias of the third one, and the aliases `7` and `8`
are those of the last one and of nothing. -/
def sampleModaliasKmod : Kmod (Fin 4) :=
  { name := fun m => some [UInt8.ofNat m.val]
    path := fun m => some [47, UInt8.ofNat m.val]
    dependencies := fun _ => []
    softDependencies := fun _ => none
    dependencySymbols := fun _ => none
    moduleNewFromLookup := fun name =>
      if name = [0] then some [0]
      else if name = [1] then some [1, 2]
      else if name = [7] then some [3]
      else if name = [8] then some []
      else none }

/-- Two modules are loaded, and there are two devices; one file has no newline at its end. -/
def sampleModaliasHost : ModaliasHost (Fin 4) :=
  { contextNew := some sampleModaliasKmod
    modulesLoaded := some [0, 1]
    walkDir := [ascii "/sys/devices", ascii "/sys/devices/a/modalias", ascii "/sys/devices/b/modalias"]
    readToEnd := fun path =>
      if path = ascii "/sys/devices/a/modalias" then .ok [7, 10] else .ok [8] }

theorem modaliasList_sample :
    modaliasList sampleModaliasHost = .ok {[3], [2], [1], [0]} ∧
      Answered sampleModaliasHost sampleModaliasKmod [0, 1] ∧
      ∀ name, name ∈ ({[3], [2], [1], [0]} : Finset OsString) ↔
        Listed sampleModaliasHost sampleModaliasKmod [0, 1] name := by
  have hkmod : sampleModaliasHost.contextNew = some sampleModaliasKmod := rfl
  have hlist : modaliasList sampleModaliasHost = .ok {[3], [2], [1], [0]} := rfl
  have hexact := modaliasList_exact hkmod rfl
  exact ⟨hlist, hexact.1.mp ⟨_, hlist⟩, hexact.2 _ hlist⟩

end Modules
end DracutInstall
