/-
`Ldd::recurse` and `ldd`: the objects a list of objects needs.

Every object taken from the queue is a worker.  It reads its object, and then
calls operations on what the workers share: the set `visited`, the cache of
canonical directories and the queue.  Each lock the source takes is one call, so
that the workers interleave wherever the threads can.
-/
import Mathlib.Data.Finset.Basic
import Mathlib.Data.List.AList
import DracutInstall.Lib.UnixPath
import DracutInstall.Lib.WorkList
import DracutInstall.Elfkit.Elf
import DracutInstall.Elfkit.LdSoCache

namespace DracutInstall
namespace Elfkit

open ByteCodec Rust UnixPath WorkList

/-! ## The file system -/

inductive Opened where
  | file (bytes : List UInt8)
  | directory

/-- A file system that does not change, by the answers of `std::path` and
`File::open`. -/
structure FileSystem where
  pathExists : OsString → Bool
  canonicalize : OsString → Option OsString
  openFile : OsString → Except IoErrorKind Opened
  canonicalize_canonical : ∀ p c, canonicalize p = some c → Canonical c
  canonicalize_idem : ∀ p c, canonicalize p = some c → canonicalize c = some c
  /-- A path without a parent is empty or the root, and neither is a file. -/
  openFile_parent : ∀ p bytes, openFile p = .ok (.file bytes) → parent p ≠ none

/-- `file::canonicalize_dir`: the directory is resolved, the last name is kept. -/
def FileSystem.canonicalizeDir (fs : FileSystem) (source : OsString) : Option OsString := do
  let sourceFilename ← fileName source
  let dirname ← parent source
  let canon ← fs.canonicalize dirname
  pure (push canon sourceFilename)

/-! ## Reading one object -/

/-- The walk of `replace_slice` over the buffer, for a `src` that is not empty.
The next `skip` bytes belong to the occurrence found last. -/
def replaceFrom (src dst : List UInt8) : Nat → List UInt8 → List UInt8
  | _, [] => []
  | skip + 1, _ :: rest => replaceFrom src dst skip rest
  | 0, b :: rest =>
      if src <+: b :: rest then dst ++ replaceFrom src dst (src.length - 1) rest
      else b :: replaceFrom src dst 0 rest

def replaceSlice (buf src dst : List UInt8) : List UInt8 := replaceFrom src dst 0 buf

example : replaceSlice (ascii "/$ORIGIN/") (ascii "$ORIGIN") (ascii "TEST") = ascii "/TEST/" := by
  decide

example : replaceSlice (ascii "/_ORIGIN//") (ascii "$ORIGIN") (ascii "TEST") =
    ascii "/_ORIGIN//" := by
  decide

/-- The errors of `recurse`. -/
inductive RecurseError where
  | io (kind : IoErrorKind)
  | notADynamicExecutable
  | elf (e : Error)
  | unableToFindDependency (dep : OsString) (lpaths : Finset OsString)
  deriving DecidableEq

/-- What the loops over the sections and their entries have collected. -/
structure Scanned where
  lpaths : Finset OsString
  deps : List OsString
  deriving DecidableEq

/-- The directories of a RPATH or RUNPATH string. -/
def runPaths (origin name : OsString) : List OsString :=
  (name.splitOn 58).map fun n => replaceSlice n (ascii "$ORIGIN") origin

/-- The body of `for dyn_entry in dynamic.iter()`.  The source has the same block
for RPATH and for RUNPATH. -/
def scanEntry (path : OsString) (s : Scanned) (entry : Dynamic) : Outcome RecurseError Scanned :=
  match entry.content with
  | .string name _ =>
      if entry.dhtype = .rpath ∨ entry.dhtype = .runpath then
        match parent path with
        | none => .panic
        | some origin => .ok { s with lpaths := s.lpaths ∪ (runPaths origin name).toFinset }
      else if entry.dhtype = .needed then .ok { s with deps := s.deps ++ [name] }
      else .ok s
  | _ => .ok s

def scanEntries (path : OsString) : Scanned → List Dynamic → Outcome RecurseError Scanned
  | s, [] => .ok s
  | s, entry :: entries => do
      let s ← scanEntry path s entry
      scanEntries path s entries

/-- `for shndx in 0..elf.sections.len()`, from some index on. -/
def scanSections (file : List UInt8) (path : OsString) :
    List Nat → Elf → Scanned → Outcome RecurseError Scanned
  | [], _, s => .ok s
  | shndx :: rest, elf, s =>
      match elf.sections[shndx]? with
      | none => .panic
      | some sec =>
          if sec.header.shtype = SectionType.dynamic then
            match elf.load file shndx with
            | (.ok (), elf) =>
                match elf.sections[shndx]?.bind fun sec => sec.content.asDynamic with
                | none => .panic
                | some entries => do
                    let s ← scanEntries path s entries
                    scanSections file path rest elf s
            | _ => .panic
          else scanSections file path rest elf s

/-- `recurse` up to the search: the directories to look in and the names to find. -/
def FileSystem.scan (fs : FileSystem) (path : OsString) (lpaths : Finset OsString) :
    Outcome RecurseError Scanned :=
  match fs.openFile path with
  | .error kind => .err (.io kind)
  -- `from_reader` takes any error of its first read for a wrong magic
  | .ok .directory => .err .notADynamicExecutable
  | .ok (.file bytes) =>
      match Elf.fromReader bytes with
      | .ok elf =>
          scanSections bytes path (List.range elf.sections.length) elf { lpaths, deps := [] }
      | .err .invalidMagic => .err .notADynamicExecutable
      | .err e => .err (.elf e)
      | .panic => .panic

/-! ## What the workers share -/

/-- An element of the queue. -/
structure Item where
  path : OsString
  lpaths : Finset OsString
  deriving DecidableEq

/-- Where `recurse` probes: along directories, or at the paths the cache lists. -/
inductive Stage where
  | directory
  | cache
  deriving DecidableEq

section Calls

variable (fs : FileSystem)

/-- An entry of `canon_cache`: only answers of `canonicalize` are ever put there. -/
abbrev CanonOf (path : OsString) : Type := {val : OsString // fs.canonicalize path = some val}

inductive Op where
  | canonGet (path : OsString)
  | canonPut (path : OsString) (val : CanonOf fs path)
  | insert (stage : Stage) (path : OsString)
  | enqueue (item : Item)

abbrev Res : Op fs → Type
  | .canonGet path => Option (CanonOf fs path)
  | .canonPut _ _ => Unit
  | .insert _ _ => Bool
  | .enqueue _ => Unit

structure Shared where
  visited : Finset OsString
  canonCache : AList (CanonOf fs)

variable {fs}

def exec : (op : Op fs) → Shared fs → Res fs op × Shared fs
  | .canonGet path, s => (s.canonCache.lookup path, s)
  | .canonPut path val, s => ((), { s with canonCache := s.canonCache.insert path val })
  | .insert _ path, s => (decide (path ∉ s.visited), { s with visited := insert path s.visited })
  | .enqueue _, s => ((), s)

def enqueues : Op fs → Option Item
  | .enqueue item => some item
  | _ => none

variable (fs) in
abbrev Call (α : Type) := Prog (Op fs) (Res fs) α

def canonGet (path : OsString) : Call fs (Option (CanonOf fs path)) := Prog.op (Op.canonGet path)

def canonPut (path : OsString) (val : CanonOf fs path) : Call fs Unit :=
  Prog.op (Op.canonPut path val)

/-- `visited.write().unwrap().insert(..)`. -/
def visit (stage : Stage) (path : OsString) : Call fs Bool := Prog.op (Op.insert stage path)

def enqueue (item : Item) : Call fs Unit := Prog.op (Op.enqueue item)

/-- `Ldd::canonicalize`. -/
def canonicalize (path : OsString) : Call fs (Option OsString) := do
  match ← canonGet path with
  | some val => pure (some val.val)
  | none =>
      match h : fs.canonicalize path with
      | none => pure none
      | some val => do
          canonPut path ⟨val, h⟩
          pure (some val)

/-- `Ldd::canonicalize_dir`. -/
def canonicalizeDir (path : OsString) : Call fs (Option OsString) :=
  match fileName path, parent path with
  | some sourceFilename, some dirname => do
      let canonDirname ← canonicalize dirname
      pure (canonDirname.map fun dir => push dir sourceFilename)
  | _, _ => pure none

/-- `self.canonicalize_dir(&joined).unwrap_or(joined)`. -/
def spell (joined : OsString) : Call fs OsString := do
  let canon ← canonicalizeDir joined
  pure (canon.getD joined)

end Calls

/-! ## The search -/

/-- The default directories `ldd` is built with. -/
def standardLibdirs : List OsString := [ascii "/lib64/dyninst", ascii "/lib64"]

structure Ldd where
  fs : FileSystem
  ldSoCache : Option LdsoCache
  defaultLibdir : List OsString
  destPath : OsString

namespace Ldd

variable (ldd : Ldd)

/-- The file is already below `dest_path`. -/
def inDest (path : OsString) : Bool := ldd.fs.pathExists (ldd.destPath ++ path)

/-- `joined.exists() && !dest.exists()`. -/
def installable (joined : OsString) : Bool := ldd.fs.pathExists joined && !ldd.inDest joined

/-- A loop over directories; `true` is `continue 'outer`. -/
def probeDirs (lpaths : Finset OsString) (dep : OsString) : List OsString → Call ldd.fs Bool
  | [] => pure false
  | dir :: dirs => do
      let joined ← spell (push dir dep)
      if ← visit .directory joined then
        if ldd.installable joined then
          enqueue ⟨joined, lpaths⟩
          pure true
        else probeDirs lpaths dep dirs
      else pure true

/-- The loop over the paths the cache lists. -/
def probeListed (lpaths : Finset OsString) : List OsString → Call ldd.fs Unit
  | [] => pure ()
  | f :: fs => do
      let joined ← spell f
      if ← visit .cache joined then
        if ldd.installable joined then
          enqueue ⟨joined, lpaths⟩
          probeListed lpaths fs
        else probeListed lpaths fs
      else probeListed lpaths fs

/-- The paths the cache lists for a name, when it has the name. -/
def listed (dep : OsString) : Option (List OsString) :=
  ldd.ldSoCache.bind fun cache => cache.lookup dep

/-- The body of `'outer`; `false` is the end of the body, where the error is. -/
def search (iter : List OsString) (lpaths : Finset OsString) (dep : OsString) :
    Call ldd.fs Bool := do
  if ← ldd.probeDirs lpaths dep iter then pure true
  else
    match ldd.listed dep with
    | some vals => do
        ldd.probeListed lpaths vals
        pure true
    | none => ldd.probeDirs lpaths dep ldd.defaultLibdir

/-- `'outer: for dep in deps`. -/
def resolve (iter : List OsString) (lpaths : Finset OsString) :
    List OsString → Call ldd.fs (Except RecurseError Unit)
  | [] => pure (.ok ())
  | dep :: deps => do
      if ← ldd.search iter lpaths dep then resolve iter lpaths deps
      else pure (.error (.unableToFindDependency dep lpaths))

/-- The order in which a `HashSet` gives its elements. -/
abbrev Iter := {f : Finset OsString → List OsString // ∀ s, (f s).Nodup ∧ ∀ x, x ∈ f s ↔ x ∈ s}

/-- `Ldd::recurse`; `none` when it panics. -/
def recurse (iter : Iter) (path : OsString) (lpaths : Finset OsString) :
    Call ldd.fs (Option (Except RecurseError Unit)) :=
  match ldd.fs.scan path lpaths with
  | .ok s => do
      let r ← ldd.resolve (iter.val s.lpaths) s.lpaths s.deps
      pure (some r)
  | .err e => pure (some (.error e))
  | .panic => pure none

/-- How the closure of `filter_map` ends for an element of the queue. -/
inductive Out where
  | skipped
  | returned (path : OsString) (result : Except RecurseError Unit)
  | panicked

def work (iter : Iter) (item : Item) : Call ldd.fs Out :=
  if ldd.inDest item.path then pure .skipped
  else do
    match ← ldd.recurse iter item.path item.lpaths with
    | some result => pure (.returned item.path result)
    | none => pure .panicked

def system : System (Op ldd.fs) (Res ldd.fs) Item Iter Out (Shared ldd.fs) where
  work := ldd.work
  exec := exec
  enqueues := enqueues

abbrev State := WorkList.State (Op ldd.fs) (Res ldd.fs) Item Iter Out (Shared ldd.fs)

/-- The queue of the canonical arguments, all of them in `visited`. -/
def start (args : List OsString) : ldd.State :=
  WorkList.State.start { visited := args.toFinset, canonCache := ∅ } (args.map fun path => ⟨path, ∅⟩)

/-- The path a worker gives to `collect`. -/
def Out.path? : Out → Option OsString
  | .returned path _ => some path
  | _ => none

def outOf {α : Type} {Op : Type} {Res : Op → Type} : Prog Op Res α → Option α
  | .done a => some a
  | .call _ _ => none

def collected {ldd : Ldd} (s : ldd.State) : List OsString :=
  s.workers.filterMap fun w => (outOf w.prog).bind Out.path?

/-- A run on a list of files: the arguments are canonical, and the schedule leads
to the state `s`, in which every object has been taken and every worker is at its
end. -/
structure Finished (files args : List OsString) (schedule : List (Choice Iter)) (s : ldd.State) :
    Prop where
  canonical : files.mapM ldd.fs.canonicalizeDir = some args
  run : WorkList.run ldd.system (ldd.start args) schedule = some s
  complete : s.Complete

/-- A run from which `ldd` returns: no worker has panicked. -/
structure Ran (files args : List OsString) (schedule : List (Choice Iter)) (s : ldd.State) : Prop
    extends ldd.Finished files args schedule s where
  calm : ∀ w ∈ s.workers, outOf w.prog ≠ some .panicked

/-- `ldd` returns the collected paths in some order. -/
def Returns (files : List OsString) (schedule : List (Choice Iter)) (res : List OsString) : Prop :=
  ∃ args s, ldd.Ran files args schedule s ∧ res.Perm (collected s)

end Ldd
end Elfkit
end DracutInstall
