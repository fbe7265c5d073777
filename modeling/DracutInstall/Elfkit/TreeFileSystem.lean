/-
The file system of `ldd` on a tree.

What `ldd` asks of a file system is answered by lookups in the tree that
`clone_path` works on, so that a run of the one can be followed by a run of the
other.  A device is read as the system has it.
-/
import DracutInstall.Elfkit.Ldd
import DracutInstall.Lib.RealPath

namespace DracutInstall
namespace Elfkit

open ByteCodec Rust UnixPath FileTree

/-- The kind of an error, and the number of one that has no kind here. -/
def IoErrorKind.ofErrno : Errno → IoErrorKind
  | .enoent => .notFound
  | .eperm => .permissionDenied
  | .eacces => .permissionDenied
  | .eisdir => .isADirectory
  | .einval => .invalidInput
  | .eintr => .other 4
  | .enxio => .other 6
  | .eexist => .other 17
  | .exdev => .other 18
  | .enotdir => .other 20
  | .enosys => .other 38
  | .eloop => .other 40
  | .enodata => .other 61
  | .eopnotsupp => .other 95
  | .other code => .other code

/-- What opening and reading a device gives. -/
abbrev Devices : Type := Loc → Except IoErrorKind (List UInt8)

/-- `File::open`, with what can be read then. -/
def openOn (v : Tree.View) (devices : Devices) (t : Tree) (p : OsString) :
    Except IoErrorKind Opened :=
  match t.lookup v true false p with
  | .error e => .error (.ofErrno e)
  | .ok loc =>
      match t.node loc with
      | some (.dir _) => .ok .directory
      | some (.file _ content) => .ok (.file content)
      | some (.special _) => (devices loc).map .file
      | some (.link _) => .error (.ofErrno .eloop)
      | none => .error (.ofErrno .enoent)

theorem openOn_parent {v : Tree.View} {devices : Devices} {t : Tree} {p : OsString}
    {bytes : List UInt8} (h : openOn v devices t p = .ok (.file bytes)) : parent p ≠ none := by
  rw [openOn] at h
  cases hl : t.lookup v true false p with
  | error e =>
      rw [hl] at h
      cases h
  | ok loc =>
      apply Tree.parent_ne_none_of_lookup hl
      rw [Tree.isDir]
      cases hn : t.node loc with
      | none => rfl
      | some n =>
          cases n with
          | dir mode =>
              simp only [hl, hn] at h
              cases h
          | file mode content => rfl
          | link text => rfl
          | special mode => rfl

/-- The file system of a process that sees the tree. -/
def FileSystem.onTree (v : Tree.View) (devices : Devices) (t : Tree) : FileSystem where
  pathExists p := (t.status v true p).isOk
  canonicalize p := t.realPath v p
  openFile p := openOn v devices t p
  canonicalize_canonical _ _ h := Tree.realPath_canonical h
  canonicalize_idem _ _ h := Tree.realPath_idem h
  openFile_parent _ _ h := openOn_parent h

theorem FileSystem.onTree_pathExists {v : Tree.View} {devices : Devices} {t : Tree} {p : OsString} :
    (FileSystem.onTree v devices t).pathExists p = true ↔ ∃ n, t.status v true p = .ok n := by
  show (t.status v true p).isOk = true ↔ _
  cases t.status v true p with
  | error e => exact iff_of_false Bool.false_ne_true fun h => by obtain ⟨n, hn⟩ := h; cases hn
  | ok n => exact iff_of_true rfl ⟨n, rfl⟩

end Elfkit
end DracutInstall
