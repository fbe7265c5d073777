/-
`copy`: the content of a regular file, by `copy_file_range`, `sendfile` or
`read` and `write`.

`Kernel` is what the system answers during one copy.  The n-th transfer and the
n-th seek each have an answer of their own, so that short counts and failures may
come in any order.  The loops carry a bound on their rounds.
-/
import DracutInstall.Lib.SparseFile

namespace DracutInstall
namespace File

open Rust SparseFile

/-- The answer to one transfer: a count, shortened to what was asked for and is
there, or an error.  `writeFailed n w e` is a `read` of `n` bytes after which
`write_all` fails having written `w` of them. -/
inductive Transfer where
  | moved (n : Nat)
  | errno (e : Errno)
  | writeFailed (n w : Nat) (e : Errno)

/-- Everything `copy` does before the first `lseek`, by how it ends. -/
structure Setup where
  openFrom : Option Errno
  sourceIsFile : Bool
  openTo : Option Errno
  destIsFile : Bool
  setPermissions : Option Errno
  isRoot : Bool
  fchown : Option Errno
  aclCopyFd : Option Errno
  ftruncate : Option Errno

structure Kernel where
  source : SparseFile.File
  /-- `st_size` of the source when the copy starts. -/
  len : Nat
  seekSupported : Bool
  /-- `SEEK_DATA` and `SEEK_HOLE` go by `st_size`, as those of pseudo files do, and not by
  what there is to read. -/
  seekByStat : Bool
  /-- All of a file is data to them then. -/
  seekByStat_data : seekByStat = true → ∀ p, source.data p = true
  setup : Setup
  transfer : Nat → Transfer
  seekFault : Nat → Option Errno

/-- The call an error of `copy` names. -/
inductive CopyCall where
  | openFrom
  | notRegular
  | openTo
  | setPermissions
  | fchown
  | aclCopyFd
  | ftruncate64
  | seekData
  | seekHole
  | seekSet
  | copyFileRange
  | sendfile
  | read
  | writeAll
  deriving DecidableEq, Repr

structure CopyError where
  call : CopyCall
  errno : Errno
  deriving DecidableEq, Repr

/-- The two globals that remember what the kernel does not have. -/
structure Flags where
  hasCopyFileRange : Bool
  hasSendfile : Bool
  deriving DecidableEq, Repr

/-- The variables of `copy`, the offsets of its two descriptors, the destination,
and the number of transfers and seeks made. -/
structure CopyState where
  canHandleSparse : Bool
  useCopyFileRange : Bool
  useSendfile : Bool
  flags : Flags
  srcpos : Int
  nextBeg : Int
  nextEnd : Int
  nextLen : Int
  posIn : Nat
  posOut : Nat
  dst : List UInt8
  transfers : Nat
  seeks : Nat

variable (k : Kernel)

/-- How much of a request for `len` bytes at `off` is moved: at least one byte, if
there is one. -/
def Kernel.count (off len n : Nat) : Nat := min (max n 1) (min len (k.source.size - off))

/-- The end of the source to `SEEK_DATA` and `SEEK_HOLE`. -/
def Kernel.seekEnd : Nat := if k.seekByStat then k.len else k.source.size

def Kernel.seekData (off : Nat) : Option Nat := k.source.seekData k.seekEnd off

def Kernel.seekHole (off : Nat) : Option Nat := k.source.seekHole k.seekEnd off

theorem Kernel.seekEnd_eq (h : k.seekByStat = true → k.len = k.source.size) :
    k.seekEnd = k.source.size := by
  rw [seekEnd]
  split
  · exact h ‹_›
  · rfl

theorem Kernel.seekData_eq_some {off q : Nat} (h : k.seekData off = some q) :
    off ≤ q ∧ q < k.seekEnd ∧ k.source.data q = true ∧
      ∀ r, off ≤ r → r < q → k.source.data r = false :=
  SparseFile.File.seekData_eq_some h

theorem Kernel.seekHole_of_data {off : Nat} (hoff : off < k.seekEnd)
    (hdata : k.source.data off = true) :
    ∃ q, k.seekHole off = some q ∧ off < q ∧ q ≤ k.seekEnd :=
  SparseFile.File.seekHole_of_data hoff hdata

theorem Kernel.exists_extent (h : ∃ p < k.seekEnd, k.source.data p = true) :
    ∃ beg stop, k.seekData 0 = some beg ∧ k.seekHole beg = some stop :=
  SparseFile.File.exists_extent h

/-- `lseek64(fd_in, off, whence)` for `SEEK_DATA` and `SEEK_HOLE`. -/
def seekExtent (find : Nat → Option Nat) (off : Int) (st : CopyState) :
    Except Errno Nat × CopyState :=
  let after := { st with seeks := st.seeks + 1 }
  match k.seekFault st.seeks with
  | some e => (.error e, after)
  | none =>
      if ¬ k.seekSupported then (.error .einval, after)
      else if off < 0 then (.error .enxio, after)
      else
        match find off.toNat with
        | some p => (.ok p, { after with posIn := p })
        | none => (.error .enxio, after)

/-- `lseek64(fd_in, off, SEEK_SET)`. -/
def seekIn (off : Int) (st : CopyState) : Except Errno Unit × CopyState :=
  let after := { st with seeks := st.seeks + 1 }
  match k.seekFault st.seeks with
  | some e => (.error e, after)
  | none => (.ok (), { after with posIn := off.toNat })

/-- `lseek64(fd_out, off, SEEK_SET)`. -/
def seekOut (off : Int) (st : CopyState) : Except Errno Unit × CopyState :=
  let after := { st with seeks := st.seeks + 1 }
  match k.seekFault st.seeks with
  | some e => (.error e, after)
  | none => (.ok (), { after with posOut := off.toNat })

/-- One round of the loop goes on, or returns an error. -/
inductive Next where
  | again (st : CopyState)
  | done (e : CopyError) (st : CopyState)

/-- The block at the head of the loop that looks up the next extent. -/
def nextExtent (st : CopyState) : Except CopyError Unit × CopyState :=
  if st.srcpos ≠ 0 then
    if st.canHandleSparse then
      match seekExtent k k.seekData st.srcpos st with
      | (.error e, st) => (.error ⟨.seekData, e⟩, st)
      | (.ok beg, st) =>
          let st := { st with nextBeg := beg }
          match seekExtent k k.seekHole st.nextBeg st with
          | (.error e, st) => (.error ⟨.seekHole, e⟩, st)
          | (.ok stop, st) =>
              let st := { st with nextEnd := stop }
              (.ok (), { st with nextLen := st.nextEnd - st.nextBeg })
    else (.ok (), { st with nextBeg := st.srcpos, nextEnd := k.len - st.srcpos })
  else (.ok (), st)

/-- What follows an error of `copy_file_range`. -/
def copyFileRangeFailed (e : Errno) (st : CopyState) : Next :=
  if e = .enosys ∨ e = .eperm then
    .again { st with
      flags := { st.flags with hasCopyFileRange := false }
      useCopyFileRange := false }
  else if e = .exdev ∨ e = .einval then .again { st with useCopyFileRange := false }
  else .done ⟨.copyFileRange, e⟩ st

/-- `copy_file_range` on both files at `next_beg`. -/
def copyFileRange (st : CopyState) : Next :=
  let st' := { st with transfers := st.transfers + 1 }
  match k.transfer st.transfers with
  | .moved n =>
      let num := k.count st.nextBeg.toNat st.nextLen.toNat n
      .again { st' with
        dst := writeAt st.dst st.nextBeg.toNat (slice k.source.content st.nextBeg.toNat num)
        nextBeg := st.nextBeg + num
        srcpos := st.srcpos + num }
  | .errno e => copyFileRangeFailed e st'
  | .writeFailed _ _ e => copyFileRangeFailed e st'

/-- What follows an error of `sendfile`. -/
def sendfileFailed (e : Errno) (st : CopyState) : Next :=
  if e = .enosys ∨ e = .eperm then
    .again { st with
      flags := { st.flags with hasSendfile := false }
      useSendfile := false }
  else if e = .einval then .again { st with useSendfile := false }
  else .done ⟨.sendfile, e⟩ st

/-- `sendfile` from `next_beg` to the offset of the output descriptor. -/
def sendfileHere (st : CopyState) : Next :=
  let st' := { st with transfers := st.transfers + 1 }
  match k.transfer st.transfers with
  | .moved n =>
      let num := k.count st.nextBeg.toNat st.nextLen.toNat n
      .again { st' with
        dst := writeAt st.dst st.posOut (slice k.source.content st.nextBeg.toNat num)
        posOut := st.posOut + num
        nextBeg := st.nextBeg + num
        srcpos := st.srcpos + num }
  | .errno e => sendfileFailed e st'
  | .writeFailed _ _ e => sendfileFailed e st'

/-- The `sendfile` branch: where holes are skipped the output offset is set first. -/
def sendfile (st : CopyState) : Next :=
  if st.canHandleSparse ∧ st.nextBeg ≠ 0 then
    match seekOut k st.nextBeg st with
    | (.error e, st) => .done ⟨.seekSet, e⟩ st
    | (.ok (), st) => sendfileHere k st
  else sendfileHere k st

def defaultBufSize : Nat := 8 * 1024

/-- The `while next_len > 0` loop of `read` and `write_all`; its value is `written`. -/
def readWriteLoop : Nat → Int → CopyState → Option (Except CopyError Int × CopyState)
  | 0, _, _ => none
  | fuel + 1, written, st =>
      if st.nextLen > 0 then
        let sliceLen := min st.nextLen.toNat defaultBufSize
        let st' := { st with transfers := st.transfers + 1 }
        match k.transfer st.transfers with
        | .moved n =>
            let len := k.count st.posIn sliceLen n
            if len = 0 then some (.ok written, { st' with srcpos := st.srcpos + written })
            else
              readWriteLoop fuel (written + len) { st' with
                dst := writeAt st.dst st.posOut (slice k.source.content st.posIn len)
                posIn := st.posIn + len
                posOut := st.posOut + len
                nextLen := st.nextLen - len }
        | .errno e =>
            if e = .eintr then readWriteLoop fuel written st'
            else some (.error ⟨.read, e⟩, st')
        | .writeFailed n w e =>
            let len := k.count st.posIn sliceLen n
            let out := min w len
            some (.error ⟨.writeAll, e⟩, { st' with
              dst := writeAt st.dst st.posOut (slice k.source.content st.posIn out)
              posIn := st.posIn + len
              posOut := st.posOut + out })
      else some (.ok written, st)

/-- The offsets `read` and `write_all` start from, set where holes are skipped. -/
def seekBoth (st : CopyState) : Except Errno Unit × CopyState :=
  if st.canHandleSparse then
    match seekIn k st.nextBeg st with
    | (.error e, st) => (.error e, st)
    | (.ok (), st) => if st.nextBeg ≠ 0 then seekOut k st.nextBeg st else (.ok (), st)
  else (.ok (), st)

/-- The `read` and `write_all` branch. -/
def readWrite (fuel : Nat) (st : CopyState) : Option Next :=
  match seekBoth k st with
  | (.error e, st) => some (.done ⟨.seekSet, e⟩ st)
  | (.ok (), st) =>
      match readWriteLoop k fuel 0 st with
      | none => none
      | some (.error e, st) => some (.done e st)
      | some (.ok num, st) => some (.again { st with srcpos := st.srcpos + num })

/-- One round of `while srcpos < bytes_to_copy`. -/
def round (fuel : Nat) (st : CopyState) : Option Next :=
  match nextExtent k st with
  | (.error e, st) => some (.done e st)
  | (.ok (), st) =>
      if st.nextLen ≤ 0 then some (.again { st with srcpos := st.nextEnd })
      else if st.useCopyFileRange then some (copyFileRange k st)
      else if st.useSendfile then some (sendfile k st)
      else readWrite k fuel st

def copyLoop : Nat → CopyState → Option (Except CopyError Int × CopyState)
  | 0, _ => none
  | fuel + 1, st =>
      if st.srcpos < k.len then
        match round k fuel st with
        | none => none
        | some (.again st) => copyLoop fuel st
        | some (.done e st) => some (.error e, st)
      else some (.ok st.srcpos, st)

/-- The state after the descriptors are set up, before the first `lseek`. -/
def opened (flags : Flags) (sparse : Bool) (dst : List UInt8) : CopyState :=
  { canHandleSparse := sparse
    useCopyFileRange := flags.hasCopyFileRange
    useSendfile := flags.hasSendfile
    flags
    srcpos := 0, nextBeg := 0, nextEnd := 0, nextLen := 0
    posIn := 0, posOut := 0
    dst
    transfers := 0, seeks := 0 }

/-- The first `next_beg`: any failure of `lseek` means that holes cannot be told. -/
def firstBeg (st : CopyState) : CopyState :=
  if st.canHandleSparse then
    match seekExtent k k.seekData st.srcpos st with
    | (.error _, st) => { st with canHandleSparse := false, nextBeg := 0 }
    | (.ok beg, st) => { st with nextBeg := beg }
  else { st with nextBeg := 0 }

/-- The first `next_end`, in the same way. -/
def firstEnd (st : CopyState) : CopyState :=
  if st.canHandleSparse then
    match seekExtent k k.seekHole st.nextBeg st with
    | (.error _, st) => { st with canHandleSparse := false, nextEnd := k.len }
    | (.ok stop, st) => { st with nextEnd := stop }
  else { st with nextEnd := k.len }

def firstExtent (st : CopyState) : CopyState :=
  let st := firstEnd k (firstBeg k st)
  { st with nextLen := st.nextEnd - st.nextBeg }

/-- `cvt_ignore_perm`. -/
def cvtIgnorePerm (fault : Option Errno) (ignoreEperm : Bool) : Option Errno :=
  match fault with
  | some e => if ignoreEperm ∧ e = .eperm then none else some e
  | none => none

def orFault (call : CopyCall) : Option Errno → Except CopyError Unit
  | none => .ok ()
  | some e => .error ⟨call, e⟩

/-- The source is a regular file and the destination has been opened and emptied. -/
def openFiles : Except CopyError Unit := do
  orFault .openFrom k.setup.openFrom
  if ¬ k.setup.sourceIsFile then .error ⟨.notRegular, .einval⟩
  orFault .openTo k.setup.openTo

/-- Mode, owner, attributes and length of the destination: whether holes can be
kept, and the destination as it then is. -/
def prepare : Except CopyError (Bool × List UInt8) :=
  if k.setup.destIsFile then do
    orFault .setPermissions k.setup.setPermissions
    orFault .fchown (cvtIgnorePerm k.setup.fchown (!k.setup.isRoot))
    orFault .aclCopyFd k.setup.aclCopyFd
    match k.setup.ftruncate with
    | none => .ok (true, List.replicate k.len 0)
    | some e => if e = .einval then .ok (false, []) else .error ⟨.ftruncate64, e⟩
  else .ok (false, [])

/-- How a copy ends: its result, the destination if it was opened, and the two
globals. -/
structure Copied where
  result : Except CopyError Int
  dst : Option (List UInt8)
  flags : Flags

def copy (fuel : Nat) (flags : Flags) : Option Copied :=
  match openFiles k with
  | .error e => some { result := .error e, dst := none, flags }
  | .ok () =>
      match prepare k with
      | .error e => some { result := .error e, dst := some [], flags }
      | .ok (sparse, dst) =>
          match copyLoop k fuel (firstExtent k (opened flags sparse dst)) with
          | none => none
          | some (result, st) => some { result, dst := some st.dst, flags := st.flags }

end File
end DracutInstall
