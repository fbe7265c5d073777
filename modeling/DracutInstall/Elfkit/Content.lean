/-
Section contents and the errors of the reader.
-/
import DracutInstall.Elfkit.Types

namespace DracutInstall
namespace Elfkit

/-- `hash` is `None` in every table the reader makes and is left out. -/
structure Strtab where
  data : List UInt8
  deriving DecidableEq

/-- The bytes up to the first NUL: the head of `split(|c| *c == 0)`. -/
def untilNul (bytes : List UInt8) : List UInt8 := bytes.takeWhile (· ≠ 0)

def Strtab.get (s : Strtab) (i : Nat) : List UInt8 :=
  if i ≥ s.data.length then ByteCodec.ascii "<corrupt>" else untilNul (s.data.drop i)

inductive DynamicContent where
  | none
  | string (text : List UInt8) (offset : Option UInt64)
  | address (value : UInt64)
  | flags1 (flags : DynamicFlags1)
  deriving DecidableEq

structure Dynamic where
  dhtype : DynamicType
  content : DynamicContent
  deriving DecidableEq

inductive SectionContent where
  | none
  | unloaded
  | dynamic (entries : List Dynamic)
  | strtab (table : Strtab)
  deriving DecidableEq

def SectionContent.asDynamic : SectionContent → Option (List Dynamic)
  | .dynamic entries => some entries
  | _ => Option.none

inductive IoErrorKind where
  | unexpectedEof
  | invalidInput
  | invalidData
  | notFound
  | permissionDenied
  | isADirectory
  | other (code : Nat)
  deriving DecidableEq, Repr

/-- The variants of `elfkit::Error` the reader returns. -/
inductive Error where
  | io (kind : IoErrorKind)
  | invalidMagic
  | invalidIdentClass (b : UInt8)
  | invalidEndianness (b : UInt8)
  | invalidIdentVersion (b : UInt8)
  | invalidVersion (v : UInt32)
  | invalidAbi (b : UInt8)
  | invalidElfType (v : UInt16)
  | invalidMachineType (v : UInt16)
  | invalidSectionFlags (v : UInt64)
  | invalidSegmentType (v : UInt32)
  | missingShstrtabSection
  | linkedSectionIsNotStrtab (during : String) (link : Option SectionContent)
  | invalidDynamicFlags1 (v : UInt64)
  deriving DecidableEq

/-- The error of a source that ends inside a value. -/
def eof : Error := .io .unexpectedEof

end Elfkit
end DracutInstall
