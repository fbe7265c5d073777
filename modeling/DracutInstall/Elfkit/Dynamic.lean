/-
`Dynamic::from_reader`: the entries of a DYNAMIC section.

The loop reads a tag and a value at a time.  A tag that cannot be read ends the
table, a value that cannot be read is an error, and the first NULL tag ends the
table without looking at what follows.
-/
import DracutInstall.Elfkit.Header

namespace DracutInstall
namespace Elfkit

open ByteCodec Rust

/-- `DynamicContent::String` of a RPATH, RUNPATH or NEEDED entry. -/
def dynamicString (strtab : Option Strtab) (val : UInt64) : DynamicContent :=
  match strtab with
  | none => .string [] none
  | some s => .string (s.get val.toNat) (some val)

/-- The entry the loop pushes for one tag and its value. -/
def Dynamic.entry (strtab : Option Strtab) (tag val : UInt64) : Outcome Error Dynamic :=
  match DynamicType.fromU64 tag with
  | none => .ok { dhtype := .unknown, content := .none }
  | some t =>
      if t = .null then .ok { dhtype := .null, content := .none }
      else if t = .rpath ∨ t = .runpath ∨ t = .needed then
        .ok { dhtype := t, content := dynamicString strtab val }
      else if t = .flags1 then
        match Bitflags.fromBits dynamicFlags1Bits val.toBitVec with
        | some v => .ok { dhtype := t, content := .flags1 v }
        | none => .err (.invalidDynamicFlags1 val)
      else .ok { dhtype := t, content := .address val }

/-- The `while let Ok(tag)` loop.  Every round takes at least one byte, so the
length of the section is enough fuel. -/
def Dynamic.readEntries (eh : Header) (strtab : Option Strtab) :
    Nat → List UInt8 → Outcome Error (List Dynamic)
  | 0, _ => .ok []
  | fuel + 1, bytes =>
      match (readUclass eh.identClass eh.order).run bytes with
      | .ok (tag, rest) => do
          let (val, rest) ← (readUclass eh.identClass eh.order).run rest
          let d ← Dynamic.entry strtab tag val
          if d.dhtype = .null then .ok [d]
          else do
            let ds ← Dynamic.readEntries eh strtab fuel rest
            .ok (d :: ds)
      | _ => .ok []

def Dynamic.fromReader (bytes : List UInt8) (linked : Option SectionContent) (eh : Header) :
    Outcome Error SectionContent := do
  let strtab ← match linked with
    | none => .ok none
    | some (.strtab s) => .ok (some s)
    | any => .err (.linkedSectionIsNotStrtab "reading dynamic" any)
  let r ← Dynamic.readEntries eh strtab (bytes.length + 1) bytes
  .ok (.dynamic r)

/-- The strings of the entries of one type, in order: what the search for
dependencies takes from a table. -/
def Dynamic.strings (t : DynamicType) (entries : List Dynamic) : List (List UInt8) :=
  entries.filterMap fun d =>
    if d.dhtype = t then
      match d.content with
      | .string text _ => some text
      | _ => none
    else none

/-- `Strtab::from_reader`. -/
def Strtab.fromReader (bytes : List UInt8) (_ : Option SectionContent) (_ : Header) :
    Outcome Error SectionContent := .ok (.strtab ⟨bytes⟩)

end Elfkit
end DracutInstall
