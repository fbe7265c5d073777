/-
`Elf::from_reader` and `Elf::load`.

`load` works on the vector in place: it takes the section out, leaving a default
placeholder, loads the linked section first, and puts the section back only when
nothing failed on the way.  The vector is therefore part of the result of a
failed call as well.
-/
import DracutInstall.Elfkit.Segment
import DracutInstall.Elfkit.Section

namespace DracutInstall
namespace Elfkit

open ByteCodec Rust

structure Elf where
  header : Header
  segments : List SegmentHeader
  sections : List Section
  deriving DecidableEq

namespace Elf

/-- The section `from_reader` makes of a section header, before it has a name. -/
def unnamedSection (sh : SectionHeader) : Section :=
  { header := sh, name := [], content := .unloaded, addrlock := true }

/-- `shstrtab[name..].split(|e| *e == 0).next()`; slicing past the end panics. -/
def sectionName (shstrtab : List UInt8) (sec : Section) : Outcome Error Section :=
  if sec.header.name.toNat ≤ shstrtab.length then
    .ok { sec with name := untilNul (shstrtab.drop sec.header.name.toNat) }
  else .panic

/-- The loop over `sections.iter_mut()`. -/
def nameSections (shstrtab : List UInt8) : List Section → Outcome Error (List Section)
  | [] => .ok []
  | sec :: secs => do
      let sec ← sectionName shstrtab sec
      let secs ← nameSections shstrtab secs
      .ok (sec :: secs)

def fromReader (file : List UInt8) : Outcome Error Elf := do
  let (header, _) ← Header.fromReader.run file
  -- the segment table, as one buffer of `phnum` strides
  let buf ← readAt file header.phoff (header.phentsize.toNat * header.phnum.toNat)
  let (segments, _) ← (readMany (SegmentHeader.fromReader header) header.phnum.toNat).run buf
  -- the section table
  let buf ← readAt file header.shoff (header.shnum.toNat * header.shentsize.toNat)
  let (shs, _) ← (readMany (SectionHeader.fromReader header) header.shnum.toNat).run buf
  let sections := shs.map unnamedSection
  -- the section names
  let sec ← Outcome.okOr sections[header.shstrndx.toNat]? .missingShstrtabSection
  let shstrtab ← readAt file sec.header.offset sec.header.size.toNat
  let sections ← nameSections shstrtab sections
  .ok { header, segments, sections }

def setSection (elf : Elf) (i : Nat) (sec : Section) : Elf :=
  { elf with sections := elf.sections.set i sec }

/-- The section a link value names, when it names one. -/
def linkIndex (elf : Elf) (link : UInt32) : Option Nat :=
  if link < 1 ∨ link.toNat ≥ elf.sections.length then none else some link.toNat

/-- `Elf::load` with the recursion depth bounded by `fuel`; `none` when the bound
is reached. -/
def loadFuel (file : List UInt8) : Nat → Elf → Nat → Option (Outcome Error Unit × Elf)
  | 0, _, _ => none
  | fuel + 1, elf, i =>
      match elf.sections[i]? with
      | none => some (.panic, elf)
      | some sec =>
          let elf := elf.setSection i Section.default
          let finish (linked : Option Section) (elf : Elf) : Outcome Error Unit × Elf :=
            match sec.fromReader file linked elf.header with
            | .ok sec => (.ok (), elf.setSection i sec)
            | .err e => (.err e, elf)
            | .panic => (.panic, elf)
          match elf.linkIndex sec.header.link with
          | none => some (finish none elf)
          | some link =>
              match loadFuel file fuel elf link with
              | none => none
              | some (.ok (), elf) => some (finish elf.sections[link]? elf)
              | some (e, elf) => some (e, elf)

@[simp] theorem setSection_header (elf : Elf) (i : Nat) (sec : Section) :
    (elf.setSection i sec).header = elf.header := rfl

@[simp] theorem setSection_sections (elf : Elf) (i : Nat) (sec : Section) :
    (elf.setSection i sec).sections = elf.sections.set i sec := rfl

/-! ## The recursion ends

A section that is taken out leaves a placeholder whose link is zero.  The number
of sections whose link is in range therefore drops by one at every level that
goes on to a linked section. -/

/-- The section's link is non-zero and in range in a vector of `n` sections. -/
def linksInto (n : Nat) (sec : Section) : Bool :=
  decide (¬ (sec.header.link < 1 ∨ sec.header.link.toNat ≥ n))

def linkedCount (elf : Elf) : Nat :=
  elf.sections.countP (linksInto elf.sections.length)

theorem linksInto_default (n : Nat) : linksInto n Section.default = false := by
  have h : Section.default.header.link < 1 := by decide
  simp [linksInto, h]

theorem linkIndex_eq_some {elf : Elf} {link : UInt32} {j : Nat} (h : elf.linkIndex link = some j) :
    ¬ (link < 1 ∨ link.toNat ≥ elf.sections.length) ∧ j = link.toNat := by
  unfold linkIndex at h
  split at h
  · cases h
  · rename_i hlink
    exact ⟨hlink, (Option.some.inj h).symm⟩

/-- Replacing an element that counts by one that does not. -/
theorem countP_set_lt {α : Type} {p : α → Bool} {l : List α} {i : Nat} {a b : α}
    (hi : l[i]? = some a) (ha : p a = true) (hb : p b = false) :
    (l.set i b).countP p + 1 = l.countP p := by
  induction l generalizing i with
  | nil => cases hi
  | cons x l ih =>
      cases i with
      | zero =>
          have hx : x = a := by simpa using hi
          rw [List.set_cons_zero, List.countP_cons_of_neg (by simp [hb]),
            List.countP_cons_of_pos (by rw [hx, ha])]
      | succ i =>
          have h := ih (by simpa using hi)
          rw [List.set_cons_succ, List.countP_cons, List.countP_cons]
          omega

theorem loadFuel_isSome (file : List UInt8) :
    ∀ (fuel : Nat) (elf : Elf) (i : Nat), elf.linkedCount < fuel →
      (loadFuel file fuel elf i).isSome = true := by
  intro fuel
  induction fuel with
  | zero => intro elf i h; omega
  | succ fuel ih =>
      intro elf i h
      rw [loadFuel]
      cases hsec : elf.sections[i]? with
      | none => rfl
      | some sec =>
          cases hlink : (elf.setSection i Section.default).linkIndex sec.header.link with
          | none => simp [hlink]
          | some j =>
              obtain ⟨hin, _⟩ := linkIndex_eq_some hlink
              rw [setSection_sections, List.length_set] at hin
              have hcount : (elf.setSection i Section.default).linkedCount + 1 =
                  elf.linkedCount := by
                rw [linkedCount, setSection_sections, List.length_set]
                exact countP_set_lt hsec (decide_eq_true hin) (linksInto_default _)
              have hrec := ih (elf.setSection i Section.default) j (by omega)
              obtain ⟨⟨r, elf'⟩, hr⟩ := Option.isSome_iff_exists.mp hrec
              simp only [hlink, hr]
              cases r <;> rfl

theorem linkedCount_le (elf : Elf) : elf.linkedCount ≤ elf.sections.length :=
  List.countP_le_length

/-- `Elf::load`. -/
def load (file : List UInt8) (elf : Elf) (i : Nat) : Outcome Error Unit × Elf :=
  (loadFuel file (elf.sections.length + 1) elf i).getD (.panic, elf)

/-- The bound on the depth is never what ends a call of `load`. -/
theorem loadFuel_eq_load (file : List UInt8) (elf : Elf) (i : Nat) :
    loadFuel file (elf.sections.length + 1) elf i = some (elf.load file i) := by
  have hle := linkedCount_le elf
  have h := loadFuel_isSome file (elf.sections.length + 1) elf i (by omega)
  obtain ⟨r, hr⟩ := Option.isSome_iff_exists.mp h
  rw [load, hr]
  rfl

end Elf
end Elfkit
end DracutInstall
