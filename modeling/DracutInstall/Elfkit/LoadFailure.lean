/-
When `Elf::load` fails.

A section can be loaded unless its bytes are not all in the file, the section it
is linked to cannot be loaded, or it is a DYNAMIC section that is linked to
something other than a string table, ends inside an entry, or has FLAGS_1 bits
that are not defined.  `LoadFails` lists these failures along the links, and
`load_eq_ok_iff` says that there are no others.
-/
import DracutInstall.Elfkit.Elf

namespace DracutInstall
namespace Elfkit

open ByteCodec Rust

/-! ## Entries of a dynamic table -/

def wordSize : Class → Nat
  | .class32 => 4
  | .class64 => 8

/-- The address-sized value at the front of the bytes. -/
def wordAt (c : Class) (o : ByteOrder) (bytes : List UInt8) : UInt64 :=
  match c with
  | .class32 => (UInt32.ofNat (ofBytes o (bytes.take 4))).toUInt64
  | .class64 => UInt64.ofNat (ofBytes o (bytes.take 8))

theorem wordSize_pos (c : Class) : 0 < wordSize c := by
  cases c <;> decide

theorem readUclass_run (c : Class) (o : ByteOrder) (bytes : List UInt8) :
    (readUclass c o).run bytes =
      if wordSize c ≤ bytes.length then .ok (wordAt c o bytes, bytes.drop (wordSize c))
      else .err eof := by
  cases c with
  | class32 =>
      by_cases h : 4 ≤ bytes.length
      · simp [readUclass, readU32, readExact, StateT.run, bind, StateT.bind, h, Outcome.bind,
          wordAt, wordSize, pure]
        rfl
      · simp [readUclass, readU32, readExact, StateT.run, bind, StateT.bind, h, Outcome.bind,
          wordSize]
  | class64 =>
      by_cases h : 8 ≤ bytes.length
      · simp [readUclass, readU64, readExact, StateT.run, bind, StateT.bind, h, Outcome.bind,
          wordAt, wordSize, pure]
        rfl
      · simp [readUclass, readU64, readExact, StateT.run, bind, StateT.bind, h, Outcome.bind,
          wordSize]

/-- A table with an entry before its end that is cut off or has undefined flags. -/
inductive BadEntries (eh : Header) : List UInt8 → Prop
  | truncated {bytes : List UInt8} : wordSize eh.identClass ≤ bytes.length →
      bytes.length < 2 * wordSize eh.identClass → BadEntries eh bytes
  | flags {bytes : List UInt8} : 2 * wordSize eh.identClass ≤ bytes.length →
      DynamicType.fromU64 (wordAt eh.identClass eh.order bytes) = some .flags1 →
      Bitflags.fromBits dynamicFlags1Bits
        (wordAt eh.identClass eh.order (bytes.drop (wordSize eh.identClass))).toBitVec = none →
      BadEntries eh bytes
  | later {bytes : List UInt8} : 2 * wordSize eh.identClass ≤ bytes.length →
      DynamicType.fromU64 (wordAt eh.identClass eh.order bytes) ≠ some .null →
      BadEntries eh (bytes.drop (2 * wordSize eh.identClass)) → BadEntries eh bytes

/-- The entry of a tag and a value: an error, or of the type of its tag. -/
theorem Dynamic.entry_cases (strtab : Option Strtab) (tag val : UInt64) :
    (DynamicType.fromU64 tag = some .flags1 ∧
      Bitflags.fromBits dynamicFlags1Bits val.toBitVec = none ∧
      Dynamic.entry strtab tag val = .err (.invalidDynamicFlags1 val)) ∨
    (¬ (DynamicType.fromU64 tag = some .flags1 ∧
      Bitflags.fromBits dynamicFlags1Bits val.toBitVec = none) ∧
      ∃ d, Dynamic.entry strtab tag val = .ok d ∧
        (d.dhtype = .null ↔ DynamicType.fromU64 tag = some .null)) := by
  have hunknown : DynamicType.unknown ≠ .null := by decide
  have hflags : DynamicType.flags1 ≠ .null := by decide
  rw [Dynamic.entry]
  cases htag : DynamicType.fromU64 tag with
  | none => exact .inr ⟨(fun h => nomatch h.1), _, rfl, by simp [hunknown]⟩
  | some t =>
      dsimp only
      by_cases hnull : t = .null
      · rw [if_pos hnull]
        refine .inr ⟨fun h => ?_, _, rfl, by simp [hnull]⟩
        exact hflags (Option.some.inj h.1 ▸ hnull)
      · rw [if_neg hnull]
        split
        · rename_i hstring
          refine .inr ⟨fun h => ?_, _, rfl, by simp [hnull]⟩
          rw [Option.some.inj h.1] at hstring
          exact absurd hstring (by decide)
        · split
          · rename_i hflags1
            cases hbits : Bitflags.fromBits dynamicFlags1Bits val.toBitVec with
            | none => exact .inl ⟨by rw [hflags1], rfl, rfl⟩
            | some v => exact .inr ⟨(fun h => nomatch h.2), _, rfl, by simp [hnull]⟩
          · rename_i hflags1
            exact .inr ⟨fun h => hflags1 (Option.some.inj h.1), _, rfl, by simp [hnull]⟩

theorem Dynamic.readEntries_ok_iff (eh : Header) (strtab : Option Strtab) :
    ∀ (fuel : Nat) (bytes : List UInt8), bytes.length < fuel →
      ((∃ ds, Dynamic.readEntries eh strtab fuel bytes = .ok ds) ↔ ¬ BadEntries eh bytes) := by
  intro fuel
  induction fuel with
  | zero => intro bytes h; omega
  | succ fuel ih =>
      intro bytes hlen
      have hpos := wordSize_pos eh.identClass
      rw [Dynamic.readEntries, readUclass_run]
      by_cases htag : wordSize eh.identClass ≤ bytes.length
      · rw [if_pos htag]
        dsimp only
        rw [readUclass_run]
        by_cases hval : 2 * wordSize eh.identClass ≤ bytes.length
        · rw [if_pos (by rw [List.length_drop]; omega), Outcome.ok_bind]
          dsimp only
          rw [List.drop_drop, ← Nat.two_mul]
          have hrec := ih (bytes.drop (2 * wordSize eh.identClass))
            (by rw [List.length_drop]; omega)
          rcases Dynamic.entry_cases strtab (wordAt eh.identClass eh.order bytes)
              (wordAt eh.identClass eh.order (bytes.drop (wordSize eh.identClass))) with
            ⟨hflags, hbits, hentry⟩ | ⟨hflags, d, hentry, hnull⟩
          · rw [hentry]
            simp only [Outcome.err_bind, reduceCtorEq, exists_false, false_iff, Classical.not_not]
            exact .flags hval hflags hbits
          · rw [hentry, Outcome.ok_bind]
            by_cases hd : d.dhtype = .null
            · rw [if_pos hd]
              refine iff_of_true ⟨_, rfl⟩ fun hbad => ?_
              cases hbad with
              | truncated _ hlt => omega
              | flags _ h1 h2 => exact hflags ⟨h1, h2⟩
              | later _ hne _ => exact hne (hnull.mp hd)
            · rw [if_neg hd]
              have hok : (∃ ds, (do
                  let ds ← Dynamic.readEntries eh strtab fuel
                    (bytes.drop (2 * wordSize eh.identClass))
                  Outcome.ok (d :: ds)) = Outcome.ok (ε := Error) ds) ↔
                  ∃ ds, Dynamic.readEntries eh strtab fuel
                    (bytes.drop (2 * wordSize eh.identClass)) = .ok ds := by
                simp only [Outcome.bind_eq_ok]
                constructor
                · rintro ⟨_, ds, hds, _⟩
                  exact ⟨ds, hds⟩
                · rintro ⟨ds, hds⟩
                  exact ⟨_, ds, hds, rfl⟩
              refine hok.trans (hrec.trans (not_congr ?_))
              constructor
              · exact fun hbad => .later hval (fun h => hd (hnull.mpr h)) hbad
              · intro hbad
                cases hbad with
                | truncated _ hlt => omega
                | flags _ h1 h2 => exact absurd ⟨h1, h2⟩ hflags
                | later _ _ hbad => exact hbad
        · rw [if_neg (by rw [List.length_drop]; omega)]
          simp only [Outcome.err_bind, reduceCtorEq, exists_false, false_iff, Classical.not_not]
          exact .truncated htag (by omega)
      · rw [if_neg htag]
        refine iff_of_true ⟨_, rfl⟩ fun hbad => ?_
        cases hbad <;> omega

/-! ## One section -/

/-- The bytes of the section are in the file. -/
def Readable (file : List UInt8) (sh : SectionHeader) : Prop :=
  sh.offset.toNat < 2 ^ 63 ∧ sh.size.toNat < 2 ^ 63 ∧
    sh.size.toNat ≤ file.length - sh.offset.toNat

def sectionBytes (file : List UInt8) (sh : SectionHeader) : List UInt8 :=
  (file.drop sh.offset.toNat).take sh.size.toNat

theorem readAt_eq_ok_iff {file bb : List UInt8} {sh : SectionHeader} :
    readAt file sh.offset sh.size.toNat = .ok bb ↔ Readable file sh ∧ bb = sectionBytes file sh := by
  rw [readAt, seekStart]
  by_cases hoffset : sh.offset.toNat < 2 ^ 63
  · rw [if_pos hoffset, Outcome.ok_bind, allocZeroed]
    by_cases hsize : sh.size.toNat < 2 ^ 63
    · rw [if_pos hsize, Outcome.ok_bind]
      show (readExact eof sh.size.toNat (file.drop sh.offset.toNat) >>= fun r => Outcome.ok r.1) =
        Outcome.ok bb ↔ _
      rw [readExact, List.length_drop]
      by_cases hlen : sh.size.toNat ≤ file.length - sh.offset.toNat
      · rw [if_pos hlen, Outcome.ok_bind, Outcome.ok.injEq, eq_comm]
        exact (and_iff_right ⟨hoffset, hsize, hlen⟩).symm
      · rw [if_neg hlen]
        exact iff_of_false (fun h => by cases h) fun h => hlen h.1.2.2
    · rw [if_neg hsize]
      exact iff_of_false (fun h => by cases h) fun h => hsize h.1.2.1
  · rw [if_neg hoffset]
    exact iff_of_false (fun h => by cases h) fun h => hoffset h.1.1

/-- Loading the section by itself fails, with the given section linked. -/
inductive SectionFails (file : List UInt8) (eh : Header) (sec : Section)
    (linked : Option Section) : Prop
  | unreadable : sec.content = .unloaded → sec.header.shtype ≠ SectionType.nobits →
      ¬ Readable file sec.header → SectionFails file eh sec linked
  | notStrtab (l : Section) : sec.content = .unloaded → sec.header.shtype = SectionType.dynamic →
      linked = some l → (∀ t, l.content ≠ .strtab t) → SectionFails file eh sec linked
  | entries : sec.content = .unloaded → sec.header.shtype = SectionType.dynamic →
      BadEntries eh (sectionBytes file sec.header) → SectionFails file eh sec linked

/-- The contents a section of the type DYNAMIC can have. -/
def Section.Typed (sec : Section) : Prop :=
  sec.header.shtype = SectionType.dynamic →
    sec.content = .unloaded ∨ ∃ ds, sec.content = .dynamic ds

theorem Dynamic.fromReader_ok_iff (eh : Header) (bytes : List UInt8) (linked : Option Section) :
    (∃ c, Dynamic.fromReader bytes (linked.map fun s => s.content) eh = .ok c) ↔
      (∀ l, linked = some l → ∃ t, l.content = .strtab t) ∧ ¬ BadEntries eh bytes := by
  have hread (strtab : Option Strtab) :
      (∃ c, (do
        let r ← Dynamic.readEntries eh strtab (bytes.length + 1) bytes
        Outcome.ok (SectionContent.dynamic r)) = Outcome.ok (ε := Error) c) ↔
      ¬ BadEntries eh bytes := by
    rw [← Dynamic.readEntries_ok_iff eh strtab (bytes.length + 1) bytes (by omega)]
    simp only [Outcome.bind_eq_ok]
    constructor
    · rintro ⟨_, ds, hds, _⟩
      exact ⟨ds, hds⟩
    · rintro ⟨ds, hds⟩
      exact ⟨_, ds, hds, rfl⟩
  cases linked with
  | none =>
      unfold Dynamic.fromReader
      exact (hread none).trans ⟨fun h => ⟨(fun l hl => nomatch hl), h⟩, And.right⟩
  | some l =>
      unfold Dynamic.fromReader
      cases hl : l.content with
      | strtab t =>
          simp only [Option.map_some, hl, Outcome.ok_bind]
          refine (hread (some t)).trans ⟨fun h => ⟨?_, h⟩, And.right⟩
          rintro l' ⟨⟩
          exact ⟨t, hl⟩
      | none => simp [hl]
      | unloaded => simp [hl]
      | dynamic ds => simp [hl]

theorem Dynamic.of_fromReader {bytes : List UInt8} {linked : Option SectionContent} {eh : Header}
    {c : SectionContent} (h : Dynamic.fromReader bytes linked eh = .ok c) :
    ∃ ds, c = .dynamic ds := by
  have hread {strtab : Option Strtab} (h : (do
      let r ← Dynamic.readEntries eh strtab (bytes.length + 1) bytes
      Outcome.ok (SectionContent.dynamic r)) = Outcome.ok c) : ∃ ds, c = .dynamic ds := by
    obtain ⟨ds, _, hc⟩ := Outcome.bind_eq_ok.mp h
    exact ⟨ds, (Outcome.ok.inj hc).symm⟩
  unfold Dynamic.fromReader at h
  dsimp only at h
  split at h
  · exact hread h
  · exact hread h
  · cases h

theorem Section.fromReader_ok_iff (file : List UInt8) (eh : Header) (sec : Section)
    (linked : Option Section) :
    (∃ sec', sec.fromReader file linked eh = .ok sec') ↔ ¬ SectionFails file eh sec linked := by
  rw [Section.fromReader]
  by_cases hcontent : sec.content = .unloaded
  · rw [if_neg (by simp [hcontent])]
    by_cases hnobits : sec.header.shtype = SectionType.nobits
    · rw [if_pos hnobits]
      refine iff_of_true ⟨_, rfl⟩ fun h => ?_
      cases h with
      | unreadable _ hne _ => exact hne hnobits
      | notStrtab _ _ htype _ _ => exact absurd (hnobits.symm.trans htype) (by decide)
      | entries _ htype _ => exact absurd (hnobits.symm.trans htype) (by decide)
    · rw [if_neg hnobits]
      by_cases hread : Readable file sec.header
      · rw [readAt_eq_ok_iff.mpr ⟨hread, rfl⟩, Outcome.ok_bind]
        by_cases hdynamic : sec.header.shtype = SectionType.dynamic
        · have hstrtab : sec.header.shtype ≠ SectionType.strtab := by rw [hdynamic]; decide
          dsimp only
          rw [if_neg hstrtab, if_pos hdynamic]
          have hok := Dynamic.fromReader_ok_iff eh (sectionBytes file sec.header) linked
          constructor
          · rintro ⟨sec', hsec'⟩ hfails
            obtain ⟨c, hc, _⟩ := Outcome.bind_eq_ok.mp hsec'
            obtain ⟨hlinked, hentries⟩ := hok.mp ⟨c, hc⟩
            cases hfails with
            | unreadable _ _ h => exact h hread
            | notStrtab l _ _ hl h =>
                obtain ⟨t, ht⟩ := hlinked l hl
                exact h t ht
            | entries _ _ h => exact hentries h
          · intro hfails
            obtain ⟨c, hc⟩ := hok.mpr ⟨fun l hl => Classical.byContradiction fun h =>
              hfails (.notStrtab l hcontent hdynamic hl fun t ht => h ⟨t, ht⟩),
              fun h => hfails (.entries hcontent hdynamic h)⟩
            exact ⟨_, by rw [hc]; rfl⟩
        · have hnone : ¬ SectionFails file eh sec linked := by
            rintro (⟨_, _, h⟩ | ⟨_, _, h, _, _⟩ | ⟨_, h, _⟩)
            · exact h hread
            · exact hdynamic h
            · exact hdynamic h
          refine iff_of_true ?_ hnone
          dsimp only
          rw [if_neg hdynamic]
          split
          · exact ⟨_, rfl⟩
          · exact ⟨_, rfl⟩
      · refine iff_of_false ?_ fun h => h (.unreadable hcontent hnobits hread)
        rintro ⟨sec', hsec'⟩
        obtain ⟨bb, hbb, _⟩ := Outcome.bind_eq_ok.mp hsec'
        exact hread (readAt_eq_ok_iff.mp hbb).1
  · rw [if_pos hcontent]
    refine iff_of_true ⟨_, rfl⟩ fun h => ?_
    cases h with
    | unreadable h _ _ => exact hcontent h
    | notStrtab _ h _ _ _ => exact hcontent h
    | entries h _ _ => exact hcontent h

/-- A section that was loaded keeps its header, and a DYNAMIC one has its table. -/
theorem Section.fromReader_ok {file : List UInt8} {eh : Header} {sec sec' : Section}
    {linked : Option Section} (h : sec.fromReader file linked eh = .ok sec') :
    sec'.header = sec.header ∧
    (sec.Typed → sec.header.shtype = SectionType.dynamic → ∃ ds, sec'.content = .dynamic ds) := by
  rw [Section.fromReader] at h
  split at h
  · rename_i hcontent
    cases h
    refine ⟨rfl, fun htyped hdynamic => ?_⟩
    exact (htyped hdynamic).resolve_left hcontent
  · split at h
    · rename_i hnobits
      cases h
      refine ⟨rfl, fun _ hdynamic => ?_⟩
      exact absurd (hnobits.symm.trans hdynamic) (by decide)
    · obtain ⟨bb, _, h⟩ := Outcome.bind_eq_ok.mp h
      dsimp only at h
      split at h
      · rename_i hstrtab
        cases h
        refine ⟨rfl, fun _ hdynamic => ?_⟩
        exact absurd (hstrtab.symm.trans hdynamic) (by decide)
      · split at h
        · obtain ⟨c, hc, h⟩ := Outcome.bind_eq_ok.mp h
          cases h
          refine ⟨rfl, fun _ _ => ?_⟩
          exact Dynamic.of_fromReader hc
        · rename_i hdynamic
          cases h
          exact ⟨rfl, fun _ h => absurd h hdynamic⟩

/-! ## Along the links -/

namespace Elf

/-- The last part of `load`: the section is put back when it could be loaded. -/
def finish (file : List UInt8) (i : Nat) (sec : Section) (linked : Option Section) (elf : Elf) :
    Outcome Error Unit × Elf :=
  match sec.fromReader file linked elf.header with
  | .ok sec => (.ok (), elf.setSection i sec)
  | .err e => (.err e, elf)
  | .panic => (.panic, elf)

/-- The part of `load` after the section was taken out, given a call for the link. -/
def loadLinked (file : List UInt8) (i : Nat) (sec : Section) (elf : Elf) :
    Option (Option (Outcome Error Unit × Elf)) → Option (Outcome Error Unit × Elf)
  | none => some (finish file i sec none elf)
  | some none => none
  | some (some (.ok (), elf')) =>
      some (finish file i sec
        ((elf.linkIndex sec.header.link).bind fun j => elf'.sections[j]?) elf')
  | some (some (e, elf')) => some (e, elf')

/-- The section is taken out. -/
def takeOut (elf : Elf) (i : Nat) : Elf := elf.setSection i Section.default

theorem loadFuel_succ {file : List UInt8} {fuel : Nat} {elf : Elf} {i : Nat} {sec : Section}
    (h : elf.sections[i]? = some sec) :
    loadFuel file (fuel + 1) elf i = loadLinked file i sec (elf.takeOut i)
      (((elf.takeOut i).linkIndex sec.header.link).map fun j =>
        loadFuel file fuel (elf.takeOut i) j) := by
  rw [loadFuel, h]
  dsimp only
  cases hlink : (elf.setSection i Section.default).linkIndex sec.header.link with
  | none =>
      simp only [loadLinked, takeOut, hlink, Option.map_none, setSection_header]
      rfl
  | some j =>
      simp only [takeOut, hlink, Option.map_some]
      cases hrec : loadFuel file fuel (elf.setSection i Section.default) j with
      | none => rfl
      | some r =>
          obtain ⟨r, elf'⟩ := r
          cases r with
          | ok u =>
              simp only [loadLinked, hlink, Option.bind_some]
              rfl
          | err e => rfl
          | panic => rfl

theorem loadFuel_mono {file : List UInt8} {fuel : Nat} {elf : Elf} {i : Nat}
    {r : Outcome Error Unit × Elf} (h : loadFuel file fuel elf i = some r) :
    loadFuel file (fuel + 1) elf i = some r := by
  induction fuel generalizing elf i r with
  | zero => cases h
  | succ fuel ih =>
      cases hsec : elf.sections[i]? with
      | none =>
          rw [loadFuel, hsec] at h ⊢
          exact h
      | some sec =>
          rw [loadFuel_succ hsec] at h ⊢
          cases hlink : (elf.takeOut i).linkIndex sec.header.link with
          | none =>
              rw [hlink] at h
              exact h
          | some j =>
              simp only [hlink, Option.map_some] at h ⊢
              cases hrec : loadFuel file fuel (elf.takeOut i) j with
              | none =>
                  rw [hrec] at h
                  cases h
              | some r' =>
                  rw [hrec] at h
                  rw [ih hrec]
                  exact h

/-- `load` by itself: the link is loaded first, with the section taken out. -/
theorem load_eq (file : List UInt8) {elf : Elf} {i : Nat} {sec : Section}
    (h : elf.sections[i]? = some sec) :
    some (elf.load file i) = loadLinked file i sec (elf.takeOut i)
      (((elf.takeOut i).linkIndex sec.header.link).map fun j =>
        some ((elf.takeOut i).load file j)) := by
  rw [← loadFuel_eq_load, loadFuel_succ h]
  cases hlink : (elf.takeOut i).linkIndex sec.header.link with
  | none => rfl
  | some j =>
      obtain ⟨hin, _⟩ := linkIndex_eq_some hlink
      have hlen : (elf.takeOut i).sections.length = elf.sections.length := by
        rw [takeOut, setSection_sections, List.length_set]
      have hcount : (elf.takeOut i).linkedCount + 1 = elf.linkedCount := by
        rw [linkedCount, hlen, takeOut, setSection_sections]
        refine countP_set_lt h (decide_eq_true ?_) (linksInto_default _)
        rwa [hlen] at hin
      have hle := linkedCount_le elf
      have hsome := loadFuel_isSome file elf.sections.length (elf.takeOut i) j (by omega)
      obtain ⟨r, hr⟩ := Option.isSome_iff_exists.mp hsome
      have hload := loadFuel_eq_load file (elf.takeOut i) j
      rw [hlen, loadFuel_mono hr] at hload
      rw [Option.map_some, Option.map_some, hr, hload]

/-- What a call of `load` keeps, whether or not it fails. -/
structure Keeps (elf elf' : Elf) : Prop where
  header : elf'.header = elf.header
  length : elf'.sections.length = elf.sections.length
  typed : (∀ sec ∈ elf.sections, sec.Typed) → ∀ sec ∈ elf'.sections, sec.Typed

theorem Keeps.trans {elf₁ elf₂ elf₃ : Elf} (h : Keeps elf₁ elf₂) (h' : Keeps elf₂ elf₃) :
    Keeps elf₁ elf₃ :=
  ⟨h'.header.trans h.header, h'.length.trans h.length, fun ht => h'.typed (h.typed ht)⟩

theorem keeps_setSection (elf : Elf) (i : Nat) {sec : Section} (hsec : sec.Typed) :
    Keeps elf (elf.setSection i sec) where
  header := rfl
  length := List.length_set
  typed := by
    intro h s hs
    rcases List.mem_or_eq_of_mem_set hs with hs | rfl
    · exact h s hs
    · exact hsec

theorem typed_default : Section.default.Typed := fun h => absurd h (by decide)

theorem keeps_finish (file : List UInt8) (i : Nat) {sec : Section} (linked : Option Section)
    (elf : Elf) (hsec : sec.Typed) : Keeps elf (finish file i sec linked elf).2 := by
  rw [finish]
  split
  · rename_i sec' hok
    obtain ⟨hheader, hdynamic⟩ := Section.fromReader_ok hok
    refine keeps_setSection elf i fun htype => .inr ?_
    rw [hheader] at htype
    exact hdynamic hsec htype
  · exact ⟨rfl, rfl, id⟩
  · exact ⟨rfl, rfl, id⟩

theorem loadFuel_keeps {file : List UInt8} {fuel : Nat} {elf elf' : Elf} {i : Nat}
    {r : Outcome Error Unit} (htyped : ∀ sec ∈ elf.sections, sec.Typed)
    (h : loadFuel file fuel elf i = some (r, elf')) : Keeps elf elf' := by
  induction fuel generalizing elf elf' i r with
  | zero => cases h
  | succ fuel ih =>
      cases hsec : elf.sections[i]? with
      | none =>
          rw [loadFuel, hsec] at h
          obtain ⟨_, rfl⟩ := Prod.mk.inj (Option.some.inj h)
          exact ⟨rfl, rfl, id⟩
      | some sec =>
          have hst := htyped sec (List.mem_of_getElem? hsec)
          have hout : Keeps elf (elf.takeOut i) := keeps_setSection elf i typed_default
          rw [loadFuel_succ hsec] at h
          cases hlink : (elf.takeOut i).linkIndex sec.header.link with
          | none =>
              rw [hlink] at h
              have hfin := keeps_finish file i none (elf.takeOut i) hst
              rw [Option.some.inj h] at hfin
              exact hout.trans hfin
          | some j =>
              simp only [hlink, Option.map_some] at h
              cases hrec : loadFuel file fuel (elf.takeOut i) j with
              | none =>
                  rw [hrec] at h
                  cases h
              | some res =>
                  obtain ⟨r', elf''⟩ := res
                  have hkeep := hout.trans (ih (hout.typed htyped) hrec)
                  rw [hrec] at h
                  cases r' with
                  | ok u =>
                      have hfin := keeps_finish file i
                        (((elf.takeOut i).linkIndex sec.header.link).bind fun j => elf''.sections[j]?)
                        elf'' hst
                      rw [Option.some.inj h] at hfin
                      exact hkeep.trans hfin
                  | err e =>
                      obtain ⟨_, rfl⟩ := Prod.mk.inj (Option.some.inj h)
                      exact hkeep
                  | panic =>
                      obtain ⟨_, rfl⟩ := Prod.mk.inj (Option.some.inj h)
                      exact hkeep

theorem load_keeps (file : List UInt8) {elf : Elf} (i : Nat)
    (htyped : ∀ sec ∈ elf.sections, sec.Typed) : Keeps elf (elf.load file i).2 :=
  loadFuel_keeps htyped (loadFuel_eq_load file elf i)

/-- The failures of `load`: of a linked section, or of the section itself. -/
inductive LoadFails (file : List UInt8) : Elf → Nat → Prop
  | linked {elf : Elf} {i j : Nat} {sec : Section} : elf.sections[i]? = some sec →
      (elf.takeOut i).linkIndex sec.header.link = some j →
      LoadFails file (elf.takeOut i) j → LoadFails file elf i
  | alone {elf : Elf} {i : Nat} {sec : Section} : elf.sections[i]? = some sec →
      (elf.takeOut i).linkIndex sec.header.link = none →
      SectionFails file elf.header sec none → LoadFails file elf i
  | withLink {elf : Elf} {i j : Nat} {sec : Section} : elf.sections[i]? = some sec →
      (elf.takeOut i).linkIndex sec.header.link = some j →
      ((elf.takeOut i).load file j).1 = .ok () →
      SectionFails file elf.header sec ((elf.takeOut i).load file j).2.sections[j]? →
      LoadFails file elf i

theorem finish_ok_iff (file : List UInt8) (i : Nat) (sec : Section) (linked : Option Section)
    (elf : Elf) :
    (finish file i sec linked elf).1 = .ok () ↔ ¬ SectionFails file elf.header sec linked := by
  rw [← Section.fromReader_ok_iff, finish]
  cases sec.fromReader file linked elf.header <;> simp

/-- There are no other failures. -/
theorem load_eq_ok_iff (file : List UInt8) (elf : Elf) (i : Nat) (hi : i < elf.sections.length)
    (htyped : ∀ sec ∈ elf.sections, sec.Typed) :
    (elf.load file i).1 = .ok () ↔ ¬ LoadFails file elf i := by
  induction hn : elf.linkedCount using Nat.strongRecOn generalizing elf i with
  | ind n ih =>
      obtain ⟨sec, hsec⟩ : ∃ sec, elf.sections[i]? = some sec := ⟨_, List.getElem?_eq_getElem hi⟩
      have hload := load_eq file hsec
      have hout : Keeps elf (elf.takeOut i) := keeps_setSection elf i typed_default
      cases hlink : (elf.takeOut i).linkIndex sec.header.link with
      | none =>
          rw [hlink] at hload
          rw [Option.some.inj hload, finish_ok_iff, hout.header]
          refine not_congr ⟨fun h => .alone hsec hlink h, fun h => ?_⟩
          cases h with
          | linked hsec' hlink' _ =>
              obtain rfl := Option.some.inj (hsec.symm.trans hsec')
              cases hlink.symm.trans hlink'
          | alone hsec' _ h =>
              obtain rfl := Option.some.inj (hsec.symm.trans hsec')
              exact h
          | withLink hsec' hlink' _ _ =>
              obtain rfl := Option.some.inj (hsec.symm.trans hsec')
              cases hlink.symm.trans hlink'
      | some j =>
          obtain ⟨hin, hj⟩ := linkIndex_eq_some hlink
          have hcount : (elf.takeOut i).linkedCount < elf.linkedCount := by
            have hlt : (elf.takeOut i).linkedCount + 1 = elf.linkedCount := by
              rw [linkedCount, hout.length, takeOut, setSection_sections]
              refine countP_set_lt hsec (decide_eq_true ?_) (linksInto_default _)
              rwa [hout.length] at hin
            omega
          have hrec := ih _ (hn ▸ hcount) (elf.takeOut i) j (by omega) (hout.typed htyped) rfl
          have hkeep := hout.trans (load_keeps file j (hout.typed htyped))
          simp only [hlink, Option.map_some] at hload
          cases hres : (elf.takeOut i).load file j with
          | mk r elf' =>
              rw [hres] at hload hrec hkeep
              cases r with
              | ok u =>
                  simp only [loadLinked, hlink, Option.bind_some] at hload
                  rw [Option.some.inj hload, finish_ok_iff, hkeep.header]
                  refine not_congr ⟨fun h => .withLink hsec hlink (by rw [hres]) (by rwa [hres]),
                    fun h => ?_⟩
                  cases h with
                  | linked hsec' hlink' h =>
                      obtain rfl := Option.some.inj (hsec.symm.trans hsec')
                      obtain rfl := Option.some.inj (hlink.symm.trans hlink')
                      exact absurd h (hrec.mp rfl)
                  | alone hsec' hlink' _ =>
                      obtain rfl := Option.some.inj (hsec.symm.trans hsec')
                      cases hlink.symm.trans hlink'
                  | withLink hsec' hlink' _ h =>
                      obtain rfl := Option.some.inj (hsec.symm.trans hsec')
                      obtain rfl := Option.some.inj (hlink.symm.trans hlink')
                      rwa [hres] at h
              | err e =>
                  rw [Option.some.inj hload]
                  refine iff_of_false (fun h => by cases h) fun h => ?_
                  exact h (.linked hsec hlink (Classical.not_not.mp (mt hrec.mpr fun h => by cases h)))
              | panic =>
                  rw [Option.some.inj hload]
                  refine iff_of_false (fun h => by cases h) fun h => ?_
                  exact h (.linked hsec hlink (Classical.not_not.mp (mt hrec.mpr fun h => by cases h)))

theorem finish_dynamic {file : List UInt8} {elf elf' : Elf} {i : Nat} {sec : Section}
    {linked : Option Section} (hi : i < elf.sections.length) (hsec : sec.Typed)
    (htype : sec.header.shtype = SectionType.dynamic)
    (h : finish file i sec linked elf = (.ok (), elf')) :
    ∃ ds, (elf'.sections[i]?.bind fun sec => sec.content.asDynamic) = some ds := by
  rw [finish] at h
  split at h
  · rename_i sec' hok
    obtain ⟨_, rfl⟩ := Prod.mk.inj h
    obtain ⟨ds, hds⟩ := (Section.fromReader_ok hok).2 hsec htype
    refine ⟨ds, ?_⟩
    rw [setSection_sections, List.getElem?_set_self hi, Option.bind_some, hds]
    rfl
  · cases (Prod.mk.inj h).1
  · cases (Prod.mk.inj h).1

/-- A DYNAMIC section that could be loaded has its table. -/
theorem load_dynamicSection {file : List UInt8} {elf elf' : Elf} {i : Nat} {sec : Section}
    (hsec : elf.sections[i]? = some sec) (htyped : ∀ sec ∈ elf.sections, sec.Typed)
    (htype : sec.header.shtype = SectionType.dynamic) (h : elf.load file i = (.ok (), elf')) :
    ∃ ds, (elf'.sections[i]?.bind fun sec => sec.content.asDynamic) = some ds := by
  have hload := load_eq file hsec
  have hst := htyped sec (List.mem_of_getElem? hsec)
  have hi : i < elf.sections.length := (List.getElem?_eq_some_iff.mp hsec).1
  have hout : Keeps elf (elf.takeOut i) := keeps_setSection elf i typed_default
  rw [h] at hload
  cases hlink : (elf.takeOut i).linkIndex sec.header.link with
  | none =>
      rw [hlink] at hload
      exact finish_dynamic (hout.length.symm ▸ hi) hst htype (Option.some.inj hload).symm
  | some j =>
      have hkeep := hout.trans (load_keeps file j (hout.typed htyped))
      simp only [hlink, Option.map_some] at hload
      cases hres : (elf.takeOut i).load file j with
      | mk r elf'' =>
          rw [hres] at hload hkeep
          cases r with
          | ok u => exact finish_dynamic (hkeep.length.symm ▸ hi) hst htype (Option.some.inj hload).symm
          | err e => cases (Prod.mk.inj (Option.some.inj hload)).1
          | panic => cases (Prod.mk.inj (Option.some.inj hload)).1

/-- Nothing is loaded yet in an object that was just read. -/
theorem fromReader_unloaded {file : List UInt8} {elf : Elf} (h : fromReader file = .ok elf) :
    ∀ sec ∈ elf.sections, sec.content = .unloaded := by
  have hnamed (shstrtab : List UInt8) (secs secs' : List Section)
      (hsecs : ∀ sec ∈ secs, sec.content = .unloaded)
      (h : nameSections shstrtab secs = .ok secs') : ∀ sec ∈ secs', sec.content = .unloaded := by
    induction secs generalizing secs' with
    | nil =>
        cases h
        exact hsecs
    | cons sec secs ih =>
        obtain ⟨named, hname, h⟩ := Outcome.bind_eq_ok.mp h
        obtain ⟨rest, hrest, h⟩ := Outcome.bind_eq_ok.mp h
        cases h
        intro s hs
        rcases List.mem_cons.mp hs with rfl | hs
        · rw [sectionName] at hname
          split at hname
          · cases hname
            exact hsecs sec List.mem_cons_self
          · cases hname
        · exact ih rest (fun s hs => hsecs s (List.mem_cons_of_mem _ hs)) hrest s hs
  rw [fromReader] at h
  obtain ⟨⟨header, _⟩, _, h⟩ := Outcome.bind_eq_ok.mp h
  obtain ⟨buf, _, h⟩ := Outcome.bind_eq_ok.mp h
  obtain ⟨⟨segments, _⟩, _, h⟩ := Outcome.bind_eq_ok.mp h
  obtain ⟨buf', _, h⟩ := Outcome.bind_eq_ok.mp h
  obtain ⟨⟨shs, _⟩, _, h⟩ := Outcome.bind_eq_ok.mp h
  obtain ⟨sec, _, h⟩ := Outcome.bind_eq_ok.mp h
  obtain ⟨shstrtab, _, h⟩ := Outcome.bind_eq_ok.mp h
  obtain ⟨sections, hsections, h⟩ := Outcome.bind_eq_ok.mp h
  cases h
  have hunloaded (s) (hs : s ∈ shs.map unnamedSection) : s.content = .unloaded := by
    obtain ⟨sh, _, rfl⟩ := List.mem_map.mp hs
    rfl
  exact hnamed shstrtab _ _ hunloaded hsections

theorem fromReader_typed {file : List UInt8} {elf : Elf} (h : fromReader file = .ok elf) :
    ∀ sec ∈ elf.sections, sec.Typed :=
  fun sec hsec _ => .inl (fromReader_unloaded h sec hsec)

end Elf
end Elfkit
end DracutInstall
