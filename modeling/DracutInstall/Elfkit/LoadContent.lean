/-
What `Elf::load` leaves in the vector, with any set of sections taken out.

`Stands` describes the vector while some calls of `load` are going on: their
sections are placeholders, and every other section is the one that was read, not
loaded yet or with the content that belongs to it.  A call keeps that, and loads
its own section.
-/
import Mathlib.Data.Set.Insert
import Mathlib.Logic.Relation
import DracutInstall.Elfkit.Decode
import DracutInstall.Elfkit.LoadFailure

namespace DracutInstall
namespace Elfkit

open ByteCodec Rust

/-! ## Strings without a table -/

/-- Every entry of a table is the one of some tag and value. -/
theorem Dynamic.mem_readEntries {eh : Header} {strtab : Option Strtab} {fuel : Nat}
    {bytes : List UInt8} {ds : List Dynamic} (h : Dynamic.readEntries eh strtab fuel bytes = .ok ds) :
    ∀ d ∈ ds, ∃ tag val, Dynamic.entry strtab tag val = .ok d := by
  induction fuel generalizing bytes ds with
  | zero =>
      cases h
      exact fun d hd => absurd hd List.not_mem_nil
  | succ fuel ih =>
      rw [Dynamic.readEntries] at h
      split at h
      · obtain ⟨⟨val, rest⟩, _, h₁⟩ := Outcome.bind_eq_ok.mp h
        obtain ⟨d, hd, h₂⟩ := Outcome.bind_eq_ok.mp h₁
        split at h₂
        · cases h₂
          intro d' hd'
          obtain rfl := List.mem_singleton.mp hd'
          exact ⟨_, _, hd⟩
        · obtain ⟨ds', hds', h₃⟩ := Outcome.bind_eq_ok.mp h₂
          cases h₃
          intro d' hd'
          rcases List.mem_cons.mp hd' with rfl | hd'
          · exact ⟨_, _, hd⟩
          · exact ih hds' d' hd'
      · cases h
        exact fun d hd => absurd hd List.not_mem_nil

/-- Without a string table all strings are empty. -/
theorem Dynamic.entry_unlinked {tag val : UInt64} {d : Dynamic} {text : List UInt8}
    {offset : Option UInt64} (h : Dynamic.entry none tag val = .ok d)
    (hd : d.content = .string text offset) : text = [] := by
  rw [Dynamic.entry] at h
  split at h
  · cases h
    cases hd
  · split at h
    · cases h
      cases hd
    · split at h
      · cases h
        cases hd
        rfl
      · split at h
        · split at h
          · cases h
            cases hd
          · cases h
        · cases h
          cases hd

theorem Dynamic.fromReader_unlinked {bytes : List UInt8} {eh : Header} {ds : List Dynamic}
    (h : Dynamic.fromReader bytes none eh = .ok (.dynamic ds)) :
    ∀ d ∈ ds, ∀ text offset, d.content = .string text offset → text = [] := by
  obtain ⟨strtab, hstrtab, hrest⟩ := Outcome.bind_eq_ok.mp h
  obtain rfl : none = strtab := Outcome.ok.inj hstrtab
  obtain ⟨r, hr, hlast⟩ := Outcome.bind_eq_ok.mp hrest
  cases hlast
  intro d hd text offset hcontent
  obtain ⟨tag, val, hentry⟩ := Dynamic.mem_readEntries hr d hd
  exact Dynamic.entry_unlinked hentry hcontent

namespace Elf

/-! ## What belongs into the vector -/

/-- The section's link, which is looked up by its index only, leads to the other one. -/
def Linked (elf : Elf) (i j : Nat) : Prop :=
  ∃ sec, elf.sections[i]? = some sec ∧ elf.linkIndex sec.header.link = some j

/-- The string table a DYNAMIC section is decoded against: the bytes of the linked
section. -/
def linkedTable (file : List UInt8) (elf : Elf) (sec : Section) : Option SectionContent :=
  ((elf.linkIndex sec.header.link).bind fun j => elf.sections[j]?).map fun s =>
    .strtab ⟨sectionBytes file s.header⟩

/-- The content that belongs to a section. -/
inductive Content (file : List UInt8) (elf : Elf) (sec : Section) : SectionContent → Prop
  | nobits (htype : sec.header.shtype = SectionType.nobits) : Content file elf sec .none
  | strtab (htype : sec.header.shtype = SectionType.strtab) (hread : Readable file sec.header) :
      Content file elf sec (.strtab ⟨sectionBytes file sec.header⟩)
  | dynamic {ds} (htype : sec.header.shtype = SectionType.dynamic)
      (hread : Readable file sec.header)
      (hds : Dynamic.fromReader (sectionBytes file sec.header) (linkedTable file elf sec) elf.header
        = .ok (.dynamic ds)) : Content file elf sec (.dynamic ds)
  | other (hstrtab : sec.header.shtype ≠ SectionType.strtab)
      (hdynamic : sec.header.shtype ≠ SectionType.dynamic) : Content file elf sec .unloaded

/-- The vector while the sections of `out` are taken out of it. -/
structure Stands (file : List UInt8) (orig : Elf) (out : Set Nat) (elf : Elf) : Prop where
  header : elf.header = orig.header
  length : elf.sections.length = orig.sections.length
  placeholder : ∀ k ∈ out, k < orig.sections.length → elf.sections[k]? = some Section.default
  kept : ∀ k ∉ out, ∀ sec, orig.sections[k]? = some sec →
    ∃ c, elf.sections[k]? = some { sec with content := c } ∧
      (c = .unloaded ∨ Content file orig sec c)

/-- What a call of `load` on one section does to the vector. -/
structure Loads (file : List UInt8) (orig : Elf) (out : Set Nat) (elf : Elf) (i : Nat)
    (elf' : Elf) : Prop where
  stands : Stands file orig out elf'
  loaded : i ∉ out → ∀ sec, orig.sections[i]? = some sec →
    ∃ c, elf'.sections[i]? = some { sec with content := c } ∧ Content file orig sec c
  frame : ∀ k, ¬ Relation.ReflTransGen (Linked orig) i k → elf'.sections[k]? = elf.sections[k]?

variable {file : List UInt8} {orig elf elf' : Elf} {out : Set Nat} {i j : Nat} {sec : Section}

/-! ## One section -/

/-- The section a section is decoded against: none, or one whose string table, if it
has one, is the table of the linked section. -/
def Against (file : List UInt8) (orig : Elf) (sec : Section) (linked : Option Section) : Prop :=
  (linked = none ∧ linkedTable file orig sec = none) ∨
    ∃ l, linked = some l ∧ ∀ t, l.content = .strtab t →
      linkedTable file orig sec = some (.strtab t)

theorem fromReader_content {c : SectionContent} {linked : Option Section} {sec' : Section}
    (hc : c = .unloaded ∨ Content file orig sec c) (hlinked : Against file orig sec linked)
    (h : Section.fromReader { sec with content := c } file linked orig.header = .ok sec') :
    ∃ c', sec' = { sec with content := c' } ∧ Content file orig sec c' := by
  rw [Section.fromReader] at h
  split at h
  · rename_i hloaded
    cases h
    exact ⟨c, rfl, hc.resolve_left hloaded⟩
  · split at h
    · rename_i hnobits
      cases h
      exact ⟨.none, rfl, .nobits hnobits⟩
    · obtain ⟨bb, hbb, hrest⟩ := Outcome.bind_eq_ok.mp h
      obtain ⟨hread, rfl⟩ := readAt_eq_ok_iff.mp hbb
      dsimp only at hrest
      split at hrest
      · rename_i hstrtab
        cases hrest
        exact ⟨_, rfl, .strtab hstrtab hread⟩
      · rename_i hstrtab
        split at hrest
        · rename_i hdynamic
          obtain ⟨content, hcontent, hlast⟩ := Outcome.bind_eq_ok.mp hrest
          cases hlast
          obtain ⟨ds, rfl⟩ := Dynamic.of_fromReader hcontent
          refine ⟨_, rfl, .dynamic hdynamic hread ?_⟩
          rcases hlinked with ⟨rfl, htable⟩ | ⟨l, rfl, htable⟩
          · rw [htable]
            exact hcontent
          · -- only a string table is decoded against
            obtain ⟨t, ht⟩ := ((Dynamic.fromReader_ok_iff _ _ _).mp ⟨_, hcontent⟩).1 l rfl
            rw [htable t ht, ← ht]
            exact hcontent
        · rename_i hdynamic
          cases hrest
          exact ⟨_, rfl, .other hstrtab hdynamic⟩

theorem linkIndex_congr {link : UInt32} (h : elf.sections.length = orig.sections.length) :
    elf.linkIndex link = orig.linkIndex link := by
  rw [linkIndex, linkIndex, h]

/-- The vector with one more section taken out. -/
theorem Stands.takeOut (h : Stands file orig out elf) (hi : i < orig.sections.length) :
    Stands file orig (insert i out) (elf.takeOut i) where
  header := h.header
  length := by
    rw [Elf.takeOut, setSection_sections, List.length_set]
    exact h.length
  placeholder k hk hlt := by
    rw [Elf.takeOut, setSection_sections]
    by_cases hki : k = i
    · rw [hki, List.getElem?_set_self (h.length.symm ▸ hi)]
    · rw [List.getElem?_set_ne (Ne.symm hki)]
      exact h.placeholder k (hk.resolve_left hki) hlt
  kept k hk sec hsec := by
    rw [Set.mem_insert_iff, not_or] at hk
    rw [Elf.takeOut, setSection_sections, List.getElem?_set_ne (Ne.symm hk.1)]
    exact h.kept k hk.2 sec hsec

/-- The vector with a section put back. -/
theorem Stands.putBack (h : Stands file orig (insert i out) elf) (hi : i ∉ out)
    (hsec : orig.sections[i]? = some sec) {c : SectionContent}
    (hc : Content file orig sec c) :
    Stands file orig out (elf.setSection i { sec with content := c }) where
  header := h.header
  length := by
    rw [setSection_sections, List.length_set]
    exact h.length
  placeholder k hk hlt := by
    have hki : i ≠ k := fun heq => hi (heq ▸ hk)
    rw [setSection_sections, List.getElem?_set_ne hki]
    exact h.placeholder k (.inr hk) hlt
  kept k hk s hs := by
    rw [setSection_sections]
    by_cases hki : k = i
    · subst hki
      obtain rfl := Option.some.inj (hsec.symm.trans hs)
      have hlt := (List.getElem?_eq_some_iff.mp hsec).1
      rw [List.getElem?_set_self (h.length.symm ▸ hlt)]
      exact ⟨c, rfl, .inr hc⟩
    · rw [List.getElem?_set_ne (Ne.symm hki)]
      refine h.kept k ?_ s hs
      rw [Set.mem_insert_iff, not_or]
      exact ⟨hki, hk⟩

theorem finish_eq_ok {linked : Option Section}
    (h : finish file i sec linked elf = (.ok (), elf')) :
    ∃ sec', sec.fromReader file linked elf.header = .ok sec' ∧ elf' = elf.setSection i sec' := by
  rw [finish] at h
  split at h
  · rename_i sec' hok
    exact ⟨sec', hok, (Prod.mk.inj h).2.symm⟩
  · cases (Prod.mk.inj h).1
  · cases (Prod.mk.inj h).1

/-! ## Along the links -/

/-- A placeholder is loaded by leaving it as it is. -/
theorem loadFuel_placeholder {fuel : Nat} (hsec : elf.sections[i]? = some Section.default)
    (h : loadFuel file (fuel + 1) elf i = some (.ok (), elf')) : elf' = elf := by
  have hsame : elf.takeOut i = elf := by
    obtain ⟨hlt, hget⟩ := List.getElem?_eq_some_iff.mp hsec
    rw [Elf.takeOut, setSection, ← hget, List.set_getElem_self]
  have hlink : elf.linkIndex Section.default.header.link = none := if_pos (.inl (by decide))
  rw [loadFuel_succ hsec, hsame, hlink] at h
  obtain ⟨sec', hread, rfl⟩ := finish_eq_ok (Option.some.inj h)
  have hdefault : sec' = Section.default := by
    rw [Section.fromReader, if_pos (by decide)] at hread
    exact (Outcome.ok.inj hread).symm
  rw [hdefault]
  exact hsame

/-- The last part of a call: the section is put back with its content. -/
theorem finish_loads {linked : Option Section} {c : SectionContent} {elf₁ : Elf}
    (hi : i ∉ out) (hsec : orig.sections[i]? = some sec)
    (hc : c = .unloaded ∨ Content file orig sec c) (hstands : Stands file orig (insert i out) elf₁)
    (hlinked : Against file orig sec linked)
    (hframe : ∀ k, ¬ Relation.ReflTransGen (Linked orig) i k →
      elf₁.sections[k]? = elf.sections[k]?)
    (h : finish file i { sec with content := c } linked elf₁ = (.ok (), elf')) :
    Loads file orig out elf i elf' := by
  obtain ⟨sec', hread, rfl⟩ := finish_eq_ok h
  rw [hstands.header] at hread
  obtain ⟨c', rfl, hc'⟩ := fromReader_content hc hlinked hread
  refine ⟨hstands.putBack hi hsec hc', fun _ s hs => ?_, fun k hk => ?_⟩
  · obtain rfl := Option.some.inj (hsec.symm.trans hs)
    have hlt := (List.getElem?_eq_some_iff.mp hsec).1
    rw [setSection_sections, List.getElem?_set_self (hstands.length.symm ▸ hlt)]
    exact ⟨c', rfl, hc'⟩
  · have hne : i ≠ k := by
      rintro rfl
      exact hk .refl
    rw [setSection_sections, List.getElem?_set_ne hne]
    exact hframe k hk

/-- The linked section, once it has been loaded: a placeholder is no string table. -/
theorem against_loaded {elf₁ : Elf} (hlink : orig.linkIndex sec.header.link = some j)
    (hloads : Loads file orig out elf j elf₁) : Against file orig sec elf₁.sections[j]? := by
  obtain ⟨hin, rfl⟩ := linkIndex_eq_some hlink
  have hlt : sec.header.link.toNat < orig.sections.length :=
    Nat.lt_of_not_le fun hge => hin (.inr hge)
  by_cases hj : sec.header.link.toNat ∈ out
  · refine .inr ⟨_, hloads.stands.placeholder _ hj hlt, fun t ht => ?_⟩
    cases ht
  · obtain ⟨s, hs⟩ : ∃ s, orig.sections[sec.header.link.toNat]? = some s :=
      ⟨_, List.getElem?_eq_getElem hlt⟩
    obtain ⟨c, hget, hc⟩ := hloads.loaded hj s hs
    refine .inr ⟨_, hget, fun t ht => ?_⟩
    obtain rfl : c = .strtab t := ht
    cases hc with
    | strtab _ _ =>
        rw [linkedTable, hlink, Option.bind_some, hs]
        rfl

/-- The induction over the depth of the recursion, for every set of sections that are
taken out at that depth. -/
theorem loadFuel_loads {fuel : Nat} (hstands : Stands file orig out elf)
    (h : loadFuel file fuel elf i = some (.ok (), elf')) : Loads file orig out elf i elf' := by
  induction fuel generalizing out elf elf' i with
  | zero => cases h
  | succ fuel ih =>
      cases hget : elf.sections[i]? with
      | none =>
          rw [loadFuel, hget] at h
          cases h
      | some s =>
          have hlt : i < orig.sections.length :=
            hstands.length ▸ (List.getElem?_eq_some_iff.mp hget).1
          by_cases hi : i ∈ out
          · obtain rfl := loadFuel_placeholder (hget.trans (hget.symm.trans (hstands.placeholder i hi hlt))) h
            exact ⟨hstands, fun hno => absurd hi hno, fun _ _ => rfl⟩
          · obtain ⟨sec, hsec⟩ : ∃ sec, orig.sections[i]? = some sec :=
              ⟨_, List.getElem?_eq_getElem hlt⟩
            obtain ⟨c, hcget, hc⟩ := hstands.kept i hi sec hsec
            obtain rfl := Option.some.inj (hget.symm.trans hcget)
            have hout := hstands.takeOut hlt
            have hframe (k : Nat) (hk : ¬ Relation.ReflTransGen (Linked orig) i k) :
                (elf.takeOut i).sections[k]? = elf.sections[k]? := by
              have hne : i ≠ k := by
                rintro rfl
                exact hk .refl
              rw [Elf.takeOut, setSection_sections, List.getElem?_set_ne hne]
            rw [loadFuel_succ hget] at h
            dsimp only at h
            cases hlink : (elf.takeOut i).linkIndex sec.header.link with
            | none =>
                rw [hlink] at h
                rw [linkIndex_congr hout.length] at hlink
                have hnone : linkedTable file orig sec = none := by
                  rw [linkedTable, hlink]
                  rfl
                exact finish_loads hi hsec hc hout (.inl ⟨rfl, hnone⟩) hframe (Option.some.inj h)
            | some j =>
                simp only [hlink, Option.map_some] at h
                cases hrec : loadFuel file fuel (elf.takeOut i) j with
                | none =>
                    rw [hrec] at h
                    cases h
                | some res =>
                    obtain ⟨r, elf₁⟩ := res
                    rw [hrec] at h
                    cases r with
                    | err e => cases h
                    | panic => cases h
                    | ok u =>
                        have hloads := ih hout hrec
                        simp only [loadLinked, hlink, Option.bind_some] at h
                        rw [linkIndex_congr hout.length] at hlink
                        have hedge : Linked orig i j := ⟨sec, hsec, hlink⟩
                        refine finish_loads hi hsec hc hloads.stands (against_loaded hlink hloads)
                          (fun k hk => ?_) (Option.some.inj h)
                        have hkj : ¬ Relation.ReflTransGen (Linked orig) j k :=
                          fun hreach => hk (hreach.head hedge)
                        exact (hloads.frame k hkj).trans (hframe k hk)

/-! ## Sequences of calls -/

/-- The objects that calls of `load` lead to, none of which has failed. -/
inductive Reached (file : List UInt8) (orig : Elf) : Elf → Prop
  | read : Reached file orig orig
  | load {e : Elf} {k : Nat} {e' : Elf} (h : Reached file orig e)
      (hload : e.load file k = (.ok (), e')) : Reached file orig e'

theorem stands_fromReader (h : fromReader file = .ok orig) : Stands file orig ∅ orig where
  header := rfl
  length := rfl
  placeholder _ hk := absurd hk (Set.notMem_empty _)
  kept k _ sec hsec := by
    refine ⟨.unloaded, ?_, .inl rfl⟩
    rw [hsec, ← fromReader_unloaded h sec (List.mem_of_getElem? hsec)]

theorem Reached.stands (hread : fromReader file = .ok orig) (h : Reached file orig elf) :
    Stands file orig ∅ elf := by
  induction h with
  | read => exact stands_fromReader hread
  | @load e k e' _ hload ih =>
      have hfuel := loadFuel_eq_load file e k
      rw [hload] at hfuel
      exact (loadFuel_loads ih hfuel).stands

/-- What is to be found after a call of `load`. -/
structure AfterLoad (file : List UInt8) (orig elf : Elf) (i : Nat) (elf' : Elf) : Prop where
  length : elf'.sections.length = orig.sections.length
  same : ∀ (k : Nat) (sec sec' : Section), orig.sections[k]? = some sec → elf'.sections[k]? = some sec' →
    sec'.header = sec.header ∧ sec'.name = sec.name
  frame : ∀ k, ¬ Relation.ReflTransGen (Linked orig) i k → elf'.sections[k]? = elf.sections[k]?
  strtab : ∀ (k : Nat) (sec : Section), elf'.sections[k]? = some sec →
    sec.header.shtype = SectionType.strtab → (k = i ∨ sec.content ≠ .unloaded) →
      Readable file sec.header ∧ sec.content = .strtab ⟨sectionBytes file sec.header⟩
  dynamic : ∀ (k : Nat) (sec : Section), elf'.sections[k]? = some sec →
    sec.header.shtype = SectionType.dynamic → (k = i ∨ sec.content ≠ .unloaded) →
      ∃ ds, sec.content = .dynamic ds ∧ Readable file sec.header ∧
        Dynamic.fromReader (sectionBytes file sec.header) (linkedTable file orig sec) orig.header
          = .ok (.dynamic ds) ∧
        (orig.linkIndex sec.header.link = none →
          ∀ d ∈ ds, ∀ text offset, d.content = .string text offset → text = [])

/-- Whatever the links among the sections, and whatever was loaded before. -/
theorem load_preserves (file : List UInt8) (orig elf elf' : Elf) (i : Nat)
    (hread : fromReader file = .ok orig) (hreached : Reached file orig elf)
    (hload : elf.load file i = (.ok (), elf')) : AfterLoad file orig elf i elf' := by
  have hfuel := loadFuel_eq_load file elf i
  rw [hload] at hfuel
  have hloads := loadFuel_loads (hreached.stands hread) hfuel
  -- every section is the one that was read, with the content that belongs to it
  have hcontent (k : Nat) (sec' : Section) (hk : elf'.sections[k]? = some sec') :
      ∃ sec c, orig.sections[k]? = some sec ∧ sec' = { sec with content := c } ∧
        ((k = i ∨ c ≠ .unloaded) → Content file orig sec c) := by
    have hlt : k < orig.sections.length :=
      hloads.stands.length ▸ (List.getElem?_eq_some_iff.mp hk).1
    obtain ⟨sec, hsec⟩ : ∃ sec, orig.sections[k]? = some sec := ⟨_, List.getElem?_eq_getElem hlt⟩
    by_cases hki : k = i
    · subst hki
      obtain ⟨c, hget, hc⟩ := hloads.loaded (Set.notMem_empty _) sec hsec
      exact ⟨sec, c, hsec, Option.some.inj (hk.symm.trans hget), fun _ => hc⟩
    · obtain ⟨c, hget, hc⟩ := hloads.stands.kept k (Set.notMem_empty _) sec hsec
      refine ⟨sec, c, hsec, Option.some.inj (hk.symm.trans hget), fun h => ?_⟩
      exact hc.resolve_left (h.resolve_left hki)
  refine ⟨hloads.stands.length, fun k sec sec' hsec hk => ?_, hloads.frame,
    fun k sec' hk htype hc => ?_, fun k sec' hk htype hc => ?_⟩
  · obtain ⟨s, c, hs, rfl, _⟩ := hcontent k sec' hk
    obtain rfl := Option.some.inj (hsec.symm.trans hs)
    exact ⟨rfl, rfl⟩
  · obtain ⟨sec, c, hsec, rfl, hbelongs⟩ := hcontent k sec' hk
    cases hbelongs hc with
    | nobits h => exact absurd (h.symm.trans htype) (by decide)
    | strtab _ hreadable => exact ⟨hreadable, rfl⟩
    | dynamic h _ _ => exact absurd (h.symm.trans htype) (by decide)
    | other h _ => exact absurd htype h
  · obtain ⟨sec, c, hsec, rfl, hbelongs⟩ := hcontent k sec' hk
    cases hbelongs hc with
    | nobits h => exact absurd (h.symm.trans htype) (by decide)
    | strtab h _ => exact absurd (h.symm.trans htype) (by decide)
    | @dynamic ds _ hreadable hds =>
        refine ⟨ds, rfl, hreadable, hds, fun hlink => ?_⟩
        have hnone : linkedTable file orig sec = none := by
          rw [linkedTable, show orig.linkIndex sec.header.link = none from hlink]
          rfl
        rw [hnone] at hds
        exact Dynamic.fromReader_unlinked hds
    | other _ h => exact absurd htype h

theorem load_preserves_sample :
    ∃ orig elf', fromReader (Sample.image .class64 .littleEndian).file = .ok orig ∧
      orig.load (Sample.image .class64 .littleEndian).file 0 = (.ok (), elf') ∧
      AfterLoad (Sample.image .class64 .littleEndian).file orig orig 0 elf' := by
  have hall : (fromReader (Sample.image .class64 .littleEndian).file).okAnd (fun orig =>
      decide ((orig.load (Sample.image .class64 .littleEndian).file 0).1 = .ok ())) = true := by
    decide +kernel
  obtain ⟨orig, hread, hok⟩ := Outcome.okAnd_eq_true hall
  have hok := of_decide_eq_true hok
  cases hload : orig.load (Sample.image .class64 .littleEndian).file 0 with
  | mk r elf' =>
      rw [hload] at hok
      obtain rfl : r = .ok () := hok
      exact ⟨orig, elf', hread, hload,
        load_preserves (Sample.image .class64 .littleEndian).file orig orig elf' 0 hread .read hload⟩

end Elf
end Elfkit
end DracutInstall
