/-
`Elf::load` on any reader.

The reads of one call may fail in any way.  `loadFrom` is `load` with their answers
as a parameter; on a file it is the `load` of the other modules.  It ends at a depth
that the links bound, and a call that fails leaves a placeholder for its section.
-/
import DracutInstall.Elfkit.Decode
import DracutInstall.Elfkit.LoadFailure

namespace DracutInstall
namespace Elfkit

open ByteCodec Rust

/-- What `seek`, the buffer and `read_exact` come back with for the section at an
index.  No section is read twice in the course of one call. -/
abbrev Source := Nat → SectionHeader → Outcome Error (List UInt8)

def fileSource (file : List UInt8) : Source := fun _ sh => readAt file sh.offset sh.size.toNat

/-- `Section::from_reader` -/
def Section.fromSource (sec : Section) (bytes : Outcome Error (List UInt8))
    (linked : Option Section) (eh : Header) : Outcome Error Section :=
  if sec.content ≠ .unloaded then .ok sec
  else if sec.header.shtype = SectionType.nobits then .ok { sec with content := .none }
  else do
    let bb ← bytes
    let linked := linked.map fun s => s.content
    let content ←
      if sec.header.shtype = SectionType.strtab then Strtab.fromReader bb linked eh
      else if sec.header.shtype = SectionType.dynamic then Dynamic.fromReader bb linked eh
      else .ok .unloaded
    .ok { sec with content := content }

theorem Section.fromReader_eq (sec : Section) (file : List UInt8) (linked : Option Section)
    (eh : Header) : sec.fromReader file linked eh =
      sec.fromSource (readAt file sec.header.offset sec.header.size.toNat) linked eh := rfl

/-- A section that has its content is left as it is. -/
theorem Section.fromSource_loaded {sec : Section} (h : sec.content ≠ .unloaded)
    (bytes : Outcome Error (List UInt8)) (linked : Option Section) (eh : Header) :
    sec.fromSource bytes linked eh = .ok sec := if_pos h

namespace Elf

/-- `sec.from_reader(..)?` and `self.sections[i] = sec`. -/
def putBack (source : Source) (i : Nat) (sec : Section) (linked : Option Section) (elf : Elf) :
    Outcome Error Unit × Elf :=
  match sec.fromSource (source i sec.header) linked elf.header with
  | .ok sec => (.ok (), elf.setSection i sec)
  | .err e => (.err e, elf)
  | .panic => (.panic, elf)

/-- `Elf::load` with the recursion depth bounded by `fuel`. -/
def loadFrom (source : Source) : Nat → Elf → Nat → Option (Outcome Error Unit × Elf)
  | 0, _, _ => none
  | fuel + 1, elf, i =>
      match elf.sections[i]? with
      | none => some (.panic, elf)
      | some sec =>
          let elf := elf.takeOut i
          match elf.linkIndex sec.header.link with
          | none => some (putBack source i sec none elf)
          | some link =>
              match loadFrom source fuel elf link with
              | none => none
              | some (.ok (), elf) => some (putBack source i sec elf.sections[link]? elf)
              | some (r, elf) => some (r, elf)

theorem loadFuel_eq_loadFrom (file : List UInt8) (fuel : Nat) (elf : Elf) (i : Nat) :
    loadFuel file fuel elf i = loadFrom (fileSource file) fuel elf i := by
  induction fuel generalizing elf i with
  | zero => rfl
  | succ fuel ih =>
      rw [loadFuel, loadFrom]
      cases elf.sections[i]? with
      | none => rfl
      | some sec =>
          dsimp only
          rw [takeOut]
          cases (elf.setSection i Section.default).linkIndex sec.header.link with
          | none => rfl
          | some link =>
              dsimp only
              rw [ih]
              cases loadFrom (fileSource file) fuel (elf.setSection i Section.default) link with
              | none => rfl
              | some out =>
                  obtain ⟨r, elf'⟩ := out
                  cases r with
                  | ok u => rfl
                  | err e => rfl
                  | panic => rfl

variable {source : Source} {fuel : Nat} {elf elf' : Elf} {i : Nat} {r : Outcome Error Unit}

/-! ## Rounds of the recursion -/

theorem takeOut_sections (elf : Elf) (i : Nat) :
    (elf.takeOut i).sections = elf.sections.set i Section.default := rfl

/-- How a call comes back: from the call on the link, or behind it. -/
inductive LoadReturns (source : Source) (fuel : Nat) (elf : Elf) (i : Nat) (sec : Section)
    (r : Outcome Error Unit) (elf' : Elf) : Prop
  | alone (hlink : (elf.takeOut i).linkIndex sec.header.link = none)
      (hback : putBack source i sec none (elf.takeOut i) = (r, elf'))
  | withLink {link elf₁} (hlink : (elf.takeOut i).linkIndex sec.header.link = some link)
      (hrec : loadFrom source fuel (elf.takeOut i) link = some (.ok (), elf₁))
      (hback : putBack source i sec elf₁.sections[link]? elf₁ = (r, elf'))
  | linkFails {link} (hlink : (elf.takeOut i).linkIndex sec.header.link = some link)
      (hrec : loadFrom source fuel (elf.takeOut i) link = some (r, elf')) (hr : r ≠ .ok ())

theorem loadFrom_returns {sec : Section} (hsec : elf.sections[i]? = some sec)
    (h : loadFrom source (fuel + 1) elf i = some (r, elf')) :
    LoadReturns source fuel elf i sec r elf' := by
  rw [loadFrom, hsec] at h
  dsimp only at h
  cases hlink : (elf.takeOut i).linkIndex sec.header.link with
  | none =>
      rw [hlink] at h
      exact .alone hlink (Option.some.inj h)
  | some link =>
      simp only [hlink] at h
      cases hrec : loadFrom source fuel (elf.takeOut i) link with
      | none =>
          rw [hrec] at h
          cases h
      | some out =>
          obtain ⟨r', elf₁⟩ := out
          rw [hrec] at h
          cases r' with
          | ok u => exact .withLink hlink hrec (Option.some.inj h)
          | err e =>
              cases h
              exact .linkFails hlink hrec fun heq => by cases heq
          | panic =>
              cases h
              exact .linkFails hlink hrec fun heq => by cases heq

theorem loadFrom_index {sec : Section} (hsec : elf.sections[i]? = some sec)
    (hlink : (elf.takeOut i).linkIndex sec.header.link ≠ none) :
    (elf.takeOut i).linkedCount + 1 = elf.linkedCount := by
  obtain ⟨link, hlink⟩ := Option.ne_none_iff_exists'.mp hlink
  obtain ⟨hin, _⟩ := linkIndex_eq_some hlink
  rw [takeOut_sections, List.length_set] at hin
  rw [linkedCount, takeOut_sections, List.length_set]
  exact countP_set_lt hsec (decide_eq_true hin) (linksInto_default _)

/-! ## The depth -/

theorem loadFrom_isSome (source : Source) (fuel : Nat) (elf : Elf) (i : Nat)
    (h : elf.linkedCount < fuel) : (loadFrom source fuel elf i).isSome = true := by
  induction fuel generalizing elf i with
  | zero => omega
  | succ fuel ih =>
      rw [loadFrom]
      cases hsec : elf.sections[i]? with
      | none => rfl
      | some sec =>
          dsimp only
          cases hlink : (elf.takeOut i).linkIndex sec.header.link with
          | none => rfl
          | some link =>
              have hcount := loadFrom_index hsec (by rw [hlink]; exact Option.some_ne_none _)
              obtain ⟨out, hrec⟩ := Option.isSome_iff_exists.mp
                (ih (elf.takeOut i) link (by omega))
              obtain ⟨r, elf'⟩ := out
              dsimp only
              rw [hrec]
              cases r with
              | ok u => rfl
              | err e => rfl
              | panic => rfl

/-- A higher bound changes nothing once a call comes back. -/
theorem loadFrom_mono {out : Outcome Error Unit × Elf} {m : Nat} (hle : fuel ≤ m)
    (h : loadFrom source fuel elf i = some out) : loadFrom source m elf i = some out := by
  induction fuel generalizing elf i out m with
  | zero => cases h
  | succ fuel ih =>
      obtain ⟨m, rfl⟩ : ∃ n, m = n + 1 := ⟨m - 1, by omega⟩
      rw [loadFrom] at h ⊢
      cases hsec : elf.sections[i]? with
      | none =>
          rw [hsec] at h
          exact h
      | some sec =>
          rw [hsec] at h
          dsimp only at h ⊢
          cases hlink : (elf.takeOut i).linkIndex sec.header.link with
          | none =>
              rw [hlink] at h
              exact h
          | some link =>
              simp only [hlink] at h ⊢
              cases hrec : loadFrom source fuel (elf.takeOut i) link with
              | none =>
                  rw [hrec] at h
                  cases h
              | some out' =>
                  rw [hrec] at h
                  rw [ih (Nat.le_of_succ_le_succ hle) hrec]
                  exact h

/-- A call comes back, nested no deeper than one more than the number of sections
whose link is not zero and in range. -/
theorem loadFrom_terminates (source : Source) (elf : Elf) (i : Nat) :
    ∃ r elf', ∀ fuel, elf.linkedCount + 1 ≤ fuel →
      loadFrom source fuel elf i = some (r, elf') := by
  have hsome := loadFrom_isSome source (elf.linkedCount + 1) elf i (Nat.lt_succ_self _)
  obtain ⟨⟨r, elf'⟩, h⟩ := Option.isSome_iff_exists.mp hsome
  exact ⟨r, elf', fun fuel hle => loadFrom_mono hle h⟩

/-! ## What a failed call leaves behind -/

/-- Every section has its header and its name, and its content if that was loaded. -/
def Kept (elf elf' : Elf) : Prop :=
  ∀ (k : Nat) (sec : Section), elf.sections[k]? = some sec →
    ∃ sec' : Section, elf'.sections[k]? = some sec' ∧ sec'.header = sec.header ∧ sec'.name = sec.name ∧
      (sec.content ≠ .unloaded → sec'.content = sec.content)

theorem putBack_err {sec : Section} {linked : Option Section} {e : Error}
    (h : putBack source i sec linked elf = (.err e, elf')) :
    elf' = elf ∧ sec.content = .unloaded := by
  by_cases hcontent : sec.content = .unloaded
  · rw [putBack] at h
    split at h
    · cases h
    · exact ⟨(Prod.mk.inj h).2.symm, hcontent⟩
    · cases h
  · rw [putBack, Section.fromSource_loaded hcontent] at h
    cases h

theorem putBack_other {sec : Section} {linked : Option Section} {k : Nat} (hne : k ≠ i)
    (h : putBack source i sec linked elf = (r, elf')) : elf'.sections[k]? = elf.sections[k]? := by
  rw [putBack] at h
  split at h
  · rw [← (Prod.mk.inj h).2]
    exact List.getElem?_set_ne hne.symm
  · rw [(Prod.mk.inj h).2]
  · rw [(Prod.mk.inj h).2]

theorem putBack_default (source : Source) (i : Nat) (linked : Option Section) (elf : Elf) :
    putBack source i Section.default linked elf = (.ok (), elf.takeOut i) := by
  have hloaded : Section.default.content ≠ .unloaded := fun h => by cases h
  rw [putBack, Section.fromSource_loaded hloaded]
  rfl

theorem takeOut_self (hi : i < elf.sections.length) :
    (elf.takeOut i).sections[i]? = some Section.default := List.getElem?_set_self hi

/-- A placeholder has no link, so that it is put back as it was. -/
theorem linkIndex_default (elf : Elf) : elf.linkIndex Section.default.header.link = none := by
  have hzero : Section.default.header.link < 1 := by decide
  rw [linkIndex, if_pos (.inl hzero)]

/-- A placeholder stays one, whatever is loaded. -/
theorem loadFrom_placeholder {k : Nat} (hk : elf.sections[k]? = some Section.default)
    (h : loadFrom source fuel elf i = some (r, elf')) :
    elf'.sections[k]? = some Section.default := by
  induction fuel generalizing elf elf' i r with
  | zero => cases h
  | succ fuel ih =>
      cases hsec : elf.sections[i]? with
      | none =>
          rw [loadFrom, hsec] at h
          cases h
          exact hk
      | some sec =>
          have hlt : i < elf.sections.length := (List.getElem?_eq_some_iff.mp hsec).1
          have hout : (elf.takeOut i).sections[k]? = some Section.default := by
            by_cases hne : k = i
            · rw [hne]
              exact takeOut_self hlt
            · exact (List.getElem?_set_ne (Ne.symm hne)).trans hk
          have hstays {linked : Option Section} {elf₁ : Elf}
              (h₁ : elf₁.sections[k]? = some Section.default)
              (hback : putBack source i sec linked elf₁ = (r, elf')) :
              elf'.sections[k]? = some Section.default := by
            by_cases hne : k = i
            · subst hne
              obtain rfl := Option.some.inj (hsec.symm.trans hk)
              rw [putBack_default] at hback
              rw [← (Prod.mk.inj hback).2]
              exact takeOut_self (List.getElem?_eq_some_iff.mp h₁).1
            · rw [putBack_other hne hback]
              exact h₁
          cases loadFrom_returns hsec h with
          | alone _ hback => exact hstays hout hback
          | withLink _ hrec hback => exact hstays (ih hout hrec) hback
          | linkFails _ hrec _ => exact ih hout hrec

/-- A call that fails has not put its section back. -/
theorem loadFrom_err {e : Error} {sec : Section} (hsec : elf.sections[i]? = some sec)
    (h : loadFrom source (fuel + 1) elf i = some (.err e, elf')) :
    elf'.sections[i]? = some Section.default ∧
      ((elf.takeOut i).linkIndex sec.header.link = none →
        elf' = elf.takeOut i ∧ sec.content = .unloaded) := by
  have hlt : i < elf.sections.length := (List.getElem?_eq_some_iff.mp hsec).1
  have hout : (elf.takeOut i).sections[i]? = some Section.default := takeOut_self hlt
  cases loadFrom_returns hsec h with
  | alone hlink hback =>
      obtain ⟨rfl, hcontent⟩ := putBack_err hback
      exact ⟨hout, fun _ => ⟨rfl, hcontent⟩⟩
  | withLink hlink hrec hback =>
      obtain ⟨rfl, _⟩ := putBack_err hback
      exact ⟨loadFrom_placeholder hout hrec, fun hnone => by rw [hlink] at hnone; cases hnone⟩
  | linkFails hlink hrec _ =>
      exact ⟨loadFrom_placeholder hout hrec, fun hnone => by rw [hlink] at hnone; cases hnone⟩

/-- A call that fails loses no section if and only if its section could not be told
from the placeholder that it leaves. -/
theorem loadFrom_err_kept {e : Error} (h : loadFrom source fuel elf i = some (.err e, elf')) :
    Kept elf elf' ↔ ∃ sec, elf.sections[i]? = some sec ∧
      sec.header = SectionHeader.default ∧ sec.name = [] := by
  cases fuel with
  | zero => cases h
  | succ fuel =>
      cases hsec : elf.sections[i]? with
      | none =>
          rw [loadFrom, hsec] at h
          cases h
      | some sec =>
          obtain ⟨hlost, halone⟩ := loadFrom_err hsec h
          constructor
          · intro hkept
            obtain ⟨sec', hsec', hheader, hname, _⟩ := hkept i sec hsec
            obtain rfl := Option.some.inj (hlost.symm.trans hsec')
            exact ⟨sec, rfl, hheader.symm, hname.symm⟩
          · rintro ⟨sec', hsec', hheader, hname⟩
            obtain rfl := Option.some.inj hsec'
            have hlink : (elf.takeOut i).linkIndex sec.header.link = none := by
              rw [hheader]
              exact linkIndex_default _
            obtain ⟨rfl, hcontent⟩ := halone hlink
            intro k s hs
            by_cases hne : k = i
            · subst hne
              obtain rfl := Option.some.inj (hsec.symm.trans hs)
              exact ⟨_, hlost, hheader.symm, hname.symm, fun hloaded => absurd hcontent hloaded⟩
            · exact ⟨s, (List.getElem?_set_ne (Ne.symm hne)).trans hs, rfl, rfl, fun _ => rfl⟩

namespace Sample

/-- A dynamic table that is linked to a section of another type. -/
def misLinked : Elf :=
  { header := Elfkit.Sample.header .class64 .littleEndian
    segments := []
    sections := [
      { header := { SectionHeader.default with shtype := SectionType.dynamic, size := 16, link := 1 }
        name := ascii ".dynamic", content := .unloaded, addrlock := true },
      { header := { SectionHeader.default with shtype := 1 }
        name := ascii ".text", content := .unloaded, addrlock := true }] }

theorem misLinked_fails :
    loadFrom (fileSource (List.replicate 16 0)) 2 misLinked 0 =
      some (.err (.linkedSectionIsNotStrtab "reading dynamic" (some .unloaded)),
        misLinked.takeOut 0) := by
  decide +kernel

theorem misLinked_kept_iff :
    Kept misLinked (misLinked.takeOut 0) ↔ ∃ sec, misLinked.sections[0]? = some sec ∧
      sec.header = SectionHeader.default ∧ sec.name = [] := loadFrom_err_kept misLinked_fails

theorem misLinked_lost :
    ¬ ∀ (source : Source) (fuel : Nat) (elf elf' : Elf) (i : Nat) (e : Error),
      loadFrom source fuel elf i = some (.err e, elf') → Kept elf elf' := by
  intro h
  obtain ⟨sec, hsec⟩ : ∃ sec, misLinked.sections[0]? = some sec := ⟨_, rfl⟩
  obtain ⟨sec', hsec', _, hname, _⟩ := h _ _ _ _ _ _ misLinked_fails 0 sec hsec
  have hold : (misLinked.sections[0]?.map Section.name) = some (ascii ".dynamic") := by decide
  have hnew : ((misLinked.takeOut 0).sections[0]?.map Section.name) = some [] := by decide
  rw [hsec] at hold
  rw [hsec'] at hnew
  have heq := (Option.some.inj hnew).symm.trans (hname.trans (Option.some.inj hold))
  exact absurd heq (by decide)

end Sample

end Elf
end Elfkit
end DracutInstall
