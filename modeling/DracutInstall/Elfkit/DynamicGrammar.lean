/-
Which dynamic tables `Dynamic::from_reader` accepts, and what it returns for them.

The table is read as pairs of a tag and a value, up to the first NULL or to the end.
A value that is cut off is an error even behind a NULL tag, since it is read before
the tag is looked at.
-/
import Mathlib.Data.List.Forall2
import DracutInstall.Elfkit.Decode
import DracutInstall.Elfkit.LoadFailure

namespace DracutInstall
namespace Elfkit

open ByteCodec Rust

/-! ## Pairs -/

/-- The tag of the `k`-th pair. -/
def tagAt (eh : Header) (bytes : List UInt8) (k : Nat) : UInt64 :=
  wordAt eh.identClass eh.order (bytes.drop (2 * wordSize eh.identClass * k))

def valAt (eh : Header) (bytes : List UInt8) (k : Nat) : UInt64 :=
  wordAt eh.identClass eh.order
    (bytes.drop (2 * wordSize eh.identClass * k + wordSize eh.identClass))

def IsNull (tag : UInt64) : Prop := DynamicType.fromU64 tag = some .null

instance (tag : UInt64) : Decidable (IsNull tag) :=
  inferInstanceAs (Decidable (DynamicType.fromU64 tag = some .null))

/-- The list up to the first element with `p`, and with that one. -/
def upTo {α : Type} (p : α → Bool) : List α → List α
  | [] => []
  | a :: l => if p a then [a] else a :: upTo p l

/-- The pairs that are whole, up to the first NULL. -/
def pairs (eh : Header) (bytes : List UInt8) : List (UInt64 × UInt64) :=
  upTo (fun pair => decide (IsNull pair.1))
    ((List.range (bytes.length / (2 * wordSize eh.identClass))).map fun k =>
      (tagAt eh bytes k, valAt eh bytes k))

/-- The entry for a tag and a value. -/
inductive Decodes (strtab : Option Strtab) (tag val : UInt64) : Dynamic → Prop
  | unknown (htag : DynamicType.fromU64 tag = none) :
      Decodes strtab tag val { dhtype := .unknown, content := .none }
  | null (htag : IsNull tag) : Decodes strtab tag val { dhtype := .null, content := .none }
  | string {t s} (htag : DynamicType.fromU64 tag = some t)
      (ht : t = .rpath ∨ t = .runpath ∨ t = .needed) (hs : strtab = some s) :
      Decodes strtab tag val { dhtype := t, content := .string (s.get val.toNat) (some val) }
  | noTable {t} (htag : DynamicType.fromU64 tag = some t)
      (ht : t = .rpath ∨ t = .runpath ∨ t = .needed) (hs : strtab = none) :
      Decodes strtab tag val { dhtype := t, content := .string [] none }
  | flags1 {v} (htag : DynamicType.fromU64 tag = some .flags1)
      (hv : Bitflags.fromBits dynamicFlags1Bits val.toBitVec = some v) :
      Decodes strtab tag val { dhtype := .flags1, content := .flags1 v }
  | address {t} (htag : DynamicType.fromU64 tag = some t) (hnull : t ≠ .null)
      (hstring : ¬ (t = .rpath ∨ t = .runpath ∨ t = .needed)) (hflags : t ≠ .flags1) :
      Decodes strtab tag val { dhtype := t, content := .address val }

theorem Dynamic.entry_decodes {strtab : Option Strtab} {tag val : UInt64} {d : Dynamic}
    (h : Dynamic.entry strtab tag val = .ok d) : Decodes strtab tag val d := by
  rw [Dynamic.entry] at h
  cases htag : DynamicType.fromU64 tag with
  | none =>
      rw [htag] at h
      cases h
      exact .unknown htag
  | some t =>
      rw [htag] at h
      dsimp only at h
      by_cases hnull : t = .null
      · rw [if_pos hnull] at h
        cases h
        rw [hnull] at htag
        exact .null htag
      rw [if_neg hnull] at h
      by_cases hstring : t = .rpath ∨ t = .runpath ∨ t = .needed
      · rw [if_pos hstring] at h
        cases h
        cases strtab with
        | none => exact .noTable htag hstring rfl
        | some s => exact .string htag hstring rfl
      rw [if_neg hstring] at h
      by_cases hflags : t = .flags1
      · rw [if_pos hflags] at h
        cases hv : Bitflags.fromBits dynamicFlags1Bits val.toBitVec with
        | none =>
            rw [hv] at h
            cases h
        | some v =>
            rw [hv] at h
            cases h
            rw [hflags] at htag ⊢
            exact .flags1 htag hv
      · rw [if_neg hflags] at h
        cases h
        exact .address htag hnull hstring hflags

/-- A NULL tag makes an entry of its own, whatever the value. -/
theorem Dynamic.entry_null {tag : UInt64} (h : IsNull tag) (strtab : Option Strtab) (val : UInt64) :
    Dynamic.entry strtab tag val = .ok { dhtype := .null, content := .none } := by
  rw [Dynamic.entry, h]
  exact if_pos rfl

/-! ## Pairs one by one -/

section Pairs

variable {eh : Header} {bytes : List UInt8}

theorem tagAt_zero : tagAt eh bytes 0 = wordAt eh.identClass eh.order bytes := rfl

theorem valAt_zero : valAt eh bytes 0 =
    wordAt eh.identClass eh.order (bytes.drop (wordSize eh.identClass)) := by
  rw [valAt, Nat.mul_zero, Nat.zero_add]

theorem tagAt_succ (k : Nat) :
    tagAt eh bytes (k + 1) = tagAt eh (bytes.drop (2 * wordSize eh.identClass)) k := by
  rw [tagAt, tagAt, List.drop_drop, Nat.mul_succ, Nat.add_comm]

theorem valAt_succ (k : Nat) :
    valAt eh bytes (k + 1) = valAt eh (bytes.drop (2 * wordSize eh.identClass)) k := by
  rw [valAt, valAt, List.drop_drop, Nat.mul_succ]
  congr 2
  omega

theorem pairs_short (h : bytes.length < 2 * wordSize eh.identClass) : pairs eh bytes = [] := by
  rw [pairs, Nat.div_eq_of_lt h]
  rfl

theorem pairs_cons (h : 2 * wordSize eh.identClass ≤ bytes.length) :
    pairs eh bytes = (tagAt eh bytes 0, valAt eh bytes 0) ::
      if IsNull (tagAt eh bytes 0) then []
      else pairs eh (bytes.drop (2 * wordSize eh.identClass)) := by
  have hpos := wordSize_pos eh.identClass
  have hcount : bytes.length / (2 * wordSize eh.identClass) =
      (bytes.drop (2 * wordSize eh.identClass)).length / (2 * wordSize eh.identClass) + 1 := by
    rw [List.length_drop, ← Nat.add_div_right _ (by omega), Nat.sub_add_cancel h]
  have hrest : ((fun k => (tagAt eh bytes k, valAt eh bytes k)) ∘ Nat.succ) = fun k =>
      (tagAt eh (bytes.drop (2 * wordSize eh.identClass)) k,
        valAt eh (bytes.drop (2 * wordSize eh.identClass)) k) := by
    funext k
    exact Prod.ext (tagAt_succ k) (valAt_succ k)
  rw [pairs, hcount, List.range_succ_eq_map, List.map_cons, List.map_map, hrest, upTo]
  by_cases hnull : IsNull (tagAt eh bytes 0)
  · rw [if_pos hnull, if_pos (decide_eq_true hnull)]
  · rw [if_neg hnull, if_neg (by simpa using hnull)]
    rfl

/-- One round of the loop. -/
theorem Dynamic.readEntries_succ (strtab : Option Strtab) (fuel : Nat) :
    Dynamic.readEntries eh strtab (fuel + 1) bytes =
      if bytes.length < wordSize eh.identClass then .ok []
      else if bytes.length < 2 * wordSize eh.identClass then .err eof
      else Dynamic.entry strtab (tagAt eh bytes 0) (valAt eh bytes 0) >>= fun d =>
        if d.dhtype = .null then .ok [d]
        else Dynamic.readEntries eh strtab fuel (bytes.drop (2 * wordSize eh.identClass)) >>=
          fun ds => .ok (d :: ds) := by
  rw [Dynamic.readEntries, readUclass_run]
  by_cases htag : bytes.length < wordSize eh.identClass
  · rw [if_neg (Nat.not_le_of_lt htag), if_pos htag]
  · rw [if_pos (Nat.le_of_not_lt htag), if_neg htag]
    dsimp only
    rw [readUclass_run, List.length_drop]
    by_cases hval : bytes.length < 2 * wordSize eh.identClass
    · rw [if_neg (by omega), if_pos hval]
      rfl
    · rw [if_pos (by omega), if_neg hval, Outcome.ok_bind]
      dsimp only
      rw [List.drop_drop, ← Nat.two_mul, tagAt_zero, valAt_zero]

/-! ## What is rejected -/

/-- The value of the `k`-th pair is cut off, or has FLAGS_1 bits that are not defined. -/
def BrokenPair (eh : Header) (bytes : List UInt8) (k : Nat) : Prop :=
  2 * wordSize eh.identClass * k + wordSize eh.identClass ≤ bytes.length ∧
    (bytes.length < 2 * wordSize eh.identClass * (k + 1) ∨
      (DynamicType.fromU64 (tagAt eh bytes k) = some .flags1 ∧
        Bitflags.fromBits dynamicFlags1Bits (valAt eh bytes k).toBitVec = none))

/-- A pair is broken that comes before the first NULL, or has that as its tag. -/
def Malformed (eh : Header) (bytes : List UInt8) : Prop :=
  ∃ k, (∀ j < k, ¬ IsNull (tagAt eh bytes j)) ∧ BrokenPair eh bytes k

theorem brokenPair_succ (h : 2 * wordSize eh.identClass ≤ bytes.length) (k : Nat) :
    BrokenPair eh bytes (k + 1) ↔ BrokenPair eh (bytes.drop (2 * wordSize eh.identClass)) k := by
  rw [BrokenPair, BrokenPair, tagAt_succ, valAt_succ, List.length_drop, Nat.mul_succ, Nat.mul_succ]
  refine and_congr (by omega) (or_congr ?_ Iff.rfl)
  rw [Nat.mul_succ]
  omega

theorem badEntries_iff : BadEntries eh bytes ↔ Malformed eh bytes := by
  constructor
  · intro h
    induction h with
    | truncated htag hval =>
        refine ⟨0, fun j hj => absurd hj (Nat.not_lt_zero j), ?_, .inl ?_⟩
        · rw [Nat.mul_zero, Nat.zero_add]
          exact htag
        · rw [Nat.zero_add, Nat.mul_one]
          exact hval
    | flags hval htag hbits =>
        refine ⟨0, fun j hj => absurd hj (Nat.not_lt_zero j), ?_, .inr ⟨htag, ?_⟩⟩
        · rw [Nat.mul_zero, Nat.zero_add]
          omega
        · rw [valAt_zero]
          exact hbits
    | later hval htag _ ih =>
        obtain ⟨k, hnull, hbroken⟩ := ih
        refine ⟨k + 1, fun j hj => ?_, (brokenPair_succ hval k).mpr hbroken⟩
        cases j with
        | zero => exact htag
        | succ j =>
            rw [tagAt_succ]
            exact hnull j (Nat.lt_of_succ_lt_succ hj)
  · rintro ⟨k, hnull, hbroken⟩
    induction k generalizing bytes with
    | zero =>
        obtain ⟨htag, hval⟩ := hbroken
        rw [Nat.mul_zero, Nat.zero_add] at htag
        rw [Nat.zero_add, Nat.mul_one, valAt_zero, tagAt_zero] at hval
        by_cases hshort : bytes.length < 2 * wordSize eh.identClass
        · exact .truncated htag hshort
        · obtain ⟨hflags, hbits⟩ := hval.resolve_left hshort
          exact .flags (Nat.le_of_not_lt hshort) hflags hbits
    | succ k ih =>
        have hpos := wordSize_pos eh.identClass
        have hval : 2 * wordSize eh.identClass ≤ bytes.length := by
          have hle := hbroken.1
          rw [Nat.mul_succ] at hle
          omega
        refine .later hval (hnull 0 (Nat.succ_pos k)) (ih (fun j hj => ?_)
          ((brokenPair_succ hval k).mp hbroken))
        rw [← tagAt_succ]
        exact hnull (j + 1) (Nat.succ_lt_succ hj)

theorem Dynamic.readEntries_ne_panic (strtab : Option Strtab) (fuel : Nat) :
    Dynamic.readEntries eh strtab fuel bytes ≠ .panic := by
  induction fuel generalizing bytes with
  | zero => exact fun h => by cases h
  | succ fuel ih =>
      rw [Dynamic.readEntries_succ]
      split
      · exact fun h => by cases h
      · split
        · exact fun h => by cases h
        · intro h
          rcases Outcome.bind_eq_panic.mp h with hentry | ⟨d, _, h⟩
          · rcases Dynamic.entry_cases strtab (tagAt eh bytes 0) (valAt eh bytes 0) with
              ⟨_, _, heq⟩ | ⟨_, d, heq, _⟩
            · rw [heq] at hentry
              cases hentry
            · rw [heq] at hentry
              cases hentry
          · split at h
            · cases h
            · rcases Outcome.bind_eq_panic.mp h with hrec | ⟨ds, _, h⟩
              · exact ih hrec
              · cases h

/-! ## What is returned -/

theorem Dynamic.readEntries_decodes {strtab : Option Strtab} {fuel : Nat} {ds : List Dynamic}
    (hfuel : bytes.length < fuel) (h : Dynamic.readEntries eh strtab fuel bytes = .ok ds) :
    List.Forall₂ (fun pair d => Decodes strtab pair.1 pair.2 d) (pairs eh bytes) ds := by
  induction fuel generalizing bytes ds with
  | zero => omega
  | succ fuel ih =>
      have hpos := wordSize_pos eh.identClass
      rw [Dynamic.readEntries_succ] at h
      by_cases htag : bytes.length < wordSize eh.identClass
      · rw [if_pos htag] at h
        cases h
        rw [pairs_short (by omega)]
        exact .nil
      rw [if_neg htag] at h
      by_cases hval : bytes.length < 2 * wordSize eh.identClass
      · rw [if_pos hval] at h
        cases h
      rw [if_neg hval] at h
      have hle := Nat.le_of_not_lt hval
      obtain ⟨d, hentry, h⟩ := Outcome.bind_eq_ok.mp h
      have hdecodes := Dynamic.entry_decodes hentry
      have hnull : d.dhtype = .null ↔ IsNull (tagAt eh bytes 0) := by
        rcases Dynamic.entry_cases strtab (tagAt eh bytes 0) (valAt eh bytes 0) with
          ⟨_, _, heq⟩ | ⟨_, d', heq, hiff⟩
        · rw [heq] at hentry
          cases hentry
        · rw [heq] at hentry
          obtain rfl := Outcome.ok.inj hentry
          exact hiff
      rw [pairs_cons hle]
      by_cases hend : d.dhtype = .null
      · rw [if_pos hend] at h
        cases h
        rw [if_pos (hnull.mp hend)]
        exact .cons hdecodes .nil
      · rw [if_neg hend] at h
        obtain ⟨ds', hrec, h⟩ := Outcome.bind_eq_ok.mp h
        cases h
        rw [if_neg (fun hn => hend (hnull.mpr hn))]
        exact .cons hdecodes (ih (by rw [List.length_drop]; omega) hrec)

/-! ## What follows the first NULL -/

theorem wordAt_append {c : Class} {o : ByteOrder} {bytes : List UInt8}
    (h : wordSize c ≤ bytes.length) (rest : List UInt8) :
    wordAt c o (bytes ++ rest) = wordAt c o bytes := by
  cases c with
  | class32 =>
      have h4 : 4 ≤ bytes.length := h
      rw [wordAt, wordAt, List.take_append_of_le_length h4]
  | class64 =>
      have h8 : 8 ≤ bytes.length := h
      rw [wordAt, wordAt, List.take_append_of_le_length h8]

theorem Dynamic.readEntries_behind (strtab : Option Strtab) (rest rest' : List UInt8) {k : Nat}
    {fuel fuel' : Nat} (hk : k < fuel) (hk' : k < fuel')
    (hlen : bytes.length = 2 * wordSize eh.identClass * (k + 1))
    (hnull : IsNull (tagAt eh bytes k)) :
    Dynamic.readEntries eh strtab fuel (bytes ++ rest) =
      Dynamic.readEntries eh strtab fuel' (bytes ++ rest') := by
  have hpos := wordSize_pos eh.identClass
  induction k generalizing bytes fuel fuel' with
  | zero =>
      obtain ⟨fuel, rfl⟩ : ∃ n, fuel = n + 1 := ⟨fuel - 1, by omega⟩
      obtain ⟨fuel', rfl⟩ : ∃ n, fuel' = n + 1 := ⟨fuel' - 1, by omega⟩
      rw [Nat.zero_add, Nat.mul_one] at hlen
      have hround (fuel : Nat) (rest : List UInt8) :
          Dynamic.readEntries eh strtab (fuel + 1) (bytes ++ rest) =
            .ok [{ dhtype := .null, content := .none }] := by
        have htag : IsNull (tagAt eh (bytes ++ rest) 0) := by
          rw [tagAt_zero, wordAt_append (by omega)]
          exact hnull
        rw [Dynamic.readEntries_succ, List.length_append, if_neg (by omega), if_neg (by omega),
          Dynamic.entry_null htag, Outcome.ok_bind]
        exact if_pos rfl
      rw [hround, hround]
  | succ k ih =>
      obtain ⟨fuel, rfl⟩ : ∃ n, fuel = n + 1 := ⟨fuel - 1, by omega⟩
      obtain ⟨fuel', rfl⟩ : ∃ n, fuel' = n + 1 := ⟨fuel' - 1, by omega⟩
      rw [Nat.mul_succ] at hlen
      have hfirst : 2 * wordSize eh.identClass ≤ bytes.length := by omega
      have hround (fuel : Nat) (rest : List UInt8) :
          Dynamic.readEntries eh strtab (fuel + 1) (bytes ++ rest) =
            (Dynamic.entry strtab (tagAt eh bytes 0) (valAt eh bytes 0) >>= fun d =>
              if d.dhtype = .null then .ok [d]
              else Dynamic.readEntries eh strtab fuel
                  (bytes.drop (2 * wordSize eh.identClass) ++ rest) >>= fun ds => .ok (d :: ds)) := by
        rw [Dynamic.readEntries_succ, List.length_append, if_neg (by omega), if_neg (by omega),
          List.drop_append_of_le_length hfirst, tagAt_zero, valAt_zero, tagAt_zero, valAt_zero,
          wordAt_append (by omega), List.drop_append_of_le_length (by omega),
          wordAt_append (by rw [List.length_drop]; omega)]
      have hrest : Dynamic.readEntries eh strtab fuel
            (bytes.drop (2 * wordSize eh.identClass) ++ rest) =
          Dynamic.readEntries eh strtab fuel'
            (bytes.drop (2 * wordSize eh.identClass) ++ rest') := by
        refine ih (by omega) (by omega) ?_ ?_
        · rw [List.length_drop, hlen, Nat.add_sub_cancel]
        · rw [← tagAt_succ]
          exact hnull
      rw [hround, hround, hrest]

/-! ## The whole table -/

/-- The linked section is there, and no string table. -/
def NotStrtab (linked : Option SectionContent) : Prop :=
  ∃ content, linked = some content ∧ ∀ s, content ≠ .strtab s

/-- The table the strings are taken from. -/
def linkedStrtab : Option SectionContent → Option Strtab
  | some (.strtab s) => some s
  | _ => none

theorem Dynamic.fromReader_notStrtab {linked : Option SectionContent} (h : NotStrtab linked)
    (eh : Header) (bytes : List UInt8) : ∃ e, Dynamic.fromReader bytes linked eh = .err e := by
  obtain ⟨content, rfl, hother⟩ := h
  cases content with
  | strtab s => exact absurd rfl (hother s)
  | none => exact ⟨_, rfl⟩
  | unloaded => exact ⟨_, rfl⟩
  | dynamic ds => exact ⟨_, rfl⟩

theorem Dynamic.fromReader_eq {linked : Option SectionContent} (h : ¬ NotStrtab linked)
    (eh : Header) (bytes : List UInt8) : Dynamic.fromReader bytes linked eh =
      (Dynamic.readEntries eh (linkedStrtab linked) (bytes.length + 1) bytes >>= fun ds =>
        .ok (.dynamic ds)) := by
  cases linked with
  | none => rfl
  | some content =>
      cases content with
      | strtab s => rfl
      | none => exact absurd ⟨_, rfl, fun s heq => by cases heq⟩ h
      | unloaded => exact absurd ⟨_, rfl, fun s heq => by cases heq⟩ h
      | dynamic ds => exact absurd ⟨_, rfl, fun s heq => by cases heq⟩ h

/-- `from_reader` fails on what is malformed up to the value of the first NULL, returns
an entry for each pair otherwise, and does not look behind the first NULL pair. -/
theorem Dynamic.fromReader_grammar (eh : Header) (bytes : List UInt8)
    (linked : Option SectionContent) :
    ((∃ e, Dynamic.fromReader bytes linked eh = .err e) ↔
      NotStrtab linked ∨ Malformed eh bytes) ∧
    (¬ (NotStrtab linked ∨ Malformed eh bytes) → ∃ ds,
      Dynamic.fromReader bytes linked eh = .ok (.dynamic ds) ∧
        List.Forall₂ (fun pair d => Decodes (linkedStrtab linked) pair.1 pair.2 d)
          (pairs eh bytes) ds) ∧
    (∀ k front rest, bytes = front ++ rest →
      front.length = 2 * wordSize eh.identClass * (k + 1) → IsNull (tagAt eh front k) →
      ∀ rest', Dynamic.fromReader (front ++ rest') linked eh =
        Dynamic.fromReader bytes linked eh) := by
  refine ⟨⟨?_, ?_⟩, ?_, ?_⟩
  · rintro ⟨e, herr⟩
    by_contra hgood
    obtain ⟨hlinked, hformed⟩ := not_or.mp hgood
    rw [← badEntries_iff] at hformed
    obtain ⟨ds, hds⟩ := (Dynamic.readEntries_ok_iff eh (linkedStrtab linked) (bytes.length + 1)
      bytes (Nat.lt_succ_self _)).mpr hformed
    rw [Dynamic.fromReader_eq hlinked, hds] at herr
    cases herr
  · intro hbad
    by_cases hlinked : NotStrtab linked
    · exact Dynamic.fromReader_notStrtab hlinked eh bytes
    · have hmalformed := badEntries_iff.mpr (hbad.resolve_left hlinked)
      rw [Dynamic.fromReader_eq hlinked]
      cases hread : Dynamic.readEntries eh (linkedStrtab linked) (bytes.length + 1) bytes with
      | ok ds =>
          have hok := (Dynamic.readEntries_ok_iff eh (linkedStrtab linked) (bytes.length + 1) bytes
            (Nat.lt_succ_self _)).mp ⟨ds, hread⟩
          exact absurd hmalformed hok
      | err e => exact ⟨e, rfl⟩
      | panic => exact absurd hread (Dynamic.readEntries_ne_panic _ _)
  · intro hgood
    obtain ⟨hlinked, hformed⟩ := not_or.mp hgood
    rw [← badEntries_iff] at hformed
    obtain ⟨ds, hds⟩ := (Dynamic.readEntries_ok_iff eh (linkedStrtab linked) (bytes.length + 1)
      bytes (Nat.lt_succ_self _)).mpr hformed
    refine ⟨ds, ?_, Dynamic.readEntries_decodes (Nat.lt_succ_self _) hds⟩
    rw [Dynamic.fromReader_eq hlinked, hds]
    rfl
  · rintro k front rest rfl hlen hnull rest'
    by_cases hlinked : NotStrtab linked
    · obtain ⟨content, rfl, hother⟩ := hlinked
      cases content with
      | strtab s => exact absurd rfl (hother s)
      | none => rfl
      | unloaded => rfl
      | dynamic ds => rfl
    · have hpos := wordSize_pos eh.identClass
      have hk : k < front.length := by
        rw [hlen]
        exact Nat.lt_of_lt_of_le (Nat.lt_succ_self k) (Nat.le_mul_of_pos_left _ (by omega))
      have hbehind : Dynamic.readEntries eh (linkedStrtab linked) ((front ++ rest').length + 1)
            (front ++ rest') =
          Dynamic.readEntries eh (linkedStrtab linked) ((front ++ rest).length + 1)
            (front ++ rest) := by
        refine Dynamic.readEntries_behind (linkedStrtab linked) rest' rest ?_ ?_ hlen hnull
        · rw [List.length_append]
          omega
        · rw [List.length_append]
          omega
      rw [Dynamic.fromReader_eq hlinked, Dynamic.fromReader_eq hlinked, hbehind]

/-- A NULL tag without its value is an error. -/
theorem Dynamic.fromReader_cutNull :
    ¬ ∀ (eh : Header) (bytes : List UInt8) (linked : Option SectionContent),
      (∃ e, Dynamic.fromReader bytes linked eh = .err e) ↔
        NotStrtab linked ∨ ∃ k, (∀ j ≤ k, ¬ IsNull (tagAt eh bytes j)) ∧ BrokenPair eh bytes k := by
  intro hall
  have hcut : ∃ e, Dynamic.fromReader [0, 0, 0, 0] none (Sample.header .class32 .littleEndian) =
      .err e := ⟨eof, by decide⟩
  have hnull : IsNull (tagAt (Sample.header .class32 .littleEndian) [0, 0, 0, 0] 0) := by decide
  rcases (hall (Sample.header .class32 .littleEndian) [0, 0, 0, 0] none).mp hcut with
    ⟨_, hsome, _⟩ | ⟨k, hother, _⟩
  · cases hsome
  · exact hother 0 (Nat.zero_le k) hnull

end Pairs

end Elfkit
end DracutInstall
