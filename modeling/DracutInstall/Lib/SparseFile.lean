/-
Files with holes, and writes at an offset.

A hole reads as zeros.  `seekData` and `seekHole` answer what `lseek` documents
for `SEEK_DATA` and `SEEK_HOLE`, with `none` for `ENXIO`: the end of the file
counts as the start of a hole, and an offset at or past the end has neither.  The
end is the one `lseek` goes by, which need not be where a read stops.
-/
import DracutInstall.Lib.Bytes

namespace SparseFile

/-- The first place from `off` on, among `n` of them, where `p` holds. -/
def firstFrom (p : Nat → Bool) : Nat → Nat → Option Nat
  | 0, _ => none
  | n + 1, off => if p off then some off else firstFrom p n (off + 1)

theorem firstFrom_eq_some {p : Nat → Bool} {n off q : Nat} (h : firstFrom p n off = some q) :
    off ≤ q ∧ q < off + n ∧ p q = true ∧ ∀ r, off ≤ r → r < q → p r = false := by
  induction n generalizing off with
  | zero => cases h
  | succ n ih =>
      rw [firstFrom] at h
      by_cases hp : p off = true
      · rw [if_pos hp] at h
        cases h
        exact ⟨Nat.le_refl _, by omega, hp, fun r h1 h2 => by omega⟩
      · rw [if_neg hp] at h
        obtain ⟨h1, h2, h3, h4⟩ := ih h
        refine ⟨by omega, by omega, h3, fun r hr hrq => ?_⟩
        by_cases hoff : r = off
        · rw [hoff]
          simpa using hp
        · exact h4 r (by omega) hrq

theorem firstFrom_eq_none {p : Nat → Bool} {n off : Nat} (h : firstFrom p n off = none) :
    ∀ r, off ≤ r → r < off + n → p r = false := by
  induction n generalizing off with
  | zero =>
      intro r h1 h2
      omega
  | succ n ih =>
      intro r h1 h2
      rw [firstFrom] at h
      by_cases hp : p off = true
      · rw [if_pos hp] at h
        cases h
      · rw [if_neg hp] at h
        by_cases hoff : r = off
        · rw [hoff]
          simpa using hp
        · exact ih h r (by omega) (by omega)

/-- The content of a file and which of its bytes are data. -/
structure File where
  content : List UInt8
  data : Nat → Bool
  hole_zero : ∀ p < content.length, data p = false → content[p]? = some 0

namespace File

/-- A file without holes. -/
def dense (content : List UInt8) : File where
  content := content
  data := fun _ => true
  hole_zero := fun _ _ h => absurd h (by decide)

variable (f : File)

def size : Nat := f.content.length

def seekData (stop off : Nat) : Option Nat := firstFrom f.data (stop - off) off

def seekHole (stop off : Nat) : Option Nat :=
  if off < stop then some ((firstFrom (fun p => !f.data p) (stop - off) off).getD stop)
  else none

/-- The file ends in a hole. -/
def HoleAtEnd : Prop := 0 < f.size ∧ f.data (f.size - 1) = false

instance : Decidable f.HoleAtEnd := inferInstanceAs (Decidable (_ ∧ _))

variable {f}

/-- What a successful search for data says: only a hole was skipped. -/
theorem seekData_eq_some {stop off q : Nat} (h : f.seekData stop off = some q) :
    off ≤ q ∧ q < stop ∧ f.data q = true ∧ ∀ r, off ≤ r → r < q → f.data r = false := by
  obtain ⟨h1, h2, h3, h4⟩ := firstFrom_eq_some h
  exact ⟨h1, by omega, h3, h4⟩

/-- The hole after a byte of data starts behind that byte, within the file. -/
theorem seekHole_of_data {stop off : Nat} (hoff : off < stop) (hdata : f.data off = true) :
    ∃ q, f.seekHole stop off = some q ∧ off < q ∧ q ≤ stop := by
  rw [seekHole, if_pos hoff]
  refine ⟨_, rfl, ?_⟩
  cases h : firstFrom (fun p => !f.data p) (stop - off) off with
  | none => exact ⟨hoff, Nat.le_refl _⟩
  | some q =>
      obtain ⟨h1, h2, h3, _⟩ := firstFrom_eq_some h
      have hne : q ≠ off := by
        intro he
        rw [he, hdata] at h3
        cases h3
      exact ⟨by simp only [Option.getD_some]; omega, by simp only [Option.getD_some]; omega⟩

/-- The byte before the hole is data. -/
theorem seekHole_last {stop off q : Nat} (hoff : off < stop) (hdata : f.data off = true)
    (h : f.seekHole stop off = some q) : f.data (q - 1) = true := by
  obtain ⟨q', hq, hlt, hle⟩ := seekHole_of_data hoff hdata
  obtain rfl : q = q' := Option.some.inj (h.symm.trans hq)
  rw [seekHole, if_pos hoff, Option.some.injEq] at h
  cases hfind : firstFrom (fun p => !f.data p) (stop - off) off with
  | none =>
      have hall := firstFrom_eq_none hfind (q - 1) (by omega) (by omega)
      simpa using hall
  | some p =>
      rw [hfind, Option.getD_some] at h
      obtain ⟨_, _, _, hall⟩ := firstFrom_eq_some hfind
      simpa using hall (q - 1) (by omega) (by omega)

theorem seekData_eq_none {stop off : Nat} :
    f.seekData stop off = none ↔ ∀ r, off ≤ r → r < stop → f.data r = false := by
  constructor
  · intro h r h1 h2
    exact firstFrom_eq_none h r h1 (by omega)
  · intro h
    cases hfind : f.seekData stop off with
    | none => rfl
    | some q =>
        obtain ⟨hle, hlt, hdata, _⟩ := seekData_eq_some hfind
        rw [h q hle hlt] at hdata
        cases hdata

theorem seekData_of_data {stop off : Nat} (hoff : off < stop) (hdata : f.data off = true) :
    f.seekData stop off = some off := by
  obtain ⟨n, hn⟩ : ∃ n, stop - off = n + 1 := ⟨stop - off - 1, by omega⟩
  rw [seekData, hn, firstFrom, if_pos hdata]

/-- Where all is data the next hole is the end. -/
theorem seekHole_of_dense {stop off : Nat} (hoff : off < stop) (hdense : ∀ p, f.data p = true) :
    f.seekHole stop off = some stop := by
  rw [seekHole, if_pos hoff]
  cases hfind : firstFrom (fun p => !f.data p) (stop - off) off with
  | none => rfl
  | some q =>
      obtain ⟨_, _, hhole, _⟩ := firstFrom_eq_some hfind
      simp [hdense q] at hhole

/-- A file with data has a first extent. -/
theorem exists_extent {stop : Nat} (h : ∃ p < stop, f.data p = true) :
    ∃ beg fin, f.seekData stop 0 = some beg ∧ f.seekHole stop beg = some fin := by
  obtain ⟨p, hp, hdata⟩ := h
  cases hbeg : f.seekData stop 0 with
  | none =>
      rw [seekData_eq_none.mp hbeg p (Nat.zero_le p) hp] at hdata
      cases hdata
  | some beg =>
      obtain ⟨_, hlt, hbyte, _⟩ := seekData_eq_some hbeg
      obtain ⟨fin, hfin, _⟩ := seekHole_of_data hlt hbyte
      exact ⟨beg, fin, rfl, hfin⟩

end File

/-! ## Writes at an offset -/

/-- The bytes `[off, off + n)` of a file, as far as there are any. -/
def slice (content : List UInt8) (off n : Nat) : List UInt8 := (content.drop off).take n

/-- `pwrite`: a gap before the offset is filled with zeros. -/
def writeAt (dst : List UInt8) (off : Nat) (chunk : List UInt8) : List UInt8 :=
  dst.take off ++ (List.replicate (off - dst.length) 0 ++ (chunk ++ dst.drop (off + chunk.length)))

theorem slice_length {content : List UInt8} {off n : Nat} (h : off + n ≤ content.length) :
    (slice content off n).length = n := by
  rw [slice, List.length_take, List.length_drop]
  omega

theorem writeAt_length {dst chunk : List UInt8} {off : Nat} (h : off ≤ dst.length) :
    (writeAt dst off chunk).length = max dst.length (off + chunk.length) := by
  simp only [writeAt, List.length_append, List.length_take, List.length_replicate,
    List.length_drop]
  omega

/-- A write inside the file, or at its end, changes the bytes it covers. -/
theorem writeAt_getElem? {dst chunk : List UInt8} {off : Nat} (h : off ≤ dst.length) (p : Nat) :
    (writeAt dst off chunk)[p]? =
      if off ≤ p ∧ p < off + chunk.length then chunk[p - off]? else dst[p]? := by
  have hgap : off - dst.length = 0 := by omega
  have hlen : (dst.take off).length = off := by
    rw [List.length_take]
    omega
  rw [writeAt, hgap, List.replicate_zero, List.nil_append]
  by_cases hlt : p < off
  · rw [List.getElem?_append_left (by omega), if_neg (by omega), List.getElem?_take, if_pos hlt]
  · rw [List.getElem?_append_right (by omega), hlen]
    by_cases hin : p < off + chunk.length
    · rw [List.getElem?_append_left (by omega), if_pos ⟨by omega, hin⟩]
    · rw [List.getElem?_append_right (by omega), if_neg (by omega), List.getElem?_drop]
      congr 1
      omega

/-- Writing a slice of the source to its own place makes those bytes agree and
leaves the others. -/
theorem writeAt_slice_getElem? {s dst : List UInt8} {off n : Nat} (hsrc : off + n ≤ s.length)
    (hdst : off ≤ dst.length) (p : Nat) :
    (writeAt dst off (slice s off n))[p]? =
      if off ≤ p ∧ p < off + n then s[p]? else dst[p]? := by
  rw [writeAt_getElem? hdst, slice_length hsrc]
  by_cases hp : off ≤ p ∧ p < off + n
  · rw [if_pos hp, if_pos hp, slice, List.getElem?_take, if_pos (by omega), List.getElem?_drop]
    congr 1
    omega
  · rw [if_neg hp, if_neg hp]

/-- Two writes, the second where the first has ended, are one. -/
theorem writeAt_append (dst a b : List UInt8) (off : Nat) :
    writeAt (writeAt dst off a) (off + a.length) b = writeAt dst off (a ++ b) := by
  have hpad : (dst.take off ++ List.replicate (off - dst.length) (0 : UInt8)).length = off := by
    rw [List.length_append, List.length_take, List.length_replicate]
    omega
  have hfirst : writeAt dst off a =
      (dst.take off ++ List.replicate (off - dst.length) 0 ++ a) ++ dst.drop (off + a.length) := by
    rw [writeAt, List.append_assoc, List.append_assoc]
  have hlen : (dst.take off ++ List.replicate (off - dst.length) (0 : UInt8) ++ a).length =
      off + a.length := by
    rw [List.length_append, hpad]
  have hgap : off + a.length - (writeAt dst off a).length = 0 := by
    rw [hfirst, List.length_append, hlen]
    omega
  rw [writeAt, hgap, hfirst, List.take_left' hlen, List.replicate_zero, List.nil_append,
    List.drop_append, hlen, List.drop_eq_nil_of_le (by omega), List.nil_append, List.drop_drop,
    writeAt, List.append_assoc, List.append_assoc, List.append_assoc, List.length_append]
  congr 5
  omega

theorem writeAt_nil {dst : List UInt8} {off : Nat} (h : off ≤ dst.length) :
    writeAt dst off [] = dst := by
  have hgap : off - dst.length = 0 := by omega
  rw [writeAt, hgap, List.replicate_zero, List.nil_append, List.nil_append, List.length_nil,
    Nat.add_zero, List.take_append_drop]

/-- A write from the start that is long enough replaces the file. -/
theorem writeAt_whole {dst chunk : List UInt8} (h : dst.length ≤ chunk.length) :
    writeAt dst 0 chunk = chunk := by
  rw [writeAt, Nat.zero_sub, List.take_zero, List.replicate_zero, List.nil_append, List.nil_append,
    Nat.zero_add, List.drop_eq_nil_of_le h, List.append_nil]

/-- The rest of a file, written over its first bytes, gives the file back only where
all but the bytes `[length - pos, pos)` are zero. -/
theorem writeAt_rest_eq_iff {s : List UInt8} {pos : Nat} (hpos : 0 < pos) (hle : pos ≤ s.length) :
    writeAt (writeAt (List.replicate s.length 0) 0 (s.take pos)) 0 (s.drop pos) = s ↔
      ∀ i < s.length, i + pos < s.length ∨ pos ≤ i → s[i]? = some 0 := by
  have htake : (s.take pos).length = pos := List.length_take_of_le hle
  have hdrop : (s.drop pos).length = s.length - pos := List.length_drop
  have hfirst := @writeAt_length (List.replicate s.length 0) (s.take pos) 0 (Nat.zero_le _)
  have hlen := @writeAt_length (writeAt (List.replicate s.length 0) 0 (s.take pos)) (s.drop pos) 0
    (Nat.zero_le _)
  rw [hfirst, List.length_replicate, htake, hdrop] at hlen
  have hget (i : Nat) (hi : i < s.length) :
      (writeAt (writeAt (List.replicate s.length 0) 0 (s.take pos)) 0 (s.drop pos))[i]? =
        if i + pos < s.length then s[i + pos]? else if i < pos then s[i]? else some 0 := by
    rw [writeAt_getElem? (Nat.zero_le _), writeAt_getElem? (Nat.zero_le _), hdrop, htake,
      Nat.sub_zero]
    by_cases hrest : i + pos < s.length
    · rw [if_pos ⟨Nat.zero_le i, by omega⟩, if_pos hrest, List.getElem?_drop, Nat.add_comm]
    · rw [if_neg (by omega), if_neg hrest]
      by_cases hi' : i < pos
      · rw [if_pos ⟨Nat.zero_le i, by omega⟩, if_pos hi', List.getElem?_take, if_pos hi']
      · rw [if_neg (by omega), if_neg hi', List.getElem?_replicate, if_pos hi]
  constructor
  · intro heq
    -- a byte is the byte `pos` further on, and the last ones were never written
    have hzero : ∀ n i, s.length - i ≤ n → i < s.length → i + pos < s.length ∨ pos ≤ i →
        s[i]? = some 0 := by
      intro n
      induction n with
      | zero => exact fun i hn hi => by omega
      | succ n ih =>
          intro i hn hi hout
          have hi' := hget i hi
          rw [heq] at hi'
          by_cases hrest : i + pos < s.length
          · rw [hi', if_pos hrest]
            exact ih (i + pos) (by omega) hrest (.inr (Nat.le_add_left pos i))
          · rw [hi', if_neg hrest, if_neg (by omega)]
    exact fun i hi => hzero _ i (Nat.le_refl _) hi
  · intro hzero
    apply List.ext_getElem?
    intro i
    by_cases hi : i < s.length
    · rw [hget i hi]
      by_cases hrest : i + pos < s.length
      · rw [if_pos hrest, hzero i hi (.inl hrest), hzero (i + pos) hrest
          (.inr (Nat.le_add_left pos i))]
      · rw [if_neg hrest]
        by_cases hi' : i < pos
        · rw [if_pos hi']
        · rw [if_neg hi', hzero i hi (.inr (by omega))]
    · rw [List.getElem?_eq_none (by omega), List.getElem?_eq_none (by omega)]

/-! ## Bytes in their places -/

/-- Each byte is zero, or the byte of the source at its place. -/
def Placed (s dst : List UInt8) : Prop :=
  ∀ (p : Nat) (b : UInt8), dst[p]? = some b → b = 0 ∨ s[p]? = some b

theorem Placed.zeros (s : List UInt8) (n : Nat) : Placed s (List.replicate n 0) := by
  intro p b hb
  rw [List.getElem?_replicate] at hb
  split at hb
  · exact .inl (Option.some.inj hb).symm
  · cases hb

/-- A part of the source is written to its own place, wherever that is. -/
theorem Placed.write {s dst : List UInt8} (h : Placed s dst) (off n : Nat) :
    Placed s (writeAt dst off (slice s off n)) := by
  intro p b hb
  have hpad : (dst.take off ++ List.replicate (off - dst.length) (0 : UInt8)).length = off := by
    rw [List.length_append, List.length_take, List.length_replicate]
    omega
  rw [writeAt, ← List.append_assoc, List.getElem?_append, hpad] at hb
  by_cases hbefore : p < off
  · rw [if_pos hbefore, List.getElem?_append] at hb
    split at hb
    · rw [List.getElem?_take, if_pos hbefore] at hb
      exact h p b hb
    · exact .inl (List.eq_of_mem_replicate (List.mem_of_getElem? hb))
  · rw [if_neg hbefore, List.getElem?_append] at hb
    split at hb
    · rename_i hin
      rw [slice, List.length_take] at hin
      rw [slice, List.getElem?_take, if_pos (by omega), List.getElem?_drop] at hb
      have hp : off + (p - off) = p := by omega
      rw [hp] at hb
      exact .inr hb
    · rename_i hbehind
      rw [List.getElem?_drop] at hb
      have hp : off + (slice s off n).length + (p - off - (slice s off n).length) = p := by omega
      rw [hp] at hb
      exact h p b hb

end SparseFile
