/-
Readers and the byte strings they take.

`Reads` says that a reader takes a byte string, `Accepts` which ones it takes: those
that encode a value, and then it returns that value.  A table of records takes the
encodings of the records behind one another.
-/
import Mathlib.Data.List.Forall2
import DracutInstall.Lib.Bytes

namespace ByteCodec

open Rust

variable {ε α β : Type}

/-- The byte strings the reader takes are those that encode what it returns. -/
structure Accepts (r : Reader ε α) (enc : List UInt8 → α → Prop) : Prop where
  reads : ∀ chunk a, enc chunk a → Reads r chunk a
  taken : ∀ bs a rest, r.run bs = .ok (a, rest) → ∃ chunk, enc chunk a ∧ bs = chunk ++ rest

theorem Accepts.run_iff {r : Reader ε α} {enc : List UInt8 → α → Prop} (h : Accepts r enc)
    {bs rest : List UInt8} {a : α} :
    r.run bs = .ok (a, rest) ↔ ∃ chunk, enc chunk a ∧ bs = chunk ++ rest := by
  constructor
  · exact h.taken bs a rest
  · rintro ⟨chunk, henc, rfl⟩
    exact h.reads chunk a henc rest

/-- The encodings of the values, one behind the other. -/
def Encodings (enc : List UInt8 → α → Prop) (bytes : List UInt8) (as : List α) : Prop :=
  ∃ chunks, bytes = chunks.flatten ∧ List.Forall₂ enc chunks as

theorem Encodings.cons {enc : List UInt8 → α → Prop} {chunk bytes : List UInt8} {a : α}
    {as : List α} (ha : enc chunk a) (has : Encodings enc bytes as) :
    Encodings enc (chunk ++ bytes) (a :: as) := by
  obtain ⟨chunks, rfl, hall⟩ := has
  exact ⟨chunk :: chunks, rfl, .cons ha hall⟩

theorem Accepts.many {r : Reader ε α} {enc : List UInt8 → α → Prop} (h : Accepts r enc)
    (n : Nat) :
    Accepts (readMany r n) fun bytes as => as.length = n ∧ Encodings enc bytes as := by
  constructor
  · rintro bytes as ⟨rfl, chunks, rfl, hall⟩
    induction hall with
    | nil => exact Reads.pure []
    | @cons chunk a chunks as ha _ ih =>
        rw [List.length_cons, List.flatten_cons]
        exact (h.reads chunk a ha).bind (ih.map fun xs => a :: xs)
  · induction n with
    | zero =>
        intro bs as rest hrun
        obtain ⟨rfl, rfl⟩ := run_pure_eq_ok hrun
        exact ⟨[], ⟨rfl, [], rfl, .nil⟩, rfl⟩
    | succ n ih =>
        intro bs as rest hrun
        obtain ⟨a, mid, hr, hrest⟩ := run_bind_eq_ok.mp hrun
        obtain ⟨as', mid', hmany, hlast⟩ := run_bind_eq_ok.mp hrest
        obtain ⟨rfl, rfl⟩ := run_pure_eq_ok hlast
        obtain ⟨chunk, ha, rfl⟩ := h.taken bs a mid hr
        obtain ⟨bytes, ⟨hlen, has⟩, rfl⟩ := ih _ as' _ hmany
        refine ⟨chunk ++ bytes, ⟨congrArg Nat.succ hlen, .cons ha has⟩, ?_⟩
        rw [List.append_assoc]

/-- Where each value has one encoding, so has the list. -/
theorem encodings_map {enc : List UInt8 → α → Prop} {encode : α → List UInt8} {as : List α}
    {bytes : List UInt8} (h : ∀ chunk a, enc chunk a → chunk = encode a)
    (has : Encodings enc bytes as) : bytes = as.flatMap encode := by
  obtain ⟨chunks, rfl, hall⟩ := has
  induction hall with
  | nil => rfl
  | cons ha _ ih => rw [List.flatten_cons, List.flatMap_cons, ih, h _ _ ha]

end ByteCodec
