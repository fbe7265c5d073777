/-
A list cut at the successive leftmost occurrences of a pattern.

`Pieces pat l ps` says that `ps` is what lies between these occurrences in `l`.
The pieces joined by the pattern are the list again; joined by anything else they
are the list with each occurrence replaced.
-/
import Mathlib.Data.List.Infix

namespace Occurrences

variable {α : Type}

/-- `pieces` are what lies between the occurrences of `pat`, each the leftmost one
behind the one before. -/
inductive Pieces (pat : List α) : List α → List (List α) → Prop
  | last {l} (hnone : ¬ pat <:+: l) : Pieces pat l [l]
  | cut {pre rest ps} (hfirst : ∀ i < pre.length, ¬ pat <+: (pre ++ pat ++ rest).drop i)
      (hrest : Pieces pat rest ps) : Pieces pat (pre ++ pat ++ rest) (pre :: ps)

variable {pat l : List α} {ps : List (List α)}

theorem Pieces.ne_nil (h : Pieces pat l ps) : ps ≠ [] := by
  cases h with
  | last _ => exact List.cons_ne_nil _ _
  | cut _ _ => exact List.cons_ne_nil _ _

/-- An occurrence at the front ends the first piece, which is empty. -/
theorem Pieces.occurs {rest : List α} (h : Pieces pat (pat ++ rest) ps) :
    ∃ qs, ps = [] :: qs ∧ Pieces pat rest qs := by
  obtain ⟨l, hl⟩ : ∃ l, l = pat ++ rest := ⟨_, rfl⟩
  rw [← hl] at h
  cases h with
  | last hnone =>
      rw [hl] at hnone
      exact absurd (List.prefix_append pat rest).isInfix hnone
  | @cut pre rest' qs hfirst hrest =>
      cases pre with
      | nil =>
          rw [List.nil_append] at hl
          obtain rfl := List.append_cancel_left hl
          exact ⟨qs, rfl, hrest⟩
      | cons b pre =>
          have hfront := hfirst 0 (Nat.succ_pos _)
          rw [List.drop_zero, hl] at hfront
          exact absurd (List.prefix_append pat rest) hfront

/-- Where there is none at the front, the first element belongs to the first piece. -/
theorem Pieces.skip {b : α} (hfront : ¬ pat <+: b :: l) (h : Pieces pat (b :: l) ps) :
    ∃ p qs, ps = (b :: p) :: qs ∧ Pieces pat l (p :: qs) := by
  obtain ⟨l', hl⟩ : ∃ l', l' = b :: l := ⟨_, rfl⟩
  rw [← hl] at h
  cases h with
  | last hnone =>
      rw [hl] at hnone ⊢
      exact ⟨l, [], rfl, .last fun hin => hnone (List.infix_cons hin)⟩
  | @cut pre rest qs hfirst hrest =>
      cases pre with
      | nil =>
          rw [← hl] at hfront
          exact absurd (List.prefix_append pat rest) hfront
      | cons c pre =>
          obtain ⟨rfl, rfl⟩ := List.cons.inj hl
          refine ⟨pre, qs, rfl, .cut (fun i hi => ?_) hrest⟩
          exact hfirst (i + 1) (Nat.succ_lt_succ hi)

/-- A list shorter than the pattern is one piece. -/
theorem Pieces.short (hlt : l.length < pat.length) (h : Pieces pat l ps) : ps = [l] := by
  cases h with
  | last _ => rfl
  | cut _ _ =>
      simp only [List.length_append] at hlt
      omega

theorem Pieces.of_skip {b : α} {p : List α} {qs : List (List α)} (hfront : ¬ pat <+: b :: l)
    (h : Pieces pat l (p :: qs)) : Pieces pat (b :: l) ((b :: p) :: qs) := by
  cases h with
  | last hnone =>
      refine .last fun hin => ?_
      rcases List.infix_cons_iff.mp hin with hin | hin
      · exact hfront hin
      · exact hnone hin
  | @cut _ rest _ hfirst hrest =>
      have hcut : Pieces pat ((b :: p) ++ pat ++ rest) ((b :: p) :: qs) := by
        refine .cut (fun i hi => ?_) hrest
        cases i with
        | zero => exact hfront
        | succ i => exact hfirst i (Nat.lt_of_succ_lt_succ hi)
      exact hcut

/-- There are pieces, since each occurrence takes something away. -/
theorem exists_pieces (hpat : pat ≠ []) (l : List α) : ∃ ps, Pieces pat l ps := by
  induction hlen : l.length using Nat.strongRecOn generalizing l with
  | ind n ih =>
      by_cases hfront : pat <+: l
      · obtain ⟨rest, rfl⟩ := hfront
        have hpos := List.length_pos_iff.mpr hpat
        rw [List.length_append] at hlen
        obtain ⟨ps, hps⟩ := ih rest.length (by omega) rest rfl
        have hcut : Pieces pat ([] ++ pat ++ rest) ([] :: ps) :=
          .cut (fun i hi => absurd hi (Nat.not_lt_zero i)) hps
        exact ⟨_, hcut⟩
      · cases l with
        | nil => exact ⟨[[]], .last fun hin => hpat (List.eq_nil_of_infix_nil hin)⟩
        | cons b l =>
            rw [List.length_cons] at hlen
            obtain ⟨ps, hps⟩ := ih l.length (by omega) l rfl
            obtain ⟨p, qs, rfl⟩ := List.exists_cons_of_ne_nil hps.ne_nil
            exact ⟨_, hps.of_skip hfront⟩

/-- There is one way to cut the list. -/
theorem Pieces.unique {qs : List (List α)} (hpat : pat ≠ []) (h : Pieces pat l ps)
    (h' : Pieces pat l qs) : qs = ps := by
  induction hlen : l.length using Nat.strongRecOn generalizing l ps qs with
  | ind n ih =>
      by_cases hfront : pat <+: l
      · obtain ⟨rest, rfl⟩ := hfront
        have hpos := List.length_pos_iff.mpr hpat
        rw [List.length_append] at hlen
        obtain ⟨ps', rfl, hps⟩ := h.occurs
        obtain ⟨qs', rfl, hqs⟩ := h'.occurs
        rw [ih rest.length (by omega) hps hqs rfl]
      · cases l with
        | nil =>
            have hshort : ([] : List α).length < pat.length := List.length_pos_iff.mpr hpat
            rw [h.short hshort, h'.short hshort]
        | cons b l =>
            rw [List.length_cons] at hlen
            obtain ⟨p, ps', rfl, hps⟩ := h.skip hfront
            obtain ⟨q, qs', rfl, hqs⟩ := h'.skip hfront
            obtain ⟨rfl, rfl⟩ := List.cons.inj (ih l.length (by omega) hps hqs rfl)
            rfl

/-! ## Pieces joined -/

theorem intercalate_nil_cons (sep : List α) (h : ps ≠ []) :
    sep.intercalate ([] :: ps) = sep ++ sep.intercalate ps := by
  obtain ⟨p, qs, rfl⟩ := List.exists_cons_of_ne_nil h
  simp [List.intercalate, List.intersperse]

theorem intercalate_cons_cons (sep : List α) (b : α) (p : List α) :
    sep.intercalate ((b :: p) :: ps) = b :: sep.intercalate (p :: ps) := by
  cases ps with
  | nil => simp [List.intercalate]
  | cons q ps => simp [List.intercalate, List.intersperse]

theorem intercalate_singleton (sep p : List α) : sep.intercalate [p] = p := by
  simp [List.intercalate]

/-- The pieces joined by the pattern are the list. -/
theorem Pieces.intercalate (h : Pieces pat l ps) : pat.intercalate ps = l := by
  induction h with
  | last _ => exact intercalate_singleton _ _
  | @cut pre rest ps hfirst hrest ih =>
      obtain ⟨q, qs, rfl⟩ := List.exists_cons_of_ne_nil hrest.ne_nil
      rw [← ih]
      simp [List.intercalate, List.intersperse]

theorem Pieces.of_none (hnone : ¬ pat <:+: l) (h : Pieces pat l ps) : ps = [l] := by
  cases h with
  | last _ => rfl
  | cut _ _ => exact absurd ⟨_, _, rfl⟩ hnone

end Occurrences
