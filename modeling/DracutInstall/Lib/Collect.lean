/-
Loops that add to a set and end early with an error.

`Adds` says of a computation on the set collected so far when it succeeds and what it
adds, neither of them depending on the set.  The rules follow the shape of the code.
-/
import Mathlib.Data.Finset.Insert

namespace Collect

variable {α β ε : Type}

/-- `for a in as { f(a, &mut s)? }` -/
def collect (f : α → Finset β → Except ε (Finset β)) : List α → Finset β → Except ε (Finset β)
  | [], s => .ok s
  | a :: as, s =>
      match f a s with
      | .error e => .error e
      | .ok s => collect f as s

/-- The computation succeeds when `good` holds, and then adds what is `new`. -/
structure Adds (f : Finset β → Except ε (Finset β)) (good : Prop) (new : β → Prop) : Prop where
  succeeds : ∀ s, (∃ s', f s = .ok s') ↔ good
  mem : ∀ s s', f s = .ok s' → ∀ b, b ∈ s' ↔ b ∈ s ∨ new b

theorem Adds.congr {f : Finset β → Except ε (Finset β)} {good good' : Prop} {new new' : β → Prop}
    (h : Adds f good new) (hgood : good ↔ good') (hnew : ∀ b, new b ↔ new' b) :
    Adds f good' new' where
  succeeds s := (h.succeeds s).trans hgood
  mem s s' hs b := (h.mem s s' hs b).trans (or_congr_right (hnew b))

theorem Adds.ok : Adds (ε := ε) (fun s : Finset β => .ok s) True fun _ => False where
  succeeds s := iff_of_true ⟨s, rfl⟩ trivial
  mem s s' hs b := by
    cases hs
    simp

theorem Adds.error (e : ε) : Adds (fun _ : Finset β => .error e) False fun _ => False where
  succeeds s := iff_of_false (fun h => by obtain ⟨s', hs⟩ := h; cases hs) id
  mem s s' hs := by cases hs

/-- What is inserted first, and then what follows. -/
theorem Adds.insert [DecidableEq β] {f : Finset β → Except ε (Finset β)} {good : Prop}
    {new : β → Prop} (h : Adds f good new) (a : β) :
    Adds (fun s => f (insert a s)) good fun b => b = a ∨ new b where
  succeeds s := h.succeeds _
  mem s s' hs b := by
    rw [h.mem _ s' hs, Finset.mem_insert, or_assoc, or_left_comm]

/-- A loop succeeds when every round does, and adds what some round adds. -/
theorem Adds.collect {f : α → Finset β → Except ε (Finset β)} {good : α → Prop}
    {new : α → β → Prop} (h : ∀ a, Adds (f a) (good a) (new a)) (as : List α) :
    Adds (collect f as) (∀ a ∈ as, good a) fun b => ∃ a ∈ as, new a b := by
  induction as with
  | nil => exact Adds.ok.congr (by simp) (by simp)
  | cons a as ih =>
      constructor
      · intro s
        rw [List.forall_mem_cons, ← (h a).succeeds s]
        unfold Collect.collect
        cases hf : f a s with
        | error e => simp
        | ok s' =>
            have hrest := ih.succeeds s'
            simpa using hrest
      · intro s s' hs b
        unfold Collect.collect at hs
        cases hf : f a s with
        | error e =>
            rw [hf] at hs
            cases hs
        | ok s₁ =>
            rw [hf] at hs
            rw [ih.mem s₁ s' hs, (h a).mem s s₁ hf, or_assoc]
            apply or_congr_right
            simp

end Collect
