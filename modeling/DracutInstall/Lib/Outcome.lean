/-
What a call of a Rust function can come back with.

A `Result`-returning function ends in a value or in an error, and any function
can also unwind.  `Outcome` keeps the three apart, so that "returns `Err`" and
"panics" are different statements about a run.
-/

namespace Rust

/-- The error numbers a program may tell apart; any other by its number. -/
inductive Errno where
  | eperm
  | enoent
  | eintr
  | enxio
  | eacces
  | eexist
  | exdev
  | enotdir
  | eisdir
  | einval
  | enosys
  | eloop
  | enodata
  | eopnotsupp
  | other (code : Nat)
  deriving DecidableEq, Repr

/-- The end of a call: a value, an error, or an unwinding. -/
inductive Outcome (ε α : Type) where
  | ok (a : α)
  | err (e : ε)
  | panic
  deriving DecidableEq, Repr

namespace Outcome

variable {ε α β γ : Type}

def bind : Outcome ε α → (α → Outcome ε β) → Outcome ε β
  | ok a, f => f a
  | err e, _ => err e
  | panic, _ => panic

instance : Monad (Outcome ε) where
  pure := ok
  bind := bind

@[simp] theorem pure_eq (a : α) : (pure a : Outcome ε α) = ok a := rfl

@[simp] theorem ok_bind (a : α) (f : α → Outcome ε β) : (ok a >>= f) = f a := rfl

@[simp] theorem err_bind (e : ε) (f : α → Outcome ε β) : (err e >>= f) = err e := rfl

@[simp] theorem panic_bind (f : α → Outcome ε β) : ((panic : Outcome ε α) >>= f) = panic := rfl

/-- A computation that ends in a value passes through every step on its way. -/
theorem bind_eq_ok {x : Outcome ε α} {f : α → Outcome ε β} {b : β} :
    (x >>= f) = ok b ↔ ∃ a, x = ok a ∧ f a = ok b := by
  cases x with
  | ok a => simp
  | err e => simp
  | panic => simp

/-- An unwinding starts in one of the steps. -/
theorem bind_eq_panic {x : Outcome ε α} {f : α → Outcome ε β} :
    (x >>= f) = panic ↔ x = panic ∨ ∃ a, x = ok a ∧ f a = panic := by
  cases x with
  | ok a => simp
  | err e => simp
  | panic => simp

instance : LawfulMonad (Outcome ε) :=
  LawfulMonad.mk' (Outcome ε) (fun x => by cases x <;> rfl) (fun _ _ => rfl)
    (fun x _ _ => by cases x <;> rfl)

/-- `Option::ok_or`. -/
def okOr (x : Option α) (e : ε) : Outcome ε α :=
  match x with
  | some a => ok a
  | none => err e

@[simp] theorem okOr_some (a : α) (e : ε) : okOr (some a) e = ok a := rfl

@[simp] theorem okOr_none (e : ε) : okOr (none : Option α) e = err e := rfl

/-- The call returns a value that passes a test. -/
def okAnd (p : α → Bool) : Outcome ε α → Bool
  | ok a => p a
  | err _ => false
  | panic => false

theorem okAnd_eq_true {p : α → Bool} {x : Outcome ε α} (h : x.okAnd p = true) :
    ∃ a, x = ok a ∧ p a = true := by
  cases x with
  | ok a => exact ⟨a, rfl, h⟩
  | err e => cases h
  | panic => cases h

end Outcome
end Rust
