/-
Computations on a state that end in an `Outcome`, or reach a bound on their calls.

`bind_eq_ok` takes a run that ends well apart; `Keeps` carries a property of the
state along whatever the end is.
-/
import DracutInstall.Lib.Outcome

namespace Rust

/-- A computation on a state, `none` when the bound on its calls is reached. -/
def Process (σ ε α : Type) : Type := σ → Option (Outcome ε α × σ)

namespace Process

variable {σ ε α β : Type}

def bind (x : Process σ ε α) (f : α → Process σ ε β) : Process σ ε β := fun s =>
  match x s with
  | none => none
  | some (.ok a, s') => f a s'
  | some (.err e, s') => some (.err e, s')
  | some (.panic, s') => some (.panic, s')

instance : Monad (Process σ ε) where
  pure a := fun s => some (.ok a, s)
  bind := bind

def fail (e : ε) : Process σ ε α := fun s => some (.err e, s)

def unimplemented : Process σ ε α := fun s => some (.panic, s)

def outOfFuel : Process σ ε α := fun _ => none

/-- `?` on a result, with the context it adds. -/
def orFail {δ : Type} (context : δ → ε) : Except δ α → Process σ ε α
  | .ok a => pure a
  | .error e => fail (context e)

theorem pure_eq_some {a : α} {s s' : σ} {r : Outcome ε α} :
    (pure a : Process σ ε α) s = some (r, s') ↔ r = .ok a ∧ s' = s := by
  show some (Outcome.ok a, s) = some (r, s') ↔ _
  rw [Option.some.injEq, Prod.mk.injEq, eq_comm, eq_comm (a := s)]

theorem bind_def (x : Process σ ε α) (f : α → Process σ ε β) (s : σ) :
    (x >>= f) s = match x s with
      | none => none
      | some (.ok a, s') => f a s'
      | some (.err e, s') => some (.err e, s')
      | some (.panic, s') => some (.panic, s') := rfl

/-- A run that ends well does so in each of its parts. -/
theorem bind_eq_ok {x : Process σ ε α} {f : α → Process σ ε β} {s s' : σ} {b : β} :
    (x >>= f) s = some (.ok b, s') ↔
      ∃ a s₁, x s = some (.ok a, s₁) ∧ f a s₁ = some (.ok b, s') := by
  rw [bind_def]
  cases hx : x s with
  | none => simp
  | some out =>
      obtain ⟨r, s₁⟩ := out
      cases r with
      | ok a =>
          constructor
          · exact fun h => ⟨a, s₁, rfl, h⟩
          · rintro ⟨a', s₁', heq, h⟩
            cases heq
            exact h
      | err e => simp
      | panic => simp

/-- A run ends where its first part does not end well, or where its second part ends. -/
theorem bind_eq_some {x : Process σ ε α} {f : α → Process σ ε β} {s s' : σ} {r : Outcome ε β} :
    (x >>= f) s = some (r, s') ↔
      (∃ a s₁, x s = some (.ok a, s₁) ∧ f a s₁ = some (r, s')) ∨
      (∃ e, x s = some (.err e, s') ∧ r = .err e) ∨ (x s = some (.panic, s') ∧ r = .panic) := by
  rw [bind_def]
  cases hx : x s with
  | none => simp
  | some out =>
      obtain ⟨r₁, s₁⟩ := out
      cases r₁ with
      | ok a =>
          constructor
          · exact fun h => .inl ⟨a, s₁, rfl, h⟩
          · rintro (⟨a', s₁', heq, h⟩ | ⟨e, heq, _⟩ | ⟨heq, _⟩)
            · cases heq
              exact h
            · cases heq
            · cases heq
      | err e =>
          constructor
          · intro h
            cases h
            exact .inr (.inl ⟨e, rfl, rfl⟩)
          · rintro (⟨a', s₁', heq, h⟩ | ⟨e', heq, hr⟩ | ⟨heq, _⟩)
            · cases heq
            · cases heq
              rw [hr]
            · cases heq
      | panic =>
          constructor
          · intro h
            cases h
            exact .inr (.inr ⟨rfl, rfl⟩)
          · rintro (⟨a', s₁', heq, h⟩ | ⟨e', heq, _⟩ | ⟨heq, hr⟩)
            · cases heq
            · cases heq
            · cases heq
              rw [hr]

theorem orFail_eq_ok {δ : Type} {context : δ → ε} {x : Except δ α} {s s' : σ} {a : α} :
    (orFail context x : Process σ ε α) s = some (.ok a, s') ↔ x = .ok a ∧ s' = s := by
  cases x with
  | ok b => rw [orFail, pure_eq_some, Outcome.ok.injEq, Except.ok.injEq, eq_comm (a := a)]
  | error e => simp [orFail, fail]

/-! ## Properties of the state, whatever the end -/

/-- From a state with `P` on, the state at the end has `Q`. -/
def Keeps (P Q : σ → Prop) (x : Process σ ε α) : Prop :=
  ∀ s r s', P s → x s = some (r, s') → Q s'

variable {P Q R : σ → Prop}

theorem Keeps.weaken {x : Process σ ε α} (h : Keeps P Q x) (hQ : ∀ s, Q s → R s) : Keeps P R x :=
  fun s r s' hs heq => hQ s' (h s r s' hs heq)

theorem keeps_pure (a : α) : Keeps P P (pure a : Process σ ε α) := by
  intro s r s' hs heq
  rw [(pure_eq_some.mp heq).2]
  exact hs

theorem keeps_fail (e : ε) : Keeps P P (fail e : Process σ ε α) := by
  rintro s r s' hs ⟨⟩
  exact hs

theorem keeps_unimplemented : Keeps P P (unimplemented : Process σ ε α) := by
  rintro s r s' hs ⟨⟩
  exact hs

theorem keeps_outOfFuel : Keeps P Q (outOfFuel : Process σ ε α) := by
  rintro s r s' hs ⟨⟩

theorem keeps_orFail {δ : Type} (context : δ → ε) (x : Except δ α) :
    Keeps P P (orFail context x : Process σ ε α) := by
  cases x with
  | ok a => exact keeps_pure a
  | error e => exact keeps_fail (context e)

/-- The second part starts where the first one ends well; anywhere else the run is over. -/
theorem Keeps.bind {x : Process σ ε α} {f : α → Process σ ε β} (hx : Keeps P Q x)
    (hf : ∀ a, Keeps Q R (f a)) (hQ : ∀ s, Q s → R s) : Keeps P R (x >>= f) := by
  intro s r s' hs heq
  rw [bind_def] at heq
  cases hrun : x s with
  | none =>
      rw [hrun] at heq
      cases heq
  | some out =>
      obtain ⟨end₁, s₁⟩ := out
      rw [hrun] at heq
      have hs₁ := hx s end₁ s₁ hs hrun
      cases end₁ with
      | ok a => exact hf a s₁ r s' hs₁ heq
      | err e =>
          cases heq
          exact hQ _ hs₁
      | panic =>
          cases heq
          exact hQ _ hs₁

/-- A property both parts keep. -/
theorem Keeps.seq {x : Process σ ε α} {f : α → Process σ ε β} (hx : Keeps P P x)
    (hf : ∀ a, Keeps P P (f a)) : Keeps P P (x >>= f) :=
  hx.bind hf fun _ hs => hs

/-! ## Runs with a higher bound -/

/-- Where `x` comes back, `y` comes back with the same. -/
def Approx (x y : Process σ ε α) : Prop := ∀ s out, x s = some out → y s = some out

theorem Approx.refl (x : Process σ ε α) : Approx x x := fun _ _ h => h

theorem Approx.trans {x y z : Process σ ε α} (h : Approx x y) (h' : Approx y z) : Approx x z :=
  fun s out hrun => h' s out (h s out hrun)

theorem approx_outOfFuel (y : Process σ ε α) : Approx outOfFuel y := by
  intro s out h
  cases h

theorem Approx.bind {x y : Process σ ε α} {f g : α → Process σ ε β} (hx : Approx x y)
    (hf : ∀ a, Approx (f a) (g a)) : Approx (x >>= f) (y >>= g) := by
  intro s out h
  rw [bind_def] at h ⊢
  cases hrun : x s with
  | none =>
      rw [hrun] at h
      cases h
  | some out₁ =>
      obtain ⟨r, s₁⟩ := out₁
      rw [hrun] at h
      rw [hx s _ hrun]
      cases r with
      | ok a => exact hf a s₁ out h
      | err e => exact h
      | panic => exact h

/-- A run comes back if its first part does and, where that ends well, its second part. -/
theorem bind_returns {x : Process σ ε α} {f : α → Process σ ε β} {s s₁ : σ} {r : Outcome ε α}
    (hx : x s = some (r, s₁)) (hf : ∀ a, r = .ok a → ∃ out, f a s₁ = some out) :
    ∃ out, (x >>= f) s = some out := by
  rw [bind_def, hx]
  cases r with
  | ok a => exact hf a rfl
  | err e => exact ⟨_, rfl⟩
  | panic => exact ⟨_, rfl⟩

/-- A run that is computed to end well. -/
theorem exists_ok_of_any [DecidableEq ε] [DecidableEq α] {x : Process σ ε α} {s : σ} {a : α}
    {P : σ → Prop} [DecidablePred P]
    (h : ((x s).any fun out => decide (out.1 = .ok a ∧ P out.2)) = true) :
    ∃ s', x s = some (.ok a, s') ∧ P s' := by
  obtain ⟨⟨r, s'⟩, hrun, hout⟩ := (Option.any_eq_true _ _).mp h
  obtain ⟨rfl, hP⟩ := of_decide_eq_true hout
  exact ⟨s', hrun, hP⟩

end Process
end Rust
