/-
Marking a graph depth first, with errors.

A node has a key, or none and is then passed over.  A key is marked before the
successors of its node are looked at; a successor may be an error instead, which
ends the whole call and leaves the marks made so far.

`visit_marks` is the invariant of a call: what it marks stays within every
closed set that holds the key it starts from, and, when no error ends it, every
key it has marked has all its successors marked.
-/
import Mathlib.Data.Finset.Card
import Mathlib.Order.Bounds.Basic

namespace DepthFirst

variable {Node Key Err : Type}

structure Graph (Node Key Err : Type) where
  key : Node → Option Key
  expand : Node → List (Except Err Node)

/-- Nodes with one key have the same successors. -/
def Graph.ByKey (g : Graph Node Key Err) : Prop :=
  ∀ m m' p, g.key m = some p → g.key m' = some p → g.expand m = g.expand m'

/-- What a call of bounded depth comes back with, nothing when the bound is
reached: its end, and the keys marked by then. -/
abbrev Result (Err Key : Type) := Option (Except Err Unit × Finset Key)

/-- Goes on after a call that did not end in an error. -/
def Result.andThen : Result Err Key → (Finset Key → Result Err Key) → Result Err Key
  | some (.ok (), seen), f => f seen
  | r, _ => r

/-- One call after the other, until one comes back with an error. -/
def visitAll (f : Node → Finset Key → Result Err Key) :
    List (Except Err Node) → Finset Key → Result Err Key
  | [], seen => some (.ok (), seen)
  | .error e :: _, seen => some (.error e, seen)
  | .ok m :: ms, seen => (f m seen).andThen (visitAll f ms)

/-- The search from a node, with its depth bounded by the first argument. -/
def visit [DecidableEq Key] (g : Graph Node Key Err) : Nat → Node → Finset Key → Result Err Key
  | 0, _, _ => none
  | n + 1, m, seen =>
      match g.key m with
      | none => some (.ok (), seen)
      | some p =>
          if p ∈ seen then some (.ok (), seen)
          else visitAll (visit g n) (g.expand m) (insert p seen)

@[simp] theorem Result.andThen_ok (seen : Finset Key) (f : Finset Key → Result Err Key) :
    Result.andThen (some (.ok (), seen)) f = f seen := rfl

@[simp] theorem Result.andThen_error (e : Err) (seen : Finset Key)
    (f : Finset Key → Result Err Key) :
    Result.andThen (some (.error e, seen)) f = some (.error e, seen) := rfl

theorem Result.andThen_assoc (r : Result Err Key) (f f' : Finset Key → Result Err Key) :
    (r.andThen f).andThen f' = r.andThen fun seen => (f seen).andThen f' := by
  match r with
  | none => rfl
  | some (.ok (), _) => rfl
  | some (.error _, _) => rfl

theorem visitAll_append (f : Node → Finset Key → Result Err Key)
    (ms ms' : List (Except Err Node)) (seen : Finset Key) :
    visitAll f (ms ++ ms') seen = (visitAll f ms seen).andThen (visitAll f ms') := by
  induction ms generalizing seen with
  | nil => rfl
  | cons m ms ih =>
      cases m with
      | error e => rfl
      | ok m =>
          rw [List.cons_append, visitAll, visitAll, Result.andThen_assoc]
          exact congrArg _ (funext ih)

/-! ## The bound does not matter once it is large enough -/

theorem Result.andThen_mono {r r' : Result Err Key} {f f' : Finset Key → Result Err Key}
    (hr : ∀ x, r = some x → r' = some x) (hf : ∀ seen x, f seen = some x → f' seen = some x)
    {x : Except Err Unit × Finset Key} (h : r.andThen f = some x) : r'.andThen f' = some x := by
  match r, hr with
  | none, _ => cases h
  | some (.ok (), seen), hr =>
      rw [hr _ rfl]
      exact hf seen x h
  | some (.error e, seen), hr =>
      rw [hr _ rfl]
      exact h

theorem visitAll_mono {f f' : Node → Finset Key → Result Err Key}
    (hf : ∀ m seen x, f m seen = some x → f' m seen = some x) (ms : List (Except Err Node)) :
    ∀ (seen : Finset Key) (x : Except Err Unit × Finset Key),
      visitAll f ms seen = some x → visitAll f' ms seen = some x := by
  induction ms with
  | nil => exact fun _ _ h => h
  | cons m ms ih =>
      cases m with
      | error e => exact fun _ _ h => h
      | ok m => exact fun seen x h => Result.andThen_mono (hf m seen) ih h

theorem visit_succ [DecidableEq Key] (g : Graph Node Key Err) :
    ∀ (n : Nat) (m : Node) (seen : Finset Key) (x : Except Err Unit × Finset Key),
      visit g n m seen = some x → visit g (n + 1) m seen = some x := by
  intro n
  induction n with
  | zero => intro m seen x h; cases h
  | succ n ih =>
      intro m seen x h
      rw [visit] at h ⊢
      cases hkey : g.key m with
      | none => rwa [hkey] at h
      | some p =>
          simp only [hkey] at h ⊢
          by_cases hp : p ∈ seen
          · rwa [if_pos hp] at h ⊢
          · rw [if_neg hp] at h ⊢
            exact visitAll_mono ih (g.expand m) _ x h

theorem visit_of_le [DecidableEq Key] (g : Graph Node Key Err) {n n' : Nat} (hn : n ≤ n')
    (m : Node) (seen : Finset Key) (x : Except Err Unit × Finset Key)
    (h : visit g n m seen = some x) : visit g n' m seen = some x := by
  induction hn with
  | refl => exact h
  | step _ ih => exact visit_succ g _ m seen x ih

/-! ## The search ends -/

theorem visitAll_isSome {f : Node → Finset Key → Result Err Key} {seen : Finset Key}
    (hf : ∀ m seen', seen ⊆ seen' → ∃ r seen'', f m seen' = some (r, seen'') ∧ seen' ⊆ seen'')
    (ms : List (Except Err Node)) {seen' : Finset Key} (hle : seen ⊆ seen') :
    ∃ r seen'', visitAll f ms seen' = some (r, seen'') ∧ seen' ⊆ seen'' := by
  induction ms generalizing seen' with
  | nil => exact ⟨_, _, rfl, Finset.Subset.refl _⟩
  | cons m ms ih =>
      cases m with
      | error e => exact ⟨_, _, rfl, Finset.Subset.refl _⟩
      | ok m =>
          obtain ⟨r, seen1, hr, hsub⟩ := hf m seen' hle
          rw [visitAll, hr]
          cases r with
          | error e => exact ⟨_, _, rfl, hsub⟩
          | ok u =>
              obtain ⟨r, seen2, hr2, hsub2⟩ := ih (hle.trans hsub)
              exact ⟨r, seen2, hr2, hsub.trans hsub2⟩

/-- When all keys are among `keys`, the number of those not yet marked bounds the
depth: every call that goes on marks one of them. -/
theorem visit_isSome [DecidableEq Key] {g : Graph Node Key Err} {keys : Finset Key}
    (hkeys : ∀ m p, g.key m = some p → p ∈ keys) :
    ∀ (n : Nat) (m : Node) (seen : Finset Key), (keys \ seen).card < n →
      ∃ r seen', visit g n m seen = some (r, seen') ∧ seen ⊆ seen' := by
  intro n
  induction n with
  | zero => intro m seen h; omega
  | succ n ih =>
      intro m seen h
      rw [visit]
      cases hkey : g.key m with
      | none => exact ⟨_, _, rfl, Finset.Subset.refl _⟩
      | some p =>
          by_cases hp : p ∈ seen
          · exact ⟨_, _, if_pos hp, Finset.Subset.refl _⟩
          · have hmem : p ∈ keys \ seen := Finset.mem_sdiff.mpr ⟨hkeys m p hkey, hp⟩
            have hcard : (keys \ insert p seen).card < n := by
              rw [Finset.sdiff_insert, Finset.card_erase_of_mem hmem]
              have hpos := Finset.card_pos.mpr ⟨p, hmem⟩
              omega
            have hrec : ∀ m' seen', insert p seen ⊆ seen' →
                ∃ r seen'', visit g n m' seen' = some (r, seen'') ∧ seen' ⊆ seen'' := by
              intro m' seen' hsub
              refine ih m' seen' (Nat.lt_of_le_of_lt (Finset.card_le_card ?_) hcard)
              exact Finset.sdiff_subset_sdiff (Finset.Subset.refl _) hsub
            obtain ⟨r, seen', hr, hsub⟩ :=
              visitAll_isSome hrec (g.expand m) (Finset.Subset.refl (insert p seen))
            exact ⟨r, seen', (if_neg hp).trans hr, (Finset.subset_insert p seen).trans hsub⟩

/-! ## What a search marks -/

/-- Every successor of a node whose key is in the set has its key in the set. -/
def Closed (g : Graph Node Key Err) (s : Set Key) : Prop :=
  ∀ m p, g.key m = some p → p ∈ s → ∀ d, .ok d ∈ g.expand m → ∀ q, g.key d = some q → q ∈ s

/-- All successors of the nodes with this key are nodes, and marked. -/
def Done (g : Graph Node Key Err) (seen : Finset Key) (p : Key) : Prop :=
  ∃ m, g.key m = some p ∧ ∀ x ∈ g.expand m, ∃ d, x = .ok d ∧ ∀ q, g.key d = some q → q ∈ seen

theorem Done.mono {g : Graph Node Key Err} {seen seen' : Finset Key} {p : Key}
    (h : Done g seen p) (hsub : seen ⊆ seen') : Done g seen' p := by
  obtain ⟨m, hkey, hdone⟩ := h
  refine ⟨m, hkey, fun x hx => ?_⟩
  obtain ⟨d, rfl, hd⟩ := hdone x hx
  exact ⟨d, rfl, fun q hq => hsub (hd q hq)⟩

/-- What a call with the starting nodes `ms` guarantees. -/
structure Marks (g : Graph Node Key Err) (ms : List (Except Err Node)) (seen : Finset Key)
    (r : Except Err Unit) (seen' : Finset Key) : Prop where
  mono : seen ⊆ seen'
  within : ∀ s, Closed g s → (∀ d, .ok d ∈ ms → ∀ p, g.key d = some p → p ∈ s) →
    ∀ q ∈ seen', q ∈ seen ∨ q ∈ s
  starts : r = .ok () → ∀ x ∈ ms, ∃ d, x = .ok d ∧ ∀ p, g.key d = some p → p ∈ seen'
  done : r = .ok () → ∀ q ∈ seen', q ∉ seen → Done g seen' q

theorem visitAll_marks {g : Graph Node Key Err}
    {f : Node → Finset Key → Result Err Key}
    (hf : ∀ m seen r seen', f m seen = some (r, seen') → Marks g [.ok m] seen r seen')
    (ms : List (Except Err Node)) {seen seen' : Finset Key} {r : Except Err Unit}
    (h : visitAll f ms seen = some (r, seen')) : Marks g ms seen r seen' := by
  induction ms generalizing seen with
  | nil =>
      cases h
      exact ⟨Finset.Subset.refl _, fun _ _ _ q hq => Or.inl hq, fun _ x hx => (by cases hx),
        fun _ q hq hnot => absurd hq hnot⟩
  | cons m ms ih =>
      cases m with
      | error e =>
          cases h
          exact ⟨Finset.Subset.refl _, fun _ _ _ q hq => Or.inl hq, (fun h => nomatch h),
            (fun h => nomatch h)⟩
      | ok m =>
          rw [visitAll] at h
          cases hm : f m seen with
          | none =>
              rw [hm] at h
              cases h
          | some out =>
              obtain ⟨r1, seen1⟩ := out
              have hmarks := hf m seen r1 seen1 hm
              rw [hm] at h
              cases r1 with
              | error e =>
                  cases h
                  refine ⟨hmarks.mono, fun s hs hd => hmarks.within s hs fun d hd' => ?_,
                    (fun h => nomatch h), (fun h => nomatch h)⟩
                  exact hd d (List.mem_cons.mpr (Or.inl (List.mem_singleton.mp hd')))
              | ok u =>
                  have hrest := ih h
                  refine ⟨hmarks.mono.trans hrest.mono, ?_, ?_, ?_⟩
                  · intro s hs hd q hq
                    rcases hrest.within s hs
                        (fun d hd' => hd d (List.mem_cons_of_mem _ hd')) q hq with h1 | h1
                    · exact hmarks.within s hs
                        (fun d hd' => hd d (List.mem_cons.mpr (Or.inl (List.mem_singleton.mp hd'))))
                        q h1
                    · exact Or.inr h1
                  · intro hr x hx
                    rcases List.mem_cons.mp hx with rfl | hx
                    · obtain ⟨d, hd, hkey⟩ := hmarks.starts rfl _ List.mem_cons_self
                      exact ⟨d, hd, fun p hp => hrest.mono (hkey p hp)⟩
                    · exact hrest.starts hr x hx
                  · intro hr q hq hnot
                    by_cases hq1 : q ∈ seen1
                    · exact (hmarks.done rfl q hq1 hnot).mono hrest.mono
                    · exact hrest.done hr q hq hq1

theorem visit_marks [DecidableEq Key] (g : Graph Node Key Err) :
    ∀ (n : Nat) (m : Node) (seen : Finset Key) (r : Except Err Unit) (seen' : Finset Key),
      visit g n m seen = some (r, seen') → Marks g [.ok m] seen r seen' := by
  intro n
  induction n with
  | zero => intro m seen r seen' h; cases h
  | succ n ih =>
      intro m seen r seen' h
      rw [visit] at h
      cases hkey : g.key m with
      | none =>
          rw [hkey] at h
          cases h
          refine ⟨Finset.Subset.refl _, fun _ _ _ q hq => Or.inl hq, fun _ x hx => ?_,
            fun _ q hq hnot => absurd hq hnot⟩
          refine ⟨m, List.mem_singleton.mp hx, fun p hp => ?_⟩
          rw [hkey] at hp
          cases hp
      | some p =>
          simp only [hkey] at h
          by_cases hp : p ∈ seen
          · rw [if_pos hp] at h
            cases h
            refine ⟨Finset.Subset.refl _, fun _ _ _ q hq => Or.inl hq, fun _ x hx => ?_,
              fun _ q hq hnot => absurd hq hnot⟩
            refine ⟨m, List.mem_singleton.mp hx, fun p' hp' => ?_⟩
            rw [hkey] at hp'
            cases hp'
            exact hp
          · rw [if_neg hp] at h
            have hmarks := visitAll_marks ih (g.expand m) h
            have hmem : p ∈ seen' := hmarks.mono (Finset.mem_insert_self p seen)
            refine ⟨(Finset.subset_insert p seen).trans hmarks.mono, ?_, ?_, ?_⟩
            · intro s hs hd q hq
              have hps : p ∈ s := hd m List.mem_cons_self p hkey
              rcases hmarks.within s hs (hs m p hkey hps) q hq with h1 | h1
              · rcases Finset.mem_insert.mp h1 with rfl | h1
                · exact Or.inr hps
                · exact Or.inl h1
              · exact Or.inr h1
            · intro _ x hx
              refine ⟨m, List.mem_singleton.mp hx, fun p' hp' => ?_⟩
              rw [hkey] at hp'
              cases hp'
              exact hmem
            · intro hr q hq hnot
              by_cases hqp : q = p
              · rw [hqp]
                exact ⟨m, hkey, hmarks.starts hr⟩
              · refine hmarks.done hr q hq fun hq' => ?_
                rcases Finset.mem_insert.mp hq' with h1 | h1
                · exact hqp h1
                · exact hnot h1

/-- A set all of whose keys are done is closed, when the successors depend on the
key alone. -/
theorem closed_of_done {g : Graph Node Key Err} (hg : g.ByKey) {seen : Finset Key}
    (h : ∀ p ∈ seen, Done g seen p) : Closed g ↑seen := by
  intro m p hkey hp d hd q hq
  obtain ⟨m', hkey', hdone⟩ := h p hp
  rw [hg m m' p hkey hkey'] at hd
  obtain ⟨d', hd', hmem⟩ := hdone _ hd
  cases hd'
  exact hmem q hq

/-- Searches from all the starting nodes in turn mark the least closed set that
holds their keys. -/
theorem visitAll_isLeast [DecidableEq Key] {g : Graph Node Key Err} (hg : g.ByKey) {n : Nat} {ms : List Node}
    {seen : Finset Key}
    (h : visitAll (visit g n) (ms.map .ok) ∅ = some (.ok (), seen)) :
    IsLeast {s : Set Key | (∀ m ∈ ms, ∀ p, g.key m = some p → p ∈ s) ∧ Closed g s} ↑seen := by
  have hmarks := visitAll_marks (visit_marks g n) _ h
  refine ⟨⟨?_, ?_⟩, ?_⟩
  · intro m hm p hp
    obtain ⟨d, hd, hmem⟩ := hmarks.starts rfl _ (List.mem_map_of_mem hm)
    cases hd
    exact hmem p hp
  · exact closed_of_done hg fun p hp => hmarks.done rfl p hp (Finset.notMem_empty p)
  · rintro s ⟨hroots, hclosed⟩ q hq
    have hstart : ∀ d, (.ok d : Except Err Node) ∈ ms.map .ok →
        ∀ p, g.key d = some p → p ∈ s := by
      intro d hd p hp
      obtain ⟨m, hm, hmd⟩ := List.mem_map.mp hd
      rw [← Except.ok.inj hmd] at hp
      exact hroots m hm p hp
    rcases hmarks.within s hclosed hstart q hq with h1 | h1
    · exact absurd h1 (Finset.notMem_empty q)
    · exact h1

/-! ## Where an error comes from -/

/-- A node whose key is in the set has the error among its successors. -/
def FailsIn (g : Graph Node Key Err) (s : Set Key) (e : Err) : Prop :=
  ∃ m p, g.key m = some p ∧ p ∈ s ∧ .error e ∈ g.expand m

theorem FailsIn.mono {g : Graph Node Key Err} {s s' : Set Key} {e : Err} (h : FailsIn g s e)
    (hsub : s ⊆ s') : FailsIn g s' e := by
  obtain ⟨m, p, hkey, hp, he⟩ := h
  exact ⟨m, p, hkey, hsub hp, he⟩

theorem visitAll_error {g : Graph Node Key Err} {f : Node → Finset Key → Result Err Key}
    (hf : ∀ m seen e seen', f m seen = some (.error e, seen') → FailsIn g ↑seen' e)
    (ms : List (Except Err Node)) {seen seen' : Finset Key} {e : Err}
    (h : visitAll f ms seen = some (.error e, seen')) :
    .error e ∈ ms ∨ FailsIn g ↑seen' e := by
  induction ms generalizing seen with
  | nil => cases h
  | cons m ms ih =>
      cases m with
      | error e' =>
          cases h
          exact Or.inl List.mem_cons_self
      | ok m =>
          rw [visitAll] at h
          cases hm : f m seen with
          | none =>
              rw [hm] at h
              cases h
          | some out =>
              obtain ⟨r, seen1⟩ := out
              rw [hm] at h
              cases r with
              | error e' =>
                  cases h
                  exact Or.inr (hf m seen e seen' hm)
              | ok u =>
                  rcases ih h with hmem | hfails
                  · exact Or.inl (List.mem_cons_of_mem _ hmem)
                  · exact Or.inr hfails

/-- A search that ends in an error has marked a node that has it among its successors. -/
theorem visit_error [DecidableEq Key] (g : Graph Node Key Err) :
    ∀ (n : Nat) (m : Node) (seen : Finset Key) (e : Err) (seen' : Finset Key),
      visit g n m seen = some (.error e, seen') → FailsIn g ↑seen' e := by
  intro n
  induction n with
  | zero => intro m seen e seen' h; cases h
  | succ n ih =>
      intro m seen e seen' h
      rw [visit] at h
      cases hkey : g.key m with
      | none =>
          rw [hkey] at h
          cases h
      | some p =>
          simp only [hkey] at h
          by_cases hp : p ∈ seen
          · rw [if_pos hp] at h
            cases h
          · rw [if_neg hp] at h
            rcases visitAll_error ih (g.expand m) h with hmem | hfails
            · have hmarks := visitAll_marks (visit_marks g n) (g.expand m) h
              exact ⟨m, p, hkey, hmarks.mono (Finset.mem_insert_self p seen), hmem⟩
            · exact hfails

/-- Where the searches end without an error, no node they have marked has one among its
successors. -/
theorem visitAll_ok [DecidableEq Key] {g : Graph Node Key Err} (hg : g.ByKey) {n : Nat}
    {ms : List Node} {seen : Finset Key}
    (h : visitAll (visit g n) (ms.map .ok) ∅ = some (.ok (), seen)) (e : Err) :
    ¬ FailsIn g ↑seen e := by
  rintro ⟨m, p, hkey, hp, he⟩
  have hmarks := visitAll_marks (visit_marks g n) _ h
  obtain ⟨m', hkey', hdone⟩ := hmarks.done rfl p hp (Finset.notMem_empty p)
  rw [hg m m' p hkey hkey'] at he
  obtain ⟨d, hd, _⟩ := hdone _ he
  cases hd

end DepthFirst
