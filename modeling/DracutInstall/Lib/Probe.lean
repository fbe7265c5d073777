/-
Searches that share a set of what has been tried.

`probe` goes through a list of candidates up to the first that is wanted, and
puts every candidate it tries into the set `seen`.  A candidate in the set ends
it as well.  `probeAll` goes through the whole list.  The lemmas say which
candidate is taken, when none is, and what a larger set changes.
-/
import Mathlib.Data.Finset.Basic
import Mathlib.Data.Finset.Dedup
import Mathlib.Data.List.Nodup
import Mathlib.Data.Finset.Lattice.Lemmas

namespace Probe

variable {α : Type} [DecidableEq α]

structure Found (α : Type) where
  found : Bool
  taken : List α
  seen : Finset α

def probe (ok : α → Bool) : Finset α → List α → Found α
  | seen, [] => ⟨false, [], seen⟩
  | seen, j :: js =>
      if j ∈ seen then ⟨true, [], seen⟩
      else if ok j then ⟨true, [j], insert j seen⟩
      else probe ok (insert j seen) js

def probeAll (ok : α → Bool) : Finset α → List α → Found α
  | seen, [] => ⟨true, [], seen⟩
  | seen, j :: js =>
      if j ∈ seen then probeAll ok seen js
      else
        let rest := probeAll ok (insert j seen) js
        if ok j then ⟨true, j :: rest.taken, rest.seen⟩ else rest

/-! ## Candidates that meet nothing -/

/-- No candidate has been tried, and none is met twice. -/
structure Fresh (seen : Finset α) (js : List α) : Prop where
  nodup : js.Nodup
  new : ∀ j ∈ js, j ∉ seen

section Fresh

variable {seen : Finset α} {j : α} {js ks : List α}

omit [DecidableEq α] in
theorem Fresh.nil : Fresh seen [] :=
  ⟨List.nodup_nil, fun _ h => absurd h List.not_mem_nil⟩

theorem fresh_cons : Fresh seen (j :: js) ↔ j ∉ seen ∧ Fresh (insert j seen) js := by
  constructor
  · intro h
    have hnodup := List.nodup_cons.mp h.nodup
    refine ⟨h.new j List.mem_cons_self, hnodup.2, ?_⟩
    intro i hi hmem
    rcases Finset.mem_insert.mp hmem with heq | hseen
    · exact hnodup.1 (heq ▸ hi)
    · exact h.new i (List.mem_cons_of_mem _ hi) hseen
  · intro h
    obtain ⟨hj, hjs⟩ := h
    have hnew : j ∉ js := fun hmem => hjs.new j hmem (Finset.mem_insert_self j seen)
    refine ⟨List.nodup_cons.mpr ⟨hnew, hjs.nodup⟩, ?_⟩
    intro i hi
    cases hi with
    | head => exact hj
    | tail _ hi => exact fun hseen => hjs.new i hi (Finset.mem_insert_of_mem hseen)

theorem insert_union_toFinset (seen : Finset α) (j : α) (js : List α) :
    insert j seen ∪ js.toFinset = seen ∪ (j :: js).toFinset := by
  ext i
  simp only [Finset.mem_union, Finset.mem_insert, List.mem_toFinset, List.mem_cons]
  tauto

theorem fresh_append :
    Fresh seen (js ++ ks) ↔ Fresh seen js ∧ Fresh (seen ∪ js.toFinset) ks := by
  induction js generalizing seen with
  | nil => simp [Fresh.nil]
  | cons j js ih =>
      rw [List.cons_append, fresh_cons, fresh_cons, ih, insert_union_toFinset, and_assoc]

omit [DecidableEq α] in
theorem Fresh.mono {seen' : Finset α} (h : Fresh seen js) (hsub : seen' ⊆ seen) :
    Fresh seen' js :=
  ⟨h.nodup, fun j hj hmem => h.new j hj (hsub hmem)⟩

omit [DecidableEq α] in
theorem Fresh.perm (h : Fresh seen js) (hperm : js.Perm ks) : Fresh seen ks :=
  ⟨hperm.nodup_iff.mp h.nodup, fun j hj => h.new j (hperm.mem_iff.mpr hj)⟩

end Fresh

/-! ## The search that stops -/

section Probe

variable {ok : α → Bool} {seen : Finset α} {j : α} {js ks : List α}

theorem probe_of_missed (h : Fresh seen js) (hok : ∀ j ∈ js, ok j = false) :
    probe ok seen js = ⟨false, [], seen ∪ js.toFinset⟩ := by
  induction js generalizing seen with
  | nil => simp [probe]
  | cons j js ih =>
      obtain ⟨hj, hjs⟩ := fresh_cons.mp h
      rw [probe, if_neg hj, if_neg (by rw [hok j List.mem_cons_self]; exact Bool.false_ne_true),
        ih hjs (fun i hi => hok i (List.mem_cons_of_mem _ hi)), insert_union_toFinset]

theorem probe_found_eq_false :
    (probe ok seen js).found = false ↔ Fresh seen js ∧ ∀ j ∈ js, ok j = false := by
  constructor
  · intro h
    induction js generalizing seen with
    | nil => exact ⟨Fresh.nil, fun _ hj => absurd hj List.not_mem_nil⟩
    | cons j js ih =>
        rw [probe] at h
        split at h
        · cases h
        · rename_i hj
          split at h
          · cases h
          · rename_i hok
            obtain ⟨hfresh, hrest⟩ := ih h
            refine ⟨fresh_cons.mpr ⟨hj, hfresh⟩, ?_⟩
            intro i hi
            cases hi with
            | head => exact Bool.eq_false_iff.mpr hok
            | tail _ hi => exact hrest i hi
  · intro h
    rw [probe_of_missed h.1 h.2]

/-- A search that finds nothing takes nothing. -/
theorem probe_taken_of_missed (h : (probe ok seen js).found = false) :
    (probe ok seen js).taken = [] := by
  obtain ⟨hfresh, hok⟩ := probe_found_eq_false.mp h
  rw [probe_of_missed hfresh hok]

/-- What a search takes is the first candidate that is wanted, if no candidate up
to it has been tried before. -/
theorem mem_probe_taken :
    j ∈ (probe ok seen js).taken ↔ ∃ before after, js = before ++ j :: after ∧
      Fresh seen (before ++ [j]) ∧ (∀ i ∈ before, ok i = false) ∧ ok j = true := by
  induction js generalizing seen with
  | nil =>
      refine iff_of_false (by simp [probe]) ?_
      intro hex
      obtain ⟨before, after, heq, _⟩ := hex
      cases before <;> cases heq
  | cons k js ih =>
      rw [probe]
      constructor
      · intro h
        split at h
        · cases h
        · rename_i hk
          split at h
          · rename_i hok
            obtain rfl := List.mem_singleton.mp h
            exact ⟨[], js, rfl, fresh_cons.mpr ⟨hk, Fresh.nil⟩,
              fun _ hi => absurd hi List.not_mem_nil, hok⟩
          · rename_i hok
            obtain ⟨before, after, rfl, hfresh, hbefore, hj⟩ := ih.mp h
            refine ⟨k :: before, after, rfl, fresh_cons.mpr ⟨hk, hfresh⟩, ?_, hj⟩
            intro i hi
            cases hi with
            | head => exact Bool.eq_false_iff.mpr hok
            | tail _ hi => exact hbefore i hi
      · intro hex
        obtain ⟨before, after, heq, hfresh, hbefore, hj⟩ := hex
        cases before with
        | nil =>
            obtain ⟨rfl, rfl⟩ := List.cons.inj heq
            rw [if_neg (fresh_cons.mp hfresh).1, if_pos hj]
            exact List.mem_singleton_self k
        | cons i before =>
            obtain ⟨rfl, rfl⟩ := List.cons.inj heq
            obtain ⟨hk, hfresh⟩ := fresh_cons.mp hfresh
            have hok := hbefore k List.mem_cons_self
            rw [if_neg hk, if_neg (by rw [hok]; exact Bool.false_ne_true)]
            exact ih.mpr ⟨before, after, rfl, hfresh,
              fun i hi => hbefore i (List.mem_cons_of_mem _ hi), hj⟩

theorem probe_seen_mono : seen ⊆ (probe ok seen js).seen := by
  induction js generalizing seen with
  | nil => exact Finset.Subset.refl seen
  | cons j js ih =>
      rw [probe]
      split
      · exact Finset.Subset.refl seen
      · split
        · exact Finset.subset_insert j seen
        · exact (Finset.subset_insert j seen).trans ih

theorem probe_seen_sub : (probe ok seen js).seen ⊆ seen ∪ js.toFinset := by
  induction js generalizing seen with
  | nil => exact Finset.subset_union_left
  | cons j js ih =>
      rw [probe, ← insert_union_toFinset]
      split
      · exact (Finset.subset_insert j seen).trans Finset.subset_union_left
      · split
        · exact Finset.subset_union_left
        · exact ih

theorem probe_taken_seen (h : j ∈ (probe ok seen js).taken) : j ∈ (probe ok seen js).seen := by
  induction js generalizing seen with
  | nil => cases h
  | cons k js ih =>
      rw [probe] at h ⊢
      split at h
      · cases h
      · rename_i hk
        rw [if_neg hk]
        split at h
        · rename_i hok
          obtain rfl := List.mem_singleton.mp h
          rw [if_pos hok]
          exact Finset.mem_insert_self j seen
        · rename_i hok
          rw [if_neg hok]
          exact ih h

/-- A search does not depend on what has been tried of other candidates. -/
theorem probe_union {extra : Finset α} (h : ∀ j ∈ js, j ∉ extra) :
    probe ok (seen ∪ extra) js =
      { probe ok seen js with seen := (probe ok seen js).seen ∪ extra } := by
  induction js generalizing seen with
  | nil => rfl
  | cons j js ih =>
      have hj : j ∈ seen ∪ extra ↔ j ∈ seen := by
        rw [Finset.mem_union]
        exact or_iff_left (h j List.mem_cons_self)
      rw [probe, probe]
      by_cases hseen : j ∈ seen
      · rw [if_pos (hj.mpr hseen), if_pos hseen]
      · rw [if_neg (fun hmem => hseen (hj.mp hmem)), if_neg hseen, ← Finset.insert_union]
        split
        · rfl
        · exact ih fun i hi => h i (List.mem_cons_of_mem _ hi)

/-- The same search another time ends at its first candidate. -/
theorem probe_again {seen' : Finset α} (hne : js ≠ []) (hsub : (probe ok seen js).seen ⊆ seen') :
    probe ok seen' js = ⟨true, [], seen'⟩ := by
  cases js with
  | nil => exact absurd rfl hne
  | cons j js =>
      have hj : j ∈ (probe ok seen (j :: js)).seen := by
        rw [probe]
        split
        · assumption
        · split
          · exact Finset.mem_insert_self j seen
          · exact probe_seen_mono (Finset.mem_insert_self j seen)
      rw [probe, if_pos (hsub hj)]

end Probe

/-! ## The search that goes on -/

section ProbeAll

variable {ok : α → Bool} {seen : Finset α} {j : α} {js : List α}

theorem probeAll_found : (probeAll ok seen js).found = true := by
  induction js generalizing seen with
  | nil => rfl
  | cons j js ih =>
      rw [probeAll]
      split
      · exact ih
      · dsimp only
        split
        · rfl
        · exact ih

theorem probeAll_seen : (probeAll ok seen js).seen = seen ∪ js.toFinset := by
  induction js generalizing seen with
  | nil => simp [probeAll]
  | cons j js ih =>
      rw [probeAll, ← insert_union_toFinset]
      split
      · rename_i hj
        rw [ih, Finset.insert_eq_of_mem hj]
      · dsimp only
        split
        · exact ih
        · exact ih

theorem mem_probeAll_taken :
    j ∈ (probeAll ok seen js).taken ↔ j ∈ js ∧ ok j = true ∧ j ∉ seen := by
  induction js generalizing seen with
  | nil => simp [probeAll]
  | cons k js ih =>
      rw [probeAll]
      by_cases hk : k ∈ seen
      · rw [if_pos hk, ih, List.mem_cons]
        constructor
        · intro h
          exact ⟨.inr h.1, h.2⟩
        · intro h
          refine ⟨h.1.resolve_left ?_, h.2⟩
          intro heq
          exact h.2.2 (heq ▸ hk)
      · rw [if_neg hk]
        by_cases heq : j = k
        · subst heq
          by_cases hok : ok j = true
          · simp [hok, hk]
          · simp [hok, ih]
        · by_cases hok : ok k = true
          · simp [hok, heq, ih]
          · simp [hok, heq, ih]

theorem probeAll_union {extra : Finset α} (h : ∀ j ∈ js, j ∉ extra) :
    probeAll ok (seen ∪ extra) js =
      { probeAll ok seen js with seen := (probeAll ok seen js).seen ∪ extra } := by
  induction js generalizing seen with
  | nil => rfl
  | cons j js ih =>
      have hrest := fun i hi => h i (List.mem_cons_of_mem j hi)
      have hj : j ∈ seen ∪ extra ↔ j ∈ seen := by
        rw [Finset.mem_union]
        exact or_iff_left (h j List.mem_cons_self)
      rw [probeAll, probeAll]
      by_cases hseen : j ∈ seen
      · rw [if_pos (hj.mpr hseen), if_pos hseen]
        exact ih hrest
      · rw [if_neg (fun hmem => hseen (hj.mp hmem)), if_neg hseen, ← Finset.insert_union,
          ih hrest]
        dsimp only
        split
        · rfl
        · rfl

theorem probeAll_again {seen' : Finset α} (hsub : js.toFinset ⊆ seen') :
    probeAll ok seen' js = ⟨true, [], seen'⟩ := by
  induction js with
  | nil => rfl
  | cons j js ih =>
      rw [List.toFinset_cons, Finset.insert_subset_iff] at hsub
      rw [probeAll, if_pos hsub.1, ih hsub.2]

end ProbeAll

end Probe
