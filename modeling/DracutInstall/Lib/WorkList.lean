/-
Workers on a shared work list.

A worker is a program that calls operations on a shared state, one at a time; an
operation may put a new item on the list.  A schedule says at each point which
item is taken next or which worker makes its next call, so that every order of
the items and every interleaving of the calls is a schedule.

The history of a run is the list of all calls with their answers.  `Account`
relates it to the workers: what one worker did is a trace of its program, the
answers are those of the calls made one after the other, and every item is one of
the first or was put there by an earlier call.
-/
import Mathlib.Data.List.Perm.Basic

namespace WorkList

/-! ## Programs and their traces -/

inductive Prog (Op : Type) (Res : Op → Type) (α : Type) where
  | done (a : α)
  | call (op : Op) (next : Res op → Prog Op Res α)

variable {Op : Type} {Res : Op → Type} {α β : Type}

def Prog.bind : Prog Op Res α → (α → Prog Op Res β) → Prog Op Res β
  | .done a, f => f a
  | .call op next, f => .call op fun r => (next r).bind f

instance : Monad (Prog Op Res) where
  pure := .done
  bind := Prog.bind

/-- A single call. -/
def Prog.op (op : Op) : Prog Op Res (Res op) := .call op .done

structure Event (Op : Type) (Res : Op → Type) where
  op : Op
  res : Res op

/-- The calls a program makes on the way to what is left of it. -/
inductive Trace : Prog Op Res α → List (Event Op Res) → Prog Op Res α → Prop
  | nil (p : Prog Op Res α) : Trace p [] p
  | cons (op : Op) (next : Res op → Prog Op Res α) (r : Res op) {es : List (Event Op Res)}
      {q : Prog Op Res α} : Trace (next r) es q → Trace (.call op next) (⟨op, r⟩ :: es) q

/-- A program that has run to its end. -/
def Runs (p : Prog Op Res α) (es : List (Event Op Res)) (a : α) : Prop := Trace p es (.done a)

theorem Trace.snoc {p : Prog Op Res α} {es : List (Event Op Res)} {op : Op}
    {next : Res op → Prog Op Res α} (h : Trace p es (.call op next)) (r : Res op) :
    Trace p (es ++ [⟨op, r⟩]) (next r) := by
  generalize hq : Prog.call op next = q at h
  induction h with
  | nil p =>
      subst hq
      exact .cons op next r (.nil _)
  | cons op' next' r' _ ih => exact .cons op' next' r' (ih hq)

theorem Trace.append {p q r : Prog Op Res α} {es es' : List (Event Op Res)} (h : Trace p es q)
    (h' : Trace q es' r) : Trace p (es ++ es') r := by
  induction h with
  | nil p => exact h'
  | cons op next a _ ih => exact .cons op next a (ih h')

/-- A program comes to an end whatever it is answered. -/
theorem Prog.exists_runs [∀ op, Nonempty (Res op)] (p : Prog Op Res α) :
    ∃ es a, Runs p es a := by
  induction p with
  | done a => exact ⟨[], a, .nil _⟩
  | call op next ih =>
      obtain ⟨r⟩ := (inferInstance : Nonempty (Res op))
      obtain ⟨es, a, h⟩ := ih r
      exact ⟨⟨op, r⟩ :: es, a, .cons op next r h⟩

/-- What a program has done is the start of what it does in all. -/
theorem Trace.exists_runs [∀ op, Nonempty (Res op)] {p q : Prog Op Res α}
    {es : List (Event Op Res)} (h : Trace p es q) : ∃ es' a, Runs p (es ++ es') a := by
  obtain ⟨es', a, hq⟩ := q.exists_runs
  exact ⟨es', a, h.append hq⟩

theorem runs_done {a b : α} {es : List (Event Op Res)} :
    Runs (.done a : Prog Op Res α) es b ↔ es = [] ∧ b = a := by
  constructor
  · intro h
    cases h
    exact ⟨rfl, rfl⟩
  · rintro ⟨rfl, rfl⟩
    exact .nil _

theorem runs_pure {a b : α} {es : List (Event Op Res)} :
    Runs (pure a : Prog Op Res α) es b ↔ es = [] ∧ b = a := runs_done

theorem runs_call {op : Op} {next : Res op → Prog Op Res α} {es : List (Event Op Res)} {b : α} :
    Runs (.call op next) es b ↔ ∃ r es', es = ⟨op, r⟩ :: es' ∧ Runs (next r) es' b := by
  constructor
  · intro h
    cases h with
    | cons _ _ r h => exact ⟨r, _, rfl, h⟩
  · rintro ⟨r, es', rfl, h⟩
    exact .cons op next r h

theorem runs_bind {p : Prog Op Res α} {f : α → Prog Op Res β} {es : List (Event Op Res)} {b : β} :
    Runs (p >>= f) es b ↔ ∃ a es₁ es₂, es = es₁ ++ es₂ ∧ Runs p es₁ a ∧ Runs (f a) es₂ b := by
  show Runs (p.bind f) es b ↔ _
  induction p generalizing es with
  | done a =>
      constructor
      · intro h
        exact ⟨a, [], es, rfl, .nil _, h⟩
      · rintro ⟨a', es₁, es₂, rfl, ha, h⟩
        obtain ⟨rfl, rfl⟩ := runs_done.mp ha
        exact h
  | call op next ih =>
      rw [Prog.bind, runs_call]
      constructor
      · rintro ⟨r, es', rfl, h⟩
        obtain ⟨a, es₁, es₂, rfl, ha, hb⟩ := (ih r).mp h
        exact ⟨a, ⟨op, r⟩ :: es₁, es₂, rfl, runs_call.mpr ⟨r, es₁, rfl, ha⟩, hb⟩
      · rintro ⟨a, es₁, es₂, rfl, hcall, hb⟩
        obtain ⟨r, es', rfl, ha⟩ := runs_call.mp hcall
        exact ⟨r, es' ++ es₂, rfl, (ih r).mpr ⟨a, es', es₂, rfl, ha, hb⟩⟩

theorem runs_op {op : Op} {es : List (Event Op Res)} {r : Res op} :
    Runs (Prog.op op) es r ↔ es = [⟨op, r⟩] := by
  rw [Prog.op, runs_call]
  constructor
  · rintro ⟨r', es', rfl, h⟩
    obtain ⟨rfl, rfl⟩ := runs_done.mp h
    rfl
  · rintro rfl
    exact ⟨r, [], rfl, .nil _⟩

/-! ## Runs of a system -/

/-- `Hint` is what may differ between two workers on the same item. -/
structure System (Op : Type) (Res : Op → Type) (Item Hint Out Shared : Type) where
  work : Hint → Item → Prog Op Res Out
  exec : (op : Op) → Shared → Res op × Shared
  enqueues : Op → Option Item

variable {Item Hint Out Shared : Type}

structure Worker (Op : Type) (Res : Op → Type) (Item Hint Out : Type) where
  hint : Hint
  item : Item
  log : List (Event Op Res)
  prog : Prog Op Res Out

/-- A call of a run: the item its worker is at, the operation and the answer. -/
structure Entry (Op : Type) (Res : Op → Type) (Item : Type) where
  item : Item
  event : Event Op Res

structure State (Op : Type) (Res : Op → Type) (Item Hint Out Shared : Type) where
  shared : Shared
  queue : List Item
  workers : List (Worker Op Res Item Hint Out)
  history : List (Entry Op Res Item)

/-- Nothing has been taken yet. -/
def State.start (shared : Shared) (queue : List Item) : State Op Res Item Hint Out Shared :=
  { shared, queue, workers := [], history := [] }

inductive Choice (Hint : Type) where
  | take (i : Nat) (hint : Hint)
  | run (j : Nat)

/-- A choice for workers that all have one hint. -/
def Choice.withHint (hint : Hint) : Choice Unit → Choice Hint
  | .take i _ => .take i hint
  | .run j => .run j

theorem Choice.hint_of_mem {hint hint' : Hint} {i : Nat} {plan : List (Choice Unit)}
    (h : Choice.take i hint' ∈ plan.map (Choice.withHint hint)) : hint' = hint := by
  obtain ⟨c, _, hc⟩ := List.mem_map.mp h
  cases c with
  | take j u => exact (Choice.take.inj hc).2.symm
  | run j => cases hc

variable (sys : System Op Res Item Hint Out Shared)

/-- The state after a worker's next call. -/
def State.called (s : State Op Res Item Hint Out Shared) (j : Nat)
    (w : Worker Op Res Item Hint Out) (op : Op) (next : Res op → Prog Op Res Out) :
    State Op Res Item Hint Out Shared :=
  let r := (sys.exec op s.shared).1
  { shared := (sys.exec op s.shared).2
    queue := s.queue ++ (sys.enqueues op).toList
    workers := s.workers.set j { w with log := w.log ++ [⟨op, r⟩], prog := next r }
    history := s.history ++ [⟨w.item, ⟨op, r⟩⟩] }

def step (s : State Op Res Item Hint Out Shared) :
    Choice Hint → Option (State Op Res Item Hint Out Shared)
  | .take i hint =>
      match s.queue[i]? with
      | none => none
      | some item => some { s with
          queue := s.queue.eraseIdx i
          workers := s.workers ++ [⟨hint, item, [], sys.work hint item⟩] }
  | .run j =>
      match s.workers[j]? with
      | none => none
      | some w =>
          match w.prog with
          | .done _ => none
          | .call op next => some (s.called sys j w op next)

def run : State Op Res Item Hint Out Shared → List (Choice Hint) →
    Option (State Op Res Item Hint Out Shared)
  | s, [] => some s
  | s, c :: cs =>
      match step sys s c with
      | none => none
      | some s => run s cs

/-- Everything was taken and every worker is at its end. -/
structure State.Complete (s : State Op Res Item Hint Out Shared) : Prop where
  queue : s.queue = []
  workers : ∀ w ∈ s.workers, ∃ a, w.prog = .done a

/-- Each call of the run meets a condition on the shared state it is made in. -/
def Meets (cond : Shared → Item → Op → Prop) :
    State Op Res Item Hint Out Shared → List (Choice Hint) → Prop
  | _, [] => True
  | s, c :: cs =>
      (∀ j w op next, c = .run j → s.workers[j]? = some w → w.prog = .call op next →
        cond s.shared w.item op) ∧
      ∀ t, step sys s c = some t → Meets cond t cs

instance decidableMeets (cond : Shared → Item → Op → Prop)
    [∀ shared item op, Decidable (cond shared item op)] :
    ∀ (s : State Op Res Item Hint Out Shared) (cs : List (Choice Hint)),
      Decidable (Meets sys cond s cs)
  | _, [] => isTrue trivial
  | s, c :: cs =>
      have now : Decidable (∀ j w op next, c = .run j → s.workers[j]? = some w →
          w.prog = .call op next → cond s.shared w.item op) :=
        match c with
        | .take _ _ => isTrue (fun _ _ _ _ h => nomatch h)
        | .run j =>
            match hj : s.workers[j]? with
            | none => isTrue (by rintro _ w _ _ ⟨⟩ hw; simp [hj] at hw)
            | some w =>
                match hp : w.prog with
                | .done a => isTrue (by rintro _ w' _ _ ⟨⟩ hw hcall; simp_all)
                | .call op next =>
                    decidable_of_iff (cond s.shared w.item op) (by
                      constructor
                      · rintro h _ w' _ _ ⟨⟩ hw hcall
                        simp_all
                      · intro h
                        exact h j w op next rfl hj hp)
      have later : Decidable (∀ t, step sys s c = some t → Meets sys cond t cs) :=
        match ht : step sys s c with
        | none => isTrue (fun _ h => nomatch h)
        | some t =>
            @decidable_of_iff _ (Meets sys cond t cs) (by simp) (decidableMeets cond t cs)
      @instDecidableAnd _ _ now later

variable {sys}

/-- What one choice can do. -/
theorem step_cases {s t : State Op Res Item Hint Out Shared} {c : Choice Hint}
    (h : step sys s c = some t) :
    (∃ i hint item, c = .take i hint ∧ s.queue[i]? = some item ∧
      t = { s with
        queue := s.queue.eraseIdx i
        workers := s.workers ++ [⟨hint, item, [], sys.work hint item⟩] }) ∨
    (∃ j w op next, c = .run j ∧ s.workers[j]? = some w ∧ w.prog = .call op next ∧
      t = s.called sys j w op next) := by
  cases c with
  | take i hint =>
      left
      cases hi : s.queue[i]? with
      | none => simp [step, hi] at h
      | some item =>
          simp only [step, hi, Option.some.injEq] at h
          exact ⟨i, hint, item, rfl, hi, h.symm⟩
  | run j =>
      right
      cases hj : s.workers[j]? with
      | none => simp [step, hj] at h
      | some w =>
          cases hp : w.prog with
          | done a => simp [step, hj, hp] at h
          | call op next =>
              simp only [step, hj, hp, Option.some.injEq] at h
              exact ⟨j, w, op, next, rfl, hj, hp, h.symm⟩

/-- The calls of a history made one after the other, each in a state that meets
the condition and with the answer it has there. -/
inductive Replay (sys : System Op Res Item Hint Out Shared)
    (cond : Shared → Item → Op → Prop) (shared₀ : Shared) :
    List (Entry Op Res Item) → Shared → Prop
  | nil : Replay sys cond shared₀ [] shared₀
  | snoc {hs : List (Entry Op Res Item)} {shared : Shared} (item : Item) (op : Op) :
      Replay sys cond shared₀ hs shared → cond shared item op →
      Replay sys cond shared₀ (hs ++ [⟨item, ⟨op, (sys.exec op shared).1⟩⟩])
        (sys.exec op shared).2

/-- The state in which a call of a history was made, and its answer there. -/
theorem Replay.split {cond : Shared → Item → Op → Prop} {shared₀ shared : Shared}
    {before after : List (Entry Op Res Item)} {e : Entry Op Res Item}
    (h : Replay sys cond shared₀ (before ++ e :: after) shared) :
    ∃ sh, Replay sys cond shared₀ before sh ∧ e.event.res = (sys.exec e.event.op sh).1 := by
  generalize heq : before ++ e :: after = hs at h
  induction h generalizing after with
  | nil => simp at heq
  | @snoc hs sh item op hrec hcond ih =>
      rcases List.eq_nil_or_concat after with rfl | ⟨after', x, rfl⟩
      · obtain ⟨rfl, he⟩ := List.append_inj' heq rfl
        obtain rfl := List.singleton_inj.mp he
        exact ⟨sh, hrec, rfl⟩
      · rw [List.concat_eq_append, ← List.cons_append, ← List.append_assoc] at heq
        exact ih (List.append_inj' heq rfl).1

/-- The items a history put on the list. -/
def enqueued (sys : System Op Res Item Hint Out Shared) (hs : List (Entry Op Res Item)) :
    List Item := hs.filterMap fun e => sys.enqueues e.event.op

/-- A worker's calls as they stand in the history. -/
def Worker.entries (w : Worker Op Res Item Hint Out) : List (Entry Op Res Item) :=
  w.log.map fun ev => ⟨w.item, ev⟩

structure Account (sys : System Op Res Item Hint Out Shared)
    (cond : Shared → Item → Op → Prop) (shared₀ : Shared) (queue₀ : List Item)
    (s : State Op Res Item Hint Out Shared) : Prop where
  replay : Replay sys cond shared₀ s.history s.shared
  traces : ∀ w ∈ s.workers, Trace (sys.work w.hint w.item) w.log w.prog
  items : (s.queue ++ s.workers.map Worker.item).Perm (queue₀ ++ enqueued sys s.history)
  entries : s.history.Perm (s.workers.flatMap Worker.entries)
  causal : ∀ hs e hs', s.history = hs ++ e :: hs' → e.item ∈ queue₀ ++ enqueued sys hs

section Steps

variable {cond : Shared → Item → Op → Prop} {shared₀ : Shared} {queue₀ : List Item}

theorem Account.start : Account sys cond shared₀ queue₀ (State.start shared₀ queue₀) where
  replay := .nil
  traces := fun w hw => by cases hw
  items := List.Perm.refl _
  entries := List.Perm.refl _
  causal := fun hs e hs' h => by simp [State.start] at h

theorem Account.take {s : State Op Res Item Hint Out Shared}
    (h : Account sys cond shared₀ queue₀ s) {i : Nat} {item : Item} (hint : Hint)
    (hi : s.queue[i]? = some item) :
    Account sys cond shared₀ queue₀ { s with
      queue := s.queue.eraseIdx i
      workers := s.workers ++ [⟨hint, item, [], sys.work hint item⟩] } where
  replay := h.replay
  traces := by
    intro w hw
    rcases List.mem_append.mp hw with hw | hw
    · exact h.traces w hw
    · rw [List.mem_singleton.mp hw]
      exact .nil _
  items := by
    refine List.Perm.trans ?_ h.items
    rw [List.map_append, ← List.append_assoc]
    refine (List.perm_append_singleton item _).trans ?_
    rw [← List.cons_append]
    refine List.Perm.append_right _ ?_
    obtain ⟨hlt, rfl⟩ := List.getElem?_eq_some_iff.mp hi
    exact (List.getElem_cons_eraseIdx_perm hlt)
  entries := by
    rw [List.flatMap_append, List.flatMap_cons, List.flatMap_nil]
    exact h.entries.trans (List.Perm.of_eq (by simp [Worker.entries]))
  causal := h.causal

/-- One list of a family grows by an element. -/
theorem flatMap_set_perm {α β : Type} {f : α → List β} {l : List α} {i : Nat} {a a' : α} {b : β}
    (hi : l[i]? = some a) (hf : f a' = f a ++ [b]) :
    ((l.set i a').flatMap f).Perm (l.flatMap f ++ [b]) := by
  induction l generalizing i with
  | nil => cases hi
  | cons x l ih =>
      cases i with
      | zero =>
          have hx : x = a := by simpa using hi
          rw [List.set_cons_zero, List.flatMap_cons, List.flatMap_cons, hf, hx,
            List.append_assoc, List.append_assoc]
          exact List.Perm.append_left _ List.perm_append_comm
      | succ i =>
          rw [List.set_cons_succ, List.flatMap_cons, List.flatMap_cons, List.append_assoc]
          exact List.Perm.append_left _ (ih (by simpa using hi))

/-- The workers after a call: the others, and the one that made it. -/
theorem State.mem_called {s : State Op Res Item Hint Out Shared} {j : Nat}
    {w v : Worker Op Res Item Hint Out} {op : Op} {next : Res op → Prog Op Res Out}
    (hv : v ∈ (s.called sys j w op next).workers) :
    v ∈ s.workers ∨ v = { w with
      log := w.log ++ [⟨op, (sys.exec op s.shared).1⟩]
      prog := next (sys.exec op s.shared).1 } := List.mem_or_eq_of_mem_set hv

theorem Account.called {s : State Op Res Item Hint Out Shared}
    (h : Account sys cond shared₀ queue₀ s) {j : Nat} {w : Worker Op Res Item Hint Out} {op : Op}
    {next : Res op → Prog Op Res Out} (hj : s.workers[j]? = some w) (hp : w.prog = .call op next)
    (hcond : cond s.shared w.item op) :
    Account sys cond shared₀ queue₀ (s.called sys j w op next) := by
  obtain ⟨hlt, hget⟩ := List.getElem?_eq_some_iff.mp hj
  have hw : w ∈ s.workers := hget ▸ List.getElem_mem hlt
  have hmap : (s.called sys j w op next).workers.map Worker.item = s.workers.map Worker.item := by
    show (s.workers.set j _).map Worker.item = _
    rw [List.map_set]
    refine List.ext_getElem? fun i => ?_
    rw [List.getElem?_set]
    split
    · rename_i hij
      rw [← hij, List.getElem?_map, hj, if_pos (by simpa using hlt)]
      rfl
    · rfl
  have henq : enqueued sys (s.called sys j w op next).history =
      enqueued sys s.history ++ (sys.enqueues op).toList := by
    show List.filterMap _ (s.history ++ [_]) = _
    rw [List.filterMap_append, enqueued]
    cases hop : sys.enqueues op <;> simp [hop]
  refine ⟨.snoc w.item op h.replay hcond, ?_, ?_, ?_, ?_⟩
  · intro v hv
    rcases State.mem_called hv with hv | rfl
    · exact h.traces v hv
    · have htrace := h.traces w hw
      rw [hp] at htrace
      exact htrace.snoc _
  · rw [hmap, henq, ← List.append_assoc]
    refine List.Perm.trans ?_ (List.Perm.append_right _ h.items)
    show (s.queue ++ (sys.enqueues op).toList ++ _).Perm _
    rw [List.append_assoc, List.append_assoc]
    exact List.Perm.append_left _ List.perm_append_comm
  · refine (List.Perm.append_right _ h.entries).trans (List.Perm.symm ?_)
    refine flatMap_set_perm hj ?_
    rw [Worker.entries, List.map_append]
    rfl
  · intro hs e hs' heq
    rcases List.eq_nil_or_concat hs' with rfl | ⟨hs'', x, rfl⟩
    · obtain ⟨rfl, he⟩ := List.append_inj' heq rfl
      have hitem : e.item = w.item := by
        rw [← List.singleton_inj.mp he]
      have hmem : w.item ∈ s.queue ++ s.workers.map Worker.item :=
        List.mem_append_right _ (List.mem_map_of_mem hw)
      rw [hitem]
      exact h.items.mem_iff.mp hmem
    · rw [List.concat_eq_append, ← List.cons_append, ← List.append_assoc] at heq
      obtain ⟨hsame, _⟩ := List.append_inj' heq rfl
      exact h.causal hs e hs'' hsame

theorem Account.step {s t : State Op Res Item Hint Out Shared} {c : Choice Hint}
    (h : Account sys cond shared₀ queue₀ s)
    (hcond : ∀ j w op next, c = .run j → s.workers[j]? = some w → w.prog = .call op next →
      cond s.shared w.item op)
    (ht : step sys s c = some t) : Account sys cond shared₀ queue₀ t := by
  rcases step_cases ht with ⟨i, hint, item, _, hi, rfl⟩ | ⟨j, w, op, next, hc, hj, hp, rfl⟩
  · exact h.take hint hi
  · exact h.called hj hp (hcond j w op next hc hj hp)

/-- The account of a whole run. -/
theorem Account.run {s t : State Op Res Item Hint Out Shared} {cs : List (Choice Hint)}
    (h : Account sys cond shared₀ queue₀ s) (hcond : Meets sys cond s cs)
    (ht : run sys s cs = some t) : Account sys cond shared₀ queue₀ t := by
  induction cs generalizing s with
  | nil =>
      cases ht
      exact h
  | cons c cs ih =>
      rw [WorkList.run] at ht
      cases hstep : WorkList.step sys s c with
      | none => simp [hstep] at ht
      | some s' =>
          rw [hstep] at ht
          exact ih (h.step hcond.1 hstep) (hcond.2 s' hstep) ht

/-- The condition on no call at all. -/
theorem meets_true (s : State Op Res Item Hint Out Shared) (cs : List (Choice Hint)) :
    Meets sys (fun _ _ _ => True) s cs := by
  induction cs generalizing s with
  | nil => trivial
  | cons c cs ih => exact ⟨fun _ _ _ _ _ _ _ => trivial, fun t _ => ih t⟩

/-- The hints of the workers are those of the schedule. -/
theorem run_hints {p : Hint → Prop} {s t : State Op Res Item Hint Out Shared}
    {cs : List (Choice Hint)} (hs : ∀ w ∈ s.workers, p w.hint)
    (hcs : ∀ i hint, Choice.take i hint ∈ cs → p hint) (ht : run sys s cs = some t) :
    ∀ w ∈ t.workers, p w.hint := by
  induction cs generalizing s with
  | nil =>
      cases ht
      exact hs
  | cons c cs ih =>
      rw [run] at ht
      cases hstep : WorkList.step sys s c with
      | none => simp [hstep] at ht
      | some s' =>
          rw [hstep] at ht
          refine ih ?_ (fun i hint hmem => hcs i hint (List.mem_cons_of_mem _ hmem)) ht
          intro v hv
          rcases step_cases hstep with ⟨i, hint, item, rfl, _, rfl⟩ | ⟨j, w, op, next, _, hj, _, rfl⟩
          · rcases List.mem_append.mp hv with hv | hv
            · exact hs v hv
            · rw [List.mem_singleton.mp hv]
              exact hcs i hint List.mem_cons_self
          · rcases State.mem_called hv with hv | rfl
            · exact hs v hv
            · exact hs w (List.mem_of_getElem? hj)

/-- Every call of the history was made by a worker. -/
theorem Account.logged {s : State Op Res Item Hint Out Shared}
    (h : Account sys cond shared₀ queue₀ s) {e : Entry Op Res Item} (he : e ∈ s.history) :
    ∃ w ∈ s.workers, w.item = e.item ∧ e.event ∈ w.log := by
  obtain ⟨w, hw, he⟩ := List.mem_flatMap.mp (h.entries.mem_iff.mp he)
  obtain ⟨ev, hev, rfl⟩ := List.mem_map.mp he
  exact ⟨w, hw, rfl, hev⟩

theorem Account.recorded {s : State Op Res Item Hint Out Shared}
    (h : Account sys cond shared₀ queue₀ s) {w : Worker Op Res Item Hint Out}
    (hw : w ∈ s.workers) {ev : Event Op Res} (hev : ev ∈ w.log) : ⟨w.item, ev⟩ ∈ s.history :=
  h.entries.mem_iff.mpr (List.mem_flatMap.mpr ⟨w, hw, List.mem_map_of_mem hev⟩)

/-- In a complete run every item was taken by a worker that has run to its end. -/
theorem Account.complete {s : State Op Res Item Hint Out Shared}
    (h : Account sys cond shared₀ queue₀ s) (hc : s.Complete) :
    (s.workers.map Worker.item).Perm (queue₀ ++ enqueued sys s.history) ∧
    ∀ w ∈ s.workers, ∃ a, w.prog = .done a ∧ Runs (sys.work w.hint w.item) w.log a := by
  have hitems := h.items
  rw [hc.queue, List.nil_append] at hitems
  refine ⟨hitems, fun w hw => ?_⟩
  obtain ⟨a, ha⟩ := hc.workers w hw
  have htrace := h.traces w hw
  rw [ha] at htrace
  exact ⟨a, ha, htrace⟩

end Steps

/-! ## A worker that nobody interrupts -/

/-- What a program returns, what it puts on the list and what it leaves shared. -/
structure Ended (Item Shared α : Type) where
  result : α
  enqueued : List Item
  shared : Shared

def Prog.alone (sys : System Op Res Item Hint Out Shared) :
    Prog Op Res α → Shared → Ended Item Shared α
  | .done a, shared => ⟨a, [], shared⟩
  | .call op next, shared =>
      let rest := (next (sys.exec op shared).1).alone sys (sys.exec op shared).2
      { rest with enqueued := (sys.enqueues op).toList ++ rest.enqueued }

section Alone

variable (sys)

theorem alone_op (op : Op) (shared : Shared) :
    (Prog.op op : Prog Op Res (Res op)).alone sys shared =
      ⟨(sys.exec op shared).1, (sys.enqueues op).toList, (sys.exec op shared).2⟩ := by
  rw [Prog.op, Prog.alone, Prog.alone, List.append_nil]

theorem alone_bind (p : Prog Op Res α) (f : α → Prog Op Res β) (shared : Shared) :
    (p >>= f).alone sys shared =
      let first := p.alone sys shared
      let rest := (f first.result).alone sys first.shared
      { rest with enqueued := first.enqueued ++ rest.enqueued } := by
  show (p.bind f).alone sys shared = _
  induction p generalizing shared with
  | done a => rfl
  | call op next ih =>
      rw [Prog.bind, Prog.alone, ih]
      simp only [Prog.alone, List.append_assoc]

end Alone

end WorkList
