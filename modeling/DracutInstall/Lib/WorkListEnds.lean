/-
Schedules of a work list come to an end.

A program is a tree of calls without an endless branch, so the programs of the
workers are a multiset in which a call puts what is left of a program in the place
of the program.  Taking an item adds a worker; where the number of workers is
bounded, that happens only so often.  No bound on the answers of a call is asked
for, and there need be none on the length of the schedules.
-/
import Mathlib.Logic.Hydra
import DracutInstall.Lib.WorkList

namespace WorkList

open Relation

variable {Op : Type} {Res : Op → Type} {α Item Hint Out Shared : Type}
  {sys : System Op Res Item Hint Out Shared}

/-! ## The order on programs and states -/

/-- What can be left of a program after its next call. -/
inductive Prog.Left : Prog Op Res α → Prog Op Res α → Prop
  | call (op : Op) (next : Res op → Prog Op Res α) (r : Res op) : Left (next r) (.call op next)

theorem Prog.left_wellFounded : WellFounded (@Prog.Left Op Res α) := by
  refine ⟨fun p => ?_⟩
  induction p with
  | done a => exact ⟨_, fun q h => nomatch h⟩
  | call op next ih =>
      apply Acc.intro
      intro q h
      cases h with
      | call _ _ r => exact ih r

/-- The programs of the workers. -/
def State.programs (s : State Op Res Item Hint Out Shared) : Multiset (Prog Op Res Out) :=
  (s.workers.map Worker.prog : List (Prog Op Res Out))

/-- How many workers there can still be, and what the present ones have left. -/
def State.rest (bound : Nat) (s : State Op Res Item Hint Out Shared) :
    Nat × Multiset (Prog Op Res Out) :=
  (bound - s.workers.length, s.programs)

/-- The rest is less. -/
def RestLt (bound : Nat) (t s : State Op Res Item Hint Out Shared) : Prop :=
  Prod.Lex (· < ·) (CutExpand Prog.Left) (t.rest bound) (s.rest bound)

theorem restLt_wellFounded (bound : Nat) :
    WellFounded (@RestLt Op Res Item Hint Out Shared bound) :=
  InvImage.wf (State.rest bound) (WellFounded.prod_lex wellFounded_lt Prog.left_wellFounded.cutExpand)

/-- One element of a list is replaced. -/
theorem coe_set_add {β : Type} {l : List β} {i : Nat} {b : β} (hi : l[i]? = some b) (b' : β) :
    ((l.set i b' : List β) : Multiset β) + {b} = (l : Multiset β) + {b'} := by
  induction l generalizing i with
  | nil => cases hi
  | cons a l ih =>
      cases i with
      | zero =>
          have ha : a = b := by simpa using hi
          show ((b' :: l : List β) : Multiset β) + {b} = ((a :: l : List β) : Multiset β) + {b'}
          rw [ha, ← Multiset.cons_coe, ← Multiset.cons_coe, ← Multiset.singleton_add,
            ← Multiset.singleton_add]
          ac_rfl
      | succ i =>
          show ((a :: l.set i b' : List β) : Multiset β) + {b} = ((a :: l : List β) : Multiset β) + {b'}
          rw [← Multiset.cons_coe, ← Multiset.cons_coe, Multiset.cons_add, Multiset.cons_add,
            ih (by simpa using hi)]

/-- A step leaves less to do. -/
theorem step_restLt {bound : Nat} {s t : State Op Res Item Hint Out Shared} {c : Choice Hint}
    (h : step sys s c = some t) (hbound : t.workers.length ≤ bound) : RestLt bound t s := by
  rcases step_cases h with ⟨i, hint, item, _, _, rfl⟩ | ⟨j, w, op, next, _, hj, hp, rfl⟩
  · apply Prod.Lex.left
    rw [List.length_append, List.length_singleton] at hbound
    show bound - (s.workers ++ [_]).length < bound - s.workers.length
    rw [List.length_append, List.length_singleton]
    omega
  · have hlength : (s.called sys j w op next).workers.length = s.workers.length := by
      show (s.workers.set j _).length = _
      rw [List.length_set]
    have hcut : CutExpand Prog.Left (s.called sys j w op next).programs s.programs := by
      refine ⟨{next (sys.exec op s.shared).1}, w.prog, ?_, ?_⟩
      · intro q hq
        rw [Multiset.mem_singleton.mp hq, hp]
        exact .call op next _
      · show Multiset.ofList ((s.workers.set j _).map Worker.prog) + _ = _
        rw [List.map_set]
        apply coe_set_add
        rw [List.getElem?_map, hj]
        rfl
    rw [RestLt, State.rest, State.rest, hlength]
    exact Prod.Lex.right _ hcut

/-! ## Runs -/

theorem run_append (s : State Op Res Item Hint Out Shared) (cs ds : List (Choice Hint)) :
    run sys s (cs ++ ds) = (run sys s cs).bind fun t => run sys t ds := by
  induction cs generalizing s with
  | nil => rfl
  | cons c cs ih =>
      rw [List.cons_append, run, run]
      cases step sys s c with
      | none => rfl
      | some s' => exact ih s'

/-- No run from the state has more workers. -/
def Bounded (sys : System Op Res Item Hint Out Shared) (bound : Nat)
    (s : State Op Res Item Hint Out Shared) : Prop :=
  ∀ cs t, run sys s cs = some t → t.workers.length ≤ bound

theorem Bounded.run {bound : Nat} {s t : State Op Res Item Hint Out Shared}
    (h : Bounded sys bound s) {cs : List (Choice Hint)} (hrun : WorkList.run sys s cs = some t) :
    Bounded sys bound t := by
  intro ds u hu
  apply h (cs ++ ds) u
  rw [run_append, hrun]
  exact hu

theorem run_singleton {s t : State Op Res Item Hint Out Shared} {c : Choice Hint}
    (h : step sys s c = some t) : run sys s [c] = some t := by
  rw [run, h]
  rfl

/-- No endless sequence of choices is a schedule. -/
theorem Bounded.ends {bound : Nat} {s : State Op Res Item Hint Out Shared}
    (h : Bounded sys bound s) (choices : Nat → Choice Hint) :
    ∃ n, WorkList.run sys s ((List.range n).map choices) = none := by
  by_contra hall
  have hstates : ∀ n, ∃ t, WorkList.run sys s ((List.range n).map choices) = some t :=
    fun n => Option.ne_none_iff_exists'.mp fun hnone => hall ⟨n, hnone⟩
  choose states hstates using hstates
  apply (wellFounded_iff_isEmpty_descending_chain.mp (restLt_wellFounded bound)).false
  refine ⟨states, fun n => ?_⟩
  have hrun := hstates (n + 1)
  rw [List.range_succ, List.map_append, List.map_cons, List.map_nil, run_append, hstates n,
    Option.bind_some, WorkList.run] at hrun
  cases hstep : step sys (states n) (choices n) with
  | none =>
      rw [hstep] at hrun
      cases hrun
  | some t =>
      rw [hstep] at hrun
      obtain rfl : t = states (n + 1) := Option.some.inj hrun
      exact step_restLt hstep (h _ _ (hstates (n + 1)))

/-- As long as the run is not complete, some choice can be made. -/
theorem exists_step {s : State Op Res Item Hint Out Shared} (hint : Hint) (h : ¬ s.Complete) :
    ∃ c t, step sys s c = some t := by
  by_contra hstuck
  apply h
  constructor
  · cases hqueue : s.queue with
    | nil => rfl
    | cons item queue =>
        refine absurd ⟨.take 0 hint, ?_⟩ hstuck
        rw [step, hqueue]
        exact ⟨_, rfl⟩
  · intro w hw
    obtain ⟨j, hj⟩ := List.mem_iff_getElem?.mp hw
    cases hp : w.prog with
    | done a => exact ⟨a, rfl⟩
    | call op next =>
        refine absurd ⟨.run j, s.called sys j w op next, ?_⟩ hstuck
        rw [step, hj]
        dsimp only
        rw [hp]

/-- Every run can be brought to its end, with any hint. -/
theorem Bounded.completes {bound : Nat} {s : State Op Res Item Hint Out Shared}
    (h : Bounded sys bound s) (hint : Hint) :
    ∃ cs t, WorkList.run sys s cs = some t ∧ t.Complete := by
  induction s using (restLt_wellFounded bound).induction with
  | h s ih =>
      by_cases hc : s.Complete
      · exact ⟨[], s, rfl, hc⟩
      · obtain ⟨c, t, hstep⟩ : ∃ c t, step sys s c = some t := exists_step hint hc
        have hrun := run_singleton hstep
        obtain ⟨cs, u, hu, hcomplete⟩ := ih t (step_restLt hstep (h _ _ hrun)) (h.run hrun)
        refine ⟨c :: cs, u, ?_, hcomplete⟩
        rw [WorkList.run, hstep]
        exact hu

end WorkList
