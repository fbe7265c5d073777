/-
A mirror whose entries are known, place by place.

`Replica S C R K`: the entries below `R` are those at the places `K`, and what a link
there leads through in `S` is in `K` as well.  So a lookup in `S` that comes to no
other places goes through below `R` as well (`forth`), with no more links; and one
that goes through below `R` comes to no other places in `S` (`known`).
-/
import Mathlib.Data.Set.Insert
import DracutInstall.Lib.Visits

namespace FileTree
namespace Tree

open UnixPath

/-- The entries below `R` are at the places `K`. -/
def Filled (C : Tree) (R : Loc) (K : Set Loc) : Prop :=
  ∀ l, l ≠ [] → (C.node (R ++ l) ≠ none ↔ l ∈ K)

structure Replica (S C : Tree) (R : Loc) (K : Set Loc) : Prop where
  mirror : Mirror S C R
  made : Filled C R K
  closed : ∀ dir name text l, dir ++ [name] ∈ K → S.node (dir ++ [name]) = some (.link text) →
    Visits S (linkBase dir text) (steps text) l → l ∈ K
  short : ∀ dir name text k y, C.node (R ++ (dir ++ [name])) = some (.link text) →
    WalksIn S k dir [.normal name] y → ∃ j ≤ k, WalksIn C j (R ++ dir) [.normal name] (R ++ y)

variable {S C C' : Tree} {R cur d l loc y : Loc} {K : Set Loc} {cs : List Component} {k : Nat}
  {name : OsString} {m n : Node}

namespace Filled

theorem alike (h : Filled C R K) (hC : Alike C C') : Filled C' R K := by
  intro l hl
  rw [← h l hl]
  constructor
  · intro hne
    obtain ⟨n, hn⟩ := Option.ne_none_iff_exists'.mp hne
    obtain ⟨n', hn', _⟩ := hC.back _ _ hn
    rw [hn']
    exact Option.some_ne_none n'
  · intro hne
    obtain ⟨n, hn⟩ := Option.ne_none_iff_exists'.mp hne
    obtain ⟨n', hn', _⟩ := hC.forth _ _ hn
    rw [hn']
    exact Option.some_ne_none n'

theorem put (h : Filled C R K) (hfits : C.fits (R ++ l) = true) :
    Filled (C.put (R ++ l) n) R (insert l K) := by
  intro l' hl'
  rw [put_node hfits, Set.mem_insert_iff]
  by_cases heq : l' = l
  · rw [if_pos (by rw [heq])]
    exact iff_of_true (Option.some_ne_none n) (.inl heq)
  · rw [if_neg fun h => heq (List.append_cancel_left h), h l' hl']
    exact ⟨.inr, fun hmem => hmem.resolve_left heq⟩

end Filled

theorem replica_empty (hdir : S.isDir R = true) (hempty : ∀ name, S.node (R ++ [name]) = none) :
    Replica S S R ∅ where
  mirror := mirror_empty hdir hempty
  made l hl := by
    rw [node_below_empty hempty hl]
    simp
  closed dir name text l hmem := absurd hmem (Set.notMem_empty _)
  short dir name text k y hn := by
    rw [node_below_empty hempty (by simp)] at hn
    cases hn

namespace Replica

theorem mem (h : Replica S C R K) (hn : C.node (R ++ (d ++ [name])) = some n) :
    d ++ [name] ∈ K := by
  apply (h.made _ (by simp)).mp
  rw [hn]
  exact Option.some_ne_none n

theorem isDir (h : Replica S C R K) (hmade : C.node (R ++ cur) ≠ none)
    (hdir : S.isDir cur = true) : C.isDir (R ++ cur) = true := by
  obtain ⟨n, hn⟩ := Option.ne_none_iff_exists'.mp hmade
  obtain ⟨m, hm, hmatch⟩ := h.mirror.entry cur n hn
  obtain ⟨mode, hS⟩ := isDir_iff.mp hdir
  obtain rfl := Option.some.inj (hS.symm.trans hm)
  have hlike := hmatch.like (by
    rw [hmatch.isLink]
    rfl)
  rw [Tree.isDir, hn]
  exact hlike.isDir

/-- A lookup below `R` comes to no place in `S` that is not there. -/
theorem known (h : Replica S C R K) (hcs : .rootDir ∉ cs) (hstays : StaysBelow S cur cs)
    (hwalk : Walks C true false (R ++ cur) cs loc) (hvisits : Visits S cur cs l) : l ∈ K := by
  induction cs generalizing cur with
  | nil => cases hvisits
  | cons c cs ih =>
      rw [List.mem_cons, not_or] at hcs
      rw [← List.singleton_append] at hwalk hstays
      obtain ⟨mid, hone, hrest⟩ := hwalk.cut
      obtain ⟨mid, rfl, hS⟩ := h.mirror.step_back (Ne.symm hcs.1) hstays.left hone
      rcases hvisits.step hS with hhere | hbehind
      · obtain ⟨name, rfl⟩ := hhere.of_one
        have hmem : cur ++ [name] ∈ K := by
          rcases hone.name_cases with ⟨_, ⟨n, hn, _⟩ | ⟨text, hn, _⟩ | ⟨_, _, hf, _⟩ | ⟨_, hm, _⟩⟩
          · rw [List.append_assoc] at hn
            exact h.mem hn
          · rw [List.append_assoc] at hn
            exact h.mem hn
          · cases hf
          · cases hm
        rcases hhere.name_cases with rfl | ⟨text, htext, hthrough⟩
        · exact hmem
        · exact h.closed _ _ _ _ hmem htext hthrough
      · exact ih hcs.2 (hstays.behind hS) hrest hbehind

/-- What is found below `R` without following the last link has been visited altogether. -/
theorem found (h : Replica S C R K) (hcs : .rootDir ∉ cs) (hstays : StaysBelow S [] cs)
    (hwalk : Walks C false false R cs loc) (hloc : C.node loc ≠ none) (hvisits : Visits S [] cs l) :
    l ∈ K := by
  obtain ⟨y, _, hC⟩ := h.mirror.found hcs hstays hwalk hloc
  rw [← List.append_nil R] at hC
  exact h.known hcs hstays hC hvisits

/-- A lookup in `S` goes through below `R` if the places it comes to are there. -/
theorem forth (h : Replica S C R K) (hcs : .rootDir ∉ cs) (hstays : StaysBelow S cur cs)
    (hwalk : WalksIn S k cur cs y) (hvisits : ∀ l, Visits S cur cs l → l ∈ K)
    (hcur : C.node (R ++ cur) ≠ none) : ∃ j ≤ k, WalksIn C j (R ++ cur) cs (R ++ y) := by
  induction cs generalizing cur k with
  | nil =>
      cases hwalk
      exact ⟨0, Nat.le_refl 0, .done _⟩
  | cons c cs ih =>
      rw [List.mem_cons, not_or] at hcs
      rw [← List.singleton_append] at hwalk hstays hvisits ⊢
      obtain ⟨a, b, mid, rfl, hone, hrest⟩ := hwalk.split
      obtain ⟨i, hi, honeC⟩ : ∃ i ≤ a, WalksIn C i (R ++ cur) [c] (R ++ mid) := by
        have hdir : C.isDir (R ++ cur) = true :=
          h.isDir hcur (hone.walks.isDir_start (List.cons_ne_nil _ _))
        cases hone with
        | rootDir => exact absurd rfl hcs.1
        | curDir _ hdone =>
            cases hdone
            exact ⟨0, Nat.le_refl 0, .curDir hdir (.done _)⟩
        | parentDir _ hdone =>
            cases hdone
            have hne : cur ≠ [] := hstays [] cs cur rfl (.done cur)
            rw [← List.dropLast_append_of_ne_nil hne]
            exact ⟨0, Nat.le_refl 0, .parentDir hdir (.done _)⟩
        | @entry _ _ name m _ _ hdirS hm hlink hdone =>
            cases hdone
            have hmem := hvisits _ (Visits.append_left (.here hm) cs)
            obtain ⟨n, hn⟩ := Option.ne_none_iff_exists'.mp ((h.made _ (by simp)).mpr hmem)
            obtain ⟨m', hm', hmatch⟩ := h.mirror.entry _ _ hn
            obtain rfl := Option.some.inj (hm.symm.trans hm')
            rw [← List.append_assoc] at hn ⊢
            exact ⟨0, Nat.le_refl 0, .entry hdir hn (hmatch.isLink.trans hlink) (.done _)⟩
        | @link k _ name text _ _ hdirS hm hgo =>
            have hmem := hvisits _ (Visits.append_left (.here hm) cs)
            obtain ⟨n, hn⟩ := Option.ne_none_iff_exists'.mp ((h.made _ (by simp)).mpr hmem)
            obtain ⟨m', hm', hmatch⟩ := h.mirror.entry _ _ hn
            obtain rfl := Option.some.inj (hm.symm.trans hm')
            cases n with
            | link text' => exact h.short _ _ _ _ _ hn (.link hdirS hm hgo)
            | dir mode => cases hmatch.isLink
            | file mode content => cases hmatch.isLink
            | special mode => cases hmatch.isLink
      have hmid : C.node (R ++ mid) ≠ none := by
        obtain ⟨n, hn, _⟩ := honeC.walks.ends (honeC.walks.isDir_start (List.cons_ne_nil _ _))
        rw [hn]
        exact Option.some_ne_none n
      obtain ⟨j, hj, hrestC⟩ := ih hcs.2 (hstays.behind hone.walks) hrest
        (fun l hl => hvisits l (.behind hone.walks hl)) hmid
      exact ⟨i + j, by omega, honeC.append hrestC⟩

/-- Modes do not matter. -/
theorem alike (h : Replica S C R K) (hC : Alike C C') : Replica S C' R K where
  mirror := h.mirror.alike hC
  made := h.made.alike hC
  closed := h.closed
  short dir name text k y hn hwalk := by
    obtain ⟨n', hn', hlike⟩ := hC.back _ _ hn
    obtain rfl := hlike.link
    obtain ⟨j, hj, hwalkC⟩ := h.short dir name text k y hn' hwalk
    exact ⟨j, hj, hwalkC.keepsKinds hC.forth.keepsKinds⟩

/-- One more entry, or one like it in its place.  What a link leads through is there, and
it leads where it should through no more links. -/
theorem put (h : Replica S C R K) (hfits : C.fits (R ++ (d ++ [name])) = true)
    (hm : S.node (d ++ [name]) = some m) (hmatch : m.Matches n)
    (hold : ∀ n', C.node (R ++ (d ++ [name])) = some n' → n'.Like n)
    (hclosed : ∀ text l, m = .link text → Visits S (linkBase d text) (steps text) l → l ∈ K)
    (hleads : n.isLink = true → ∃ k y, WalksIn S k d [.normal name] y)
    (hlink : ∀ k y, n.isLink = true → WalksIn S k d [.normal name] y →
      ∃ j ≤ k, WalksIn (C.put (R ++ (d ++ [name])) n) j (R ++ d) [.normal name] (R ++ y)) :
    Replica S (C.put (R ++ (d ++ [name])) n) R (insert (d ++ [name]) K) where
  mirror := by
    refine h.mirror.put hfits hm hmatch hold fun dir name' text heq hn => ?_
    obtain ⟨rfl, hname⟩ := List.append_inj' heq rfl
    obtain rfl := List.singleton_inj.mp hname
    have hislink : n.isLink = true := by
      rw [hn]
      rfl
    obtain ⟨k, y, hwalk⟩ := hleads hislink
    obtain ⟨j, _, hwalkC⟩ := hlink k y hislink hwalk
    exact ⟨y, hwalk.walks, hwalkC.walks⟩
  made := h.made.put hfits
  closed dir name' text l hmem htext hvisits := by
    rcases Set.mem_insert_iff.mp hmem with heq | hmem
    · obtain ⟨rfl, hname⟩ := List.append_inj' heq rfl
      obtain rfl := List.singleton_inj.mp hname
      exact Set.mem_insert_of_mem _ (hclosed text l (Option.some.inj (hm.symm.trans htext)) hvisits)
    · exact Set.mem_insert_of_mem _ (h.closed dir name' text l hmem htext hvisits)
  short dir name' text k y hn hwalk := by
    rw [put_node hfits] at hn
    split at hn
    · rename_i heq
      obtain ⟨rfl, hname⟩ := List.append_inj' (List.append_cancel_left heq) rfl
      obtain rfl := List.singleton_inj.mp hname
      refine hlink k y ?_ hwalk
      rw [Option.some.inj hn]
      rfl
    · obtain ⟨j, hj, hwalkC⟩ := h.short dir name' text k y hn hwalk
      exact ⟨j, hj, hwalkC.keepsKinds (put_extends hold).keepsKinds⟩

end Replica

end Tree
end FileTree
