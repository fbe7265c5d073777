/-
A part of a tree as a tree of its own.

`below` is what a process sees that has a directory as its root.  A lookup that starts
below the directory stays there when no `..` is looked up at the root of the mirrored
tree, neither by the path nor by the links on its way; then it is a lookup of the tree
below as well.
-/
import DracutInstall.Lib.TreeMirror

namespace FileTree
namespace Tree

open UnixPath

/-- The entries below a directory, with the directory as their root. -/
def below (t : Tree) (R : Loc) (hR : t.isDir R = true) : Tree where
  node l := t.node (R ++ l)
  root := by
    rw [List.append_nil]
    exact isDir_iff.mp hR
  parent loc name hne := by
    rw [← List.append_assoc] at hne
    exact t.parent (R ++ loc) name hne
  entryName loc name hne := by
    rw [← List.append_assoc] at hne
    exact t.entryName (R ++ loc) name hne

@[simp] theorem below_node {t : Tree} {R : Loc} (hR : t.isDir R = true) (l : Loc) :
    (t.below R hR).node l = t.node (R ++ l) := rfl

@[simp] theorem below_isDir {t : Tree} {R : Loc} (hR : t.isDir R = true) (l : Loc) :
    (t.below R hR).isDir l = t.isDir (R ++ l) := rfl

variable {S C C' : Tree} {R cur mid loc : Loc} {cs ds : List Component}

/-! ## No `..` at the root -/

theorem StaysBelow.append (h : StaysBelow S cur cs) (hcs : Walks S true false cur cs mid)
    (h' : StaysBelow S mid ds) : StaysBelow S cur (cs ++ ds) := by
  intro pre post y heq hpre
  rcases List.append_eq_append_iff.mp heq with ⟨more, rfl, hds⟩ | ⟨more, hcs', hmore⟩
  · obtain ⟨mid', hmid, hrest⟩ := hpre.cut
    obtain rfl := hcs.unique hmid
    exact h' more post y hds hrest
  · cases more with
    | nil =>
        rw [List.append_nil] at hcs'
        rw [← hcs'] at hpre
        obtain rfl := hcs.unique hpre
        exact h' [] post mid hmore.symm (.done mid)
    | cons c more =>
        obtain ⟨rfl, _⟩ := List.cons.inj hmore
        exact h pre more y hcs' hpre

/-- As many `..` as names do not lead above where the names start. -/
theorem staysBelow_climb (us : List OsString) :
    StaysBelow S (cur ++ us) (List.replicate us.length .parentDir) := by
  induction us using List.reverseRecOn with
  | nil => exact staysBelow_of_not_mem List.not_mem_nil
  | append_singleton us name ih =>
      intro pre post y heq hpre
      rw [List.length_append, List.length_singleton, List.replicate_succ] at heq
      cases pre with
      | nil =>
          cases hpre
          simp
      | cons c pre =>
          obtain ⟨rfl, hrest⟩ := List.cons.inj heq
          cases hpre with
          | parentDir _ hup =>
              rw [← List.append_assoc, List.dropLast_concat] at hup
              exact ih pre post y hrest hup

/-! ## Lookups that stay below -/

/-- Every link below the destination is relative, and its text leads, in the mirrored
tree, from its directory to what the link there leads to, with no `..` at the root. -/
def LinksStay (S C : Tree) (R : Loc) : Prop :=
  ∀ dir name text, C.node (R ++ (dir ++ [name])) = some (.link text) →
    hasRoot text = false ∧ StaysBelow S dir (steps text) ∧
      ∃ y, Walks S true false dir (steps text) y ∧ Walks S true false dir [.normal name] y

theorem rootDir_not_mem_steps (p : OsString) : .rootDir ∉ steps p := by
  intro h
  rw [steps] at h
  rcases List.mem_append.mp h with h | h
  · rcases mem_body h with h | ⟨_, h, _⟩ <;> cases h
  · split at h
    · cases List.mem_singleton.mp h
    · cases h

/-- A lookup below the destination that stays there, in the tree below. -/
theorem Mirror.walks_below (h : Mirror S C R) (hlinks : LinksStay S C R) (hR : C.isDir R = true)
    (hwalk : Walks C true false cur cs loc) {l : Loc} (hcur : cur = R ++ l)
    (hcs : .rootDir ∉ cs) (hstays : StaysBelow S l cs) :
    ∃ y, loc = R ++ y ∧ Walks (C.below R hR) true false l cs y := by
  induction hwalk generalizing l with
  | done cur => exact ⟨l, hcur, .done l⟩
  | rootDir _ _ _ => exact absurd List.mem_cons_self hcs
  | @curDir cur rest loc hdir _ ih =>
      subst hcur
      have hstep := hstays.step (.curDir (h.isDir hdir) (.done l))
      obtain ⟨y, hy, hbelow⟩ := ih rfl (List.not_mem_of_not_mem_cons hcs) hstep
      exact ⟨y, hy, .curDir hdir hbelow⟩
  | @parentDir cur rest loc hdir _ ih =>
      subst hcur
      have hne : l ≠ [] := hstays [] rest l rfl (.done l)
      have hstep := hstays.step (.parentDir (h.isDir hdir) (.done _))
      obtain ⟨y, hy, hbelow⟩ := ih (List.dropLast_append_of_ne_nil hne)
        (List.not_mem_of_not_mem_cons hcs) hstep
      exact ⟨y, hy, .parentDir hdir hbelow⟩
  | @entry cur name n rest loc hdir hn hlink _ ih =>
      subst hcur
      rw [List.append_assoc] at hn
      obtain ⟨m, hm, hmatch⟩ := h.entry _ _ hn
      have hone : Walks S true false l [.normal name] (l ++ [name]) :=
        .entry (h.isDir hdir) hm (hmatch.isLink.symm.trans hlink) (.done _)
      obtain ⟨y, hy, hbelow⟩ := ih (List.append_assoc _ _ _)
        (List.not_mem_of_not_mem_cons hcs) (hstays.step hone)
      exact ⟨y, hy, .entry hdir hn hlink hbelow⟩
  | @link cur name text rest loc hdir hn hgo _ ih =>
      subst hcur
      rw [List.append_assoc] at hn
      obtain ⟨hrelative, hinner, y, htext, hone⟩ := hlinks l name text hn
      have hbase (cur : Loc) : linkBase cur text = cur := by
        rw [linkBase, if_neg (by rw [hrelative]; exact Bool.false_ne_true)]
      have hall : .rootDir ∉ steps text ++ rest := by
        rw [List.mem_append, not_or]
        exact ⟨rootDir_not_mem_steps text, List.not_mem_of_not_mem_cons hcs⟩
      obtain ⟨z, hz, hbelow⟩ := ih (hbase _) hall (hinner.append htext (hstays.step hone))
      refine ⟨z, hz, .link hdir hn hgo ?_⟩
      rw [hbase]
      exact hbelow
  | last _ _ hfollow => cases hfollow
  | new _ _ hmissing => cases hmissing

/-- What is mirrored is found in the tree below, from its root on. -/
theorem Mirrored.below (h : Mirror S C R) (hlinks : LinksStay S C R) (hR : C.isDir R = true)
    (hcs : .rootDir ∉ cs) (hstays : StaysBelow S [] cs) (hmirrored : Mirrored S C R cs) :
    ∃ y, Walks S true false [] cs y ∧ Walks (C.below R hR) true false [] cs y := by
  obtain ⟨y, hS, hC⟩ := hmirrored
  obtain ⟨y', hy, hbelow⟩ := h.walks_below hlinks hR hC (List.append_nil R).symm hcs hstays
  obtain rfl := List.append_cancel_left hy
  exact ⟨y, hS, hbelow⟩

/-! ## Changes -/

/-- Where no link is new, the links stay. -/
theorem LinksStay.of_links (h : LinksStay S C R)
    (hold : ∀ loc text, C'.node loc = some (.link text) → C.node loc = some (.link text)) :
    LinksStay S C' R := fun dir name text hn => h dir name text (hold _ text hn)

theorem LinksStay.alike (h : LinksStay S C R) (hC : Alike C C') : LinksStay S C' R := by
  refine h.of_links fun loc text hn => ?_
  obtain ⟨n, hn', hlike⟩ := hC.back _ _ hn
  rw [hn', hlike.link]

/-- One more entry: a link has to stay. -/
theorem LinksStay.put (h : LinksStay S C R) {l : Loc} {n : Node}
    (hnew : ∀ dir name text, l = R ++ (dir ++ [name]) → n = .link text →
      hasRoot text = false ∧ StaysBelow S dir (steps text) ∧
        ∃ y, Walks S true false dir (steps text) y ∧ Walks S true false dir [.normal name] y) :
    LinksStay S (C.put l n) R := by
  intro dir name text hn
  by_cases hl : R ++ (dir ++ [name]) = l
  · by_cases hfits : C.fits l = true
    · rw [put_node hfits, if_pos hl] at hn
      exact hnew dir name text hl.symm (Option.some.inj hn)
    · rw [put_node_unfit hfits] at hn
      exact h dir name text hn
  · rw [put_node_ne hl] at hn
    exact h dir name text hn

theorem linksStay_empty (hempty : ∀ name, S.node (R ++ [name]) = none) : LinksStay S S R := by
  intro dir name text hn
  rw [node_below_empty hempty (by simp)] at hn
  cases hn

end Tree
end FileTree
