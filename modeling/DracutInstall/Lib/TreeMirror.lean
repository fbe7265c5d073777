/-
A part of a tree that has been put again below one of its own directories.

`Mirror S C R`: the entries of `C` below `R` are entries of `S`, and a link there
leads to the place below `R` of what the link of `S` leads to.  `walk_back` takes a
lookup below `R` back to `S`.
-/
import DracutInstall.Lib.LinkCount

namespace FileTree

open UnixPath

/-- The same kind of entry: two links, or the same but for the mode. -/
def Node.Matches (m n : Node) : Prop := (m.isLink = true ∧ n.isLink = true) ∨ m.Like n

theorem Node.Matches.isLink {m n : Node} (h : m.Matches n) : n.isLink = m.isLink := by
  rcases h with ⟨hm, hn⟩ | h
  · rw [hm, hn]
  · exact h.isLink

theorem Node.Matches.like {m n : Node} (h : m.Matches n) (hn : n.isLink = false) : m.Like n := by
  rcases h with ⟨_, hlink⟩ | h
  · rw [hn] at hlink
    cases hlink
  · exact h

theorem Node.Matches.trans_like {m n n' : Node} (h : m.Matches n) (hlike : n.Like n') :
    m.Matches n' := by
  rcases h with ⟨hm, hn⟩ | h
  · exact .inl ⟨hm, hlike.isLink.trans hn⟩
  · exact .inr (h.trans hlike)

namespace Tree

/-! ## Lookups that follow all links -/

namespace Walks

variable {t : Tree} {cur mid loc : Loc} {c : Component} {cs ds : List Component}

theorem trans (h : Walks t true false cur cs mid) (h' : Walks t true false mid ds loc) :
    Walks t true false cur (cs ++ ds) loc := by
  cases ds with
  | nil =>
      cases h'
      rw [List.append_nil]
      exact h
  | cons d ds => exact h.append (List.cons_ne_nil d ds) h'

theorem cut (h : Walks t true false cur (cs ++ ds) loc) :
    ∃ mid, Walks t true false cur cs mid ∧ Walks t true false mid ds loc := by
  cases ds with
  | nil =>
      rw [List.append_nil] at h
      exact ⟨loc, h, .done loc⟩
  | cons d ds => exact h.split (List.cons_ne_nil d ds)

/-- One component looked up without following a link there. -/
theorem follow_one {missing : Bool} (h : Walks t false missing cur [c] loc)
    (hloc : t.node loc ≠ none) :
    Walks t true false cur [c] loc ∨
      ∃ name text, c = .normal name ∧ loc = cur ++ [name] ∧ t.node loc = some (.link text) := by
  cases c with
  | rootDir =>
      cases h with
      | rootDir hdir h =>
          cases h
          exact .inl (.rootDir hdir (.done _))
  | curDir =>
      cases h with
      | curDir hdir h =>
          cases h
          exact .inl (.curDir hdir (.done _))
  | parentDir =>
      cases h with
      | parentDir hdir h =>
          cases h
          exact .inl (.parentDir hdir (.done _))
  | normal name =>
      rcases h.name_cases with ⟨hdir, ⟨n, hn, hlink, rfl⟩ | ⟨_, _, hf, _⟩ | ⟨text, hn, _, rfl⟩ | ⟨hn, _, rfl⟩⟩
      · exact .inl (.entry hdir hn hlink (.done _))
      · cases hf
      · exact .inr ⟨name, text, rfl, rfl, hn⟩
      · exact absurd hn hloc

/-- As many `..` as names lead up by these names. -/
theorem climb (us : List OsString) (hdir : t.isDir (cur ++ us) = true) :
    Walks t true false (cur ++ us) (List.replicate us.length .parentDir) cur :=
  (WalksIn.climb us hdir).walks

end Walks

/-! ## Mirrors -/

structure Mirror (S C : Tree) (R : Loc) : Prop where
  keeps : Extends S C
  entry : ∀ l n, C.node (R ++ l) = some n → ∃ m, S.node l = some m ∧ m.Matches n
  link : ∀ dir name text, C.node (R ++ (dir ++ [name])) = some (.link text) →
    ∃ y, Walks S true false dir [.normal name] y ∧ Walks C true false (R ++ dir) [.normal name] (R ++ y)

/-- No `..` is looked up at the root. -/
def StaysBelow (S : Tree) (cur : Loc) (cs : List Component) : Prop :=
  ∀ pre post y, cs = pre ++ .parentDir :: post → Walks S true false cur pre y → y ≠ []

/-- The components lead, below `R`, to the place of what they lead to from the root. -/
def Mirrored (S C : Tree) (R : Loc) (cs : List Component) : Prop :=
  ∃ y, Walks S true false [] cs y ∧ Walks C true false R cs (R ++ y)

variable {S C C' : Tree} {R cur loc : Loc} {cs : List Component}

theorem staysBelow_of_not_mem (h : .parentDir ∉ cs) : StaysBelow S cur cs := by
  rintro pre post y rfl
  exact absurd (List.mem_append_right pre List.mem_cons_self) h

theorem StaysBelow.step {c : Component} {mid : Loc} (h : StaysBelow S cur (c :: cs))
    (hwalk : Walks S true false cur [c] mid) : StaysBelow S mid cs := by
  intro pre post y heq hpre
  refine h (c :: pre) post y ?_ (hwalk.trans hpre)
  rw [heq, List.cons_append]

theorem StaysBelow.behind {ds : List Component} {mid : Loc} (h : StaysBelow S cur (cs ++ ds))
    (hwalk : Walks S true false cur cs mid) : StaysBelow S mid ds := by
  intro pre post y heq hpre
  refine h (cs ++ pre) post y ?_ (hwalk.trans hpre)
  rw [heq, List.append_assoc]

theorem StaysBelow.left {ds : List Component} (h : StaysBelow S cur (cs ++ ds)) :
    StaysBelow S cur cs := by
  intro pre post y heq hpre
  refine h pre (post ++ ds) y ?_ hpre
  rw [heq, List.append_assoc, List.cons_append]

theorem Mirror.isDir (h : Mirror S C R) (hdir : C.isDir (R ++ cur) = true) :
    S.isDir cur = true := by
  obtain ⟨mode, hn⟩ := isDir_iff.mp hdir
  obtain ⟨m, hm, hmatch⟩ := h.entry cur _ hn
  rw [Tree.isDir, hm]
  exact (hmatch.like rfl).isDir.symm

/-- One component looked up below `R`. -/
theorem Mirror.step_back (h : Mirror S C R) {c : Component} (hc : c ≠ .rootDir)
    (hstays : StaysBelow S cur [c]) (hwalk : Walks C true false (R ++ cur) [c] loc) :
    ∃ l, loc = R ++ l ∧ Walks S true false cur [c] l := by
  cases c with
  | rootDir => exact absurd rfl hc
  | curDir =>
      cases hwalk with
      | curDir hdir hdone =>
          cases hdone
          exact ⟨cur, rfl, .curDir (h.isDir hdir) (.done cur)⟩
  | parentDir =>
      have hcur : cur ≠ [] := hstays [] [] cur rfl (.done cur)
      cases hwalk with
      | parentDir hdir hdone =>
          cases hdone
          exact ⟨cur.dropLast, List.dropLast_append_of_ne_nil hcur,
            .parentDir (h.isDir hdir) (.done _)⟩
  | normal name =>
      rcases hwalk.name_cases with ⟨hdir, ⟨n, hn, hlink, rfl⟩ | ⟨text, hn, _, _⟩ | ⟨_, _, hf, _⟩ | ⟨_, hm, _⟩⟩
      · rw [List.append_assoc] at hn
        obtain ⟨m, hm, hmatch⟩ := h.entry _ _ hn
        refine ⟨cur ++ [name], List.append_assoc _ _ _, ?_⟩
        exact .entry (h.isDir hdir) hm (hmatch.isLink.symm.trans hlink) (.done _)
      · rw [List.append_assoc] at hn
        obtain ⟨y, hS, hC⟩ := h.link cur name text hn
        exact ⟨y, hwalk.unique hC, hS⟩
      · cases hf
      · cases hm

/-- A lookup below `R` leads to the place of what it leads to in `S`. -/
theorem Mirror.walk_back (h : Mirror S C R) (hcs : .rootDir ∉ cs) (hstays : StaysBelow S cur cs)
    (hwalk : Walks C true false (R ++ cur) cs loc) :
    ∃ l, loc = R ++ l ∧ Walks S true false cur cs l := by
  induction cs generalizing cur with
  | nil =>
      cases hwalk
      exact ⟨cur, rfl, .done cur⟩
  | cons c cs ih =>
      rw [List.mem_cons, not_or] at hcs
      rw [← List.singleton_append] at hwalk hstays
      obtain ⟨mid, hone, hrest⟩ := hwalk.cut
      obtain ⟨l, rfl, hS⟩ := h.step_back (Ne.symm hcs.1) hstays.left hone
      obtain ⟨l', hl', hS'⟩ := ih hcs.2 (hstays.step hS) hrest
      exact ⟨l', hl', Walks.trans hS hS'⟩

/-- What is found below `R` without following the last link is mirrored. -/
theorem Mirror.found (h : Mirror S C R) (hcs : .rootDir ∉ cs) (hstays : StaysBelow S [] cs)
    (hwalk : Walks C false false R cs loc) (hloc : C.node loc ≠ none) : Mirrored S C R cs := by
  have hroot : R ++ [] = R := List.append_nil R
  rcases List.eq_nil_or_concat cs with rfl | ⟨pre, c, rfl⟩
  · exact ⟨[], .done [], by rw [hroot]; exact .done R⟩
  · rw [List.concat_eq_append] at hcs hstays hwalk ⊢
    obtain ⟨mid, hpre, hlast⟩ := hwalk.split (List.cons_ne_nil _ _)
    rw [List.mem_append, not_or] at hcs
    have hpre' := hpre
    rw [← hroot] at hpre
    obtain ⟨m, rfl, hS⟩ := h.walk_back hcs.1 hstays.left hpre
    have hc : c ≠ .rootDir := fun heq => hcs.2 (heq ▸ List.mem_cons_self)
    have hone : StaysBelow S m [c] := by
      intro pre' post y heq hy
      refine hstays (pre ++ pre') post y ?_ (hS.trans hy)
      rw [heq, List.append_assoc]
    rcases hlast.follow_one hloc with hfollow | ⟨name, text, rfl, rfl, hn⟩
    · obtain ⟨l, rfl, hl⟩ := h.step_back hc hone hfollow
      exact ⟨l, hS.trans hl, hpre'.trans hfollow⟩
    · rw [List.append_assoc] at hn
      obtain ⟨y, hy, hy'⟩ := h.link m name text hn
      exact ⟨y, hS.trans hy, hpre'.trans hy'⟩

theorem Mirrored.mono (h : Mirrored S C R cs) (hext : Extends C C') : Mirrored S C' R cs := by
  obtain ⟨y, hS, hC⟩ := h
  exact ⟨y, hS, hC.mono hext⟩

/-- Modes do not matter. -/
theorem Mirror.alike (h : Mirror S C R) (hC : Alike C C') : Mirror S C' R where
  keeps := h.keeps.trans hC.forth
  entry l n hn := by
    obtain ⟨n', hn', hlike⟩ := hC.back _ _ hn
    obtain ⟨m, hm, hmatch⟩ := h.entry l n' hn'
    exact ⟨m, hm, hmatch.trans_like hlike.symm⟩
  link dir name text hn := by
    obtain ⟨n', hn', hlike⟩ := hC.back _ _ hn
    obtain rfl := hlike.link
    obtain ⟨y, hS, hy⟩ := h.link dir name text hn'
    exact ⟨y, hS, hy.mono hC.forth⟩

/-- One more entry below `R`, or one like it in its place; a link has to lead where it
should. -/
theorem Mirror.put (h : Mirror S C R) {l : Loc} {m n : Node} (hfits : C.fits (R ++ l) = true)
    (hm : S.node l = some m) (hmatch : m.Matches n)
    (hold : ∀ n', C.node (R ++ l) = some n' → n'.Like n)
    (hlink : ∀ dir name text, l = dir ++ [name] → n = .link text →
      ∃ y, Walks S true false dir [.normal name] y ∧
        Walks (C.put (R ++ l) n) true false (R ++ dir) [.normal name] (R ++ y)) :
    Mirror S (C.put (R ++ l) n) R where
  keeps := h.keeps.trans (put_extends hold)
  entry l' n' hn' := by
    rw [put_node hfits] at hn'
    split at hn'
    · rename_i heq
      obtain rfl := List.append_cancel_left heq
      cases hn'
      exact ⟨m, hm, hmatch⟩
    · exact h.entry l' n' hn'
  link dir name text hn' := by
    rw [put_node hfits] at hn'
    split at hn'
    · rename_i heq
      exact hlink dir name text (List.append_cancel_left heq).symm (Option.some.inj hn')
    · obtain ⟨y, hS, hy⟩ := h.link dir name text hn'
      exact ⟨y, hS, hy.mono (put_extends hold)⟩

/-- A directory with nothing in it has nothing below it. -/
theorem node_below_empty (hempty : ∀ name, S.node (R ++ [name]) = none) {l : Loc} (hl : l ≠ []) :
    S.node (R ++ l) = none := by
  obtain ⟨name, l, rfl⟩ := List.exists_cons_of_ne_nil hl
  induction l using List.reverseRecOn with
  | nil => exact hempty name
  | append_singleton l last ih =>
      by_contra hne
      obtain ⟨mode, hn⟩ := S.parent (R ++ name :: l) last (by simpa using hne)
      rw [ih (List.cons_ne_nil _ _)] at hn
      cases hn

/-- At the start there is nothing below `R`. -/
theorem mirror_empty (hdir : S.isDir R = true) (hempty : ∀ name, S.node (R ++ [name]) = none) :
    Mirror S S R where
  keeps := .refl S
  entry l n hn := by
    by_cases hl : l = []
    · subst hl
      obtain ⟨mode, hroot⟩ := S.root
      obtain ⟨mode', hR⟩ := isDir_iff.mp hdir
      rw [List.append_nil, hR] at hn
      cases hn
      exact ⟨_, hroot, .inr rfl⟩
    · rw [node_below_empty hempty hl] at hn
      cases hn
  link dir name text hn := by
    rw [node_below_empty hempty (by simp)] at hn
    cases hn

end Tree
end FileTree
