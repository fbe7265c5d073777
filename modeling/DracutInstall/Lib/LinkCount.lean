/-
Lookups that follow every link, with the number of links they follow.

A bounded lookup finds what a lookup with no more links than the bound finds; the
numbers of two lookups in a row add up, and an entry among more is found with as
many links.  So a path through a link takes one link more than the path the link
stands for.
-/
import DracutInstall.Lib.FileTree

namespace FileTree
namespace Tree

open Rust UnixPath

/-- A lookup that follows `k` links. -/
inductive WalksIn (t : Tree) : Nat → Loc → List Component → Loc → Prop
  | done (cur : Loc) : WalksIn t 0 cur [] cur
  | rootDir {k cur rest loc} (hdir : t.isDir cur = true) (h : WalksIn t k [] rest loc) :
      WalksIn t k cur (.rootDir :: rest) loc
  | curDir {k cur rest loc} (hdir : t.isDir cur = true) (h : WalksIn t k cur rest loc) :
      WalksIn t k cur (.curDir :: rest) loc
  | parentDir {k cur rest loc} (hdir : t.isDir cur = true)
      (h : WalksIn t k cur.dropLast rest loc) : WalksIn t k cur (.parentDir :: rest) loc
  | entry {k cur name n rest loc} (hdir : t.isDir cur = true)
      (hn : t.node (cur ++ [name]) = some n) (hlink : n.isLink = false)
      (h : WalksIn t k (cur ++ [name]) rest loc) : WalksIn t k cur (.normal name :: rest) loc
  | link {k cur name text rest loc} (hdir : t.isDir cur = true)
      (hn : t.node (cur ++ [name]) = some (.link text))
      (h : WalksIn t k (linkBase cur text) (steps text ++ rest) loc) :
      WalksIn t (k + 1) cur (.normal name :: rest) loc

variable {t : Tree} {k a b limit : Nat} {cur mid loc : Loc} {cs ds : List Component}

namespace WalksIn

theorem walks (h : WalksIn t k cur cs loc) : Walks t true false cur cs loc := by
  induction h with
  | done cur => exact .done cur
  | rootDir hdir _ ih => exact .rootDir hdir ih
  | curDir hdir _ ih => exact .curDir hdir ih
  | parentDir hdir _ ih => exact .parentDir hdir ih
  | entry hdir hn hlink _ ih => exact .entry hdir hn hlink ih
  | link hdir hn _ ih => exact .link hdir hn (.inr rfl) ih

/-- Two lookups in a row. -/
theorem append (h : WalksIn t a cur cs mid) (h' : WalksIn t b mid ds loc) :
    WalksIn t (a + b) cur (cs ++ ds) loc := by
  induction h with
  | done cur =>
      rw [Nat.zero_add]
      exact h'
  | rootDir hdir _ ih => exact .rootDir hdir (ih h')
  | curDir hdir _ ih => exact .curDir hdir (ih h')
  | parentDir hdir _ ih => exact .parentDir hdir (ih h')
  | entry hdir hn hlink _ ih => exact .entry hdir hn hlink (ih h')
  | link hdir hn _ ih =>
      have hrest := ih h'
      rw [List.append_assoc] at hrest
      rw [Nat.add_right_comm]
      exact .link hdir hn hrest

/-- A lookup cut in two. -/
theorem split (h : WalksIn t k cur (cs ++ ds) loc) :
    ∃ a b mid, a + b = k ∧ WalksIn t a cur cs mid ∧ WalksIn t b mid ds loc := by
  obtain ⟨es, hes⟩ : ∃ es, es = cs ++ ds := ⟨_, rfl⟩
  rw [← hes] at h
  have hwhole {k cur es loc} (h : WalksIn t k cur es loc) (hds : es = [] ++ ds) :
      ∃ a b mid, a + b = k ∧ WalksIn t a cur [] mid ∧ WalksIn t b mid ds loc := by
    obtain rfl : es = ds := hds
    exact ⟨0, k, cur, Nat.zero_add k, .done cur, h⟩
  induction h generalizing cs with
  | done cur =>
      obtain ⟨rfl, rfl⟩ := List.append_eq_nil_iff.mp hes.symm
      exact ⟨0, 0, cur, rfl, .done cur, .done cur⟩
  | rootDir hdir h ih =>
      cases cs with
      | nil => exact hwhole (.rootDir hdir h) hes
      | cons c cs =>
          obtain ⟨rfl, rfl⟩ := List.cons.inj hes
          obtain ⟨a, b, mid, hk, h1, h2⟩ := ih rfl
          exact ⟨a, b, mid, hk, .rootDir hdir h1, h2⟩
  | curDir hdir h ih =>
      cases cs with
      | nil => exact hwhole (.curDir hdir h) hes
      | cons c cs =>
          obtain ⟨rfl, rfl⟩ := List.cons.inj hes
          obtain ⟨a, b, mid, hk, h1, h2⟩ := ih rfl
          exact ⟨a, b, mid, hk, .curDir hdir h1, h2⟩
  | parentDir hdir h ih =>
      cases cs with
      | nil => exact hwhole (.parentDir hdir h) hes
      | cons c cs =>
          obtain ⟨rfl, rfl⟩ := List.cons.inj hes
          obtain ⟨a, b, mid, hk, h1, h2⟩ := ih rfl
          exact ⟨a, b, mid, hk, .parentDir hdir h1, h2⟩
  | entry hdir hn hlink h ih =>
      cases cs with
      | nil => exact hwhole (.entry hdir hn hlink h) hes
      | cons c cs =>
          obtain ⟨rfl, rfl⟩ := List.cons.inj hes
          obtain ⟨a, b, mid, hk, h1, h2⟩ := ih rfl
          exact ⟨a, b, mid, hk, .entry hdir hn hlink h1, h2⟩
  | link hdir hn h ih =>
      cases cs with
      | nil => exact hwhole (.link hdir hn h) hes
      | cons c cs =>
          obtain ⟨rfl, rfl⟩ := List.cons.inj hes
          obtain ⟨a, b, mid, hk, h1, h2⟩ := ih (List.append_assoc _ _ _).symm
          exact ⟨a + 1, b, mid, by omega, .link hdir hn h1, h2⟩

/-- A lookup finds the same entry among more, with as many links. -/
theorem keepsKinds {t' : Tree} (hkeeps : KeepsKinds t t') (h : WalksIn t k cur cs loc) :
    WalksIn t' k cur cs loc := by
  induction h with
  | done cur => exact .done cur
  | rootDir hdir _ ih => exact .rootDir (hkeeps.isDir hdir) ih
  | curDir hdir _ ih => exact .curDir (hkeeps.isDir hdir) ih
  | parentDir hdir _ ih => exact .parentDir (hkeeps.isDir hdir) ih
  | entry hdir hn hlink _ ih =>
      obtain ⟨n', hn', hkind⟩ := hkeeps _ _ hn
      exact .entry (hkeeps.isDir hdir) hn' (hkind.isLink.trans hlink) ih
  | link hdir hn _ ih =>
      obtain ⟨n', hn', hkind⟩ := hkeeps _ _ hn
      obtain rfl := (hkind.2.2 _).mp rfl
      exact .link (hkeeps.isDir hdir) hn' ih

/-- As many `..` as names lead up by these names, through no link. -/
theorem climb (us : List OsString) (hdir : t.isDir (cur ++ us) = true) :
    WalksIn t 0 (cur ++ us) (List.replicate us.length .parentDir) cur := by
  induction us using List.reverseRecOn with
  | nil =>
      rw [List.append_nil]
      exact .done cur
  | append_singleton us name ih =>
      have hup := Walks.isDir_dropLast hdir
      have hdrop : (cur ++ (us ++ [name])).dropLast = cur ++ us := by
        rw [← List.append_assoc, List.dropLast_concat]
      rw [hdrop] at hup
      rw [List.length_append, List.length_singleton, List.replicate_succ]
      refine .parentDir hdir ?_
      rw [hdrop]
      exact ih hup

/-- A name at the end that is a link takes one link more than its text does. -/
theorem link_last {name text : OsString} (hn : t.node (cur ++ [name]) = some (.link text))
    (h : WalksIn t k cur [.normal name] loc) :
    ∃ j, k = j + 1 ∧ WalksIn t j (linkBase cur text) (steps text) loc := by
  cases h with
  | entry _ hn' hlink _ =>
      obtain rfl := Option.some.inj (hn.symm.trans hn')
      cases hlink
  | link _ hn' h =>
      obtain rfl := Node.link.inj (Option.some.inj (hn.symm.trans hn'))
      rw [List.append_nil] at h
      exact ⟨_, rfl, h⟩

/-- What a path asks for behind its components is no link. -/
theorem body {p : OsString} (h : WalksIn t k cur (steps p) loc) :
    WalksIn t k cur (UnixPath.body p) loc := by
  rw [steps] at h
  obtain ⟨a, b, mid, rfl, hbody, hend⟩ := h.split
  split at hend
  · cases hend with
    | curDir _ hdone =>
        cases hdone
        exact hbody
  · cases hend
    exact hbody

/-- A lookup follows one number of links. -/
theorem count_unique {loc' : Loc} (h : WalksIn t a cur cs loc) (h' : WalksIn t b cur cs loc') :
    a = b := by
  induction h generalizing b with
  | done cur =>
      cases h'
      rfl
  | rootDir _ _ ih =>
      cases h' with
      | rootDir _ h' => exact ih h'
  | curDir _ _ ih =>
      cases h' with
      | curDir _ h' => exact ih h'
  | parentDir _ _ ih =>
      cases h' with
      | parentDir _ h' => exact ih h'
  | entry _ hn hlink _ ih =>
      cases h' with
      | entry _ _ _ h' => exact ih h'
      | link _ hn' _ =>
          obtain rfl := Option.some.inj (hn.symm.trans hn')
          cases hlink
  | link _ hn _ ih =>
      cases h' with
      | entry _ hn' hlink _ =>
          obtain rfl := Option.some.inj (hn.symm.trans hn')
          cases hlink
      | link _ hn' h' =>
          obtain rfl := Node.link.inj (Option.some.inj (hn.symm.trans hn'))
          rw [ih h']

end WalksIn

/-- A lookup that follows all links follows some number of them. -/
theorem Walks.walksIn (h : Walks t true false cur cs loc) : ∃ k, WalksIn t k cur cs loc := by
  induction h with
  | done cur => exact ⟨0, .done cur⟩
  | rootDir hdir _ ih =>
      obtain ⟨k, h⟩ := ih
      exact ⟨k, .rootDir hdir h⟩
  | curDir hdir _ ih =>
      obtain ⟨k, h⟩ := ih
      exact ⟨k, .curDir hdir h⟩
  | parentDir hdir _ ih =>
      obtain ⟨k, h⟩ := ih
      exact ⟨k, .parentDir hdir h⟩
  | entry hdir hn hlink _ ih =>
      obtain ⟨k, h⟩ := ih
      exact ⟨k, .entry hdir hn hlink h⟩
  | link hdir hn _ _ ih =>
      obtain ⟨k, h⟩ := ih
      exact ⟨k + 1, .link hdir hn h⟩
  | last _ _ hfollow => cases hfollow
  | new _ _ hmissing => cases hmissing

/-! ## Bounded lookups -/

/-- In front of more components, or where every link is followed and nothing is only
named, a component is not treated as the last one. -/
theorem not_last_link {follow missing : Bool} {rest : List Component}
    (hends : ds ≠ [] ∨ follow = true ∧ missing = false) :
    ((rest ++ ds).isEmpty && !follow) = false := by
  rcases hends with hne | ⟨rfl, _⟩
  · simp [hne]
  · exact Bool.and_false _

theorem not_last_missing {follow missing : Bool} {rest : List Component}
    (hends : ds ≠ [] ∨ follow = true ∧ missing = false) :
    ((rest ++ ds).isEmpty && missing) = false := by
  rcases hends with hne | ⟨_, rfl⟩
  · simp [hne]
  · exact Bool.and_false _

section Bounded

variable {follow missing : Bool}

/-- What the last components lead to is found behind what the first ones lead to, and
without a last component that is only to be named. -/
theorem walkFrom_init {onLink : Loc → List Component → Except Errno Loc}
    (hends : ds ≠ [] ∨ follow = true ∧ missing = false)
    (honLink : ∀ cur cs, onLink cur (cs ++ ds) = .ok loc → ∃ k < limit, ∃ mid, WalksIn t k cur cs mid) :
    ∀ (cs : List Component) (cur : Loc), t.walkFrom onLink follow missing cur (cs ++ ds) = .ok loc →
      ∃ k ≤ limit, ∃ mid, WalksIn t k cur cs mid := by
  intro cs
  induction cs with
  | nil => exact fun cur _ => ⟨0, Nat.zero_le limit, cur, .done cur⟩
  | cons c rest ih =>
      intro cur h
      rw [List.cons_append, walkFrom.eq_def] at h
      dsimp only at h
      by_cases hdir : t.isDir cur = true
      · rw [if_pos hdir] at h
        cases c with
        | rootDir =>
            obtain ⟨k, hk, mid, hwalk⟩ := ih _ h
            exact ⟨k, hk, mid, .rootDir hdir hwalk⟩
        | curDir =>
            obtain ⟨k, hk, mid, hwalk⟩ := ih _ h
            exact ⟨k, hk, mid, .curDir hdir hwalk⟩
        | parentDir =>
            obtain ⟨k, hk, mid, hwalk⟩ := ih _ h
            exact ⟨k, hk, mid, .parentDir hdir hwalk⟩
        | normal name =>
            have hentry {n} (hn : t.node (cur ++ [name]) = some n) (hlink : n.isLink = false)
                (h : t.walkFrom onLink follow missing (cur ++ [name]) (rest ++ ds) = .ok loc) :
                ∃ k ≤ limit, ∃ mid, WalksIn t k cur (.normal name :: rest) mid := by
              obtain ⟨k, hk, mid, hwalk⟩ := ih _ h
              exact ⟨k, hk, mid, .entry hdir hn hlink hwalk⟩
            dsimp only at h
            cases hn : t.node (cur ++ [name]) with
            | none =>
                simp only [hn, not_last_missing hends] at h
                cases h
            | some n =>
                simp only [hn] at h
                cases n with
                | link text =>
                    simp only [not_last_link hends, Bool.false_eq_true, if_false] at h
                    rw [← List.append_assoc] at h
                    obtain ⟨k, hk, mid, hwalk⟩ := honLink _ _ h
                    exact ⟨k + 1, hk, mid, .link hdir hn hwalk⟩
                | dir m => exact hentry hn rfl h
                | file m content => exact hentry hn rfl h
                | special m => exact hentry hn rfl h
      · rw [if_neg hdir] at h
        cases h

theorem walk_init (hends : ds ≠ [] ∨ follow = true ∧ missing = false)
    (h : t.walk follow missing limit cur (cs ++ ds) = .ok loc) :
    ∃ k ≤ limit, ∃ mid, WalksIn t k cur cs mid := by
  induction limit generalizing cur cs with
  | zero => exact walkFrom_init hends (fun _ _ h => by cases h) _ _ h
  | succ limit ih =>
      refine walkFrom_init hends (fun _ _ h => ?_) _ _ h
      obtain ⟨k, hk, hwalk⟩ := ih h
      exact ⟨k, Nat.lt_succ_of_le hk, hwalk⟩

/-- Every lookup is one that takes some way at a link. -/
theorem walk_eq_walkFrom (t : Tree) (follow missing : Bool) (limit : Nat) :
    ∃ onLink, t.walk follow missing limit = t.walkFrom onLink follow missing := by
  cases limit with
  | zero => exact ⟨_, rfl⟩
  | succ limit => exact ⟨_, rfl⟩

/-- The bound goes down by the links that have been followed. -/
theorem WalksIn.walk_append (hends : ds ≠ [] ∨ follow = true ∧ missing = false)
    (h : WalksIn t k cur cs mid) (hle : k ≤ limit) :
    t.walk follow missing limit cur (cs ++ ds) = t.walk follow missing (limit - k) mid ds := by
  obtain ⟨onLink, hfrom⟩ := walk_eq_walkFrom t follow missing limit
  induction h generalizing limit onLink with
  | done cur => rfl
  | rootDir hdir _ ih =>
      rw [← ih hle onLink hfrom, hfrom]
      exact if_pos hdir
  | curDir hdir _ ih =>
      rw [← ih hle onLink hfrom, hfrom]
      exact if_pos hdir
  | parentDir hdir _ ih =>
      rw [← ih hle onLink hfrom, hfrom]
      exact if_pos hdir
  | @entry k cur name n rest loc hdir hn hlink _ ih =>
      rw [← ih hle onLink hfrom, hfrom]
      refine (if_pos hdir).trans ?_
      dsimp only
      rw [hn]
      cases n with
      | link text => cases hlink
      | dir m => rfl
      | file m content => rfl
      | special m => rfl
  | @link k cur name text rest loc hdir hn _ ih =>
      obtain ⟨limit, rfl⟩ : ∃ m, limit = m + 1 := ⟨limit - 1, by omega⟩
      obtain ⟨onLink', hfrom'⟩ := walk_eq_walkFrom t follow missing limit
      rw [Nat.add_sub_add_right, ← ih (Nat.le_of_succ_le_succ hle) onLink' hfrom', Tree.walk]
      refine (if_pos hdir).trans ?_
      dsimp only
      rw [hn, List.append_assoc]
      exact if_neg (Bool.not_eq_true _ ▸ not_last_link hends)

/-- A bound is high enough for a lookup with no more links. -/
theorem WalksIn.walk (h : WalksIn t k cur cs loc) (hle : k ≤ limit) :
    t.walk true false limit cur cs = .ok loc := by
  obtain ⟨onLink, hfrom⟩ := walk_eq_walkFrom t true false (limit - k)
  have hwalk : t.walk true false limit cur (cs ++ []) = t.walk true false (limit - k) loc [] :=
    h.walk_append (.inr ⟨rfl, rfl⟩) hle
  rw [List.append_nil, hfrom] at hwalk
  exact hwalk

theorem walk_walksIn (h : t.walk true false limit cur cs = .ok loc) :
    ∃ k ≤ limit, WalksIn t k cur cs loc := by
  have hall := h
  rw [← List.append_nil cs] at hall
  obtain ⟨k, hk, mid, hwalk⟩ := walk_init (.inr ⟨rfl, rfl⟩) hall
  obtain rfl := Except.ok.inj ((hwalk.walk hk).symm.trans h)
  exact ⟨k, hk, hwalk⟩

end Bounded

theorem status_walksIn {v : View} {p : OsString} :
    (∃ n, t.status v true p = .ok n) ↔
      p ≠ [] ∧ t.isDir (start v p) = true ∧
        ∃ k ≤ v.limit, ∃ loc, WalksIn t k (start v p) (steps p) loc := by
  constructor
  · rintro ⟨n, h⟩
    obtain ⟨loc, hloc, _⟩ := status_lookup h
    rw [lookup] at hloc
    split at hloc
    · cases hloc
    · rename_i hne
      obtain ⟨k, hk, hwalk⟩ := walk_walksIn hloc
      exact ⟨hne, hwalk.walks.isDir_start (steps_ne_nil p), k, hk, loc, hwalk⟩
  · rintro ⟨hne, hstart, k, hk, loc, hwalk⟩
    obtain ⟨n, hn, _⟩ := hwalk.walks.ends hstart
    refine ⟨n, ?_⟩
    rw [status, lookup, if_neg hne, hwalk.walk hk]
    simp only [hn]

end Tree
end FileTree
