/-
A tree of directories, files and symbolic links, and how a path is looked up in
it.

An entry is known by the names from the root on.  `walk` looks components up one
by one, with a bound on the links it follows; `Walks` is the same without the
bound, as a relation, and its lemmas cut a lookup in two, put two together, and
carry one over to a tree with more entries.
-/
import DracutInstall.Lib.Outcome
import DracutInstall.Lib.UnixPath

namespace FileTree

open Rust UnixPath

abbrev Loc := List OsString

inductive Node where
  | dir (mode : Nat)
  | file (mode : Nat) (content : List UInt8)
  | link (text : OsString)
  | special (mode : Nat)
  deriving DecidableEq

namespace Node

def isDir : Node → Bool
  | dir _ => true
  | _ => false

def isFile : Node → Bool
  | file _ _ => true
  | _ => false

def isLink : Node → Bool
  | link _ => true
  | _ => false

def mode : Node → Nat
  | dir m => m
  | file m _ => m
  | link _ => 0o777
  | special m => m

def content : Node → List UInt8
  | file _ content => content
  | _ => []

def setMode (m : Nat) : Node → Node
  | dir _ => dir m
  | file _ content => file m content
  | link text => link text
  | special _ => special m

/-- The same entry, whatever its mode. -/
def Like (n n' : Node) : Prop := n.setMode 0 = n'.setMode 0

theorem Like.refl (n : Node) : n.Like n := rfl

theorem Like.symm {n n' : Node} (h : n.Like n') : n'.Like n := Eq.symm h

theorem Like.trans {a b c : Node} (h : a.Like b) (h' : b.Like c) : a.Like c := Eq.trans h h'

theorem like_setMode (n : Node) (m : Nat) : n.Like (n.setMode m) := by
  cases n <;> rfl

theorem Like.isDir {n n' : Node} (h : n.Like n') : n'.isDir = n.isDir := by
  cases n <;> cases n' <;> first | rfl | cases h

theorem Like.isLink {n n' : Node} (h : n.Like n') : n'.isLink = n.isLink := by
  cases n <;> cases n' <;> first | rfl | cases h

/-- An entry of the same kind, with the same text if it is a link. -/
def SameKind (n n' : Node) : Prop :=
  n'.isDir = n.isDir ∧ n'.isFile = n.isFile ∧ ∀ text, n = .link text ↔ n' = .link text

theorem SameKind.refl (n : Node) : n.SameKind n := ⟨rfl, rfl, fun _ => Iff.rfl⟩

theorem SameKind.trans {a b c : Node} (h : a.SameKind b) (h' : b.SameKind c) : a.SameKind c :=
  ⟨h'.1.trans h.1, h'.2.1.trans h.2.1, fun text => (h.2.2 text).trans (h'.2.2 text)⟩

theorem SameKind.isLink {n n' : Node} (h : n.SameKind n') : n'.isLink = n.isLink := by
  cases n with
  | link text => rw [(h.2.2 text).mp rfl]
  | dir m => cases n' <;> first | rfl | cases (h.2.2 _).mpr rfl
  | file m content => cases n' <;> first | rfl | cases (h.2.2 _).mpr rfl
  | special m => cases n' <;> first | rfl | cases (h.2.2 _).mpr rfl

theorem Like.link {text : OsString} {n : Node} (h : (Node.link text).Like n) : n = .link text := by
  cases n with
  | link text' => exact h.symm
  | dir m => cases h
  | file m content => cases h
  | special m => cases h

/-- What is like a directory is one. -/
theorem Like.dir {m n : Node} (h : m.Like n) (hn : n.isDir = true) : ∃ mode, m = .dir mode := by
  cases m with
  | dir mode => exact ⟨mode, rfl⟩
  | file mode content =>
      rw [h.isDir] at hn
      cases hn
  | link text =>
      rw [h.isDir] at hn
      cases hn
  | special mode =>
      rw [h.isDir] at hn
      cases hn

/-- What is like a regular file is one of the same content. -/
theorem Like.file {m n : Node} (h : m.Like n) (hn : n.isFile = true) :
    ∃ mode mode' content, m = .file mode content ∧ n = .file mode' content := by
  cases n with
  | file mode' content =>
      cases m with
      | file mode content' =>
          obtain ⟨_, rfl⟩ := Node.file.inj h
          exact ⟨mode, mode', content', rfl, rfl⟩
      | dir mode => cases h
      | link text => cases h
      | special mode => cases h
  | dir mode' => cases hn
  | link text => cases hn
  | special mode' => cases hn

theorem Like.sameKind {n n' : Node} (h : n.Like n') : n.SameKind n' := by
  have hother {a b : Node} (ha : a.isLink = false) (hb : b.isLink = false) (text : OsString) :
      a = .link text ↔ b = .link text :=
    iff_of_false (fun heq => by rw [heq] at ha; cases ha) (fun heq => by rw [heq] at hb; cases hb)
  cases n with
  | link text =>
      rw [h.link]
      exact .refl _
  | dir m => cases n' <;> first | exact ⟨rfl, rfl, hother rfl rfl⟩ | cases h
  | file m content => cases n' <;> first | exact ⟨rfl, rfl, hother rfl rfl⟩ | cases h
  | special m => cases n' <;> first | exact ⟨rfl, rfl, hother rfl rfl⟩ | cases h

end Node

/-- Every entry lies in a directory, under a name an entry can have. -/
structure Tree where
  node : Loc → Option Node
  root : ∃ mode, node [] = some (.dir mode)
  parent : ∀ loc name, node (loc ++ [name]) ≠ none → ∃ mode, node loc = some (.dir mode)
  entryName : ∀ loc name, node (loc ++ [name]) ≠ none → EntryName name

namespace Tree

variable (t : Tree)

def isDir (loc : Loc) : Bool := ((t.node loc).map Node.isDir).getD false

variable {t}

theorem isDir_iff {loc : Loc} : t.isDir loc = true ↔ ∃ mode, t.node loc = some (.dir mode) := by
  rw [isDir]
  cases h : t.node loc with
  | none => simp
  | some n => cases n <;> simp [Node.isDir]

theorem isDir_of_none {loc : Loc} (h : t.node loc = none) : t.isDir loc = false := by
  rw [isDir, h]
  rfl

variable (t)

/-! ## Changes -/

/-- A place where an entry can be put: there is none, or none that is a directory. -/
def fits (loc : Loc) : Bool :=
  match loc.getLast? with
  | none => false
  | some name => t.isDir loc.dropLast && decide (EntryName name) && !t.isDir loc

variable {t}

theorem fits_concat {loc : Loc} {name : OsString} :
    t.fits (loc ++ [name]) = true ↔
      t.isDir loc = true ∧ EntryName name ∧ t.isDir (loc ++ [name]) = false := by
  simp [fits, and_assoc]

/-- An entry put in its place; nothing changes where it does not fit. -/
def put (t : Tree) (loc : Loc) (n : Node) : Tree where
  node := fun l => if l = loc ∧ t.fits loc = true then some n else t.node l
  root := by
    rw [if_neg]
    · exact t.root
    · rintro ⟨rfl, h⟩
      cases h
  parent := fun l name hne => by
    by_cases hl : l ++ [name] = loc ∧ t.fits loc = true
    · obtain ⟨rfl, h⟩ := hl
      obtain ⟨hdir, _, _⟩ := fits_concat.mp h
      rw [if_neg (by simp)]
      exact isDir_iff.mp hdir
    · rw [if_neg hl] at hne
      have hparent := t.parent l name hne
      rw [if_neg]
      · exact hparent
      · rintro ⟨rfl, h⟩
        rcases List.eq_nil_or_concat l with rfl | ⟨dir, last, rfl⟩
        · cases h
        · rw [List.concat_eq_append] at h hparent
          obtain ⟨_, _, hno⟩ := fits_concat.mp h
          rw [isDir_iff.mpr hparent] at hno
          cases hno
  entryName := fun l name hne => by
    by_cases hl : l ++ [name] = loc ∧ t.fits loc = true
    · obtain ⟨rfl, h⟩ := hl
      exact (fits_concat.mp h).2.1
    · rw [if_neg hl] at hne
      exact t.entryName l name hne

theorem put_node {loc : Loc} (h : t.fits loc = true) (n : Node) (l : Loc) :
    (t.put loc n).node l = if l = loc then some n else t.node l := by
  simp [put, h]

theorem put_node_unfit {loc : Loc} (h : t.fits loc ≠ true) (n : Node) (l : Loc) :
    (t.put loc n).node l = t.node l := if_neg fun hl => h hl.2

theorem put_node_ne {loc l : Loc} (h : l ≠ loc) (n : Node) : (t.put loc n).node l = t.node l :=
  if_neg fun hl => h hl.1

/-- A root directory with nothing in it. -/
def bare (mode : Nat) : Tree where
  node := fun loc => if loc = [] then some (.dir mode) else none
  root := ⟨mode, rfl⟩
  parent := fun loc name hne => by simp at hne
  entryName := fun loc name hne => by simp at hne

/-- The entries put one after the other. -/
def ofEntries (entries : List (Loc × Node)) : Tree :=
  entries.foldl (fun t entry => t.put entry.1 entry.2) (bare 0o755)

/-- Nothing is but the entries that were put. -/
theorem ofEntries_node {entries : List (Loc × Node)} {loc : Loc} (hloc : loc ≠ [])
    (h : ∀ entry ∈ entries, entry.1 ≠ loc) : (ofEntries entries).node loc = none := by
  induction entries using List.reverseRecOn with
  | nil => exact if_neg hloc
  | append_singleton entries entry ih =>
      have hrest := ih fun e he => h e (List.mem_append_left _ he)
      have hlast := h entry (List.mem_append_right _ List.mem_cons_self)
      rw [ofEntries, List.foldl_append]
      exact (put_node_ne hlast.symm entry.2).trans hrest

theorem mem_of_ofEntries {entries : List (Loc × Node)} {loc : Loc} {n : Node}
    (h : (ofEntries entries).node loc = some n) : loc ∈ [] :: entries.map Prod.fst := by
  by_cases hloc : loc = []
  · exact hloc ▸ List.mem_cons_self
  · by_contra hnot
    have hnone := ofEntries_node hloc fun entry hentry heq =>
      hnot (List.mem_cons_of_mem _ (heq ▸ List.mem_map_of_mem hentry))
    rw [hnone] at h
    cases h

/-- The mode of an entry changed. -/
def chmodAt (t : Tree) (loc : Loc) (mode : Nat) : Tree where
  node := fun l => if l = loc then (t.node l).map (Node.setMode mode) else t.node l
  root := by
    obtain ⟨m, h⟩ := t.root
    split
    · exact ⟨mode, by rw [h]; rfl⟩
    · exact ⟨m, h⟩
  parent := fun l name hne => by
    have hne' : t.node (l ++ [name]) ≠ none := by
      split at hne
      · exact fun h => hne (by rw [h]; rfl)
      · exact hne
    obtain ⟨m, h⟩ := t.parent l name hne'
    split
    · exact ⟨mode, by rw [h]; rfl⟩
    · exact ⟨m, h⟩
  entryName := fun l name hne => by
    refine t.entryName l name ?_
    split at hne
    · exact fun h => hne (by rw [h]; rfl)
    · exact hne

theorem chmodAt_node (t : Tree) (loc : Loc) (mode : Nat) (l : Loc) :
    (t.chmodAt loc mode).node l =
      if l = loc then (t.node l).map (Node.setMode mode) else t.node l := rfl

/-! ## Lookups -/

variable (t)

/-- Where the text of a link found in `dir` starts. -/
def linkBase (dir : Loc) (text : OsString) : Loc := if hasRoot text then [] else dir

/-- Components looked up one by one.  A link on the way is left to `onLink`; one at
the end is followed only if asked for, and so is a missing entry there taken. -/
def walkFrom (onLink : Loc → List Component → Except Errno Loc) (follow missing : Bool) :
    Loc → List Component → Except Errno Loc
  | cur, [] => .ok cur
  | cur, c :: rest =>
      if t.isDir cur then
        match c with
        | .rootDir => walkFrom onLink follow missing [] rest
        | .curDir => walkFrom onLink follow missing cur rest
        | .parentDir => walkFrom onLink follow missing cur.dropLast rest
        | .normal name =>
            match t.node (cur ++ [name]) with
            | none => if rest.isEmpty && missing then .ok (cur ++ [name]) else .error .enoent
            | some (.link text) =>
                if rest.isEmpty && !follow then .ok (cur ++ [name])
                else onLink (linkBase cur text) (steps text ++ rest)
            | some _ => walkFrom onLink follow missing (cur ++ [name]) rest
      else .error .enotdir

/-- The lookup with a bound on the links it follows. -/
def walk (follow missing : Bool) : Nat → Loc → List Component → Except Errno Loc
  | 0 => t.walkFrom (fun _ _ => .error .eloop) follow missing
  | limit + 1 => t.walkFrom (walk follow missing limit) follow missing

variable {t}

/-- A lookup, however many links it follows. -/
inductive Walks (t : Tree) (follow missing : Bool) : Loc → List Component → Loc → Prop
  | done (cur : Loc) : Walks t follow missing cur [] cur
  | rootDir {cur rest loc} (hdir : t.isDir cur = true) (h : Walks t follow missing [] rest loc) :
      Walks t follow missing cur (.rootDir :: rest) loc
  | curDir {cur rest loc} (hdir : t.isDir cur = true) (h : Walks t follow missing cur rest loc) :
      Walks t follow missing cur (.curDir :: rest) loc
  | parentDir {cur rest loc} (hdir : t.isDir cur = true)
      (h : Walks t follow missing cur.dropLast rest loc) :
      Walks t follow missing cur (.parentDir :: rest) loc
  | entry {cur name n rest loc} (hdir : t.isDir cur = true) (hn : t.node (cur ++ [name]) = some n)
      (hlink : n.isLink = false) (h : Walks t follow missing (cur ++ [name]) rest loc) :
      Walks t follow missing cur (.normal name :: rest) loc
  | link {cur name text rest loc} (hdir : t.isDir cur = true)
      (hn : t.node (cur ++ [name]) = some (.link text)) (hgo : rest ≠ [] ∨ follow = true)
      (h : Walks t follow missing (linkBase cur text) (steps text ++ rest) loc) :
      Walks t follow missing cur (.normal name :: rest) loc
  | last {cur name text} (hdir : t.isDir cur = true)
      (hn : t.node (cur ++ [name]) = some (.link text)) (hfollow : follow = false) :
      Walks t follow missing cur [.normal name] (cur ++ [name])
  | new {cur name} (hdir : t.isDir cur = true) (hn : t.node (cur ++ [name]) = none)
      (hmissing : missing = true) : Walks t follow missing cur [.normal name] (cur ++ [name])

theorem walkFrom_sound {onLink : Loc → List Component → Except Errno Loc} {follow missing : Bool}
    (honLink : ∀ cur cs loc, onLink cur cs = .ok loc → Walks t follow missing cur cs loc) :
    ∀ (cs : List Component) (cur loc : Loc), t.walkFrom onLink follow missing cur cs = .ok loc →
      Walks t follow missing cur cs loc := by
  intro cs
  induction cs with
  | nil =>
      intro cur loc h
      cases h
      exact .done cur
  | cons c rest ih =>
      intro cur loc h
      rw [walkFrom.eq_def] at h
      dsimp only at h
      by_cases hdir : t.isDir cur = true
      · rw [if_pos hdir] at h
        cases c with
        | rootDir => exact .rootDir hdir (ih _ _ h)
        | curDir => exact .curDir hdir (ih _ _ h)
        | parentDir => exact .parentDir hdir (ih _ _ h)
        | normal name =>
            dsimp only at h
            cases hn : t.node (cur ++ [name]) with
            | none =>
                simp only [hn] at h
                split at h
                · rename_i hlast
                  cases h
                  obtain ⟨hrest, hmissing⟩ := Bool.and_eq_true_iff.mp hlast
                  obtain rfl := List.isEmpty_iff.mp hrest
                  exact .new hdir hn hmissing
                · cases h
            | some n =>
                simp only [hn] at h
                cases n with
                | link text =>
                    dsimp only at h
                    split at h
                    · rename_i hlast
                      cases h
                      obtain ⟨hrest, hfollow⟩ := Bool.and_eq_true_iff.mp hlast
                      obtain rfl := List.isEmpty_iff.mp hrest
                      exact .last hdir hn (by simpa using hfollow)
                    · rename_i hgo
                      refine .link hdir hn ?_ (honLink _ _ _ h)
                      cases rest with
                      | nil => exact .inr (by simpa using hgo)
                      | cons _ _ => exact .inl (List.cons_ne_nil _ _)
                | dir m => exact .entry hdir hn rfl (ih _ _ h)
                | file m content => exact .entry hdir hn rfl (ih _ _ h)
                | special m => exact .entry hdir hn rfl (ih _ _ h)
      · rw [if_neg hdir] at h
        cases h

/-- What a bounded lookup finds is found. -/
theorem walk_sound {follow missing : Bool} :
    ∀ {limit : Nat} {cur : Loc} {cs : List Component} {loc : Loc},
      t.walk follow missing limit cur cs = .ok loc → Walks t follow missing cur cs loc := by
  intro limit
  induction limit with
  | zero =>
      refine fun h => walkFrom_sound (fun _ _ _ h => ?_) _ _ _ h
      cases h
  | succ limit ih => exact fun h => walkFrom_sound (fun _ _ _ h => ih h) _ _ _ h

namespace Walks

variable {follow missing : Bool} {cur mid loc : Loc} {cs ds : List Component}

/-- Two lookups in a row. -/
theorem append (h : Walks t true false cur cs mid) (hne : ds ≠ [])
    (h' : Walks t follow missing mid ds loc) : Walks t follow missing cur (cs ++ ds) loc := by
  induction h with
  | done cur => exact h'
  | rootDir hdir _ ih => exact .rootDir hdir (ih h')
  | curDir hdir _ ih => exact .curDir hdir (ih h')
  | parentDir hdir _ ih => exact .parentDir hdir (ih h')
  | entry hdir hn hlink _ ih => exact .entry hdir hn hlink (ih h')
  | link hdir hn _ _ ih =>
      refine .link hdir hn (.inl fun heq => hne (List.append_eq_nil_iff.mp heq).2) ?_
      have hrest := ih h'
      rw [List.append_assoc] at hrest
      exact hrest
  | last hdir hn hfollow => cases hfollow
  | new hdir hn hmissing => cases hmissing

/-- A lookup cut in two: the links of the first part are followed. -/
theorem split (h : Walks t follow missing cur (cs ++ ds) loc) (hne : ds ≠ []) :
    ∃ mid, Walks t true false cur cs mid ∧ Walks t follow missing mid ds loc := by
  obtain ⟨es, hes⟩ : ∃ es, es = cs ++ ds := ⟨_, rfl⟩
  rw [← hes] at h
  induction h generalizing cs with
  | done cur =>
      have hds : ds = [] := (List.append_eq_nil_iff.mp hes.symm).2
      exact absurd hds hne
  | @rootDir cur rest loc hdir h ih =>
      cases cs with
      | nil =>
          obtain rfl : _ = ds := hes
          exact ⟨cur, .done cur, .rootDir hdir h⟩
      | cons c cs =>
          obtain ⟨rfl, rfl⟩ := List.cons.inj hes
          obtain ⟨mid, h1, h2⟩ := ih rfl
          exact ⟨mid, .rootDir hdir h1, h2⟩
  | @curDir cur rest loc hdir h ih =>
      cases cs with
      | nil =>
          obtain rfl : _ = ds := hes
          exact ⟨cur, .done cur, .curDir hdir h⟩
      | cons c cs =>
          obtain ⟨rfl, rfl⟩ := List.cons.inj hes
          obtain ⟨mid, h1, h2⟩ := ih rfl
          exact ⟨mid, .curDir hdir h1, h2⟩
  | @parentDir cur rest loc hdir h ih =>
      cases cs with
      | nil =>
          obtain rfl : _ = ds := hes
          exact ⟨cur, .done cur, .parentDir hdir h⟩
      | cons c cs =>
          obtain ⟨rfl, rfl⟩ := List.cons.inj hes
          obtain ⟨mid, h1, h2⟩ := ih rfl
          exact ⟨mid, .parentDir hdir h1, h2⟩
  | @entry cur name n rest loc hdir hn hlink h ih =>
      cases cs with
      | nil =>
          obtain rfl : _ = ds := hes
          exact ⟨cur, .done cur, .entry hdir hn hlink h⟩
      | cons c cs =>
          obtain ⟨rfl, rfl⟩ := List.cons.inj hes
          obtain ⟨mid, h1, h2⟩ := ih rfl
          exact ⟨mid, .entry hdir hn hlink h1, h2⟩
  | @link cur name text rest loc hdir hn hgo h ih =>
      cases cs with
      | nil =>
          obtain rfl : _ = ds := hes
          exact ⟨cur, .done cur, .link hdir hn hgo h⟩
      | cons c cs =>
          obtain ⟨rfl, rfl⟩ := List.cons.inj hes
          obtain ⟨mid, h1, h2⟩ := ih (List.append_assoc _ _ _).symm
          exact ⟨mid, .link hdir hn (.inr rfl) h1, h2⟩
  | @last cur name text hdir hn hfollow =>
      cases cs with
      | nil =>
          obtain rfl : _ = ds := hes
          exact ⟨cur, .done cur, .last hdir hn hfollow⟩
      | cons c cs =>
          obtain ⟨_, hnil⟩ := List.cons.inj hes
          exact absurd (List.append_eq_nil_iff.mp hnil.symm).2 hne
  | @new cur name hdir hn hmissing =>
      cases cs with
      | nil =>
          obtain rfl : _ = ds := hes
          exact ⟨cur, .done cur, .new hdir hn hmissing⟩
      | cons c cs =>
          obtain ⟨_, hnil⟩ := List.cons.inj hes
          exact absurd (List.append_eq_nil_iff.mp hnil.symm).2 hne

/-- A lookup finds one entry. -/
theorem unique {missing' : Bool} {loc' : Loc} (h : Walks t follow missing cur cs loc)
    (h' : Walks t follow missing' cur cs loc') : loc = loc' := by
  induction h with
  | done cur =>
      cases h'
      rfl
  | rootDir hdir _ ih =>
      cases h' with
      | rootDir _ h' => exact ih h'
  | curDir hdir _ ih =>
      cases h' with
      | curDir _ h' => exact ih h'
  | parentDir hdir _ ih =>
      cases h' with
      | parentDir _ h' => exact ih h'
  | entry hdir hn hlink _ ih =>
      cases h' with
      | entry _ _ _ h' => exact ih h'
      | link _ hn' => rw [hn] at hn'; cases hn'; cases hlink
      | last _ hn' => rw [hn] at hn'; cases hn'; cases hlink
      | new _ hn' => rw [hn] at hn'; cases hn'
  | link hdir hn hgo _ ih =>
      cases h' with
      | entry _ hn' hlink' => rw [hn] at hn'; cases hn'; cases hlink'
      | link _ hn' _ h' =>
          rw [hn] at hn'
          cases hn'
          exact ih h'
      | last _ hn' hfollow =>
          rcases hgo with hne | htrue
          · exact absurd rfl hne
          · rw [hfollow] at htrue
            cases htrue
      | new _ hn' => rw [hn] at hn'; cases hn'
  | last hdir hn hfollow =>
      cases h' with
      | entry _ hn' hlink' => rw [hn] at hn'; cases hn'; cases hlink'
      | link _ hn' hgo =>
          rcases hgo with hne | htrue
          · exact absurd rfl hne
          · rw [hfollow] at htrue
            cases htrue
      | last => rfl
      | new => rfl
  | new hdir hn hmissing =>
      cases h' with
      | entry _ hn' => rw [hn] at hn'; cases hn'
      | link _ hn' => rw [hn] at hn'; cases hn'
      | last => rfl
      | new => rfl

/-- A name at the end: an entry, a link that is followed or not, or a missing entry. -/
theorem name_cases {name : OsString} (h : Walks t follow missing cur [.normal name] loc) :
    t.isDir cur = true ∧
      ((∃ n, t.node (cur ++ [name]) = some n ∧ n.isLink = false ∧ loc = cur ++ [name]) ∨
      (∃ text, t.node (cur ++ [name]) = some (.link text) ∧ follow = true ∧
        Walks t follow missing (linkBase cur text) (steps text) loc) ∨
      (∃ text, t.node (cur ++ [name]) = some (.link text) ∧ follow = false ∧
        loc = cur ++ [name]) ∨
      (t.node (cur ++ [name]) = none ∧ missing = true ∧ loc = cur ++ [name])) := by
  cases h with
  | entry hdir hn hlink h =>
      cases h
      exact ⟨hdir, .inl ⟨_, hn, hlink, rfl⟩⟩
  | link hdir hn hgo h =>
      rw [List.append_nil] at h
      exact ⟨hdir, .inr (.inl ⟨_, hn, hgo.resolve_left fun hne => hne rfl, h⟩)⟩
  | last hdir hn hfollow => exact ⟨hdir, .inr (.inr (.inl ⟨_, hn, hfollow, rfl⟩))⟩
  | new hdir hn hmissing => exact ⟨hdir, .inr (.inr (.inr ⟨hn, hmissing, rfl⟩))⟩

/-- A `.` at the end asks for a directory. -/
theorem curDir_last (h : Walks t follow missing cur (cs ++ [.curDir]) loc) :
    Walks t true false cur cs loc ∧ t.isDir loc = true := by
  obtain ⟨mid, h1, h2⟩ := h.split (List.cons_ne_nil _ _)
  cases h2 with
  | curDir hdir h2 =>
      cases h2
      exact ⟨h1, hdir⟩

theorem node_dropLast (h : t.node cur ≠ none) : t.node cur.dropLast ≠ none := by
  rcases List.eq_nil_or_concat cur with rfl | ⟨dir, name, rfl⟩
  · exact h
  · rw [List.concat_eq_append] at h ⊢
    obtain ⟨m, hm⟩ := t.parent dir name h
    rw [List.dropLast_concat, hm]
    exact Option.some_ne_none _

theorem isDir_dropLast (h : t.isDir cur = true) : t.isDir cur.dropLast = true := by
  rcases List.eq_nil_or_concat cur with rfl | ⟨dir, name, rfl⟩
  · exact h
  · obtain ⟨m, hm⟩ := isDir_iff.mp h
    rw [List.concat_eq_append] at hm ⊢
    rw [List.dropLast_concat]
    exact isDir_iff.mpr (t.parent dir name (by rw [hm]; exact Option.some_ne_none _))

theorem isDir_root (t : Tree) : t.isDir [] = true := isDir_iff.mpr t.root

/-- Only a name at the end can lead to what is no directory. -/
theorem last_name (h : Walks t follow missing cur cs loc) (hcur : t.isDir cur = true)
    (hloc : t.isDir loc = false) : ∃ pre name, cs = pre ++ [.normal name] := by
  rcases List.eq_nil_or_concat cs with rfl | ⟨pre, c, rfl⟩
  · cases h
    rw [hcur] at hloc
    cases hloc
  · rw [List.concat_eq_append] at h ⊢
    obtain ⟨mid, _, h⟩ := h.split (List.cons_ne_nil _ _)
    cases c with
    | normal name => exact ⟨pre, name, rfl⟩
    | rootDir =>
        cases h with
        | rootDir _ h =>
            cases h
            rw [isDir_root] at hloc
            cases hloc
    | curDir =>
        cases h with
        | curDir hdir h =>
            cases h
            rw [hdir] at hloc
            cases hloc
    | parentDir =>
        cases h with
        | parentDir hdir h =>
            cases h
            rw [isDir_dropLast hdir] at hloc
            cases hloc

/-- A lookup that follows all links ends at no link. -/
theorem ends_at (h : Walks t true missing cur cs loc) (hcur : t.isDir cur = true) :
    (t.node loc = none ∧ missing = true) ∨ ∃ n, t.node loc = some n ∧ n.isLink = false := by
  have hdirs (dir : Loc) (hdir : t.isDir dir = true) : ∃ n, t.node dir = some n ∧
      n.isLink = false := by
    obtain ⟨m, hm⟩ := isDir_iff.mp hdir
    exact ⟨_, hm, rfl⟩
  have hgen : (∃ n, t.node cur = some n ∧ n.isLink = false) →
      (t.node loc = none ∧ missing = true) ∨ ∃ n, t.node loc = some n ∧ n.isLink = false := by
    clear hcur
    induction h with
    | done cur => exact .inr
    | rootDir hdir _ ih => exact fun _ => ih (hdirs _ (isDir_root t))
    | curDir hdir _ ih => exact ih
    | parentDir hdir _ ih => exact fun _ => ih (hdirs _ (isDir_dropLast hdir))
    | entry hdir hn hlink _ ih => exact fun _ => ih ⟨_, hn, hlink⟩
    | @link cur name text rest loc hdir hn hgo _ ih =>
        intro _
        refine ih (hdirs _ ?_)
        rw [linkBase]
        split
        · exact isDir_root t
        · exact hdir
    | last hdir hn hfollow => cases hfollow
    | new hdir hn hmissing => exact fun _ => .inl ⟨hn, hmissing⟩
  exact hgen (hdirs _ hcur)

/-- What a lookup that follows all links finds is no link. -/
theorem ends (h : Walks t true false cur cs loc) (hcur : t.isDir cur = true) :
    ∃ n, t.node loc = some n ∧ n.isLink = false :=
  (h.ends_at hcur).resolve_left fun hnone => Bool.false_ne_true hnone.2

/-- A lookup that leaves a link at its end alone can be gone on with by following it. -/
theorem follow_last (h : Walks t follow false cur cs loc) :
    Walks t true false cur cs loc ∨
    ∃ dir name text, loc = dir ++ [name] ∧ t.node loc = some (.link text) ∧
      ∀ y, Walks t true false dir [.normal name] y → Walks t true false cur cs y := by
  induction h with
  | done cur => exact .inl (.done cur)
  | rootDir hdir _ ih =>
      rcases ih with h | ⟨dir, name, text, rfl, hn, hgo⟩
      · exact .inl (.rootDir hdir h)
      · exact .inr ⟨dir, name, text, rfl, hn, fun y hy => .rootDir hdir (hgo y hy)⟩
  | curDir hdir _ ih =>
      rcases ih with h | ⟨dir, name, text, rfl, hn, hgo⟩
      · exact .inl (.curDir hdir h)
      · exact .inr ⟨dir, name, text, rfl, hn, fun y hy => .curDir hdir (hgo y hy)⟩
  | parentDir hdir _ ih =>
      rcases ih with h | ⟨dir, name, text, rfl, hn, hgo⟩
      · exact .inl (.parentDir hdir h)
      · exact .inr ⟨dir, name, text, rfl, hn, fun y hy => .parentDir hdir (hgo y hy)⟩
  | entry hdir hn' hlink _ ih =>
      rcases ih with h | ⟨dir, name, text, rfl, hn, hgo⟩
      · exact .inl (.entry hdir hn' hlink h)
      · exact .inr ⟨dir, name, text, rfl, hn, fun y hy => .entry hdir hn' hlink (hgo y hy)⟩
  | link hdir hn' _ _ ih =>
      rcases ih with h | ⟨dir, name, text, rfl, hn, hgo⟩
      · exact .inl (.link hdir hn' (.inr rfl) h)
      · exact .inr ⟨dir, name, text, rfl, hn, fun y hy => .link hdir hn' (.inr rfl) (hgo y hy)⟩
  | @last cur name text hdir hn _ => exact .inr ⟨cur, name, text, rfl, hn, fun _ hy => hy⟩
  | new hdir hn hmissing => cases hmissing

/-- A lookup of something starts at a directory. -/
theorem isDir_start (h : Walks t follow missing cur cs loc) (hne : cs ≠ []) :
    t.isDir cur = true := by
  cases h with
  | done cur => exact absurd rfl hne
  | rootDir hdir _ => exact hdir
  | curDir hdir _ => exact hdir
  | parentDir hdir _ => exact hdir
  | entry hdir _ _ _ => exact hdir
  | link hdir _ _ _ => exact hdir
  | last hdir _ _ => exact hdir
  | new hdir _ _ => exact hdir

/-- Where a lookup finds a missing entry one can be put. -/
theorem fits (h : Walks t follow missing cur cs loc)
    (hcs : ∀ name, Component.normal name ∈ cs → EntryName name) (hcur : t.node cur ≠ none)
    (hn : t.node loc = none) : t.fits loc = true := by
  have hroot : t.node [] ≠ none := by
    obtain ⟨m, hm⟩ := t.root
    rw [hm]
    exact Option.some_ne_none _
  have hdirs (dir : Loc) (hdir : t.isDir dir = true) : t.node dir ≠ none := by
    obtain ⟨m, hm⟩ := isDir_iff.mp hdir
    rw [hm]
    exact Option.some_ne_none _
  induction h with
  | done cur => exact absurd hn hcur
  | rootDir hdir _ ih => exact ih (fun n h => hcs n (List.mem_cons_of_mem _ h)) hroot hn
  | curDir hdir _ ih => exact ih (fun n h => hcs n (List.mem_cons_of_mem _ h)) hcur hn
  | parentDir hdir _ ih =>
      exact ih (fun n h => hcs n (List.mem_cons_of_mem _ h)) (node_dropLast hcur) hn
  | entry hdir hn' _ _ ih =>
      refine ih (fun n h => hcs n (List.mem_cons_of_mem _ h)) ?_ hn
      rw [hn']
      exact Option.some_ne_none _
  | @link cur name text rest loc hdir hn' hgo _ ih =>
      refine ih (fun n h => ?_) ?_ hn
      · rcases List.mem_append.mp h with h | h
        · exact entryName_of_mem_steps h
        · exact hcs n (List.mem_cons_of_mem _ h)
      · rw [linkBase]
        split
        · exact hroot
        · exact hdirs _ hdir
  | last hdir hn' _ =>
      rw [hn'] at hn
      cases hn
  | new hdir hn' _ =>
      refine fits_concat.mpr ⟨hdir, hcs _ List.mem_cons_self, ?_⟩
      rw [isDir, hn]
      rfl

/-- A path at whose place nothing is does not end in a separator or a `.`. -/
theorem steps_new {p : OsString} (h : Walks t follow missing cur (steps p) loc)
    (hn : t.node loc = none) : Walks t follow missing cur (body p) loc := by
  rw [steps] at h
  split at h
  · obtain ⟨m, hm⟩ := isDir_iff.mp h.curDir_last.2
    rw [hn] at hm
    cases hm
  · rw [List.append_nil] at h
    exact h

end Walks

/-- An entry that is no directory can be replaced. -/
theorem fits_of_node {loc : Loc} {n : Node} (hn : t.node loc = some n) (hdir : n.isDir = false) :
    t.fits loc = true := by
  have hno : t.isDir loc = false := by
    rw [isDir, hn]
    exact hdir
  rcases List.eq_nil_or_concat loc with rfl | ⟨dir, name, rfl⟩
  · rw [Walks.isDir_root t] at hno
    cases hno
  · rw [List.concat_eq_append] at hn hno ⊢
    have hne : t.node (dir ++ [name]) ≠ none := by
      rw [hn]
      exact Option.some_ne_none _
    exact fits_concat.mpr ⟨isDir_iff.mpr (t.parent _ _ hne), t.entryName _ _ hne, hno⟩

/-! ## System calls -/

/-- How a process looks paths up: the links followed in one lookup, and where
relative paths start. -/
structure View where
  limit : Nat
  cwd : Loc

variable (v : View) (t)

def start (p : OsString) : Loc := if hasRoot p then [] else v.cwd

def lookup (follow missing : Bool) (p : OsString) : Except Errno Loc :=
  if p = [] then .error .enoent else t.walk follow missing v.limit (start v p) (steps p)

/-- `lstat`, or `stat` if links are followed. -/
def status (follow : Bool) (p : OsString) : Except Errno Node :=
  match t.lookup v follow false p with
  | .error e => .error e
  | .ok loc =>
      match t.node loc with
      | some n => .ok n
      | none => .error .enoent

def readLink (p : OsString) : Except Errno OsString :=
  match t.status v false p with
  | .error e => .error e
  | .ok (.link text) => .ok text
  | .ok _ => .error .einval

/-- The separators at the end of the path of a new directory do not count. -/
def mkdir (p : OsString) (mode : Nat) : Except Errno Tree :=
  if p = [] then .error .enoent
  else
    match t.walk false true v.limit (start v p) (steps (trimSeps p)) with
    | .error e => .error e
    | .ok loc => if (t.node loc).isSome then .error .eexist else .ok (t.put loc (.dir mode))

def symlink (text p : OsString) : Except Errno Tree :=
  if text = [] then .error .enoent
  else
    match t.lookup v false true p with
    | .error e => .error e
    | .ok loc => if (t.node loc).isSome then .error .eexist else .ok (t.put loc (.link text))

def chmod (p : OsString) (mode : Nat) : Except Errno Tree :=
  match t.lookup v true false p with
  | .error e => .error e
  | .ok loc => .ok (t.chmodAt loc mode)

variable {v t}

theorem lookup_ok {follow missing : Bool} {p : OsString} {loc : Loc}
    (h : t.lookup v follow missing p = .ok loc) :
    Walks t follow missing (start v p) (steps p) loc := by
  rw [lookup] at h
  split at h
  · cases h
  · exact walk_sound h

theorem status_lookup {follow : Bool} {p : OsString} {n : Node} (h : t.status v follow p = .ok n) :
    ∃ loc, t.lookup v follow false p = .ok loc ∧ t.node loc = some n := by
  rw [status] at h
  cases hl : t.lookup v follow false p with
  | error e =>
      rw [hl] at h
      cases h
  | ok loc =>
      simp only [hl] at h
      cases hn : t.node loc with
      | none =>
          rw [hn] at h
          cases h
      | some n' =>
          rw [hn] at h
          cases h
          exact ⟨loc, rfl, hn⟩

theorem status_ok {follow : Bool} {p : OsString} {n : Node} (h : t.status v follow p = .ok n) :
    ∃ loc, Walks t follow false (start v p) (steps p) loc ∧ t.node loc = some n := by
  obtain ⟨loc, hl, hn⟩ := status_lookup h
  exact ⟨loc, lookup_ok hl, hn⟩

theorem readLink_ok {p text : OsString} (h : t.readLink v p = .ok text) :
    t.status v false p = .ok (.link text) := by
  rw [readLink] at h
  cases hs : t.status v false p with
  | error e =>
      rw [hs] at h
      cases h
  | ok n =>
      rw [hs] at h
      cases n with
      | link text' =>
          cases h
          rfl
      | dir m => cases h
      | file m content => cases h
      | special m => cases h

theorem mkdir_ok {p : OsString} {mode : Nat} {t' : Tree} (h : t.mkdir v p mode = .ok t') :
    ∃ loc, Walks t false true (start v p) (body p) loc ∧ t.node loc = none ∧
      t' = t.put loc (.dir mode) := by
  rw [mkdir] at h
  split at h
  · cases h
  · cases hw : t.walk false true v.limit (start v p) (steps (trimSeps p)) with
    | error e =>
        rw [hw] at h
        cases h
    | ok loc =>
        simp only [hw] at h
        split at h
        · cases h
        · rename_i hnone
          cases h
          have hn : t.node loc = none := by simpa using hnone
          have hwalk := (walk_sound hw).steps_new hn
          rw [body_trimSeps] at hwalk
          exact ⟨loc, hwalk, hn, rfl⟩

theorem symlink_ok {text p : OsString} {t' : Tree} (h : t.symlink v text p = .ok t') :
    ∃ loc, Walks t false true (start v p) (body p) loc ∧ t.node loc = none ∧
      t' = t.put loc (.link text) ∧ text ≠ [] := by
  rw [symlink] at h
  split at h
  · cases h
  · rename_i hne
    cases hl : t.lookup v false true p with
    | error e =>
        rw [hl] at h
        cases h
    | ok loc =>
        simp only [hl] at h
        split at h
        · cases h
        · rename_i hnone
          cases h
          have hn : t.node loc = none := by simpa using hnone
          exact ⟨loc, (lookup_ok hl).steps_new hn, hn, rfl, hne⟩

theorem chmod_ok {p : OsString} {mode : Nat} {t' : Tree} (h : t.chmod v p mode = .ok t') :
    ∃ loc, t' = t.chmodAt loc mode := by
  rw [chmod] at h
  cases hl : t.lookup v true false p with
  | error e =>
      rw [hl] at h
      cases h
  | ok loc =>
      rw [hl] at h
      cases h
      exact ⟨loc, rfl⟩

/-- Where there is no link at the end, `stat` finds what `lstat` finds. -/
theorem status_unique {p : OsString} {n n' : Node} (h : t.status v false p = .ok n)
    (hlink : n.isLink = false) (h' : t.status v true p = .ok n') : n' = n := by
  obtain ⟨loc, hwalk, hn⟩ := status_ok h
  obtain ⟨loc', hwalk', hn'⟩ := status_ok h'
  rcases hwalk.follow_last with hwalk | ⟨dir, name, text, _, htext, _⟩
  · obtain rfl := hwalk.unique hwalk'
    exact Option.some.inj (hn'.symm.trans hn)
  · rw [hn] at htext
    obtain rfl := Option.some.inj htext
    cases hlink

/-! ## Trees with more entries -/

/-- Every entry of `t` is one of `t'`, but for its mode. -/
def Extends (t t' : Tree) : Prop :=
  ∀ loc n, t.node loc = some n → ∃ n', t'.node loc = some n' ∧ n.Like n'

theorem Extends.refl (t : Tree) : Extends t t := fun _ n h => ⟨n, h, .refl n⟩

theorem Extends.trans {a b c : Tree} (h : Extends a b) (h' : Extends b c) : Extends a c := by
  intro loc n hn
  obtain ⟨n', hn', hlike⟩ := h loc n hn
  obtain ⟨n'', hn'', hlike'⟩ := h' loc n' hn'
  exact ⟨n'', hn'', hlike.trans hlike'⟩

theorem Extends.isDir {t' : Tree} (h : Extends t t') {loc : Loc} (hdir : t.isDir loc = true) :
    t'.isDir loc = true := by
  obtain ⟨m, hm⟩ := isDir_iff.mp hdir
  obtain ⟨n, hn, hlike⟩ := h loc _ hm
  rw [Tree.isDir, hn]
  exact hlike.isDir

/-- Every entry of `t` is one of `t'`, but for its mode and its content. -/
def KeepsKinds (t t' : Tree) : Prop :=
  ∀ loc n, t.node loc = some n → ∃ n', t'.node loc = some n' ∧ n.SameKind n'

theorem KeepsKinds.refl (t : Tree) : KeepsKinds t t := fun _ n h => ⟨n, h, .refl n⟩

theorem KeepsKinds.trans {a b c : Tree} (h : KeepsKinds a b) (h' : KeepsKinds b c) :
    KeepsKinds a c := by
  intro loc n hn
  obtain ⟨n', hn', hkind⟩ := h loc n hn
  obtain ⟨n'', hn'', hkind'⟩ := h' loc n' hn'
  exact ⟨n'', hn'', hkind.trans hkind'⟩

theorem Extends.keepsKinds {t' : Tree} (h : Extends t t') : KeepsKinds t t' := by
  intro loc n hn
  obtain ⟨n', hn', hlike⟩ := h loc n hn
  exact ⟨n', hn', hlike.sameKind⟩

theorem KeepsKinds.isDir {t' : Tree} (h : KeepsKinds t t') {loc : Loc}
    (hdir : t.isDir loc = true) : t'.isDir loc = true := by
  obtain ⟨m, hm⟩ := isDir_iff.mp hdir
  obtain ⟨n, hn, hkind⟩ := h loc _ hm
  rw [Tree.isDir, hn]
  exact hkind.1

/-- So does one that may end at a missing entry, once that is there. -/
theorem Walks.filled {t' : Tree} {follow missing : Bool} {cur loc : Loc} {cs : List Component}
    (hkeeps : KeepsKinds t t')
    (hnew : missing = true → ∃ n, t'.node loc = some n ∧ (n.isLink = false ∨ follow = false))
    (h : Walks t follow missing cur cs loc) : Walks t' follow false cur cs loc := by
  induction h with
  | done cur => exact .done cur
  | rootDir hdir _ ih => exact .rootDir (hkeeps.isDir hdir) (ih hnew)
  | curDir hdir _ ih => exact .curDir (hkeeps.isDir hdir) (ih hnew)
  | parentDir hdir _ ih => exact .parentDir (hkeeps.isDir hdir) (ih hnew)
  | entry hdir hn hlink _ ih =>
      obtain ⟨n', hn', hkind⟩ := hkeeps _ _ hn
      exact .entry (hkeeps.isDir hdir) hn' (hkind.isLink.trans hlink) (ih hnew)
  | link hdir hn hgo _ ih =>
      obtain ⟨n', hn', hkind⟩ := hkeeps _ _ hn
      obtain rfl := (hkind.2.2 _).mp rfl
      exact .link (hkeeps.isDir hdir) hn' hgo (ih hnew)
  | last hdir hn hfollow =>
      obtain ⟨n', hn', hkind⟩ := hkeeps _ _ hn
      obtain rfl := (hkind.2.2 _).mp rfl
      exact .last (hkeeps.isDir hdir) hn' hfollow
  | new hdir hn hmissing =>
      obtain ⟨n, hn', hlink⟩ := hnew hmissing
      cases hisLink : n.isLink with
      | false => exact .entry (hkeeps.isDir hdir) hn' hisLink (.done _)
      | true =>
          cases n with
          | link text =>
              refine .last (hkeeps.isDir hdir) hn' (hlink.resolve_left fun hfalse => ?_)
              cases hfalse
          | dir m => cases hisLink
          | file m content => cases hisLink
          | special m => cases hisLink

/-- A lookup finds the same entry among more. -/
theorem Walks.keepsKinds {t' : Tree} {follow : Bool} {cur loc : Loc} {cs : List Component}
    (hkeeps : KeepsKinds t t') (h : Walks t follow false cur cs loc) :
    Walks t' follow false cur cs loc := h.filled hkeeps fun hmissing => by cases hmissing

theorem walkFrom_filled {t' : Tree} {onLink onLink' : Loc → List Component → Except Errno Loc}
    {follow missing : Bool} {loc : Loc} (hkeeps : KeepsKinds t t')
    (hnew : missing = true → ∃ n, t'.node loc = some n ∧ (n.isLink = false ∨ follow = false))
    (honLink : ∀ cur cs, onLink cur cs = .ok loc → onLink' cur cs = .ok loc) :
    ∀ (cs : List Component) (cur : Loc), t.walkFrom onLink follow missing cur cs = .ok loc →
      t'.walkFrom onLink' follow false cur cs = .ok loc := by
  intro cs
  induction cs with
  | nil => exact fun cur h => h
  | cons c rest ih =>
      intro cur h
      rw [walkFrom.eq_def] at h ⊢
      dsimp only at h ⊢
      by_cases hdir : t.isDir cur = true
      · rw [if_pos hdir] at h
        rw [if_pos (hkeeps.isDir hdir)]
        cases c with
        | rootDir => exact ih _ h
        | curDir => exact ih _ h
        | parentDir => exact ih _ h
        | normal name =>
            dsimp only at h ⊢
            cases hn : t.node (cur ++ [name]) with
            | none =>
                simp only [hn] at h
                split at h
                · rename_i hlast
                  cases h
                  obtain ⟨hrest, hmissing⟩ := Bool.and_eq_true_iff.mp hlast
                  obtain ⟨n, hn', hlink⟩ := hnew hmissing
                  obtain rfl := List.isEmpty_iff.mp hrest
                  simp only [hn']
                  cases n with
                  | link text =>
                      obtain rfl := hlink.resolve_left fun hfalse => by cases hfalse
                      rfl
                  | dir m => rfl
                  | file m content => rfl
                  | special m => rfl
                · cases h
            | some n =>
                obtain ⟨n', hn', hkind⟩ := hkeeps _ _ hn
                simp only [hn] at h
                cases hlink : n.isLink with
                | true =>
                    cases n with
                    | link text =>
                        obtain rfl := (hkind.2.2 _).mp rfl
                        simp only [hn']
                        dsimp only at h
                        split at h
                        · rename_i hlast
                          rw [if_pos hlast]
                          exact h
                        · rename_i hgo
                          rw [if_neg hgo]
                          exact honLink _ _ h
                    | dir m => cases hlink
                    | file m content => cases hlink
                    | special m => cases hlink
                | false =>
                    have hlink' : n'.isLink = false := hkind.isLink.trans hlink
                    have hgo : t.walkFrom onLink follow missing (cur ++ [name]) rest = .ok loc := by
                      cases n with
                      | link text => cases hlink
                      | dir m => exact h
                      | file m content => exact h
                      | special m => exact h
                    have hgo' := ih _ hgo
                    simp only [hn']
                    cases n' with
                    | link text => cases hlink'
                    | dir m => exact hgo'
                    | file m content => exact hgo'
                    | special m => exact hgo'
      · rw [if_neg hdir] at h
        cases h

/-- So does a bounded one, with the same bound. -/
theorem walk_filled {t' : Tree} {follow missing : Bool} {loc : Loc} (hkeeps : KeepsKinds t t')
    (hnew : missing = true → ∃ n, t'.node loc = some n ∧ (n.isLink = false ∨ follow = false)) :
    ∀ {limit : Nat} {cur : Loc} {cs : List Component},
      t.walk follow missing limit cur cs = .ok loc → t'.walk follow false limit cur cs = .ok loc := by
  intro limit
  induction limit with
  | zero => exact fun h => walkFrom_filled hkeeps hnew (fun _ _ h => by cases h) _ _ h
  | succ limit ih => exact fun h => walkFrom_filled hkeeps hnew (fun _ _ h => ih h) _ _ h

theorem lookup_filled {v : View} {t' : Tree} {follow missing : Bool} {p : OsString} {loc : Loc}
    (hkeeps : KeepsKinds t t')
    (hnew : missing = true → ∃ n, t'.node loc = some n ∧ (n.isLink = false ∨ follow = false))
    (h : t.lookup v follow missing p = .ok loc) : t'.lookup v follow false p = .ok loc := by
  rw [lookup] at h ⊢
  split at h
  · cases h
  · rename_i hne
    rw [if_neg hne]
    exact walk_filled hkeeps hnew h

theorem lookup_keepsKinds {v : View} {t' : Tree} {follow : Bool} {p : OsString} {loc : Loc}
    (hkeeps : KeepsKinds t t') (h : t.lookup v follow false p = .ok loc) :
    t'.lookup v follow false p = .ok loc := lookup_filled hkeeps (fun hmissing => by cases hmissing) h

theorem status_keepsKinds {v : View} {t' : Tree} {follow : Bool} {p : OsString} {n : Node}
    (hkeeps : KeepsKinds t t') (h : t.status v follow p = .ok n) :
    ∃ n', t'.status v follow p = .ok n' ∧ n.SameKind n' := by
  obtain ⟨loc, hloc, hn⟩ := status_lookup h
  obtain ⟨n', hn', hkind⟩ := hkeeps loc n hn
  refine ⟨n', ?_, hkind⟩
  rw [status, lookup_keepsKinds hkeeps hloc]
  simp only [hn']

/-- What is found through a link at the end has a link, or is found, where that is left
alone. -/
theorem walkFrom_unfollowed {onLink onLink' : Loc → List Component → Except Errno Loc} {loc : Loc}
    (honLink : ∀ cur cs, onLink cur cs = .ok loc → ∃ loc', onLink' cur cs = .ok loc' ∧
      (loc' = loc ∨ ∃ text, t.node loc' = some (.link text))) :
    ∀ (cs : List Component) (cur : Loc), t.walkFrom onLink true false cur cs = .ok loc →
      ∃ loc', t.walkFrom onLink' false false cur cs = .ok loc' ∧
        (loc' = loc ∨ ∃ text, t.node loc' = some (.link text)) := by
  intro cs
  induction cs with
  | nil => exact fun cur h => ⟨loc, h, .inl rfl⟩
  | cons c rest ih =>
      intro cur h
      rw [walkFrom.eq_def] at h
      rw [walkFrom.eq_def]
      dsimp only at h ⊢
      by_cases hdir : t.isDir cur = true
      · rw [if_pos hdir] at h ⊢
        cases c with
        | rootDir => exact ih _ h
        | curDir => exact ih _ h
        | parentDir => exact ih _ h
        | normal name =>
            dsimp only at h ⊢
            cases hn : t.node (cur ++ [name]) with
            | none =>
                simp only [hn, Bool.and_false] at h
                cases h
            | some n =>
                simp only [hn] at h ⊢
                cases n with
                | link text =>
                    simp only [Bool.not_true, Bool.and_false, Bool.not_false, Bool.and_true] at h ⊢
                    cases hrest : rest.isEmpty with
                    | true => exact ⟨_, rfl, .inr ⟨text, hn⟩⟩
                    | false => exact honLink _ _ h
                | dir m => exact ih _ h
                | file m content => exact ih _ h
                | special m => exact ih _ h
      · rw [if_neg hdir] at h
        cases h

theorem walk_unfollowed {loc : Loc} :
    ∀ {limit : Nat} {cur : Loc} {cs : List Component}, t.walk true false limit cur cs = .ok loc →
      ∃ loc', t.walk false false limit cur cs = .ok loc' ∧
        (loc' = loc ∨ ∃ text, t.node loc' = some (.link text)) := by
  intro limit
  induction limit with
  | zero => exact fun h => walkFrom_unfollowed (fun _ _ h => by cases h) _ _ h
  | succ limit ih => exact fun h => walkFrom_unfollowed (fun _ _ h => ih h) _ _ h

/-- What `stat` finds has an entry that `lstat` finds. -/
theorem status_unfollowed {v : View} {p : OsString} {n : Node} (h : t.status v true p = .ok n) :
    ∃ n', t.status v false p = .ok n' := by
  obtain ⟨loc, hloc, hn⟩ := status_lookup h
  rw [lookup] at hloc
  split at hloc
  · cases hloc
  · rename_i hne
    obtain ⟨loc', hwalk, hend⟩ := walk_unfollowed hloc
    rw [status, lookup, if_neg hne, hwalk]
    rcases hend with rfl | ⟨text, hlink⟩
    · exact ⟨n, by simp only [hn]⟩
    · exact ⟨.link text, by simp only [hlink]⟩

theorem Walks.mono {t' : Tree} {follow : Bool} {cur loc : Loc} {cs : List Component}
    (hext : Extends t t') (h : Walks t follow false cur cs loc) :
    Walks t' follow false cur cs loc := h.keepsKinds hext.keepsKinds

theorem status_mono {v : View} {t' : Tree} {follow : Bool} {p : OsString} {n : Node}
    (hext : Extends t t') (h : t.status v follow p = .ok n) :
    ∃ n', t'.status v follow p = .ok n' ∧ n.Like n' := by
  obtain ⟨loc, hloc, hn⟩ := status_lookup h
  obtain ⟨n', hn', hlike⟩ := hext loc n hn
  refine ⟨n', ?_, hlike⟩
  rw [status, lookup_keepsKinds hext.keepsKinds hloc]
  simp only [hn']

theorem chmodAt_extends (t : Tree) (loc : Loc) (mode : Nat) : Extends t (t.chmodAt loc mode) := by
  intro l n hn
  rw [chmodAt_node, hn]
  split
  · exact ⟨_, rfl, n.like_setMode mode⟩
  · exact ⟨n, rfl, .refl n⟩

/-- Putting an entry where there is none, or one like it, loses nothing. -/
theorem put_extends {loc : Loc} {n : Node} (h : ∀ n', t.node loc = some n' → n'.Like n) :
    Extends t (t.put loc n) := by
  intro l n' hn'
  by_cases hfits : t.fits loc = true
  · rw [put_node hfits]
    split
    · rename_i heq
      subst heq
      exact ⟨n, rfl, h n' hn'⟩
    · exact ⟨n', hn', .refl n'⟩
  · rw [put_node_unfit hfits]
    exact ⟨n', hn', .refl n'⟩

/-- The same tree but for modes. -/
structure Alike (t t' : Tree) : Prop where
  forth : Extends t t'
  back : Extends t' t

theorem Alike.refl (t : Tree) : Alike t t := ⟨.refl t, .refl t⟩

theorem Alike.trans {a b c : Tree} (h : Alike a b) (h' : Alike b c) : Alike a c :=
  ⟨h.forth.trans h'.forth, h'.back.trans h.back⟩

theorem chmodAt_alike (t : Tree) (loc : Loc) (mode : Nat) : Alike t (t.chmodAt loc mode) := by
  refine ⟨chmodAt_extends t loc mode, fun l n hn => ?_⟩
  rw [chmodAt_node] at hn
  split at hn
  · cases hl : t.node l with
    | none =>
        rw [hl] at hn
        cases hn
    | some n' =>
        rw [hl] at hn
        cases hn
        exact ⟨n', rfl, (n'.like_setMode mode).symm⟩
  · exact ⟨n, hn, .refl n⟩

end Tree
end FileTree
