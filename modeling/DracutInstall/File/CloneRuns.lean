/-
What a run of `clone_path` that ends well has done.

`StepOk` says it for one call, with the runs of the calls it makes itself, and
`EntryOk` for the branch in the middle; both are read off the ways a call can end
(`StepEnds.ok`).
-/
import DracutInstall.File.ClonePath
import DracutInstall.File.CopyFidelity

namespace DracutInstall
namespace File

open Rust Process UnixPath FileTree

variable {env : Env} {root : OsString}

/-! ## System calls -/

/-- Nothing has changed but what the system counts. -/
structure World.Same (w w' : World) : Prop where
  tree : w'.tree = w.tree
  log : w'.log = w.log

theorem World.Same.refl (w : World) : World.Same w w := ⟨rfl, rfl⟩

theorem World.Same.trans {a b c : World} (h : World.Same a b) (h' : World.Same b c) :
    World.Same a c := ⟨h'.tree.trans h.tree, h'.log.trans h.log⟩

theorem ask_ok {α : Type} {f : Tree → Except Errno α} {w w' : World} {r : Except Errno α}
    (h : ask env f w = some (.ok r, w')) :
    World.Same w w' ∧ ∀ a, r = .ok a → f w.tree = .ok a := by
  rw [ask, call] at h
  split at h
  · cases h
    exact ⟨⟨rfl, rfl⟩, fun a ha => by cases ha⟩
  · cases hf : f w.tree with
    | error e =>
        rw [hf] at h
        cases h
        exact ⟨⟨rfl, rfl⟩, fun a ha => by cases ha⟩
    | ok a =>
        rw [hf] at h
        cases h
        exact ⟨⟨rfl, rfl⟩, fun a ha => ha⟩

theorem change_ok {made : List Made} {f : Tree → Except Errno Tree} {w w' : World}
    {r : Except Errno Unit} (h : change env made f w = some (.ok r, w')) :
    w'.log = w.log ∧ (f w.tree = .ok w'.tree ∨ (w'.tree = w.tree ∧ ∃ e, r = .error e)) := by
  rw [change, call] at h
  split at h
  · cases h
    exact ⟨rfl, .inr ⟨rfl, _, rfl⟩⟩
  · cases hf : f w.tree with
    | error e =>
        rw [hf] at h
        cases h
        exact ⟨rfl, .inr ⟨rfl, _, rfl⟩⟩
    | ok tree =>
        rw [hf] at h
        cases h
        exact ⟨rfl, .inl rfl⟩

theorem change_made {made : List Made} {f : Tree → Except Errno Tree} {w w' : World}
    (h : change env made f w = some (.ok (.ok ()), w')) :
    w'.log = w.log ∧ f w.tree = .ok w'.tree := by
  obtain ⟨hlog, hf | ⟨_, e, he⟩⟩ := change_ok h
  · exact ⟨hlog, hf⟩
  · cases he

theorem setPermissions_ok {p : OsString} {mode : Nat} {w w' : World} {r : Except Errno Unit}
    (h : setPermissions env p mode w = some (.ok r, w')) :
    w'.log = w.log ∧ Tree.Alike w.tree w'.tree := by
  obtain ⟨hlog, hf | ⟨heq, _⟩⟩ := change_ok h
  · obtain ⟨loc, hloc⟩ := Tree.chmod_ok hf
    rw [hloc]
    exact ⟨hlog, Tree.chmodAt_alike _ _ _⟩
  · rw [heq]
    exact ⟨hlog, .refl _⟩

theorem relax_ok {target : OsString} {relaxed : Option (OsString × Nat)} {w w' : World}
    (h : relax env target w = some (.ok relaxed, w')) :
    w'.log = w.log ∧ Tree.Alike w.tree w'.tree := by
  rw [relax] at h
  cases hdir : parent target with
  | none =>
      rw [hdir] at h
      obtain ⟨_, rfl⟩ := pure_eq_some.mp h
      exact ⟨rfl, .refl _⟩
  | some dir =>
      rw [hdir] at h
      obtain ⟨r, w₁, hask, h⟩ := bind_eq_ok.mp h
      obtain ⟨hsame, _⟩ := ask_ok hask
      rw [← hsame.tree, ← hsame.log]
      cases r with
      | error e =>
          obtain ⟨_, rfl⟩ := pure_eq_some.mp h
          exact ⟨rfl, .refl _⟩
      | ok n =>
          dsimp only at h
          split at h
          · obtain ⟨r', w₂, hset, hrest⟩ := bind_eq_ok.mp h
            obtain ⟨u, w₃, hfail, hpure⟩ := bind_eq_ok.mp hrest
            obtain ⟨_, rfl⟩ := pure_eq_some.mp hpure
            obtain ⟨_, rfl⟩ := orFail_eq_ok.mp hfail
            exact setPermissions_ok hset
          · obtain ⟨_, rfl⟩ := pure_eq_some.mp h
            exact ⟨rfl, .refl _⟩

theorem restore_ok {relaxed : Option (OsString × Nat)} {w w' : World}
    (h : restore env relaxed w = some (.ok (), w')) :
    w'.log = w.log ∧ Tree.Alike w.tree w'.tree := by
  cases relaxed with
  | none =>
      obtain ⟨_, rfl⟩ := pure_eq_some.mp h
      exact ⟨rfl, .refl _⟩
  | some perms =>
      obtain ⟨r, w₁, hset, h⟩ := bind_eq_ok.mp h
      obtain ⟨_, rfl⟩ := orFail_eq_ok.mp h
      exact setPermissions_ok hset

theorem lnR_ok {source target : OsString} {w w' : World}
    (h : lnR env source target w = some (.ok (.ok ()), w')) :
    ∃ text, convertAbsRel source target = some text ∧
      w.tree.symlink env.view text target = .ok w'.tree ∧ w'.log = w.log := by
  rw [lnR] at h
  cases htext : convertAbsRel source target with
  | none =>
      rw [htext] at h
      cases (pure_eq_some.mp h).1
  | some text =>
      rw [htext] at h
      obtain ⟨r, w₁, hsym, h⟩ := bind_eq_ok.mp h
      obtain ⟨hr, rfl⟩ := pure_eq_some.mp h
      cases r with
      | error e => cases hr
      | ok u =>
          obtain ⟨hlog, htree⟩ := change_made hsym
          exact ⟨text, rfl, htree, hlog⟩

theorem isDir_ok {p : OsString} {b : Bool} {w w' : World} (h : isDir env p w = some (.ok b, w')) :
    World.Same w w' ∧ (b = true → ∃ n, w.tree.status env.view true p = .ok n ∧ n.isDir = true) := by
  obtain ⟨r, w₁, hask, h⟩ := bind_eq_ok.mp h
  obtain ⟨hr, rfl⟩ := pure_eq_some.mp h
  obtain ⟨hsame, hok⟩ := ask_ok hask
  refine ⟨hsame, fun hb => ?_⟩
  cases hr
  cases r with
  | error e => cases hb
  | ok n => exact ⟨n, hok n rfl, hb⟩

theorem isFile_ok {p : OsString} {b : Bool} {w w' : World}
    (h : isFile env p w = some (.ok b, w')) :
    World.Same w w' ∧ (b = true → ∃ n, w.tree.status env.view true p = .ok n ∧ n.isFile = true) := by
  obtain ⟨r, w₁, hask, h⟩ := bind_eq_ok.mp h
  obtain ⟨hr, rfl⟩ := pure_eq_some.mp h
  obtain ⟨hsame, hok⟩ := ask_ok hask
  refine ⟨hsame, fun hb => ?_⟩
  cases hr
  cases r with
  | error e => cases hb
  | ok n => exact ⟨n, hok n rfl, hb⟩

/-! ## Copies -/

/-- No seek fails for a reason of its own, and a mechanism that has moved something is
not given up. -/
structure Env.Steady (env : Env) : Prop where
  seeks : ∀ i n, (env.answers i).seekFault n = none
  fallbackFirst : ∀ k i j, i < j → ((env.answers k).transfer i).isMoved →
    ¬ ((env.answers k).transfer j).isFallback

/-- The same of one copy. -/
structure Steady (k : Kernel) : Prop where
  seeks : ∀ n, k.seekFault n = none
  fallbackFirst : ∀ i j, i < j → (k.transfer i).isMoved → ¬ (k.transfer j).isFallback

theorem Env.Steady.copy (h : env.Steady) (i : Nat) : File.Steady (env.answers i) :=
  ⟨h.seeks i, h.fallbackFirst i⟩

theorem orFault_ok {c : CopyCall} {fault : Option Errno} (h : orFault c fault = .ok ()) :
    fault = none := by
  cases fault with
  | none => rfl
  | some e => cases h

theorem openFiles_ok {k : Kernel} (h : openFiles k = .ok ()) :
    k.setup.openFrom = none ∧ k.setup.sourceIsFile = true ∧ k.setup.openTo = none := by
  rw [openFiles] at h
  cases hfrom : k.setup.openFrom with
  | some e =>
      rw [hfrom] at h
      cases h
  | none =>
      rw [hfrom] at h
      by_cases hfile : k.setup.sourceIsFile = true
      · refine ⟨rfl, hfile, ?_⟩
        rw [if_neg (not_not_intro hfile)] at h
        exact orFault_ok h
      · rw [if_pos hfile] at h
        cases h

/-- A copy whose destination has been emptied has opened both files. -/
theorem copy_opened {k : Kernel} {fuel : Nat} {flags : Flags} {c : Copied} {dst : List UInt8}
    (h : copy k fuel flags = some c) (hdst : c.dst = some dst) : openFiles k = .ok () := by
  rw [copy] at h
  cases hopen : openFiles k with
  | error e =>
      rw [hopen] at h
      cases h
      cases hdst
  | ok u => rfl

/-- A copy that returns has a destination. -/
theorem copy_dst {k : Kernel} {fuel : Nat} {flags : Flags} {c : Copied} {n : Int}
    (h : copy k fuel flags = some c) (hok : c.result = .ok n) : ∃ dst, c.dst = some dst := by
  rw [copy] at h
  cases hopen : openFiles k with
  | error e =>
      rw [hopen] at h
      cases h
      cases hok
  | ok u =>
      rw [hopen] at h
      dsimp only at h
      split at h
      · cases h
        exact ⟨_, rfl⟩
      · split at h
        · cases h
        · cases h
          exact ⟨_, rfl⟩

theorem openTo_ok {t : Tree} {p : OsString} {loc : Loc} (h : openTo env t p = .ok loc) :
    t.lookup env.view true true p = .ok loc ∧ t.isDir loc = false := by
  rw [openTo] at h
  cases hl : t.lookup env.view true true p with
  | error e =>
      rw [hl] at h
      cases h
  | ok loc' =>
      simp only [hl] at h
      split at h
      · cases h
      · rename_i hdir
        cases h
        exact ⟨rfl, by simpa using hdir⟩

theorem errorOf_or {ε α : Type} {fault : Option ε} {x : Except ε α}
    (h : (fault <|> errorOf x) = none) : ∃ a, x = .ok a := by
  cases x with
  | ok a => exact ⟨a, rfl⟩
  | error e => cases fault <;> cases h

/-- What a copy works on, when it gets as far as that. -/
theorem copyKernel_ok {answers : Kernel} {t : Tree} {source target : OsString}
    (hfrom : (copyKernel env answers t source target).setup.openFrom = none)
    (hfile : (copyKernel env answers t source target).setup.sourceIsFile = true)
    (hto : (copyKernel env answers t source target).setup.openTo = none) :
    ∃ l mode content loc, t.lookup env.view true false source = .ok l ∧
      t.node l = some (.file mode content) ∧ openTo env t target = .ok loc ∧
      (loc ≠ l → (∀ n, t.node loc = some n → n.isFile = true) →
        (copyKernel env answers t source target).source.content = content ∧
        (copyKernel env answers t source target).len = content.length ∧
        (copyKernel env answers t source target).setup.destIsFile = true) := by
  obtain ⟨n, hn⟩ := errorOf_or hfrom
  obtain ⟨loc, hloc⟩ := errorOf_or hto
  obtain ⟨l, hl, hnode⟩ := Tree.status_lookup hn
  have hisFile : n.isFile = true := by
    rw [copyKernel] at hfile
    dsimp only at hfile
    rw [hn] at hfile
    exact hfile
  cases n with
  | dir m => cases hisFile
  | link text => cases hisFile
  | special m => cases hisFile
  | file mode content =>
      refine ⟨l, mode, content, loc, hl, hnode, hloc, fun hne hdest => ?_⟩
      have hsame : decide (t.lookup env.view true false source =
          t.lookup env.view true true target) = false := by
        rw [hl, (openTo_ok hloc).1, decide_eq_false_iff_not]
        exact fun heq => hne (Except.ok.inj heq).symm
      refine ⟨?_, ?_, ?_⟩
      · rw [copyKernel]
        dsimp only
        rw [hn, hsame, env.content_layout]
        rfl
      · rw [copyKernel]
        dsimp only
        rw [hn]
        rfl
      · rw [copyKernel]
        dsimp only
        rw [hloc]
        show ((t.node loc).map Node.isFile).getD true = true
        cases hnode' : t.node loc with
        | none => rfl
        | some n => exact hdest n hnode'

/-- A copy on the tree that returns puts the content of the source where the path of
the destination leads, if that is another entry and no device. -/
theorem copyFile_ok {fuel : Nat} {source target : OsString} {w w' : World}
    (hsteady : Steady (env.answers w.copies))
    (h : copyFile env fuel source target w = some (.ok (.ok ()), w')) :
    w'.log = w.log ∧ ∃ l mode content loc,
      Tree.Walks w.tree true false (Tree.start env.view source) (steps source) l ∧
      w.tree.node l = some (.file mode content) ∧
      Tree.Walks w.tree true true (Tree.start env.view target) (steps target) loc ∧
      w.tree.isDir loc = false ∧
      (loc ≠ l → (∀ n, w.tree.node loc = some n → n.isFile = true) →
        ∃ mode', w'.tree = w.tree.put loc (.file mode' content)) := by
  rw [copyFile] at h
  dsimp only at h
  cases hcopy : copy (copyKernel env (env.answers w.copies) w.tree source target) fuel w.flags with
  | none =>
      rw [hcopy] at h
      cases h
  | some c =>
      rw [hcopy] at h
      dsimp only at h
      obtain ⟨n, hn⟩ : ∃ n, c.result = .ok n := by
        cases hr : c.result with
        | ok n => exact ⟨n, rfl⟩
        | error e =>
            rw [hr] at h
            split at h <;> cases h
      obtain ⟨dst, hsome⟩ := copy_dst hcopy hn
      obtain ⟨hfrom, hfile, hto⟩ := openFiles_ok (copy_opened hcopy hsome)
      obtain ⟨l, mode, content, loc, hl, hnode, hloc, hk⟩ := copyKernel_ok hfrom hfile hto
      obtain ⟨htarget, hdir⟩ := openTo_ok hloc
      have hlog : w'.log = w.log := by
        split at h <;> rw [← (Prod.mk.inj (Option.some.inj h)).2]
      refine ⟨hlog, l, mode, content, loc, Tree.lookup_ok hl, hnode, Tree.lookup_ok htarget, hdir,
        fun hne hdest => ?_⟩
      obtain ⟨hcontent, hlen, hdestFile⟩ := hk hne hdest
      have hregular : (copyKernel env (env.answers w.copies) w.tree source target).Regular :=
        ⟨hlen.trans (congrArg List.length hcontent).symm, hdestFile, hsteady.seeks,
          hsteady.fallbackFirst⟩
      have hdst := (copy_returned hregular hcopy hn).1
      rw [hdst, hloc, hcontent] at h
      rw [← (Prod.mk.inj (Option.some.inj h)).2]
      exact ⟨_, if_pos hdestFile⟩

/-! ## One call -/

variable {clone : OsString → Run Unit} {fuel : Nat} {source target : OsString}

/-- What has been done for an entry, by its kind. -/
inductive EntryOk (env : Env) (root : OsString) (clone : OsString → Run Unit) (fuel : Nat)
    (source target : OsString) (n : Node) (w w' : World) : Prop
  | link {text rel w₁ w₂} (hlink : n.isLink = true)
      (hread : w.tree.readLink env.view source = .ok text) (hsame : World.Same w w₁)
      (hclone : clone (linkPath source text) w₁ = some (.ok (), w₂))
      (hrel : convertAbsRel (targetOf root (linkPath source text)) target = some rel)
      (hmade : w₂.tree.symlink env.view rel target = .ok w'.tree)
      (hlog : w'.log = w₂.log ++ [.clonePathSymlink (linkPath source text) target,
        .lnRSymlink (targetOf root (linkPath source text)) target])
  | dir {d} (hlink : n.isLink = false) (hstatus : w.tree.status env.view true source = .ok d)
      (hdir : d.isDir = true)
      (hmade : w.tree.mkdir env.view target (env.created n.mode) = .ok w'.tree)
      (hlog : w'.log = w.log ++ [.clonePathMkdir source target])
  | file {d w₁} (hlink : n.isLink = false) (hstatus : w.tree.status env.view true source = .ok d)
      (hfile : d.isFile = true) (htree : w₁.tree = w.tree)
      (hlog : w₁.log = w.log ++ [.clonePathCopy source target])
      (hcopy : copyFile env fuel source target w₁ = some (.ok (.ok ()), w'))

theorem mapError_eq_ok {δ ε α : Type} {f : δ → ε} {x : Except δ α} {a : α}
    (h : x.mapError f = .ok a) : x = .ok a := by
  cases x with
  | ok b =>
      cases h
      rfl
  | error e => cases h

/-- What a call that ends well has done. -/
inductive StepOk (env : Env) (root : OsString) (clone : OsString → Run Unit) (fuel : Nat)
    (source : OsString) (w w' : World) : Prop
  | found {n} (hstatus : w.tree.status env.view false (targetOf root source) = .ok n)
      (htree : w'.tree = w.tree)
      (hlog : w'.log = w.log ++ [.clonePath source (targetOf root source)])
  | top (hparent : parent source = none) (htree : w'.tree = w.tree)
      (hlog : w'.log = w.log ++ [.clonePath source (targetOf root source)])
  | made {dir n w₁ w₂ w₃ w₄} (hparent : parent source = some dir) (htree : w₁.tree = w.tree)
      (hlog : w₁.log = w.log ++ [.clonePath source (targetOf root source)])
      (hclone : clone dir w₁ = some (.ok (), w₂))
      (hstatus : w₂.tree.status env.view false source = .ok n)
      (hrelaxed : Tree.Alike w₂.tree w₃.tree) (hrelaxedLog : w₃.log = w₂.log)
      (hentry : EntryOk env root clone fuel source (targetOf root source) n w₃ w₄)
      (hrestored : Tree.Alike w₄.tree w'.tree) (hrestoredLog : w'.log = w₄.log)

end File
end DracutInstall
