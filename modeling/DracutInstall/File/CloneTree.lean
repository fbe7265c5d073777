/-
What the calls of `clone_path` do to the tree.

Calls that look leave it alone, `mkdir` and `symlink` add entries, `chmod` changes
modes and a copy writes one file: every entry keeps its kind, and the text of a link.
-/
import DracutInstall.File.CloneCalls

namespace DracutInstall
namespace File

open ByteCodec Rust Process UnixPath FileTree

variable {env : Env} {root source target : OsString} {fuel : Nat}

/-! ## What the calls do to the tree -/

theorem ask_extends {α : Type} {f : Tree → Except Errno α} {w w' : World}
    {r : Outcome CloneError (Except Errno α)} (h : ask env f w = some (r, w')) :
    w'.tree = w.tree := by
  obtain ⟨a, rfl⟩ := ask_ends h
  exact (ask_ok h).1.tree

theorem Missing.tree {source : OsString} {w w₁ : World} (h : Missing env root source w w₁) : w₁.tree = w.tree := by
  obtain ⟨e, hask⟩ := h
  have heq := ask_extends hask
  exact heq

theorem change_extends {made : List Made} {f : Tree → Except Errno Tree} {w w' : World}
    {r : Outcome CloneError (Except Errno Unit)} (h : change env made f w = some (r, w'))
    (hf : ∀ t, f w.tree = .ok t → Tree.Extends w.tree t) : Tree.Extends w.tree w'.tree := by
  obtain ⟨a, rfl⟩ := change_ends h
  obtain ⟨_, hok | ⟨heq, _⟩⟩ := change_ok h
  · exact hf _ hok
  · rw [heq]
    exact .refl _

/-- A property of the tree that more entries and other modes cannot break is broken by
copies alone. -/
theorem undisturbed_of_extends {I : World → Prop}
    (hI : ∀ w w', I w → Tree.Extends w.tree w'.tree → I w') : Undisturbed env I where
  ask f w r w' hw h := hI w w' hw (ask_extends h ▸ .refl _)
  setPermissions p mode w r w' hw h := by
    refine hI w w' hw (change_extends h fun t ht => ?_)
    obtain ⟨loc, rfl⟩ := Tree.chmod_ok ht
    exact Tree.chmodAt_extends _ _ _
  line w l hw := hI w _ hw (.refl _)
  createDir p mode w r w' hw h := by
    refine hI w w' hw (change_extends h fun t ht => ?_)
    obtain ⟨loc, _, hnone, rfl⟩ := Tree.mkdir_ok ht
    exact Tree.put_extends fun n hn => by rw [hnone] at hn; cases hn
  symlink text p w r w' hw h := by
    refine hI w w' hw (change_extends h fun t ht => ?_)
    obtain ⟨loc, _, hnone, rfl, _⟩ := Tree.symlink_ok ht
    exact Tree.put_extends fun n hn => by rw [hnone] at hn; cases hn

/-- A copy leaves the tree alone, or writes a file where its target leads. -/
theorem copyFile_tree {fuel : Nat} {source target : OsString} {w w' : World}
    {r : Outcome CloneError (Except CopyError Unit)}
    (h : copyFile env fuel source target w = some (r, w')) :
    w'.tree = w.tree ∨ ∃ loc mode content, openTo env w.tree target = .ok loc ∧
      (∀ n, w.tree.node loc = some n → n.isFile = true) ∧
      w'.tree = w.tree.put loc (.file mode content) := by
  rw [copyFile] at h
  dsimp only at h
  split at h
  · cases h
  · rename_i c _
    cases hdst : c.dst with
    | none =>
        rw [hdst] at h
        cases h
        exact .inl rfl
    | some content =>
        cases hopen : openTo env w.tree target with
        | error e =>
            rw [hdst, hopen] at h
            cases h
            exact .inl rfl
        | ok loc =>
            rw [hdst, hopen] at h
            dsimp only at h
            cases h
            by_cases hfile : (copyKernel env (env.answers w.copies) w.tree source
                target).setup.destIsFile = true
            · refine .inr ⟨loc, _, content, rfl, ?_, if_pos hfile⟩
              intro n hn
              rw [copyKernel] at hfile
              dsimp only at hfile
              rw [hopen] at hfile
              change ((w.tree.node loc).map Node.isFile).getD true = true at hfile
              rw [hn] at hfile
              exact hfile
            · exact .inl (if_neg hfile)

/-! ## Relaxing and restoring -/

theorem setPermissions_spec {p : OsString} {mode : Nat} {w w' : World} {r : Except Errno Unit}
    (h : setPermissions env p mode w = some (.ok r, w')) :
    (w'.tree = w.tree ∧ ∃ e, r = .error e) ∨
      ∃ loc, r = .ok () ∧ w.tree.lookup env.view true false p = .ok loc ∧
        w'.tree = w.tree.chmodAt loc mode := by
  rw [setPermissions, change, call] at h
  split at h
  · cases h
    exact .inl ⟨rfl, _, rfl⟩
  · cases hl : w.tree.lookup env.view true false p with
    | error e =>
        rw [Tree.chmod, hl] at h
        cases h
        exact .inl ⟨rfl, _, rfl⟩
    | ok loc =>
        rw [Tree.chmod, hl] at h
        cases h
        exact .inr ⟨loc, rfl, rfl, rfl⟩

/-- `relax` leaves the tree alone, or it makes the directory of the target writable. -/
theorem relax_spec {w w' : World} {r : Outcome CloneError (Option (OsString × Nat))}
    (h : relax env target w = some (r, w')) :
    (w'.tree = w.tree ∧ ∀ perms, r ≠ .ok (some perms)) ∨
      ∃ dir loc n, r = .ok (some (dir, n.mode)) ∧
        w.tree.lookup env.view true false dir = .ok loc ∧ w.tree.node loc = some n ∧
        readonly n.mode = true ∧ w'.tree = w.tree.chmodAt loc (n.mode ||| 0o222) := by
  rw [relax] at h
  cases hdir : parent target with
  | none =>
      rw [hdir] at h
      obtain ⟨rfl, rfl⟩ := pure_eq_some.mp h
      exact .inl ⟨rfl, fun perms heq => by cases heq⟩
  | some dir =>
      rw [hdir] at h
      obtain ⟨answer, w₁, hask, h₁⟩ := ask_bind h
      obtain ⟨hsame, hok⟩ := ask_ok hask
      cases answer with
      | error e =>
          obtain ⟨rfl, rfl⟩ := pure_eq_some.mp h₁
          exact .inl ⟨hsame.tree, fun perms heq => by cases heq⟩
      | ok n =>
          obtain ⟨loc, hloc, hn⟩ := Tree.status_lookup (hok n rfl)
          dsimp only at h₁
          split at h₁
          · rename_i hreadonly
            obtain ⟨answer, w₂, hset, h₂⟩ := change_bind h₁
            rcases setPermissions_spec hset with ⟨htree, e, rfl⟩ | ⟨loc', rfl, hloc', htree⟩
            · cases h₂
              exact .inl ⟨htree.trans hsame.tree, fun perms heq => by cases heq⟩
            · cases h₂
              rw [hsame.tree] at hloc' htree
              obtain rfl := Except.ok.inj (hloc.symm.trans hloc')
              exact .inr ⟨dir, loc, n, rfl, hloc, hn, hreadonly, htree⟩
          · obtain ⟨rfl, rfl⟩ := pure_eq_some.mp h₁
            exact .inl ⟨hsame.tree, fun perms heq => by cases heq⟩

theorem restore_spec {relaxed : Option (OsString × Nat)} {w w' : World}
    {r : Outcome CloneError Unit} (h : restore env relaxed w = some (r, w')) :
    (w'.tree = w.tree ∧ (relaxed = none ∨ ∃ e, r = .err e)) ∨
      ∃ dir mode loc, relaxed = some (dir, mode) ∧ r = .ok () ∧
        w.tree.lookup env.view true false dir = .ok loc ∧ w'.tree = w.tree.chmodAt loc mode := by
  cases relaxed with
  | none =>
      obtain ⟨_, rfl⟩ := pure_eq_some.mp h
      exact .inl ⟨rfl, .inl rfl⟩
  | some perms =>
      obtain ⟨answer, w₁, hset, h₁⟩ := change_bind h
      rcases setPermissions_spec hset with ⟨htree, e, rfl⟩ | ⟨loc, rfl, hloc, htree⟩
      · cases h₁
        exact .inl ⟨htree, .inr ⟨_, rfl⟩⟩
      · cases h₁
        exact .inr ⟨_, _, loc, rfl, rfl, hloc, htree⟩

theorem restore_alike {relaxed : Option (OsString × Nat)} {w w' : World}
    {r : Outcome CloneError Unit} (h : restore env relaxed w = some (r, w')) :
    Tree.Alike w.tree w'.tree := by
  cases relaxed with
  | none =>
      obtain ⟨_, rfl⟩ := pure_eq_some.mp h
      exact .refl _
  | some perms =>
      obtain ⟨a, w₁, hset, h₁⟩ := change_bind h
      have hsame := (orFail_ends h₁).1
      rw [hsame]
      exact (setPermissions_ok hset).2

theorem relax_err {e : CloneError} {w w' : World} (h : relax env target w = some (.err e, w')) :
    ∃ e', e = .relaxPermissions e' := by
  rw [relax] at h
  cases hdir : parent target with
  | none =>
      rw [hdir] at h
      cases h
  | some dir =>
      rw [hdir] at h
      obtain ⟨answer, w₁, _, h₁⟩ := ask_bind h
      cases answer with
      | error e => cases h₁
      | ok n =>
          dsimp only at h₁
          split at h₁
          · obtain ⟨answer, w₂, _, h₂⟩ := change_bind h₁
            cases answer with
            | error e' =>
                cases h₂
                exact ⟨e', rfl⟩
            | ok u => cases h₂
          · cases h₁

theorem restore_err {relaxed : Option (OsString × Nat)} {e : CloneError} {w w' : World}
    (h : restore env relaxed w = some (.err e, w')) : ∃ e', e = .setPermissions e' := by
  cases relaxed with
  | none => cases h
  | some perms =>
      obtain ⟨answer, w₁, _, h₁⟩ := change_bind h
      cases answer with
      | error e' =>
          cases h₁
          exact ⟨e', rfl⟩
      | ok u => cases h₁

/-! ## Calls that do not fail for a reason of their own -/

/-- The answer is what the tree says. -/
theorem ask_answers {α : Type} {w : World} (hfault : env.fault w.calls = none)
    (f : Tree → Except Errno α) :
    ∃ w', ask env f w = some (.ok (f w.tree), w') ∧ w'.tree = w.tree := by
  rw [ask, call]
  dsimp only
  rw [hfault]
  dsimp only
  cases f w.tree with
  | error e => exact ⟨_, rfl, rfl⟩
  | ok a => exact ⟨_, rfl, rfl⟩

/-- A change that the tree allows is made. -/
theorem change_answers {w : World} {t : Tree} {f : Tree → Except Errno Tree}
    (hfault : env.fault w.calls = none) (made : List Made) (h : f w.tree = .ok t) :
    ∃ w', change env made f w = some (.ok (.ok ()), w') ∧ w'.tree = t := by
  rw [change, call]
  dsimp only
  rw [hfault]
  dsimp only
  rw [h]
  exact ⟨_, rfl, rfl⟩

/-- The parent of the target is looked at, and made writable if it has to be. -/
theorem relax_answers (hfault : ∀ k, env.fault k = none) (target : OsString) (w : World) :
    ∃ relaxed w', relax env target w = some (.ok relaxed, w') := by
  rw [relax]
  cases parent target with
  | none => exact ⟨_, _, rfl⟩
  | some dir =>
      obtain ⟨w₁, hask, htree⟩ := ask_answers (hfault w.calls) (Tree.status · env.view true dir)
      cases hstatus : w.tree.status env.view true dir with
      | error e =>
          rw [hstatus] at hask
          exact ⟨none, w₁, bind_eq_some.mpr (.inl ⟨_, _, hask, rfl⟩)⟩
      | ok n =>
          rw [hstatus] at hask
          cases hreadonly : readonly n.mode with
          | false =>
              refine ⟨none, w₁, bind_eq_some.mpr (.inl ⟨_, _, hask, ?_⟩)⟩
              dsimp only
              rw [hreadonly, if_neg Bool.false_ne_true]
              rfl
          | true =>
              obtain ⟨loc, hloc, _⟩ := Tree.status_lookup hstatus
              have hchmod : w₁.tree.chmod env.view dir (n.mode ||| 0o222) =
                  .ok (w₁.tree.chmodAt loc (n.mode ||| 0o222)) := by
                rw [Tree.chmod, htree, hloc]
              obtain ⟨w₂, hset, _⟩ := change_answers
                (f := (Tree.chmod · env.view dir (n.mode ||| 0o222))) (hfault w₁.calls) [] hchmod
              refine ⟨some (dir, n.mode), w₂, bind_eq_some.mpr (.inl ⟨_, _, hask, ?_⟩)⟩
              dsimp only
              rw [hreadonly, if_pos rfl]
              exact bind_eq_some.mpr (.inl ⟨_, _, hset, rfl⟩)

/-- A call whose target is there returns at once. -/
theorem clonePath_found {fuel : Nat} {source : OsString} {w : World} {n : Node}
    (hfault : env.fault w.calls = none)
    (hstatus : w.tree.status env.view false (targetOf root source) = .ok n) :
    ∃ w', clonePath env root (fuel + 1) source w = some (.ok (), w') ∧ w'.tree = w.tree := by
  obtain ⟨w', hask, htree⟩ := ask_answers (w := w.line (.clonePath source (targetOf root source)))
    hfault (Tree.status · env.view false (targetOf root source))
  have hanswer : Tree.status (w.line (.clonePath source (targetOf root source))).tree env.view false
      (targetOf root source) = .ok n := hstatus
  rw [hanswer] at hask
  refine ⟨w', ?_, htree⟩
  rw [clonePath, cloneStep]
  exact bind_eq_some.mpr (.inl ⟨_, _, rfl, bind_eq_some.mpr (.inl ⟨_, _, hask, rfl⟩)⟩)

/-! ## Kinds that are kept -/

theorem keepsKinds_putFile {t : Tree} {loc : Loc} {mode : Nat} {content : List UInt8}
    (hfile : ∀ n, t.node loc = some n → n.isFile = true) :
    Tree.KeepsKinds t (t.put loc (.file mode content)) := by
  intro l n hn
  by_cases heq : l = loc
  · subst heq
    have hisFile := hfile n hn
    cases n with
    | file mode' content' =>
        by_cases hfits : t.fits l = true
        · rw [Tree.put_node hfits, if_pos rfl]
          exact ⟨_, rfl, rfl, rfl, fun _ => by constructor <;> intro h <;> cases h⟩
        · rw [Tree.put_node_unfit hfits]
          exact ⟨_, hn, .refl _⟩
    | dir mode' => cases hisFile
    | link text => cases hisFile
    | special mode' => cases hisFile
  · rw [Tree.put_node_ne heq]
    exact ⟨n, hn, .refl n⟩

theorem keepsKinds_undisturbed (t : Tree) :
    Undisturbed env fun w => Tree.KeepsKinds t w.tree :=
  undisturbed_of_extends fun _ _ hw hext => hw.trans hext.keepsKinds

theorem copyFile_keepsKinds {fuel : Nat} {source target : OsString} {w w' : World}
    {r : Outcome CloneError (Except CopyError Unit)}
    (h : copyFile env fuel source target w = some (r, w')) :
    Tree.KeepsKinds w.tree w'.tree := by
  rcases copyFile_tree h with heq | ⟨loc, mode, content, _, hfile, hput⟩
  · rw [heq]
    exact .refl _
  · rw [hput]
    exact keepsKinds_putFile hfile

theorem clonePath_keepsKinds {fuel : Nat} {source : OsString} {w w' : World}
    {r : Outcome CloneError Unit} (h : clonePath env root fuel source w = some (r, w')) :
    Tree.KeepsKinds w.tree w'.tree :=
  (keepsKinds_undisturbed w.tree).clonePath
    (fun _ _ _ _ _ _ _ _ hu hcopy => hu.trans (copyFile_keepsKinds hcopy)) h (.refl _)

/-- The entry a call comes to its branch with, and the tree by then. -/
theorem AtEntry.found {fuel : Nat} {source : OsString} {v before after : World} {n : Node} {relaxed : Option (OsString × Nat)}
    (h : AtEntry env root (clonePath env root fuel) source v n before relaxed after) :
    before.tree.status env.view false source = .ok n ∧
      Tree.KeepsKinds v.tree before.tree ∧ Tree.KeepsKinds before.tree after.tree := by
  cases h with
  | intro hmissing _ hclone hstatus hrelax =>
      obtain ⟨hsame, hok⟩ := ask_ok hstatus
      have hparent := clonePath_keepsKinds hclone
      rw [hmissing.tree] at hparent
      refine ⟨?_, ?_, (relax_ok hrelax).2.forth.keepsKinds⟩
      · rw [hsame.tree]
        exact hok n rfl
      · rw [hsame.tree]
        exact hparent

end File
end DracutInstall
