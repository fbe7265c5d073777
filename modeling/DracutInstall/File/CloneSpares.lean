/-
What `clone_path` does to the entries that are below the destination already.

The guard asks for the target under one name, before the parents are cloned.
Nothing but a copy can change an entry that is there, and a copy does when its
target leads to a file through a link that was made on the way.
-/
import DracutInstall.File.CloneTrace

namespace DracutInstall
namespace File

open ByteCodec Rust Process UnixPath FileTree

variable {env : Env} {root : OsString}

/-! ## Entries that are spared -/

/-- Every entry of `t` below `R` is one of `w`, with its kind and its content or its
text. -/
def KeepsBelow (t : Tree) (R : Loc) (w : World) : Prop :=
  ∀ loc n, R <+: loc → t.node loc = some n → ∃ n', w.tree.node loc = some n' ∧ n.Like n'

/-- No copy of the run has a target that leads to a file which is below `R` from the
start. -/
def CopiesBeside (env : Env) (root : OsString) (R : Loc) (fuel : Nat) (source : OsString)
    (w : World) : Prop :=
  ∀ f s v u, Nested env root fuel source w (f + 1) s v → MakesCopy env root f s v u →
    ∀ loc mode content, openTo env u.tree (targetOf root s) = .ok loc → R <+: loc →
      w.tree.node loc ≠ some (.file mode content)

theorem Node.like_file {n : Node} {m : Node} (h : n.Like m) (hm : m.isFile = true) :
    ∃ mode content, n = .file mode content := by
  cases m with
  | file mode content =>
      cases n with
      | file mode' content' => exact ⟨mode', content', rfl⟩
      | dir mode' => cases h
      | link text => cases h
      | special mode' => cases h
  | dir mode => cases hm
  | link text => cases hm
  | special mode => cases hm

theorem KeepsBelow.undisturbed (t : Tree) (R : Loc) : Undisturbed env (KeepsBelow t R) := by
  refine undisturbed_of_extends fun w w' hw hext loc n hloc hn => ?_
  obtain ⟨n₁, hn₁, hlike₁⟩ := hw loc n hloc hn
  obtain ⟨n₂, hn₂, hlike₂⟩ := hext loc n₁ hn₁
  exact ⟨n₂, hn₂, hlike₁.trans hlike₂⟩

/-- A copy beside the files of `t` spares the entries of `t`. -/
theorem KeepsBelow.copyFile {t : Tree} {R : Loc} {fuel : Nat} {source target : OsString}
    {w w' : World} {r : Outcome CloneError (Except CopyError Unit)} (hw : KeepsBelow t R w)
    (hbeside : ∀ loc mode content, openTo env w.tree target = .ok loc → R <+: loc →
      t.node loc ≠ some (.file mode content))
    (h : copyFile env fuel source target w = some (r, w')) : KeepsBelow t R w' := by
  rcases copyFile_tree h with heq | ⟨at_, mode, content, hopen, hfile, hput⟩
  · intro loc n hloc hn
    rw [heq]
    exact hw loc n hloc hn
  · intro loc n hloc hn
    obtain ⟨n', hn', hlike⟩ := hw loc n hloc hn
    by_cases heq : loc = at_
    · subst heq
      obtain ⟨mode', content', rfl⟩ := Node.like_file hlike (hfile n' hn')
      exact absurd hn (hbeside loc mode' content' hopen hloc)
    · rw [hput, Tree.put_node_ne heq]
      exact ⟨n', hn', hlike⟩

/-- In a run whose copies all go beside the files that were there, every entry below
the destination is left alone, whatever `clone_path` returns. -/
theorem clonePath_spares {R : Loc} {fuel : Nat} {source : OsString} {w w' : World}
    {r : Outcome CloneError Unit} (hbeside : CopiesBeside env root R fuel source w)
    (hrun : clonePath env root fuel source w = some (r, w')) : KeepsBelow w.tree R w' := by
  refine (KeepsBelow.undisturbed w.tree R).clonePath ?_ hrun
    (fun loc n _ hn => ⟨n, hn, .refl n⟩)
  intro f s v u hnested hcopies ret u' hu hcopy
  exact hu.copyFile (hbeside f s v u hnested hcopies) hcopy

/-- The copies of a run are all listed, so that each can be looked at. -/
theorem copiesBeside_of_copyCalls {R : Loc} {fuel : Nat} {source : OsString} {w : World}
    (h : ∀ c ∈ copyCalls env root fuel source w, ∀ loc ∈ (openTo env c.2.tree
      (targetOf root c.1)).toOption, R <+: loc → ¬ (w.tree.node loc).any Node.isFile = true) :
    CopiesBeside env root R fuel source w := by
  intro f s v u hnested hcopies loc mode content hopen hbelow hfile
  refine h _ (hcopies.mem_copyCalls hnested) loc ?_ hbelow ?_
  · rw [hopen]
    rfl
  · rw [hfile]
    rfl

namespace Sample

/-- Below the destination a directory with a file in it, and a link to it. -/
def besideOld : Tree := .ofEntries [
  ([ascii "r"], .dir 0o755), ([ascii "r", ascii "d"], .dir 0o755),
  ([ascii "r", ascii "d", ascii "old"], .file 0o644 [9]),
  ([ascii "r", ascii "k"], .link (ascii "d")), ([ascii "d"], .dir 0o755),
  ([ascii "d", ascii "f"], .file 0o644 [1, 2]), ([ascii "l"], .link (ascii "d"))]

/-- The file is copied through a new link into the directory that is there. -/
theorem besideOld_spared :
    ∃ w, clonePath calm (ascii "/r") 9 (ascii "/l/f") (World.start besideOld ⟨true, true⟩) =
        some (.ok (), w) ∧
      (w.tree.node [ascii "r", ascii "d", ascii "f"]).map Node.content = some [1, 2] ∧
      KeepsBelow besideOld [ascii "r"] w := by
  have hends : ((clonePath calm (ascii "/r") 9 (ascii "/l/f")
      (World.start besideOld ⟨true, true⟩)).any fun out => decide (out.1 = .ok ()) &&
        decide ((out.2.tree.node [ascii "r", ascii "d", ascii "f"]).map Node.content =
          some [1, 2])) = true := by decide +kernel
  obtain ⟨⟨r, w⟩, hrun, hout⟩ := (Option.any_eq_true _ _).mp hends
  obtain ⟨hr, hcopied⟩ := Bool.and_eq_true_iff.mp hout
  obtain rfl : r = .ok () := of_decide_eq_true hr
  have hbeside : CopiesBeside calm (ascii "/r") [ascii "r"] 9 (ascii "/l/f")
      (World.start besideOld ⟨true, true⟩) := copiesBeside_of_copyCalls (by decide +kernel)
  exact ⟨w, hrun, of_decide_eq_true hcopied, clonePath_spares hbeside hrun⟩

/-- A link to a directory that is below the destination already, with another file in
it. -/
def behindLink : Tree := .ofEntries [
  ([ascii "r"], .dir 0o755), ([ascii "r", ascii "d"], .dir 0o755),
  ([ascii "r", ascii "d", ascii "f"], .file 0o644 [9]), ([ascii "d"], .dir 0o755),
  ([ascii "d", ascii "f"], .file 0o644 [1, 2]), ([ascii "l"], .link (ascii "d"))]

theorem behindLink_overwritten :
    ¬ ∀ (env : Env) (root : OsString) (R : Loc) (fuel : Nat) (source : OsString) (w w' : World)
      (r : Outcome CloneError Unit), w.tree.lookup env.view true false root = .ok R →
      clonePath env root fuel source w = some (r, w') → KeepsBelow w.tree R w' := by
  intro h
  have hall : ((clonePath calm (ascii "/r") 9 (ascii "/l/f")
      (World.start behindLink ⟨true, true⟩)).any fun out =>
        decide (out.1 = .ok ()) && decide (out.2.tree.node [ascii "r", ascii "d", ascii "f"] =
          some (.file 0o644 [1, 2]))) = true := by
    decide +kernel
  obtain ⟨⟨r, w⟩, hrun, hout⟩ := (Option.any_eq_true _ _).mp hall
  have hnode := of_decide_eq_true (Bool.and_eq_true_iff.mp hout).2
  have hold : behindLink.node [ascii "r", ascii "d", ascii "f"] = some (.file 0o644 [9]) := by
    decide +kernel
  obtain ⟨n, hn, hlike⟩ := h calm (ascii "/r") [ascii "r"] 9 (ascii "/l/f") _ w r
    (by decide +kernel) hrun [ascii "r", ascii "d", ascii "f"] _ (by decide) hold
  rw [hnode] at hn
  obtain rfl := Option.some.inj hn
  exact absurd hlike (show ¬ Node.file 0 [9] = Node.file 0 [1, 2] by decide)

end Sample

end File
end DracutInstall
