/-
`ldd` comes to its end, whatever the order of the objects and of the calls.

A path goes on the queue once, so that finitely many existing paths make finitely
many workers; each of them is a finite tree of calls, and none waits for another.
-/
import DracutInstall.Lib.WorkListEnds
import DracutInstall.Elfkit.LddProvenance

namespace DracutInstall
namespace Elfkit

open ByteCodec Rust UnixPath WorkList

namespace Ldd

variable {ldd : Ldd} {files args : List OsString}

/-- A worker is at an argument, or at an existing path that nobody else is at. -/
theorem start_bounded (hargs : files.mapM ldd.fs.canonicalizeDir = some args)
    (existing : Finset OsString)
    (hexisting : ∀ path, path ∈ existing ↔ ldd.fs.pathExists path = true) :
    Bounded ldd.system (args.length + existing.card) (ldd.start args) := by
  intro schedule s hrun
  have h : ldd.Reached files args schedule s := ⟨hargs, hrun⟩
  have hitems := (h.account (meets_true _ _)).items.length_eq
  simp only [List.length_append, List.length_map] at hitems
  have hsub : ((enqueued ldd.system s.history).map Item.path).toFinset ⊆ existing := by
    intro path hpath
    obtain ⟨item, hitem, rfl⟩ := List.mem_map.mp (List.mem_toFinset.mp hpath)
    obtain ⟨obj, hobj⟩ := h.enqueued_found item hitem
    exact (hexisting _).mpr hobj.pathExists
  have hcard := Finset.card_le_card hsub
  rw [List.toFinset_card_of_nodup h.enqueued_nodup.1, List.length_map] at hcard
  omega

/-- Where finitely many paths exist, no endless sequence of choices is a schedule, and
a run can be brought to its end from every state it can come to. -/
theorem ldd_ends (hargs : files.mapM ldd.fs.canonicalizeDir = some args)
    (existing : Finset OsString)
    (hexisting : ∀ path, path ∈ existing ↔ ldd.fs.pathExists path = true) :
    (∀ choices : Nat → Choice Iter, ∃ n,
      WorkList.run ldd.system (ldd.start args) ((List.range n).map choices) = none) ∧
    ∀ schedule s, ldd.Reached files args schedule s → ∀ _ : Iter,
      ∃ more t, ldd.Finished files args (schedule ++ more) t := by
  have hbounded := start_bounded hargs existing hexisting
  refine ⟨hbounded.ends, fun schedule s hs iter => ?_⟩
  obtain ⟨more, t, hmore, hcomplete⟩ := (hbounded.run hs.run).completes iter
  refine ⟨more, t, ⟨hargs, ?_, hcomplete⟩⟩
  rw [run_append, hs.run]
  exact hmore

end Ldd

namespace Sample

theorem somewhere_ends :
    (∀ choices : Nat → Choice Ldd.Iter, ∃ n,
      WorkList.run somewhere.system (somewhere.start args) ((List.range n).map choices) = none) ∧
    ∀ schedule s, somewhere.Reached args args schedule s → ∀ _ : Ldd.Iter,
      ∃ more t, somewhere.Finished args args (schedule ++ more) t :=
  Ldd.ldd_ends (by decide +kernel) somewhereExisting mem_somewhereExisting

end Sample
end Elfkit
end DracutInstall
