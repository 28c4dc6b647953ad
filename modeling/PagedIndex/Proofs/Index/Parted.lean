import PagedIndex.Proofs.Index.Verified
import PagedIndex.Proofs.Tree.Parted

/-!
# The blocks of files whose check was passed

A check that is passed has seen as many blocks as there are positions up to the mark of the last
block, and no block twice. It does not ask where they are: a link that leads behind the mark is
followed like any other, and a block that is reached in that way is handed out again when the file
grows.

## Main definitions

* `Index.board` — the blocks of a file and the chain pointers in its header.
-/

namespace PagedIndex

namespace Index

/-- The blocks of the file of a handle, with the chain pointers of its header block `x`. -/
def board (ix : Index) (x : Bytes) (w : Workspace) : Board :=
  Board.read ix.tree.layout (ix.mount.read? w.disk) (Pointers.read ix.tree.layout.format x)

/-- A file of any contents is opened in any way, and a check of it is passed. Then the header, the
blocks of the tree and those of the two chains are pairwise different and as many as positions up to
the mark of the last block. They are those positions exactly if no link leads elsewhere; if none
leads behind the mark, no block that is taken later is in use. -/
theorem parted_of_verify {store : Store} {options : OpenOptions} {cell : Nat} {w₀ w₁ w w₂ : Workspace}
    {ix₁ ix ix₂ : Index} {stats : IndexStats}
    (hw : w₀.Admits store (options.cache.getD Workspace.commonCache) cell)
    (hopen : openStore store options cell w₀ = .ok ix₁ w₁)
    (hbefore : Relation.ReflTransGen ReadEvent (ix₁, w₁) (ix, w))
    (hverify : verify (ix, w) = .ok stats (ix₂, w₂)) :
    ∃ x tree free slots, ix.mount.read? w.disk .null = some x ∧
      ix.tree.Surveyed (ix.board x w) stats tree free slots ∧
      (ix.board x w).Parted ix.tree.layout (tree.elim [] Outline.blocks) free
        (slots.map Prod.fst) := by
  have hopened := ((openStore_ends fun _ => hw.volume).of_ok hopen).2 ix₁ rfl
  obtain ⟨-, hmirrors, -⟩ := (hopened.mirrors hw).readEvents (σ := (ix₁, w₁)) hbefore
  obtain ⟨x, tree, free, slots, hx, hsurveyed⟩ :=
    hmirrors.verify_ends.of_ok (run_verify hverify) stats rfl
  exact ⟨x, tree, free, slots, hx, hsurveyed, hsurveyed.parted hmirrors.workable⟩

/-- A memory area with a file of two levels whose root is behind the mark of the last block. -/
def strayWorkspace : Workspace := memoryWorkspace
  { contents := (Tree.sampleContents.write 2560 (Tree.sampleContents.read 1536 512)).write 13
      [0, 0, 0, 0, 0x0A, 0] }

/-- Whether the check of a file is passed with its root behind the mark. -/
def passesStray (ix : Index) (w : Workspace) : Bool :=
  verifies (fun _ => (ix.mount.read? w.disk .null).elim false fun x =>
    !(ix.board x w).pointers.root.isNull &&
    decide ((ix.board x w).pointers.highWater.offset < (ix.board x w).pointers.root.offset)) ix w

/-- The check of that file is passed, and the root is behind the mark. -/
theorem parted_of_verify_stray : ∃ ix w stats σ x tree free slots,
    openStore (.ofMemory 0 none) { mode := .exclusive } 0 strayWorkspace = .ok ix w ∧
    verify (ix, w) = .ok stats σ ∧ ix.mount.read? w.disk .null = some x ∧
    ix.tree.Surveyed (ix.board x w) stats tree free slots ∧
    (ix.board x w).Parted ix.tree.layout (tree.elim [] Outline.blocks) free (slots.map Prod.fst) ∧
    ∃ p ∈ tree.elim [] Outline.blocks, (ix.board x w).pointers.highWater.offset < p.offset := by
  have hchecked : opens { mode := .exclusive } strayWorkspace passesStray = true := by decide +kernel
  have hadmits : strayWorkspace.Admits (.ofMemory 0 none) 0 0 := admits_memory _
  generalize strayWorkspace = w at *
  obtain ⟨ix₁, w₁, hopen, hchecked⟩ := exists_of_opens hchecked
  obtain ⟨stats, σ, hverify, hstray⟩ := exists_of_verifies hchecked
  obtain ⟨x, tree, free, slots, hx, hsurveyed, hparted⟩ := parted_of_verify hadmits hopen .refl hverify
  simp only [hx, Option.elim, Bool.and_eq_true, Bool.not_eq_true', decide_eq_true_eq] at hstray
  refine ⟨ix₁, w₁, stats, σ, x, tree, free, slots, hopen, hverify, hx, hsurveyed, hparted, ?_⟩
  have honBoard := hsurveyed.onBoard
  cases tree with
  | none =>
    rw [honBoard.1] at hstray
    cases hstray.1
  | some o =>
    obtain ⟨depth, honBoard, -, hroot, -⟩ := honBoard
    refine ⟨o.pos, ?_, hroot ▸ hstray.2⟩
    cases honBoard with
    | leaf => exact List.mem_singleton_self _
    | branch =>
      rw [Option.elim, Outline.blocks_branch]
      exact List.mem_cons_self

end Index

end PagedIndex
