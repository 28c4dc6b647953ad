import PagedIndex.Proofs.Index.Ending
import PagedIndex.Proofs.Index.WholeBlocks
import PagedIndex.Proofs.Tree.NotAbandoned

/-!
# Deletions on files with cycles

No call but a deletion is ever abandoned, and a deletion on a tidy file is abandoned only if a block
leads back to itself. Then merging may take a separator out of a branch that is still to be gone
back through. Blocks that are shared, or of the wrong kind, or empty, are no reason: on a tidy file
without cycles a deletion comes to an end like every other call.

## Main definitions

* `Index.picture` — the blocks of a file as a handle sees them.
* `Contents.draw` — a file that is written over with given nodes.

## Main statements

* `Index.SoleOnTidy.deletion` — deletions on a tidy file without cycles.
* `Index.cyclic_of_outOfRange` — when a call is abandoned.
-/

namespace PagedIndex

namespace Index

/-- The blocks of a file as a handle sees them, with the chain pointers of the header. -/
def picture (ix : Index) (w : Workspace) : Board :=
  (ix.mount.view ix.tree.layout (w.below ix.cache)).board ix.tree.layout

end Index

/-- Where there are no cycles, the program that a deletion asks for is not abandoned. -/
theorem Call.notAbandoned_course {ix : Index} {call : Call} {v : View} (hdeletes : call.deletes = true)
    (hl : ix.tree.layout.Workable) (hacyclic : (v.board ix.tree.layout).Acyclic) (record : Nat) :
    (call.course ix record).Meets (fun r => r ≠ .error .outOfRange) fun q =>
      q.program.NotAbandoned ix.tree.layout.blockSize (fun _ _ => True) v := by
  cases call with
  | delete key byPosition =>
    refine Course.meets_writing (fun _ => by simp) fun _ => ?_
    split
    · split
      · exact Tree.notAbandoned_delete hl hacyclic
      · simp [Course.Meets]
    · refine Course.meets_check (fun e he => ?_) fun key _ => Tree.notAbandoned_delete hl hacyclic
      simpa using Index.keyOf_ne_outOfRange he
  | find | findLast | next | previous | insert | reserve | release | stats | verify | outline =>
    cases hdeletes

namespace Index

variable {ix ix₁ : Index} {w w₀ w₁ : Workspace} {call : Call}

/-- A deletion on a tidy file without cycles is not abandoned. -/
theorem SoleOnTidy.deletion (h : ix.SoleOnTidy w) (hwholeBlocks : ix.WholeBlocks w)
    (hdeletes : call.deletes = true)
    (hacyclic : (ix.picture w).Acyclic) :
    Ends call.run (ix, w) fun r _ => r ≠ .error .outOfRange := by
  have hkeepsLength := call.keepsLength_course h.workable (w.cell ix.cell)
  have hkeepsTidy := call.keepsTidy h.workable h.cursor (w.cell ix.cell)
  have hnotAbandoned := Call.notAbandoned_course hdeletes h.workable hacyclic (w.cell ix.cell)
  refine Call.run_ends ?_
  cases hcourse : call.course ix (w.cell ix.cell) with
  | decided r =>
    rw [hcourse] at hnotAbandoned
    exact hnotAbandoned
  | asks q =>
    rw [hcourse] at hkeepsLength hkeepsTidy hnotAbandoned
    dsimp only [Course.Meets] at hkeepsLength hkeepsTidy hnotAbandoned ⊢
    rw [h.layout] at hnotAbandoned hkeepsTidy
    rw [← congrArg Layout.blockSize h.layout] at hnotAbandoned
    have hends := Session.transact_notAbandoned (m := ix.mount) ix.mode.locked ix.mode.endMode
      h.tidyAtRest
      hwholeBlocks.fit (fun mark => (hkeepsTidy mark).mono fun _ _ => trivial)
      (hkeepsLength.weaken fun _ => trivial) hnotAbandoned
    rw [← h.layout] at hends
    refine Ends.mono hends fun o s ⟨hrange, hended⟩ hr => ?_
    rcases failed_of_outcome hr with rfl | ⟨a, rfl⟩
    · exact hrange rfl
    · exact hended _ rfl rfl

/-- A file of any contents is opened in any way, and anything may happen to it. Then a call that
comes to an index or a bound outside its data is a deletion, and if the handle has a tidy file for
itself, a block of this file that can be come to from the root leads back to itself. -/
theorem cyclic_of_outOfRange {store : Store} {options : OpenOptions} {cell : Nat} (call : Call)
    (hw : w₀.Admits store (options.cache.getD Workspace.commonCache) cell)
    (hopen : openStore store options cell w₀ = .ok ix₁ w₁)
    (hrun : Relation.ReflTransGen HandleEvent (ix₁, w₁) (ix, w)) :
    Ends call.run (ix, w) fun r _ => r = .error .outOfRange →
      call.deletes = true ∧ (ix.SoleOnTidy w → ¬(ix.picture w).Acyclic) := by
  have hopened := ((openStore_ends fun _ => hw.volume).of_ok hopen).2 ix₁ rfl
  have hwholeBlocks := (hopened.wholeBlocks hw).handleEvents (σ := (ix₁, w₁)) hrun
  have hdeletes : Ends call.run (ix, w) fun r _ => r = .error .outOfRange → call.deletes = true :=
    (hwholeBlocks.call call).mono fun r σ h => h.1
  by_cases h : call.deletes = true ∧ ix.SoleOnTidy w ∧ (ix.picture w).Acyclic
  · obtain ⟨hdeletes, hsoleOnTidy, hacyclic⟩ := h
    exact (hsoleOnTidy.deletion hwholeBlocks hdeletes hacyclic).mono fun r σ hr he => absurd he hr
  · exact hdeletes.mono fun r σ hr he =>
      ⟨hr he, fun hsoleOnTidy hacyclic => h ⟨hr he, hsoleOnTidy, hacyclic⟩⟩

end Index

/-! ## A file with a knot -/

namespace Contents

variable {c : Contents} {h : Header} {nodes : List (BlockPos × Node)}

/-- A node is written over a block of a file, if it can be written. -/
def plant (h : Header) (c : Contents) (n : BlockPos × Node) : Contents :=
  match n.2.encode h.layout h.blockSize with
  | .ok x => c.write n.1.offset x
  | .error _ => c

/-- A file that is written over with given nodes and given chain pointers. -/
def draw (h : Header) (p : Pointers) (nodes : List (BlockPos × Node)) (c : Contents) : Contents :=
  nodes.foldl (plant h) (c.write 0 (p.write h.format (c.stretch 0 h.blockSize)).1)

/-- The links of a node lead to where blocks may start, and the node is at such a place. -/
def Fits (h : Header) (n : BlockPos × Node) : Prop :=
  n.1 ≠ .null ∧ ∀ q ∈ n.1 :: n.2.links, h.layout.Start q

instance (h : Header) (n : BlockPos × Node) : Decidable (Fits h n) :=
  inferInstanceAs (Decidable (_ ∧ _))

theorem Tidy.plant {n : BlockPos × Node} (hc : c.Tidy h) (hn : Fits h n) : (plant h c n).Tidy h := by
  obtain ⟨hnull, hstart⟩ := hn
  have hkey : 1 ≤ h.layout.keyLength := hc.workable.roomy.1
  unfold Contents.plant
  split
  · next x hx =>
    have hlength : x.length = h.blockSize := (Node.front_of_encode hx).2
    exact hc.write (hstart _ List.mem_cons_self).aligned ⟨hlength, fun h => absurd h hnull,
      fun _ => Layout.tidy_encode_node hkey hx fun q hq => hstart q (List.mem_cons_of_mem _ hq)⟩
  · exact hc

theorem Tidy.draw {p : Pointers} (hc : c.Tidy h) (hp : p.Lead h.layout)
    (hnodes : ∀ n ∈ nodes, Fits h n) : (draw h p nodes c).Tidy h := by
  have hfront := hc.blocks .null (Nat.dvd_zero _)
  have hlength : 1 + 4 * h.format.positionWidth ≤
      (c.stretch BlockPos.null.offset h.blockSize).length := hfront.length.symm ▸ hc.pointers_le
  obtain ⟨hleads, -, hsame⟩ := (hfront.header rfl).write hp hlength
  have hbase := hc.write (Nat.dvd_zero _) (p := .null)
    ⟨hsame.trans hfront.length, fun _ => hleads, fun h => absurd rfl h⟩
  exact List.foldlRecOn (motive := fun c : Contents => c.Tidy h) nodes _ hbase
    fun c hc n hn => hc.plant (hnodes n hn)

end Contents

namespace Index

variable {ix : Index} {w : Workspace}

/-- A file of which nothing is cached is written over with another tidy one. -/
theorem SoleOnTidy.overwritten {c : Contents} (h : ix.SoleOnTidy w)
    (hidle : (w.below ix.cache).Idle ix.file)
    (hc : c.Tidy ix.header) : ix.SoleOnTidy { w with
      disk := w.disk.modifyVolume ix.store.volume fun v => { v with contents := c } } := by
  obtain ⟨htidy, hintact, hunpinned⟩ := h.tidyAtRest
  have hvolume : ix.store.volume < w.disk.volumes.size := htidy.volume_lt
  have hcontents : (w.disk.modifyVolume ix.store.volume fun v => { v with contents := c }).contents
      ix.store.volume = c := by
    unfold Disk.contents
    rw [Disk.volume_modifyVolume, if_pos ⟨rfl, hvolume⟩]
  have hsize : ix.store.volume < (w.disk.modifyVolume ix.store.volume fun v =>
      { v with contents := c }).volumes.size := by
    simpa [Disk.modifyVolume] using hvolume
  have hheader : ix.mount.blockSize ≤ c.size := htidy.size ▸ hc.header
  exact ⟨h.cache, h.cell, h.layout, h.cursor,
    ⟨⟨htidy.size, htidy.store, hsize, hcontents.symm ▸ hc, htidy.buffers, htidy.sole⟩,
      ⟨hintact.sound, hintact.enough, hintact.size_pos, hsize, hcontents.symm ▸ hheader, hintact.store,
        hintact.whole, hintact.apart, fun i b hb hfile => absurd hfile (hidle i b hb)⟩,
      hunpinned⟩, h.alone⟩

/-- A root that is its own last child, and two leaves. -/
def knot : List (BlockPos × Node) :=
  [(⟨512⟩, .branch ⟨⟨1024⟩, [(⟨[0x62], 2⟩, ⟨1536⟩), (⟨[0x73], 9⟩, ⟨512⟩)]⟩),
    (⟨1024⟩, .leaf [⟨[0x61], 1⟩]), (⟨1536⟩, .leaf [⟨[0x63], 3⟩])]

def knotPointers : Pointers := { root := ⟨512⟩, highWater := ⟨1536⟩ }

/-- The small file is written over with the knot. -/
def tangled (ix : Index) (w : Workspace) : Workspace := { w with
  disk := w.disk.modifyVolume 0 fun v => { v with
    contents := Contents.draw ix.header knotPointers knot (w.disk.contents 0) } }

/-- Whether the small file can be made and written over, and the deletion of the last separator of
the knot is abandoned. -/
def abandons (w : Workspace) : Bool :=
  match newFile w with
  | .ok ix w => decide ((w.disk.contents 0).size = ix.header.blockSize) &&
    decide ((∀ q ∈ knotPointers.fields, ix.header.layout.Start q) ∧
      ∀ n ∈ knot, Contents.Fits ix.header n) &&
    match (Call.delete [0x73] false).run (ix, tangled ix w) with
    | .ok _ _ => false
    | .error e _ => decide (e = .outOfRange)
  | .error _ _ => false

/-- The deletion is abandoned, and the file is tidy. -/
theorem cyclic_of_outOfRange_tangled : ∃ ix w σ, newFile newWorkspace = .ok ix w ∧
    (Call.delete [0x73] false).run (ix, tangled ix w) = .error .outOfRange σ ∧
    ix.SoleOnTidy (tangled ix w) ∧ ¬(ix.picture (tangled ix w)).Acyclic := by
  have hchecked : abandons newWorkspace = true := by decide +kernel
  have hadmits := admits_new
  have huntaken := untaken_new
  have hempty : ∀ i, (newWorkspace.disk.contents 0).byte i = 0 := Contents.byte_empty
  unfold abandons at hchecked
  generalize newWorkspace = w₀ at *
  cases hopen : newFile w₀ with
  | error e w =>
    rw [hopen] at hchecked
    cases hchecked
  | ok ix w =>
    simp only [hopen, Bool.and_eq_true, decide_eq_true_eq] at hchecked
    obtain ⟨⟨hsize, hlead, hnodes⟩, hchecked⟩ := hchecked
    cases hrun : (Call.delete [0x73] false).run (ix, tangled ix w) with
    | ok a σ =>
      rw [hrun] at hchecked
      cases hchecked
    | error e σ =>
      simp only [hrun, decide_eq_true_eq] at hchecked
      subst hchecked
      have htidy := tidy_new hadmits hempty hopen hsize
      have hopened := ((openStore_ends fun _ => hadmits.volume).of_ok hopen).2 ix rfl
      have hidle := (hopened.seated hadmits htidy.size_pos htidy.header).idle
      have hsoleOnTidy : ix.SoleOnTidy (tangled ix w) := by
        have h := (hopened.soleOnTidy hadmits huntaken htidy).overwritten hidle
          (htidy.draw hlead hnodes)
        rwa [hopened.store] at h
      have hcyclic := (cyclic_of_outOfRange (.delete [0x73] false) hadmits hopen
        (.single (.altered ix w ix.cursor (tangled ix w).disk w.cells))).of_error hrun rfl
      exact ⟨ix, w, σ, rfl, hrun, hsoleOnTidy, hcyclic.2 hsoleOnTidy⟩

end Index

end PagedIndex
