import PagedIndex.Proofs.Index.Parted
import PagedIndex.Proofs.Index.WholeBlocks
import PagedIndex.Proofs.Session.Visits
import PagedIndex.Proofs.Tree.Sweeps

/-!
# Calls that only read, on files of any contents

A call that only reads comes to an end, whatever the file holds: links may lead in circles or
anywhere, chains may come back to themselves, leaves may be empty, and the cursor may stand
anywhere. It never comes to an index or a bound outside its data, does not go deeper than a tree may
have levels, nor through more blocks of a chain than the file has, and leaves no change behind.

## Main definitions

* `Call.Route` — the blocks that a call may look at which only reads.
* `Index.Browsed` — what such a call has done.

## Main statements

* `Index.browsed_of_open` — the calls on a file that was opened.
-/

namespace PagedIndex

/-- The blocks that a call may look at which only reads. A move goes a few ways down or up. An
inspection goes through the blocks under the root, and then through the two chains. -/
def Call.Route (c : Board) (l : Layout) (ps : List BlockPos) : Call → Prop
  | find _ | findLast _ | next | previous => c.Legs 8 ps ∧ ps.length ≤ 8 * (maxLevels + 1)
  | outline => ps <+: c.tree
  | stats | verify => ps <+: c.whole l ∧ ps.length ≤ c.tree.length + 2 * c.total l
  | insert _ | delete _ _ | reserve | release => True

/-- A call asks for a program that visits nothing but blocks on its route. -/
theorem Call.visiting_course {ix : Index} {call : Call} {blocks : BlockPos → Option Bytes}
    {p : Pointers}
    (hreads : Index.Reads call) (record : Nat) :
    (call.course ix record).Meets (fun _ => True) fun q => q.program.Visiting blocks p fun ps _ =>
      call.Route (Board.read ix.tree.layout blocks p) ix.tree.layout ps := by
  have hmove : ∀ {n : Nat} {program : Program Cursor}, n ≤ 8 →
      (program.Visiting blocks p fun ps _ => (Board.read ix.tree.layout blocks p).Legs n ps) →
      program.Visiting blocks p fun ps _ => (Board.read ix.tree.layout blocks p).Legs 8 ps ∧
        ps.length ≤ 8 * (maxLevels + 1) := fun hn h =>
    h.mono fun _ _ hps => ⟨hps.mono hn, (hps.mono hn).length_le⟩
  cases call with
  | find key =>
    simp only [course]
    split
    · trivial
    · exact Course.meets_check (fun _ _ => trivial) fun key _ =>
        hmove (by decide) (Tree.visiting_find rfl key)
  | findLast start =>
    exact Course.meets_check (fun _ _ => trivial) fun padded _ =>
      hmove (by decide) (Tree.visiting_findLast rfl padded _)
  | next => exact hmove (by decide) (Tree.visiting_next rfl)
  | previous => exact hmove (by decide) (Tree.visiting_previous rfl)
  | stats | verify =>
    exact (Tree.follows_survey rfl).mono fun _ _ h =>
      ⟨h.1, h.1.length_le.trans (Board.length_whole_le _ _)⟩
  | outline => exact (Tree.follows_outline rfl).mono fun _ _ h => h.1
  | insert | delete | reserve | release => cases hreads

namespace Cache

variable {m : Mount} {V : BlockPos → Prop} {s t : Buffered} {i : Nat} {b : Buffer}

/-- Work that puts in no images leaves no changes but those that were there. -/
theorem Steps.dirty (h : Steps m V (fun _ _ => False) s t) (hb : t.cache.buffer? i = some b)
    (hdirty : b.dirty = true) : b.From s.cache i := by
  have hall : ∀ τ, Through m V (fun _ _ => False) (none, s) τ → ∀ b, τ.2.cache.buffer? i = some b →
      b.dirty = true → b.From s.cache i := by
    intro τ hτ
    induction hτ with
    | refl => exact fun b hb _ => Buffer.from_self hb
    | tail _ hstep ih =>
      intro b hb hdirty
      rcases hstep.untouched hb with ⟨b', hb', hfile, hpos, himage, hchanged⟩ | ⟨hclean, -⟩
      · obtain ⟨b'', hb'', hfile', hpos', himage', hchanged'⟩ := ih b' hb' (hchanged hdirty)
        exact ⟨b'', hb'', hfile'.trans hfile, hpos'.trans hpos, himage'.trans himage,
          fun _ => hchanged' (hchanged hdirty)⟩
      · rw [hclean] at hdirty
        cases hdirty
  exact hall _ h b hb hdirty

end Cache

namespace Index

variable {ix : Index} {w : Workspace} {call : Call}

/-- A call has looked at a file and has left no change behind: neither in the volume, and so in the
header, nor in a block that is cached. -/
structure Browsed (ix : Index) (call : Call) (w : Workspace) (r : Except Error Answer)
    (σ : Index × Workspace) : Prop where
  inRange : r ≠ .error .outOfRange
  handle : σ.1 = { ix with cursor := σ.1.cursor }
  contents : σ.2.disk.contents ix.store.volume = w.disk.contents ix.store.volume
  /-- What is cached of the file is what the volume holds. -/
  mirrors : σ.1.Mirrors σ.2
  clean : ∀ i b, (σ.2.cache ix.cache).buffer? i = some b → b.dirty = true →
    b.file ≠ ix.file ∧ b.From (w.cache ix.cache) i
  /-- The header was looked up in the cache, and then the blocks on the route of the call. -/
  looked : ∃ ps, (σ.2.cache ix.cache).lookups ≤ (w.cache ix.cache).lookups + 1 + ps.length ∧
    (ps = [] ∨ ∃ x, ix.mount.read? w.disk .null = some x ∧
      call.Route (ix.board x w) ix.tree.layout ps)

/-- No dirty buffer is one of a file that is as its volume. -/
theorem Mirrors.file_ne (h : ix.Mirrors w) {i : Nat} {b : Buffer}
    (hb : (w.cache ix.cache).buffer? i = some b) (hdirty : b.dirty = true) : b.file ≠ ix.file :=
  fun hfile => h.mirrors.apart i b ix.store hb hdirty (hfile ▸ h.mirrors.store) rfl

/-- What a call looks at that only reads. -/
theorem Mirrors.looks (h : ix.Mirrors w) (hreads : Reads call) :
    Ends call.run (ix, w) fun _ σ => ∃ ps,
      (σ.2.cache ix.cache).lookups ≤ (w.cache ix.cache).lookups + 1 + ps.length ∧
      (ps = [] ∨ ∃ x, ix.mount.read? w.disk .null = some x ∧
        call.Route (ix.board x w) ix.tree.layout ps) := by
  have hmeets : (call.course ix (w.cell ix.cell)).Meets (fun _ => True) fun q => q.program.Reader :=
    reader_of_reads hreads _
  have hvisiting : ∀ x, (call.course ix (w.cell ix.cell)).Meets (fun _ => True) fun q =>
      q.program.Visiting (ix.mount.read? w.disk) (Pointers.read ix.tree.layout.format x) fun ps _ =>
        call.Route (ix.board x w) ix.tree.layout ps := fun x => Call.visiting_course hreads _
  refine Call.run_ends ?_
  cases hcourse : call.course ix (w.cell ix.cell) with
  | decided r => exact ⟨[], Nat.le_succ _, .inl rfl⟩
  | asks q =>
    rw [hcourse] at hmeets
    simp only [hcourse] at hvisiting
    dsimp only [Course.Meets] at hmeets hvisiting ⊢
    refine Ends.mono (Session.transact_visits (m := ix.mount) ix.mode.locked ix.mode.endMode hmeets rfl
      h.mirrors) fun o s hlooked => ?_
    obtain ⟨ps, v, hcount, -, hvisits⟩ := hlooked
    have hbelow : (q.after ix w o s).2.below ix.cache = s := Request.below_after h.cache
    refine ⟨ps, (congrArg (fun s => s.cache.lookups) hbelow).trans_le hcount, ?_⟩
    rcases hvisits with ⟨hnone, -⟩ | ⟨x, hx, hvisits⟩
    · exact .inl hnone
    · exact .inr ⟨x, hx, hvisiting x ps v hvisits⟩

/-- What a call does that only reads. -/
theorem Mirrors.browsed (h : ix.Mirrors w) (hwholeBlocks : ix.WholeBlocks w) (hreads : Reads call) :
    Ends call.run (ix, w) (ix.Browsed call w) := by
  have hkept : Ends call.run (ix, w) fun _ σ => σ.1 = { ix with cursor := σ.1.cursor } ∧
      σ.1.Mirrors σ.2 ∧ σ.2.disk.contents ix.store.volume = w.disk.contents ix.store.volume ∧
      ∀ i b, (σ.2.cache ix.cache).buffer? i = some b → b.dirty = true →
        b.From (w.cache ix.cache) i := by
    have hmeets : (call.course ix (w.cell ix.cell)).Meets (fun _ => True) fun q => q.program.Reader :=
      reader_of_reads hreads _
    cases hcourse : call.course ix (w.cell ix.cell) with
    | decided r =>
      refine Call.run_ends ?_
      rw [hcourse]
      exact ⟨rfl, h, rfl, fun i b hb _ => Buffer.from_self hb⟩
    | asks q =>
      rw [hcourse] at hmeets
      refine (h.asks_ends hcourse hmeets).mono ?_
      rintro r _ ⟨o, s, -, rfl, hreadOutcome, hmirrors, hcontents, -⟩
      have hbelow : (q.after ix w o s).2.below ix.cache = s := Request.below_after h.cache
      refine ⟨rfl, hmirrors.withCursor _, hcontents, fun i b hb hdirty => ?_⟩
      exact hreadOutcome.steps.dirty ((congrArg (fun s => s.cache.buffer? i) hbelow).symm.trans hb)
        hdirty
  refine (hkept.and ((h.looks hreads).and (hwholeBlocks.call call))).mono ?_
  rintro r σ ⟨⟨hhandle, hmirrors, hcontents, hdirty⟩, hlooked, hrange, -⟩
  refine ⟨fun hr => ?_, hhandle, hcontents, hmirrors, fun i b hb hd => ⟨?_, hdirty i b hb hd⟩, hlooked⟩
  · have hdeletes := hrange hr
    cases call <;> cases hreads <;> cases hdeletes
  · rw [hhandle] at hmirrors
    exact hmirrors.file_ne hb hd

/-- The cached blocks stay whole where a handle only reads. -/
theorem WholeBlocks.readEvents {σ τ : Index × Workspace} (h : σ.1.WholeBlocks σ.2)
    (hrun : Relation.ReflTransGen ReadEvent σ τ) : τ.1.WholeBlocks τ.2 := by
  induction hrun with
  | refl => exact h
  | tail _ hstep ih =>
    cases hstep with
    | @called ix w call _ => exact (ih.call call).ending.2
    | passed ix w d _ => exact ih.altered ix.cursor d w.cells

/-- A file of any contents is opened in any way, and is only read. Then every call that only reads
comes to an end, wherever the cursor stands, and has changed nothing. A last leaf that is come to is
not empty, and an entry that is come to has a key of full length, so that one less than the number
of its entries and the beginning of its key are what they should be. -/
theorem browsed_of_open {store : Store} {options : OpenOptions} {cell : Nat} {w₀ w₁ w : Workspace}
    {ix₁ ix : Index} {call : Call} (hw : w₀.Admits store (options.cache.getD Workspace.commonCache)
      cell)
    (hopen : openStore store options cell w₀ = .ok ix₁ w₁)
    (hbefore : Relation.ReflTransGen ReadEvent (ix₁, w₁) (ix, w)) (hreads : Reads call) (c : Cursor) :
    Ends call.run ({ ix with cursor := c }, w) (Browsed { ix with cursor := c } call w) ∧
      (∀ levels pos, (ix.tree.rightmostLeaf levels pos).KeepsLength False ix.tree.layout.blockSize
        fun r => 0 < r.2) ∧
      ∀ d, (ix.tree.entryAt d).KeepsLength False ix.tree.layout.blockSize
        fun e => e.key.length = ix.tree.layout.keyLength := by
  have hopened := ((openStore_ends fun _ => hw.volume).of_ok hopen).2 ix₁ rfl
  obtain ⟨-, hmirrors, -⟩ := (hopened.mirrors hw).readEvents (σ := (ix₁, w₁)) hbefore
  have hwholeBlocks := (hopened.wholeBlocks hw).readEvents (σ := (ix₁, w₁)) hbefore
  exact ⟨(hmirrors.withCursor c).browsed (hwholeBlocks.altered c w.disk w.cells) hreads,
    fun _ _ => Tree.keepsLength_rightmostLeaf hmirrors.workable,
    fun _ => Tree.keepsLength_entryAt hmirrors.workable⟩

/-- A memory area with a file of two levels, its root replaced by a branch that links to itself. -/
def loopWorkspace : Workspace := memoryWorkspace
  { contents := Tree.sampleContents.write 1536 ([0x55, 0, 0, 0, 0, 6, 0] ++ List.replicate 505 0xff) }

/-- Whether a search in a file comes to be too deep. -/
def goesRound (ix : Index) (w : Workspace) : Bool :=
  match (Call.find [0x41]).run (ix, w) with
  | .ok _ _ => false
  | .error e _ => decide (e = .corrupt .tooDeep)

/-- A search goes round in that file until it is too deep. -/
theorem browsed_of_open_loop : ∃ ix w σ,
    openStore (.ofMemory 0 none) { mode := .exclusive } 0 loopWorkspace = .ok ix w ∧
    (Call.find [0x41]).run (ix, w) = .error (.corrupt .tooDeep) σ ∧
    Browsed ix (.find [0x41]) w (.error (.corrupt .tooDeep)) σ := by
  have hchecked : opens { mode := .exclusive } loopWorkspace goesRound = true := by decide +kernel
  have hadmits : loopWorkspace.Admits (.ofMemory 0 none) 0 0 := admits_memory _
  generalize loopWorkspace = w₀ at *
  obtain ⟨ix, w, hopen, hround⟩ := exists_of_opens hchecked
  unfold goesRound at hround
  split at hround
  · cases hround
  · next e σ hrun =>
    obtain rfl := of_decide_eq_true hround
    have hreads : Reads (.find [0x41]) := rfl
    have hbrowsed := (browsed_of_open hadmits hopen .refl hreads ix.cursor).1
    exact ⟨ix, w, σ, hopen, hrun, hbrowsed.of_error hrun⟩

end Index

end PagedIndex
