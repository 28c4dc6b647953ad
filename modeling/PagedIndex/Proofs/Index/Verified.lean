import PagedIndex.Proofs.Index.Ending
import PagedIndex.Proofs.Index.Moving
import PagedIndex.Proofs.Tree.Verdict

/-!
# Files whose check was passed

A check that is passed says what all later calls come to that only read, whatever the file holds:
the walk lists as many entries as were counted, in order, every key is found, and the tree is drawn
as it was counted. The calls use other code over the same blocks than the check.

## Main definitions

* `Index.Mirrors` — a handle whose cache holds of its file what the volume holds.
* `Index.Attested` — a file that reads as its check has counted.

## Main statements

* `Index.Opened.mirrors`, `Index.Mirrors.asks_ends` — a handle that has opened its file mirrors it,
  and calls that only read leave it so.
* `Index.Mirrors.attested` — what a check that is passed is worth.
-/

namespace PagedIndex

namespace Index

/-- A handle whose cache holds of its file what the volume holds, between two calls. Of the file
itself nothing is asked. -/
structure Mirrors (ix : Index) (w : Workspace) : Prop where
  cache : ix.cache < w.caches.size
  cell : ix.cell < w.cells.size
  workable : ix.tree.layout.Workable
  mirrors : ix.mount.Mirrors none (w.below ix.cache)
  unpinned : Session.Unpinned (w.below ix.cache)
  enough : minBuffers ≤ (w.cache ix.cache).capacity

/-- Nothing stands in the way of the calls of a handle: its store refuses nothing, the changes of
other files can be written, and no failure is kept for it. -/
structure Unhindered (ix : Index) (w : Workspace) : Prop where
  refusesNothing : ix.store.RefusesNothing w.disk
  flushable : (w.below ix.cache).Flushable
  unparked : Session.Unparked ix.mount (w.below ix.cache)

variable {ix : Index} {w w' : Workspace} {q : Request} {s : Buffered} {x : Bytes} {call : Call}
  {o : Except Error (q.α × Except Error Unit)} {program : Program Cursor} {cursor c : Cursor}

/-- The cursor of a handle may be put anywhere. -/
theorem Mirrors.withCursor (h : ix.Mirrors w) (c : Cursor) :
    ({ ix with cursor := c } : Index).Mirrors w :=
  ⟨h.cache, h.cell, h.workable, h.mirrors, h.unpinned, h.enough⟩

theorem Unhindered.withCursor (h : ix.Unhindered w) (c : Cursor) :
    ({ ix with cursor := c } : Index).Unhindered w := ⟨h.refusesNothing, h.flushable, h.unparked⟩

theorem Mirrors.serves (h : ix.Mirrors w) (hfree : ix.Unhindered w) :
    Session.Serves ix.mount (w.below ix.cache) :=
  ⟨hfree.flushable, h.unpinned, h.enough, hfree.refusesNothing, hfree.unparked⟩

/-- The rest of the disk has no part in it. -/
theorem Mirrors.disk (h : ix.Mirrors w) {d : Disk}
    (hcontents : d.contents ix.store.volume = w.disk.contents ix.store.volume) :
    ix.Mirrors { w with disk := d } :=
  ⟨h.cache, h.cell, h.workable, ⟨h.mirrors.sound, h.mirrors.store, h.mirrors.apart,
    fun i b hb hfile => (Mount.read?_congr hcontents).trans (h.mirrors.same i b hb hfile)⟩,
    h.unpinned, h.enough⟩

/-- A handle has read nothing but the header when it has opened its file. -/
theorem Opened.mirrors {store : Store} {options : OpenOptions} {cell : Nat}
    (h : Opened store options cell w ix w')
    (hw : w.Admits store (options.cache.getD Workspace.commonCache) cell) : ix.Mirrors w' := by
  rw [← h.cache] at hw
  have hbelow := h.below hw.cache
  obtain ⟨d, hfollows, -, -, hparse, hw'⟩ := h.disk
  have hlayout : ix.tree.layout = ix.header.layout := by rw [h.tree]
  refine ⟨?_, ?_, hlayout ▸ (Header.of_parse_eq_ok hparse).1, ?_, ?_, ?_⟩
  · rw [hw']
    exact (Array.size_setIfInBounds ..).symm ▸ hw.cache
  · rw [hw', h.cell]
    exact hw.cell
  · rw [hbelow]
    refine ⟨hw.sound.register store, ?_, fun i b other hb hd hother => ?_, fun i b hb hfile => ?_⟩
    · show Cache.store? _ ix.file = some ix.store
      rw [h.file, h.store]
      exact Cache.store?_register_self
    · have hidle := Buffered.idle_freshFile (s := ⟨w.cache ix.cache, w'.disk⟩) hw.sound
      show other.volume ≠ ix.store.volume
      rw [h.store]
      exact hw.untaken b.file other ((Cache.store?_register (hidle i b hb)).symm.trans hother)
    · have hidle := Buffered.idle_freshFile (s := ⟨w.cache ix.cache, w'.disk⟩) hw.sound
      exact absurd (hfile.trans h.file) (hidle i b hb)
  · rw [hbelow]
    exact hw.unpinned
  · rw [show w'.cache ix.cache = _ from congrArg Buffered.cache hbelow]
    exact hw.enough

/-- If its stores refuse nothing, nothing stands in its way. -/
theorem Opened.unhindered {store : Store} {options : OpenOptions} {cell : Nat}
    (h : Opened store options cell w ix w')
    (hw : w.Admits store (options.cache.getD Workspace.commonCache) cell)
    (hrefusesNothing : store.RefusesNothing w'.disk) (hclean : ∀ i b,
      (w.cache (options.cache.getD Workspace.commonCache)).buffer? i = some b → b.dirty = false) :
    ix.Unhindered w' := by
  rw [← h.cache] at hw hclean
  have hbelow := h.below hw.cache
  refine ⟨h.store ▸ hrefusesNothing, ?_, ?_⟩
  · rw [hbelow]
    intro i b hb hdirty
    rw [hclean i b hb] at hdirty
    cases hdirty
  · rw [hbelow]
    intro reg hreg
    change (Cache.register _ store).2.registration? ix.file = some reg at hreg
    rw [h.file] at hreg
    simp only [Cache.registration?, Cache.register, List.lookup_cons_self] at hreg
    cases hreg
    rfl

/-! ## Calls that only read -/

/-- A call that answers has ended well. -/
theorem exists_of_outcome {answer : Answer} (h : q.outcome o = .ok answer) :
    ∃ a, o = .ok (a, .ok ()) ∧ answer = q.answer a := by
  cases o with
  | error e => cases h
  | ok a =>
    obtain ⟨a, ended⟩ := a
    cases ended with
    | error e => cases h
    | ok u =>
      cases h
      exact ⟨a, rfl, rfl⟩

/-- A call that only reads ends as its program reads the blocks of the volume, and leaves the handle
and the file as they were. -/
theorem Mirrors.asks_ends (h : ix.Mirrors w) (hcourse : call.course ix (w.cell ix.cell) = .asks q)
    (hreader : q.program.Reader) : Ends call.run (ix, w) fun r σ => ∃ o s, r = q.outcome o ∧
      σ = q.after ix w o s ∧
      Session.ReadOutcome ix.mount ix.tree.layout.format q.program (w.below ix.cache) o s ∧
      ix.Mirrors σ.2 ∧ σ.2.disk.contents ix.store.volume = w.disk.contents ix.store.volume ∧
      ∀ answer, r = .ok answer → ix.Unhindered w → ix.Unhindered σ.2 := by
  have hends := (Session.transact_reads (l := ix.tree.layout) ix.mode.locked ix.mode.endMode hreader
    rfl h.mirrors).and (Session.transact_unpinned ix.file ix.tree.layout ix.mode.locked
      ix.mode.endMode q.program h.unpinned)
  refine Call.run_ends ?_
  rw [hcourse]
  dsimp only [Course.Meets]
  refine Ends.mono hends fun o s ⟨hreadOutcome, hunpinned⟩ => ⟨o, s, rfl, rfl, hreadOutcome, ?_⟩
  obtain ⟨hmirrors, hcontents⟩ := hreadOutcome.steps.mirrors h.mirrors
  have hbelow : (q.after ix w o s).2.below ix.cache = s := Request.below_after h.cache
  refine ⟨⟨?_, ?_, h.workable, ?_, ?_, ?_⟩, hcontents, fun answer hanswer hfree => ⟨?_, ?_, ?_⟩⟩
  · exact (Array.size_setIfInBounds ..).symm ▸ h.cache
  · exact (Array.size_setIfInBounds ..).symm ▸ h.cell
  · rw [hbelow]
    exact hmirrors
  · rw [hbelow]
    exact hunpinned
  · rw [show (q.after ix w o s).2.cache ix.cache = _ from congrArg Buffered.cache hbelow,
      hreadOutcome.steps.registered.1]
    exact h.enough
  · exact hfree.refusesNothing.follows (Cache.Through.reaches hreadOutcome.steps).follows
  · rw [hbelow]
    exact hreadOutcome.steps.flushable hfree.flushable
  · rw [hbelow]
    obtain ⟨a, rfl, -⟩ := exists_of_outcome hanswer
    exact hreadOutcome.unparked a rfl

/-- Where nothing stands in its way it comes to what its program reads, and can be made again. -/
theorem Mirrors.free_ends (h : ix.Mirrors w) (hfree : ix.Unhindered w)
    (hheader : ix.mount.read? w.disk .null = some x)
    (hcourse : call.course ix (w.cell ix.cell) = .asks q) (hreader : q.program.Reader) {a : q.α}
    (hreads : q.program.Reads (ix.mount.read? w.disk) (Pointers.read ix.tree.layout.format x) (.ok a)) :
    Ends call.run (ix, w) fun r σ => ∃ s, r = .ok (q.answer a) ∧ σ = q.after ix w (.ok (a, .ok ())) s ∧
      ix.Mirrors σ.2 ∧ σ.2.disk.contents ix.store.volume = w.disk.contents ix.store.volume ∧
      ix.Unhindered σ.2 := by
  refine (h.asks_ends hcourse hreader).mono ?_
  rintro r σ ⟨o, s, rfl, rfl, hreadOutcome, hmirrors, hcontents, hstays⟩
  obtain rfl := hreadOutcome.sure (h.serves hfree) x a hheader hreads
  exact ⟨s, rfl, rfl, hmirrors, hcontents, hstays _ rfl hfree⟩

def Reads : Call → Bool
  | .find _ | .findLast _ | .next | .previous | .stats | .verify | .outline => true
  | .insert _ | .delete _ _ | .reserve | .release => false

theorem reader_of_reads (h : Reads call) (record : Nat) :
    (call.course ix record).Meets (fun _ => True) fun q => q.program.Reader := by
  cases call with
  | find key =>
    simp only [Call.course]
    split
    · trivial
    · exact Course.meets_check (fun _ _ => trivial) fun key _ => (Tree.walks_find trivial key).reader
  | findLast start =>
    exact Course.meets_check (fun _ _ => trivial) fun padded _ =>
      (Tree.walks_findLast trivial padded _).reader
  | next => exact (Tree.walks_next trivial fun _ _ => .inr trivial).reader
  | previous => exact (Tree.walks_previous trivial).reader
  | stats | verify => exact Tree.walks_survey.reader
  | outline => exact Tree.walks_outline.reader
  | insert | delete | reserve | release => cases h

/-- One thing that happens while a handle only reads its file and nobody else changes it. -/
inductive ReadEvent : Index × Workspace → Index × Workspace → Prop
  | called (ix : Index) (w : Workspace) {call : Call} (hreads : Reads call) :
    ReadEvent (ix, w) (ending call.run (ix, w)).2
  /-- The rest of the disk changes, and accesses are refused or no longer so. -/
  | passed (ix : Index) (w : Workspace) (d : Disk)
    (hcontents : d.contents ix.store.volume = w.disk.contents ix.store.volume) :
    ReadEvent (ix, w) (ix, { w with disk := d })

/-- The handle and the file stay as they are but for the cursor. -/
theorem Mirrors.readEvents {σ τ : Index × Workspace} (h : σ.1.Mirrors σ.2)
    (hrun : Relation.ReflTransGen ReadEvent σ τ) : (∃ c, τ.1 = { σ.1 with cursor := c }) ∧
      τ.1.Mirrors τ.2 ∧
      τ.2.disk.contents σ.1.store.volume = σ.2.disk.contents σ.1.store.volume := by
  obtain ⟨ix, w⟩ := σ
  induction hrun with
  | refl => exact ⟨⟨ix.cursor, rfl⟩, h, rfl⟩
  | @tail τ υ _ hstep ih =>
    obtain ⟨ix', w'⟩ := τ
    obtain ⟨⟨c, rfl⟩, hmirrors, hcontents⟩ := ih
    cases hstep with
    | passed _ _ d hsame => exact ⟨⟨c, rfl⟩, hmirrors.disk hsame, hsame.trans hcontents⟩
    | @called _ _ call hreads =>
      have hends : Ends call.run ({ ix with cursor := c }, w') fun _ τ =>
          (∃ c, τ.1 = { ix with cursor := c }) ∧ τ.1.Mirrors τ.2 ∧
            τ.2.disk.contents ix.store.volume = w'.disk.contents ix.store.volume := by
        have hmeets : (call.course { ix with cursor := c } (w'.cell ix.cell)).Meets _ _ :=
          reader_of_reads hreads _
        cases hcourse : call.course { ix with cursor := c } (w'.cell ix.cell) with
        | decided r =>
          refine Call.run_ends ?_
          dsimp only
          rw [hcourse]
          exact ⟨⟨c, rfl⟩, hmirrors, rfl⟩
        | asks q =>
          rw [hcourse] at hmeets
          refine (hmirrors.asks_ends hcourse hmeets).mono ?_
          rintro r _ ⟨o, s, -, rfl, -, hafter, hcontents, -⟩
          exact ⟨⟨_, rfl⟩, hafter.withCursor _, hcontents⟩
      obtain ⟨hhandle, hmirrors', hcontents'⟩ := hends.ending
      exact ⟨hhandle, hmirrors', hcontents'.trans hcontents⟩

/-! ## What a check is worth -/

/-- A file that reads as its check has counted. -/
structure Attested (ix : Index) (stats : IndexStats) (w : Workspace) (es : List Entry) : Prop where
  length : es.length = stats.entries
  ascending : es.Pairwise fun a b => Entry.compare ix.tree.collation true a b = .lt
  keys : ix.tree.duplicates = false →
    es.Pairwise fun a b => ix.tree.collation.compare a.key b.key ≠ .eq
  /-- The walk from a fresh cursor, and back. -/
  recites : ix.Recites es w
  finds : ∀ e ∈ es, Ends (Call.find e.key).run (ix, w) fun r σ => r = .ok (.state .onKey) ∧
    ∃ found ∈ es, σ.1.cursor.current = some found ∧ σ.2.cell ix.cell = found.record ∧
      ix.tree.collation.compare e.key found.key = .eq
  outline : ∃ tree : Option Outline, Ends Call.outline.run (ix, w) (fun r _ => r = .ok (.shaped tree)) ∧
    tree.elim [] Outline.entries = es ∧
    tree.elim [] Outline.leafDepths = List.replicate stats.leafBlocks stats.height ∧
    tree.elim 0 Outline.branches = stats.branchBlocks

/-- A file of which a check has been passed, when all that is left is to read it. -/
structure Audited (ix : Index) (stats : IndexStats) (x : Bytes) (tree : Option Outline)
    (w : Workspace) : Prop where
  mirrors : ix.Mirrors w
  unhindered : ix.Unhindered w
  header : ix.mount.read? w.disk .null = some x
  surveyed : ∃ free slots, ix.tree.Surveyed (Board.read ix.tree.layout (ix.mount.read? w.disk)
    (Pointers.read ix.tree.layout.format x)) stats tree free slots

section Audited

variable {stats : IndexStats} {tree : Option Outline}

/-- The blocks of the tree that the check has seen. -/
def seen (ix : Index) (x : Bytes) (tree : Option Outline) (w : Workspace) : Board :=
  (Board.read ix.tree.layout (ix.mount.read? w.disk)
    (Pointers.read ix.tree.layout.format x)).within (tree.elim [] Outline.blocks)

theorem Audited.later (h : ix.Audited stats x tree w) (hmirrors : ix.Mirrors w')
    (hfree : ix.Unhindered w')
    (hcontents : w'.disk.contents ix.store.volume = w.disk.contents ix.store.volume) :
    ix.Audited stats x tree w' ∧ ix.seen x tree w' = ix.seen x tree w := by
  have hread : ix.mount.read? w'.disk = ix.mount.read? w.disk :=
    funext fun _ => Mount.read?_congr hcontents
  refine ⟨⟨hmirrors, hfree, hread ▸ h.header, hread ▸ h.surveyed⟩, ?_⟩
  unfold seen
  rw [hread]

/-- One move by one entry. -/
theorem Audited.move_ends (h : ix.Audited stats x tree w) {found : Option Entry} {off : KeyState}
    (hoff : off ≠ .onKey) (hpointsInto : ix.cursor.PointsInto (ix.seen x tree w))
    (hcourse : call.course ix (w.cell ix.cell) = .asks (.move program)) (hreader : program.Reader)
    (hreads : program.Reads (ix.mount.read? w.disk) (Pointers.read ix.tree.layout.format x) (.ok c))
    (hlanded : ix.cursor.Landed (ix.seen x tree w) c found off) :
    Ends call.run (ix, w) fun r σ => ix.Went w found off r σ ∧ σ.1.Audited stats x tree σ.2 ∧
      σ.1.cursor.PointsInto (σ.1.seen x tree σ.2) := by
  refine (h.mirrors.free_ends h.unhindered h.header hcourse hreader hreads).mono ?_
  rintro r σ ⟨s, rfl, rfl, hmirrors, hcontents, hfree⟩
  obtain ⟨haudited, hseen⟩ := h.later hmirrors hfree hcontents
  have hrecord : c.record? = found.map Entry.record := by
    unfold Cursor.record?
    rw [hlanded.state, hlanded.current]
    cases found <;> simp [hoff]
  refine ⟨⟨rfl, hlanded.state, hlanded.current, rfl, ?_⟩, ⟨haudited.mirrors.withCursor c,
    haudited.unhindered.withCursor c, haudited.header, haudited.surveyed⟩, ?_⟩
  · rw [Request.cell_after h.mirrors.cell]
    exact congrArg (fun r => r.getD (w.cell ix.cell)) hrecord
  · show c.PointsInto (ix.seen x tree _)
    rw [hseen]
    intro pos hpos hnull hle
    exact (hlanded.hint pos hpos).elim id fun hold => hpointsInto pos hold hnull hle

variable (h : ix.Audited stats x tree w)
include h

/-- A new handle walks through all entries, and back. -/
theorem Audited.recites : ix.Recites (tree.elim [] Outline.entries) w := by
  obtain ⟨free, slots, hsurveyed⟩ := h.surveyed
  refine Index.recites (t := ix.tree) hsurveyed.ascending
    (I := fun ix' w => ix'.tree = ix.tree ∧ ix'.Audited stats x tree w ∧
      ix'.cursor.PointsInto (ix'.seen x tree w)) ?_ ?_
    ⟨rfl, ⟨h.mirrors.withCursor {}, h.unhindered.withCursor {}, h.header, h.surveyed⟩, nofun⟩
  · rintro ix' w ⟨htree, haudited, hpointsInto⟩
    obtain ⟨free, slots, hsurveyed⟩ := haudited.surveyed
    obtain ⟨c, hreads, hlanded⟩ := hsurveyed.reads_next haudited.mirrors.workable.blockSize_pos
      (fun _ _ => Mount.length_read?) hpointsInto
    have hoff : KeyState.afterLast ≠ .onKey := nofun
    exact Ends.mono (haudited.move_ends hoff hpointsInto rfl
      (Tree.walks_next trivial fun _ _ => .inr trivial).reader hreads hlanded)
      fun r σ hσ => ⟨htree ▸ hσ.1, (congrArg Index.tree hσ.1.handle).trans htree, hσ.2⟩
  · rintro ix' w ⟨htree, haudited, hpointsInto⟩
    obtain ⟨free, slots, hsurveyed⟩ := haudited.surveyed
    obtain ⟨c, hreads, hlanded⟩ := hsurveyed.reads_previous
      haudited.mirrors.workable.blockSize_pos (fun _ _ => Mount.length_read?) ix'.cursor
    have hoff : KeyState.beforeFirst ≠ .onKey := nofun
    exact Ends.mono (haudited.move_ends hoff hpointsInto rfl
      (Tree.walks_previous trivial).reader hreads hlanded)
      fun r σ hσ => ⟨htree ▸ hσ.1, (congrArg Index.tree hσ.1.handle).trans htree, hσ.2⟩

/-- The key of an entry is neither padded nor cut. -/
theorem Audited.keyOf_eq {e : Entry} (he : e ∈ tree.elim [] Outline.entries) :
    ix.keyOf e.key blank = .ok e.key ∧ e.key.isEmpty = false := by
  obtain ⟨free, slots, hsurveyed⟩ := h.surveyed
  have hlength := hsurveyed.length_key h.mirrors.workable.blockSize_pos e he
  refine ⟨Key.normalize_of_length hlength _ _, ?_⟩
  have hpos : 1 ≤ ix.tree.layout.keyLength := h.mirrors.workable.roomy.1
  cases hkey : e.key with
  | nil =>
    rw [hkey] at hlength
    exact absurd hlength (Nat.ne_of_lt hpos)
  | cons => rfl

/-- Every key is found. -/
theorem Audited.find_ends {e : Entry} (he : e ∈ tree.elim [] Outline.entries) :
    Ends (Call.find e.key).run (ix, w) fun r σ => r = .ok (.state .onKey) ∧
      ∃ found ∈ tree.elim [] Outline.entries, σ.1.cursor.current = some found ∧
        σ.2.cell ix.cell = found.record ∧ ix.tree.collation.compare e.key found.key = .eq := by
  obtain ⟨free, slots, hsurveyed⟩ := h.surveyed
  obtain ⟨hkey, hempty⟩ := h.keyOf_eq he
  obtain ⟨found, pos, hreads, hfound, hhit⟩ := hsurveyed.reads_find
    h.mirrors.workable.blockSize_pos (fun _ _ => Mount.length_read?) ix.cursor he
  have hcourse : (Call.find e.key).course ix (w.cell ix.cell) =
      .asks (.move (ix.tree.find ix.cursor e.key)) := by
    simp [Call.course, hempty, hkey, Course.check]
  refine (h.mirrors.free_ends h.unhindered h.header hcourse (Tree.walks_find trivial e.key).reader
    hreads).mono ?_
  rintro r σ ⟨s, rfl, rfl, -⟩
  exact ⟨rfl, found, hfound, rfl, Request.cell_after h.mirrors.cell, hhit⟩

/-- The tree is drawn. -/
theorem Audited.outline_ends : Ends Call.outline.run (ix, w) fun r _ => r = .ok (.shaped tree) := by
  obtain ⟨free, slots, hsurveyed⟩ := h.surveyed
  refine Ends.mono (h.mirrors.free_ends h.unhindered h.header rfl Tree.walks_outline.reader
    hsurveyed.reads_outline) ?_
  rintro r σ ⟨s, rfl, -⟩
  rfl

/-- The file reads as its check has counted. -/
theorem Audited.attested : ix.Attested stats w (tree.elim [] Outline.entries) := by
  obtain ⟨free, slots, hsurveyed⟩ := h.surveyed
  have hprecedes : ∀ a b, ix.tree.precedes a b →
      Entry.compare ix.tree.collation true a b = .lt ∧ (ix.tree.duplicates = false →
        ix.tree.collation.compare a.key b.key ≠ .eq) := fun a b => Tree.precedes_iff.mp
  exact ⟨hsurveyed.entries.symm, hsurveyed.ascending.imp fun hab => (hprecedes _ _ hab).1,
    fun hd => hsurveyed.ascending.imp fun hab => (hprecedes _ _ hab).2 hd, h.recites,
    fun e he => h.find_ends he, tree, h.outline_ends, rfl, hsurveyed.leafDepths_eq,
    hsurveyed.branchBlocks.symm⟩

end Audited

/-- A check that is passed has seen the tree and the chains of the file, whatever the file holds and
whatever has been refused in the meantime. -/
theorem Mirrors.verify_ends (h : ix.Mirrors w) : Ends Call.verify.run (ix, w) fun r _ =>
    ∀ stats, r = .ok (.counted stats) → ∃ x tree free slots,
      ix.mount.read? w.disk .null = some x ∧
      ix.tree.Surveyed (Board.read ix.tree.layout (ix.mount.read? w.disk)
        (Pointers.read ix.tree.layout.format x)) stats tree free slots := by
  refine Ends.mono (h.asks_ends rfl Tree.walks_survey.reader) ?_
  rintro r σ ⟨o, s, rfl, rfl, hreadOutcome, -⟩ stats hr
  obtain ⟨_, rfl, hanswer⟩ := exists_of_outcome hr
  cases hanswer
  obtain ⟨x, hx, hreads⟩ := hreadOutcome.ok stats _ rfl
  obtain ⟨tree, free, slots, hsurveyed⟩ := Tree.surveyed_of_reads hreads
  exact ⟨x, tree, free, slots, hx, hsurveyed⟩

/-- The file then reads as the check has counted, at any later moment at which it holds the same and
nothing stands in the way. -/
theorem Mirrors.attested (h : ix.Mirrors w) : Ends Call.verify.run (ix, w) fun r _ =>
    ∀ stats, r = .ok (.counted stats) → ∀ c w', ix.Mirrors w' → ix.Unhindered w' →
      w'.disk.contents ix.store.volume = w.disk.contents ix.store.volume →
      ∃ es, ({ ix with cursor := c } : Index).Attested stats w' es := by
  refine h.verify_ends.mono ?_
  intro r σ hseen stats hr c w' hmirrors' hfree hcontents'
  obtain ⟨x, tree, free, slots, hx, hsurveyed⟩ := hseen stats hr
  have hread : ix.mount.read? w'.disk = ix.mount.read? w.disk :=
    funext fun _ => Mount.read?_congr hcontents'
  have haudited : ({ ix with cursor := c } : Index).Audited stats x tree w' := by
    refine ⟨hmirrors'.withCursor c, hfree.withCursor c, (congrFun hread _).trans hx, free, slots, ?_⟩
    rw [← hread] at hsurveyed
    exact hsurveyed
  exact ⟨_, haudited.attested⟩

theorem run_verify {stats : IndexStats} {σ : Index × Workspace} (h : verify (ix, w) = .ok stats σ) :
    Call.verify.run (ix, w) = .ok (.counted stats) σ := by
  simp only [Call.run, bind, EStateM.bind, h]
  rfl

/-- A file of any contents is opened in any way, and a check of it is passed. Then it reads as the
check has counted as long as it holds the same, once nothing stands in the way. -/
theorem attested_of_verify {store : Store} {options : OpenOptions} {cell : Nat}
    {w₀ w₁ w₂ w₃ : Workspace}
    {ix₁ ix₂ ix₃ : Index} {stats : IndexStats}
    (hw : w₀.Admits store (options.cache.getD Workspace.commonCache) cell)
    (hopen : openStore store options cell w₀ = .ok ix₁ w₁)
    (hbefore : Relation.ReflTransGen ReadEvent (ix₁, w₁) (ix, w))
    (hverify : verify (ix, w) = .ok stats (ix₂, w₂))
    (hafter : Relation.ReflTransGen ReadEvent (ix₂, w₂) (ix₃, w₃)) (hfree : ix₃.Unhindered w₃) :
    ∃ es, ix₃.Attested stats w₃ es := by
  have hopened := ((openStore_ends fun _ => hw.volume).of_ok hopen).2 ix₁ rfl
  obtain ⟨-, hmirrors, -⟩ := (hopened.mirrors hw).readEvents (σ := (ix₁, w₁)) hbefore
  have hrun := run_verify hverify
  have hstep : ReadEvent (ix, w) (ix₂, w₂) := by
    have hcalled : ReadEvent (ix, w) (ending Call.verify.run (ix, w)).2 := .called ix w rfl
    unfold ending at hcalled
    rw [hrun] at hcalled
    exact hcalled
  obtain ⟨⟨c, rfl⟩, hmirrors', hcontents⟩ := hmirrors.readEvents (σ := (ix, w)) (hafter.head hstep)
  exact (hmirrors.attested.of_ok hrun) stats rfl c w₃ (hmirrors'.withCursor ix.cursor)
    (hfree.withCursor ix.cursor) hcontents

/-- A memory area with a file of two levels. -/
def sampleWorkspace : Workspace := memoryWorkspace { contents := Tree.sampleContents }

/-- Whether the check of a file is passed, and what it tells is as asked. -/
def verifies (asked : IndexStats → Bool) (ix : Index) (w : Workspace) : Bool :=
  match verify (ix, w) with
  | .ok stats _ => asked stats
  | .error _ _ => false

theorem exists_of_verifies {asked : IndexStats → Bool} {ix : Index} {w : Workspace}
    (h : verifies asked ix w = true) :
      ∃ stats σ, verify (ix, w) = .ok stats σ ∧ asked stats = true := by
  unfold verifies at h
  split at h
  · next stats σ hverify => exact ⟨stats, σ, hverify, h⟩
  · cases h

/-- The check of the file of two levels is passed, and its five entries are listed. -/
theorem attested_of_verify_sample : ∃ ix₁ w₁ ix₂ w₂ stats es,
    openStore (.ofMemory 0 none) { mode := .exclusive } 0 sampleWorkspace = .ok ix₁ w₁ ∧
    verify (ix₁, w₁) = .ok stats (ix₂, w₂) ∧ stats.entries = 5 ∧ stats.branchBlocks = 1 ∧
      ix₂.Attested stats w₂ es := by
  have hchecked : opens { mode := .exclusive } sampleWorkspace
      (verifies fun stats => stats.entries == 5 && stats.branchBlocks == 1) = true := by decide +kernel
  have hadmits : sampleWorkspace.Admits (.ofMemory 0 none) 0 0 := admits_memory _
  have hrefusesNothing : (Store.ofMemory 0 none).RefusesNothing sampleWorkspace.disk :=
    Store.Reliable.refusesNothing ⟨fun _ _ => rfl, rfl, .inl rfl⟩
  have hclean : ∀ i b, (sampleWorkspace.cache 0).buffer? i = some b → b.dirty = false :=
    fun i b hb => nomatch (Cache.buffer?_new 4 i).symm.trans hb
  generalize sampleWorkspace = w at *
  obtain ⟨ix₁, w₁, hopen, hchecked⟩ := exists_of_opens hchecked
  obtain ⟨stats, ⟨ix₂, w₂⟩, hverify, hcounts⟩ := exists_of_verifies hchecked
  simp only [Bool.and_eq_true, beq_iff_eq] at hcounts
  have hopened := ((openStore_ends fun _ => hadmits.volume).of_ok hopen).2 ix₁ rfl
  have hrefusesNothing₁ : (Store.ofMemory 0 none).RefusesNothing w₁.disk := by
    obtain ⟨d, hfollows, -, -, -, rfl⟩ := hopened.disk
    exact hrefusesNothing.follows hfollows
  have hfree : ix₂.Unhindered w₂ := by
    have hends : Ends Call.verify.run (ix₁, w₁) _ :=
      (hopened.mirrors hadmits).asks_ends rfl Tree.walks_survey.reader
    obtain ⟨o, s, -, hafter, -, -, -, hstays⟩ := hends.of_ok (run_verify hverify)
    have hstill := hstays _ rfl (hopened.unhindered hadmits hrefusesNothing₁ hclean)
    rw [show ix₂ = _ from congrArg Prod.fst hafter]
    exact hstill.withCursor _
  obtain ⟨es, hes⟩ := attested_of_verify hadmits hopen .refl hverify .refl hfree
  exact ⟨ix₁, w₁, ix₂, w₂, stats, es, hopen, hverify, hcounts.1, hcounts.2, hes⟩

end Index

end PagedIndex
