import PagedIndex.Proofs.Index.Afresh
import PagedIndex.Proofs.Index.Opening
import PagedIndex.Proofs.Session.Aside
import PagedIndex.Proofs.Tree.KeepsTidy

/-!
# Handles on tidy files

The programs of calls keep files tidy. So a tidy file on which one handle is open stays tidy in all
calls of this handle, whatever they come to, and its blocks are where the cache or the store has
them.

## Main definitions

* `Index.SoleOnTidy` — a handle that has a tidy file for itself.
* `Index.sight` — what a handle can read of its file.
* `Index.parked` — the failure that is kept for the next call of a handle.

## Main statements

* `Call.keepsTidy` — what a call asks for keeps files tidy.
* `Index.SoleOnTidy.visit` — what a call of the handle leaves.
* `Index.SoleOnTidy.finds` — a handle finds what it can read.
* `Index.SoleOnTidy.flush_ends`, `Index.SoleOnTidy.close_ends` — what is in the store when all is
  written back.
-/

namespace PagedIndex

/-- What a call asks for keeps files tidy, and the cursor keeps no hint but to where a block may
start. -/
theorem Call.keepsTidy {ix : Index} (hl : ix.tree.layout.Workable)
    (hcursor : ix.cursor.Aligned ix.tree.layout) (call : Call) (record : Nat) :
    (call.course ix record).Meets (fun _ => True) fun q => ∀ mark,
      q.program.KeepsTidy ix.tree.layout mark fun a => ∀ c, q.cursor a = some c →
        c.Aligned ix.tree.layout := by
  refine Call.meets_request hcursor (fun program hwalks mark => ?_)
    (fun program answer hwalks mark => ?_) (fun e he mark => ?_) (fun target exact mark => ?_)
    (fun mark => ?_) (fun record mark => ?_) call record
  · refine ((hwalks _ (Layout.sites_start _)).keepsTidy).mono fun a ha c hc => ?_
    cases hc
    exact ha
  · exact ((hwalks _ (Layout.sites_start _)).keepsTidy).mono fun a _ c hc => nomatch hc
  · exact (Tree.keepsTidy_insert hl).mono fun a _ c hc => Request.aligned_of_insert hc
  · refine (Tree.keepsTidy_delete hl).mono fun a _ c hc => ?_
    cases hc
    exact Cursor.aligned_park _ _
  · exact Program.keepsTidy_popSlot.mono fun a _ c hc => nomatch hc
  · exact (Program.keepsTidy_pushSlot hl record).mono fun a _ c hc => nomatch hc

/-- A handle that is the only one on a tidy file. -/
structure Index.SoleOnTidy (ix : Index) (w : Workspace) : Prop where
  cache : ix.cache < w.caches.size
  cell : ix.cell < w.cells.size
  layout : ix.tree.layout = ix.header.layout
  cursor : ix.cursor.Aligned ix.tree.layout
  tidyAtRest : ix.mount.TidyAtRest ix.header (w.below ix.cache)
  alone : ∀ id, id ≠ ix.cache → (w.cache id).Untaken ix.store.volume

namespace Index

variable {ix : Index} {w : Workspace} {s : Buffered} {α : Type}

theorem SoleOnTidy.workable (h : ix.SoleOnTidy w) : ix.tree.layout.Workable := by
  rw [h.layout]
  exact h.tidyAtRest.tidy.contents.workable

theorem SoleOnTidy.registered (h : ix.SoleOnTidy w) : ix.Registered w :=
  ⟨h.cache, h.tidyAtRest.intact.sound, h.tidyAtRest.intact.store⟩

/-- What is in the record cells has no part in it. -/
theorem SoleOnTidy.setCell (h : ix.SoleOnTidy w) (cell record : Nat) :
    ix.SoleOnTidy (w.setCell cell record) :=
  ⟨h.cache, by simpa [Workspace.setCell] using h.cell, h.layout, h.cursor, h.tidyAtRest, h.alone⟩

/-- After work for the file in its cache. -/
theorem SoleOnTidy.after (h : ix.SoleOnTidy w) {cursor : Cursor}
    (hcursor : cursor.Aligned ix.tree.layout)
    (htidyAtRest : ix.mount.TidyAtRest ix.header s) :
    ({ ix with cursor := cursor } : Index).SoleOnTidy (w.withBelow ix.cache s) := by
  have hbelow := Workspace.below_withBelow (s := s) h.cache
  refine ⟨?_, h.cell, h.layout, hcursor, ?_, fun id hid => ?_⟩
  · simpa [Workspace.withBelow] using h.cache
  · show ix.mount.TidyAtRest ix.header ((w.withBelow ix.cache s).below ix.cache)
    rwa [hbelow]
  · have hsame := Workspace.below_withBelow_ne (w := w) (s := s) hid
    rw [show (w.withBelow ix.cache s).cache id = w.cache id from congrArg Buffered.cache hsame]
    exact h.alone id hid

/-- What is kept for the next call of a handle: the failure of a release. -/
def parked (ix : Index) (w : Workspace) : Option Error :=
  ((w.cache ix.cache).registration? ix.file).bind Registration.pending

/-- What a call of the handle that keeps files tidy leaves in its cache. -/
structure LeavesTidy (ix : Index) (w : Workspace) (mode : EndMode) (program : Program α) (Q : α → Prop)
    (o : Except Error (α × Except Error Unit)) (s : Buffered) : Prop where
  tidyAtRest : ix.mount.TidyAtRest ix.header s
  value : ∀ a ended, o = .ok (a, ended) → Q a
  idle : ∀ a, o = .ok (a, .ok ()) → mode = .flush → s.Idle ix.file
  keeps : ∀ a, o = .ok (a, .ok ()) → program = .done a →
    ix.mount.KeepsBut none (w.below ix.cache) s
  parked : ∀ e, ix.parked w = some e → o = .error e ∧
    Session.FailureTaken ix.mount (w.below ix.cache) s
  follows : w.disk.Follows s.disk

theorem SoleOnTidy.transact (h : ix.SoleOnTidy w) (mode : EndMode) (program : Program α) {Q : α → Prop}
    (hprogram : ∀ mark, program.KeepsTidy ix.tree.layout mark Q) :
    Ends (Session.transact ix.file ix.tree.layout ix.mode.locked mode program) (w.below ix.cache)
      (ix.LeavesTidy w mode program Q) := by
  have htidy := Session.transact_tidy ix.mode.locked mode h.tidyAtRest (h.layout ▸ hprogram)
  rw [← h.layout] at htidy
  refine (htidy.and (h.registered.transact mode program)).mono ?_
  rintro o s ⟨⟨htidyAtRest, hok, hparked⟩, htransacted⟩
  refine ⟨htidyAtRest, fun a ended ho => (hok a ended ho).1,
    fun a ho => ((hok a _ ho).2 rfl).1, fun a ho => ((hok a _ ho).2 rfl).2, fun e he => ?_,
    (Cache.Through.reaches htransacted.steps).follows⟩
  obtain ⟨reg, hreg, hpending⟩ := Option.bind_eq_some_iff.mp he
  exact hparked reg e hreg hpending

/-- The end of a call moves the cursor to where its value says, or not at all. -/
theorem SoleOnTidy.aligned_moved (h : ix.SoleOnTidy w) {q : Request}
    {o : Except Error (q.α × Except Error Unit)} (ho : ∀ a ended, o = .ok (a, ended) →
      ∀ c, q.cursor a = some c → c.Aligned ix.tree.layout) :
    (q.moved ix.cursor o).Aligned ix.tree.layout := by
  have hmoved : ∀ a ended, o = .ok (a, ended) →
      ((q.cursor a).getD ix.cursor).Aligned ix.tree.layout := by
    intro a ended ha
    cases hc : q.cursor a with
    | none => exact h.cursor
    | some c => exact ho a ended ha c hc
  match o, hmoved with
  | .error e, _ => exact h.cursor
  | .ok (a, .ok ()), hmoved => exact hmoved a _ rfl
  | .ok (a, .error e), hmoved =>
    show Cursor.Aligned _ (if q.hasAccess then (q.cursor a).getD ix.cursor else ix.cursor)
    split
    · exact hmoved a _ rfl
    · exact h.cursor

/-- A call of the handle leaves the file tidy, whatever comes of it. -/
theorem SoleOnTidy.call (h : ix.SoleOnTidy w) (call : Call) :
    Ends call.run (ix, w) fun _ σ => σ.1 = { ix with cursor := σ.1.cursor } ∧ σ.1.SoleOnTidy σ.2 := by
  have hkeepsTidy := call.keepsTidy h.workable h.cursor (w.cell ix.cell)
  refine Call.run_ends ?_
  cases hcourse : call.course ix (w.cell ix.cell) with
  | decided r => exact ⟨rfl, h⟩
  | asks q =>
    rw [hcourse] at hkeepsTidy
    dsimp only [Course.Meets] at hkeepsTidy ⊢
    refine Ends.mono (h.transact ix.mode.endMode q.program hkeepsTidy) fun o s hs => ⟨rfl, ?_⟩
    exact (h.after (h.aligned_moved hs.value) hs.tidyAtRest).setCell _ _

/-! ## What can be read -/

/-- What a handle can read of its file, up to the mark of its last block. -/
def sight (ix : Index) (w : Workspace) : View :=
  let pointers := ix.mount.pointers ix.tree.layout.format (w.below ix.cache)
  { blocks := fun p =>
      if p ≠ .null ∧ ix.mount.blockSize ∣ p.offset ∧ p.offset ≤ pointers.highWater.offset then
        ix.mount.content (w.below ix.cache) p
      else none
    held := fun _ => none
    pointers := pointers }

theorem blocks_sight {p : BlockPos} {x : Bytes} (hp : (ix.sight w).blocks p = some x) :
    p ≠ .null ∧ ix.mount.Aligned p ∧ p.offset ≤ (ix.sight w).pointers.highWater.offset ∧
      ix.mount.content (w.below ix.cache) p = some x := by
  dsimp only [sight] at hp
  split at hp
  · next hin => exact ⟨hin.1, hin.2.1, hin.2.2, hp⟩
  · cases hp

/-- The header block of a tidy file can be read, and leads to where blocks may start. -/
theorem SoleOnTidy.front (h : ix.SoleOnTidy w) :
    ∃ x, ix.mount.content (w.below ix.cache) .null = some x ∧ ix.header.Leads x := by
  have hstored : (ix.mount.stored w.disk .null).isSome := by
    have hheader := h.tidyAtRest.intact.header
    unfold Mount.stored
    rw [if_pos ((Contents.length_read _ _ _).trans (Nat.min_eq_left hheader))]
    rfl
  obtain ⟨x, hx⟩ := Option.isSome_iff_exists.mp (Mount.isSome_content (s := w.below ix.cache) hstored)
  exact ⟨x, hx, (h.tidyAtRest.tidy.of_content h.tidyAtRest.intact.sound (Nat.dvd_zero _) hx).header rfl⟩

/-- A handle finds what it can read of its file, unless a failure is kept for its next call. -/
theorem SoleOnTidy.finds (h : ix.SoleOnTidy w) (hparked : ix.parked w = none) :
    ix.Finds (ix.sight w) w := by
  obtain ⟨x, hx, hleads⟩ := h.front
  have hread : Pointers.read ix.tree.layout.format x =
      ix.mount.pointers ix.tree.layout.format (w.below ix.cache) := by
    unfold Mount.pointers
    rw [hx]
    rfl
  have hlead : (ix.mount.pointers ix.tree.layout.format (w.below ix.cache)).Lead ix.tree.layout := by
    rw [← hread, h.layout]
    exact hleads.pointers
  refine ⟨h.cache, h.cell, ⟨fun p hp => (hlead p hp).le, fun p x hp => (blocks_sight hp).2.2.1, ?_⟩,
    h.tidyAtRest.intact, h.tidyAtRest.unpinned, fun r hr => ?_, ⟨x, hx, hread⟩, fun p x hp => ?_⟩
  · have hmark := (Pointers.lead_iff.mp hlead).2.2.2.le
    have hbound := h.workable.bound
    exact Nat.lt_of_le_of_lt (Nat.add_le_add_right hmark _) hbound
  · unfold parked at hparked
    rw [show (w.cache ix.cache).registration? ix.file = some r from hr] at hparked
    exact hparked
  · obtain ⟨hnull, ha, -, hx⟩ := blocks_sight hp
    exact ⟨hnull, ha, hx⟩

/-- All changes can be written, if those of the other files in the cache can. -/
theorem SoleOnTidy.safe (h : ix.SoleOnTidy w) (hreliable : ix.store.Reliable w.disk)
    (hothers : ∀ i b, (w.cache ix.cache).buffer? i = some b → b.dirty = true → b.file ≠ ix.file →
      ∃ store, (w.cache ix.cache).store? b.file = some store ∧ store.Reliable w.disk ∧
        b.pos.offset + b.image.length < Store.offsetBound) : (w.below ix.cache).Safe := by
  intro i b hb hdirty
  by_cases hfile : b.file = ix.file
  · obtain ⟨hstart, htidy⟩ := h.tidyAtRest.tidy.buffers i b hb hfile
    refine ⟨ix.store, hfile ▸ h.tidyAtRest.tidy.store, hreliable, ?_⟩
    have hle : b.pos.offset ≤ ix.tree.layout.maxRecord := by
      rw [h.layout]
      exact hstart.le
    have hlength : b.image.length = ix.tree.layout.blockSize := by
      rw [h.layout]
      exact htidy.length
    have hbound := h.workable.bound
    omega
  · exact hothers i b hb hdirty hfile

/-! ## Writing back -/

/-- A file that is in its volume as the handle read it, and of which nothing is cached. -/
structure Stored (ix : Index) (w : Workspace) (s : Buffered) : Prop where
  stored : ∀ p x, ix.mount.Aligned p → ix.mount.content (w.below ix.cache) p = some x →
    ix.mount.stored s.disk p = some x
  idle : s.Idle ix.file

/-- Of a file of which nothing is cached all is in its volume. -/
theorem stored_of_keeps (hsound : s.cache.Sound none) (hidle : s.Idle ix.file)
    (hkeeps : ix.mount.KeepsBut none (w.below ix.cache) s) : ix.Stored w s := by
  refine ⟨fun p x hp hx => ?_, hidle⟩
  rw [← Mount.content_of_absent hsound fun i b hb hfile => absurd hfile (hidle i b hb)]
  exact hkeeps p x hp nofun hx

/-- What is left when all is written back, or not. -/
structure Flushed (ix : Index) (w : Workspace) (r : Except Error Unit) (s : Buffered) : Prop where
  tidyAtRest : ix.mount.TidyAtRest ix.header s
  stored : r = .ok () → ix.Stored w s
  /-- A failure that is kept is told, and nothing is written then. -/
  parked : ∀ e, ix.parked w = some e → r = .error e ∧
    Session.FailureTaken ix.mount (w.below ix.cache) s
  written : ix.parked w = none → (w.below ix.cache).Safe → ix.store.Reliable w.disk → r = .ok ()
  follows : w.disk.Follows s.disk

/-- A call that only writes back. -/
theorem SoleOnTidy.flushed (h : ix.SoleOnTidy w) : Ends (Index.call .flush (pure ())) (ix, w) fun o σ =>
    ∃ s, σ = (ix, w.withBelow ix.cache s) ∧ ix.Flushed w (o.bind Prod.snd) s := by
  have hwritten : Ends (Session.transact ix.file ix.tree.layout ix.mode.locked .flush (.done ()))
      (w.below ix.cache) fun o _ => ix.parked w = none ∧ (w.below ix.cache).Safe ∧
        ix.store.Reliable w.disk → o = .ok ((), .ok ()) := by
    refine Ends.all fun ⟨hparked, hsafe, hreliable⟩ => ?_
    have hblocksAs := (h.finds hparked).blocksAs
    have hwidth := h.workable.room
    refine (Session.transact_ends (m := ix.mount) ix.mode.locked .flush
      (hblocksAs.reliableBlocksAs hsafe hreliable)
      rfl ?_ (.done () _) fun _ _ => hblocksAs.settled).mono fun o s hs => (hs.ok () rfl).1
    show 1 + 4 * ix.tree.layout.positionWidth ≤ ix.tree.layout.blockSize
    omega
  refine call_ends (((h.transact .flush (.done ()) (Q := fun _ => True)
    fun _ => .done trivial).and hwritten).mono fun o s ⟨hs, hok⟩ =>
    ⟨s, rfl, hs.tidyAtRest, fun ho => ?_, fun e he => ?_, fun hparked hsafe hreliable => ?_,
      hs.follows⟩)
  · have ho' : o = .ok ((), .ok ()) := by
      match o, ho with
      | .ok ((), ended), ho => rw [show ended = .ok () from ho]
    exact stored_of_keeps hs.tidyAtRest.intact.sound (hs.idle _ ho' rfl) (hs.keeps _ ho' rfl)
  · obtain ⟨ho, hfailureTaken⟩ := hs.parked e he
    exact ⟨by rw [ho]; rfl, hfailureTaken⟩
  · rw [hok ⟨hparked, hsafe, hreliable⟩]
    rfl

/-- All is written back, and it is made sure that it stays. -/
theorem SoleOnTidy.flush_ends (h : ix.SoleOnTidy w) : Ends Index.flush (ix, w) fun r σ =>
    ∃ s, σ = (ix, w.withBelow ix.cache s) ∧ ix.Flushed w r s := by
  unfold Index.flush
  refine Ends.bind h.flushed (fun e _ hs => hs) ?_
  rintro ⟨⟨⟩, ended⟩ _ ⟨s, rfl, hs⟩
  cases ended with
  | error e => exact ⟨s, rfl, hs⟩
  | ok _ =>
    show Ends (self >>= fun ix => onWorkspace (Workspace.onDisk ix.store.sync)) _ _
    refine self_bind_ends (onWorkspace_ends (Workspace.onDisk_ends ?_))
    refine (Store.ask_ends ix.store s.disk .sync 0 0).mono ?_
    rintro r d ⟨hfollows, hcontents, hok⟩
    obtain ⟨htidyAtRest, hkeeps⟩ := hs.tidyAtRest.of_disk (Nat.le_of_eq hfollows.size.symm)
      (hcontents _)
    have hstored := hs.stored rfl
    refine ⟨⟨s.cache, d⟩, rfl, htidyAtRest, fun _ => ⟨fun p x hp hx => ?_, hstored.idle⟩,
      fun e he => (nomatch (hs.parked e he).1),
      fun _ _ hreliable => hok (hreliable.follows hs.follows), hs.follows.trans hfollows⟩
    rw [Mount.stored_congr (hcontents _)]
    exact hstored.stored p x hp hx

/-- A file that is given up leaves nothing in its cache, and nothing of it is written then. -/
theorem unregister_ends : Ends unregister (ix, w) fun r σ => r = .ok () ∧
    ∃ t, σ = (ix, w.withBelow ix.cache t) ∧ t.disk = w.disk ∧ t.Idle ix.file := by
  refine self_bind_ends (onWorkspace_ends (Workspace.onCache_ends ?_))
  refine (Cache.unregister_told (w.below ix.cache) ix.file).mono ?_
  rintro r t ⟨hr, hdisk, hidle, -⟩
  exact ⟨hr, t, rfl, hdisk, hidle⟩

/-- A handle that is closed leaves nothing in its cache. What is in the volume then is what could be
written back. -/
theorem SoleOnTidy.close_ends (h : ix.SoleOnTidy w) : Ends close (ix, w) fun r σ => ∃ s t,
    σ = (ix, w.withBelow ix.cache t) ∧ ix.Flushed w r s ∧ t.disk = s.disk ∧ t.Idle ix.file := by
  unfold close
  refine Ends.attempt_bind h.flushed ?_
  rintro o _ ⟨s, rfl, hs⟩
  refine Ends.bind unregister_ends (fun e σ h => nomatch h.1) ?_
  rintro ⟨⟩ _ ⟨-, t, rfl, hdisk, hidle⟩
  rw [Workspace.withBelow_withBelow]
  cases o with
  | error e => exact ⟨s, t, rfl, hs, hdisk, hidle⟩
  | ok value => exact ends_settle ⟨s, t, rfl, hs, hdisk, hidle⟩

/-- A call, or a flush, leaves the file tidy. -/
theorem SoleOnTidy.visit {ι : Type} (h : ix.SoleOnTidy w) (visit : Visit ι) :
    Ends visit.run (ix, w) fun _ σ =>
    σ.1 = { ix with cursor := σ.1.cursor } ∧ σ.1.SoleOnTidy σ.2 := by
  cases visit with
  | call turn => exact Ends.bind (h.call turn.call) (fun _ _ h => h) fun _ _ h => h
  | flush i =>
    refine Ends.bind h.flush_ends ?_ ?_
    all_goals
      rintro _ _ ⟨s, rfl, hs⟩
      exact ⟨rfl, h.after h.cursor hs.tidyAtRest⟩

end Index

end PagedIndex
