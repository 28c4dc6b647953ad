import PagedIndex.Proofs.Index.Filing
import PagedIndex.Proofs.Index.Lockstep

/-!
# Tasks on a file

A file is made or opened, called, flushed and closed. Over a store that refuses nothing, what is
told of each of these tasks, and what becomes of the file, is known from the file alone: from the
bytes of its volume as long as no header can be read there, or else from its description, and from
its handle. How many buffers there are, what they hold, and how the blocks have come and gone has no
part in it.

## Main definitions

* `FileTask`, `FileTask.run`, `Told` — what is asked of a file, and what is told.
* `FileState`, `FileState.Shown` — what is known of a file between two tasks.
* `FileTask.Alters` — what is told of a task, and what it makes of a file.
* `FileTask.Comes` — what a task comes to wherever the file is.

## Main statements

* `FileTask.comes` — what a task comes to is known from the file.
-/

namespace PagedIndex

/-- Where a file is: its store, and the number of its record cell. -/
structure Site where
  store : Store
  cell : Nat

inductive FileTask where
  | opening (options : OpenOptions)
  /-- A call on the open file. A record position may be put into its cell first. -/
  | call (record : Option Nat) (call : Call)
  | flush
  | close

inductive Told where
  | opened (r : Except Error Header)
  | replied (reply : Reply)
  | ended (r : Except Error Unit)
  /-- A file that is open is not opened again, and nothing else is done to one that is not. -/
  | idle

/-- Runs a task on the file of a site, with the handle if it is open. The cache is the common
one. -/
def FileTask.run (site : Site) : FileTask → Option Index → Workspace → Told × Option Index × Workspace
  | opening options, none, w =>
    let σ := ending (Index.openStore site.store { options with cache := none } site.cell) w
    (.opened (σ.1.map Index.header), σ.1.toOption, σ.2)
  | .call record c, some ix, w =>
    let σ := ending c.run (ix, w.setCell site.cell (record.getD (w.cell site.cell)))
    (.replied ⟨σ.1, σ.2.1.cursor, σ.2.2.cell site.cell⟩, some σ.2.1, σ.2.2)
  | flush, some ix, w =>
    let σ := ending Index.flush (ix, w)
    (.ended σ.1, some σ.2.1, σ.2.2)
  | close, some ix, w =>
    let σ := ending Index.close (ix, w)
    (.ended σ.1, none, σ.2.2)
  | _, handle, w => (.idle, handle, w)

/-! ## What is known of a file -/

/-- A handle on the file of a site in the common cache. -/
def Index.caller (ix : Index) (file : FileId) (site : Site) : Index :=
  { ix with cache := Workspace.commonCache, file := file, store := site.store, cell := site.cell }

/-- What is known of a file between two tasks. -/
inductive FileState where
  /-- The bytes of a volume without a header that can be read. -/
  | void (bytes : Bytes)
  | closed (f : FileDescription)
  /-- The handle is on any site. -/
  | opened (ix : Index) (f : FileDescription)

namespace FileState

/-- What is known is true of a file that all tasks can be run on. -/
def WellFormed : FileState → Prop
  | void bytes => ∀ h, Header.parse (bytes.take maxBlockSize) ≠ .ok h
  | closed f => f.WellFormed
  | opened ix f => f.WellFormed ∧ ix.tree.layout = f.header.layout ∧ ix.cursor.Aligned ix.tree.layout

/-- What is known of a file that is not open is true of its volume. -/
def In (c : Contents) : FileState → Prop
  | void bytes => c.toBytes = bytes
  | closed f => c.Holds f
  | opened _ _ => False

/-- What is known of the file of a site is true, its handle being as told. -/
def Shown (site : Site) (s : Buffered) : FileState → Option Index → Prop
  | st, none => st.In (s.disk.contents site.store.volume)
  | opened ix f, some ix' =>
    ∃ file, ix' = ix.caller file site ∧ f.LiesIn (ix.caller file site).mount s
  | _, some _ => False

end FileState

/-- The handle that opening a file gives. -/
def OpenOptions.opens (options : OpenOptions) (h : Header) : Index where
  cache := Workspace.commonCache
  file := 0
  store := default
  header := h
  tree := ⟨h.layout, options.collation, h.duplicates || options.duplicates == .allow⟩
  truncate := options.truncate
  mode := options.mode
  cell := 0

/-- Whether a file is made, if it is to be, and what is known of it then. -/
inductive FileState.Makes (st : FileState) (options : OpenOptions) :
    Except Error Unit → FileState → Prop
  | found (hmode : options.mode ≠ .create) : Makes st options (.ok ()) st
  | failed (hmode : options.mode = .create) (e : Error) : Makes st options (.error e) st
  | made (hmode : options.mode = .create) {f : FileDescription} (hmade : f.Made options) :
      Makes st options (.ok ()) (.closed f)

/-- Whether a task is not one for a file in its state. -/
def FileTask.Idle : FileTask → FileState → Prop
  | opening _, .opened _ _ => True
  | opening _, _ => False
  | _, .opened _ _ => False
  | _, _ => True

/-- What is told of a task, and what it makes of what is known of the file. -/
inductive FileTask.Alters : FileTask → FileState → Nat → Told → FileState → Prop
  | idle {e : FileTask} {st : FileState} {record : Nat} (hidle : e.Idle st) :
      Alters e st record .idle st
  | refused {options : OpenOptions} {st st' : FileState} {record : Nat} {r : Except Error Unit}
      {e : Error} (hmakes : st.Makes options r st')
      (hrefused : r = .ok () → ∀ f, st' = .closed f → options.admits f.header ≠ .ok ()) :
      Alters (.opening options) st record (.opened (.error e)) st'
  | opened {options : OpenOptions} {st : FileState} {f : FileDescription} {record : Nat}
      (hmakes : st.Makes options (.ok ()) (.closed f))
      (hadmits : options.admits f.header = .ok ()) :
      Alters (.opening options) st record (.opened (.ok f.header))
        (.opened (options.opens f.header) f)
  | decided {put : Option Nat} {c : Call} {ix : Index} {f : FileDescription} {record : Nat}
      {r : Except Error Answer} (hcourse : c.course ix (put.getD record) = .decided r) :
      Alters (.call put c) (.opened ix f) record (.replied ⟨r, ix.cursor, put.getD record⟩)
        (.opened ix f)
  | called {put : Option Nat} {c : Call} {ix : Index} {f f' : FileDescription} {record : Nat}
    {q : Request}
      {r : Except Error q.α} {v : View} {o : Except Error (q.α × Except Error Unit)}
      (hcourse : c.course ix (put.getD record) = .asks q)
      (hruns : q.program.Runs f.header.blockSize { f.view with held := fun _ => none } r v)
      (hbecomes : f.Becomes r v f') (ho : o = r.map fun a => (a, .ok ())) :
      Alters (.call put c) (.opened ix f) record
        (.replied ⟨q.outcome o, q.moved ix.cursor o, q.told (put.getD record) o⟩)
        (.opened { ix with cursor := q.moved ix.cursor o } f')
  | flushed {ix : Index} {f f' : FileDescription} {record : Nat}
      (hbecomes : f.Becomes (.ok ()) { f.view with held := fun _ => none } f') :
      Alters .flush (.opened ix f) record (.ended (.ok ())) (.opened ix f')
  | closed {ix : Index} {f f' : FileDescription} {record : Nat}
      (hbecomes : f.Becomes (.ok ()) { f.view with held := fun _ => none } f') :
      Alters .close (.opened ix f) record (.ended (.ok ())) (.closed f')

/-- A workspace in which tasks can be run on the file of a site. -/
structure Workspace.Hosts (w : Workspace) (site : Site) : Prop where
  cache : Workspace.commonCache < w.caches.size
  cell : site.cell < w.cells.size
  ready : (w.below Workspace.commonCache).Ready
  reliable : site.store.Reliable w.disk
  volume : site.store.volume < w.disk.volumes.size

/-- What a task on the file of a site leaves. The files of other sites are spared, and no other file
is taken up or given up. -/
structure TaskLeaves (site : Site) (handle : Option Index) (s : Buffered) (st : FileState)
    (handle' : Option Index) (t : Buffered) : Prop where
  ready : t.Ready
  spares : s.Spares (· = site.store.volume) t
  shown : st.Shown site t handle'
  taken : ∀ f store, t.cache.store? f = some store →
    (∃ ix, handle' = some ix ∧ ix.file = f ∧ store = site.store) ∨
      s.cache.store? f = some store ∧ ∀ ix, handle = some ix → ix.file ≠ f

/-- Two stores of one kind and name. -/
structure Store.Alike (a b : Store) : Prop where
  kind : a.kind = b.kind
  name : a.name = b.name

/-- What a task comes to, wherever the file is and whatever else is in the cache, from what is known
of the file and the record position in its cell. -/
def FileTask.Comes (e : FileTask) (face : Store) (st : FileState) (record : Nat) (told : Told)
    (st' : FileState) (record' : Nat) : Prop :=
  ∀ {site : Site} {handle : Option Index} {w : Workspace}, site.store.Alike face → w.Hosts site →
    st.Shown site (w.below Workspace.commonCache) handle →
    (handle = none → (w.below Workspace.commonCache).cache.Untaken site.store.volume) →
    w.cell site.cell = record → ∃ handle' s, e.run site handle w =
      (told, handle', (w.withBelow Workspace.commonCache s).setCell site.cell record') ∧
      TaskLeaves site handle (w.below Workspace.commonCache) st' handle' s

/-! ## Nothing but the file of the site -/

section TaskLeaves

variable {site : Site} {handle handle' : Option Index} {s t : Buffered} {st st' : FileState}
  {ix ix' : Index} {f f' : FileDescription} {m : Mount} {own : Nat → Prop} {d : Disk} {file : FileId}

theorem Buffered.Spares.refl (s : Buffered) : s.Spares own s :=
  ⟨.refl _, fun _ _ hintact => ⟨.refl hintact, rfl⟩, fun _ _ hs => ⟨hs, rfl⟩⟩

/-- A file lies where it does as long as it is spared. -/
theorem FileDescription.LiesIn.spares (h : f.LiesIn m s) (hspares : s.Spares own t)
    (hown : ¬own m.store.volume) (ht : t.Ready) : f.LiesIn m t := by
  obtain ⟨hspared, hreg⟩ := hspares.files m hown h.blocksAs.intact
  have hkeeps : ∀ p x, m.Aligned p → m.content s p = some x → m.content t p = some x :=
    fun p x hp hx => hspared.keeps p x hp nofun hx
  have hfront := hkeeps .null _ (Nat.dvd_zero _) h.front
  refine ⟨h.size, ⟨h.blocksAs.settled, hspared.intact, ht.unpinned, fun r hr => ?_, ?_,
    fun p x hp => ?_⟩,
    hfront⟩
  · rw [hreg] at hr
    exact h.blocksAs.pending r hr
  · obtain ⟨x, hx, hread⟩ := h.blocksAs.saved
    exact ⟨x, hkeeps .null x (Nat.dvd_zero _) hx, hread⟩
  · obtain ⟨hnull, haligned, hx⟩ := h.blocksAs.blocks p x hp
    exact ⟨hnull, haligned, hkeeps p x haligned hx⟩

/-- The handle stays on its file. -/
theorem taskLeaves_opened (hblocksAs : f.LiesIn (ix.caller file site).mount s) (ht : t.Ready)
    (hspares : s.Spares (· = site.store.volume) t)
    (hstores : ∀ g, t.cache.store? g = s.cache.store? g)
    (hblocksAs' : f'.LiesIn (ix'.caller file site).mount t) :
    TaskLeaves site (some (ix.caller file site)) s (.opened ix' f') (some (ix'.caller file site))
      t := by
  refine ⟨ht, hspares, ⟨file, rfl, hblocksAs'⟩, fun g store hg => ?_⟩
  rw [hstores] at hg
  by_cases hfile : file = g
  · have hown := hblocksAs.blocksAs.intact.store
    rw [show (ix.caller file site).mount.file = g from hfile, hg] at hown
    exact .inl ⟨_, rfl, hfile, Option.some.inj hown⟩
  · exact .inr ⟨hg, fun ix'' hix'' => Option.some.inj hix'' ▸ hfile⟩

/-- Nothing is done. -/
theorem taskLeaves_refl (hs : s.Ready) (hshown : st.Shown site s handle) :
    TaskLeaves site handle s st handle s := by
  cases handle with
  | none => exact ⟨hs, .refl s, hshown, fun g store hg => .inr ⟨hg, fun _ hix => nomatch hix⟩⟩
  | some ix' =>
    cases st with
    | void | closed => exact hshown.elim
    | opened ix f =>
      obtain ⟨file, rfl, hblocksAs⟩ := hshown
      exact taskLeaves_opened hblocksAs hs (.refl s) (fun _ => rfl) hblocksAs

/-- Before a task is done the volume of its file may be written. -/
theorem TaskLeaves.of_disk (hfollows : s.disk.Follows d)
    (hcontents : ∀ id, id ≠ site.store.volume → d.contents id = s.disk.contents id)
    (h : TaskLeaves site handle ⟨s.cache, d⟩ st handle' t) : TaskLeaves site handle s st handle' t :=
  ⟨h.ready, (Buffered.spares_disk hfollows hcontents).trans h.spares, h.shown, h.taken⟩

end TaskLeaves

/-! ## The tasks -/

namespace Workspace

variable {w : Workspace} {site : Site} {d : Disk}

theorem setCell_setCell (w : Workspace) (cell r r' : Nat) :
    (w.setCell cell r).setCell cell r' = w.setCell cell r' := by
  simp [setCell]

theorem Hosts.disk (hw : w.Hosts site) (hfollows : w.disk.Follows d) :
    Hosts { w with disk := d } site :=
  ⟨hw.cache, hw.cell, hw.ready.disk hfollows, hw.reliable.follows hfollows,
    hfollows.size ▸ hw.volume⟩

end Workspace

section Errands

variable {site : Site} {handle : Option Index} {w : Workspace} {st : FileState} {face : Store}
  {ix : Index} {f : FileDescription} {file : FileId} {record : Nat}

/-- A task that is not for a file in its state. -/
theorem FileTask.comes_idle {e : FileTask}
    (hrun : ∀ {site handle w}, st.Shown site (w.below Workspace.commonCache) handle →
      e.run site handle w = (.idle, handle, w)) (record : Nat) :
    e.Comes face st record .idle st record := by
  intro site handle w _ hw hshown _ hrecord
  refine ⟨handle, w.below Workspace.commonCache, ?_, taskLeaves_refl hw.ready hshown⟩
  rw [hrun hshown, Workspace.withBelow_below, ← hrecord, Workspace.setCell_cell]

/-- On all sites a handle asks for the same. -/
theorem Index.alike_caller (ix : Index) (file : FileId) (site : Site) :
    (ix.caller file site).Alike ix :=
  ⟨rfl, rfl, rfl, rfl⟩

/-- A call on an open file moves the cursor and leaves a record position in the cell. -/
theorem FileTask.run_call {c : Call} {put : Option Nat} {cursor : Cursor} {r : Except Error Answer}
    {record' : Nat} {P : Buffered → Prop} (hcell : site.cell < w.cells.size)
    (h : Ends c.run (ix.caller file site, w.setCell site.cell (put.getD (w.cell site.cell)))
      fun o σ => o = r ∧ σ.1 = Index.caller { ix with cursor := cursor } file site ∧
        ∃ s, σ.2 = (w.withBelow Workspace.commonCache s).setCell site.cell record' ∧ P s) :
    ∃ s, (FileTask.call put c).run site (some (ix.caller file site)) w = (.replied ⟨r, cursor, record'⟩,
      some (Index.caller { ix with cursor := cursor } file site),
      (w.withBelow Workspace.commonCache s).setCell site.cell record') ∧ P s := by
  obtain ⟨hr, hix, s, hw, hP⟩ := h.ending
  refine ⟨s, ?_, hP⟩
  unfold FileTask.run
  simp only [hr, hix, hw]
  rw [Workspace.cell_setCell (w := w.withBelow Workspace.commonCache s) hcell]
  rfl

/-- A call on an open file. -/
theorem FileTask.comes_call (hst : (FileState.opened ix f).WellFormed) (put : Option Nat) (c : Call)
    (record : Nat) : ∃ told st' record', st'.WellFormed ∧
      (FileTask.call put c).Alters (.opened ix f) record told st' ∧
      (FileTask.call put c).Comes face (.opened ix f) record told st' record' := by
  obtain ⟨hf, hlayout, hcursor⟩ := hst
  have hupheld := c.upheld (hlayout ▸ hf.wellFormed) hcursor (put.getD record)
  have hsame : ∀ file site, c.course (ix.caller file site) (put.getD record) =
      c.course ix (put.getD record) :=
    fun file site => Call.course_alike (ix.alike_caller file site) rfl c _
  cases hcourse : c.course ix (put.getD record) with
  | decided r =>
    refine ⟨.replied ⟨r, ix.cursor, put.getD record⟩, .opened ix f, put.getD record,
      ⟨hf, hlayout, hcursor⟩, .decided hcourse, ?_⟩
    intro site handle w _ hw hshown _ hrecord
    cases handle with
    | none => exact hshown.elim
    | some _ =>
      obtain ⟨file, rfl, hblocksAs⟩ := hshown
      have hends : Ends c.run (ix.caller file site, w.setCell site.cell (put.getD (w.cell site.cell)))
          fun o σ => o = r ∧ σ.1 = Index.caller { ix with cursor := ix.cursor } file site ∧
            ∃ s, σ.2 = (w.withBelow Workspace.commonCache s).setCell site.cell (put.getD record) ∧
              s = w.below Workspace.commonCache := by
        refine Call.run_ends ?_
        rw [show (ix.caller file site).cell = site.cell from rfl, Workspace.cell_setCell hw.cell,
          hrecord, hsame, hcourse]
        exact ⟨rfl, rfl, _, by rw [Workspace.withBelow_below], rfl⟩
      obtain ⟨s, hrun, rfl⟩ := FileTask.run_call hw.cell hends
      exact ⟨_, _, hrun, taskLeaves_refl hw.ready ⟨file, rfl, hblocksAs⟩⟩
  | asks q =>
    rw [hcourse] at hupheld
    obtain ⟨r, v, hq⟩ := hupheld
    rw [hlayout] at hq
    obtain ⟨f', hf', hbecomes, htransact⟩ := hf.transact hq.runs fun a ha => (hq.wellFormed a ha).1
    generalize ho : r.map (fun a => (a, Except.ok (ε := Error) ())) = o at htransact
    have haligned : (q.moved ix.cursor o).Aligned f.header.layout := by
      subst ho
      cases r with
      | error e => exact hlayout ▸ hcursor
      | ok a =>
        show ((q.cursor a).getD ix.cursor).Aligned f.header.layout
        cases hc : q.cursor a with
        | none => exact hlayout ▸ hcursor
        | some cursor => exact (hq.wellFormed a rfl).2 cursor hc
    refine ⟨.replied ⟨q.outcome o, q.moved ix.cursor o, q.told (put.getD record) o⟩,
      .opened { ix with cursor := q.moved ix.cursor o } f', q.told (put.getD record) o,
      ⟨hf', hlayout.trans (congrArg Header.layout hbecomes.header.symm), hlayout ▸ haligned⟩,
      .called hcourse hq.runs hbecomes ho.symm, ?_⟩
    intro site handle w _ hw hshown _ hrecord
    cases handle with
    | none => exact hshown.elim
    | some _ =>
      obtain ⟨file, rfl, hblocksAs⟩ := hshown
      have hends : Ends c.run (ix.caller file site, w.setCell site.cell (put.getD (w.cell site.cell)))
          fun o' σ => o' = q.outcome o ∧
            σ.1 = Index.caller { ix with cursor := q.moved ix.cursor o } file site ∧
            ∃ s, σ.2 = (w.withBelow Workspace.commonCache s).setCell site.cell
                (q.told (put.getD record) o) ∧
              TaskLeaves site (some (ix.caller file site)) (w.below Workspace.commonCache)
                (.opened { ix with cursor := q.moved ix.cursor o } f')
                (some (Index.caller { ix with cursor := q.moved ix.cursor o } file site)) s := by
        refine Call.run_ends ?_
        rw [show (ix.caller file site).cell = site.cell from rfl, Workspace.cell_setCell hw.cell,
          hrecord, hsame, hcourse]
        have htold := htransact ix.mode.locked ix.mode.endMode hblocksAs hw.ready hw.reliable
        rw [← hlayout] at htold
        dsimp only [Course.Meets]
        refine Ends.mono htold ?_
        rintro _ t ⟨rfl, hsteps, hready, hblocksAs', -⟩
        refine ⟨rfl, rfl, t, ?_, taskLeaves_opened hblocksAs hready
          (Buffered.spares_steps hsteps hblocksAs.blocksAs.intact.store) hsteps.store hblocksAs'⟩
        show ((w.setCell site.cell _).withBelow Workspace.commonCache t).setCell site.cell
          (q.told ((w.setCell site.cell _).cell site.cell) _) = _
        rw [Workspace.cell_setCell hw.cell]
        exact (w.withBelow Workspace.commonCache t).setCell_setCell _ _ _
      obtain ⟨s, hrun, htaskLeaves⟩ := FileTask.run_call hw.cell hends
      exact ⟨_, s, hrun, htaskLeaves⟩

/-- Blocks of an open file are written back and dropped. -/
theorem FileDescription.WellFormed.flush (hf : f.WellFormed) : ∃ f' : FileDescription, f'.WellFormed ∧
    f.Becomes (.ok ()) { f.view with held := fun _ => none } f' ∧
    ∀ {ix : Index} {file : FileId} {site : Site} {w : Workspace}, ix.tree.layout = f.header.layout →
      w.Hosts site → f.LiesIn (ix.caller file site).mount (w.below Workspace.commonCache) →
      Ends (Index.call .flush (pure ())) (ix.caller file site, w) fun o σ => o = .ok ((), .ok ()) ∧
        ∃ s, σ = (ix.caller file site, w.withBelow Workspace.commonCache s) ∧
          Cache.Steps (ix.caller file site).mount (fun _ => True) (fun _ _ => True)
            (w.below Workspace.commonCache) s ∧
          s.Ready ∧ f'.LiesIn (ix.caller file site).mount s ∧ s.Idle file := by
  have hwellFormed : View.WellFormed f.header.layout { f.view with held := fun _ => none } := by
    obtain ⟨c, hc, hboard⟩ := hf.wellFormed.board
    exact ⟨hf.wellFormed.workable, c, hc.congr rfl rfl, hboard⟩
  obtain ⟨f', hf', hbecomes, htransact⟩ := hf.transact (.done () _) fun _ _ => hwellFormed
  refine ⟨f', hf', hbecomes, fun {ix file site w} hlayout hw hblocksAs => Index.call_ends ?_⟩
  have htold := htransact ix.mode.locked .flush hblocksAs hw.ready hw.reliable
  rw [← hlayout] at htold
  refine Ends.mono htold ?_
  rintro _ s ⟨rfl, hsteps, hready, hblocksAs', hidle⟩
  exact ⟨rfl, s, rfl, hsteps, hready, hblocksAs', hidle rfl ⟨(), rfl⟩⟩

theorem FileTask.comes_flush (hst : (FileState.opened ix f).WellFormed) (record : Nat) :
    ∃ told st' record', st'.WellFormed ∧ FileTask.flush.Alters (.opened ix f) record told st' ∧
      FileTask.flush.Comes face (.opened ix f) record told st' record' := by
  obtain ⟨hf, hlayout, hcursor⟩ := hst
  obtain ⟨f', hf', hbecomes, hflush⟩ := hf.flush
  refine ⟨.ended (.ok ()), .opened ix f', record,
    ⟨hf', hlayout.trans (congrArg Header.layout hbecomes.header.symm), hcursor⟩,
    .flushed hbecomes, ?_⟩
  intro site handle w _ hw hshown _ hrecord
  cases handle with
  | none => exact hshown.elim
  | some _ =>
    obtain ⟨file, rfl, hblocksAs⟩ := hshown
    have hends : Ends Index.flush (ix.caller file site, w) fun o σ => o = .ok () ∧
        ∃ s, σ = (ix.caller file site, w.withBelow Workspace.commonCache s) ∧
          TaskLeaves site (some (ix.caller file site)) (w.below Workspace.commonCache) (.opened ix f')
            (some (ix.caller file site)) s := by
      refine Ends.bind (hflush hlayout hw hblocksAs) (fun e σ h => nomatch h.1) ?_
      rintro ⟨⟨⟩, ended⟩ _ ⟨hended, s, rfl, hsteps, hready, hblocksAs', -⟩
      cases hended
      have hreliable : site.store.Reliable s.disk :=
        hw.reliable.follows (Cache.Through.reaches hsteps).follows
      refine Ends.bind (ends_settle (Q := fun r σ => r = .ok () ∧
        σ = (ix.caller file site, w.withBelow Workspace.commonCache s)) ⟨rfl, rfl⟩)
        (fun e σ h => nomatch h.1) ?_
      rintro ⟨⟩ _ ⟨-, rfl⟩
      refine Index.self_bind_ends (Index.onWorkspace_ends (Workspace.onDisk_ends ?_))
      refine (Store.ask_ends site.store s.disk .sync 0 0).mono ?_
      rintro r d ⟨hfollows, hcontents, hr⟩
      have hsync : s.Spares (fun _ => False) ⟨s.cache, d⟩ :=
        Buffered.spares_disk hfollows fun id _ => hcontents id
      refine ⟨hr hreliable, ⟨s.cache, d⟩, rfl, taskLeaves_opened hblocksAs (hready.disk hfollows)
        ((Buffered.spares_steps hsteps hblocksAs.blocksAs.intact.store).trans
          (Buffered.spares_disk hfollows fun id _ => hcontents id)) hsteps.store
        (hblocksAs'.spares hsync id (hready.disk hfollows))⟩
    obtain ⟨hr, s, hσ, htaskLeaves⟩ := hends.ending
    refine ⟨_, s, ?_, htaskLeaves⟩
    unfold FileTask.run
    simp only [hr, hσ]
    rw [← hrecord, show w.cell site.cell = (w.withBelow Workspace.commonCache s).cell site.cell from
      rfl, Workspace.setCell_cell]

theorem FileTask.comes_close (hst : (FileState.opened ix f).WellFormed) (record : Nat) :
    ∃ told st' record', st'.WellFormed ∧ FileTask.close.Alters (.opened ix f) record told st' ∧
      FileTask.close.Comes face (.opened ix f) record told st' record' := by
  obtain ⟨hf, hlayout, -⟩ := hst
  obtain ⟨f', hf', hbecomes, hflush⟩ := hf.flush
  refine ⟨.ended (.ok ()), .closed f', record, hf', .closed hbecomes, ?_⟩
  intro site handle w _ hw hshown _ hrecord
  cases handle with
  | none => exact hshown.elim
  | some _ =>
    obtain ⟨file, rfl, hblocksAs⟩ := hshown
    have hends : Ends Index.close (ix.caller file site, w) fun o σ => o = .ok () ∧
        ∃ s, σ.2 = w.withBelow Workspace.commonCache s ∧
          TaskLeaves site (some (ix.caller file site)) (w.below Workspace.commonCache) (.closed f')
            none s := by
      refine Ends.attempt_bind (hflush hlayout hw hblocksAs) ?_
      rintro _ _ ⟨rfl, s, rfl, hsteps, hready, hblocksAs', hidle⟩
      have hunregister : Ends Index.unregister (ix.caller file site,
        w.withBelow Workspace.commonCache s)
          fun o σ => o = .ok () ∧
            σ.2 = w.withBelow Workspace.commonCache ⟨s.cache.dropFile file, s.disk⟩ := by
        refine Index.self_bind_ends (Index.onWorkspace_ends (Workspace.onCache_ends ?_))
        rw [show (w.withBelow Workspace.commonCache s).below (ix.caller file site).cache = s from
          Workspace.below_withBelow hw.cache]
        refine (Cache.unregister_ends hidle).mono ?_
        rintro _ _ ⟨rfl, rfl⟩
        exact ⟨rfl, w.withBelow_withBelow _ _ _⟩
      have hstore : s.cache.store? file = some site.store := hblocksAs'.blocksAs.intact.store
      refine Ends.bind hunregister (fun e σ h => nomatch h.1) ?_
      rintro ⟨⟩ ⟨ix', _⟩ ⟨-, rfl⟩
      refine ⟨rfl, ⟨s.cache.dropFile file, s.disk⟩, rfl, hready.dropFile hidle,
        (Buffered.spares_steps hsteps hblocksAs.blocksAs.intact.store).trans
          (Buffered.spares_dropFile hidle hstore), hblocksAs'.holds hidle, fun g store hg => .inr ?_⟩
      by_cases hfile : g = file
      · simp [Cache.store?, Cache.registration?_dropFile, hfile] at hg
      · rw [Cache.store?_dropFile hfile, hsteps.store] at hg
        exact ⟨hg, fun ix'' hix'' => Option.some.inj hix'' ▸ Ne.symm hfile⟩
    obtain ⟨hr, s, hσ, htaskLeaves⟩ := hends.ending
    refine ⟨_, s, ?_, htaskLeaves⟩
    unfold FileTask.run
    simp only [hr, hσ]
    rw [← hrecord, show w.cell site.cell = (w.withBelow Workspace.commonCache s).cell site.cell from
      rfl, Workspace.setCell_cell]

theorem Store.Alike.firstBlock_eq {a b : Store} (h : a.Alike b) (options : OpenOptions) :
    options.firstBlock a = options.firstBlock b := by
  unfold OpenOptions.firstBlock
  rw [h.kind, h.name]

/-- A file is made, if it is to be. -/
theorem FileState.makes (hst : st.WellFormed) (options : OpenOptions) (face : Store) :
    ∃ (r : Except Error Unit) (st' : FileState), st'.WellFormed ∧ st.Makes options r st' ∧
      ∀ {store : Store} {w : Workspace},
      store.Alike face → store.Reliable w.disk → store.volume < w.disk.volumes.size →
      st.In (w.disk.contents store.volume) →
      Ends (if options.mode = .create then Workspace.onDisk (Index.createOn store options) else pure ())
        w fun o w' => o = r ∧ ∃ d, w' = { w with disk := d } ∧ w.disk.Follows d ∧
          (∀ id, id ≠ store.volume → d.contents id = w.disk.contents id) ∧
          st'.In (d.contents store.volume) := by
  by_cases hcreate : options.mode = .create
  · simp only [if_pos hcreate]
    cases hfirst : options.firstBlock face with
    | error e =>
      refine ⟨.error e, st, hst, .failed hcreate e, fun halike hrel hvolume hin => ?_⟩
      refine Workspace.onDisk_ends ((Index.createOn_told hrel hvolume).mono ?_)
      rintro r d ⟨hfollows, hothers, hcase⟩
      rw [halike.firstBlock_eq, hfirst] at hcase
      exact ⟨hcase.1, d, rfl, hfollows, hothers, hcase.2 ▸ hin⟩
    | ok image =>
      obtain ⟨f, hf, hmade, hholds⟩ := OpenOptions.exists_description hfirst
      refine ⟨.ok (), .closed f, hf, .made hcreate hmade, fun halike hrel hvolume _ => ?_⟩
      refine Workspace.onDisk_ends ((Index.createOn_told hrel hvolume).mono ?_)
      rintro r d ⟨hfollows, hothers, hcase⟩
      rw [halike.firstBlock_eq, hfirst] at hcase
      exact ⟨hcase.1, d, rfl, hfollows, hothers, hcase.2 ▸ hholds _⟩
  · simp only [if_neg hcreate]
    exact ⟨.ok (), st, hst, .found hcreate,
      fun _ _ _ hin => ⟨rfl, _, rfl, .refl _, fun _ _ => rfl, hin⟩⟩

/-- The header that is read of a file that is not open is known. -/
theorem FileState.reads (hst : st.WellFormed) (options : OpenOptions) : ∃ r : Except Error Header,
    (∀ h, r = .ok h →
      ∃ f, st = .closed f ∧ f.header = h ∧ options.admits f.header = .ok ()) ∧
    (∀ e, r = .error e → ∀ f, st = .closed f → options.admits f.header ≠ .ok ()) ∧
    ∀ {store : Store} {d : Disk}, store.Reliable d → st.In (d.contents store.volume) →
      Ends (Index.readHeader store options) d fun o d' =>
        o = r ∧ d.Follows d' ∧ ∀ id, d'.contents id = d.contents id := by
  have hread : ∀ r, (∀ c, st.In c → (do
        let header ← Header.parse (c.read 0 maxBlockSize)
        options.admits header
        return header) = r) → ∀ {store : Store} {d : Disk}, store.Reliable d →
      st.In (d.contents store.volume) → Ends (Index.readHeader store options) d fun o d' =>
        o = r ∧ d.Follows d' ∧ ∀ id, d'.contents id = d.contents id := by
    intro r hr store d hrel hin
    exact Index.readHeader_ends.mono fun o d' h =>
      ⟨(h.told hrel.yields).trans (hr _ hin), h.follows, h.contents⟩
  cases st with
  | void bytes =>
    cases hparse : Header.parse (bytes.take maxBlockSize) with
    | ok h => exact absurd hparse (hst h)
    | error e =>
      refine ⟨.error e, nofun, fun _ _ _ h => (nomatch h), hread _ fun c hc => ?_⟩
      rw [Contents.read_eq_take_drop, show c.toBytes = bytes from hc, List.drop_zero, hparse]
      rfl
  | closed f =>
    have hparse : ∀ c, (FileState.closed f).In c →
      Header.parse (c.read 0 maxBlockSize) = .ok f.header :=
      fun c hc => Contents.Holds.parse hc hst
    have hchecked : ∀ c, (FileState.closed f).In c → (do
        let header ← Header.parse (c.read 0 maxBlockSize)
        options.admits header
        return header) = (options.admits f.header).map fun _ => f.header := by
      intro c hc
      rw [hparse c hc]
      show (options.admits f.header >>= fun _ => pure f.header) = _
      cases options.admits f.header <;> rfl
    cases hadmits : options.admits f.header with
    | error e =>
      refine ⟨.error e, nofun, fun _ _ f' hf' => ?_, hread _ fun c hc => ?_⟩
      · cases hf'
        rw [hadmits]
        nofun
      · rw [hchecked c hc, hadmits]
        rfl
    | ok _ =>
      refine ⟨.ok f.header, fun h hh => ⟨f, rfl, Except.ok.inj hh, hadmits⟩, nofun,
        hread _ fun c hc => ?_⟩
      rw [hchecked c hc, hadmits]
      rfl
  | opened ix f =>
    exact ⟨.error .invalidHandle, nofun, fun _ _ _ h => (nomatch h), fun _ hin => hin.elim⟩

theorem Workspace.withBelow_disk (w : Workspace) (id : Nat) (d : Disk) :
    w.withBelow id ⟨w.cache id, d⟩ = { w with disk := d } := by
  have hbelow := congrArg Workspace.caches (w.withBelow_below id)
  unfold Workspace.withBelow Workspace.below at *
  simpa using hbelow

/-- A file that lies in its volume is taken up. -/
theorem taskLeaves_register (hf : f.WellFormed)
    (hin : (FileState.closed f).In (w.disk.contents site.store.volume)) (hw : w.Hosts site)
    (huntaken : (w.below Workspace.commonCache).cache.Untaken site.store.volume)
    (options : OpenOptions) :
    TaskLeaves site none (w.below Workspace.commonCache) (.opened (options.opens f.header) f)
      (some ((options.opens f.header).caller (w.cache Workspace.commonCache).freshFile site))
      ⟨((w.cache Workspace.commonCache).register site.store).2, w.disk⟩ := by
  refine ⟨hw.ready.register _, hw.ready.spares_register _,
    ⟨_, rfl, Contents.Holds.liesIn (s := w.below Workspace.commonCache) hin hf hw.ready hw.volume
      huntaken⟩, fun g store hg => ?_⟩
  by_cases hfile : g = (w.cache Workspace.commonCache).freshFile
  · rw [hfile, Cache.store?_register_self] at hg
    exact .inl ⟨_, rfl, hfile.symm, (Option.some.inj hg).symm⟩
  · rw [Cache.store?_register hfile] at hg
    exact .inr ⟨hg, fun _ hix => nomatch hix⟩

/-- What opening a file comes to. -/
theorem Index.openStore_told (hst : st.WellFormed) {options : OpenOptions}
    (hcache : options.cache = none) (face : Store) :
    ∃ (told : Except Error Header) (st' : FileState), st'.WellFormed ∧
      (∀ record, (FileTask.opening options).Alters st record (.opened told) st') ∧
      ∀ {site : Site} {w : Workspace}, site.store.Alike face → w.Hosts site →
      st.In (w.disk.contents site.store.volume) →
      (w.below Workspace.commonCache).cache.Untaken site.store.volume →
      Ends (openStore site.store options site.cell) w fun r w' => r.map Index.header = told ∧
        ∃ s, w' = w.withBelow Workspace.commonCache s ∧
          TaskLeaves site none (w.below Workspace.commonCache) st' r.toOption s := by
  obtain ⟨made, st₁, hst₁, hmade, hmakes⟩ := FileState.makes hst options face
  obtain ⟨header, hheader, hrefused, hreads⟩ := FileState.reads hst₁ options
  -- as long as nothing is taken up only the volume of the file is changed
  have hleft : ∀ {site : Site} {w : Workspace} {d : Disk}, w.Hosts site → w.disk.Follows d →
      (∀ id, id ≠ site.store.volume → d.contents id = w.disk.contents id) →
      st₁.In (d.contents site.store.volume) → ∃ s, { w with disk := d } =
        w.withBelow Workspace.commonCache s ∧
        TaskLeaves site none (w.below Workspace.commonCache) st₁ none s := by
    intro site w d hw hfollows hothers hin
    refine ⟨⟨w.cache Workspace.commonCache, d⟩, (w.withBelow_disk _ d).symm, ?_⟩
    exact .of_disk hfollows hothers (@taskLeaves_refl _ none _ _ (hw.ready.disk hfollows) hin)
  cases made with
  | error e =>
    refine ⟨.error e, st₁, hst₁, fun _ => .refused hmade nofun,
      fun halike hw hin huntaken => ?_⟩
    unfold openStore
    refine Ends.ite_bind (Ends.bind (hmakes halike hw.reliable hw.volume hin) ?_
      (fun _ _ h => nomatch h.1))
    rintro e' _ ⟨he, d, rfl, hfollows, hothers, hin'⟩
    cases he
    exact ⟨rfl, hleft hw hfollows hothers hin'⟩
  | ok made =>
    -- the header is read of what is there then
    have hread : ∀ {site : Site} {w : Workspace}, site.store.Alike face → w.Hosts site →
        st.In (w.disk.contents site.store.volume) →
        ∀ {Q : Except Error Index → Workspace → Prop},
        (∀ e d, header = .error e → w.disk.Follows d →
          (∀ id, id ≠ site.store.volume → d.contents id = w.disk.contents id) →
          st₁.In (d.contents site.store.volume) → Q (.error e) { w with disk := d }) →
        (∀ h d, header = .ok h → w.disk.Follows d →
          (∀ id, id ≠ site.store.volume → d.contents id = w.disk.contents id) →
          st₁.In (d.contents site.store.volume) →
          Q (.ok ((options.opens h).caller (w.cache Workspace.commonCache).freshFile site))
            (Workspace.withBelow { w with disk := d } Workspace.commonCache
              ⟨((w.cache Workspace.commonCache).register site.store).2, d⟩)) →
        Ends (openStore site.store options site.cell) w Q := by
      intro site w halike hw hin Q herror hok
      unfold openStore
      refine Ends.ite_bind
        (Ends.bind (hmakes halike hw.reliable hw.volume hin) (fun _ _ h => nomatch h.1) ?_)
      rintro ⟨⟩ _ ⟨-, d, rfl, hfollows, hothers, hin'⟩
      have hheaded := hreads (hw.reliable.follows hfollows) hin'
      refine Ends.bind (P := fun r w' => r = header ∧ ∃ d', w' = { w with disk := d' } ∧
        d.Follows d' ∧ ∀ id, d'.contents id = d.contents id)
        (Workspace.onDisk_ends (hheaded.mono fun r d' h => ⟨h.1, d', rfl, h.2⟩)) ?_ ?_
      · rintro e _ ⟨he, d', rfl, hfollows', hsame⟩
        exact herror e d' he.symm (hfollows.trans hfollows') (fun id hid => (hsame id).trans
          (hothers id hid)) (hsame _ ▸ hin')
      · rintro h _ ⟨hh, d', rfl, hfollows', hsame⟩
        have hdone := hok h d' hh.symm (hfollows.trans hfollows') (fun id hid => (hsame id).trans
          (hothers id hid)) (hsame _ ▸ hin')
        rw [hcache]
        exact hdone
    cases header with
    | error e =>
      refine ⟨.error e, st₁, hst₁, fun _ => .refused hmade fun _ => hrefused e rfl,
        fun halike hw hin huntaken => hread halike hw hin ?_ ?_⟩
      · rintro _ d ⟨rfl⟩ hfollows hothers hin'
        exact ⟨rfl, hleft hw hfollows hothers hin'⟩
      · rintro h d ⟨⟩
    | ok h =>
      obtain ⟨f, rfl, rfl, hadmits⟩ := hheader h rfl
      refine ⟨.ok f.header, .opened (options.opens f.header) f, ⟨hst₁, rfl, nofun⟩,
        fun _ => .opened hmade hadmits, fun {site w} halike hw hin huntaken =>
          hread halike hw hin ?_ ?_⟩
      · rintro e d ⟨⟩
      · rintro _ d ⟨rfl⟩ hfollows hothers hin'
        have htaskLeaves := taskLeaves_register (w := { w with disk := d }) hst₁ hin'
          (hw.disk hfollows) huntaken options
        exact ⟨rfl, _, rfl, .of_disk hfollows hothers htaskLeaves⟩

/-- The common cache is taken in any case. -/
theorem FileTask.Alters.uncached {options : OpenOptions} {told : Told} {st' : FileState}
    (h : (FileTask.opening { options with cache := none }).Alters st record told st') :
    (FileTask.opening options).Alters st record told st' := by
  have hall : ∀ {r st₁}, st.Makes { options with cache := none } r st₁ →
      st.Makes options r st₁ := by
    intro r st₁ hmakes
    cases hmakes with
    | found hmode => exact .found hmode
    | failed hmode e => exact .failed (show options.mode = .create from hmode) e
    | made hmode hmade =>
      exact .made (show options.mode = .create from hmode) ⟨hmade.duplicates, hmade.view⟩
  cases h with
  | idle hidle => exact .idle (by cases st <;> exact hidle)
  | refused hmakes hrefused => exact .refused (hall hmakes) hrefused
  | opened hmakes hadmits => exact .opened (hall hmakes) hadmits

theorem FileTask.comes_opening (hst : st.WellFormed) (hclosed : ∀ ix f, st ≠ .opened ix f)
    (options : OpenOptions) (record : Nat) : ∃ told st' record', st'.WellFormed ∧
      (FileTask.opening options).Alters st record told st' ∧
      (FileTask.opening options).Comes face st record told st' record' := by
  obtain ⟨told, st', hst', halters, htold⟩ :=
    @Index.openStore_told _ hst { options with cache := none } rfl face
  refine ⟨.opened told, st', record, hst', (halters record).uncached, ?_⟩
  intro site handle w halike hw hshown huntaken hrecord
  cases handle with
  | some ix => cases st <;> first | exact hshown.elim | exact absurd rfl (hclosed _ _)
  | none =>
    have hin : st.In (w.disk.contents site.store.volume) := by
      cases st <;> exact hshown
    obtain ⟨hr, s, hw', htaskLeaves⟩ := (htold halike hw hin (huntaken rfl)).ending
    refine ⟨_, s, ?_, htaskLeaves⟩
    unfold FileTask.run
    simp only [hr, hw']
    rw [← hrecord, show w.cell site.cell = (w.withBelow Workspace.commonCache s).cell site.cell from
      rfl, Workspace.setCell_cell]

/-- What a task comes to is known from the file. -/
theorem FileTask.comes (hst : st.WellFormed) (e : FileTask) (face : Store) (record : Nat) :
    ∃ told st' record', st'.WellFormed ∧ e.Alters st record told st' ∧
      e.Comes face st record told st' record' := by
  cases st with
  | opened ix f =>
    cases e with
    | opening options =>
      refine ⟨.idle, _, _, hst, .idle trivial,
        FileTask.comes_idle (fun {site handle w} hshown => ?_) record⟩
      cases handle with
      | none => exact hshown.elim
      | some ix' => rfl
    | call put c => exact FileTask.comes_call hst put c record
    | flush => exact FileTask.comes_flush hst record
    | close => exact FileTask.comes_close hst record
  | void | closed =>
    cases e with
    | opening options =>
      exact FileTask.comes_opening hst (fun _ _ h => FileState.noConfusion h) options record
    | call | flush | close =>
      refine ⟨.idle, _, _, hst, .idle trivial,
        FileTask.comes_idle (fun {site handle w} hshown => ?_) record⟩
      cases handle with
      | none => rfl
      | some ix' => exact hshown.elim

end Errands

end PagedIndex
