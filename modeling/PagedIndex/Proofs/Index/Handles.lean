import PagedIndex.Proofs.Index.Effects
import PagedIndex.Proofs.Session.Transact

/-!
# Calls on one handle

A handle keeps a plan if the blocks of its file, wherever its cache and its store have them, are as
planned. A call on it does what its request says, or fails. If all that it changes can be written, a
call that fails leaves the file, the cursor and the record cell as they were, unless it was carried
out and could only not give its lock back.

## Main definitions

* `Index.Keeps` — a handle whose file is as planned, between two calls.
* `Call.Served` — what comes of a call on such a handle.

## Main statements

* `Call.serves` — a call over any store.
* `Call.run_secured` — a call whose changes can be written.
-/

namespace PagedIndex

/-- The file of a handle, as its cache knows it. -/
def Index.mount (ix : Index) : Mount := ⟨ix.file, ix.store, ix.tree.layout.blockSize⟩

/-! ## Workspaces -/

namespace Workspace

variable {w : Workspace} {s : Buffered} {id id' cell cell' record : Nat}

theorem below_withBelow (h : id < w.caches.size) : (w.withBelow id s).below id = s := by
  simp [below, withBelow, cache, h]

theorem below_withBelow_ne (h : id' ≠ id) :
    (w.withBelow id s).below id' = ⟨w.cache id', s.disk⟩ := by
  simp [below, withBelow, cache, h.symm]

theorem withBelow_withBelow (w : Workspace) (id : Nat) (s t : Buffered) :
    (w.withBelow id s).withBelow id t = w.withBelow id t := by
  simp [withBelow]

theorem safe_withBelow (hid : id < w.caches.size) (h : (w.below id').Safe) (hs : s.Safe)
    (hdisk : w.disk.Follows s.disk) : ((w.withBelow id s).below id').Safe := by
  by_cases heq : id' = id
  · rw [heq, below_withBelow hid]
    exact hs
  · rw [below_withBelow_ne heq]
    intro i b hb hd
    obtain ⟨store, hstore, hreliable, hlt⟩ := h i b hb hd
    exact ⟨store, hstore, hreliable.follows hdisk, hlt⟩

theorem cell_setCell (h : cell < w.cells.size) : (w.setCell cell record).cell cell = record := by
  simp [setCell, Workspace.cell, h]

theorem cell_setCell_ne (h : cell' ≠ cell) :
    (w.setCell cell record).cell cell' = w.cell cell' := by
  simp [setCell, Workspace.cell, h.symm]

end Workspace

section After

variable {q : Request} {ix : Index} {w : Workspace} {s : Buffered}
  {o : Except Error (q.α × Except Error Unit)}

theorem Request.below_after (h : ix.cache < w.caches.size) :
    (q.after ix w o s).2.below ix.cache = s := Workspace.below_withBelow h

theorem Request.cell_after (h : ix.cell < w.cells.size) :
    (q.after ix w o s).2.cell ix.cell = q.told (w.cell ix.cell) o := Workspace.cell_setCell h

end After

/-- The chain pointers of blocks that lie between two calls are in the header block. -/
theorem Session.BlocksAs.pointers_eq {m : Mount} {format : Format} {v : View} {s : Buffered}
    (h : Session.BlocksAs m format v s) : m.pointers format s = v.pointers := by
  obtain ⟨x, hx, hread⟩ := h.saved
  unfold Mount.pointers
  rw [hx]
  exact hread

/-! ## Handles -/

/-- A handle that finds the blocks of a view in its file, between two calls. -/
structure Index.Finds (ix : Index) (v : View) (w : Workspace) : Prop where
  cache : ix.cache < w.caches.size
  cell : ix.cell < w.cells.size
  blocksAs : Session.BlocksAs ix.mount ix.tree.layout.format v (w.below ix.cache)

/-- A handle whose file is as planned, between two calls. No buffer without changes differs from the
store, and the cursor keeps no hint but to a place where a block may start. -/
structure Index.Keeps (ix : Index) (p : Plan) (w : Workspace) : Prop where
  finds : ∃ v, ix.Finds v w ∧ p.Drawn ix.tree v
  cursor : ix.cursor.Aligned ix.tree.layout

/-- What comes of a call on a handle that finds the blocks of the view `v`, which are as in the plan
`p`: it is decided before it touches a block, or it asks for a program that is carried out, or
fails. -/
inductive Call.Served (call : Call) (ix : Index) (p : Plan) (v : View) (w : Workspace) :
    Except Error Answer → Index × Workspace → Prop
  | decided {r : Except Error Answer} (hcourse : call.course ix (w.cell ix.cell) = .decided r) :
      Served call ix p v w r (ix, w)
  | asked {q : Request} {r : Except Error q.α} {v' : View} {s : Buffered}
      {o : Except Error (q.α × Except Error Unit)}
      (hcourse : call.course ix (w.cell ix.cell) = .asks q) (hcarried : q.Carried ix.tree p v r v')
      (hcallOutcome : Session.CallOutcome ix.mount ix.tree.layout.format ix.mode.endMode
        ix.mode.locked v
        q.program r v' (w.below ix.cache) o s) :
      Served call ix p v w (q.outcome o) (q.after ix w o s)

section Handle

variable {ix : Index} {p : Plan} {v : View} {w : Workspace} {q : Request} {s : Buffered}

theorem Plan.Drawn.width (h : p.Drawn ix.tree v) :
    1 + 4 * ix.tree.layout.format.positionWidth ≤ ix.mount.blockSize := by
  have := h.workable.room
  unfold Layout.positionWidth at this
  show 1 + 4 * ix.tree.layout.format.positionWidth ≤ ix.tree.layout.blockSize
  omega

/-- A program of a call is carried out or fails. -/
theorem Index.Finds.transact {r : Except Error q.α} {v' : View} (h : ix.Finds v w)
    (hp : p.Drawn ix.tree v) (hq : q.Carried ix.tree p v r v') :
    Ends (Session.transact ix.file ix.tree.layout ix.mode.locked ix.mode.endMode q.program)
      (w.below ix.cache) (Session.CallOutcome ix.mount ix.tree.layout.format ix.mode.endMode
        ix.mode.locked v q.program r v' (w.below ix.cache)) := by
  refine @Session.transact_outcome ix.mount _ _ _ _ _ _ _ _ _ h.blocksAs rfl hp.width hq.runs fun a
    ha => ?_
  obtain ⟨p', hp', -⟩ := hq.drawn a ha
  exact hp'.settled

/-- A call over any store. -/
theorem Call.serves (call : Call) (h : ix.Finds v w) (hp : p.Drawn ix.tree v)
    (hcursor : ix.cursor.Aligned ix.tree.layout) :
    Ends call.run (ix, w) (call.Served ix p v w) := by
  have hcarried := call.carried hp hcursor (w.cell ix.cell)
  refine Call.run_ends ?_
  cases hcourse : call.course ix (w.cell ix.cell) with
  | decided r => exact .decided hcourse
  | asks q =>
    rw [hcourse] at hcarried
    obtain ⟨r, v', hq⟩ := hcarried
    exact Ends.mono (h.transact hp hq) fun o s hcallOutcome => Call.Served.asked hcourse hq hcallOutcome

/-- A handle tells by the root in its header block whether its file has entries. -/
theorem Index.Keeps.root_eq_null_iff (h : ix.Keeps p w) :
    (ix.mount.pointers ix.tree.layout.format (w.below ix.cache)).root = .null ↔ p.entries = [] := by
  obtain ⟨⟨v, hfinds, hp⟩, -⟩ := h
  obtain ⟨c, hc, hholds⟩ := hp.board
  rw [hfinds.blocksAs.pointers_eq, hc.pointers]
  exact hholds.root_eq_null_iff

/-! ## Calls whose changes can be written -/

/-- Whether a call moves the cursor as soon as the place is found. -/
def Call.moves : Call → Bool
  | find _ | findLast _ | next | previous => true
  | _ => false

theorem Call.hasAccess_eq (call : Call) (record : Nat) :
    (call.course ix record).Meets (fun _ => True) fun q => q.hasAccess = call.moves := by
  cases call with
  | find key =>
    simp only [course]
    split
    · trivial
    · exact Course.meets_check (fun _ _ => trivial) fun _ _ => rfl
  | findLast start => exact Course.meets_check (fun _ _ => trivial) fun _ _ => rfl
  | insert key =>
    exact Course.meets_writing (fun _ => trivial) fun _ =>
      Course.meets_check (fun _ _ => trivial) fun _ _ => rfl
  | delete key byPosition =>
    refine Course.meets_writing (fun _ => trivial) fun _ => ?_
    split
    · split
      · rfl
      · trivial
    · exact Course.meets_check (fun _ _ => trivial) fun _ _ => rfl
  | reserve | release =>
    refine Course.meets_writing (fun _ => trivial) fun _ => ?_
    split
    · trivial
    · rfl
  | next | previous | stats | verify | outline => rfl

/-- What comes of a call whose changes can be written: it is done, or it is undone, or it was done
and could not give its lock back. -/
inductive Call.Secured (call : Call) (ix : Index) (p : Plan) (w : Workspace) :
    Except Error Answer → Index × Workspace → Prop
  | done {answer : Answer} {c : Cursor} {record : Nat} {p' : Plan} {w' : Workspace}
      (hdoes : call.Does ix (w.cell ix.cell) p answer c record p')
      (hrecord : w'.cell ix.cell = record) (hkeeps : { ix with cursor := c }.Keeps p' w') :
      Secured call ix p w (.ok answer) ({ ix with cursor := c }, w')
  | undone {e : Error} {w' : Workspace}
      (hblocks : ix.mount.KeepsUpTo
        (ix.mount.pointers ix.tree.layout.format (w.below ix.cache)).highWater
        (w.below ix.cache) (w'.below ix.cache))
      (hrecord : w'.cell ix.cell = w.cell ix.cell) (hkeeps : ix.Keeps p w') :
      Secured call ix p w (.error e) (ix, w')
  | locked {answer : Answer} {c : Cursor} {record : Nat} {p' : Plan} {e : Error} {w' : Workspace}
      (hdoes : call.Does ix (w.cell ix.cell) p answer c record p')
      (hlocked : ix.mode.locked = true) (hrefused : ix.store.Refuses w.disk .unlock e)
      (hrecord : w'.cell ix.cell = w.cell ix.cell)
      (hkeeps : { ix with cursor := if call.moves then c else ix.cursor }.Keeps p' w') :
      Secured call ix p w (.error e) ({ ix with cursor := if call.moves then c else ix.cursor }, w')

theorem Index.Finds.withCursor (h : ix.Finds v w) (c : Cursor) :
    Index.Finds { ix with cursor := c } v w := ⟨h.cache, h.cell, h.blocksAs⟩

theorem Index.Finds.setCell (h : ix.Finds v w) (cell record : Nat) :
    ix.Finds v (w.setCell cell record) := by
  refine ⟨h.cache, ?_, h.blocksAs⟩
  simpa [Workspace.setCell] using h.cell

/-- A handle finds the blocks that work leaves in its cache. -/
theorem Index.Finds.withBelow {v' : View} (h : ix.Finds v w)
    (hblocksAs : Session.BlocksAs ix.mount ix.tree.layout.format v' s) :
    ix.Finds v' (w.withBelow ix.cache s) := by
  refine ⟨?_, h.cell, ?_⟩
  · simpa [Workspace.withBelow] using h.cache
  · exact (congrArg (Session.BlocksAs ix.mount ix.tree.layout.format v')
      (Workspace.below_withBelow h.cache)).mpr hblocksAs

/-- A handle keeps the file that a request leaves. -/
theorem Index.Finds.keeps_after {o : Except Error (q.α × Except Error Unit)} {v' : View} {p' : Plan}
    (h : ix.Finds v w) (hblocksAs : Session.BlocksAs ix.mount ix.tree.layout.format v' s)
    (hp : p'.Drawn ix.tree v') (hcursor : (q.moved ix.cursor o).Aligned ix.tree.layout) :
    (q.after ix w o s).1.Keeps p' (q.after ix w o s).2 := by
  have hfinds := (h.withBelow hblocksAs).setCell ix.cell (q.told (w.cell ix.cell) o)
  exact ⟨⟨v', hfinds.withCursor _, hp⟩, hcursor⟩

/-- A call whose changes can be written is done or undone, unless it could not give its lock
back. -/
theorem Call.run_secured (call : Call) (h : ix.Keeps p w)
    (hflushable : (w.below ix.cache).Flushable)
    (htakes : ix.mode.writable = true → ix.store.Takes w.disk) :
    Ends call.run (ix, w) fun r σ => call.Secured ix p w r σ ∧ (σ.2.below ix.cache).Flushable ∧
      w.disk.Follows σ.2.disk := by
  obtain ⟨⟨v, hfinds, hp⟩, hcursor⟩ := h
  refine (call.serves hfinds hp hcursor).mono ?_
  intro r σ hserved
  cases hserved with
  | decided hcourse =>
    refine ⟨?_, hflushable, .refl _⟩
    cases r with
    | ok answer => exact .done (.decided hcourse) rfl ⟨⟨v, hfinds, hp⟩, hcursor⟩
    | error e => exact .undone (fun _ _ _ _ hx => hx) rfl ⟨⟨v, hfinds, hp⟩, hcursor⟩
  | @asked q r v' s o hcourse hcarried hcallOutcome =>
    have hhasAccess : (call.course ix (w.cell ix.cell)).Meets _ _ := call.hasAccess_eq _
    rw [hcourse] at hhasAccess
    change q.hasAccess = call.moves at hhasAccess
    have hsecured : Session.Secured ix.mount v q.program r v' (w.below ix.cache) := by
      refine ⟨hflushable, ?_⟩
      cases hmode : ix.mode.writable with
      | true => exact .inl (htakes hmode)
      | false =>
        have hlooks := Call.looks_of_not_writable hmode call (w.cell ix.cell)
        rw [hcourse] at hlooks
        exact .inr (hcarried.views hlooks)
    obtain ⟨hflushable', hend⟩ := hcallOutcome.secured hsecured
    refine ⟨?_, by rwa [Request.below_after hfinds.cache], hcallOutcome.works.disk⟩
    rcases hend with ⟨a, ended, ha, rfl, hkept⟩ | ⟨⟨e, rfl⟩, hleft⟩
    · obtain ⟨p', hp', heffect, haligned⟩ := hcarried.drawn a ha
      have hmoved : ((q.cursor a).getD ix.cursor).Aligned ix.tree.layout := by
        cases hc : q.cursor a with
        | none => exact hcursor
        | some c => exact haligned c hc
      cases ended with
      | ok _ =>
        exact .done (.asks hcourse heffect) (Request.cell_after hfinds.cell)
          (hfinds.keeps_after hkept.blocksAs hp' hmoved)
      | error e =>
        obtain ⟨hlocked, hrefused⟩ := hkept.unlocked e rfl
        have hcursor' : (q.moved ix.cursor (.ok (a, .error e))).Aligned ix.tree.layout := by
          simp only [Request.moved]
          split
          · exact hmoved
          · exact hcursor
        have hkeeps := hfinds.keeps_after hkept.blocksAs hp' hcursor'
        have hcell := Request.cell_after (q := q) (s := s) (o := .ok (a, .error e)) hfinds.cell
        simp only [Request.after, Request.moved, hhasAccess] at hkeeps hcell ⊢
        exact .locked (.asks hcourse heffect) hlocked hrefused hcell hkeeps
    · obtain ⟨hblocksAs, -⟩ := hleft.undone trivial
      have hkeeps := hfinds.keeps_after (q := q) (o := .error e) hblocksAs hp hcursor
      have hblocks := hleft.keeps trivial
      rw [← hfinds.blocksAs.pointers_eq] at hblocks
      rw [Request.after_error] at hkeeps ⊢
      refine .undone ?_ rfl hkeeps
      rwa [Workspace.below_withBelow hfinds.cache]

/-! ## Empty files -/

/-- A handle on a file whose chain pointers are null finds no blocks. -/
theorem Index.finds_empty (hl : ix.tree.layout.Workable) (hcache : ix.cache < w.caches.size)
    (hcell : ix.cell < w.cells.size) (hintact : ix.mount.Intact none none (w.below ix.cache))
    (hunpinned : Session.Unpinned (w.below ix.cache))
    (hpending : ∀ r, (w.cache ix.cache).registration? ix.file = some r → r.pending = none)
    (hsaved : ∃ x, ix.mount.content (w.below ix.cache) .null = some x ∧
      Pointers.read ix.tree.layout.format x = {}) :
    ix.Finds ⟨fun _ => none, fun _ => none, {}⟩ w := by
  have hsettled := (Tree.holds_empty ix.tree.layout).settled hl (Tree.shown_empty ix.tree.layout)
  exact ⟨hcache, hcell, ⟨hsettled, hintact, hunpinned, hpending, hsaved, nofun⟩⟩

/-- These are the blocks of an empty tree. -/
theorem Plan.drawn_empty {t : Tree} (hl : t.layout.Workable) :
    (⟨0, none, [], []⟩ : Plan).Drawn t ⟨fun _ => none, fun _ => none, {}⟩ :=
  ⟨hl, ⟨_, Tree.shown_empty t.layout, Tree.holds_empty t.layout⟩, List.Pairwise.nil⟩

end Handle

/-! ## A file of one block -/

/-- A memory area taken up by two caches of four buffers. -/
def loadedWorkspace (c : Contents) (refusal : Access → Nat → Option IoCause) : Workspace :=
  let s := Session.loaded c refusal
  { disk := s.disk, caches := #[s.cache, s.cache], cells := #[7, 9] }

/-- A memory area of one block of zeros. -/
abbrev smallWorkspace (refusal : Access → Nat → Option IoCause) : Workspace :=
  loadedWorkspace { size := 64 } refusal

/-- A handle on one of the caches. -/
def smallIndex (i : Nat) (mode : OpenMode) : Index where
  cache := i
  file := 1
  store := .ofMemory 0 none
  header := { Header.new 1 .modern with blockSize := 64 }
  tree := Tree.small
  truncate := false
  mode := mode
  cell := i

/-- A handle on a file of two levels. -/
def sampleIndex (mode : OpenMode) : Index :=
  { smallIndex 0 mode with header := Tree.sampleHeader, tree := Tree.sample }

section Loaded

variable {i : Nat} {c : Contents} {refusal : Access → Nat → Option IoCause} {mode : OpenMode}

theorem below_loaded (hi : i < 2) : (loadedWorkspace c refusal).below i = Session.loaded c refusal := by
  match i, hi with
  | 0, _ | 1, _ => rfl

theorem buffer?_loaded (hi : i < 2) (j : Nat) :
    ((loadedWorkspace c refusal).below i).cache.buffer? j = none := by
  rw [below_loaded hi]
  exact Session.buffer?_loaded j

theorem idle_loaded (hi : i < 2) (file : FileId) : ((loadedWorkspace c refusal).below i).Idle file := by
  intro j b hb
  rw [buffer?_loaded hi] at hb
  cases hb

theorem safe_loaded (hi : i < 2) : ((loadedWorkspace c refusal).below i).Safe := by
  intro j b hb
  rw [buffer?_loaded hi] at hb
  cases hb

theorem flushable_loaded (hi : i < 2) : ((loadedWorkspace c refusal).below i).Flushable :=
  (safe_loaded hi).flushable

theorem takes_loaded (h : ∀ n, refusal .write n = none) :
    (Store.ofMemory 0 none).Takes (loadedWorkspace c refusal).disk := ⟨h, rfl, .inl rfl⟩

theorem not_refuses_loaded {access : Access} {e : Error} (h : ∀ n, refusal access n = none) :
    ¬(Store.ofMemory 0 none).Refuses (loadedWorkspace c refusal).disk access e := by
  rintro ⟨n, cause, hrefused, -⟩
  have : refusal access n = some cause := hrefused
  rw [h n] at this
  cases this

theorem workable_small : Tree.small.layout.Workable := ⟨by decide, by decide⟩

theorem finds_small (hi : i < 2) :
    (smallIndex i mode).Finds ⟨fun _ => none, fun _ => none, {}⟩ (smallWorkspace refusal) := by
  refine ⟨hi, hi, ?_⟩
  show Session.BlocksAs _ _ _ ((smallWorkspace refusal).below i)
  rw [below_loaded hi]
  exact Session.blocksAs_loaded workable_small.blockSize_pos (Nat.le_refl _)
    ((Tree.holds_empty Tree.small.layout).settled workable_small (Tree.shown_empty _))
    (show Pointers.read .modern (({ size := 64 } : Contents).read 0 64) = {} by decide) nofun

theorem keeps_small (hi : i < 2) :
    (smallIndex i mode).Keeps ⟨0, none, [], []⟩ (smallWorkspace refusal) :=
  ⟨⟨_, finds_small hi, Plan.drawn_empty workable_small⟩, nofun⟩

theorem keeps_sample : (sampleIndex mode).Keeps Tree.samplePlan
    (loadedWorkspace Tree.sampleContents refusal) := by
  have hpos := Tree.workable_sample.blockSize_pos
  have hsize : 512 * (Tree.sampleCells.length + 1) ≤ Tree.sampleContents.size := by decide +kernel
  have hshown := Board.shown_view hpos hsize Tree.shown_sample
  exact ⟨⟨_, ⟨Nat.two_pos, Nat.two_pos, Session.blocksAs_view refusal hpos hsize
    (Tree.holds_sample.settled Tree.workable_sample hshown)⟩,
    ⟨Tree.workable_sample, ⟨_, hshown, Tree.holds_sample⟩, Tree.ascending_sample⟩⟩, nofun⟩

end Loaded

/-- A memory area that refuses all accesses of one sort. -/
def refusing (sort : Access) (access : Access) (_ : Nat) : Option IoCause :=
  if access = sort then some (.described .other "refused") else none

/-! ## Failures -/

section Failures

variable {ix : Index} {p : Plan} {w : Workspace}

/-- A call that fails while writes go through and the lock can be given back leaves every block up
to the last one as it reads, and the cursor and the record cell as they are. -/
theorem Call.failed_keeps (call : Call) (h : ix.Keeps p w)
    (hflushable : (w.below ix.cache).Flushable)
    (htakes : ix.mode.writable = true → ix.store.Takes w.disk)
    (hunlock : ∀ e, ¬ix.store.Refuses w.disk .unlock e) :
    Ends call.run (ix, w) fun r σ => ∀ e, r = .error e →
      σ.1 = ix ∧ σ.2.cell ix.cell = w.cell ix.cell ∧ ix.Keeps p σ.2 ∧
        ix.mount.KeepsUpTo (ix.mount.pointers ix.tree.layout.format (w.below ix.cache)).highWater
          (w.below ix.cache) (σ.2.below ix.cache) := by
  refine (call.run_secured h hflushable htakes).mono ?_
  rintro r σ ⟨hsecured, -⟩ e he
  cases hsecured with
  | done => cases he
  | undone hblocks hrecord hkeeps => exact ⟨rfl, hrecord, hkeeps, hblocks⟩
  | locked _ _ hrefused => exact absurd hrefused (hunlock _)

/-- A memory area that refuses the fourth time that it is read. -/
def refusingFourth (access : Access) (n : Nat) : Option IoCause :=
  if access = .read ∧ n = 3 then some (.described .other "refused") else none

/-- A deletion has taken an entry from a leaf and cannot read its brother: the entry is there
again. -/
theorem failed_keeps_sample :
    Ends (Call.delete [0x43] false).run
      (sampleIndex .exclusive, loadedWorkspace Tree.sampleContents refusingFourth) fun r σ =>
      (∃ e, r = .error e) ∧ (∃ b ∈ (σ.2.cache 0).held, b.pos = ⟨1024⟩ ∧ b.dirty = true) ∧
        σ.1 = sampleIndex .exclusive ∧ (sampleIndex .exclusive).Keeps Tree.samplePlan σ.2 := by
  have hrun : (match (Call.delete [0x43] false).run
      (sampleIndex .exclusive, loadedWorkspace Tree.sampleContents refusingFourth) with
    | .error _ σ => (σ.2.cache 0).held.any fun b => b.pos == ⟨1024⟩ && b.dirty
    | .ok _ _ => false) = true := by decide +kernel
  have hkeeps : (sampleIndex .exclusive).Keeps _ (loadedWorkspace _ refusingFourth) := keeps_sample
  have hflushable : ((loadedWorkspace Tree.sampleContents refusingFourth).below 0).Flushable :=
    flushable_loaded (by decide)
  have htakes : (Store.ofMemory 0 none).Takes
    (loadedWorkspace Tree.sampleContents refusingFourth).disk :=
    takes_loaded fun _ => rfl
  have hunlock : ∀ e, ¬(Store.ofMemory 0 none).Refuses
      (loadedWorkspace Tree.sampleContents refusingFourth).disk .unlock e := fun _ =>
    not_refuses_loaded fun _ => rfl
  generalize loadedWorkspace Tree.sampleContents refusingFourth = w at *
  have hkept := Call.failed_keeps (.delete [0x43] false) hkeeps hflushable (fun _ => htakes) hunlock
  unfold Ends
  cases hx : (Call.delete [0x43] false).run (sampleIndex .exclusive, w) with
  | ok answer σ =>
    rw [hx] at hrun
    cases hrun
  | error e σ =>
    rw [hx] at hrun
    obtain ⟨hix, -, hkept, -⟩ := hkept.of_error hx e rfl
    obtain ⟨b, hb, hdirty⟩ := List.any_eq_true.mp hrun
    exact ⟨⟨e, rfl⟩, ⟨b, hb, by simpa using hdirty⟩, hix, hkept⟩

/-- A call that answers has done what it answers. One that fails while writes go through has done
nothing, unless it could not give its lock back: then it has done all but set the record cell, and
only a move has moved the cursor. -/
theorem Call.run_agrees (call : Call) (h : ix.Keeps p w)
    (hflushable : (w.below ix.cache).Flushable)
    (htakes : ix.mode.writable = true → ix.store.Takes w.disk) :
    Ends call.run (ix, w) fun r σ =>
      (∀ answer, r = .ok answer → ∃ p', σ.1.Keeps p' σ.2 ∧
        call.Does ix (w.cell ix.cell) p answer σ.1.cursor (σ.2.cell ix.cell) p') ∧
      ∀ e, r = .error e → σ.2.cell ix.cell = w.cell ix.cell ∧
        (σ.1 = ix ∧ ix.Keeps p σ.2 ∨
          ix.store.Refuses w.disk .unlock e ∧ ∃ answer c record p', σ.1.Keeps p' σ.2 ∧
            call.Does ix (w.cell ix.cell) p answer c record p' ∧
            σ.1 = { ix with cursor := if call.moves then c else ix.cursor }) := by
  refine (call.run_secured h hflushable htakes).mono ?_
  rintro r σ ⟨hsecured, -⟩
  cases hsecured with
  | done hdoes hrecord hkeeps =>
    refine ⟨fun answer ha => ?_, nofun⟩
    cases ha
    exact ⟨_, hkeeps, by rw [hrecord]; exact hdoes⟩
  | undone _ hrecord hkeeps => exact ⟨nofun, fun _ _ => ⟨hrecord, .inl ⟨rfl, hkeeps⟩⟩⟩
  | locked hdoes _ hrefused hrecord hkeeps =>
    refine ⟨nofun, fun e he => ⟨hrecord, .inr ?_⟩⟩
    cases he
    exact ⟨hrefused, _, _, _, _, hkeeps, hdoes, rfl⟩

/-- Where the lock cannot be given back an insertion fails, and the entry is there. -/
theorem run_agrees_small : ∃ e σ, (Call.insert [0x41]).run
      (smallIndex 0 .shared, smallWorkspace (refusing .unlock)) = .error e σ ∧
    ∃ p', σ.1.Keeps p' σ.2 ∧ p'.entries = [⟨[0x41], 7⟩] := by
  -- the call is evaluated: it fails, and the header block tells a root
  have hrun : (match (Call.insert [0x41]).run
      (smallIndex 0 .shared, smallWorkspace (refusing .unlock)) with
    | .error _ σ => decide (((smallIndex 0 .shared).mount.pointers .modern
        (σ.2.below 0)).root ≠ .null)
    | .ok _ _ => false) = true := by decide +kernel
  have hkeeps : (smallIndex 0 .shared).Keeps _ (smallWorkspace (refusing .unlock)) :=
    keeps_small (by decide)
  have hflushable : ((smallWorkspace (refusing .unlock)).below 0).Flushable :=
    flushable_loaded (by decide)
  have htakes : (Store.ofMemory 0 none).Takes (smallWorkspace (refusing .unlock)).disk :=
    takes_loaded fun _ => rfl
  have hcell : (smallWorkspace (refusing .unlock)).cell 0 = 7 := rfl
  generalize smallWorkspace (refusing .unlock) = w at *
  cases hx : (Call.insert [0x41]).run (smallIndex 0 .shared, w) with
  | ok answer σ =>
    rw [hx] at hrun
    cases hrun
  | error e σ =>
    rw [hx] at hrun
    have hagrees := Call.run_agrees (.insert [0x41]) hkeeps hflushable fun _ => htakes
    obtain ⟨-, ⟨-, hkeeps⟩ | ⟨-, answer, c, record, p', hkeeps, hdoes, -⟩⟩ :=
      (hagrees.of_error hx).2 e rfl
    · exact absurd (hkeeps.root_eq_null_iff.mpr rfl) (of_decide_eq_true hrun)
    · refine ⟨e, σ, rfl, p', hkeeps, ?_⟩
      have hcourse : (Call.insert [0x41]).course (smallIndex 0 .shared) 7 =
        .asks (.insert Tree.small ⟨[0x41], 7⟩) := rfl
      rw [show w.cell (smallIndex 0 .shared).cell = 7 from hcell] at hdoes
      cases hdoes with
      | decided h =>
        rw [hcourse] at h
        cases h
      | asks h heffect =>
        rw [hcourse] at h
        cases h
        exact (Tree.Inserted.of_entries_eq_nil heffect rfl).2

end Failures

end PagedIndex
