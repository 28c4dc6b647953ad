import PagedIndex.Proofs.Index.Turns
import PagedIndex.Proofs.Session.Shown

/-!
# Handles that look afresh

A handle in one of the shared modes keeps no blocks between its calls, so that each of its calls
looks at what is in the store by then. A handle that takes the lock keeps none whatever comes of its
calls, but for changes that the store does not take. One that does not may keep blocks of a call
that fails.

Nothing is assumed of the blocks of the files, and anything may be refused.

## Main definitions

* `Visit`, `HandleGroup` — calls of several handles, and the handles with their workspace.
* `Index.Cleared` — nothing is cached of a file but changes that were not taken.
* `HandleGroup.Looks` — what a visit looks at.

## Main statements

* `HandleGroup.Visited.visit`, `HandleGroup.Visited.visits` — what one visit, and any number of
  them, leave.
* `HandleGroup.Registered.looks_afresh` — all that handles look at is read during the call.
-/

namespace PagedIndex

/-- What is asked of one of several handles: a call, or that all is written back. -/
inductive Visit (ι : Type) where
  | call (turn : Turn ι)
  | flush (handle : ι)

/-- Handles with the workspace that they share. For each is told whether its last call that came to
touch a block went well. -/
structure HandleGroup (ι : Type) where
  handles : ι → Index
  workspace : Workspace
  fine : ι → Bool

def Course.touches : Course → Bool
  | decided _ => false
  | asks _ => true

namespace Visit

variable {ι : Type}

def handle : Visit ι → ι
  | call turn => turn.handle
  | flush i => i

/-- The workspace before a visit, with the record position in the cell. -/
def enter (g : HandleGroup ι) : Visit ι → Workspace
  | call turn =>
    let cell := (g.handles turn.handle).cell
    g.workspace.setCell cell (turn.record.getD (g.workspace.cell cell))
  | flush _ => g.workspace

def run : Visit ι → IndexM (Option Answer)
  | call turn => return some (← turn.call.run)
  | flush _ => do
    Index.flush
    return none

def touches (ix : Index) (w : Workspace) : Visit ι → Bool
  | call turn => (turn.call.course ix (w.cell ix.cell)).touches
  | flush _ => true

/-- What a visit comes to. The predicate is true of its program and of the end of its session. -/
inductive Made (P : (α : Type) → EndMode → Program α → Except Error (α × Except Error Unit) →
    Buffered → Prop) (ix : Index) (w : Workspace) :
    Visit ι → Except Error (Option Answer) → Index × Workspace → Prop
  | decided {turn : Turn ι} {r : Except Error Answer}
      (hcourse : turn.call.course ix (w.cell ix.cell) = .decided r) :
      Made P ix w (.call turn) (r.map some) (ix, w)
  | asked {turn : Turn ι} {q : Request} {o : Except Error (q.α × Except Error Unit)} {s : Buffered}
      (hcourse : turn.call.course ix (w.cell ix.cell) = .asks q)
      (h : P q.α ix.mode.endMode q.program o s) :
      Made P ix w (.call turn) ((q.outcome o).map some) (q.after ix w o s)
  | flushed {i : ι} {r : Except Error (Option Answer)} {o : Except Error (Unit × Except Error Unit)}
      {s : Buffered} {d : Disk} (h : P Unit .flush (.done ()) o s) (hsync : s.disk.Reaches d)
      (hok : ∀ a, r = .ok a → o = .ok ((), .ok ())) :
      Made P ix w (.flush i) r (ix, w.withBelow ix.cache ⟨s.cache, d⟩)

theorem Made.mono {P P' : (α : Type) → EndMode → Program α → Except Error (α × Except Error Unit) →
      Buffered → Prop} {ix : Index} {w : Workspace} {visit : Visit ι}
    {r : Except Error (Option Answer)} {σ : Index × Workspace} (h : visit.Made P ix w r σ)
    (hP : ∀ α mode program o s, P α mode program o s → P' α mode program o s) :
    visit.Made P' ix w r σ := by
  cases h with
  | decided hcourse => exact .decided hcourse
  | asked hcourse h => exact .asked hcourse (hP _ _ _ _ _ h)
  | flushed h hsync hok => exact .flushed (hP _ _ _ _ _ h) hsync hok

end Visit

/-! ## One visit -/

/-- A file that is taken up by the cache of its handle. -/
structure Index.Registered (ix : Index) (w : Workspace) : Prop where
  cache : ix.cache < w.caches.size
  sound : (w.below ix.cache).cache.Sound none
  store : (w.below ix.cache).cache.store? ix.file = some ix.store

section Visit

variable {ι : Type} {ix : Index} {w : Workspace} {α : Type}

/-- What a call comes to whose session begins in a workspace. -/
abbrev Index.Transacted (ix : Index) (w : Workspace) (α : Type) (mode : EndMode)
    (program : Program α) (o : Except Error (α × Except Error Unit)) (s : Buffered) : Prop :=
  Session.Transacted ix.mount ix.tree.layout.format mode ix.mode.locked program
    (w.below ix.cache) o s

theorem Index.Registered.transact (h : ix.Registered w) (mode : EndMode) (program : Program α) :
    Ends (Session.transact ix.file ix.tree.layout ix.mode.locked mode program) (w.below ix.cache)
      (ix.Transacted w α mode program) :=
  Session.transact_steps (m := ix.mount) ix.mode.locked mode program rfl h.sound h.store

/-- To make sure of what was written is an access to the store. -/
theorem Store.sync_reaches (store : Store) (d : Disk) :
    Ends store.sync d fun _ d' => d.Reaches d' := store.ask_reaches d 0 .sync 0

/-- A visit is one call on the cache, whatever is refused and whatever the blocks of the file
hold. -/
theorem Visit.made (visit : Visit ι) (h : ix.Registered w) :
    Ends visit.run (ix, w) (visit.Made (ix.Transacted w) ix w) := by
  cases visit with
  | call turn =>
    refine Ends.bind (P := fun r σ => (Visit.call turn).Made (ix.Transacted w) ix w (r.map some) σ)
      ?_ (fun e σ h => h) fun a σ h => h
    refine Call.run_ends ?_
    cases hcourse : turn.call.course ix (w.cell ix.cell) with
    | decided r => exact .decided hcourse
    | asks q => exact Ends.mono (h.transact ix.mode.endMode q.program) fun o s hs =>
      Made.asked hcourse hs
  | flush i =>
    simp only [run, Index.flush, bind_assoc]
    refine Ends.bind (Index.call_ends (Q := fun o σ => ∃ s, σ = (ix, w.withBelow ix.cache s) ∧
      ix.Transacted w Unit .flush (.done ()) o s) ((h.transact .flush _).mono
        fun o s hs => ⟨s, rfl, hs⟩)) ?_ ?_
    · rintro e _ ⟨s, rfl, hs⟩
      exact .flushed hs .refl nofun
    · rintro ⟨⟨⟩, ended⟩ _ ⟨s, rfl, hs⟩
      cases ended with
      | error e => exact .flushed hs .refl nofun
      | ok _ =>
        have hsync := ix.store.sync_reaches s.disk
        show Ends (Index.onWorkspace (Workspace.onDisk ix.store.sync) >>= fun _ => pure none)
          (ix, w.withBelow ix.cache s) _
        unfold Ends at hsync ⊢
        simp only [bind, EStateM.bind, Index.onWorkspace, Workspace.onDisk, Workspace.withBelow]
        cases hx : ix.store.sync s.disk <;> simp only [hx] at hsync ⊢
        · exact .flushed hs hsync fun _ _ => rfl
        · exact .flushed hs hsync nofun

end Visit

/-! ## Handles that keep no blocks -/

/-- Nothing is cached of a file but changes that its store did not take, of a handle that takes the
lock. -/
def Index.Cleared (ix : Index) (d : Disk) (w : Workspace) : Prop :=
  ∀ i b, (w.below ix.cache).cache.buffer? i = some b → b.file = ix.file →
    ix.mode = .shared ∧ b.Unwritten ix.store d w.disk

section Leaves

variable {ι : Type} {ix : Index} {w w' : Workspace} {σ : Index × Workspace} {d : Disk}
  {s : Buffered} {visit : Visit ι} {r : Except Error (Option Answer)}

/-- What a visit leaves of the workspace: other caches are as they were, and in its own no blocks
have come in but those of its file. -/
structure Index.Leaves (ix : Index) (w w' : Workspace) : Prop where
  size : w'.caches.size = w.caches.size
  others : ∀ id, id ≠ ix.cache → w'.cache id = w.cache id
  sound : (w'.below ix.cache).cache.Sound none
  store : ∀ f, (w'.below ix.cache).cache.store? f = (w.below ix.cache).cache.store? f
  reaches : w.disk.Reaches w'.disk
  buffers : ∀ i b, (w'.below ix.cache).cache.buffer? i = some b →
    (w.below ix.cache).cache.buffer? i = some b ∨ b.file = ix.file

theorem Index.Registered.leaves (h : ix.Registered w)
    (hsteps : Cache.Steps ix.mount (fun _ => True) (fun _ _ => True) (w.below ix.cache) s)
    (hreach : s.disk.Reaches d) : ix.Leaves w (w.withBelow ix.cache ⟨s.cache, d⟩) := by
  have hbelow := Workspace.below_withBelow (s := ⟨s.cache, d⟩) h.cache
  refine ⟨Array.size_setIfInBounds .., fun id hid => ?_, ?_, fun f => ?_, ?_, fun i b hb => ?_⟩
  · exact congrArg Buffered.cache (Workspace.below_withBelow_ne (w := w) (s := ⟨s.cache, d⟩) hid)
  · rw [hbelow]
    exact hsteps.sound h.sound h.store
  · rw [hbelow]
    exact hsteps.store f
  · exact (Cache.Through.reaches hsteps).trans hreach
  · rw [hbelow] at hb
    exact (hsteps.buffers hb).imp_right And.left

theorem Visit.Made.leaves (h : ix.Registered w) (hmade : visit.Made (ix.Transacted w) ix w r σ) :
    σ.1 = { ix with cursor := σ.1.cursor } ∧ ix.Leaves w σ.2 := by
  cases hmade with
  | decided => exact ⟨rfl, rfl, fun _ _ => rfl, h.sound, fun _ => rfl, .refl, fun _ _ hb => .inl hb⟩
  | @asked turn q o s _ hs =>
    have hleaves := h.leaves hs.steps .refl
    exact ⟨rfl, hleaves.size, hleaves.others, hleaves.sound, hleaves.store, hleaves.reaches,
      hleaves.buffers⟩
  | flushed hs hsync => exact ⟨rfl, h.leaves hs.steps hsync⟩

theorem Index.Leaves.registered (h : ix.Registered w) (hleaves : ix.Leaves w w') : ix.Registered w' :=
  ⟨hleaves.size ▸ h.cache, hleaves.sound, (hleaves.store _).trans h.store⟩

/-- The handles of other files are where they were. -/
theorem Index.Leaves.registered_ne {other : Index} (h : other.Registered w) (hleaves : ix.Leaves w w') :
    other.Registered w' := by
  by_cases hcache : other.cache = ix.cache
  · refine ⟨hleaves.size ▸ h.cache, ?_, ?_⟩
    · rw [hcache]
      exact hleaves.sound
    · rw [hcache, hleaves.store, ← hcache]
      exact h.store
  · have hsame : (w'.below other.cache).cache = (w.below other.cache).cache :=
      hleaves.others _ hcache
    refine ⟨hleaves.size ▸ h.cache, ?_, ?_⟩ <;> rw [hsame]
    · exact h.sound
    · exact h.store

/-- Nothing comes into the cache of a handle of another file. -/
theorem Index.Leaves.cleared_ne {other : Index} (h : other.Cleared d w) (hleaves : ix.Leaves w w')
    (hfiles : other.cache = ix.cache → other.file ≠ ix.file) : other.Cleared d w' := by
  intro i b hb hown
  have hold : (w.below other.cache).cache.buffer? i = some b := by
    by_cases hcache : other.cache = ix.cache
    · rw [hcache] at hb ⊢
      refine (hleaves.buffers i b hb).resolve_right fun hfile => ?_
      exact hfiles hcache (hown.symm.trans hfile)
    · rwa [show (w'.below other.cache).cache = (w.below other.cache).cache from
        hleaves.others _ hcache] at hb
  obtain ⟨hmode, hunwritten⟩ := h i b hold hown
  exact ⟨hmode, hunwritten.mono .refl hleaves.reaches⟩

/-- A session that takes the lock, or one that only reads and ends well, keeps no blocks. -/
theorem Index.Transacted.cleared {α : Type} {mode : EndMode} {program : Program α}
    {o : Except Error (α × Except Error Unit)} (h : ix.Transacted w α mode program o s)
    (hix : ix.cache < w.caches.size) (hd : d.Reaches w.disk) (hmode : mode = .flush)
    {d' : Disk} (hreach : s.disk.Reaches d')
    (hbefore : ix.mode = .shared → ix.Cleared d w)
    (hsure : ix.mode = .shared ∨ ∃ a, o = .ok (a, .ok ())) :
    ix.Cleared d (w.withBelow ix.cache ⟨s.cache, d'⟩) := by
  intro i b hb hown
  rw [Workspace.below_withBelow hix] at hb
  rcases hsure with hshared | ⟨a, rfl⟩
  · refine ⟨hshared, ?_⟩
    have hreached : w.disk.Reaches s.disk := Cache.Through.reaches h.steps
    rcases h.left hmode (by rw [hshared]; rfl) i b hb hown with hold | hunwritten
    · exact (hbefore hshared i b hold hown).2.mono .refl (hreached.trans hreach)
    · exact hunwritten.mono hd hreach
  · exact absurd hown (h.idle hmode a rfl i b hb)

/-- So does a visit. -/
theorem Visit.Made.cleared (hmade : visit.Made (ix.Transacted w) ix w r σ)
    (hix : ix.cache < w.caches.size) (hd : d.Reaches w.disk)
    (hshared : ix.mode = .shared → ix.Cleared d w)
    (huntouched : visit.touches ix w = false → ix.Cleared d w)
    (hmode : ix.mode = .shared ∨ ix.mode = .readOnly ∧
      (visit.touches ix w = true → r.toBool = true)) : ix.Cleared d σ.2 := by
  have hflush : ix.mode.endMode = .flush := by
    rcases hmode with hmode | ⟨hmode, -⟩ <;> rw [hmode] <;> rfl
  cases hmade with
  | decided hcourse => exact huntouched (by simp [touches, hcourse, Course.touches])
  | @asked turn q o s hcourse hs =>
    refine hs.cleared hix hd hflush .refl hshared (hmode.imp_right fun ⟨_, hok⟩ => ?_)
    have hok := hok (by simp [touches, hcourse, Course.touches])
    match o, hok with
    | .ok (a, .ok ()), _ => exact ⟨a, rfl⟩
  | flushed hs hsync hok =>
    refine hs.cleared hix hd rfl hsync hshared (hmode.imp_right fun ⟨_, hfine⟩ => ?_)
    cases r with
    | ok a => exact ⟨(), hok a rfl⟩
    | error e => cases hfine rfl

end Leaves

namespace HandleGroup

variable {ι : Type} [DecidableEq ι]

def visit (g : HandleGroup ι) (visit : Visit ι) : HandleGroup ι :=
  let ix := g.handles visit.handle
  let (result, ix', w) := ending visit.run (ix, visit.enter g)
  { handles := fun j => if j = visit.handle then ix' else g.handles j
    workspace := w
    fine := fun j =>
      if j = visit.handle ∧ visit.touches ix (visit.enter g) then result.toBool else g.fine j }

def visits (g : HandleGroup ι) (visits : List (Visit ι)) : HandleGroup ι := visits.foldl visit g

/-- Whether a handle keeps no blocks: it takes the lock, or it only reads and no call has failed
since it last kept none. -/
def Trusted (g : HandleGroup ι) (i : ι) : Prop :=
  (g.handles i).mode = .shared ∨ (g.handles i).mode = .readOnly ∧ g.fine i = true

/-- Handles with files of their own in their caches. -/
structure Registered (g : HandleGroup ι) : Prop where
  registered : ∀ i, (g.handles i).Registered g.workspace
  files : ∀ i j, i ≠ j → (g.handles i).cache = (g.handles j).cache →
    (g.handles i).file ≠ (g.handles j).file

/-- Handles that have been visited since the disk was as given. -/
structure Visited (d : Disk) (g : HandleGroup ι) : Prop extends g.Registered where
  reaches : d.Reaches g.workspace.disk
  cleared : ∀ i, g.Trusted i → (g.handles i).Cleared d g.workspace

variable {g : HandleGroup ι} {d : Disk}

omit [DecidableEq ι] in
/-- A record position in a cell is nothing to the disk and the caches. -/
theorem enter_eq (g : HandleGroup ι) (visit : Visit ι) : (visit.enter g).disk = g.workspace.disk ∧
    (visit.enter g).caches = g.workspace.caches := by
  cases visit <;> exact ⟨rfl, rfl⟩

omit [DecidableEq ι] in
theorem registered_enter {ix : Index} (visit : Visit ι) (h : ix.Registered g.workspace) :
    ix.Registered (visit.enter g) := by
  cases visit <;> exact ⟨h.cache, h.sound, h.store⟩

omit [DecidableEq ι] in
theorem cleared_enter {ix : Index} (visit : Visit ι) (h : ix.Cleared d g.workspace) :
    ix.Cleared d (visit.enter g) := by
  cases visit <;> exact h

/-- What a visit makes of handles. -/
theorem visit_ends (visit : Visit ι) {Q : Except Error (Option Answer) → Index × Workspace → Prop}
    (h : Ends visit.run (g.handles visit.handle, visit.enter g) Q) :
    ∃ r ix w, Q r (ix, w) ∧ g.visit visit =
      ⟨fun j => if j = visit.handle then ix else g.handles j, w,
        fun j => if j = visit.handle ∧ visit.touches (g.handles visit.handle) (visit.enter g) then
          r.toBool else g.fine j⟩ :=
  ⟨_, _, _, h.ending, rfl⟩

/-- A visit leaves nothing cached of the file of its handle, if that one keeps no blocks, and
nothing new of any other. -/
theorem Visited.visit (h : g.Visited d) (visit : Visit ι) : (g.visit visit).Visited d ∧
    ∀ i, ((g.visit visit).handles i).mode = (g.handles i).mode := by
  have hregistered := registered_enter visit (h.registered visit.handle)
  obtain ⟨r, ix, w, hmade, hg⟩ := visit_ends visit (visit.made hregistered)
  obtain ⟨hsame, hleaves⟩ := hmade.leaves hregistered
  have hreach : d.Reaches (visit.enter g).disk := by
    rw [(enter_eq g visit).1]
    exact h.reaches
  have hhandle : ∀ j, (g.visit visit).handles j =
      { g.handles j with cursor := ((g.visit visit).handles j).cursor } := by
    intro j
    rw [hg]
    dsimp only
    split
    · next hj =>
      rw [hj]
      exact hsame
    · rfl
  have hmode : ∀ j, ((g.visit visit).handles j).mode = (g.handles j).mode := by
    intro j
    rw [hhandle j]
  refine ⟨⟨⟨fun j => ?_, fun i j hij hcache => ?_⟩, ?_, fun j htrusted => ?_⟩, hmode⟩
  · rw [hhandle j]
    have hother := hleaves.registered_ne (registered_enter visit (h.registered j))
    rw [hg]
    exact ⟨hother.cache, hother.sound, hother.store⟩
  · rw [hhandle i, hhandle j] at hcache ⊢
    exact h.files i j hij hcache
  · rw [hg]
    exact hreach.trans hleaves.reaches
  · have hbefore : g.Trusted j → (g.handles j).Cleared d (visit.enter g) := fun hj =>
      cleared_enter visit (h.cleared j hj)
    have hcleared : (g.handles j).Cleared d w := by
      unfold Trusted at htrusted
      rw [hmode j, hg] at htrusted
      by_cases hj : j = visit.handle
      · subst hj
        refine hmade.cleared hregistered.cache hreach (fun hshared => hbefore (.inl hshared))
          (fun hnot => hbefore ?_) ?_
        · simpa [Trusted, hnot] using htrusted
        · refine htrusted.imp_right fun ⟨hread, hfine⟩ => ⟨hread, fun htouches => ?_⟩
          simpa [htouches] using hfine
      · refine hleaves.cleared_ne (hbefore ?_) fun hcache => h.files j visit.handle hj hcache
        simpa [Trusted, hj] using htrusted
    rw [hhandle j, hg]
    exact hcleared

/-- So do any number of visits. -/
theorem Visited.visits (h : g.Visited d) (visits : List (Visit ι)) : (g.visits visits).Visited d ∧
    ∀ i, ((g.visits visits).handles i).mode = (g.handles i).mode := by
  induction visits generalizing g with
  | nil => exact ⟨h, fun _ => rfl⟩
  | cons visit rest ih =>
    obtain ⟨hvisited, hmode⟩ := h.visit visit
    obtain ⟨hrest, hmode'⟩ := ih hvisited
    exact ⟨hrest, fun i => (hmode' i).trans (hmode i)⟩

/-- A visit that looks at images that are read while it is made, and those that it makes itself. -/
structure Looks (g : HandleGroup ι) (visit : Visit ι) : Prop where
  ends : Ends visit.run (g.handles visit.handle, visit.enter g) <|
    visit.Made (fun _ _ program o s => Session.Afresh (g.handles visit.handle).mount
      (g.handles visit.handle).tree.layout.format
      ((visit.enter g).below (g.handles visit.handle).cache) program (o.map Prod.fst) s)
    (g.handles visit.handle) (visit.enter g)

omit [DecidableEq ι] in
theorem Visited.looks (h : g.Visited d) (visit : Visit ι) (htrusted : g.Trusted visit.handle) :
    g.Looks visit := by
  have hcleared := cleared_enter visit (h.cleared _ htrusted)
  refine ⟨(visit.made (registered_enter visit (h.registered visit.handle))).mono fun r σ hmade => ?_⟩
  refine hmade.mono fun α mode program o s hs => hs.shown ?_
  rcases htrusted with hshared | ⟨hread, -⟩
  · exact .inl (by rw [hshared]; rfl)
  · refine .inr fun i b hb hown => ?_
    obtain ⟨hshared, -⟩ := hcleared i b hb hown
    rw [hread] at hshared
    cases hshared

/-- Let handles of the shared modes begin with nothing in their caches. Then those that take the
lock keep nothing between their calls but changes that their store has not taken since, whatever
comes of the calls, and look afresh in every call. So do those that only read, if they have not
failed since they last kept nothing. -/
theorem Registered.looks_afresh (h : g.Registered)
    (hidle : ∀ i, (g.handles i).mode.endMode = .flush →
      (g.workspace.below (g.handles i).cache).Idle (g.handles i).file)
    (visits : List (Visit ι)) (i : ι)
    (hmode : (g.handles i).mode = .shared ∨
      (g.handles i).mode = .readOnly ∧ (g.visits visits).fine i = true) :
    ((g.visits visits).handles i).Cleared g.workspace.disk (g.visits visits).workspace ∧
      ∀ visit, visit.handle = i → (g.visits visits).Looks visit := by
  have hbegin : g.Visited g.workspace.disk := by
    refine ⟨h, .refl, fun i htrusted j b hb hown => absurd hown (hidle i ?_ j b hb)⟩
    rcases htrusted with hmode | ⟨hmode, -⟩ <;> rw [hmode] <;> rfl
  obtain ⟨hvisited, hsame⟩ := hbegin.visits visits
  have htrusted : (g.visits visits).Trusted i := by
    unfold Trusted
    rw [hsame i]
    exact hmode
  refine ⟨hvisited.cleared i htrusted, ?_⟩
  rintro visit rfl
  exact hvisited.looks visit htrusted

end HandleGroup

/-- Two handles on a memory area of one block, of which the first one only reads. -/
theorem registered_small (refusal : Access → Nat → Option IoCause) :
    HandleGroup.Registered ⟨fun i : Fin 2 => smallIndex i (if i = 0 then .readOnly else .shared),
      smallWorkspace refusal, fun _ => true⟩ := by
  refine ⟨fun i => ?_, fun i j hne heq => absurd (Fin.ext heq) hne⟩
  have hfinds := @finds_small i refusal (if i = 0 then .readOnly else .shared) i.isLt
  exact ⟨hfinds.cache, hfinds.blocksAs.intact.sound, hfinds.blocksAs.intact.store⟩

/-- A handle verifies the file, and another one inserts an entry, at first in vain. Then both look
afresh. -/
theorem looks_afresh_small :
    let g : HandleGroup (Fin 2) := ⟨fun i => smallIndex i (if i = 0 then .readOnly else .shared),
      smallWorkspace refusingOnce, fun _ => true⟩
    let g' := g.visits [.call ⟨0, none, .verify⟩, .call ⟨1, none, .insert [0x41]⟩,
      .call ⟨1, none, .insert [0x41]⟩, .flush 1]
    ∀ i, (g'.handles i).Cleared g.workspace.disk g'.workspace ∧
      g'.Looks (.call ⟨i, none, .find [0x41]⟩) := by
  intro g g' i
  have hregistered : g.Registered := registered_small refusingOnce
  have hidle : ∀ i, (g.handles i).mode.endMode = .flush →
      (g.workspace.below (g.handles i).cache).Idle (g.handles i).file :=
    fun i _ => idle_loaded i.isLt _
  have hmode : (g.handles i).mode = .shared ∨
      (g.handles i).mode = .readOnly ∧ g'.fine i = true := by
    have hfine : g'.fine 0 = true := by decide +kernel
    obtain rfl | rfl : i = 0 ∨ i = 1 := by omega
    · exact .inr ⟨rfl, hfine⟩
    · exact .inl rfl
  unfold g' at *
  clear g'
  clear_value g
  obtain ⟨hcleared, hlooks⟩ := hregistered.looks_afresh hidle _ i hmode
  exact ⟨hcleared, hlooks _ rfl⟩

end PagedIndex
