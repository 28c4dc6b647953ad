import PagedIndex.Proofs.Cache.Motions

/-!
# What becomes of blocks

A cache reads blocks, keeps them in use, writes them back and drops them. Whatever stores refuse on
the way, every block of every open file is shown afterwards as before, and no change is lost: it is
held, or it was written. What is to be written back and is not, was refused by its store.

The one thing that may change is a block that was cut short. What is missing of it is not there when
it is read, and a missing part of a header counts as filled up; but once something behind it is
written, the store has zeros there. They are shown as soon as the block is not held any more, which
may be by an operation that writes nothing.

## Main definitions

* `Motion` — the operations that move blocks and change none; `Motion.Carries` — what they come to.
* `GridOperation` — all operations.
* `Grid.Reached` — the states that a cache over files with blocks apart comes to.

## Main statements

* `Grid.Reached.consistent` — in all these states images agree with stores.
* `Grid.Reached.carries_blocks` — from all of them, every motion carries all blocks.
* `Grid.shows_ne_of_cut` — a header that was cut short is not shown as before.
-/

namespace PagedIndex

/-! ## Operations -/

/-- An operation that changes no block. -/
inductive Motion where
  | get (file : FileId) (pos : BlockPos)
  | pin (i : Nat) (pinned : Bool)
  | purge
  | flush (file : FileId)

inductive GridOperation where
  | move (m : Motion)
  /-- A block is taken up without being read, and gets an image before anything else happens. -/
  | takeUp (file : FileId) (pos : BlockPos) (image : Bytes)
  | edit (i : Nat) (image : Bytes)
  | restore (file : FileId) (pos : BlockPos) (image : Bytes)
  | forget (file : FileId) (pos : BlockPos)
  | discard (file : FileId)
  | unregister (file : FileId)
  | takePending (file : FileId)
  | park (file : FileId) (e : Error)

namespace Cache

def takeUp (file : FileId) (pos : BlockPos) (image : Bytes) : CacheM Unit := do
  let i ← fetch file pos image.length false
  update (·.setImage i image)

end Cache

namespace Motion

def run (g : Grid) : Motion → CacheM Unit
  | get file pos => do let _ ← Cache.fetch file pos (g.size file) true
  | pin i pinned => Cache.update (·.setPinned i pinned)
  | purge => do let _ ← Cache.purge
  | flush file => Cache.release file .flush

/-- Only blocks of the grid are read. -/
def Fits (g : Grid) : Motion → Prop
  | get file pos => g.starts file pos
  | _ => True

/-- Whether an operation is to write the changes of a buffer back. -/
def Concerns : Motion → Buffer → Prop
  | purge, b => b.pinned = false
  | flush file, b => b.file = file
  | _, _ => False

/-- What an operation comes to: all blocks read on; the writes that were attempted are those of
changes, and what was refused is held; changes are held or were written; and if nothing was refused,
nothing is left of what was to be written back. -/
structure Carries (g : Grid) (m : Motion) (s : Buffered) (l : List Attempt) (t : Buffered) :
    Prop where
  stores : ∀ f, t.cache.store? f = s.cache.store? f
  blocks : ∀ f store p, s.cache.store? f = some store → g.starts f p →
    (g.mount f store).ReadsOn p s l t
  tries : s.disk.Tries l t.disk
  kept : s.Kept l t
  held : ∀ i b, s.cache.buffer? i = some b → b.dirty = true →
    (∃ pinned, t.cache.buffer? i = some { b with pinned := pinned }) ∨
      ∃ store, s.cache.store? b.file = some store ∧ b.attempt store true ∈ l
  left : (∀ a ∈ l, a.taken = true) → ∀ i b, t.cache.buffer? i = some b → ¬m.Concerns b

end Motion

namespace GridOperation

def run (g : Grid) : GridOperation → CacheM Unit
  | move m => m.run g
  | takeUp file pos image => Cache.takeUp file pos image
  | edit i image => Cache.update (·.setImage i image)
  | restore file pos image => Cache.restore file pos image
  | forget file pos => Cache.update (·.forget file pos)
  | discard file => Cache.release file .discard
  | unregister file => Cache.unregister file
  | takePending file => do let _ ← Cache.takePending file
  | park file e => Cache.update (·.park file e)

/-- Blocks are where and as long as the grid has them. -/
def Fits (g : Grid) (s : Buffered) : GridOperation → Prop
  | move m => m.Fits g
  | takeUp file pos image | restore file pos image =>
    g.starts file pos ∧ image.length = g.size file
  | edit i image => ∀ b, s.cache.buffer? i = some b → image.length = g.size b.file
  | _ => True

end GridOperation

/-- The states of a cache and the disk below it. Files come whose blocks lie apart from those of the
files that are there, and volumes without an open file may change in any way. -/
inductive Grid.Reached (g : Grid) : Buffered → Prop
  | new (buffers : Nat) {d : Disk} (htrim : ∀ id, (d.contents id).Trim) :
      Reached g ⟨Cache.new buffers, d⟩
  | register {s : Buffered} (hs : Reached g s) {store : Store}
      (hvolume : store.volume < s.disk.volumes.size)
      (hself : g.Apart s.cache.freshFile s.cache.freshFile)
      (hapart : ∀ f other, s.cache.store? f = some other → other.volume = store.volume →
        g.Apart s.cache.freshFile f) :
      Reached g ⟨(s.cache.register store).2, s.disk⟩
  | elsewhere {s : Buffered} (hs : Reached g s) {d : Disk}
      (hsize : s.disk.volumes.size ≤ d.volumes.size) (htrim : ∀ id, (d.contents id).Trim)
      (hcontents : ∀ f store, s.cache.store? f = some store →
        d.contents store.volume = s.disk.contents store.volume) :
      Reached g ⟨s.cache, d⟩
  | operation {s : Buffered} (hs : Reached g s) {op : GridOperation} (hop : op.Fits g s) :
      Reached g (ending (op.run g) s).2

/-! ## What stays true -/

section Consistent

variable {g : Grid} {s t : Buffered} {f : FileId} {store : Store} {p : BlockPos} {image : Bytes}
  {d : Disk} {i : Nat}

/-- Buffers are given up, and blocks get other images. -/
theorem Consistent.revise (hs : Consistent g s) (hsound : t.cache.Sound none)
    (hbuffers : ∀ i b, t.cache.buffer? i = some b →
      (∃ b', s.cache.buffer? i = some b' ∧ b'.file = b.file ∧ b'.pos = b.pos ∧
        b'.image = b.image ∧ b'.dirty = b.dirty) ∨
      b.dirty = true ∧ g.starts b.file b.pos ∧ b.image.length = g.size b.file)
    (hfiles : ∀ f store, t.cache.store? f = some store → s.cache.store? f = some store)
    (hsize : s.disk.volumes.size ≤ t.disk.volumes.size) (htrim : ∀ id, (t.disk.contents id).Trim)
    (hcontents : ∀ f store, t.cache.store? f = some store →
      t.disk.contents store.volume = s.disk.contents store.volume) : Consistent g t := by
  have hplaced : ∀ i b, t.cache.buffer? i = some b →
      g.starts b.file b.pos ∧ b.image.length = g.size b.file := by
    intro i b hb
    rcases hbuffers i b hb with ⟨b', hb', hfile, hpos, himage, -⟩ | ⟨-, hplaced⟩
    · rw [← hfile, ← hpos, ← himage]
      exact hs.placed i b' hb'
    · exact hplaced
  refine ⟨hsound.unique, fun i b hb => ?_, hplaced, fun f f' store store' hstore hstore' =>
    hs.apart f f' store store' (hfiles f store hstore) (hfiles f' store' hstore'),
    fun f store hstore => Nat.lt_of_lt_of_le (hs.volume_lt f store (hfiles f store hstore)) hsize,
    htrim, fun f store p hstore hp => ?_⟩
  · obtain ⟨r, hr⟩ := Option.isSome_iff_exists.mp (hsound.registered i b hb)
    exact ⟨r.store, congrArg (Option.map Registration.store) hr⟩
  rcases Mount.held_or_absent t (g.mount f store) p with ⟨i, b, hb, hfile, rfl⟩ | habsent
  · cases hdirty : b.dirty with
    | true => exact ⟨_, _, .changed hb hfile rfl hdirty ((hplaced i b hb).2.trans (congrArg _ hfile))⟩
    | false =>
      rcases hbuffers i b hb with ⟨b', hb', hfile', hpos', himage', hdirty'⟩ | ⟨hdirty', -⟩
      · obtain ⟨z, n, hhas⟩ := hs.has f store b.pos (hfiles f store hstore) hp
        obtain ⟨hn, himage, hzeros⟩ := hhas.of_clean hs hb' (hfile'.trans hfile) hpos'
          (hdirty'.trans hdirty)
        have hcontents' : t.disk.contents (g.mount f store).store.volume =
          s.disk.contents (g.mount f store).store.volume := hcontents f store hstore
        have hbytes : (g.mount f store).bytes t.disk b.pos = (g.mount f store).bytes s.disk b.pos :=
          Mount.bytes_congr hcontents'
        rw [← hbytes] at himage hzeros
        exact ⟨_, n, .loaded hb hfile rfl hdirty (Mount.extent_congr hcontents' ▸ hn)
          (himage'.symm.trans himage) hzeros⟩
      · rw [hdirty] at hdirty'
        cases hdirty'
  · exact ⟨_, _, .absent habsent (Mount.zeros_of_trim (htrim _))⟩

/-- Files and disk stay as they are. -/
theorem Consistent.reviseCache (hs : Consistent g s) {c : Cache} (hsound : c.Sound none)
    (hfiles : s.cache.SameFiles c) (hbuffers : ∀ i b, c.buffer? i = some b →
      (∃ b', s.cache.buffer? i = some b' ∧ b'.file = b.file ∧ b'.pos = b.pos ∧
        b'.image = b.image ∧ b'.dirty = b.dirty) ∨
      b.dirty = true ∧ g.starts b.file b.pos ∧ b.image.length = g.size b.file) :
    Consistent g ⟨c, s.disk⟩ :=
  hs.revise hsound hbuffers (fun f _ hstore => (hfiles f).symm.trans hstore)
    (Nat.le_refl _) hs.trim fun _ _ _ => rfl

/-- Volumes change that no open file has. -/
theorem Consistent.elsewhere (hs : Consistent g s) (hsound : s.cache.Sound none)
    (hsize : s.disk.volumes.size ≤ d.volumes.size) (htrim : ∀ id, (d.contents id).Trim)
    (hcontents : ∀ f store, s.cache.store? f = some store →
      d.contents store.volume = s.disk.contents store.volume) : Consistent g ⟨s.cache, d⟩ :=
  hs.revise hsound (fun _ b hb => .inl ⟨b, hb, rfl, rfl, rfl, rfl⟩) (fun _ _ => id) hsize htrim
    hcontents

theorem Consistent.setPinned (hs : Consistent g s) (hsound : s.cache.Sound none) (pinned : Bool) :
    Consistent g ⟨s.cache.setPinned i pinned, s.disk⟩ := by
  refine hs.reviseCache (hsound.setPinned pinned) (fun _ => rfl) fun j b hb => .inl ?_
  obtain ⟨b', hb', rfl⟩ := Session.setPinned_eq_some hb
  refine ⟨b', hb', ?_⟩
  split <;> exact ⟨rfl, rfl, rfl, rfl⟩

theorem Consistent.setImage (hs : Consistent g s) (hsound : s.cache.Sound none)
    (hlength : ∀ b, s.cache.buffer? i = some b → image.length = g.size b.file) :
    Consistent g ⟨s.cache.setImage i image, s.disk⟩ := by
  refine hs.reviseCache (hsound.setImage image) (fun _ => rfl) fun j b hb => ?_
  have hb := (Cache.buffer?_modifyBuffer _).symm.trans hb
  split at hb
  · obtain ⟨b', hb', rfl⟩ := Option.map_eq_some_iff.mp hb
    exact .inr ⟨rfl, (hs.placed i b' hb').1, hlength b' hb'⟩
  · exact .inl ⟨b, hb, rfl, rfl, rfl, rfl⟩

/-- A block that no buffer holds is written. -/
theorem Consistent.writeThrough (hs : Consistent g s) (hstore : s.cache.store? f = some store)
    (hp : g.starts f p) (hlength : image.length = g.size f)
    (habsent : ∀ i b, s.cache.buffer? i = some b → b.file = f → b.pos ≠ p)
    (hwrite : store.write p.offset image s.disk = .ok () d) : Consistent g ⟨s.cache, d⟩ := by
  have htrim := hs.trim_of_wrote hlength hstore hwrite
  have hfollows := ((Store.write_ends store s.disk p.offset image).of_ok hwrite).follows
  refine ⟨hs.unique, hs.stored, hs.placed, hs.apart, fun f store hstore => hfollows.size ▸
    hs.volume_lt f store hstore, htrim, fun f' store' p' hstore' hp' => ?_⟩
  by_cases hne : (f', p') = (f, p)
  · obtain ⟨rfl, rfl⟩ := Prod.mk.injEq .. ▸ hne
    exact ⟨_, _, .absent habsent (Mount.zeros_of_trim (htrim _))⟩
  · obtain ⟨z, n, hhas⟩ := hs.has f' store' p' hstore' hp'
    obtain ⟨hbytes, hextent⟩ := hs.bytes_of_wrote hp hlength hstore hwrite hstore' hp' hne
    obtain ⟨n', -, hhas'⟩ := hhas.kept (t := ⟨s.cache, d⟩) hbytes hextent (htrim _)
      fun _ _ _ _ => Iff.rfl
    exact ⟨z, n', hhas'⟩

/-- A block is taken up that is not read, to be given an image at once. -/
theorem Consistent.fill_ends (hs : Consistent g s) (hsound : s.cache.Sound none) (hp : g.starts f p)
    (hlength : image.length = g.size f) : Ends (Cache.fetch f p image.length false) s fun r t =>
      (∀ e, r = .error e → t.cache.Sound none ∧ Consistent g t ∧
        ∀ j b, t.cache.buffer? j = some b → b.file = f → b.pos ≠ p) ∧
      ∀ i, r = .ok i → (t.cache.setImage i image).Sound none ∧
        Consistent g ⟨t.cache.setImage i image, t.disk⟩ := by
  unfold Cache.fetch
  refine Ends.get_bind ?_
  split
  · next i hi =>
    obtain ⟨b, hb, hfile, -⟩ := hsound.lookup_eq_some_iff.mp hi
    have hsound' := (hsound.touch (i := i) (by rw [hb]; rfl)).count (s.cache.hits + 1) s.cache.misses
      s.cache.evictions s.cache.writes
    have hs' := hs.reviseCache hsound' (fun _ => rfl) fun _ b hb => .inl ⟨b, hb, rfl, rfl, rfl, rfl⟩
    refine Cache.update_bind_ends (Ends.pure ⟨nofun, fun j hj => ?_⟩)
    cases hj
    refine ⟨hsound'.setImage image, hs'.setImage hsound' fun b' hb' => ?_⟩
    obtain rfl : b = b' := Option.some.inj (hb.symm.trans hb')
    rw [hlength, hfile]
  · next hnone =>
    refine Cache.miss_shifts (g := g) hsound hnone (fun e t l hsound' hshifts _ habsent =>
      ⟨fun _ _ => ⟨hsound', hshifts.consistent hs, habsent⟩, nofun⟩)
      fun store i t l hstore hout hshifts _ _ habsent => ?_
    refine Ends.attempt_bind (P := fun r u => r = .ok (List.replicate image.length filler) ∧ u = t)
      (Ends.pure ⟨rfl, rfl⟩) ?_
    rintro r u ⟨rfl, rfl⟩
    refine Cache.update_bind_ends (Ends.pure ⟨nofun, fun j hj => ?_⟩)
    cases hj
    dsimp only
    rw [Cache.setImage_hook]
    have hsound' : (u.cache.hook i ⟨f, p, image, true, false⟩).Sound none :=
      hout.hook habsent (Cache.isSome_registration? hstore)
    refine ⟨hsound', (hshifts.consistent hs).reviseCache hsound' (fun _ => rfl) fun j b hb => ?_⟩
    rcases Cache.buffer?_hook_cases hb with ⟨-, rfl⟩ | ⟨-, hb⟩
    · exact .inr ⟨rfl, hp, hlength⟩
    · exact .inl ⟨b, hb, rfl, rfl, rfl, rfl⟩

/-- The changes of a file are lost. -/
theorem Consistent.discard_ends (hs : Consistent g s) (hsound : s.cache.Sound none) (f : FileId) :
    Ends (Cache.release f .discard) s fun _ t => t.cache.Sound none ∧ Consistent g t ∧ t.Idle f ∧
      t.disk = s.disk := by
  cases hstore : s.cache.store? f with
  | none =>
    -- of a file that is not open there are no blocks
    have hidle : s.Idle f := by
      rintro i b hb rfl
      obtain ⟨store, hstored⟩ := hs.stored i b hb
      rw [hstore] at hstored
      cases hstored
    unfold Cache.release
    refine Ends.get_bind (Ends.bind (P := fun _ t => t = s) (ends_of_eq_ok
      (Cache.releaseAmong_of_idle hidle _ _) rfl) ?_ ?_)
    · rintro e t rfl
      exact ⟨hsound, hs, hidle, rfl⟩
    · rintro o t rfl
      exact ends_settle ⟨hsound, hs, hidle, rfl⟩
  | some store =>
    refine ((Cache.release_discard_ends s f).and (Cache.release_steps (m := g.mount f store)
      (V := fun _ => False) (W := fun _ _ => False) hsound hstore .discard)).mono ?_
    rintro r ⟨c, d⟩ ⟨⟨-, hdisk, hidle, hstores⟩, hsteps, hback, -⟩
    cases hdisk
    have hsound' := hsteps.sound hsound hstore
    exact ⟨hsound', hs.reviseCache hsound' hstores fun i b hb =>
      .inl ⟨b, hback i b hb, rfl, rfl, rfl, rfl⟩, hidle, rfl⟩

theorem Consistent.dropFile (hs : Consistent g s) (hsound : s.cache.Sound none) (hidle : s.Idle f) :
    Consistent g ⟨s.cache.dropFile f, s.disk⟩ := by
  refine hs.revise (hsound.dropFile hidle) (fun i b hb => .inl ⟨b, hb, rfl, rfl, rfl, rfl⟩)
    (fun f' store hstore => ?_) (Nat.le_refl _) hs.trim fun _ _ _ => rfl
  by_cases hf : f' = f
  · rw [hf] at hstore
    dsimp only at hstore
    rw [Cache.store?, Cache.registration?_dropFile, if_pos rfl] at hstore
    cases hstore
  · exact (Cache.store?_dropFile hf).symm.trans hstore

/-- An image is put back. -/
theorem Consistent.restore_ends (hs : Consistent g s) (hsound : s.cache.Sound none) (hp : g.starts f p)
    (hlength : image.length = g.size f) : Ends (Cache.restore f p image) s fun _ t =>
      t.cache.Sound none ∧ Consistent g t := by
  unfold Cache.restore
  refine Ends.get_bind ?_
  split
  · next i hi =>
    refine Cache.update_ends ⟨hsound.setImage image, hs.setImage hsound fun b hb => ?_⟩
    rw [hlength, (Cache.eq_of_lookup hi b hb).1]
  · next hnone =>
    refine Ends.attempt_bind (hs.fill_ends hsound hp hlength) ?_
    rintro r t ⟨herror, hok⟩
    cases r with
    | ok i => exact Cache.update_ends (hok i rfl)
    | error e =>
      obtain ⟨hsound', hs', habsent⟩ := herror e rfl
      cases hstore : t.cache.store? f with
      | none =>
        refine Ends.bind (Cache.storeOf_unknown hstore) ?_ ?_
        · rintro e t ⟨-, rfl⟩
          exact ⟨hsound', hs'⟩
        · rintro a t ⟨⟨e, he⟩, -⟩
          cases he
      | some store =>
        refine Mount.storeOf_bind_ends hstore ?_
        refine (Cache.onDisk_ends (P := fun o d => ending (store.write p.offset image) t.disk = (o, d))
          (ends_ending.mono fun _ _ h => by rw [h.1, h.2])).mono ?_
        rintro r ⟨c, d⟩ ⟨hc, hwrite⟩
        cases hc
        cases r with
        | ok u => exact ⟨hsound', hs'.writeThrough hstore hp hlength habsent (eq_ok_of_ending hwrite)⟩
        | error e => exact ⟨hsound', hs'.elsewhere hsound'
            (Nat.le_of_eq ((Store.write_ends _ _ _ _).of_error
              (eq_error_of_ending hwrite)).follows.size.symm)
            (fun id => Disk.contents_of_refused (eq_error_of_ending hwrite) id ▸ hs'.trim id)
            fun _ _ _ => Disk.contents_of_refused (eq_error_of_ending hwrite) _⟩

/-- A file is taken up. -/
theorem Consistent.register (hs : Consistent g s) (hsound : s.cache.Sound none)
    (hvolume : store.volume < s.disk.volumes.size)
    (hself : g.Apart s.cache.freshFile s.cache.freshFile)
    (hapart : ∀ f other, s.cache.store? f = some other → other.volume = store.volume →
      g.Apart s.cache.freshFile f) : Consistent g ⟨(s.cache.register store).2, s.disk⟩ := by
  have hidle := Buffered.idle_freshFile hsound
  have hcases : ∀ {f other}, (s.cache.register store).2.store? f = some other →
      (f = s.cache.freshFile ∧ other = store) ∨ s.cache.store? f = some other := by
    intro f other hother
    by_cases hf : f = s.cache.freshFile
    · rw [hf, Cache.store?_register_self] at hother
      exact .inl ⟨hf, (Option.some.inj hother).symm⟩
    · exact .inr ((Cache.store?_register hf).symm.trans hother)
  refine ⟨hs.unique, fun i b hb => ?_, hs.placed, fun f f' other other' hf hf' hsame => ?_,
    fun f other hf => ?_, hs.trim, fun f other p hf hp => ?_⟩
  · rw [Cache.store?_register (hidle i b hb)]
    exact hs.stored i b hb
  · rcases hcases hf with ⟨rfl, rfl⟩ | hold
    · rcases hcases hf' with ⟨rfl, rfl⟩ | hold'
      · exact hself
      · exact hapart f' other' hold' hsame.symm
    · rcases hcases hf' with ⟨rfl, rfl⟩ | hold'
      · exact (hapart f other hold hsame).symm
      · exact hs.apart f f' other other' hold hold' hsame
  · rcases hcases hf with ⟨-, rfl⟩ | hf
    · exact hvolume
    · exact hs.volume_lt f other hf
  · rcases hcases hf with ⟨rfl, -⟩ | hf
    · exact ⟨_, _, .absent (fun i b hb hfile => absurd hfile (hidle i b hb))
        (Mount.zeros_of_trim (hs.trim _))⟩
    · obtain ⟨z, n, hhas⟩ := hs.has f other p hf hp
      obtain ⟨n', -, hhas'⟩ := hhas.kept (t := ⟨(s.cache.register store).2, s.disk⟩) rfl
        (Nat.le_refl _) (hs.trim _) fun _ _ _ _ => Iff.rfl
      exact ⟨z, n', hhas'⟩

theorem Consistent.new (g : Grid) (buffers : Nat) (htrim : ∀ id, (d.contents id).Trim) :
    Consistent g ⟨Cache.new buffers, d⟩ := by
  have hvacant : ∀ i b, (Cache.new buffers).buffer? i ≠ some b := by
    intro i b hb
    rw [Cache.buffer?_new] at hb
    cases hb
  exact ⟨fun i _ b _ hb => absurd hb (hvacant i b), fun i b hb => absurd hb (hvacant i b),
    fun i b hb => absurd hb (hvacant i b), fun _ _ _ _ => nofun, fun _ _ => nofun, htrim,
    fun _ _ _ => nofun⟩

end Consistent

/-! ## Motions -/

section Motions

variable {g : Grid} {s t : Buffered} {l : List Attempt} {P : Buffer → Prop}

theorem Cache.Swept.carries {m : Motion} (hs : Consistent g s) (hsound : s.cache.Sound none)
    (h : Cache.Swept g P (List.range s.cache.capacity) s l t)
    (hconcerns : ∀ b, m.Concerns b → P b) : m.Carries g s l t := by
  refine ⟨h.shifts.files, fun f store p hstore hp => h.shifts.readsOn hs hsound h.sound hstore hp,
    h.shifts.tries, fun a ha => ?_, fun i b hb hdirty => ?_, fun htaken i b hb hm => ?_⟩
  · obtain ⟨i, -, hkept⟩ := h.kept a ha
    exact ⟨i, hkept⟩
  · rcases h.shifts.dirty hb hdirty with hb | hwritten
    · exact .inl ⟨b.pinned, hb⟩
    · exact .inr hwritten
  · have hi := List.mem_range.mpr (Cache.lt_capacity_of_buffer? (h.back i b hb))
    obtain ⟨store, hmem⟩ := h.left i hi b hb (hconcerns b hm)
    cases htaken _ hmem

/-- Other pins make no other blocks. -/
theorem Buffered.exists_setPinned {i j : Nat} {b : Buffer} (pinned : Bool)
    (hb : s.cache.buffer? j = some b) :
    ∃ pinned', (s.cache.setPinned i pinned).buffer? j = some { b with pinned := pinned' } := by
  refine ⟨if j = i then pinned else b.pinned, ?_⟩
  rw [Session.buffer?_setPinned hb]
  split <;> rfl

/-- Pinning does nothing to blocks. -/
theorem Buffered.carries_pin (hsound : s.cache.Sound none) (i : Nat) (pinned : Bool) :
    (Motion.pin i pinned).Carries g s [] ⟨s.cache.setPinned i pinned, s.disk⟩ := by
  have hsound' : (s.cache.setPinned i pinned).Sound none := hsound.setPinned pinned
  refine ⟨fun _ => rfl, fun f store p _ _ => .inl ?_, .refl _,
    fun _ ha => absurd ha List.not_mem_nil, fun j b hb _ => .inl (Buffered.exists_setPinned pinned hb),
    fun _ _ _ _ => id⟩
  rcases Mount.held_or_absent s (g.mount f store) p with ⟨j, b, hb, hfile, hpos⟩ | habsent
  · obtain ⟨pinned', hb'⟩ := Buffered.exists_setPinned (i := i) pinned hb
    rw [Mount.shows_of_buffer hsound hb hfile hpos,
      Mount.shows_of_buffer (s := ⟨s.cache.setPinned i pinned, s.disk⟩) hsound' hb' hfile hpos]
  · rw [Mount.shows_of_absent hsound habsent, Mount.shows_of_absent
      (s := ⟨s.cache.setPinned i pinned, s.disk⟩) hsound' fun j b hb hfile hpos => ?_]
    obtain ⟨b', hb', rfl⟩ := Session.setPinned_eq_some hb
    refine habsent j b' hb' ?_ ?_
    · split at hfile <;> exact hfile
    · split at hpos <;> exact hpos

/-- A motion carries all blocks, and images go on to agree with stores. -/
theorem Consistent.motion_ends (hs : Consistent g s) (hsound : s.cache.Sound none) {m : Motion}
    (hm : m.Fits g) : Ends (m.run g) s fun _ t => t.cache.Sound none ∧ Consistent g t ∧
      ∃ l, m.Carries g s l t := by
  cases m with
  | get f p =>
    have hget : Ends (Cache.fetch f p (g.size f) true) s fun _ t => t.cache.Sound none ∧
        Consistent g t ∧ ∃ l, (Motion.get f p).Carries g s l t := by
      refine (Cache.fetch_shifts hsound hm).mono ?_
      rintro _ t ⟨hsound', l, hshifts, hkept⟩
      refine ⟨hsound', hshifts.consistent hs, l, hshifts.files,
        fun f store p hstore hp => hshifts.readsOn hs hsound hsound' hstore hp, hshifts.tries, hkept,
        fun i b hb hdirty => ?_, fun _ _ _ _ => id⟩
      exact (hshifts.dirty hb hdirty).imp_left fun hb => ⟨b.pinned, hb⟩
    exact Ends.bind hget (fun _ _ h => h) fun _ _ h => Ends.pure h
  | pin i pinned =>
    show Ends (Cache.update (·.setPinned i pinned)) s _
    exact Cache.update_ends ⟨hsound.setPinned pinned, hs.setPinned hsound pinned, [],
      Buffered.carries_pin hsound i pinned⟩
  | purge =>
    have hpurge : Ends Cache.purge s fun _ t => t.cache.Sound none ∧ Consistent g t ∧
        ∃ l, Motion.purge.Carries g s l t := by
      unfold Cache.purge
      refine Ends.get_bind ((Cache.purgeAmong_swept (g := g) hsound List.nodup_range).mono ?_)
      rintro _ t ⟨l, hswept⟩
      exact ⟨hswept.sound, hswept.shifts.consistent hs, l, hswept.carries hs hsound fun _ => id⟩
    exact Ends.bind hpurge (fun _ _ h => h) fun _ _ h => Ends.pure h
  | flush f =>
    have hflush : ∀ {t : Buffered},
      (∃ l, Cache.Swept g (·.file = f) (List.range s.cache.capacity) s l t) →
        t.cache.Sound none ∧ Consistent g t ∧ ∃ l, (Motion.flush f).Carries g s l t := by
      rintro t ⟨l, hswept⟩
      exact ⟨hswept.sound, hswept.shifts.consistent hs, l, hswept.carries hs hsound fun _ => id⟩
    show Ends (Cache.release f .flush) s _
    unfold Cache.release
    exact Ends.get_bind (Ends.bind (Cache.releaseAmong_swept hsound List.nodup_range)
      (fun _ _ h => hflush h) fun _ _ h => ends_settle (hflush h))

/-- Images agree with stores after every operation. -/
theorem Consistent.operation_ends (hs : Consistent g s) (hsound : s.cache.Sound none)
    {op : GridOperation}
    (hop : op.Fits g s) : Ends (op.run g) s fun _ t => t.cache.Sound none ∧ Consistent g t := by
  cases op with
  | move m => exact (hs.motion_ends hsound hop).mono fun _ _ h => ⟨h.1, h.2.1⟩
  | takeUp f p image =>
    refine Ends.bind (hs.fill_ends hsound hop.1 hop.2) ?_ ?_
    · rintro e t ⟨herror, -⟩
      exact ⟨(herror e rfl).1, (herror e rfl).2.1⟩
    · rintro i t ⟨-, hok⟩
      exact Cache.update_ends (hok i rfl)
  | edit i image =>
    show Ends (Cache.update (·.setImage i image)) s _
    exact Cache.update_ends ⟨hsound.setImage image, hs.setImage hsound hop⟩
  | restore f p image => exact hs.restore_ends hsound hop.1 hop.2
  | forget f p =>
    show Ends (Cache.update (·.forget f p)) s _
    refine Cache.update_ends ⟨hsound.forget, ?_⟩
    unfold Cache.forget
    split
    · next i hi =>
      have hfiles := Cache.sameFiles_unhook s.cache i
      obtain ⟨b, hb, -⟩ := hsound.lookup_eq_some_iff.mp hi
      refine hs.reviseCache (hsound.discard (by rw [hb]; rfl)) hfiles
        fun j b hb => .inl ⟨b, ?_, rfl, rfl, rfl, rfl⟩
      rw [Cache.buffer?_discard] at hb
      split at hb
      · cases hb
      · exact hb
    · exact hs
  | discard f => exact (hs.discard_ends hsound f).mono fun _ _ h => ⟨h.1, h.2.1⟩
  | unregister f =>
    show Ends (Cache.unregister f) s _
    unfold Cache.unregister
    refine Ends.attempt_bind (hs.discard_ends hsound f) ?_
    rintro r t ⟨hsound', hs', hidle, -⟩
    exact Cache.update_ends (f := fun c => c.dropFile f)
      ⟨hsound'.dropFile hidle, hs'.dropFile hsound' hidle⟩
  | takePending f =>
    have htake : Ends (Cache.takePending f) s fun _ t => t.cache.Sound none ∧ Consistent g t := by
      unfold Cache.takePending
      refine Ends.get_bind ?_
      split
      · exact Ends.pure ⟨hsound, hs⟩
      · have hsound' : (s.cache.modifyFile f fun r => { r with pending := none }).Sound none :=
          hsound.modifyFile _
        exact Cache.update_bind_ends (Ends.pure ⟨hsound', hs.reviseCache hsound'
          (Cache.sameFiles_modifyFile _ _ fun _ => rfl) fun i b hb =>
            .inl ⟨b, hb, rfl, rfl, rfl, rfl⟩⟩)
    exact Ends.bind htake (fun _ _ h => h) fun _ _ h => Ends.pure h
  | park f e =>
    have hsound' : (s.cache.park f e).Sound none := hsound.modifyFile _
    show Ends (Cache.update (·.park f e)) s _
    exact Cache.update_ends ⟨hsound', hs.reviseCache hsound' (Cache.sameFiles_park _ _ _) fun i b hb =>
      .inl ⟨b, hb, rfl, rfl, rfl, rfl⟩⟩

end Motions

namespace Grid

variable {g : Grid} {s : Buffered}

/-- In all states of a cache its images agree with its stores. -/
theorem Reached.consistent (hs : g.Reached s) : s.cache.Sound none ∧ Consistent g s := by
  induction hs with
  | new buffers htrim => exact ⟨Cache.sound_new buffers, .new g buffers htrim⟩
  | register _ hvolume hself hapart ih =>
    exact ⟨ih.1.register _, ih.2.register ih.1 hvolume hself hapart⟩
  | elsewhere _ hsize htrim hcontents ih => exact ⟨ih.1, ih.2.elsewhere ih.1 hsize htrim hcontents⟩
  | operation _ hop ih => exact (ih.2.operation_ends ih.1 hop).ending

/-- From all states of a cache, a motion carries all blocks, whatever stores refuse. -/
theorem Reached.carries_blocks (hs : g.Reached s) {m : Motion} (hm : m.Fits g) :
    ∃ l, m.Carries g s l (ending (m.run g) s).2 :=
  (hs.consistent.2.motion_ends hs.consistent.1 hm).ending.2.2

/-! ### A header that was cut short -/

/-- Blocks of 1024 bytes, one after the other. -/
def plain : Grid := ⟨fun _ => 1024, fun _ p => 1024 ∣ p.offset, fun _ => by decide⟩

/-- A volume that ends in its header. -/
def cutDisk : Disk := { volumes := #[{ contents := .ofBytes (List.replicate 600 blank) }] }

/-- A cache that has read the header of this volume. -/
def cutRead : Buffered :=
  (ending ((GridOperation.move (.get 1 .null)).run plain)
    ⟨((Cache.new minBuffers).register (.ofMemory 0 none)).2, cutDisk⟩).2

/-- A cache that holds this header, and a new block behind it. -/
def cutHeld : Buffered :=
  (ending ((GridOperation.takeUp 1 ⟨1024⟩ (List.replicate 1024 0)).run plain) cutRead).2

theorem trim_cutDisk (id : Nat) : (cutDisk.contents id).Trim := by
  cases id with
  | zero => exact Contents.trim_empty.write _ _
  | succ id => exact Contents.trim_empty

theorem apart_plain (f : FileId) : plain.Apart f f := fun _ _ hp hp' hne =>
  Mount.Aligned.apart (m := ⟨f, default, 1024⟩) hp hp' fun h => hne (congrArg (Prod.mk f) h)

theorem reached_cutHeld : plain.Reached cutHeld := by
  refine .operation (.operation (.register (.new minBuffers trim_cutDisk) (by decide)
    (apart_plain _) ?_) ?_) ?_
  · exact fun _ _ => nofun
  · exact Nat.dvd_zero _
  · exact ⟨Nat.dvd_refl _, List.length_replicate⟩

/-- Writing back the block behind a header that was cut short changes what is shown of the header:
what was missing counted as filled up, and is zeros then. -/
theorem shows_ne_of_cut : plain.Reached cutHeld ∧ (Motion.flush 1).Fits plain ∧
    cutHeld.cache.store? 1 = some (.ofMemory 0 none) ∧ plain.starts 1 .null ∧
    (plain.mount 1 (.ofMemory 0 none)).shows (ending ((Motion.flush 1).run plain) cutHeld).2 .null ≠
      (plain.mount 1 (.ofMemory 0 none)).shows cutHeld .null :=
  ⟨reached_cutHeld, trivial, by decide +kernel, Nat.dvd_zero _, by decide +kernel⟩

/-- A cache that has written this block back while the header was in use. -/
def cutPassed : Buffered :=
  let pinned := (ending ((GridOperation.move (.pin 0 true)).run plain) cutHeld).2
  (ending ((GridOperation.move (.pin 0 false)).run plain)
    (ending ((GridOperation.move .purge).run plain) pinned).2).2

theorem reached_cutPassed : plain.Reached cutPassed := by
  refine .operation (.operation (.operation reached_cutHeld ?_) ?_) ?_ <;> exact trivial

/-- Giving up the header then changes what is shown of it, although nothing is written. -/
theorem shows_ne_of_passed : plain.Reached cutPassed ∧
    (ending (Motion.purge.run plain) cutPassed).2.cache.writes = cutPassed.cache.writes ∧
    (plain.mount 1 (.ofMemory 0 none)).shows (ending (Motion.purge.run plain) cutPassed).2 .null ≠
      (plain.mount 1 (.ofMemory 0 none)).shows cutPassed .null :=
  ⟨reached_cutPassed, by decide +kernel, by decide +kernel⟩

/-- All the same every block is carried, in the sense that zeros may come. -/
theorem carries_cutHeld : plain.Reached cutHeld ∧ (Motion.flush 1).Fits plain ∧
    ∃ l, (Motion.flush 1).Carries plain cutHeld l (ending ((Motion.flush 1).run plain) cutHeld).2 :=
  ⟨reached_cutHeld, trivial, Reached.carries_blocks reached_cutHeld trivial⟩

end Grid

end PagedIndex
