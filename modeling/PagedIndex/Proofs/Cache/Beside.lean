import PagedIndex.Proofs.Cache.Recycle

/-!
# Work for one file

What a cache does for one file leaves the blocks of the other files alone, but for moving them to
their stores: no buffer comes to hold a block of another file, and no other block gets changes.

If stores take what is written to them, then changes can be written whenever a buffer is wanted, and
nothing but a read can fail.

## Main definitions

* `Buffered.Beside` — what work for one file leaves of the rest.
* `Buffered.Idle` — no buffer holds a block of a file.
* `Buffered.Flushable` — changes can be written without a failure.

## Main statements

* `Cache.fetch_beside`, `Cache.release_beside`, `Cache.restore_beside` — the steps of a cache.
* `Cache.release_idle` — after a release that went well nothing is cached of a file.
* `Cache.release_flushable`, `Cache.restore_flushable` — writing back and putting back do not fail.
-/

namespace PagedIndex

/-- What a buffer held before, with no more changes. -/
def Buffer.From (b : Buffer) (c : Cache) (i : Nat) : Prop :=
  ∃ b', c.buffer? i = some b' ∧ b'.file = b.file ∧ b'.pos = b.pos ∧ b'.image = b.image ∧
    (b.dirty = true → b'.dirty = true)

theorem Buffer.from_self {c : Cache} {i : Nat} {b : Buffer} (h : c.buffer? i = some b) :
    b.From c i :=
  ⟨b, h, rfl, rfl, rfl, id⟩

namespace Buffered

/-- What work for a file leaves of the rest: the other files keep their stores and the failures kept
for them, and every buffer holds what was held before, or a block of the file. A block of the file
that got changes is in `D`. -/
structure Beside (file : FileId) (D : BlockPos → Prop) (s t : Buffered) : Prop where
  disk : s.disk.Follows t.disk
  capacity : t.cache.capacity = s.cache.capacity
  store : ∀ f, t.cache.store? f = s.cache.store? f
  registration : ∀ f, f ≠ file → t.cache.registration? f = s.cache.registration? f
  buffers : ∀ i b, t.cache.buffer? i = some b →
    (b.file = file ∧ (b.dirty = true → D b.pos)) ∨ b.From s.cache i

variable {file : FileId} {D D' : BlockPos → Prop} {s t u : Buffered}

theorem Beside.refl (s : Buffered) : Beside file D s s :=
  ⟨.refl _, rfl, fun _ => rfl, fun _ _ => rfl, fun _ _ h => .inr (Buffer.from_self h)⟩

theorem Beside.mono (h : Beside file D s t) (hD : ∀ p, D p → D' p) : Beside file D' s t :=
  ⟨h.disk, h.capacity, h.store, h.registration, fun i b hb =>
    (h.buffers i b hb).imp_left fun ⟨hfile, hd⟩ => ⟨hfile, fun hdirty => hD _ (hd hdirty)⟩⟩

theorem Beside.trans (h : Beside file D s t) (h' : Beside file D t u) : Beside file D s u := by
  refine ⟨h.disk.trans h'.disk, h'.capacity.trans h.capacity,
    fun f => (h'.store f).trans (h.store f),
    fun f hf => (h'.registration f hf).trans (h.registration f hf), fun i b hb => ?_⟩
  rcases h'.buffers i b hb with hown | ⟨b', hb', hfile, hpos, himage, hdirty⟩
  · exact .inl hown
  · rcases h.buffers i b' hb' with ⟨hown, hD⟩ | ⟨b'', hb'', hfile', hpos', himage', hdirty'⟩
    · exact .inl ⟨hfile ▸ hown, fun hd => hpos ▸ hD (hdirty hd)⟩
    · exact .inr ⟨b'', hb'', hfile'.trans hfile, hpos'.trans hpos, himage'.trans himage,
        fun hd => hdirty' (hdirty hd)⟩

/-- A cache that holds no more than before. -/
theorem Beside.of_cache {c : Cache} (hcapacity : c.capacity = s.cache.capacity)
    (hregistration : ∀ f, c.registration? f = s.cache.registration? f)
    (hbuffers : ∀ i b, c.buffer? i = some b → b.From s.cache i) :
    Beside file D s ⟨c, s.disk⟩ :=
  ⟨.refl _, hcapacity, fun f => congrArg (Option.map Registration.store) (hregistration f),
    fun f _ => hregistration f, fun i b hb => .inr (hbuffers i b hb)⟩

theorem Beside.of_disk {d : Disk} (h : s.disk.Follows d) : Beside file D s ⟨s.cache, d⟩ :=
  ⟨h, rfl, fun _ => rfl, fun _ _ => rfl, fun _ _ hb => .inr (Buffer.from_self hb)⟩

/-- A buffer of the file gets another image. -/
theorem Beside.setImage {i : Nat} {image : Bytes}
    (hi : ∀ b, s.cache.buffer? i = some b → b.file = file ∧ D b.pos) :
    Beside file D s ⟨s.cache.setImage i image, s.disk⟩ := by
  refine ⟨.refl _, Cache.capacity_modifyBuffer _, fun _ => rfl, fun _ _ => rfl, fun j b hb => ?_⟩
  have hb := (Cache.buffer?_modifyBuffer _).symm.trans hb
  split at hb
  · rw [Option.map_eq_some_iff] at hb
    obtain ⟨b', hb', rfl⟩ := hb
    exact .inl ⟨(hi b' hb').1, fun _ => (hi b' hb').2⟩
  · exact .inr (Buffer.from_self hb)

/-- What is known of the file beside its store changes. -/
theorem Beside.modifyFile {f : Registration → Registration} (hf : ∀ r, (f r).store = r.store) :
    Beside file D s ⟨s.cache.modifyFile file f, s.disk⟩ := by
  refine ⟨.refl _, rfl, fun g => ?_, fun g hg => ?_, fun i b hb => .inr (Buffer.from_self hb)⟩
  · unfold Cache.store?
    rw [Cache.registration?_modifyFile]
    split
    · next hg =>
      rw [hg]
      cases s.cache.registration? file with
      | none => rfl
      | some r => exact congrArg some (hf r)
    · rfl
  · show (s.cache.modifyFile file f).registration? g = _
    rw [Cache.registration?_modifyFile, if_neg hg]

theorem Beside.bind {α β : Type} {x : CacheM α} {f : α → CacheM β}
    (hx : Ends x s fun _ t => Beside file D s t)
    (hf : ∀ a t, Beside file D s t → Ends (f a) t fun _ u => Beside file D t u) :
    Ends (x >>= f) s fun _ u => Beside file D s u :=
  Ends.bind hx (fun _ _ h => h) fun a t h => (hf a t h).mono fun _ _ h' => h.trans h'

/-- No buffer holds a block of the file. -/
def Idle (file : FileId) (s : Buffered) : Prop :=
  ∀ i b, s.cache.buffer? i = some b → b.file ≠ file

/-- No block is held of a file before it has its number. -/
theorem idle_freshFile (hsound : s.cache.Sound none) : s.Idle s.cache.freshFile := by
  intro i b hb hfile
  have hknown := hsound.registered i b hb
  rw [hfile, Cache.registration?_freshFile] at hknown
  cases hknown

/-- Work for one file brings no blocks of another one. -/
theorem Beside.idle {other : FileId} (h : Beside file D s t) (hidle : s.Idle other)
    (hother : other ≠ file) : t.Idle other := by
  intro i b hb hfile
  rcases h.buffers i b hb with ⟨hown, -⟩ | ⟨b', hb', hfile', -⟩
  · exact hother (hfile.symm.trans hown)
  · exact hidle i b' hb' (hfile'.trans hfile)

end Buffered

/-! ## The steps of a cache -/

namespace Cache

open Buffered

variable {file : FileId} {D : BlockPos → Prop} {s t : Buffered} {i : Nat} {pos : BlockPos}
  {image : Bytes}

theorem onDisk_beside {α : Type} {x : DiskM α} (h : Ends x s.disk fun _ d => s.disk.Follows d) :
    Ends (onDisk x) s fun _ t => Beside file D s t :=
  (onDisk_ends h).mono fun _ ⟨_, _⟩ ⟨hcache, hd⟩ => by
    cases hcache
    exact .of_disk hd

theorem storeOf_beside (f : FileId) : Ends (storeOf f) s fun _ t => Beside file D s t := by
  unfold storeOf
  refine Ends.get_bind ?_
  split
  · exact Ends.pure (.refl _)
  · exact Ends.throw (.refl _)

theorem modifyFile_of_none {c : Cache} {file : FileId} {f : Registration → Registration}
    (h : c.registration? file = none) : c.modifyFile file f = c := by
  have hne : ∀ p ∈ c.files, p.1 ≠ file := fun p hp heq => by
    simpa [heq] using List.lookup_eq_none_iff.mp h p hp
  have hfiles : (c.modifyFile file f).files = c.files :=
    (List.map_congr_left fun p hp => if_neg (hne p hp)).trans (List.map_id _)
  show { c with files := (c.modifyFile file f).files } = c
  rw [hfiles]

/-- What is kept of a file for its next call is told once. -/
theorem takePending_ends (file : FileId) : Ends (takePending file) s fun r t =>
    r = .ok ((s.cache.registration? file).bind Registration.pending) ∧
      t = ⟨s.cache.modifyFile file fun r => { r with pending := none }, s.disk⟩ := by
  unfold takePending
  refine Ends.get_bind ?_
  cases h : s.cache.registration? file with
  | none => exact Ends.pure ⟨rfl, by rw [modifyFile_of_none h]⟩
  | some reg => exact update_bind_ends (Ends.pure ⟨rfl, rfl⟩)

theorem writeBack_beside (i : Nat) : Ends (writeBack i) s fun _ t => Beside file D s t := by
  unfold writeBack
  refine Ends.get_bind ?_
  split
  · exact Ends.pure (.refl _)
  · split
    · refine Ends.get_bind ?_
      split
      · exact Ends.throw (.refl _)
      · refine Beside.bind (onDisk_beside ((Store.write_ends _ _ _ _).mono fun _ _ h => h.follows))
          fun _ t _ => update_ends ?_
        refine .of_cache (capacity_modifyBuffer _) (fun _ => rfl) fun j b hb => ?_
        have hb := (buffer?_modifyBuffer _).symm.trans hb
        split at hb
        · next hj =>
          rw [Option.map_eq_some_iff] at hb
          obtain ⟨b', hb', rfl⟩ := hb
          exact ⟨b', hj ▸ hb', rfl, rfl, rfl, nofun⟩
        · exact Buffer.from_self hb
    · exact Ends.pure (.refl _)

theorem from_unhook {c : Cache} {j : Nat} {b : Buffer} (h : (c.unhook i).buffer? j = some b) :
    b.From c j :=
  Buffer.from_self (Mount.buffer?_unhook_eq_some (s := ⟨c, {}⟩) h).2

theorem beside_discard : Beside file D s ⟨s.cache.discard i, s.disk⟩ :=
  .of_cache capacity_discard (fun _ => registration?_discard) fun _ _ hb => from_unhook hb

theorem beside_forget {f : FileId} : Beside file D s ⟨s.cache.forget f pos, s.disk⟩ := by
  unfold forget
  split
  · exact beside_discard
  · exact .refl _

theorem beside_setPinned {pinned : Bool} : Beside file D s ⟨s.cache.setPinned i pinned, s.disk⟩ := by
  refine .of_cache (capacity_modifyBuffer _) (fun _ => rfl) fun j b hb => ?_
  have hb := (buffer?_modifyBuffer _).symm.trans hb
  split at hb
  · next hj =>
    rw [Option.map_eq_some_iff] at hb
    obtain ⟨b', hb', rfl⟩ := hb
    exact ⟨b', hj ▸ hb', rfl, rfl, rfl, id⟩
  · exact Buffer.from_self hb

theorem evict_beside : Ends evict s fun _ t => Beside file D s t := by
  unfold evict
  refine Ends.get_bind ?_
  split
  · exact Ends.throw (.refl _)
  · refine Beside.bind (writeBack_beside _) fun _ t _ => update_bind_ends (Ends.pure ?_)
    exact .of_cache capacity_unhook (fun _ => registration?_unhook) fun _ _ hb => from_unhook hb

theorem vacate_beside : Ends vacate s fun _ t => Beside file D s t := by
  unfold vacate
  refine Ends.get_bind ?_
  split
  · exact update_bind_ends (Ends.pure
      (.of_cache rfl (fun _ => rfl) fun _ _ hb => Buffer.from_self hb))
  · exact evict_beside

theorem readImage_follows (store : Store) (pos : BlockPos) (blockSize : Nat) (d : Disk) :
    Ends (readImage store pos blockSize) d fun _ d' => d.Follows d' := by
  unfold readImage
  refine Ends.bind (store.read_ends d _ _) (fun _ _ h => h.follows) fun got d' h => ?_
  split
  · exact Ends.pure h.follows
  · split
    · exact Ends.pure h.follows
    · exact Ends.throw h.follows

/-- A buffer that holds a block is found by a lookup. -/
theorem eq_of_lookup {c : Cache} (h : c.lookup file pos = some i) :
    ∀ b, c.buffer? i = some b → b.file = file ∧ b.pos = pos := by
  intro b hb
  have hholds := List.find?_some h
  unfold holds at hholds
  rw [hb] at hholds
  simpa using hholds

theorem buffer?_hook_cases {c : Cache} {j : Nat} {b b' : Buffer}
    (h : (c.hook i b).buffer? j = some b') : (j = i ∧ b' = b) ∨ (j ≠ i ∧ c.buffer? j = some b') := by
  have h' : (c.buffers.setIfInBounds i (some b)).getD j none = some b' := h
  simp only [Array.getD_eq_getD_getElem?, Array.getElem?_setIfInBounds] at h'
  split at h'
  · next hij =>
    refine .inl ⟨hij.symm, ?_⟩
    split at h'
    · exact (Option.some.inj h').symm
    · cases h'
  · next hij => exact .inr ⟨Ne.symm hij, by simpa [buffer?] using h'⟩

/-- A load brings a block of the file, without changes. -/
theorem fetch_beside (blockSize : Nat) (read : Bool) :
    Ends (fetch file pos blockSize read) s fun r t => Beside file D s t ∧
      ∀ i, r = .ok i → ∀ b, t.cache.buffer? i = some b → b.file = file ∧ b.pos = pos := by
  unfold fetch
  refine Ends.get_bind ?_
  split
  · next i hi =>
    refine update_bind_ends (Ends.pure
      ⟨.of_cache rfl (fun _ => rfl) fun _ _ hb => Buffer.from_self hb, fun j hj b hb => ?_⟩)
    cases hj
    exact eq_of_lookup hi b hb
  · have hcount : Beside file D s ⟨{ s.cache with misses := s.cache.misses + 1 }, s.disk⟩ :=
      .of_cache rfl (fun _ => rfl) fun _ _ hb => Buffer.from_self hb
    refine update_bind_ends (Ends.bind (storeOf_beside (D := D) file)
      (fun _ _ h => ⟨hcount.trans h, nofun⟩)
      fun store t h => ?_)
    have hcount := hcount.trans h
    refine Ends.bind (@vacate_beside file D _) (fun _ _ h => ⟨hcount.trans h, nofun⟩)
      fun i t h => ?_
    have hcount := hcount.trans h
    have hload : Ends (if read then onDisk (readImage store pos blockSize)
        else pure (List.replicate blockSize filler)) t fun _ u => Beside file D t u := by
      split
      · exact onDisk_beside (readImage_follows store pos blockSize t.disk)
      · exact Ends.pure (.refl _)
    refine Ends.attempt_bind hload fun r u h => ?_
    have hcount := hcount.trans h
    cases r with
    | error e =>
      refine update_bind_ends (Ends.throw ⟨hcount.trans ?_, nofun⟩)
      exact .of_cache rfl (fun _ => rfl) fun _ _ hb => Buffer.from_self hb
    | ok image =>
      refine update_bind_ends (Ends.pure ⟨hcount.trans ⟨.refl _, capacity_hook,
        fun f => congrArg (Option.map Registration.store) registration?_hook,
        fun f _ => registration?_hook, fun j b hb => ?_⟩, fun j hj b hb => ?_⟩)
      · rcases buffer?_hook_cases hb with ⟨-, rfl⟩ | ⟨-, hb⟩
        · exact .inl ⟨rfl, nofun⟩
        · exact .inr (Buffer.from_self hb)
      · cases hj
        rcases buffer?_hook_cases hb with ⟨-, rfl⟩ | ⟨hne, -⟩
        · exact ⟨rfl, rfl⟩
        · exact absurd rfl hne

theorem releaseBuffer_beside (mode : Release) (i : Nat) :
    Ends (releaseBuffer mode i) s fun _ t => Beside file D s t := by
  unfold releaseBuffer
  refine Ends.attempt_bind (P := fun _ t => Beside file D s t) ?_ fun r t h => ?_
  · cases mode with
    | flush => exact writeBack_beside i
    | discard => exact Ends.pure (.refl _)
  · cases r with
    | error e => exact Ends.pure h
    | ok u => exact update_bind_ends (Ends.pure (h.trans beside_discard))

theorem releaseAmong_beside (f : FileId) (mode : Release) (buffers : List Nat) :
    Ends (releaseAmong f mode buffers) s fun _ t => Beside file D s t := by
  induction buffers generalizing s with
  | nil => exact Ends.pure (.refl _)
  | cons i rest ih =>
    unfold releaseAmong
    refine Ends.get_bind ?_
    dsimp only
    split
    · exact Beside.bind (releaseBuffer_beside mode i) fun _ t _ =>
        Beside.bind ih fun _ _ _ => Ends.pure (.refl _)
    · exact ih

theorem release_beside (f : FileId) (mode : Release) :
    Ends (release f mode) s fun _ t => Beside file D s t := by
  unfold release
  exact Ends.get_bind (Beside.bind (releaseAmong_beside f mode _) fun _ _ _ => ends_settle (.refl _))

/-- Putting an image back changes one block of the file. -/
theorem restore_beside :
    Ends (restore file pos image) s fun _ t => Beside file (· = pos) s t := by
  unfold restore
  refine Ends.get_bind ?_
  split
  · next i hi => exact update_ends (.setImage fun b hb => eq_of_lookup hi b hb)
  · refine Ends.attempt_bind (@fetch_beside file (· = pos) s pos image.length false) ?_
    rintro r t ⟨h, hblock⟩
    cases r with
    | ok i => exact update_ends (h.trans (.setImage (hblock i rfl)))
    | error e =>
      have hwrite : Ends (do let store ← storeOf file; onDisk (store.write pos.offset image)) t
          fun _ u => Beside file (· = pos) t u :=
        Beside.bind (storeOf_beside file) fun store t _ =>
          onDisk_beside ((Store.write_ends _ _ _ _).mono fun _ _ h => h.follows)
      exact hwrite.mono fun _ _ h' => h.trans h'

/-! ## Nothing cached -/

theorem releaseBuffer_idle (mode : Release) (i : Nat) :
    Ends (releaseBuffer mode i) s fun r t => r = .ok (.ok ()) → t.cache.buffer? i = none := by
  unfold releaseBuffer
  refine Ends.attempt_bind (P := fun _ _ => True) ?_ fun r t _ => ?_
  · unfold Ends
    split <;> trivial
  · cases r with
    | error e => exact Ends.pure nofun
    | ok u =>
      refine update_bind_ends (Ends.pure fun _ => ?_)
      exact buffer?_discard.trans (if_pos rfl)

/-- Of the buffers released none holds a block of the file, unless a failure is told. -/
theorem releaseAmong_idle (file : FileId) (mode : Release) (buffers : List Nat) :
    Ends (releaseAmong file mode buffers) s fun r t => r = .ok (.ok ()) → ∀ i ∈ buffers, ∀ b,
      t.cache.buffer? i = some b → b.file ≠ file := by
  induction buffers generalizing s with
  | nil =>
    refine Ends.pure fun _ i hi => ?_
    cases hi
  | cons i rest ih =>
    -- releasing the others brings no block into the first buffer
    have hrest : ∀ {u : Buffered}, (∀ b, u.cache.buffer? i = some b → b.file ≠ file) →
        Ends (releaseAmong file mode rest) u fun r t => r = .ok (.ok ()) → ∀ j ∈ i :: rest, ∀ b,
          t.cache.buffer? j = some b → b.file ≠ file := by
      intro u hi
      refine (ih.and (@releaseAmong_beside (file + 1) (fun _ => False) u file mode rest)).mono ?_
      rintro r t ⟨hrest, hbeside⟩ hr j hj b hb
      rcases List.mem_cons.mp hj with rfl | hj
      · rcases hbeside.buffers j b hb with ⟨hown, -⟩ | ⟨b', hb', hfile, -⟩
        · exact fun h => Nat.succ_ne_self file (hown.symm.trans h)
        · rw [← hfile]
          exact hi b' hb'
      · exact hrest hr j hj b hb
    unfold releaseAmong
    refine Ends.get_bind ?_
    dsimp only
    split
    · refine Ends.bind (releaseBuffer_idle mode i) (fun _ _ _ h => by cases h) fun first u hfirst => ?_
      cases first with
      | ok _ =>
        refine Ends.bind (hrest fun b hb => ?_) (fun _ _ _ h => by cases h) fun others t h => ?_
        · rw [hfirst rfl] at hb
          cases hb
        · exact Ends.pure fun hr => h (by rw [← hr]; rfl)
      | error e => exact Ends.bind (P := fun _ _ => True) (by
          unfold Ends
          split <;> trivial) (fun _ _ _ h => by cases h) fun _ _ _ => Ends.pure fun h => by cases h
    · next hany =>
      refine hrest fun b hb hfile => hany ?_
      rw [hb]
      simpa using hfile

/-- After a release that went well nothing is cached of the file. -/
theorem release_idle (file : FileId) (mode : Release) :
    Ends (release file mode) s fun r t => r = .ok () → t.Idle file := by
  unfold release
  refine Ends.get_bind (Ends.bind ((releaseAmong_idle file mode _).and
    (@releaseAmong_beside file (fun _ => False) s file mode _)) (fun _ _ _ => nofun) ?_)
  rintro o t ⟨hidle, hbeside⟩
  refine ends_settle fun ho i b hb => ?_
  have hlt : i < s.cache.capacity := hbeside.capacity ▸ lt_capacity_of_buffer? hb
  exact hidle (congrArg Except.ok ho) i (List.mem_range.mpr hlt) b hb

end Cache

/-! ## Changes that can be written -/

namespace Buffered

variable {file : FileId} {D : BlockPos → Prop} {s t : Buffered}

/-- All changes that stores lack can be written there without a failure. -/
def Flushable (s : Buffered) : Prop :=
  ∀ i b, s.cache.buffer? i = some b → b.dirty = true →
    ∃ store, s.cache.store? b.file = some store ∧ store.Takes s.disk ∧
      b.pos.offset + b.image.length < Store.offsetBound

theorem Safe.flushable (h : s.Safe) : s.Flushable := by
  intro i b hb hd
  obtain ⟨store, hstore, hrel, hlt⟩ := h i b hb hd
  exact ⟨store, hstore, hrel.takes, hlt⟩

/-- Work for a file leaves changes that can be written, if those that it makes can. -/
theorem Beside.flushable (h : Beside file D s t) (hs : s.Flushable)
    (hnew : ∀ i b, t.cache.buffer? i = some b → b.file = file → D b.pos →
      ∃ store, s.cache.store? file = some store ∧ store.Takes s.disk ∧
        b.pos.offset + b.image.length < Store.offsetBound) : t.Flushable := by
  intro i b hb hd
  rcases h.buffers i b hb with ⟨hfile, hD⟩ | ⟨b', hb', hfile, hpos, himage, hdirty⟩
  · obtain ⟨store, hstore, htakes, hlt⟩ := hnew i b hb hfile (hD hd)
    exact ⟨store, by rw [h.store, hfile]; exact hstore, htakes.follows h.disk, hlt⟩
  · obtain ⟨store, hstore, htakes, hlt⟩ := hs i b' hb' (hdirty hd)
    exact ⟨store, by rw [h.store, ← hfile]; exact hstore, htakes.follows h.disk,
      by rw [← hpos, ← himage]; exact hlt⟩

/-- Work that changes no block leaves changes that can be written. -/
theorem Beside.flushable_of_unchanged (h : Beside file (fun _ => False) s t) (hs : s.Flushable) :
    t.Flushable :=
  h.flushable hs fun _ _ _ _ hD => hD.elim

end Buffered

namespace Cache

open Buffered

variable {s t : Buffered} {i : Nat} {m : Mount} {pos : BlockPos} {image : Bytes}

theorem writeBack_flushable (h : s.Flushable) (i : Nat) :
    Ends (writeBack i) s fun r _ => r = .ok () := by
  unfold writeBack
  refine Ends.get_bind ?_
  split
  · exact Ends.pure rfl
  · next b hb =>
    split
    · next hd =>
      obtain ⟨store, hstore, htakes, hlt⟩ := h i b hb hd
      obtain ⟨r, hr, rfl⟩ := Option.map_eq_some_iff.mp hstore
      refine Ends.get_bind ?_
      rw [hr]
      refine Ends.bind (onDisk_ends (Store.write_takes htakes hlt)) (fun e _ h => nomatch h.2) ?_
      exact fun _ _ _ => update_ends rfl
    · exact Ends.pure rfl

/-- A buffer can be had if one is not in use. -/
theorem vacate_flushable (h : s.Flushable) (hsound : s.cache.Sound none) (hspare : s.Spare) :
    Ends vacate s fun r _ => ∃ i, r = .ok i := by
  unfold vacate
  refine Ends.get_bind ?_
  split
  · exact update_bind_ends (Ends.pure ⟨_, rfl⟩)
  · next hfree =>
    unfold evict
    refine Ends.get_bind ?_
    split
    · next hnone =>
      obtain ⟨j, hj, hpin⟩ := hspare
      obtain ⟨v, -, hv, -⟩ := hsound.exists_victim hfree hj hpin
      rw [hnone] at hv
      cases hv
    · refine Ends.bind (writeBack_flushable h _) (fun e _ h => nomatch h) fun _ _ _ => ?_
      exact update_bind_ends (Ends.pure ⟨_, rfl⟩)

/-- A block that is not read can be loaded. -/
theorem fetch_flushable {file : FileId} {blockSize : Nat} (h : s.Flushable)
    (hsound : s.cache.Sound none) (hspare : s.Spare) (hstore : (s.cache.store? file).isSome) :
    Ends (fetch file pos blockSize false) s fun r _ => ∃ i, r = .ok i := by
  unfold fetch
  refine Ends.get_bind ?_
  split
  · exact update_bind_ends (Ends.pure ⟨_, rfl⟩)
  · obtain ⟨store, hstore⟩ := Option.isSome_iff_exists.mp hstore
    refine update_bind_ends (Mount.storeOf_bind_ends hstore ?_)
    have hcount : Buffered.Flushable ⟨{ s.cache with misses := s.cache.misses + 1 }, s.disk⟩ := h
    refine Ends.bind (vacate_flushable hcount (hsound.count _ _ _ _) hspare) ?_ ?_
    · rintro e t ⟨i, hi⟩
      cases hi
    · intro i t _
      have hload : Ends (if false = true then onDisk (readImage store pos blockSize)
          else pure (List.replicate blockSize filler)) t fun r _ => ∃ image, r = .ok image :=
        Ends.pure ⟨_, rfl⟩
      refine Ends.attempt_bind hload ?_
      rintro r u ⟨image, rfl⟩
      exact update_bind_ends (Ends.pure ⟨_, rfl⟩)

theorem releaseBuffer_flushable (h : s.Flushable) (mode : Release) (i : Nat) :
    Ends (releaseBuffer mode i) s fun r _ => r = .ok (.ok ()) := by
  unfold releaseBuffer
  refine Ends.attempt_bind (P := fun r _ => r = .ok ()) ?_ ?_
  · cases mode with
    | flush => exact writeBack_flushable h i
    | discard => exact Ends.pure rfl
  · rintro _ t rfl
    exact update_bind_ends (Ends.pure rfl)

theorem releaseAmong_flushable (h : s.Flushable) (file : FileId) (mode : Release)
    (buffers : List Nat) :
    Ends (releaseAmong file mode buffers) s fun r _ => r = .ok (.ok ()) := by
  induction buffers generalizing s with
  | nil => exact Ends.pure rfl
  | cons i rest ih =>
    unfold releaseAmong
    refine Ends.get_bind ?_
    dsimp only
    split
    · refine Ends.bind ((releaseBuffer_flushable h mode i).and
        (@releaseBuffer_beside file (fun _ => False) s mode i)) (fun e _ h => by cases h.1) ?_
      rintro first t ⟨hfirst, hbeside⟩
      cases hfirst
      refine Ends.bind (ih (hbeside.flushable_of_unchanged h)) (fun e _ h => by cases h) ?_
      rintro others u hothers
      cases hothers
      exact Ends.pure rfl
    · exact ih h

/-- Blocks can be written back and dropped. -/
theorem release_flushable (h : s.Flushable) (file : FileId) (mode : Release) :
    Ends (release file mode) s fun r _ => r = .ok () := by
  unfold release
  refine Ends.get_bind (Ends.bind (releaseAmong_flushable h file mode _) (fun e _ h => nomatch h) ?_)
  rintro o t ho
  cases ho
  exact ends_settle rfl

/-- A release leaves nothing cached of the file, unless changes cannot be written back. -/
theorem release_clears (file : FileId) (mode : Release) :
    Ends (release file mode) s fun r t => Beside file (fun _ => False) s t ∧
      (r = .ok () → t.Idle file) ∧ (s.Flushable → r = .ok ()) := by
  have hends := (@release_beside file (fun _ => False) s file mode).and (release_idle file mode)
  by_cases h : s.Flushable
  · refine (hends.and (release_flushable h file mode)).mono ?_
    rintro r t ⟨⟨hbeside, hidle⟩, hr⟩
    exact ⟨hbeside, hidle, fun _ => hr⟩
  · refine hends.mono ?_
    rintro r t ⟨hbeside, hidle⟩
    exact ⟨hbeside, hidle, fun hs => absurd hs h⟩

/-- An earlier image can be put back. -/
theorem restore_flushable {file : FileId} (h : s.Flushable) (hsound : s.cache.Sound none)
    (hspare : s.Spare) (hstore : (s.cache.store? file).isSome) :
    Ends (restore file pos image) s fun r _ => r = .ok () := by
  unfold restore
  refine Ends.get_bind ?_
  split
  · exact update_ends rfl
  · refine Ends.attempt_bind (fetch_flushable h hsound hspare hstore) ?_
    rintro r t ⟨i, rfl⟩
    exact update_ends rfl

end Cache

end PagedIndex
