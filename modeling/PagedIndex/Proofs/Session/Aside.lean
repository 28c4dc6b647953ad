import PagedIndex.Proofs.Session.Pins
import PagedIndex.Proofs.Session.TidyFiles

/-!
# Beside a tidy file

While a tidy file is open, other files are opened, called and closed, and all that is not in use is
released, in its own cache and in others. Nothing is known of the other files but that they lie in
other volumes. Whatever is done about them, and whatever is refused, leaves the file tidy.

## Main definitions

* `Buffered.Aside` — what is done beside the files of a volume.

## Main statements

* `Session.transact_aside` — a call on a file of another volume.
* `Cache.purge_aside` — the release of all that is not in use, of whatever file.
* `Buffered.aside_register`, `Cache.unregister_aside` — other files are taken up and given up.
-/

namespace PagedIndex

/-- What is done beside the files of a volume: if it has one that is tidy, the file stays tidy; if
it has none, then none is opened on it, and its bytes stay as they are. -/
structure Buffered.Aside (volume : Nat) (s t : Buffered) : Prop where
  size : s.disk.volumes.size ≤ t.disk.volumes.size
  untaken : s.cache.Untaken volume →
    t.cache.Untaken volume ∧ t.disk.contents volume = s.disk.contents volume
  tidyAtRest : ∀ {m : Mount} {hd : Header}, m.store.volume = volume →
    m.TidyAtRest hd s → m.TidyAtRest hd t

namespace Buffered

variable {volume : Nat} {s t u : Buffered} {store : Store}

theorem Aside.trans (h : s.Aside volume t) (h' : t.Aside volume u) : s.Aside volume u := by
  refine ⟨Nat.le_trans h.size h'.size, fun hs => ?_, fun hv hm => h'.tidyAtRest hv (h.tidyAtRest hv hm)⟩
  obtain ⟨ht, hcontents⟩ := h.untaken hs
  obtain ⟨hu, hcontents'⟩ := h'.untaken ht
  exact ⟨hu, hcontents'.trans hcontents⟩

/-- A file of another volume is taken up. -/
theorem aside_register (hvolume : store.volume ≠ volume) :
    s.Aside volume ⟨(s.cache.register store).2, s.disk⟩ := by
  have hstores : ∀ f other, (s.cache.register store).2.store? f = some other →
      f = s.cache.freshFile ∧ other = store ∨ s.cache.store? f = some other := by
    intro f other hf
    by_cases hnext : f = s.cache.freshFile
    · rw [hnext, Cache.store?_register_self] at hf
      exact .inl ⟨hnext, (Option.some.inj hf).symm⟩
    · rw [Cache.store?_register hnext] at hf
      exact .inr hf
  refine ⟨Nat.le_refl _, fun h => ⟨fun f other hf => ?_, rfl⟩, fun {m hd} hv hm => ?_⟩
  · rcases hstores f other hf with ⟨-, rfl⟩ | hold
    · exact hvolume
    · exact h f other hold
  · have hne : m.file ≠ s.cache.freshFile := Cache.ne_freshFile hm.tidy.store
    have hidle := idle_freshFile hm.intact.sound
    refine ⟨⟨hm.tidy.size, (Cache.store?_register hne).trans hm.tidy.store, hm.tidy.volume_lt,
      hm.tidy.contents, hm.tidy.buffers, fun f other hf hother => ?_⟩,
      (Cache.spared_register hidle hne hm.intact).intact, hm.unpinned⟩
    rcases hstores f other hf with ⟨-, rfl⟩ | hold
    · exact absurd (hother.trans hv) hvolume
    · exact hm.tidy.sole f other hold hother

end Buffered

namespace Cache

variable {volume : Nat} {m other : Mount} {V : BlockPos → Prop} {W : BlockPos → Bytes → Prop}
  {s t : Buffered}

/-- Work for a file of another volume that leaves nothing pinned. -/
theorem Steps.aside (hsteps : Steps other V W s t)
    (hstore : s.cache.store? other.file = some other.store)
    (hvolume : other.store.volume ≠ volume)
    (hunpinned : Session.Unpinned s → Session.Unpinned t) : s.Aside volume t := by
  obtain ⟨-, hstores, -⟩ := hsteps.registered
  refine ⟨Nat.le_of_eq (Through.reaches hsteps).follows.size.symm, fun h => ⟨fun f store hf => ?_, ?_⟩,
    fun {m hd} hv hm => ?_⟩
  · exact h f store ((hstores f).symm.trans hf)
  · exact hsteps.contents hstore h
  · have hapart : m.Apart other := by
      refine ⟨fun hfile => hvolume ?_, fun hv' => hvolume (hv'.symm.trans hv)⟩
      rw [← hfile, hm.tidy.store] at hstore
      exact (congrArg Store.volume (Option.some.inj hstore)).symm.trans hv
    exact ⟨hsteps.tidy_ne hm.tidy hstore hapart.file.symm,
      (hsteps.spared hapart hm.intact hstore).intact,
      hunpinned hm.unpinned⟩

end Cache

/-! ## Releasing what is not in use -/

/-- The same files are open, and the volumes without an open file are as they were. -/
structure Buffered.Stays (s t : Buffered) : Prop where
  follows : s.disk.Follows t.disk
  stores : ∀ f, t.cache.store? f = s.cache.store? f
  contents : ∀ id, s.cache.Untaken id → t.disk.contents id = s.disk.contents id

namespace Cache

variable {volume : Nat} {m : Mount} {hd : Header} {s t : Buffered} {i : Nat} {b : Buffer}
  {file : FileId}

/-- Work that leaves alone the volumes without an open file. -/
def staying : Guarantee Error Buffered where
  Holds _ := True
  Leads := Buffered.Stays
  Fails _ := True
  refl _ := ⟨.refl _, fun _ => rfl, fun _ _ => rfl⟩
  trans h h' := ⟨h.follows.trans h'.follows, fun f => (h'.stores f).trans (h.stores f),
    fun id hid => (h'.contents id fun f store hf =>
      hid f store ((h.stores f).symm.trans hf)).trans (h.contents id hid)⟩
  keeps _ _ := trivial

theorem update_staying {f : Cache → Cache} (hstores : ∀ c g, (f c).store? g = c.store? g) :
    staying.Covers (update f) := update_covers fun s _ => ⟨.refl _, hstores s.cache, fun _ _ => rfl⟩

/-- Changes are written to the volumes of open files. -/
theorem writeBack_staying (i : Nat) : staying.Covers (writeBack i) := by
  unfold writeBack
  refine .get_bind fun s _ => ?_
  split
  · exact .pure trivial
  · next b hb =>
    split
    · intro t _
      refine Ends.get_bind ?_
      split
      · exact .error (staying.refl trivial) trivial
      · next r hr =>
        refine Guarantee.Post.bind (G := staying) (P := fun _ => True) trivial ?_
          fun _ _ => update_staying fun _ _ => rfl
        refine (onDisk_ends (Store.write_ends _ _ _ _)).mono ?_
        rintro o ⟨c, d⟩ ⟨rfl, hwrote⟩
        refine ⟨fun _ _ => trivial, ⟨hwrote.follows, fun _ => rfl, fun id hid =>
          hwrote.apart id fun heq => ?_⟩, fun _ _ => trivial⟩
        exact hid b.file r.store (by rw [store?, hr]; rfl) heq.symm
    · exact .pure trivial

theorem purge_staying : staying.Covers purge := by
  refine purge_covers (fun s i b _ _ => releaseBuffer_meets (fun _ => writeBack_staying i)
    (update_staying fun _ _ => congrArg (Option.map _) registration?_discard) s trivial) ?_
  exact fun file e _ => update_covers fun s _ => ⟨.refl _, (@Buffered.Beside.modifyFile file
    (fun _ => False) s (fun r => { r with pending := r.pending <|> some e }) fun _ => rfl).store,
    fun _ _ => rfl⟩

/-- All that is not in use is released, and what cannot be written stays. -/
theorem purge_tidyAtRest (h : m.TidyAtRest hd s) : Ends purge s fun _ t => m.TidyAtRest hd t := by
  have hone : ∀ (s : Buffered) i b, m.TidyAtRest hd s → s.cache.buffer? i = some b →
      Ends (releaseBuffer .flush i) s ((Guarantee.ofInvariant (m.TidyAtRest hd) fun _ => True).Post
        (fun r => ∀ e, r = .error e → True) s) := by
    intro s i b h hb
    -- a buffer of any file is released beside a tidy file, or it is one of the file itself
    have hflush : ∀ {p : Prop}, Release.flush = .discard → p := nofun
    have hsteps := releaseBuffer_steps (m := m) (V := hd.layout.Start)
      (W := fun p x => hd.layout.Start p ∧ hd.Tidy p x) h.intact.sound hb hflush
    refine ((Mount.releaseBuffer_ends h.intact hb hflush).and
      (hsteps.and ((parts_pinsNothing.releaseBuffer .flush i).leads trivial))).mono ?_
    rintro r t ⟨⟨_, -, hreleased⟩, ⟨hsteps, -⟩, hpins⟩
    exact ⟨fun _ _ => trivial, ⟨Steps.tidy hsteps h.tidy, hreleased.moves.intact,
      h.unpinned.pinsNothing hpins⟩, fun _ _ _ _ => trivial⟩
  refine Guarantee.Meets.leads (G := .ofInvariant (m.TidyAtRest hd) fun _ => True)
    (purge_covers hone fun file e _ => update_covers fun t ht => ?_) h
  exact (Session.tidyAtRest_modifyFile ht file
    (f := fun r => { r with pending := r.pending <|> some e }) fun _ => rfl).1

/-- The release of all that is not in use. -/
theorem purge_aside : Ends purge s fun _ t => s.Aside volume t := by
  have htidyAtRest : Ends purge s fun _ t => ∀ mh : Mount × Header,
      mh.1.TidyAtRest mh.2 s → mh.1.TidyAtRest mh.2 t := Ends.all fun _ => Ends.all purge_tidyAtRest
  refine ((purge_staying.leads trivial).and htidyAtRest).mono ?_
  rintro r t ⟨hstays, htidyAtRest⟩
  refine ⟨Nat.le_of_eq hstays.follows.size.symm, fun h => ⟨fun f store hf => ?_, ?_⟩,
    fun {m hd} _ hm => htidyAtRest (m, hd) hm⟩
  · exact h f store ((hstays.stores f).symm.trans hf)
  · exact hstays.contents _ h

end Cache

/-! ## Other files -/

/-- A call on a file of another volume. -/
theorem Session.transact_aside {α : Type} {volume : Nat} {m : Mount} {s : Buffered} {l : Layout}
    (locked : Bool) (mode : EndMode) (program : Program α) (hsize : l.blockSize = m.blockSize)
    (hsound : s.cache.Sound none) (hstore : s.cache.store? m.file = some m.store)
    (hvolume : m.store.volume ≠ volume) :
    Ends (Session.transact m.file l locked mode program) s fun _ t => s.Aside volume t := by
  have hunpinned : Ends (Session.transact m.file l locked mode program) s fun _ t =>
      Unpinned s → Unpinned t := Ends.all (transact_unpinned m.file l locked mode program)
  refine ((transact_steps locked mode program hsize hsound hstore).and hunpinned).mono ?_
  rintro o t ⟨htransacted, hpins⟩
  exact htransacted.steps.aside hstore hvolume hpins

/-! ## Files that are given up -/

/-- A file of another volume of which nothing is cached. -/
theorem Buffered.aside_dropFile {volume : Nat} {s : Buffered} {file : FileId} {store : Store}
    (hidle : s.Idle file) (hstore : s.cache.store? file = some store)
    (hvolume : store.volume ≠ volume) : s.Aside volume ⟨s.cache.dropFile file, s.disk⟩ := by
  have hstores : ∀ f other, (s.cache.dropFile file).store? f = some other →
      s.cache.store? f = some other := by
    intro f other hf
    by_cases hfile : f = file
    · rw [hfile, Cache.store?, Cache.registration?_dropFile, if_pos rfl] at hf
      cases hf
    · rwa [Cache.store?_dropFile hfile] at hf
  refine ⟨Nat.le_refl _, fun h => ⟨fun f other hf => h f other (hstores f other hf), rfl⟩,
    fun {m hd} hv hm => ?_⟩
  have hne : m.file ≠ file := by
    intro hfile
    rw [← hfile, hm.tidy.store] at hstore
    exact hvolume (Option.some.inj hstore ▸ hv)
  exact ⟨⟨hm.tidy.size, (Cache.store?_dropFile hne).trans hm.tidy.store, hm.tidy.volume_lt,
    hm.tidy.contents, hm.tidy.buffers, fun f other hf => hm.tidy.sole f other (hstores f other hf)⟩,
    (Cache.spared_dropFile hidle hne hm.intact).intact, hm.unpinned⟩

/-- A file of another volume is given up. -/
theorem Cache.unregister_aside {volume : Nat} {s : Buffered} {file : FileId} {store : Store}
    (hsound : s.cache.Sound none) (hstore : s.cache.store? file = some store)
    (hvolume : store.volume ≠ volume) : Ends (unregister file) s fun _ t => s.Aside volume t := by
  have hsteps := release_steps (m := ⟨file, store, 0⟩) (V := fun _ => True) (W := fun _ _ => True)
    hsound hstore .discard
  unfold unregister
  refine Ends.attempt_bind ((release_discard_ends s file).and
    (hsteps.and ((parts_pinsNothing.release file .discard).leads trivial))) ?_
  rintro o t ⟨⟨-, -, hidle, hstores⟩, ⟨hsteps, -⟩, hpins⟩
  exact (hsteps.aside hstore hvolume fun h => h.pinsNothing hpins).trans
    (Buffered.aside_dropFile hidle ((hstores file).trans hstore) hvolume)

end PagedIndex
