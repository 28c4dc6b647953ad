import PagedIndex.Proofs.Cache.Spared

/-!
# Files that are only read

Where nothing changes a file, each of its buffers holds what its volume holds, wherever the links of
the file lead and whether blocks lie apart or not. Work that puts no image into the blocks of the
file keeps it so and leaves the volume as it is.

## Main definitions

* `Store.RefusesNothing` — a store that refuses no access.
* `Mount.read?` — what a block reads as.
* `Mount.Mirrors` — a cache that holds of a file what its volume holds.

## Main statements

* `Cache.Steps.mirrors` — work that puts in no images.
* `Cache.fetch_refusesNothing` — a block that can be read is loaded.
-/

namespace PagedIndex

namespace Store

/-- A store that refuses no access. -/
def RefusesNothing (s : Store) (d : Disk) : Prop :=
  ∀ access n, (d.volume s.volume).refusal access n = none

def bytes? (s : Store) (d : Disk) (offset length : Nat) : Option Bytes :=
  match s.kind with
  | .memory => some ((d.contents s.volume).read offset length)
  | .file _ =>
    if offset + length ≥ offsetBound then none else some ((d.contents s.volume).read offset length)
  | .folder => none

variable {s : Store} {d d' : Disk} {offset length : Nat}

theorem Reliable.refusesNothing (h : s.Reliable d) : s.RefusesNothing d := h.refusal

theorem RefusesNothing.follows (h : s.RefusesNothing d) (hf : d.Follows d') :
    s.RefusesNothing d' := fun access n => by
  rw [hf.refusal]
  exact h access n

theorem ask_refusesNothing (h : s.RefusesNothing d) (access : Access) (offset length : Nat) :
    Ends (s.ask access offset length) d fun r _ => r = .ok () := by
  refine (s.ask_refused d access offset length).mono fun r _ hrefused => ?_
  cases r with
  | ok => rfl
  | error e =>
    obtain ⟨n, cause, hcause, -⟩ := hrefused e rfl
    rw [h] at hcause
    cases hcause

theorem bytes?_congr (h : d'.contents s.volume = d.contents s.volume) :
    s.bytes? d' offset length = s.bytes? d offset length := by
  unfold bytes?
  rw [h]

structure Told (s : Store) (offset length : Nat) (d : Disk) (r : Except Error Bytes) (d' : Disk) :
    Prop where
  follows : d.Follows d'
  contents : ∀ id, d'.contents id = d.contents id
  ok : ∀ b, r = .ok b → s.bytes? d offset length = some b
  refusesNothing : s.RefusesNothing d → ∀ b, s.bytes? d offset length = some b → r = .ok b

theorem read_told (s : Store) (d : Disk) (offset length : Nat) :
    Ends (s.read offset length) d (s.Told offset length d) := by
  unfold read
  refine Ends.bind ((s.ask_ends d .read offset length).and (Ends.all fun h : s.RefusesNothing d =>
    ask_refusesNothing h .read offset length)) ?_ ?_
  · rintro e d' ⟨⟨hf, hc, -⟩, hrefusesNothing⟩
    exact ⟨hf, hc, nofun, fun h => nomatch hrefusesNothing h⟩
  · rintro ⟨⟩ d' ⟨⟨hf, hc, -⟩, -⟩
    have hread : (d'.volume s.volume).contents.read offset length =
        (d.contents s.volume).read offset length := congrArg (·.read offset length) (hc s.volume)
    cases hkind : s.kind with
    | memory =>
      have hbytes : s.bytes? d offset length = some ((d.contents s.volume).read offset length) := by
        unfold bytes?
        rw [hkind]
      refine ⟨hf, hc, fun b hb => ?_, fun _ b hb => ?_⟩
      · cases hb
        rw [hread, hbytes]
      · rw [hbytes] at hb
        cases hb
        exact congrArg Except.ok hread
    | folder =>
      refine Ends.throw ⟨hf, hc, nofun, fun _ b hb => ?_⟩
      unfold bytes? at hb
      rw [hkind] at hb
      cases hb
    | file writable =>
      dsimp only
      have hbytes : s.bytes? d offset length = if offset + length ≥ offsetBound then none
          else some ((d.contents s.volume).read offset length) := by
        unfold bytes?
        rw [hkind]
      split
      · next hfar =>
        rw [if_pos hfar] at hbytes
        exact Ends.throw ⟨hf, hc, nofun, fun _ b hb => nomatch hbytes.symm.trans hb⟩
      · next hnear =>
        rw [if_neg hnear] at hbytes
        refine ⟨hf, hc, fun b hb => ?_, fun _ b hb => ?_⟩
        · cases hb
          rw [hread, hbytes]
        · rw [hbytes] at hb
          cases hb
          exact congrArg Except.ok hread

end Store

namespace Mount

variable (m : Mount)

/-- What a block of a file reads as if the store does not refuse to read it. The header may be cut
short by the end of the file. -/
def read? (d : Disk) (pos : BlockPos) : Option Bytes :=
  (m.store.bytes? d pos.offset m.blockSize).bind fun got =>
    if got.length = m.blockSize then some got
    else if pos.isNull && minHeaderBytes ≤ got.length then
      some (Bytes.resize got m.blockSize filler)
    else none

/-- A cache holds of a file what its volume holds, and no changes to the volume. -/
structure Mirrors (out : Option Nat) (s : Buffered) : Prop where
  sound : s.cache.Sound out
  store : s.cache.store? m.file = some m.store
  apart : ∀ i b store, s.cache.buffer? i = some b → b.dirty = true →
    s.cache.store? b.file = some store → store.volume ≠ m.store.volume
  same : ∀ i b, s.cache.buffer? i = some b → b.file = m.file → m.read? s.disk b.pos = some b.image

variable {m} {s t : Buffered} {out out' : Option Nat} {d d' : Disk} {pos : BlockPos} {x : Bytes}

theorem read?_congr (h : d'.contents m.store.volume = d.contents m.store.volume) :
    m.read? d' pos = m.read? d pos := by
  unfold read?
  rw [Store.bytes?_congr h]

theorem length_read? (h : m.read? d pos = some x) : x.length = m.blockSize := by
  obtain ⟨got, -, hx⟩ := Option.bind_eq_some_iff.mp h
  split at hx
  · next hlength =>
    cases hx
    exact hlength
  · split at hx
    · cases hx
      exact Bytes.length_resize got m.blockSize filler
    · cases hx

end Mount

namespace Cache

variable {m : Mount} {V : BlockPos → Prop} {W : BlockPos → Bytes → Prop} {s t : Buffered}
  {σ τ : Option Nat × Buffered} {pos : BlockPos} {x : Bytes}

theorem readImage_told (m : Mount) (pos : BlockPos) (d : Disk) :
    Ends (readImage m.store pos m.blockSize) d fun r d' => d.Follows d' ∧
      (∀ id, d'.contents id = d.contents id) ∧ (∀ x, r = .ok x → m.read? d pos = some x) ∧
      (m.store.RefusesNothing d → ∀ x, m.read? d pos = some x → r = .ok x) := by
  unfold readImage
  refine Ends.bind (m.store.read_told d pos.offset m.blockSize) ?_ ?_
  · rintro e d' htold
    refine ⟨htold.follows, htold.contents, nofun, fun hrefusesNothing x hx => ?_⟩
    obtain ⟨got, hgot, -⟩ := Option.bind_eq_some_iff.mp hx
    cases htold.refusesNothing hrefusesNothing got hgot
  · intro got d' htold
    have hread : m.read? d pos = if got.length = m.blockSize then some got
        else if pos.isNull && minHeaderBytes ≤ got.length then
          some (Bytes.resize got m.blockSize filler) else none := by
      unfold Mount.read?
      rw [htold.ok got rfl]
      rfl
    rw [hread]
    split
    · refine Ends.pure ⟨htold.follows, htold.contents, fun x hx => ?_, fun _ x hx => ?_⟩
      · cases hx
        rfl
      · cases hx
        rfl
    · split
      · refine Ends.pure ⟨htold.follows, htold.contents, fun x hx => ?_, fun _ x hx => ?_⟩
        · cases hx
          rfl
        · cases hx
          rfl
      · exact Ends.throw ⟨htold.follows, htold.contents, nofun, nofun⟩

/-- Where the images come from if no images are put in: they were cached, or they are read. -/
theorem Step.untouched (h : Step m V (fun _ _ => False) σ τ) {j : Nat} {b : Buffer}
    (hb : τ.2.cache.buffer? j = some b) : b.From σ.2.cache j ∨
      b.dirty = false ∧ ∃ d, readImage m.store b.pos m.blockSize σ.2.disk = .ok b.image d := by
  cases h with
  | count | touch | note | takeFree | giveBack | ask | refused => exact .inl (Buffer.from_self hb)
  | through himage | fill _ himage => exact himage.elim
  | pin =>
    have hb := (buffer?_modifyBuffer _).symm.trans hb
    split at hb
    · next hj =>
      obtain ⟨b', hb', rfl⟩ := Option.map_eq_some_iff.mp hb
      exact .inl ⟨b', hj ▸ hb', rfl, rfl, rfl, id⟩
    · exact .inl (Buffer.from_self hb)
  | edit hown =>
    have hb := (buffer?_modifyBuffer _).symm.trans hb
    split at hb
    · obtain ⟨b', hb', rfl⟩ := Option.map_eq_some_iff.mp hb
      exact (hown b' hb').2.elim
    · exact .inl (Buffer.from_self hb)
  | @unhook s => exact .inl (Buffer.from_self (Mount.buffer?_unhook_eq_some (s := s) hb).2)
  | @writeOut s i b₀ store d =>
    obtain ⟨hj, hb⟩ := Mount.buffer?_unhook_eq_some (s := ⟨s.cache.clean i, d⟩) hb
    rw [buffer?_clean, if_neg hj] at hb
    exact .inl (Buffer.from_self hb)
  | @load s i pos image d _ _ hread =>
    rcases buffer?_hook_cases hb with ⟨-, rfl⟩ | ⟨-, hb⟩
    · exact .inr ⟨rfl, d, hread⟩
    · exact .inl (Buffer.from_self hb)

/-- Changes of other files are not written to the volume. -/
theorem Step.volume_same (h : Step m V (fun _ _ => False) σ τ) (hs : m.Mirrors σ.1 σ.2) :
    τ.2.disk.contents m.store.volume = σ.2.disk.contents m.store.volume := by
  cases h with
  | ask => exact (Store.ask_ends _ _ _ _ _).ending.2.1 _
  | through himage => exact himage.elim
  | @refused out s i b store e d hb hstore hwrite =>
    have hwrote := (Store.write_ends store s.disk b.pos.offset b.image).of_error hwrite
    by_cases hvolume : m.store.volume = store.volume
    · rw [hvolume]
      exact hwrote.error e rfl
    · exact hwrote.apart _ hvolume
  | @writeOut s i b store d hb hdirty hstore hwrite =>
    have hwrote := (Store.write_ends store s.disk b.pos.offset b.image).of_ok hwrite
    exact hwrote.apart _ (hs.apart i b store hb hdirty hstore).symm
  | @load s i pos image d _ _ hread => exact ((readImage_told m pos s.disk).of_ok hread).2.1 _
  | _ => rfl

theorem Step.mirrors (h : Step m V (fun _ _ => False) σ τ) (hs : m.Mirrors σ.1 σ.2) :
    m.Mirrors τ.1 τ.2 := by
  have hstores := h.registered.2.1
  refine ⟨h.sound hs.sound hs.store, (hstores _).trans hs.store, fun i b store hb hdirty hstore => ?_,
    fun i b hb hfile => ?_⟩
  · rcases h.untouched hb with ⟨b', hb', hsame, -, -, hchanged⟩ | ⟨hclean, -⟩
    · refine hs.apart i b' store hb' (hchanged hdirty) ?_
      rw [hsame, ← hstores]
      exact hstore
    · rw [hclean] at hdirty
      cases hdirty
  · rw [Mount.read?_congr (h.volume_same hs)]
    rcases h.untouched hb with ⟨b', hb', hsame, hpos, himage, -⟩ | ⟨-, d, hread⟩
    · rw [← hpos, ← himage]
      exact hs.same i b' hb' (hsame.trans hfile)
    · exact ((readImage_told m b.pos σ.2.disk).of_ok hread).2.2.1 _ rfl

theorem Through.mirrors (h : Through m V (fun _ _ => False) σ τ) (hs : m.Mirrors σ.1 σ.2) :
    m.Mirrors τ.1 τ.2 ∧
      τ.2.disk.contents m.store.volume = σ.2.disk.contents m.store.volume := by
  induction h with
  | refl => exact ⟨hs, rfl⟩
  | tail _ hstep ih => exact ⟨hstep.mirrors ih.1, (hstep.volume_same ih.1).trans ih.2⟩

/-- Work that puts in no images leaves the volume as it is. -/
theorem Steps.mirrors (h : Steps m V (fun _ _ => False) s t) (hs : m.Mirrors none s) :
    m.Mirrors none t ∧ t.disk.contents m.store.volume = s.disk.contents m.store.volume :=
  Through.mirrors h hs

/-- Work that puts in no images leaves no other changes. -/
theorem Steps.flushable (h : Steps m V (fun _ _ => False) s t) (hs : s.Flushable) : t.Flushable := by
  have hall : ∀ τ, Through m V (fun _ _ => False) (none, s) τ → τ.2.Flushable := by
    intro τ hτ
    induction hτ with
    | refl => exact hs
    | tail _ hstep ih =>
      intro i b hb hdirty
      rcases hstep.untouched hb with ⟨b', hb', hfile, hpos, himage, hchanged⟩ | ⟨hclean, -⟩
      · obtain ⟨store, hstore, htakes, hlt⟩ := ih i b' hb' (hchanged hdirty)
        exact ⟨store, by rw [hstep.registered.2.1, ← hfile]; exact hstore,
          htakes.follows hstep.reaches.follows, by rw [← hpos, ← himage]; exact hlt⟩
      · rw [hclean] at hdirty
        cases hdirty
  exact hall _ h

/-- A block that is loaded is in the buffer that is told. -/
theorem fetch_present (hsound : s.cache.Sound none) (hstore : s.cache.store? m.file = some m.store) :
    Ends (fetch m.file pos m.blockSize true) s fun r t => ∀ i, r = .ok i →
      ∃ b, t.cache.buffer? i = some b ∧ b.pos = pos := by
  unfold fetch
  refine Ends.get_bind ?_
  split
  · next i hi =>
    obtain ⟨b, hb, -, hpos⟩ := hsound.lookup_eq_some_iff.mp hi
    refine update_bind_ends (Ends.pure fun j hj => ?_)
    cases hj
    exact ⟨b, hb, hpos⟩
  · next hnone =>
    refine miss_ends (V := fun _ => True) (W := fun _ _ => True) hsound hstore hnone
      (fun _ _ _ _ => nofun) fun i t htaken habsent => ?_
    have hi : i < t.cache.capacity := ((Through.sound htaken hsound hstore).out_vacant i rfl).1
    refine Ends.attempt_bind (onDisk_ends (P := fun _ _ => True)
      (ends_ending.mono fun _ _ _ => trivial)) ?_
    rintro r ⟨c, d⟩ ⟨hc, -⟩
    cases hc
    cases r with
    | error e => exact update_bind_ends (Ends.throw nofun)
    | ok image =>
      refine update_bind_ends (Ends.pure fun j hj => ?_)
      cases hj
      exact ⟨_, (buffer?_hook hi).trans (if_pos rfl), rfl⟩

/-- A block that reads is loaded, if a buffer is not in use and changes of other files can be
written. -/
theorem fetch_refusesNothing (h : m.Mirrors none s) (hflushable : s.Flushable) (hspare : s.Spare)
    (hrefusesNothing : m.store.RefusesNothing s.disk) (hread : m.read? s.disk pos = some x) :
    Ends (fetch m.file pos m.blockSize true) s fun r _ => ∃ i, r = .ok i := by
  unfold fetch
  refine Ends.get_bind ?_
  split
  · exact update_bind_ends (Ends.pure ⟨_, rfl⟩)
  · have hcount : Buffered.Flushable ⟨{ s.cache with misses := s.cache.misses + 1 }, s.disk⟩ :=
      hflushable
    refine update_bind_ends (Mount.storeOf_bind_ends h.store ?_)
    refine Ends.bind ((vacate_flushable hcount (h.sound.count _ _ _ _) hspare).and
      (vacate_steps (m := m) (V := fun _ => True) (W := fun _ _ => False)
        (h.sound.count _ _ _ _))) ?_ ?_
    · rintro e t ⟨⟨i, hi⟩, -⟩
      cases hi
    · rintro i t ⟨-, -, htaken, -⟩
      have htaken : Through m (fun _ => True) (fun _ _ => False) (none, s) (some i, t) :=
        (Relation.ReflTransGen.single (.count _ _ _ _)).trans (htaken i rfl)
      obtain ⟨-, hcontents⟩ := htaken.mirrors h
      have hfollows : s.disk.Follows t.disk := (Through.reaches htaken).follows
      refine Ends.attempt_bind (onDisk_ends (readImage_told m pos t.disk)) ?_
      rintro r u ⟨-, -, -, -, hok⟩
      obtain rfl := hok (hrefusesNothing.follows hfollows) x ((Mount.read?_congr hcontents).trans hread)
      exact update_bind_ends (Ends.pure ⟨_, rfl⟩)

end Cache

end PagedIndex
