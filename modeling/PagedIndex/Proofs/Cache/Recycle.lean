import PagedIndex.Proofs.Cache.Transfer

/-!
# Loading, restoring and releasing blocks

## Main statements

* `Mount.fetch_ends` — a load keeps all blocks and the buffers in use, and it ends well if nothing
  is refused and a buffer can be had.
* `Mount.restore_ends` — an image is put back, or the block is only in the store.
* `Mount.release_ends` — a file is released block by block.
-/

namespace PagedIndex

namespace Mount

variable {m : Mount} {s t u : Buffered} {fresh : Option BlockPos} {out out' : Option Nat}
  {i : Nat} {b : Buffer} {pos : BlockPos} {image : Bytes}

/-! ## A buffer gives its block up and takes another -/

theorem buffer?_unhook_eq_some {j : Nat} {b' : Buffer}
    (h : (s.cache.unhook i).buffer? j = some b') : j ≠ i ∧ s.cache.buffer? j = some b' := by
  rw [Cache.buffer?_unhook] at h
  split at h
  · cases h
  · next hj => exact ⟨hj, h⟩

theorem follows_unhook (s : Buffered) (i evictions : Nat) :
    s.Follows { s with cache := { s.cache.unhook i with evictions := evictions } } :=
  ⟨.refl _, Cache.capacity_unhook,
    fun _ => Cache.registration?_unhook⟩

/-- A buffer gives its block up. -/
theorem Intact.unhook (h : m.Intact none none s) (hi : (s.cache.buffer? i).isSome)
    (evictions : Nat) :
    m.Intact none (some i) { s with cache := { s.cache.unhook i with evictions := evictions } } := by
  have hfollows := follows_unhook s i evictions
  refine ⟨(h.sound.unhook hi).count _ _ _ _,
    Nat.le_trans h.enough (Nat.le_of_eq hfollows.capacity.symm), h.size_pos, h.volume_lt,
    h.header, (hfollows.stores _).trans h.store, fun j b' hb' hfile => ?_,
    fun j b' store hb' hdirty hfile hstore => ?_, fun j b' hb' hfile hdirty _ => ?_⟩
  · exact h.whole j b' (buffer?_unhook_eq_some hb').2 hfile
  · exact h.apart j b' store (buffer?_unhook_eq_some hb').2 hdirty hfile
      ((hfollows.stores _).symm.trans hstore)
  · exact h.clean j b' (buffer?_unhook_eq_some hb').2 hfile hdirty nofun

/-- If a buffer gives its block up, this block is read from the store from then on. -/
theorem content_unhook (h : m.Intact none none s) (hb : s.cache.buffer? i = some b)
    (evictions : Nat) (p : BlockPos) :
    m.content { s with cache := { s.cache.unhook i with evictions := evictions } } p =
      if b.file = m.file ∧ p = b.pos then m.stored s.disk p else m.content s p := by
  have hs := (h.unhook (by rw [hb]; rfl) evictions).sound
  split
  · next hp =>
    refine content_of_absent hs fun k b' hb' hf hpos => ?_
    obtain ⟨hk, hb''⟩ := buffer?_unhook_eq_some hb'
    exact hk (h.sound.unique k i b' b hb'' hb (hf.trans hp.1.symm) (hpos.trans hp.2))
  · next hp =>
    rcases held_or_absent s m p with ⟨j, b', hb', hfile, rfl⟩ | habsent
    · have hj : j ≠ i := by
        rintro rfl
        rw [hb] at hb'
        cases hb'
        exact hp ⟨hfile, rfl⟩
      rw [content_of_buffer h.sound hb' hfile]
      refine content_of_buffer (i := j) hs ?_ hfile
      show (s.cache.unhook i).buffer? j = some b'
      rw [Cache.buffer?_unhook, if_neg hj]
      exact hb'
    · rw [content_of_absent h.sound habsent]
      exact content_of_absent hs fun k b' hb' => habsent k b' (buffer?_unhook_eq_some hb').2

/-- A buffer without changes, or one of another file, gives its block up. -/
theorem Moves.unhook (h : m.Intact none none s) (hb : s.cache.buffer? i = some b)
    (hd : b.file = m.file → b.dirty = false) (evictions : Nat) :
    m.Moves (some i) s { s with cache := { s.cache.unhook i with evictions := evictions } } := by
  refine ⟨h.unhook (by rw [hb]; rfl) evictions, fun p x ha _ hx => ?_, follows_unhook s i evictions,
    fun hs => ?_⟩
  · rw [content_unhook h hb]
    split
    · next hp =>
      rw [hp.2, h.clean i b hb hp.1 (hd hp.1) nofun, ← content_of_buffer h.sound hb hp.1, ← hp.2]
      exact hx
    · exact hx
  · exact hs.follows (follows_unhook s i evictions) fun j b' hb' hdirty =>
      ⟨b', (buffer?_unhook_eq_some hb').2, hdirty, rfl, rfl, rfl⟩

/-- A buffer without a block becomes free. -/
theorem Moves.giveBack (h : m.Intact none (some i) s) :
    m.Moves none s { s with cache := s.cache.giveBack i } := by
  have hintact : m.Intact none none { s with cache := s.cache.giveBack i } :=
    ⟨h.sound.giveBack, h.enough, h.size_pos, h.volume_lt, h.header, h.store, h.whole, h.apart,
      h.clean⟩
  refine ⟨hintact, fun p x _ _ hx => ?_, ⟨.refl _, rfl, fun _ => rfl⟩, id⟩
  rw [← hx]
  exact content_congr (t := { s with cache := s.cache.giveBack i }) h.sound hintact.sound rfl
    (fun j b hb _ => ⟨b, hb, rfl, rfl, rfl⟩) (fun j b hb _ => ⟨b, hb, rfl, rfl⟩) p

/-- A free buffer is taken for a block. -/
theorem Moves.takeFree {rest : List Nat} (h : m.Intact none none s)
    (hfree : s.cache.free = i :: rest) :
    m.Moves (some i) s { s with cache := { s.cache with free := rest } } := by
  have hintact : m.Intact none (some i) { s with cache := { s.cache with free := rest } } :=
    ⟨h.sound.takeFree hfree, h.enough, h.size_pos, h.volume_lt, h.header, h.store, h.whole,
      h.apart, h.clean⟩
  refine ⟨hintact, fun p x _ _ hx => ?_, ⟨.refl _, rfl, fun _ => rfl⟩, id⟩
  rw [← hx]
  exact content_congr (t := { s with cache := { s.cache with free := rest } }) h.sound
    hintact.sound rfl (fun j b hb _ => ⟨b, hb, rfl, rfl, rfl⟩)
    (fun j b hb _ => ⟨b, hb, rfl, rfl⟩) p

/-- A buffer takes up a block that no buffer holds. -/
theorem Intact.hook (h : m.Intact none (some i) s)
    (habsent : ∀ j b, s.cache.buffer? j = some b → b.file = m.file → b.pos ≠ pos)
    (hpos : m.Aligned pos) (hlen : image.length = m.blockSize)
    (hfresh : fresh ≠ some pos → m.stored s.disk pos = some image) :
    m.Intact fresh none { s with cache := s.cache.hook i ⟨m.file, pos, image, false, false⟩ } := by
  have hlt := (h.sound.out_vacant i rfl).1
  have hback : ∀ j b', (s.cache.hook i ⟨m.file, pos, image, false, false⟩).buffer? j = some b' →
      b' = ⟨m.file, pos, image, false, false⟩ ∨ s.cache.buffer? j = some b' := by
    intro j b' hb'
    rw [Cache.buffer?_hook hlt] at hb'
    split at hb'
    · exact .inl (Option.some.inj hb').symm
    · exact .inr hb'
  have hreg : (s.cache.registration? m.file).isSome := by
    have := h.store
    unfold Cache.store? at this
    cases hr : s.cache.registration? m.file with
    | none => rw [hr] at this; cases this
    | some r => rfl
  refine ⟨h.sound.hook habsent hreg, ?_, h.size_pos, h.volume_lt, h.header, h.store,
    fun j b' hb' hfile => ?_, fun j b' store hb' hd hfile hstore => ?_,
    fun j b' hb' hfile hd hne => ?_⟩
  · exact Nat.le_trans h.enough (Nat.le_of_eq Cache.capacity_hook.symm)
  · rcases hback j b' hb' with rfl | hb'
    · exact ⟨hpos, hlen⟩
    · exact h.whole j b' hb' hfile
  · rcases hback j b' hb' with rfl | hb'
    · exact absurd rfl hfile
    · exact h.apart j b' store hb' hd hfile hstore
  · rcases hback j b' hb' with rfl | hb'
    · exact hfresh hne
    · exact h.clean j b' hb' hfile hd nofun

theorem content_hook (h : m.Intact none (some i) s)
    (ht : t = { s with cache := s.cache.hook i ⟨m.file, pos, image, false, false⟩ })
    (hs : t.cache.Sound none) (p : BlockPos) :
    m.content t p = if p = pos then some image else m.content s p := by
  have hlt := (h.sound.out_vacant i rfl).1
  have hi := (h.sound.out_vacant i rfl).2
  have hbuffer : ∀ j, t.cache.buffer? j =
      if j = i then some ⟨m.file, pos, image, false, false⟩ else s.cache.buffer? j := by
    intro j
    rw [ht]
    exact Cache.buffer?_hook hlt
  have hdisk : t.disk = s.disk := by rw [ht]
  split
  · next hp =>
    rw [hp]
    exact content_of_buffer (i := i) hs ((hbuffer i).trans (if_pos rfl)) rfl
  · next hp =>
    rcases held_or_absent s m p with ⟨j, b', hb', hfile, rfl⟩ | hp'
    · have hj : j ≠ i := by
        rintro rfl
        rw [hi] at hb'
        cases hb'
      rw [content_of_buffer h.sound hb' hfile]
      exact content_of_buffer (i := j) hs (by rw [hbuffer, if_neg hj]; exact hb') hfile
    · rw [content_of_absent h.sound hp', content_of_absent hs, hdisk]
      intro j b' hb' hfile hpos
      rw [hbuffer] at hb'
      split at hb'
      · cases hb'
        exact hp hpos.symm
      · exact hp' j b' hb' hfile hpos

/-! ## Loads -/

/-- Recycling takes a buffer that is not in use, or changes no buffer. -/
theorem evict_ends (h : m.Intact none none s) :
    Ends Cache.evict s fun r t =>
      (∀ e, r = .error e → m.Moves none s t ∧ t.cache = s.cache ∧
        t.disk.contents m.store.volume = s.disk.contents m.store.volume) ∧
      (∀ i, r = .ok i → m.Moves (some i) s t ∧
        (∀ b, s.cache.buffer? i = some b → b.pinned = false) ∧
        ∀ j, t.cache.buffer? j = if j = i then none else s.cache.buffer? j) ∧
      (s.Safe → s.Spare → s.cache.free = [] → ∃ i, r = .ok i) := by
  unfold Cache.evict
  refine Ends.get_bind ?_
  split
  · next hnone =>
    refine Ends.throw ⟨fun _ _ => ⟨.refl h, rfl, rfl⟩, fun _ hi => (nomatch hi), ?_⟩
    rintro - ⟨i, hi, hpin⟩ hfree
    obtain ⟨v, -, hv, -⟩ := h.sound.exists_victim hfree hi hpin
    rw [hnone] at hv
    cases hv
  · next i hi =>
    obtain ⟨b, hb, hp⟩ := Cache.victim?_eq_some hi
    refine Ends.bind (writeBack_ends h i) ?_ ?_
    · rintro e t ⟨hm, -, -, he, hsafe⟩
      exact ⟨fun _ _ => ⟨hm, he e rfl⟩, fun _ hok => (nomatch hok), fun hs => (nomatch hsafe hs)⟩
    · rintro ⟨⟩ t ⟨hm, -, hbuffers, -, -⟩
      have hbuffers := hbuffers rfl
      have hbt : t.cache.buffer? i = some { b with dirty := false } := by
        rw [hbuffers, if_pos rfl, hb]
        rfl
      refine Cache.update_bind_ends (Ends.pure ⟨fun _ he => (nomatch he), fun j hj => ?_,
        fun _ _ _ => ⟨i, rfl⟩⟩)
      cases hj
      refine ⟨hm.trans (.unhook hm.intact hbt (fun _ => rfl) _), fun b' hb' => ?_, fun j => ?_⟩
      · rw [hb] at hb'
        cases hb'
        exact hp
      · refine Eq.trans Cache.buffer?_unhook ?_
        split
        · rfl
        · next hj => rw [hbuffers, if_neg hj]

/-- Like recycling, but a free buffer comes first. -/
theorem vacate_ends (h : m.Intact none none s) :
    Ends Cache.vacate s fun r t =>
      (∀ e, r = .error e → m.Moves none s t ∧ t.cache = s.cache ∧
        t.disk.contents m.store.volume = s.disk.contents m.store.volume) ∧
      (∀ i, r = .ok i → m.Moves (some i) s t ∧
        (∀ b, s.cache.buffer? i = some b → b.pinned = false) ∧
        ∀ j, t.cache.buffer? j = if j = i then none else s.cache.buffer? j) ∧
      (s.Safe → s.Spare → ∃ i, r = .ok i) := by
  unfold Cache.vacate
  refine Ends.get_bind ?_
  split
  · next i rest hfree =>
    refine Cache.update_bind_ends (Ends.pure ⟨fun _ he => (nomatch he), fun j hj => ?_,
      fun _ _ => ⟨i, rfl⟩⟩)
    cases hj
    have hi : s.cache.buffer? i = none :=
      ((h.sound.mem_free i).mp (hfree ▸ List.mem_cons_self)).2.1
    refine ⟨.takeFree h hfree, fun b hb => (by rw [hi] at hb; cases hb), fun j => ?_⟩
    split
    · next hj => rw [hj]; exact hi
    · rfl
  · next hfree =>
    exact (evict_ends h).mono fun r t ⟨he, hok, hs⟩ => ⟨he, hok, fun hsafe hv => hs hsafe hv hfree⟩

/-- What is read of a block is what the store holds. -/
theorem readImage_ends (m : Mount) (d : Disk) (pos : BlockPos) (hsize : 0 < m.blockSize)
    (hheader : m.blockSize ≤ (d.contents m.store.volume).size) :
    Ends (Cache.readImage m.store pos m.blockSize) d fun r d' =>
      d.Follows d' ∧ d'.contents m.store.volume = d.contents m.store.volume ∧
        (∀ image, r = .ok image → m.stored d pos = some image) ∧
        (m.store.Reliable d → pos.offset + m.blockSize < Store.offsetBound →
          (m.stored d pos).isSome → ∃ image, r = .ok image) := by
  unfold Cache.readImage
  refine Ends.bind (m.store.read_ends d pos.offset m.blockSize) ?_ ?_
  · rintro e d' hg
    refine ⟨hg.follows, hg.contents _, fun _ he => (nomatch he), fun hrel hlt => ?_⟩
    obtain ⟨b, hb⟩ := hg.yields hrel.yields hlt
    cases hb
  · rintro got d' hg
    have hgot := hg.ok got rfl
    split
    · next hlen =>
      refine Ends.pure ⟨hg.follows, hg.contents _, fun image himage => ?_, fun _ _ _ => ⟨_, rfl⟩⟩
      cases himage
      rw [stored_eq_some_iff hsize]
      have := Contents.length_read (d.contents m.store.volume) pos.offset m.blockSize
      rw [← hgot] at this
      exact ⟨by omega, hgot.symm⟩
    · next hlen =>
      have hnot : ¬(m.stored d pos).isSome := by
        intro hsome
        obtain ⟨x, hx⟩ := Option.isSome_iff_exists.mp hsome
        have hxlen := length_stored hx
        rw [stored_eq_some_iff hsize, ← hgot] at hx
        exact hlen (hx.2 ▸ hxlen)
      have hnull : ¬(pos.isNull && minHeaderBytes ≤ got.length) = true := by
        intro h
        have hpos : pos.offset = 0 := by
          simp only [BlockPos.isNull, Bool.and_eq_true, beq_iff_eq] at h
          exact h.1
        have := Contents.length_read (d.contents m.store.volume) pos.offset m.blockSize
        rw [← hgot, hpos] at this
        exact hlen (by omega)
      rw [if_neg hnull]
      exact Ends.throw ⟨hg.follows, hg.contents _, fun _ he => (nomatch he),
        fun _ _ hsome => absurd hsome hnot⟩

/-- The content of which a load makes no use: none if it reads, else that of the loaded block. -/
def unread (read : Bool) (pos : BlockPos) : Option BlockPos := if read then none else some pos

structure Fetched (m : Mount) (pos : BlockPos) (read : Bool) (s : Buffered) (r : Except Error Nat)
    (t : Buffered) : Prop where
  follows : s.Follows t
  safe : s.Safe → t.Safe
  keeps : m.KeepsBut (unread read pos) s t
  pinned : ∀ j b, s.cache.buffer? j = some b → b.pinned = true → t.cache.buffer? j = some b
  pinned_back : ∀ j b, t.cache.buffer? j = some b → b.pinned = true → s.cache.buffer? j = some b
  error : ∀ e, r = .error e → m.Intact none none t ∧
    (read = false → (∀ j, t.cache.buffer? j = s.cache.buffer? j) ∧
      t.disk.contents m.store.volume = s.disk.contents m.store.volume)
  ok : ∀ i, r = .ok i → m.Intact (unread read pos) none t ∧
    ∃ b, t.cache.buffer? i = some b ∧ b.file = m.file ∧ b.pos = pos ∧
      (read = true → ∀ x, m.content s pos = some x → b.image = x)
  reliable : s.Safe → s.Spare → (read = true → m.store.Reliable s.disk ∧
    pos.offset + m.blockSize < Store.offsetBound ∧ (m.content s pos).isSome) → ∃ i, r = .ok i

theorem Intact.weaken (h : m.Intact none out s) (fresh : Option BlockPos) :
    m.Intact fresh out s :=
  ⟨h.sound, h.enough, h.size_pos, h.volume_lt, h.header, h.store, h.whole, h.apart,
    fun i b hb hfile hd _ => h.clean i b hb hfile hd nofun⟩

theorem storeOf_bind_ends {α : Type} {g : Store → CacheM α} {Q : Except Error α → Buffered → Prop}
    {file : FileId} {store : Store} (hstore : s.cache.store? file = some store)
    (h : Ends (g store) s Q) : Ends (Cache.storeOf file >>= g) s Q := by
  unfold Cache.store? at hstore
  obtain ⟨r, hr, rfl⟩ := Option.map_eq_some_iff.mp hstore
  refine Ends.bind (P := fun o t => o = .ok r.store ∧ t = s) ?_ (fun e t h => nomatch h.1) ?_
  · unfold Cache.storeOf
    refine Ends.get_bind ?_
    simp only [hr]
    exact Ends.pure ⟨rfl, rfl⟩
  · rintro a t ⟨ha, rfl⟩
    cases ha
    exact h

/-- The image for a block that is loaded: the one in the store, or a filled one. -/
theorem image_ends (h : m.Intact none out s) (pos : BlockPos) (read : Bool) :
    Ends (if read then Cache.onDisk (Cache.readImage m.store pos m.blockSize)
        else pure (List.replicate m.blockSize filler)) s fun r t =>
      m.Moves out s t ∧ t.cache = s.cache ∧
        t.disk.contents m.store.volume = s.disk.contents m.store.volume ∧
        (∀ image, r = .ok image → image.length = m.blockSize ∧
          (read = true → m.stored t.disk pos = some image)) ∧
        ((read = true → m.store.Reliable s.disk ∧
          pos.offset + m.blockSize < Store.offsetBound ∧ (m.stored s.disk pos).isSome) →
            ∃ image, r = .ok image) := by
  cases read with
  | false =>
    refine Ends.pure ⟨.refl h, rfl, rfl, fun image hi => ?_, fun _ => ⟨_, rfl⟩⟩
    cases hi
    exact ⟨List.length_replicate, nofun⟩
  | true =>
    refine (Cache.onDisk_ends (readImage_ends m s.disk pos h.size_pos h.header)).mono ?_
    rintro r ⟨c, d⟩ ⟨rfl, hf, hd, hok, hrel⟩
    refine ⟨.of_disk h hf hd, rfl, hd, fun image hi => ?_, fun hs => ?_⟩
    · have himage := hok image hi
      exact ⟨length_stored himage, fun _ => (stored_congr hd).trans himage⟩
    · obtain ⟨h₁, h₂, h₃⟩ := hs rfl
      exact hrel h₁ h₂ h₃

/-- A buffer that is looked up is used. -/
theorem Fetched.hit {read : Bool} (h : m.Intact none none s) (hi : s.cache.lookup m.file pos = some i) :
    m.Fetched pos read s (.ok i)
      { s with cache := { s.cache.touch i with hits := s.cache.hits + 1 } } := by
  obtain ⟨b, hb, hfile, rfl⟩ := h.sound.lookup_eq_some_iff.mp hi
  have hintact := h.touch (i := i) (by rw [hb]; rfl) (s.cache.hits + 1) s.cache.misses
    s.cache.evictions s.cache.writes
  have hcontent : ∀ p, m.content { s with cache :=
      { s.cache.touch i with hits := s.cache.hits + 1 } } p = m.content s p :=
    content_congr (t := { s with cache := { s.cache.touch i with hits := s.cache.hits + 1 } })
      h.sound hintact.sound rfl (fun j b hb _ => ⟨b, hb, rfl, rfl, rfl⟩)
      (fun j b hb _ => ⟨b, hb, rfl, rfl⟩)
  refine ⟨⟨.refl _, rfl, fun _ => rfl⟩, id, fun p x _ _ hx => (hcontent p).trans hx,
    fun _ _ hj _ => hj, fun _ _ hj _ => hj, nofun, fun j hj => ?_, fun _ _ _ => ⟨i, rfl⟩⟩
  cases hj
  refine ⟨hintact.weaken _, b, hb, hfile, rfl, fun _ x hx => ?_⟩
  rw [content_of_buffer h.sound hb hfile] at hx
  exact Option.some.inj hx

/-- A miss is counted. -/
theorem Moves.miss (h : m.Intact none none s) :
    m.Moves none s { s with cache := { s.cache with misses := s.cache.misses + 1 } } := by
  have hcount := h.count s.cache.hits (s.cache.misses + 1) s.cache.evictions s.cache.writes
  refine ⟨hcount, fun p x _ _ hx => ?_, ⟨.refl _, rfl, fun _ => rfl⟩, id⟩
  exact (content_congr (t := { s with cache := { s.cache with misses := s.cache.misses + 1 } })
    h.sound hcount.sound rfl (fun j b hb _ => ⟨b, hb, rfl, rfl, rfl⟩)
    (fun j b hb _ => ⟨b, hb, rfl, rfl⟩) p).trans hx

/-- Buffer `i` was taken for a block that no buffer holds. -/
structure Vacated (m : Mount) (pos : BlockPos) (i : Nat) (s t : Buffered) : Prop where
  moves : m.Moves (some i) s t
  buffers : ∀ j, t.cache.buffer? j = if j = i then none else s.cache.buffer? j
  unused : ∀ b, s.cache.buffer? i = some b → b.pinned = false
  absent : ∀ j b, s.cache.buffer? j = some b → b.file = m.file → b.pos ≠ pos

namespace Vacated

variable (h : m.Vacated pos i s t)
include h

theorem buffer_back {j : Nat} (hb : t.cache.buffer? j = some b) : s.cache.buffer? j = some b := by
  rw [h.buffers] at hb
  split at hb
  · cases hb
  · exact hb

theorem ne_of_pinned {j : Nat} (hb : s.cache.buffer? j = some b) (hp : b.pinned = true) : j ≠ i := by
  rintro rfl
  rw [h.unused b hb] at hp
  cases hp

theorem pinned {j : Nat} (hb : s.cache.buffer? j = some b) (hp : b.pinned = true) :
    t.cache.buffer? j = some b := by
  rw [h.buffers, if_neg (h.ne_of_pinned hb hp), hb]

theorem absent_back (j : Nat) (b : Buffer) (hb : t.cache.buffer? j = some b) :
    b.file = m.file → b.pos ≠ pos :=
  h.absent j b (h.buffer_back hb)

/-- What the block reads as is in the store, since no buffer holds it. -/
theorem stored (hpos : m.Aligned pos) {x : Bytes} (hx : m.content s pos = some x) :
    m.stored t.disk pos = some x := by
  have := h.moves.keeps pos x hpos nofun hx
  rwa [content_of_absent h.moves.intact.sound h.absent_back] at this

/-- The buffer is still taken when the store has been read. -/
theorem after {u : Buffered} (hmoves : m.Moves (some i) t u) (hcache : u.cache = t.cache) :
    m.Vacated pos i s u :=
  ⟨h.moves.trans hmoves, fun j => by rw [hcache]; exact h.buffers j, h.unused, h.absent⟩

/-- The block cannot be read, and the buffer is given back. -/
theorem unread {e : Error} {read : Bool} (hread : read = true)
    (hnot : ¬(m.store.Reliable s.disk ∧ pos.offset + m.blockSize < Store.offsetBound ∧
      (m.content s pos).isSome)) :
    m.Fetched pos read s (.error e) { t with cache := t.cache.giveBack i } := by
  have hback := h.moves.trans (.giveBack h.moves.intact)
  exact ⟨hback.follows, hback.safe, hback.keeps.weaken _, fun j b => h.pinned,
    fun j b hb _ => h.buffer_back hb, fun _ _ => ⟨hback.intact, fun hf => by simp [hf] at hread⟩,
    nofun, fun _ _ hr => absurd (hr hread) hnot⟩

/-- The buffer takes the block up. -/
theorem fill {read : Bool} (hpos : m.Aligned pos) (hlen : image.length = m.blockSize)
    (hread : read = true → m.stored t.disk pos = some image) :
    m.Fetched pos read s (.ok i)
      { t with cache := t.cache.hook i ⟨m.file, pos, image, false, false⟩ } := by
  have hlt := (h.moves.intact.sound.out_vacant i rfl).1
  have hnew : m.Intact (Mount.unread read pos) none
      { t with cache := t.cache.hook i ⟨m.file, pos, image, false, false⟩ } := by
    refine h.moves.intact.hook h.absent_back hpos hlen fun hne => ?_
    cases read with
    | false => exact absurd rfl hne
    | true => exact hread rfl
  have hbuffer : ∀ j, (t.cache.hook i ⟨m.file, pos, image, false, false⟩).buffer? j =
      if j = i then some ⟨m.file, pos, image, false, false⟩ else s.cache.buffer? j := by
    intro j
    refine (Cache.buffer?_hook hlt).trans ?_
    split
    · rfl
    · next hj => exact (h.buffers j).trans (if_neg hj)
  refine ⟨⟨h.moves.follows.disk, Cache.capacity_hook.trans h.moves.follows.capacity,
      h.moves.follows.registration⟩, fun hs j b hb hd => ?_, fun p x ha hp hx => ?_,
    fun j b hb hp => (hbuffer j).trans (by rw [if_neg (h.ne_of_pinned hb hp), hb]),
    fun j b hb hp => ?_, nofun, fun j hj => ?_, fun _ _ _ => ⟨i, rfl⟩⟩
  · rw [show Cache.buffer? _ j = _ from hbuffer j] at hb
    split at hb
    · cases hb
      cases hd
    · next hj => exact h.moves.safe hs j b ((h.buffers j).trans (by rw [if_neg hj, hb])) hd
  · rw [content_hook h.moves.intact rfl hnew.sound]
    split
    · next hpp =>
      cases read with
      | false => exact absurd (congrArg some hpp.symm) hp
      | true =>
        rw [hpp] at hx
        rw [← hread rfl, h.stored hpos hx]
    · exact h.moves.keeps p x ha nofun hx
  · rw [show Cache.buffer? _ j = _ from hbuffer j] at hb
    split at hb
    · cases hb
      cases hp
    · exact hb
  · cases hj
    refine ⟨hnew, _, (hbuffer i).trans (if_pos rfl), rfl, rfl, fun hr x hx => ?_⟩
    exact Option.some.inj ((hread hr).symm.trans (h.stored hpos hx))

end Vacated

/-- A load keeps all blocks and the buffers in use. -/
theorem fetch_ends (h : m.Intact none none s) (hpos : m.Aligned pos) (read : Bool) :
    Ends (Cache.fetch m.file pos m.blockSize read) s (m.Fetched pos read s) := by
  unfold Cache.fetch
  refine Ends.get_bind ?_
  split
  · next i hi => exact Cache.update_bind_ends (Ends.pure (.hit h hi))
  · next hnone =>
    have hmiss := Moves.miss h
    refine Cache.update_bind_ends (storeOf_bind_ends h.store (Ends.bind (vacate_ends hmiss.intact)
      ?_ ?_))
    · rintro e t ⟨herr, -, hrel⟩
      obtain ⟨hm, hcache, hdisk⟩ := herr e rfl
      have hm := hmiss.trans hm
      have hbuffer : ∀ j, t.cache.buffer? j = s.cache.buffer? j := fun j => by rw [hcache]; rfl
      refine ⟨hm.follows, hm.safe, hm.keeps.weaken _, fun j b hb _ => (hbuffer j).trans hb,
        fun j b hb _ => (hbuffer j).symm.trans hb,
        fun _ _ => ⟨hm.intact, fun _ => ⟨hbuffer, hdisk⟩⟩, nofun, fun hs hv _ => ?_⟩
      obtain ⟨i, hi⟩ := hrel hs hv
      cases hi
    · rintro i t ⟨-, hok, -⟩
      obtain ⟨hm, hpin, hbuffers⟩ := hok i rfl
      have hvacated : m.Vacated pos i s t :=
        ⟨hmiss.trans hm, hbuffers, hpin, h.sound.lookup_eq_none_iff.mp hnone⟩
      refine Ends.attempt_bind (image_ends hvacated.moves.intact pos read) ?_
      rintro r ⟨c, d⟩ ⟨hm', hcache, -, himage, hrel⟩
      have hvacated' := hvacated.after hm' hcache
      cases r with
      | error e =>
        have hread : read = true := by
          cases read with
          | true => rfl
          | false =>
            obtain ⟨image, hi⟩ := hrel nofun
            cases hi
        refine Cache.update_bind_ends (Ends.throw (hvacated'.unread hread ?_))
        rintro ⟨h₁, h₂, h₃⟩
        obtain ⟨x, hx⟩ := Option.isSome_iff_exists.mp h₃
        obtain ⟨image, hi⟩ := hrel fun _ => ⟨h₁.follows hvacated.moves.follows.disk, h₂, by
          rw [hvacated.stored hpos hx]; rfl⟩
        cases hi
      | ok image =>
        obtain ⟨hlen, hread⟩ := himage image rfl
        exact Cache.update_bind_ends (Ends.pure (hvacated'.fill hpos hlen hread))

/-! ## Putting images back -/

/-- A block that no buffer holds is written to the store. -/
theorem Intact.writeThrough {d : Disk} (h : m.Intact none none s)
    (habsent : ∀ i b, s.cache.buffer? i = some b → b.file = m.file → b.pos ≠ pos)
    (hpos : m.Aligned pos) (hlen : image.length = m.blockSize) (hf : s.disk.Follows d)
    (hd : d.contents m.store.volume = (s.disk.contents m.store.volume).write pos.offset image) :
    m.Intact none none { s with disk := d } ∧ m.KeepsBut (some pos) s { s with disk := d } ∧
      m.content { s with disk := d } pos = some image := by
  have hstored : ∀ p x, m.Aligned p → p ≠ pos → m.stored s.disk p = some x →
      m.stored d p = some x := fun p x ha hne hx =>
    stored_write_ne hlen h.size_pos hd hpos ha hne hx
  refine ⟨⟨h.sound, h.enough, h.size_pos, hf.size ▸ h.volume_lt, ?_, h.store, h.whole, h.apart,
    fun j b hb hfile hdirty _ => ?_⟩, fun p x ha hp hx => ?_, ?_⟩
  · show _ ≤ (d.contents m.store.volume).size
    rw [hd]
    exact Nat.le_trans h.header (Nat.le_max_left _ _)
  · exact hstored _ _ (h.whole j b hb hfile).1 (habsent j b hb hfile)
      (h.clean j b hb hfile hdirty nofun)
  · rcases held_or_absent s m p with ⟨j, b, hb, hfile, rfl⟩ | habsent'
    · rw [← hx, content_of_buffer h.sound hb hfile]
      exact content_of_buffer (s := { s with disk := d }) h.sound hb hfile
    · rw [content_of_absent h.sound habsent'] at hx
      rw [content_of_absent (s := { s with disk := d }) h.sound habsent']
      exact hstored p x ha (fun hpp => hp (congrArg some hpp.symm)) hx
  · rw [content_of_absent (s := { s with disk := d }) h.sound habsent]
    exact stored_write_self hlen h.size_pos hd

structure Restored (m : Mount) (pos : BlockPos) (image : Bytes) (s : Buffered)
    (r : Except Error Unit) (t : Buffered) : Prop where
  intact : m.Intact none none t
  follows : s.Follows t
  keeps : m.KeepsBut (some pos) s t
  pinned_back : ∀ j b, t.cache.buffer? j = some b → b.pinned = true →
    ∃ b', s.cache.buffer? j = some b' ∧ b'.pinned = true
  ok : r = .ok () → m.content t pos = some image
  error : ∀ e, r = .error e → m.content t pos = m.content s pos
  reliable : s.Safe → m.store.Reliable s.disk → pos.offset + m.blockSize < Store.offsetBound →
    s.Spare → r = .ok () ∧ t.Safe

theorem setImage_eq_some {j : Nat} {b' : Buffer} (hb : s.cache.buffer? i = some b)
    (h : (s.cache.setImage i image).buffer? j = some b') :
    (j = i ∧ b' = { b with image := image, dirty := true }) ∨
      (j ≠ i ∧ s.cache.buffer? j = some b') := by
  rw [Cache.setImage, Cache.buffer?_modifyBuffer] at h
  split at h
  · next hj =>
    rw [hb] at h
    exact .inl ⟨hj, (Option.some.inj h).symm⟩
  · next hj => exact .inr ⟨hj, h⟩

theorem follows_setImage (s : Buffered) (i : Nat) (image : Bytes) :
    s.Follows { s with cache := s.cache.setImage i image } :=
  ⟨.refl _, Cache.capacity_modifyBuffer _, fun _ => rfl⟩

/-- The changes of a buffer can be written if the store of its file refuses nothing. -/
theorem safe_setImage (hs : s.Safe) (hb : s.cache.buffer? i = some b)
    (hstore : s.cache.store? b.file = some m.store) (hrel : m.store.Reliable s.disk)
    (hlt : b.pos.offset + image.length < Store.offsetBound) :
    Buffered.Safe { s with cache := s.cache.setImage i image } := by
  intro j b' hb' hd
  rcases setImage_eq_some hb hb' with ⟨-, rfl⟩ | ⟨-, hj⟩
  · exact ⟨m.store, hstore, hrel, hlt⟩
  · exact hs j b' hj hd

/-- A buffer of the block gets the image. -/
theorem Restored.setImage (h : m.Intact (some pos) none s) (hb : s.cache.buffer? i = some b)
    (hfile : b.file = m.file) (hpos : b.pos = pos) (hlen : image.length = m.blockSize) :
    m.Restored pos image s (.ok ()) { s with cache := s.cache.setImage i image } := by
  refine ⟨h.setImage hb hfile (fun q hq => ((Option.some.inj hq).symm.trans hpos.symm)) hlen,
    follows_setImage s i image, fun p x _ hp hx => ?_, fun j b' hb' hp => ?_, fun _ => ?_,
    fun _ he => (nomatch he), fun hs hrel hlt _ => ⟨rfl, ?_⟩⟩
  · rw [content_setImage h.sound hb hfile, if_neg fun hpp => hp (by rw [hpp, hpos])]
    exact hx
  · rcases setImage_eq_some hb hb' with ⟨rfl, rfl⟩ | ⟨-, hj⟩
    · exact ⟨b, hb, hp⟩
    · exact ⟨b', hj, hp⟩
  · rw [content_setImage h.sound hb hfile, if_pos hpos.symm]
  · exact safe_setImage hs hb (hfile ▸ h.store) hrel (by rw [hlen, hpos]; exact hlt)

/-- An image is put back, or the block is in the store only and reads as before. -/
theorem restore_ends (h : m.Intact none none s) (hpos : m.Aligned pos)
    (hlen : image.length = m.blockSize) :
    Ends (Cache.restore m.file pos image) s (m.Restored pos image s) := by
  unfold Cache.restore
  refine Ends.get_bind ?_
  split
  · next i hi =>
    obtain ⟨b, hb, hfile, hbp⟩ := h.sound.lookup_eq_some_iff.mp hi
    exact Cache.update_ends (.setImage (h.weaken _) hb hfile hbp hlen)
  · next hnone =>
    have habsent := h.sound.lookup_eq_none_iff.mp hnone
    rw [hlen]
    refine Ends.attempt_bind (fetch_ends h hpos false) ?_
    intro r t hf
    have hback : ∀ j b, t.cache.buffer? j = some b → b.pinned = true →
        ∃ b', s.cache.buffer? j = some b' ∧ b'.pinned = true :=
      fun j b hb hp => ⟨b, hf.pinned_back j b hb hp, hp⟩
    cases r with
    | ok i =>
      obtain ⟨hintact, b, hb, hfile, hbp, -⟩ := hf.ok i rfl
      have hr := Restored.setImage hintact hb hfile hbp hlen
      refine Cache.update_ends ⟨hr.intact, hf.follows.trans hr.follows, hf.keeps.trans hr.keeps,
        fun j b hb hp => ?_, hr.ok, fun _ he => (nomatch he), fun hs hrel hlt _ => ⟨rfl, ?_⟩⟩
      · obtain ⟨b', hb', hp'⟩ := hr.pinned_back j b hb hp
        exact hback j b' hb' hp'
      · exact safe_setImage (hf.safe hs) hb (hfile ▸ hintact.store) (hrel.follows hf.follows.disk)
          (by rw [hlen, hbp]; exact hlt)
    | error e =>
      obtain ⟨hintact, hsame⟩ := hf.error e rfl
      obtain ⟨hbuffers, hdisk⟩ := hsame rfl
      have habsent' : ∀ j b, t.cache.buffer? j = some b → b.file = m.file → b.pos ≠ pos :=
        fun j b hb => habsent j b (by rw [← hbuffers]; exact hb)
      have hcontent : m.content t pos = m.content s pos := by
        rw [content_of_absent h.sound habsent, content_of_absent hintact.sound habsent',
          stored_congr hdisk]
      have hunreliable : s.Safe → s.Spare → False := fun hs hspare => by
        obtain ⟨i, hi⟩ := hf.reliable hs hspare fun hread => (nomatch hread)
        cases hi
      have hne : image ≠ [] := by
        rintro rfl
        exact absurd h.size_pos (by rw [← hlen]; exact Nat.lt_irrefl 0)
      refine storeOf_bind_ends hintact.store ?_
      refine (Cache.onDisk_ends (m.store.write_ends t.disk pos.offset image)).mono ?_
      rintro r ⟨c, d⟩ ⟨rfl, hw⟩
      have hfollows : t.Follows ⟨t.cache, d⟩ := ⟨hw.follows, rfl, fun _ => rfl⟩
      cases r with
      | ok u =>
        obtain ⟨hthrough, hkeeps, hput⟩ := hintact.writeThrough habsent' hpos hlen hw.follows
          (hw.ok rfl hintact.volume_lt hne)
        exact ⟨hthrough, hf.follows.trans hfollows, hf.keeps.trans hkeeps, hback, fun _ => hput,
          fun _ he => (nomatch he), fun hs _ _ hspare => absurd hspare (hunreliable hs)⟩
      | error e' =>
        have hm := Moves.of_disk hintact hw.follows (hw.error e' rfl)
        refine ⟨hm.intact, hf.follows.trans hfollows, hf.keeps.trans (hm.keeps.weaken _), hback,
          fun hok => (nomatch hok), fun _ _ => ?_,
          fun hs _ _ hspare => absurd hspare (hunreliable hs)⟩
        rw [← hcontent, content_of_absent hintact.sound habsent',
          content_of_absent hm.intact.sound habsent']
        exact stored_congr (hw.error e' rfl)

/-- Forgetting a block loses no more than the changes of this block. -/
theorem forget_spec (h : m.Intact none none s) (pos : BlockPos) :
    m.Intact none none { s with cache := s.cache.forget m.file pos } ∧
      m.KeepsBut (some pos) s { s with cache := s.cache.forget m.file pos } ∧
      s.Follows { s with cache := s.cache.forget m.file pos } ∧
      ∀ j b, (s.cache.forget m.file pos).buffer? j = some b → s.cache.buffer? j = some b := by
  unfold Cache.forget
  split
  · next i hi =>
    obtain ⟨b, hb, hfile, rfl⟩ := h.sound.lookup_eq_some_iff.mp hi
    have hout := h.unhook (i := i) (by rw [hb]; rfl) (s.cache.unhook i).evictions
    have hback := Moves.giveBack hout
    refine ⟨hback.intact, fun p x ha hp hx => hback.keeps p x ha nofun ?_,
      (follows_unhook s i _).trans hback.follows, fun j b' hb' => ?_⟩
    · rw [content_unhook h hb, if_neg fun hpp => hp (congrArg some hpp.2.symm)]
      exact hx
    · exact (buffer?_unhook_eq_some hb').2
  · exact ⟨h, .refl s, .refl s, fun _ _ hb => hb⟩

/-! ## Releasing -/

structure Released (m : Mount) (s : Buffered) (r : Except Error Unit) (t : Buffered) : Prop where
  moves : m.Moves none s t
  pinned_back : ∀ j b, t.cache.buffer? j = some b → b.pinned = true →
    ∃ b', s.cache.buffer? j = some b' ∧ b'.pinned = true
  reliable : s.Safe → r = .ok ()

/-- A buffer is released if its changes are in the store, or are none of the file. -/
theorem releaseBuffer_ends (h : m.Intact none none s) {mode : Release}
    (hb : s.cache.buffer? i = some b) (hmode : mode = .discard → b.file ≠ m.file) :
    Ends (Cache.releaseBuffer mode i) s fun r t => ∃ o, r = .ok o ∧ m.Released s o t := by
  have hdiscard : ∀ {t : Buffered} {b' : Buffer}, m.Intact none none t →
      t.cache.buffer? i = some b' → (b'.file = m.file → b'.dirty = false) →
      m.Moves none t { t with cache := t.cache.discard i } ∧
        ∀ j b, (t.cache.discard i).buffer? j = some b → t.cache.buffer? j = some b := by
    intro t b' ht hb' hd
    have hout := Moves.unhook ht hb' hd (t.cache.unhook i).evictions
    exact ⟨hout.trans (.giveBack hout.intact), fun j b hb => (buffer?_unhook_eq_some hb).2⟩
  unfold Cache.releaseBuffer
  cases mode with
  | discard =>
    obtain ⟨hm, hbuffers⟩ := hdiscard h hb fun hfile => absurd hfile (hmode rfl)
    refine Ends.attempt_bind (Ends.pure (Q := fun o t => o = .ok () ∧ t = s) ⟨rfl, rfl⟩) ?_
    rintro r t ⟨rfl, rfl⟩
    exact ⟨.ok (), rfl, hm, fun j b hb hp => ⟨b, hbuffers j b hb, hp⟩, fun _ => rfl⟩
  | flush =>
    refine Ends.attempt_bind (writeBack_ends h i) ?_
    rintro r t ⟨hm, -, hok, herr, hrel⟩
    cases r with
    | error e =>
      refine Ends.pure ⟨.error e, rfl, hm, fun j b hb hp => ⟨b, ?_, hp⟩, fun hs => hrel hs⟩
      rw [← (herr e rfl).1]
      exact hb
    | ok u =>
      have hbuffers := hok rfl
      have hbt : t.cache.buffer? i = some { b with dirty := false } := by
        rw [hbuffers, if_pos rfl, hb]
        rfl
      obtain ⟨hm', hbuffers'⟩ := hdiscard hm.intact hbt fun _ => rfl
      refine ⟨.ok (), rfl, hm.trans hm', fun j b' hb' hp => ?_, fun _ => rfl⟩
      have := hbuffers' j b' hb'
      rw [hbuffers] at this
      split at this
      · next hj =>
        rw [hb] at this
        cases this
        exact ⟨b, hj ▸ hb, hp⟩
      · exact ⟨b', this, hp⟩

/-- Buffers are released one after the other. -/
theorem releaseAmong_ends (h : m.Intact none none s) (file : FileId) (mode : Release)
    (hmode : mode = .discard → file ≠ m.file) (buffers : List Nat) :
    Ends (Cache.releaseAmong file mode buffers) s fun r t =>
      ∃ o, r = .ok o ∧ m.Released s o t := by
  induction buffers generalizing s with
  | nil => exact ⟨.ok (), rfl, .refl h, fun j b hb hp => ⟨b, hb, hp⟩, fun _ => rfl⟩
  | cons i rest ih =>
    unfold Cache.releaseAmong
    refine Ends.get_bind ?_
    simp only
    split
    · next hany =>
      obtain ⟨b, hb, hfile⟩ : ∃ b, s.cache.buffer? i = some b ∧ b.file = file := by
        cases hb : s.cache.buffer? i with
        | none => rw [hb] at hany; cases hany
        | some b => exact ⟨b, rfl, by rw [hb] at hany; simpa using hany⟩
      refine Ends.bind (releaseBuffer_ends h hb fun hm => hfile ▸ hmode hm) ?_ ?_
      · rintro e t ⟨o, ho, -⟩
        cases ho
      · rintro first t ⟨o, ho, hfirst⟩
        cases ho
        refine Ends.bind (ih hfirst.moves.intact) ?_ ?_
        · rintro e u ⟨o, ho, -⟩
          cases ho
        · rintro others u ⟨o, ho, hothers⟩
          cases ho
          refine Ends.pure ⟨_, rfl, hfirst.moves.trans hothers.moves, fun j b hb hp => ?_,
            fun hs => ?_⟩
          · obtain ⟨b', hb', hp'⟩ := hothers.pinned_back j b hb hp
            exact hfirst.pinned_back j b' hb' hp'
          · rw [hfirst.reliable hs]
            exact hothers.reliable (hfirst.moves.safe hs)
    · exact ih h

/-- A file is released; its blocks read as before from the store, or from the buffers whose
changes could not be written. -/
theorem release_ends (h : m.Intact none none s) (file : FileId) (mode : Release)
    (hmode : mode = .discard → file ≠ m.file) :
    Ends (Cache.release file mode) s (m.Released s) := by
  unfold Cache.release
  refine Ends.get_bind (Ends.bind (releaseAmong_ends h file mode hmode _) ?_ ?_)
  · rintro e t ⟨o, ho, -⟩
    cases ho
  · rintro r t ⟨o, ho, hr⟩
    cases ho
    exact ends_settle hr

end Mount

end PagedIndex
