import PagedIndex.Proofs.Cache.Content

/-!
# Blocks between cache and store

Whatever fails on the way, blocks that move between buffers and stores read as before, and the
buffers in use stay as they are. If no access is refused, nothing fails.
-/

namespace PagedIndex

namespace Mount

variable {m : Mount} {s t : Buffered} {fresh : Option BlockPos} {out : Option Nat} {i : Nat}
  {b : Buffer} {pos : BlockPos} {image : Bytes}

/-! ## Steps of the cache -/

/-- Buffers that hold the same blocks with the same images read alike. -/
theorem content_congr (h : s.cache.Sound out) {out' : Option Nat} (h' : t.cache.Sound out')
    (hdisk : t.disk.contents m.store.volume = s.disk.contents m.store.volume)
    (hheld : ∀ i b, s.cache.buffer? i = some b → b.file = m.file →
      ∃ b', t.cache.buffer? i = some b' ∧ b'.file = b.file ∧ b'.pos = b.pos ∧ b'.image = b.image)
    (hback : ∀ i b', t.cache.buffer? i = some b' → b'.file = m.file →
      ∃ b, s.cache.buffer? i = some b ∧ b.file = b'.file ∧ b.pos = b'.pos) (p : BlockPos) :
    m.content t p = m.content s p := by
  rcases held_or_absent s m p with ⟨i, b, hb, hfile, rfl⟩ | habsent
  · obtain ⟨b', hb', hfile', hpos', himage⟩ := hheld i b hb hfile
    rw [content_of_buffer h hb hfile, ← hpos', content_of_buffer h' hb' (hfile'.trans hfile),
      himage]
  · rw [content_of_absent h habsent, content_of_absent h', stored_congr hdisk]
    intro i b' hb' hfile' hpos'
    obtain ⟨b, hb, hfile, hpos⟩ := hback i b' hb' hfile'
    exact habsent i b hb (hfile.trans hfile') (hpos.trans hpos')

/-- Touching and counting change nothing that is read. -/
theorem Intact.touch (h : m.Intact fresh out s) (hi : (s.cache.buffer? i).isSome)
    (hits misses evictions writes : Nat) :
    m.Intact fresh out { s with cache := { s.cache.touch i with
      hits := hits, misses := misses, evictions := evictions, writes := writes } } :=
  ⟨(h.sound.touch hi).count _ _ _ _, h.enough, h.size_pos, h.volume_lt, h.header, h.store, h.whole,
    h.apart, h.clean⟩

theorem Intact.count (h : m.Intact fresh out s) (hits misses evictions writes : Nat) :
    m.Intact fresh out { s with cache := { s.cache with
      hits := hits, misses := misses, evictions := evictions, writes := writes } } :=
  ⟨h.sound.count _ _ _ _, h.enough, h.size_pos, h.volume_lt, h.header, h.store, h.whole, h.apart,
    h.clean⟩

theorem Intact.setPinned (h : m.Intact fresh out s) (i : Nat) (pinned : Bool) :
    m.Intact fresh out { s with cache := s.cache.setPinned i pinned } := by
  have hback : ∀ j b, (s.cache.setPinned i pinned).buffer? j = some b → ∃ b',
      s.cache.buffer? j = some b' ∧ b'.file = b.file ∧ b'.pos = b.pos ∧ b'.image = b.image ∧
        b'.dirty = b.dirty := by
    intro j b hb
    rw [Cache.setPinned, Cache.buffer?_modifyBuffer] at hb
    split at hb
    · next hj =>
      obtain ⟨b', hb', rfl⟩ := Option.map_eq_some_iff.mp hb
      exact ⟨b', hj ▸ hb', rfl, rfl, rfl, rfl⟩
    · exact ⟨b, hb, rfl, rfl, rfl, rfl⟩
  refine ⟨h.sound.setPinned pinned, ?_, h.size_pos, h.volume_lt, h.header, h.store,
    fun j b hb hfile => ?_, fun j b store hb hd hfile hstore => ?_,
    fun j b hb hfile hd hne => ?_⟩
  · exact Nat.le_trans h.enough (Nat.le_of_eq (Cache.capacity_modifyBuffer _).symm)
  · obtain ⟨b', hb', hf, hp, hi, -⟩ := hback j b hb
    rw [← hp, ← hi]
    exact h.whole j b' hb' (hf.trans hfile)
  · obtain ⟨b', hb', hf, -, -, hd'⟩ := hback j b hb
    exact h.apart j b' store hb' (hd'.trans hd) (by rw [hf]; exact hfile)
      (by rw [hf]; exact hstore)
  · obtain ⟨b', hb', hf, hp, hi, hd'⟩ := hback j b hb
    rw [← hp, ← hi]
    exact h.clean j b' hb' (hf.trans hfile) (hd'.trans hd) (by rw [hp]; exact hne)

theorem content_setPinned (h : s.cache.Sound out) (i : Nat) (pinned : Bool) (p : BlockPos) :
    m.content { s with cache := s.cache.setPinned i pinned } p = m.content s p := by
  refine content_congr (t := { s with cache := s.cache.setPinned i pinned }) h (h.setPinned pinned)
    rfl (fun j b hb _ => ?_) (fun j b' hb' _ => ?_) p
  · show ∃ b', (s.cache.setPinned i pinned).buffer? j = some b' ∧ _
    rw [Cache.setPinned, Cache.buffer?_modifyBuffer]
    by_cases hj : j = i
    · subst hj
      exact ⟨{ b with pinned := pinned }, by rw [if_pos rfl, hb]; rfl, rfl, rfl, rfl⟩
    · exact ⟨b, by rw [if_neg hj]; exact hb, rfl, rfl, rfl⟩
  · have hb'' : (s.cache.setPinned i pinned).buffer? j = some b' := hb'
    rw [Cache.setPinned, Cache.buffer?_modifyBuffer] at hb''
    split at hb''
    · next hj =>
      obtain ⟨b, hb, rfl⟩ := Option.map_eq_some_iff.mp hb''
      exact ⟨b, hj ▸ hb, rfl, rfl⟩
    · exact ⟨b', hb'', rfl, rfl⟩

/-- A buffer of the file gets a new image. -/
theorem Intact.setImage (h : m.Intact fresh out s) (hb : s.cache.buffer? i = some b)
    (hfile : b.file = m.file) (hfresh : ∀ q, fresh = some q → q = b.pos)
    (hlen : image.length = m.blockSize) :
    m.Intact none out { s with cache := s.cache.setImage i image } := by
  have hback : ∀ j b', (s.cache.setImage i image).buffer? j = some b' →
      (j = i ∧ b' = { b with image := image, dirty := true }) ∨
        (j ≠ i ∧ s.cache.buffer? j = some b') := by
    intro j b' hb'
    rw [Cache.setImage, Cache.buffer?_modifyBuffer] at hb'
    split at hb'
    · next hj =>
      rw [hb] at hb'
      exact .inl ⟨hj, (Option.some.inj hb').symm⟩
    · next hj => exact .inr ⟨hj, hb'⟩
  refine ⟨h.sound.setImage image, ?_, h.size_pos, h.volume_lt, h.header, h.store,
    fun j b' hb' hf => ?_, fun j b' store hb' hd hf hstore => ?_, fun j b' hb' hf hd _ => ?_⟩
  · exact Nat.le_trans h.enough (Nat.le_of_eq (Cache.capacity_modifyBuffer _).symm)
  · rcases hback j b' hb' with ⟨-, rfl⟩ | ⟨-, hj⟩
    · exact ⟨(h.whole i b hb hfile).1, hlen⟩
    · exact h.whole j b' hj hf
  · rcases hback j b' hb' with ⟨-, rfl⟩ | ⟨-, hj⟩
    · exact absurd hfile hf
    · exact h.apart j b' store hj hd hf hstore
  · rcases hback j b' hb' with ⟨-, rfl⟩ | ⟨hji, hj⟩
    · cases hd
    · refine h.clean j b' hj hf hd fun hq => hji ?_
      exact h.sound.unique j i b' b hj hb (hf.trans hfile.symm) (hfresh _ hq)

theorem content_setImage (h : s.cache.Sound out) (hb : s.cache.buffer? i = some b)
    (hfile : b.file = m.file) (p : BlockPos) :
    m.content { s with cache := s.cache.setImage i image } p =
      if p = b.pos then some image else m.content s p := by
  have h' : (s.cache.setImage i image).Sound out := h.setImage image
  have hi : (s.cache.setImage i image).buffer? i = some { b with image := image, dirty := true } := by
    rw [Cache.setImage, Cache.buffer?_modifyBuffer, if_pos rfl, hb]
    rfl
  split
  · next hp =>
    rw [hp]
    exact content_of_buffer (s := { s with cache := s.cache.setImage i image }) h' hi hfile
  · next hp =>
    have hother : ∀ j, j ≠ i → (s.cache.setImage i image).buffer? j = s.cache.buffer? j := by
      intro j hj
      rw [Cache.setImage, Cache.buffer?_modifyBuffer, if_neg hj]
    rcases held_or_absent s m p with ⟨j, b', hb', hfile', rfl⟩ | habsent
    · have hj : j ≠ i := by
        rintro rfl
        rw [hb] at hb'
        cases hb'
        exact hp rfl
      rw [content_of_buffer h hb' hfile']
      exact content_of_buffer (s := { s with cache := s.cache.setImage i image }) h'
        ((hother j hj).trans hb') hfile'
    · rw [content_of_absent h habsent]
      refine content_of_absent (s := { s with cache := s.cache.setImage i image }) h' ?_
      intro j b' hb' hfile' hpos
      by_cases hj : j = i
      · subst hj
        rw [show (s.cache.setImage j image).buffer? j = _ from hi] at hb'
        cases hb'
        exact hp hpos.symm
      · exact habsent j b' (by rw [← hother j hj]; exact hb') hfile' hpos

end Mount

namespace Cache

variable {α β : Type} {s : Buffered}

/-- An access to the disk leaves the cache as it is. -/
theorem onDisk_ends {x : DiskM α} {P : Except Error α → Disk → Prop} (h : Ends x s.disk P) :
    Ends (onDisk x) s fun r t => t.cache = s.cache ∧ P r t.disk := by
  obtain ⟨c, d⟩ := s
  unfold Ends onDisk at *
  cases hx : x d <;> simp only [hx] at h ⊢ <;> exact ⟨trivial, h⟩

theorem update_ends {f : Cache → Cache} {Q : Except Error Unit → Buffered → Prop}
    (h : Q (.ok ()) ⟨f s.cache, s.disk⟩) : Ends (update f) s Q := h

theorem update_bind_ends {f : Cache → Cache} {g : Unit → CacheM β}
    {Q : Except Error β → Buffered → Prop} (h : Ends (g ()) ⟨f s.cache, s.disk⟩ Q) :
    Ends (update f >>= g) s Q := h

end Cache

namespace Mount

variable {m : Mount} {s t u : Buffered} {fresh : Option BlockPos} {out out' : Option Nat}
  {i : Nat} {b : Buffer} {pos : BlockPos} {image : Bytes}

/-! ## Writing back and recycling -/

/-- Blocks have moved between buffers and stores, and all of them read as before. -/
structure Moves (m : Mount) (out : Option Nat) (s t : Buffered) : Prop where
  intact : m.Intact none out t
  keeps : m.KeepsBut none s t
  follows : s.Follows t
  safe : s.Safe → t.Safe

theorem Moves.refl (h : m.Intact none out s) : m.Moves out s s := ⟨h, .refl s, .refl s, id⟩

theorem Moves.trans (h : m.Moves out s t) (h' : m.Moves out' t u) : m.Moves out' s u :=
  ⟨h'.intact, h.keeps.trans h'.keeps, h.follows.trans h'.follows, fun hs => h'.safe (h.safe hs)⟩

/-- A store that is not that of the file changes, or no store at all. -/
theorem Moves.of_disk {d : Disk} (h : m.Intact none out s) (hf : s.disk.Follows d)
    (hd : d.contents m.store.volume = s.disk.contents m.store.volume) :
    m.Moves out s { s with disk := d } := by
  have hintact : m.Intact none out { s with disk := d } := by
    refine ⟨h.sound, h.enough, h.size_pos, ?_, ?_, h.store, h.whole, h.apart,
      fun j b hb hfile hdirty hne => ?_⟩
    · exact hf.size ▸ h.volume_lt
    · exact Nat.le_trans h.header (Nat.le_of_eq (congrArg Contents.size hd.symm))
    · exact (stored_congr hd).trans (h.clean j b hb hfile hdirty hne)
  refine ⟨hintact, fun p x _ _ hx => ?_, ⟨hf, rfl, fun _ => rfl⟩, fun hs => ?_⟩
  · rw [← hx]
    exact content_congr (t := { s with disk := d }) h.sound h.sound hd
      (fun j b hb _ => ⟨b, hb, rfl, rfl, rfl⟩) (fun j b hb _ => ⟨b, hb, rfl, rfl⟩) p
  · exact hs.follows ⟨hf, rfl, fun _ => rfl⟩ fun j b hb hd => ⟨b, hb, hd, rfl, rfl, rfl⟩

section Written

variable {d : Disk}

/-- A buffer that holds a block after one is cleaned held it before. -/
theorem buffer?_of_cleaned {c : Cache} {j : Nat} {b' : Buffer}
    (hb' : (c.modifyBuffer i fun b => { b with dirty := false }).buffer? j = some b') :
    ∃ b'', c.buffer? j = some b'' ∧ b''.file = b'.file ∧ b''.pos = b'.pos ∧
      b''.image = b'.image ∧ (b'.dirty = true → b''.dirty = true) ∧
      (b'.dirty = false → j ≠ i → b''.dirty = false) := by
  rw [Cache.buffer?_modifyBuffer] at hb'
  split at hb'
  · next hj =>
    obtain ⟨b'', hb'', rfl⟩ := Option.map_eq_some_iff.mp hb'
    exact ⟨b'', hj ▸ hb'', rfl, rfl, rfl, fun hd => (nomatch hd), fun _ hne => absurd hj hne⟩
  · exact ⟨b', hb', rfl, rfl, rfl, id, fun hd _ => hd⟩

/-- And one that held it before goes on to hold it. -/
theorem buffer?_cleaned {c : Cache} {j : Nat} (hb : c.buffer? j = some b) :
    ∃ b', (c.modifyBuffer i fun b => { b with dirty := false }).buffer? j = some b' ∧
      b'.file = b.file ∧ b'.pos = b.pos ∧ b'.image = b.image := by
  rw [Cache.buffer?_modifyBuffer]
  split
  · next hj =>
    rw [← hj, hb]
    exact ⟨_, rfl, rfl, rfl, rfl⟩
  · exact ⟨b, hb, rfl, rfl, rfl⟩

/-- The blocks of the file that are not the written one stay in the store. -/
theorem Intact.stored_of_written (h : m.Intact none out s) (hb : s.cache.buffer? i = some b)
    (hown : b.file = m.file →
      d.contents m.store.volume = (s.disk.contents m.store.volume).write b.pos.offset b.image)
    (hother : b.file ≠ m.file → d.contents m.store.volume = s.disk.contents m.store.volume)
    {p : BlockPos} {x : Bytes} (ha : m.Aligned p) (hne : b.file = m.file → p ≠ b.pos)
    (hx : m.stored s.disk p = some x) : m.stored d p = some x := by
  by_cases hfile : b.file = m.file
  · obtain ⟨hal, hlen⟩ := h.whole i b hb hfile
    exact stored_write_ne hlen h.size_pos (hown hfile) hal ha (hne hfile) hx
  · rw [stored_congr (hother hfile)]
    exact hx

/-- With its changes in the store a buffer is clean, and the file is as whole as before. -/
theorem Intact.of_written (h : m.Intact none out s) (hb : s.cache.buffer? i = some b)
    (hf : s.disk.Follows d)
    (hown : b.file = m.file →
      d.contents m.store.volume = (s.disk.contents m.store.volume).write b.pos.offset b.image)
    (hother : b.file ≠ m.file → d.contents m.store.volume = s.disk.contents m.store.volume)
    (writes : Nat) :
    m.Intact none out { s with
      cache := { s.cache.modifyBuffer i (fun b => { b with dirty := false }) with
        writes := writes }
      disk := d } := by
  have hsound := h.sound.modifyBuffer (i := i) (f := fun b => { b with dirty := false })
    (fun _ => rfl) fun _ => rfl
  have hcapacity : (s.cache.modifyBuffer i fun b => { b with dirty := false }).capacity =
      s.cache.capacity := Cache.capacity_modifyBuffer _
  refine ⟨hsound.count _ _ _ _, Nat.le_trans h.enough (Nat.le_of_eq hcapacity.symm),
    h.size_pos, hf.size ▸ h.volume_lt, ?_, h.store, fun j b' hb' hfile => ?_,
    fun j b' store hb' hd hfile hstore => ?_, fun j b' hb' hfile hd _ => ?_⟩
  · by_cases hfile : b.file = m.file
    · show _ ≤ (d.contents m.store.volume).size
      rw [hown hfile]
      exact Nat.le_trans h.header (Nat.le_max_left _ _)
    · exact Nat.le_trans h.header (Nat.le_of_eq (congrArg Contents.size (hother hfile).symm))
  · obtain ⟨b'', hb'', hf', hp, hi, -⟩ := buffer?_of_cleaned hb'
    rw [← hp, ← hi]
    exact h.whole j b'' hb'' (hf'.trans hfile)
  · obtain ⟨b'', hb'', hf', -, -, hd', -⟩ := buffer?_of_cleaned hb'
    exact h.apart j b'' store hb'' (hd' hd) (by rw [hf']; exact hfile)
      (by rw [hf']; exact hstore)
  · obtain ⟨b'', hb'', hf', hp, hi, -, hd'⟩ := buffer?_of_cleaned hb'
    rw [← hp, ← hi]
    show m.stored d b''.pos = some b''.image
    by_cases hj : j = i
    · subst hj
      rw [hb] at hb''
      cases hb''
      have hfile' := hf'.trans hfile
      exact stored_write_self (h.whole j b hb hfile').2 h.size_pos (hown hfile')
    · refine h.stored_of_written hb hown hother (h.whole j b'' hb'' (hf'.trans hfile)).1
        (fun hbf hpos => hj ?_) (h.clean j b'' hb'' (hf'.trans hfile) (hd' hd hj) nofun)
      exact h.sound.unique j i b'' b hb'' hb ((hf'.trans hfile).trans hbf.symm) hpos

/-- The block of a buffer is written: with its changes in the store the buffer is clean. -/
theorem Moves.of_written (h : m.Intact none out s) (hb : s.cache.buffer? i = some b)
    (hf : s.disk.Follows d)
    (hown : b.file = m.file →
      d.contents m.store.volume = (s.disk.contents m.store.volume).write b.pos.offset b.image)
    (hother : b.file ≠ m.file → d.contents m.store.volume = s.disk.contents m.store.volume)
    (writes : Nat) :
    m.Moves out s { s with
      cache := { s.cache.modifyBuffer i (fun b => { b with dirty := false }) with
        writes := writes }
      disk := d } := by
  have hintact := h.of_written hb hf hown hother writes
  have hfollows : s.Follows { s with
      cache := { s.cache.modifyBuffer i (fun b => { b with dirty := false }) with
        writes := writes }
      disk := d } := ⟨hf, Cache.capacity_modifyBuffer _, fun _ => rfl⟩
  refine ⟨hintact, fun p x ha _ hx => ?_, hfollows, fun hs => hs.follows hfollows fun j b' hb' hd => ?_⟩
  · rcases held_or_absent s m p with ⟨j, b', hb', hfile, rfl⟩ | habsent
    · rw [content_of_buffer h.sound hb' hfile] at hx
      obtain ⟨b'', hb'', hf', hp, hi⟩ := buffer?_cleaned (i := i) hb'
      rw [← hx, ← hp, ← hi]
      exact content_of_buffer (i := j) hintact.sound hb'' (hf'.trans hfile)
    · rw [content_of_absent h.sound habsent] at hx
      rw [content_of_absent hintact.sound fun j b' hb' hfile => ?_]
      · exact h.stored_of_written hb hown hother ha (fun hfile hp => habsent i b hb hfile hp.symm) hx
      · obtain ⟨b'', hb'', hf', hp, -⟩ := buffer?_of_cleaned hb'
        rw [← hp]
        exact habsent j b'' hb'' (hf'.trans hfile)
  · obtain ⟨b'', hb'', hf', hp, hi, hd', -⟩ := buffer?_of_cleaned hb'
    exact ⟨b'', hb'', hd' hd, hf', hp, hi⟩

end Written

/-- Writing a buffer back cleans it, or changes nothing. -/
theorem writeBack_ends (h : m.Intact none out s) (i : Nat) :
    Ends (Cache.writeBack i) s fun r t =>
      m.Moves out s t ∧ t.cache.free = s.cache.free ∧
        (r = .ok () → ∀ j, t.cache.buffer? j =
          if j = i then (s.cache.buffer? i).map (fun b => { b with dirty := false })
          else s.cache.buffer? j) ∧
        (∀ e, r = .error e → t.cache = s.cache ∧
          t.disk.contents m.store.volume = s.disk.contents m.store.volume) ∧
        (s.Safe → r = .ok ()) := by
  unfold Cache.writeBack
  refine Ends.get_bind ?_
  split
  · next hnone =>
    refine Ends.pure ⟨.refl h, rfl, fun _ j => ?_, fun _ _ => ⟨rfl, rfl⟩, fun _ => rfl⟩
    split
    · next hj => rw [hj, hnone]; rfl
    · rfl
  · next b hb =>
    split
    · next hd =>
      refine Ends.get_bind ?_
      obtain ⟨r, hr⟩ := Option.isSome_iff_exists.mp (h.sound.registered i b hb)
      have hstore : s.cache.store? b.file = some r.store := by
        unfold Cache.store?
        rw [hr]
        rfl
      simp only [hr]
      refine Ends.bind (Cache.onDisk_ends (r.store.write_ends s.disk b.pos.offset b.image)) ?_ ?_
      · rintro e ⟨c, d⟩ ⟨rfl, hw⟩
        have hsame : d.contents m.store.volume = s.disk.contents m.store.volume := by
          by_cases hv : m.store.volume = r.store.volume
          · rw [hv]; exact hw.error e rfl
          · exact hw.apart _ hv
        refine ⟨.of_disk h hw.follows hsame, rfl, fun he => (nomatch he),
          fun _ _ => ⟨rfl, hsame⟩, fun hs => ?_⟩
        obtain ⟨store, hstore', hrel, hlt⟩ := hs i b hb hd
        rw [hstore] at hstore'
        cases hstore'
        exact hw.reliable hrel hlt
      · rintro ⟨⟩ ⟨c, d⟩ ⟨rfl, hw⟩
        refine Cache.update_ends ⟨.of_written h hb hw.follows (fun hfile => ?_) (fun hfile => ?_) _,
          rfl, fun _ j => ?_, fun _ he => (nomatch he), fun _ => rfl⟩
        · have hr' : r.store = m.store := by
            have := h.store
            rw [← hfile, hstore] at this
            exact Option.some.inj this
          have hne : b.image ≠ [] := by
            have hlen := (h.whole i b hb hfile).2
            have hpos := h.size_pos
            rintro hnil
            rw [hnil, List.length_nil] at hlen
            omega
          rw [← hr']
          exact hw.ok rfl (hr' ▸ h.volume_lt) hne
        · exact hw.apart _ (h.apart i b r.store hb hd hfile hstore).symm
        · exact Cache.buffer?_modifyBuffer _
    · next hd =>
      refine Ends.pure ⟨.refl h, rfl, fun _ j => ?_, fun _ _ => ⟨rfl, rfl⟩, fun _ => rfl⟩
      split
      · next hj =>
        have hb' : ({ b with dirty := false } : Buffer) = b := by
          rw [show false = b.dirty from (Bool.not_eq_true _ ▸ hd).symm]
        rw [hj, hb, Option.map_some, hb']
      · rfl

end Mount

end PagedIndex
