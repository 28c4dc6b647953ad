import PagedIndex.Proofs.Cache.Mirror
import PagedIndex.Proofs.Cache.Tidy

/-!
# Blocks on the move

What a cache shows of a block is the image in its buffer, or else the bytes that the store has for
it, with a header that was cut short filled up. Blocks move between buffers and stores; what a cache
shows of them stays as it is, but for one thing: where the store had no bytes of a block as yet, it
has zeros as soon as something behind them is written, and they are shown when the block is not held
any more.

## Main definitions

* `Grid` — where the blocks of files may start, and how long they are.
* `Mount.shows` — what a cache shows of a block.
* `Mount.ReadsOn` — whether a block is shown as before, but for zeros that a write has brought.
* `Consistent` — a cache whose images agree with its stores, over files whose blocks lie apart.
* `Shift`, `Shifts` — the ways in which blocks move, with the writes that are attempted.

## Main statements

* `Shift.consistent`, `Shifts.consistent` — the images go on to agree with the stores.
* `Shifts.grown` — a store gets longer by writes only.
* `Shifts.readsOn` — all blocks read on.
* `Shifts.dirty` — changes are held or were written.
-/

namespace PagedIndex

namespace Contents

variable {c : Contents} {offset length : Nat}

/-- There is nothing behind the end. -/
def Trim (c : Contents) : Prop := ∀ i, c.size ≤ i → c.byte i = 0

theorem trim_empty : ({} : Contents).Trim := fun i _ => byte_empty i

theorem Trim.write (h : c.Trim) (offset : Nat) (data : Bytes) : (c.write offset data).Trim := by
  intro i hi
  rw [size_write] at hi
  rw [byte_write, if_neg (by omega)]
  exact h i (by omega)

theorem length_stretch : (c.stretch offset length).length = length := by simp [stretch]

theorem stretch_add (c : Contents) (offset k n : Nat) :
    c.stretch offset (k + n) = c.stretch offset k ++ c.stretch (offset + k) n := by
  unfold stretch
  rw [← List.map_append, List.range'_append_1]

/-- A stretch is what is read, and what is behind the end. -/
theorem stretch_eq_append (c : Contents) (offset length : Nat) :
    c.stretch offset length = c.read offset length ++
      c.stretch (offset + min length (c.size - offset)) (length - min length (c.size - offset)) := by
  have hread : c.read offset length = c.stretch offset (min length (c.size - offset)) :=
    read_eq_map c offset length
  rw [hread, ← stretch_add]
  congr 1
  omega

theorem read_eq_take (c : Contents) (offset length : Nat) :
    c.read offset length = (c.stretch offset length).take (min length (c.size - offset)) := by
  rw [stretch_eq_append, List.take_left' (length_read c offset length)]

/-- Behind the end a stretch has zeros. -/
theorem Trim.drop_stretch (h : c.Trim) :
    (c.stretch offset length).drop (min length (c.size - offset)) =
      List.replicate (length - min length (c.size - offset)) 0 := by
  rw [stretch_eq_append, List.drop_left' (length_read c offset length)]
  refine List.eq_replicate_iff.mpr ⟨length_stretch, fun x hx => ?_⟩
  obtain ⟨i, hi, rfl⟩ := List.mem_map.mp hx
  rw [List.mem_range'_1] at hi
  exact h i (by omega)

end Contents

/-! ## Attempts to write -/

structure Attempt where
  store : Store
  offset : Nat
  data : Bytes
  /-- Whether the store took the data. -/
  taken : Bool

def Buffer.attempt (b : Buffer) (store : Store) (taken : Bool) : Attempt :=
  ⟨store, b.pos.offset, b.image, taken⟩

namespace Disk

/-- A disk becomes a later one by being asked for bytes and by attempts to write, the first one in
front. -/
inductive Tries : Disk → List Attempt → Disk → Prop
  | refl (d : Disk) : Tries d [] d
  | asked {d d' : Disk} {tries : List Attempt} (s : Store) (offset length : Nat)
      (h : Tries (ending (s.ask .read offset length) d).2 tries d') : Tries d tries d'
  | refused {d d₁ d' : Disk} {tries : List Attempt} {s : Store} {offset : Nat} {data : Bytes}
      {e : Error} (hwrite : s.write offset data d = .error e d₁) (h : Tries d₁ tries d') :
      Tries d (⟨s, offset, data, false⟩ :: tries) d'
  | taken {d d₁ d' : Disk} {tries : List Attempt} {s : Store} {offset : Nat} {data : Bytes}
      (hwrite : s.write offset data d = .ok () d₁) (h : Tries d₁ tries d') :
      Tries d (⟨s, offset, data, true⟩ :: tries) d'

variable {d d' d'' : Disk} {tries tries' : List Attempt}

theorem Tries.trans (h : d.Tries tries d') (h' : d'.Tries tries' d'') :
    d.Tries (tries ++ tries') d'' := by
  induction h with
  | refl => exact h'
  | asked s offset length _ ih => exact .asked s offset length (ih h')
  | refused hwrite _ ih => exact .refused hwrite (ih h')
  | taken hwrite _ ih => exact .taken hwrite (ih h')

theorem Tries.size (h : d.Tries tries d') : d'.volumes.size = d.volumes.size := by
  induction h with
  | refl => rfl
  | asked s offset length _ ih =>
    exact ih.trans (s.ask_ends _ .read offset length).ending.1.size
  | refused hwrite _ ih => exact ih.trans ((Store.write_ends _ _ _ _).of_error hwrite).follows.size
  | taken hwrite _ ih => exact ih.trans ((Store.write_ends _ _ _ _).of_ok hwrite).follows.size

/-- Only what is written changes. -/
theorem Tries.contents (h : d.Tries tries d') (htries : tries = []) (id : Nat) :
    d'.contents id = d.contents id := by
  induction h with
  | refl => rfl
  | asked s offset length _ ih =>
    exact (ih htries).trans ((s.ask_ends _ .read offset length).ending.2.1 id)
  | refused | taken => cases htries

end Disk

theorem Cache.readImage_tries (store : Store) (pos : BlockPos) (size : Nat) (d : Disk) :
    Ends (readImage store pos size) d fun _ d' => d.Tries [] d' := by
  refine (readImage_asks store pos size d).mono ?_
  rintro r d' rfl
  exact .asked store pos.offset size (.refl _)

/-! ## What a cache shows -/

/-- Where the blocks of the files of a cache may start, and how long they are. -/
structure Grid where
  size : FileId → Nat
  starts : FileId → BlockPos → Prop
  pos (file : FileId) : 0 < size file

namespace Grid

variable (g : Grid)

def mount (file : FileId) (store : Store) : Mount := ⟨file, store, g.size file⟩

/-- Two blocks have no byte of a volume in common, unless they are the same. -/
def Apart (file file' : FileId) : Prop :=
  ∀ p p', g.starts file p → g.starts file' p' → (file, p) ≠ (file', p') →
    p.offset + g.size file ≤ p'.offset ∨ p'.offset + g.size file' ≤ p.offset

variable {g}

theorem Apart.symm {file file' : FileId} (h : g.Apart file file') : g.Apart file' file :=
  fun p p' hp hp' hne => (h p' p hp' hp hne.symm).symm

end Grid

namespace Mount

variable (m : Mount)

/-- What the bytes that were read of a block count as: a header that was cut short is filled up. -/
def filled (p : BlockPos) (x : Bytes) : Bytes :=
  if p.isNull && minHeaderBytes ≤ x.length then Bytes.resize x m.blockSize filler else x

/-- What a cache shows of a block. -/
def shows (s : Buffered) (p : BlockPos) : Bytes :=
  match (s.cache.lookup m.file p).bind s.cache.buffer? with
  | some b => b.image
  | none => m.filled p ((s.disk.contents m.store.volume).read p.offset m.blockSize)

/-- The bytes of a block in the store, with zeros where the store has none. -/
def bytes (d : Disk) (p : BlockPos) : Bytes :=
  (d.contents m.store.volume).stretch p.offset m.blockSize

/-- How many bytes of a block the store has. -/
def extent (d : Disk) (p : BlockPos) : Nat :=
  min m.blockSize ((d.contents m.store.volume).size - p.offset)

/-- A block that a buffer holds with changes. -/
def Changed (s : Buffered) (p : BlockPos) : Prop :=
  ∃ i b, s.cache.buffer? i = some b ∧ b.file = m.file ∧ b.pos = p ∧ b.dirty = true

def Held (s : Buffered) (p : BlockPos) : Prop :=
  ∃ i b, s.cache.buffer? i = some b ∧ b.file = m.file ∧ b.pos = p

/-- An attempt that the store took puts bytes behind the first `n` of a block. -/
def Passes (p : BlockPos) (n : Nat) (a : Attempt) : Prop :=
  a.taken = true ∧ a.store.volume = m.store.volume ∧ p.offset + n < a.offset + a.data.length

/-- A block is shown as before, with one exception. If it was not held with changes, and shown as
its first `n` bytes because the store ended there, it may be shown with more bytes, zeros that the
store has got by a write behind them. The write is one of those attempted since, or the block was
held before it. -/
def ReadsOn (p : BlockPos) (s : Buffered) (l : List Attempt) (t : Buffered) : Prop :=
  m.shows t p = m.shows s p ∨ ¬m.Changed s p ∧ ∃ n n', n < n' ∧ n' ≤ m.extent t.disk p ∧
    (m.bytes s.disk p).drop n = List.replicate (m.blockSize - n) 0 ∧
    m.shows s p = m.filled p ((m.bytes s.disk p).take n) ∧
    m.shows t p = m.filled p ((m.bytes s.disk p).take n') ∧
    (m.Held s p ∧ n < m.extent s.disk p ∨ ∃ a ∈ l, m.Passes p n a)

/-- Where the bytes of a block are: `n` of them are known, and there are only zeros behind. -/
inductive Has (s : Buffered) (p : BlockPos) : Bytes → Nat → Prop
  | changed {i : Nat} {b : Buffer} (hb : s.cache.buffer? i = some b) (hfile : b.file = m.file)
      (hpos : b.pos = p) (hdirty : b.dirty = true) (hlength : b.image.length = m.blockSize) :
      Has s p b.image m.blockSize
  | loaded {i : Nat} {b : Buffer} {n : Nat} (hb : s.cache.buffer? i = some b)
      (hfile : b.file = m.file) (hpos : b.pos = p) (hclean : b.dirty = false)
      (hn : n ≤ m.extent s.disk p) (himage : b.image = m.filled p ((m.bytes s.disk p).take n))
      (hzeros : (m.bytes s.disk p).drop n = List.replicate (m.blockSize - n) 0) :
      Has s p (m.bytes s.disk p) n
  | absent (habsent : ∀ i b, s.cache.buffer? i = some b → b.file = m.file → b.pos ≠ p)
      (hzeros : (m.bytes s.disk p).drop (m.extent s.disk p) =
        List.replicate (m.blockSize - m.extent s.disk p) 0) :
      Has s p (m.bytes s.disk p) (m.extent s.disk p)

variable {m} {s t : Buffered} {p : BlockPos} {z : Bytes} {n : Nat} {d : Disk}

theorem filled_of_length {x : Bytes} (h : x.length = m.blockSize) : m.filled p x = x := by
  unfold filled
  split
  · rw [Bytes.resize, List.take_of_length_le (Nat.le_of_eq h), h, Nat.sub_self,
      List.replicate_zero, List.append_nil]
  · rfl

theorem length_bytes : (m.bytes d p).length = m.blockSize := Contents.length_stretch

theorem read_eq_take_bytes : (d.contents m.store.volume).read p.offset m.blockSize =
    (m.bytes d p).take (m.extent d p) := Contents.read_eq_take _ _ _

theorem bytes_congr (h : d.contents m.store.volume = s.disk.contents m.store.volume) :
    m.bytes d p = m.bytes s.disk p := by
  unfold bytes
  rw [h]

theorem extent_congr (h : d.contents m.store.volume = s.disk.contents m.store.volume) :
    m.extent d p = m.extent s.disk p := by
  unfold extent
  rw [h]

/-- An image that was read is made of the bytes that the store has. -/
theorem eq_filled_of_read? {x : Bytes} (h : m.read? d p = some x) :
    x = m.filled p ((m.bytes d p).take (m.extent d p)) := by
  obtain ⟨got, hgot, hx⟩ := Option.bind_eq_some_iff.mp h
  have hread : got = (m.bytes d p).take (m.extent d p) := by
    rw [← read_eq_take_bytes]
    unfold Store.bytes? at hgot
    cases hkind : m.store.kind <;> simp only [hkind] at hgot
    · exact (Option.some.inj hgot).symm
    · split at hgot
      · cases hgot
      · exact (Option.some.inj hgot).symm
    · cases hgot
  rw [← hread]
  split at hx
  · next hlength => rw [filled_of_length hlength, Option.some.inj hx]
  · split at hx
    · next hnull => rw [filled, if_pos hnull, Option.some.inj hx]
    · cases hx

theorem shows_of_buffer {out : Option Nat} (hs : s.cache.Sound out) {i : Nat} {b : Buffer}
    (hb : s.cache.buffer? i = some b) (hfile : b.file = m.file) (hpos : b.pos = p) :
    m.shows s p = b.image := by
  have hl : s.cache.lookup m.file p = some i := hs.lookup_eq_some_iff.mpr ⟨b, hb, hfile, hpos⟩
  unfold Mount.shows
  rw [hl, Option.bind_some, hb]

theorem shows_of_absent {out : Option Nat} (hs : s.cache.Sound out)
    (habsent : ∀ i b, s.cache.buffer? i = some b → b.file = m.file → b.pos ≠ p) :
    m.shows s p = m.filled p ((s.disk.contents m.store.volume).read p.offset m.blockSize) := by
  have hl : s.cache.lookup m.file p = none := hs.lookup_eq_none_iff.mpr habsent
  unfold Mount.shows
  rw [hl]
  rfl

theorem Has.shows {out : Option Nat} (h : m.Has s p z n) (hs : s.cache.Sound out) :
    m.shows s p = m.filled p (z.take n) := by
  cases h with
  | changed hb hfile hpos hdirty hlength =>
    rw [shows_of_buffer hs hb hfile hpos, ← hlength, List.take_length, filled_of_length hlength]
  | loaded hb hfile hpos _ _ himage => rw [shows_of_buffer hs hb hfile hpos, himage]
  | absent habsent => rw [shows_of_absent hs habsent, ← read_eq_take_bytes]

theorem Has.length (h : m.Has s p z n) : z.length = m.blockSize := by
  cases h with
  | changed _ _ _ _ hlength => exact hlength
  | loaded | absent => exact length_bytes

theorem Has.drop (h : m.Has s p z n) : z.drop n = List.replicate (m.blockSize - n) 0 := by
  cases h with
  | changed _ _ _ _ hlength => rw [← hlength, List.drop_length, Nat.sub_self, List.replicate_zero]
  | loaded _ _ _ _ _ _ hzeros => exact hzeros
  | absent _ hzeros => exact hzeros

/-- What is known of a block without changes is in the store. -/
theorem Has.of_unchanged (h : m.Has s p z n) (hclean : ¬m.Changed s p) :
    z = m.bytes s.disk p ∧ n ≤ m.extent s.disk p ∧ (n < m.extent s.disk p → m.Held s p) := by
  cases h with
  | changed hb hfile hpos hdirty => exact absurd ⟨_, _, hb, hfile, hpos, hdirty⟩ hclean
  | loaded hb hfile hpos _ hn => exact ⟨rfl, hn, fun _ => ⟨_, _, hb, hfile, hpos⟩⟩
  | absent => exact ⟨rfl, Nat.le_refl _, fun h => absurd h (Nat.lt_irrefl _)⟩

/-- A block that is held with changes is known as a whole. -/
theorem Has.not_changed (h : m.Has s p z n) (hs : s.cache.Sound none) (hn : n < m.blockSize) :
    ¬m.Changed s p := by
  rintro ⟨i, b, hb, hfile, hpos, hdirty⟩
  cases h with
  | changed => exact absurd hn (Nat.lt_irrefl _)
  | @loaded j b' _ hb' hfile' hpos' hclean =>
    have hij := hs.unique i j b b' hb hb' (hfile.trans hfile'.symm) (hpos.trans hpos'.symm)
    rw [hij, hb'] at hb
    cases hb
    simp [hclean] at hdirty
  | absent habsent => exact habsent i b hb hfile hpos

/-- A block reads on if more of the same bytes are known of it, by writes that were attempted. -/
theorem Has.readsOn {n' : Nat} {l : List Attempt} (h : m.Has s p z n) (h' : m.Has t p z n')
    (hle : n ≤ n')
    (hs : s.cache.Sound none) (ht : t.cache.Sound none) (hchanged : m.Changed t p → m.Changed s p)
    (hgrown : p.offset + n < (t.disk.contents m.store.volume).size →
      p.offset + n < (s.disk.contents m.store.volume).size ∨ ∃ a ∈ l, m.Passes p n a) :
    m.ReadsOn p s l t := by
  have hshows := h.shows hs
  have hshows' := h'.shows ht
  have hlen := h.length
  by_cases hall : m.blockSize ≤ n
  · left
    rw [hshows, hshows', List.take_of_length_le (by omega), List.take_of_length_le (by omega)]
  · have hclean := h.not_changed hs (Nat.lt_of_not_le hall)
    obtain ⟨hz, hn, hheld⟩ := h.of_unchanged hclean
    obtain ⟨-, hn', -⟩ := h'.of_unchanged (mt hchanged hclean)
    rcases Nat.eq_or_lt_of_le hle with rfl | hlt
    · exact .inl (hshows'.trans hshows.symm)
    · have hzeros := h.drop
      rw [hz] at hzeros hshows hshows'
      refine .inr ⟨hclean, n, n', hlt, hn', hzeros, hshows, hshows', ?_⟩
      unfold extent at hn' hheld ⊢
      rcases hgrown (by omega) with hbefore | hpassed
      · exact .inl ⟨hheld (by omega), by omega⟩
      · exact .inr hpassed

theorem zeros_of_trim (h : (d.contents m.store.volume).Trim) : (m.bytes d p).drop (m.extent d p) =
    List.replicate (m.blockSize - m.extent d p) 0 := h.drop_stretch

/-- A block stays where it is, and the store gets no bytes of it but zeros. -/
theorem Has.kept (h : m.Has s p z n) (hbytes : m.bytes t.disk p = m.bytes s.disk p)
    (hextent : m.extent s.disk p ≤ m.extent t.disk p)
    (htrim : (t.disk.contents m.store.volume).Trim)
    (hheld : ∀ i b, b.file = m.file → b.pos = p →
      (t.cache.buffer? i = some b ↔ s.cache.buffer? i = some b)) : ∃ n', n ≤ n' ∧ m.Has t p z n' := by
  cases h with
  | changed hb hfile hpos hdirty hlength =>
    exact ⟨_, Nat.le_refl _, .changed ((hheld _ _ hfile hpos).mpr hb) hfile hpos hdirty hlength⟩
  | loaded hb hfile hpos hclean hn himage hzeros =>
    rw [← hbytes] at himage hzeros ⊢
    exact ⟨_, Nat.le_refl _, .loaded ((hheld _ _ hfile hpos).mpr hb) hfile hpos hclean
      (Nat.le_trans hn hextent) himage hzeros⟩
  | absent habsent =>
    rw [← hbytes]
    exact ⟨_, hextent, .absent (fun i b hb hfile hpos =>
      habsent i b ((hheld i b hfile hpos).mp hb) hfile hpos) (zeros_of_trim htrim)⟩

/-- A block without changes is given up. -/
theorem Has.dropped (h : m.Has s p z n) (hclean : ¬m.Changed s p)
    (hsame : t.disk.contents m.store.volume = s.disk.contents m.store.volume)
    (htrim : (t.disk.contents m.store.volume).Trim)
    (habsent : ∀ i b, t.cache.buffer? i = some b → b.file = m.file → b.pos ≠ p) :
    ∃ n', n ≤ n' ∧ m.Has t p z n' := by
  have hbytes : m.bytes t.disk p = m.bytes s.disk p := bytes_congr hsame
  have hextent : m.extent t.disk p = m.extent s.disk p := extent_congr hsame
  cases h with
  | changed hb hfile hpos hdirty => exact absurd ⟨_, _, hb, hfile, hpos, hdirty⟩ hclean
  | loaded _ _ _ _ hn =>
    rw [← hbytes]
    exact ⟨_, Nat.le_trans hn (Nat.le_of_eq hextent.symm), .absent habsent (zeros_of_trim htrim)⟩
  | absent =>
    rw [← hbytes]
    exact ⟨_, Nat.le_of_eq hextent.symm, .absent habsent (zeros_of_trim htrim)⟩

end Mount

/-! ## How blocks move -/

def Cache.SameFiles (c c' : Cache) : Prop := ∀ f, c'.store? f = c.store? f

/-- One move of a block, with the writes that are attempted for it. -/
inductive Shift (g : Grid) (s : Buffered) : List Attempt → Buffered → Prop
  /-- All blocks stay where they are. -/
  | still {t : Buffered} (hbuffers : ∀ j, t.cache.buffer? j = s.cache.buffer? j)
      (hfiles : s.cache.SameFiles t.cache) (hdisk : s.disk.Tries [] t.disk) : Shift g s [] t
  /-- Changes are not taken by the store. -/
  | refused {i : Nat} {b : Buffer} {store : Store} {e : Error} {d : Disk}
      (hb : s.cache.buffer? i = some b) (hdirty : b.dirty = true)
      (hstore : s.cache.store? b.file = some store)
      (hwrite : store.write b.pos.offset b.image s.disk = .error e d) :
      Shift g s [b.attempt store false] ⟨s.cache, d⟩
  /-- A block without changes is given up. -/
  | drop {i : Nat} {b : Buffer} {c : Cache} (hb : s.cache.buffer? i = some b)
      (hclean : b.dirty = false)
      (hbuffers : ∀ j, c.buffer? j = if j = i then none else s.cache.buffer? j)
      (hfiles : s.cache.SameFiles c) : Shift g s [] ⟨c, s.disk⟩
  /-- Changes are written, and the block is given up. -/
  | writeOut {i : Nat} {b : Buffer} {store : Store} {c : Cache} {d : Disk}
      (hb : s.cache.buffer? i = some b) (hdirty : b.dirty = true)
      (hstore : s.cache.store? b.file = some store)
      (hwrite : store.write b.pos.offset b.image s.disk = .ok () d)
      (hbuffers : ∀ j, c.buffer? j = if j = i then none else s.cache.buffer? j)
      (hfiles : s.cache.SameFiles c) : Shift g s [b.attempt store true] ⟨c, d⟩
  /-- A block is read. -/
  | load {i : Nat} {file : FileId} {pos : BlockPos} {image : Bytes} {store : Store} {c : Cache}
      {d : Disk} (hstore : s.cache.store? file = some store) (hplace : g.starts file pos)
      (hi : s.cache.buffer? i = none)
      (habsent : ∀ j b, s.cache.buffer? j = some b → b.file = file → b.pos ≠ pos)
      (hread : Cache.readImage store pos (g.size file) s.disk = .ok image d)
      (hbuffers : ∀ j, c.buffer? j =
        if j = i then some ⟨file, pos, image, false, false⟩ else s.cache.buffer? j)
      (hfiles : s.cache.SameFiles c) : Shift g s [] ⟨c, d⟩

/-- Any number of moves. -/
inductive Shifts (g : Grid) : Buffered → List Attempt → Buffered → Prop
  | refl (s : Buffered) : Shifts g s [] s
  | cons {s t u : Buffered} {tries tries' : List Attempt} (h : Shift g s tries t)
      (h' : Shifts g t tries' u) : Shifts g s (tries ++ tries') u

/-- A cache whose images agree with its stores, over files whose blocks lie apart. -/
structure Consistent (g : Grid) (s : Buffered) : Prop where
  unique : ∀ i j b b', s.cache.buffer? i = some b → s.cache.buffer? j = some b' →
    b.file = b'.file → b.pos = b'.pos → i = j
  stored : ∀ i b, s.cache.buffer? i = some b → ∃ store, s.cache.store? b.file = some store
  placed : ∀ i b, s.cache.buffer? i = some b →
    g.starts b.file b.pos ∧ b.image.length = g.size b.file
  apart : ∀ f f' store store', s.cache.store? f = some store → s.cache.store? f' = some store' →
    store.volume = store'.volume → g.Apart f f'
  volume_lt : ∀ f store, s.cache.store? f = some store → store.volume < s.disk.volumes.size
  trim : ∀ id, (s.disk.contents id).Trim
  has : ∀ f store p, s.cache.store? f = some store → g.starts f p →
    ∃ z n, (g.mount f store).Has s p z n

section Moves

variable {g : Grid} {s t u : Buffered} {l l' : List Attempt} {f : FileId} {store : Store}
  {p : BlockPos} {z : Bytes} {n : Nat}

theorem Shift.files (h : Shift g s l t) : s.cache.SameFiles t.cache := by
  cases h with
  | refused => exact fun _ => rfl
  | still _ hfiles | drop _ _ _ hfiles | writeOut _ _ _ _ _ hfiles | load _ _ _ _ _ _ hfiles =>
    exact hfiles

theorem Shift.tries (h : Shift g s l t) : s.disk.Tries l t.disk := by
  cases h with
  | still _ _ hdisk => exact hdisk
  | refused _ _ _ hwrite => exact .refused hwrite (.refl _)
  | drop => exact .refl _
  | writeOut _ _ _ hwrite => exact .taken hwrite (.refl _)
  | load _ _ _ _ hread => exact (Cache.readImage_tries _ _ _ _).of_ok hread

/-- Buffers that hold the same block hold the same. -/
theorem Consistent.eq_of_same (hs : Consistent g s) {i j : Nat} {b b' : Buffer}
    (hb : s.cache.buffer? i = some b) (hb' : s.cache.buffer? j = some b') (hfile : b.file = b'.file)
    (hpos : b.pos = b'.pos) : b = b' := by
  rw [hs.unique i j b b' hb hb' hfile hpos, hb'] at hb
  exact (Option.some.inj hb).symm

/-- What is known of a block that is held with changes is its image. -/
theorem Mount.Has.eq_of_changed (h : (g.mount f store).Has s p z n) (hs : Consistent g s) {i : Nat}
    {b : Buffer} (hb : s.cache.buffer? i = some b) (hfile : b.file = f) (hpos : b.pos = p)
    (hdirty : b.dirty = true) : z = b.image ∧ n = g.size f := by
  have hunique : ∀ {j : Nat} {b' : Buffer}, s.cache.buffer? j = some b' → b'.file = f →
      b'.pos = p → b' = b := fun {_ _} hb' hfile' hpos' =>
    hs.eq_of_same hb' hb (hfile'.trans hfile.symm) (hpos'.trans hpos.symm)
  cases h with
  | changed hb' hfile' hpos' => exact ⟨congrArg Buffer.image (hunique hb' hfile' hpos'), rfl⟩
  | loaded hb' hfile' hpos' hclean =>
    rw [hunique hb' hfile' hpos', hdirty] at hclean
    cases hclean
  | absent habsent => exact absurd hpos (habsent i b hb hfile)

/-- What is known of a block that is held without changes is known of the store too. -/
theorem Mount.Has.of_clean {m : Mount} (h : m.Has s p z n) (hs : Consistent g s) {i : Nat} {b : Buffer}
    (hb : s.cache.buffer? i = some b) (hfile : b.file = m.file) (hpos : b.pos = p)
    (hclean : b.dirty = false) : n ≤ m.extent s.disk p ∧
      b.image = m.filled p ((m.bytes s.disk p).take n) ∧
      (m.bytes s.disk p).drop n = List.replicate (m.blockSize - n) 0 := by
  have hunique : ∀ {j : Nat} {b' : Buffer}, s.cache.buffer? j = some b' → b'.file = m.file →
      b'.pos = p → b' = b := fun {_ _} hb' hfile' hpos' =>
    hs.eq_of_same hb' hb (hfile'.trans hfile.symm) (hpos'.trans hpos.symm)
  cases h with
  | changed hb' hfile' hpos' hdirty =>
    rw [hunique hb' hfile' hpos', hclean] at hdirty
    cases hdirty
  | loaded hb' hfile' hpos' _ hn himage hzeros =>
    exact ⟨hn, hunique hb' hfile' hpos' ▸ himage, hzeros⟩
  | absent habsent => exact absurd hpos (habsent i b hb hfile)

/-- What is known of a block that no buffer holds is what its store has. -/
theorem Mount.Has.eq_of_absent {m : Mount} (h : m.Has s p z n)
    (habsent : ∀ i b, s.cache.buffer? i = some b → b.file = m.file → b.pos ≠ p) :
    z = m.bytes s.disk p ∧ n = m.extent s.disk p := by
  cases h with
  | changed hb hfile hpos | loaded hb hfile hpos => exact absurd hpos (habsent _ _ hb hfile)
  | absent => exact ⟨rfl, rfl⟩

/-- A write that a store takes puts an image where its block starts. -/
theorem Consistent.wrote (hs : Consistent g s) {file : FileId} {pos : BlockPos} {image : Bytes}
    {d : Disk}
    (hlength : image.length = g.size file) (hstore : s.cache.store? file = some store)
    (hwrite : store.write pos.offset image s.disk = .ok () d) :
    d.contents store.volume = (s.disk.contents store.volume).write pos.offset image ∧
      ∀ id, id ≠ store.volume → d.contents id = s.disk.contents id := by
  have hwrote := (Store.write_ends store s.disk pos.offset image).of_ok hwrite
  refine ⟨hwrote.ok rfl (hs.volume_lt _ _ hstore) fun hnil => ?_, hwrote.apart⟩
  rw [hnil] at hlength
  exact absurd (g.pos file) (by rw [← hlength]; exact Nat.lt_irrefl 0)

theorem Consistent.trim_of_wrote (hs : Consistent g s) {file : FileId} {pos : BlockPos} {image : Bytes}
    {d : Disk} (hlength : image.length = g.size file) (hstore : s.cache.store? file = some store)
    (hwrite : store.write pos.offset image s.disk = .ok () d) (id : Nat) : (d.contents id).Trim := by
  obtain ⟨hvolume, hothers⟩ := hs.wrote hlength hstore hwrite
  by_cases hid : id = store.volume
  · rw [hid, hvolume]
    exact (hs.trim _).write _ _
  · rw [hothers id hid]
    exact hs.trim id

/-- A write that a store does not take changes nothing. -/
theorem Disk.contents_of_refused {offset : Nat} {data : Bytes} {d d' : Disk} {e : Error}
    (hwrite : store.write offset data d = .error e d') (id : Nat) :
    d'.contents id = d.contents id := by
  have hwrote := (Store.write_ends store d offset data).of_error hwrite
  by_cases hid : id = store.volume
  · exact hid ▸ hwrote.error e rfl
  · exact hwrote.apart id hid

theorem Shift.trim (h : Shift g s l t) (hs : Consistent g s) (id : Nat) :
    (t.disk.contents id).Trim := by
  cases h with
  | still _ _ hdisk => exact hdisk.contents rfl id ▸ hs.trim id
  | refused _ _ _ hwrite => exact Disk.contents_of_refused hwrite id ▸ hs.trim id
  | drop => exact hs.trim id
  | writeOut hb _ hstore hwrite => exact hs.trim_of_wrote (hs.placed _ _ hb).2 hstore hwrite id
  | load _ _ _ _ hread =>
    rw [((Cache.readImage_told (g.mount _ _) _ _).of_ok hread).2.1 id]
    exact hs.trim id

/-- The bytes of a block are left alone when another one is written, and the store may get some that
it did not have. -/
theorem Consistent.bytes_of_wrote (hs : Consistent g s) {file : FileId} {pos : BlockPos} {image : Bytes}
    {store' : Store} {d : Disk} (hplace : g.starts file pos) (hlength : image.length = g.size file)
    (hstore' : s.cache.store? file = some store')
    (hwrite : store'.write pos.offset image s.disk = .ok () d)
    (hstore : s.cache.store? f = some store) (hp : g.starts f p) (hne : (f, p) ≠ (file, pos)) :
    (g.mount f store).bytes d p = (g.mount f store).bytes s.disk p ∧
      (g.mount f store).extent s.disk p ≤ (g.mount f store).extent d p := by
  obtain ⟨hvolume, hothers⟩ := hs.wrote hlength hstore' hwrite
  by_cases hsame : store.volume = store'.volume
  · have hapart := hs.apart f file store store' hstore hstore' hsame p pos hp hplace hne
    unfold Mount.bytes Mount.extent
    rw [show (g.mount f store).store.volume = store'.volume from hsame, hvolume]
    refine ⟨Contents.stretch_write_of_disjoint (by rw [hlength]; exact hapart), ?_⟩
    rw [Contents.size_write]
    omega
  · have hcontents : d.contents (g.mount f store).store.volume =
        s.disk.contents (g.mount f store).store.volume := hothers _ hsame
    exact ⟨Mount.bytes_congr hcontents, Nat.le_of_eq (Mount.extent_congr hcontents).symm⟩

section GivenUp

variable {i : Nat} {b : Buffer} {c : Cache} {d : Disk} {store' : Store}

/-- The buffers of the other blocks are those they were when the one of a block is given up. -/
theorem buffer?_iff_of_others (hb : s.cache.buffer? i = some b)
    (hbuffers : ∀ j, c.buffer? j = if j = i then none else s.cache.buffer? j)
    (hne : (f, p) ≠ (b.file, b.pos)) (j : Nat) (b' : Buffer) (hfile : b'.file = f)
    (hpos : b'.pos = p) : c.buffer? j = some b' ↔ s.cache.buffer? j = some b' := by
  rw [hbuffers]
  split
  · next hj =>
    refine ⟨nofun, fun hb' => ?_⟩
    rw [hj, hb] at hb'
    cases hb'
    exact absurd (by rw [hfile, hpos]) hne
  · exact Iff.rfl

/-- No buffer holds the block that is given up. -/
theorem Consistent.absent_of_givenUp (hs : Consistent g s) (hb : s.cache.buffer? i = some b)
    (hbuffers : ∀ j, c.buffer? j = if j = i then none else s.cache.buffer? j) (j : Nat) (b' : Buffer)
    (hb' : c.buffer? j = some b') (hfile : b'.file = b.file) : b'.pos ≠ b.pos := by
  intro hpos
  rw [hbuffers] at hb'
  split at hb'
  · cases hb'
  · next hj => exact hj (hs.unique j i b' b hb' hb hfile hpos)

/-- A block without changes is given up: its store has it. -/
theorem Mount.Has.of_drop (hhas : (g.mount f store).Has s p z n) (hs : Consistent g s)
    (hb : s.cache.buffer? i = some b) (hclean : b.dirty = false)
    (hbuffers : ∀ j, c.buffer? j = if j = i then none else s.cache.buffer? j) :
    ∃ n', n ≤ n' ∧ (g.mount f store).Has ⟨c, s.disk⟩ p z n' := by
  have htrim := hs.trim store.volume
  by_cases hne : (f, p) = (b.file, b.pos)
  · obtain ⟨rfl, rfl⟩ := Prod.mk.injEq .. ▸ hne
    refine hhas.dropped ?_ rfl htrim (hs.absent_of_givenUp hb hbuffers)
    rintro ⟨j, b', hb', hfile, hpos, hdirty⟩
    rw [hs.eq_of_same hb' hb hfile hpos, hclean] at hdirty
    cases hdirty
  · exact hhas.kept rfl (Nat.le_refl _) htrim (buffer?_iff_of_others hb hbuffers hne)

/-- Changes are written, and the block is given up: its store has them. -/
theorem Mount.Has.of_writeOut (hhas : (g.mount f store).Has s p z n) (hs : Consistent g s)
    (hstore : s.cache.store? f = some store) (hp : g.starts f p) (hb : s.cache.buffer? i = some b)
    (hdirty : b.dirty = true) (hstore' : s.cache.store? b.file = some store')
    (hwrite : store'.write b.pos.offset b.image s.disk = .ok () d)
    (hbuffers : ∀ j, c.buffer? j = if j = i then none else s.cache.buffer? j) :
    ∃ n', n ≤ n' ∧ (g.mount f store).Has ⟨c, d⟩ p z n' := by
  obtain ⟨hplace, hlength⟩ := hs.placed i b hb
  have htrim := hs.trim_of_wrote hlength hstore' hwrite store.volume
  by_cases hne : (f, p) = (b.file, b.pos)
  · obtain ⟨rfl, rfl⟩ := Prod.mk.injEq .. ▸ hne
    obtain rfl : store = store' := Option.some.inj (hstore.symm.trans hstore')
    obtain ⟨hz, hn⟩ := hhas.eq_of_changed hs hb rfl rfl hdirty
    have hvolume := (hs.wrote hlength hstore hwrite).1
    have hbytes : (g.mount b.file store).bytes d b.pos = b.image := by
      unfold Mount.bytes
      rw [show (g.mount b.file store).store = store from rfl, hvolume]
      exact Contents.stretch_write_self hlength
    have hextent : (g.mount b.file store).extent d b.pos = g.size b.file := by
      unfold Mount.extent
      rw [show (g.mount b.file store).store = store from rfl, hvolume, Contents.size_write, hlength]
      exact Nat.min_eq_left (a := g.size b.file) (by omega)
    have habsent := Mount.Has.absent (m := g.mount b.file store) (s := ⟨c, d⟩)
      (hs.absent_of_givenUp hb hbuffers) (Mount.zeros_of_trim htrim)
    rw [hbytes, hextent] at habsent
    exact ⟨_, Nat.le_of_eq hn, hz ▸ habsent⟩
  · obtain ⟨hbytes, hextent⟩ := hs.bytes_of_wrote hplace hlength hstore' hwrite hstore hp hne
    exact hhas.kept hbytes hextent htrim (buffer?_iff_of_others hb hbuffers hne)

end GivenUp

/-- A block is read: its buffer has what the store has, as far as that goes. -/
theorem Mount.Has.of_load {i : Nat} {file : FileId} {pos : BlockPos} {image : Bytes} {store' : Store}
    {c : Cache} {d : Disk} (hhas : (g.mount f store).Has s p z n) (hs : Consistent g s)
    (hstore : s.cache.store? f = some store) (hstore' : s.cache.store? file = some store')
    (hi : s.cache.buffer? i = none)
    (habsent : ∀ j b, s.cache.buffer? j = some b → b.file = file → b.pos ≠ pos)
    (hread : Cache.readImage store' pos (g.size file) s.disk = .ok image d)
    (hbuffers : ∀ j, c.buffer? j =
      if j = i then some ⟨file, pos, image, false, false⟩ else s.cache.buffer? j) :
    ∃ n', n ≤ n' ∧ (g.mount f store).Has ⟨c, d⟩ p z n' := by
  obtain ⟨-, hcontents, himage, -⟩ :=
    (Cache.readImage_told (g.mount file store') pos s.disk).of_ok hread
  have hbytes : (g.mount f store).bytes d p = (g.mount f store).bytes s.disk p :=
    Mount.bytes_congr (hcontents _)
  have hextent : (g.mount f store).extent s.disk p ≤ (g.mount f store).extent d p :=
    Nat.le_of_eq (Mount.extent_congr (hcontents _)).symm
  by_cases hne : (f, p) = (file, pos)
  · obtain ⟨rfl, rfl⟩ := Prod.mk.injEq .. ▸ hne
    obtain rfl : store = store' := Option.some.inj (hstore.symm.trans hstore')
    obtain ⟨hz, hn⟩ := hhas.eq_of_absent habsent
    have hb : (⟨c, d⟩ : Buffered).cache.buffer? i = some ⟨f, p, image, false, false⟩ :=
      (hbuffers i).trans (if_pos rfl)
    refine ⟨n, Nat.le_refl _, hz ▸ hbytes ▸ .loaded hb rfl rfl rfl (hn ▸ hextent) ?_ ?_⟩
    · show image = _
      rw [hbytes, hn]
      exact Mount.eq_filled_of_read? (himage image rfl)
    · rw [hbytes, ← hz]
      exact hhas.drop
  · have htrim : (d.contents store.volume).Trim := hcontents store.volume ▸ hs.trim store.volume
    refine hhas.kept hbytes hextent htrim fun j b hfile hpos => ?_
    dsimp only
    rw [hbuffers]
    split
    · next hj =>
      refine ⟨fun hb => ?_, fun hb => ?_⟩
      · cases hb
        exact (hne (Prod.ext hfile.symm hpos.symm)).elim
      · rw [hj, hi] at hb
        cases hb
    · exact Iff.rfl

/-- What is known of a block is known after a move, and perhaps more of the same. -/
theorem Shift.has (h : Shift g s l t) (hs : Consistent g s) (hstore : s.cache.store? f = some store)
    (hp : g.starts f p) (hhas : (g.mount f store).Has s p z n) :
    ∃ n', n ≤ n' ∧ (g.mount f store).Has t p z n' := by
  have htrim := h.trim hs store.volume
  have hsame : ∀ {d : Disk}, d.contents store.volume = s.disk.contents store.volume →
      (g.mount f store).bytes d p = (g.mount f store).bytes s.disk p ∧
        (g.mount f store).extent s.disk p ≤ (g.mount f store).extent d p :=
    fun h => ⟨Mount.bytes_congr h, Nat.le_of_eq (Mount.extent_congr h).symm⟩
  cases h with
  | still hbuffers _ hdisk =>
    obtain ⟨hbytes, hextent⟩ := hsame (hdisk.contents rfl store.volume)
    exact hhas.kept hbytes hextent htrim fun i b _ _ => by rw [hbuffers]
  | refused _ _ _ hwrite =>
    obtain ⟨hbytes, hextent⟩ := hsame (Disk.contents_of_refused hwrite store.volume)
    exact hhas.kept hbytes hextent htrim fun i b _ _ => Iff.rfl
  | drop hb hclean hbuffers => exact hhas.of_drop hs hb hclean hbuffers
  | writeOut hb hdirty hstore' hwrite hbuffers =>
    exact hhas.of_writeOut hs hstore hp hb hdirty hstore' hwrite hbuffers
  | load hstore' _ hi habsent hread hbuffers =>
    exact hhas.of_load hs hstore hstore' hi habsent hread hbuffers

/-- What a buffer holds after a move it held before, but for one block that was read. -/
theorem Shift.back (h : Shift g s l t) : ∃ i, ∀ j b, t.cache.buffer? j = some b →
    s.cache.buffer? j = some b ∨ j = i ∧
      (∀ k b', s.cache.buffer? k = some b' → b'.file = b.file → b'.pos ≠ b.pos) ∧
      (∃ store, s.cache.store? b.file = some store) ∧
      g.starts b.file b.pos ∧ b.image.length = g.size b.file := by
  have hgone : ∀ {i : Nat} {c : Cache}, (∀ j, c.buffer? j = if j = i then none else s.cache.buffer? j) →
      ∀ j b, c.buffer? j = some b → s.cache.buffer? j = some b := by
    intro i c hbuffers j b hb
    rw [hbuffers] at hb
    split at hb
    · cases hb
    · exact hb
  cases h with
  | still hbuffers => exact ⟨0, fun j b hb => .inl (hbuffers j ▸ hb)⟩
  | refused => exact ⟨0, fun j b hb => .inl hb⟩
  | drop _ _ hbuffers | writeOut _ _ _ _ hbuffers =>
    exact ⟨0, fun j b hb => .inl (hgone hbuffers j b hb)⟩
  | @load i file pos image store c d hstore hplace hi habsent hread hbuffers =>
    refine ⟨i, fun j b hb => ?_⟩
    rw [hbuffers] at hb
    split at hb
    · next hj =>
      cases hb
      have himage := ((Cache.readImage_told (g.mount file store) pos s.disk).of_ok hread).2.2.1
      exact .inr ⟨hj, habsent, ⟨store, hstore⟩, hplace, Mount.length_read? (himage image rfl)⟩
    · exact .inl hb

/-- Images that agree with their stores go on to agree with them. -/
theorem Shift.consistent (h : Shift g s l t) (hs : Consistent g s) : Consistent g t := by
  obtain ⟨i, hback⟩ := h.back
  have hfiles := h.files
  have hstores : ∀ {f : FileId} {store : Store}, t.cache.store? f = some store →
      s.cache.store? f = some store := fun {f _} hstore => (hfiles f).symm.trans hstore
  refine ⟨fun j k b b' hb hb' hfile hpos => ?_, fun j b hb => ?_, fun j b hb => ?_,
    fun f f' store store' hstore hstore' =>
      hs.apart f f' store store' (hstores hstore) (hstores hstore'),
    fun f store hstore => h.tries.size ▸ hs.volume_lt f store (hstores hstore), h.trim hs,
    fun f store p hstore hp => ?_⟩
  · rcases hback j b hb with hb | ⟨hj, habsent, -⟩
    · rcases hback k b' hb' with hb' | ⟨-, habsent, -⟩
      · exact hs.unique j k b b' hb hb' hfile hpos
      · exact absurd hpos (habsent j b hb hfile)
    · rcases hback k b' hb' with hb' | ⟨hk, -⟩
      · exact absurd hpos.symm (habsent k b' hb' hfile.symm)
      · rw [hj, hk]
  · rw [hfiles]
    rcases hback j b hb with hb | ⟨-, -, hstored, -⟩
    · exact hs.stored j b hb
    · exact hstored
  · rcases hback j b hb with hb | ⟨-, -, -, hplaced⟩
    · exact hs.placed j b hb
    · exact hplaced
  · obtain ⟨z, n, hhas⟩ := hs.has f store p (hstores hstore) hp
    obtain ⟨n', -, hhas'⟩ := h.has hs (hstores hstore) hp hhas
    exact ⟨z, n', hhas'⟩

/-- Only a block that is held with changes is held so after a move. -/
theorem Shift.changed {m : Mount} (h : Shift g s l t) (ht : m.Changed t p) : m.Changed s p := by
  obtain ⟨j, b, hb, hfile, hpos, hdirty⟩ := ht
  suffices hb' : s.cache.buffer? j = some b from ⟨j, b, hb', hfile, hpos, hdirty⟩
  cases h with
  | still hbuffers => exact (hbuffers j).symm.trans hb
  | refused => exact hb
  | drop _ _ hbuffers | writeOut _ _ _ _ hbuffers =>
    rw [hbuffers] at hb
    split at hb
    · cases hb
    · exact hb
  | load _ _ _ _ _ hbuffers =>
    rw [hbuffers] at hb
    split at hb
    · cases hb
      cases hdirty
    · exact hb

/-- A store has bytes where it had none only by a write. -/
theorem Shift.grown (h : Shift g s l t) (hs : Consistent g s) {id k : Nat}
    (hk : k < (t.disk.contents id).size) : k < (s.disk.contents id).size ∨
      ∃ a ∈ l, a.taken = true ∧ a.store.volume = id ∧ k < a.offset + a.data.length := by
  cases h with
  | still _ _ hdisk => exact .inl (hdisk.contents rfl id ▸ hk)
  | refused _ _ _ hwrite => exact .inl (Disk.contents_of_refused hwrite id ▸ hk)
  | drop => exact .inl hk
  | @writeOut i b store c d hb _ hstore hwrite =>
    obtain ⟨hvolume, hothers⟩ := hs.wrote (hs.placed i b hb).2 hstore hwrite
    by_cases hid : id = store.volume
    · rw [hid] at hk ⊢
      change k < (d.contents store.volume).size at hk
      rw [hvolume, Contents.size_write] at hk
      by_cases hold : k < (s.disk.contents store.volume).size
      · exact .inl hold
      · exact .inr ⟨_, List.mem_singleton_self _, rfl, rfl,
          show k < b.pos.offset + b.image.length by omega⟩
    · exact .inl (hothers id hid ▸ hk)
  | load _ _ _ _ hread =>
    rw [((Cache.readImage_told (g.mount _ _) _ _).of_ok hread).2.1 id] at hk
    exact .inl hk

/-- Changes are held on unless they are written. -/
theorem Shift.dirty (h : Shift g s l t) {i : Nat} {b : Buffer} (hb : s.cache.buffer? i = some b)
    (hdirty : b.dirty = true) : t.cache.buffer? i = some b ∨
      ∃ store, s.cache.store? b.file = some store ∧ b.attempt store true ∈ l := by
  cases h with
  | still hbuffers => exact .inl ((hbuffers i).trans hb)
  | refused => exact .inl hb
  | @drop j b' c hb' hclean hbuffers =>
    by_cases hij : i = j
    · rw [hij, hb'] at hb
      cases hb
      rw [hclean] at hdirty
      cases hdirty
    · exact .inl ((hbuffers i).trans ((if_neg hij).trans hb))
  | @writeOut j b' store c d hb' _ hstore _ hbuffers =>
    by_cases hij : i = j
    · rw [hij, hb'] at hb
      cases hb
      exact .inr ⟨store, hstore, List.mem_singleton_self _⟩
    · exact .inl ((hbuffers i).trans ((if_neg hij).trans hb))
  | @load j file pos image store c d _ _ hj _ _ hbuffers =>
    have hij : i ≠ j := by
      rintro rfl
      rw [hj] at hb
      cases hb
    exact .inl ((hbuffers i).trans ((if_neg hij).trans hb))

/-! ## Any number of moves -/

theorem Shift.shifts (h : Shift g s l t) : Shifts g s l t := by
  have hcons := Shifts.cons h (.refl t)
  rwa [List.append_nil] at hcons

theorem Shifts.trans (h : Shifts g s l t) (h' : Shifts g t l' u) : Shifts g s (l ++ l') u := by
  induction h with
  | refl => exact h'
  | cons hshift _ ih =>
    rw [List.append_assoc]
    exact .cons hshift (ih h')

/-- Moves without a write may be left out of account. -/
theorem Shifts.after (h : Shift g s [] t) (h' : Shifts g t l u) : Shifts g s l u := .cons h h'

theorem Shifts.before (h : Shifts g s l t) (h' : Shift g t [] u) : Shifts g s l u := by
  have hall := h.trans h'.shifts
  rwa [List.append_nil] at hall

theorem Shifts.tries (h : Shifts g s l t) : s.disk.Tries l t.disk := by
  induction h with
  | refl s => exact .refl _
  | cons hshift _ ih => exact hshift.tries.trans ih

theorem Shifts.files (h : Shifts g s l t) : s.cache.SameFiles t.cache := by
  induction h with
  | refl => exact fun _ => rfl
  | cons hshift _ ih =>
    exact fun f => (ih f).trans (hshift.files f)

theorem Shifts.consistent (h : Shifts g s l t) (hs : Consistent g s) : Consistent g t := by
  induction h with
  | refl => exact hs
  | cons hshift _ ih => exact ih (hshift.consistent hs)

theorem Shifts.has (h : Shifts g s l t) (hs : Consistent g s) (hstore : s.cache.store? f = some store)
    (hp : g.starts f p) (hhas : (g.mount f store).Has s p z n) :
    ∃ n', n ≤ n' ∧ (g.mount f store).Has t p z n' := by
  induction h generalizing n with
  | refl => exact ⟨n, Nat.le_refl n, hhas⟩
  | cons hshift _ ih =>
    obtain ⟨n₁, hn₁, hhas₁⟩ := hshift.has hs hstore hp hhas
    obtain ⟨n₂, hn₂, hhas₂⟩ := ih (hshift.consistent hs) ((hshift.files f).trans hstore) hhas₁
    exact ⟨n₂, Nat.le_trans hn₁ hn₂, hhas₂⟩

theorem Shifts.changed {m : Mount} (h : Shifts g s l t) (ht : m.Changed t p) : m.Changed s p := by
  induction h with
  | refl => exact ht
  | cons hshift _ ih => exact hshift.changed (ih ht)

/-- A store has bytes where it had none only by a write. -/
theorem Shifts.grown (h : Shifts g s l t) (hs : Consistent g s) {id k : Nat}
    (hk : k < (t.disk.contents id).size) : k < (s.disk.contents id).size ∨
      ∃ a ∈ l, a.taken = true ∧ a.store.volume = id ∧ k < a.offset + a.data.length := by
  induction h with
  | refl => exact .inl hk
  | cons hshift _ ih =>
    rcases ih (hshift.consistent hs) hk with hbefore | ⟨a, ha, hpassed⟩
    · rcases hshift.grown hs hbefore with hbefore | ⟨a, ha, hpassed⟩
      · exact .inl hbefore
      · exact .inr ⟨a, List.mem_append_left _ ha, hpassed⟩
    · exact .inr ⟨a, List.mem_append_right _ ha, hpassed⟩

/-- Every block of every open file reads on. -/
theorem Shifts.readsOn (h : Shifts g s l t) (hs : Consistent g s) (hsound : s.cache.Sound none)
    (hsound' : t.cache.Sound none) (hstore : s.cache.store? f = some store) (hp : g.starts f p) :
    (g.mount f store).ReadsOn p s l t := by
  obtain ⟨z, n, hhas⟩ := hs.has f store p hstore hp
  obtain ⟨n', hle, hhas'⟩ := h.has hs hstore hp hhas
  exact hhas.readsOn hhas' hle hsound hsound' h.changed fun hk => h.grown hs hk

theorem Shifts.dirty (h : Shifts g s l t) {i : Nat} {b : Buffer} (hb : s.cache.buffer? i = some b)
    (hdirty : b.dirty = true) : t.cache.buffer? i = some b ∨
      ∃ store, s.cache.store? b.file = some store ∧ b.attempt store true ∈ l := by
  induction h with
  | refl => exact .inl hb
  | cons hshift _ ih =>
    rcases hshift.dirty hb hdirty with hb | ⟨store, hstore, hmem⟩
    · rcases ih hb with hb | ⟨store, hstore, hmem⟩
      · exact .inl hb
      · exact .inr ⟨store, (hshift.files _).symm.trans hstore,
          List.mem_append.mpr (.inr hmem)⟩
    · exact .inr ⟨store, hstore, List.mem_append.mpr (.inl hmem)⟩

end Moves

end PagedIndex
