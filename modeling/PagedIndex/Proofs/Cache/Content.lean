import PagedIndex.Cache.Transfer
import PagedIndex.Proofs.Cache.Sound
import PagedIndex.Proofs.Disk.Store

/-!
# What a cache over a disk holds of a file

A block reads as the image in the buffer that holds it, or else as its bytes in the store. Buffers
come and go without a change of this content as long as no clean buffer differs from the store.

## Main definitions

* `Mount.content` — how a block of a file reads through the cache.
* `Mount.Intact` — what a cache has to keep true for a file.
* `Buffered.Safe` — no buffer has changes that cannot be written.
-/

namespace PagedIndex

/-- A file as a cache knows it. -/
structure Mount where
  file : FileId
  store : Store
  blockSize : Nat

def Cache.store? (c : Cache) (file : FileId) : Option Store :=
  (c.registration? file).map Registration.store

namespace Buffered

/-- A later state: the same buffers and files over a later disk. -/
structure Follows (s s' : Buffered) : Prop where
  disk : s.disk.Follows s'.disk
  capacity : s'.cache.capacity = s.cache.capacity
  registration : ∀ file, s'.cache.registration? file = s.cache.registration? file

variable {s s' : Buffered}

theorem Follows.refl (s : Buffered) : s.Follows s := ⟨.refl _, rfl, fun _ => rfl⟩

theorem Follows.trans {s₁ s₂ s₃ : Buffered} (h : s₁.Follows s₂) (h' : s₂.Follows s₃) :
    s₁.Follows s₃ :=
  ⟨h.disk.trans h'.disk, h'.capacity.trans h.capacity,
    fun file => (h'.registration file).trans (h.registration file)⟩

theorem Follows.stores (h : s.Follows s') (file : FileId) :
    s'.cache.store? file = s.cache.store? file := by
  unfold Cache.store?
  rw [h.registration]

/-- All changes that the store of a file lacks can be written there. -/
def Safe (s : Buffered) : Prop :=
  ∀ i b, s.cache.buffer? i = some b → b.dirty = true →
    ∃ store, s.cache.store? b.file = some store ∧ store.Reliable s.disk ∧
      b.pos.offset + b.image.length < Store.offsetBound

theorem Safe.follows (h : s.Safe) (hf : s.Follows s')
    (hbuffers : ∀ i b, s'.cache.buffer? i = some b → b.dirty = true →
      ∃ b', s.cache.buffer? i = some b' ∧ b'.dirty = true ∧ b'.file = b.file ∧ b'.pos = b.pos ∧
        b'.image = b.image) : s'.Safe := by
  intro i b hb hd
  obtain ⟨b', hb', hd', hfile, hpos, himage⟩ := hbuffers i b hb hd
  obtain ⟨store, hstore, hrel, hlt⟩ := h i b' hb' hd'
  exact ⟨store, by rw [hf.stores, ← hfile]; exact hstore, hrel.follows hf.disk,
    by rw [← hpos, ← himage]; exact hlt⟩

/-- A buffer that a running call does not use. -/
def Spare (s : Buffered) : Prop :=
  ∃ i, i < s.cache.capacity ∧ ∀ b, s.cache.buffer? i = some b → b.pinned = false

end Buffered

/-- Files that are taken up already keep their stores. -/
theorem Cache.store?_register {c : Cache} {store : Store} {file : FileId} (h : file ≠ c.freshFile) :
    (c.register store).2.store? file = c.store? file := by
  simp [store?, registration?, register, List.lookup_cons, beq_eq_false_iff_ne.mpr h]

namespace Mount

variable (m : Mount)

/-- The image of a block in the store, if the store holds it whole. -/
def stored (d : Disk) (pos : BlockPos) : Option Bytes :=
  let image := (d.contents m.store.volume).read pos.offset m.blockSize
  if image.length = m.blockSize then some image else none

/-- How a block reads through the cache. -/
def content (s : Buffered) (pos : BlockPos) : Option Bytes :=
  match (s.cache.lookup m.file pos).bind s.cache.buffer? with
  | some b => some b.image
  | none => m.stored s.disk pos

/-- Whether a block may start at a position. -/
def Aligned (pos : BlockPos) : Prop := m.blockSize ∣ pos.offset

/-- What a cache keeps true for a file: its buffers hold whole blocks, those without changes agree
with the store but for one that is about to be filled, and nothing else is written to its volume. -/
structure Intact (fresh : Option BlockPos) (out : Option Nat) (s : Buffered) : Prop where
  sound : s.cache.Sound out
  enough : minBuffers ≤ s.cache.capacity
  size_pos : 0 < m.blockSize
  volume_lt : m.store.volume < s.disk.volumes.size
  header : m.blockSize ≤ (s.disk.contents m.store.volume).size
  store : s.cache.store? m.file = some m.store
  whole : ∀ i b, s.cache.buffer? i = some b → b.file = m.file →
    m.Aligned b.pos ∧ b.image.length = m.blockSize
  apart : ∀ i b store, s.cache.buffer? i = some b → b.dirty = true → b.file ≠ m.file →
    s.cache.store? b.file = some store → store.volume ≠ m.store.volume
  clean : ∀ i b, s.cache.buffer? i = some b → b.file = m.file → b.dirty = false →
    fresh ≠ some b.pos → m.stored s.disk b.pos = some b.image

/-- Every block but one reads as before. -/
def KeepsBut (changed : Option BlockPos) (s s' : Buffered) : Prop :=
  ∀ p x, m.Aligned p → changed ≠ some p → m.content s p = some x → m.content s' p = some x

/-- Every block up to a mark reads as before. -/
def KeepsUpTo (mark : BlockPos) (s s' : Buffered) : Prop :=
  ∀ p x, m.Aligned p → p.offset ≤ mark.offset → m.content s p = some x → m.content s' p = some x

variable {m} {s s' s'' : Buffered} {fresh : Option BlockPos} {out : Option Nat} {i : Nat}
  {b : Buffer} {pos : BlockPos} {d d' : Disk} {x image : Bytes}

theorem KeepsBut.refl {changed : Option BlockPos} (s : Buffered) : m.KeepsBut changed s s :=
  fun _ _ _ _ h => h

theorem KeepsBut.trans {changed : Option BlockPos} (h : m.KeepsBut changed s s')
    (h' : m.KeepsBut changed s' s'') : m.KeepsBut changed s s'' :=
  fun p x ha hp hx => h' p x ha hp (h p x ha hp hx)

theorem KeepsBut.weaken (changed : Option BlockPos) (h : m.KeepsBut none s s') :
    m.KeepsBut changed s s' :=
  fun p x ha _ hx => h p x ha nofun hx

theorem KeepsBut.upTo (mark : BlockPos) (h : m.KeepsBut none s s') : m.KeepsUpTo mark s s' :=
  fun p x ha _ hx => h p x ha nofun hx

theorem KeepsUpTo.trans {mark : BlockPos} (h : m.KeepsUpTo mark s s')
    (h' : m.KeepsUpTo mark s' s'') : m.KeepsUpTo mark s s'' :=
  fun p x ha hp hx => h' p x ha hp (h p x ha hp hx)

/-! ## The store -/

theorem stored_eq_some_iff (hpos : 0 < m.blockSize) :
    m.stored d pos = some x ↔
      pos.offset + m.blockSize ≤ (d.contents m.store.volume).size ∧
        (d.contents m.store.volume).read pos.offset m.blockSize = x := by
  unfold stored
  simp only [Contents.length_read]
  split
  · next h =>
    rw [Option.some.injEq]
    exact ⟨fun hx => ⟨by omega, hx⟩, fun hx => hx.2⟩
  · next h => exact ⟨fun hx => (nomatch hx), fun hx => absurd hx.1 (by omega)⟩

theorem length_stored (h : m.stored d pos = some x) : x.length = m.blockSize := by
  unfold stored at h
  simp only at h
  split at h
  · next hlen =>
    rw [← Option.some.inj h]
    exact hlen
  · cases h

theorem stored_congr (h : d'.contents m.store.volume = d.contents m.store.volume) :
    m.stored d' pos = m.stored d pos := by
  unfold stored
  rw [h]

/-- Blocks of one size at different multiples of it lie apart. -/
theorem Aligned.apart {p q : BlockPos} (hp : m.Aligned p) (hq : m.Aligned q) (hne : p ≠ q) :
    p.offset + m.blockSize ≤ q.offset ∨ q.offset + m.blockSize ≤ p.offset := by
  obtain ⟨k, hk⟩ := hp
  obtain ⟨n, hn⟩ := hq
  have hkn : k ≠ n := by
    rintro rfl
    have : p.offset = q.offset := hk.trans hn.symm
    cases p
    cases q
    exact hne (congrArg BlockPos.mk this)
  rw [hk, hn]
  rcases Nat.lt_or_gt_of_ne hkn with h | h
  · exact .inl (by rw [← Nat.mul_succ]; exact Nat.mul_le_mul_left _ h)
  · exact .inr (by rw [← Nat.mul_succ]; exact Nat.mul_le_mul_left _ h)

/-- A written block is in the store. -/
theorem stored_write_self (hlen : image.length = m.blockSize) (hsize : 0 < m.blockSize)
    (hd : d'.contents m.store.volume = (d.contents m.store.volume).write pos.offset image) :
    m.stored d' pos = some image := by
  rw [stored_eq_some_iff hsize, hd, ← hlen]
  exact ⟨Nat.le_max_right _ _, Contents.read_write_self _ _ _⟩

/-- The other blocks in the store stay as they are. -/
theorem stored_write_ne {q : BlockPos} (hlen : image.length = m.blockSize) (hsize : 0 < m.blockSize)
    (hd : d'.contents m.store.volume = (d.contents m.store.volume).write pos.offset image)
    (hpos : m.Aligned pos) (hq : m.Aligned q) (hne : q ≠ pos) (hx : m.stored d q = some x) :
    m.stored d' q = some x := by
  rw [stored_eq_some_iff hsize] at hx ⊢
  rw [hd]
  refine ⟨Nat.le_trans hx.1 (Nat.le_max_left _ _), ?_⟩
  rw [Contents.read_write_of_disjoint hx.1 (by rw [hlen]; exact hq.apart hpos hne)]
  exact hx.2

/-! ## Content -/

theorem content_of_buffer (hs : s.cache.Sound out) (hb : s.cache.buffer? i = some b)
    (hfile : b.file = m.file) : m.content s b.pos = some b.image := by
  have hl : s.cache.lookup m.file b.pos = some i :=
    hs.lookup_eq_some_iff.mpr ⟨b, hb, hfile, rfl⟩
  unfold content
  rw [hl, Option.bind_some, hb]

theorem content_of_absent (hs : s.cache.Sound out)
    (habsent : ∀ i b, s.cache.buffer? i = some b → b.file = m.file → b.pos ≠ pos) :
    m.content s pos = m.stored s.disk pos := by
  have hl : s.cache.lookup m.file pos = none := hs.lookup_eq_none_iff.mpr habsent
  unfold content
  rw [hl]
  rfl

/-- Whether a buffer holds a block. -/
theorem held_or_absent (s : Buffered) (m : Mount) (pos : BlockPos) :
    (∃ i b, s.cache.buffer? i = some b ∧ b.file = m.file ∧ b.pos = pos) ∨
      ∀ i b, s.cache.buffer? i = some b → b.file = m.file → b.pos ≠ pos := by
  by_cases h : ∃ i b, s.cache.buffer? i = some b ∧ b.file = m.file ∧ b.pos = pos
  · exact .inl h
  · exact .inr fun i b hb hfile hpos => h ⟨i, b, hb, hfile, hpos⟩

/-- A block that the store holds reads as something. -/
theorem isSome_content (h : (m.stored s.disk pos).isSome) : (m.content s pos).isSome := by
  unfold content
  split
  · rfl
  · exact h

/-- A cache takes up a file that it holds nothing of. -/
theorem intact_register {store : Store} {size : Nat} (hsound : s.cache.Sound none)
    (henough : minBuffers ≤ s.cache.capacity)
    (hnew : ∀ i b, s.cache.buffer? i = some b → b.file ≠ s.cache.freshFile)
    (hsize : 0 < size) (hvolume : store.volume < s.disk.volumes.size)
    (hheader : size ≤ (s.disk.contents store.volume).size)
    (hapart : ∀ i b other, s.cache.buffer? i = some b → b.dirty = true →
      s.cache.store? b.file = some other → other.volume ≠ store.volume) :
    Intact ⟨s.cache.freshFile, store, size⟩ none none ⟨(s.cache.register store).2, s.disk⟩ := by
  refine ⟨hsound.register store, henough, hsize, hvolume, hheader, ?_, fun i b hb hfile => ?_,
    fun i b other hb hd hfile hother => ?_, fun i b hb hfile => ?_⟩
  · simp [Cache.store?, Cache.registration?, Cache.register]
  · exact absurd hfile (hnew i b hb)
  · exact hapart i b other hb hd ((Cache.store?_register hfile).symm.trans hother)
  · exact absurd hfile (hnew i b hb)

end Mount

end PagedIndex
