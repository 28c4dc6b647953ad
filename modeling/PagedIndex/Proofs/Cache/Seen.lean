import PagedIndex.Proofs.Cache.Shifts

/-!
# Files as they are seen

Every block of a tidy file is seen as something: as the image in its buffer, or else as the bytes of
the store, with zeros where the file ends before it or in it. Blocks that end behind the end of the
file cannot be read, but work for other files or a block that is written behind them may bring them
in. They are seen then as they were before.

## Main definitions

* `Mount.seen` — how a block is seen.

## Main statements

* `Cache.Steps.seen` — work that puts in no images leaves all blocks as they are seen.
-/

namespace PagedIndex

namespace Mount

variable {m : Mount} {s t : Buffered} {out : Option Nat} {i : Nat} {b : Buffer}
  {pos : BlockPos} {d : Disk} {x : Bytes}

/-- How a block is seen: as it reads, or as the bytes that the store has for it. -/
def seen (m : Mount) (s : Buffered) (pos : BlockPos) : Bytes :=
  (m.content s pos).getD (m.bytes s.disk pos)

theorem seen_of_content (hx : m.content s pos = some x) : m.seen s pos = x := by simp [seen, hx]

theorem seen_of_buffer (hs : s.cache.Sound out) (hb : s.cache.buffer? i = some b)
    (hfile : b.file = m.file) : m.seen s b.pos = b.image :=
  seen_of_content (content_of_buffer hs hb hfile)

/-- What the store holds whole are its bytes. -/
theorem bytes_of_stored (hsize : 0 < m.blockSize) (hx : m.stored d pos = some x) :
    m.bytes d pos = x := by
  obtain ⟨hin, rfl⟩ := (stored_eq_some_iff hsize).mp hx
  exact (Contents.read_eq_stretch hin).symm

theorem seen_of_absent (hsize : 0 < m.blockSize) (hs : s.cache.Sound out)
    (habsent : ∀ i b, s.cache.buffer? i = some b → b.file = m.file → b.pos ≠ pos) :
    m.seen s pos = m.bytes s.disk pos := by
  cases hx : m.content s pos with
  | none => simp [seen, hx]
  | some x =>
    have hstored : m.stored s.disk pos = some x := (content_of_absent hs habsent).symm.trans hx
    rw [seen_of_content hx, bytes_of_stored hsize hstored]

/-- No buffer holds a block that does not read. -/
theorem absent_of_content (hs : s.cache.Sound out) (hnone : m.content s pos = none) :
    ∀ i b, s.cache.buffer? i = some b → b.file = m.file → b.pos ≠ pos := by
  rintro i b hb hfile rfl
  simp [content_of_buffer hs hb hfile] at hnone

theorem seen_congr (hcontent : m.content t pos = m.content s pos)
    (hdisk : t.disk.contents m.store.volume = s.disk.contents m.store.volume) :
    m.seen t pos = m.seen s pos := by
  simp [seen, hcontent, bytes_congr hdisk]

/-- They are seen alike over every disk with the same bytes. -/
theorem seen_of_disk (hdisk : d.contents m.store.volume = s.disk.contents m.store.volume) :
    m.seen ⟨s.cache, d⟩ pos = m.seen s pos :=
  seen_congr (by simp only [content, stored_congr hdisk]) hdisk

end Mount

namespace Cache

variable {m : Mount} {V : BlockPos → Prop} {h : Header} {σ τ : Option Nat × Buffered}
  {s t : Buffered} {pos : BlockPos}

/-- The store keeps its bytes of a block that no buffer holds with changes. -/
theorem Step.bytes (hstep : Step m V (fun _ _ => False) σ τ) (hs : m.Tidy h σ.2)
    (hpos : m.Aligned pos) (hclean : ∀ i b, σ.2.cache.buffer? i = some b → b.file = m.file →
      b.pos = pos → b.dirty = false) : m.bytes τ.2.disk pos = m.bytes σ.2.disk pos := by
  cases hstep with
  | count | touch | note | pin | edit | takeFree | giveBack | unhook => rfl
  | through himage | fill _ himage => exact himage.elim
  | ask => exact Mount.bytes_congr ((Store.ask_ends _ _ _ _ _).ending.2.1 _)
  | refused _ _ hwrite => exact Mount.bytes_congr (Disk.contents_of_refused hwrite _)
  | load _ _ hread => exact Mount.bytes_congr (((readImage_told m _ _).of_ok hread).2.1 _)
  | @writeOut s i b store d hb hdirty hstore hwrite =>
    have hwrote := (Store.write_ends store s.disk b.pos.offset b.image).of_ok hwrite
    by_cases hvolume : store.volume = m.store.volume
    · have hfile : b.file = m.file := hs.sole _ _ hstore hvolume
      obtain rfl : store = m.store := by
        rw [hfile, hs.store] at hstore
        exact (Option.some.inj hstore).symm
      obtain ⟨hstart, htidy⟩ := hs.buffers i b hb hfile
      have hne : pos ≠ b.pos := by
        rintro rfl
        simp [hclean i b hb hfile rfl] at hdirty
      have hnonempty : b.image ≠ [] := by
        have := htidy.length
        have := hs.contents.size_pos
        intro hnil
        simp_all
      unfold Mount.bytes
      rw [hwrote.ok rfl hs.volume_lt hnonempty, Contents.stretch_write_of_disjoint]
      rw [htidy.length, ← hs.size]
      exact hpos.apart (hs.aligned hstart) hne
    · exact Mount.bytes_congr (hwrote.apart _ (Ne.symm hvolume))

/-- Of a block that does not read the store keeps its bytes, and what is read of it are those. -/
theorem Through.bytes (hsteps : Through m V (fun _ _ => False) σ τ) (hs : m.Tidy h σ.2)
    (hV : ∀ p, V p → h.layout.Start p) (hpos : m.Aligned pos)
    (habsent : ∀ i b, σ.2.cache.buffer? i = some b → b.file = m.file → b.pos ≠ pos) :
    m.bytes τ.2.disk pos = m.bytes σ.2.disk pos ∧
      ∀ i b, τ.2.cache.buffer? i = some b → b.file = m.file → b.pos = pos →
        b.dirty = false ∧ b.image = m.bytes σ.2.disk pos := by
  have htidy : ∀ {υ}, Through m V (fun _ _ => False) σ υ → m.Tidy h υ.2 := fun hυ =>
    (hυ.tidy hs hs.store fun _ => ⟨rfl, hV, fun _ _ hW => hW.elim⟩).1
  induction hsteps with
  | refl => exact ⟨rfl, fun i b hb hfile hp => absurd hp (habsent i b hb hfile)⟩
  | @tail υ τ hυ hstep ih =>
    obtain ⟨hbytes, hheld⟩ := ih
    have hυs := htidy hυ
    refine ⟨(hstep.bytes hυs hpos fun i b hb hfile hp => (hheld i b hb hfile hp).1).trans hbytes,
      fun i b hb hfile hp => ?_⟩
    rcases hstep.untouched hb with ⟨b', hb', hfile', hp', himage, hchanged⟩ | ⟨hclean, d, hread⟩
    · obtain ⟨hclean, hold⟩ := hheld i b' hb' (hfile'.trans hfile) (hp'.trans hp)
      refine ⟨?_, himage.symm.trans hold⟩
      rw [Bool.eq_false_iff] at hclean ⊢
      exact fun hdirty => hclean (hchanged hdirty)
    · have hsize := hυs.size ▸ hυs.contents.size_pos
      have hstored := ((Mount.readImage_ends m υ.2.disk b.pos hsize
        (hυs.size ▸ hυs.contents.header)).of_ok hread).2.2.1 _ rfl
      rw [hp] at hstored
      exact ⟨hclean, (Mount.bytes_of_stored hsize hstored).symm.trans hbytes⟩

/-- Work for a tidy file that puts in no images leaves all blocks as they are seen, if it leaves
those that read as they read. -/
theorem Steps.seen (hsteps : Steps m V (fun _ _ => False) s t) (hs : m.Tidy h s)
    (hV : ∀ p, V p → h.layout.Start p) (hsound : s.cache.Sound none)
    (hkeeps : m.KeepsBut none s t) (hpos : m.Aligned pos) : m.seen t pos = m.seen s pos := by
  cases hx : m.content s pos with
  | some x => rw [Mount.seen_of_content hx, Mount.seen_of_content (hkeeps pos x hpos (by simp) hx)]
  | none =>
    have hsize := hs.size ▸ hs.contents.size_pos
    have habsent := Mount.absent_of_content hsound hx
    have hsound' := hsteps.sound hsound hs.store
    obtain ⟨hbytes, hheld⟩ := Through.bytes hsteps hs hV hpos habsent
    rw [Mount.seen_of_absent hsize hsound habsent]
    rcases Mount.held_or_absent t m pos with ⟨i, b, hb, hfile, rfl⟩ | habsent'
    · rw [Mount.seen_of_buffer hsound' hb hfile, (hheld i b hb hfile rfl).2]
    · rw [Mount.seen_of_absent hsize hsound' habsent', hbytes]

end Cache

end PagedIndex
