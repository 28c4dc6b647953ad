import PagedIndex.Proofs.Cache.Spared
import PagedIndex.Proofs.Codec.Links

/-!
# Tidy files in caches

As long as all images that are put into a file are tidy, and only blocks are touched that may be
there, the file is tidy in the cache and in the store, whatever is refused, and whichever of its
blocks the work for other files moves to the store. The bytes of a block count even where the file
ends before it or in it, since they are read as soon as the file is longer.

## Main definitions

* `Contents.Tidy` — the bytes of a tidy file.
* `Mount.Tidy` — a tidy file, open once, and with a volume of its own in its cache.

## Main statements

* `Contents.Tidy.write` — a tidy block is written to a tidy file.
* `Cache.Steps.tidy` — what a cache does leaves a tidy file tidy.
-/

namespace PagedIndex

namespace Contents

/-- The bytes of a range, with zeros where nothing was written. -/
def stretch (c : Contents) (offset length : Nat) : Bytes := (List.range' offset length).map c.byte

/-- A file in which every block leads to where blocks may start, if it comes to be read. -/
structure Tidy (c : Contents) (h : Header) : Prop where
  header : h.blockSize ≤ c.size
  blocks : ∀ p : BlockPos, h.blockSize ∣ p.offset → h.Tidy p (c.stretch p.offset h.blockSize)

variable {c : Contents} {h : Header}

theorem read_eq_stretch {offset length : Nat} (hin : offset + length ≤ c.size) :
    c.read offset length = c.stretch offset length := by
  rw [read_eq_map, Nat.min_eq_left (by omega)]
  rfl

/-- What was written is there. -/
theorem stretch_write_self {offset length : Nat} {data : Bytes} (hlen : data.length = length) :
    (c.write offset data).stretch offset length = data := by
  rw [← hlen, ← read_eq_stretch (by rw [size_write]; exact Nat.le_max_right _ _), read_write_self]

/-- Other ranges stay as they are. -/
theorem stretch_write_of_disjoint {offset length offset' : Nat} {data : Bytes}
    (hapart : offset + length ≤ offset' ∨ offset' + data.length ≤ offset) :
    (c.write offset' data).stretch offset length = c.stretch offset length := by
  refine List.map_congr_left fun i hi => ?_
  rw [List.mem_range'_1] at hi
  rw [byte_write, if_neg (by omega)]

/-- A tidy file begins with its header block. -/
theorem Tidy.leads (hc : c.Tidy h) : h.Leads (c.read 0 h.blockSize) := by
  rw [read_eq_stretch (by simpa using hc.header)]
  exact (hc.blocks .null (Nat.dvd_zero _)).header rfl

theorem Tidy.workable (hc : c.Tidy h) : h.layout.Workable := (Header.of_parse_eq_ok hc.leads.parse).1

theorem Tidy.minHeaderBytes_le (hc : c.Tidy h) : minHeaderBytes ≤ h.blockSize :=
  Header.minHeaderBytes_le_of_parse hc.leads.parse

/-- Its blocks have room for the chain pointers. -/
theorem Tidy.pointers_le (hc : c.Tidy h) : 1 + 4 * h.format.positionWidth ≤ h.blockSize :=
  Nat.le_trans (Header.pointers_le h.format) (Nat.le_trans (by decide) hc.minHeaderBytes_le)

theorem Tidy.size_pos (hc : c.Tidy h) : 0 < h.blockSize :=
  Nat.lt_of_lt_of_le (by decide) hc.minHeaderBytes_le

/-- A tidy block is written to a tidy file. -/
theorem Tidy.write (hc : c.Tidy h) {p : BlockPos} (hp : h.blockSize ∣ p.offset) {x : Bytes}
    (hx : h.Tidy p x) : (c.write p.offset x).Tidy h := by
  have hlen := hx.length
  refine ⟨?_, fun q hq => ?_⟩
  · rw [size_write]
    exact Nat.le_trans hc.header (Nat.le_max_left _ _)
  · by_cases hqp : q = p
    · subst hqp
      rw [stretch_write_self hlen]
      exact hx
    · have hapart : q.offset + h.blockSize ≤ p.offset ∨ p.offset + h.blockSize ≤ q.offset :=
        Mount.Aligned.apart (m := ⟨0, default, h.blockSize⟩) hq hp hqp
      rw [stretch_write_of_disjoint (by rw [hlen]; exact hapart)]
      exact hc.blocks q hq

theorem Tidy.congr {c' : Contents} (hc : c.Tidy h) (h' : c' = c) : c'.Tidy h := h' ▸ hc

end Contents

namespace Mount

/-- A tidy file that is open once, and has a volume of its own among the files of its cache. -/
structure Tidy (m : Mount) (h : Header) (s : Buffered) : Prop where
  size : m.blockSize = h.blockSize
  store : s.cache.store? m.file = some m.store
  volume_lt : m.store.volume < s.disk.volumes.size
  contents : (s.disk.contents m.store.volume).Tidy h
  buffers : ∀ i b, s.cache.buffer? i = some b → b.file = m.file →
    h.layout.Start b.pos ∧ h.Tidy b.pos b.image
  sole : ∀ f store, s.cache.store? f = some store → store.volume = m.store.volume → f = m.file

variable {m other : Mount} {h : Header} {s t : Buffered}

/-- Where a block may start is where the file has one. -/
theorem Tidy.aligned (hs : m.Tidy h s) {p : BlockPos} (hp : h.layout.Start p) : m.Aligned p := by
  unfold Aligned
  rw [hs.size]
  exact hp.aligned

/-- A tidy file of which a tidy block is written, or nothing, and whose buffers hold tidy blocks. -/
theorem Tidy.of (hs : m.Tidy h s) (hstores : ∀ f, t.cache.store? f = s.cache.store? f)
    (hfollows : s.disk.Follows t.disk)
    (hdisk : t.disk.contents m.store.volume = s.disk.contents m.store.volume ∨
      ∃ p x, h.layout.Start p ∧ h.Tidy p x ∧ t.disk.contents m.store.volume =
        (s.disk.contents m.store.volume).write p.offset x)
    (hbuffers : ∀ i b, t.cache.buffer? i = some b → b.file = m.file →
      (∃ j b', s.cache.buffer? j = some b' ∧ b'.file = m.file ∧ b'.pos = b.pos ∧
        b'.image = b.image) ∨ h.layout.Start b.pos ∧ h.Tidy b.pos b.image) : m.Tidy h t := by
  refine ⟨hs.size, (hstores _).trans hs.store, hfollows.size ▸ hs.volume_lt, ?_,
    fun i b hb hfile => ?_, fun f store hf => hs.sole f store ((hstores f).symm.trans hf)⟩
  · rcases hdisk with heq | ⟨p, x, hp, hx, heq⟩
    · exact hs.contents.congr heq
    · rw [heq]
      exact hs.contents.write hp.aligned hx
  · rcases hbuffers i b hb hfile with ⟨j, b', hb', hfile', hpos, himage⟩ | hnew
    · rw [← hpos, ← himage]
      exact hs.buffers j b' hb' hfile'
    · exact hnew

/-- Buffers that hold no other blocks over a disk with the same contents. -/
theorem Tidy.of_same (hs : m.Tidy h s) (hstores : ∀ f, t.cache.store? f = s.cache.store? f)
    (hfollows : s.disk.Follows t.disk)
    (hdisk : t.disk.contents m.store.volume = s.disk.contents m.store.volume)
    (hbuffers : ∀ i b, t.cache.buffer? i = some b → b.file = m.file →
      ∃ j b', s.cache.buffer? j = some b' ∧ b'.file = m.file ∧ b'.pos = b.pos ∧
        b'.image = b.image) : m.Tidy h t :=
  hs.of hstores hfollows (.inl hdisk) fun i b hb hfile => .inl (hbuffers i b hb hfile)

/-- The blocks of a tidy file are tidy in the store. -/
theorem Tidy.of_stored (hs : m.Tidy h s) {p : BlockPos} {x : Bytes} (hp : m.Aligned p)
    (hx : m.stored s.disk p = some x) : h.Tidy p x := by
  have hsize := hs.contents.size_pos
  rw [stored_eq_some_iff (hs.size ▸ hsize), hs.size] at hx
  rw [← hx.2, Contents.read_eq_stretch hx.1]
  exact hs.contents.blocks p (hs.size ▸ hp)

/-- So they are however they read. -/
theorem Tidy.of_content {out : Option Nat} (hs : m.Tidy h s) (hsound : s.cache.Sound out)
    {p : BlockPos} {x : Bytes} (hp : m.Aligned p) (hx : m.content s p = some x) : h.Tidy p x := by
  rcases held_or_absent s m p with ⟨i, b, hb, hfile, rfl⟩ | habsent
  · rw [content_of_buffer hsound hb hfile] at hx
    cases hx
    exact (hs.buffers i b hb hfile).2
  · rw [content_of_absent hsound habsent] at hx
    exact hs.of_stored hp hx

end Mount

namespace Cache

variable {m other : Mount} {V : BlockPos → Prop} {W : BlockPos → Bytes → Prop} {h : Header}
  {σ τ : Option Nat × Buffered} {s t : Buffered}

/-- A step leaves a tidy file tidy: one for another file, or one that touches tidy blocks. -/
theorem Step.tidy (hstep : Step other V W σ τ) (hs : m.Tidy h σ.2)
    (hstore : σ.2.cache.store? other.file = some other.store)
    (hown : other.file = m.file → other = m ∧ (∀ p, V p → h.layout.Start p) ∧
      ∀ p x, W p x → h.layout.Start p ∧ h.Tidy p x) : m.Tidy h τ.2 := by
  have hstores := hstep.registered.2.1
  have hfollows : σ.2.disk.Follows τ.2.disk := hstep.reaches.follows
  have hsame := @Mount.Tidy.of_same m h σ.2 τ.2 hs hstores hfollows
  -- a write to the volume of the file is one of the file itself
  have hwrite : ∀ {f : FileId} {store : Store} {offset : Nat} {data : Bytes} {r d},
      σ.2.cache.store? f = some store → store.Wrote offset data σ.2.disk r d →
      (f = m.file → h.layout.Start ⟨offset⟩ ∧ h.Tidy ⟨offset⟩ data) →
      d.contents m.store.volume = σ.2.disk.contents m.store.volume ∨
        ∃ p x, h.layout.Start p ∧ h.Tidy p x ∧ d.contents m.store.volume =
          (σ.2.disk.contents m.store.volume).write p.offset x := by
    intro f store offset data r d hf hw hdata
    by_cases hvolume : m.store.volume = store.volume
    · obtain rfl := hs.sole f store hf hvolume.symm
      obtain rfl : store = m.store := Option.some.inj (hf.symm.trans hs.store)
      obtain ⟨ha, htidy⟩ := hdata rfl
      cases r with
      | error e => exact .inl (hw.error e rfl)
      | ok _ =>
        refine .inr ⟨⟨offset⟩, data, ha, htidy, hw.ok rfl hs.volume_lt fun hnil => ?_⟩
        have hlen := htidy.length
        rw [hnil] at hlen
        exact absurd hs.contents.size_pos (by rw [← hlen]; exact Nat.lt_irrefl 0)
    · exact .inl (hw.apart _ hvolume)
  have hkept : ∀ i b, σ.2.cache.buffer? i = some b → b.file = m.file →
      ∃ j b', σ.2.cache.buffer? j = some b' ∧ b'.file = m.file ∧ b'.pos = b.pos ∧
        b'.image = b.image := fun i b hb hfile => ⟨i, b, hb, hfile, rfl, rfl⟩
  cases hstep with
  | count | touch | note | takeFree | giveBack => exact hsame rfl hkept
  | pin hb pinned =>
    refine hsame rfl fun i b hb' hfile => ?_
    obtain ⟨b', hold, rfl⟩ := Session.setPinned_eq_some hb'
    refine ⟨i, b', hold, ?_⟩
    split at hfile <;> simp_all
  | @edit out s i image hb =>
    refine hs.of hstores hfollows (.inl rfl) fun j b hb' hfile => ?_
    dsimp only at hb'
    rw [setImage, buffer?_modifyBuffer] at hb'
    split at hb'
    · next hj =>
      obtain ⟨b', hold, rfl⟩ := Option.map_eq_some_iff.mp hb'
      obtain ⟨hother, himage⟩ := hb b' hold
      obtain ⟨-, -, hW⟩ := hown (hother.symm.trans hfile)
      exact .inr (hW _ _ himage)
    · exact .inl (hkept j b hb' hfile)
  | ask access offset length => exact hsame ((Store.ask_ends _ _ _ _ _).ending.2.1 _) hkept
  | @through _ _ offset data himage =>
    refine hs.of hstores hfollows ?_ fun i b hb hfile => .inl (hkept i b hb hfile)
    exact hwrite hstore (Store.write_ends _ _ _ _).ending fun hf => (hown hf).2.2 _ _ himage
  | @refused out s i b store e d hb hf hw =>
    refine hs.of hstores hfollows ?_ fun i b hb hfile => .inl (hkept i b hb hfile)
    exact hwrite hf ((Store.write_ends _ _ _ _).of_error hw) fun hfile => hs.buffers i b hb hfile
  | @unhook s i b hb hd =>
    exact hsame rfl fun j b' hb' hfile => hkept j b' ((Mount.buffer?_unhook_eq_some hb').2) hfile
  | @writeOut s i b store d hb hdirty hf hw =>
    refine hs.of hstores hfollows ?_ fun j b' hb' hfile => .inl ?_
    · exact hwrite hf ((Store.write_ends _ _ _ _).of_ok hw) fun hfile => hs.buffers i b hb hfile
    · have hclean : (s.cache.clean i).buffer? j = some b' :=
        (Mount.buffer?_unhook_eq_some (s := ⟨s.cache.clean i, d⟩) hb').2
      rw [buffer?_clean] at hclean
      split at hclean
      · next hj =>
        rw [hb] at hclean
        cases hclean
        exact ⟨i, b, hb, hfile, rfl, rfl⟩
      · exact hkept j b' hclean hfile
  | @load s i pos image d habsent hplace hread =>
    have hd : d.contents m.store.volume = s.disk.contents m.store.volume := by
      rw [(readImage_asks _ _ _ _).of_ok hread]
      exact (Store.ask_ends _ _ _ _ _).ending.2.1 _
    refine hs.of hstores hfollows (.inl hd) fun j b hb hfile => ?_
    rcases buffer?_hook_cases hb with ⟨rfl, rfl⟩ | ⟨-, hold⟩
    · obtain ⟨rfl, hV, -⟩ := hown hfile
      have himage := ((Mount.readImage_ends other s.disk pos (hs.size ▸ hs.contents.size_pos)
        (hs.size ▸ hs.contents.header)).of_ok hread).2.2.1 image rfl
      exact .inr ⟨hV pos hplace, hs.of_stored (hs.aligned (hV pos hplace)) himage⟩
    · exact .inl (hkept j b hold hfile)
  | @fill s i pos image dirty habsent himage =>
    refine hs.of hstores hfollows (.inl rfl) fun j b hb hfile => ?_
    rcases buffer?_hook_cases hb with ⟨rfl, rfl⟩ | ⟨-, hold⟩
    · exact .inr ((hown hfile).2.2 _ _ himage)
    · exact .inl (hkept j b hold hfile)

/-- So does all that a cache does for a file. -/
theorem Through.tidy (hsteps : Through other V W σ τ) (hs : m.Tidy h σ.2)
    (hstore : σ.2.cache.store? other.file = some other.store)
    (hown : other.file = m.file → other = m ∧ (∀ p, V p → h.layout.Start p) ∧
      ∀ p x, W p x → h.layout.Start p ∧ h.Tidy p x) :
    m.Tidy h τ.2 ∧ τ.2.cache.store? other.file = some other.store := by
  induction hsteps with
  | refl => exact ⟨hs, hstore⟩
  | tail _ hstep ih =>
    obtain ⟨hs, hstore⟩ := ih
    exact ⟨hstep.tidy hs hstore hown, (hstep.registered.2.1 _).trans hstore⟩

/-- The work for a tidy file that touches tidy blocks. -/
theorem Steps.tidy (hsteps : Steps m h.layout.Start (fun p x => h.layout.Start p ∧ h.Tidy p x) s t)
    (hs : m.Tidy h s) : m.Tidy h t :=
  (Through.tidy hsteps hs hs.store fun _ => ⟨rfl, fun _ => id, fun _ _ => id⟩).1

/-- The work for another file. -/
theorem Steps.tidy_ne (hsteps : Steps other V W s t) (hs : m.Tidy h s)
    (hstore : s.cache.store? other.file = some other.store) (hfile : other.file ≠ m.file) :
    m.Tidy h t :=
  (Through.tidy hsteps hs hstore fun heq => absurd heq hfile).1

end Cache

end PagedIndex
