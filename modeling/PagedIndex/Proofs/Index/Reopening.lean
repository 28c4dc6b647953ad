import PagedIndex.Proofs.Index.Meanwhile

/-!
# Files that are opened again

A handle that opens a tidy file has it for itself if no other handle does. What was read of a file
between two calls is read again by a handle that opens it afresh, once all of it is in the volume.

## Main definitions

* `Workspace.Admits` — a workspace in which a store can be opened.
* `Index.Rereads` — a handle that has opened a file afresh.
* `Index.Resumes` — a handle that reads what another one has read.

## Main statements

* `Index.Opened.soleOnTidy` — a handle on a tidy file.
* `Index.tidy_of_encode` — a new file is tidy.
* `Index.SoleOnTidy.resumable` — a handle that opens the file afresh reads the same.
-/

namespace PagedIndex

/-- A workspace in which a store can be opened through one of the caches, of which no file lies in
the volume, whatever the store may refuse. -/
structure Workspace.Admits (w : Workspace) (store : Store) (id cell : Nat) : Prop where
  cache : id < w.caches.size
  cell : cell < w.cells.size
  volume : store.volume < w.disk.volumes.size
  sound : (w.cache id).Sound none
  enough : minBuffers ≤ (w.cache id).capacity
  unpinned : Session.Unpinned (w.below id)
  untaken : (w.cache id).Untaken store.volume

/-- The header of a tidy file is read from its volume. -/
theorem Contents.Tidy.parse {c : Contents} {h : Header} (hc : c.Tidy h) :
    Header.parse (c.read 0 maxBlockSize) = .ok h := by
  have hsmall : h.blockSize ≤ maxBlockSize := hc.workable.small
  refine Header.parse_of_take_eq hc.leads.parse ?_
  rw [take_read _ hsmall, take_read _ (Nat.le_refl _)]

namespace Index

variable {store : Store} {options : OpenOptions} {cell : Nat} {w w' : Workspace} {ix : Index}

/-! ## Opening -/

section Opened

variable (h : Opened store options cell w ix w')

include h

theorem Opened.below (hcache : ix.cache < w.caches.size) :
    w'.below ix.cache = ⟨((w.cache ix.cache).register store).2, w'.disk⟩ := by
  obtain ⟨d, -, -, -, -, rfl⟩ := h.disk
  rw [Workspace.below_withBelow (by exact hcache), h.store]
  rfl

theorem Opened.blockSize_eq : ix.mount.blockSize = ix.header.blockSize := by
  unfold mount
  rw [h.tree]
  rfl

/-- A handle is one on the file that it opens. -/
theorem Opened.seated (hw : w.Admits store (options.cache.getD Workspace.commonCache) cell)
    (hsize : 0 < ix.header.blockSize)
    (hheader : ix.header.blockSize ≤ (w'.disk.contents store.volume).size) :
    ix.mount.Seated (w'.below ix.cache) := by
  rw [← h.cache] at hw
  have hvolume : store.volume < w'.disk.volumes.size := by
    obtain ⟨d, hfollows, -, -, -, rfl⟩ := h.disk
    exact hfollows.size ▸ hw.volume
  have hmount : ix.mount = ⟨(w.cache ix.cache).freshFile, store, ix.header.blockSize⟩ := by
    rw [← h.blockSize_eq, ← h.file, ← h.store]
    rfl
  rw [h.below hw.cache, hmount]
  exact Mount.seated_register (s := ⟨w.cache ix.cache, w'.disk⟩) hw.sound hw.enough hw.unpinned
    hsize hvolume
    hheader fun i b other _ _ hother => hw.untaken _ other hother

/-- A tidy file that is opened, and is open nowhere else. -/
theorem Opened.soleOnTidy (hw : w.Admits store (options.cache.getD Workspace.commonCache) cell)
    (hsole : ∀ id, (w.cache id).Untaken store.volume)
    (htidy : (w'.disk.contents store.volume).Tidy ix.header) : ix.SoleOnTidy w' := by
  have hseated := h.seated hw htidy.size_pos htidy.header
  rw [← h.cache] at hw
  have hbelow := h.below hw.cache
  have hlayout : ix.tree.layout = ix.header.layout := by rw [h.tree]
  have hcaches : w'.caches.size = w.caches.size ∧ w'.cells = w.cells ∧
      ∀ id, id ≠ ix.cache → w'.cache id = w.cache id := by
    obtain ⟨d, -, -, -, -, rfl⟩ := h.disk
    exact ⟨Array.size_setIfInBounds .., rfl, fun id hid =>
      congrArg Buffered.cache (Workspace.below_withBelow_ne (w := { w with disk := d }) hid)⟩
  have hstores : ∀ f other, (w'.below ix.cache).cache.store? f = some other →
      f = ix.file ∧ other = store ∨ (w.cache ix.cache).store? f = some other := by
    intro f other hf
    rw [hbelow] at hf
    by_cases hnext : f = (w.cache ix.cache).freshFile
    · rw [hnext, Cache.store?_register_self] at hf
      exact .inl ⟨hnext.trans h.file.symm, (Option.some.inj hf).symm⟩
    · rw [Cache.store?_register hnext] at hf
      exact .inr hf
  refine ⟨hcaches.1 ▸ hw.cache, ?_, hlayout, ?_, ⟨⟨h.blockSize_eq, hseated.intact.store,
    hseated.intact.volume_lt, ?_, fun i b hb hfile => absurd hfile (hseated.idle i b hb),
    fun f other hf hother => ?_⟩, hseated.intact, hseated.unpinned⟩, fun id hid => ?_⟩
  · rw [hcaches.2.1, h.cell]
    exact hw.cell
  · rw [h.cursor]
    exact nofun
  · show (w'.disk.contents ix.store.volume).Tidy ix.header
    rw [h.store]
    exact htidy
  · rcases hstores f other hf with ⟨hf, -⟩ | hold
    · exact hf
    · exact absurd (hother.trans (congrArg Store.volume h.store)) (hw.untaken f other hold)
  · rw [hcaches.2.2 id hid, h.store]
    exact hsole id

end Opened

/-! ## New files -/

/-- The first block of a new file with nothing behind it is a tidy file. -/
theorem tidy_of_encode {c : Contents} {h header : Header} {image : Bytes} {format : Format}
    (hencode : h.encode = .ok image) (hversion : h.version = format.newVersion)
    (hparse : Header.parse ((c.write 0 image).read 0 maxBlockSize) = .ok header)
    (hbehind : ∀ i, header.blockSize ≤ i → (c.write 0 image).byte i = 0) :
    (c.write 0 image).Tidy header := by
  have hmade := made_of_encode hencode hversion hparse
  have hpos : 0 < header.blockSize := hmade.workable.blockSize_pos
  refine ⟨hmade.size, fun p hp => ⟨by simp [Contents.stretch], ?_, fun hne => ?_⟩⟩
  · rintro rfl
    have hfront : (c.write 0 image).stretch BlockPos.null.offset header.blockSize =
        (c.write 0 image).read 0 header.blockSize :=
      (Contents.read_eq_stretch (by simpa [BlockPos.null] using hmade.size)).symm
    have hsmall : header.blockSize ≤ maxBlockSize := hmade.workable.small
    rw [hfront]
    refine ⟨Header.parse_of_take_eq hparse ?_, ?_⟩
    · rw [Contents.take_read _ hsmall, Contents.take_read _ (Nat.le_refl _)]
    · rw [hmade.pointers]
      exact Pointers.lead_iff.mpr ⟨Layout.start_null _, Layout.start_null _, Layout.start_null _,
        Layout.start_null _⟩
  · -- no block begins in the first one but itself
    have hlong : header.blockSize ≤ p.offset := by
      refine Nat.le_of_dvd (Nat.pos_of_ne_zero fun hzero => hne ?_) hp
      cases p
      exact congrArg BlockPos.mk hzero
    have hzeros : (c.write 0 image).stretch p.offset header.blockSize =
        List.replicate header.blockSize 0 := by
      refine List.eq_replicate_iff.mpr ⟨by simp [Contents.stretch], fun b hb => ?_⟩
      obtain ⟨i, hi, rfl⟩ := List.mem_map.mp hb
      rw [List.mem_range'_1] at hi
      exact hbehind i (Nat.le_trans hlong hi.1)
    rw [hzeros]
    exact Layout.tidy_replicate hpos (by decide)

/-! ## Reading again -/

/-- A handle that has opened a file of another one afresh, and reads what is on a disk. -/
structure Rereads (ix : Index) (d : Disk) (fresh : Index) (u : Workspace) : Prop where
  header : fresh.header = ix.header
  layout : fresh.tree.layout = ix.tree.layout
  cursor : fresh.cursor = {}
  cache : fresh.cache < u.caches.size
  cell : fresh.cell < u.cells.size
  seated : fresh.mount.Seated (u.below fresh.cache)
  reads : ∀ p, fresh.mount.content (u.below fresh.cache) p = ix.mount.stored d p

/-- A handle that reads what another one has read. -/
structure Resumes (ix : Index) (w : Workspace) (fresh : Index) (u : Workspace) : Prop where
  header : fresh.header = ix.header
  finds : ∀ v, ix.Finds v w → fresh.Finds v u
  keeps : fresh.tree = ix.tree → ∀ p, ix.Keeps p w → fresh.Keeps p u

/-- What a handle has read can be read again in a volume with the given contents, by a handle with a
cache of its own. -/
def Resumable (ix : Index) (w : Workspace) (c : Contents) : Prop :=
  ∀ (store : Store) (options : OpenOptions) (cell : Nat) (u : Workspace),
    u.Admits store (options.cache.getD Workspace.commonCache) cell →
    u.disk.contents store.volume = c → options.mode ≠ .create → options.admits ix.header = .ok () →
    Ends (openStore store options cell) u fun r u' =>
      (store.Reliable u.disk → ∃ fresh, r = .ok fresh) ∧ ∀ fresh, r = .ok fresh → ix.Resumes w fresh u'

/-- A handle that opens a tidy file afresh reads what is in the volume. -/
theorem SoleOnTidy.reopened (h : ix.SoleOnTidy w) {d : Disk}
    (htidy : (d.contents ix.store.volume).Tidy ix.header) {u : Workspace}
    (hu : u.Admits store (options.cache.getD Workspace.commonCache) cell)
    (hcontents : u.disk.contents store.volume = d.contents ix.store.volume)
    (hmode : options.mode ≠ .create) (hadmits : options.admits ix.header = .ok ()) :
    Ends (Index.openStore store options cell) u fun r u' =>
      (store.Reliable u.disk → ∃ fresh, r = .ok fresh) ∧
        ∀ fresh, r = .ok fresh → ix.Rereads d fresh u' := by
  have hparse : Header.parse ((u.disk.contents store.volume).read 0 maxBlockSize) =
      .ok ix.header := hcontents ▸ htidy.parse
  refine (openStore_ends fun hcreate => absurd hcreate hmode).mono fun r u' hopened =>
    ⟨fun hreliable => hopened.1 hmode hreliable.yields _ hparse hadmits, fun fresh hfresh => ?_⟩
  have hfresh := hopened.2 fresh hfresh
  have hsame : u'.disk.contents store.volume = d.contents ix.store.volume := by
    obtain ⟨d', -, -, hsame, -, rfl⟩ := hfresh.disk
    exact (hsame hmode).trans hcontents
  have hheader : fresh.header = ix.header := by
    obtain ⟨d', -, -, hsame, hparse', -⟩ := hfresh.disk
    rw [hsame hmode, hparse] at hparse'
    exact (Except.ok.inj hparse').symm
  have hlayout : fresh.tree.layout = ix.tree.layout := by
    rw [hfresh.tree, h.layout, hheader]
  have hsize : fresh.mount.blockSize = ix.mount.blockSize := congrArg Layout.blockSize hlayout
  rw [← hheader] at htidy
  have hseated := hfresh.seated hu htidy.size_pos (by rw [hsame]; exact htidy.header)
  rw [← hfresh.cache] at hu
  refine ⟨hheader, hlayout, hfresh.cursor, ?_, ?_, hseated, fun p => ?_⟩
  · obtain ⟨d', -, -, -, -, rfl⟩ := hfresh.disk
    simpa [Workspace.withBelow] using hu.cache
  · obtain ⟨d', -, -, -, -, rfl⟩ := hfresh.disk
    rw [hfresh.cell]
    exact hu.cell
  · rw [hseated.content_eq]
    unfold Mount.stored
    rw [hsize, show (u'.below fresh.cache).disk.contents fresh.mount.store.volume =
      d.contents ix.store.volume by rw [← hsame, ← hfresh.store]; rfl]
    rfl

/-- It reads what another handle has read, where that is on the disk. -/
theorem Rereads.resumes {d : Disk} {fresh : Index} {u : Workspace} (h : ix.Rereads d fresh u)
    (hlanded : ∀ p x, ix.mount.Aligned p → ix.mount.content (w.below ix.cache) p = some x →
      ix.mount.stored d p = some x) : ix.Resumes w fresh u := by
  have hsize : fresh.mount.blockSize = ix.mount.blockSize := congrArg Layout.blockSize h.layout
  have hread : ∀ p x, ix.mount.Aligned p → ix.mount.content (w.below ix.cache) p = some x →
      fresh.mount.content (u.below fresh.cache) p = some x := fun p x hp hx =>
    (h.reads p).trans (hlanded p x hp hx)
  have hfinds : ∀ v, ix.Finds v w → fresh.Finds v u := by
    intro v hv
    have hblocksAs := hv.blocksAs
    refine ⟨h.cache, h.cell, ?_, h.seated.intact, h.seated.unpinned, h.seated.pending, ?_,
      fun p x hp => ?_⟩
    · rw [hsize, h.layout]
      exact hblocksAs.settled
    · obtain ⟨x, hx, hpointers⟩ := hblocksAs.saved
      exact ⟨x, hread .null x (Nat.dvd_zero _) hx, h.layout ▸ hpointers⟩
    · obtain ⟨hnull, ha, hx⟩ := hblocksAs.blocks p x hp
      refine ⟨hnull, ?_, hread p x ha hx⟩
      unfold Mount.Aligned
      rw [hsize]
      exact ha
  refine ⟨h.header, hfinds, fun htree p hp => ?_⟩
  obtain ⟨⟨v, hv, hdrawn⟩, -⟩ := hp
  refine ⟨⟨v, hfinds v hv, htree ▸ hdrawn⟩, ?_⟩
  rw [h.cursor]
  intro e he
  cases he

/-- What is in the volume can be read again. -/
theorem SoleOnTidy.resumable (h : ix.SoleOnTidy w) {d : Disk}
    (htidy : (d.contents ix.store.volume).Tidy ix.header)
    (hlanded : ∀ p x, ix.mount.Aligned p → ix.mount.content (w.below ix.cache) p = some x →
      ix.mount.stored d p = some x) : ix.Resumable w (d.contents ix.store.volume) := by
  intro store options cell u hu hcontents hmode hadmits
  exact (h.reopened htidy hu hcontents hmode hadmits).mono fun r u' hr =>
    ⟨hr.1, fun fresh hfresh => (hr.2 fresh hfresh).resumes hlanded⟩

end Index

end PagedIndex
