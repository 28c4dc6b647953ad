import PagedIndex.Proofs.Codec.Header
import PagedIndex.Proofs.Index.Orderly

/-!
# New files

A file that is made is one of an empty tree. So it is in order, whatever calls are then made.

## Main definitions

* `Workspace.Accepts` — a workspace in which a store can be opened.

## Main statements

* `Index.asPlanned_of_create` — a file that is made has an empty tree.
* `Index.create_orderly` — it is in order after any calls.
-/

namespace PagedIndex

namespace Workspace

section Ends

variable {α : Type} {w : Workspace} {id : Nat} {Q : Except Error α → Workspace → Prop}

theorem onDisk_ends {x : DiskM α} (h : Ends x w.disk fun r d => Q r { w with disk := d }) :
    Ends (onDisk x) w Q := by
  unfold Ends at *
  unfold onDisk
  cases hx : x w.disk <;> simp only [hx] at h ⊢ <;> exact h

theorem onCache_ends {x : CacheM α} (h : Ends x (w.below id) fun r s => Q r (w.withBelow id s)) :
    Ends (onCache id x) w Q := by
  unfold Ends at *
  unfold onCache
  simp only [below, cache] at h
  cases hx : x ⟨w.caches.getD id default, w.disk⟩ <;> simp only [hx] at h ⊢ <;> exact h

end Ends

/-- A workspace in which a store can be opened through one of the caches. The cache may hold blocks
of other files, but none that are changed and lie in the same volume. -/
structure Accepts (w : Workspace) (store : Store) (id cell : Nat) : Prop where
  cache : id < w.caches.size
  cell : cell < w.cells.size
  volume : store.volume < w.disk.volumes.size
  reliable : store.Reliable w.disk
  sound : (w.cache id).Sound none
  enough : minBuffers ≤ (w.cache id).capacity
  unpinned : Session.Unpinned (w.below id)
  safe : (w.below id).Safe
  apart : ∀ i b other, (w.cache id).buffer? i = some b → b.dirty = true →
    (w.cache id).store? b.file = some other → other.volume ≠ store.volume

end Workspace

/-- A handle takes nothing to do on its workspace but the workspace. -/
theorem Index.onWorkspace_ends {α : Type} {x : WorkspaceM α} {ix : Index} {w : Workspace}
    {Q : Except Error α → Index × Workspace → Prop} (h : Ends x w fun r w' => Q r (ix, w')) :
    Ends (Index.onWorkspace x) (ix, w) Q := by
  unfold Ends at *
  unfold Index.onWorkspace
  cases hx : x w <;> simp only [hx] at h ⊢ <;> exact h

/-- A file that its cache has just taken up. -/
structure Mount.Seated (m : Mount) (s : Buffered) : Prop where
  intact : m.Intact none none s
  unpinned : Session.Unpinned s
  pending : ∀ r, s.cache.registration? m.file = some r → r.pending = none
  idle : s.Idle m.file

theorem Mount.seated_register {s : Buffered} {store : Store} {size : Nat}
    (hsound : s.cache.Sound none) (henough : minBuffers ≤ s.cache.capacity)
    (hunpinned : Session.Unpinned s) (hsize : 0 < size)
    (hvolume : store.volume < s.disk.volumes.size)
    (hheader : size ≤ (s.disk.contents store.volume).size)
    (hapart : ∀ i b other, s.cache.buffer? i = some b → b.dirty = true →
      s.cache.store? b.file = some other → other.volume ≠ store.volume) :
    Seated ⟨s.cache.freshFile, store, size⟩ ⟨(s.cache.register store).2, s.disk⟩ := by
  have hfresh := Buffered.idle_freshFile hsound
  refine ⟨intact_register hsound henough hfresh hsize hvolume hheader hapart, hunpinned,
    fun r hr => ?_, hfresh⟩
  simp only [Cache.registration?, Cache.register, List.lookup_cons_self] at hr
  cases hr
  rfl

/-- It reads as it is in its volume. -/
theorem Mount.Seated.content_eq {m : Mount} {s : Buffered} (h : m.Seated s) (p : BlockPos) :
    m.content s p = m.stored s.disk p :=
  content_of_absent h.intact.sound fun i b hb hfile => absurd hfile (h.idle i b hb)

/-- The beginning of what is read is what is read when less is asked for. -/
theorem Contents.take_read (c : Contents) {offset length n : Nat} (h : n ≤ length) :
    (c.read offset length).take n = c.read offset n := by
  rw [read_eq_map, read_eq_map, ← List.map_take]
  refine congrArg (List.map c.byte) (List.ext_getElem? fun i => ?_)
  rw [List.getElem?_take]
  grind

theorem OpenOptions.newHeader_eq {options : OpenOptions} {name : Option String} {h : Header}
    (hnew : options.newHeader name = .ok h) :
    h.keyLength = options.keyLength ∧ h.duplicates = (options.duplicates == .allow) := by
  obtain ⟨image, -, hparsed⟩ := of_bind_eq_ok hnew
  obtain ⟨-, -, hsame⟩ := of_bind_eq_ok hparsed
  cases hsame
  exact ⟨rfl, rfl⟩

/-- A new header has the version of its format. -/
theorem OpenOptions.version_newHeader {options : OpenOptions} {name : Option String} {h : Header}
    (hnew : options.newHeader name = .ok h) : h.version = options.format.newVersion := by
  obtain ⟨image, -, hparsed⟩ := of_bind_eq_ok hnew
  obtain ⟨-, -, hsame⟩ := of_bind_eq_ok hparsed
  cases hsame
  rfl

namespace Index

variable {store : Store} {options : OpenOptions} {w : Workspace} {cell : Nat}

/-- A volume that begins with the first block of a new file, and the header that is read from it. -/
structure Made (c : Contents) (header : Header) : Prop where
  workable : header.layout.Workable
  size : header.blockSize ≤ c.size
  pointers : Pointers.read header.format (c.read 0 header.blockSize) = {}

/-- What is read where the first block of a new file was written. -/
theorem read_write_front {c : Contents} {image : Bytes} {n : Nat} (hn : n ≤ image.length) :
    (c.write 0 image).read 0 n = image.take n := by
  rw [← Contents.take_read _ hn, c.read_write_self 0 image]

/-- It tells of the header. -/
theorem fronts_of_write {c : Contents} {h : Header} {image : Bytes} (hencode : h.encode = .ok image) :
    h.Fronts ((c.write 0 image).read 0 maxBlockSize) := by
  obtain ⟨-, hlong, hfronts⟩ := Header.fronts_of_encode hencode
  refine hfronts.congr ?_
  rw [Contents.take_read _ (by decide), read_write_front (by unfold Header.nameStart at hlong; omega)]

/-- What was written is a file without blocks but the header. -/
theorem made_of_encode {c : Contents} {h header : Header} {image : Bytes} {format : Format}
    (hencode : h.encode = .ok image) (hversion : h.version = format.newVersion)
    (hparse : Header.parse ((c.write 0 image).read 0 maxBlockSize) = .ok header) :
    Made (c.write 0 image) header := by
  obtain ⟨hlength, -, hfronts⟩ := Header.fronts_of_encode hencode
  obtain ⟨hworkable, hformat, hsize⟩ := (fronts_of_write hencode).parse hversion hparse
  have hroom : 2 + 4 * header.format.positionWidth ≤ header.blockSize := hworkable.room
  refine ⟨hworkable, ?_, ?_⟩
  · rw [Contents.size_write]
    omega
  · rw [read_write_front (hlength ▸ hsize), Pointers.read_take (by omega), hformat]
    exact hfronts.pointers

/-- What is on the disk after the header of a new file was written. -/
structure Headed (store : Store) (options : OpenOptions) (d d' : Disk) : Prop where
  follows : d.Follows d'
  image : ∃ h image, options.newHeader store.name = .ok h ∧ h.encode = .ok image ∧
    d'.contents store.volume = (d.contents store.volume).write 0 image

theorem createOn_ends {d : Disk} (hvolume : store.volume < d.volumes.size) :
    Ends (createOn store options) d fun r d' => r = .ok () → Headed store options d d' := by
  unfold createOn
  cases hencoded : options.newHeader store.name >>= Header.encode with
  | error e => exact nofun
  | ok image =>
    obtain ⟨h, hnew, hencode⟩ := of_bind_eq_ok hencoded
    refine (store.write_ends d 0 image).mono fun r d' hwrote hr =>
      ⟨hwrote.follows, h, image, hnew, hencode, hwrote.ok hr hvolume ?_⟩
    have hlong := (Header.fronts_of_encode hencode).2.1
    rintro rfl
    exact absurd hlong (by decide)

/-- What comes of reading the header of a file. -/
structure HeaderRead (store : Store) (options : OpenOptions) (d : Disk) (r : Except Error Header)
    (d' : Disk) : Prop where
  follows : d.Follows d'
  contents : ∀ id, d'.contents id = d.contents id
  told : store.Yields d → r = do
    let header ← Header.parse ((d.contents store.volume).read 0 maxBlockSize)
    options.admits header
    return header
  ok : ∀ header, r = .ok header →
    Header.parse ((d.contents store.volume).read 0 maxBlockSize) = .ok header ∧
      options.admits header = .ok ()

theorem readHeader_ends {d : Disk} :
    Ends (readHeader store options) d (HeaderRead store options d) := by
  unfold readHeader
  refine Ends.bind (store.read_ends d 0 maxBlockSize) (fun e d' hgot => ?_) fun front d' hgot => ?_
  · refine ⟨hgot.follows, hgot.contents, fun hyields => ?_, nofun⟩
    obtain ⟨_, h⟩ := hgot.yields hyields (by decide)
    cases h
  · obtain rfl := hgot.ok front rfl
    refine ends_settle ⟨hgot.follows, hgot.contents, fun _ => rfl, fun header hheader => ?_⟩
    obtain ⟨h, hparse, hadmitted⟩ := of_bind_eq_ok hheader
    obtain ⟨⟨⟩, hadmits, hsame⟩ := of_bind_eq_ok hadmitted
    cases hsame
    exact ⟨hparse, hadmits⟩

/-- A handle that takes up a new file. -/
theorem asPlanned_of_made {d : Disk} {ix : Index} (hw : w.Accepts ix.store ix.cache ix.cell)
    (hfollows : w.disk.Follows d) (hmade : Made (d.contents ix.store.volume) ix.header)
    (hlayout : ix.tree.layout = ix.header.layout) (hcursor : ix.cursor = {})
    (hfile : ix.file = (w.cache ix.cache).freshFile) :
    ix.AsPlanned ⟨0, none, [], []⟩ (Workspace.withBelow { w with disk := d } ix.cache
      ⟨((w.cache ix.cache).register ix.store).2, d⟩) := by
  have hbelow := Workspace.below_withBelow (w := { w with disk := d })
    (s := ⟨((w.cache ix.cache).register ix.store).2, d⟩) hw.cache
  have hworkable : ix.tree.layout.Workable := hlayout ▸ hmade.workable
  have hsize : ix.tree.layout.blockSize ≤ (d.contents ix.store.volume).size := by
    rw [hlayout]
    exact hmade.size
  have hseated : ix.mount.Seated ⟨((w.cache ix.cache).register ix.store).2, d⟩ := by
    unfold mount
    rw [hfile]
    exact Mount.seated_register (s := ⟨w.cache ix.cache, d⟩) hw.sound hw.enough hw.unpinned
      hworkable.blockSize_pos (hfollows.size ▸ hw.volume) hsize hw.apart
  refine ⟨⟨⟨_, finds_empty hworkable ?_ hw.cell ?_ ?_ ?_ ?_, Plan.drawn_empty hworkable⟩, ?_⟩, ?_, ?_⟩
  · simpa [Workspace.withBelow] using hw.cache
  · rw [hbelow]
    exact hseated.intact
  · rw [hbelow]
    exact hseated.unpinned
  · rw [show (Workspace.withBelow _ ix.cache _).cache ix.cache = _ from
      congrArg Buffered.cache hbelow]
    exact hseated.pending
  · rw [hbelow]
    refine ⟨(d.contents ix.store.volume).read 0 ix.header.blockSize,
      (hseated.content_eq .null).trans ?_, ?_⟩
    · unfold Mount.stored mount
      rw [hlayout]
      exact if_pos ((Contents.length_read _ _ _).trans (Nat.min_eq_left hmade.size))
    · rw [hlayout]
      exact hmade.pointers
  · rw [hcursor]
    intro e he
    cases he
  · rw [hbelow]
    intro i b hb hd
    obtain ⟨store, hstore, hreliable, hlt⟩ := hw.safe i b hb hd
    exact ⟨store, (Cache.store?_register (Buffered.idle_freshFile (s := w.below ix.cache) hw.sound i
      b hb)).trans hstore,
      hreliable.follows hfollows, hlt⟩
  · exact hw.reliable.follows hfollows

/-- A handle that opening a store gives. -/
structure Opened (store : Store) (options : OpenOptions) (cell : Nat) (w : Workspace) (ix : Index)
    (w' : Workspace) : Prop where
  disk : ∃ d, w.disk.Follows d ∧ (options.mode = .create → Headed store options w.disk d) ∧
    (options.mode ≠ .create → d.contents store.volume = w.disk.contents store.volume) ∧
    Header.parse ((d.contents store.volume).read 0 maxBlockSize) = .ok ix.header ∧
    w' = Workspace.withBelow { w with disk := d } ix.cache
      ⟨((w.cache ix.cache).register ix.store).2, d⟩
  admits : options.admits ix.header = .ok ()
  cache : ix.cache = options.cache.getD Workspace.commonCache
  file : ix.file = (w.cache ix.cache).freshFile
  store : ix.store = store
  tree : ix.tree =
    ⟨ix.header.layout, options.collation, ix.header.duplicates || options.duplicates == .allow⟩
  truncate : ix.truncate = options.truncate
  mode : ix.mode = options.mode
  cursor : ix.cursor = {}
  cell : ix.cell = cell

/-- A file that is there is opened if its header can be read and may be. -/
theorem openStore_ends (hvolume : options.mode = .create → store.volume < w.disk.volumes.size) :
    Ends (openStore store options cell) w fun r w' =>
      (options.mode ≠ .create → store.Yields w.disk → ∀ header,
        Header.parse ((w.disk.contents store.volume).read 0 maxBlockSize) = .ok header →
        options.admits header = .ok () → ∃ ix, r = .ok ix) ∧
      ∀ ix, r = .ok ix → Opened store options cell w ix w' := by
  have hmade : Ends (if options.mode = .create then Workspace.onDisk (createOn store options)
      else pure ()) w fun r w' => (options.mode ≠ .create → r = .ok () ∧ w' = w) ∧
        ∃ d, w' = { w with disk := d } ∧ (r = .ok () → w.disk.Follows d ∧
          (options.mode = .create → Headed store options w.disk d) ∧
          (options.mode ≠ .create → d.contents store.volume = w.disk.contents store.volume)) := by
    split
    · next hcreate =>
      refine Workspace.onDisk_ends ((createOn_ends (hvolume hcreate)).mono fun r d hd => ?_)
      exact ⟨fun h => absurd hcreate h, d, rfl, fun hr => ⟨(hd hr).follows, fun _ => hd hr,
        fun h => absurd hcreate h⟩⟩
    · next hcreate =>
      exact ⟨fun _ => ⟨rfl, rfl⟩, w.disk, rfl, fun _ => ⟨.refl _, fun h => absurd h hcreate,
        fun _ => rfl⟩⟩
  unfold openStore
  refine Ends.ite_bind (Ends.bind hmade ?_ ?_)
  · rintro e _ ⟨hthere, -⟩
    exact ⟨fun h => (nomatch (hthere h).1), fun ix h => nomatch h⟩
  · rintro ⟨⟩ _ ⟨hthere, d, rfl, hd⟩
    obtain ⟨hfollows, hheaded, hsame⟩ := hd rfl
    refine Ends.bind (P := fun r w' => ∃ d', w' = { w with disk := d' } ∧
        HeaderRead store options d r d')
      (Workspace.onDisk_ends (readHeader_ends.mono fun r d hd => ⟨d, rfl, hd⟩)) ?_ ?_
    · rintro e _ ⟨d', rfl, hread⟩
      refine ⟨fun hmode hyields header hparse hadmits => ?_, fun ix h => nomatch h⟩
      rw [← hsame hmode] at hparse
      have htold := hread.told (hyields.follows hfollows)
      simp only [hparse, hadmits, bind, Except.bind] at htold
      cases htold
    · rintro header _ ⟨d', rfl, hread⟩
      have hfollows' := hfollows.trans hread.follows
      obtain ⟨hparse, hadmits⟩ := hread.ok header rfl
      refine ⟨fun _ _ _ _ _ => ⟨_, rfl⟩, fun ix hix => ?_⟩
      cases hix
      refine ⟨⟨d', hfollows', fun h => ?_, fun h => (hread.contents _).trans (hsame h), ?_, rfl⟩,
        hadmits, rfl, rfl, rfl, rfl, rfl, rfl, rfl, rfl⟩
      · obtain ⟨-, header, image, hnew, hencode, hwritten⟩ := hheaded h
        exact ⟨hfollows', header, image, hnew, hencode, (hread.contents _).trans hwritten⟩
      · rw [hread.contents]
        exact hparse

/-- A file that is made has an empty tree. -/
theorem asPlanned_of_create (hcreate : options.mode = .create)
    (hw : w.Accepts store (options.cache.getD Workspace.commonCache) cell) :
    Ends (openStore store options cell) w fun r w' =>
      ∀ ix, r = .ok ix → ix.AsPlanned ⟨0, none, [], []⟩ w' := by
  refine (openStore_ends fun _ => hw.volume).mono fun r w' hopened ix hix => ?_
  have hix := hopened.2 ix hix
  obtain ⟨d, hfollows, hheaded, -, hparse, rfl⟩ := hix.disk
  obtain ⟨h, image, hnew, hencode, hwritten⟩ := (hheaded hcreate).image
  rw [← hix.cache, ← hix.cell, ← hix.store] at hw
  refine asPlanned_of_made hw hfollows ?_ (by rw [hix.tree]) hix.cursor hix.file
  rw [hix.store, hwritten]
  rw [hwritten] at hparse
  exact made_of_encode hencode (OpenOptions.version_newHeader hnew) hparse

/-- A file that is made is in order after any calls, and is verified unless its tree is too high. -/
theorem create_orderly {ix : Index} {w' : Workspace} (hcreate : options.mode = .create)
    (hw : w.Accepts store (options.cache.getD Workspace.commonCache) cell)
    (hopen : openStore store options cell w = .ok ix w') (turns : List (Turn Unit)) :
    ∃ p, ((plays turns (fun _ => ix) w').2.1 ()).AsPlanned p (plays turns (fun _ => ix) w').2.2 ∧
      ((plays turns (fun _ => ix) w').2.1 ()).Orderly p (plays turns (fun _ => ix) w').2.2 ∧
      (p.levels ≤ maxLevels + 1 →
        Ends Call.verify.run ((plays turns (fun _ => ix) w').2.1 (), (plays turns (fun _ => ix) w').2.2)
          fun r _ => ∃ stats : IndexStats, r = .ok (.counted stats) ∧ stats.height = p.levels ∧
            stats.entries = p.entries.length ∧ stats.freeBlocks = p.free.length ∧
            stats.freeSlots = p.records.length ∧ stats.totalBlocks = p.positions.length) := by
  have hplanned := (asPlanned_of_create hcreate hw).of_ok hopen ix rfl
  obtain ⟨p, hp⟩ := @AsPlanned.plays _ _ (fun _ => ix) turns hplanned
  refine ⟨p, hp, hp.keeps.orderly, fun hlevels => (hp.verify hlevels).mono ?_⟩
  rintro r σ ⟨-, -, stats, hr, hheight, hentries, -, hfree, -, hslots, htotal⟩
  exact ⟨stats, hr, hheight, hentries, hfree, hslots, htotal⟩

/-- A small workspace accepts a store on its memory area. -/
theorem accepts_small : (smallWorkspace fun _ _ => none).Accepts (.ofMemory 0 none) 0 0 := by
  have hbuffer : ∀ i, ((smallWorkspace fun _ _ => none).cache 0).buffer? i = none :=
    buffer?_loaded (by decide)
  refine ⟨by decide, by decide, Nat.one_pos, ⟨fun _ _ => rfl, rfl, .inl rfl⟩,
    (Cache.sound_new 4).register _, Cache.minBuffers_le_capacity_new 4, fun i b hb => ?_,
    safe_loaded (by decide), fun i b other hb => ?_⟩
  · exact nomatch (hbuffer i).symm.trans hb
  · exact nomatch (hbuffer i).symm.trans hb

/-- Whether a memory area can be opened, and the handle is as asked. -/
def opens (options : OpenOptions) (w : Workspace) (asked : Index → Workspace → Bool) : Bool :=
  match openStore (.ofMemory 0 none) options 0 w with
  | .ok ix w' => asked ix w'
  | .error _ _ => false

theorem exists_of_opens {options : OpenOptions} {w : Workspace} {asked : Index → Workspace → Bool}
    (h : opens options w asked = true) :
    ∃ ix w', openStore (.ofMemory 0 none) options 0 w = .ok ix w' ∧ asked ix w' = true := by
  unfold opens at h
  split at h
  · next ix w' hopen => exact ⟨ix, w', hopen, h⟩
  · cases h

/-- A file made in a memory area, into which an entry comes and goes. -/
theorem create_orderly_small : ∃ ix w',
    openStore (.ofMemory 0 none) { mode := .create, keyLength := 1, blockSize := 512 } 0
      (smallWorkspace fun _ _ => none) = .ok ix w' ∧
    ∃ p, ((plays [⟨(), none, .insert [0x41]⟩, ⟨(), none, .delete [0x41] true⟩] (fun _ => ix)
      w').2.1 ()).Orderly p (plays [⟨(), none, .insert [0x41]⟩, ⟨(), none, .delete [0x41] true⟩]
        (fun _ => ix) w').2.2 := by
  have hmade : opens { mode := .create, keyLength := 1, blockSize := 512 }
      (smallWorkspace fun _ _ => none) (fun _ _ => true) = true := by decide +kernel
  have haccepts := accepts_small
  generalize smallWorkspace (fun _ _ => none) = w at *
  obtain ⟨ix, w', hopen, -⟩ := exists_of_opens hmade
  obtain ⟨p, -, horderly, -⟩ := create_orderly rfl haccepts hopen
    [⟨(), none, .insert [0x41]⟩, ⟨(), none, .delete [0x41] true⟩]
  exact ⟨ix, w', hopen, p, horderly⟩

end Index

end PagedIndex
