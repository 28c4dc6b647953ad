import PagedIndex.Proofs.Cache.Spared
import PagedIndex.Proofs.Index.Opening
import PagedIndex.Proofs.Index.Upkeep
import PagedIndex.Proofs.Session.Heading

/-!
# Files on volumes

A file is told by its header, the image of its header block, and the images of its other blocks. As
long as no handle is open on it, all of them are in the volume. Opening takes them up from there,
and what is left when nothing is cached any more is there again.

## Main definitions

* `FileDescription`, `FileDescription.WellFormed` — what tells a file.
* `Contents.Holds` — a volume that a file lies in.
* `FileDescription.LiesIn` — a cache that has a file open.
* `Contents.fileBytes` — the bytes of a file up to the mark of its last block.

## Main statements

* `Index.createOn_told` — how a file is made.
* `Contents.Holds.liesIn` — a file is taken up from its volume.
* `FileDescription.LiesIn.holds` — it is in the volume when nothing of it is cached.
* `FileDescription.WellFormed.transact` — what a call comes to.
-/

namespace PagedIndex

/-- What tells a file. -/
structure FileDescription where
  header : Header
  /-- The image of the header block. -/
  front : Bytes
  /-- The other blocks, and the chain pointers. -/
  view : View

/-- A description of which all parts agree, and whose blocks make up a well-formed file. -/
structure FileDescription.WellFormed (f : FileDescription) : Prop where
  parse : Header.parse f.front = .ok f.header
  length : f.front.length = f.header.blockSize
  pointers : Pointers.read f.header.format f.front = f.view.pointers
  wellFormed : f.view.WellFormed f.header.layout

/-- A volume that a file lies in. -/
structure Contents.Holds (c : Contents) (f : FileDescription) : Prop where
  front : c.read 0 f.header.blockSize = f.front
  blocks : ∀ p x, f.view.blocks p = some x → c.read p.offset f.header.blockSize = x

/-- The bytes of a file up to the mark of its last block; those of the whole volume if no header can
be read there. -/
def Contents.fileBytes (c : Contents) : Bytes :=
  match Header.parse (c.read 0 maxBlockSize) with
  | .ok h =>
    let mark := (Pointers.read h.format (c.read 0 h.blockSize)).highWater
    c.read 0 (mark.offset + h.blockSize)
  | .error _ => c.toBytes

/-! ## Blocks of well-formed files -/

section View

variable {l : Layout} {v : View} {p : BlockPos} {x : Bytes}

theorem View.WellFormed.block (h : v.WellFormed l) (hp : v.blocks p = some x) :
    p ≠ .null ∧ l.blockSize ∣ p.offset ∧ p.offset ≤ v.pointers.highWater.offset ∧
      x.length = l.blockSize := by
  obtain ⟨c, hc, hwellFormed⟩ := h.board
  cases hcell : c.cells p with
  | none =>
    rw [hc.vacant p hcell] at hp
    cases hp
  | some cell =>
    obtain ⟨image, himage, hlength, -⟩ := hc.held p cell hcell
    obtain ⟨hnull, haligned, hle⟩ := (hwellFormed.whole p).mp (hcell ▸ rfl)
    rw [hp] at himage
    cases himage
    exact ⟨hnull, haligned, hc.pointers ▸ hle, hlength⟩

/-- All positions up to the mark hold a block. -/
theorem View.WellFormed.exists_block (h : v.WellFormed l) (hnull : p ≠ .null)
    (haligned : l.blockSize ∣ p.offset)
    (hle : p.offset ≤ v.pointers.highWater.offset) : ∃ x, v.blocks p = some x := by
  obtain ⟨c, hc, hwellFormed⟩ := h.board
  obtain ⟨cell, hcell⟩ := Option.isSome_iff_exists.mp
    ((hwellFormed.whole p).mpr ⟨hnull, haligned, hc.pointers ▸ hle⟩)
  obtain ⟨image, himage, -⟩ := hc.held p cell hcell
  exact ⟨image, himage⟩

theorem View.WellFormed.aligned_highWater (h : v.WellFormed l) :
    l.blockSize ∣ v.pointers.highWater.offset := by
  obtain ⟨c, hc, hwellFormed⟩ := h.board
  rw [hc.pointers]
  rcases hwellFormed.highWater with hnull | hsome
  · rw [hnull]
    exact Nat.dvd_zero _
  · exact ((hwellFormed.whole _).mp hsome).2.1

end View

/-! ## Bytes of files -/

namespace Contents

variable {c c' : Contents} {f : FileDescription}

/-- A range is read in two parts. -/
theorem read_append (c : Contents) (offset m n : Nat) :
    c.read offset (m + n) = c.read offset m ++ c.read (offset + m) n := by
  rw [read_eq_map, read_eq_map, read_eq_map, ← List.map_append]
  refine congrArg (List.map c.byte) ?_
  by_cases hm : m ≤ c.size - offset
  · rw [Nat.min_eq_left hm, List.range'_append_1]
    refine congrArg (List.range' offset) ?_
    omega
  · rw [Nat.min_eq_right (by omega), Nat.min_eq_right (by omega), Nat.min_eq_right (by omega),
      show c.size - (offset + m) = 0 by omega]
    simp

/-- What is read is told by all bytes. -/
theorem read_eq_take_drop (c : Contents) (offset n : Nat) :
    c.read offset n = (c.toBytes.drop offset).take n := by
  by_cases ho : offset ≤ c.size
  · have hall : c.toBytes = c.read 0 offset ++ c.read offset (c.size - offset) := by
      have happend := c.read_append 0 offset (c.size - offset)
      rwa [Nat.zero_add, Nat.add_sub_cancel' ho] at happend
    have hlength : (c.read 0 offset).length = offset := by
      rw [length_read]
      omega
    rw [hall, List.drop_left' hlength]
    by_cases hn : n ≤ c.size - offset
    · exact (take_read c hn).symm
    · rw [List.take_of_length_le (by rw [length_read]; omega), read_eq_map, read_eq_map]
      congr 2
      omega
  · rw [List.drop_eq_nil_of_le (by unfold toBytes; rw [length_read]; omega), List.take_nil,
      List.eq_nil_iff_length_eq_zero, length_read]
    omega

theorem read_congr (h : c.toBytes = c'.toBytes) (offset n : Nat) :
    c.read offset n = c'.read offset n := by
  rw [read_eq_take_drop, h, ← read_eq_take_drop]

theorem Holds.congr (hc : c.Holds f) (h : c.toBytes = c'.toBytes) : c'.Holds f :=
  ⟨(read_congr h _ _).symm.trans hc.front, fun p x hp =>
    (read_congr h _ _).symm.trans (hc.blocks p x hp)⟩

/-- The header of a file is read from its volume. -/
theorem Holds.parse (hc : c.Holds f) (hf : f.WellFormed) :
    Header.parse (c.read 0 maxBlockSize) = .ok f.header := by
  refine Header.parse_of_take_eq hf.parse ?_
  have hsmall : f.header.blockSize ≤ maxBlockSize := hf.wellFormed.workable.small
  rw [take_read c hsmall, hc.front]
  exact (List.take_of_length_le (Nat.le_of_eq hf.length)).symm

/-- The bytes of a file are told by its description. -/
theorem Holds.read_eq (hc : c.Holds f) (hc' : c'.Holds f) (hf : f.WellFormed) :
    c.read 0 (f.view.pointers.highWater.offset + f.header.blockSize) =
      c'.read 0 (f.view.pointers.highWater.offset + f.header.blockSize) := by
  obtain ⟨k, hk⟩ := hf.wellFormed.aligned_highWater
  have hall : ∀ n, n ≤ k →
      c.read 0 (f.header.blockSize * n + f.header.blockSize) =
        c'.read 0 (f.header.blockSize * n + f.header.blockSize) := by
    intro n hn
    induction n with
    | zero =>
      rw [Nat.mul_zero, Nat.zero_add, hc.front, hc'.front]
    | succ n ih =>
      have hpos : 0 < f.header.blockSize := hf.wellFormed.workable.blockSize_pos
      obtain ⟨x, hx⟩ := hf.wellFormed.exists_block (p := ⟨f.header.blockSize * (n + 1)⟩)
        (fun h => by
          have hzero := congrArg BlockPos.offset h
          exact absurd hzero (Nat.mul_ne_zero (by omega) (by omega)))
        (Nat.dvd_mul_right _ _) (hk ▸ Nat.mul_le_mul_left _ hn)
      rw [read_append c, read_append c', Nat.zero_add, hc.blocks _ x hx, hc'.blocks _ x hx,
        Nat.mul_succ, ih (by omega)]
  rw [hk]
  exact hall k (Nat.le_refl k)

theorem Holds.fileBytes_eq (hc : c.Holds f) (hc' : c'.Holds f) (hf : f.WellFormed) :
    c.fileBytes = c'.fileBytes := by
  unfold fileBytes
  simp only [hc.parse hf, hc'.parse hf, hc.front, hc'.front, hf.pointers]
  exact hc.read_eq hc' hf

end Contents

/-! ## Making files, and reading headers -/

/-- The first block of a new file, if it can be written to a store that refuses nothing. -/
def OpenOptions.firstBlock (options : OpenOptions) (store : Store) : Except Error Bytes := do
  let image ← (← options.newHeader store.name).encode
  if store.kind = .memory ∨ image.length < Store.offsetBound then return image
  else throw (.io (.system .invalidArgument))

section Making

variable {options : OpenOptions} {store : Store} {d : Disk} {image : Bytes}

/-- A new header can be read back. -/
theorem OpenOptions.parse_of_newHeader {name : Option String} {h : Header}
    (hnew : options.newHeader name = .ok h) :
    ∃ image h', h.encode = .ok image ∧ Header.parse image = .ok h' := by
  obtain ⟨image, hencode, hparsed⟩ := of_bind_eq_ok hnew
  obtain ⟨h', hparse, hsame⟩ := of_bind_eq_ok hparsed
  refine ⟨image, h', ?_, hparse⟩
  cases hsame
  exact hencode

/-- A file made as asked for, without blocks but the first one. -/
structure FileDescription.Made (f : FileDescription) (options : OpenOptions) : Prop where
  duplicates : f.header.duplicates = (options.duplicates == .allow)
  view : f.view = ⟨fun _ => none, fun _ => none, {}⟩

/-- A new file may have been made over another one. -/
theorem OpenOptions.exists_description (hfirst : options.firstBlock store = .ok image) :
    ∃ f : FileDescription, f.WellFormed ∧ f.Made options ∧ ∀ c : Contents,
      (c.write 0 image).Holds f := by
  obtain ⟨h, hnew, hrest⟩ := of_bind_eq_ok hfirst
  obtain ⟨image', hencode, hroom⟩ := of_bind_eq_ok hrest
  obtain ⟨_, h', hencode', hparse⟩ := parse_of_newHeader hnew
  rw [hencode] at hencode'
  cases hencode'
  have himage : image' = image := by
    split at hroom <;> cases hroom
    rfl
  subst himage
  obtain ⟨hlength, -, hfronts⟩ := Header.fronts_of_encode hencode
  obtain ⟨hworkable, hformat, hsize⟩ := hfronts.parse (OpenOptions.version_newHeader hnew) hparse
  have hle : h'.blockSize ≤ image'.length := hlength ▸ hsize
  have hwidth : 1 + 4 * h'.format.positionWidth ≤ h'.blockSize :=
    Nat.le_trans (Nat.add_le_add_right (by decide) _) hworkable.room
  have hduplicates := (hfronts.duplicates_eq hparse).trans (OpenOptions.newHeader_eq hnew).2
  refine ⟨⟨h', image'.take h'.blockSize, _⟩, ⟨?_, ?_, ?_, View.wellFormed_empty hworkable⟩,
    ⟨hduplicates, rfl⟩, fun c => ⟨?_, nofun⟩⟩
  · refine Header.parse_of_take_eq hparse ?_
    rw [List.take_take, Nat.min_self]
  · rw [List.length_take, Nat.min_eq_left hle]
  · rw [Pointers.read_take hwidth, hformat]
    exact hfronts.pointers
  · rw [← Contents.take_read _ hle, Contents.read_write_self]

/-- What making a file on a store that refuses nothing comes to. -/
theorem Index.createOn_told (hrel : store.Reliable d) (hvolume : store.volume < d.volumes.size) :
    Ends (createOn store options) d fun r d' => d.Follows d' ∧
      (∀ id, id ≠ store.volume → d'.contents id = d.contents id) ∧
      match options.firstBlock store with
      | .ok image => r = .ok () ∧
          d'.contents store.volume = (d.contents store.volume).write 0 image
      | .error e => r = .error e ∧ d'.contents store.volume = d.contents store.volume := by
  unfold createOn OpenOptions.firstBlock
  cases hnew : options.newHeader store.name with
  | error e => exact ⟨.refl d, fun _ _ => rfl, rfl, rfl⟩
  | ok header =>
    cases hencode : header.encode with
    | error e =>
      simp only [Except.bind, bind, hencode]
      exact ⟨.refl d, fun _ _ => rfl, rfl, rfl⟩
    | ok image =>
      simp only [Except.bind, bind, hencode]
      have hlong := (Header.fronts_of_encode hencode).2.1
      have hne : image ≠ [] := by
        rintro rfl
        exact absurd hlong (by decide)
      refine ((store.write_ends d 0 image).and
        (Store.write_told hrel.takes 0 image)).mono ?_
      rintro r d' ⟨hwrote, hr⟩
      rw [Nat.zero_add] at hr
      refine ⟨hwrote.follows, hwrote.apart, ?_⟩
      by_cases hroom : store.kind = .memory ∨ image.length < Store.offsetBound
      · rw [if_pos hroom] at hr ⊢
        exact ⟨hr, hwrote.ok hr hvolume hne⟩
      · rw [if_neg hroom] at hr ⊢
        exact ⟨hr, hwrote.error _ hr⟩

end Making

/-! ## Taking up a file, and leaving it -/

/-- The blocks of a file lie in a cache and its store as the description tells. -/
structure FileDescription.LiesIn (f : FileDescription) (m : Mount) (s : Buffered) : Prop where
  size : m.blockSize = f.header.blockSize
  blocksAs : Session.BlocksAs m f.header.format f.view s
  front : m.content s .null = some f.front

section BlocksAs

variable {s : Buffered} {store : Store} {f : FileDescription} {m : Mount} {w : View} {changed : Bool}

/-- A file is taken up from its volume. -/
theorem Contents.Holds.liesIn (hc : (s.disk.contents store.volume).Holds f) (hf : f.WellFormed)
    (hs : s.Ready) (hvolume : store.volume < s.disk.volumes.size)
    (huntaken : s.cache.Untaken store.volume) :
    f.LiesIn ⟨s.cache.freshFile, store, f.header.blockSize⟩
      ⟨(s.cache.register store).2, s.disk⟩ := by
  have hpos : 0 < f.header.blockSize := hf.wellFormed.workable.blockSize_pos
  have hsize : f.header.blockSize ≤ (s.disk.contents store.volume).size := by
    have hlength := hf.length
    rw [← hc.front, Contents.length_read] at hlength
    omega
  have hseated := Mount.seated_register hs.sound hs.enough hs.unpinned hpos hvolume
    hsize fun i b other _ _ hother => huntaken _ other hother
  have hcontent : ∀ (p : BlockPos) x, x.length = f.header.blockSize →
      (s.disk.contents store.volume).read p.offset f.header.blockSize = x →
      Mount.content ⟨s.cache.freshFile, store, f.header.blockSize⟩
        ⟨(s.cache.register store).2, s.disk⟩ p = some x := by
    intro p x hlength hread
    rw [hseated.content_eq]
    unfold Mount.stored
    rw [hread, if_pos hlength]
  have hfront := hcontent .null f.front hf.length hc.front
  refine ⟨rfl, ⟨hf.wellFormed.settled, hseated.intact, hseated.unpinned, hseated.pending,
    ⟨_, hfront, hf.pointers⟩, fun p x hp => ?_⟩, hfront⟩
  obtain ⟨hnull, haligned, -, hlength⟩ := hf.wellFormed.block hp
  exact ⟨hnull, haligned, hcontent p x hlength (hc.blocks p x hp)⟩

/-- A file of which nothing is cached is in its volume. -/
theorem FileDescription.LiesIn.holds (h : f.LiesIn m s) (hidle : s.Idle m.file) :
    (s.disk.contents m.store.volume).Holds f := by
  have hread : ∀ (p : BlockPos) x, m.content s p = some x →
      (s.disk.contents m.store.volume).read p.offset f.header.blockSize = x := by
    intro p x hx
    rw [Mount.content_of_absent h.blocksAs.intact.sound fun i b hb hfile =>
      absurd hfile (hidle i b hb)] at hx
    rw [← h.size]
    exact ((Mount.stored_eq_some_iff h.blocksAs.intact.size_pos).mp hx).2
  exact ⟨hread .null _ h.front, fun p x hp => hread p x (h.blocksAs.blocks p x hp).2.2⟩

/-- The file after a call that leaves the blocks of a view. -/
def FileDescription.after (f : FileDescription) (changed : Bool) (w : View) : FileDescription where
  header := f.header
  front := w.pointers.saved f.header.format changed f.front
  view := w

theorem FileDescription.WellFormed.width (hf : f.WellFormed) :
    1 + 4 * f.header.format.positionWidth ≤ f.header.blockSize :=
  Nat.le_trans (Nat.add_le_add_right (by decide) _) hf.wellFormed.workable.room

/-- What a program that ends with `r` and the view `w` makes of a file. If it fails, nothing. -/
structure FileDescription.Becomes {α : Type} (f : FileDescription) (r : Except Error α) (w : View)
    (f' : FileDescription) :
    Prop where
  header : f'.header = f.header
  view : ∀ a, r = .ok a → f'.view = w
  same : ∀ e, r = .error e → f' = f

/-- A well-formed view is that of a well-formed file once its pointers are saved. -/
theorem FileDescription.WellFormed.after (hf : f.WellFormed) (hw : w.WellFormed f.header.layout)
    (hsame : changed = false → w.pointers = f.view.pointers) : (f.after changed w).WellFormed := by
  cases changed with
  | false => exact ⟨hf.parse, hf.length, hf.pointers.trans (hsame rfl).symm, hw⟩
  | true =>
    have hlong : 1 + 4 * f.header.format.positionWidth ≤ f.front.length := by
      rw [hf.length]
      exact hf.width
    obtain ⟨image, hwrite, hread, -, -, hlength⟩ :=
      Pointers.write_eq_ok hw.settled.pointers hlong
    have hfront : (f.after true w).front = image := congrArg Prod.fst hwrite
    refine ⟨?_, ?_, ?_, hw⟩ <;> rw [hfront]
    · exact Header.parse_write hf.parse hwrite hw.settled.pointers
    · exact hlength.trans hf.length
    · exact hread

/-- What a call on a file comes to is told by its description: a cache may hold any of its blocks,
and blocks of any other files. -/
theorem FileDescription.WellFormed.transact {α : Type} {program : Program α} {r : Except Error α}
    (hf : f.WellFormed)
    (hruns : program.Runs f.header.blockSize { f.view with held := fun _ => none } r w)
    (hw : ∀ a, r = .ok a → w.WellFormed f.header.layout) :
    ∃ f' : FileDescription, f'.WellFormed ∧ f.Becomes r w f' ∧
      ∀ {m : Mount} {s : Buffered} (locked : Bool)
      (mode : EndMode), f.LiesIn m s → s.Ready → m.store.Reliable s.disk →
      Ends (Session.transact m.file f.header.layout locked mode program) s fun o t =>
        o = r.map (fun a => (a, .ok ())) ∧ Cache.Steps m (fun _ => True) (fun _ _ => True) s t ∧
          t.Ready ∧
          f'.LiesIn m t ∧ (mode = .flush → (∃ a, r = .ok a) → t.Idle m.file) := by
  obtain ⟨c, hsame, hc⟩ := Session.transact_answers hruns
  have hends : ∀ {m : Mount} {s : Buffered} (locked : Bool) (mode : EndMode), f.LiesIn m s →
      s.Ready → m.store.Reliable s.disk →
      Ends (Session.transact m.file f.header.layout locked mode program) s
        (Session.Answered m f.header.format mode f.view f.front r w (f.after c w).front s) := by
    intro m s locked mode hblocksAs hs hrel
    refine hc (l := f.header.layout) locked mode hblocksAs.size hblocksAs.size.symm
      hblocksAs.blocksAs hs.safe hrel
      ?_ (fun a ha => ?_) hblocksAs.front
    · rw [hblocksAs.size]
      exact hf.width
    · rw [hblocksAs.size]
      exact (hw a ha).settled
  cases r with
  | ok a =>
    refine ⟨f.after c w, hf.after (hw a rfl) hsame, ⟨rfl, fun _ _ => rfl, nofun⟩,
      fun {m s} locked mode hblocksAs hs hrel => ?_⟩
    refine (hends locked mode hblocksAs hs hrel).mono fun o t ht => ?_
    obtain ⟨ho, hblocksAs', hfront, hidle⟩ := ht.ok a rfl
    exact ⟨ho, ht.steps, hs.steps ht.steps hblocksAs.blocksAs.intact.store ht.safe hblocksAs'.unpinned,
      ⟨hblocksAs.size, hblocksAs', hfront⟩, fun hmode _ => hidle hmode⟩
  | error e =>
    refine ⟨f, hf, ⟨rfl, nofun, fun _ _ => rfl⟩, fun {m s} locked mode hblocksAs hs hrel => ?_⟩
    refine (hends locked mode hblocksAs hs hrel).mono fun o t ht => ?_
    obtain ⟨ho, hblocksAs', hfront⟩ := ht.error e rfl
    exact ⟨ho, ht.steps, hs.steps ht.steps hblocksAs.blocksAs.intact.store ht.safe hblocksAs'.unpinned,
      ⟨hblocksAs.size, hblocksAs', hfront⟩, fun _ ⟨a, ha⟩ => nomatch ha⟩

end BlocksAs

end PagedIndex
