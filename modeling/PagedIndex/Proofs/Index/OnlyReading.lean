import PagedIndex.Proofs.Index.Verified

/-!
# Files as planned that are only read

A volume has a file in it if its first block is a header and its other blocks are as planned. A
handle that has opened it in any mode, and does not change it, moves through its entries in order,
although the blocks are read from a store that may not be written to.

## Main definitions

* `Contents.Files` — a volume that has a file as planned in it.
* `Index.Views` — a handle on such a file that has not changed it.

## Main statements

* `Plan.Holds.length_entries_le` — a bound of the number of entries.
* `Index.Opened.views` — a handle that opens the file.
* `Index.Views.next_ends`, `Index.Views.find_ends` — moves.
-/

namespace PagedIndex

/-! ## How many entries a file can hold -/

/-- An entry takes a byte at least. -/
theorem Leaf.length_le_entriesSize {l : Layout} {es : List Entry} (previous : Option Entry)
    (hes : ∀ e ∈ es, e.key.length = l.keyLength) : es.length ≤ entriesSize l previous es := by
  induction es generalizing previous with
  | nil => exact Nat.zero_le _
  | cons e rest ih =>
    have hrest := ih (some e) fun x hx => hes x (List.mem_cons_of_mem _ hx)
    have hpos : 1 ≤ Entry.encodedSize l previous e := by
      have hkey := hes e List.mem_cons_self
      have hwidth : 1 ≤ l.positionWidth := by
        unfold Layout.positionWidth Format.positionWidth
        split <;> decide
      have hsize : l.entrySize = l.keyLength + l.positionWidth := rfl
      unfold Entry.encodedSize
      split
      · next before _ =>
        have := Key.shared_le_right before.key e.key
        omega
      · omega
    simp only [entriesSize, List.length_cons]
    omega

/-- Each entry of a tree takes a byte of one of its blocks at least. -/
theorem Subtree.OnBoard.length_entries_le {l : Layout} {cells : BlockPos → Option Cell} {depth : Nat}
    {x : Subtree} (h : x.OnBoard l cells depth) (hes : ∀ e ∈ x.entries, e.key.length = l.keyLength) :
    x.entries.length ≤ x.blocks.length * l.blockSize := by
  induction h with
  | @leaf pos es hcell hfits =>
    have hsize : es.length ≤ Leaf.entriesSize l none es := Leaf.length_le_entriesSize none hes
    rw [Leaf.fits_iff] at hfits
    show es.length ≤ 1 * l.blockSize
    omega
  | @branch depth pos first rest hcell hfits hchildren hfull ih =>
    have hown : rest.length ≤ l.blockSize := by
      have hfits' := Branch.fits_iff.mp hfits
      rw [List.length_map] at hfits'
      have hwidth : 1 ≤ l.separatorSize := by
        unfold Layout.separatorSize Layout.positionWidth Format.positionWidth
        split <;> omega
      have := Nat.mul_le_mul_left rest.length hwidth
      omega
    have hfirst := ih first List.mem_cons_self fun e he => hes e (List.mem_append_left _ he)
    have hothers : (rest.flatMap fun s => [s.1] ++ s.2.entries).length ≤
        rest.length + ((rest.map Prod.snd).flatMap Subtree.blocks).length * l.blockSize := by
      have hall : ∀ s ∈ rest, s.2.entries.length ≤ s.2.blocks.length * l.blockSize := by
        intro s hs
        refine ih s.2 (List.mem_cons_of_mem _ (List.mem_map_of_mem hs)) fun e he => ?_
        exact hes e (List.mem_append_right _ (List.mem_flatMap.mpr
          ⟨s, hs, List.mem_append_right _ he⟩))
      clear ih hes hfits hcell hchildren hfull hown hfirst
      induction rest with
      | nil => simp
      | cons s rest ih =>
        have hs := hall s List.mem_cons_self
        have hrest := ih fun s' hs' => hall s' (List.mem_cons_of_mem _ hs')
        simp only [List.flatMap_cons, List.map_cons, List.length_append, List.length_cons,
          List.length_nil, Nat.add_mul] at hrest ⊢
        omega
    simp only [Subtree.branch, List.length_append, List.flatMap_cons, List.length_cons, Nat.add_mul]
    omega

/-- No file holds as many entries as there are record positions. -/
theorem Plan.Holds.length_entries_le {l : Layout} {c : Board} {p : Plan} (h : p.Holds l c)
    (hl : l.Workable) : p.entries.length ≤ l.maxRecord := by
  have hlength : p.entries.length ≤ p.blocks.length * l.blockSize := by
    have hes : ∀ e ∈ p.entries, e.key.length = l.keyLength := fun e he => (h.storable e he).1
    have htree := h.tree
    unfold Plan.entries Plan.blocks at *
    cases hx : p.tree with
    | none => exact Nat.zero_le _
    | some x =>
      rw [hx] at hes htree
      obtain ⟨depth, -, honBoard, -⟩ := htree
      exact honBoard.length_entries_le hes
  have hcount := h.ledger.length_eq hl
  have hdiv := Nat.div_mul_le_self c.pointers.highWater.offset l.blockSize
  have hmul := Nat.mul_le_mul_right l.blockSize
    (show p.blocks.length ≤ c.pointers.highWater.offset / l.blockSize by omega)
  have := h.ledger.limit
  omega

/-! ## Files of one block -/

/-- A block that is the only one of a file and holds the entries of its tree. -/
theorem Plan.drawn_leaf {t : Tree} {es : List Entry} {image : Bytes} (hl : t.layout.Workable)
    (hfits : Leaf.fits t.layout es) (hne : es ≠ []) (hstorable : ∀ e ∈ es, e.Storable t.layout)
    (hasc : t.Ascending es) (hlimit : t.layout.blockSize ≤ t.layout.maxRecord)
    (hlength : image.length = t.layout.blockSize)
    (hdecode : Node.decode t.layout ⟨t.layout.blockSize⟩ image = .ok (.leaf es)) :
    let pos : BlockPos := ⟨t.layout.blockSize⟩
    (⟨1, some (.leaf pos es), [], []⟩ : Plan).Drawn t
      ⟨fun q => if q = pos then some image else none, fun _ => none, ⟨.null, .null, pos, pos⟩⟩ := by
  intro pos
  have hpos : 0 < t.layout.blockSize := hl.blockSize_pos
  have hnull : pos ≠ .null := fun h => by
    have hzero : t.layout.blockSize = 0 := congrArg BlockPos.offset h
    omega
  let cells : BlockPos → Option Cell := fun q => if q = pos then some (.node (.leaf es)) else none
  have hcells : ∀ q, (cells q).isSome ↔ q = pos := fun q => by
    simp only [cells]
    split <;> simp [*]
  refine ⟨hl, ⟨⟨cells, ⟨.null, .null, pos, pos⟩⟩, ⟨rfl, if_neg hnull.symm, fun q cell h => ?_,
    fun q h => ?_⟩, ⟨⟨0, rfl, .leaf (if_pos rfl) hfits, Subtree.full_leaf.mpr hne, rfl⟩, ?_,
    hstorable⟩⟩, hasc⟩
  · obtain rfl := (hcells q).mp (Option.isSome_iff_exists.mpr ⟨cell, h⟩)
    obtain rfl : Cell.node (.leaf es) = cell := Option.some.inj ((if_pos rfl).symm.trans h)
    exact ⟨image, if_pos rfl, hlength, hdecode⟩
  · refine if_neg fun heq => ?_
    have hsome := (hcells q).mpr heq
    rw [show cells q = none from h] at hsome
    cases hsome
  · refine ⟨List.pairwise_singleton _ _, fun q => ?_, Nat.dvd_refl _, hlimit, fun q => ?_, rfl, rfl,
      nofun⟩
    · show q ∈ [pos] ↔ q ≠ .null ∧ t.layout.blockSize ∣ q.offset ∧ q.offset ≤ t.layout.blockSize
      rw [List.mem_singleton]
      constructor
      · rintro rfl
        exact ⟨hnull, Nat.dvd_refl _, Nat.le_refl _⟩
      · rintro ⟨hq, hdvd, hle⟩
        have hoffset : 0 < q.offset := Nat.pos_of_ne_zero fun h => hq (congrArg BlockPos.mk h)
        exact congrArg BlockPos.mk (Nat.le_antisymm hle (Nat.le_of_dvd hoffset hdvd))
    · exact (hcells q).trans List.mem_singleton.symm

/-! ## Handles -/

/-- A volume that has a file in it, with its blocks as planned. -/
structure Contents.Files (c : Contents) (h : Header) (t : Tree) (p : Plan) : Prop where
  parse : Header.parse (c.read 0 maxBlockSize) = .ok h
  layout : t.layout = h.layout
  size : h.blockSize ≤ c.size
  blocks : ∃ v : View, p.Drawn t v ∧ v.pointers = Pointers.read h.format (c.read 0 h.blockSize) ∧
    ∀ pos x, v.blocks pos = some x → c.read pos.offset h.blockSize = x

namespace Index

/-- A handle on a file as planned that nothing stands in the way of, and that has not changed it. -/
structure Views (ix : Index) (p : Plan) (w : Workspace) : Prop where
  mirrors : ix.Mirrors w
  unhindered : ix.Unhindered w
  blocks : ∃ x v, ix.mount.read? w.disk .null = some x ∧ p.Drawn ix.tree v ∧
    v.pointers = Pointers.read ix.tree.layout.format x ∧
    ∀ pos y, v.blocks pos = some y → ix.mount.read? w.disk pos = some y
  cursor : ix.cursor.Aligned ix.tree.layout

variable {ix : Index} {p : Plan} {w w' : Workspace}

theorem Views.ascending (h : ix.Views p w) : ix.tree.Ascending p.entries := by
  obtain ⟨_, v, -, hp, -⟩ := h.blocks
  exact hp.ascending

/-- A move that cannot fail on blocks as planned does not fail. -/
theorem Views.move_ends (h : ix.Views p w) (call : Call) {program : Program Cursor}
    {P : Cursor → Prop} (hcourse : call.course ix (w.cell ix.cell) = .asks (.move program))
    (hreader : program.Reader)
    (hgives : ∀ c : Board, p.Holds ix.tree.layout c → Program.Gives ix.tree.layout program c P)
    (haligned : ∀ c', P c' → c'.Aligned ix.tree.layout) :
    Ends call.run (ix, w) fun r σ => σ.1 = { ix with cursor := σ.1.cursor } ∧ P σ.1.cursor ∧
      r = .ok (.state σ.1.cursor.state) ∧
      σ.2.cell ix.cell = σ.1.cursor.record?.getD (w.cell ix.cell) ∧ σ.1.Views p σ.2 := by
  obtain ⟨x, v, hheader, hp, hpointers, hblocks⟩ := h.blocks
  obtain ⟨c, hc, hholds⟩ := hp.board
  obtain ⟨r, v', d, hruns, -, rfl, a, rfl, ha⟩ := hgives c hholds
    { v with held := fun _ => none } ⟨hc.pointers, hc.header, hc.held, hc.vacant⟩
  have hreads : program.Reads (ix.mount.read? w.disk) (Pointers.read ix.tree.layout.format x) (.ok a) :=
    hpointers ▸ (hreader.reads hruns).mono hblocks
  refine (h.mirrors.free_ends (q := .move program) h.unhindered hheader hcourse hreader hreads).mono ?_
  rintro r σ ⟨s, rfl, rfl, hmirrors, hcontents, hfree⟩
  have hread : ix.mount.read? ((Request.move program).after ix w (.ok (a, .ok ())) s).2.disk =
      ix.mount.read? w.disk := funext fun _ => Mount.read?_congr hcontents
  refine ⟨rfl, ha, rfl, Request.cell_after h.mirrors.cell, hmirrors.withCursor a, hfree.withCursor a,
    ⟨x, v, ?_⟩, haligned a ha⟩
  show ix.mount.read? _ .null = some x ∧ _ ∧ _ ∧ ∀ pos y, _ → ix.mount.read? _ pos = some y
  rw [hread]
  exact ⟨hheader, hp, hpointers, hblocks⟩

/-- The next entry is the first one ahead. -/
theorem Views.next_ends (h : ix.Views p w) (hlevels : p.levels ≤ maxLevels + 1) :
    Ends Call.next.run (ix, w) fun r σ =>
      ix.Went w (ix.cursor.ahead ix.tree p.entries).head? .afterLast r σ ∧ σ.1.Views p σ.2 := by
  refine (h.move_ends .next rfl (Tree.walks_next trivial fun _ _ => .inr trivial).reader
    (fun c hc => Tree.gives_next hc hlevels h.ascending h.cursor) fun c' hc' => hc'.aligned).mono ?_
  rintro r σ ⟨hhandle, hmoved, hr, hrecord, hviews⟩
  rw [hmoved.record?_eq nofun] at hrecord
  exact ⟨⟨hhandle, hmoved.state, hmoved.current, hr, hrecord⟩, hviews⟩

/-- A move to a key lands on the first entry that has it, or next to the key. -/
theorem Views.find_ends (h : ix.Views p w) (hlevels : p.levels ≤ maxLevels + 1) {raw key : Bytes}
    (hraw : raw ≠ []) (hkey : ix.keyOf raw blank = .ok key) :
    Ends (Call.find raw).run (ix, w) fun r σ => σ.1 = { ix with cursor := σ.1.cursor } ∧
      ix.cursor.Sought ix.tree key p.entries σ.1.cursor ∧ r = .ok (.state σ.1.cursor.state) ∧
      σ.2.cell ix.cell = σ.1.cursor.record?.getD (w.cell ix.cell) ∧ σ.1.Views p σ.2 := by
  have hcourse : (Call.find raw).course ix (w.cell ix.cell) =
      .asks (.move (ix.tree.find ix.cursor key)) := by
    simp [Call.course, hraw, hkey, Course.check]
  exact h.move_ends _ hcourse (Tree.walks_find trivial key).reader
    (fun c hc => Tree.gives_find hc hlevels h.ascending key) fun c' hc' => hc'.aligned

/-- A handle that opens a file as planned. -/
theorem Opened.views {store : Store} {options : OpenOptions} {cell : Nat}
    (h : Opened store options cell w ix w')
    (hw : w.Admits store (options.cache.getD Workspace.commonCache) cell)
    (hrefusesNothing : store.RefusesNothing w.disk) (hkind : store.kind ≠ .folder) (hclean : ∀ i b,
      (w.cache (options.cache.getD Workspace.commonCache)).buffer? i = some b → b.dirty = false)
    (hmode : options.mode ≠ .create)
    (hfiles : (w.disk.contents store.volume).Files ix.header ix.tree p) : ix.Views p w' := by
  obtain ⟨d, hfollows, -, hsame, hparse, hw'⟩ := id h.disk
  have hcontents : w'.disk.contents store.volume = w.disk.contents store.volume := by
    rw [hw']
    exact hsame hmode
  obtain ⟨v, hp, hpointers, hblocks⟩ := hfiles.blocks
  obtain ⟨c, hc, hholds⟩ := hp.board
  have hworkable : ix.header.layout.Workable := hfiles.layout ▸ hp.workable
  have hread : ∀ (pos : BlockPos) y, pos.offset ≤ ix.tree.layout.maxRecord →
      (w.disk.contents store.volume).read pos.offset ix.header.blockSize = y →
      y.length = ix.header.blockSize → ix.mount.read? w'.disk pos = some y := by
    intro pos y hpos hy hlength
    have hbound : pos.offset + ix.header.blockSize < Store.offsetBound := by
      have hmax : ix.tree.layout.maxRecord ≤ 0x7FFFFFFFFFFF := by
        unfold Layout.maxRecord Format.maxPosition
        split <;> decide
      have hsmall : ix.header.blockSize ≤ maxBlockSize := hworkable.small
      have : maxBlockSize ≤ 0x7FFFFFFFFFFF := by decide
      unfold Store.offsetBound
      omega
    have hbytes : ix.mount.store.bytes? w'.disk pos.offset ix.mount.blockSize = some y := by
      rw [show ix.mount.store = store from h.store, h.blockSize_eq]
      unfold Store.bytes?
      rw [hcontents, hy]
      cases hk : store.kind with
      | memory => rfl
      | file writable => exact if_neg (Nat.not_le.mpr hbound)
      | folder => exact absurd hk hkind
    unfold Mount.read?
    rw [hbytes, Option.bind_some, if_pos (hlength.trans h.blockSize_eq.symm)]
  refine ⟨h.mirrors hw, h.unhindered hw ?_ hclean,
    ⟨_, v, hread .null _ (Nat.zero_le _) rfl ?_, hp, ?_, fun pos y hy => ?_⟩, ?_⟩
  · rw [hw']
    exact hrefusesNothing.follows hfollows
  · exact (Contents.length_read _ _ _).trans (Nat.min_eq_left hfiles.size)
  · rw [hpointers, hfiles.layout]
    rfl
  · -- a block of the view is one of the board, so it is whole and lies where blocks may lie
    cases hcell : c.cells pos with
    | none =>
      rw [hc.vacant pos hcell] at hy
      cases hy
    | some cell =>
      obtain ⟨image, himage, hlength, -⟩ := hc.held pos cell hcell
      obtain rfl : image = y := Option.some.inj (himage.symm.trans hy)
      have hmem := (hholds.ledger.cells pos).mp (by rw [hcell]; rfl)
      exact hread pos image (hholds.ledger.offset_le hmem) (hblocks pos image hy)
        (hlength.trans (congrArg Layout.blockSize hfiles.layout))
  · rw [h.cursor]
    intro pos hpos
    cases hpos

end Index

end PagedIndex
