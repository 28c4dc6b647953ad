import PagedIndex.Proofs.Codec.Blocks
import PagedIndex.Proofs.Session.Runs

/-!
# Boards

Below the codecs a file is a board of cells: tree blocks, deleted blocks and slot blocks, each at
its position, with the chain pointers. What a program does is told as what it does to a board.

## Main definitions

* `Board` — the cells of a file.
* `Program.Acts` — what a program does to a board.

## Main statements

* `Program.acts_loadNode`, `Program.acts_storeNode` — tree blocks are read and written.
* `Program.acts_allocate_reuse`, `Program.acts_allocate_extend`, `Program.acts_free` — blocks are
  taken and given back.
* `Program.acts_loadSlots`, `Program.acts_storeSlots` — slot blocks are read and written.
-/

namespace PagedIndex

theorem BlockPos.isNull_iff {pos : BlockPos} : pos.isNull = true ↔ pos = .null := by
  obtain ⟨offset⟩ := pos
  simp [isNull, null]

theorem BlockPos.isNull_eq_false {pos : BlockPos} (h : pos ≠ .null) : pos.isNull = false :=
  Bool.eq_false_iff.mpr fun hnull => h (isNull_iff.mp hnull)

/-- Writing what is there changes nothing. -/
theorem View.put_same {v : View} {pos : BlockPos} {image : Bytes} (h : v.blocks pos = some image) :
    v.put pos image = v := by
  unfold View.put
  congr 1
  funext p
  by_cases hp : p = pos <;> simp [hp, h]

namespace Role

theorem current_ne : current ≠ header := nofun

theorem parent_ne : parent ≠ header := nofun

theorem sibling_ne : sibling ≠ header := nofun

end Role

/-- What a block holds. -/
inductive Cell where
  | node (n : Node)
  | deleted (next : BlockPos)
  | slots (s : Slots)
  /-- The block was taken, and nothing was written there yet. -/
  | blank

/-- Whether a block at a position holds a cell. -/
def Cell.Shown (l : Layout) (pos : BlockPos) : Cell → Bytes → Prop
  | node n, image => Node.decode l pos image = .ok n
  | deleted next, image => Deleted.decode l pos image = .ok next
  | slots s, image => image.head? = some BlockKind.slots.tag ∧ Slots.decode l image = .ok s
  | blank, _ => True

/-- The cells of a file and its chain pointers. -/
structure Board where
  cells : BlockPos → Option Cell
  pointers : Pointers

namespace Board

def put (c : Board) (pos : BlockPos) (cell : Cell) : Board :=
  { c with cells := fun p => if p = pos then some cell else c.cells p }

/-- The board after the first deleted block was taken. -/
def reuse (c : Board) (next : BlockPos) : Board :=
  { c.put c.pointers.freeHead .blank with pointers := { c.pointers with freeHead := next } }

/-- The board after a block was taken behind the last one. -/
def extend (c : Board) (l : Layout) : Board :=
  let pos := c.pointers.highWater.following l.blockSize
  { c.put pos .blank with pointers := { c.pointers with highWater := pos } }

/-- The board after a block was put on the chain of deleted blocks. -/
def release (c : Board) (pos : BlockPos) : Board :=
  { c.put pos (.deleted c.pointers.freeHead) with pointers := { c.pointers with freeHead := pos } }

variable {c : Board} {pos p : BlockPos} {cell : Cell}

@[simp]
theorem pointers_put : (c.put pos cell).pointers = c.pointers := rfl

@[simp]
theorem cells_put_self : (c.put pos cell).cells pos = some cell := if_pos rfl

theorem cells_put_ne (h : p ≠ pos) : (c.put pos cell).cells p = c.cells p := if_neg h

/-- Whether the blocks of a view hold the cells of a board. -/
structure Shown (l : Layout) (c : Board) (v : View) : Prop where
  pointers : v.pointers = c.pointers
  header : c.cells .null = none
  held : ∀ p cell, c.cells p = some cell →
    ∃ image, v.blocks p = some image ∧ image.length = l.blockSize ∧ cell.Shown l p image
  vacant : ∀ p, c.cells p = none → v.blocks p = none

variable {l : Layout} {v : View}

theorem Shown.ne_null (h : c.Shown l v) (hp : c.cells p = some cell) : p ≠ .null := by
  rintro rfl
  rw [h.header] at hp
  cases hp

/-- Views with the same blocks and pointers show the same. -/
theorem Shown.congr {w : View} (h : c.Shown l v) (hblocks : w.blocks = v.blocks)
    (hpointers : w.pointers = v.pointers) : c.Shown l w := by
  refine ⟨hpointers.trans h.pointers, h.header, fun p cell hcell => ?_, fun p hnone => ?_⟩
  · rw [hblocks]
    exact h.held p cell hcell
  · rw [hblocks]
    exact h.vacant p hnone

theorem Shown.hold (h : c.Shown l v) (role : Role) (pos : BlockPos) : c.Shown l (v.hold role pos) :=
  ⟨h.pointers, h.header, h.held, h.vacant⟩

theorem Shown.put {image : Bytes} (h : c.Shown l v) (hpos : pos ≠ .null)
    (hlen : image.length = l.blockSize) (hcell : cell.Shown l pos image) :
    (c.put pos cell).Shown l (v.put pos image) := by
  refine ⟨h.pointers, (cells_put_ne hpos.symm).trans h.header, fun p x hp => ?_, fun p hp => ?_⟩
  all_goals
    unfold View.put
    by_cases heq : p = pos
    · subst heq
      rw [cells_put_self] at hp
      cases hp
      try exact ⟨image, if_pos rfl, hlen, hcell⟩
    · rw [cells_put_ne heq] at hp
      simp only [if_neg heq]
      first | exact h.held p x hp | exact h.vacant p hp

theorem Shown.setPointers (h : c.Shown l v) (p : Pointers) :
    ({ c with pointers := p } : Board).Shown l { v with pointers := p } :=
  ⟨rfl, h.header, h.held, h.vacant⟩

end Board

namespace Program

variable {α β : Type} {l : Layout} {c : Board} {role : Role} {pos : BlockPos}

/-- A program ends on a board with a result and a board of which `Q` holds. -/
def Acts (l : Layout) (program : Program α) (c : Board) (Q : Except Error α → Board → Prop) :
    Prop :=
  ∀ v, c.Shown l v → ∃ r w d, program.Runs l.blockSize v r w ∧ d.Shown l w ∧ Q r d

variable {program : Program α} {f : α → Program β} {P Q : Except Error α → Board → Prop}
  {R : Except Error β → Board → Prop}

/-- The same for a program that begins with a block held for a role. -/
def ActsHolding (l : Layout) (role : Role) (pos : BlockPos) (program : Program α) (c : Board)
    (Q : Except Error α → Board → Prop) : Prop :=
  ∀ v, c.Shown l v → v.held role = some pos →
    ∃ r w d, program.Runs l.blockSize v r w ∧ d.Shown l w ∧ Q r d

theorem Acts.holding (h : Acts l program c Q) : ActsHolding l role pos program c Q :=
  fun v hv _ => h v hv

theorem Acts.mono (h : Acts l program c P) (hPQ : ∀ r d, P r d → Q r d) : Acts l program c Q := by
  intro v hv
  obtain ⟨r, w, d, hruns, hw, hp⟩ := h v hv
  exact ⟨r, w, d, hruns, hw, hPQ r d hp⟩

theorem acts_done {a : α} (h : Q (.ok a) c) : Acts l (.done a) c Q :=
  fun v hv => ⟨_, v, c, .done a v, hv, h⟩

theorem acts_pure {a : α} (h : Q (.ok a) c) : Acts l (pure a) c Q := acts_done h

theorem acts_fail {e : Error} (h : Q (.error e) c) : Acts l (.fail e : Program α) c Q :=
  fun v hv => ⟨_, v, c, .fail e v, hv, h⟩

theorem Acts.bind (h : Acts l program c P) (herror : ∀ e d, P (.error e) d → R (.error e) d)
    (hok : ∀ a d, P (.ok a) d → Acts l (f a) d R) : Acts l (program >>= f) c R := by
  intro v hv
  obtain ⟨r, w, d, hruns, hw, hp⟩ := h v hv
  cases r with
  | error e => exact ⟨_, w, d, hruns.bind_error, hw, herror e d hp⟩
  | ok a =>
    obtain ⟨r', w', d', hruns', hw', hr⟩ := hok a d hp w hw
    exact ⟨r', w', d', hruns.bind hruns', hw', hr⟩

/-- A program that goes on from the value of one that cannot fail. -/
theorem Acts.bind_ok {a : α} {d : Board} (h : Acts l program c fun r d' => r = .ok a ∧ d' = d)
    (hok : Acts l (f a) d R) : Acts l (program >>= f) c R := by
  refine h.bind (fun e d h => nomatch h.1) ?_
  rintro b d' ⟨hb, rfl⟩
  cases hb
  exact hok

/-- A check that is passed may be made or not. -/
theorem acts_check {b : Bool} {check : Program Unit} {f : Unit → Program β}
    (h : Acts l check c fun r d => r = .ok () ∧ d = c) (hf : Acts l (f ()) c R) :
    Acts l (if b then check >>= f else f ()) c R := by
  split
  · exact h.bind_ok hf
  · exact hf

/-! ## Chain pointers -/

theorem acts_getPointers : Acts l getPointers c fun r d => r = .ok c.pointers ∧ d = c := by
  intro v hv
  refine ⟨_, v, c, .pointers (.done _ v), hv, ?_, rfl⟩
  rw [hv.pointers]

theorem acts_setPointers {p : Pointers}
    (hmark : c.pointers.highWater.offset ≤ p.highWater.offset)
    (h : Acts l program { c with pointers := p } Q) : Acts l (.setPointers p program) c Q := by
  intro v hv
  obtain ⟨r, w, d, hruns, hw, hq⟩ := h _ (hv.setPointers p)
  exact ⟨r, w, d, .setPointers (hv.pointers.symm ▸ hmark) hruns, hw, hq⟩

theorem acts_modifyPointers (g : Pointers → Pointers)
    (hmark : c.pointers.highWater.offset ≤ (g c.pointers).highWater.offset) :
    Acts l (modifyPointers g) c fun r d =>
      r = .ok () ∧ d = { c with pointers := g c.pointers } := by
  intro v hv
  have hg : g v.pointers = g c.pointers := by rw [hv.pointers]
  refine ⟨_, _, _, .pointers (.setPointers ?_ (.done _ _)), ?_, rfl, rfl⟩
  · rw [hv.pointers]
    exact hmark
  · rw [hg]
    exact hv.setPointers _

/-! ## Tree blocks -/

/-- A tree block is read. -/
theorem acts_loadNode {n : Node} (hrole : role ≠ .header) (hcell : c.cells pos = some (.node n)) :
    Acts l (loadNode l role pos) c fun r d => r = .ok n ∧ d = c := by
  intro v hv
  obtain ⟨image, hblock, -, hdecode⟩ := hv.held pos _ hcell
  have hnull := BlockPos.isNull_eq_false (hv.ne_null hcell)
  refine ⟨.ok n, v.hold role pos, c, ?_, hv.hold role pos, rfl, rfl⟩
  have hload : loadNode l role pos = load role pos true (view role fun image =>
      ofExcept (Node.decode l pos image)) := by
    unfold loadNode
    rw [hnull]
    rfl
  rw [hload]
  refine .load hrole hblock (.view hrole (by simp [View.hold]) hblock ?_)
  rw [show Node.decode l pos image = .ok n from hdecode]
  exact .done _ _

/-- A tree block is written, whatever was there. -/
theorem acts_storeNode {n : Node} {cell : Cell} (hrole : role ≠ .header)
    (hcell : c.cells pos = some cell) (hkey : 1 ≤ l.keyLength) (hn : n.Storable l)
    (hfits : n.fits l) :
    Acts l (storeNode l role pos n) c fun r d => r = .ok () ∧ d = c.put pos (.node n) := by
  intro v hv
  obtain ⟨old, hblock, hlen, -⟩ := hv.held pos _ hcell
  obtain ⟨image, hencode, hlen', hdecode⟩ := Node.encode_eq_ok hkey hn hfits
  have hput : (c.put pos (.node n)).Shown l ((v.hold role pos).put pos image) :=
    (hv.hold role pos).put (hv.ne_null hcell) hlen' (hdecode pos)
  refine ⟨.ok (), _, _, ?_, hput, rfl, rfl⟩
  refine .load hrole hblock (.edit hrole (by simp [View.hold]) hblock
    ?_ hlen' (.done _ _))
  simp [Edit.replace, hlen, hencode]

/-! ## Free space -/

/-- The first deleted block is taken. -/
theorem acts_allocate_reuse {f : BlockPos → Program β} {next : BlockPos} (hrole : role ≠ .header)
    (hcell : c.cells c.pointers.freeHead = some (.deleted next))
    (hf : ActsHolding l role c.pointers.freeHead (f c.pointers.freeHead) (c.reuse next) R) :
    Acts l (allocate l role >>= f) c R := by
  intro v hv
  obtain ⟨old, hblock, hlen, hdecode⟩ := hv.held _ _ hcell
  have hnull := BlockPos.isNull_eq_false (hv.ne_null hcell)
  have hput : (c.put c.pointers.freeHead .blank).Shown l ((v.hold role c.pointers.freeHead).put
      c.pointers.freeHead (List.replicate old.length filler)) :=
    (hv.hold role _).put (hv.ne_null hcell) (List.length_replicate.trans hlen) trivial
  obtain ⟨r, w, d, hruns, hw, hr⟩ := hf _
    (hput.setPointers { c.pointers with freeHead := next }) (by simp [View.hold, View.put])
  refine ⟨r, w, d, .bind (a := c.pointers.freeHead) ?_ hruns, hw, hr⟩
  rw [allocate_eq]
  refine .pointers ?_
  simp only [hv.pointers, hnull, Bool.false_eq_true, if_false]
  refine .load hrole hblock (.view hrole (by simp [View.hold]) hblock ?_)
  rw [show Deleted.decode l c.pointers.freeHead old = .ok next from hdecode]
  refine .edit hrole (by simp [View.hold]) hblock rfl
    (List.length_replicate.trans hlen) (.setPointers ?_ (.done _ _))
  exact Nat.le_of_eq (congrArg (·.highWater.offset) hv.pointers)

/-- Without deleted blocks the file grows. -/
theorem acts_allocate_extend {f : BlockPos → Program β} (hrole : role ≠ .header)
    (hfree : c.pointers.freeHead = .null)
    (hroom : c.pointers.highWater.offset + l.blockSize ≤ l.maxRecord)
    (haligned : l.blockSize ∣ c.pointers.highWater.offset) (hsize : 0 < l.blockSize)
    (hbound : l.maxRecord + l.blockSize < Store.offsetBound)
    (hf : ActsHolding l role (c.pointers.highWater.following l.blockSize)
      (f (c.pointers.highWater.following l.blockSize)) (c.extend l) R) :
    Acts l (allocate l role >>= f) c R := by
  intro v hv
  have hne : c.pointers.highWater.following l.blockSize ≠ .null := by
    intro h
    have := congrArg BlockPos.offset h
    simp only [BlockPos.following, BlockPos.null] at this
    omega
  have hput : (c.put (c.pointers.highWater.following l.blockSize) .blank).Shown l
      ((v.hold role (c.pointers.highWater.following l.blockSize)).put
        (c.pointers.highWater.following l.blockSize) (List.replicate l.blockSize filler)) :=
    (hv.hold role _).put hne List.length_replicate trivial
  obtain ⟨r, w, d, hruns, hw, hr⟩ := hf _ (hput.setPointers { c.pointers with
    highWater := c.pointers.highWater.following l.blockSize }) (by simp [View.hold, View.put])
  refine ⟨r, w, d, .bind (a := c.pointers.highWater.following l.blockSize) ?_ hruns, hw, hr⟩
  rw [allocate_eq]
  refine .pointers ?_
  have hnot : ¬(c.pointers.highWater.following l.blockSize).offset > l.maxRecord :=
    Nat.not_lt_of_le hroom
  simp only [hv.pointers, hfree, if_neg hnot]
  refine .fresh hrole (Nat.dvd_add haligned (Nat.dvd_refl _)) ?_ ?_ (fun old hold => ?_)
    List.length_replicate (.setPointers ?_ (.done _ _))
  · simp only [BlockPos.following]
    omega
  · rw [hv.pointers]
    exact Nat.lt_add_of_pos_right hsize
  · rw [← hold]
    rfl
  · show v.pointers.highWater.offset ≤ _
    rw [hv.pointers]
    exact Nat.le_add_right _ _

/-- The file does not grow behind the positions that can be written. -/
theorem acts_allocate_full {f : BlockPos → Program β} (hfree : c.pointers.freeHead = .null)
    (hroom : l.maxRecord < c.pointers.highWater.offset + l.blockSize)
    (hf : R (.error (.internal .sizeLimit)) c) : Acts l (allocate l role >>= f) c R := by
  intro v hv
  refine ⟨_, v, c, .bind_error ?_, hv, hf⟩
  rw [allocate_eq]
  refine .pointers ?_
  have hfull : (c.pointers.highWater.following l.blockSize).offset > l.maxRecord := hroom
  simp only [hv.pointers, hfree, if_pos hfull]
  exact .fail _ _

/-- A block is put on the chain of deleted blocks. -/
theorem acts_free {cell : Cell} (hrole : role ≠ .header) (hcell : c.cells pos = some cell)
    (hhead : c.pointers.freeHead.offset ≤ l.maxRecord)
    (hsize : 1 + l.positionWidth + l.endSize ≤ l.blockSize) :
    Acts l (free l role pos) c fun r d => r = .ok () ∧ d = c.release pos := by
  intro v hv
  obtain ⟨old, hblock, hlen, -⟩ := hv.held pos _ hcell
  have hnull := BlockPos.isNull_eq_false (hv.ne_null hcell)
  obtain ⟨image, hstamp, hlen', hdecode⟩ := Deleted.stamp_eq_ok hhead (hlen.symm ▸ hsize)
  have hput : (c.put pos (.deleted c.pointers.freeHead)).Shown l ((v.hold role pos).put pos image) :=
    (hv.hold role pos).put (hv.ne_null hcell) (hlen'.trans hlen) (hdecode pos)
  refine ⟨_, _, _, ?_, hput.setPointers { c.pointers with freeHead := pos }, rfl, rfl⟩
  rw [free_eq, hnull]
  refine .pointers ?_
  simp only [hv.pointers]
  refine .load hrole hblock (.edit hrole (by simp [View.hold]) hblock hstamp
    (hlen'.trans hlen) (.setPointers ?_ (.done _ _)))
  exact Nat.le_of_eq (congrArg (·.highWater.offset) hv.pointers)

/-- A deleted block is read. -/
theorem acts_loadDeleted {f : BlockPos → Program β} {next : BlockPos} (hrole : role ≠ .header)
    (hcell : c.cells pos = some (.deleted next)) (hf : Acts l (f next) c R) :
    Acts l (do
      loadBlock role pos
      let next ← Deleted.decode l pos (← image role)
      f next) c R := by
  intro v hv
  obtain ⟨image, hblock, -, hdecode⟩ := hv.held _ _ hcell
  obtain ⟨r, w, d, hruns, hw, hr⟩ := hf _ (hv.hold role pos)
  refine ⟨r, w, d, .load hrole hblock (.view hrole (by simp [View.hold]) hblock ?_), hw, hr⟩
  show (ofExcept (Deleted.decode l pos image) >>= f : Program β).Runs _ _ r w
  rw [show Deleted.decode l pos image = .ok next from hdecode]
  exact hruns

/-! ## Slot blocks -/

/-- A slot block is read, and stays held. -/
theorem acts_loadSlots {f : Slots → Program β} {s : Slots} (hcell : c.cells pos = some (.slots s))
    (hf : ActsHolding l .current pos (f s) c R) : Acts l (loadSlots l pos >>= f) c R := by
  intro v hv
  obtain ⟨image, hblock, -, hhead, hdecode⟩ := hv.held pos _ hcell
  obtain ⟨r, w, d, hruns, hw, hr⟩ := hf _ (hv.hold .current pos) (by simp [View.hold])
  refine ⟨r, w, d, .bind (a := s) ?_ hruns, hw, hr⟩
  have hload : loadSlots l pos = load .current pos true (view .current fun image =>
      if image.head? ≠ some BlockKind.slots.tag then fail (.corrupt (.notSlotBlock pos))
      else ofExcept (Slots.decode l image)) := rfl
  rw [hload]
  have hrole : Role.current ≠ .header := Role.current_ne
  refine .load hrole hblock (.view hrole (by simp [View.hold]) hblock ?_)
  rw [if_neg (by simpa using hhead), hdecode]
  exact .done _ _

/-- A slot block that is held is written. -/
theorem acts_storeSlots {f : Unit → Program β} {s : Slots} {cell : Cell}
    (hcell : c.cells pos = some cell) (hnext : s.next.offset ≤ l.maxRecord)
    (hrecords : ∀ r ∈ s.records, r ≤ l.maxRecord) (hfits : l.fits (s.encodedSize l))
    (hf : Acts l (f ()) (c.put pos (.slots s)) R) :
    ActsHolding l .current pos (storeSlots l s >>= f) c R := by
  intro v hv hheld
  obtain ⟨old, hblock, hlen, -⟩ := hv.held pos _ hcell
  obtain ⟨image, hencode, hlen', hhead, hdecode⟩ := Slots.encode_eq_ok hnext hrecords hfits
  have hput : (c.put pos (.slots s)).Shown l (v.put pos image) :=
    hv.put (hv.ne_null hcell) hlen' ⟨hhead, hdecode⟩
  obtain ⟨r, w, d, hruns, hw, hr⟩ := hf _ hput
  refine ⟨r, w, d, .bind (a := ()) (.edit nofun hheld hblock ?_ hlen' (.done _ _)) hruns, hw, hr⟩
  simp [Edit.replace, hlen, hencode]

/-- What cannot be written leaves the block as it was. -/
theorem acts_storeSlots_refused {f : Unit → Program β} {s : Slots} {cell : Cell} {e : Error}
    (hcell : c.cells pos = some cell) (hencode : s.encode l l.blockSize = .error e)
    (hf : R (.error e) c) : ActsHolding l .current pos (storeSlots l s >>= f) c R := by
  intro v hv hheld
  obtain ⟨old, hblock, hlen, -⟩ := hv.held pos _ hcell
  have hchange : Edit.replace (fun size => s.encode l size) old = (old, .error e) := by
    simp [Edit.replace, hlen, hencode]
  refine ⟨_, _, c, .bind_error (.refused nofun hheld hblock hchange hlen), ?_, hf⟩
  rw [View.put_same hblock]
  exact hv

end Program

end PagedIndex
