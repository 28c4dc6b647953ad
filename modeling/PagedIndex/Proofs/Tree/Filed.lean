import Mathlib.Control.Monad.Basic
import PagedIndex.Proofs.Session.Transact
import PagedIndex.Proofs.Tree.Plan

/-!
# Trees in files

A file is as planned if its blocks, wherever the cache and the store keep them, show a board that is
as planned. A call on it is told by what its program does to plans.

## Main definitions

* `Tree.Filed` — a file as planned, between two calls.
* `Tree.Revises` — what a program makes of a plan.
* `Plan.spare` — how many blocks can be taken.
* `Mount.pointers` — the chain pointers in the header block.
* `Board.ofCells`, `Contents.view` — blocks in a row, and what a volume shows of them.

## Main statements

* `Tree.filed_loaded` — a memory area whose blocks are as planned is a file as planned.
* `Tree.Filed.transact_ends` — a call makes of a file what its program makes of a plan.
-/

namespace PagedIndex

namespace Plan

/-- How many blocks can be taken before the file reaches its largest size. -/
def spare (l : Layout) (p : Plan) : Nat :=
  p.free.length + (l.maxRecord - l.blockSize *
    (p.blocks.length + (p.free.length + p.slots.length))) / l.blockSize

variable {l : Layout} {c : Board} {p : Plan} {v : View}

theorem Holds.spare_eq (h : p.Holds l c) (hl : l.Workable) : c.spare l p.free = p.spare l := by
  unfold Board.spare
  rw [h.highWater_eq hl]
  rfl

theorem Holds.root_le (h : p.Holds l c) : c.pointers.root.offset ≤ l.maxRecord := by
  obtain ⟨levels, tree, free, slots⟩ := p
  cases tree with
  | none =>
    rw [h.tree.2]
    exact Nat.zero_le _
  | some x =>
    obtain ⟨depth, -, honBoard, -, hroot⟩ := h.tree
    rw [hroot]
    exact h.ledger.offset_le (List.mem_append_left _ honBoard.pos_mem)

/-- An empty tree is one without entries, and has no root. -/
theorem Holds.root_eq_null_iff (h : p.Holds l c) :
    c.pointers.root = .null ↔ p.entries = [] := by
  obtain ⟨levels, tree, free, slots⟩ := p
  cases tree with
  | none => exact iff_of_true h.tree.2 rfl
  | some x =>
    obtain ⟨depth, -, honBoard, hfull, hroot⟩ := h.tree
    rw [hroot]
    refine iff_of_false ?_ (honBoard.entries_ne_nil hfull)
    exact h.ledger.ne_null (List.mem_append_left _ honBoard.pos_mem)

/-- What a board as planned shows can be saved. -/
theorem Holds.settled (h : p.Holds l c) (hl : l.Workable) (hc : c.Shown l v) :
    v.Settled l.format l.blockSize := by
  refine ⟨?_, fun q x hq => ?_, ?_⟩
  · rw [hc.pointers]
    simp only [Pointers.fields, List.forall_mem_cons, List.not_mem_nil, false_implies,
      implies_true, and_true]
    refine ⟨?_, h.ledger.slotHead_le, h.root_le, h.ledger.limit⟩
    refine h.ledger.deleted.offset_le fun q hq => h.ledger.offset_le ?_
    exact List.mem_append_right _ (List.mem_append_left _ hq)
  · have hsome : (c.cells q).isSome := by
      rw [Option.isSome_iff_ne_none]
      intro hnone
      rw [hc.vacant q hnone] at hq
      cases hq
    rw [hc.pointers]
    exact ((h.ledger.whole q).mp ((h.ledger.cells q).mp hsome)).2.2
  · have hlimit := h.ledger.limit
    have hbound := hl.bound
    rw [hc.pointers]
    omega

end Plan

/-! ## Blocks in a row -/

section Row

variable {l : Layout} {cells : List Cell} {pointers : Pointers} {p : BlockPos} {cell : Cell}
  {used free : List BlockPos} {slots : List (BlockPos × List Nat)} {c : Contents}

/-- Where the first blocks behind the header start. -/
def Layout.places (l : Layout) (count : Nat) : List BlockPos :=
  (List.range count).map fun i => ⟨l.blockSize * (i + 1)⟩

theorem Layout.mem_places {count : Nat} (hpos : 0 < l.blockSize) :
    p ∈ l.places count ↔ p ≠ .null ∧ l.blockSize ∣ p.offset ∧ p.offset ≤ l.blockSize * count := by
  simp only [places, List.mem_map, List.mem_range]
  constructor
  · rintro ⟨i, hi, rfl⟩
    refine ⟨fun h => ?_, Nat.dvd_mul_right _ _, Nat.mul_le_mul_left _ hi⟩
    have hzero : l.blockSize * (i + 1) = 0 := congrArg BlockPos.offset h
    have hle : l.blockSize ≤ l.blockSize * (i + 1) := Nat.le_mul_of_pos_right _ (Nat.succ_pos i)
    omega
  · rintro ⟨hnull, ⟨k, hk⟩, hle⟩
    have hle := Nat.le_of_mul_le_mul_left (hk ▸ hle) hpos
    cases k with
    | zero => exact absurd (congrArg BlockPos.mk hk) hnull
    | succ i => exact ⟨i, hle, congrArg BlockPos.mk hk.symm⟩

theorem Layout.nodup_places (hpos : 0 < l.blockSize) (count : Nat) : (l.places count).Nodup :=
  List.pairwise_map.mpr (List.nodup_range.imp fun hne heq =>
    hne (Nat.succ.inj (Nat.eq_of_mul_eq_mul_left hpos (BlockPos.mk.inj heq))))

/-- The board with some cells one behind the other, the first behind the header. -/
def Board.ofCells (l : Layout) (cells : List Cell) (pointers : Pointers) : Board where
  cells p := if p ∈ l.places cells.length then cells[p.offset / l.blockSize - 1]? else none
  pointers := pointers

theorem Board.cells_ofCells (hpos : 0 < l.blockSize) :
    (Board.ofCells l cells pointers).cells p = some cell ↔
      ∃ i, p = ⟨l.blockSize * (i + 1)⟩ ∧ cells[i]? = some cell := by
  simp only [ofCells, Layout.places, List.mem_map, List.mem_range]
  constructor
  · intro h
    split at h
    · next hp =>
      obtain ⟨i, -, rfl⟩ := hp
      rw [Nat.mul_div_cancel_left _ hpos, Nat.add_sub_cancel] at h
      exact ⟨i, rfl, h⟩
    · cases h
  · rintro ⟨i, rfl, hi⟩
    rw [if_pos ⟨i, (List.getElem?_eq_some_iff.mp hi).1, rfl⟩, Nat.mul_div_cancel_left _ hpos,
      Nat.add_sub_cancel]
    exact hi

theorem Board.isSome_ofCells (hpos : 0 < l.blockSize) :
    ((Board.ofCells l cells pointers).cells p).isSome ↔ p ∈ l.places cells.length := by
  rw [Option.isSome_iff_exists]
  simp only [cells_ofCells hpos, Layout.places, List.mem_map, List.mem_range]
  constructor
  · rintro ⟨cell, i, rfl, hi⟩
    exact ⟨i, (List.getElem?_eq_some_iff.mp hi).1, rfl⟩
  · rintro ⟨i, hi, rfl⟩
    exact ⟨_, i, rfl, List.getElem?_eq_getElem hi⟩

theorem Board.ofCells_nil : Board.ofCells l [] pointers = ⟨fun _ => none, pointers⟩ := by
  simp [ofCells, Layout.places]

/-- Each block of such a board is for something. -/
theorem Ledger.ofCells (hpos : 0 < l.blockSize)
    (hall : (used ++ (free ++ slots.map Prod.fst)).Perm (l.places cells.length))
    (hmark : pointers.highWater.offset = l.blockSize * cells.length)
    (hlimit : pointers.highWater.offset ≤ l.maxRecord)
    (hdeleted : Chain id (Board.ofCells l cells pointers).Deleted pointers.freeHead free)
    (hlisted : Chain Prod.fst (Board.ofCells l cells pointers).Lists pointers.slotHead slots)
    (hrecords : ∀ s ∈ slots, s.2 ≠ [] ∧ (∀ r ∈ s.2, r ≤ l.maxRecord) ∧
      l.fits (1 + l.positionWidth * (1 + s.2.length))) :
    Ledger l (Board.ofCells l cells pointers) used free slots where
  nodup := (Layout.nodup_places hpos _).perm hall.symm
  whole q := by rw [hall.mem_iff, Layout.mem_places hpos, ← hmark]; rfl
  aligned := ⟨_, hmark⟩
  limit := hlimit
  cells q := (Board.isSome_ofCells hpos).trans hall.mem_iff.symm
  deleted := hdeleted
  listed := hlisted
  records := hrecords

instance (l : Layout) (pos : BlockPos) : (cell : Cell) → (image : Bytes) →
    Decidable (cell.Shown l pos image)
  | .node n, image => inferInstanceAs (Decidable (Node.decode l pos image = .ok n))
  | .deleted next, image => inferInstanceAs (Decidable (Deleted.decode l pos image = .ok next))
  | .slots s, image => inferInstanceAs
      (Decidable (image.head? = some BlockKind.slots.tag ∧ Slots.decode l image = .ok s))
  | .blank, _ => instDecidableTrue

/-- What the first blocks of a volume hold. -/
def Contents.view (c : Contents) (l : Layout) (count : Nat) : View where
  blocks p := if p ∈ l.places count then some (c.read p.offset l.blockSize) else none
  held _ := none
  pointers := Pointers.read l.format (c.read 0 l.blockSize)

theorem Contents.blocks_view {count : Nat} {x : Bytes} :
    (c.view l count).blocks p = some x ↔ p ∈ l.places count ∧ c.read p.offset l.blockSize = x := by
  simp [view]

theorem Contents.length_read_place {count : Nat} (hpos : 0 < l.blockSize)
    (hsize : l.blockSize * (count + 1) ≤ c.size) (hp : p ∈ l.places count) :
    (c.read p.offset l.blockSize).length = l.blockSize := by
  have hle := ((Layout.mem_places hpos).mp hp).2.2
  rw [Nat.mul_succ] at hsize
  rw [length_read]
  omega

/-- A volume shows a board if each of its blocks holds the cell in its place. -/
theorem Board.shown_view (hpos : 0 < l.blockSize) (hsize : l.blockSize * (cells.length + 1) ≤ c.size)
    (hcells : ∀ i (hi : i < cells.length), cells[i].Shown l ⟨l.blockSize * (i + 1)⟩
      (c.read (l.blockSize * (i + 1)) l.blockSize)) :
    (Board.ofCells l cells (c.view l cells.length).pointers).Shown l (c.view l cells.length) where
  pointers := rfl
  header := by
    rw [← Option.not_isSome_iff_eq_none, isSome_ofCells hpos, Layout.mem_places hpos]
    exact fun h => h.1 rfl
  held q cell hq := by
    have hplace := (isSome_ofCells hpos).mp (Option.isSome_of_eq_some hq)
    obtain ⟨i, rfl, hi⟩ := (cells_ofCells hpos).mp hq
    obtain ⟨hlt, rfl⟩ := List.getElem?_eq_some_iff.mp hi
    exact ⟨_, Contents.blocks_view.mpr ⟨hplace, rfl⟩, Contents.length_read_place hpos hsize hplace,
      hcells i hlt⟩
  vacant q hq := by
    rw [← Option.not_isSome_iff_eq_none, isSome_ofCells hpos] at hq
    exact if_neg hq

/-- A cache that has just taken up a memory area finds its blocks. -/
theorem Session.blocksAs_view {count : Nat} (refusal : Access → Nat → Option IoCause)
    (hpos : 0 < l.blockSize) (hsize : l.blockSize * (count + 1) ≤ c.size)
    (hsettled : (c.view l count).Settled l.format l.blockSize) :
    Session.BlocksAs (Session.memoryMount l.blockSize) l.format (c.view l count)
      (Session.loaded c refusal) := by
  rw [Nat.mul_succ] at hsize
  refine blocksAs_loaded hpos (by omega) hsettled rfl fun p x hp => ?_
  obtain ⟨hplace, hread⟩ := Contents.blocks_view.mp hp
  obtain ⟨hnull, hdvd, hle⟩ := (Layout.mem_places hpos).mp hplace
  exact ⟨hnull, hdvd, by omega, hread⟩

end Row

/-- The chain pointers in the header block. -/
def Mount.pointers (m : Mount) (format : Format) (s : Buffered) : Pointers :=
  Pointers.read format ((m.content s .null).getD [])

namespace Tree

/-- A file as planned, between two calls. -/
structure Filed (t : Tree) (m : Mount) (p : Plan) (s : Buffered) : Prop where
  workable : t.layout.Workable
  size : t.layout.blockSize = m.blockSize
  held : ∃ v c, Session.ReliableBlocksAs m t.layout.format v s ∧ c.Shown t.layout v ∧ p.Holds t.layout c
  ascending : t.Ascending p.entries

variable {t : Tree} {m : Mount} {p : Plan} {s : Buffered} {α : Type}

/-- The header block of a file as planned has the pointers of a board as planned. -/
theorem Filed.exists_board (h : t.Filed m p s) :
    ∃ c : Board, p.Holds t.layout c ∧ m.pointers t.layout.format s = c.pointers := by
  obtain ⟨v, c, hreliableBlocksAs, hc, hp⟩ := h.held
  obtain ⟨x, hx, hread⟩ := hreliableBlocksAs.saved
  refine ⟨c, hp, ?_⟩
  unfold Mount.pointers
  rw [hx, ← hc.pointers]
  exact hread

/-- A board without cells is one of an empty tree. -/
theorem holds_empty (l : Layout) : Plan.Holds l ⟨fun _ => none, {}⟩ ⟨0, none, [], []⟩ := by
  have hnone : ∀ q : BlockPos, q ∈ ([] : List BlockPos) ↔
      q ≠ .null ∧ l.blockSize ∣ q.offset ∧ q.offset ≤ 0 := by
    intro q
    refine iff_of_false List.not_mem_nil fun hq => hq.1 ?_
    exact congrArg BlockPos.mk (Nat.le_zero.mp hq.2.2)
  refine ⟨⟨rfl, rfl⟩, ⟨List.nodup_nil, hnone, Nat.dvd_zero _, Nat.zero_le _, fun q => ?_, rfl, rfl,
    nofun⟩, nofun⟩
  exact iff_of_false nofun List.not_mem_nil

theorem shown_empty (l : Layout) :
    Board.Shown l ⟨fun _ => none, {}⟩ ⟨fun _ => none, fun _ => none, {}⟩ :=
  ⟨rfl, rfl, nofun, fun _ _ => rfl⟩

/-- A memory area whose blocks are as planned, for a cache that has just taken it up. -/
theorem filed_loaded {c : Contents} (cells : List Cell) (hl : t.layout.Workable)
    (hsize : t.layout.blockSize * (cells.length + 1) ≤ c.size)
    (hcells : ∀ i (hi : i < cells.length), cells[i].Shown t.layout ⟨t.layout.blockSize * (i + 1)⟩
      (c.read (t.layout.blockSize * (i + 1)) t.layout.blockSize))
    (hp : p.Holds t.layout (Board.ofCells t.layout cells (c.view t.layout cells.length).pointers))
    (hasc : t.Ascending p.entries) :
    t.Filed (Session.memoryMount t.layout.blockSize) p (Session.loaded c fun _ _ => none) := by
  have hpos := hl.blockSize_pos
  have hshown := Board.shown_view hpos hsize hcells
  have hblocksAs := Session.blocksAs_view (fun _ _ => none) hpos hsize (hp.settled hl hshown)
  refine ⟨hl, rfl, ⟨_, _, hblocksAs.reliableBlocksAs (fun i b hb => ?_) ⟨fun _ _ => rfl, rfl,
    .inl rfl⟩, hshown, hp⟩, hasc⟩
  rw [Session.buffer?_loaded] at hb
  cases hb

/-- What a program makes of a plan: another one of which `P` holds with the value, or an error of
which `E` holds. -/
def Revises (t : Tree) (p : Plan) (program : Program α) (P : α → Plan → Prop) (E : Error → Prop) :
    Prop :=
  ∀ c, p.Holds t.layout c → Program.Acts t.layout program c fun r d =>
    (∃ a p', r = .ok a ∧ p'.Holds t.layout d ∧ t.Ascending p'.entries ∧ P a p') ∨
      ∃ e, r = .error e ∧ E e

theorem Revises.mono {program : Program α} {P Q : α → Plan → Prop} {E F : Error → Prop}
    (h : t.Revises p program P E) (hPQ : ∀ a p', P a p' → Q a p') (hEF : ∀ e, E e → F e) :
    t.Revises p program Q F := by
  intro c hp
  refine (h c hp).mono ?_
  rintro r d (⟨a, p', rfl, hp', hasc, hP⟩ | ⟨e, rfl, hE⟩)
  · exact .inl ⟨a, p', rfl, hp', hasc, hPQ a p' hP⟩
  · exact .inr ⟨e, rfl, hEF e hE⟩

/-- What a call makes of a file: it ends well and the file is as in the new plan, or it fails and
the file is as it was. -/
def Turns (t : Tree) (m : Mount) (p : Plan) (P : α → Plan → Prop) (E : Error → Prop)
    (r : Except Error (α × Except Error Unit)) (s : Buffered) : Prop :=
  (∃ a p', r = .ok (a, .ok ()) ∧ t.Filed m p' s ∧ P a p') ∨
    ∃ e, r = .error e ∧ t.Filed m p s ∧ E e

/-- A call makes of a file what its program makes of a plan. -/
theorem Filed.transact_ends {program : Program α} {P : α → Plan → Prop} {E : Error → Prop}
    (h : t.Filed m p s) (locked : Bool) (mode : EndMode) (hrevises : t.Revises p program P E) :
    Ends (Session.transact m.file t.layout locked mode program) s (t.Turns m p P E) := by
  obtain ⟨v, c, hreliableBlocksAs, hc, hp⟩ := h.held
  obtain ⟨r, w, d, hruns, hw, hend⟩ := hrevises c hp { v with held := fun _ => none }
    ⟨hc.pointers, hc.header, hc.held, hc.vacant⟩
  have hwidth : 1 + 4 * t.layout.format.positionWidth ≤ m.blockSize := by
    have := h.workable.room
    unfold Layout.positionWidth at this
    rw [← h.size]
    omega
  refine (Session.transact_ends locked mode hreliableBlocksAs h.size hwidth (h.size ▸ hruns) ?_).mono ?_
  · rintro a rfl
    obtain ⟨b, p', -, hp', -⟩ | ⟨e, hr, -⟩ := hend
    · exact h.size ▸ hp'.settled h.workable hw
    · cases hr
  · intro o s' hcalled
    obtain ⟨a, p', rfl, hp', hasc, ha⟩ | ⟨e, rfl, he⟩ := hend
    · obtain ⟨ho, hreliableBlocksAs'⟩ := hcalled.ok a rfl
      exact .inl ⟨a, p', ho, ⟨h.workable, h.size, ⟨w, d, hreliableBlocksAs', hw, hp'⟩, hasc⟩, ha⟩
    · obtain ⟨ho, hreliableBlocksAs'⟩ := hcalled.error e rfl
      exact .inr ⟨e, ho, ⟨h.workable, h.size, ⟨v, c, hreliableBlocksAs', hc, hp⟩, h.ascending⟩, he⟩

end Tree

end PagedIndex
