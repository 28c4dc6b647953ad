import PagedIndex.Proofs.Tree.Board

/-!
# What the blocks of a file are for

Behind the header every block of a file is in use, or on the chain of deleted blocks, or on the
chain of slot blocks, and is there once. Blocks in use are told as a list; its order does not
matter.

## Main definitions

* `BlockPos.upTo` — the places where blocks start.
* `Chain` — what a chain of links runs through.
* `Ledger` — what each block of a board is for.
* `Board.spare` — how many blocks can be taken.
* `FreeLists` — record positions in the order of their blocks.

## Main statements

* `Ledger.acts_allocate`, `Ledger.acts_free` — blocks are taken and given back.
* `Ledger.acts_popSlot`, `Ledger.acts_pushSlot` — so are record positions.
-/

namespace PagedIndex

/-- Whether block geometry is one that files may have. -/
structure Layout.Workable (l : Layout) : Prop where
  roomy : l.Roomy
  small : l.blockSize ≤ maxBlockSize

namespace Layout.Workable

variable {l : Layout}

theorem six_le_positionWidth : 6 ≤ l.positionWidth := by
  unfold Layout.positionWidth
  cases l.format <;> decide

theorem room (h : l.Workable) : 2 + 4 * l.positionWidth ≤ l.blockSize :=
  Layout.room_of_minBlockSize_le h.roomy.2

theorem blockSize_pos (h : l.Workable) : 0 < l.blockSize := by
  have := h.room
  omega

theorem bound (h : l.Workable) : l.maxRecord + l.blockSize < Store.offsetBound := by
  have hmax : l.maxRecord ≤ 0x7FFFFFFFFFFF := by
    unfold Layout.maxRecord
    cases l.format <;> decide
  have := h.small
  unfold maxBlockSize at this
  unfold Store.offsetBound
  omega

end Layout.Workable

/-! ## Positions -/

/-- The places where blocks of `size` bytes start, up to a mark. -/
def BlockPos.upTo (size mark : Nat) : List BlockPos :=
  (List.range (mark / size + 1)).map fun i => ⟨size * i⟩

section UpTo

variable {size mark : Nat} {p : BlockPos}

@[simp]
theorem BlockPos.length_upTo : (upTo size mark).length = mark / size + 1 := by
  simp [upTo]

theorem BlockPos.mem_upTo (hsize : 0 < size) :
    p ∈ upTo size mark ↔ size ∣ p.offset ∧ p.offset ≤ mark := by
  simp only [upTo, List.mem_map, List.mem_range, Nat.lt_succ_iff, Nat.le_div_iff_mul_le hsize]
  constructor
  · rintro ⟨i, hi, rfl⟩
    exact ⟨Nat.dvd_mul_right _ _, Nat.mul_comm _ _ ▸ hi⟩
  · rintro ⟨⟨i, hi⟩, hle⟩
    exact ⟨i, Nat.mul_comm _ _ ▸ hi ▸ hle, congrArg BlockPos.mk hi.symm⟩

theorem BlockPos.nodup_upTo (hsize : 0 < size) (mark : Nat) : (upTo size mark).Nodup :=
  List.pairwise_map.mpr (List.nodup_range.imp fun hne heq =>
    hne (Nat.eq_of_mul_eq_mul_left hsize (BlockPos.mk.inj heq)))

end UpTo

/-! ## Chains -/

section Chain

variable {α : Type}

/-- The links that start at `head` run through the blocks of a list, to the null link. -/
def Chain (pos : α → BlockPos) (links : α → BlockPos → Prop) : BlockPos → List α → Prop
  | head, [] => head = .null
  | head, a :: rest => head = pos a ∧ ∃ next, links a next ∧ Chain pos links next rest

variable {pos : α → BlockPos} {links links' : α → BlockPos → Prop} {head : BlockPos} {as : List α}

theorem Chain.imp (h : Chain pos links head as) (himp : ∀ a ∈ as, ∀ p, links a p → links' a p) :
    Chain pos links' head as := by
  induction as generalizing head with
  | nil => exact h
  | cons a rest ih =>
    obtain ⟨hhead, next, hnext, hrest⟩ := h
    refine ⟨hhead, next, himp a List.mem_cons_self next hnext, ih hrest fun b hb => ?_⟩
    exact himp b (List.mem_cons_of_mem _ hb)

theorem Chain.offset_le {bound : Nat} (h : Chain pos links head as)
    (hpos : ∀ a ∈ as, (pos a).offset ≤ bound) : head.offset ≤ bound := by
  cases as with
  | nil => exact (show head = .null from h) ▸ Nat.zero_le _
  | cons a rest => exact h.1 ▸ hpos a List.mem_cons_self

end Chain

/-- The link of a deleted block. -/
def Board.Deleted (c : Board) (pos next : BlockPos) : Prop := c.cells pos = some (.deleted next)

/-- The record positions and the link of a slot block. -/
def Board.Lists (c : Board) (s : BlockPos × List Nat) (next : BlockPos) : Prop :=
  c.cells s.1 = some (.slots ⟨next, s.2⟩)

section Chains

variable {c d : Board} {head : BlockPos}

theorem Board.deleted_congr {free : List BlockPos} (h : Chain id c.Deleted head free)
    (hcells : ∀ p ∈ free, d.cells p = c.cells p) : Chain id d.Deleted head free :=
  h.imp fun q hq _ hn => (hcells q hq).trans hn

theorem Board.lists_congr {slots : List (BlockPos × List Nat)}
    (h : Chain Prod.fst c.Lists head slots)
    (hcells : ∀ p ∈ slots.map Prod.fst, d.cells p = c.cells p) :
    Chain Prod.fst d.Lists head slots :=
  h.imp fun _ hs _ hn => (hcells _ (List.mem_map_of_mem hs)).trans hn

end Chains

/-! ## Record positions in their blocks -/

/-- The record positions of slot blocks, the first block first. -/
abbrev FreeLists := List (List Nat)

namespace FreeLists

/-- A record position comes last in the first block, if there is room, or else into a new block in
front of it. -/
def put (l : Layout) (record : Nat) : FreeLists → FreeLists
  | [] => [[record]]
  | records :: rest =>
    if Slots.hasRoom l ⟨.null, records⟩ then (records ++ [record]) :: rest
    else [record] :: records :: rest

/-- What is left when the first block has given its oldest position, and keeps `others`. -/
def left (others : List Nat) (rest : FreeLists) : FreeLists :=
  if others = [] then rest else others :: rest

/-- The oldest position of the first block is given, if there is one. -/
def Gives (s : FreeLists) (found : Option Nat) (s' : FreeLists) : Prop :=
  match found with
  | none => s = [] ∧ s' = []
  | some record => ∃ others rest, s = (record :: others) :: rest ∧ s' = left others rest

theorem flatten_put (l : Layout) (record : Nat) (s : FreeLists) :
    (put l record s).flatten.Perm (record :: s.flatten) := by
  cases s with
  | nil => exact .refl _
  | cons records rest =>
    rw [put]
    split
    · rw [List.flatten_cons, List.flatten_cons, List.append_assoc]
      exact List.perm_middle
    · exact .refl _

theorem flatten_left (others : List Nat) (rest : FreeLists) :
    (left others rest).flatten = others ++ rest.flatten := by
  unfold left
  split
  · next h => rw [h, List.nil_append]
  · rfl

theorem Gives.flatten {s s' : FreeLists} {record : Nat} (h : s.Gives (some record) s') :
    s.flatten = record :: s'.flatten := by
  obtain ⟨others, rest, rfl, rfl⟩ := h
  rw [flatten_left]
  rfl

end FreeLists

/-! ## Ledgers -/

/-- How many blocks can be taken before the file reaches its largest size. -/
def Board.spare (l : Layout) (c : Board) (free : List BlockPos) : Nat :=
  free.length + (l.maxRecord - c.pointers.highWater.offset) / l.blockSize

/-- What each block of a board is for. -/
structure Ledger (l : Layout) (c : Board) (used free : List BlockPos)
    (slots : List (BlockPos × List Nat)) : Prop where
  nodup : (used ++ (free ++ slots.map Prod.fst)).Nodup
  /-- All positions up to the last block are accounted for. -/
  whole : ∀ p, p ∈ used ++ (free ++ slots.map Prod.fst) ↔
    p ≠ .null ∧ l.blockSize ∣ p.offset ∧ p.offset ≤ c.pointers.highWater.offset
  aligned : l.blockSize ∣ c.pointers.highWater.offset
  limit : c.pointers.highWater.offset ≤ l.maxRecord
  cells : ∀ p, (c.cells p).isSome ↔ p ∈ used ++ (free ++ slots.map Prod.fst)
  deleted : Chain id c.Deleted c.pointers.freeHead free
  listed : Chain Prod.fst c.Lists c.pointers.slotHead slots
  records : ∀ s ∈ slots, s.2 ≠ [] ∧ (∀ r ∈ s.2, r ≤ l.maxRecord) ∧
    l.fits (1 + l.positionWidth * (1 + s.2.length))

namespace Ledger

variable {l : Layout} {c d : Board} {used used' free : List BlockPos}
  {slots : List (BlockPos × List Nat)} {pos p : BlockPos} {cell : Cell} {role : Role}

theorem perm (h : Ledger l c used free slots) (hp : used.Perm used') :
    Ledger l c used' free slots := by
  have hall := hp.append_right (free ++ slots.map Prod.fst)
  refine ⟨h.nodup.perm hall, fun p => ?_, h.aligned, h.limit, fun p => ?_, h.deleted, h.listed,
    h.records⟩
  · rw [← hall.mem_iff]
    exact h.whole p
  · rw [← hall.mem_iff]
    exact h.cells p

theorem nodup_used (h : Ledger l c used free slots) : used.Nodup :=
  (List.nodup_append.mp h.nodup).1

theorem exists_cell (h : Ledger l c used free slots) (hp : p ∈ used) : ∃ cell, c.cells p = some cell :=
  Option.isSome_iff_exists.mp ((h.cells p).mpr (List.mem_append_left _ hp))

theorem ne_null (h : Ledger l c used free slots)
    (hp : p ∈ used ++ (free ++ slots.map Prod.fst)) : p ≠ .null :=
  ((h.whole p).mp hp).1

theorem offset_le (h : Ledger l c used free slots)
    (hp : p ∈ used ++ (free ++ slots.map Prod.fst)) : p.offset ≤ l.maxRecord :=
  Nat.le_trans ((h.whole p).mp hp).2.2 h.limit

/-- There are as many blocks as positions up to the last one. -/
theorem length_eq (h : Ledger l c used free slots) (hl : l.Workable) :
    used.length + (free.length + slots.length) = c.pointers.highWater.offset / l.blockSize := by
  have hperm : (.null :: (used ++ (free ++ slots.map Prod.fst))).Perm
      (BlockPos.upTo l.blockSize c.pointers.highWater.offset) := by
    refine (List.perm_ext_iff_of_nodup ?_ (BlockPos.nodup_upTo hl.blockSize_pos _)).mpr fun p => ?_
    · exact List.nodup_cons.mpr ⟨fun hnull => h.ne_null hnull rfl, h.nodup⟩
    · rw [List.mem_cons, h.whole, BlockPos.mem_upTo hl.blockSize_pos]
      by_cases hp : p = .null
      · subst hp
        exact iff_of_true (.inl rfl) ⟨Nat.dvd_zero _, Nat.zero_le _⟩
      · simp [hp]
  have hlength := hperm.length_eq
  simp only [List.length_cons, List.length_append, List.length_map, BlockPos.length_upTo] at hlength
  omega

/-- As long as there are as many blocks, the last one stays where it is. -/
theorem highWater_eq {free' : List BlockPos} {slots' : List (BlockPos × List Nat)}
    (h : Ledger l c used free slots) (h' : Ledger l d used' free' slots') (hl : l.Workable)
    (hlength : used.length + (free.length + slots.length) =
      used'.length + (free'.length + slots'.length)) :
    c.pointers.highWater = d.pointers.highWater := by
  rw [h.length_eq hl, h'.length_eq hl] at hlength
  refine congrArg BlockPos.mk ?_
  rw [← Nat.div_mul_cancel h.aligned, hlength, Nat.div_mul_cancel h'.aligned]

/-- A block in use may hold anything. -/
theorem put (h : Ledger l c used free slots) (hpos : pos ∈ used) (cell : Cell) :
    Ledger l (c.put pos cell) used free slots := by
  have hcells : ∀ p ∈ free ++ slots.map Prod.fst, (c.put pos cell).cells p = c.cells p :=
    fun p hp => Board.cells_put_ne fun he =>
      (List.nodup_append.mp h.nodup).2.2 pos hpos p hp he.symm
  refine ⟨h.nodup, h.whole, h.aligned, h.limit, fun p => ?_,
    Board.deleted_congr h.deleted fun p hp => hcells p (List.mem_append_left _ hp),
    Board.lists_congr h.listed fun p hp => hcells p (List.mem_append_right _ hp), h.records⟩
  rw [← h.cells]
  by_cases hp : p = pos
  · subst hp
    obtain ⟨old, hold⟩ := h.exists_cell hpos
    simp [hold]
  · rw [Board.cells_put_ne hp]

/-- Any block may be the root. -/
theorem setRoot (h : Ledger l c used free slots) (root : BlockPos) :
    Ledger l { c with pointers := { c.pointers with root := root } } used free slots :=
  ⟨h.nodup, h.whole, h.aligned, h.limit, h.cells, h.deleted, h.listed, h.records⟩

/-! ## Blocks -/

/-- A block was taken. -/
structure Taken (l : Layout) (c : Board) (used free : List BlockPos)
    (slots : List (BlockPos × List Nat)) (pos : BlockPos) (free' : List BlockPos) (d : Board) :
    Prop where
  ledger : Ledger l d (pos :: used) free' slots
  cells : ∀ p, p ≠ pos → d.cells p = c.cells p
  root : d.pointers.root = c.pointers.root
  slotHead : d.pointers.slotHead = c.pointers.slotHead
  spare : d.spare l free' + 1 = c.spare l free
  /-- It was the first one on the chain, or is the last one now. -/
  source : (free = pos :: free' ∧ d.pointers.highWater = c.pointers.highWater) ∨
    (free = [] ∧ free' = [] ∧ pos = c.pointers.highWater.following l.blockSize ∧
      d.pointers.highWater = pos)

theorem taken_reuse {next : BlockPos} (h : Ledger l c used (pos :: free) slots)
    (hhead : c.pointers.freeHead = pos) (hnext : c.cells pos = some (.deleted next))
    (hrest : Chain id c.Deleted next free) :
    Taken l c used (pos :: free) slots pos free (c.reuse next) := by
  subst hhead
  have hperm : (used ++ (c.pointers.freeHead :: free ++ slots.map Prod.fst)).Perm
      (c.pointers.freeHead :: used ++ (free ++ slots.map Prod.fst)) := by
    simp only [List.cons_append]
    exact List.perm_middle
  have hnew := (List.nodup_cons.mp (h.nodup.perm hperm)).1
  have hcells : ∀ p, p ≠ c.pointers.freeHead → (c.reuse next).cells p = c.cells p :=
    fun p hp => Board.cells_put_ne hp
  have hrest' : ∀ p ∈ free ++ slots.map Prod.fst, (c.reuse next).cells p = c.cells p :=
    fun p hp => hcells p (ne_of_mem_of_not_mem (List.mem_append_right _ hp) hnew)
  refine ⟨⟨h.nodup.perm hperm, fun p => ?_, h.aligned, h.limit, fun p => ?_,
    Board.deleted_congr hrest fun p hp => hrest' p (List.mem_append_left _ hp),
    Board.lists_congr h.listed fun p hp => hrest' p (List.mem_append_right _ hp), h.records⟩,
    hcells, rfl, rfl, ?_, .inl ⟨rfl, rfl⟩⟩
  · rw [← hperm.mem_iff]
    exact h.whole p
  · rw [← hperm.mem_iff, ← h.cells]
    by_cases hp : p = c.pointers.freeHead
    · subst hp
      simp [Board.reuse, hnext]
    · rw [hcells p hp]
  · simp only [Board.spare, List.length_cons, Board.reuse]
    omega

theorem taken_extend (h : Ledger l c used [] slots) (hl : l.Workable)
    (hroom : c.pointers.highWater.offset + l.blockSize ≤ l.maxRecord) :
    Taken l c used [] slots (c.pointers.highWater.following l.blockSize) [] (c.extend l) := by
  have hsize := hl.blockSize_pos
  generalize hpos : c.pointers.highWater.following l.blockSize = pos
  have hoffset : pos.offset = c.pointers.highWater.offset + l.blockSize := by
    rw [← hpos]
    rfl
  have hnew : pos ∉ used ++ ([] ++ slots.map Prod.fst) := by
    intro hmem
    have := ((h.whole pos).mp hmem).2.2
    omega
  have hcells : ∀ p, p ≠ pos → (c.extend l).cells p = c.cells p := by
    rw [← hpos]
    exact fun p hp => Board.cells_put_ne hp
  have hmark : (c.extend l).pointers.highWater = pos := hpos
  have hlisted : ∀ p ∈ slots.map Prod.fst, (c.extend l).cells p = c.cells p :=
    fun p hp => hcells p (ne_of_mem_of_not_mem (List.mem_append_right _ hp) hnew)
  refine ⟨⟨List.nodup_cons.mpr ⟨hnew, h.nodup⟩, fun p => ?_, ?_, ?_, fun p => ?_,
    h.deleted, Board.lists_congr h.listed hlisted, h.records⟩, hcells, rfl, rfl, ?_,
    .inr ⟨rfl, rfl, hpos.symm, hmark⟩⟩
  · rw [List.cons_append, List.mem_cons, h.whole, hmark, hoffset]
    constructor
    · rintro (hp | ⟨hp, ha, hle⟩)
      · rw [hp, hoffset]
        refine ⟨fun he => ?_, Nat.dvd_add h.aligned (Nat.dvd_refl _), Nat.le_refl _⟩
        have : pos.offset = 0 := congrArg BlockPos.offset he
        omega
      · exact ⟨hp, ha, Nat.le_trans hle (Nat.le_add_right _ _)⟩
    · rintro ⟨hp, ha, hle⟩
      rcases Nat.lt_or_ge c.pointers.highWater.offset p.offset with hhigh | hlow
      · have := Nat.le_of_dvd (Nat.sub_pos_of_lt hhigh) (Nat.dvd_sub ha h.aligned)
        exact .inl (congrArg BlockPos.mk (by omega))
      · exact .inr ⟨hp, ha, hlow⟩
  · rw [hmark, hoffset]
    exact Nat.dvd_add h.aligned (Nat.dvd_refl _)
  · rw [hmark, hoffset]
    exact hroom
  · rw [List.cons_append, List.mem_cons, ← h.cells]
    by_cases hp : p = pos
    · simp [hp, ← hpos, Board.extend]
    · simp [hp, hcells p hp]
  · have := Nat.div_eq_sub_div hsize (Nat.le_sub_of_add_le' hroom)
    unfold Board.spare
    rw [hmark, hoffset, this, Nat.sub_add_eq, Nat.add_assoc]

/-- A block is taken for a role, unless the file has reached its largest size. -/
theorem acts_allocate {β : Type} {f : BlockPos → Program β} {R : Except Error β → Board → Prop}
    (h : Ledger l c used free slots) (hl : l.Workable) (hrole : role ≠ .header)
    (hfull : c.spare l free = 0 → R (.error (.internal .sizeLimit)) c)
    (hf : ∀ pos free' d, Taken l c used free slots pos free' d →
      Program.ActsHolding l role pos (f pos) d R) :
    Program.Acts l (Program.allocate l role >>= f) c R := by
  cases free with
  | cons pos free =>
    obtain ⟨hhead, next, hnext, hrest⟩ := h.deleted
    have htaken := taken_reuse h hhead hnext hrest
    have hcell : c.cells c.pointers.freeHead = some (.deleted next) := hhead ▸ hnext
    refine Program.acts_allocate_reuse hrole hcell ?_
    have hgo := hf pos free _ htaken
    rw [show pos = c.pointers.freeHead from hhead.symm] at hgo
    exact hgo
  | nil =>
    have hnull : c.pointers.freeHead = .null := h.deleted
    rcases Nat.lt_or_ge l.maxRecord (c.pointers.highWater.offset + l.blockSize) with hlt | hge
    · refine Program.acts_allocate_full hnull hlt (hfull ?_)
      unfold Board.spare
      rw [List.length_nil, Nat.zero_add, Nat.div_eq_zero_iff]
      omega
    · exact Program.acts_allocate_extend hrole hnull hge h.aligned hl.blockSize_pos hl.bound
        (hf _ _ _ (taken_extend h hl hge))

/-- A block is given back. -/
theorem acts_free (h : Ledger l c (pos :: used) free slots) (hl : l.Workable)
    (hrole : role ≠ .header) : Program.Acts l (Program.free l role pos) c fun r d =>
      r = .ok () ∧ Ledger l d used (pos :: free) slots ∧ (∀ p, p ≠ pos → d.cells p = c.cells p) ∧
        d.pointers.root = c.pointers.root := by
  obtain ⟨cell, hcell⟩ := h.exists_cell List.mem_cons_self
  have hperm : (pos :: used ++ (free ++ slots.map Prod.fst)).Perm
      (used ++ (pos :: free ++ slots.map Prod.fst)) := by
    simp only [List.cons_append]
    exact List.perm_middle.symm
  have hhead : c.pointers.freeHead.offset ≤ l.maxRecord := by
    refine h.deleted.offset_le fun q hq => h.offset_le ?_
    exact List.mem_append_right _ (List.mem_append_left _ hq)
  have hroom : 1 + l.positionWidth + l.endSize ≤ l.blockSize := by
    have := hl.room
    have := Leaf.endSize_le_one (l := l)
    omega
  refine (Program.acts_free hrole hcell hhead hroom).mono ?_
  rintro r d ⟨hr, rfl⟩
  have hcells : ∀ p, p ≠ pos → (c.release pos).cells p = c.cells p :=
    fun p hp => Board.cells_put_ne hp
  have hrest : ∀ p ∈ free ++ slots.map Prod.fst, (c.release pos).cells p = c.cells p :=
    fun p hp => hcells p
      (ne_of_mem_of_not_mem (List.mem_append_right _ hp) (List.nodup_cons.mp h.nodup).1)
  refine ⟨hr, ⟨h.nodup.perm hperm, fun p => ?_, h.aligned, h.limit, fun p => ?_,
    ⟨rfl, _, Board.cells_put_self,
      Board.deleted_congr h.deleted fun p hp => hrest p (List.mem_append_left _ hp)⟩,
    Board.lists_congr h.listed fun p hp => hrest p (List.mem_append_right _ hp), h.records⟩,
    hcells, rfl⟩
  · rw [← hperm.mem_iff]
    exact h.whole p
  · rw [← hperm.mem_iff, ← h.cells]
    by_cases hp : p = pos
    · simp [hp, Board.release, hcell]
    · rw [hcells p hp]

/-! ## Record positions -/

theorem slotHead_le (h : Ledger l c used free slots) : c.pointers.slotHead.offset ≤ l.maxRecord :=
  h.listed.offset_le fun _ hs => h.offset_le
    (List.mem_append_right _ (List.mem_append_right _ (List.mem_map_of_mem hs)))

/-- The first slot block is put to another use. -/
theorem unlist {records : List Nat} {next : BlockPos}
    (h : Ledger l c used free ((pos, records) :: slots))
    (hrest : Chain Prod.fst c.Lists next slots) :
    Ledger l { c with pointers := { c.pointers with slotHead := next } } (pos :: used) free
      slots := by
  have hperm : (used ++ (free ++ ((pos, records) :: slots).map Prod.fst)).Perm
      (pos :: used ++ (free ++ slots.map Prod.fst)) := by
    rw [List.map_cons, ← List.append_assoc, List.cons_append, ← List.append_assoc]
    exact List.perm_middle
  refine ⟨h.nodup.perm hperm, fun p => ?_, h.aligned, h.limit, fun p => ?_, h.deleted, hrest,
    fun s hs => h.records s (List.mem_cons_of_mem _ hs)⟩
  · rw [← hperm.mem_iff]
    exact h.whole p
  · rw [← hperm.mem_iff]
    exact h.cells p

/-- A block in use becomes the first slot block. -/
theorem list {records : List Nat} (h : Ledger l c (pos :: used) free slots)
    (hcell : c.cells pos = some (.slots ⟨c.pointers.slotHead, records⟩)) (hnil : records ≠ [])
    (hrecords : ∀ r ∈ records, r ≤ l.maxRecord)
    (hfits : l.fits (1 + l.positionWidth * (1 + records.length))) :
    Ledger l { c with pointers := { c.pointers with slotHead := pos } } used free
      ((pos, records) :: slots) := by
  have hperm : (pos :: used ++ (free ++ slots.map Prod.fst)).Perm
      (used ++ (free ++ ((pos, records) :: slots).map Prod.fst)) := by
    rw [List.map_cons, ← List.append_assoc, List.cons_append, ← List.append_assoc]
    exact List.perm_middle.symm
  refine ⟨h.nodup.perm hperm, fun p => ?_, h.aligned, h.limit, fun p => ?_, h.deleted,
    ⟨rfl, _, hcell, h.listed⟩, fun s hs => ?_⟩
  · rw [← hperm.mem_iff]
    exact h.whole p
  · rw [← hperm.mem_iff]
    exact h.cells p
  · rcases List.mem_cons.mp hs with rfl | hs
    · exact ⟨hnil, hrecords, hfits⟩
    · exact h.records s hs

/-- The first slot block gets other record positions. -/
theorem relist {records records' : List Nat} {next : BlockPos}
    (h : Ledger l c used free ((pos, records) :: slots))
    (hrest : Chain Prod.fst c.Lists next slots) (hnil : records' ≠ [])
    (hrecords : ∀ r ∈ records', r ≤ l.maxRecord)
    (hfits : l.fits (1 + l.positionWidth * (1 + records'.length))) :
    Ledger l (c.put pos (.slots ⟨next, records'⟩)) used free ((pos, records') :: slots) := by
  have hlist := ((h.unlist hrest).put List.mem_cons_self
    (.slots ⟨next, records'⟩)).list Board.cells_put_self hnil hrecords hfits
  have hhead : c.pointers.slotHead = pos := h.listed.1
  have hsame : ({ c.pointers with slotHead := pos } : Pointers) = c.pointers := by rw [← hhead]
  simpa [Board.put, hsame] using hlist

/-- The oldest record position of the first slot block is taken, and the block is given back when it
was the last one there. -/
theorem acts_popSlot (h : Ledger l c used free slots) (hl : l.Workable) :
    Program.Acts l (Program.popSlot l) c fun r d =>
      (slots = [] ∧ r = .ok none ∧ d = c) ∨ ∃ record free' slots', r = .ok (some record) ∧
        FreeLists.Gives (slots.map Prod.snd) (some record) (slots'.map Prod.snd) ∧
        Ledger l d used free' slots' ∧ (∀ p ∈ used, d.cells p = c.cells p) ∧
        d.pointers.root = c.pointers.root := by
  unfold Program.popSlot
  refine Program.acts_getPointers.bind_ok ?_
  dsimp only
  cases slots with
  | nil =>
    rw [show c.pointers.slotHead = .null from h.listed]
    exact Program.acts_done (.inl ⟨rfl, rfl, rfl⟩)
  | cons s slots =>
    obtain ⟨pos, records⟩ := s
    obtain ⟨hhead, next, hnext, hrest⟩ := h.listed
    obtain ⟨hnil, hrecords, hfits⟩ := h.records _ List.mem_cons_self
    have hpos : pos ≠ .null := h.ne_null (by simp)
    have hne : ∀ p ∈ used, p ≠ pos := fun p hp =>
      (List.nodup_append.mp h.nodup).2.2 p hp pos (by simp)
    rw [hhead, BlockPos.isNull_eq_false hpos, if_neg Bool.false_ne_true]
    refine Program.acts_loadSlots hnext ?_
    match records, hnil with
    | [record], _ =>
      refine Program.Acts.holding (Program.acts_setPointers (Nat.le_refl _) ?_)
      have hfree := (h.unlist hrest).acts_free hl Role.current_ne
      refine hfree.bind (fun e d h => nomatch h.1) ?_
      rintro ⟨⟩ d ⟨-, hledger, hcells, hroot⟩
      refine Program.acts_done
        (.inr ⟨record, _, slots, rfl, ⟨[], _, rfl, rfl⟩, hledger, fun p hp => ?_, hroot⟩)
      exact hcells p (hne p hp)
    | record :: other :: rest, _ =>
      have hfits' : l.fits (1 + l.positionWidth * (1 + (other :: rest).length)) := by
        simp only [Layout.fits, List.length_cons, Nat.mul_add, decide_eq_true_eq] at hfits ⊢
        omega
      have hledger := h.relist hrest (List.cons_ne_nil other rest)
        (fun r hr => hrecords r (List.mem_cons_of_mem _ hr)) hfits'
      refine Program.acts_storeSlots hnext ?_ (fun r hr => hrecords r (List.mem_cons_of_mem _ hr))
        hfits' (Program.acts_done
          (.inr ⟨record, _, _, rfl, ⟨other :: rest, _, rfl, rfl⟩, hledger, fun p hp => ?_, rfl⟩))
      · exact (h.unlist hrest).slotHead_le
      · exact Board.cells_put_ne (hne p hp)

/-- Why a record position is not listed: it cannot be written, or no block is left for it. -/
def Unlisted (l : Layout) (c : Board) (free : List BlockPos) (record : Nat) (r : Except Error Unit) :
    Prop :=
  (r = .error (.invalidKey (.positionTooLarge record l.format)) ∧ l.maxRecord < record) ∨
    (r = .error (.internal .sizeLimit) ∧ c.spare l free = 0)

theorem acts_pushNewSlot {record : Nat} (h : Ledger l c used free slots) (hl : l.Workable) :
    Program.Acts l (Program.pushNewSlot l c.pointers.slotHead record) c fun r d =>
      (r = .ok () ∧ record ≤ l.maxRecord ∧ ∃ free' pos,
        Ledger l d used free' ((pos, [record]) :: slots) ∧
        (∀ p ∈ used, d.cells p = c.cells p) ∧ d.pointers.root = c.pointers.root) ∨
      Unlisted l c free record r := by
  unfold Program.pushNewSlot
  refine h.acts_allocate hl nofun (fun hspare => .inr (.inr ⟨rfl, hspare⟩)) ?_
  intro pos free' d ht
  have hne : ∀ p ∈ used, p ≠ pos := fun p hp =>
    ne_of_mem_of_not_mem hp (List.nodup_cons.mp ht.ledger.nodup_used).1
  obtain ⟨cell, hcell⟩ := ht.ledger.exists_cell List.mem_cons_self
  rcases Nat.lt_or_ge l.maxRecord record with hlt | hge
  · refine Program.acts_storeSlots_refused (e := .invalidKey (.positionTooLarge record l.format))
      hcell ?_ (.inr (.inl ⟨rfl, hlt⟩))
    exact Slots.encode_eq_error l.blockSize h.slotHead_le (List.forall_mem_nil _) hlt
  · have hfits : l.fits (1 + l.positionWidth * (1 + [record].length)) := by
      have := hl.room
      have := Leaf.endSize_le_one (l := l)
      simp only [Layout.fits, List.length_singleton, decide_eq_true_eq]
      omega
    have hrecords : ∀ r ∈ [record], r ≤ l.maxRecord := by simpa using hge
    refine Program.acts_storeSlots hcell (ht.slotHead ▸ ht.ledger.slotHead_le) hrecords hfits ?_
    refine (Program.acts_modifyPointers _ (Nat.le_refl _)).mono ?_
    rintro r e ⟨hr, rfl⟩
    have hput := ht.ledger.put List.mem_cons_self (.slots ⟨c.pointers.slotHead, [record]⟩)
    refine .inl ⟨hr, hge, free', pos,
      hput.list ?_ (List.cons_ne_nil record []) hrecords hfits, fun p hp => ?_, ht.root⟩
    · rw [Board.pointers_put, ht.slotHead]
      exact Board.cells_put_self
    · exact (Board.cells_put_ne (hne p hp)).trans (ht.cells p (hne p hp))

/-- A record position is listed, unless it cannot be written or no block is left for it. -/
theorem acts_pushSlot {record : Nat} (h : Ledger l c used free slots) (hl : l.Workable) :
    Program.Acts l (Program.pushSlot l record) c fun r d =>
      (r = .ok () ∧ record ≤ l.maxRecord ∧ ∃ free' slots', Ledger l d used free' slots' ∧
        slots'.map Prod.snd = FreeLists.put l record (slots.map Prod.snd) ∧
        (∀ p ∈ used, d.cells p = c.cells p) ∧ d.pointers.root = c.pointers.root) ∨
      Unlisted l c free record r := by
  unfold Program.pushSlot
  refine Program.acts_getPointers.bind_ok ?_
  dsimp only
  cases slots with
  | nil =>
    rw [show c.pointers.slotHead.isNull = true from BlockPos.isNull_iff.mpr h.listed, if_pos rfl]
    refine (h.acts_pushNewSlot hl).mono ?_
    rintro r d (⟨hr, hrecord, free', pos, hledger, hcells, hroot⟩ | herror)
    · exact .inl ⟨hr, hrecord, free', _, hledger, rfl, hcells, hroot⟩
    · exact .inr herror
  | cons s slots =>
    obtain ⟨pos, records⟩ := s
    obtain ⟨hhead, next, hnext, hrest⟩ := h.listed
    obtain ⟨hnil, hrecords, hfits⟩ := h.records _ List.mem_cons_self
    have hpos : c.pointers.slotHead ≠ .null := hhead ▸ h.ne_null (by simp)
    have hcell : c.cells c.pointers.slotHead = some (.slots ⟨next, records⟩) := by
      rw [hhead]
      exact hnext
    rw [BlockPos.isNull_eq_false hpos, if_neg Bool.false_ne_true]
    refine Program.acts_loadSlots hcell ?_
    cases hroom : Slots.hasRoom l ⟨next, records⟩ with
    | false =>
      rw [if_neg Bool.false_ne_true]
      refine ((h.acts_pushNewSlot hl).mono ?_).holding
      rintro r d (⟨hr, hrecord, free', pos', hledger, hcells, hroot⟩ | herror)
      · exact .inl ⟨hr, hrecord, free', _, hledger, (if_neg (Bool.eq_false_iff.mp hroom)).symm,
          hcells, hroot⟩
      · exact .inr herror
    | true =>
      rw [if_pos rfl]
      have hlink : next.offset ≤ l.maxRecord := (h.unlist hrest).slotHead_le
      show Program.ActsHolding l .current _ (Program.storeSlots l _ >>= pure) _ _
      rcases Nat.lt_or_ge l.maxRecord record with hlt | hge
      · exact Program.acts_storeSlots_refused hcell
          (Slots.encode_eq_error l.blockSize hlink hrecords hlt) (.inr (.inl ⟨rfl, hlt⟩))
      · have hfits' : l.fits (1 + l.positionWidth * (1 + (records ++ [record]).length)) := by
          rw [List.length_append, ← Nat.add_assoc, Nat.mul_add _ (1 + records.length),
            ← Nat.add_assoc]
          simpa [Slots.hasRoom, Slots.encodedSize] using hroom
        have hrecords' : ∀ r ∈ records ++ [record], r ≤ l.maxRecord := by
          intro r hr
          rcases List.mem_append.mp hr with hr | hr
          · exact hrecords r hr
          · exact List.mem_singleton.mp hr ▸ hge
        have hledger := h.relist hrest (by simp) hrecords' hfits'
        refine Program.acts_storeSlots hcell hlink hrecords' hfits' ?_
        rw [show c.pointers.slotHead = pos from hhead]
        refine Program.acts_pure (.inl ⟨rfl, hge, free, _, hledger, ?_, fun p hp => ?_, rfl⟩)
        · exact (if_pos hroom).symm
        · exact Board.cells_put_ne ((List.nodup_append.mp h.nodup).2.2 p hp pos (by simp))

end Ledger

end PagedIndex
