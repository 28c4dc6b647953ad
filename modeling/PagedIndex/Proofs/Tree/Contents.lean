import PagedIndex.Proofs.Codec.Decoded
import PagedIndex.Proofs.Session.Reading
import PagedIndex.Proofs.Tree.Neighbours
import PagedIndex.Proofs.Tree.Walks

/-!
# Boards of any contents

The blocks of any file make up a board: each of them is the cell that it reads as. What a program
that only reads is told of the blocks is told by the board.

## Main definitions

* `Cell.read?`, `Board.read` — the board of any contents.
* `Board.within` — the board with some of its blocks only.

## Main statements

* `Program.Walks.reader` — a program that goes where links lead only reads.
* `Program.Gives.reads` — what a program gives on some blocks of a file it reads from the file.
-/

namespace PagedIndex

/-! ## Cells and boards -/

/-- The cell that a block reads as. -/
def Cell.read? (l : Layout) (pos : BlockPos) (x : Bytes) : Option Cell :=
  (Node.decode l pos x).toOption.map .node <|> (Deleted.decode l pos x).toOption.map .deleted <|>
    (Slots.decode l x).toOption.map .slots

namespace Cell

variable {l : Layout} {pos next : BlockPos} {x : Bytes} {n : Node} {s : Slots}

theorem read?_eq_node_iff : read? l pos x = some (.node n) ↔ Node.decode l pos x = .ok n := by
  unfold read?
  cases Node.decode l pos x with
  | ok n' => simp [Except.toOption]
  | error e =>
    cases Deleted.decode l pos x <;> cases Slots.decode l x <;> simp [Except.toOption]

theorem read?_eq_deleted_iff :
    read? l pos x = some (.deleted next) ↔ Deleted.decode l pos x = .ok next := by
  unfold read?
  cases hnode : Node.decode l pos x with
  | ok n =>
    cases hdeleted : Deleted.decode l pos x with
    | ok next' =>
      have hkind := Option.some.inj ((Node.head?_of_decode hnode).symm.trans
        (Deleted.head?_of_decode hdeleted))
      cases n <;> cases BlockKind.tag_injective hkind
    | error e => simp [Except.toOption]
  | error e =>
    cases Deleted.decode l pos x <;> cases Slots.decode l x <;> simp [Except.toOption]

theorem read?_eq_slots_iff : read? l pos x = some (.slots s) ↔ Slots.decode l x = .ok s := by
  unfold read?
  cases hslots : Slots.decode l x with
  | error e =>
    cases Node.decode l pos x <;> cases Deleted.decode l pos x <;> simp [Except.toOption]
  | ok s' =>
    have htag := Slots.head?_of_decode hslots
    cases hnode : Node.decode l pos x with
    | ok n =>
      have hkind := Option.some.inj ((Node.head?_of_decode hnode).symm.trans htag)
      cases n <;> cases BlockKind.tag_injective hkind
    | error e =>
      cases hdeleted : Deleted.decode l pos x with
      | ok next =>
        have hkind := Option.some.inj ((Deleted.head?_of_decode hdeleted).symm.trans htag)
        cases BlockKind.tag_injective hkind
      | error e => simp [Except.toOption]

theorem shown_of_read? {cell : Cell} (h : read? l pos x = some cell) : cell.Shown l pos x := by
  cases cell with
  | node n => exact read?_eq_node_iff.mp h
  | deleted next => exact read?_eq_deleted_iff.mp h
  | slots s =>
    have hdecode := read?_eq_slots_iff.mp h
    exact ⟨Slots.head?_of_decode hdecode, hdecode⟩
  | blank => trivial

theorem read?_ne_blank : read? l pos x ≠ some .blank := by
  unfold read?
  cases Node.decode l pos x <;> cases Deleted.decode l pos x <;> cases Slots.decode l x <;>
    simp [Except.toOption]

end Cell

namespace Board

def read (l : Layout) (blocks : BlockPos → Option Bytes) (p : Pointers) : Board where
  cells pos := if pos.isNull then none else (blocks pos).bind (Cell.read? l pos)
  pointers := p

/-- The board with some of its blocks only. -/
def within (c : Board) (ps : List BlockPos) : Board :=
  { c with cells := fun pos => if pos ∈ ps then c.cells pos else none }

variable {l : Layout} {blocks : BlockPos → Option Bytes} {p : Pointers} {c : Board}
  {pos : BlockPos} {cell : Cell} {n : Node} {ps : List BlockPos}

@[simp]
theorem pointers_read : (read l blocks p).pointers = p := rfl

@[simp]
theorem cells_read_null : (read l blocks p).cells .null = none := rfl

theorem cells_read_eq_some_iff : (read l blocks p).cells pos = some cell ↔
    pos ≠ .null ∧ ∃ x, blocks pos = some x ∧ Cell.read? l pos x = some cell := by
  unfold read
  by_cases h : pos = .null
  · subst h
    simp [BlockPos.isNull, BlockPos.null]
  · simp [BlockPos.isNull_eq_false h, h, Option.bind_eq_some_iff]

/-- What is read of a tree block fits in one block. -/
theorem fits_of_cells_read (hsize : 0 < l.blockSize)
    (h : (read l blocks p).cells pos = some (.node n)) : n.fits l := by
  obtain ⟨-, x, -, hx⟩ := cells_read_eq_some_iff.mp h
  exact Node.fits_of_decode hsize (Cell.read?_eq_node_iff.mp hx)

/-- Its keys have key length. -/
theorem length_key_of_cells_read (hsize : 0 < l.blockSize)
    (h : (read l blocks p).cells pos = some (.node n)) :
    ∀ e ∈ n.entries, e.key.length = l.keyLength := by
  obtain ⟨-, x, -, hx⟩ := cells_read_eq_some_iff.mp h
  exact Node.length_key_of_decode hsize (Cell.read?_eq_node_iff.mp hx)

@[simp]
theorem pointers_within : (c.within ps).pointers = c.pointers := rfl

theorem cells_within_of_mem (h : pos ∈ ps) : (c.within ps).cells pos = c.cells pos := if_pos h

theorem cells_within_eq_some_iff :
    (c.within ps).cells pos = some cell ↔ pos ∈ ps ∧ c.cells pos = some cell := by
  simp [within]

/-- A view that shows some of the blocks of a file. -/
theorem exists_shown (hlength : ∀ pos x, blocks pos = some x → x.length = l.blockSize) (p : Pointers)
    (ps : List BlockPos) : ∃ v : View, v.pointers = p ∧
      (∀ pos x, v.blocks pos = some x → blocks pos = some x) ∧
      ((read l blocks p).within ps).Shown l v := by
  refine ⟨⟨fun pos => if (((read l blocks p).within ps).cells pos).isSome then blocks pos else none,
    fun _ => none, p⟩, rfl, fun pos x hx => ?_, rfl, ?_, fun pos cell hcell => ?_, fun pos hnone => ?_⟩
  · dsimp only at hx
    split at hx
    · exact hx
    · cases hx
  · simp [within]
  · obtain ⟨-, hread⟩ := cells_within_eq_some_iff.mp hcell
    obtain ⟨-, x, hx, hdecode⟩ := cells_read_eq_some_iff.mp hread
    exact ⟨x, by simp [hcell, hx], hlength pos x hx, Cell.shown_of_read? hdecode⟩
  · simp [hnone]

end Board

/-! ## Programs that only read -/

namespace Program

variable {α β : Type} {l : Layout} {program : Program α} {f : α → Program β}
  {blocks : BlockPos → Option Bytes} {p : Pointers} {pos : BlockPos} {role : Role} {n : Node}
  {r : Except Error α} {o : Except Error β} {b : β} {P : α → Prop} {ps : List BlockPos}

/-- Nothing is asked of where links lead. -/
theorem Walks.reader {Q : α → Prop} (h : program.Walks l (fun _ => True) Q) : program.Reader := by
  have hlinks : ∀ x, l.LinksIn (fun _ => True) x := fun x =>
    ⟨fun _ _ _ _ _ => trivial, fun _ _ _ => trivial, fun _ _ => trivial⟩
  induction h with
  | done => exact .done
  | fail => exact .fail
  | read _ _ _ _ ih => exact .read fun x => ih x (hlinks x)
  | pointers _ ih => exact .pointers fun p => ih p trivial trivial trivial fun _ _ _ _ => trivial

theorem not_reads_fail {e : Error} {a : α} : ¬(fail e : Program α).Reads blocks p (.ok a) := nofun

theorem reader_ofExcept {x : Except Error α} : (ofExcept x).Reader := by
  cases x with
  | ok a => exact .done
  | error e => exact .fail

theorem reads_ofExcept_iff {x : Except Error α} : (ofExcept x).Reads blocks p r ↔ r = x := by
  cases x <;> constructor
  · intro h; cases h; rfl
  · rintro rfl; exact .fail
  · intro h; cases h; rfl
  · rintro rfl; exact .done

theorem reads_getPointers_bind_iff {f : Pointers → Program α} :
    (getPointers >>= f).Reads blocks p r ↔ (f p).Reads blocks p r := by
  constructor
  · intro h
    cases h with
    | pointers h => exact h
  · exact .pointers

/-- A tree block is read as the board tells it. -/
theorem reads_loadNode_iff : (loadNode l role pos).Reads blocks p (.ok n) ↔
    (Board.read l blocks p).cells pos = some (.node n) := by
  rw [Board.cells_read_eq_some_iff]
  unfold loadNode
  by_cases hnull : pos = .null
  · subst hnull
    simp only [BlockPos.isNull, BlockPos.null]
    constructor
    · exact fun h => absurd h not_reads_fail
    · exact fun h => absurd rfl h.1
  · rw [BlockPos.isNull_eq_false hnull]
    show (load role pos true (view role fun x => ofExcept (Node.decode l pos x))).Reads blocks p _ ↔ _
    constructor
    · intro h
      cases h with
      | read hx hnext =>
        exact ⟨hnull, _, hx, Cell.read?_eq_node_iff.mpr (reads_ofExcept_iff.mp hnext).symm⟩
    · rintro ⟨-, x, hx, hdecode⟩
      exact .read hx (reads_ofExcept_iff.mpr (Cell.read?_eq_node_iff.mp hdecode).symm)

/-- So is a slot block. -/
theorem cells_of_reads_loadSlots {s : Slots} (hnull : pos ≠ .null)
    (h : (loadSlots l pos).Reads blocks p (.ok s)) :
    (Board.read l blocks p).cells pos = some (.slots s) := by
  have hload : loadSlots l pos = load .current pos true (view .current fun image =>
      if image.head? ≠ some BlockKind.slots.tag then fail (.corrupt (.notSlotBlock pos))
      else ofExcept (Slots.decode l image)) := rfl
  rw [hload] at h
  cases h with
  | read hx hnext =>
    dsimp only at hnext
    split at hnext
    · cases hnext
    · exact Board.cells_read_eq_some_iff.mpr ⟨hnull, _, hx,
        Cell.read?_eq_slots_iff.mpr (reads_ofExcept_iff.mp hnext).symm⟩

/-- What a program gives on some blocks of a file it reads from the file. -/
theorem Gives.reads (hprogram : program.Reader)
    (hlength : ∀ pos x, blocks pos = some x → x.length = l.blockSize)
    (h : Gives l program ((Board.read l blocks p).within ps) P) :
    ∃ a, program.Reads blocks p (.ok a) ∧ P a := by
  obtain ⟨v, hpointers, hblocks, hv⟩ := Board.exists_shown hlength p ps
  obtain ⟨r, w, d, hruns, -, -, a, rfl, ha⟩ := h v hv
  have hreads := (hprogram.reads hruns).mono hblocks
  rw [hpointers] at hreads
  exact ⟨a, hreads, ha⟩

end Program

end PagedIndex
