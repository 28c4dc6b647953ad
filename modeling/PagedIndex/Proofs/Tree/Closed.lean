import PagedIndex.Proofs.Tree.Plan

/-!
# Programs that only look

A program that edits no block and sets no pointer leaves the file as it is. On a board whose links
all lead to blocks of the file such a program never leaves the file, whatever it looks for.

## Main definitions

* `Board.Closed` — a board whose links lead to blocks.
* `Program.Looks` — a program only looks at a board, and what its value is like.

## Main statements

* `Plan.Holds.closed` — a board that is as planned is closed.
* `Program.looks_loadNode` — a tree block is looked at, or it is no tree block.
-/

namespace PagedIndex

/-! ## Tags -/

/-- The kind of the block of a cell, if something was written there. -/
def Cell.kind? : Cell → Option BlockKind
  | node n => some n.kind
  | deleted _ => some .deleted
  | slots _ => some .slots
  | blank => none

section Tags

variable {l : Layout} {pos next : BlockPos} {image : Bytes} {n : Node} {cell : Cell}
  {kind : BlockKind}

theorem Cell.Shown.head? (h : cell.Shown l pos image) (hkind : cell.kind? = some kind) :
    image.head? = some kind.tag := by
  cases cell with
  | node n =>
    cases hkind
    exact Node.head?_of_decode h
  | deleted next =>
    cases hkind
    exact Deleted.head?_of_decode h
  | slots s =>
    cases hkind
    exact h.1
  | blank => cases hkind

/-- A block has no other tag than that of its kind. -/
theorem Cell.Shown.kind_eq {kind' : BlockKind} (h : cell.Shown l pos image)
    (hkind : cell.kind? = some kind) (hhead : image.head? = some kind'.tag) : kind' = kind := by
  rw [h.head? hkind, Option.some.injEq] at hhead
  exact (BlockKind.tag_injective hhead).symm

/-- Only a tree block reads as one. -/
theorem Cell.Shown.eq_node (h : cell.Shown l pos image) (hsolid : cell ≠ .blank)
    (hdecode : Node.decode l pos image = .ok n) : cell = .node n := by
  have hhead := Node.head?_of_decode hdecode
  cases cell with
  | node n' =>
    rw [show Node.decode l pos image = .ok n' from h] at hdecode
    cases hdecode
    rfl
  | deleted next =>
    have := h.kind_eq rfl hhead
    cases n <;> cases this
  | slots s =>
    have := h.kind_eq rfl hhead
    cases n <;> cases this
  | blank => exact absurd rfl hsolid

/-- Only a deleted block reads as one. -/
theorem Cell.Shown.eq_deleted (h : cell.Shown l pos image) (hsolid : cell ≠ .blank)
    (hdecode : Deleted.decode l pos image = .ok next) : cell = .deleted next := by
  have hhead := Deleted.head?_of_decode hdecode
  cases cell with
  | node n =>
    have := h.kind_eq rfl hhead
    cases n <;> cases this
  | deleted next' =>
    rw [show Deleted.decode l pos image = .ok next' from h] at hdecode
    cases hdecode
    rfl
  | slots s => cases h.kind_eq rfl hhead
  | blank => exact absurd rfl hsolid

/-- Only a slot block reads as one. -/
theorem Cell.Shown.eq_slots {s : Slots} (h : cell.Shown l pos image) (hsolid : cell ≠ .blank)
    (hhead : image.head? = some BlockKind.slots.tag) (hdecode : Slots.decode l image = .ok s) :
    cell = .slots s := by
  cases cell with
  | node n =>
    have := h.kind_eq rfl hhead
    cases n <;> cases this
  | deleted next => cases h.kind_eq rfl hhead
  | slots s' =>
    rw [h.2] at hdecode
    cases hdecode
    rfl
  | blank => exact absurd rfl hsolid

end Tags

/-! ## Closed boards -/

namespace Board

/-- Whether a link ends its chain or leads to a block. -/
def Has (c : Board) (pos : BlockPos) : Prop := pos = .null ∨ (c.cells pos).isSome

/-- A board whose blocks are those up to the mark of the last one, and whose links lead to
blocks. -/
structure Closed (l : Layout) (c : Board) : Prop where
  whole : ∀ p, (c.cells p).isSome ↔
    p ≠ .null ∧ l.blockSize ∣ p.offset ∧ p.offset ≤ c.pointers.highWater.offset
  solid : ∀ p, c.cells p ≠ some .blank
  children : ∀ p b, c.cells p = some (.node (.branch b)) → ∀ q ∈ b.children, c.Has q
  deleted : ∀ p next, c.cells p = some (.deleted next) → c.Has next
  slots : ∀ p s, c.cells p = some (.slots s) → c.Has s.next
  root : c.Has c.pointers.root
  freeHead : c.Has c.pointers.freeHead
  slotHead : c.Has c.pointers.slotHead

variable {l : Layout} {c : Board} {pos : BlockPos}

theorem has_null : c.Has .null := .inl rfl

/-- Links lead to places where blocks may start. -/
theorem Closed.aligned (h : c.Closed l) (hpos : c.Has pos) : l.blockSize ∣ pos.offset := by
  rcases hpos with rfl | hsome
  · exact Nat.dvd_zero _
  · exact ((h.whole pos).mp hsome).2.1

end Board

section Plan

variable {l : Layout} {c : Board} {cells : BlockPos → Option Cell} {depth : Nat} {x : Subtree}
  {p : Plan}

/-- The blocks of a subtree are tree blocks, and their links stay in the subtree. -/
theorem Subtree.OnBoard.closed (h : x.OnBoard l cells depth) :
    ∀ p ∈ x.blocks, ∃ n, cells p = some (.node n) ∧
      ∀ b, n = .branch b → ∀ q ∈ b.children, q ∈ x.blocks := by
  induction h with
  | leaf hcell _ =>
    intro p hp
    rw [List.mem_singleton.mp hp]
    exact ⟨_, hcell, nofun⟩
  | @branch depth pos first rest hcell hfits hchildren hfull ih =>
    intro p hp
    have hbelow : ∀ y ∈ first :: rest.map Prod.snd, ∀ q ∈ y.blocks,
        q ∈ (Subtree.branch pos first rest).blocks := fun y hy q hq =>
      List.mem_cons_of_mem _ (List.mem_flatMap.mpr ⟨y, hy, hq⟩)
    rcases List.mem_cons.mp hp with rfl | hp
    · refine ⟨_, hcell, ?_⟩
      rintro b hb q hq
      cases hb
      have hmap : Branch.children ⟨first.pos, rest.map fun s => (s.1, s.2.pos)⟩ =
          (first :: rest.map Prod.snd).map Subtree.pos := by
        simp [Branch.children]
      rw [hmap] at hq
      obtain ⟨y, hy, rfl⟩ := List.mem_map.mp hq
      exact hbelow y hy _ (hchildren y hy).pos_mem
    · obtain ⟨y, hy, hp⟩ := List.mem_flatMap.mp hp
      obtain ⟨n, hn, hlinks⟩ := ih y hy p hp
      exact ⟨n, hn, fun b hb q hq => hbelow y hy q (hlinks b hb q hq)⟩

/-- The links of a chain lead to blocks of the chain. -/
theorem Chain.has {α : Type} {pos : α → BlockPos} {links : α → BlockPos → Prop} {as : List α}
    {head : BlockPos} (h : Chain pos links head as) (has : ∀ a ∈ as, (c.cells (pos a)).isSome) :
    c.Has head ∧ ∀ a ∈ as, ∃ next, links a next ∧ c.Has next := by
  induction as generalizing head with
  | nil => exact ⟨.inl h, nofun⟩
  | cons a as ih =>
    obtain ⟨rfl, next, hnext, hrest⟩ := h
    obtain ⟨hhas, hlinks⟩ := ih hrest fun b hb => has b (List.mem_cons_of_mem a hb)
    refine ⟨.inr (has a List.mem_cons_self), fun b hb => ?_⟩
    rcases List.mem_cons.mp hb with rfl | hb
    · exact ⟨next, hnext, hhas⟩
    · exact hlinks b hb

/-- A board that is as planned is closed. -/
theorem Plan.Holds.closed (h : p.Holds l c) : c.Closed l := by
  obtain ⟨htree, hledger, -⟩ := h
  have hfree := hledger.deleted.has (c := c) fun q hq =>
    (hledger.cells q).mpr (by simp only [List.mem_append]; exact .inr (.inl hq))
  have hslots := hledger.listed.has (c := c) fun s hs =>
    (hledger.cells s.1).mpr (by
      simp only [List.mem_append]; exact .inr (.inr (List.mem_map_of_mem hs)))
  have hused : ∀ q ∈ p.blocks, ∃ n, c.cells q = some (.node n) ∧
      ∀ b, n = .branch b → ∀ q ∈ b.children, c.Has q := by
    intro q hq
    unfold Plan.blocks at hq
    cases hx : p.tree with
    | none => simp [hx] at hq
    | some x =>
      rw [hx] at htree hq
      obtain ⟨depth, -, honBoard, -, -⟩ := htree
      obtain ⟨n, hn, hlinks⟩ := honBoard.closed q hq
      refine ⟨n, hn, fun b hb r hr => .inr ((hledger.cells r).mpr ?_)⟩
      have : r ∈ p.blocks := by
        unfold Plan.blocks
        rw [hx]
        exact hlinks b hb r hr
      exact List.mem_append_left _ this
  -- every block is in use, deleted or a slot block
  have hcases : ∀ q cell, c.cells q = some cell →
      (∃ n, cell = .node n ∧ ∀ b, n = .branch b → ∀ q ∈ b.children, c.Has q) ∨
      (∃ next, cell = .deleted next ∧ c.Has next) ∨ ∃ s, cell = .slots s ∧ c.Has s.next := by
    intro q cell hq
    have hmem := (hledger.cells q).mp (by rw [hq]; rfl)
    simp only [List.mem_append, List.mem_map] at hmem
    rcases hmem with hmem | hmem | ⟨s, hs, rfl⟩
    · obtain ⟨n, hn, hlinks⟩ := hused q hmem
      rw [hq, Option.some.injEq] at hn
      exact .inl ⟨n, hn, hlinks⟩
    · obtain ⟨next, hnext, hhas⟩ := hfree.2 q hmem
      rw [show c.cells q = some (.deleted next) from hnext, Option.some.injEq] at hq
      exact .inr (.inl ⟨next, hq.symm, hhas⟩)
    · obtain ⟨next, hnext, hhas⟩ := hslots.2 s hs
      rw [show c.cells s.1 = some (.slots ⟨next, s.2⟩) from hnext, Option.some.injEq] at hq
      exact .inr (.inr ⟨_, hq.symm, hhas⟩)
  refine ⟨fun q => (hledger.cells q).trans (hledger.whole q), fun q hq => ?_, fun q b hq => ?_,
    fun q next hq => ?_, fun q s hq => ?_, ?_, hfree.1, hslots.1⟩
  · rcases hcases q _ hq with ⟨_, h, -⟩ | ⟨_, h, -⟩ | ⟨_, h, -⟩ <;> cases h
  · rcases hcases q _ hq with ⟨n, h, hlinks⟩ | ⟨_, h, -⟩ | ⟨_, h, -⟩ <;> cases h
    exact hlinks b rfl
  · rcases hcases q _ hq with ⟨_, h, -⟩ | ⟨_, h, hhas⟩ | ⟨_, h, -⟩ <;> cases h
    exact hhas
  · rcases hcases q _ hq with ⟨_, h, -⟩ | ⟨_, h, -⟩ | ⟨_, h, hhas⟩ <;> cases h
    exact hhas
  · cases hx : p.tree with
    | none =>
      rw [hx] at htree
      exact .inl htree.2
    | some x =>
      rw [hx] at htree
      obtain ⟨depth, -, honBoard, -, hroot⟩ := htree
      exact .inr (by rw [hroot, honBoard.cell]; rfl)

end Plan

/-! ## Looking -/

namespace Program

variable {α β : Type} {l : Layout} {c : Board} {role : Role} {pos : BlockPos}
  {program : Program α} {f : α → Program β} {P Q : α → Prop} {R : β → Prop}

/-- A program only looks at a board, and `P` holds of the value it ends with. -/
def Looks (l : Layout) (program : Program α) (c : Board) (P : α → Prop) : Prop :=
  ∀ v, c.Shown l v → ∃ r w, program.Views v r w ∧ ∀ a, r = .ok a → P a

/-- A program that only looks leaves the board as it is. -/
theorem Looks.acts (h : Looks l program c P) :
    Acts l program c fun r d => d = c ∧ ∀ a, r = .ok a → P a := by
  intro v hv
  obtain ⟨r, w, hviews, hP⟩ := h v hv
  obtain ⟨hblocks, hpointers⟩ := hviews.same
  refine ⟨r, w, c, hviews.runs _, ⟨hpointers.trans hv.pointers, hv.header, fun p cell hp => ?_,
    fun p hp => ?_⟩, rfl, hP⟩
  · rw [hblocks]
    exact hv.held p cell hp
  · rw [hblocks]
    exact hv.vacant p hp

theorem Looks.mono (h : Looks l program c P) (hPQ : ∀ a, P a → Q a) : Looks l program c Q := by
  intro v hv
  obtain ⟨r, w, hviews, hP⟩ := h v hv
  exact ⟨r, w, hviews, fun a ha => hPQ a (hP a ha)⟩

theorem looks_done {a : α} (h : P a) : Looks l (.done a) c P := fun v _ =>
  ⟨_, v, .done a v, fun b hb => by cases hb; exact h⟩

theorem looks_pure {a : α} (h : P a) : Looks l (pure a) c P := looks_done h

theorem looks_fail {e : Error} : Looks l (.fail e : Program α) c P := fun v _ =>
  ⟨_, v, .fail e v, nofun⟩

theorem looks_ofExcept {x : Except Error α} (h : ∀ a, x = .ok a → P a) :
    Looks l (ofExcept x) c P := by
  cases x with
  | ok a => exact looks_done (h a rfl)
  | error e => exact looks_fail

theorem Looks.bind (h : Looks l program c P) (hf : ∀ a, P a → Looks l (f a) c R) :
    Looks l (program >>= f) c R := by
  intro v hv
  obtain ⟨r, w, hviews, hP⟩ := h v hv
  obtain ⟨hblocks, hpointers⟩ := hviews.same
  cases r with
  | error e => exact ⟨_, w, hviews.bind_error, nofun⟩
  | ok a =>
    have hw : c.Shown l w := by
      refine ⟨hpointers.trans hv.pointers, hv.header, ?_, ?_⟩
      · rw [hblocks]
        exact hv.held
      · rw [hblocks]
        exact hv.vacant
    obtain ⟨r', w', hviews', hR⟩ := hf a (hP a rfl) w hw
    exact ⟨r', w', hviews.bind hviews', hR⟩

theorem looks_getPointers_bind {f : Pointers → Program β} (h : Looks l (f c.pointers) c R) :
    Looks l (getPointers >>= f) c R := by
  intro v hv
  obtain ⟨r, w, hviews, hR⟩ := h v hv
  exact ⟨r, w, .pointers (hv.pointers.symm ▸ hviews), hR⟩

/-- A block of a closed board is loaded and looked at. -/
theorem looks_loadBlock_bind {f : Bytes → Program β} {cell : Cell} (hrole : role ≠ .header)
    (hcell : c.cells pos = some cell)
    (hf : ∀ image, cell.Shown l pos image → Looks l (f image) c R) :
    Looks l (do loadBlock role pos; f (← image role)) c R := by
  intro v hv
  obtain ⟨image, hblock, -, hshown⟩ := hv.held pos cell hcell
  obtain ⟨r, w, hviews, hR⟩ := hf image hshown _ (hv.hold role pos)
  exact ⟨r, w, .load hrole hblock (.view hrole (by simp [View.hold]) hblock hviews), hR⟩

/-- A tree block is looked at, or the link does not lead to one. -/
theorem looks_loadNode (hc : c.Closed l) (hrole : role ≠ .header) (hpos : c.Has pos) :
    Looks l (loadNode l role pos) c fun n => c.cells pos = some (.node n) := by
  rcases hpos with rfl | hsome
  · have hfail : loadNode l role .null = fail (.corrupt .linkToHeader) := rfl
    rw [hfail]
    exact looks_fail
  · obtain ⟨cell, hcell⟩ := Option.isSome_iff_exists.mp hsome
    have hnull := BlockPos.isNull_eq_false ((hc.whole pos).mp hsome).1
    have hload : loadNode l role pos =
        (do loadBlock role pos; ofExcept (Node.decode l pos (← image role))) := by
      unfold loadNode
      rw [hnull]
      rfl
    rw [hload]
    refine looks_loadBlock_bind hrole hcell fun image himage => looks_ofExcept fun n hn => ?_
    have hsolid : cell ≠ .blank := fun h => hc.solid pos (h ▸ hcell)
    rw [hcell, himage.eq_node hsolid hn]

theorem looks_loadLeaf (hc : c.Closed l) (hrole : role ≠ .header) (hpos : c.Has pos) :
    Looks l (loadLeaf l role pos) c fun es => c.cells pos = some (.node (.leaf es)) := by
  refine (looks_loadNode hc hrole hpos).bind fun n hn => ?_
  cases n with
  | leaf es => exact looks_pure hn
  | branch b => exact looks_fail

theorem looks_loadBranch (hc : c.Closed l) (hrole : role ≠ .header) (hpos : c.Has pos) :
    Looks l (loadBranch l role pos) c fun b => c.cells pos = some (.node (.branch b)) := by
  refine (looks_loadNode hc hrole hpos).bind fun n hn => ?_
  cases n with
  | leaf es => exact looks_fail
  | branch b => exact looks_pure hn

/-- A slot block is looked at, or the block is none. -/
theorem looks_loadSlots (hc : c.Closed l) (hpos : (c.cells pos).isSome) :
    Looks l (loadSlots l pos) c fun s => c.cells pos = some (.slots s) := by
  obtain ⟨cell, hcell⟩ := Option.isSome_iff_exists.mp hpos
  refine looks_loadBlock_bind Role.current_ne hcell fun image himage => ?_
  split
  · exact looks_fail
  · next hhead =>
    refine looks_ofExcept fun s hs => ?_
    have hsolid : cell ≠ .blank := fun h => hc.solid pos (h ▸ hcell)
    rw [hcell, himage.eq_slots hsolid (Decidable.not_not.mp hhead) hs]

end Program

end PagedIndex
