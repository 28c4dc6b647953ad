import PagedIndex.Proofs.Tree.Neighbours
import PagedIndex.Proofs.Tree.Sides

/-!
# Where moves land

A move to the next entry lands on the first entry ahead of the cursor, a move to the entry in front
on the last one behind it. No move fails on a file that is as planned and that can be searched.

## Main statements

* `Tree.gives_next`, `Tree.gives_previous` — moves by one entry.
* `Tree.gives_find` — moves to a key.
-/

namespace PagedIndex

/-! ## Blocks of a tree -/

section Blocks

variable {l : Layout} {c : Board} {cells : BlockPos → Option Cell} {depth : Nat} {x : Subtree}
  {p : Plan} {pos : BlockPos}

/-- The subtrees of a branch have its entries in a row. -/
theorem Subtree.infix_entries {first y : Subtree} {rest : List (Entry × Subtree)}
    (hy : y ∈ first :: rest.map Prod.snd) : y.entries <:+: (Subtree.branch pos first rest).entries := by
  rcases List.mem_cons.mp hy with rfl | hy
  · exact (List.prefix_append _ _).isInfix
  · obtain ⟨s, hs, rfl⟩ := List.mem_map.mp hy
    obtain ⟨front, back, rfl⟩ := List.append_of_mem hs
    refine ⟨first.entries ++ (front.flatMap fun s => [s.1] ++ s.2.entries) ++ [s.1],
      back.flatMap fun s => [s.1] ++ s.2.entries, ?_⟩
    simp [Subtree.branch]

/-- Every block of a subtree is that of a subtree in it. -/
theorem Subtree.OnBoard.exists_subtree (h : x.OnBoard l cells depth) (hfull : x.Full)
    (hpos : pos ∈ x.blocks) : ∃ (y : Subtree) (depth' : Nat), y.pos = pos ∧ depth' ≤ depth ∧
      y.OnBoard l cells depth' ∧ y.Full ∧ y.entries <:+: x.entries := by
  induction h with
  | leaf hcell hfits =>
    obtain rfl := List.mem_singleton.mp hpos
    exact ⟨_, 0, rfl, Nat.le_refl _, .leaf hcell hfits, hfull, List.infix_refl _⟩
  | branch hcell hfits hchildren hfulls ih =>
    rcases List.mem_cons.mp hpos with rfl | hpos
    · exact ⟨_, _, rfl, Nat.le_refl _, .branch hcell hfits hchildren hfulls, hfull,
        List.infix_refl _⟩
    · obtain ⟨z, hz, hpos⟩ := List.mem_flatMap.mp hpos
      obtain ⟨y, depth', hy, hle, honBoard, hyfull, hinfix⟩ := ih z hz (hfulls z hz) hpos
      exact ⟨y, depth', hy, Nat.le_succ_of_le hle, honBoard, hyfull,
        hinfix.trans (Subtree.infix_entries hz)⟩

/-- The tree blocks of a file are those of its tree. -/
theorem Plan.Holds.mem_blocks {n : Node} (h : p.Holds l c) (hcell : c.cells pos = some (.node n)) :
    pos ∈ p.blocks := by
  have hledger := h.ledger
  have hmem := (hledger.cells pos).mp (by simp [hcell])
  have hisSome : ∀ q ∈ p.blocks ++ (p.free ++ p.slots.map Prod.fst), (c.cells q).isSome :=
    fun q hq => (hledger.cells q).mpr hq
  rcases List.mem_append.mp hmem with hmem | hmem
  · exact hmem
  · exfalso
    rcases List.mem_append.mp hmem with hfree | hslot
    · obtain ⟨-, hdeleted⟩ := hledger.deleted.has fun q hq =>
        hisSome q (List.mem_append_right _ (List.mem_append_left _ hq))
      obtain ⟨next, hnext, -⟩ := hdeleted pos hfree
      rw [show c.cells pos = some (.deleted next) from hnext] at hcell
      cases hcell
    · obtain ⟨s, hs, rfl⟩ := List.mem_map.mp hslot
      obtain ⟨-, hlisted⟩ := hledger.listed.has fun s hs =>
        hisSome s.1 (List.mem_append_right _ (List.mem_append_right _ (List.mem_map_of_mem hs)))
      obtain ⟨next, hnext, -⟩ := hlisted s hs
      rw [show c.cells s.1 = some (.slots ⟨next, s.2⟩) from hnext] at hcell
      cases hcell

end Blocks

/-! ## Boards that can be searched -/

/-- A board whose tree blocks are those of a tree that can be searched, of these entries. Nothing is
said of its other blocks, and of where any of them lies. -/
structure Board.Bears (l : Layout) (c : Board) (es : List Entry) : Prop where
  tree : (es = [] ∧ c.pointers.root = .null) ∨ ∃ (x : Subtree) (depth : Nat), es = x.entries ∧
    x.OnBoard l c.cells depth ∧ x.Full ∧ depth ≤ maxLevels ∧ c.pointers.root = x.pos
  subtree : ∀ pos n, c.cells pos = some (.node n) → ∃ (y : Subtree) (depth : Nat), y.pos = pos ∧
    depth ≤ maxLevels ∧ y.OnBoard l c.cells depth ∧ y.Full ∧ y.entries <:+: es
  header : c.cells .null = none
  solid : ∀ pos, c.cells pos ≠ some .blank

/-- A cursor that has landed on an entry of a board, or has run off. Its hint is a block of the
board, or it is as it was. -/
structure Cursor.Landed (b : Board) (c c' : Cursor) (found : Option Entry) (off : KeyState) :
    Prop where
  state : c'.state = if found.isSome then .onKey else off
  current : c'.current = found.or c.current
  hint : ∀ pos, c'.hint = some pos → (b.cells pos).isSome ∨ c.hint = some pos

/-- A cursor whose hint, if it is a place of the file, is a block of a board. -/
def Cursor.PointsInto (b : Board) (c : Cursor) : Prop :=
  ∀ pos, c.hint = some pos → pos ≠ .null → pos.offset ≤ b.pointers.highWater.offset →
    (b.cells pos).isSome

section Bears

variable {l : Layout} {b : Board} {p : Plan} {c c' : Cursor} {found : Option Entry} {off : KeyState}

theorem Plan.Holds.bears (h : p.Holds l b) (hlevels : p.levels ≤ maxLevels + 1) :
    b.Bears l p.entries := by
  have htree := h.tree
  refine ⟨?_, fun pos n hcell => ?_, ?_, h.closed.solid⟩
  · unfold Plan.entries
    cases hx : p.tree with
    | none =>
      rw [hx] at htree
      exact .inl ⟨rfl, htree.2⟩
    | some x =>
      rw [hx] at htree
      obtain ⟨depth, hdepth, honBoard, hfull, hroot⟩ := htree
      exact .inr ⟨x, depth, rfl, honBoard, hfull, by omega, hroot⟩
  · have hmem := h.mem_blocks hcell
    unfold Plan.blocks at hmem
    unfold Plan.entries
    cases hx : p.tree with
    | none => simp [hx] at hmem
    | some x =>
      rw [hx] at hmem htree
      obtain ⟨depth, hdepth, honBoard, hfull, -⟩ := htree
      obtain ⟨y, depth', hy, hle, hystands, hyfull, hinfix⟩ := honBoard.exists_subtree hfull hmem
      exact ⟨y, depth', hy, by omega, hystands, hyfull, hinfix⟩
  · exact Option.not_isSome_iff_eq_none.mp fun hmem => ((h.closed.whole .null).mp hmem).1 rfl

/-- A hint on a closed board is a block of it. -/
theorem Cursor.Aligned.pointsInto (h : c.Aligned l) (hb : b.Closed l) :
    c.PointsInto b := fun pos hpos hnull hle =>
  (hb.whole pos).mpr ⟨hnull, h pos hpos, hle⟩

theorem Cursor.landed_land {e : Entry} {pos : BlockPos} (h : (b.cells pos).isSome) :
    c.Landed b (land e pos) (some e) off := by
  refine ⟨rfl, rfl, fun q hq => .inl ?_⟩
  cases hq
  exact h

theorem Cursor.Landed.moved (h : c.Landed b c' found off) (hb : b.Closed l) (hc : c.Aligned l) :
    c.Moved l c' found off :=
  ⟨h.state, h.current, fun pos hpos => (h.hint pos hpos).elim (fun hmem => hb.aligned (.inr hmem))
    (hc pos)⟩

end Bears

namespace Tree

open Program

variable {t : Tree} {c : Board} {p : Plan} {cursor : Cursor} {d : Descent} {e current : Entry}
  {es : List Entry}

/-! ## Landing -/

theorem gives_land (hstate : d.state = .onKey) (he : d.On c e) :
    Gives t.layout (t.settle cursor d) c fun c' =>
      ∃ pos, (c.cells pos).isSome ∧ c' = Cursor.land e pos := by
  unfold settle
  rw [if_pos hstate]
  refine (gives_entryAt he).andThen ?_
  rintro _ rfl
  exact gives_pure ⟨_, he.isSome, rfl⟩

theorem gives_landed (hstate : d.state = .onKey) (he : d.On c e) (off : KeyState) :
    Gives t.layout (t.settle cursor d) c fun c' => cursor.Landed c c' (some e) off := by
  refine (gives_land hstate he).imp ?_
  rintro _ ⟨pos, hpos, rfl⟩
  exact Cursor.landed_land hpos

theorem gives_settle_first (hd : d.AtFirst c es) :
    Gives t.layout (t.settle cursor d) c fun c' => cursor.Landed c c' es.head? .afterLast := by
  unfold Descent.AtFirst at hd
  split at hd
  · next hnone =>
    unfold settle
    rw [hnone, hd, if_neg nofun]
    exact gives_pure ⟨rfl, rfl, nofun⟩
  · next e hsome =>
    rw [hsome]
    exact gives_landed hd.1 hd.2 _

theorem gives_settle_last (hd : d.AtLast c es) :
    Gives t.layout (t.settle cursor d) c fun c' => cursor.Landed c c' es.getLast? .beforeFirst := by
  unfold Descent.AtLast at hd
  split at hd
  · next hnone =>
    unfold settle
    rw [hnone, hd, if_neg nofun]
    exact gives_pure ⟨rfl, rfl, nofun⟩
  · next e hsome =>
    rw [hsome]
    exact gives_landed hd.1 hd.2 _

end Tree

/-! ## Searches in a tree -/

namespace Board.Bears

open Program PagedIndex.Tree

variable {t : Tree} {c : Board} {cursor : Cursor} {e current : Entry} {es : List Entry}
  (hb : c.Bears t.layout es)
include hb

/-- A board has no entries, or its tree can be searched. -/
theorem empty_or_tree : (es = [] ∧ c.pointers.root.isNull = true) ∨
    ∃ (x : Subtree) (depth : Nat), es = x.entries ∧ es ≠ [] ∧ x.OnBoard t.layout c.cells depth ∧
      x.Full ∧
      depth ≤ maxLevels ∧ c.pointers.root = x.pos ∧ x.pos ≠ .null := by
  rcases hb.tree with ⟨hnil, hroot⟩ | ⟨x, depth, rfl, honBoard, hfull, hdepth, hroot⟩
  · exact .inl ⟨hnil, by rw [hroot]; rfl⟩
  · refine .inr ⟨x, depth, rfl, honBoard.entries_ne_nil hfull, honBoard, hfull, hdepth, hroot, ?_⟩
    intro hnull
    have hcell := honBoard.cell
    rw [hnull, hb.header] at hcell
    cases hcell

/-- The first entry of a tree. -/
theorem gives_first : Gives t.layout (t.first cursor) c fun c' =>
    cursor.Landed c c' es.head? .afterLast := by
  unfold first root
  refine Acts.bind_ok (acts_getPointers.bind_ok (acts_pure ⟨rfl, rfl⟩)) ?_
  obtain ⟨hnil, hnull⟩ | ⟨x, depth, hentries, -, honBoard, hfull, hdepth, hroot, hpos⟩ :=
    hb.empty_or_tree
  · rw [hnull, if_pos rfl, hnil]
    exact gives_pure ⟨rfl, rfl, nofun⟩
  · rw [hroot, BlockPos.isNull_eq_false hpos, if_neg Bool.false_ne_true, hentries]
    refine (gives_leftmostLeaf honBoard hfull (Nat.lt_succ_of_le hdepth)).andThen ?_
    rintro leaf ⟨e, he, hon⟩
    rw [he]
    exact gives_landed rfl hon _

/-- The last entry of a tree. -/
theorem gives_last : Gives t.layout (t.last cursor) c fun c' =>
    cursor.Landed c c' es.getLast? .beforeFirst := by
  unfold last root
  refine Acts.bind_ok (acts_getPointers.bind_ok (acts_pure ⟨rfl, rfl⟩)) ?_
  obtain ⟨hnil, hnull⟩ | ⟨x, depth, hentries, -, honBoard, hfull, hdepth, hroot, hpos⟩ :=
    hb.empty_or_tree
  · rw [hnull, if_pos rfl, hnil]
    exact gives_pure ⟨rfl, rfl, nofun⟩
  · rw [hroot, BlockPos.isNull_eq_false hpos, if_neg Bool.false_ne_true, hentries]
    refine (gives_rightmostLeaf honBoard hfull (Nat.lt_succ_of_le hdepth)).andThen ?_
    rintro ⟨leaf, size⟩ ⟨e, he, hon⟩
    rw [he]
    exact gives_landed rfl hon _

variable (hasc : t.Ascending es)
include hasc

/-- A search in a tree. -/
theorem gives_locate (target : Entry) (exact : Bool) : Gives t.layout (t.locate target exact) c
    fun d => (es = [] ∧ d = {}) ∨
      (es ≠ [] ∧ ∃ front back,
        (∀ a ∈ front, Entry.compare t.collation exact target a = .gt) ∧
        ((∃ e, es = front ++ e :: back ∧ Entry.compare t.collation exact target e = .eq ∧
            d.Hits t c front e back) ∨
          (es = front ++ back ∧
            (∀ a ∈ back, Entry.compare t.collation exact target a = .lt) ∧
            d.Misses t c front back))) := by
  obtain ⟨hnil, hnull⟩ | ⟨x, depth, hentries, hne, honBoard, hfull, hdepth, hroot, hpos⟩ :=
    hb.empty_or_tree
  · refine (acts_locate_nil (BlockPos.isNull_iff.mp hnull)).mono ?_
    rintro r d ⟨rfl, rfl⟩
    exact ⟨rfl, _, rfl, .inl ⟨hnil, rfl⟩⟩
  · rw [hentries] at hasc hne ⊢
    refine (acts_locate hroot honBoard hfull hasc.loose hdepth hpos).mono ?_
    rintro r d ⟨rfl, place, rfl, hsearchEnds⟩
    exact ⟨rfl, place, rfl, .inr ⟨hne, hsearchEnds.hits_or_misses honBoard hdepth hasc⟩⟩

/-- A search for what a cursor stands next to ends between what is below and what is above it. -/
theorem gives_locate_exact (current : Entry) : Gives t.layout (t.locate current true) c fun d =>
    (es = [] ∧ d = {}) ∨
      ((∃ e, d.Hits t c (t.below current es) e (t.above current es)) ∨
        (es ≠ [] ∧ d.Misses t c (t.below current es) (t.above current es) ∧
          es = t.below current es ++ t.above current es)) := by
  refine (hb.gives_locate hasc current true).imp ?_
  rintro d (hnil | ⟨hne, front, back, hless, ⟨e, hentries, hhit, hd⟩ | ⟨hentries, hgreater, hd⟩⟩)
  · exact .inl hnil
  · obtain ⟨hbelow, habove⟩ := sides_of_hit (hentries ▸ hasc) hhit
    rw [hentries, hbelow, habove]
    exact .inr (.inl ⟨e, hd⟩)
  · obtain ⟨hbelow, habove⟩ := sides_of_missed hless hgreater
    rw [hentries] at hne
    rw [hentries, hbelow, habove]
    exact .inr (.inr ⟨hne, hd, rfl⟩)

/-! ## Moves by one entry -/

theorem gives_nextBySearch (current : Entry) :
    Gives t.layout (t.nextBySearch cursor current) c fun c' =>
      cursor.Landed c c' (t.above current es).head? .afterLast := by
  unfold nextBySearch
  refine (hb.gives_locate_exact hasc current).andThen ?_
  rintro d (⟨hnil, rfl⟩ | ⟨e, hd⟩ | ⟨hne, hd, hentries⟩)
  · rw [hnil]
    exact gives_settle_first (d := { state := .afterLast }) rfl
  · simp only [hd.state]
    exact hd.successor.andThen fun d' hd' => gives_settle_first hd'
  · cases hstate : d.state with
    | onKey => exact absurd hstate hd.state
    | between =>
      have hback : t.above current es ≠ [] := fun hnil => by simp [hd.last.mpr hnil] at hstate
      exact gives_settle_first (hd.behind hback)
    | beforeFirst =>
      have hback : t.above current es ≠ [] := fun hnil =>
        hne (hentries.trans (by rw [hnil, hd.first.mp hstate]; rfl))
      have hnull : d.block ≠ .null := by
        intro hnull
        have hblock := hd.block
        rw [hnull, hb.header] at hblock
        cases hblock
      simp only [BlockPos.isNull_eq_false hnull, Bool.false_eq_true, if_false]
      exact gives_settle_first (hd.behind hback)
    | afterLast =>
      refine gives_settle_first ?_
      rw [hd.last.mp hstate]
      exact hstate

/-- Gives up, or finds the entry behind one that is there. -/
theorem gives_nextFromHint {hint : BlockPos} (hhint : hint ≠ .null →
      hint.offset ≤ c.pointers.highWater.offset → (c.cells hint).isSome)
    (current : Entry) : Gives t.layout (t.nextFromHint hint current) c fun o =>
      ∀ d, o = some d → ∃ e, (t.above current es).head? = some e ∧ d.state = .onKey ∧
        d.On c e := by
  -- what is found in a tree block is in the same order in the tree
  have hfound : ∀ y : Subtree, y.entries <:+: es → ∀ front e a back,
      y.entries = front ++ e :: a :: back → Entry.compare t.collation true current e = .eq →
      (t.above current es).head? = some a := by
    rintro y ⟨outer, inner, hinfix⟩ front e a back hentries hhit
    have hsplit : es = (outer ++ front) ++ e :: (a :: back ++ inner) := by
      rw [← hinfix, hentries]
      simp
    rw [hsplit, (sides_of_hit (hsplit ▸ hasc) hhit).2]
    rfl
  unfold nextFromHint
  refine acts_getPointers.bind_ok ?_
  split
  · exact gives_pure nofun
  · next hin =>
    simp only [Bool.or_eq_true, BlockPos.isNull_iff, decide_eq_true_eq, not_or, Nat.not_lt] at hin
    obtain ⟨cell, hcell⟩ := Option.isSome_iff_exists.mp (hhint hin.1 hin.2)
    refine gives_loadBlock_bind Role.current_ne hcell fun image himage => ?_
    dsimp only
    split
    · exact gives_pure nofun
    · next htag =>
      obtain ⟨n, rfl⟩ : ∃ n, cell = .node n := by
        have hsolid : cell ≠ .blank := fun h => hb.solid hint (h ▸ hcell)
        cases cell with
        | node n => exact ⟨n, rfl⟩
        | blank => exact absurd rfl hsolid
        | deleted next =>
          rw [himage.head? rfl] at htag
          exact absurd ⟨nofun, nofun⟩ htag
        | slots s =>
          rw [himage.head? rfl] at htag
          exact absurd ⟨nofun, nofun⟩ htag
      refine (acts_loadNode Role.current_ne hcell).bind_ok ?_
      obtain ⟨y, depth, rfl, hdepth, honBoard, hfull, hinfix⟩ := hb.subtree _ _ hcell
      obtain rfl : y.node = n := by
        have := honBoard.cell.symm.trans hcell
        cases this
        rfl
      cases honBoard with
      | @leaf pos es hleaf _ =>
        obtain ⟨front, back, rfl, hs⟩ := exists_splits t current true es
        simp only [Subtree.leaf]
        generalize t.scan current true (front ++ back) = s at hs ⊢
        split
        · next hnear =>
          simp only [Bool.and_eq_true, decide_eq_true_eq, hs.index] at hnear
          obtain ⟨e, rest, rfl, hhit⟩ := hs.found hnear.1
          cases rest with
          | nil => simp at hnear
          | cons a rest =>
            refine gives_pure fun d hd => ?_
            cases hd
            refine ⟨a, hfound _ hinfix front e a rest rfl hhit, rfl, .leaf rfl hleaf ?_⟩
            simp [placeInLeaf, hs.index]
        · exact gives_pure nofun
      | @branch depth pos first rest hbranch _ hchildren hfulls =>
        simp only [Subtree.branch]
        obtain ⟨front, back, hes, hs⟩ := exists_splits t current true
          (Branch.entries ⟨first.pos, rest.map fun s => (s.1, s.2.pos)⟩)
        generalize t.scan current true _ = s at hs ⊢
        split
        · next right hsome hright =>
          obtain ⟨e, rest', rfl, hhit⟩ := hs.found hsome
          have hrest : rest.map Prod.fst = front ++ e :: rest' := by
            simpa [Branch.entries, Function.comp_def] using hes
          obtain ⟨left, tail, rfl, rfl, htail⟩ := List.map_eq_append_iff.mp hrest
          obtain ⟨⟨e, z⟩, right', rfl, rfl, rfl⟩ := List.map_eq_cons_iff.mp htail
          have hz : z ∈ first :: (left ++ (e, z) :: right').map Prod.snd := by simp
          obtain rfl : z.pos = right := by
            simpa [Branch.child?, Branch.children, hs.index, Function.comp_def] using hright
          refine (gives_leftmostLeaf (hchildren z hz) (hfulls z hz) (by omega)).andThen ?_
          rintro leaf ⟨a, ha, hon⟩
          refine gives_pure fun d hd => ?_
          cases hd
          obtain ⟨zs, hzs⟩ := List.head?_eq_some_iff.mp ha
          refine ⟨a, hfound _ hinfix
            (first.entries ++ left.flatMap fun s => [s.1] ++ s.2.entries) e a
            (zs ++ right'.flatMap fun s => [s.1] ++ s.2.entries) ?_ hhit, rfl, hon⟩
          simp [Subtree.branch, hzs]
        · exact gives_pure nofun

/-- The next entry is the first one ahead. -/
theorem gives_next (hcursor : cursor.PointsInto c) :
    Gives t.layout (t.next cursor) c fun c' =>
      cursor.Landed c c' (cursor.ahead t es).head? .afterLast := by
  obtain ⟨state, current, hint⟩ := cursor
  unfold next Cursor.ahead
  cases state with
  | afterLast => exact gives_pure ⟨rfl, rfl, fun _ => .inr⟩
  | beforeFirst => exact hb.gives_first
  | between =>
    cases current with
    | none => exact hb.gives_first
    | some current => exact hb.gives_nextBySearch hasc current
  | onKey =>
    cases current with
    | none => exact hb.gives_first
    | some current =>
      cases hint with
      | none => exact hb.gives_nextBySearch hasc current
      | some hint =>
        refine (hb.gives_nextFromHint hasc (hcursor hint rfl) current).andThen ?_
        intro o ho
        cases o with
        | none => exact hb.gives_nextBySearch hasc current
        | some d =>
          obtain ⟨e, he, hstate, hon⟩ := ho d rfl
          dsimp only
          rw [he]
          exact gives_landed hstate hon _

/-- The entry in front is the last one behind. -/
theorem gives_previous : Gives t.layout (t.previous cursor) c fun c' =>
    cursor.Landed c c' (cursor.behind t es).getLast? .beforeFirst := by
  have hback : ∀ current, Gives t.layout (do
      let d ← t.locate current true
      let d ← if d.state = .beforeFirst then pure d else t.predecessor d
      t.settle cursor d) c fun c' =>
        cursor.Landed c c' (t.below current es).getLast? .beforeFirst := by
    intro current
    refine (hb.gives_locate_exact hasc current).andThen ?_
    rintro d (⟨hnil, rfl⟩ | ⟨e, hd⟩ | ⟨-, hd, -⟩)
    · rw [hnil]
      exact gives_settle_last (d := {}) rfl
    · rw [if_neg (by simp [hd.state])]
      exact hd.predecessor.andThen fun d' hd' => gives_settle_last hd'
    · split
      · next hstate =>
        refine gives_settle_last ?_
        rw [hd.first.mp hstate]
        exact hstate
      · exact hd.predecessor.andThen fun d' hd' => gives_settle_last hd'
  obtain ⟨state, current, hint⟩ := cursor
  unfold previous Cursor.behind
  cases state with
  | beforeFirst => exact gives_pure ⟨rfl, rfl, fun _ => .inr⟩
  | afterLast => exact hb.gives_last
  | onKey | between =>
    cases current with
    | none => exact hb.gives_last
    | some current => exact hback current

/-! ## Moves to a key -/

/-- A search for a key stands on the first entry that has it, or next to the key. -/
theorem gives_find (key : Bytes) : Gives t.layout (t.find cursor key) c fun c' =>
    ∃ front back, (∀ a ∈ front, t.collation.compare key a.key = .gt) ∧
      ((∃ e pos, es = front ++ e :: back ∧ t.collation.compare key e.key = .eq ∧
          (c.cells pos).isSome ∧ c' = Cursor.land e pos) ∨
        ∃ state, es = front ++ back ∧ (∀ a ∈ back, t.collation.compare key a.key = .lt) ∧
          state ≠ .onKey ∧ (state = .beforeFirst ↔ front = []) ∧
          (state = .afterLast ↔ es ≠ [] ∧ back = []) ∧
          c' = Cursor.park state ⟨key, t.layout.maxRecord⟩) := by
  unfold find
  refine (hb.gives_locate hasc ⟨key, 0⟩ false).andThen ?_
  simp only [Entry.compare_loose]
  rintro d (⟨hnil, rfl⟩ | ⟨hne, front, back, hless, ⟨e, hentries, hhit, hd⟩ | ⟨hentries, hgreater, hd⟩⟩)
  · exact gives_pure ⟨[], [], nofun, .inr ⟨.beforeFirst, hnil, nofun, nofun, by simp,
      by simp [hnil], rfl⟩⟩
  · rw [if_pos hd.state]
    exact (gives_land hd.state hd.on).imp fun c' ⟨pos, hpos, hland⟩ =>
      ⟨front, back, hless, .inl ⟨e, pos, hentries, hhit, hpos, hland⟩⟩
  · rw [if_neg hd.state]
    exact gives_pure ⟨front, back, hless, .inr ⟨_, hentries, hgreater, hd.state, hd.first,
      by simpa [hne] using hd.last, rfl⟩⟩

end Board.Bears

/-! ## Searches in a file -/

namespace Tree

open Program

variable {t : Tree} {c : Board} {p : Plan} {cursor : Cursor} (hp : p.Holds t.layout c)
  (hlevels : p.levels ≤ maxLevels + 1) (hasc : t.Ascending p.entries)
include hp hlevels hasc

/-- A search in a file. -/
theorem gives_locate (target : Entry) (exact : Bool) : Gives t.layout (t.locate target exact) c
    fun d => (p.entries = [] ∧ d = {}) ∨
      (p.entries ≠ [] ∧ ∃ front back,
        (∀ a ∈ front, Entry.compare t.collation exact target a = .gt) ∧
        ((∃ e, p.entries = front ++ e :: back ∧ Entry.compare t.collation exact target e = .eq ∧
            d.Hits t c front e back) ∨
          (p.entries = front ++ back ∧
            (∀ a ∈ back, Entry.compare t.collation exact target a = .lt) ∧
            d.Misses t c front back))) :=
  (hp.bears hlevels).gives_locate hasc target exact

/-- The next entry is the first one ahead. -/
theorem gives_next (hcursor : cursor.Aligned t.layout) :
    Gives t.layout (t.next cursor) c fun c' =>
      cursor.Moved t.layout c' (cursor.ahead t p.entries).head? .afterLast :=
  ((hp.bears hlevels).gives_next hasc (hcursor.pointsInto hp.closed)).imp
    fun _ h => h.moved hp.closed hcursor

/-- The entry in front is the last one behind. -/
theorem gives_previous (hcursor : cursor.Aligned t.layout) :
    Gives t.layout (t.previous cursor) c fun c' =>
      cursor.Moved t.layout c' (cursor.behind t p.entries).getLast? .beforeFirst :=
  ((hp.bears hlevels).gives_previous hasc).imp fun _ h => h.moved hp.closed hcursor

/-- A search for a key stands on the first entry that has it, or next to the key. -/
theorem gives_find (key : Bytes) : Gives t.layout (t.find cursor key) c fun c' =>
    cursor.Sought t key p.entries c' := by
  refine ((hp.bears hlevels).gives_find hasc key).imp ?_
  rintro c' ⟨front, back, hless, ⟨e, pos, hentries, hhit, hpos, rfl⟩ |
    ⟨state, hentries, hgreater, hstate, hfirst, hlast, rfl⟩⟩
  · rw [hentries] at hasc ⊢
    have hmoved : cursor.Moved t.layout (Cursor.land e pos) (some e) .onKey := by
      refine ⟨rfl, rfl, fun q hq => ?_⟩
      cases hq
      exact hp.closed.aligned (.inr hpos)
    exact .of_found hless hasc hhit hmoved
  · rw [hentries] at hlast ⊢
    exact .of_missed hless hgreater hstate hfirst hlast

end Tree

end PagedIndex
