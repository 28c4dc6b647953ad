import Mathlib.Data.List.Perm.Subperm
import PagedIndex.Proofs.Tree.Verdict

/-!
# Blocks told apart

The blocks that a check has seen are pairwise different: no block is reached twice in a tree that is
in order, nor in a chain that ends, and what a block holds tells what it is for. There are as many
of them as positions up to the mark of the last block, so they are those positions unless a link
leads elsewhere.

## Main definitions

* `Program.allocateAll` — takes blocks one after the other.
* `Board.Parted` — blocks that are pairwise different and as many as counted.

## Main statements

* `Subtree.OnBoard.nodup` — no block is reached twice in a tree in order.
* `Chain.nodup` — nor in a chain that ends.
* `Board.Reserve.acts_allocateAll` — blocks that are taken are not in use.
* `Tree.Surveyed.parted` — what a check that is passed says of the blocks of a file.
-/

namespace PagedIndex

/-! ## Trees -/

namespace Subtree

variable {l : Layout} {cells : BlockPos → Option Cell} {depth : Nat} {x y : Subtree} {t : Tree}
  {pos : BlockPos} {first : Subtree} {rest rest' : List (Entry × Subtree)}

/-- Subtrees with separators are told by their blocks if each is told by its own. -/
theorem eq_of_map_pos (h : ∀ s ∈ rest, ∀ s' ∈ rest', s.2.pos = s'.2.pos → s.2 = s'.2)
    (hmap : rest.map (fun s => (s.1, s.2.pos)) = rest'.map fun s => (s.1, s.2.pos)) :
    rest = rest' := by
  induction rest generalizing rest' with
  | nil => exact (List.map_eq_nil_iff.mp hmap.symm).symm
  | cons s rest ih =>
    obtain ⟨s', rest'', rfl, hs, hrest⟩ := List.map_eq_cons_iff.mp hmap.symm
    simp only [Prod.mk.injEq] at hs
    have hsubtree := h s List.mem_cons_self s' List.mem_cons_self hs.2.symm
    rw [Prod.ext hs.1.symm hsubtree, ih (fun s hs s' hs' => h s (List.mem_cons_of_mem _ hs) s'
      (List.mem_cons_of_mem _ hs')) hrest.symm]

/-- A block is the first one of one subtree only. -/
theorem OnBoard.eq_of_pos (hx : x.OnBoard l cells depth) (hy : y.OnBoard l cells depth)
    (hpos : x.pos = y.pos) : x = y := by
  induction hx generalizing y with
  | leaf hcell =>
    have hnode := hy.cell
    rw [← hpos, pos_leaf, hcell] at hnode
    cases hy with
    | leaf =>
      cases hpos
      cases hnode
      rfl
  | @branch depth pos first rest hcell _ _ _ ih =>
    have hnode := hy.cell
    rw [← hpos, pos_branch, hcell] at hnode
    cases hy with
    | @branch _ pos' first' rest' _ _ hchildren' =>
      simp only [Subtree.branch, Option.some.injEq, Cell.node.injEq, Node.branch.injEq,
        Branch.mk.injEq] at hnode
      obtain ⟨hfirst, hrest⟩ := hnode
      have hfirsts : first = first' :=
        ih _ List.mem_cons_self (hchildren' _ List.mem_cons_self) hfirst
      have hrests : rest = rest' := eq_of_map_pos (fun s hs s' hs' hpos =>
        ih _ (List.mem_cons_of_mem _ (List.mem_map_of_mem hs))
          (hchildren' _ (List.mem_cons_of_mem _ (List.mem_map_of_mem hs'))) hpos) hrest
      cases hpos
      rw [hfirsts, hrests]

/-- The entries of a child precede those of the children behind it. -/
theorem pairwise_children (hasc : t.Ascending (Subtree.branch pos first rest).entries) :
    (first :: rest.map Prod.snd).Pairwise fun y z =>
      ∀ a ∈ y.entries, ∀ b ∈ z.entries, t.precedes a b := by
  obtain ⟨-, hrest, hfirst⟩ := List.pairwise_append.mp hasc
  refine List.pairwise_cons.mpr ⟨fun z hz a ha b hb => ?_, ?_⟩
  · obtain ⟨s, hs, rfl⟩ := List.mem_map.mp hz
    exact hfirst a ha b (List.mem_flatMap.mpr ⟨s, hs, List.mem_append_right _ hb⟩)
  · obtain ⟨-, hpairs⟩ := List.pairwise_flatMap.mp hrest
    exact List.pairwise_map.mpr (hpairs.imp fun h a ha b hb =>
      h a (List.mem_append_right _ ha) b (List.mem_append_right _ hb))

/-- No block is reached twice in a tree in order: its entries would precede themselves. -/
theorem OnBoard.nodup (h : x.OnBoard l cells depth) (hfull : x.Full) (hasc : t.Ascending x.entries) :
    x.blocks.Nodup := by
  induction h with
  | leaf => exact List.pairwise_singleton _ _
  | @branch depth pos first rest hcell hfits hchildren hfulls ih =>
    have honBoard : (Subtree.branch pos first rest).OnBoard l cells (depth + 1) :=
      .branch hcell hfits hchildren hfulls
    refine List.nodup_cons.mpr ⟨fun hmem => ?_, List.pairwise_flatMap.mpr ⟨fun y hy => ?_, ?_⟩⟩
    · -- a child has less levels than the branch
      obtain ⟨y, hy, hmem⟩ := List.mem_flatMap.mp hmem
      obtain ⟨z, depth', hz, hle, hzstands, -⟩ := (hchildren y hy).exists_subtree (hfulls y hy) hmem
      have := honBoard.depth_eq hzstands hz.symm
      omega
    · exact ih y hy (hfulls y hy) (hasc.sublist (infix_entries hy).sublist)
    · refine (pairwise_children hasc).imp_of_mem fun {y z} hy hz hless q hqy q' hqz heq => ?_
      obtain ⟨y', m, hy', -, hystands, hyfull, hysub⟩ :=
        (hchildren y hy).exists_subtree (hfulls y hy) hqy
      obtain ⟨z', n, hz', -, hzstands, -, hzsub⟩ := (hchildren z hz).exists_subtree (hfulls z hz)
        (heq ▸ hqz : q ∈ z.blocks)
      obtain rfl := hystands.depth_eq hzstands (hy'.trans hz'.symm)
      obtain rfl := hystands.eq_of_pos hzstands (hy'.trans hz'.symm)
      obtain ⟨e, he⟩ := List.exists_mem_of_ne_nil _ (hystands.entries_ne_nil hyfull)
      exact Tree.not_precedes_self e (hless e (hysub.subset he) e (hzsub.subset he))

end Subtree

/-- A tree has as many blocks as leaves and branches. -/
theorem Outline.OnBoard.length_blocks {cells : BlockPos → Option Cell} {depth : Nat} {o : Outline}
    (h : o.OnBoard cells depth) : o.blocks.length = o.leafDepths.length + o.branches := by
  induction h with
  | leaf => rfl
  | @branch depth pos es b os _ _ _ _ _ ih =>
    have hall : ∀ os : List Outline, (∀ o ∈ os, o.blocks.length = o.leafDepths.length + o.branches) →
        (os.flatMap Outline.blocks).length =
          (os.flatMap Outline.leafDepths).length + (os.map Outline.branches).sum := by
      intro os hos
      induction os with
      | nil => rfl
      | cons o os ihos =>
        have hfirst := hos o List.mem_cons_self
        have hrest := ihos fun o' ho' => hos o' (List.mem_cons_of_mem _ ho')
        simp only [List.flatMap_cons, List.length_append, List.map_cons, List.sum_cons]
        omega
    simp only [blocks_branch, leafDepths_branch, branches_branch, List.length_cons, List.length_map,
      hall os ih]
    omega

/-! ## Chains -/

section Chain

variable {α : Type} {pos : α → BlockPos} {links : α → BlockPos → Prop} {head : BlockPos} {a : α}
  {as bs front back : List α}

theorem Chain.exists_link (h : Chain pos links head as) : ∀ a ∈ as, ∃ next, links a next := by
  induction as generalizing head with
  | nil => exact nofun
  | cons a as ih =>
    obtain ⟨-, next, hnext, hrest⟩ := h
    exact List.forall_mem_cons.mpr ⟨⟨next, hnext⟩, ih hrest⟩

/-- What is behind a block of a chain is a chain. -/
theorem Chain.behind (h : Chain pos links head (front ++ a :: back)) :
    Chain pos links (pos a) (a :: back) := by
  induction front generalizing head with
  | nil => exact ⟨rfl, h.2⟩
  | cons b front ih =>
    obtain ⟨-, next, -, hrest⟩ := h
    exact ih hrest

variable (hnull : ∀ a next, links a next → pos a ≠ .null)
  (hsole : ∀ a b p q, links a p → links b q → pos a = pos b → p = q)
include hnull hsole

/-- Chains from one block are equally long. -/
theorem Chain.length_eq (h : Chain pos links head as) (h' : Chain pos links head bs) :
    as.length = bs.length := by
  induction as generalizing head bs with
  | nil =>
    cases bs with
    | nil => rfl
    | cons b bs =>
      obtain ⟨hb, next, hnext, -⟩ := h'
      exact absurd (hb.symm.trans h) (hnull b next hnext)
  | cons a as ih =>
    obtain ⟨ha, next, hnext, hrest⟩ := h
    cases bs with
    | nil => exact absurd (ha.symm.trans h') (hnull a next hnext)
    | cons b bs =>
      obtain ⟨hb, next', hnext', hrest'⟩ := h'
      obtain rfl := hsole a b next next' hnext hnext' (ha.symm.trans hb)
      exact congrArg (· + 1) (ih hrest hrest')

/-- No block is reached twice in a chain that ends. -/
theorem Chain.nodup (h : Chain pos links head as) : (as.map pos).Nodup := by
  induction as generalizing head with
  | nil => exact List.nodup_nil
  | cons a as ih =>
    have hwhole : Chain pos links (pos a) (a :: as) := ⟨rfl, h.2⟩
    obtain ⟨-, next, -, hrest⟩ := h
    refine List.nodup_cons.mpr ⟨fun hmem => ?_, ih hrest⟩
    obtain ⟨b, hb, hpos⟩ := List.mem_map.mp hmem
    obtain ⟨front, back, rfl⟩ := List.append_of_mem hb
    have hlength := Chain.length_eq hnull hsole hwhole (hpos ▸ hrest.behind)
    simp only [List.length_cons, List.length_append] at hlength
    omega

end Chain

/-! ## Blocks that are taken -/

/-- Takes blocks for roles, one after the other. -/
def Program.allocateAll (l : Layout) : List Role → Program (List BlockPos)
  | [] => return []
  | role :: roles => do
    let pos ← allocate l role
    let rest ← allocateAll l roles
    return pos :: rest

/-- Blocks in use and blocks that can be taken. No link of them leads behind the mark. -/
structure Board.Reserve (l : Layout) (c : Board) (used free : List BlockPos) : Prop where
  header : c.cells .null = none
  deleted : Chain id c.Deleted c.pointers.freeHead free
  nodup : free.Nodup
  apart : ∀ p ∈ free, p ∉ used
  behind : ∀ p ∈ used ++ free, p.offset ≤ c.pointers.highWater.offset
  aligned : l.blockSize ∣ c.pointers.highWater.offset

namespace Board.Reserve

open Program

variable {l : Layout} {c : Board} {used free : List BlockPos} {pos next : BlockPos} {role : Role}

theorem reuse (h : c.Reserve l used (pos :: free)) (hhead : c.pointers.freeHead = pos)
    (hrest : Chain id c.Deleted next free) : (c.reuse next).Reserve l (pos :: used) free := by
  subst hhead
  obtain ⟨hnew, hnodup⟩ := List.nodup_cons.mp h.nodup
  have hcells : ∀ p, p ≠ c.pointers.freeHead → (c.reuse next).cells p = c.cells p :=
    fun p hp => Board.cells_put_ne hp
  have hnull : c.pointers.freeHead ≠ .null := by
    obtain ⟨-, next, hcell, -⟩ := h.deleted
    intro hnull
    have hcell : c.cells c.pointers.freeHead = some (.deleted next) := hcell
    rw [hnull, h.header] at hcell
    cases hcell
  refine ⟨(hcells _ hnull.symm).trans h.header, Board.deleted_congr hrest fun p hp =>
    hcells p (ne_of_mem_of_not_mem hp hnew), hnodup, fun p hp => ?_, fun p hp => ?_, h.aligned⟩
  · rw [List.mem_cons, not_or]
    exact ⟨ne_of_mem_of_not_mem hp hnew, h.apart p (List.mem_cons_of_mem _ hp)⟩
  · refine h.behind p ?_
    simp only [List.mem_append, List.mem_cons] at hp ⊢
    exact or_left_comm.mp (or_assoc.mp hp)

theorem extend (h : c.Reserve l used []) (hsize : 0 < l.blockSize) :
    c.pointers.highWater.following l.blockSize ∉ .null :: used ∧
      (c.extend l).Reserve l (c.pointers.highWater.following l.blockSize :: used) [] := by
  generalize hpos : c.pointers.highWater.following l.blockSize = pos
  have hoffset : pos.offset = c.pointers.highWater.offset + l.blockSize := by
    rw [← hpos]
    rfl
  have hmark : (c.extend l).pointers.highWater = pos := hpos
  have hnull : pos ≠ .null := by
    rintro rfl
    have : (0 : Nat) = _ := hoffset
    omega
  have hnew : pos ∉ used := fun hmem => by
    have := h.behind pos (List.mem_append_left _ hmem)
    omega
  have hcells : ∀ p, p ≠ pos → (c.extend l).cells p = c.cells p := by
    rw [← hpos]
    exact fun p hp => Board.cells_put_ne hp
  refine ⟨by simp [hnull, hnew], (hcells _ hnull.symm).trans h.header, h.deleted, List.nodup_nil,
    nofun, fun p hp => ?_, ?_⟩
  · rw [hmark, hoffset]
    rw [List.append_nil] at hp
    rcases List.mem_cons.mp hp with rfl | hp
    · exact Nat.le_of_eq hoffset
    · exact Nat.le_add_right_of_le (h.behind p (List.mem_append_left _ hp))
  · rw [hmark, hoffset]
    exact Nat.dvd_add h.aligned (Nat.dvd_refl _)

/-- A block that is taken is not in use, and is in use from then on. -/
theorem acts_allocate {β : Type} {f : BlockPos → Program β} {R : Except Error β → Board → Prop}
    (h : c.Reserve l used free) (hl : l.Workable) (hrole : role ≠ .header)
    (hfull : R (.error (.internal .sizeLimit)) c)
    (hf : ∀ pos free' d, pos ∉ .null :: used → d.Reserve l (pos :: used) free' → Acts l (f pos) d R) :
    Acts l (allocate l role >>= f) c R := by
  cases free with
  | cons pos free =>
    obtain ⟨hhead, next, hnext, hrest⟩ := h.deleted
    have hcell : c.cells c.pointers.freeHead = some (.deleted next) := hhead ▸ hnext
    have hnull : pos ≠ .null := by
      rintro rfl
      exact nomatch h.header.symm.trans hnext
    have hgo := hf pos free _ (by simpa [hnull] using h.apart pos List.mem_cons_self)
      (h.reuse hhead hrest)
    refine Program.acts_allocate_reuse hrole hcell ?_
    rw [show c.pointers.freeHead = pos from hhead]
    exact hgo.holding
  | nil =>
    rcases Nat.lt_or_ge l.maxRecord (c.pointers.highWater.offset + l.blockSize) with hlt | hge
    · exact Program.acts_allocate_full h.deleted hlt hfull
    · obtain ⟨hnew, hreserve⟩ := h.extend hl.blockSize_pos
      exact Program.acts_allocate_extend hrole h.deleted hge h.aligned hl.blockSize_pos hl.bound
        (hf _ _ _ hnew hreserve).holding

/-- Blocks that are taken one after the other are pairwise different, and none of them is in use. -/
theorem acts_allocateAll {roles : List Role} (h : c.Reserve l used free) (hl : l.Workable)
    (hroles : ∀ role ∈ roles, role ≠ .header) : Acts l (allocateAll l roles) c fun r _ =>
      r = .error (.internal .sizeLimit) ∨ ∃ ps, r = .ok ps ∧ ps.Nodup ∧ ∀ p ∈ ps,
        p ∉ .null :: used := by
  induction roles generalizing c used free with
  | nil => exact acts_pure (.inr ⟨[], rfl, List.nodup_nil, nofun⟩)
  | cons role roles ih =>
    refine h.acts_allocate hl (hroles role List.mem_cons_self) (.inl rfl) fun pos free' d hpos hd => ?_
    refine (ih hd fun role' hrole' => hroles role' (List.mem_cons_of_mem _ hrole')).bind ?_ ?_
    · rintro e d' (he | ⟨ps, he, -⟩)
      · exact .inl he
      · cases he
    · rintro ps d' (ha | ⟨_, ha, hnodup, hnew⟩)
      · cases ha
      · cases ha
        refine acts_pure (.inr ⟨pos :: ps, rfl, List.nodup_cons.mpr ⟨fun hmem => ?_, hnodup⟩, ?_⟩)
        · exact hnew pos hmem (by simp)
        · refine List.forall_mem_cons.mpr ⟨hpos, fun p hp hmem => hnew p hp ?_⟩
          simp only [List.mem_cons] at hmem ⊢
          exact hmem.imp_right .inr

end Board.Reserve

/-! ## Files whose check was passed -/

/-- Blocks of a file, by what they are for. -/
structure Board.Parted (l : Layout) (c : Board) (used free listed : List BlockPos) : Prop where
  /-- The header among them, they are pairwise different, -/
  nodup : (.null :: (used ++ (free ++ listed))).Nodup
  /-- and as many as there are positions up to the mark of the last block. -/
  length : (.null :: (used ++ (free ++ listed))).length =
    (BlockPos.upTo l.blockSize c.pointers.highWater.offset).length
  /-- They are those positions unless one of them is elsewhere. -/
  whole : (∀ p, p ∈ .null :: (used ++ (free ++ listed)) ↔
    l.blockSize ∣ p.offset ∧ p.offset ≤ c.pointers.highWater.offset) ↔
      ∀ p ∈ used ++ (free ++ listed),
        l.blockSize ∣ p.offset ∧ p.offset ≤ c.pointers.highWater.offset
  /-- If none is behind the mark, then no block that is taken is in use. -/
  taken : l.blockSize ∣ c.pointers.highWater.offset →
    (∀ p ∈ used ++ (free ++ listed), p.offset ≤ c.pointers.highWater.offset) →
    ∀ roles : List Role, (∀ role ∈ roles, role ≠ .header) →
      Program.Acts l (Program.allocateAll l roles) c fun r _ =>
        r = .error (.internal .sizeLimit) ∨
          ∃ ps, r = .ok ps ∧ ps.Nodup ∧ ∀ p ∈ ps, p ∉ .null :: (used ++ listed)

/-- As many different blocks as positions are those positions unless one of them is elsewhere. -/
theorem Board.Parted.whole_of_length {l : Layout} {mark : Nat} {ps : List BlockPos}
    (hsize : 0 < l.blockSize) (hnodup : (.null :: ps).Nodup)
    (hlength : (.null :: ps).length = (BlockPos.upTo l.blockSize mark).length) :
    (∀ p, p ∈ .null :: ps ↔ l.blockSize ∣ p.offset ∧ p.offset ≤ mark) ↔
      ∀ p ∈ ps, l.blockSize ∣ p.offset ∧ p.offset ≤ mark := by
  refine ⟨fun h p hp => (h p).mp (List.mem_cons_of_mem _ hp), fun h p => ?_⟩
  have hsubset : (.null :: ps) ⊆ BlockPos.upTo l.blockSize mark := by
    refine List.cons_subset.mpr ⟨(BlockPos.mem_upTo hsize).mpr ⟨Nat.dvd_zero _, Nat.zero_le _⟩, ?_⟩
    exact fun q hq => (BlockPos.mem_upTo hsize).mpr (h q hq)
  have hperm := (hnodup.subperm hsubset).perm_of_length_le (Nat.le_of_eq hlength.symm)
  rw [hperm.mem_iff]
  exact BlockPos.mem_upTo hsize

namespace Tree.Surveyed

variable {t : Tree} {c : Board} {stats : IndexStats} {tree : Option Outline} {free : List BlockPos}
  {slots : List (BlockPos × List Nat)} {blocks : BlockPos → Option Bytes} {p : Pointers}

/-- The blocks of the tree are tree blocks, and none is reached twice. -/
theorem nodup_blocks (h : t.Surveyed (Board.read t.layout blocks p) stats tree free slots)
    (hsize : 0 < t.layout.blockSize) : (tree.elim [] Outline.blocks).Nodup ∧
      ∀ q ∈ tree.elim [] Outline.blocks, ∃ n,
        (Board.read t.layout blocks p).cells q = some (.node n) := by
  have honBoard := h.onBoard
  have hasc := h.ascending
  cases tree with
  | none => exact ⟨List.nodup_nil, nofun⟩
  | some o =>
    obtain ⟨depth, honBoard, -⟩ := honBoard
    obtain ⟨-, hfull, hsubtree, hentries, hblocks⟩ :=
      honBoard.subtree (l := t.layout) fun pos n => Board.fits_of_cells_read hsize
    dsimp only [Option.elim] at hasc ⊢
    rw [← hblocks]
    refine ⟨hsubtree.nodup hfull (hentries ▸ hasc), fun q hq => ?_⟩
    obtain ⟨n, hcell, -⟩ := hsubtree.closed q hq
    exact ⟨n, hcell⟩

/-- There are as many blocks as positions up to the mark of the last block. -/
theorem length_blocks (h : t.Surveyed c stats tree free slots) :
    (.null :: (tree.elim [] Outline.blocks ++ (free ++ slots.map Prod.fst))).length =
      (BlockPos.upTo t.layout.blockSize c.pointers.highWater.offset).length := by
  have htree : (tree.elim [] Outline.blocks).length = stats.leafBlocks + stats.branchBlocks := by
    rw [h.leafBlocks, h.branchBlocks]
    have honBoard := h.onBoard
    cases tree with
    | none => rfl
    | some o =>
      obtain ⟨depth, honBoard, -⟩ := honBoard
      exact honBoard.length_blocks
  have htotal := h.total
  simp only [List.length_cons, List.length_append, List.length_map, htree, BlockPos.length_upTo]
  omega

/-- Whatever a file holds, the blocks that a check has seen are told apart. -/
theorem parted (h : t.Surveyed (Board.read t.layout blocks p) stats tree free slots)
    (hl : t.layout.Workable) : (Board.read t.layout blocks p).Parted t.layout
      (tree.elim [] Outline.blocks) free (slots.map Prod.fst) := by
  obtain ⟨hblocks, hnode⟩ := h.nodup_blocks hl.blockSize_pos
  have hcells : ∀ q cell, (Board.read t.layout blocks p).cells q = some cell → q ≠ .null :=
    fun q cell hcell => (Board.cells_read_eq_some_iff.mp hcell).1
  have hdeleted := h.deleted.exists_link
  have hlisted : ∀ q ∈ slots.map Prod.fst,
      ∃ s, (Board.read t.layout blocks p).cells q = some (.slots s) := by
    intro q hq
    obtain ⟨s, hs, rfl⟩ := List.mem_map.mp hq
    obtain ⟨next, hnext⟩ := h.listed.exists_link s hs
    exact ⟨_, hnext⟩
  have hfree : free.Nodup := by
    simpa using h.deleted.nodup (fun q next => hcells q _) fun q q' next next' hq hq' heq => by
      obtain rfl : q = q' := heq
      exact Cell.deleted.inj (Option.some.inj (hq.symm.trans hq'))
  have hslots : (slots.map Prod.fst).Nodup :=
    h.listed.nodup (fun s next => hcells s.1 _) fun s s' next next' hs hs' heq => by
      have hcell : (Board.read t.layout blocks p).cells s'.1 = some (.slots ⟨next, s.2⟩) := heq ▸ hs
      exact (Slots.mk.inj (Cell.slots.inj (Option.some.inj (hcell.symm.trans hs')))).1
  have hapart : ∀ q ∈ free, q ∉ tree.elim [] Outline.blocks ++ slots.map Prod.fst := by
    intro q hq hmem
    obtain ⟨next, hcell⟩ := hdeleted q hq
    rcases List.mem_append.mp hmem with hmem | hmem
    · obtain ⟨n, hn⟩ := hnode q hmem
      exact nomatch hn.symm.trans hcell
    · obtain ⟨s, hs⟩ := hlisted q hmem
      exact nomatch hs.symm.trans hcell
  have hnodup : (.null :: (tree.elim [] Outline.blocks ++ (free ++ slots.map Prod.fst))).Nodup := by
    refine List.nodup_cons.mpr ⟨fun hmem => ?_, List.nodup_append.mpr ⟨hblocks,
      List.nodup_append.mpr ⟨hfree, hslots, ?_⟩, ?_⟩⟩
    · rcases List.mem_append.mp hmem with hmem | hmem
      · obtain ⟨n, hn⟩ := hnode _ hmem
        exact hcells _ _ hn rfl
      · rcases List.mem_append.mp hmem with hmem | hmem
        · obtain ⟨next, hcell⟩ := hdeleted _ hmem
          exact hcells _ _ hcell rfl
        · obtain ⟨s, hs⟩ := hlisted _ hmem
          exact hcells _ _ hs rfl
    · rintro q hq q' hq' rfl
      exact hapart q hq (List.mem_append_right _ hq')
    · rintro q hq q' hq' rfl
      rcases List.mem_append.mp hq' with hq' | hq'
      · exact hapart q hq' (List.mem_append_left _ hq)
      · obtain ⟨n, hn⟩ := hnode q hq
        obtain ⟨s, hs⟩ := hlisted q hq'
        exact nomatch hs.symm.trans hn
  refine ⟨hnodup, h.length_blocks, Board.Parted.whole_of_length hl.blockSize_pos hnodup h.length_blocks,
    fun haligned hbehind roles hroles => ?_⟩
  refine Board.Reserve.acts_allocateAll ⟨Board.cells_read_null, h.deleted, hfree, hapart,
    fun q hq => hbehind q ?_, haligned⟩ hl hroles
  simp only [List.mem_append] at hq ⊢
  rcases hq with (hq | hq) | hq
  · exact .inl hq
  · exact .inr (.inr hq)
  · exact .inr (.inl hq)

end Tree.Surveyed

end PagedIndex
