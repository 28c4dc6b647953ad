import PagedIndex.Proofs.Tree.Moves
import PagedIndex.Proofs.Tree.Outline

/-!
# What a check has seen

A check that is passed has seen a tree below the root, in order and with all leaves equally deep,
and two chains that end. This is so for any contents: each part of the walk is taken apart from what
it returns.

## Main definitions

* `Survey.Counts` — what a walk has added to a survey.
* `Tree.Surveyed` — a file whose check was passed.

## Main statements

* `Tree.reads_surveyNode` — below a block that is walked over there is a tree.
* `Tree.surveyed_of_reads` — a check that is passed has seen the tree and the chains.
* `Tree.Surveyed.reads_next`, `Tree.Surveyed.reads_previous`, `Tree.Surveyed.reads_find`,
  `Tree.Surveyed.reads_outline` — moves and outlines of a file whose check was passed.
-/

namespace PagedIndex

/-- Entries up to one and entries from it on are in order together. -/
theorem Tree.Ascending.join {t : Tree} {front back : List Entry} {e : Entry}
    (hfront : t.Ascending (front ++ [e])) (hback : t.Ascending (e :: back)) :
    t.Ascending (front ++ e :: back) := by
  obtain ⟨hfront, -, hless⟩ := List.pairwise_append.mp hfront
  refine List.pairwise_append.mpr ⟨hfront, hback, fun a ha b hb => ?_⟩
  have hae := hless a ha e List.mem_cons_self
  rcases List.mem_cons.mp hb with rfl | hb
  · exact hae
  · exact precedes_trans hae (List.rel_of_pairwise_cons hback hb)

/-- A walk over a part of a tree has added entries, leaves and branches to a survey. All leaves that
it knows of are at one depth. -/
structure Survey.Counts (s : Survey) (leafDepth entries leaves branches : Nat) (s' : Survey) :
    Prop where
  before : ∀ n ∈ s.leafDepth, n = leafDepth
  leafDepth : s'.leafDepth = some leafDepth
  entries : s'.entries = s.entries + entries
  leaves : s'.leaves = s.leaves + leaves
  branches : s'.branches = s.branches + branches

namespace Tree

open Program

variable {t : Tree} {blocks : BlockPos → Option Bytes} {p : Pointers} {pos child head : BlockPos}
  {levels here i : Nat} {lower upper : Option Entry} {s s' : Survey} {es : List Entry}
  {rest : List (Entry × BlockPos)}

/-! ## The tree -/

theorem reads_checkOrder (h : (t.checkOrder pos lower es upper).Reads blocks p (.ok ())) :
    t.Ascending (lower.toList ++ es ++ upper.toList) := by
  unfold checkOrder at h
  split at h
  · cases h
  · next hordered => exact (ordered_iff_ascending _).mp (by simpa using hordered)

theorem reads_surveyLeaf (h : (surveyLeaf true pos here s).Reads blocks p (.ok s')) :
    s.Counts here 0 1 0 s' := by
  unfold surveyLeaf at h
  dsimp only at h
  split at h
  · cases h
  · next hsame =>
    have hdepth : s.leafDepth.getD here = here := by simpa using hsame
    cases h
    refine ⟨fun n hn => ?_, congrArg some hdepth, rfl, rfl, rfl⟩
    rw [Option.mem_def.mp hn] at hdepth
    exact hdepth

/-- Below the children that are walked over there are trees, all equally deep. -/
theorem reads_surveyChildren {visit : BlockPos → Option Entry → Option Entry → Survey → Program Survey}
    (hreader : ∀ pos lower upper s, (visit pos lower upper s).Reader)
    (hvisit : ∀ pos lower upper s s', (visit pos lower upper s).Reads blocks p (.ok s') →
      ∃ (depth : Nat) (o : Outline), o.pos = pos ∧ depth < levels ∧
        o.OnBoard (Board.read t.layout blocks p).cells depth ∧
        t.Ascending (lower.toList ++ o.entries ++ upper.toList) ∧
        s.Counts (here + depth) o.entries.length o.leafDepths.length o.branches s')
    (h : (surveyChildren visit pos i lower child rest upper s).Reads blocks p (.ok s')) :
    ∃ (depth : Nat) (os : List Outline) (n : Nat), os.map Outline.pos = child :: rest.map Prod.snd ∧
      depth < levels ∧ (∀ o ∈ os, o.OnBoard (Board.read t.layout blocks p).cells depth) ∧
      t.Ascending (lower.toList ++ weave (rest.map Prod.fst) (os.map Outline.entries) ++
        upper.toList) ∧
      n + rest.length = (weave (rest.map Prod.fst) (os.map Outline.entries)).length ∧
      s.Counts (here + depth) n (os.flatMap Outline.leafDepths).length (os.map Outline.branches).sum
        s' := by
  induction rest generalizing i lower child s with
  | nil =>
    unfold surveyChildren at h
    split at h
    · cases h
    · obtain ⟨depth, o, hpos, hlevels, honBoard, hasc, hcounts⟩ := hvisit _ _ _ _ _ h
      refine ⟨depth, [o], o.entries.length, by simp [hpos], hlevels, ?_, ?_, ?_, ?_⟩
      · exact fun o' ho' => List.mem_singleton.mp ho' ▸ honBoard
      · simpa [weave] using hasc
      · simp [weave]
      · simpa using hcounts
  | cons separator rest ih =>
    obtain ⟨e, next⟩ := separator
    unfold surveyChildren at h
    split at h
    · cases h
    · obtain ⟨s'', hfirst, h⟩ := (hreader _ _ _ _).of_bind h
      obtain ⟨depth, o, hpos, hlevels, honBoard, hasc, hcounts⟩ := hvisit _ _ _ _ _ hfirst
      obtain ⟨depth', os, n, hposs, -, hstandss, hascs, hn, hcountss⟩ := ih h
      -- the leaves of the first child are as deep as those of the others
      obtain rfl : depth = depth' := by
        have := hcountss.before _ hcounts.leafDepth
        omega
      refine ⟨depth, o :: os, o.entries.length + n, by simp [hpos, hposs], hlevels,
        List.forall_mem_cons.mpr ⟨honBoard, hstandss⟩, ?_, ?_, hcounts.before, hcountss.leafDepth,
        ?_, ?_, ?_⟩
      · have hfront : t.Ascending ((lower.toList ++ o.entries) ++ [e]) := hasc
        have hback : t.Ascending (e :: (weave (rest.map Prod.fst) (os.map Outline.entries) ++
            upper.toList)) := by simpa using hascs
        simpa [weave] using hfront.join hback
      · simp only [List.map_cons, weave, List.length_append, List.length_cons, ← hn]
        omega
      · rw [hcountss.entries, hcounts.entries, Nat.add_assoc]
      · rw [hcountss.leaves, hcounts.leaves, List.flatMap_cons, List.length_append, Nat.add_assoc]
      · rw [hcountss.branches, hcounts.branches, List.map_cons, List.sum_cons, Nat.add_assoc]

/-- Below a block that is walked over there is a tree. -/
theorem reads_surveyNode
    (h : (t.surveyNode true levels here pos lower upper s).Reads blocks p (.ok s')) :
    ∃ (depth : Nat) (o : Outline), o.pos = pos ∧ depth < levels ∧
      o.OnBoard (Board.read t.layout blocks p).cells depth ∧
      t.Ascending (lower.toList ++ o.entries ++ upper.toList) ∧
      s.Counts (here + depth) o.entries.length o.leafDepths.length o.branches s' := by
  induction levels generalizing here pos lower upper s s' with
  | zero => cases h
  | succ levels ih =>
    obtain ⟨n, hnode, h⟩ := (Walks.loadNode Role.current_ne trivial).reader.of_bind h
    have hcell := reads_loadNode_iff.mp hnode
    dsimp only at h
    split at h
    · cases h
    · next hholds =>
      have hfull : n.entries ≠ [] := by simpa [Node.isEmpty] using hholds
      cases n with
      | leaf es =>
        obtain ⟨s₁, hleaf, h⟩ := (walks_surveyLeaf (t := t)).reader.of_bind h
        obtain ⟨⟨⟩, horder, h⟩ := walks_checkOrder.reader.of_bind h
        cases h
        have hcounts := reads_surveyLeaf hleaf
        exact ⟨0, .leaf pos es, rfl, Nat.succ_pos _, .leaf hcell hfull, reads_checkOrder horder,
          hcounts.before, hcounts.leafDepth, hcounts.entries, hcounts.leaves, hcounts.branches⟩
      | branch b =>
        obtain ⟨⟨⟩, -, h⟩ := walks_checkOrder.reader.of_bind h
        obtain ⟨depth, os, n, hpos, hlevels, honBoard, hasc, hn, hcounts⟩ :=
          reads_surveyChildren (fun _ _ _ _ => (walks_surveyNode trivial).reader)
            (fun _ _ _ _ _ hvisit => ih hvisit) h
        have hlength : b.entries.length = b.separators.length := List.length_map _
        have hdepth : here + (depth + 1) = here + 1 + depth := by omega
        refine ⟨depth + 1, .branch pos b.entries os, rfl, Nat.succ_lt_succ hlevels,
          .branch hcell rfl hfull hpos honBoard, ?_, ?_⟩
        · rw [Outline.entries_branch]
          exact hasc
        · rw [Outline.entries_branch, Outline.leafDepths_branch, List.length_map,
            Outline.branches_branch, hdepth]
          refine ⟨hcounts.before, hcounts.leafDepth, ?_, hcounts.leaves, ?_⟩
          · have hentries := hcounts.entries
            dsimp only [Node.entries] at hentries
            rw [hentries, hlength]
            have : weave b.entries (os.map Outline.entries) =
              weave (b.separators.map Prod.fst) (os.map Outline.entries) := rfl
            rw [this, ← hn]
            omega
          · have hbranches := hcounts.branches
            dsimp only at hbranches
            omega

/-! ## Chains -/

/-- A chain of deleted blocks that is counted ends. -/
theorem reads_freeChainLength {counted bound total : Nat}
    (h : (t.freeChainLength counted bound head).Reads blocks p (.ok total)) :
    ∃ free, Chain id (Board.read t.layout blocks p).Deleted head free ∧
      total = counted + free.length := by
  induction bound generalizing counted head with
  | zero =>
    unfold freeChainLength at h
    split at h
    · next hnull =>
      cases h
      exact ⟨[], BlockPos.isNull_iff.mp hnull, rfl⟩
    · cases h
  | succ bound ih =>
    unfold freeChainLength at h
    split at h
    · next hnull =>
      cases h
      exact ⟨[], BlockPos.isNull_iff.mp hnull, rfl⟩
    · next hnull =>
      cases h with
      | read hx h =>
        obtain ⟨next, hnext, h⟩ := reader_ofExcept.of_bind h
        have hdecode := (reads_ofExcept_iff.mp hnext).symm
        obtain ⟨free, hfree, htotal⟩ := ih h
        refine ⟨head :: free, ⟨rfl, next, Board.cells_read_eq_some_iff.mpr ⟨?_, _, hx, ?_⟩, hfree⟩, ?_⟩
        · exact fun h => hnull (BlockPos.isNull_iff.mpr h)
        · exact Cell.read?_eq_deleted_iff.mpr hdecode
        · rw [htotal, List.length_cons]
          omega

/-- A chain of slot blocks that is counted ends. -/
theorem reads_slotChainSize {counted records bound : Nat} {total : Nat × Nat}
    (h : (t.slotChainSize true counted records bound head).Reads blocks p (.ok total)) :
    ∃ slots, Chain Prod.fst (Board.read t.layout blocks p).Lists head slots ∧
      total = (counted + slots.length, records + (slots.flatMap Prod.snd).length) := by
  induction bound generalizing counted records head with
  | zero =>
    unfold slotChainSize at h
    split at h
    · next hnull =>
      cases h
      exact ⟨[], BlockPos.isNull_iff.mp hnull, rfl⟩
    · cases h
  | succ bound ih =>
    unfold slotChainSize at h
    split at h
    · next hnull =>
      cases h
      exact ⟨[], BlockPos.isNull_iff.mp hnull, rfl⟩
    · next hnull =>
      have hnull : head ≠ .null := fun h => hnull (BlockPos.isNull_iff.mpr h)
      obtain ⟨s, hslots, h⟩ := (Walks.loadSlots trivial hnull).reader.of_bind h
      dsimp only at h
      split at h
      · cases h
      · obtain ⟨slots, hchain, htotal⟩ := ih h
        refine ⟨(head, s.records) :: slots,
          ⟨rfl, s.next, cells_of_reads_loadSlots hnull hslots, hchain⟩, ?_⟩
        rw [htotal]
        simp only [List.length_cons, List.flatMap_cons, List.length_append, Prod.mk.injEq]
        omega

/-! ## The whole file -/

/-- A file whose check was passed: its tree, its chains, and what was counted. -/
structure Surveyed (t : Tree) (c : Board) (stats : IndexStats) (tree : Option Outline)
    (free : List BlockPos) (slots : List (BlockPos × List Nat)) : Prop where
  onBoard : match tree with
    | none => c.pointers.root = .null ∧ stats.height = 0
    | some o => ∃ depth, o.OnBoard c.cells depth ∧ depth ≤ maxLevels ∧ c.pointers.root = o.pos ∧
      stats.height = depth + 1
  ascending : t.Ascending (tree.elim [] Outline.entries)
  entries : stats.entries = (tree.elim [] Outline.entries).length
  leafBlocks : stats.leafBlocks = (tree.elim [] Outline.leafDepths).length
  branchBlocks : stats.branchBlocks = tree.elim 0 Outline.branches
  deleted : Chain id c.Deleted c.pointers.freeHead free
  listed : Chain Prod.fst c.Lists c.pointers.slotHead slots
  total : stats.leafBlocks + stats.branchBlocks + free.length + slots.length =
    c.pointers.highWater.offset / t.layout.blockSize

/-- A check that is passed has seen the tree and the chains. -/
theorem surveyed_of_reads {stats : IndexStats} (h : (t.survey true).Reads blocks p (.ok stats)) :
    ∃ tree free slots, t.Surveyed (Board.read t.layout blocks p) stats tree free slots := by
  unfold survey at h
  replace h := reads_getPointers_bind_iff.mp h
  obtain ⟨s, htree, h⟩ := Reader.of_bind (by
    unfold surveyTree
    split
    · exact .done
    · exact (walks_surveyNode trivial).reader) h
  obtain ⟨free, hfree, h⟩ := (walks_freeChainLength trivial).reader.of_bind h
  obtain ⟨⟨slotBlocks, freeSlots⟩, hslots, h⟩ := (walks_slotChainSize trivial).reader.of_bind h
  dsimp only at h
  split at h
  · cases h
  · next htotal =>
    cases h
    obtain ⟨free, hdeleted, rfl⟩ := reads_freeChainLength hfree
    obtain ⟨slots, hlisted, heq⟩ := reads_slotChainSize hslots
    cases heq
    have htotal : 1 + s.leaves + s.branches + (0 + free.length) + (0 + slots.length) =
        p.highWater.offset / t.layout.blockSize + 1 := by simpa using htotal
    have hsum : s.leaves + s.branches + free.length + slots.length =
        p.highWater.offset / t.layout.blockSize := by omega
    unfold surveyTree at htree
    split at htree
    · next hnull =>
      cases htree
      exact ⟨none, free, slots, ⟨BlockPos.isNull_iff.mp hnull, rfl⟩, .nil, rfl, rfl, rfl, hdeleted,
        hlisted, hsum⟩
    · obtain ⟨depth, o, hpos, hlevels, honBoard, hasc, hcounts⟩ := reads_surveyNode htree
      refine ⟨some o, free, slots, ⟨depth, honBoard, Nat.le_of_lt_succ hlevels, hpos.symm, ?_⟩, ?_, ?_,
        ?_, ?_, hdeleted, hlisted, hsum⟩
      · show s.leafDepth.getD 0 = depth + 1
        rw [hcounts.leafDepth]
        exact Nat.add_comm 1 depth
      · simpa using hasc
      · simpa using hcounts.entries
      · simpa using hcounts.leaves
      · simpa using hcounts.branches

/-! ## Moves on a file whose check was passed -/

namespace Surveyed

variable {stats : IndexStats} {tree : Option Outline} {free : List BlockPos}
  {slots : List (BlockPos × List Nat)} {cursor : Cursor} {e : Entry}
  (h : t.Surveyed (Board.read t.layout blocks p) stats tree free slots)
include h

/-- All leaves are as deep as counted, and there are as many. -/
theorem leafDepths_eq : tree.elim [] Outline.leafDepths =
    List.replicate stats.leafBlocks stats.height := by
  refine List.eq_replicate_iff.mpr ⟨h.leafBlocks.symm, ?_⟩
  have honBoard := h.onBoard
  cases tree with
  | none => exact nofun
  | some o =>
    obtain ⟨depth, honBoard, -, -, hheight⟩ := honBoard
    rw [hheight]
    exact honBoard.leafDepths

/-- All keys have key length. -/
theorem length_key (hsize : 0 < t.layout.blockSize) :
    ∀ e ∈ tree.elim [] Outline.entries, e.key.length = t.layout.keyLength := by
  have honBoard := h.onBoard
  cases tree with
  | none => exact nofun
  | some o =>
    intro e he
    obtain ⟨depth, honBoard, -⟩ := honBoard
    obtain ⟨pos, n, hcell, hmem⟩ := honBoard.exists_node he
    exact Board.length_key_of_cells_read hsize hcell e hmem

/-- The tree can be drawn. -/
theorem reads_outline : t.outline.Reads blocks p (.ok tree) := by
  have honBoard := h.onBoard
  refine reads_getPointers_bind_iff.mpr ?_
  show Reads blocks p (if p.root.isNull then _ else _) _
  cases tree with
  | none =>
    have hroot : p.root = .null := honBoard.1
    rw [if_pos (BlockPos.isNull_iff.mpr hroot)]
    exact .done
  | some o =>
    obtain ⟨depth, honBoard, hdepth, hroot, -⟩ := honBoard
    have hroot : p.root = o.pos := hroot
    have hnull : o.pos ≠ .null := by
      cases honBoard with
      | leaf hcell => exact (Board.cells_read_eq_some_iff.mp hcell).1
      | branch hcell => exact (Board.cells_read_eq_some_iff.mp hcell).1
    rw [hroot, BlockPos.isNull_eq_false hnull]
    exact (honBoard.reads (Nat.lt_succ_of_le hdepth)).bind .done

/-- The blocks of the tree make up a tree that can be searched. -/
theorem bears (hsize : 0 < t.layout.blockSize) :
    ((Board.read t.layout blocks p).within (tree.elim [] Outline.blocks)).Bears t.layout
      (tree.elim [] Outline.entries) := by
  have hsolid : ∀ pos, ((Board.read t.layout blocks p).within (tree.elim [] Outline.blocks)).cells
      pos ≠ some .blank := by
    intro pos hblank
    obtain ⟨-, hcell⟩ := Board.cells_within_eq_some_iff.mp hblank
    obtain ⟨-, x, -, hx⟩ := Board.cells_read_eq_some_iff.mp hcell
    exact Cell.read?_ne_blank hx
  have hheader : ((Board.read t.layout blocks p).within (tree.elim [] Outline.blocks)).cells
      .null = none := by simp [Board.within]
  have honBoard := h.onBoard
  cases tree with
  | none =>
    refine ⟨.inl ⟨rfl, honBoard.1⟩, fun pos n hcell => ?_, hheader, hsolid⟩
    cases (Board.cells_within_eq_some_iff.mp hcell).1
  | some o =>
    obtain ⟨depth, honBoard, hdepth, hroot, -⟩ := honBoard
    obtain ⟨hpos, hfull, hsubtree, hentries, hblocks⟩ :=
      honBoard.subtree (l := t.layout) fun pos n => Board.fits_of_cells_read hsize
    have hwithin : o.subtree.OnBoard t.layout
        ((Board.read t.layout blocks p).within o.blocks).cells depth :=
      hsubtree.congr fun q hq => Board.cells_within_of_mem (hblocks ▸ hq)
    refine ⟨.inr ⟨o.subtree, depth, hentries.symm, hwithin, hfull, hdepth, hroot.trans hpos.symm⟩,
      fun pos n hcell => ?_, hheader, hsolid⟩
    have hmem : pos ∈ o.blocks := (Board.cells_within_eq_some_iff.mp hcell).1
    rw [← hblocks] at hmem
    obtain ⟨y, depth', hy, hle, hystands, hyfull, hinfix⟩ := hwithin.exists_subtree hfull hmem
    rw [hentries] at hinfix
    exact ⟨y, depth', hy, Nat.le_trans hle hdepth, hystands, hyfull, hinfix⟩

variable (hsize : 0 < t.layout.blockSize)
  (hlength : ∀ pos x, blocks pos = some x → x.length = t.layout.blockSize)
include hsize hlength

/-- The next entry is the first one ahead. -/
theorem reads_next (hcursor : cursor.PointsInto
      ((Board.read t.layout blocks p).within (tree.elim [] Outline.blocks))) :
    ∃ c', (t.next cursor).Reads blocks p (.ok c') ∧
      cursor.Landed ((Board.read t.layout blocks p).within (tree.elim [] Outline.blocks)) c'
        (cursor.ahead t (tree.elim [] Outline.entries)).head? .afterLast :=
  ((h.bears hsize).gives_next h.ascending hcursor).reads
    (walks_next trivial fun _ _ => .inr trivial).reader hlength

/-- The entry in front is the last one behind. -/
theorem reads_previous (cursor : Cursor) : ∃ c', (t.previous cursor).Reads blocks p (.ok c') ∧
    cursor.Landed ((Board.read t.layout blocks p).within (tree.elim [] Outline.blocks)) c'
      (cursor.behind t (tree.elim [] Outline.entries)).getLast? .beforeFirst :=
  ((h.bears hsize).gives_previous h.ascending).reads (walks_previous trivial).reader hlength

/-- A move to the key of an entry lands on an entry that has it. -/
theorem reads_find (cursor : Cursor) (he : e ∈ tree.elim [] Outline.entries) : ∃ found pos,
    (t.find cursor e.key).Reads blocks p (.ok (Cursor.land found pos)) ∧
      found ∈ tree.elim [] Outline.entries ∧ t.collation.compare e.key found.key = .eq := by
  have hgives : Gives t.layout (t.find cursor e.key) _ _ :=
    (h.bears hsize).gives_find h.ascending e.key
  obtain ⟨c', hreads, front, back, hless, ⟨found, pos, hentries, hhit, -, rfl⟩ |
    ⟨state, hentries, hgreater, -⟩⟩ := hgives.reads (walks_find trivial e.key).reader hlength
  · exact ⟨found, pos, hreads, by simp [hentries], hhit⟩
  · exfalso
    have hself : t.collation.compare e.key e.key = .eq := Std.ReflCmp.compare_self
    rw [hentries] at he
    rcases List.mem_append.mp he with he | he
    · rw [hless e he] at hself
      cases hself
    · rw [hgreater e he] at hself
      cases hself

end Surveyed

end Tree

end PagedIndex
