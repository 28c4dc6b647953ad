import PagedIndex.Proofs.Index.Lockstep
import PagedIndex.Proofs.Tree.Survey

/-!
# Orderly files

A file as planned is in order in every respect that a survey checks, and in some that it does not
check: entries ascend, separators part the subtrees beside them, all leaves are at one depth, and
each block of the file is there for one purpose.

## Main definitions

* `Subtree.Balanced` — a tree whose leaves are at one depth, with separators that part its subtrees.
* `Index.Orderly` — a file that is in order.
* `Index.AsPlanned` — a handle on a file as planned over a store that refuses nothing.

## Main statements

* `Index.AsPlanned.orderly` — such a file is in order.
* `Index.AsPlanned.turn` — it is as planned after each call.
-/

namespace PagedIndex

/-! ## Trees -/

/-- Every separator of a branch is strictly between the entries of the subtrees beside it. -/
def Parted (t : Tree) : Subtree → List (Entry × Subtree) → Prop
  | _, [] => True
  | x, (e, y) :: rest =>
    (∀ a ∈ x.entries, t.precedes a e) ∧ (∀ b ∈ y.entries, t.precedes e b) ∧ Parted t y rest

/-- A tree without empty blocks whose leaves are all `depth` levels below its root. -/
inductive Subtree.Balanced (t : Tree) : Nat → Subtree → Prop
  | leaf {pos : BlockPos} {es : List Entry} (hasc : t.Ascending es) (hfull : es ≠ []) :
      Balanced t 0 (.leaf pos es)
  | branch {depth : Nat} {pos : BlockPos} {first : Subtree} {rest : List (Entry × Subtree)}
      (hchildren : ∀ y ∈ first :: rest.map Prod.snd, Balanced t depth y)
      (hparted : Parted t first rest) (hfull : rest ≠ []) :
      Balanced t (depth + 1) (.branch pos first rest)

section Balanced

variable {t : Tree} {l : Layout} {cells : BlockPos → Option Cell} {depth : Nat} {x : Subtree}

/-- Separators that ascend with the entries of their subtrees part them. -/
theorem parted_of_ascending {first : Subtree} {rest : List (Entry × Subtree)}
    (h : t.Ascending (first.entries ++ rest.flatMap fun s => [s.1] ++ s.2.entries)) :
    Parted t first rest := by
  induction rest generalizing first with
  | nil => trivial
  | cons s rest ih =>
    obtain ⟨e, y⟩ := s
    simp only [List.flatMap_cons, List.cons_append, List.nil_append] at h
    obtain ⟨-, hback, hfront⟩ := List.pairwise_append.mp h
    obtain ⟨he, hrest⟩ := List.pairwise_cons.mp hback
    exact ⟨fun a ha => hfront a ha e List.mem_cons_self,
      fun b hb => he b (List.mem_append_left _ hb), ih hrest⟩

/-- Every subtree of a branch is a part of its entries. -/
theorem Subtree.entries_sublist {pos : BlockPos} {first y : Subtree} {rest : List (Entry × Subtree)}
    (hy : y ∈ first :: rest.map Prod.snd) :
    y.entries.Sublist (Subtree.branch pos first rest).entries := by
  rcases List.mem_cons.mp hy with rfl | hy
  · exact List.sublist_append_left _ _
  · obtain ⟨s, hs, rfl⟩ := List.mem_map.mp hy
    refine List.Sublist.trans ?_ (List.sublist_append_right _ _)
    rw [List.flatMap_def]
    exact (List.sublist_append_right [s.1] _).trans
      (List.sublist_flatten_of_mem (List.mem_map_of_mem hs))

/-- A subtree that stands with its entries in order is balanced. -/
theorem Subtree.OnBoard.balanced (h : x.OnBoard l cells depth) (hfull : x.Full)
    (hasc : t.Ascending x.entries) : x.Balanced t depth := by
  induction h with
  | leaf => exact .leaf hasc (full_leaf.mp hfull)
  | branch _ _ _ hchildren ih =>
    refine .branch (fun y hy => ih y hy (hchildren y hy) ?_) (parted_of_ascending hasc)
      (full_branch.mp hfull)
    exact hasc.sublist (Subtree.entries_sublist hy)

end Balanced

/-! ## Files -/

/-- Where all blocks of a file start, with the header in front. -/
def Plan.positions (p : Plan) : List BlockPos :=
  .null :: (p.blocks ++ (p.free ++ p.slots.map Prod.fst))

/-- The link that a block of a file holds as a deleted one. -/
def Index.Deleted (ix : Index) (w : Workspace) (pos next : BlockPos) : Prop :=
  ∃ image, ix.mount.content (w.below ix.cache) pos = some image ∧
    Deleted.decode ix.tree.layout pos image = .ok next

/-- A file that is in order: what its blocks are for, and what a survey of it comes to. -/
structure Index.Orderly (ix : Index) (p : Plan) (w : Workspace) : Prop where
  ascending : ix.tree.Ascending p.entries
  balanced : ∀ x, p.tree = some x → ∃ depth, p.levels = depth + 1 ∧ x.Balanced ix.tree depth
  nodup : p.positions.Nodup
  /-- The positions are all that blocks may have up to the last one. -/
  whole : ∀ pos, pos ∈ p.positions ↔ ix.tree.layout.blockSize ∣ pos.offset ∧
    pos.offset ≤ (ix.mount.pointers ix.tree.layout.format (w.below ix.cache)).highWater.offset
  chained : Chain id (ix.Deleted w)
    (ix.mount.pointers ix.tree.layout.format (w.below ix.cache)).freeHead p.free
  /-- Without entries and record positions, all blocks are deleted. -/
  emptied : p.entries = [] → p.records = [] →
    (ix.mount.pointers ix.tree.layout.format (w.below ix.cache)).root = .null ∧
      p.positions = .null :: p.free

section Orderly

variable {ix : Index} {p : Plan} {w : Workspace}

/-- A file as planned is in order. -/
theorem Index.Keeps.orderly (h : ix.Keeps p w) : ix.Orderly p w := by
  obtain ⟨⟨v, hfinds, hp⟩, -⟩ := id h
  obtain ⟨c, hc, hholds⟩ := hp.board
  have hledger := hholds.ledger
  have hpointers := hfinds.blocksAs.pointers_eq.trans hc.pointers
  refine ⟨hp.ascending, fun x hx => ?_, ?_, fun pos => ?_, ?_, fun hentries hrecords => ?_⟩
  · have htree := hholds.tree
    rw [hx] at htree
    obtain ⟨depth, hlevels, honBoard, hfull, -⟩ := htree
    have hasc := hp.ascending
    unfold Plan.entries at hasc
    rw [hx] at hasc
    exact ⟨depth, hlevels, honBoard.balanced hfull hasc⟩
  · exact List.nodup_cons.mpr ⟨fun hnull => hledger.ne_null hnull rfl, hledger.nodup⟩
  · rw [hpointers]
    unfold Plan.positions
    rw [List.mem_cons, hledger.whole]
    by_cases hnull : pos = .null
    · subst hnull
      exact iff_of_true (.inl rfl) ⟨Nat.dvd_zero _, Nat.zero_le _⟩
    · simp [hnull]
  · rw [hpointers]
    refine hledger.deleted.imp fun pos _ next hnext => ?_
    obtain ⟨image, himage, -, hshown⟩ := hc.held pos _ hnext
    exact ⟨image, (hfinds.blocksAs.blocks pos image himage).2.2, hshown⟩
  · refine ⟨h.root_eq_null_iff.mpr hentries, ?_⟩
    have hslots : p.slots = [] := by
      cases hslots : p.slots with
      | nil => rfl
      | cons s rest =>
        refine absurd ?_ (hledger.records s (hslots ▸ List.mem_cons_self)).1
        unfold Plan.records at hrecords
        rw [hslots] at hrecords
        exact (List.append_eq_nil_iff.mp hrecords).1
    have hblocks : p.blocks = [] := by
      unfold Plan.blocks
      cases hx : p.tree with
      | none => rfl
      | some x =>
        have htree := hholds.tree
        rw [hx] at htree
        obtain ⟨depth, -, honBoard, hfull, -⟩ := htree
        unfold Plan.entries at hentries
        rw [hx] at hentries
        exact absurd hentries (honBoard.entries_ne_nil hfull)
    unfold Plan.positions
    rw [hslots, hblocks]
    exact congrArg (List.cons _) (List.append_nil _)

end Orderly

/-! ## Calls -/

/-- A handle on a file as planned, between two calls, over a store that refuses nothing. -/
structure Index.AsPlanned (ix : Index) (p : Plan) (w : Workspace) : Prop where
  keeps : ix.Keeps p w
  safe : (w.below ix.cache).Safe
  reliable : ix.store.Reliable w.disk

section AsPlanned

variable {ix : Index} {p : Plan} {w : Workspace}

/-- A file as planned passes every check of a survey, and is counted as planned. -/
theorem Index.AsPlanned.verify (h : ix.AsPlanned p w) (hlevels : p.levels ≤ maxLevels + 1) :
    Ends Call.verify.run (ix, w) fun r σ => σ.1 = ix ∧ ix.AsPlanned p σ.2 ∧ ∃ stats : IndexStats,
      r = .ok (.counted stats) ∧ stats.height = p.levels ∧ stats.entries = p.entries.length ∧
      stats.leafBlocks + stats.branchBlocks = p.blocks.length ∧ stats.freeBlocks = p.free.length ∧
      stats.slotBlocks = p.slots.length ∧ stats.freeSlots = p.records.length ∧
      stats.totalBlocks = p.positions.length := by
  obtain ⟨v, hfinds, hp⟩ := h.keeps.finds
  obtain ⟨c, hc, hholds⟩ := hp.board
  obtain ⟨r, v', d, hruns, hshown, rfl, stats, rfl, hstats⟩ :=
    @Tree.acts_survey _ _ true _ hp.workable hholds hp.ascending hlevels
      { v with held := fun _ => none } ⟨hc.pointers, hc.header, hc.held, hc.vacant⟩
  have hp' : p.Drawn ix.tree v' := ⟨hp.workable, ⟨d, hshown, hholds⟩, hp.ascending⟩
  have hcallOutcome := @Session.transact_outcome ix.mount _ _ _ _ _ _ _ ix.mode.locked ix.mode.endMode
    hfinds.blocksAs rfl hp.width hruns fun _ _ => hp'.settled
  refine Call.run_ends ?_
  simp only [Call.course, Course.Meets]
  refine Ends.mono hcallOutcome fun o s hcallOutcome => ?_
  obtain ⟨hsafe, hok, -⟩ := hcallOutcome.reliable h.safe h.reliable
  obtain rfl := hok stats rfl
  obtain ⟨-, ⟨_, _, -, -, hkept⟩ | ⟨⟨e, he⟩, -⟩⟩ :=
    hcallOutcome.secured ⟨h.safe.flushable, .inl h.reliable.takes⟩
  · have hkeeps := hfinds.keeps_after (q := .inspect (ix.tree.survey true) .counted)
      (o := .ok (stats, .ok ())) hkept.blocksAs hp' h.keeps.cursor
    refine ⟨rfl, ⟨hkeeps, ?_, h.reliable.follows hcallOutcome.works.disk⟩, stats, rfl, ?_⟩
    · exact (congrArg Buffered.Safe (Request.below_after hfinds.cache)).mpr hsafe
    · obtain ⟨hheight, hentries, hblocks, hfree, hslotBlocks, hfreeSlots, htotal⟩ := hstats
      refine ⟨hheight, hentries, hblocks, hfree, hslotBlocks, hfreeSlots, htotal.trans ?_⟩
      simp only [Plan.positions, List.length_cons, List.length_append, List.length_map]
      omega
  · cases he

theorem Index.AsPlanned.setCell (h : ix.AsPlanned p w) (cell record : Nat) :
    ix.AsPlanned p (w.setCell cell record) := by
  obtain ⟨v, hfinds, hp⟩ := h.keeps.finds
  exact ⟨⟨⟨v, hfinds.setCell cell record, hp⟩, h.keeps.cursor⟩, h.safe, h.reliable⟩

variable {ι : Type} [DecidableEq ι] {handles : ι → Index}

/-- A file as planned is as planned after each call. -/
theorem Index.AsPlanned.turn (turn : Turn ι) (h : (handles turn.handle).AsPlanned p w) :
    ∃ p', ((turn.play handles w).2.1 turn.handle).AsPlanned p' (turn.play handles w).2.2 := by
  have h₁ := h.setCell (handles turn.handle).cell
    (turn.record.getD (w.cell (handles turn.handle).cell))
  obtain ⟨v, hfinds, hp⟩ := h₁.keeps.finds
  obtain ⟨reply, p', v', htells⟩ := turn.call.exists_tells hp h₁.keeps.cursor _
  obtain ⟨r, c, w', ⟨-, rfl, s, rfl, hs⟩, hplay⟩ := turn.play_ends handles w
    (htells.run_ends hfinds hp h₁.safe h₁.reliable)
  rw [hplay]
  simp only [if_true]
  generalize w.setCell (handles turn.handle).cell _ = w₁ at *
  refine ⟨p', ⟨⟨v', ((hfinds.withBelow hs.blocksAs).setCell _ _).withCursor _, htells.drawn hp⟩,
    htells.aligned h₁.keeps.cursor⟩, ?_, h₁.reliable.follows hs.works.disk⟩
  exact (congrArg Buffered.Safe (Workspace.below_withBelow hfinds.cache)).mpr hs.safe

/-- So it is after any number of calls. -/
theorem Index.AsPlanned.plays {handles : Unit → Index} (turns : List (Turn Unit))
    (h : (handles ()).AsPlanned p w) : ∃ p', ((PagedIndex.plays turns handles w).2.1 ()).AsPlanned p'
      (PagedIndex.plays turns handles w).2.2 := by
  induction turns generalizing handles p w with
  | nil => exact ⟨p, h⟩
  | cons turn rest ih =>
    obtain ⟨p₁, h₁⟩ := Index.AsPlanned.turn turn h
    exact ih h₁

end AsPlanned

end PagedIndex
