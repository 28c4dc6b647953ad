import PagedIndex.Proofs.Tree.Deep

/-!
# Where the blocks of a file go

Insertions and deletions as calls on a file, told by the blocks that they take and give back. An
insertion takes the blocks that were deleted last, and lets the file grow when there are no more of
these. A deletion lets no file grow, and keeps all blocks that leave the tree.

## Main definitions

* `Plan.Spends` — what an insertion takes.
* `Plan.Releases` — what a deletion gives back.

## Main statements

* `Tree.Filed.blocks_ends` — insertions and deletions in a file of any height.
-/

namespace PagedIndex

namespace Plan

/-- An entry goes into the tree of a plan, from the root to a leaf along the blocks of `path`, the
leaf first. Those of `splits` are split, and those of `taken` are taken for it, in a file whose last
block is at a mark in front and behind. -/
structure Spends (l : Layout) (e : Entry) (p : Plan) (mark : BlockPos)
    (path splits taken : List BlockPos) (p' : Plan) (mark' : BlockPos) : Prop where
  length : path.length = p.levels
  first : p.tree = none → ∃ pos, taken = [pos] ∧ p'.tree = some (.leaf pos [e])
  /-- A leaf is split if it has no room for the entry and its brother none for what it cannot
  keep. -/
  leaf : ∀ x, p.tree = some x → ∃ (w : Way) (pos : BlockPos) (front back : List Entry) (x' : Subtree),
    x = w.regrow (.leaf pos (front ++ back)) ∧ path = pos :: w.path ∧ p'.tree = some x' ∧
      w.Places l e pos front back splits taken x' ∧
      (splits = [] → Leaf.fits l (front ++ e :: back) ∨ w.Offloads l e pos front back x') ∧
      ∀ y, w.Offloads l e pos front back y → splits = [] ∧ x' = y
  deepest : splits <+: path
  /-- All blocks on the path are split if the root is, or if there is none. -/
  root : splits = path ↔ ∀ x, p.tree = some x → x.pos ∈ splits
  count : taken.length = splits.length + if splits = path then 1 else 0
  levels : p'.levels = p.levels + if splits = path then 1 else 0
  /-- What was deleted last is taken first. -/
  reused : taken.take p.free.length = p.free.take taken.length
  added : taken.drop p.free.length = (List.range (taken.length - p.free.length)).map fun i =>
    ⟨mark.offset + l.blockSize * (i + 1)⟩
  free : p'.free = p.free.drop taken.length
  mark : mark'.offset = mark.offset + l.blockSize * (taken.length - p.free.length)
  blocks : p'.blocks.Perm (taken ++ p.blocks)

/-- The blocks `gone` leave the tree of a plan and are deleted, in a file whose last block is at a
mark in front and behind. -/
structure Releases (p : Plan) (mark : BlockPos) (gone : List BlockPos) (p' : Plan) (mark' : BlockPos) :
    Prop where
  blocks : p.blocks.Perm (gone ++ p'.blocks)
  free : p'.free = gone ++ p.free
  nodup : p'.free.Nodup
  levels : p'.levels ≤ p.levels
  mark : mark' = mark

variable {l : Layout} {e : Entry} {p p' : Plan} {path splits taken gone : List BlockPos}

theorem Grown.spends (h : p.Grown l e path splits taken p') (hnodup : p.blocks.Nodup) :
    p.Spends l e ⟨p.mark l⟩ path splits taken p' ⟨p'.mark l⟩ := by
  obtain ⟨x, htree, hreceives⟩ := h.receives
  refine ⟨h.path, fun hnone => ?_, fun y hy => ?_, hreceives.splits_prefix,
    hreceives.splits_eq_path_iff hnodup, hreceives.length_taken, h.levels_eq, h.draws.take_eq,
    h.draws.drop_eq, h.draws.free_eq, h.draws.mark_eq, ?_⟩
  · cases hreceives with
    | first => exact ⟨_, rfl, htree⟩
    | into hsome => cases hnone.symm.trans hsome
  · cases hreceives with
    | first hnone => cases hnone.symm.trans hy
    | into hsome hplaces =>
      cases hy.symm.trans hsome
      exact ⟨_, _, _, _, x, rfl, rfl, htree, hplaces, hplaces.fits_or_offloads,
        fun _ => hplaces.eq_of_offloads⟩
  · rw [blocks, htree]
    exact hreceives.blocks

/-- A plan with as many blocks in all has its last one where it was. -/
theorem mark_eq (hblocks : p.blocks.Perm (gone ++ p'.blocks)) (hfree : p'.free = gone ++ p.free)
    (hslots : p'.slots = p.slots) : p'.mark l = p.mark l := by
  unfold mark
  rw [hfree, hslots, hblocks.length_eq, List.length_append, List.length_append]
  congr 1
  omega

end Plan

namespace Tree

variable {t : Tree} {m : Mount} {p : Plan} {s : Buffered}

/-- The blocks of a file as planned are there once, and the last one is told by their number. -/
theorem Filed.blocks_once (h : t.Filed m p s) : (p.blocks ++ p.free).Nodup ∧
    (m.pointers t.layout.format s).highWater = ⟨p.mark t.layout⟩ := by
  obtain ⟨c, hp, hpointers⟩ := h.exists_board
  rw [hpointers]
  refine ⟨?_, hp.highWater_eq h.workable⟩
  have hnodup := hp.ledger.nodup
  rw [← List.append_assoc] at hnodup
  exact (List.nodup_append.mp hnodup).1

/-- An insertion takes a block for each one that it splits, and one for a new root, from the deleted
blocks as long as there are any. A deletion takes none, and those that leave the tree are
deleted. -/
theorem Filed.blocks_ends (h : t.Filed m p s) (locked : Bool) (mode : EndMode) :
    (∀ e : Entry, e.Storable t.layout →
      Ends (Session.transact m.file t.layout locked mode (t.insert e)) s fun r s' =>
        (∃ outcome p', r = .ok (outcome, .ok ()) ∧ t.Filed m p' s' ∧ t.Inserted e p outcome p' ∧
          (outcome = .inserted → ∃ path splits taken,
            p.Spends t.layout e (m.pointers t.layout.format s).highWater path splits taken p'
              (m.pointers t.layout.format s').highWater)) ∨
        ∃ err, r = .error err ∧ t.Filed m p s' ∧ (p.levels ≤ maxLevels + 1 →
          err = .internal .sizeLimit ∧ p.spare t.layout ≤ p.levels)) ∧
    ∀ (target : Entry) (exact : Bool),
      Ends (Session.transact m.file t.layout locked mode (t.delete target exact)) s fun r s' =>
        (∃ found p', r = .ok (found, .ok ()) ∧ t.Filed m p' s' ∧
          t.Deleted target exact p found p' ∧ ∃ gone,
            p.Releases (m.pointers t.layout.format s).highWater gone p'
              (m.pointers t.layout.format s').highWater) ∨
        ∃ err, r = .error err ∧ t.Filed m p s' ∧ maxLevels + 1 < p.levels := by
  obtain ⟨hnodup, hmark⟩ := h.blocks_once
  constructor
  · intro e he
    refine (h.transact_ends locked mode
      (revises_insert_any h.workable h.ascending he)).mono ?_
    rintro r s' (⟨outcome, p', hr, hfiled, hinserted, hgrown⟩ | herror)
    · refine .inl ⟨outcome, p', hr, hfiled, hinserted, fun houtcome => ?_⟩
      obtain ⟨path, splits, taken, hgrown⟩ := hgrown houtcome
      rw [hmark, hfiled.blocks_once.2]
      exact ⟨path, splits, taken, hgrown.spends (List.nodup_append.mp hnodup).1⟩
    · exact .inr herror
  · intro target exact
    refine (h.transact_ends locked mode
      (revises_delete_any h.workable h.ascending target exact)).mono ?_
    rintro r s' (⟨found, p', hr, hfiled, hdeleted, gone, hfree, hblocks⟩ | herror)
    · obtain ⟨hnodup', hmark'⟩ := hfiled.blocks_once
      refine .inl ⟨found, p', hr, hfiled, hdeleted, gone, hblocks, hfree,
        (List.nodup_append.mp hnodup').2.1, hdeleted.levels_le, ?_⟩
      rw [hmark, hmark', Plan.mark_eq hblocks hfree hdeleted.slots_eq]
    · exact .inr herror

/-- On a file of two levels with a deleted block an entry goes down a path of two blocks, and one
that goes gives back what leaves the tree. -/
theorem blocks_ends_sample : ∃ s, sample.Filed (Session.memoryMount 512) samplePlan s ∧
    Ends (Session.transact 1 sample.layout false .keep (sample.insert ⟨[0x42], 9⟩)) s
      (fun r s' => ∃ p' path splits taken, r = .ok (.inserted, .ok ()) ∧
        sample.Filed (Session.memoryMount 512) p' s' ∧ path.length = 2 ∧
        samplePlan.Spends sample.layout ⟨[0x42], 9⟩ ⟨2048⟩ path splits taken p'
          ((Session.memoryMount 512).pointers .modern s').highWater) ∧
    Ends (Session.transact 1 sample.layout false .keep (sample.delete ⟨[0x43], 0⟩ false)) s
      fun r s' => ∃ p' gone, r = .ok (some ⟨[0x43], 5⟩, .ok ()) ∧
        sample.Filed (Session.memoryMount 512) p' s' ∧ p'.free = gone ++ [⟨2048⟩] ∧
        ((Session.memoryMount 512).pointers .modern s').highWater = ⟨2048⟩ := by
  obtain ⟨s, hfiled⟩ : ∃ s, sample.Filed (Session.memoryMount 512) samplePlan s := ⟨_, filed_sample⟩
  have hmark : ((Session.memoryMount 512).pointers .modern s).highWater = ⟨2048⟩ := hfiled.blocks_once.2
  obtain ⟨hinsert, hdelete⟩ := hfiled.blocks_ends false .keep
  refine ⟨s, hfiled, (hinsert ⟨[0x42], 9⟩ (by decide)).mono ?_,
    (hdelete ⟨[0x43], 0⟩ false).mono ?_⟩
  · rintro r s' (⟨outcome, p', rfl, hfiled', hans, hspends⟩ | ⟨_, -, -, hspare⟩)
    · obtain rfl := hans.outcome_eq rfl (by decide)
      obtain ⟨path, splits, taken, hspends⟩ := hspends rfl
      exact ⟨p', path, splits, taken, rfl, hfiled', hspends.length, hmark ▸ hspends⟩
    · exact absurd (hspare (by decide)).2 (by decide)
  · rintro r s' (⟨found, p', rfl, hfiled', hdeleted, gone, hreleases⟩ | ⟨_, -, -, hlevels⟩)
    · obtain ⟨rfl, -⟩ := hdeleted.eq_find?
      exact ⟨p', gone, rfl, hfiled', hreleases.free, hreleases.mark.trans hmark⟩
    · exact absurd hlevels (by decide)

end Tree

end PagedIndex
