import PagedIndex.Proofs.Tree.Closed
import PagedIndex.Proofs.Tree.Walks

/-!
# Walks only look

A walk along links only looks at a closed board, whatever tree, or part of a tree, its links make
up: on a closed board links lead to blocks. The place where a search ends is a block of the file.

## Main definitions

* `Descent.Within` — a place whose blocks are those of a board.

## Main statements

* `Program.Walks.looks` — a walk on a closed board only looks.
* `Tree.looks_locate` — a search.
-/

namespace PagedIndex

/-- What a block reads as does not hang on where it is. -/
theorem Node.decode_eq_ok_of {l : Layout} {pos : BlockPos} {x : Bytes} {n : Node}
    (h : Node.decode l pos x = .ok n) (pos' : BlockPos) : Node.decode l pos' x = .ok n := by
  unfold Node.decode at h ⊢
  split at h
  · exact h
  · exact h
  · cases h

theorem Deleted.decode_eq_ok_of {l : Layout} {pos next : BlockPos} {x : Bytes}
    (h : Deleted.decode l pos x = .ok next) (pos' : BlockPos) :
    Deleted.decode l pos' x = .ok next := by
  have hhead := Deleted.head?_of_decode h
  unfold Deleted.decode at h ⊢
  rwa [if_neg fun hne => hne hhead] at h ⊢

/-- A place in a block of a board, and so the way to it and the leaf it was left by. -/
abbrev Descent.Within (c : Board) (d : Descent) : Prop := d.In c.Has

namespace Board.Closed

variable {l : Layout} {c : Board} {pos : BlockPos} {cell : Cell} {image : Bytes}

/-- The links of the blocks of a closed board lead to its blocks. -/
theorem linksIn (hc : c.Closed l) (hcell : c.cells pos = some cell) (h : cell.Shown l pos image) :
    l.LinksIn c.Has image := by
  have hsolid : cell ≠ .blank := fun hblank => hc.solid pos (hblank ▸ hcell)
  refine ⟨fun p n hn q hq => ?_, fun p next hnext => ?_, fun s hs => ?_⟩
  · obtain rfl := h.eq_node hsolid (Node.decode_eq_ok_of hn pos)
    cases n with
    | leaf es => cases hq
    | branch b => exact hc.children pos b hcell q hq
  · obtain rfl := h.eq_deleted hsolid (Deleted.decode_eq_ok_of hnext pos)
    exact hc.deleted pos next hcell
  · obtain rfl := h.eq_slots hsolid (Slots.head?_of_decode hs) hs
    exact hc.slots pos s hcell

theorem sites (hc : c.Closed l) : l.Sites c.Has := ⟨Board.has_null, fun _ => hc.aligned⟩

end Board.Closed

/-- A walk on a closed board only looks. -/
theorem Program.Walks.looks {α : Type} {l : Layout} {c : Board} {Q : α → Prop} {program : Program α}
    (h : program.Walks l c.Has Q) (hc : c.Closed l) : Program.Looks l program c Q := by
  induction h with
  | done ha => exact looks_done ha
  | fail => exact looks_fail
  | read hrole hpos hnull _ ih =>
    obtain ⟨cell, hcell⟩ := Option.isSome_iff_exists.mp (hpos.resolve_left hnull)
    exact looks_loadBlock_bind hrole hcell fun image himage => ih image (hc.linksIn hcell himage)
  | pointers _ ih =>
    exact looks_getPointers_bind (ih c.pointers hc.root hc.freeHead hc.slotHead
      fun q hnull hq hle => .inr ((hc.whole q).mpr ⟨hnull, hq, hle⟩))

/-- A search ends at a place of the file. -/
theorem Tree.looks_locate {t : Tree} {c : Board} {target : Entry} {exact : Bool}
    (hc : c.Closed t.layout) :
    Program.Looks t.layout (t.locate target exact) c (Descent.Within c) :=
  (walks_locate hc.sites.null).looks hc

end PagedIndex
