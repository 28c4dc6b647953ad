import PagedIndex.Proofs.Tree.Routes

/-!
# The routes of inspections

An inspection goes through the blocks under the root, each in front of those under it, and along the
two chains. Where links lead in circles it does not go deeper than a tree may have levels, and not
through more blocks of a chain than the file has.

## Main definitions

* `Board.under`, `Board.chainFrom` — the blocks under a block, and those of a chain.
* `Program.Follows` — blocks that are visited in a given order.

## Main statements

* `Tree.follows_survey`, `Tree.follows_outline` — inspections.
-/

namespace PagedIndex

namespace Cell

def deleted? : Cell → Option BlockPos
  | deleted next => some next
  | _ => none

def slots? : Cell → Option BlockPos
  | slots s => some s.next
  | _ => none

end Cell

namespace Board

variable {c : Board}

/-- The blocks under a block through at most `levels` levels, each in front of those under it. -/
def under (c : Board) : Nat → BlockPos → List BlockPos
  | 0, _ => []
  | levels + 1, pos => pos :: (c.links pos).flatMap (c.under levels)

/-- The blocks of a chain from one block on, at most `bound`. -/
def chainFrom (c : Board) (next : Cell → Option BlockPos) : Nat → BlockPos → List BlockPos
  | 0, _ => []
  | bound + 1, pos =>
    if pos.isNull then []
    else pos :: (((c.cells pos).bind next).map (c.chainFrom next bound)).getD []

theorem chainFrom_of_isNull {next : Cell → Option BlockPos} {bound : Nat} {pos : BlockPos}
    (hpos : pos.isNull) : c.chainFrom next bound pos = [] := by
  cases bound with
  | zero => rfl
  | succ bound => exact if_pos hpos

theorem chainFrom_succ {next : Cell → Option BlockPos} {bound : Nat} {pos : BlockPos}
    (hpos : ¬pos.isNull) : c.chainFrom next (bound + 1) pos =
      pos :: (((c.cells pos).bind next).map (c.chainFrom next bound)).getD [] := if_neg hpos

/-- The blocks under the root. -/
def tree (c : Board) : List BlockPos :=
  if c.pointers.root.isNull then [] else c.under (maxLevels + 1) c.pointers.root

theorem tree_of_isNull (h : c.pointers.root.isNull) : c.tree = [] := if_pos h

theorem tree_eq (h : ¬c.pointers.root.isNull) :
    c.tree = c.under (maxLevels + 1) c.pointers.root := if_neg h

/-- The number of blocks up to the mark of the last block. -/
def total (c : Board) (l : Layout) : Nat := c.pointers.highWater.offset / l.blockSize + 1

/-- The blocks under the root and those of the two chains. -/
def whole (c : Board) (l : Layout) : List BlockPos :=
  c.tree ++ (c.chainFrom Cell.deleted? (c.total l) c.pointers.freeHead ++
    c.chainFrom Cell.slots? (c.total l) c.pointers.slotHead)

/-- A chain is never longer than it may be, also if its links lead in circles. -/
theorem length_chainFrom_le (c : Board) (next : Cell → Option BlockPos) (bound : Nat)
    (pos : BlockPos) : (c.chainFrom next bound pos).length ≤ bound := by
  induction bound generalizing pos with
  | zero => exact Nat.le_refl _
  | succ bound ih =>
    unfold chainFrom
    split
    · exact Nat.zero_le _
    · cases (c.cells pos).bind next with
      | none => simp
      | some q => simpa using ih q

/-- So there are not many blocks beside those of the tree. -/
theorem length_whole_le (c : Board) (l : Layout) :
    (c.whole l).length ≤ c.tree.length + 2 * c.total l := by
  have hfree := c.length_chainFrom_le Cell.deleted? (c.total l) c.pointers.freeHead
  have hslots := c.length_chainFrom_le Cell.slots? (c.total l) c.pointers.slotHead
  unfold whole
  rw [List.length_append, List.length_append]
  omega

end Board

namespace Program

variable {α β : Type} {blocks : BlockPos → Option Bytes} {p : Pointers} {l : Layout} {role : Role}
  {pos : BlockPos} {program : Program α} {f : α → Program β}

/-! ## Parts of inspections -/

/-- Blocks are visited in a given order, and all of them if a value is come to. -/
def Follows (qs : List BlockPos) (ps : List BlockPos) (o : Option α) : Prop :=
  ps <+: qs ∧ (o.isSome → ps = qs)

section Follows

variable {qs qs' : List BlockPos}

theorem Follows.stopped : Follows qs [] (none : Option α) := ⟨List.nil_prefix, by simp⟩

theorem Follows.refused : Follows (pos :: qs) [pos] (none : Option α) := ⟨by simp, by simp⟩

theorem Follows.cons {ps : List BlockPos} {o : Option α} (h : Follows qs ps o) :
    Follows (pos :: qs) (pos :: ps) o :=
  ⟨List.cons_prefix_cons.mpr ⟨rfl, h.1⟩, fun ho => congrArg _ (h.2 ho)⟩

theorem follows_pure {a : α} : (pure a : Program α).Visiting blocks p (Follows []) :=
  visiting_pure .stopped ⟨List.nil_prefix, fun _ => rfl⟩

theorem follows_fail {e : Error} : (fail e : Program α).Visiting blocks p (Follows qs) :=
  visiting_fail .stopped

theorem follows_bind (hprogram : program.Reader) (h : program.Visiting blocks p (Follows qs))
    (hf : ∀ a, (f a).Visiting blocks p (Follows qs')) :
    (program >>= f).Visiting blocks p (Follows (qs ++ qs')) := by
  refine h.bind hprogram (fun ps hps => ⟨hps.1.trans (List.prefix_append qs qs'), by simp⟩) ?_
  intro a front hfront
  obtain rfl := hfront.2 rfl
  refine (hf a).mono fun back o hback => ⟨?_, fun ho => ?_⟩
  · exact (List.prefix_append_right_inj front).mpr hback.1
  · rw [hback.2 ho]

/-- A first part that visits nothing. -/
theorem follows_then (hprogram : program.Reader) (h : program.Visiting blocks p (Follows []))
    (hf : ∀ a, (f a).Visiting blocks p (Follows qs)) : (program >>= f).Visiting blocks p (Follows qs) :=
  follows_bind hprogram h hf

/-- A last part that visits nothing. -/
theorem follows_last (hprogram : program.Reader) (h : program.Visiting blocks p (Follows qs))
    (hf : ∀ a, (f a).Visiting blocks p (Follows [])) :
      (program >>= f).Visiting blocks p (Follows qs) := by
  rw [← List.append_nil qs]
  exact follows_bind hprogram h hf

/-- A tree block is visited. -/
theorem follows_loadNode_bind {f : Node → Program β}
    (hf : ∀ n, (Board.read l blocks p).cells pos = some (.node n) →
      (f n).Visiting blocks p (Follows qs)) :
    (loadNode l role pos >>= f).Visiting blocks p (Follows (pos :: qs)) :=
  visiting_loadNode_bind .stopped .refused fun n hn => (hf n hn).mono fun _ _ => .cons

/-- A deleted block is visited. -/
theorem follows_loadDeleted_bind {f : BlockPos → Program β} (hnull : pos ≠ .null)
    (hf : ∀ next, (Board.read l blocks p).cells pos = some (.deleted next) →
      (f next).Visiting blocks p (Follows qs)) :
    (do loadBlock role pos; let x ← image role; ofExcept (Deleted.decode l pos x) >>= f).Visiting
      blocks p
      (Follows (pos :: qs)) :=
  visiting_read_bind .stopped .refused fun x hx => visiting_ofExcept_bind .refused fun next hnext =>
    (hf next (Board.cells_read_eq_some_iff.mpr
      ⟨hnull, x, hx, Cell.read?_eq_deleted_iff.mpr hnext⟩)).mono fun _ _ => .cons

/-- A slot block is visited. -/
theorem follows_loadSlots_bind {f : Slots → Program β} (hnull : pos ≠ .null)
    (hf : ∀ s, (Board.read l blocks p).cells pos = some (.slots s) →
      (f s).Visiting blocks p (Follows qs)) :
    (loadSlots l pos >>= f).Visiting blocks p (Follows (pos :: qs)) := by
  show Visiting blocks p _ (load .current pos true (view .current fun x =>
    (if x.head? ≠ some BlockKind.slots.tag then fail (.corrupt (.notSlotBlock pos))
      else ofExcept (Slots.decode l x)) >>= f))
  refine visiting_read_bind .stopped .refused fun x hx => ?_
  split
  · exact visiting_fail .refused
  · exact visiting_ofExcept_bind .refused fun s hs => (hf s (Board.cells_read_eq_some_iff.mpr
      ⟨hnull, x, hx, Cell.read?_eq_slots_iff.mpr hs⟩)).mono fun _ _ => .cons

end Follows

end Program

namespace Tree

open Program

variable {t : Tree} {blocks : BlockPos → Option Bytes} {p : Pointers} {c : Board}
  {pos : BlockPos} {levels : Nat} {check : Bool}

/-! ## Inspections -/

theorem follows_checkOrder {lower upper : Option Entry} {es : List Entry} :
    (t.checkOrder pos lower es upper).Visiting blocks p (Follows []) := by
  unfold checkOrder
  split
  · exact follows_fail
  · exact follows_pure

theorem follows_surveyLeaf {depth : Nat} {s : Survey} :
    (surveyLeaf check pos depth s).Visiting blocks p (Follows []) := by
  unfold surveyLeaf
  dsimp only
  split
  · exact follows_fail
  · exact follows_pure

/-- Of each child are visited the blocks under it. -/
theorem follows_surveyChildren
    {visit : BlockPos → Option Entry → Option Entry → Survey → Program Survey}
    {under : BlockPos → List BlockPos}
    (hreader : ∀ child lower upper s, (visit child lower upper s).Reader)
    (hvisit : ∀ child lower upper s,
      (visit child lower upper s).Visiting blocks p (Follows (under child)))
    {i : Nat} {lower upper : Option Entry} {child : BlockPos} {rest : List (Entry × BlockPos)}
    {s : Survey} : (surveyChildren visit pos i lower child rest upper s).Visiting blocks p
      (Follows ((child :: rest.map Prod.snd).flatMap under)) := by
  induction rest generalizing i lower child s with
  | nil =>
    unfold surveyChildren
    split
    · exact follows_fail
    · simpa using hvisit child lower upper s
  | cons r rest ih =>
    unfold surveyChildren
    split
    · exact follows_fail
    · exact follows_bind (hreader _ _ _ _) (hvisit _ _ _ _) fun s => ih

section Board

variable (hc : Board.read t.layout blocks p = c)
include hc

/-- Every block under a block is visited, in order. -/
theorem follows_surveyNode {depth : Nat} {lower upper : Option Entry} {s : Survey} :
    (t.surveyNode check levels depth pos lower upper s).Visiting blocks p
      (Follows (c.under levels pos)) := by
  induction levels generalizing depth pos lower upper s with
  | zero => exact follows_fail
  | succ levels ih =>
    refine follows_loadNode_bind fun n hn => ?_
    rw [links_eq hc hn]
    dsimp only
    split
    · exact follows_fail
    · cases n with
      | leaf es =>
        refine follows_then (walks_surveyLeaf (t := t)).reader follows_surveyLeaf fun s => ?_
        split
        · exact follows_then walks_checkOrder.reader follows_checkOrder fun _ => follows_pure
        · exact follows_pure
      | branch b =>
        have hbelow : ∀ s, (surveyChildren (t.surveyNode check levels (depth + 1)) pos 0 lower b.first
            b.separators upper s).Visiting blocks p (Follows (b.children.flatMap (c.under levels))) :=
          fun s => follows_surveyChildren (fun _ _ _ _ => (walks_surveyNode trivial).reader)
            fun _ _ _ _ => ih
        dsimp only
        split
        · exact follows_then walks_checkOrder.reader follows_checkOrder fun _ => hbelow _
        · exact hbelow _

/-- Every deleted block is visited. -/
theorem follows_freeChainLength {n bound : Nat} : (t.freeChainLength n bound pos).Visiting blocks p
    (Follows (c.chainFrom Cell.deleted? bound pos)) := by
  induction bound generalizing n pos with
  | zero =>
    unfold freeChainLength
    split
    · exact follows_pure
    · exact follows_fail
  | succ bound ih =>
    unfold freeChainLength
    split
    · next hnull =>
      rw [Board.chainFrom_of_isNull hnull]
      exact follows_pure
    · next hnull =>
      rw [Board.chainFrom_succ hnull]
      refine follows_loadDeleted_bind (mt BlockPos.isNull_iff.mpr hnull) fun next hnext => ?_
      rw [hc] at hnext
      simpa [hnext, Cell.deleted?] using ih

/-- Every slot block is visited. -/
theorem follows_slotChainSize {m n bound : Nat} :
    (t.slotChainSize check m n bound pos).Visiting blocks p
    (Follows (c.chainFrom Cell.slots? bound pos)) := by
  induction bound generalizing m n pos with
  | zero =>
    unfold slotChainSize
    split
    · exact follows_pure
    · exact follows_fail
  | succ bound ih =>
    unfold slotChainSize
    split
    · next hnull =>
      rw [Board.chainFrom_of_isNull hnull]
      exact follows_pure
    · next hnull =>
      rw [Board.chainFrom_succ hnull]
      refine follows_loadSlots_bind (mt BlockPos.isNull_iff.mpr hnull) fun s hs => ?_
      rw [hc] at hs
      dsimp only
      split
      · exact follows_fail
      · simpa [hs, Cell.slots?] using ih

/-- A survey visits the blocks under the root, the deleted ones and those that list record
positions. -/
theorem follows_survey : (t.survey check).Visiting blocks p (Follows (c.whole t.layout)) := by
  subst hc
  have htree : (t.surveyTree check p.root).Reader ∧ (t.surveyTree check p.root).Visiting blocks p
      (Follows (Board.read t.layout blocks p).tree) := by
    unfold surveyTree
    by_cases hnull : p.root.isNull
    · rw [if_pos hnull, Board.tree_of_isNull hnull]
      exact ⟨.done, follows_pure⟩
    · rw [if_neg hnull, Board.tree_eq hnull]
      exact ⟨(walks_surveyNode trivial).reader, follows_surveyNode rfl⟩
  refine visiting_getPointers_bind .stopped (follows_bind htree.1 htree.2 fun s => ?_)
  refine follows_bind (walks_freeChainLength trivial).reader (follows_freeChainLength rfl) fun _ => ?_
  refine follows_last (walks_slotChainSize trivial).reader (follows_slotChainSize rfl) fun _ => ?_
  dsimp only
  split
  · exact follows_fail
  · exact follows_pure

omit hc in
/-- Of each block are visited the blocks under it. -/
theorem follows_outlineAll {visit : BlockPos → Program Outline} {under : BlockPos → List BlockPos}
    {positions : List BlockPos}
    (hreader : ∀ pos, (visit pos).Walks t.layout (fun _ => True) fun _ => True)
    (hvisit : ∀ pos, (visit pos).Visiting blocks p (Follows (under pos))) :
    (outlineAll visit positions).Visiting blocks p (Follows (positions.flatMap under)) := by
  induction positions with
  | nil => exact follows_pure
  | cons pos rest ih =>
    rw [List.flatMap_cons]
    refine follows_bind (hreader pos).reader (hvisit pos) fun first => ?_
    exact follows_last (walks_outlineAll fun q _ => hreader q).reader ih fun _ => follows_pure

theorem follows_outlineNode : (t.outlineNode levels pos).Visiting blocks p
    (Follows (c.under levels pos)) := by
  induction levels generalizing pos with
  | zero => exact follows_fail
  | succ levels ih =>
    refine follows_loadNode_bind fun n hn => ?_
    rw [links_eq hc hn]
    cases n with
    | leaf es => exact follows_pure
    | branch b =>
      have hreader : ∀ q, (t.outlineNode levels q).Walks t.layout (fun _ => True) fun _ => True :=
        fun _ => walks_outlineNode trivial
      exact follows_last (walks_outlineAll fun q _ => hreader q).reader
        (follows_outlineAll hreader fun _ => ih) fun _ => follows_pure

/-- An outline visits the blocks under the root. -/
theorem follows_outline : t.outline.Visiting blocks p (Follows c.tree) := by
  subst hc
  refine visiting_getPointers_bind .stopped ?_
  show Visiting blocks p _ (if p.root.isNull then _ else _)
  by_cases hnull : p.root.isNull
  · rw [if_pos hnull, Board.tree_of_isNull hnull]
    exact follows_pure
  · rw [if_neg hnull, Board.tree_eq hnull]
    exact follows_last (walks_outlineNode trivial).reader (follows_outlineNode rfl) fun _ =>
      follows_pure

end Board

end Tree

end PagedIndex
