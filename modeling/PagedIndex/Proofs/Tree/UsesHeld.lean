import PagedIndex.Proofs.Codec.Unpooled
import PagedIndex.Proofs.Session.Roles
import PagedIndex.Tree.Cursor
import PagedIndex.Tree.Delete
import PagedIndex.Tree.Insert
import PagedIndex.Tree.Survey

/-!
# The programs of calls rely on themselves

Every program of a call has a block loaded for a role before it looks at the block of that role.
None takes a block for granted that an earlier part of the call has left with a role. So whatever
the blocks hold, no call fails for the sake of a role that holds nothing.

## Main statements

* `Program.selfReliant_allocate`, `Program.selfReliant_free` — blocks are taken and given back.
* `Program.selfReliant_popSlot`, `Program.selfReliant_pushSlot` — so are record positions.
* `Tree.selfReliant_find`, `Tree.selfReliant_findLast`, `Tree.selfReliant_next`,
  `Tree.selfReliant_previous` — moves.
* `Tree.selfReliant_survey`, `Tree.selfReliant_outline` — inspections.
* `Tree.selfReliant_insert`, `Tree.selfReliant_delete` — changes.
-/

namespace PagedIndex

namespace Program

variable {α β : Type} {l : Layout} {role : Role} {pos : BlockPos} {n : Node} {s : Slots}

theorem usesHeld_getPointers_bind {S T : Role → Prop} {f : Pointers → Program β}
    (hf : ∀ p, (f p).UsesHeld S T) : (getPointers >>= f).UsesHeld S T :=
  .pointers hf

theorem selfReliant_modifyPointers {f : Pointers → Pointers} : (modifyPointers f).SelfReliant :=
  .pointers fun _ => .setPointers .pure

/-- A block is loaded and looked at. -/
theorem usesHeld_read_bind {S T : Role → Prop} {f : Bytes → Program β}
    (hf : ∀ x, (f x).UsesHeld (fun r => r = role ∨ S r) T) :
    (do loadBlock role pos; f (← image role)).UsesHeld S T :=
  .load (.view (.inl rfl) hf)

theorem selfReliant_read_bind {f : Bytes → Program β} (hf : ∀ x, (f x).SelfReliant) :
    (do loadBlock role pos; f (← image role)).SelfReliant :=
  usesHeld_read_bind fun x => (hf x).weaken (fun _ => False.elim) fun _ => id

/-! ## Tree blocks -/

theorem selfReliant_loadNode : (loadNode l role pos).SelfReliant := by
  unfold loadNode
  split
  · exact .fail nofun
  · exact selfReliant_read_bind fun x => .ofExcept Node.unpooled_decode

theorem selfReliant_loadLeaf : (loadLeaf l role pos).SelfReliant :=
  selfReliant_loadNode.bind fun n => by
    cases n with
    | leaf es => exact .pure
    | branch b => exact .fail nofun

theorem selfReliant_loadBranch : (loadBranch l role pos).SelfReliant :=
  selfReliant_loadNode.bind fun n => by
    cases n with
    | leaf es => exact .fail nofun
    | branch b => exact .pure

theorem selfReliant_storeNode : (storeNode l role pos n).SelfReliant :=
  .load (.edit (.inl rfl) (fun _ => Edit.unpooled_replace fun size => Node.unpooled_encode size n)
    (.done fun _ => False.elim))

/-! ## Free space -/

/-- A role that a block is taken for holds it. -/
theorem usesHeld_allocate :
    (allocate l role).UsesHeld (fun _ => False) fun r => r = role := by
  unfold allocate
  refine usesHeld_getPointers_bind fun p => ?_
  split
  · dsimp only
    split
    · exact .fail nofun
    · exact .load (.edit (.inl rfl) (fun _ => .ok) (.setPointers (.done fun _ => .inl)))
  · refine usesHeld_read_bind fun x => ?_
    cases hx : Deleted.decode l p.freeHead x with
    | error e => exact .fail (Unpooled.error_iff.mp (hx ▸ Deleted.unpooled_decode))
    | ok next => exact .edit (.inl rfl) (fun _ => .ok) (.setPointers (.done fun _ => .inl))

theorem selfReliant_allocate : (allocate l role).SelfReliant :=
  usesHeld_allocate.weaken (fun _ => id) fun _ => False.elim

theorem selfReliant_free : (free l role pos).SelfReliant := by
  unfold free
  split
  · exact .fail nofun
  · exact .pointers fun p => .load (.edit (.inl rfl) (fun _ => Deleted.unpooled_stamp _)
      (.setPointers (.done fun _ => False.elim)))

/-- The role that a slot block is read for holds it. -/
theorem usesHeld_loadSlots :
    (loadSlots l pos).UsesHeld (fun _ => False) fun r => r = .current := by
  refine usesHeld_read_bind fun x => ?_
  dsimp only
  split
  · exact .fail nofun
  · cases hx : Slots.decode l x with
    | error e => exact .fail (Unpooled.error_iff.mp (hx ▸ Slots.unpooled_decode))
    | ok s => exact .done fun _ => .inl

theorem selfReliant_loadSlots : (loadSlots l pos).SelfReliant :=
  usesHeld_loadSlots.weaken (fun _ => id) fun _ => False.elim

/-- A slot block is written where a block was loaded before. -/
theorem usesHeld_storeSlots : (storeSlots l s).UsesHeld (fun r => r = .current) fun _ => False :=
  .edit rfl (fun _ => Edit.unpooled_replace fun size => Slots.unpooled_encode size s)
    (.done fun _ => False.elim)

theorem selfReliant_popSlot : (popSlot l).SelfReliant := by
  unfold popSlot
  refine usesHeld_getPointers_bind fun p => ?_
  dsimp only
  split
  · exact .pure
  · refine usesHeld_loadSlots.bind fun s => ?_
    split
    · exact .fail nofun
    · exact .setPointers ((selfReliant_free.bind fun _ => .pure).weaken (fun _ => False.elim)
        fun _ => id)
    · exact usesHeld_storeSlots.bind fun _ => .pure

theorem selfReliant_pushNewSlot {next : BlockPos} {record : Nat} :
    (pushNewSlot l next record).SelfReliant :=
  usesHeld_allocate.bind fun _ => usesHeld_storeSlots.bind fun _ => selfReliant_modifyPointers

theorem selfReliant_pushSlot {record : Nat} : (pushSlot l record).SelfReliant := by
  unfold pushSlot
  refine usesHeld_getPointers_bind fun p => ?_
  dsimp only
  split
  · exact selfReliant_pushNewSlot
  · refine usesHeld_loadSlots.bind fun s => ?_
    split
    · exact usesHeld_storeSlots
    · exact selfReliant_pushNewSlot.weaken (fun _ => False.elim) fun _ => id

end Program

namespace Tree

open Program

variable {t : Tree} {pos left right child : BlockPos} {path : List Step} {step : Step}
  {e separator : Entry} {es kept moved : List Entry} {n : Node} {b : Branch} {index levels : Nat}
  {target current : Entry} {exact check : Bool} {d : Descent} {cursor : Cursor}

/-! ## Searches -/

theorem selfReliant_leftmostLeaf : (t.leftmostLeaf levels pos).SelfReliant := by
  induction levels generalizing pos with
  | zero => exact .fail nofun
  | succ levels ih =>
    refine selfReliant_loadNode.bind fun n => ?_
    match n with
    | .branch b => exact ih
    | .leaf [] => exact .fail nofun
    | .leaf (_ :: _) => exact .pure

theorem selfReliant_rightmostLeaf : (t.rightmostLeaf levels pos).SelfReliant := by
  induction levels generalizing pos with
  | zero => exact .fail nofun
  | succ levels ih =>
    refine selfReliant_loadNode.bind fun n => ?_
    match n with
    | .branch b => exact ih
    | .leaf [] => exact .fail nofun
    | .leaf (_ :: _) => exact .pure

theorem selfReliant_nextSeparator : (t.nextSeparator d path).SelfReliant := by
  induction path with
  | nil => exact .pure
  | cons step outer ih =>
    refine selfReliant_loadBranch.bind fun b => ?_
    split
    · exact .pure
    · exact ih

theorem selfReliant_successor : (t.successor d).SelfReliant := by
  unfold successor
  split
  · refine selfReliant_loadBranch.bind fun b => ?_
    split
    · exact .fail nofun
    · exact selfReliant_leftmostLeaf.bind fun _ => .pure
  · refine selfReliant_loadLeaf.bind fun es => ?_
    split
    · exact .pure
    · exact selfReliant_nextSeparator

theorem selfReliant_predecessor : (t.predecessor d).SelfReliant := by
  unfold predecessor
  split
  · refine selfReliant_loadBranch.bind fun b => ?_
    split
    · exact .fail nofun
    · exact selfReliant_rightmostLeaf.bind fun _ => .pure
  · split
    · exact .pure
    · split
      · exact .pure
      · exact .pure

theorem selfReliant_entryAt : (t.entryAt d).SelfReliant := by
  refine selfReliant_loadNode.bind fun n => ?_
  dsimp only
  split
  · exact .pure
  · exact .fail nofun

theorem selfReliant_endInLeaf {trail : Trail} {s : Scan} {size : Nat} :
    (t.endInLeaf trail pos s size).SelfReliant := by
  unfold endInLeaf
  dsimp only
  split
  · exact .pure
  · split
    · exact .pure
    · exact .pure
    · split
      · exact .pure
      · exact .pure
    · split
      · exact .pure
      · exact selfReliant_successor.bind fun _ => .pure

theorem selfReliant_descend {trail : Trail} :
    (t.descend target exact levels trail pos).SelfReliant := by
  induction levels generalizing trail pos with
  | zero =>
    unfold descend
    refine selfReliant_loadNode.bind fun n => ?_
    cases n with
    | leaf es => exact selfReliant_endInLeaf
    | branch b => exact .fail nofun
  | succ levels ih =>
    unfold descend
    refine selfReliant_loadNode.bind fun n => ?_
    cases n with
    | leaf es => exact selfReliant_endInLeaf
    | branch b =>
      dsimp only
      split
      · exact .pure
      · split
        · exact ih
        · exact .fail nofun

theorem selfReliant_locate : (t.locate target exact).SelfReliant := by
  refine usesHeld_getPointers_bind fun p => ?_
  dsimp only [pure]
  show SelfReliant (if p.root.isNull then _ else _)
  split
  · exact .pure
  · exact selfReliant_descend

/-! ## Moves -/

theorem selfReliant_settle : (t.settle cursor d).SelfReliant := by
  unfold settle
  split
  · exact selfReliant_entryAt.bind fun _ => .pure
  · exact .pure

theorem selfReliant_find (key : Bytes) : (t.find cursor key).SelfReliant := by
  refine selfReliant_locate.bind fun d => ?_
  split
  · exact selfReliant_settle
  · exact .pure

theorem selfReliant_findLast (padded : Bytes) (length : Nat) :
    (t.findLast padded length).SelfReliant := by
  refine selfReliant_locate.bind fun d => ?_
  dsimp only
  split
  · exact .pure
  · have hland : ∀ d : Descent, SelfReliant (do
        if d.state = .onKey then
          let e ← t.entryAt d
          if t.collation.compare (e.key.take (min length padded.length))
              (padded.take (min length padded.length)) = .eq then
            return Cursor.land e d.block
          else return Cursor.park .between ⟨padded, t.layout.maxRecord⟩
        else return Cursor.park .between ⟨padded, t.layout.maxRecord⟩) := by
      intro d
      split
      · refine selfReliant_entryAt.bind fun e => ?_
        split
        · exact .pure
        · exact .pure
      · exact .pure
    split
    · exact selfReliant_predecessor.bind fun d => hland d
    · exact hland d

theorem selfReliant_first : (t.first cursor).SelfReliant := by
  refine usesHeld_getPointers_bind fun p => ?_
  show SelfReliant (if p.root.isNull then _ else _)
  split
  · exact .pure
  · exact selfReliant_leftmostLeaf.bind fun _ => selfReliant_settle

theorem selfReliant_last : (t.last cursor).SelfReliant := by
  refine usesHeld_getPointers_bind fun p => ?_
  show SelfReliant (if p.root.isNull then _ else _)
  split
  · exact .pure
  · exact selfReliant_rightmostLeaf.bind fun _ => selfReliant_settle

theorem selfReliant_nextFromHint {hint : BlockPos} : (t.nextFromHint hint current).SelfReliant := by
  refine usesHeld_getPointers_bind fun p => ?_
  split
  · exact .pure
  · refine selfReliant_read_bind fun x => ?_
    dsimp only
    split
    · exact .pure
    · refine selfReliant_loadNode.bind fun n => ?_
      cases n with
      | leaf es =>
        dsimp only
        split
        · exact .pure
        · exact .pure
      | branch b =>
        dsimp only
        split
        · exact selfReliant_leftmostLeaf.bind fun _ => .pure
        · exact .pure

theorem selfReliant_nextBySearch : (t.nextBySearch cursor current).SelfReliant := by
  refine selfReliant_locate.bind fun d => ?_
  dsimp only
  split
  · exact selfReliant_successor.bind fun _ => selfReliant_settle
  · exact @selfReliant_settle t { d with state := .onKey } cursor
  · exact @selfReliant_settle t { d with state := if d.block.isNull then .afterLast else .onKey } cursor
  · exact selfReliant_settle

theorem selfReliant_next : (t.next cursor).SelfReliant := by
  unfold next
  split
  · exact .pure
  · dsimp only
    split
    · refine selfReliant_nextFromHint.bind fun o => ?_
      cases o with
      | some d => exact selfReliant_settle
      | none => exact selfReliant_nextBySearch
    · exact selfReliant_nextBySearch
  · exact selfReliant_nextBySearch
  · exact selfReliant_first

theorem selfReliant_previous : (t.previous cursor).SelfReliant := by
  have hback : ∀ current, SelfReliant (do
      let d ← t.locate current true
      let d ← if d.state = .beforeFirst then pure d else t.predecessor d
      t.settle cursor d) := by
    intro current
    refine selfReliant_locate.bind fun d => ?_
    dsimp only
    split
    · exact selfReliant_settle
    · exact selfReliant_predecessor.bind fun _ => selfReliant_settle
  unfold previous
  split
  · exact .pure
  · exact hback _
  · exact hback _
  · exact selfReliant_last

/-! ## Inspections -/

theorem selfReliant_checkOrder {lower upper : Option Entry} :
    (t.checkOrder pos lower es upper).SelfReliant := by
  unfold checkOrder
  split
  · exact .fail nofun
  · exact .pure

theorem selfReliant_surveyLeaf {depth : Nat} {s : Survey} :
    (surveyLeaf check pos depth s).SelfReliant := by
  unfold surveyLeaf
  dsimp only
  split
  · exact .fail nofun
  · exact .pure

theorem selfReliant_surveyChildren
    {visit : BlockPos → Option Entry → Option Entry → Survey → Program Survey}
    (hvisit : ∀ pos lower upper s, (visit pos lower upper s).SelfReliant) {i : Nat}
    {lower upper : Option Entry} {rest : List (Entry × BlockPos)} {s : Survey} :
    (surveyChildren visit pos i lower child rest upper s).SelfReliant := by
  induction rest generalizing i lower child s with
  | nil =>
    unfold surveyChildren
    split
    · exact .fail nofun
    · exact hvisit _ _ _ _
  | cons r rest ih =>
    unfold surveyChildren
    split
    · exact .fail nofun
    · exact (hvisit _ _ _ _).bind fun s => ih

theorem selfReliant_surveyNode {depth : Nat} {lower upper : Option Entry} {s : Survey} :
    (t.surveyNode check levels depth pos lower upper s).SelfReliant := by
  induction levels generalizing depth pos lower upper s with
  | zero => exact .fail nofun
  | succ levels ih =>
    refine selfReliant_loadNode.bind fun n => ?_
    dsimp only
    split
    · exact .fail nofun
    · cases n with
      | leaf es =>
        refine selfReliant_surveyLeaf.bind fun s => ?_
        split
        · exact selfReliant_checkOrder.bind fun _ => .pure
        · exact .pure
      | branch b =>
        have hbelow : ∀ s, (surveyChildren (t.surveyNode check levels (depth + 1)) pos 0 lower
            b.first b.separators upper s).SelfReliant :=
          fun s => selfReliant_surveyChildren fun _ _ _ _ => ih
        dsimp only
        split
        · exact selfReliant_checkOrder.bind fun _ => hbelow _
        · exact hbelow _

theorem selfReliant_freeChainLength {blocks bound : Nat} :
    (t.freeChainLength blocks bound pos).SelfReliant := by
  induction bound generalizing blocks pos with
  | zero =>
    unfold freeChainLength
    split
    · exact .pure
    · exact .fail nofun
  | succ bound ih =>
    unfold freeChainLength
    split
    · exact .pure
    · exact selfReliant_read_bind fun x =>
        (UsesHeld.ofExcept Deleted.unpooled_decode).bind fun _ => ih

theorem selfReliant_slotChainSize {blocks records bound : Nat} :
    (t.slotChainSize check blocks records bound pos).SelfReliant := by
  induction bound generalizing blocks records pos with
  | zero =>
    unfold slotChainSize
    split
    · exact .pure
    · exact .fail nofun
  | succ bound ih =>
    unfold slotChainSize
    split
    · exact .pure
    · refine selfReliant_loadSlots.bind fun s => ?_
      dsimp only
      split
      · exact .fail nofun
      · exact ih

theorem selfReliant_survey : (t.survey check).SelfReliant := by
  refine usesHeld_getPointers_bind fun p => ?_
  have htree : (t.surveyTree check p.root).SelfReliant := by
    unfold surveyTree
    split
    · exact .pure
    · exact selfReliant_surveyNode
  refine htree.bind fun s => selfReliant_freeChainLength.bind fun free =>
    selfReliant_slotChainSize.bind fun slots => ?_
  dsimp only
  split
  · exact .fail nofun
  · exact .pure

theorem selfReliant_outlineAll {visit : BlockPos → Program Outline} {positions : List BlockPos}
    (hvisit : ∀ pos, (visit pos).SelfReliant) : (outlineAll visit positions).SelfReliant := by
  induction positions with
  | nil => exact .pure
  | cons pos rest ih => exact (hvisit pos).bind fun _ => ih.bind fun _ => .pure

theorem selfReliant_outlineNode : (t.outlineNode levels pos).SelfReliant := by
  induction levels generalizing pos with
  | zero => exact .fail nofun
  | succ levels ih =>
    refine selfReliant_loadNode.bind fun n => ?_
    cases n with
    | leaf es => exact .pure
    | branch b => exact (selfReliant_outlineAll fun _ => ih).bind fun _ => .pure

theorem selfReliant_outline : t.outline.SelfReliant := by
  refine usesHeld_getPointers_bind fun p => ?_
  show SelfReliant (if p.root.isNull then _ else _)
  split
  · exact .pure
  · exact selfReliant_outlineNode.bind fun _ => .pure

/-! ## Insertion -/

theorem selfReliant_growRoot : (t.growRoot left separator right).SelfReliant :=
  selfReliant_allocate.bind fun _ => selfReliant_storeNode.bind fun _ => selfReliant_modifyPointers

theorem selfReliant_promote : (t.promote path pos separator child).SelfReliant := by
  induction path generalizing pos separator child with
  | nil => exact selfReliant_growRoot
  | cons step outer ih =>
    refine selfReliant_loadBranch.bind fun b => ?_
    dsimp only
    split
    · exact selfReliant_storeNode
    · split
      · exact selfReliant_storeNode.bind fun _ => selfReliant_allocate.bind fun _ =>
          selfReliant_storeNode.bind fun _ => ih
      · exact .fail nofun

theorem selfReliant_offload : (t.offload path pos kept separator moved).SelfReliant := by
  unfold offload
  split
  · exact .pure
  · refine selfReliant_loadBranch.bind fun b => ?_
    split
    · exact .pure
    · refine selfReliant_loadLeaf.bind fun es => ?_
      dsimp only
      split
      · exact selfReliant_storeNode.bind fun _ => selfReliant_storeNode.bind fun _ =>
          selfReliant_storeNode.bind fun _ => .pure
      · exact .pure

theorem selfReliant_splitLeaf : (t.splitLeaf path pos es).SelfReliant := by
  unfold splitLeaf
  dsimp only
  split
  · refine selfReliant_offload.bind fun done => ?_
    cases done with
    | true => exact .pure
    | false =>
      exact selfReliant_allocate.bind fun _ => selfReliant_storeNode.bind fun _ =>
        selfReliant_storeNode.bind fun _ => selfReliant_promote
  · exact .fail nofun

theorem selfReliant_insertInLeaf : (t.insertInLeaf path pos es index e).SelfReliant := by
  unfold insertInLeaf
  dsimp only
  split
  · exact selfReliant_storeNode
  · exact selfReliant_splitLeaf

theorem selfReliant_insert : (t.insert e).SelfReliant := by
  refine selfReliant_locate.bind fun d => ?_
  split
  · exact .pure
  · split
    · exact .pure
    · split
      · exact selfReliant_allocate.bind fun pos => selfReliant_storeNode.bind fun _ =>
          selfReliant_modifyPointers.bind fun _ => .pure
      · split
        · exact selfReliant_loadLeaf.bind fun es => selfReliant_insertInLeaf.bind fun _ => .pure
        · split
          · exact .fail nofun
          · exact selfReliant_loadLeaf.bind fun es => selfReliant_insertInLeaf.bind fun _ => .pure

/-! ## Deletion -/

theorem selfReliant_brothers : (t.brothers step b pos n).SelfReliant := by
  unfold brothers
  split
  · exact selfReliant_loadNode.bind fun _ => .pure
  · split
    · exact .fail nofun
    · split
      · exact .fail nofun
      · exact selfReliant_loadNode.bind fun _ => .pure

theorem selfReliant_collapse : (t.collapse path pos n).SelfReliant := by
  induction path generalizing pos n with
  | nil =>
    unfold collapse shrinkRoot
    split
    · exact selfReliant_free.bind fun _ => selfReliant_modifyPointers
    · exact .pure
  | cons step outer ih =>
    refine selfReliant_loadBranch.bind fun b => selfReliant_brothers.bind fun pair => ?_
    split
    · exact .fail nofun
    · refine (UsesHeld.ofExcept (Node.unpooled_merge _ _ _)).bind fun merged => ?_
      dsimp only
      split
      · exact selfReliant_storeNode.bind fun _ => selfReliant_free.bind fun _ =>
          selfReliant_storeNode.bind fun _ => ih
      · split
        · exact .pure
        · exact selfReliant_storeNode.bind fun _ => selfReliant_storeNode.bind fun _ =>
            selfReliant_storeNode

theorem selfReliant_firstLeaf : (t.firstLeaf levels path pos).SelfReliant := by
  induction levels generalizing path pos with
  | zero =>
    unfold firstLeaf
    refine selfReliant_loadNode.bind fun n => ?_
    cases n with
    | leaf es => exact .pure
    | branch b => exact .fail nofun
  | succ levels ih =>
    unfold firstLeaf
    refine selfReliant_loadNode.bind fun n => ?_
    cases n with
    | leaf es => exact .pure
    | branch b => exact ih

theorem selfReliant_deleteSeparator : (t.deleteSeparator path pos index).SelfReliant := by
  unfold deleteSeparator
  split
  · exact .fail nofun
  · refine selfReliant_loadBranch.bind fun b => ?_
    split
    · exact .fail nofun
    · refine selfReliant_firstLeaf.bind fun r => ?_
      dsimp only
      split
      · exact .fail nofun
      · exact selfReliant_storeNode.bind fun _ => selfReliant_storeNode.bind fun _ =>
          selfReliant_collapse.bind fun _ => .pure

theorem selfReliant_deleteInLeaf : (t.deleteInLeaf path pos index).SelfReliant := by
  refine selfReliant_loadLeaf.bind fun es => ?_
  split
  · exact selfReliant_modifyPointers.bind fun _ => selfReliant_free.bind fun _ => .pure
  · split
    · exact .fail nofun
    · exact selfReliant_storeNode.bind fun _ => selfReliant_collapse.bind fun _ => .pure

theorem selfReliant_delete : (t.delete target exact).SelfReliant := by
  refine selfReliant_locate.bind fun d => ?_
  split
  · exact .pure
  · split
    · exact selfReliant_deleteSeparator.bind fun _ => .pure
    · exact selfReliant_deleteInLeaf.bind fun _ => .pure

end Tree

end PagedIndex
