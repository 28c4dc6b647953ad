import PagedIndex.Proofs.Tree.Capacity
import PagedIndex.Proofs.Tree.Ledger
import PagedIndex.Tree.Cursor
import PagedIndex.Tree.Survey

/-!
# The programs of calls keep the length of blocks

Whatever the blocks hold, and wherever their links lead, no program but that of a deletion is
abandoned at an index or a bound. What is taken for granted of what has been read was made sure of:
a leaf that a move comes to from behind has entries, and a key that a move cuts is as long as keys
are.

## Main statements

* `Program.keepsLength_allocate`, `Program.keepsLength_free` — blocks are taken and given back.
* `Program.keepsLength_popSlot`, `Program.keepsLength_pushSlot` — so are record positions.
* `Tree.keepsLength_find`, `Tree.keepsLength_findLast`, `Tree.keepsLength_next`,
  `Tree.keepsLength_previous` — moves.
* `Tree.keepsLength_survey`, `Tree.keepsLength_outline` — inspections.
* `Tree.keepsLength_insert` — insertions.
* `Tree.keepsLength_delete` — deletions leave blocks of full length.
-/

namespace PagedIndex

namespace Program

variable {α β : Type} {C : Prop} {l : Layout} {role : Role} {pos : BlockPos} {R : β → Prop}

/-! ## Single blocks -/

theorem keepsLength_getPointers_bind {f : Pointers → Program β}
    (hf : ∀ p, (f p).KeepsLength C l.blockSize R) : (getPointers >>= f).KeepsLength C l.blockSize R :=
  .pointers hf

theorem keepsLength_modifyPointers {f : Pointers → Pointers} :
    (modifyPointers f).KeepsLength C l.blockSize fun _ => True := ample_modifyPointers.keepsLength

/-- A block is loaded and looked at. -/
theorem keepsLength_read_bind {f : Bytes → Program β}
    (hf : ∀ x : Bytes, x.length = l.blockSize → (f x).KeepsLength C l.blockSize R) :
    (do loadBlock role pos; f (← image role)).KeepsLength C l.blockSize R :=
  .load (.view hf)

section Workable

variable (hl : l.Workable)
include hl

theorem keepsLength_loadNode : (loadNode l role pos).KeepsLength C l.blockSize (Node.Seated l) :=
  (ample_loadNode hl.roomy.2).keepsLength

theorem keepsLength_loadBranch :
    (loadBranch l role pos).KeepsLength C l.blockSize fun b => (Node.branch b).Seated l :=
  (ample_loadBranch hl.roomy.2).keepsLength

/-! ## Free space -/

theorem keepsLength_decode_deleted {x : Bytes} (hx : x.length = l.blockSize) :
    InRange (Deleted.decode l pos x) :=
  Deleted.inRange_decode (by have := hl.room; omega)

/-- A block is taken. -/
theorem keepsLength_allocate : (allocate l role).KeepsLength C l.blockSize fun _ => True :=
  (ample_allocate hl.roomy.2).keepsLength

/-- A block is given back. -/
theorem keepsLength_free : (free l role pos).KeepsLength C l.blockSize fun _ => True :=
  (ample_free hl.roomy.2).keepsLength

/-- A slot block is read. -/
theorem keepsLength_loadSlots : (loadSlots l pos).KeepsLength C l.blockSize fun _ => True := by
  refine keepsLength_read_bind fun x hx => ?_
  dsimp only
  split
  · exact .fail (by simp)
  · exact KeepsLength.ofExcept (Slots.inRange_decode (by have := hl.room; omega)) fun _ _ => trivial

omit hl in
theorem keepsLength_storeSlots {s : Slots} :
    (storeSlots l s).KeepsLength C l.blockSize fun _ => True := by
  refine .edit (fun x hx => ⟨?_, fun e he hr => ?_⟩) (.done trivial)
  · rw [Edit.length_replace fun new hnew => (Slots.front_of_encode hnew).2, hx]
  · exact absurd (he.trans (congrArg _ hr)) (Edit.inRange_replace (Slots.inRange_encode _ _))

/-- A record position is taken. -/
theorem keepsLength_popSlot : (popSlot l).KeepsLength C l.blockSize fun _ => True := by
  unfold popSlot
  refine keepsLength_getPointers_bind fun p => ?_
  dsimp only
  split
  · exact .done trivial
  · refine (keepsLength_loadSlots hl).bind fun s _ => ?_
    split
    · exact .fail (by simp)
    · exact .setPointers ((keepsLength_free hl).bind fun _ _ => .done trivial)
    · exact keepsLength_storeSlots.bind fun _ _ => .done trivial

theorem keepsLength_pushNewSlot {next : BlockPos} {record : Nat} :
    (pushNewSlot l next record).KeepsLength C l.blockSize fun _ => True :=
  (keepsLength_allocate hl).bind fun _ _ => keepsLength_storeSlots.bind fun _ _ =>
    keepsLength_modifyPointers

/-- A record position is listed. -/
theorem keepsLength_pushSlot {record : Nat} :
    (pushSlot l record).KeepsLength C l.blockSize fun _ => True := by
  unfold pushSlot
  refine keepsLength_getPointers_bind fun p => ?_
  dsimp only
  split
  · exact keepsLength_pushNewSlot hl
  · refine (keepsLength_loadSlots hl).bind fun s _ => ?_
    split
    · exact keepsLength_storeSlots
    · exact keepsLength_pushNewSlot hl

end Workable

end Program

namespace Tree

open Program

variable {C : Prop} {t : Tree} {pos child : BlockPos} {es : List Entry} {levels : Nat}
  {e target current : Entry} {exact check : Bool} {d : Descent} {cursor : Cursor}

section Workable

variable (hl : t.layout.Workable)
include hl

/-! ## Searches -/

theorem keepsLength_leftmostLeaf :
    (t.leftmostLeaf levels pos).KeepsLength C t.layout.blockSize fun _ => True :=
  (ample_leftmostLeaf hl.roomy.2).keepsLength

/-- The last leaf has entries. -/
theorem keepsLength_rightmostLeaf :
    (t.rightmostLeaf levels pos).KeepsLength C t.layout.blockSize fun r => 0 < r.2 := by
  induction levels generalizing pos with
  | zero => exact .fail (by simp)
  | succ levels ih =>
    refine (keepsLength_loadNode hl).bind fun n _ => ?_
    match n with
    | .branch b => exact ih
    | .leaf [] => exact .fail (by simp)
    | .leaf (_ :: _) => exact .pure (Nat.succ_pos _)

theorem keepsLength_successor : (t.successor d).KeepsLength C t.layout.blockSize fun _ => True :=
  (ample_successor hl.roomy.2).keepsLength

theorem keepsLength_predecessor : (t.predecessor d).KeepsLength C t.layout.blockSize fun _ => True := by
  unfold predecessor
  split
  · refine (keepsLength_loadBranch hl).bind fun b _ => ?_
    split
    · exact .fail (by simp)
    · exact (keepsLength_rightmostLeaf hl).bind fun _ _ => .pure trivial
  · split
    · exact .pure trivial
    · split
      · exact .pure trivial
      · exact .pure trivial

/-- An entry that is read has a key of key length. -/
theorem keepsLength_entryAt :
    (t.entryAt d).KeepsLength C t.layout.blockSize fun e => e.key.length = t.layout.keyLength := by
  refine (keepsLength_loadNode hl).bind fun n hn => ?_
  dsimp only
  split
  · next e he =>
    have he := List.mem_of_getElem? he
    refine .pure (hn.keyed e ?_)
    cases n with
    | leaf es =>
      dsimp only at he
      split at he
      · cases he
      · exact he
    | branch b =>
      dsimp only at he
      split at he
      · exact he
      · cases he
  · exact .fail (by simp)

theorem keepsLength_locate : (t.locate target exact).KeepsLength C t.layout.blockSize fun _ => True :=
  (ample_locate hl.roomy.2).keepsLength

/-! ## Moves -/

theorem keepsLength_settle : (t.settle cursor d).KeepsLength C t.layout.blockSize fun _ => True := by
  unfold settle
  split
  · exact (keepsLength_entryAt hl).bind fun _ _ => .pure trivial
  · exact .pure trivial

theorem keepsLength_find (key : Bytes) :
    (t.find cursor key).KeepsLength C t.layout.blockSize fun _ => True := by
  refine (keepsLength_locate hl).bind fun d _ => ?_
  split
  · exact keepsLength_settle hl
  · exact .pure trivial

theorem keepsLength_findLast (padded : Bytes) (length : Nat) :
    (t.findLast padded length).KeepsLength C t.layout.blockSize fun _ => True := by
  refine (keepsLength_locate hl).bind fun d _ => ?_
  dsimp only
  split
  · exact .pure trivial
  · have hland : ∀ d : Descent, Program.KeepsLength C t.layout.blockSize (fun _ => True) (do
        if d.state = .onKey then
          let e ← t.entryAt d
          if t.collation.compare (e.key.take (min length padded.length))
              (padded.take (min length padded.length)) = .eq then
            return Cursor.land e d.block
          else return Cursor.park .between ⟨padded, t.layout.maxRecord⟩
        else return Cursor.park .between ⟨padded, t.layout.maxRecord⟩) := by
      intro d
      split
      · refine (keepsLength_entryAt hl).bind fun e _ => ?_
        split
        · exact .pure trivial
        · exact .pure trivial
      · exact .pure trivial
    split
    · exact (keepsLength_predecessor hl).bind fun d _ => hland d
    · exact hland d

theorem keepsLength_first : (t.first cursor).KeepsLength C t.layout.blockSize fun _ => True := by
  refine keepsLength_getPointers_bind fun p => ?_
  show Program.KeepsLength C _ _ (if p.root.isNull then _ else _)
  split
  · exact .pure trivial
  · exact (keepsLength_leftmostLeaf hl).bind fun _ _ => keepsLength_settle hl

theorem keepsLength_last : (t.last cursor).KeepsLength C t.layout.blockSize fun _ => True := by
  refine keepsLength_getPointers_bind fun p => ?_
  show Program.KeepsLength C _ _ (if p.root.isNull then _ else _)
  split
  · exact .pure trivial
  · exact (keepsLength_rightmostLeaf hl).bind fun _ _ => keepsLength_settle hl

theorem keepsLength_nextFromHint {hint : BlockPos} :
    (t.nextFromHint hint current).KeepsLength C t.layout.blockSize fun _ => True := by
  refine keepsLength_getPointers_bind fun p => ?_
  split
  · exact .pure trivial
  · refine keepsLength_read_bind fun x _ => ?_
    dsimp only
    split
    · exact .pure trivial
    · refine (keepsLength_loadNode hl).bind fun n _ => ?_
      cases n with
      | leaf es =>
        dsimp only
        split
        · exact .pure trivial
        · exact .pure trivial
      | branch b =>
        dsimp only
        split
        · exact (keepsLength_leftmostLeaf hl).bind fun _ _ => .pure trivial
        · exact .pure trivial

theorem keepsLength_nextBySearch :
    (t.nextBySearch cursor current).KeepsLength C t.layout.blockSize fun _ => True := by
  refine (keepsLength_locate hl).bind fun d _ => ?_
  dsimp only
  split
  · exact (keepsLength_successor hl).bind fun _ _ => keepsLength_settle hl
  · exact @keepsLength_settle C t { d with state := .onKey } cursor hl
  · exact @keepsLength_settle C t { d with state := if d.block.isNull then .afterLast else .onKey }
      cursor hl
  · exact keepsLength_settle hl

theorem keepsLength_next : (t.next cursor).KeepsLength C t.layout.blockSize fun _ => True := by
  unfold next
  split
  · exact .pure trivial
  · dsimp only
    split
    · refine (keepsLength_nextFromHint hl).bind fun o _ => ?_
      cases o with
      | some d => exact keepsLength_settle hl
      | none => exact keepsLength_nextBySearch hl
    · exact keepsLength_nextBySearch hl
  · exact keepsLength_nextBySearch hl
  · exact keepsLength_first hl

theorem keepsLength_previous : (t.previous cursor).KeepsLength C t.layout.blockSize fun _ => True := by
  have hback : ∀ current, Program.KeepsLength C t.layout.blockSize (fun _ => True) (do
      let d ← t.locate current true
      let d ← if d.state = .beforeFirst then pure d else t.predecessor d
      t.settle cursor d) := by
    intro current
    refine (keepsLength_locate hl).bind fun d _ => ?_
    dsimp only
    split
    · exact keepsLength_settle hl
    · exact (keepsLength_predecessor hl).bind fun _ _ => keepsLength_settle hl
  unfold previous
  split
  · exact .pure trivial
  · exact hback _
  · exact hback _
  · exact keepsLength_last hl

/-! ## Inspections -/

omit hl in
theorem keepsLength_checkOrder {lower upper : Option Entry} :
    (t.checkOrder pos lower es upper).KeepsLength C t.layout.blockSize fun _ => True := by
  unfold checkOrder
  split
  · exact .fail (by simp)
  · exact .pure trivial

omit hl in
theorem keepsLength_surveyLeaf {depth : Nat} {s : Survey} :
    (surveyLeaf check pos depth s).KeepsLength C t.layout.blockSize fun _ => True := by
  unfold surveyLeaf
  dsimp only
  split
  · exact .fail (by simp)
  · exact .pure trivial

omit hl in
theorem keepsLength_surveyChildren
    {visit : BlockPos → Option Entry → Option Entry → Survey → Program Survey}
    (hvisit : ∀ pos lower upper s, (visit pos lower upper s).KeepsLength C t.layout.blockSize
      fun _ => True)
    {i : Nat} {lower upper : Option Entry} {rest : List (Entry × BlockPos)} {s : Survey} :
    (surveyChildren visit pos i lower child rest upper s).KeepsLength C t.layout.blockSize
      fun _ => True := by
  induction rest generalizing i lower child s with
  | nil =>
    unfold surveyChildren
    split
    · exact .fail (by simp)
    · exact hvisit _ _ _ _
  | cons r rest ih =>
    unfold surveyChildren
    split
    · exact .fail (by simp)
    · exact (hvisit _ _ _ _).bind fun s _ => ih

theorem keepsLength_surveyNode {depth : Nat} {lower upper : Option Entry} {s : Survey} :
    (t.surveyNode check levels depth pos lower upper s).KeepsLength C t.layout.blockSize
      fun _ => True := by
  induction levels generalizing depth pos lower upper s with
  | zero => exact .fail (by simp)
  | succ levels ih =>
    refine (keepsLength_loadNode hl).bind fun n _ => ?_
    dsimp only
    split
    · exact .fail (by simp)
    · cases n with
      | leaf es =>
        refine keepsLength_surveyLeaf.bind fun s _ => ?_
        split
        · exact keepsLength_checkOrder.bind fun _ _ => .pure trivial
        · exact .pure trivial
      | branch b =>
        have hbelow : ∀ s, (surveyChildren (t.surveyNode check levels (depth + 1)) pos 0 lower
            b.first b.separators upper s).KeepsLength C t.layout.blockSize fun _ => True :=
          fun s => keepsLength_surveyChildren fun _ _ _ _ => ih
        dsimp only
        split
        · exact keepsLength_checkOrder.bind fun _ _ => hbelow _
        · exact hbelow _

theorem keepsLength_freeChainLength {blocks bound : Nat} :
    (t.freeChainLength blocks bound pos).KeepsLength C t.layout.blockSize fun _ => True := by
  induction bound generalizing blocks pos with
  | zero =>
    unfold freeChainLength
    split
    · exact .pure trivial
    · exact .fail (by simp)
  | succ bound ih =>
    unfold freeChainLength
    split
    · exact .pure trivial
    · refine keepsLength_read_bind fun x hx => ?_
      exact (KeepsLength.ofExcept (keepsLength_decode_deleted hl hx) fun _ _ => trivial).bind fun _
        _ => ih

theorem keepsLength_slotChainSize {blocks records bound : Nat} :
    (t.slotChainSize check blocks records bound pos).KeepsLength C t.layout.blockSize fun _ =>
      True := by
  induction bound generalizing blocks records pos with
  | zero =>
    unfold slotChainSize
    split
    · exact .pure trivial
    · exact .fail (by simp)
  | succ bound ih =>
    unfold slotChainSize
    split
    · exact .pure trivial
    · refine (keepsLength_loadSlots hl).bind fun s _ => ?_
      dsimp only
      split
      · exact .fail (by simp)
      · exact ih

theorem keepsLength_survey : (t.survey check).KeepsLength C t.layout.blockSize fun _ => True := by
  refine keepsLength_getPointers_bind fun p => ?_
  have htree : (t.surveyTree check p.root).KeepsLength C t.layout.blockSize fun _ => True := by
    unfold surveyTree
    split
    · exact .pure trivial
    · exact keepsLength_surveyNode hl
  refine htree.bind fun s _ => (keepsLength_freeChainLength hl).bind fun free _ =>
    (keepsLength_slotChainSize hl).bind fun slots _ => ?_
  dsimp only
  split
  · exact .fail (by simp)
  · exact .pure trivial

omit hl in
theorem keepsLength_outlineAll {visit : BlockPos → Program Outline} {positions : List BlockPos}
    (hvisit : ∀ pos, (visit pos).KeepsLength C t.layout.blockSize fun _ => True) :
    (outlineAll visit positions).KeepsLength C t.layout.blockSize fun _ => True := by
  induction positions with
  | nil => exact .pure trivial
  | cons pos rest ih =>
    exact (hvisit pos).bind fun _ _ => ih.bind fun _ _ => .pure trivial

theorem keepsLength_outlineNode :
    (t.outlineNode levels pos).KeepsLength C t.layout.blockSize fun _ => True := by
  induction levels generalizing pos with
  | zero => exact .fail (by simp)
  | succ levels ih =>
    refine (keepsLength_loadNode hl).bind fun n _ => ?_
    cases n with
    | leaf es => exact .pure trivial
    | branch b => exact (keepsLength_outlineAll fun _ => ih).bind fun _ _ => .pure trivial

theorem keepsLength_outline : t.outline.KeepsLength C t.layout.blockSize fun _ => True := by
  refine keepsLength_getPointers_bind fun p => ?_
  show Program.KeepsLength C _ _ (if p.root.isNull then _ else _)
  split
  · exact .pure trivial
  · exact (keepsLength_outlineNode hl).bind fun _ _ => .pure trivial

/-! ## Insertion and deletion -/

/-- An insertion of a key of key length. -/
theorem keepsLength_insert (hkey : e.key.length = t.layout.keyLength) :
    (t.insert e).KeepsLength C t.layout.blockSize fun _ => True :=
      (ample_insert hl.roomy hkey).keepsLength

/-- A deletion may be abandoned on the way up, but it leaves blocks of full length. -/
theorem keepsLength_delete : (t.delete target exact).KeepsLength True t.layout.blockSize fun _ =>
    True :=
  (ample_delete hl.roomy.2).keepsLength

end Workable

end Tree

end PagedIndex
