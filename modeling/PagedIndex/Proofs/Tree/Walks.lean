import PagedIndex.Proofs.Codec.Links
import PagedIndex.Proofs.Tree.Board
import PagedIndex.Tree.Cursor
import PagedIndex.Tree.Survey

/-!
# Walks along the links of a file

Searches, moves of a cursor, surveys and outlines read blocks and change none, and they go where the
links lead that they read. Whatever can be said of the places that links lead to is said of all the
blocks that they read, whether the links make up a tree or not. The place where a search ends is one
of them, so that a cursor that lands there keeps a hint that a later move may follow.

## Main definitions

* `Program.Walks` — a program that reads blocks at places that it knows from links.
* `Cursor.Aligned` — a cursor whose hint is a place where a block may start.

## Main statements

* `Tree.walks_locate` — a search.
* `Tree.walks_find`, `Tree.walks_findLast`, `Tree.walks_next`, `Tree.walks_previous` — moves.
* `Tree.walks_survey`, `Tree.walks_outline` — inspections.
-/

namespace PagedIndex

/-- Places where blocks may start, the one of the header among them, where a chain of links ends. -/
structure Layout.Sites (l : Layout) (P : BlockPos → Prop) : Prop where
  null : P .null
  aligned : ∀ p, P p → l.blockSize ∣ p.offset

/-- A program that reads blocks at places in `P`, as long as the links that it reads lead to places
in `P`, and so do the chain pointers and every place up to the mark of the last block. Of the value
that the program ends with `Q` is true. -/
inductive Program.Walks {α : Type} (l : Layout) (P : BlockPos → Prop) (Q : α → Prop) :
    Program α → Prop
  | done {a : α} (ha : Q a) : Walks l P Q (.done a)
  | fail {e : Error} : Walks l P Q (.fail e)
  | read {role : Role} {pos : BlockPos} {next : Bytes → Program α} (hrole : role ≠ .header)
      (hpos : P pos) (hnull : pos ≠ .null)
      (hnext : ∀ x : Bytes, l.LinksIn P x → Walks l P Q (next x)) :
      Walks l P Q (.load role pos true (.view role next))
  | pointers {next : Pointers → Program α}
      (hnext : ∀ p : Pointers, P p.root → P p.freeHead → P p.slotHead →
        (∀ q : BlockPos, q ≠ .null → l.blockSize ∣ q.offset → q.offset ≤ p.highWater.offset → P q) →
          Walks l P Q (next p)) : Walks l P Q (.pointers next)

namespace Program.Walks

variable {α β : Type} {l : Layout} {P : BlockPos → Prop} {Q : α → Prop} {R : β → Prop}
  {Q' : α → Prop} {program : Program α} {f : α → Program β} {role : Role} {pos : BlockPos}

theorem mono (h : program.Walks l P Q) (hQ : ∀ a, Q a → Q' a) : program.Walks l P Q' := by
  induction h with
  | done ha => exact .done (hQ _ ha)
  | fail => exact .fail
  | read hrole hpos hnull _ ih => exact .read hrole hpos hnull ih
  | pointers _ ih => exact .pointers ih

theorem bind (h : program.Walks l P Q) (hf : ∀ a, Q a → (f a).Walks l P R) :
    (program >>= f).Walks l P R := by
  show (program.bind f).Walks l P R
  induction h with
  | done ha => exact hf _ ha
  | fail => exact .fail
  | read hrole hpos hnull _ ih => exact .read hrole hpos hnull ih
  | pointers _ ih => exact .pointers ih

theorem pure {a : α} (ha : Q a) : (Pure.pure a : Program α).Walks l P Q := .done ha

theorem ofExcept {x : Except Error α} (h : ∀ a, x = .ok a → Q a) :
    (Program.ofExcept x).Walks l P Q := by
  cases x with
  | ok a => exact .done (h a rfl)
  | error e => exact .fail

/-- A block is read and looked at. -/
theorem read_bind {f : Bytes → Program β} (hrole : role ≠ .header) (hpos : P pos)
    (hnull : pos ≠ .null) (hf : ∀ x : Bytes, l.LinksIn P x → (f x).Walks l P R) :
    (do Program.loadBlock role pos; f (← Program.image role)).Walks l P R :=
  .read hrole hpos hnull hf

theorem getPointers_bind {f : Pointers → Program β}
    (hf : ∀ p : Pointers, P p.root → P p.freeHead → P p.slotHead →
      (∀ q : BlockPos, q ≠ .null → l.blockSize ∣ q.offset → q.offset ≤ p.highWater.offset → P q) →
        (f p).Walks l P R) : (Program.getPointers >>= f).Walks l P R :=
  .pointers hf

/-- A tree block is read. -/
theorem loadNode (hrole : role ≠ .header) (hpos : P pos) :
    (Program.loadNode l role pos).Walks l P fun n => pos ≠ .null ∧ ∀ q ∈ n.links, P q := by
  unfold Program.loadNode
  split
  · exact .fail
  · next hnull =>
    have hnull : pos ≠ .null := fun h => hnull (BlockPos.isNull_iff.mpr h)
    exact read_bind hrole hpos hnull fun x hx =>
      ofExcept fun n hn => ⟨hnull, fun q hq => hx.node pos n hn q hq⟩

theorem loadLeaf (hrole : role ≠ .header) (hpos : P pos) :
    (Program.loadLeaf l role pos).Walks l P fun _ => pos ≠ .null := by
  refine (loadNode hrole hpos).bind fun n hn => ?_
  cases n with
  | leaf es => exact .pure hn.1
  | branch b => exact .fail

theorem loadBranch (hrole : role ≠ .header) (hpos : P pos) :
    (Program.loadBranch l role pos).Walks l P fun b => pos ≠ .null ∧ ∀ q ∈ b.children, P q := by
  refine (loadNode hrole hpos).bind fun n hn => ?_
  cases n with
  | leaf es => exact .fail
  | branch b => exact .pure hn

/-- A slot block is read. -/
theorem loadSlots (hpos : P pos) (hnull : pos ≠ .null) :
    (Program.loadSlots l pos).Walks l P fun s => P s.next := by
  refine read_bind Role.current_ne hpos hnull fun x hx => ?_
  split
  · exact .fail
  · exact ofExcept fun s hs => hx.slots s hs

end Program.Walks

/-- A place in a block in `P`, and so the way to it and the leaf it was left by. -/
def Descent.In (P : BlockPos → Prop) (d : Descent) : Prop :=
  P d.block ∧ (∀ s ∈ d.path, P s.block) ∧ ∀ pos, d.leafEnd = some pos → P pos

/-- A cursor whose hint, if it has one, is a place where a block may start. -/
def Cursor.Aligned (l : Layout) (c : Cursor) : Prop :=
  ∀ pos, c.hint = some pos → l.blockSize ∣ pos.offset

/-- A cursor whose hint, if it has one, is a place in `P`. -/
def Cursor.Points (P : BlockPos → Prop) (c : Cursor) : Prop := ∀ pos, c.hint = some pos → P pos

theorem Cursor.Points.aligned {l : Layout} {P : BlockPos → Prop} {c : Cursor} (h : c.Points P)
    (hP : l.Sites P) : c.Aligned l := fun pos hpos => hP.aligned pos (h pos hpos)

namespace Branch

variable {b : Branch} {i : Nat} {pos : BlockPos}

theorem first_mem_children : b.first ∈ b.children := List.mem_cons_self

theorem lastChild_mem_children : b.lastChild ∈ b.children := by
  unfold lastChild children
  cases h : b.separators.getLast? with
  | none => simp
  | some s => simp [List.mem_of_getLast? h, List.mem_map_of_mem]

theorem mem_children_of_child? (h : b.child? i = some pos) : pos ∈ b.children :=
  List.mem_of_getElem? h

end Branch

namespace Tree

open Program

variable {t : Tree} {P : BlockPos → Prop} {pos : BlockPos} {d : Descent} {cursor : Cursor}
  {levels : Nat}
  {target : Entry} {exact check : Bool}

/-! ## Parts that know nothing of links -/

theorem walks_checkOrder {lower upper : Option Entry} {es : List Entry} :
    (t.checkOrder pos lower es upper).Walks t.layout P fun _ => True := by
  unfold checkOrder
  split
  · exact .fail
  · exact .pure trivial

theorem walks_surveyLeaf {depth : Nat} {s : Survey} :
    (surveyLeaf check pos depth s).Walks t.layout P fun _ => True := by
  unfold surveyLeaf
  dsimp only
  split
  · exact .fail
  · exact .pure trivial

theorem walks_surveyChildren
    {visit : BlockPos → Option Entry → Option Entry → Survey → Program Survey}
    (hvisit : ∀ child lower upper s, P child →
      (visit child lower upper s).Walks t.layout P fun _ => True)
    {i : Nat} {lower upper : Option Entry} {child : BlockPos} {rest : List (Entry × BlockPos)}
    {s : Survey} (hchildren : ∀ q ∈ child :: rest.map Prod.snd, P q) :
    (surveyChildren visit pos i lower child rest upper s).Walks t.layout P fun _ => True := by
  induction rest generalizing i lower child s with
  | nil =>
    unfold surveyChildren
    split
    · exact .fail
    · exact hvisit _ _ _ _ (hchildren child List.mem_cons_self)
  | cons r rest ih =>
    unfold surveyChildren
    split
    · exact .fail
    · refine (hvisit _ _ _ _ (hchildren child List.mem_cons_self)).bind fun s _ => ih ?_
      exact fun q hq => hchildren q (List.mem_cons_of_mem child hq)

theorem walks_outlineAll {visit : BlockPos → Program Outline} {positions : List BlockPos}
    (hvisit : ∀ pos ∈ positions, (visit pos).Walks t.layout P fun _ => True) :
    (outlineAll visit positions).Walks t.layout P fun _ => True := by
  induction positions with
  | nil => exact .pure trivial
  | cons pos rest ih =>
    refine (hvisit pos List.mem_cons_self).bind fun first _ => ?_
    refine (ih fun q hq => hvisit q (List.mem_cons_of_mem pos hq)).bind fun others _ => ?_
    exact .pure trivial

/-! ## Searches -/

theorem walks_leftmostLeaf (hpos : P pos) :
    (t.leftmostLeaf levels pos).Walks t.layout P P := by
  induction levels generalizing pos with
  | zero => exact .fail
  | succ levels ih =>
    refine (Walks.loadNode Role.current_ne hpos).bind fun n hn => ?_
    match n, hn with
    | .branch b, hn => exact ih (hn.2 _ b.first_mem_children)
    | .leaf [], _ => exact .fail
    | .leaf (_ :: _), _ => exact .pure hpos

theorem walks_rightmostLeaf (hpos : P pos) :
    (t.rightmostLeaf levels pos).Walks t.layout P fun r => P r.1 := by
  induction levels generalizing pos with
  | zero => exact .fail
  | succ levels ih =>
    refine (Walks.loadNode Role.current_ne hpos).bind fun n hn => ?_
    match n, hn with
    | .branch b, hn => exact ih (hn.2 _ b.lastChild_mem_children)
    | .leaf [], _ => exact .fail
    | .leaf (_ :: _), _ => exact .pure hpos

theorem walks_nextSeparator (hd : d.In P) {path : List Step}
    (hpath : ∀ s ∈ path, P s.block) :
    (t.nextSeparator d path).Walks t.layout P (Descent.In P) := by
  induction path with
  | nil => exact .pure hd
  | cons step outer ih =>
    have hstep := hpath step List.mem_cons_self
    refine (Walks.loadBranch Role.parent_ne hstep).bind fun b _ => ?_
    split
    · exact .pure ⟨hstep, hd.2⟩
    · exact ih fun s hs => hpath s (List.mem_cons_of_mem step hs)

theorem walks_successor (hd : d.In P) :
    (t.successor d).Walks t.layout P (Descent.In P) := by
  unfold successor
  split
  · refine (Walks.loadBranch Role.current_ne hd.1).bind fun b hb => ?_
    split
    · exact .fail
    · next right hright =>
      have hhas := hb.2 right (b.mem_children_of_child? hright)
      exact (walks_leftmostLeaf hhas).bind fun leaf hleaf => .pure ⟨hleaf, hd.2⟩
  · refine (Walks.loadLeaf Role.current_ne hd.1).bind fun es _ => ?_
    split
    · exact .pure hd
    · exact @walks_nextSeparator t P { d with index := es.length } hd d.path hd.2.1

theorem walks_predecessor (hd : d.In P) :
    (t.predecessor d).Walks t.layout P (Descent.In P) := by
  unfold predecessor
  split
  · refine (Walks.loadBranch Role.current_ne hd.1).bind fun b hb => ?_
    split
    · exact .fail
    · next left hleft =>
      have hhas := hb.2 left (b.mem_children_of_child? hleft)
      exact (walks_rightmostLeaf hhas).bind fun r hr => .pure ⟨hr, hd.2⟩
  · split
    · exact .pure hd
    · split
      · next step hstep => exact .pure ⟨hd.2.1 step (List.mem_of_find?_eq_some hstep), hd.2⟩
      · exact .pure hd

theorem walks_entryAt (hd : d.In P) :
    (t.entryAt d).Walks t.layout P fun _ => True := by
  refine (Walks.loadNode Role.current_ne hd.1).bind fun n _ => ?_
  dsimp only
  split
  · exact .pure trivial
  · exact .fail

theorem walks_endInLeaf {trail : Trail} {s : Scan} {size : Nat}
    (hpath : ∀ s ∈ trail.path, P s.block) (hfallback : ∀ s ∈ trail.fallback, P s.block)
    (hpos : P pos) :
    (t.endInLeaf trail pos s size).Walks t.layout P (Descent.In P) := by
  unfold endInLeaf
  dsimp only
  split
  · next step outer _ hback =>
    rw [hback] at hfallback
    exact .pure ⟨hfallback step List.mem_cons_self, hfallback, nofun⟩
  · split
    · exact .pure ⟨hpos, hpath, nofun⟩
    · exact .pure ⟨hpos, hpath, nofun⟩
    · split
      · exact .pure ⟨hpos, hpath, nofun⟩
      · exact .pure ⟨hpos, hpath, nofun⟩
    · split
      · exact .pure ⟨hpos, hpath, nofun⟩
      · refine (walks_successor ⟨hpos, hpath, fun q hq => ?_⟩).bind fun d hd => .pure hd
        cases hq
        exact hpos

theorem walks_descend {trail : Trail} (hpath : ∀ s ∈ trail.path, P s.block)
    (hfallback : ∀ s ∈ trail.fallback, P s.block) (hpos : P pos) :
    (t.descend target exact levels trail pos).Walks t.layout P (Descent.In P) := by
  induction levels generalizing trail pos with
  | zero =>
    unfold descend
    refine (Walks.loadNode Role.current_ne hpos).bind fun n _ => ?_
    cases n with
    | leaf es => exact walks_endInLeaf hpath hfallback hpos
    | branch b => exact .fail
  | succ levels ih =>
    unfold descend
    refine (Walks.loadNode Role.current_ne hpos).bind fun n hn => ?_
    cases n with
    | leaf es => exact walks_endInLeaf hpath hfallback hpos
    | branch b =>
      have hdown : ∀ s ∈ (⟨pos, (t.scan target exact b.entries).index⟩ : Step) :: trail.path,
          P s.block := by
        intro s hs
        rcases List.mem_cons.mp hs with rfl | hs
        · exact hpos
        · exact hpath s hs
      dsimp only
      split
      · exact .pure ⟨hpos, hdown, nofun⟩
      · split
        · next child hchild =>
          refine ih hdown ?_ (hn.2 child (b.mem_children_of_child? hchild))
          dsimp only
          split
          · exact hdown
          · exact hfallback
        · exact .fail

section Places

variable (hnull : P .null)
include hnull

/-- A search ends at a place of the file. -/
theorem walks_locate : (t.locate target exact).Walks t.layout P (Descent.In P) := by
  refine Walks.getPointers_bind fun p hroot _ _ _ => ?_
  dsimp only [pure]
  show Walks t.layout P _ (if p.root.isNull then _ else _)
  split
  · exact .pure ⟨hnull, nofun, nofun⟩
  · exact walks_descend nofun nofun hroot

/-! ## Moves -/

omit hnull in
theorem walks_settle (hd : d.In P) :
    (t.settle cursor d).Walks t.layout P (Cursor.Points P) := by
  unfold settle
  split
  · refine (walks_entryAt hd).bind fun e _ => .pure fun pos hpos => ?_
    cases hpos
    exact hd.1
  · exact .pure nofun

theorem walks_find (key : Bytes) :
    (t.find cursor key).Walks t.layout P (Cursor.Points P) := by
  refine (walks_locate hnull).bind fun d hd => ?_
  split
  · exact walks_settle hd
  · exact .pure nofun

theorem walks_findLast (padded : Bytes) (length : Nat) :
    (t.findLast padded length).Walks t.layout P (Cursor.Points P) := by
  refine (walks_locate hnull).bind fun d hd => ?_
  dsimp only
  split
  · exact .pure nofun
  · have hland : ∀ d : Descent, d.In P → Walks t.layout P (Cursor.Points P) (do
        if d.state = .onKey then
          let e ← t.entryAt d
          if t.collation.compare (e.key.take (min length padded.length))
              (padded.take (min length padded.length)) = .eq then
            return Cursor.land e d.block
          else return Cursor.park .between ⟨padded, t.layout.maxRecord⟩
        else return Cursor.park .between ⟨padded, t.layout.maxRecord⟩) := by
      intro d hd
      split
      · refine (walks_entryAt hd).bind fun e _ => ?_
        split
        · refine .pure fun pos hpos => ?_
          cases hpos
          exact hd.1
        · exact .pure nofun
      · exact .pure nofun
    split
    · exact (walks_predecessor hd).bind fun d hd => hland d hd
    · exact hland d hd

omit hnull in
theorem walks_first : (t.first cursor).Walks t.layout P (Cursor.Points P) := by
  refine Walks.getPointers_bind fun p hroot _ _ _ => ?_
  show Walks t.layout P _ (if p.root.isNull then _ else _)
  split
  · exact .pure nofun
  · exact (walks_leftmostLeaf hroot).bind fun leaf hleaf => walks_settle ⟨hleaf, nofun, nofun⟩

omit hnull in
theorem walks_last : (t.last cursor).Walks t.layout P (Cursor.Points P) := by
  refine Walks.getPointers_bind fun p hroot _ _ _ => ?_
  show Walks t.layout P _ (if p.root.isNull then _ else _)
  split
  · exact .pure nofun
  · exact (walks_rightmostLeaf hroot).bind fun r hr => walks_settle ⟨hr, nofun, nofun⟩

omit hnull in
theorem walks_nextFromHint {hint : BlockPos} {current : Entry}
    (hhint : t.layout.blockSize ∣ hint.offset ∨ P hint) :
    (t.nextFromHint hint current).Walks t.layout P fun o => ∀ d, o = some d → d.In P := by
  refine Walks.getPointers_bind fun p _ _ _ hwhole => ?_
  split
  · exact .pure nofun
  · next hin =>
    simp only [Bool.or_eq_true, BlockPos.isNull_iff, decide_eq_true_eq, not_or, Nat.not_lt] at hin
    have hpos : P hint := hhint.elim (fun hdvd => hwhole hint hin.1 hdvd hin.2) id
    refine Walks.read_bind Role.current_ne hpos hin.1 fun image _ => ?_
    dsimp only
    split
    · exact .pure nofun
    · refine (Walks.loadNode Role.current_ne hpos).bind fun n hn => ?_
      cases n with
      | leaf es =>
        dsimp only
        split
        · refine .pure fun d hd => ?_
          cases hd
          exact ⟨hpos, nofun, nofun⟩
        · exact .pure nofun
      | branch b =>
        dsimp only
        split
        · next right _ hright =>
          have hchild := hn.2 right (b.mem_children_of_child? hright)
          refine (walks_leftmostLeaf hchild).bind fun leaf hleaf => .pure fun d hd => ?_
          cases hd
          exact ⟨hleaf, nofun, nofun⟩
        · exact .pure nofun

theorem walks_nextBySearch {current : Entry} :
    (t.nextBySearch cursor current).Walks t.layout P (Cursor.Points P) := by
  refine (walks_locate hnull).bind fun d hd => ?_
  dsimp only
  split
  · exact (walks_successor hd).bind fun d hd => walks_settle hd
  · exact @walks_settle t P { d with state := .onKey } cursor hd
  · exact @walks_settle t P { d with state := if d.block.isNull then .afterLast else .onKey }
      cursor hd
  · exact walks_settle hd

theorem walks_next
    (hcursor : ∀ hint, cursor.hint = some hint → t.layout.blockSize ∣ hint.offset ∨ P hint) :
    (t.next cursor).Walks t.layout P fun c' => c' = cursor ∨ c'.Points P := by
  have hsearch : ∀ current, (t.nextBySearch cursor current).Walks t.layout P
      fun c' => c' = cursor ∨ c'.Points P := fun _ => (walks_nextBySearch hnull).mono fun _ => .inr
  unfold next
  split
  · exact .pure (.inl rfl)
  · dsimp only
    split
    · next hint hhint =>
      refine (walks_nextFromHint (hcursor hint hhint)).bind fun o ho => ?_
      cases o with
      | some d => exact (walks_settle (ho d rfl)).mono fun _ => .inr
      | none => exact hsearch _
    · exact hsearch _
  · exact hsearch _
  · exact walks_first.mono fun _ => .inr

theorem walks_previous :
    (t.previous cursor).Walks t.layout P fun c' => c' = cursor ∨ c'.Points P := by
  have hback : ∀ current, Walks t.layout P (fun c' => c' = cursor ∨ c'.Points P) (do
      let d ← t.locate current true
      let d ← if d.state = .beforeFirst then pure d else t.predecessor d
      t.settle cursor d) := by
    intro current
    refine (walks_locate hnull).bind fun d hd => ?_
    dsimp only
    split
    · exact (walks_settle hd).mono fun _ => .inr
    · exact (walks_predecessor hd).bind fun d hd => (walks_settle hd).mono fun _ => .inr
  unfold previous
  split
  · exact .pure (.inl rfl)
  · exact hback _
  · exact hback _
  · exact walks_last.mono fun _ => .inr

end Places

/-! ## Inspections -/

theorem walks_surveyNode {depth : Nat} {lower upper : Option Entry} {s : Survey}
    (hpos : P pos) :
    (t.surveyNode check levels depth pos lower upper s).Walks t.layout P fun _ => True := by
  induction levels generalizing depth pos lower upper s with
  | zero => exact .fail
  | succ levels ih =>
    refine (Walks.loadNode Role.current_ne hpos).bind fun n hn => ?_
    dsimp only
    split
    · exact .fail
    · cases n with
      | leaf es =>
        refine walks_surveyLeaf.bind fun s _ => ?_
        split
        · exact walks_checkOrder.bind fun _ _ => .pure trivial
        · exact .pure trivial
      | branch b =>
        have hbelow : ∀ s, (surveyChildren (t.surveyNode check levels (depth + 1))
            pos 0 lower b.first b.separators upper s).Walks t.layout P fun _ => True := fun s =>
          walks_surveyChildren (fun _ _ _ _ hq => ih hq) hn.2
        dsimp only
        split
        · exact walks_checkOrder.bind fun _ _ => hbelow _
        · exact hbelow _

theorem walks_freeChainLength {blocks bound : Nat} (hpos : P pos) :
    (t.freeChainLength blocks bound pos).Walks t.layout P fun _ => True := by
  induction bound generalizing blocks pos with
  | zero =>
    unfold freeChainLength
    split
    · exact .pure trivial
    · exact .fail
  | succ bound ih =>
    unfold freeChainLength
    split
    · exact .pure trivial
    · next hnull =>
      refine Walks.read_bind Role.sibling_ne hpos (fun h => hnull (BlockPos.isNull_iff.mpr h))
        fun image himage => ?_
      exact (Walks.ofExcept fun next hnext => himage.deleted pos next hnext).bind
        fun _ hnext => ih hnext

theorem walks_slotChainSize {blocks records bound : Nat} (hpos : P pos) :
    (t.slotChainSize check blocks records bound pos).Walks t.layout P fun _ => True := by
  induction bound generalizing blocks records pos with
  | zero =>
    unfold slotChainSize
    split
    · exact .pure trivial
    · exact .fail
  | succ bound ih =>
    unfold slotChainSize
    split
    · exact .pure trivial
    · next hnull =>
      refine (Walks.loadSlots hpos fun h => hnull (BlockPos.isNull_iff.mpr h)).bind fun s hs => ?_
      dsimp only
      split
      · exact .fail
      · exact ih hs

/-- A survey only looks. -/
theorem walks_survey : (t.survey check).Walks t.layout P fun _ => True := by
  refine Walks.getPointers_bind fun p hroot hfree hslots _ => ?_
  have htree : (t.surveyTree check p.root).Walks t.layout P fun _ => True := by
    unfold surveyTree
    split
    · exact .pure trivial
    · exact walks_surveyNode hroot
  refine htree.bind fun s _ => ?_
  refine (walks_freeChainLength hfree).bind fun free _ => ?_
  refine (walks_slotChainSize hslots).bind fun slots _ => ?_
  dsimp only
  split
  · exact .fail
  · exact .pure trivial

theorem walks_outlineNode (hpos : P pos) :
    (t.outlineNode levels pos).Walks t.layout P fun _ => True := by
  induction levels generalizing pos with
  | zero => exact .fail
  | succ levels ih =>
    refine (Walks.loadNode Role.current_ne hpos).bind fun n hn => ?_
    cases n with
    | leaf es => exact .pure trivial
    | branch b =>
      refine (walks_outlineAll fun q hq => ih (hn.2 q hq)).bind fun _ _ => ?_
      exact .pure trivial

/-- An outline only looks. -/
theorem walks_outline : t.outline.Walks t.layout P fun _ => True := by
  refine Walks.getPointers_bind fun p hroot _ _ _ => ?_
  show Walks t.layout P _ (if p.root.isNull then _ else _)
  split
  · exact .pure trivial
  · exact (walks_outlineNode hroot).bind fun _ _ => .pure trivial

end Tree

end PagedIndex
