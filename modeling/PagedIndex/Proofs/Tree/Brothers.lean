import PagedIndex.Proofs.Codec.Capacity
import PagedIndex.Proofs.Tree.Plan

/-!
# Brothers

Two neighbours under a branch and the separator between them are made one subtree, or an entry goes
from one to the other.

## Main definitions

* `Subtree.Merges` — a subtree with all that was in two brothers.
* `Subtree.Rotates` — two brothers after an entry went from one to the other.

## Main statements

* `Subtree.OnBoard.exists_merges`, `Subtree.OnBoard.exists_rotates` — brothers can be merged, or one
  that is empty gets an entry.
-/

namespace PagedIndex

namespace Node

variable {init : List Entry} {first middle : BlockPos} {e x : Entry}

/-- The last entry of a leaf goes to an empty brother. -/
theorem rotate_leaf_append (hinit : init ≠ []) :
    rotate (.leaf (init ++ [x])) e (.leaf []) = some (.leaf init, x, .leaf [e]) := by
  obtain ⟨y, es, rfl⟩ := List.exists_cons_of_ne_nil hinit
  have hrotate : rotate (.leaf (y :: es ++ [x])) e (.leaf []) = (y :: es ++ [x]).getLast?.map
      fun z => (.leaf (y :: es ++ [x]).dropLast, z, .leaf [e]) := rfl
  rw [hrotate, List.getLast?_concat, List.dropLast_concat]
  rfl

/-- The last separator of a branch goes to an empty brother, and the child behind it. -/
theorem rotate_branch_append {init : List (Entry × BlockPos)} {child : BlockPos} (hinit : init ≠ []) :
    rotate (.branch ⟨first, init ++ [(x, child)]⟩) e (.branch ⟨middle, []⟩) =
      some (.branch ⟨first, init⟩, x, .branch ⟨child, [(e, middle)]⟩) := by
  obtain ⟨y, es, rfl⟩ := List.exists_cons_of_ne_nil hinit
  have hrotate : rotate (.branch ⟨first, y :: es ++ [(x, child)]⟩) e (.branch ⟨middle, []⟩) =
      (y :: es ++ [(x, child)]).getLast?.map fun s =>
        (.branch ⟨first, (y :: es ++ [(x, child)]).dropLast⟩, s.1,
          .branch ⟨s.2, [(e, middle)]⟩) := rfl
  rw [hrotate, List.getLast?_concat, List.dropLast_concat]
  rfl

end Node

namespace Subtree

variable {l : Layout} {cells cells' : BlockPos → Option Cell} {depth : Nat} {a b y : Subtree}
  {e : Entry}
  {pos pos' : BlockPos} {first first' : Subtree} {rest rest' : List (Entry × Subtree)}

/-- The cells of two brothers have changed, and no others of theirs. -/
structure Rewritten (cells cells' : BlockPos → Option Cell) (a b : Subtree) : Prop where
  nodup : (a.blocks ++ b.blocks).Nodup
  same : ∀ p ∈ a.blocks ++ b.blocks, p ≠ a.pos → p ≠ b.pos → cells' p = cells p

/-- The children of two brothers stand after the brothers have changed. -/
theorem Rewritten.onBoard (h : Rewritten cells cells' (branch pos first rest)
    (branch pos' first' rest'))
    (hy : y ∈ first :: rest.map Prod.snd ∨ y ∈ first' :: rest'.map Prod.snd)
    (honBoard : y.OnBoard l cells depth) : y.OnBoard l cells' depth := by
  refine honBoard.congr fun p hp => ?_
  have hnodup := h.nodup
  simp only [Subtree.branch, List.nodup_append, List.nodup_cons] at hnodup
  have hmem : p ∈ (first :: rest.map Prod.snd).flatMap blocks ∨
      p ∈ (first' :: rest'.map Prod.snd).flatMap blocks := by
    simp only [List.mem_flatMap]
    exact hy.imp (fun hy => ⟨y, hy, hp⟩) fun hy => ⟨y, hy, hp⟩
  refine h.same p ?_ ?_ ?_
  all_goals
    simp only [Subtree.branch, List.mem_append, List.mem_cons]
    grind

/-- The subtree `m` has all that was in two brothers, and the separator between them. -/
structure Merges (l : Layout) (cells : BlockPos → Option Cell) (depth : Nat) (a : Subtree) (e : Entry)
    (b m : Subtree) : Prop where
  pos : m.pos = a.pos
  node : Node.merge a.node e b.node = .ok m.node
  entries : m.entries = a.entries ++ e :: b.entries
  blocks : (a.blocks ++ b.blocks).Perm (b.pos :: m.blocks)
  full : m.Full
  onBoard : ∀ {cells'}, Rewritten cells cells' a b → m.node.fits l →
    cells' a.pos = some (.node m.node) →
    m.OnBoard l cells' depth

/-- Brothers can be merged. -/
theorem OnBoard.exists_merges (ha : a.OnBoard l cells depth) (hb : b.OnBoard l cells depth)
    (e : Entry) :
    ∃ m, Merges l cells depth a e b m := by
  cases ha with
  | @leaf pos es =>
    cases hb with
    | @leaf pos' es' =>
    refine ⟨Subtree.leaf pos (es ++ e :: es'), rfl, rfl, rfl, .swap pos' pos [],
      full_leaf.mpr (by simp), ?_⟩
    intro cells' _ hfits hcell
    exact .leaf hcell hfits
  | @branch depth pos first rest hcell hfits hchildren hfull =>
    cases hb with
    | @branch _ pos' first' rest' hcell' hfits' hchildren' hfull' =>
    have hmem : ∀ y ∈ first :: (rest ++ (e, first') :: rest').map Prod.snd,
        y ∈ first :: rest.map Prod.snd ∨ y ∈ first' :: rest'.map Prod.snd := by
      intro y hy
      simp only [List.map_append, List.map_cons] at hy
      grind
    refine ⟨Subtree.branch pos first (rest ++ (e, first') :: rest'), rfl, ?_, ?_, ?_,
      full_branch.mpr (by simp), fun hrewritten hfits hcell => .branch hcell hfits ?_ ?_⟩
    · simp [Subtree.branch, Node.merge]
    · simp [Subtree.branch]
    · refine List.perm_iff_count.mpr fun p => ?_
      simp [Subtree.branch, List.count_cons]
      omega
    · intro y hy
      refine hrewritten.onBoard (hmem y hy) ?_
      exact (hmem y hy).elim (hchildren y) (hchildren' y)
    · exact fun y hy => (hmem y hy).elim (hfull y) (hfull' y)

/-- The subtrees `a'` and `b'` have what two brothers had, and both hold entries. -/
structure Rotates (l : Layout) (cells : BlockPos → Option Cell) (depth : Nat) (a : Subtree) (e : Entry)
    (b a' : Subtree) (e' : Entry) (b' : Subtree) : Prop where
  posLeft : a'.pos = a.pos
  posRight : b'.pos = b.pos
  node : Node.rotate a.node e b.node = some (a'.node, e', b'.node)
  entries : a'.entries ++ e' :: b'.entries = a.entries ++ e :: b.entries
  blocks : (a.blocks ++ b.blocks).Perm (a'.blocks ++ b'.blocks)
  fullLeft : a'.Full
  fullRight : b'.Full
  onBoard : ∀ {cells'}, Rewritten cells cells' a b → cells' a.pos = some (.node a'.node) →
    cells' b.pos = some (.node b'.node) → a'.OnBoard l cells' depth ∧ b'.OnBoard l cells' depth

/-- What is merged is too much for a block only if there is a lot of it. -/
theorem Merges.long {m : Subtree} (h : Merges l cells depth a e b m) (hl : l.Roomy)
    (hfits : ¬m.node.fits l) : 3 ≤ a.node.entries.length + b.node.entries.length :=
  Node.three_le_of_merge hl.2 h.node hfits

/-- Between two brothers that hold entries nothing is moved. -/
theorem OnBoard.rotate_eq_none (ha : a.OnBoard l cells depth) (hb : b.OnBoard l cells depth)
    (hafull : a.Full) (hbfull : b.Full) : Node.rotate a.node e b.node = none := by
  have hkind : a.node.kind = b.node.kind := by cases ha <;> cases hb <;> rfl
  exact (Node.rotate_eq_none_iff hkind).mpr (hafull.trans hbfull.symm)

/-- A leaf without entries and its brother. -/
theorem exists_rotates_leaf {es es' : List Entry} (ha : (leaf pos es).OnBoard l cells 0)
    (hb : (leaf pos' es').OnBoard l cells 0) (hl : l.Roomy)
    (hkeys : ∀ x ∈ es ++ es', x.key.length = l.keyLength) (hlong : 3 ≤ es.length + es'.length)
    (hempty : es = [] ∨ es' = []) :
    ∃ a' e' b', Rotates l cells 0 (leaf pos es) e (leaf pos' es') a' e' b' := by
  have hone : Leaf.fits l [e] := Leaf.fits_of_le_three hl (by simp)
  rcases hempty with rfl | rfl
  · match es' with
    | x :: x' :: es' =>
      refine ⟨Subtree.leaf pos [e], x, Subtree.leaf pos' (x' :: es'), rfl, rfl, rfl, rfl, .refl _,
        full_leaf.mpr (by simp), full_leaf.mpr (by simp), fun _ hcell hcell' => ?_⟩
      refine ⟨.leaf hcell hone, .leaf hcell' ?_⟩
      exact Leaf.fits_of_sublist (List.sublist_cons_self _ _) hkeys hb.fits
    | [_] | [] => simp at hlong
  · rcases List.eq_nil_or_concat es with rfl | ⟨init, x, rfl⟩
    · simp at hlong
    · rw [List.concat_eq_append] at *
      rw [List.append_nil] at hkeys
      have hinit : init ≠ [] := by
        rintro rfl
        simp at hlong
      refine ⟨Subtree.leaf pos init, x, Subtree.leaf pos' [e], rfl, rfl, Node.rotate_leaf_append hinit,
        ?_, .refl _, full_leaf.mpr hinit, full_leaf.mpr (by simp), fun _ hcell hcell' => ?_⟩
      · simp [Subtree.leaf]
      · refine ⟨.leaf hcell ?_, .leaf hcell' hone⟩
        exact Leaf.fits_of_sublist (List.sublist_append_left _ _) hkeys ha.fits

/-- A branch without separators and its brother. -/
theorem exists_rotates_branch (hl : l.Roomy) (hfits : (branch pos first rest).node.fits l)
    (hfits' : (branch pos' first' rest').node.fits l)
    (hchildren : ∀ y, y ∈ first :: rest.map Prod.snd ∨ y ∈ first' :: rest'.map Prod.snd →
      y.OnBoard l cells depth ∧ y.Full)
    (hlong : 3 ≤ rest.length + rest'.length) (hempty : rest = [] ∨ rest' = []) :
    ∃ a' e' b', Rotates l cells (depth + 1) (branch pos first rest) e (branch pos' first' rest')
      a' e' b' := by
  have honBoard : ∀ {cells'},
      Rewritten cells cells' (branch pos first rest) (branch pos' first' rest') → ∀ y,
      y ∈ first :: rest.map Prod.snd ∨ y ∈ first' :: rest'.map Prod.snd →
      y.OnBoard l cells' depth ∧ y.Full :=
    fun h y hy => ⟨h.onBoard hy (hchildren y hy).1, (hchildren y hy).2⟩
  have hshort : ∀ {p z s}, (Subtree.branch p z [s]).node.fits l :=
    Branch.fits_of_le_three hl (by simp)
  rcases hempty with rfl | rfl
  · match rest' with
    | (x, z) :: s :: rest' =>
      refine ⟨Subtree.branch pos first [(e, first')], x, Subtree.branch pos' z (s :: rest'), rfl,
        rfl, rfl,
        ?_, ?_, full_branch.mpr (by simp), full_branch.mpr (by simp), fun h hcell hcell' => ?_⟩
      · simp [Subtree.branch]
      · refine List.perm_iff_count.mpr fun p => ?_
        simp [Subtree.branch, List.count_cons]
        omega
      · refine ⟨.branch hcell hshort (fun y hy => (honBoard h y ?_).1) fun y hy => (honBoard h y ?_).2,
          .branch hcell' (Branch.fits_of_length_le ?_ hfits') (fun y hy => (honBoard h y ?_).1)
            fun y hy => (honBoard h y ?_).2⟩
        all_goals grind
    | [_] | [] => simp at hlong
  · rcases List.eq_nil_or_concat rest with rfl | ⟨init, ⟨x, z⟩, rfl⟩
    · simp at hlong
    · rw [List.concat_eq_append] at *
      have hinit : init ≠ [] := by
        rintro rfl
        simp at hlong
      refine ⟨Subtree.branch pos first init, x, Subtree.branch pos' z [(e, first')], rfl, rfl, ?_,
        ?_, ?_, full_branch.mpr hinit, full_branch.mpr (by simp), fun h hcell hcell' => ?_⟩
      · have hrotate : Node.rotate (.branch ⟨first.pos, init.map (fun s => (s.1, s.2.pos)) ++
            [(x, z.pos)]⟩) e (.branch ⟨first'.pos, []⟩) = _ :=
          Node.rotate_branch_append (by simpa using hinit)
        simpa [Subtree.branch] using hrotate
      · simp [Subtree.branch]
      · refine List.perm_iff_count.mpr fun p => ?_
        simp [Subtree.branch, List.count_cons]
        omega
      · refine ⟨.branch hcell (Branch.fits_of_length_le ?_ hfits) (fun y hy => (honBoard h y ?_).1)
          fun y hy => (honBoard h y ?_).2, .branch hcell' hshort (fun y hy => (honBoard h y ?_).1)
            fun y hy => (honBoard h y ?_).2⟩
        all_goals grind

/-- A brother without entries gets one from the other. -/
theorem OnBoard.exists_rotates (ha : a.OnBoard l cells depth) (hb : b.OnBoard l cells depth)
    (hl : l.Roomy) (hkeys : ∀ x ∈ a.entries ++ b.entries, x.key.length = l.keyLength)
    (hlong : 3 ≤ a.node.entries.length + b.node.entries.length) (hempty : ¬a.Full ∨ ¬b.Full) :
    ∃ a' e' b', Rotates l cells depth a e b a' e' b' := by
  cases ha with
  | leaf hcell hfits =>
    cases hb with
    | leaf hcell' hfits' =>
    refine exists_rotates_leaf (.leaf hcell hfits) (.leaf hcell' hfits') hl hkeys hlong ?_
    simpa [full_leaf] using hempty
  | branch hcell hfits hchildren hfull =>
    cases hb with
    | branch hcell' hfits' hchildren' hfull' =>
    refine exists_rotates_branch hl hfits hfits' (fun y hy => ?_) ?_ ?_
    · exact ⟨hy.elim (hchildren y) (hchildren' y), hy.elim (hfull y) (hfull' y)⟩
    · simpa [Subtree.branch, Node.entries, Branch.entries] using hlong
    · simpa [full_branch] using hempty

end Subtree

variable {l : Layout} {c : Board} {depth : Nat} {w : Way} {a b m y : Subtree} {e : Entry} {f : Fork}
  {pos : BlockPos} {left : List (Subtree × Entry)} {right : List (Entry × Subtree)}
  {free : List BlockPos} {slots : List (BlockPos × List Nat)}

/-- The blocks of a branch, with two neighbours among its children. -/
theorem Fork.blocks_fill_pair : (Fork.fill ⟨pos, left, (e, b) :: right⟩ a).blocks.Perm
    (pos :: ((left.map Prod.fst ++ right.map Prod.snd).flatMap Subtree.blocks ++
      (a.blocks ++ b.blocks))) := by
  refine List.perm_iff_count.mpr fun p => ?_
  simp [Fork.blocks_fill.count_eq, Fork.blocks, Fork.subtrees, List.count_cons]
  omega

/-- So its entries. -/
theorem Fork.entries_fill_pair : (Fork.fill ⟨pos, left, (e, b) :: right⟩ a).entries =
    Fork.front ⟨pos, left, right⟩ ++ ((a.entries ++ e :: b.entries) ++
      Fork.back ⟨pos, left, right⟩) := by
  simp [Fork.front, Fork.back]

/-- The child left out by a fork and a brother of it, with the rest of the fork. -/
structure Fork.Neighbours (l : Layout) (cells : BlockPos → Option Cell) (depth : Nat) (f : Fork)
    (y : Subtree) (left : List (Subtree × Entry)) (a : Subtree) (e : Entry) (b : Subtree)
    (right : List (Entry × Subtree)) : Prop where
  fill : f.fill y = Fork.fill ⟨f.pos, left, (e, b) :: right⟩ a
  others : ∀ z ∈ left.map Prod.fst ++ right.map Prod.snd, z.OnBoard l cells depth ∧ z.Full
  standsLeft : a.OnBoard l cells depth
  standsRight : b.OnBoard l cells depth
  full : (a = y ∧ b.Full) ∨ (b = y ∧ a.Full)

/-- A brother is read, the one on the right if there is one. -/
theorem Tree.acts_brothers {t : Tree} (hf : f.OnBoard t.layout c.cells depth y.pos)
    (hy : y.OnBoard t.layout c.cells depth) :
    Program.Acts t.layout (t.brothers f.step (f.branch y.pos) y.pos y.node) c fun r d =>
      d = c ∧ ∃ left a e b right, f.Neighbours t.layout c.cells depth y left a e b right ∧
        r = .ok ⟨left.length, a.pos, a.node, b.pos, b.node⟩ := by
  unfold Tree.brothers
  simp only [Fork.step, Fork.separator?_branch]
  obtain ⟨pos, left, right⟩ := f
  cases right with
  | cons s right =>
    obtain ⟨e, b⟩ := s
    have hb := hf.subtrees b (by simp [Fork.subtrees])
    refine (hb.acts_node Role.sibling_ne).bind_ok ?_
    refine Program.acts_pure ⟨rfl, left, y, e, b, right, ⟨rfl, fun z hz => ?_, hy, hb,
      .inl ⟨rfl, hf.full b (by simp [Fork.subtrees])⟩⟩, rfl⟩
    have hmem : z ∈ Fork.subtrees ⟨pos, left, (e, b) :: right⟩ := by
      simp only [Fork.subtrees, List.map_cons]
      grind
    exact ⟨hf.subtrees z hmem, hf.full z hmem⟩
  | nil =>
    rcases List.eq_nil_or_concat left with rfl | ⟨left, ⟨a, e⟩, rfl⟩
    · exact absurd rfl hf.forked
    · rw [List.concat_eq_append] at *
      have ha := hf.subtrees a (by simp [Fork.subtrees])
      have hchild := @Fork.child?_branch ⟨pos, left, [(e, y)]⟩ a.pos
      simp only [List.head?_nil, Option.map_none, List.length_append, List.length_singleton,
        if_neg (Nat.succ_ne_zero _), Nat.add_sub_cancel, Fork.branch_append, hchild]
      refine (ha.acts_node Role.sibling_ne).bind_ok ?_
      refine Program.acts_pure ⟨rfl, left, a, e, y, [],
        ⟨Fork.fill_append, fun z hz => ?_, ha, hy, .inr ⟨rfl, hf.full a (by simp [Fork.subtrees])⟩⟩,
          rfl⟩
      have hmem : z ∈ Fork.subtrees ⟨pos, left ++ [(a, e)], []⟩ := by
        simp only [Fork.subtrees, List.map_append]
        grind
      exact ⟨hf.subtrees z hmem, hf.full z hmem⟩

/-- When brothers are made one, the block of the right one leaves the tree. -/
theorem Subtree.Merges.perm_fill {cells : BlockPos → Option Cell} {m : Subtree}
    (hm : Subtree.Merges l cells depth a e b m) (w : Way) (pos : BlockPos)
      (left : List (Subtree × Entry))
    (right : List (Entry × Subtree)) :
    (Way.blocks w ++ (Fork.fill ⟨pos, left, (e, b) :: right⟩ a).blocks).Perm
      (b.pos :: (Way.blocks w ++ (Fork.fill ⟨pos, left, right⟩ m).blocks)) := by
  refine List.perm_iff_count.mpr fun p => ?_
  have := hm.blocks.count_eq p
  simp [Fork.blocks_fill.count_eq, Fork.blocks, Fork.subtrees, List.count_cons] at this ⊢
  omega

/-- Brothers that share their entries keep their blocks. -/
theorem Subtree.Rotates.perm_fill {cells : BlockPos → Option Cell} {a' b' : Subtree} {e' : Entry}
    (h : Subtree.Rotates l cells depth a e b a' e' b') (pos : BlockPos) (left : List (Subtree × Entry))
    (right : List (Entry × Subtree)) :
    (Fork.fill ⟨pos, left, (e, b) :: right⟩ a).blocks.Perm
      (Fork.fill ⟨pos, left, (e', b') :: right⟩ a').blocks :=
  (Fork.blocks_fill_pair.trans ((h.blocks.append_left _).cons _)).trans Fork.blocks_fill_pair.symm

/-- Brothers are made one: what they held is written to the left one, and the right one is given
back. -/
theorem Way.Leads.acts_joinBrothers {β : Type} {k : Unit → Program β}
    {R : Except Error β → Board → Prop} (hw : Way.Leads l c (depth + 1) w pos) (hl : l.Workable)
    (hothers : ∀ z ∈ left.map Prod.fst ++ right.map Prod.snd, z.OnBoard l c.cells depth ∧ z.Full)
    (ha : a.OnBoard l c.cells depth) (hb : b.OnBoard l c.cells depth)
    (hm : Subtree.Merges l c.cells depth a e b m) (hmfits : m.node.fits l)
    (hfits : (Fork.branch ⟨pos, left, right⟩ a.pos).fits l)
    (hledger : Ledger l c (Way.blocks w ++ (Fork.fill ⟨pos, left, (e, b) :: right⟩ a).blocks) free
      slots)
    (hstorable : ∀ x ∈ Way.front w ++ ((Fork.fill ⟨pos, left, (e, b) :: right⟩ a).entries ++
      Way.back w), x.Storable l)
    (hk : ∀ d, Way.Leads l d (depth + 1) w pos →
      (Fork.fill ⟨pos, left, right⟩ m).OnBoard l d.cells (depth + 1) →
      Ledger l d (Way.blocks w ++ (Fork.fill ⟨pos, left, right⟩ m).blocks) (b.pos :: free) slots →
      Program.Acts l (k ()) d R) :
    Program.Acts l (do
      Program.storeNode l .current a.pos m.node
      Program.free l .sibling b.pos
      Program.storeNode l .parent pos (.branch (Fork.branch ⟨pos, left, right⟩ a.pos))
      k ()) c R := by
  have hperm := hm.perm_fill w pos left right
  have hentries : (Fork.fill ⟨pos, left, (e, b) :: right⟩ a).entries =
      (Fork.fill ⟨pos, left, right⟩ m).entries := by
    simp [hm.entries, Fork.front, Fork.back]
  rw [hentries] at hstorable
  have hledger := hledger.perm hperm
  have hnodup := hledger.nodup_used
  have hperm' : (b.pos :: (Way.blocks w ++ (Fork.fill ⟨pos, left, right⟩ m).blocks)).Perm
      (pos :: (Way.blocks w ++ (left.map Prod.fst ++ right.map Prod.snd).flatMap Subtree.blocks ++
        (a.blocks ++ b.blocks))) := by
    refine List.perm_iff_count.mpr fun p => ?_
    have := hm.blocks.count_eq p
    simp [Fork.blocks_fill.count_eq, Fork.blocks, Fork.subtrees, List.count_cons] at this ⊢
    omega
  obtain ⟨hpos, hrest⟩ := List.nodup_cons.mp (hnodup.perm hperm')
  simp only [List.mem_append, not_or] at hpos
  obtain ⟨⟨hposw, hposothers⟩, hposa, hposb⟩ := hpos
  obtain ⟨-, hpair, hapart⟩ := List.nodup_append.mp hrest
  have hsub : ∀ p ∈ m.blocks, p ∈ a.blocks ++ b.blocks := fun p hp =>
    hm.blocks.mem_iff.mpr (List.mem_cons_of_mem _ hp)
  have hmused : ∀ p ∈ m.blocks,
      p ∈ b.pos :: (Way.blocks w ++ (Fork.fill ⟨pos, left, right⟩ m).blocks) := by
    intro p hp
    refine hperm'.mem_iff.mpr (List.mem_cons_of_mem _ (List.mem_append_right _ (hsub p hp)))
  have hrewritten : ∀ d : Board, (∀ p, p ≠ a.pos → p ≠ b.pos → d.cells p = c.cells p) →
      Subtree.Rewritten c.cells d.cells a b := fun d h => ⟨hpair, fun p _ => h p⟩
  have hm₁ := hm.onBoard (hrewritten (c.put a.pos (.node m.node)) fun p hp _ =>
    Board.cells_put_ne hp) hmfits Board.cells_put_self
  have hmpos : a.pos ∈ m.blocks := hm.pos ▸ hm₁.pos_mem
  have hne : a.pos ≠ b.pos :=
    (List.nodup_append.mp hpair).2.2 _ ha.pos_mem _ hb.pos_mem
  have hmstorable : ∀ x ∈ m.entries, x.Storable l := by
    intro x hx
    refine hstorable x (List.mem_append_right _ (List.mem_append_left _ ?_))
    rw [Fork.entries_fill]
    exact List.mem_append_right _ (List.mem_append_left _ hx)
  have hstore := hledger.acts_storeSubtree hl Role.current_ne hm₁ hmused hmstorable
  rw [hm.pos] at hstore
  refine hstore.bind_ok ?_
  have hfree := (hledger.put (hmused _ hmpos) (.node m.node)).acts_free hl Role.sibling_ne
  refine hfree.bind (fun _ _ h => by cases h.1) ?_
  rintro ⟨⟩ d ⟨-, hledger, hcells, hroot⟩
  have hkeep : ∀ p, p ≠ a.pos → p ≠ b.pos → d.cells p = c.cells p := fun p hp hp' =>
    (hcells p hp').trans (Board.cells_put_ne hp)
  have haway : ∀ p, p ∈ Way.blocks w ++ (left.map Prod.fst ++ right.map Prod.snd).flatMap
      Subtree.blocks → d.cells p = c.cells p := fun p hp =>
    hkeep p (hapart p hp _ (List.mem_append_left _ ha.pos_mem))
      (hapart p hp _ (List.mem_append_right _ hb.pos_mem))
  have hm₂ := hm.onBoard (hrewritten d hkeep) hmfits ((hcells _ hne).trans Board.cells_put_self)
  have hothers' : ∀ z ∈ Fork.subtrees ⟨pos, left, right⟩, z.OnBoard l d.cells depth ∧ z.Full := by
    intro z hz
    refine ⟨(hothers z hz).1.congr fun p hp => haway p ?_, (hothers z hz).2⟩
    exact List.mem_append_right _ (List.mem_flatMap.mpr ⟨z, hz, hp⟩)
  rw [← hm.pos] at hfits
  have hx := Fork.onBoard_fill_put hfits hothers' hm₂ hm.full hposothers
    fun hp => (List.mem_append.mp (hsub _ hp)).elim hposa hposb
  have hw' := hw.congr hroot fun p hp => haway p (List.mem_append_left _ hp)
  have hstore := hledger.acts_storeSubtree hl Role.parent_ne hx
    (fun p hp => List.mem_append_right _ hp) fun x hx =>
      hstorable x (List.mem_append_right _ (List.mem_append_left _ hx))
  rw [Fork.node_fill, hm.pos] at hstore
  rw [hm.pos] at hx
  exact hstore.bind_ok (hk _ (hw'.put hposw) hx
    (hledger.put (List.mem_append_right _ hx.pos_mem) _))

/-- An entry goes from one brother to the other, through the separator between them. -/
theorem Way.Leads.acts_rotateBrothers {a' b' : Subtree} {e' : Entry}
    (hw : Way.Leads l c (depth + 1) w pos) (hl : l.Workable)
    (hothers : ∀ z ∈ left.map Prod.fst ++ right.map Prod.snd, z.OnBoard l c.cells depth ∧ z.Full)
    (ha : a.OnBoard l c.cells depth) (hb : b.OnBoard l c.cells depth)
    (hrotates : Subtree.Rotates l c.cells depth a e b a' e' b')
    (hfits : (Fork.branch ⟨pos, left, (e, b) :: right⟩ a.pos).fits l)
    (hledger : Ledger l c (Way.blocks w ++ (Fork.fill ⟨pos, left, (e, b) :: right⟩ a).blocks) free
      slots)
    (hstorable : ∀ x ∈ Way.front w ++ ((Fork.fill ⟨pos, left, (e, b) :: right⟩ a).entries ++
      Way.back w), x.Storable l) :
    Program.Acts l (do
      Program.storeNode l .current a.pos a'.node
      Program.storeNode l .sibling b.pos b'.node
      Program.storeNode l .parent pos (.branch (Fork.branch ⟨pos, left, (e', b') :: right⟩ a.pos))) c
      fun r d => r = .ok () ∧ Way.Leads l d (depth + 1) w pos ∧
        (Fork.fill ⟨pos, left, (e', b') :: right⟩ a').OnBoard l d.cells (depth + 1) ∧
        (Fork.fill ⟨pos, left, (e', b') :: right⟩ a').Full ∧
        Ledger l d (Way.blocks w ++ (Fork.fill ⟨pos, left, (e', b') :: right⟩ a').blocks) free
          slots := by
  have hperm := hrotates.perm_fill pos left right
  have hnodup := hledger.nodup_used.perm (Fork.blocks_fill_pair.append_left _)
  have hpair : (a.blocks ++ b.blocks).Nodup :=
    (List.nodup_append.mp (List.nodup_append.mp hnodup).2.1.of_cons).2.1
  have hne : a.pos ≠ b.pos := (List.nodup_append.mp hpair).2.2 _ ha.pos_mem _ hb.pos_mem
  have hentries : (Fork.fill ⟨pos, left, (e, b) :: right⟩ a).entries =
      (Fork.fill ⟨pos, left, (e', b') :: right⟩ a').entries := by
    rw [Fork.entries_fill_pair, Fork.entries_fill_pair, hrotates.entries]
  have hsame : Subtree.Rewritten c.cells ((c.put a.pos (.node a'.node)).put b.pos
      (.node b'.node)).cells a b :=
    ⟨hpair, fun p _ hp hp' => (Board.cells_put_ne hp').trans (Board.cells_put_ne hp)⟩
  obtain ⟨ha', hb'⟩ := hrotates.onBoard hsame
    ((Board.cells_put_ne hne).trans Board.cells_put_self) Board.cells_put_self
  have hfits' : (Fork.branch ⟨pos, left, (e', b') :: right⟩ a'.pos).fits l := by
    refine Branch.fits_of_length_le ?_ hfits
    simp
  rw [hentries] at hstorable
  rw [← hrotates.posLeft, ← hrotates.posRight] at ha' hb' ⊢
  rw [← Program.bind_pure (Program.storeNode l .parent pos _)]
  refine Way.Leads.acts_storeBrothers (a := a') (b := b') (k := pure) hw hl Role.current_ne
    Role.sibling_ne hothers ha' hb' hrotates.fullLeft hrotates.fullRight rfl hfits'
    (hledger.perm ((hperm.append_left _).trans Way.blocks_fill.symm)) (by simpa using hstorable) ?_
  rintro d ⟨hf, hw⟩ ha hledger
  obtain ⟨hx, hfull⟩ := hf.fill ha hrotates.fullLeft
  exact Program.acts_pure ⟨rfl, hw, hx, hfull, hledger.perm Way.blocks_fill⟩

end PagedIndex
