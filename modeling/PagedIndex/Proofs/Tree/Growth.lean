import PagedIndex.Proofs.Tree.Plan

/-!
# How a tree grows

An entry goes into one leaf. If the leaf has no room for it, its brother on the right takes what
overflows, if it has room, or else the leaf is split, and a separator goes up. It is split for it,
and so on, each branch that has no room. A new block is taken for each block that is split, and one
for a new root if the old one is split, from the chain of deleted blocks as long as that has any.

## Main definitions

* `Draws` — which blocks are taken, one after the other.
* `Way.Climbs` — how a separator goes up.
* `Way.Shifts`, `Way.Divides` — what becomes of a leaf that overflows.
* `Way.Offloads` — a leaf without room, and a brother that has it.
* `Way.Places`, `Plan.Receives` — how an entry goes into a leaf and into a tree.
* `Plan.Grown` — what becomes of a plan.

## Main statements

* `Plan.Receives.length_taken` — a block for each one that is split, and one for a new root.
* `Plan.Receives.splits_eq_path_iff` — there is a new root if the old one is split.
* `Way.Places.eq_of_offloads` — no leaf is split for what its brother has room for.
-/

namespace PagedIndex

/-! ## The blocks that are taken -/

/-- Blocks are taken one after the other: from the chain of deleted blocks as long as there are any,
and then behind the last block of the file, which is at a mark. Told are the chain and the mark in
front, the blocks, and the chain and the mark behind. -/
inductive Draws (l : Layout) :
    List BlockPos → BlockPos → List BlockPos → List BlockPos → BlockPos → Prop
  | done {free : List BlockPos} {mark : BlockPos} : Draws l free mark [] free mark
  | reuse {pos mark mark' : BlockPos} {free taken free' : List BlockPos}
      (h : Draws l free mark taken free' mark') : Draws l (pos :: free) mark (pos :: taken) free' mark'
  | extend {mark mark' : BlockPos} {taken free' : List BlockPos}
      (h : Draws l [] (mark.following l.blockSize) taken free' mark') :
      Draws l [] mark (mark.following l.blockSize :: taken) free' mark'

namespace Draws

variable {l : Layout} {free free' taken : List BlockPos} {mark mark' : BlockPos}

theorem free_eq (h : Draws l free mark taken free' mark') : free' = free.drop taken.length := by
  induction h with
  | done => rfl
  | reuse _ ih => exact ih
  | extend _ ih => simpa using ih

/-- What was deleted last is taken first. -/
theorem take_eq (h : Draws l free mark taken free' mark') :
    taken.take free.length = free.take taken.length := by
  induction h with
  | done => simp
  | reuse _ ih => simpa using ih
  | extend => rfl

/-- The other blocks are added behind the last one. -/
theorem drop_eq (h : Draws l free mark taken free' mark') :
    taken.drop free.length = (List.range (taken.length - free.length)).map fun i =>
      ⟨mark.offset + l.blockSize * (i + 1)⟩ := by
  induction h with
  | done => simp
  | reuse _ ih => simpa using ih
  | @extend mark mark' taken free' _ ih =>
    simp only [List.length_nil, List.drop_zero, Nat.sub_zero, List.length_cons] at ih ⊢
    rw [List.range_succ_eq_map, List.map_cons, List.map_map]
    refine congrArg₂ List.cons ?_ (ih.trans (List.map_congr_left fun i _ => ?_))
    · exact congrArg BlockPos.mk (by rw [Nat.zero_add, Nat.mul_one])
    · refine congrArg BlockPos.mk ?_
      show mark.offset + l.blockSize + l.blockSize * (i + 1) =
        mark.offset + l.blockSize * (i + 1 + 1)
      rw [Nat.mul_succ _ (i + 1), Nat.add_assoc, Nat.add_comm l.blockSize]

theorem mark_eq (h : Draws l free mark taken free' mark') :
    mark'.offset = mark.offset + l.blockSize * (taken.length - free.length) := by
  induction h with
  | done => simp
  | reuse _ ih => simpa using ih
  | @extend mark mark' taken free' _ ih =>
    rw [ih]
    show mark.offset + l.blockSize + _ = _
    simp only [List.length_nil, List.length_cons, Nat.sub_zero, Nat.mul_add, Nat.mul_one]
    omega

end Draws

/-- A block that is taken is the first of those that are. -/
theorem Ledger.Taken.draws {l : Layout} {c d : Board} {used free free' free'' taken : List BlockPos}
    {slots : List (BlockPos × List Nat)} {pos mark : BlockPos}
      (h : Taken l c used free slots pos free' d)
    (hrest : Draws l free' d.pointers.highWater taken free'' mark) :
    Draws l free c.pointers.highWater (pos :: taken) free'' mark := by
  rcases h.source with ⟨rfl, hmark⟩ | ⟨rfl, rfl, rfl, hmark⟩
  · exact .reuse (hmark ▸ hrest)
  · exact .extend (hmark ▸ hrest)

/-! ## Separators that go up -/

/-- A fork with another child behind the one left out. -/
def Fork.widen (f : Fork) (e : Entry) (y : Subtree) : Fork := ⟨f.pos, f.left, (e, y) :: f.right⟩

namespace Fork

variable {f : Fork} {e : Entry} {x y : Subtree}

theorem mem_subtrees_widen : x ∈ (f.widen e y).subtrees ↔ x = y ∨ x ∈ f.subtrees := by
  simp only [widen, subtrees, List.map_cons]
  grind

theorem subtrees_widen_ne_nil : (f.widen e y).subtrees ≠ [] :=
  List.ne_nil_of_mem (mem_subtrees_widen.mpr (.inl rfl))

/-- The new child comes behind the links in front of it. -/
theorem branch_widen (f : Fork) (e : Entry) (y : Subtree) (pos : BlockPos) :
    (f.widen e y).branch pos = ⟨(f.branch pos).first,
      (f.branch pos).separators.take f.left.length ++
        (e, y.pos) :: (f.branch pos).separators.drop f.left.length⟩ := by
  obtain ⟨first, stem, hstem, hbranch⟩ := exists_stem f.left pos
  have hold : f.branch pos = ⟨first, stem ++ f.right.map fun s => (s.1, s.2.pos)⟩ :=
    hbranch f.pos f.right
  rw [hold, ← hstem, List.take_left, List.drop_left]
  exact hbranch f.pos ((e, y) :: f.right)

theorem length_separators_widen (f : Fork) (e : Entry) (y : Subtree) (pos : BlockPos) :
    ((f.widen e y).branch pos).separators.length = (f.branch pos).separators.length + 1 := by
  have hlength := congrArg List.length
    (List.take_append_drop f.left.length (f.branch pos).separators)
  rw [List.length_append] at hlength
  rw [branch_widen, ← hlength, List.length_append, List.length_cons, Nat.add_assoc]

end Fork

namespace Way

/-- A child behind another one is put into the fork. -/
theorem entries_widen (f : Fork) (w : Way) (x : Subtree) (e : Entry) (y : Subtree) :
    front (f :: w) ++ (x.entries ++ e :: y.entries ++ back (f :: w)) =
      front (f.widen e y :: w) ++ (x.entries ++ back (f.widen e y :: w)) := by
  simp [Fork.widen, Fork.front, Fork.back]

theorem blocks_widen (f : Fork) (w : Way) (x : Subtree) (e : Entry) (y : Subtree) :
    (blocks (f :: w) ++ (x.blocks ++ y.blocks)).Perm (blocks (f.widen e y :: w) ++ x.blocks) := by
  refine List.perm_iff_count.mpr fun p => ?_
  simp [Fork.widen, Fork.blocks, Fork.subtrees, List.count_cons]
  omega

/-- The blocks on a way, the deepest first. -/
def path (w : Way) : List BlockPos := w.map Fork.pos

/-- The last one is the root. -/
theorem exists_path_eq (w : Way) (x : Subtree) :
    ∃ below, x.pos :: w.path = below ++ [(regrow w x).pos] := by
  induction w generalizing x with
  | nil => exact ⟨[], rfl⟩
  | cons f w ih =>
    obtain ⟨below, hbelow⟩ := ih (f.fill x)
    exact ⟨x.pos :: below, congrArg (List.cons x.pos) hbelow⟩

theorem path_sublist (w : Way) : w.path.Sublist (blocks w) := by
  induction w with
  | nil => exact .refl _
  | cons f w ih => exact (ih.trans (List.sublist_append_right _ _)).cons_cons _

/-- A separator `e` goes up a way with the child `y` on its right, from the child `x`. A branch that
has room for it keeps it. One that has not is split: its last two children go into a new block, and
the separator in front of them goes on up. Behind the root there is a new root. Told are the blocks
that are split, the blocks that are taken and the tree that is left. -/
inductive Climbs (l : Layout) :
    Way → Subtree → Entry → Subtree → List BlockPos → List BlockPos → Subtree → Prop
  | root {x y : Subtree} {e : Entry} {root : BlockPos} :
      Climbs l [] x e y [] [root] (.branch root x [(e, y)])
  | room {w : Way} {f : Fork} {x y : Subtree} {e : Entry}
    (hfits : ((f.widen e y).branch x.pos).fits l) :
      Climbs l (f :: w) x e y [] [] (regrow (f.widen e y :: w) x)
  | split {w : Way} {f : Fork} {x y first y' z x' : Subtree} {e m e' : Entry}
    {front : List (Entry × Subtree)}
      {right : BlockPos} {splits taken : List BlockPos} (hfull : ¬((f.widen e y).branch x.pos).fits l)
      (hfill : (f.widen e y).fill x = .branch f.pos first (front ++ [(m, y'), (e', z)]))
      (h : Climbs l w (.branch f.pos first front) m (.branch right y' [(e', z)]) splits taken x') :
      Climbs l (f :: w) x e y (f.pos :: splits) (right :: taken) x'

variable {l : Layout} {w : Way} {x y x' : Subtree} {e : Entry} {splits taken : List BlockPos}

/-- The branches that are split are the deepest ones of the way. -/
theorem Climbs.splits_prefix (h : Climbs l w x e y splits taken x') : splits <+: w.path := by
  induction h with
  | root => exact List.prefix_rfl
  | room => exact List.nil_prefix
  | split _ _ _ ih => exact List.cons_prefix_cons.mpr ⟨rfl, ih⟩

/-- A block is taken for each branch that is split, and one for a new root if all of them are. -/
theorem Climbs.length_taken (h : Climbs l w x e y splits taken x') :
    taken.length = splits.length + if splits = w.path then 1 else 0 := by
  induction h with
  | root => rfl
  | room => rfl
  | @split w f _ _ _ _ _ _ _ _ _ _ _ splits taken _ _ _ ih =>
    rw [List.length_cons, List.length_cons, ih, Nat.add_right_comm]
    refine congrArg _ (ite_congr (propext ?_) (fun _ => rfl) fun _ => rfl)
    exact ⟨congrArg _, fun h => (List.cons.inj h).2⟩

/-- The blocks that are taken are put to use. -/
theorem Climbs.blocks (h : Climbs l w x e y splits taken x') :
    x'.blocks.Perm (taken ++ (blocks w ++ (x.blocks ++ y.blocks))) := by
  induction h with
  | root => simp [Subtree.branch]
  | @room w f x y e => exact (blocks_regrow _ _).trans (blocks_widen f w x e y).symm
  | @split w f x y first y' z x' e m e' front right splits taken _ hfill _ ih =>
    have hparts := (blocks_widen f w x e y).trans blocks_fill
    rw [hfill] at hparts
    refine ih.trans (List.Perm.trans ?_ ((hparts.symm.append_left taken).cons right))
    refine List.perm_iff_count.mpr fun p => ?_
    simp [Subtree.branch, List.count_cons]
    omega

/-! ## Entries that go into a leaf -/

/-- The leaf keeps some entries, and what overflows goes to its brother on the right, under the same
branch, which has room for it. Told is the tree that is left. -/
inductive Shifts (l : Layout) (pos : BlockPos) (kept : List Entry) (separator : Entry)
    (moved : List Entry) : Way → Subtree → Prop
  | mk {w : Way} {p right : BlockPos} {left : List (Subtree × Entry)} {more : List (Entry × Subtree)}
      {old : Entry} {es : List Entry} (hroom : Leaf.fits l (moved ++ old :: es)) :
      Shifts l pos kept separator moved (⟨p, left, (old, .leaf right es) :: more⟩ :: w)
        (regrow (⟨p, left, (separator, .leaf right (moved ++ old :: es)) :: more⟩ :: w)
          (.leaf pos kept))

/-- A leaf has overflowed: `init` and `promoted` fit into it, `separator` and `moved` are left over.
Its brother on the right takes these if it has room, or else the leaf is split and `promoted` goes
up. -/
inductive Divides (l : Layout) (w : Way) (pos : BlockPos) (init : List Entry)
    (promoted separator : Entry) (moved : List Entry) : List BlockPos → List BlockPos → Subtree → Prop
  | shift {x' : Subtree} (h : Shifts l pos (init ++ [promoted]) separator moved w x') :
      Divides l w pos init promoted separator moved [] [] x'
  | split {right : BlockPos} {splits taken : List BlockPos} {x' : Subtree}
      (hno : ∀ x', ¬Shifts l pos (init ++ [promoted]) separator moved w x')
      (h : Climbs l w (.leaf pos init) promoted (.leaf right (separator :: moved)) splits taken x') :
      Divides l w pos init promoted separator moved (pos :: splits) (right :: taken) x'

/-- The leaf at the end of a way has no room for an entry between `front` and `back`, and its
brother on the right takes what it cannot keep. -/
def Offloads (l : Layout) (e : Entry) (w : Way) (pos : BlockPos) (front back : List Entry)
    (x' : Subtree) : Prop :=
  ∃ init promoted separator moved, ¬Leaf.fits l (front ++ e :: back) ∧
    front ++ e :: back = init ++ promoted :: separator :: moved ∧
    Leaf.fittingPrefix l (front ++ e :: back) = init.length + 1 ∧
    Shifts l pos (init ++ [promoted]) separator moved w x'

/-- An entry goes into the leaf at the end of a way, behind `front` and in front of `back`. -/
inductive Places (l : Layout) (e : Entry) (w : Way) (pos : BlockPos) (front back : List Entry) :
    List BlockPos → List BlockPos → Subtree → Prop
  | room (hfits : Leaf.fits l (front ++ e :: back)) :
      Places l e w pos front back [] [] (regrow w (.leaf pos (front ++ e :: back)))
  | full {init moved : List Entry} {promoted separator : Entry} {splits taken : List BlockPos}
      {x' : Subtree} (hfull : ¬Leaf.fits l (front ++ e :: back))
      (hes : front ++ e :: back = init ++ promoted :: separator :: moved)
      (hfitting : Leaf.fittingPrefix l (front ++ e :: back) = init.length + 1)
      (h : Divides l w pos init promoted separator moved splits taken x') :
      Places l e w pos front back splits taken x'

variable {pos : BlockPos} {front back init kept moved : List Entry} {promoted separator : Entry}

theorem Shifts.blocks (h : Shifts l pos kept separator moved w x') :
    x'.blocks.Perm (Way.blocks w ++ [pos]) := by
  cases h
  refine (blocks_regrow _ _).trans (.of_eq ?_)
  simp [Fork.blocks, Fork.subtrees, Subtree.leaf]

theorem Divides.splits_prefix (h : Divides l w pos init promoted separator moved splits taken x') :
    splits <+: pos :: w.path := by
  cases h with
  | shift => exact List.nil_prefix
  | split _ h => exact List.cons_prefix_cons.mpr ⟨rfl, h.splits_prefix⟩

theorem Divides.length_taken (h : Divides l w pos init promoted separator moved splits taken x') :
    taken.length = splits.length + if splits = pos :: w.path then 1 else 0 := by
  cases h with
  | shift => rfl
  | split _ h =>
    rw [List.length_cons, List.length_cons, h.length_taken, Nat.add_right_comm]
    refine congrArg _ (ite_congr (propext ?_) (fun _ => rfl) fun _ => rfl)
    exact ⟨congrArg _, fun h => (List.cons.inj h).2⟩

theorem Divides.blocks (h : Divides l w pos init promoted separator moved splits taken x') :
    x'.blocks.Perm (taken ++ (Way.blocks w ++ [pos])) := by
  cases h with
  | shift h => exact h.blocks
  | split _ h =>
    refine h.blocks.trans (List.perm_iff_count.mpr fun p => ?_)
    simp [Subtree.leaf, List.count_cons]
    omega

theorem Places.splits_prefix (h : Places l e w pos front back splits taken x') :
    splits <+: pos :: w.path := by
  cases h with
  | room => exact List.nil_prefix
  | full _ _ _ h => exact h.splits_prefix

/-- A block is taken for each one that is split, and one for a new root if all of them are. -/
theorem Places.length_taken (h : Places l e w pos front back splits taken x') :
    taken.length = splits.length + if splits = pos :: w.path then 1 else 0 := by
  cases h with
  | room => rfl
  | full _ _ _ h => exact h.length_taken

/-- There is one way in which a brother takes what a leaf cannot keep. -/
theorem Shifts.unique (h : Shifts l pos kept separator moved w x)
    (h' : Shifts l pos kept separator moved w x') : x = x' := by
  cases h
  cases h'
  rfl

/-- A leaf that is not split has room for the entry, or its brother has for what it cannot keep. -/
theorem Places.fits_or_offloads (h : Places l e w pos front back splits taken x)
    (hsplits : splits = []) : Leaf.fits l (front ++ e :: back) ∨ Offloads l e w pos front back x := by
  cases h with
  | room hfits => exact .inl hfits
  | full hfull hes hfitting h =>
    cases h with
    | shift h => exact .inr ⟨_, _, _, _, hfull, hes, hfitting, h⟩
    | split => cases hsplits

/-- If the brother has room, nothing is split. -/
theorem Places.eq_of_offloads (h : Places l e w pos front back splits taken x)
    (hoffloads : Offloads l e w pos front back x') : splits = [] ∧ x = x' := by
  obtain ⟨init', promoted', separator', moved', hfull', hes', hfitting', h'⟩ := hoffloads
  cases h with
  | room hfits => exact absurd hfits hfull'
  | @full init _ _ _ _ _ _ _ hes hfitting h =>
    have hlength : init.length = init'.length := by omega
    obtain ⟨rfl, hrest⟩ := List.append_inj (hes.symm.trans hes') hlength
    cases hrest
    cases h with
    | shift h => exact ⟨rfl, h.unique h'⟩
    | split hno => exact absurd h' (hno x')

/-- The blocks that are taken are put to use. -/
theorem Places.blocks (h : Places l e w pos front back splits taken x') :
    x'.blocks.Perm (taken ++ (Way.blocks w ++ [pos])) := by
  cases h with
  | room => exact blocks_regrow _ _
  | full _ _ _ h => exact h.blocks

end Way

/-! ## Entries that go into a tree -/

/-- An entry goes into the tree of a plan. Told are the blocks on the way to its leaf, from the leaf
up, those of them that are split, the blocks that are taken, and the tree that is left. -/
inductive Plan.Receives (l : Layout) (e : Entry) (p : Plan) :
    List BlockPos → List BlockPos → List BlockPos → Subtree → Prop
  | first {pos : BlockPos} (h : p.tree = none) : Receives l e p [] [] [pos] (.leaf pos [e])
  | into {w : Way} {pos : BlockPos} {front back : List Entry} {splits taken : List BlockPos}
    {x : Subtree}
      (h : p.tree = some (w.regrow (.leaf pos (front ++ back))))
      (hplaces : w.Places l e pos front back splits taken x) :
      Receives l e p (pos :: w.path) splits taken x

namespace Plan.Receives

variable {l : Layout} {e : Entry} {p : Plan} {path splits taken : List BlockPos} {x : Subtree}

/-- The blocks that are split are the deepest ones. -/
theorem splits_prefix (h : p.Receives l e path splits taken x) : splits <+: path := by
  cases h with
  | first => exact List.prefix_rfl
  | into _ h => exact h.splits_prefix

/-- A block is taken for each one that is split, and one for a new root if all of them are. -/
theorem length_taken (h : p.Receives l e path splits taken x) :
    taken.length = splits.length + if splits = path then 1 else 0 := by
  cases h with
  | first => rfl
  | into _ h => exact h.length_taken

/-- All blocks on the way are split if the root is. -/
theorem splits_eq_path_iff (h : p.Receives l e path splits taken x) (hnodup : p.blocks.Nodup) :
    splits = path ↔ ∀ y, p.tree = some y → y.pos ∈ splits := by
  cases h with
  | first htree =>
    rw [htree]
    exact iff_of_true rfl fun _ hy => by cases hy
  | @into w pos front back splits taken x htree hplaces =>
    obtain ⟨below, hbelow⟩ := w.exists_path_eq (.leaf pos (front ++ back))
    have hperm : p.blocks.Perm (Way.blocks w ++ [pos]) := by
      rw [Plan.blocks, htree]
      exact Way.blocks_regrow w _
    have hpath : (pos :: w.path).Nodup :=
      ((w.path_sublist.append_right [pos]).nodup (hperm.nodup hnodup)).perm
        (List.perm_append_singleton _ _)
    have hsplits := hplaces.splits_prefix
    change pos :: w.path = _ at hbelow
    rw [hbelow] at hpath hsplits ⊢
    rw [htree]
    refine ⟨fun heq y hy => ?_, fun hroot => ?_⟩
    · cases hy
      rw [heq]
      exact List.mem_append_right _ (List.mem_singleton_self _)
    · refine (List.prefix_concat_iff.mp hsplits).resolve_right fun hprefix => ?_
      have hmem := hprefix.subset (hroot _ rfl)
      exact (List.nodup_append.mp hpath).2.2 _ hmem _ (List.mem_singleton_self _) rfl

/-- The blocks that are taken are those by which the tree grows. -/
theorem blocks (h : p.Receives l e path splits taken x) : x.blocks.Perm (taken ++ p.blocks) := by
  cases h with
  | first htree => simp [Plan.blocks, htree, Subtree.leaf]
  | @into w pos front back splits taken x htree hplaces =>
    refine (hplaces.blocks).trans (List.Perm.append_left _ ?_)
    rw [Plan.blocks, htree]
    exact (Way.blocks_regrow w (.leaf pos (front ++ back))).symm

end Plan.Receives

/-- What becomes of a plan when an entry goes into its tree. -/
structure Plan.Grown (l : Layout) (e : Entry) (p : Plan) (path splits taken : List BlockPos)
    (p' : Plan) : Prop where
  receives : ∃ x, p'.tree = some x ∧ p.Receives l e path splits taken x
  path : path.length = p.levels
  draws : Draws l p.free ⟨p.mark l⟩ taken p'.free ⟨p'.mark l⟩
  levels : p'.levels + splits.length = p.levels + taken.length

/-- The tree gets a level if all blocks on the way are split. -/
theorem Plan.Grown.levels_eq {l : Layout} {e : Entry} {p p' : Plan} {path splits taken : List BlockPos}
    (h : p.Grown l e path splits taken p') :
    p'.levels = p.levels + if splits = path then 1 else 0 := by
  obtain ⟨x, -, hreceives⟩ := h.receives
  have := hreceives.length_taken
  have := h.levels
  omega

end PagedIndex
