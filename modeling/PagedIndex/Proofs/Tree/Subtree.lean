import PagedIndex.Proofs.Tree.Board
import PagedIndex.Tree.Search

/-!
# Subtrees and forks

A subtree is a part of a tree: a block with all that is below it. A fork is a branch with one of its
children left out; the forks on a way down, the deepest in front, are the rest of the tree around a
subtree. A program on a tree goes down by splitting subtrees into forks and subtrees, and what it
leaves is a tree because the forks can be filled again.

## Main definitions

* `Subtree`, `Subtree.OnBoard` — a part of a tree, and that it stands on a board.
* `Fork`, `Way.Leads` — the rest of the tree around a subtree.
* `Way.regrow` — the tree that forks and a subtree make up.

## Main statements

* `Subtree.OnBoard.split` — a branch is a fork around any of its children.
* `Way.Leads.regrow` — forks filled with a subtree are a tree again.
-/

namespace PagedIndex

/-! ## Children in a line -/

/-- The children of a branch as its block lists them, for what stands in front of one child, the
child, and what stands behind it. -/
def line {α : Type} : List (α × Entry) → α → List (Entry × α) → α × List (Entry × α)
  | [], x, right => (x, right)
  | (y, e) :: left, x, right => (y, (e, (line left x right).1) :: (line left x right).2)

section Line

variable {α β : Type} {left : List (α × Entry)} {x y : α} {e : Entry} {right : List (Entry × α)}

theorem fst_line (left : List (α × Entry)) (x : α) (right : List (Entry × α)) :
    (line left x right).1 = (line left x []).1 := by
  cases left <;> rfl

/-- What stands behind the child is listed behind what stands in front of it. -/
theorem snd_line (left : List (α × Entry)) (x : α) (right : List (Entry × α)) :
    (line left x right).2 = (line left x []).2 ++ right := by
  induction left with
  | nil => rfl
  | cons s left ih =>
    simp only [line, ih, List.cons_append]
    rw [fst_line]

@[simp]
theorem length_line_nil (left : List (α × Entry)) (x : α) :
    (line left x []).2.length = left.length := by
  induction left with
  | nil => rfl
  | cons s left ih => simp [line, ih]

/-- Any child of a branch is one among the others. -/
theorem exists_line (first : α) (rest : List (Entry × α)) {i : Nat} (hi : i ≤ rest.length) :
    ∃ left x right, left.length = i ∧ line left x right = (first, rest) := by
  induction rest generalizing first i with
  | nil => exact ⟨[], first, [], (Nat.le_zero.mp hi).symm, rfl⟩
  | cons s rest ih =>
    cases i with
    | zero => exact ⟨[], first, s :: rest, rfl, rfl⟩
    | succ i =>
      obtain ⟨left, x, right, hlen, hline⟩ := ih s.2 (Nat.le_of_succ_le_succ hi)
      refine ⟨(first, s.1) :: left, x, right, congrArg (· + 1) hlen, ?_⟩
      simp [line, hline]

/-- The child behind the last separator in front of another one. -/
theorem line_append_singleton (left : List (α × Entry)) (y : α) (e : Entry) (x : α)
    (right : List (Entry × α)) : line (left ++ [(y, e)]) x right = line left y ((e, x) :: right) := by
  induction left with
  | nil => rfl
  | cons s left ih => simp [line, ih]

theorem line_map (f : α → β) (left : List (α × Entry)) (x : α) (right : List (Entry × α)) :
    line (left.map fun s => (f s.1, s.2)) (f x) (right.map fun s => (s.1, f s.2)) =
      (f (line left x right).1, (line left x right).2.map fun s => (s.1, f s.2)) := by
  induction left with
  | nil => rfl
  | cons s left ih => simp [line, ih]

/-- The children of a branch from the left. -/
theorem children_line (left : List (α × Entry)) (x : α) (right : List (Entry × α)) :
    (line left x right).1 :: (line left x right).2.map Prod.snd =
      left.map Prod.fst ++ x :: right.map Prod.snd := by
  induction left with
  | nil => rfl
  | cons s left ih => simp [line, ← ih]

/-- Its separators. -/
theorem separators_line (left : List (α × Entry)) (x : α) (right : List (Entry × α)) :
    (line left x right).2.map Prod.fst = left.map Prod.snd ++ right.map Prod.fst := by
  induction left with
  | nil => rfl
  | cons s left ih => simp [line, ih]

/-- All that is in a branch, read from the left. -/
theorem flatMap_line (f : α → List β) (g : Entry → List β) (left : List (α × Entry)) (x : α)
    (right : List (Entry × α)) :
    f (line left x right).1 ++ (line left x right).2.flatMap (fun s => g s.1 ++ f s.2) =
      left.flatMap (fun s => f s.1 ++ g s.2) ++ (f x ++ right.flatMap fun s => g s.1 ++ f s.2) := by
  induction left with
  | nil => rfl
  | cons s left ih => simp [line, ← ih]

end Line

/-! ## Subtrees -/

/-- A part of a tree: a block, what it holds, and all that is in it and below it. -/
structure Subtree where
  pos : BlockPos
  node : Node
  /-- The entries from the left. -/
  entries : List Entry
  blocks : List BlockPos

namespace Subtree

def leaf (pos : BlockPos) (entries : List Entry) : Subtree := ⟨pos, .leaf entries, entries, [pos]⟩

/-- A branch over other subtrees. -/
def branch (pos : BlockPos) (first : Subtree) (rest : List (Entry × Subtree)) : Subtree where
  pos := pos
  node := .branch ⟨first.pos, rest.map fun s => (s.1, s.2.pos)⟩
  entries := first.entries ++ rest.flatMap fun s => [s.1] ++ s.2.entries
  blocks := pos :: (first :: rest.map Prod.snd).flatMap blocks

/-- Whether the block of a subtree holds entries. -/
def Full (x : Subtree) : Prop := x.node.isEmpty = false

/-- A subtree whose blocks are those of a board, with leaves `depth` levels below it. All blocks
below hold entries. -/
inductive OnBoard (l : Layout) (cells : BlockPos → Option Cell) : Nat → Subtree → Prop
  | leaf {pos : BlockPos} {es : List Entry} (hcell : cells pos = some (.node (.leaf es)))
      (hfits : Leaf.fits l es) : OnBoard l cells 0 (.leaf pos es)
  | branch {depth : Nat} {pos : BlockPos} {first : Subtree} {rest : List (Entry × Subtree)}
      (hcell : cells pos = some (.node (Subtree.branch pos first rest).node))
      (hfits : (Subtree.branch pos first rest).node.fits l)
      (hchildren : ∀ y ∈ first :: rest.map Prod.snd, OnBoard l cells depth y)
      (hfull : ∀ y ∈ first :: rest.map Prod.snd, y.Full) :
      OnBoard l cells (depth + 1) (.branch pos first rest)

variable {l : Layout} {cells cells' : BlockPos → Option Cell} {depth : Nat} {x y : Subtree}
  {pos : BlockPos} {es : List Entry} {first : Subtree} {rest : List (Entry × Subtree)}

@[simp]
theorem pos_leaf : (leaf pos es).pos = pos := rfl

@[simp]
theorem pos_branch : (branch pos first rest).pos = pos := rfl

theorem full_leaf : (leaf pos es).Full ↔ es ≠ [] := by
  simp [Full, leaf, Node.isEmpty, Node.entries]

theorem full_branch : (branch pos first rest).Full ↔ rest ≠ [] := by
  simp [Full, branch, Node.isEmpty, Node.entries, Branch.entries]

theorem OnBoard.cell (h : x.OnBoard l cells depth) : cells x.pos = some (.node x.node) := by
  cases h with
  | leaf hcell => exact hcell
  | branch hcell => exact hcell

theorem OnBoard.fits (h : x.OnBoard l cells depth) : x.node.fits l := by
  cases h with
  | leaf _ hfits => exact hfits
  | branch _ hfits => exact hfits

theorem OnBoard.pos_mem (h : x.OnBoard l cells depth) : x.pos ∈ x.blocks := by
  cases h with
  | leaf => exact List.mem_singleton_self _
  | branch => exact List.mem_cons_self

/-- The separators of a branch are among its entries, in the same order. -/
theorem separators_sublist (pos : BlockPos) (first : Subtree) (rest : List (Entry × Subtree)) :
    (rest.map Prod.fst).Sublist (Subtree.branch pos first rest).entries := by
  refine List.Sublist.trans ?_ (List.sublist_append_right first.entries _)
  induction rest with
  | nil => exact .slnil
  | cons s rest ih => exact (ih.trans (List.sublist_append_right _ _)).cons_cons _

/-- A full subtree has entries. -/
theorem OnBoard.entries_ne_nil (h : x.OnBoard l cells depth) (hfull : x.Full) : x.entries ≠ [] := by
  cases h with
  | leaf => exact full_leaf.mp hfull
  | branch =>
    rw [full_branch] at hfull
    obtain ⟨s, rest, rfl⟩ := List.exists_cons_of_ne_nil hfull
    simp [Subtree.branch]

/-- A subtree stands wherever its own blocks do. -/
theorem OnBoard.congr (h : x.OnBoard l cells depth) (hcells : ∀ p ∈ x.blocks, cells' p = cells p) :
    x.OnBoard l cells' depth := by
  induction h with
  | leaf hcell hfits =>
    refine .leaf ?_ hfits
    rw [hcells _ (List.mem_singleton_self _)]
    exact hcell
  | branch hcell hfits _ hfull ih =>
    refine .branch ?_ hfits (fun y hy => ih y hy fun p hp => ?_) hfull
    · rw [hcells _ List.mem_cons_self]
      exact hcell
    · exact hcells p (List.mem_cons_of_mem _ (List.mem_flatMap.mpr ⟨y, hy, hp⟩))

/-- A block has the same depth in all subtrees of a board. -/
theorem OnBoard.depth_eq {depth' : Nat} (hx : x.OnBoard l cells depth) (hy : y.OnBoard l cells depth')
    (hpos : x.pos = y.pos) : depth = depth' := by
  induction hx generalizing y depth' with
  | leaf hcell =>
    have hnode := hy.cell
    rw [← hpos, pos_leaf, hcell] at hnode
    cases hy with
    | leaf => rfl
    | branch => cases hnode
  | branch hcell _ _ _ ih =>
    have hnode := hy.cell
    rw [← hpos, pos_branch, hcell] at hnode
    cases hy with
    | leaf => cases hnode
    | branch _ _ hchildren =>
      simp only [Subtree.branch, Option.some.injEq, Cell.node.injEq, Node.branch.injEq,
        Branch.mk.injEq] at hnode
      exact congrArg (· + 1)
        (ih _ List.mem_cons_self (hchildren _ List.mem_cons_self) hnode.1)

end Subtree

/-! ## Forks -/

/-- A branch with one child left out. -/
structure Fork where
  pos : BlockPos
  /-- The children in front of the one left out, each with the separator behind it. -/
  left : List (Subtree × Entry)
  /-- The children behind it, each with the separator in front of it. -/
  right : List (Entry × Subtree)

namespace Fork

/-- The branch on the way of a search that goes on in the child left out. -/
def step (f : Fork) : Step := ⟨f.pos, f.left.length⟩

def fill (f : Fork) (x : Subtree) : Subtree :=
  Subtree.branch f.pos (line f.left x f.right).1 (line f.left x f.right).2

/-- What the block holds when the child left out is the block `pos`. -/
def branch (f : Fork) (pos : BlockPos) : Branch :=
  let s := line (f.left.map fun s => (s.1.pos, s.2)) pos (f.right.map fun s => (s.1, s.2.pos))
  ⟨s.1, s.2⟩

def subtrees (f : Fork) : List Subtree := f.left.map Prod.fst ++ f.right.map Prod.snd

/-- The entries in front of the child left out. -/
def front (f : Fork) : List Entry := f.left.flatMap fun s => s.1.entries ++ [s.2]

/-- The entries behind it. -/
def back (f : Fork) : List Entry := f.right.flatMap fun s => [s.1] ++ s.2.entries

/-- All blocks but those of the child left out. -/
def blocks (f : Fork) : List BlockPos := f.pos :: f.subtrees.flatMap Subtree.blocks

/-- A fork whose blocks are those of a board, around a child at `pos`. -/
structure OnBoard (l : Layout) (cells : BlockPos → Option Cell) (depth : Nat) (f : Fork)
    (pos : BlockPos) : Prop where
  cell : cells f.pos = some (.node (.branch (f.branch pos)))
  fits : (f.branch pos).fits l
  subtrees : ∀ y ∈ f.subtrees, y.OnBoard l cells depth
  full : ∀ y ∈ f.subtrees, y.Full
  forked : f.subtrees ≠ []

variable {l : Layout} {cells cells' : BlockPos → Option Cell} {depth : Nat} {f : Fork} {x : Subtree}
  {pos : BlockPos}

@[simp]
theorem pos_fill : (f.fill x).pos = f.pos := rfl

@[simp]
theorem node_fill : (f.fill x).node = .branch (f.branch x.pos) := by
  simp [fill, Subtree.branch, branch, line_map]

@[simp]
theorem entries_fill : (f.fill x).entries = f.front ++ (x.entries ++ f.back) :=
  flatMap_line Subtree.entries (fun e => [e]) f.left x f.right

theorem children_fill : (line f.left x f.right).1 :: (line f.left x f.right).2.map Prod.snd =
    f.left.map Prod.fst ++ x :: f.right.map Prod.snd := children_line f.left x f.right

theorem blocks_fill : (f.fill x).blocks.Perm (f.blocks ++ x.blocks) := by
  unfold fill Subtree.branch blocks subtrees
  simp only [children_fill, List.flatMap_append, List.flatMap_cons, List.cons_append,
    List.append_assoc]
  exact (List.Perm.append_left _ List.perm_append_comm).cons _

@[simp]
theorem entries_branch : (f.branch pos).entries =
    f.left.map Prod.snd ++ f.right.map Prod.fst := by
  simp [branch, Branch.entries, separators_line, Function.comp_def]

@[simp]
theorem length_separators_branch :
    (f.branch pos).separators.length = f.left.length + f.right.length := by
  have hlength : (f.branch pos).entries.length = _ := congrArg List.length entries_branch
  simpa [Branch.entries] using hlength

@[simp]
theorem children_branch : (f.branch pos).children =
    f.left.map (fun s => s.1.pos) ++ pos :: f.right.map fun s => s.2.pos := by
  simp [branch, Branch.children, children_line, Function.comp_def]

theorem child?_branch : (f.branch pos).child? f.left.length = some pos := by
  simp [Branch.child?]

/-- What a branch lists in front of the link behind a child does not depend on what follows. -/
theorem exists_stem (left : List (Subtree × Entry)) (pos : BlockPos) :
    ∃ first stem, stem.length = left.length ∧ ∀ p right,
      branch ⟨p, left, right⟩ pos = ⟨first, stem ++ right.map fun s => (s.1, s.2.pos)⟩ := by
  refine ⟨(line (left.map fun s => (s.1.pos, s.2)) pos []).1,
    (line (left.map fun s => (s.1.pos, s.2)) pos []).2, by simp, fun p right => ?_⟩
  simp only [branch]
  rw [fst_line, snd_line]

theorem separator?_branch : (f.branch pos).separators[f.left.length]? =
    f.right.head?.map fun s => (s.1, s.2.pos) := by
  obtain ⟨p, left, right⟩ := f
  obtain ⟨first, stem, hstem, hbranch⟩ := exists_stem left pos
  simp only [hbranch, ← hstem, List.getElem?_append_right (Nat.le_refl _), Nat.sub_self]
  cases right <;> rfl

/-- The children in front of one are told with it, or with the one before. -/
theorem branch_append {p : BlockPos} {left : List (Subtree × Entry)} {y z : Subtree} {e : Entry}
    {right : List (Entry × Subtree)} :
    branch ⟨p, left ++ [(y, e)], right⟩ z.pos = branch ⟨p, left, (e, z) :: right⟩ y.pos := by
  simp [branch, line_append_singleton]

theorem fill_append {p : BlockPos} {left : List (Subtree × Entry)} {y z : Subtree} {e : Entry}
    {right : List (Entry × Subtree)} :
    fill ⟨p, left ++ [(y, e)], right⟩ z = fill ⟨p, left, (e, z) :: right⟩ y := by
  simp [fill, line_append_singleton]

/-- The branch without the separator behind the child left out, and the child behind that. -/
theorem branch_erase {p : BlockPos} {left : List (Subtree × Entry)} {s : Entry × Subtree}
    {right : List (Entry × Subtree)} :
    { branch ⟨p, left, s :: right⟩ pos with
      separators := (branch ⟨p, left, s :: right⟩ pos).separators.eraseIdx left.length } =
      branch ⟨p, left, right⟩ pos := by
  obtain ⟨first, stem, hstem, hbranch⟩ := exists_stem left pos
  simp only [hbranch, ← hstem, List.eraseIdx_append_of_length_le (Nat.le_refl _), Nat.sub_self]
  rfl

/-- The branch with another separator behind the child left out. -/
theorem branch_set {p : BlockPos} {left : List (Subtree × Entry)} {s s' : Entry × Subtree}
    {right : List (Entry × Subtree)} :
    { branch ⟨p, left, s :: right⟩ pos with
      separators := (branch ⟨p, left, s :: right⟩ pos).separators.set left.length
        (s'.1, s'.2.pos) } =
      branch ⟨p, left, s' :: right⟩ pos := by
  obtain ⟨first, stem, hstem, hbranch⟩ := exists_stem left pos
  simp only [hbranch, ← hstem, List.set_append_right _ _ (Nat.le_refl _), Nat.sub_self]
  rfl

theorem OnBoard.congr (h : f.OnBoard l cells depth pos)
    (hcells : ∀ p ∈ f.blocks, cells' p = cells p) : f.OnBoard l cells' depth pos := by
  refine ⟨?_, h.fits, fun y hy => (h.subtrees y hy).congr fun p hp => ?_, h.full, h.forked⟩
  · rw [hcells _ List.mem_cons_self]
    exact h.cell
  · exact hcells p (List.mem_cons_of_mem _ (List.mem_flatMap.mpr ⟨y, hy, hp⟩))

theorem mem_children_fill {y : Subtree} :
    y ∈ f.left.map Prod.fst ++ x :: f.right.map Prod.snd ↔ y = x ∨ y ∈ f.subtrees := by
  unfold subtrees
  grind

theorem full_fill : (f.fill x).Full ↔ f.subtrees ≠ [] := by
  simp only [subtrees, Subtree.Full, node_fill, Node.isEmpty, Node.entries, entries_branch]
  cases f.left <;> cases f.right <;> simp

/-- A fork with the child put in is a subtree. -/
theorem OnBoard.fill (h : f.OnBoard l cells depth x.pos) (hx : x.OnBoard l cells depth)
    (hfull : x.Full) : (f.fill x).OnBoard l cells (depth + 1) ∧ (f.fill x).Full := by
  refine ⟨.branch ?_ ?_ ?_ ?_, full_fill.mpr h.forked⟩
  · exact node_fill (f := f) (x := x) ▸ h.cell
  · exact node_fill (f := f) (x := x) ▸ h.fits
  · rw [children_fill]
    intro y hy
    rcases mem_children_fill.mp hy with rfl | hy
    · exact hx
    · exact h.subtrees y hy
  · rw [children_fill]
    intro y hy
    rcases mem_children_fill.mp hy with rfl | hy
    · exact hfull
    · exact h.full y hy

end Fork

/-- A branch is a fork around any of its children. -/
theorem Subtree.OnBoard.split {l : Layout} {cells : BlockPos → Option Cell} {depth : Nat} {x : Subtree}
    (h : x.OnBoard l cells (depth + 1)) (hfull : x.Full) :
    ∃ b, x.node = .branch b ∧ ∀ i ≤ b.separators.length, ∃ (f : Fork) (y : Subtree),
      f.step = ⟨x.pos, i⟩ ∧ f.fill y = x ∧ f.OnBoard l cells depth y.pos ∧
        y.OnBoard l cells depth ∧ y.Full := by
  cases h with
  | @branch _ pos first rest hcell hfits hchildren hfulls =>
  refine ⟨_, rfl, fun i hi => ?_⟩
  obtain ⟨left, y, right, rfl, hline⟩ := exists_line first rest (by simpa using hi)
  have hfill : Fork.fill ⟨pos, left, right⟩ y = Subtree.branch pos first rest := by
    simp [Fork.fill, hline]
  have hnode : (Subtree.branch pos first rest).node =
      .branch (Fork.branch ⟨pos, left, right⟩ y.pos) := by
    rw [← hfill, Fork.node_fill]
  have hmem : ∀ z, z ∈ first :: rest.map Prod.snd ↔
      z = y ∨ z ∈ (Fork.subtrees ⟨pos, left, right⟩) := by
    intro z
    rw [← Fork.mem_children_fill, ← Fork.children_fill, hline]
  refine ⟨⟨pos, left, right⟩, y, rfl, hfill, ⟨?_, ?_, ?_, ?_, ?_⟩, ?_, ?_⟩
  · rw [← hnode]
    exact hcell
  · rw [hnode] at hfits
    exact hfits
  · exact fun z hz => hchildren z ((hmem z).mpr (.inr hz))
  · exact fun z hz => hfulls z ((hmem z).mpr (.inr hz))
  · rw [← Fork.full_fill, hfill]
    exact hfull
  · exact hchildren y ((hmem y).mpr (.inl rfl))
  · exact hfulls y ((hmem y).mpr (.inl rfl))

/-! ## Ways -/

/-- The forks on a way through a tree, the deepest in front. -/
abbrev Way := List Fork

namespace Way

/-- The way as a search tells it. -/
def steps (w : Way) : List Step := w.map Fork.step

/-- The entries in front of the subtree that the way leads to. -/
def front : Way → List Entry
  | [] => []
  | f :: w => front w ++ f.front

/-- The entries behind it. -/
def back : Way → List Entry
  | [] => []
  | f :: w => f.back ++ back w

/-- All blocks of the tree but those of the subtree. -/
def blocks (w : Way) : List BlockPos := w.flatMap Fork.blocks

def regrow : Way → Subtree → Subtree
  | [], x => x
  | f :: w, x => regrow w (f.fill x)

/-- A way from the root of a board to the block `pos`, `depth` levels above the leaves. -/
def Leads (l : Layout) (c : Board) : Nat → Way → BlockPos → Prop
  | _, [], pos => c.pointers.root = pos
  | depth, f :: w, pos => f.OnBoard l c.cells depth pos ∧ Leads l c (depth + 1) w f.pos

variable {l : Layout} {c d : Board} {depth : Nat} {f : Fork} {v w : Way} {x : Subtree} {pos : BlockPos}

@[simp]
theorem steps_nil : steps [] = [] := rfl

@[simp]
theorem steps_cons : steps (f :: w) = f.step :: steps w := rfl

@[simp]
theorem front_nil : front [] = [] := rfl

@[simp]
theorem front_cons : front (f :: w) = front w ++ f.front := rfl

@[simp]
theorem back_nil : back [] = [] := rfl

@[simp]
theorem back_cons : back (f :: w) = f.back ++ back w := rfl

@[simp]
theorem blocks_nil : blocks [] = [] := rfl

@[simp]
theorem blocks_cons : blocks (f :: w) = f.blocks ++ blocks w := rfl

theorem front_append (v w : Way) : front (v ++ w) = front w ++ front v := by
  induction v with
  | nil => simp
  | cons f v ih => simp [ih]

theorem back_append (v w : Way) : back (v ++ w) = back v ++ back w := by
  induction v with
  | nil => simp
  | cons f v ih => simp [ih]

theorem back_eq_nil (h : ∀ f ∈ w, f.right = []) : back w = [] := by
  induction w with
  | nil => rfl
  | cons f w ih =>
    obtain ⟨hf, hw⟩ := List.forall_mem_cons.mp h
    simp [Fork.back, hf, ih hw]

theorem regrow_append (v w : Way) (x : Subtree) : regrow (v ++ w) x = regrow w (regrow v x) := by
  induction v generalizing x with
  | nil => rfl
  | cons f v ih => exact ih (f.fill x)

@[simp]
theorem entries_regrow (w : Way) (x : Subtree) :
    (regrow w x).entries = front w ++ (x.entries ++ back w) := by
  induction w generalizing x with
  | nil => simp [regrow]
  | cons f w ih => simp [regrow, ih]

/-- A fork and the subtree in it have the blocks of the subtree that they make up. -/
theorem blocks_fill : (blocks (f :: w) ++ x.blocks).Perm (blocks w ++ (f.fill x).blocks) := by
  refine List.perm_iff_count.mpr fun p => ?_
  simp [Fork.blocks_fill.count_eq]
  omega

theorem blocks_regrow (w : Way) (x : Subtree) : (regrow w x).blocks.Perm (blocks w ++ x.blocks) := by
  induction w generalizing x with
  | nil => exact .refl _
  | cons f w ih => exact (ih (f.fill x)).trans blocks_fill.symm

theorem Leads.congr (h : Leads l c depth w pos) (hroot : d.pointers.root = c.pointers.root)
    (hcells : ∀ p ∈ blocks w, d.cells p = c.cells p) : Leads l d depth w pos := by
  induction w generalizing depth pos with
  | nil => exact hroot.trans h
  | cons f w ih =>
    rw [blocks_cons] at hcells
    refine ⟨h.1.congr fun p hp => ?_, ih h.2 fun p hp => ?_⟩
    · exact hcells p (List.mem_append_left _ hp)
    · exact hcells p (List.mem_append_right _ hp)

/-- The deepest forks of a way with a subtree at its end are a subtree again. -/
theorem Leads.regrow_append (h : Leads l c depth (v ++ w) x.pos) (hx : x.OnBoard l c.cells depth)
    (hfull : x.Full) : (regrow v x).OnBoard l c.cells (depth + v.length) ∧ (regrow v x).Full ∧
      Leads l c (depth + v.length) w (regrow v x).pos := by
  induction v generalizing depth x with
  | nil => exact ⟨hx, hfull, h⟩
  | cons f v ih =>
    obtain ⟨honBoard, hfill⟩ := h.1.fill hx hfull
    rw [List.length_cons, ← Nat.add_assoc, Nat.add_right_comm]
    exact ih h.2 honBoard hfill

/-- A way with a subtree at its end is a tree again. -/
theorem Leads.regrow (h : Leads l c depth w x.pos) (hx : x.OnBoard l c.cells depth)
    (hfull : x.Full) : (regrow w x).OnBoard l c.cells (depth + w.length) ∧ (regrow w x).Full ∧
      c.pointers.root = (regrow w x).pos :=
  Leads.regrow_append (w := []) (by rwa [List.append_nil]) hx hfull

/-- A subtree is as many levels above the leaves as the forks around it leave for it. -/
theorem Leads.depth_eq {whole : Subtree} {depth' : Nat} (h : Leads l c depth w x.pos)
    (hx : x.OnBoard l c.cells depth) (hfull : x.Full) (hwhole : Way.regrow w x = whole)
    (honBoard : whole.OnBoard l c.cells depth') : depth + w.length = depth' := by
  have hgrown := (h.regrow hx hfull).1
  rw [hwhole] at hgrown
  exact hgrown.depth_eq honBoard rfl

end Way

end PagedIndex
