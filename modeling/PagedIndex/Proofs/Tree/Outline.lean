import Mathlib.Algebra.Ring.Nat
import PagedIndex.Proofs.Tree.Contents
import PagedIndex.Tree.Survey

/-!
# Outlines

An outline tells a tree with all that is in it. What can be told of a tree is told of its outline,
one block after the other: its entries, its blocks, how deep its leaves lie.

## Main definitions

* `Outline.fold` — what comes of a tree, block by block.
* `Outline.entries`, `Outline.blocks`, `Outline.leafDepths`, `Outline.branches` — what is in a tree.
* `Outline.OnBoard` — an outline whose blocks are those of a board.

## Main statements

* `Outline.OnBoard.reads` — the tree that stands is drawn.
* `Outline.OnBoard.subtree` — it can be searched.
-/

namespace PagedIndex

/-- Parts with separators between them. -/
def weave {α : Type} : List α → List (List α) → List α
  | _, [] => []
  | [], part :: parts => part ++ weave [] parts
  | s :: separators, part :: parts => part ++ s :: weave separators parts

theorem weave_cons {α : Type} {separators : List α} {parts : List (List α)}
    (h : separators.length = parts.length) (part : List α) : weave separators (part :: parts) =
      part ++ (separators.zip parts).flatMap fun s => [s.1] ++ s.2 := by
  induction separators generalizing part parts with
  | nil =>
    obtain rfl := List.length_eq_zero_iff.mp h.symm
    rfl
  | cons s separators ih =>
    cases parts with
    | nil => cases h
    | cons next parts =>
      rw [weave, ih (Nat.succ.inj h)]
      rfl

theorem mem_weave {α : Type} {a : α} {separators : List α} {parts : List (List α)}
    (h : a ∈ weave separators parts) : a ∈ separators ∨ ∃ part ∈ parts, a ∈ part := by
  fun_induction weave separators parts with
  | case1 => cases h
  | case2 part parts ih =>
    rcases List.mem_append.mp h with h | h
    · exact .inr ⟨part, List.mem_cons_self, h⟩
    · exact (ih h).imp_right fun ⟨part, hpart, ha⟩ => ⟨part, List.mem_cons_of_mem _ hpart, ha⟩
  | case3 s separators part parts ih =>
    rcases List.mem_append.mp h with h | h
    · exact .inr ⟨part, List.mem_cons_self, h⟩
    · rcases List.mem_cons.mp h with rfl | h
      · exact .inl List.mem_cons_self
      · exact (ih h).imp (List.mem_cons_of_mem _)
          fun ⟨part, hpart, ha⟩ => ⟨part, List.mem_cons_of_mem _ hpart, ha⟩

namespace Outline

/-! ## What is in a tree -/

section Fold

variable {α : Type} (onLeaf : BlockPos → List Entry → α)
  (onBranch : BlockPos → List Entry → List α → α)

mutual

/-- What comes of a tree, from what comes of a leaf, and of a branch when it is known what comes of
its children. -/
def fold : Outline → α
  | leaf pos es => onLeaf pos es
  | branch pos es children => onBranch pos es (foldAll children)

def foldAll : List Outline → List α
  | [] => []
  | o :: rest => o.fold :: foldAll rest

end

theorem foldAll_eq_map (os : List Outline) :
    foldAll onLeaf onBranch os = os.map (fold onLeaf onBranch) := by
  induction os with
  | nil => rfl
  | cons o rest ih => rw [foldAll, ih, List.map_cons]

end Fold

def pos : Outline → BlockPos
  | leaf pos _ => pos
  | branch pos _ _ => pos

def entries : Outline → List Entry := fold (fun _ es => es) fun _ => weave

def blocks : Outline → List BlockPos :=
  fold (fun pos _ => [pos]) fun pos _ parts => pos :: parts.flatten

def leafDepths : Outline → List Nat :=
  fold (fun _ _ => [1]) fun _ _ parts => parts.flatten.map (· + 1)

def branches : Outline → Nat := fold (fun _ _ => 0) fun _ _ parts => parts.sum + 1

def subtree : Outline → Subtree :=
  fold Subtree.leaf fun pos es parts =>
    match parts with
    | [] => .leaf pos es
    | first :: rest => .branch pos first (es.zip rest)

variable {pos : BlockPos} {es : List Entry} {os : List Outline}

@[simp]
theorem entries_leaf : (leaf pos es).entries = es := rfl

@[simp]
theorem entries_branch : (branch pos es os).entries = weave es (os.map entries) := by
  rw [entries, fold, foldAll_eq_map]

@[simp]
theorem blocks_leaf : (leaf pos es).blocks = [pos] := rfl

@[simp]
theorem blocks_branch : (branch pos es os).blocks = pos :: os.flatMap blocks := by
  rw [blocks, fold, foldAll_eq_map]
  rfl

@[simp]
theorem leafDepths_leaf : (leaf pos es).leafDepths = [1] := rfl

@[simp]
theorem leafDepths_branch : (branch pos es os).leafDepths = (os.flatMap leafDepths).map (· + 1) := by
  rw [leafDepths, fold, foldAll_eq_map]
  rfl

@[simp]
theorem branches_leaf : (leaf pos es).branches = 0 := rfl

@[simp]
theorem branches_branch : (branch pos es os).branches = (os.map branches).sum + 1 := by
  rw [branches, fold, foldAll_eq_map]

@[simp]
theorem subtree_branch {o : Outline} : (branch pos es (o :: os)).subtree =
    .branch pos o.subtree (es.zip (os.map subtree)) := by
  rw [subtree, fold, foldAll_eq_map]
  rfl

/-! ## Trees of a board -/

/-- A tree whose blocks are those of a board, with leaves `depth` levels below the first block. All
blocks hold entries. -/
inductive OnBoard (cells : BlockPos → Option Cell) : Nat → Outline → Prop
  | leaf {pos : BlockPos} {es : List Entry} (hcell : cells pos = some (.node (.leaf es)))
      (hfull : es ≠ []) : OnBoard cells 0 (.leaf pos es)
  | branch {depth : Nat} {pos : BlockPos} {es : List Entry} {b : Branch} {os : List Outline}
      (hcell : cells pos = some (.node (.branch b))) (hes : es = b.entries) (hfull : es ≠ [])
      (hpos : os.map Outline.pos = b.children) (hos : ∀ o ∈ os, OnBoard cells depth o) :
      OnBoard cells (depth + 1) (.branch pos es os)

variable {l : Layout} {t : Tree} {cells : BlockPos → Option Cell} {depth levels : Nat} {o : Outline}
  {blocks : BlockPos → Option Bytes} {p : Pointers}

theorem OnBoard.leafDepths (h : o.OnBoard cells depth) : ∀ n ∈ o.leafDepths, n = depth + 1 := by
  induction h with
  | leaf => exact fun n hn => List.mem_singleton.mp hn
  | branch _ _ _ _ _ ih =>
    rw [leafDepths_branch]
    intro n hn
    obtain ⟨m, hm, rfl⟩ := List.mem_map.mp hn
    obtain ⟨o, ho, hm⟩ := List.mem_flatMap.mp hm
    exact congrArg (· + 1) (ih o ho m hm)

/-- Every entry is in one of the blocks. -/
theorem OnBoard.exists_node {e : Entry} (h : o.OnBoard cells depth) (he : e ∈ o.entries) :
    ∃ pos n, cells pos = some (.node n) ∧ e ∈ n.entries := by
  induction h with
  | leaf hcell => exact ⟨_, _, hcell, he⟩
  | branch hcell hes _ _ _ ih =>
    rw [entries_branch] at he
    rcases mem_weave he with he | ⟨part, hpart, he⟩
    · rw [hes] at he
      exact ⟨_, _, hcell, he⟩
    · obtain ⟨o, ho, rfl⟩ := List.mem_map.mp hpart
      exact ih o ho he

/-- The tree can be searched. -/
theorem OnBoard.subtree (h : o.OnBoard cells depth)
    (hfits : ∀ pos n, cells pos = some (.node n) → n.fits l) : o.subtree.pos = o.pos ∧ o.subtree.Full ∧
      o.subtree.OnBoard l cells depth ∧ o.subtree.entries = o.entries ∧
        o.subtree.blocks = o.blocks := by
  induction h with
  | leaf hcell hfull =>
    exact ⟨rfl, Subtree.full_leaf.mpr hfull, .leaf hcell (hfits _ _ hcell), rfl, rfl⟩
  | @branch depth pos es b os hcell hes hfull hpos hos ih =>
    obtain ⟨o, rest, rfl, hfirst, hrest⟩ := List.map_eq_cons_iff.mp hpos
    have hentries : es = b.separators.map Prod.fst := hes
    have hlength : es.length = rest.length := by
      have hlength := congrArg List.length hrest
      rw [hentries]
      simpa using hlength.symm
    have hzip : es.length = (rest.map Outline.subtree).length := by simpa using hlength
    have hmem : ∀ y ∈ o.subtree :: (es.zip (rest.map Outline.subtree)).map Prod.snd,
        ∃ o' ∈ o :: rest, y = o'.subtree := by
      rw [List.map_snd_zip (Nat.le_of_eq hzip.symm), ← List.map_cons]
      exact fun y hy => (List.mem_map.mp hy).imp fun _ h => ⟨h.1, h.2.symm⟩
    have hnode : (Subtree.branch pos o.subtree (es.zip (rest.map Outline.subtree))).node =
      .branch b := by
      have hlinks : (rest.map Outline.subtree).map Subtree.pos = b.separators.map Prod.snd := by
        rw [← hrest, List.map_map]
        exact List.map_congr_left fun o' ho' => (ih o' (List.mem_cons_of_mem _ ho')).1
      have hseparators : (es.zip (rest.map Outline.subtree)).map (fun s => (s.1, s.2.pos)) =
          b.separators := by
        have hmap : (es.zip (rest.map Outline.subtree)).map (fun s => (s.1, s.2.pos)) =
            es.zip ((rest.map Outline.subtree).map Subtree.pos) := List.zip_map_right.symm
        rw [hmap, hlinks, hentries, ← List.unzip_fst, ← List.unzip_snd, List.zip_unzip]
      show Node.branch ⟨o.subtree.pos, _⟩ = _
      rw [hseparators, (ih o List.mem_cons_self).1, hfirst]
    rw [subtree_branch]
    refine ⟨rfl, ?_, .branch ?_ ?_ ?_ ?_, ?_, ?_⟩
    · rw [Subtree.Full, hnode]
      have : b.entries ≠ [] := hes ▸ hfull
      simpa [Node.isEmpty, Node.entries] using this
    · rw [hnode]
      exact hcell
    · rw [hnode]
      exact hfits _ _ hcell
    · intro y hy
      obtain ⟨o', ho', rfl⟩ := hmem y hy
      exact (ih o' ho').2.2.1
    · intro y hy
      obtain ⟨o', ho', rfl⟩ := hmem y hy
      exact (ih o' ho').2.1
    · have hparts : rest.map Outline.entries = (rest.map Outline.subtree).map Subtree.entries := by
        rw [List.map_map]
        exact List.map_congr_left fun o' ho' => (ih o' (List.mem_cons_of_mem _ ho')).2.2.2.1.symm
      have hmap : es.zip ((rest.map Outline.subtree).map Subtree.entries) =
          (es.zip (rest.map Outline.subtree)).map (Prod.map id Subtree.entries) := List.zip_map_right
      rw [entries_branch, List.map_cons, weave_cons (by simpa using hlength), hparts, hmap,
        List.flatMap_map, ← (ih o List.mem_cons_self).2.2.2.1]
      rfl
    · have hparts : (o :: rest).map (fun o' => o'.subtree.blocks) = (o :: rest).map Outline.blocks :=
        List.map_congr_left fun o' ho' => (ih o' ho').2.2.2.2
      show pos :: (o.subtree :: (es.zip (rest.map Outline.subtree)).map Prod.snd).flatMap
        Subtree.blocks = _
      rw [List.map_snd_zip (Nat.le_of_eq hzip.symm), ← List.map_cons, List.flatMap_map,
        blocks_branch, List.flatMap_def, hparts]
      rfl

/-! ## Drawing -/

theorem reads_outlineAll {visit : BlockPos → Program Outline}
    (h : ∀ o ∈ os, (visit o.pos).Reads blocks p (.ok o)) :
    (Tree.outlineAll visit (os.map Outline.pos)).Reads blocks p (.ok os) := by
  induction os with
  | nil => exact .done
  | cons o rest ih =>
    refine (h o List.mem_cons_self).bind ?_
    exact (ih fun o' ho' => h o' (List.mem_cons_of_mem _ ho')).bind .done

/-- A tree that stands is drawn. -/
theorem OnBoard.reads (h : o.OnBoard (Board.read t.layout blocks p).cells depth)
    (hlevels : depth < levels) : (t.outlineNode levels o.pos).Reads blocks p (.ok o) := by
  induction h generalizing levels with
  | leaf hcell =>
    obtain ⟨levels, rfl⟩ := Nat.exists_eq_add_one_of_ne_zero (Nat.ne_of_gt hlevels)
    exact (Program.reads_loadNode_iff.mpr hcell).bind .done
  | @branch depth pos es b os hcell hes _ hpos _ ih =>
    obtain ⟨levels, rfl⟩ := Nat.exists_eq_add_one_of_ne_zero (Nat.ne_of_gt (Nat.zero_lt_of_lt hlevels))
    refine (Program.reads_loadNode_iff.mpr hcell).bind ?_
    have hall : (Tree.outlineAll (t.outlineNode levels) (os.map Outline.pos)).Reads blocks p (.ok os) :=
      reads_outlineAll fun o ho => ih o ho (Nat.lt_of_succ_lt_succ hlevels)
    rw [hpos] at hall
    rw [hes]
    exact hall.bind .done

end Outline

end PagedIndex
