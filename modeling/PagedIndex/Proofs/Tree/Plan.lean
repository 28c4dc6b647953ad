import PagedIndex.Proofs.Order
import PagedIndex.Proofs.Tree.Ledger
import PagedIndex.Proofs.Tree.Subtree
import PagedIndex.Tree.Basic

/-!
# Plans

A plan tells the tree of a file and the blocks that are not in it. Subtrees are read and written
here as whole blocks; what is written has to make a subtree stand.

## Main definitions

* `Plan`, `Plan.Holds` — the tree and the chains of a file, and that they are those of a board.

## Main statements

* `Way.Leads.holds` — a way with a subtree at its end is the tree of a plan.
* `Ledger.acts_storeSubtree` — the block of a subtree is written.
-/

namespace PagedIndex

/-- The tree and the chains of a file. -/
structure Plan where
  /-- Levels of the tree, 0 if it is empty. -/
  levels : Nat
  tree : Option Subtree
  free : List BlockPos
  slots : List (BlockPos × List Nat)

namespace Plan

def entries (p : Plan) : List Entry := p.tree.elim [] Subtree.entries

def blocks (p : Plan) : List BlockPos := p.tree.elim [] Subtree.blocks

def records (p : Plan) : List Nat := p.slots.flatMap Prod.snd

def freeLists (p : Plan) : FreeLists := p.slots.map Prod.snd

/-- Where the last block of the file starts. -/
def mark (l : Layout) (p : Plan) : Nat :=
  l.blockSize * (p.blocks.length + (p.free.length + p.slots.length))

theorem flatten_freeLists (p : Plan) : p.freeLists.flatten = p.records := rfl

/-- A board is as planned: the blocks of the tree stand below the root, the others are on their
chains, and all entries can be written. -/
structure Holds (l : Layout) (c : Board) (p : Plan) : Prop where
  tree : match p.tree with
    | none => p.levels = 0 ∧ c.pointers.root = .null
    | some x => ∃ depth, p.levels = depth + 1 ∧ x.OnBoard l c.cells depth ∧ x.Full ∧
      c.pointers.root = x.pos
  ledger : Ledger l c p.blocks p.free p.slots
  storable : ∀ e ∈ p.entries, e.Storable l

theorem Holds.highWater_eq {l : Layout} {c : Board} {p : Plan} (h : p.Holds l c) (hl : l.Workable) :
    c.pointers.highWater = ⟨p.mark l⟩ := by
  unfold mark
  rw [h.ledger.length_eq hl, Nat.mul_div_cancel' h.ledger.aligned]

end Plan

variable {l : Layout} {c d : Board} {depth : Nat} {x : Subtree} {w : Way} {pos : BlockPos} {cell : Cell}
  {used free : List BlockPos} {slots : List (BlockPos × List Nat)} {role : Role}

/-! ## Subtrees on a board that changes -/

theorem Subtree.OnBoard.put (h : x.OnBoard l c.cells depth) (hpos : pos ∉ x.blocks) :
    x.OnBoard l (c.put pos cell).cells depth :=
  h.congr fun _ hp => Board.cells_put_ne (ne_of_mem_of_not_mem hp hpos)

theorem Way.Leads.put {q : BlockPos} (h : Way.Leads l c depth w q) (hpos : pos ∉ Way.blocks w) :
    Way.Leads l (c.put pos cell) depth w q :=
  h.congr rfl fun _ hp => Board.cells_put_ne (ne_of_mem_of_not_mem hp hpos)

theorem Ledger.Taken.onBoard {free' : List BlockPos} (h : Taken l c used free slots pos free' d)
    (hx : x.OnBoard l c.cells depth) (hpos : pos ∉ x.blocks) : x.OnBoard l d.cells depth :=
  hx.congr fun p hp => h.cells p (ne_of_mem_of_not_mem hp hpos)

theorem Ledger.Taken.leads {free' : List BlockPos} {q : BlockPos}
    (h : Taken l c used free slots pos free' d) (hw : Way.Leads l c depth w q)
    (hpos : pos ∉ Way.blocks w) : Way.Leads l d depth w q :=
  hw.congr h.root fun p hp => h.cells p (ne_of_mem_of_not_mem hp hpos)

/-- A branch over subtrees stands by writing its block. -/
theorem Subtree.onBoard_put_branch {first : Subtree} {rest : List (Entry × Subtree)}
    (hfits : (Subtree.branch pos first rest).node.fits l)
    (hchildren : ∀ y ∈ first :: rest.map Prod.snd, y.OnBoard l c.cells depth ∧ y.Full)
    (hpos : pos ∉ (first :: rest.map Prod.snd).flatMap Subtree.blocks) :
    (Subtree.branch pos first rest).OnBoard l
      (c.put pos (.node (Subtree.branch pos first rest).node)).cells (depth + 1) :=
  .branch Board.cells_put_self hfits
    (fun y hy => (hchildren y hy).1.put fun hp => hpos (List.mem_flatMap.mpr ⟨y, hy, hp⟩))
    fun y hy => (hchildren y hy).2

/-- So does a fork. -/
theorem Fork.onBoard_put {f : Fork} (hfits : (f.branch pos).fits l)
    (hsubtrees : ∀ y ∈ f.subtrees, y.OnBoard l c.cells depth ∧ y.Full) (hforked : f.subtrees ≠ [])
    (hpos : f.pos ∉ f.subtrees.flatMap Subtree.blocks) :
    f.OnBoard l (c.put f.pos (.node (.branch (f.branch pos)))).cells depth pos :=
  ⟨Board.cells_put_self, hfits,
    fun y hy => (hsubtrees y hy).1.put fun hp => hpos (List.mem_flatMap.mpr ⟨y, hy, hp⟩),
    fun y hy => (hsubtrees y hy).2, hforked⟩

/-- A fork with a subtree put in stands by writing its block, also if it has no other subtrees. -/
theorem Fork.onBoard_fill_put {f : Fork} (hfits : (f.branch x.pos).fits l)
    (hsubtrees : ∀ y ∈ f.subtrees, y.OnBoard l c.cells depth ∧ y.Full) (hx : x.OnBoard l c.cells depth)
    (hfull : x.Full) (hpos : f.pos ∉ f.subtrees.flatMap Subtree.blocks) (hposx : f.pos ∉ x.blocks) :
    (f.fill x).OnBoard l (c.put f.pos (.node (.branch (f.branch x.pos)))).cells (depth + 1) := by
  rw [← Fork.node_fill]
  refine Subtree.onBoard_put_branch ?_ ?_ ?_
  · show (f.fill x).node.fits l
    rw [Fork.node_fill]
    exact hfits
  · rw [Fork.children_fill]
    intro y hy
    rcases Fork.mem_children_fill.mp hy with rfl | hy
    · exact ⟨hx, hfull⟩
    · exact hsubtrees y hy
  · rw [Fork.children_fill]
    intro hmem
    obtain ⟨y, hy, hp⟩ := List.mem_flatMap.mp hmem
    rcases Fork.mem_children_fill.mp hy with rfl | hy
    · exact hposx hp
    · exact hpos (List.mem_flatMap.mpr ⟨y, hy, hp⟩)

/-- A way with a subtree at its end is the tree of a plan. -/
theorem Way.Leads.holds (h : Way.Leads l c depth w x.pos) (hx : x.OnBoard l c.cells depth)
    (hfull : x.Full) (hledger : Ledger l c (Way.blocks w ++ x.blocks) free slots)
    (hstorable : ∀ e ∈ Way.front w ++ (x.entries ++ Way.back w), e.Storable l) :
    Plan.Holds l c ⟨depth + w.length + 1, some (Way.regrow w x), free, slots⟩ := by
  obtain ⟨honBoard, hfull', hroot⟩ := h.regrow hx hfull
  refine ⟨⟨_, rfl, honBoard, hfull', hroot⟩, hledger.perm (Way.blocks_regrow w x).symm, ?_⟩
  show ∀ e ∈ (Way.regrow w x).entries, e.Storable l
  rw [Way.entries_regrow]
  exact hstorable

/-! ## Reading and writing subtrees -/

/-- The block of a subtree can be written if all its entries and links can. -/
theorem Subtree.OnBoard.storable {cells : BlockPos → Option Cell} (h : x.OnBoard l cells depth)
    (hblocks : ∀ p ∈ x.blocks, p.offset ≤ l.maxRecord) (hentries : ∀ e ∈ x.entries, e.Storable l) :
    x.node.Storable l := by
  cases h with
  | leaf => exact hentries
  | @branch _ _ first rest _ _ hchildren =>
    have hlink : ∀ y ∈ first :: rest.map Prod.snd, y.pos.offset ≤ l.maxRecord := fun y hy =>
      hblocks _ (List.mem_cons_of_mem _ (List.mem_flatMap.mpr ⟨y, hy, (hchildren y hy).pos_mem⟩))
    refine ⟨hlink _ List.mem_cons_self, fun s hs => ?_⟩
    obtain ⟨a, ha, rfl⟩ := List.mem_map.mp hs
    refine ⟨hentries a.1 ?_, hlink a.2 (List.mem_cons_of_mem _ (List.mem_map_of_mem ha))⟩
    refine List.mem_append_right _ (List.mem_flatMap.mpr ⟨a, ha, ?_⟩)
    exact List.mem_append_left _ (List.mem_singleton_self _)

/-- The block of a subtree is written. -/
theorem Ledger.acts_storeSubtree {cells : BlockPos → Option Cell} (h : Ledger l c used free slots)
    (hl : l.Workable) (hrole : role ≠ .header) (hx : x.OnBoard l cells depth)
    (hblocks : ∀ p ∈ x.blocks, p ∈ used) (hentries : ∀ e ∈ x.entries, e.Storable l) :
    Program.Acts l (Program.storeNode l role x.pos x.node) c fun r d =>
      r = .ok () ∧ d = c.put x.pos (.node x.node) := by
  obtain ⟨cell, hcell⟩ := h.exists_cell (hblocks _ hx.pos_mem)
  refine Program.acts_storeNode hrole hcell hl.roomy.1 (hx.storable (fun p hp => ?_) hentries)
    hx.fits
  exact h.offset_le (List.mem_append_left _ (hblocks p hp))

/-- The subtree at the end of a way is written. -/
theorem Way.Leads.acts_storeSubtree (h : Way.Leads l c depth w x.pos) (hl : l.Workable)
    (hrole : role ≠ .header) (hx : x.OnBoard l (c.put x.pos (.node x.node)).cells depth)
    (hledger : Ledger l c (Way.blocks w ++ x.blocks) free slots)
    (hstorable : ∀ e ∈ Way.front w ++ (x.entries ++ Way.back w), e.Storable l) :
    Program.Acts l (Program.storeNode l role x.pos x.node) c fun r d =>
      r = .ok () ∧ d = c.put x.pos (.node x.node) ∧ Way.Leads l d depth w x.pos ∧
        x.OnBoard l d.cells depth ∧ Ledger l d (Way.blocks w ++ x.blocks) free slots := by
  have hmem : x.pos ∈ Way.blocks w ++ x.blocks := List.mem_append_right _ hx.pos_mem
  have hnot : x.pos ∉ Way.blocks w := fun hp =>
    (List.nodup_append.mp hledger.nodup_used).2.2 _ hp _ hx.pos_mem rfl
  refine (hledger.acts_storeSubtree hl hrole hx (fun p hp => List.mem_append_right _ hp)
    fun e he => hstorable e ?_).mono ?_
  · exact List.mem_append_right _ (List.mem_append_left _ he)
  · rintro r d ⟨hr, rfl⟩
    exact ⟨hr, rfl, h.put hnot, hx, hledger.put hmem _⟩

/-- So is the fork above a subtree. -/
theorem Way.Leads.acts_storeFork {f : Fork} (hw : Way.Leads l c (depth + 1) w f.pos)
    (hl : l.Workable) (hrole : role ≠ .header)
    (hsubtrees : ∀ y ∈ f.subtrees, y.OnBoard l c.cells depth ∧ y.Full) (hforked : f.subtrees ≠ [])
    (hfits : (f.branch x.pos).fits l) (hx : x.OnBoard l c.cells depth) (hfull : x.Full)
    (hledger : Ledger l c (Way.blocks (f :: w) ++ x.blocks) free slots)
    (hstorable : ∀ e ∈ Way.front (f :: w) ++ (x.entries ++ Way.back (f :: w)), e.Storable l) :
    Program.Acts l (Program.storeNode l role f.pos (.branch (f.branch x.pos))) c fun r d =>
      r = .ok () ∧ d = c.put f.pos (.node (.branch (f.branch x.pos))) ∧
        Way.Leads l d depth (f :: w) x.pos ∧ x.OnBoard l d.cells depth ∧
        Ledger l d (Way.blocks (f :: w) ++ x.blocks) free slots := by
  have hnot := (List.nodup_cons.mp hledger.nodup_used).1
  have hf := Fork.onBoard_put hfits hsubtrees hforked fun hp =>
    hnot (List.mem_append_left _ (List.mem_append_left _ hp))
  have hx' : x.OnBoard l (c.put f.pos (.node (.branch (f.branch x.pos)))).cells depth :=
    hx.put fun hp => hnot (List.mem_append_right _ hp)
  have hfill := (hf.fill hx' hfull).1
  rw [← Fork.node_fill] at hfill
  have hstore := Way.Leads.acts_storeSubtree (x := f.fill x) hw hl hrole hfill
    (hledger.perm Way.blocks_fill)
    (by simpa using hstorable)
  rw [Fork.node_fill] at hstore
  refine hstore.mono ?_
  rintro r d ⟨hr, rfl, hw', -, hledger'⟩
  exact ⟨hr, rfl, ⟨hf, hw'⟩, hx', hledger'.perm Way.blocks_fill.symm⟩

section Brothers

variable {β : Type} {g : Fork} {a b : Subtree} {e : Entry} {left : List (Subtree × Entry)}
  {right : List (Entry × Subtree)} {k : Unit → Program β} {R : Except Error β → Board → Prop}

/-- Two brothers are written, and the separator between them. -/
theorem Way.Leads.acts_storeBrothers {role' : Role} (hw : Way.Leads l c (depth + 1) w pos)
    (hl : l.Workable) (hrole : role ≠ .header) (hrole' : role' ≠ .header)
    (hsubtrees : ∀ y ∈ left.map Prod.fst ++ right.map Prod.snd, y.OnBoard l c.cells depth ∧ y.Full)
    (ha : a.OnBoard l ((c.put a.pos (.node a.node)).put b.pos (.node b.node)).cells depth)
    (hb : b.OnBoard l ((c.put a.pos (.node a.node)).put b.pos (.node b.node)).cells depth)
    (hafull : a.Full) (hbfull : b.Full) (hg : g = ⟨pos, left, (e, b) :: right⟩)
    (hfits : (g.branch a.pos).fits l)
    (hledger : Ledger l c (Way.blocks (g :: w) ++ a.blocks) free slots)
    (hstorable : ∀ e ∈ Way.front (g :: w) ++ (a.entries ++ Way.back (g :: w)), e.Storable l)
    (hk : ∀ d, Way.Leads l d depth (g :: w) a.pos → a.OnBoard l d.cells depth →
      Ledger l d (Way.blocks (g :: w) ++ a.blocks) free slots → Program.Acts l (k ()) d R) :
    Program.Acts l (do
      Program.storeNode l role a.pos a.node
      Program.storeNode l role' b.pos b.node
      Program.storeNode l .parent pos (.branch (g.branch a.pos))
      k ()) c R := by
  subst hg
  have hperm : (Way.blocks (⟨pos, left, (e, b) :: right⟩ :: w) ++ a.blocks).Perm
      (pos :: ((left.map Prod.fst ++ right.map Prod.snd).flatMap Subtree.blocks ++
        (Way.blocks w ++ (a.blocks ++ b.blocks)))) := by
    refine List.perm_iff_count.mpr fun p => ?_
    simp [Fork.blocks, Fork.subtrees, List.count_cons]
    omega
  obtain ⟨hpos, hnodup⟩ := List.nodup_cons.mp (hledger.nodup_used.perm hperm)
  simp only [List.nodup_append] at hnodup
  have hapos := ha.pos_mem
  have hbpos := hb.pos_mem
  have hastays : ∀ p ∈ (left.map Prod.fst ++ right.map Prod.snd).flatMap Subtree.blocks ++
      Way.blocks w, p ≠ a.pos ∧ p ≠ b.pos := by
    grind
  have hmove : ∀ p ∈ (left.map Prod.fst ++ right.map Prod.snd).flatMap Subtree.blocks ++
      Way.blocks w, ((c.put a.pos (.node a.node)).put b.pos (.node b.node)).cells p = c.cells p :=
    fun p hp => (Board.cells_put_ne (hastays p hp).2).trans (Board.cells_put_ne (hastays p hp).1)
  have hbused : ∀ p ∈ b.blocks, p ∈ Way.blocks (⟨pos, left, (e, b) :: right⟩ :: w) ++ a.blocks := by
    intro p hp
    refine hperm.mem_iff.mpr (List.mem_cons_of_mem _ ?_)
    simp [hp]
  have hb' : ∀ x ∈ b.entries, x.Storable l := by
    refine fun x hx => hstorable x ?_
    simp [Fork.back, hx]
  have hsubtrees' : ∀ y ∈ Fork.subtrees ⟨pos, left, (e, b) :: right⟩, y.OnBoard l
      ((c.put a.pos (.node a.node)).put b.pos (.node b.node)).cells depth ∧ y.Full := by
    intro y hy
    have hmem : y = b ∨ y ∈ left.map Prod.fst ++ right.map Prod.snd := by
      simp only [Fork.subtrees, List.map_cons] at hy
      grind
    rcases hmem with rfl | hy
    · exact ⟨hb, hbfull⟩
    · refine ⟨(hsubtrees y hy).1.congr fun p hp => hmove p ?_, (hsubtrees y hy).2⟩
      exact List.mem_append_left _ (List.mem_flatMap.mpr ⟨y, hy, hp⟩)
  have hledger' := hledger.put (List.mem_append_right _ hapos) (.node a.node)
  refine (hledger.acts_storeSubtree hl hrole ha (fun p hp => List.mem_append_right _ hp)
    fun x hx => hstorable x (by simp [hx])).bind_ok ?_
  refine (hledger'.acts_storeSubtree hl hrole' hb hbused hb').bind_ok ?_
  have hw' := hw.congr (d := (c.put a.pos (.node a.node)).put b.pos (.node b.node)) rfl
    fun p hp => hmove p (List.mem_append_right _ hp)
  refine (Way.Leads.acts_storeFork (f := ⟨pos, left, (e, b) :: right⟩) hw' hl Role.parent_ne
    hsubtrees' (by simp [Fork.subtrees]) hfits ha hafull (hledger'.put (hbused _ hbpos) _)
    hstorable).bind (fun e d h => by cases h.1) ?_
  rintro ⟨⟩ d ⟨-, -, hw, ha, hledger⟩
  exact hk d hw ha hledger

end Brothers

theorem Subtree.OnBoard.acts_node {t : Tree} (h : x.OnBoard t.layout c.cells depth)
    (hrole : role ≠ .header) :
    Program.Acts t.layout (t.node role x.pos) c fun r d => r = .ok x.node ∧ d = c :=
  Program.acts_loadNode hrole h.cell

theorem Tree.acts_leaf {t : Tree} {es : List Entry} (hrole : role ≠ .header)
    (hcell : c.cells pos = some (.node (.leaf es))) :
    Program.Acts t.layout (t.leaf role pos) c fun r d => r = .ok es ∧ d = c :=
  (Program.acts_loadNode hrole hcell).bind_ok (Program.acts_pure ⟨rfl, rfl⟩)

theorem Tree.acts_branch {t : Tree} {b : Branch} (hrole : role ≠ .header)
    (hcell : c.cells pos = some (.node (.branch b))) :
    Program.Acts t.layout (t.branch role pos) c fun r d => r = .ok b ∧ d = c :=
  (Program.acts_loadNode hrole hcell).bind_ok (Program.acts_pure ⟨rfl, rfl⟩)

/-- The leaf at the end of a way gets other entries. -/
theorem Way.Leads.acts_putLeaf {t : Tree} {es : List Entry} (h : Way.Leads t.layout c 0 w pos)
    (hl : t.layout.Workable) (hrole : role ≠ .header) (hfits : Leaf.fits t.layout es)
    (hledger : Ledger t.layout c (Way.blocks w ++ [pos]) free slots)
    (hstorable : ∀ e ∈ Way.front w ++ (es ++ Way.back w), e.Storable t.layout) :
    Program.Acts t.layout (t.putLeaf role pos es) c fun r d =>
      r = .ok () ∧ d = c.put pos (.node (.leaf es)) ∧ Way.Leads t.layout d 0 w pos ∧
        (Subtree.leaf pos es).OnBoard t.layout d.cells 0 ∧
        Ledger t.layout d (Way.blocks w ++ [pos]) free slots :=
  Way.Leads.acts_storeSubtree (x := Subtree.leaf pos es) h hl hrole (.leaf Board.cells_put_self hfits)
    hledger hstorable

end PagedIndex
