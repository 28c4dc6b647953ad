import Mathlib.Logic.Relation
import PagedIndex.Proofs.Session.NotAbandoned
import PagedIndex.Proofs.Tree.Locate
import PagedIndex.Proofs.Tree.Routes
import PagedIndex.Proofs.Tree.KeepsLength

/-!
# Deletions in trees without cycles

A deletion goes back up the way that the search came down, and reads the branches on it once more.
In the meantime it has changed blocks: the leaf, the brothers that were merged, and the branches
further down. As long as none of these is a branch further up, the indexes on the way are still
good. That is so if no block that can be come to along links leads back to itself, whether blocks
are shared or of the wrong kind or not.

## Main definitions

* `Board.Way` — a way down from the root with the children that were taken.
* `Board.Acyclic` — no block below the root leads back to itself.
* `Board.Ready` — a way back up on which blocks can be merged.

## Main statements

* `Board.Way.ready` — where there are no cycles, a way down is one back up.
* `Tree.notAbandoned_locate` — a search ends at an entry, with the way to it.
* `Tree.notAbandoned_collapse` — blocks are merged on the way up.
* `Tree.notAbandoned_delete` — deletions.
-/

namespace PagedIndex

/-! ## Ways down and back up -/

namespace Board

variable {c c' : Board} {pos p q : BlockPos} {path outer : List Step} {step s : Step} {b : Branch}

/-- Whether a block links to another one. -/
def Leads (c : Board) (p q : BlockPos) : Prop := q ∈ c.links p

/-- No block that can be come to from the root leads back to itself. -/
def Acyclic (c : Board) : Prop :=
  ∀ p, Relation.ReflTransGen c.Leads c.pointers.root p → ¬Relation.TransGen c.Leads p p

/-- A way down from the root to a block, the deepest step in front: each step is a branch and the
index of the child that was taken. -/
def Way (c : Board) : List Step → BlockPos → Prop
  | [], pos => pos = c.pointers.root
  | step :: outer, pos => (∃ b, c.cells step.block = some (.node (.branch b)) ∧
      b.child? step.index = some pos) ∧ c.Way outer step.block

/-- A way back up: the branch of each step has a child of its index, and no branch further up is
changed where the block below is merged with a brother. -/
def Ready (c : Board) : List Step → BlockPos → Prop
  | [], _ => True
  | step :: outer, pos => (∃ b, c.cells step.block = some (.node (.branch b)) ∧
      step.index < b.children.length ∧ ∀ s ∈ outer, s.block ∉ pos :: step.block :: b.children) ∧
      c.Ready outer step.block

/-- A way that ends at a separator: the step in front has its block and its index. -/
def Stop (c : Board) : List Step → Prop
  | [] => False
  | step :: outer => (∃ b, c.cells step.block = some (.node (.branch b)) ∧
      step.index < b.separators.length) ∧ c.Way outer step.block

/-- A place where an entry is, with the way to it. -/
inductive Place (c : Board) (d : Descent) : Prop
  | leaf {es : List Entry} (hkind : d.onBranch = false)
      (hes : c.cells d.block = some (.node (.leaf es))) (hindex : d.index < es.length)
      (hway : c.Way d.path d.block)
  | branch {outer : List Step} (hkind : d.onBranch = true)
      (hpath : d.path = ⟨d.block, d.index⟩ :: outer) (hstop : c.Stop d.path)

theorem leads_of_branch (hb : c.cells p = some (.node (.branch b))) (hq : q ∈ b.children) :
    c.Leads p q := by
  simpa [Leads, links, hb, Node.links] using hq

namespace Way

/-- The block is below all branches on its way. -/
theorem below (h : c.Way path pos) (hs : s ∈ path) : Relation.TransGen c.Leads s.block pos := by
  induction path generalizing pos with
  | nil => simp at hs
  | cons step outer ih =>
    obtain ⟨⟨b, hb, hchild⟩, houter⟩ := h
    have hlast : c.Leads step.block pos := leads_of_branch hb (b.mem_children_of_child? hchild)
    rcases List.mem_cons.mp hs with rfl | hs
    · exact .single hlast
    · exact (ih houter hs).tail hlast

theorem reached (h : c.Way path pos) : Relation.ReflTransGen c.Leads c.pointers.root pos := by
  induction path generalizing pos with
  | nil => exact h ▸ .refl
  | cons step outer ih =>
    obtain ⟨⟨b, hb, hchild⟩, houter⟩ := h
    exact (ih houter).tail (leads_of_branch hb (b.mem_children_of_child? hchild))

theorem reached_step (h : c.Way path pos) (hs : s ∈ path) :
    Relation.ReflTransGen c.Leads c.pointers.root s.block := by
  induction path generalizing pos with
  | nil => simp at hs
  | cons step outer ih =>
    rcases List.mem_cons.mp hs with rfl | hs
    · exact h.2.reached
    · exact ih h.2 hs

/-- Without cycles the block is none of the branches on its way. -/
theorem ne_block (h : c.Way path pos) (hacyclic : c.Acyclic) (hs : s ∈ path) : s.block ≠ pos := by
  rintro rfl
  exact hacyclic _ h.reached (h.below hs)

/-- Without cycles blocks can be merged all the way up. -/
theorem ready (h : c.Way path pos) (hacyclic : c.Acyclic) : c.Ready path pos := by
  induction path generalizing pos with
  | nil => trivial
  | cons step outer ih =>
    have hne := fun s hs => h.ne_block hacyclic (s := s) hs
    obtain ⟨⟨b, hb, hchild⟩, houter⟩ := h
    have hindex : step.index < b.children.length := (List.getElem?_eq_some_iff.mp hchild).1
    refine ⟨⟨b, hb, hindex, fun s hs hmem => ?_⟩, ih houter⟩
    have hcycle : s.block ∉ b.children := fun hmem =>
      hacyclic _ (houter.reached_step hs) ((houter.below hs).tail (leads_of_branch hb hmem))
    simp only [List.mem_cons] at hmem
    rcases hmem with hmem | hmem | hmem
    · exact hne s (List.mem_cons_of_mem _ hs) hmem
    · exact houter.ne_block hacyclic hs hmem
    · exact hcycle hmem

end Way

/-- Branches whose separators have changed can still be gone back through. -/
theorem Ready.congr (h : c.Ready path pos) (hsame : ∀ s ∈ path, ∀ b,
    c.cells s.block = some (.node (.branch b)) → ∃ b',
      c'.cells s.block = some (.node (.branch b')) ∧ b'.children = b.children) : c'.Ready path pos := by
  induction path generalizing pos with
  | nil => trivial
  | cons step outer ih =>
    obtain ⟨⟨b, hb, hindex, hapart⟩, houter⟩ := h
    obtain ⟨b', hb', hchildren⟩ := hsame step List.mem_cons_self b hb
    rw [← hchildren] at hindex hapart
    exact ⟨⟨b', hb', hindex, hapart⟩, ih houter fun s hs => hsame s (List.mem_cons_of_mem _ hs)⟩

end Board

/-! ## Single blocks -/

def View.board (v : View) (l : Layout) : Board := .read l v.blocks v.pointers

theorem View.cells_board_congr {v w : View} {l : Layout} {p : BlockPos}
    (h : w.blocks p = v.blocks p) : (w.board l).cells p = (v.board l).cells p := by
  simp [board, Board.read, h]

namespace Program

variable {α β : Type} {l : Layout} {role : Role} {pos : BlockPos} {n : Node} {v : View}
  {R : β → View → Prop}

/-- A tree block is read. -/
theorem notAbandoned_loadNode_bind {f : Node → Program β}
    (hf : ∀ n, (v.board l).cells pos = some (.node n) →
      (f n).NotAbandoned l.blockSize R (v.hold role pos)) :
    (loadNode l role pos >>= f).NotAbandoned l.blockSize R v := by
  unfold loadNode
  by_cases hnull : pos = .null
  · subst hnull
    exact fun h => by cases h
  · rw [BlockPos.isNull_eq_false hnull]
    refine ⟨rfl, fun q x hheld hx _ => ?_⟩
    obtain rfl : pos = q := by simpa [View.hold] using hheld
    show Program.NotAbandoned l.blockSize R (ofExcept (Node.decode l pos x) >>= f) (v.hold role pos)
    cases hdecode : Node.decode l pos x with
    | error e => exact InRange.error_iff.mp (hdecode ▸ Node.inRange_decode)
    | ok n =>
      exact hf n (Board.cells_read_eq_some_iff.mpr ⟨hnull, x, hx, Cell.read?_eq_node_iff.mpr hdecode⟩)

theorem notAbandoned_loadLeaf_bind {f : List Entry → Program β}
    (hf : ∀ es, (v.board l).cells pos = some (.node (.leaf es)) →
      (f es).NotAbandoned l.blockSize R (v.hold role pos)) :
    (loadLeaf l role pos >>= f).NotAbandoned l.blockSize R v := by
  unfold loadLeaf
  rw [bind_bind]
  refine notAbandoned_loadNode_bind fun n hn => ?_
  cases n with
  | leaf es => exact hf es hn
  | branch b => exact fun h => by cases h

theorem notAbandoned_loadBranch_bind {f : Branch → Program β}
    (hf : ∀ b, (v.board l).cells pos = some (.node (.branch b)) →
      (f b).NotAbandoned l.blockSize R (v.hold role pos)) :
    (loadBranch l role pos >>= f).NotAbandoned l.blockSize R v := by
  unfold loadBranch
  rw [bind_bind]
  refine notAbandoned_loadNode_bind fun n hn => ?_
  cases n with
  | leaf es => exact fun h => by cases h
  | branch b => exact hf b hn

/-- Keys as long as keys are. -/
abbrev Keyed (l : Layout) (es : List Entry) : Prop := ∀ e ∈ es, e.key.length = l.keyLength

/-- A node is written whose keys have key length, and all other blocks stay as they are. -/
theorem notAbandoned_storeNode (hn : Keyed l n.entries) :
    (storeNode l role pos n).NotAbandoned l.blockSize
    (fun _ w => (∃ x, n.encode l l.blockSize = .ok x ∧ w.blocks pos = some x) ∧
      ∀ q, q ≠ pos → w.blocks q = v.blocks q) v := by
  refine ⟨rfl, fun q x hheld hx hlength => ?_⟩
  obtain rfl : pos = q := by simpa [View.hold] using hheld
  refine ⟨fun he => Edit.inRange_replace (Node.inRange_encode _ hn) he, fun hok => ?_⟩
  unfold Edit.replace at hok ⊢
  rw [hlength] at hok ⊢
  dsimp only at hok ⊢
  cases hencode : n.encode l l.blockSize with
  | error e => simp [hencode] at hok
  | ok new =>
    exact ⟨⟨new, rfl, by simp [View.put]⟩, fun q hq => by simp [View.put, View.hold, hq]⟩

/-- A block is given back, and all other blocks stay as they are. -/
theorem notAbandoned_free (hl : l.Workable) : (free l role pos).NotAbandoned l.blockSize
    (fun _ w => ∀ q, q ≠ pos → w.blocks q = v.blocks q) v := by
  rw [free_eq]
  split
  · exact fun h => by cases h
  · refine ⟨rfl, fun q x hheld hx hlength => ?_⟩
    obtain rfl : pos = q := by simpa [View.hold] using hheld
    have hroom := hl.room
    exact ⟨fun he => Deleted.inRange_stamp (by omega) _ he,
      fun _ q hq => by simp [View.put, View.hold, hq]⟩

end Program

/-! ## Entries of brothers and branches -/

namespace Branch

open Program (Keyed)

variable {l : Layout} {b : Branch} {index : Nat} {e removed : Entry} {child : BlockPos}

theorem keyed_eraseIdx (h : Keyed l b.entries) :
    Keyed l (entries { b with separators := b.separators.eraseIdx index }) :=
  List.forall_mem_map.mpr fun _ hs => h _ (List.mem_map_of_mem (List.mem_of_mem_eraseIdx hs))

/-- Another separator in front of the same child. -/
theorem children_set (h : b.separators[index]? = some (removed, child)) :
    children { b with separators := b.separators.set index (e, child) } = b.children := by
  obtain ⟨hindex, heq⟩ := List.getElem?_eq_some_iff.mp h
  have hlength : index < (b.separators.map Prod.snd).length := by simpa using hindex
  have hchild : (b.separators.map Prod.snd)[index] = child := by simp [heq]
  rw [children, children, List.map_set, ← hchild, List.set_getElem_self]

end Branch

namespace Node

variable {left right n left' right' : Node} {e e' a : Entry}

/-- A node that brothers are merged to has their entries and the separator. -/
theorem mem_entries_of_merge (h : merge left e right = .ok n) (ha : a ∈ n.entries) :
    a ∈ left.entries ∨ a = e ∨ a ∈ right.entries := by
  rw [(entries_of_merge h).2] at ha
  simpa using ha

/-- So have brothers one of which gives an entry to the other, with the new separator. -/
theorem mem_entries_of_rotate (h : rotate left e right = some (left', e', right'))
    (ha : a ∈ left'.entries ∨ a = e' ∨ a ∈ right'.entries) :
    a ∈ left.entries ∨ a = e ∨ a ∈ right.entries := by
  obtain ⟨-, -, ⟨-, hnew, hgave⟩ | ⟨hgave, -, hnew⟩⟩ := entries_of_rotate h
  · simp only [hnew, hgave, List.mem_cons] at ha ⊢
    tauto
  · simp only [hnew, hgave, List.mem_singleton, List.mem_append] at ha ⊢
    tauto

end Node

namespace Tree

open Program

variable {t : Tree} {pos : BlockPos} {path outer : List Step} {step : Step} {n : Node} {b : Branch}
  {v : View} {levels index : Nat} {target : Entry} {exact : Bool} {trail : Trail}

/-! ## Merging -/

/-- A pair of brothers below a branch, one of which may stand at `pos`. -/
structure Pair (l : Layout) (b : Branch) (pos : BlockPos) (pair : Brothers) : Prop where
  index : pair.index < b.separators.length
  left : pair.leftPos ∈ pos :: b.children
  right : pair.rightPos ∈ pos :: b.children
  leftKeys : Keyed l pair.left.entries
  rightKeys : Keyed l pair.right.entries

/-- All keys of the pair and of the separator between them have key length. -/
theorem Pair.keyed {l : Layout} {pair : Brothers} {separator : Entry} {child : BlockPos}
    (h : Pair l b pos pair) (hb : Keyed l b.entries)
    (hseparator : b.separators[pair.index]? = some (separator, child)) :
    ∀ a, a ∈ pair.left.entries ∨ a = separator ∨ a ∈ pair.right.entries →
      a.key.length = l.keyLength := by
  rintro a (ha | rfl | ha)
  · exact h.leftKeys a ha
  · exact hb _ (List.mem_map_of_mem (f := Prod.fst) (List.mem_of_getElem? hseparator))
  · exact h.rightKeys a ha

section Workable

variable (hl : t.layout.Workable)
include hl

/-- A brother is found next to a child. -/
theorem notAbandoned_brothers (hn : Keyed t.layout n.entries)
    (hindex : step.index < b.children.length) :
    (t.brothers step b pos n).NotAbandoned t.layout.blockSize
      (fun pair w => Pair t.layout b pos pair ∧ w.blocks = v.blocks) v := by
  have hlength : b.children.length = b.separators.length + 1 := by simp [Branch.children]
  unfold brothers
  split
  · next old right hright =>
    have hchild : right ∈ b.children := List.mem_cons_of_mem _
      (List.mem_map_of_mem (f := Prod.snd) (List.mem_of_getElem? hright))
    exact notAbandoned_loadNode_bind fun m hm => ⟨⟨(List.getElem?_eq_some_iff.mp hright).1,
      List.mem_cons_self, List.mem_cons_of_mem _ hchild, hn,
      Board.length_key_of_cells_read hl.blockSize_pos hm⟩, rfl⟩
  · next hnone =>
    have hlast := List.getElem?_eq_none_iff.mp hnone
    split
    · exact fun h => by cases h
    · split
      · exact fun h => by cases h
      · next left hleft =>
        have hchild := b.mem_children_of_child? hleft
        refine notAbandoned_loadNode_bind fun m hm => ⟨⟨?_, List.mem_cons_of_mem _ hchild,
          List.mem_cons_self, Board.length_key_of_cells_read hl.blockSize_pos hm, hn⟩, rfl⟩
        dsimp only
        omega

omit hl in
/-- Brothers of different levels are refused as such. -/
theorem merge_ne_outOfRange {left right : Node} {separator : Entry} {e : Error}
    (h : Node.merge left separator right = .error e) : e ≠ .outOfRange := by
  unfold Node.merge at h
  split at h <;> cases h
  simp

/-- Blocks are merged on the way up. -/
theorem notAbandoned_collapse (hn : Keyed t.layout n.entries) (h : (v.board t.layout).Ready path pos) :
    (t.collapse path pos n).NotAbandoned t.layout.blockSize (fun _ _ => True) v := by
  induction path generalizing pos n v with
  | nil =>
    unfold collapse shrinkRoot
    split
    · exact (notAbandoned_free hl).bind fun _ w _ => trivial
    · trivial
  | cons step outer ih =>
    obtain ⟨⟨b, hb, hindex, hapart⟩, houter⟩ := h
    have hkeys := Board.length_key_of_cells_read hl.blockSize_pos hb
    refine notAbandoned_loadBranch_bind fun b' hb' => ?_
    obtain rfl : b = b' := by simpa [hb] using hb'
    refine (notAbandoned_brothers hl hn hindex).bind ?_
    rintro pair w ⟨hpair, hw⟩
    split
    · next hnone =>
      have := List.getElem?_eq_none_iff.mp hnone
      exact absurd hpair.index (by omega)
    · next separator child hseparator =>
      have hpairKeys := hpair.keyed hkeys hseparator
      cases hmerge : Node.merge pair.left separator pair.right with
      | error e => exact merge_ne_outOfRange hmerge
      | ok merged =>
        show Program.NotAbandoned t.layout.blockSize _ (if merged.fits t.layout then _ else _) w
        split
        · have hrest : Keyed t.layout
              (Node.branch { b with separators := b.separators.eraseIdx pair.index }).entries :=
            Branch.keyed_eraseIdx hkeys
          refine (notAbandoned_storeNode fun a ha =>
            hpairKeys a (Node.mem_entries_of_merge hmerge ha)).bind
            fun _ w₁ h₁ => (notAbandoned_free hl).bind fun _ w₂ h₂ =>
              (notAbandoned_storeNode hrest).bind
              fun _ w₃ h₃ => ih hrest (houter.congr fun s hs b' hb' => ?_)
          -- the branches further up are none of the blocks that were changed
          have hfar : ∀ q ∈ pos :: b.children, s.block ≠ q := by
            rintro q hq rfl
            exact hapart s hs (List.mem_cons.mpr ((List.mem_cons.mp hq).imp_right
              (List.mem_cons_of_mem _)))
          have hstep : s.block ≠ step.block := fun h => hapart s hs (by simp [h])
          have hblocks : w₃.blocks s.block = v.blocks s.block := by
            rw [h₃.2 _ hstep, h₂ _ (hfar _ hpair.right), h₁.2 _ (hfar _ hpair.left), hw]
            rfl
          exact ⟨b', (View.cells_board_congr hblocks).trans hb', rfl⟩
        · split
          · trivial
          · next left e right hrotate =>
            have hall := fun a ha => hpairKeys a (Node.mem_entries_of_rotate hrotate ha)
            have hparent : Keyed t.layout (Node.branch { b with
                separators := b.separators.set pair.index (e, child) }).entries :=
              Branch.keyed_set hkeys (hall e (.inr (.inl rfl)))
            refine (notAbandoned_storeNode fun a ha => hall a (.inl ha)).bind fun _ w₁ _ =>
              (notAbandoned_storeNode fun a ha => hall a (.inr (.inr ha))).bind fun _ w₂ _ =>
                (notAbandoned_storeNode hparent).mono fun _ _ _ => trivial

/-! ## Searches -/

omit hl in
/-- What a scan finds is there. -/
theorem index_lt_of_found {es : List Entry} (h : (t.scan target exact es).found = true) :
    (t.scan target exact es).index < es.length := by
  obtain ⟨front, back, hes, hs⟩ := exists_splits t target exact es
  obtain ⟨e, rest, rfl, -⟩ := hs.found h
  rw [hs.index, hes, List.length_append, List.length_cons]
  omega

/-- The end of a search in a leaf. -/
theorem notAbandoned_endInLeaf {es : List Entry} (hway : (v.board t.layout).Way trail.path pos)
    (hes : (v.board t.layout).cells pos = some (.node (.leaf es)))
    (hfallback : trail.fallback = [] ∨ (v.board t.layout).Stop trail.fallback) :
    (t.endInLeaf trail pos (t.scan target exact es) es.length).NotAbandoned t.layout.blockSize
      (fun d w => w.board t.layout = v.board t.layout ∧
        (d.state = .onKey → (v.board t.layout).Place d)) v := by
  unfold endInLeaf
  dsimp only
  split
  · next step outer _ heq =>
    rw [heq] at hfallback
    exact ⟨rfl, fun _ => .branch rfl rfl (hfallback.resolve_left (by simp))⟩
  · split
    · next hstate =>
      exact ⟨rfl, fun _ => .leaf rfl hes (index_lt_of_found (state_eq_onKey hstate)) hway⟩
    · next hstate => exact ⟨rfl, fun h => by cases hstate.symm.trans h⟩
    · next hstate =>
      split
      · exact ⟨rfl, fun h => by cases hstate.symm.trans h⟩
      · exact ⟨rfl, fun h => by cases h⟩
    · next hstate =>
      split
      · exact ⟨rfl, fun h => by cases hstate.symm.trans h⟩
      · refine (notAbandoned_of_reader (walks_successor (Descent.in_true _)).reader
          (keepsLength_successor hl)).bind fun d w ⟨_, hblocks, hpointers⟩ => ?_
        exact ⟨by rw [View.board, View.board, hblocks, hpointers], fun h => by cases h⟩

/-- A search goes down along links. -/
theorem notAbandoned_descend (hway : (v.board t.layout).Way trail.path pos)
    (hfallback : trail.fallback = [] ∨ (v.board t.layout).Stop trail.fallback) :
    (t.descend target exact levels trail pos).NotAbandoned t.layout.blockSize
      (fun d w => w.board t.layout = v.board t.layout ∧
        (d.state = .onKey → (v.board t.layout).Place d)) v := by
  induction levels generalizing trail pos v with
  | zero =>
    unfold descend
    refine notAbandoned_loadNode_bind fun n hn => ?_
    cases n with
    | leaf es => exact notAbandoned_endInLeaf (v := v.hold .current pos) hl hway hn hfallback
    | branch b => exact fun h => by cases h
  | succ levels ih =>
    unfold descend
    refine notAbandoned_loadNode_bind fun n hn => ?_
    cases n with
    | leaf es => exact notAbandoned_endInLeaf (v := v.hold .current pos) hl hway hn hfallback
    | branch b =>
      have hstop : (t.scan target exact b.entries).found = true → (v.board t.layout).Stop
          (⟨pos, (t.scan target exact b.entries).index⟩ :: trail.path) := fun hfound =>
        ⟨⟨b, hn, by simpa [Branch.entries] using index_lt_of_found hfound⟩, hway⟩
      dsimp only
      split
      · next hhit =>
        simp only [Bool.and_eq_true] at hhit
        exact ⟨rfl, fun _ => .branch rfl rfl (hstop hhit.1)⟩
      · split
        · next child hchild =>
          refine ih (v := v.hold .current pos) ⟨⟨b, hn, hchild⟩, hway⟩ ?_
          dsimp only
          split
          · next hfound => exact .inr (hstop hfound)
          · exact hfallback
        · exact fun h => by cases h

/-- A search that finds an entry knows the way to it. -/
theorem notAbandoned_locate : (t.locate target exact).NotAbandoned t.layout.blockSize
    (fun d w => w.board t.layout = v.board t.layout ∧
      (d.state = .onKey → (v.board t.layout).Place d)) v := by
  show Program.NotAbandoned t.layout.blockSize _ (if v.pointers.root.isNull then _ else _) v
  split
  · exact ⟨rfl, fun h => by cases h⟩
  · exact notAbandoned_descend hl rfl (.inl rfl)

omit hl in
/-- The way goes on to the first leaf. -/
theorem notAbandoned_firstLeaf (hway : (v.board t.layout).Way path pos) :
    (t.firstLeaf levels path pos).NotAbandoned t.layout.blockSize
      (fun r w => w.board t.layout = v.board t.layout ∧ (v.board t.layout).Way r.1 r.2.1 ∧
        (v.board t.layout).cells r.2.1 = some (.node (.leaf r.2.2))) v := by
  induction levels generalizing path pos v with
  | zero =>
    unfold firstLeaf
    refine notAbandoned_loadNode_bind fun n hn => ?_
    cases n with
    | leaf es => exact ⟨rfl, hway, hn⟩
    | branch b => exact fun h => by cases h
  | succ levels ih =>
    unfold firstLeaf
    refine notAbandoned_loadNode_bind fun n hn => ?_
    cases n with
    | leaf es => exact ⟨rfl, hway, hn⟩
    | branch b => exact ih (v := v.hold .current pos) ⟨⟨b, hn, rfl⟩, hway⟩

/-! ## Deletions -/

omit hl in
/-- No key of a separator reads as the end of a block. -/
theorem heads_of_cells (hkey : 1 ≤ t.layout.keyLength)
    (hb : (v.board t.layout).cells pos = some (.node (.branch b))) :
    ∀ s ∈ b.separators, s.1.key.head? ≠ some t.layout.endMark := by
  obtain ⟨-, x, -, hx⟩ := Board.cells_read_eq_some_iff.mp hb
  obtain ⟨es, heq, -⟩ | ⟨b', heq, hdecode⟩ := Node.cases_decode (Cell.read?_eq_node_iff.mp hx)
  · cases heq
  · cases heq
    exact Branch.head_of_decode hkey hdecode

omit hl in
/-- Nor does the first key of a leaf. -/
theorem head_of_cells (hkey : 1 ≤ t.layout.keyLength) {e : Entry} {rest : List Entry}
    (hes : (v.board t.layout).cells pos = some (.node (.leaf (e :: rest)))) :
    e.key.head? ≠ some t.layout.endMark := by
  obtain ⟨-, x, -, hx⟩ := Board.cells_read_eq_some_iff.mp hes
  obtain ⟨es, heq, hdecode⟩ | ⟨b, heq, -⟩ := Node.cases_decode (Cell.read?_eq_node_iff.mp hx)
  · cases heq
    exact Leaf.head_of_decode hkey hdecode
  · cases heq

omit hl in
/-- A branch that was written is read back. -/
theorem cells_of_encode {x : Bytes} (hkey : 1 ≤ t.layout.keyLength) (hpos : pos ≠ .null)
    (hheads : ∀ s ∈ b.separators, s.1.key.head? ≠ some t.layout.endMark)
    (h : (Node.branch b).encode t.layout t.layout.blockSize = .ok x) (hx : v.blocks pos = some x) :
    (v.board t.layout).cells pos = some (.node (.branch b)) := by
  refine Board.cells_read_eq_some_iff.mpr ⟨hpos, x, hx, Cell.read?_eq_node_iff.mpr ?_⟩
  have htag := (Node.front_of_encode h).1
  have hdecode := Branch.decode_of_encode hkey hheads h
  simp [Node.decode, htag, Node.kind, BlockKind.ofTag?_tag, hdecode, Except.map]

/-- A separator is deleted. -/
theorem notAbandoned_deleteSeparator (hstop : (v.board t.layout).Stop (⟨pos, index⟩ :: outer))
    (hacyclic : (v.board t.layout).Acyclic) :
    (t.deleteSeparator (⟨pos, index⟩ :: outer) pos index).NotAbandoned t.layout.blockSize
      (fun _ _ => True) v := by
  have hkey := hl.roomy.1
  obtain ⟨⟨b, hb, hindex⟩, hway⟩ := hstop
  have hkeys := Board.length_key_of_cells_read hl.blockSize_pos hb
  unfold deleteSeparator
  refine notAbandoned_loadBranch_bind fun b' hb' => ?_
  obtain rfl : b = b' := by simpa [hb] using hb'
  split
  · exact fun h => by cases h
  · next removed right hseparator =>
    have hchild : b.child? (index + 1) = some right := by
      simp [Branch.child?, Branch.children, hseparator]
    have hright : (v.board t.layout).Way (⟨pos, index + 1⟩ :: outer) right := ⟨⟨b, hb, hchild⟩, hway⟩
    refine (notAbandoned_firstLeaf (v := v.hold .parent pos) hright).bind ?_
    rintro ⟨path, leafPos, entries⟩ w ⟨hw, hlong, hes⟩
    dsimp only at hlong hes ⊢
    cases entries with
    | nil => exact fun h => by cases h
    | cons e rest =>
      have hentries := List.forall_mem_cons.mp (Board.length_key_of_cells_read hl.blockSize_pos hes)
      have hready := hlong.ready hacyclic
      have hnew : Keyed t.layout
          (Node.branch { b with separators := b.separators.set index (e, right) }).entries :=
        Branch.keyed_set hkeys hentries.1
      have hrest : Keyed t.layout (Node.leaf rest).entries := hentries.2
      refine (notAbandoned_storeNode hnew).bind fun _ w₁ h₁ =>
        (notAbandoned_storeNode hrest).bind fun _ w₂ h₂ =>
          (notAbandoned_collapse hl hrest (hready.congr fun s hs b' hb' => ?_)).bind fun _ _ _ =>
            trivial
      obtain ⟨⟨x, hx, hwritten⟩, h₁⟩ := h₁
      replace h₂ := h₂.2
      have hleaf : s.block ≠ leafPos := by
        rintro rfl
        simp_all
      by_cases hpos : s.block = pos
      · rw [hpos] at hb' hleaf ⊢
        obtain rfl : b = b' := by
          cases hb.symm.trans hb'
          rfl
        have hnull := (Board.cells_read_eq_some_iff.mp hb).1
        -- the branch has another separator, and the same children
        refine ⟨_, cells_of_encode hkey hnull (fun s hs => ?_) hx ((h₂ _ hleaf).trans hwritten),
          Branch.children_set hseparator⟩
        rcases List.mem_or_eq_of_mem_set hs with hs | rfl
        · exact heads_of_cells hkey hb s hs
        · exact head_of_cells hkey hes
      · have hblocks : w₂.blocks s.block = w.blocks s.block := (h₂ _ hleaf).trans (h₁ _ hpos)
        exact ⟨b', (View.cells_board_congr hblocks).trans (hw ▸ hb'), rfl⟩

/-- An entry of a leaf is deleted. -/
theorem notAbandoned_deleteInLeaf {es : List Entry} (hway : (v.board t.layout).Way path pos)
    (hes : (v.board t.layout).cells pos = some (.node (.leaf es))) (hindex : index < es.length)
    (hacyclic : (v.board t.layout).Acyclic) :
    (t.deleteInLeaf path pos index).NotAbandoned t.layout.blockSize (fun _ _ => True) v := by
  have hkeys := Board.length_key_of_cells_read hl.blockSize_pos hes
  unfold deleteInLeaf
  refine notAbandoned_loadLeaf_bind fun es' hes' => ?_
  obtain rfl : es = es' := by simpa [hes] using hes'
  split
  · show Program.NotAbandoned _ _ (free t.layout .current pos >>= fun _ => _) _
    exact (notAbandoned_free hl).bind fun _ _ _ => trivial
  · split
    · next hnone =>
      have := List.getElem?_eq_none_iff.mp hnone
      omega
    · have hrest : Keyed t.layout (Node.leaf (es.eraseIdx index)).entries := fun a ha =>
        hkeys a (List.mem_of_mem_eraseIdx ha)
      refine (notAbandoned_storeNode hrest).bind fun _ w ⟨_, hw⟩ =>
        (notAbandoned_collapse hl hrest ((hway.ready hacyclic).congr fun s hs b hb => ?_)).bind
          fun _ _ _ => trivial
      have hne : s.block ≠ pos := by
        rintro rfl
        simp_all
      exact ⟨b, (View.cells_board_congr (hw _ hne)).trans hb, rfl⟩

/-- Where no block below the root leads back to itself, a deletion is not abandoned. -/
theorem notAbandoned_delete (hacyclic : (v.board t.layout).Acyclic) :
    (t.delete target exact).NotAbandoned t.layout.blockSize (fun _ _ => True) v := by
  refine (notAbandoned_locate hl).bind fun d w ⟨hw, hplace⟩ => ?_
  rw [← hw] at hacyclic hplace
  split
  · trivial
  · next hstate =>
    cases hplace (by simpa using hstate) with
    | leaf hkind hes hindex hway =>
      rw [if_neg (by simp [hkind])]
      exact (notAbandoned_deleteInLeaf hl hway hes hindex hacyclic).bind fun _ _ _ => trivial
    | branch hkind hpath hstop =>
      rw [if_pos hkind]
      rw [hpath] at hstop ⊢
      exact (notAbandoned_deleteSeparator hl hstop hacyclic).bind fun _ _ _ => trivial

end Workable

end Tree

end PagedIndex
