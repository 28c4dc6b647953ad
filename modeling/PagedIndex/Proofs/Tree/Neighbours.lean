import PagedIndex.Proofs.Tree.Locate
import PagedIndex.Tree.Cursor

/-!
# The places next to a place

The entry behind a place is the next one of its leaf, or the first one below the child behind its
separator, or the deepest separator that the way to the leaf has not left behind. The entry in front
is found likewise. Searches and steps end at such places, whatever the height of the tree.

## Main definitions

* `Program.Gives` — a program that only looks, and cannot fail.
* `Descent.On` — a place at an entry.
* `Descent.AtFirst`, `Descent.AtLast` — a place at the first or the last of some entries.
* `Descent.Hits`, `Descent.Misses` — a place at an entry of a tree, or between two of them.

## Main statements

* `Tree.gives_leftmostLeaf`, `Tree.gives_rightmostLeaf` — the outermost leaves of a subtree.
* `Tree.SearchEnds.hits`, `Tree.SearchEnds.misses` — what is next to the place where a search ends.
-/

namespace PagedIndex

namespace Program

variable {α β : Type} {l : Layout} {c : Board} {role : Role} {pos : BlockPos}
  {program : Program α} {f : α → Program β} {P Q : α → Prop} {R : β → Prop}

/-- A program only looks at a board, and ends with a value of which `P` holds. -/
abbrev Gives (l : Layout) (program : Program α) (c : Board) (P : α → Prop) : Prop :=
  Acts l program c fun r d => d = c ∧ ∃ a, r = .ok a ∧ P a

theorem gives_pure {a : α} (h : P a) : Gives l (pure a) c P := acts_pure ⟨rfl, a, rfl, h⟩

theorem Gives.imp (h : Gives l program c P) (hPQ : ∀ a, P a → Q a) : Gives l program c Q := by
  refine Acts.mono h ?_
  rintro r d ⟨hd, a, hr, ha⟩
  exact ⟨hd, a, hr, hPQ a ha⟩

theorem Gives.andThen (h : Gives l program c P) (hf : ∀ a, P a → Gives l (f a) c R) :
    Gives l (program >>= f) c R := by
  refine Acts.bind h ?_ ?_
  · rintro e d ⟨-, a, hr, -⟩
    cases hr
  · rintro a d ⟨rfl, b, hr, ha⟩
    cases hr
    exact hf a ha

/-- A block is loaded and looked at. -/
theorem gives_loadBlock_bind {f : Bytes → Program β} {cell : Cell} (hrole : role ≠ .header)
    (hcell : c.cells pos = some cell)
    (hf : ∀ image, cell.Shown l pos image → Gives l (f image) c R) :
    Gives l (do loadBlock role pos; f (← image role)) c R := by
  intro v hv
  obtain ⟨image, hblock, -, hshown⟩ := hv.held pos cell hcell
  obtain ⟨r, w, d, hruns, hw, hR⟩ := hf image hshown _ (hv.hold role pos)
  exact ⟨r, w, d, .load hrole hblock (.view hrole (by simp [View.hold]) hblock hruns), hw, hR⟩

end Program

namespace Descent

/-- A place at an entry of a block. -/
inductive On (c : Board) (d : Descent) (e : Entry) : Prop
  | leaf {es : List Entry} (hbranch : d.onBranch = false)
      (hcell : c.cells d.block = some (.node (.leaf es))) (he : es[d.index]? = some e) : On c d e
  | branch {b : Branch} (hbranch : d.onBranch = true)
      (hcell : c.cells d.block = some (.node (.branch b))) (he : b.entries[d.index]? = some e) :
      On c d e

/-- A place at the first of some entries, or behind all others if there are none. -/
def AtFirst (c : Board) (d : Descent) (es : List Entry) : Prop :=
  match es.head? with
  | none => d.state = .afterLast
  | some e => d.state = .onKey ∧ d.On c e

/-- A place at the last of some entries, or in front of all others if there are none. -/
def AtLast (c : Board) (d : Descent) (es : List Entry) : Prop :=
  match es.getLast? with
  | none => d.state = .beforeFirst
  | some e => d.state = .onKey ∧ d.On c e

variable {c : Board} {d : Descent} {e : Entry} {es front back : List Entry}

theorem AtFirst.of_head? (hstate : d.state = .onKey) (he : d.On c e) (h : es.head? = some e) :
    d.AtFirst c es := by
  unfold AtFirst
  rw [h]
  exact ⟨hstate, he⟩

theorem AtLast.of_getLast? (hstate : d.state = .onKey) (he : d.On c e)
    (h : es.getLast? = some e) : d.AtLast c es := by
  unfold AtLast
  rw [h]
  exact ⟨hstate, he⟩

/-- A place at an entry of a tree, with the entries in front of it and behind it. -/
structure Hits (t : Tree) (c : Board) (d : Descent) (front : List Entry) (e : Entry)
    (back : List Entry) : Prop where
  state : d.state = .onKey
  on : d.On c e
  successor : Program.Gives t.layout (t.successor d) c fun d' => d'.AtFirst c back
  predecessor : Program.Gives t.layout (t.predecessor d) c fun d' => d'.AtLast c front

/-- A place in a tree between the entries in front of it and behind it. -/
structure Misses (t : Tree) (c : Board) (d : Descent) (front back : List Entry) : Prop where
  state : d.state ≠ .onKey
  first : d.state = .beforeFirst ↔ front = []
  last : d.state = .afterLast ↔ back = []
  block : (c.cells d.block).isSome
  behind : back ≠ [] → ({ d with state := .onKey } : Descent).AtFirst c back
  predecessor : Program.Gives t.layout (t.predecessor d) c fun d' => d'.AtLast c front

theorem On.isSome (h : d.On c e) : (c.cells d.block).isSome := by
  cases h with
  | leaf _ hcell _ => simp [hcell]
  | branch _ hcell _ => simp [hcell]

end Descent

namespace Fork

variable {l : Layout} {c : Board} {depth : Nat} {f : Fork} {pos : BlockPos} {d : Descent}

/-- The separator behind the child left out. -/
theorem OnBoard.on_right (h : f.OnBoard l c.cells depth pos) {s : Entry × Subtree}
    {right : List (Entry × Subtree)} (hright : f.right = s :: right) (hbranch : d.onBranch = true)
    (hblock : d.block = f.pos) (hindex : d.index = f.left.length) : d.On c s.1 := by
  refine .branch hbranch (hblock ▸ h.cell) ?_
  simp [hindex, hright]

/-- The separator in front of it. -/
theorem OnBoard.on_left (h : f.OnBoard l c.cells depth pos) {s : Subtree × Entry}
    {left : List (Subtree × Entry)} (hleft : f.left = left ++ [s]) (hbranch : d.onBranch = true)
    (hblock : d.block = f.pos) (hindex : d.index = f.left.length - 1) : d.On c s.2 := by
  refine .branch hbranch (hblock ▸ h.cell) ?_
  simp [hindex, hleft]

/-- The child behind the one left out. -/
theorem child?_succ {s : Entry × Subtree} {right : List (Entry × Subtree)} (h : f.right = s :: right) :
    (f.branch pos).child? (f.left.length + 1) = some s.2.pos := by
  simp [Branch.child?, h]

end Fork

namespace Way

variable {l : Layout} {c : Board} {depth : Nat} {f : Fork} {v w : Way} {pos : BlockPos} {d : Descent}

/-- Every fork of a way stands. -/
theorem Leads.onBoard (h : Leads l c depth (v ++ f :: w) pos) :
    ∃ depth' pos', f.OnBoard l c.cells depth' pos' := by
  induction v generalizing depth pos with
  | nil => exact ⟨depth, pos, h.1⟩
  | cons g v ih => exact ih h.2

/-- The separator that follows a leaf is the first entry behind the way. -/
theorem Continues.atFirst (h : w.Continues d) (hw : Leads l c depth w pos)
    (hstate : d.state = .onKey) : d.AtFirst c (back w) := by
  obtain ⟨inner, f, outer, s, right, rfl, hinner, hright, hbranch, hblock, hindex⟩ := h
  obtain ⟨depth', pos', hf⟩ := hw.onBoard
  refine .of_head? hstate (hf.on_right hright hbranch hblock hindex) ?_
  simp [back_append, back_eq_nil hinner, Fork.back, hright]

/-- The deepest fork with separators in front of the way has the last entry there. -/
theorem Leads.find_left (h : Leads l c depth w pos) :
    match w.steps.find? (·.index > 0) with
    | none => front w = []
    | some step => ∃ e, (front w).getLast? = some e ∧ ∀ d : Descent, d.onBranch = true →
        d.block = step.block → d.index = step.index - 1 → d.On c e := by
  induction w generalizing depth pos with
  | nil => rfl
  | cons f w ih =>
    obtain hleft | ⟨left, s, hleft⟩ := List.eq_nil_or_concat f.left
    · have hfront : f.front = [] := Fork.front_eq_nil_iff.mpr hleft
      simpa [Fork.step, hleft, hfront] using ih h.2
    · have hlast : (front (f :: w)).getLast? = some s.2 := by
        simp [Fork.front, hleft, List.getLast?_append]
      have hfind : (steps (f :: w)).find? (·.index > 0) = some f.step := by
        simp [Fork.step, hleft]
      rw [List.concat_eq_append] at hleft
      rw [hfind]
      exact ⟨s.2, hlast, fun d hbranch hblock hindex => h.1.on_left hleft hbranch hblock hindex⟩

end Way

namespace Tree

open Program

variable {t : Tree} {c : Board} {depth levels : Nat} {x y : Subtree} {f : Fork} {w : Way}
  {pos : BlockPos} {d : Descent} {e : Entry} {es front back : List Entry}

/-- The entry at a place. -/
theorem gives_entryAt (h : d.On c e) : Gives t.layout (t.entryAt d) c fun a => a = e := by
  unfold entryAt
  cases h with
  | leaf hbranch hcell he =>
    refine (acts_loadNode Role.current_ne hcell).bind_ok ?_
    simp only [hbranch, Bool.false_eq_true, if_false, he]
    exact gives_pure rfl
  | branch hbranch hcell he =>
    refine (acts_loadNode Role.current_ne hcell).bind_ok ?_
    simp only [hbranch, if_true, he]
    exact gives_pure rfl

/-! ## Outermost leaves -/

/-- The first leaf of a subtree begins with its first entry. -/
theorem gives_leftmostLeaf (h : x.OnBoard t.layout c.cells depth) (hfull : x.Full)
    (hdepth : depth < levels) :
    Gives t.layout (t.leftmostLeaf levels x.pos) c fun pos =>
      ∃ e, x.entries.head? = some e ∧ (placeInLeaf pos 0).On c e := by
  induction h generalizing levels with
  | @leaf pos es hcell _ =>
    obtain ⟨levels, rfl⟩ := Nat.exists_eq_succ_of_ne_zero (Nat.ne_zero_of_lt hdepth)
    obtain ⟨e, es, rfl⟩ := List.exists_cons_of_ne_nil (Subtree.full_leaf.mp hfull)
    unfold leftmostLeaf
    refine (acts_loadNode Role.current_ne hcell).bind_ok ?_
    exact gives_pure ⟨e, rfl, .leaf rfl hcell rfl⟩
  | @branch depth pos first rest hcell _ _ hfulls ih =>
    obtain ⟨levels, rfl⟩ := Nat.exists_eq_succ_of_ne_zero (Nat.ne_zero_of_lt hdepth)
    unfold leftmostLeaf
    refine (acts_loadNode Role.current_ne hcell).bind_ok ?_
    refine (ih first List.mem_cons_self (hfulls first List.mem_cons_self) (by omega)).imp ?_
    rintro leaf ⟨e, he, hon⟩
    exact ⟨e, by simp [Subtree.branch, List.head?_append, he], hon⟩

/-- The last leaf of a subtree ends with its last entry. -/
theorem gives_rightmostLeaf (h : x.OnBoard t.layout c.cells depth) (hfull : x.Full)
    (hdepth : depth < levels) :
    Gives t.layout (t.rightmostLeaf levels x.pos) c fun r =>
      ∃ e, x.entries.getLast? = some e ∧ (placeInLeaf r.1 (r.2 - 1)).On c e := by
  induction h generalizing levels with
  | @leaf pos es hcell _ =>
    obtain ⟨levels, rfl⟩ := Nat.exists_eq_succ_of_ne_zero (Nat.ne_zero_of_lt hdepth)
    obtain ⟨e, es, rfl⟩ := List.exists_cons_of_ne_nil (Subtree.full_leaf.mp hfull)
    unfold rightmostLeaf
    refine (acts_loadNode Role.current_ne hcell).bind_ok ?_
    have hlast := List.getLast?_eq_some_getLast (List.cons_ne_nil e es)
    refine gives_pure ⟨_, hlast, .leaf rfl hcell ?_⟩
    exact List.getLast?_eq_getElem?.symm.trans hlast
  | @branch depth pos first rest hcell _ _ hfulls ih =>
    obtain ⟨levels, rfl⟩ := Nat.exists_eq_succ_of_ne_zero (Nat.ne_zero_of_lt hdepth)
    obtain rfl | ⟨stem, s, rfl⟩ := List.eq_nil_or_concat rest
    · exact absurd rfl (Subtree.full_branch.mp hfull)
    rw [List.concat_eq_append] at *
    have hs : s.2 ∈ first :: (stem ++ [s]).map Prod.snd := by simp
    unfold rightmostLeaf
    refine (acts_loadNode Role.current_ne hcell).bind_ok ?_
    have hlast : (Branch.mk first.pos ((stem ++ [s]).map fun s => (s.1, s.2.pos))).lastChild =
        s.2.pos := by
      simp [Branch.lastChild]
    simp only [Subtree.branch, hlast]
    refine (ih s.2 hs (hfulls s.2 hs) (by omega)).imp ?_
    rintro r ⟨e, he, hon⟩
    exact ⟨e, by simp [List.getLast?_append, List.getLast?_cons, he], hon⟩

/-! ## Places next to a place -/

/-- The place in front of an entry of a leaf. -/
theorem gives_predecessor_leaf (hw : Way.Leads t.layout c depth w pos)
    (hcell : c.cells pos = some (.node (.leaf (front ++ back)))) (hbranch : d.onBranch = false)
    (hpath : d.path = Way.steps w) (hblock : d.block = pos) (hindex : d.index = front.length) :
    Gives t.layout (t.predecessor d) c fun d' => d'.AtLast c (Way.front w ++ front) := by
  unfold predecessor
  rw [hbranch, if_neg Bool.false_ne_true]
  obtain rfl | ⟨front, a, rfl⟩ := List.eq_nil_or_concat front
  · rw [if_neg (by simp [hindex]), hpath, List.append_nil]
    have hleft := hw.find_left
    split at hleft
    · next hnone =>
      rw [hnone, hleft]
      exact gives_pure rfl
    · next step hstep =>
      obtain ⟨e, he, hon⟩ := hleft
      rw [hstep]
      exact gives_pure (.of_getLast? rfl (hon _ rfl rfl rfl) he)
  · rw [List.concat_eq_append] at *
    rw [if_pos (by simp [hindex])]
    refine gives_pure (.of_getLast? rfl (e := a) ?_ (by simp))
    exact .leaf rfl (hblock ▸ hcell) (by simp [hindex])

/-- The place in front of a separator. -/
theorem gives_predecessor_branch {front' : List Entry} (hf : f.OnBoard t.layout c.cells depth x.pos)
    (hx : x.OnBoard t.layout c.cells depth) (hfull : x.Full) (hdepth : depth ≤ maxLevels)
    (hbranch : d.onBranch = true) (hblock : d.block = f.pos) (hindex : d.index = f.left.length) :
    Gives t.layout (t.predecessor d) c fun d' => d'.AtLast c (front' ++ x.entries) := by
  unfold predecessor
  rw [hbranch, if_pos rfl, hblock, hindex]
  refine (acts_branch Role.current_ne hf.cell).bind_ok ?_
  rw [Fork.child?_branch]
  refine (gives_rightmostLeaf hx hfull (Nat.lt_succ_of_le hdepth)).andThen ?_
  rintro ⟨leaf, size⟩ ⟨e, he, hon⟩
  refine gives_pure (.of_getLast? rfl (e := e) ?_ (by simp [List.getLast?_append, he]))
  cases hon with
  | leaf _ hcell he => exact .leaf rfl hcell he
  | branch hbranch => cases hbranch

/-- The place behind an entry of a leaf. -/
theorem gives_successor_leaf (hw : Way.Leads t.layout c depth w pos)
    (hcell : c.cells pos = some (.node (.leaf (front ++ e :: back)))) (hbranch : d.onBranch = false)
    (hpath : d.path = Way.steps w) (hblock : d.block = pos) (hindex : d.index = front.length) :
    Gives t.layout (t.successor d) c fun d' => d'.AtFirst c (back ++ Way.back w) := by
  unfold successor
  rw [hbranch, if_neg Bool.false_ne_true, hblock, hindex]
  refine (acts_leaf Role.current_ne hcell).bind_ok ?_
  cases back with
  | nil =>
    rw [if_neg (by simp), hpath]
    refine (acts_nextSeparator hw ?_).mono ?_
    · simp [hcell]
    · rintro r c' ⟨rfl, d', hr, -, -, -, -, hcase⟩
      refine ⟨rfl, d', hr, ?_⟩
      rw [List.nil_append]
      obtain ⟨hstate, hnil⟩ | ⟨hstate, -, hcontinues⟩ := hcase
      · rw [hnil]
        exact hstate
      · exact hcontinues.atFirst hw hstate
  | cons b back =>
    rw [if_pos (by simp)]
    refine gives_pure (.of_head? rfl (e := b) ?_ rfl)
    exact .leaf rfl hcell (by simp)

/-- The place behind a separator. -/
theorem gives_successor_branch {right : List (Entry × Subtree)} {back' : List Entry}
    (hf : f.OnBoard t.layout c.cells depth pos) (hright : f.right = (e, x) :: right)
    (hdepth : depth ≤ maxLevels) (hbranch : d.onBranch = true) (hblock : d.block = f.pos)
    (hindex : d.index = f.left.length) :
    Gives t.layout (t.successor d) c fun d' => d'.AtFirst c (x.entries ++ back') := by
  have hx : x ∈ f.subtrees := by simp [Fork.subtrees, hright]
  unfold successor
  rw [hbranch, if_pos rfl, hblock, hindex]
  refine (acts_branch Role.current_ne hf.cell).bind_ok ?_
  rw [Fork.child?_succ hright]
  refine (gives_leftmostLeaf (hf.subtrees x hx) (hf.full x hx) (Nat.lt_succ_of_le hdepth)).andThen ?_
  rintro leaf ⟨e, he, hon⟩
  refine gives_pure (.of_head? rfl (e := e) ?_ (by simp [List.head?_append, he]))
  cases hon with
  | leaf _ hcell he => exact .leaf rfl hcell he
  | branch hbranch => cases hbranch

/-! ## Where a search ends -/

section SearchEnds

variable {target : Entry} {exact : Bool} (honBoard : x.OnBoard t.layout c.cells depth)
  (hdepth : depth ≤ maxLevels)
include honBoard hdepth

/-- A search ends at the first entry that is a hit, or where it would be. -/
theorem SearchEnds.hits_or_misses (h : SearchEnds t c target exact x d) (hasc : t.Ascending x.entries) :
    ∃ front back, (∀ a ∈ front, Entry.compare t.collation exact target a = .gt) ∧
      ((∃ e, x.entries = front ++ e :: back ∧ Entry.compare t.collation exact target e = .eq ∧
          d.Hits t c front e back) ∨
        (x.entries = front ++ back ∧
          (∀ a ∈ back, Entry.compare t.collation exact target a = .lt) ∧
          d.Misses t c front back)) := by
  cases h with
  | @leaf w pos front back e hx hw hleaf hless hhit hstate hbranch hpath hblock hindex =>
    have hcell : c.cells pos = some (.node (.leaf (front ++ e :: back))) := hleaf.cell
    refine ⟨_, back ++ Way.back w, hless, .inl ⟨e, ?_, hhit, hstate, ?_, ?_, ?_⟩⟩
    · simp [← hx, Subtree.leaf]
    · exact .leaf hbranch (hblock ▸ hcell) (by simp [hindex])
    · exact gives_successor_leaf hw hcell hbranch hpath hblock hindex
    · exact gives_predecessor_leaf hw hcell hbranch hpath hblock hindex
  | @branch depth' f w y z e right hx hw hy hfull hright hless hbefore hhit hstate hbranch hpath hblock
      hindex =>
    have hbound : depth' ≤ maxLevels := by
      have := hw.depth_eq hy hfull hx honBoard
      omega
    refine ⟨Way.front (f :: w) ++ y.entries,
      z.entries ++ (right.flatMap (fun s => [s.1] ++ s.2.entries) ++ Way.back w),
      fun a ha => (List.mem_append.mp ha).elim (hless a) (hbefore (.inr hasc) a),
      .inl ⟨e, ?_, hhit, hstate, ?_, ?_, ?_⟩⟩
    · simp [← hx, Fork.back, hright]
    · exact hw.1.on_right hright hbranch hblock hindex
    · exact gives_successor_branch hw.1 hright hbound hbranch hblock hindex
    · exact gives_predecessor_branch hw.1 hy hfull hbound hbranch hblock hindex
  | @missing w pos front back hx hw hleaf hfull hless hgreater hstate hpath hplace hblock _ hfirst
      hlast hhere hend =>
    have hcell : c.cells pos = some (.node (.leaf (front ++ back))) := hleaf.cell
    refine ⟨_, back ++ Way.back w, hless, .inr ⟨?_, hgreater, hstate, hfirst, hlast, hblock, ?_, ?_⟩⟩
    · simp [← hx, Subtree.leaf]
    · intro hback
      rcases hplace with ⟨hleafEnd, rfl⟩ | ⟨hleafEnd, hbranch, rfl, hindex⟩
      · exact Way.Continues.atFirst (hend (by simp [hleafEnd])) hw rfl
      · cases back with
        | nil => exact absurd (hlast.mp (hhere hleafEnd rfl)) hback
        | cons b back =>
          exact .of_head? rfl (e := b) (.leaf hbranch hcell (by simp [hindex])) rfl
    · rcases hplace with ⟨hleafEnd, rfl⟩ | ⟨hleafEnd, hbranch, hpos, hindex⟩
      · -- the child in front of the separator ends with the leaf
        obtain ⟨inner, f, outer, s, right, rfl, hinner, hright, hbranch, hpos, hindex⟩ :=
          hend (by simp [hleafEnd])
        obtain ⟨hy, hyfull, hwy⟩ := Way.Leads.regrow_append (v := inner) hw hleaf hfull
        have hbound : 0 + inner.length ≤ maxLevels := by
          have := hwy.depth_eq hy hyfull ((Way.regrow_append _ _ _).symm.trans hx) honBoard
          omega
        have hfront : Way.front (inner ++ f :: outer) ++ front = Way.front (f :: outer) ++
            (Way.regrow inner (.leaf pos (front ++ []))).entries := by
          simp [Way.front_append, Way.back_eq_nil hinner, Subtree.leaf]
        rw [hfront]
        exact gives_predecessor_branch hwy.1 hy hyfull hbound hbranch hpos hindex
      · exact gives_predecessor_leaf hw hcell hbranch hpath hpos hindex

end SearchEnds

end Tree

end PagedIndex
