import PagedIndex.Proofs.Tree.Calls
import PagedIndex.Proofs.Tree.Looking

/-!
# Trees of any height

A search goes through a bounded number of branches. In a tree with more levels than that it reaches
no leaf: it finds its target among the separators on its way, or it gives up. A call that would
change such a tree fails before it changes a block, so that what insertions and deletions make of a
plan can be told without a bound on its levels.

## Main statements

* `Tree.looks_descend_deep` — a search in a tree that is too deep.
* `Tree.revises_insert_any`, `Tree.revises_delete_any` — updates of a tree of any height.
* `Tree.revises_insert_loose`, `Tree.revises_delete_loose` — updates of a tree in which keys repeat
  though they may not.
-/

namespace PagedIndex

variable {l : Layout} {c : Board} {depth : Nat} {x : Subtree}

/-- The block of a subtree of a closed board is looked at. -/
theorem Subtree.OnBoard.looks_node {role : Role} (h : x.OnBoard l c.cells depth) (hc : c.Closed l)
    (hrole : role ≠ .header) :
    Program.Looks l (Program.loadNode l role x.pos) c fun n => n = x.node := by
  refine (Program.looks_loadNode hc hrole (.inr (by rw [h.cell]; rfl))).mono fun n hn => ?_
  rw [h.cell] at hn
  cases hn
  rfl

theorem Subtree.OnBoard.isNull_eq_false (h : x.OnBoard l c.cells depth) (hc : c.Closed l) :
    x.pos.isNull = false := by
  refine BlockPos.isNull_eq_false ((hc.whole x.pos).mp ?_).1
  rw [h.cell]
  rfl

/-- Below a branch stand subtrees, whose entries are among its own. -/
theorem Subtree.OnBoard.exists_child {cells : BlockPos → Option Cell}
    (h : x.OnBoard l cells (depth + 1)) : ∃ b, x.node = .branch b ∧
      (∀ a ∈ b.entries, a ∈ x.entries) ∧ ∀ q ∈ b.children, ∃ y : Subtree, y.pos = q ∧
        y.OnBoard l cells depth ∧ ∀ a ∈ y.entries, a ∈ x.entries := by
  cases h with
  | @branch _ pos first rest hcell hfits hchildren hfull =>
    refine ⟨_, rfl, fun a ha => ?_, fun q hq => ?_⟩
    · have hsub := separators_sublist pos first rest
      refine hsub.subset ?_
      simpa [Branch.entries] using ha
    · have hmap : Branch.children ⟨first.pos, rest.map fun s => (s.1, s.2.pos)⟩ =
          (first :: rest.map Prod.snd).map Subtree.pos := by
        simp [Branch.children]
      rw [hmap] at hq
      obtain ⟨y, hy, rfl⟩ := List.mem_map.mp hq
      refine ⟨y, rfl, hchildren y hy, fun a ha => ?_⟩
      show a ∈ first.entries ++ rest.flatMap fun s => [s.1] ++ s.2.entries
      rcases List.mem_cons.mp hy with rfl | hy
      · exact List.mem_append_left _ ha
      · obtain ⟨s, hs, rfl⟩ := List.mem_map.mp hy
        exact List.mem_append_right _
          (List.mem_flatMap.mpr ⟨s, hs, List.mem_append_right _ ha⟩)

/-- The tree of a plan with too many levels. -/
theorem Plan.Holds.exists_deep {p : Plan} (hp : p.Holds l c)
    (hlevels : maxLevels + 1 < p.levels) : ∃ (x : Subtree) (depth : Nat), c.pointers.root = x.pos ∧
      x.OnBoard l c.cells depth ∧ maxLevels < depth ∧ p.entries = x.entries := by
  have htree := hp.tree
  unfold Plan.entries
  cases hx : p.tree with
  | none =>
    rw [hx] at htree
    omega
  | some x =>
    rw [hx] at htree
    obtain ⟨depth, hdepth, honBoard, -, hroot⟩ := htree
    exact ⟨x, depth, hroot, honBoard, by omega, rfl⟩

namespace Tree

open Program

variable {t : Tree} {p : Plan} {target e : Entry} {exact : Bool} {levels : Nat}

/-- A hit on a separator of the subtree `x`, at the end of a way of `steps` steps and some more
below `x`. The block of the hit is as many levels above the leaves as the way leaves for it. -/
structure Halts (t : Tree) (c : Board) (target : Entry) (exact : Bool) (x : Subtree)
    (steps levels depth : Nat) (d : Descent) : Prop where
  state : d.state = .onKey
  onBranch : d.onBranch = true
  hit : ∃ a ∈ x.entries, t.Matches exact target a
  long : d.path.length ≤ steps + levels
  block : ∃ (y : Subtree) (below : Nat), y.OnBoard t.layout c.cells (below + 1) ∧ d.block = y.pos ∧
    d.path.length + below = steps + depth ∧ d.path ≠ []

/-- A search in a tree that is too deep ends at a separator, if it ends well. -/
theorem looks_descend_deep (hc : c.Closed t.layout) (hx : x.OnBoard t.layout c.cells depth)
    (hdepth : levels < depth) {trail : Trail} :
    Looks t.layout (t.descend target exact levels trail x.pos) c
      (Halts t c target exact x trail.path.length levels depth) := by
  induction levels generalizing depth x trail with
  | zero =>
    obtain ⟨depth, rfl⟩ := Nat.exists_eq_succ_of_ne_zero (Nat.ne_of_gt hdepth)
    obtain ⟨b, hb, -, -⟩ := hx.exists_child
    unfold descend
    refine (hx.looks_node hc Role.current_ne).bind fun n hn => ?_
    rw [hn, hb]
    exact looks_fail
  | succ levels ih =>
    obtain ⟨depth, rfl⟩ := Nat.exists_eq_succ_of_ne_zero (Nat.ne_zero_of_lt hdepth)
    obtain ⟨b, hb, hentries, hchildren⟩ := hx.exists_child
    obtain ⟨front, back, hes, hs⟩ := exists_splits t target exact b.entries
    unfold descend
    refine (hx.looks_node hc Role.current_ne).bind fun n hn => ?_
    rw [hn, hb]
    dsimp only
    split
    · next hfound =>
      simp only [Bool.and_eq_true] at hfound
      obtain ⟨a, rest, rfl, ha⟩ := hs.found hfound.1
      refine looks_pure ⟨rfl, rfl, ⟨a, hentries a ?_, matches_iff.mpr ha⟩, ?_, x, depth, hx, rfl,
        ?_, List.cons_ne_nil _ _⟩
      · rw [hes]
        exact List.mem_append_right _ List.mem_cons_self
      · simp only [List.length_cons]
        omega
      · simp only [List.length_cons]
        omega
    · split
      · next child hchild =>
        obtain ⟨y, rfl, hy, hsub⟩ := hchildren child (b.mem_children_of_child? hchild)
        refine (ih hy (Nat.lt_of_succ_lt_succ hdepth)).mono fun d hd => ?_
        obtain ⟨a, ha, hmatch⟩ := hd.hit
        obtain ⟨z, below, hz, hblock, hlength, hnil⟩ := hd.block
        have hlong := hd.long
        simp only [List.length_cons] at hlong hlength
        exact ⟨hd.state, hd.onBranch, ⟨a, hsub a ha, hmatch⟩, by omega, z, below, hz, hblock,
          by omega, hnil⟩
      · exact looks_fail

/-- The first leaf is too far down. -/
theorem looks_firstLeaf_deep (hc : c.Closed t.layout) (hx : x.OnBoard t.layout c.cells depth)
    (hdepth : levels < depth) {path : List Step} :
    Looks t.layout (t.firstLeaf levels path x.pos) c fun _ => False := by
  induction levels generalizing depth x path with
  | zero =>
    obtain ⟨depth, rfl⟩ := Nat.exists_eq_succ_of_ne_zero (Nat.ne_of_gt hdepth)
    obtain ⟨b, hb, -, -⟩ := hx.exists_child
    unfold firstLeaf
    refine (hx.looks_node hc Role.current_ne).bind fun n hn => ?_
    rw [hn, hb]
    exact looks_fail
  | succ levels ih =>
    obtain ⟨depth, rfl⟩ := Nat.exists_eq_succ_of_ne_zero (Nat.ne_zero_of_lt hdepth)
    obtain ⟨b, hb, -, hchildren⟩ := hx.exists_child
    obtain ⟨y, hy, honBoard, -⟩ := hchildren b.first b.first_mem_children
    unfold firstLeaf
    refine (hx.looks_node hc Role.current_ne).bind fun n hn => ?_
    rw [hn, hb]
    dsimp only
    rw [← hy]
    exact ih honBoard (Nat.lt_of_succ_lt_succ hdepth)

/-- A walk over children fails if the first of them cannot be walked over. -/
theorem looks_surveyChildren_of_first
    {visit : BlockPos → Option Entry → Option Entry → Survey → Program Survey} {pos child : BlockPos}
    (h : ∀ lower upper s, Looks l (visit child lower upper s) c fun _ => False) (i : Nat)
    (lower : Option Entry) (separators : List (Entry × BlockPos)) (upper : Option Entry) (s : Survey) :
    Looks l (surveyChildren visit pos i lower child separators upper s) c fun _ => False := by
  cases separators with
  | nil =>
    unfold surveyChildren
    split
    · exact looks_fail.bind fun _ h => h
    · exact h _ _ _
  | cons sep rest =>
    unfold surveyChildren
    split
    · exact looks_fail.bind fun _ h => h
    · exact (h _ _ _).bind fun _ h => h.elim

/-- A walk over the tree gives up where it is too deep. -/
theorem looks_surveyNode_deep (hc : c.Closed t.layout) (hx : x.OnBoard t.layout c.cells depth)
    (hdepth : levels ≤ depth) {here : Nat} {lower upper : Option Entry} {s : Survey} :
    Looks t.layout (t.surveyNode false levels here x.pos lower upper s) c fun _ => False := by
  induction levels generalizing depth x here lower upper s with
  | zero => exact looks_fail
  | succ levels ih =>
    obtain ⟨depth, rfl⟩ := Nat.exists_eq_add_of_le' (Nat.le_trans (Nat.le_add_left 1 levels) hdepth)
    obtain ⟨b, hb, -, hchildren⟩ := hx.exists_child
    obtain ⟨y, hy, honBoard, -⟩ := hchildren b.first b.first_mem_children
    unfold surveyNode
    refine (hx.looks_node hc Role.current_ne).bind fun n hn => ?_
    rw [hn, hb]
    simp only [Bool.false_and, Bool.false_eq_true, if_false]
    refine looks_surveyChildren_of_first (fun lower upper s => ?_) _ _ _ _ _
    rw [← hy]
    exact ih honBoard (Nat.le_of_succ_le_succ hdepth)

section Root

variable (hc : c.Closed t.layout) (hroot : c.pointers.root = x.pos)
  (hx : x.OnBoard t.layout c.cells depth) (hdepth : maxLevels < depth)
include hc hroot hx hdepth

theorem looks_locate_deep :
    Looks t.layout (t.locate target exact) c
      (Halts t c target exact x 0 maxLevels depth) := by
  refine looks_getPointers_bind ?_
  show Looks t.layout (if c.pointers.root.isNull then _ else _) c _
  rw [hroot, hx.isNull_eq_false hc]
  exact looks_descend_deep hc hx hdepth

/-- An insertion finds the entry among the separators, or gives up. -/
theorem looks_insert_deep :
    Looks t.layout (t.insert e) c fun outcome =>
      outcome = .duplicateExact ∧ ∃ a ∈ x.entries, t.Matches true e a := by
  refine (looks_locate_deep hc hroot hx hdepth).bind fun d hd => ?_
  rw [if_pos hd.state]
  exact looks_pure ⟨rfl, hd.hit⟩

/-- A deletion gives up before it changes a block. -/
theorem looks_delete_deep : Looks t.layout (t.delete target exact) c fun _ => False := by
  refine (looks_locate_deep hc hroot hx hdepth).bind fun d hd => ?_
  rw [if_neg (fun h => h hd.state), if_pos hd.onBranch]
  obtain ⟨y, below, hy, hblock, hlength, hnil⟩ := hd.block
  obtain ⟨b, hb, -, hchildren⟩ := hy.exists_child
  have hlong := hd.long
  refine (?_ : Looks t.layout (t.deleteSeparator d.path d.block d.index) c fun _ => False).bind
    fun _ h => h.elim
  unfold deleteSeparator
  split
  · next hpath => exact absurd hpath hnil
  · next step outer hpath =>
    have hlen : (({ step with index := step.index + 1 } : Step) :: outer).length =
        d.path.length := by
      rw [hpath]
      rfl
    refine (?_ : Looks t.layout (t.branch .parent d.block) c fun b' => b' = b).bind fun b' hb' => ?_
    · rw [hblock]
      refine (hy.looks_node hc Role.parent_ne).bind fun n hn => ?_
      rw [hn, hb]
      exact looks_pure rfl
    · subst hb'
      split
      · exact looks_fail
      · next removed right hsep =>
        have hmem : right ∈ b'.children :=
          List.mem_cons_of_mem _ (List.mem_map_of_mem (f := Prod.snd) (List.mem_of_getElem? hsep))
        obtain ⟨z, rfl, hz, -⟩ := hchildren right hmem
        dsimp only
        refine (looks_firstLeaf_deep hc hz ?_).bind fun _ h => h.elim
        rw [hlen]
        omega

/-- Nothing is counted in it. -/
theorem looks_survey_deep : Looks t.layout (t.survey false) c fun _ => False := by
  refine looks_getPointers_bind ?_
  dsimp only
  refine (?_ : Looks t.layout (t.surveyTree false c.pointers.root) c fun _ => False).bind
    fun _ h => h.elim
  unfold surveyTree
  rw [hroot, hx.isNull_eq_false hc]
  exact looks_surveyNode_deep hc hx hdepth

end Root

/-! ## Plans of any height -/

/-- A program that only looks makes of a plan what it was. -/
theorem revises_of_looks {α : Type} {program : Program α} {P : α → Prop}
    (h : ∀ c, p.Holds t.layout c → Looks t.layout program c P) (hasc : t.Ascending p.entries) :
    t.Revises p program (fun a p' => p' = p ∧ P a) fun _ => True := by
  intro c hp
  refine (h c hp).acts.mono ?_
  rintro (e | a) d ⟨rfl, hP⟩
  · exact .inr ⟨e, rfl, trivial⟩
  · exact .inl ⟨a, p, rfl, hp, hasc, rfl, hP a rfl⟩

/-- An insertion into a tree that is too deep changes nothing. -/
theorem looks_insert_of_deep (hlevels : ¬p.levels ≤ maxLevels + 1) (c : Board)
    (hp : p.Holds t.layout c) : Looks t.layout (t.insert e) c fun outcome =>
      outcome = .duplicateExact ∧ ∃ a ∈ p.entries, t.Matches true e a := by
  obtain ⟨x, depth, hroot, hx, hdepth, hentries⟩ := hp.exists_deep (Nat.lt_of_not_le hlevels)
  rw [hentries]
  exact looks_insert_deep hp.closed hroot hx hdepth

/-- A deletion from a tree that is too deep fails. -/
theorem looks_delete_of_deep (hlevels : ¬p.levels ≤ maxLevels + 1) (c : Board)
    (hp : p.Holds t.layout c) : Looks t.layout (t.delete target exact) c fun _ => False := by
  obtain ⟨x, depth, hroot, hx, hdepth, -⟩ := hp.exists_deep (Nat.lt_of_not_le hlevels)
  exact looks_delete_deep hp.closed hroot hx hdepth

/-- So does a count. -/
theorem looks_survey_of_deep (hlevels : ¬p.levels ≤ maxLevels + 1) (c : Board)
    (hp : p.Holds t.layout c) : Looks t.layout (t.survey false) c fun _ => False := by
  obtain ⟨x, depth, hroot, hx, hdepth, -⟩ := hp.exists_deep (Nat.lt_of_not_le hlevels)
  exact looks_survey_deep hp.closed hroot hx hdepth

/-- What an insertion makes of a plan, and how its tree grows, whatever its height. -/
theorem revises_insert_any (hl : t.layout.Workable) (hasc : t.Ascending p.entries)
    (he : e.Storable t.layout) :
    t.Revises p (t.insert e)
      (fun outcome p' => t.Inserted e p outcome p' ∧ (outcome = .inserted →
        ∃ path splits taken, p.Grown t.layout e path splits taken p'))
      fun err => p.levels ≤ maxLevels + 1 →
        err = .internal .sizeLimit ∧ p.spare t.layout ≤ p.levels := by
  by_cases hlevels : p.levels ≤ maxLevels + 1
  · exact (revises_insert_grown hl hasc hlevels he).mono (fun _ _ h => h) fun _ h _ => h
  · refine (revises_of_looks (looks_insert_of_deep hlevels) hasc).mono ?_
      fun _ _ h => absurd h hlevels
    rintro outcome p' ⟨rfl, rfl, hhit⟩
    refine ⟨⟨iff_of_true rfl hhit, iff_of_false nofun fun h => h.1 hhit, fun _ => rfl, nofun, rfl,
      Nat.le_succ _⟩, fun h => ?_⟩
    cases h

/-- What a deletion makes of a plan, and of the blocks that leave its tree, whatever its height. -/
theorem revises_delete_any (hl : t.layout.Workable) (hasc : t.Ascending p.entries) (target : Entry)
    (exact : Bool) :
    t.Revises p (t.delete target exact)
      (fun found p' => t.Deleted target exact p found p' ∧
        ∃ gone, p'.free = gone ++ p.free ∧ p.blocks.Perm (gone ++ p'.blocks))
      fun _ => maxLevels + 1 < p.levels := by
  by_cases hlevels : p.levels ≤ maxLevels + 1
  · exact (revises_delete_freed hl hasc hlevels target exact).mono (fun _ _ h => h)
      fun _ h => h.elim
  · exact (revises_of_looks (looks_delete_of_deep hlevels) hasc).mono (fun _ _ h => h.2.elim)
      fun _ _ => Nat.lt_of_not_le hlevels

/-! ## Keys that repeat though they may not -/

/-- An insertion keeps the order that entries have when keys may repeat. -/
theorem revises_insert_loose (hl : t.layout.Workable) (hasc : t.loose.Ascending p.entries)
    (he : e.Storable t.layout) :
    t.loose.Revises p (t.insert e) (fun _ _ => True) fun _ => True := by
  by_cases hlevels : p.levels ≤ maxLevels + 1
  · intro c hp
    refine (acts_insert hl hp hasc hlevels he).mono ?_
    rintro r d (⟨outcome, p', rfl, hp', -, hasc', -⟩ | ⟨rfl, -⟩)
    · exact .inl ⟨outcome, p', rfl, hp', hasc', trivial⟩
    · exact .inr ⟨_, rfl, trivial⟩
  · exact (revises_of_looks (t := t.loose) (looks_insert_of_deep (t := t) hlevels) hasc).mono
      (fun _ _ _ => trivial) fun _ _ => trivial

/-- So does a deletion. -/
theorem revises_delete_loose (hl : t.layout.Workable) (hasc : t.loose.Ascending p.entries)
    (target : Entry) (exact : Bool) :
    t.loose.Revises p (t.delete target exact) (fun _ _ => True) fun _ => True := by
  by_cases hlevels : p.levels ≤ maxLevels + 1
  · intro c hp
    refine (acts_delete hl hp hasc hlevels).mono ?_
    rintro r d (⟨rfl, hp', -⟩ | ⟨e, p', front, back, rfl, hp', hold, hnew, -⟩)
    · exact .inl ⟨none, p, rfl, hp', hasc, trivial⟩
    · refine .inl ⟨some e, p', rfl, hp', ?_, trivial⟩
      rw [hnew]
      exact hasc.sublist (hold ▸ (List.sublist_cons_self e back).append_left front)
  · exact (revises_of_looks (t := t.loose) (looks_delete_of_deep (t := t) hlevels) hasc).mono
      (fun _ _ h => h.2.elim) fun _ _ => trivial

end Tree

end PagedIndex
