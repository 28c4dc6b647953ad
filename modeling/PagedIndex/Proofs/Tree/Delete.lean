import PagedIndex.Proofs.Tree.Brothers
import PagedIndex.Proofs.Tree.Locate

/-!
# Deletion gives room back

## Main definitions

* `Tree.Shrinks` — the tree has certain entries, no more levels than before, and no other blocks.
* `Tree.Removes` — what a deletion makes of a plan.

## Main statements

* `Tree.acts_collapse` — a block that has lost an entry is merged on the way up, and a tree is left.
* `Tree.acts_delete` — a deletion takes away the first entry that is a hit, and no other.
-/

namespace PagedIndex

namespace Tree

/-- The tree has the entries `es`, and of the blocks `used` those that were not put on the chain of
deleted blocks, in front of `free`. -/
def Shrinks (l : Layout) (used free : List BlockPos) (slots : List (BlockPos × List Nat))
    (es : List Entry) (levels : Nat) (d : Board) : Prop :=
  ∃ (p : Plan) (gone : List BlockPos), p.Holds l d ∧ p.entries = es ∧ p.slots = slots ∧
    p.levels ≤ levels ∧ p.free = gone ++ free ∧ used.Perm (gone ++ p.blocks)

variable {t : Tree} {c d : Board} {depth : Nat} {x y : Subtree} {e : Entry} {f : Fork} {w : Way}
  {pos : BlockPos} {used free : List BlockPos} {slots : List (BlockPos × List Nat)}

/-- A tree that keeps all its blocks. -/
theorem Shrinks.of_holds {l : Layout} {es : List Entry} {n levels : Nat}
    (h : Plan.Holds l d ⟨n, some x, free, slots⟩) (hes : x.entries = es) (hlevels : n ≤ levels)
    (hblocks : used.Perm x.blocks) : Shrinks l used free slots es levels d :=
  ⟨_, [], h, hes, rfl, hlevels, rfl, hblocks⟩

/-- A block was put on the chain of deleted blocks before. -/
theorem Shrinks.freed {l : Layout} {es : List Entry} {levels : Nat}
    (h : Shrinks l used (pos :: free) slots es levels d) :
    Shrinks l (pos :: used) free slots es levels d := by
  obtain ⟨p, gone, hp, hes, hslots, hlevels, hfree, hblocks⟩ := h
  refine ⟨p, gone ++ [pos], hp, hes, hslots, hlevels, by simpa using hfree, ?_⟩
  rw [List.append_assoc, List.singleton_append]
  exact (hblocks.cons pos).trans List.perm_middle.symm

theorem Shrinks.weaken {l : Layout} {used' : List BlockPos} {es : List Entry} {levels levels' : Nat}
    (h : Shrinks l used free slots es levels d) (hblocks : used'.Perm used) (hle : levels ≤ levels') :
    Shrinks l used' free slots es levels' d := by
  obtain ⟨p, gone, hp, hes, hslots, hlevels, hfree, hgone⟩ := h
  exact ⟨p, gone, hp, hes, hslots, Nat.le_trans hlevels hle, hfree, hblocks.trans hgone⟩

/-- A root without separators is taken away. -/
theorem acts_shrinkRoot (hl : t.layout.Workable) (hroot : c.pointers.root = y.pos)
    (hy : y.OnBoard t.layout c.cells depth) (hnil : y.entries ≠ [])
    (hledger : Ledger t.layout c y.blocks free slots)
    (hstorable : ∀ a ∈ y.entries, a.Storable t.layout) :
    Program.Acts t.layout (t.shrinkRoot y.pos y.node) c fun r d =>
      r = .ok () ∧ Shrinks t.layout y.blocks free slots y.entries (depth + 1) d := by
  have hstay : y.Full → Shrinks t.layout y.blocks free slots y.entries (depth + 1) c := fun hfull =>
    .of_holds ⟨⟨depth, rfl, hy, hfull, hroot⟩, hledger, hstorable⟩ rfl (Nat.le_refl _) (.refl _)
  cases hy with
  | leaf => exact Program.acts_pure ⟨rfl, hstay (Subtree.full_leaf.mpr hnil)⟩
  | @branch depth pos first rest hcell hfits hchildren hfull =>
    cases rest with
    | cons s rest =>
      exact Program.acts_pure ⟨rfl, hstay (Subtree.full_branch.mpr (List.cons_ne_nil _ _))⟩
    | nil =>
      have hblocks : (Subtree.branch pos first []).blocks = pos :: first.blocks := by
        simp [Subtree.branch]
      have hentries : (Subtree.branch pos first []).entries = first.entries := by
        simp [Subtree.branch]
      rw [hblocks] at hledger ⊢
      rw [hentries] at hstorable ⊢
      have hnew := (List.nodup_cons.mp hledger.nodup_used).1
      unfold shrinkRoot
      simp only [Subtree.branch, List.map_nil]
      refine (hledger.acts_free hl Role.parent_ne).bind (fun _ _ h => by cases h.1) ?_
      rintro ⟨⟩ d ⟨-, hledger, hcells, -⟩
      refine (Program.acts_modifyPointers _ (Nat.le_refl _)).mono ?_
      rintro r d' ⟨hr, rfl⟩
      have hfirst : first.OnBoard t.layout d.cells depth :=
        (hchildren _ List.mem_cons_self).congr fun p hp =>
          hcells p (ne_of_mem_of_not_mem hp hnew)
      exact ⟨hr, .freed (.of_holds ⟨⟨depth, rfl, hfirst, hfull _ List.mem_cons_self, rfl⟩,
        hledger.setRoot _, hstorable⟩ rfl (Nat.le_succ _) (.refl _))⟩

/-- A subtree that may be empty is merged with a brother, or gets an entry from it, and so on on the
way up. -/
theorem acts_collapse (hl : t.layout.Workable) (hw : Way.Leads t.layout c depth w y.pos)
    (hy : y.OnBoard t.layout c.cells depth) (hroot : w = [] → y.entries ≠ [])
    (hledger : Ledger t.layout c (Way.blocks w ++ y.blocks) free slots)
    (hstorable : ∀ a ∈ Way.front w ++ (y.entries ++ Way.back w), a.Storable t.layout) :
    Program.Acts t.layout (t.collapse (Way.steps w) y.pos y.node) c fun r d => r = .ok () ∧
      Shrinks t.layout (Way.blocks w ++ y.blocks) free slots (Way.front w ++ (y.entries ++ Way.back w))
        (depth + w.length + 1) d := by
  induction w generalizing c depth y free with
  | nil =>
    simp only [Way.front_nil, Way.back_nil, Way.blocks_nil, List.nil_append, List.append_nil]
      at hstorable ⊢
    exact acts_shrinkRoot hl hw hy (hroot rfl) hledger hstorable
  | cons f w ih =>
    obtain ⟨hf, hw'⟩ := hw
    simp only [Way.steps_cons, collapse]
    refine (Tree.acts_branch Role.parent_ne hf.cell).bind_ok ?_
    refine (acts_brothers hf hy).bind ?_ ?_
    · rintro _ _ ⟨-, left, a, e, b, right, -, hr⟩
      cases hr
    rintro pair d ⟨rfl, left, a, e, b, right, hpair, hr⟩
    cases hr
    obtain ⟨m, hm⟩ := hpair.standsLeft.exists_merges hpair.standsRight e
    have hbranch : f.branch y.pos = Fork.branch ⟨f.pos, left, (e, b) :: right⟩ a.pos := by
      have := congrArg Subtree.node hpair.fill
      simpa using this
    have hseparator : (f.branch y.pos).separators[left.length]? = some (e, b.pos) := by
      rw [hbranch]
      exact Fork.separator?_branch
    simp only [hseparator]
    refine Program.Acts.bind_ok (a := m.node) (d := d) ?_ ?_
    · rw [hm.node]
      exact Program.acts_done ⟨rfl, rfl⟩
    have hperm : (Way.blocks (f :: w) ++ y.blocks).Perm
        (Way.blocks w ++ (Fork.fill ⟨f.pos, left, (e, b) :: right⟩ a).blocks) := by
      rw [← hpair.fill]
      exact Way.blocks_fill
    have hentries : Way.front (f :: w) ++ (y.entries ++ Way.back (f :: w)) = Way.front w ++
        ((Fork.fill ⟨f.pos, left, (e, b) :: right⟩ a).entries ++ Way.back w) := by
      simp [← hpair.fill]
    rw [hentries] at hstorable ⊢
    have hledger' := hledger.perm hperm
    have hfits : (Fork.branch ⟨f.pos, left, (e, b) :: right⟩ a.pos).fits t.layout := by
      rw [← hbranch]
      exact hf.fits
    split
    · next hmfits =>
      rw [hbranch, Fork.branch_erase]
      have hshorter : (Fork.branch ⟨f.pos, left, right⟩ a.pos).fits t.layout := by
        refine Branch.fits_of_length_le ?_ hfits
        simp
      refine hw'.acts_joinBrothers (k := fun _ => t.collapse (Way.steps w) f.pos _) hl hpair.others
        hpair.standsLeft hpair.standsRight hm hmfits hshorter hledger' hstorable ?_
      intro d hw hx hledger
      have hjoined : (Fork.fill ⟨f.pos, left, (e, b) :: right⟩ a).entries =
          (Fork.fill ⟨f.pos, left, right⟩ m).entries := by
        simp [hm.entries, Fork.front, Fork.back]
      rw [hjoined] at hstorable ⊢
      have hgo := ih hw hx (fun _ => ?_) hledger hstorable
      · rw [Fork.node_fill, hm.pos] at hgo
        refine hgo.mono ?_
        rintro r d ⟨hr, hshrinks⟩
        refine ⟨hr, hshrinks.freed.weaken (hperm.trans (hm.perm_fill w f.pos left right)) ?_⟩
        rw [List.length_cons]
        omega
      · simp [hm.entries]
    · next hmfits =>
      by_cases hfull : y.Full
      · have hboth : a.Full ∧ b.Full := by
          rcases hpair.full with ⟨rfl, hb⟩ | ⟨rfl, ha⟩
          · exact ⟨hfull, hb⟩
          · exact ⟨ha, hfull⟩
        rw [hpair.standsLeft.rotate_eq_none hpair.standsRight hboth.1 hboth.2, ← hentries]
        rw [← hentries] at hstorable
        have hw : Way.Leads t.layout d depth (f :: w) y.pos := ⟨hf, hw'⟩
        exact Program.acts_pure ⟨rfl, .of_holds (hw.holds hy hfull hledger hstorable)
          (Way.entries_regrow _ _) (Nat.le_refl _) (Way.blocks_regrow _ _).symm⟩
      · have hempty : ¬a.Full ∨ ¬b.Full := by
          rcases hpair.full with ⟨rfl, -⟩ | ⟨rfl, -⟩
          · exact .inl hfull
          · exact .inr hfull
        have hkeys : ∀ z ∈ a.entries ++ b.entries, z.key.length = t.layout.keyLength := by
          intro z hz
          refine (hstorable z ?_).1
          rw [Fork.entries_fill_pair]
          grind
        obtain ⟨a', e', b', hrotates⟩ := hpair.standsLeft.exists_rotates hpair.standsRight hl.roomy
          hkeys (hm.long hl.roomy hmfits) hempty
        rw [hrotates.node, hbranch]
        dsimp only
        rw [← hrotates.posRight, @Fork.branch_set _ _ _ _ (e', b'), hrotates.posRight]
        refine (hw'.acts_rotateBrothers hl hpair.others hpair.standsLeft hpair.standsRight hrotates
          hfits hledger' hstorable).mono ?_
        rintro r d ⟨hr, hw, hx, hxfull, hledger⟩
        have hrotated : (Fork.fill ⟨f.pos, left, (e, b) :: right⟩ a).entries =
            (Fork.fill ⟨f.pos, left, (e', b') :: right⟩ a').entries := by
          rw [Fork.entries_fill_pair, Fork.entries_fill_pair, hrotates.entries]
        rw [hrotated] at hstorable ⊢
        refine ⟨hr, .of_holds (hw.holds hx hxfull hledger hstorable) (Way.entries_regrow _ _) ?_ ?_⟩
        · simp only [List.length_cons]
          omega
        · exact hperm.trans (((hrotates.perm_fill f.pos left right).append_left _).trans
            (Way.blocks_regrow _ _).symm)

/-- The way down to the first leaf. It goes on leading there when the blocks around the subtree
change. -/
theorem acts_firstLeaf {levels : Nat} {path : List Step} (hx : x.OnBoard t.layout c.cells depth)
    (hfull : x.Full) (hdepth : depth ≤ levels) :
    Program.Acts t.layout (t.firstLeaf levels path x.pos) c fun r c' => c' = c ∧
      ∃ (v : Way) (pos : BlockPos) (e : Entry) (rest : List Entry),
        r = .ok (Way.steps v ++ path, pos, e :: rest) ∧ Way.regrow v (.leaf pos (e :: rest)) = x ∧
        Way.front v = [] ∧ v.length = depth ∧ ∀ (d : Board) (w : Way),
        (∀ p ∈ x.blocks, d.cells p = c.cells p) →
          Way.Leads t.layout d depth w x.pos → Way.Leads t.layout d 0 (v ++ w) pos ∧
            (Subtree.leaf pos (e :: rest)).OnBoard t.layout d.cells 0 := by
  induction depth generalizing levels path x with
  | zero =>
    have honBoard := hx
    cases hx with
    | @leaf pos es hcell =>
    obtain ⟨e, rest, rfl⟩ := List.exists_cons_of_ne_nil (Subtree.full_leaf.mp hfull)
    unfold firstLeaf
    refine (Program.acts_loadNode Role.current_ne hcell).bind_ok ?_
    exact Program.acts_pure ⟨rfl, [], pos, e, rest, rfl, rfl, rfl, rfl, fun d w hcells hw =>
      ⟨hw, honBoard.congr hcells⟩⟩
  | succ depth ih =>
    obtain ⟨b, hb, hsplit⟩ := hx.split hfull
    obtain ⟨⟨fpos, left, right⟩, y, hstep, rfl, hf, hy, hyfull⟩ := hsplit 0 (Nat.zero_le _)
    obtain rfl : left = [] := List.length_eq_zero_iff.mp (congrArg Step.index hstep)
    rw [Fork.node_fill, Node.branch.injEq] at hb
    have hfirst : b.first = y.pos := congrArg Branch.first hb.symm
    obtain ⟨levels, rfl⟩ : ∃ n, levels = n + 1 := ⟨levels - 1, by omega⟩
    unfold firstLeaf
    refine (hx.acts_node Role.current_ne).bind_ok ?_
    rw [Fork.node_fill, hb]
    dsimp only
    rw [hfirst]
    refine (ih hy hyfull (Nat.le_of_succ_le_succ hdepth)).mono ?_
    rintro r c' ⟨rfl, v, pos, e, rest, rfl, rfl, hfront, hlength, hleads⟩
    refine ⟨rfl, v ++ [⟨fpos, [], right⟩], pos, e, rest, ?_, Way.regrow_append _ _ _, ?_, ?_,
      fun d w hcells hw => ?_⟩
    · simp [Way.steps, Fork.step]
    · simp [Way.front_append, hfront, Fork.front]
    · simp [hlength]
    · rw [List.append_assoc]
      refine hleads d (⟨fpos, [], right⟩ :: w) (fun p hp => hcells p ?_) ⟨hf.congr fun p hp =>
        hcells p ?_, hw⟩
      · exact Fork.blocks_fill.mem_iff.mpr (List.mem_append_right _ hp)
      · exact Fork.blocks_fill.mem_iff.mpr (List.mem_append_left _ hp)

/-- A leaf loses an entry. -/
theorem acts_shorten {rest : List Entry} (hl : t.layout.Workable)
    (hw : Way.Leads t.layout c 0 w pos) (hfits : Leaf.fits t.layout rest)
    (hroot : w = [] → rest ≠ []) (hledger : Ledger t.layout c (Way.blocks w ++ [pos]) free slots)
    (hstorable : ∀ a ∈ Way.front w ++ (rest ++ Way.back w), a.Storable t.layout) :
    Program.Acts t.layout (do
      t.putLeaf .current pos rest
      t.collapse (Way.steps w) pos (.leaf rest)
      return e) c fun r d => r = .ok e ∧
        Shrinks t.layout (Way.blocks w ++ [pos]) free slots (Way.front w ++ (rest ++ Way.back w))
          (w.length + 1) d := by
  refine (hw.acts_putLeaf hl Role.current_ne hfits hledger hstorable).bind
    (fun _ _ h => nomatch h.1) ?_
  rintro ⟨⟩ d ⟨-, -, hw, hx, hledger⟩
  have hcollapse := acts_collapse (y := Subtree.leaf pos rest) hl hw hx hroot hledger hstorable
  refine hcollapse.bind (fun _ _ h => nomatch h.1) ?_
  rintro ⟨⟩ d ⟨-, hshrinks⟩
  rw [Nat.zero_add] at hshrinks
  exact Program.acts_pure ⟨rfl, hshrinks⟩

/-- An entry of a leaf is taken away. -/
theorem acts_deleteInLeaf {front back : List Entry} (hl : t.layout.Workable)
    (hw : Way.Leads t.layout c 0 w pos)
    (hx : (Subtree.leaf pos (front ++ e :: back)).OnBoard t.layout c.cells 0)
    (hledger : Ledger t.layout c (Way.blocks w ++ [pos]) free slots)
    (hstorable : ∀ a ∈ Way.front w ++ (front ++ e :: back ++ Way.back w), a.Storable t.layout) :
    Program.Acts t.layout (t.deleteInLeaf (Way.steps w) pos front.length) c fun r d =>
      r = .ok e ∧ Shrinks t.layout (Way.blocks w ++ [pos]) free slots
        (Way.front w ++ (front ++ back ++ Way.back w)) (w.length + 1) d := by
  have hcell : c.cells pos = some (.node (.leaf (front ++ e :: back))) := hx.cell
  unfold deleteInLeaf
  refine (Tree.acts_leaf Role.current_ne hcell).bind_ok ?_
  split
  · next a hpath hentries =>
    obtain rfl : w = [] := List.map_eq_nil_iff.mp hpath
    have hlength := congrArg List.length hentries
    simp only [List.length_append, List.length_cons, List.length_nil] at hlength
    obtain rfl : front = [] := List.length_eq_zero_iff.mp (by omega)
    obtain rfl : back = [] := List.length_eq_zero_iff.mp (by omega)
    obtain rfl : e = a := List.head_eq_of_cons_eq hentries
    refine (Program.acts_modifyPointers _ (Nat.le_refl _)).bind_ok ?_
    refine ((hledger.setRoot .null).acts_free hl Role.current_ne).bind (fun _ _ h => nomatch h.1) ?_
    rintro ⟨⟩ d ⟨-, hledger, -, hroot⟩
    exact Program.acts_pure ⟨rfl, ⟨0, none, pos :: free, slots⟩, [pos], ⟨⟨rfl, hroot⟩, hledger, nofun⟩,
      rfl, rfl, Nat.zero_le _, rfl, .refl _⟩
  · next hmore =>
    have hsub : (front ++ back).Sublist (front ++ e :: back) :=
      (List.sublist_cons_self e back).append_left front
    have hfits : Leaf.fits t.layout (front ++ back) :=
      Leaf.fits_of_sublist hsub (fun a ha => (hstorable a (by grind)).1) hx.fits
    simp only [List.getElem?_append_right (Nat.le_refl _), Nat.sub_self, List.getElem?_cons_zero,
      List.eraseIdx_append_of_length_le (Nat.le_refl _), List.eraseIdx_cons_zero]
    refine acts_shorten hl hw hfits (fun hnil => ?_) hledger fun a ha => hstorable a ?_
    · rintro hempty
      obtain ⟨rfl, rfl⟩ := List.append_eq_nil_iff.mp hempty
      exact hmore e (congrArg Way.steps hnil) rfl
    · grind

section Separator

variable {z : Subtree} {left : List (Subtree × Entry)} {right : List (Entry × Subtree)} {a : Entry}

/-- The blocks of a way around the next subtree, with another separator in front of it. -/
theorem blocks_next : (Way.blocks (⟨pos, left, (e, z) :: right⟩ :: w) ++ y.blocks).Perm
    (Way.blocks (⟨pos, left ++ [(y, a)], right⟩ :: w) ++ z.blocks) := by
  refine List.perm_iff_count.mpr fun p => ?_
  simp [Fork.blocks, Fork.subtrees, List.count_cons]
  omega

/-- An entry behind a separator takes its place. -/
theorem acts_replaceSeparator (hl : t.layout.Workable)
    (hw : Way.Leads t.layout c depth (⟨pos, left, (e, z) :: right⟩ :: w) y.pos)
    (hy : y.OnBoard t.layout c.cells depth) (hyfull : y.Full)
    (hledger : Ledger t.layout c (Way.blocks (⟨pos, left, (e, z) :: right⟩ :: w) ++ y.blocks) free
      slots)
    (hstorable : ∀ a ∈ Way.front (⟨pos, left, (e, z) :: right⟩ :: w) ++
      (y.entries ++ Way.back (⟨pos, left, (e, z) :: right⟩ :: w)), a.Storable t.layout)
    (ha : a ∈ z.entries) :
    Program.Acts t.layout
      (t.putBranch .parent pos (Fork.branch ⟨pos, left ++ [(y, a)], right⟩ z.pos)) c fun r d =>
        r = .ok () ∧
          d = c.put pos (.node (.branch (Fork.branch ⟨pos, left ++ [(y, a)], right⟩ z.pos))) ∧
          Way.Leads t.layout d depth (⟨pos, left ++ [(y, a)], right⟩ :: w) z.pos ∧
          Ledger t.layout d (Way.blocks (⟨pos, left ++ [(y, a)], right⟩ :: w) ++ z.blocks) free
            slots := by
  obtain ⟨hf, hw'⟩ := hw
  have hz : z.OnBoard t.layout c.cells depth := hf.subtrees z (by simp [Fork.subtrees])
  have hzfull : z.Full := hf.full z (by simp [Fork.subtrees])
  have hsubtrees : ∀ u ∈ Fork.subtrees ⟨pos, left ++ [(y, a)], right⟩,
      u.OnBoard t.layout c.cells depth ∧ u.Full := by
    intro u hu
    have hmem : u = y ∨ u ∈ Fork.subtrees ⟨pos, left, (e, z) :: right⟩ := by
      simp only [Fork.subtrees, List.map_append, List.map_cons, List.map_nil] at hu ⊢
      grind
    rcases hmem with rfl | hu
    · exact ⟨hy, hyfull⟩
    · exact ⟨hf.subtrees u hu, hf.full u hu⟩
  have hfits : (Fork.branch ⟨pos, left ++ [(y, a)], right⟩ z.pos).fits t.layout := by
    refine Branch.fits_of_length_le ?_ hf.fits
    simp
    omega
  have hstorable' : ∀ b ∈ Way.front (⟨pos, left ++ [(y, a)], right⟩ :: w) ++
      (z.entries ++ Way.back (⟨pos, left ++ [(y, a)], right⟩ :: w)), b.Storable t.layout := by
    intro b hb
    refine hstorable b ?_
    simp only [Way.front_cons, Way.back_cons, Fork.front, Fork.back, List.flatMap_append,
      List.flatMap_cons, List.flatMap_nil] at hb ⊢
    grind
  have hstore := Way.Leads.acts_storeFork (f := ⟨pos, left ++ [(y, a)], right⟩) (x := z) hw' hl
    Role.parent_ne hsubtrees (by simp [Fork.subtrees]) hfits hz hzfull (hledger.perm blocks_next)
    hstorable'
  refine hstore.mono ?_
  rintro r d ⟨hr, hput, hleads, -, hledger⟩
  exact ⟨hr, hput, hleads, hledger⟩

/-- A separator is taken away: the first entry behind it takes its place. -/
theorem acts_deleteSeparator (hl : t.layout.Workable)
    (hw : Way.Leads t.layout c depth (⟨pos, left, (e, z) :: right⟩ :: w) y.pos)
    (hy : y.OnBoard t.layout c.cells depth) (hyfull : y.Full)
    (hdepth : depth + w.length + 1 ≤ maxLevels)
    (hledger : Ledger t.layout c (Way.blocks (⟨pos, left, (e, z) :: right⟩ :: w) ++ y.blocks) free
      slots)
    (hstorable : ∀ a ∈ Way.front (⟨pos, left, (e, z) :: right⟩ :: w) ++
      (y.entries ++ Way.back (⟨pos, left, (e, z) :: right⟩ :: w)), a.Storable t.layout) :
    Program.Acts t.layout
      (t.deleteSeparator (Way.steps (⟨pos, left, (e, z) :: right⟩ :: w)) pos left.length) c
      fun r d => r = .ok e ∧ Shrinks t.layout
        (Way.blocks (⟨pos, left, (e, z) :: right⟩ :: w) ++ y.blocks) free slots
        (Way.front (⟨pos, left, right⟩ :: w) ++
          (y.entries ++ (z.entries ++ Way.back (⟨pos, left, right⟩ :: w))))
        (depth + w.length + 2) d := by
  have hf := hw.1
  have hz : z.OnBoard t.layout c.cells depth := hf.subtrees z (by simp [Fork.subtrees])
  have hzfull : z.Full := hf.full z (by simp [Fork.subtrees])
  have hseparator : (Fork.branch ⟨pos, left, (e, z) :: right⟩ y.pos).separators[left.length]? =
    some (e, z.pos) := Fork.separator?_branch
  simp only [Way.steps_cons, deleteSeparator, Fork.step]
  refine (Tree.acts_branch Role.parent_ne hf.cell).bind_ok ?_
  simp only [hseparator]
  refine (acts_firstLeaf hz hzfull ?_).bind ?_ ?_
  · simp only [List.length_cons, Way.steps, List.length_map]
    omega
  · rintro _ _ ⟨-, v, leafPos, a, rest, hr, -⟩
    cases hr
  rintro place d ⟨rfl, v, leafPos, a, rest, hr, hv, hfront, hlength, hleads⟩
  cases hr
  dsimp only
  rw [@Fork.branch_set _ _ _ _ (a, z), ← Fork.branch_append]
  have hzentries : z.entries = a :: rest ++ Way.back v := by
    simp [← hv, hfront, Subtree.leaf]
  refine (acts_replaceSeparator hl hw hy hyfull hledger hstorable (a := a) (by simp [hzentries])).bind
    (fun _ _ h => by cases h.1) ?_
  rintro ⟨⟩ d' ⟨-, rfl, hw, hledger⟩
  -- The leaf is behind the replaced separator, in blocks that were not written.
  have hnot : pos ∉ z.blocks := fun hp =>
    (List.nodup_append.mp hledger.nodup_used).2.2 pos (by simp [Fork.blocks]) pos hp rfl
  obtain ⟨hw, hleaf⟩ := hleads _ (⟨pos, left ++ [(y, a)], right⟩ :: w)
    (fun p hp => Board.cells_put_ne (ne_of_mem_of_not_mem hp hnot)) hw
  have hpath : Way.steps v ++ ⟨pos, left.length + 1⟩ :: Way.steps w =
      Way.steps (v ++ ⟨pos, left ++ [(y, a)], right⟩ :: w) := by
    simp [Way.steps, Fork.step]
  have hblocks : (Way.blocks (⟨pos, left ++ [(y, a)], right⟩ :: w) ++ z.blocks).Perm
      (Way.blocks (v ++ ⟨pos, left ++ [(y, a)], right⟩ :: w) ++ [leafPos]) := by
    rw [← hv]
    refine List.perm_iff_count.mpr fun p => ?_
    have := (Way.blocks_regrow v (.leaf leafPos (a :: rest))).count_eq p
    simp [Way.blocks, Subtree.leaf, List.count_cons] at this ⊢
    omega
  have hentries : Way.front (v ++ ⟨pos, left ++ [(y, a)], right⟩ :: w) ++
      (rest ++ Way.back (v ++ ⟨pos, left ++ [(y, a)], right⟩ :: w)) =
        Way.front (⟨pos, left, right⟩ :: w) ++
          (y.entries ++ (z.entries ++ Way.back (⟨pos, left, right⟩ :: w))) := by
    simp [Way.front_append, Way.back_append, hfront, hzentries, Fork.front, Fork.back]
  have hshorter := acts_shorten (e := e) hl hw
    (Leaf.fits_of_sublist (List.sublist_cons_self _ _) (fun b hb => ?_) hleaf.fits) (by simp)
    (hledger.perm hblocks) fun b hb => hstorable b ?_
  · rw [hentries] at hshorter
    rw [hpath]
    refine hshorter.mono ?_
    rintro r d' ⟨hr, hshrinks⟩
    refine ⟨hr, hshrinks.weaken (blocks_next.trans hblocks) ?_⟩
    simp only [List.length_append, List.length_cons, hlength]
    omega
  · refine (hstorable b ?_).1
    simp only [Way.back_cons, Fork.back, List.flatMap_cons, hzentries]
    grind
  · rw [hentries] at hb
    simp only [Way.front_cons, Way.back_cons, Fork.front, Fork.back, List.flatMap_cons] at hb ⊢
    grind

end Separator

/-! ## The whole deletion -/

/-- What a deletion makes of a plan: an entry that is a hit is taken away, and it is the first one
if no key repeats that may not. -/
def Removes (t : Tree) (target : Entry) (exact : Bool) (p : Plan) (r : Except Error (Option Entry))
    (d : Board) : Prop :=
  (r = .ok none ∧ p.Holds t.layout d ∧
    ∀ a ∈ p.entries, Entry.compare t.collation exact target a ≠ .eq) ∨
  ∃ (e : Entry) (p' : Plan) (front back : List Entry), r = .ok (some e) ∧ p'.Holds t.layout d ∧
    p.entries = front ++ e :: back ∧ p'.entries = front ++ back ∧ p'.slots = p.slots ∧
    p'.levels ≤ p.levels ∧ (exact = true ∨ t.Ascending p.entries →
      ∀ a ∈ front, Entry.compare t.collation exact target a = .gt) ∧
    Entry.compare t.collation exact target e = .eq ∧
    ∃ gone, p'.free = gone ++ p.free ∧ p.blocks.Perm (gone ++ p'.blocks)

theorem Shrinks.removes {target : Entry} {exact : Bool} {p : Plan} {front back : List Entry}
    {levels : Nat} (h : Shrinks t.layout used p.free p.slots (front ++ back) levels d)
    (hblocks : p.blocks.Perm used) (hentries : p.entries = front ++ e :: back)
    (hlevels : levels ≤ p.levels)
    (hless : exact = true ∨ t.Ascending p.entries →
      ∀ a ∈ front, Entry.compare t.collation exact target a = .gt)
    (hhit : Entry.compare t.collation exact target e = .eq) :
    Removes t target exact p (.ok (some e)) d := by
  obtain ⟨p', gone, hp, hes, hslots, hle, hfree, hgone⟩ := h
  exact .inr ⟨e, p', front, back, rfl, hp, hentries, hes, hslots, Nat.le_trans hle hlevels, hless,
    hhit, gone, hfree, hblocks.trans hgone⟩

/-- A deletion takes away the first entry that is a hit, and no other. -/
theorem acts_delete {p : Plan} {target : Entry} {exact : Bool} (hl : t.layout.Workable)
    (hp : p.Holds t.layout c) (hasc : t.loose.Ascending p.entries)
      (hlevels : p.levels ≤ maxLevels + 1) :
    Program.Acts t.layout (t.delete target exact) c (Removes t target exact p) := by
  obtain ⟨levels, tree, free, slots⟩ := p
  unfold delete
  cases tree with
  | none =>
    refine (acts_locate_nil hp.tree.2).bind_ok ?_
    rw [if_pos (by decide)]
    exact Program.acts_done (.inl ⟨rfl, hp, fun _ h => by cases h⟩)
  | some x =>
    have hholds := hp
    obtain ⟨⟨depth, rfl, honBoard, hfull, hroot⟩, hledger, hstorable⟩ := hp
    have hpos : x.pos ≠ .null := hledger.ne_null (List.mem_append_left _ honBoard.pos_mem)
    have hbound : depth ≤ maxLevels := Nat.le_of_succ_le_succ hlevels
    refine (acts_locate hroot honBoard hfull hasc hbound hpos).bind ?_ ?_
    · rintro e d ⟨-, place, hr, -⟩
      cases hr
    rintro place d ⟨rfl, place', hr, hsearchEnds⟩
    cases hr
    cases hsearchEnds with
    | @leaf w pos front back a hx hw hleaf hless hhit hstate hbranch hpath hblock hindex =>
      have hentries : x.entries = (Way.front w ++ front) ++ a :: (back ++ Way.back w) := by
        simp [← hx, Subtree.leaf]
      have hdepth : 0 + w.length = depth :=
        hw.depth_eq hleaf (Subtree.full_leaf.mpr (by simp)) hx honBoard
      have hblocks : (Plan.blocks ⟨depth + 1, some x, free, slots⟩).Perm (Way.blocks w ++ [pos]) :=
        hx ▸ Way.blocks_regrow w _
      rw [if_neg (by simp [hstate]), if_neg (by simp [hbranch]), hpath, hblock, hindex]
      refine (acts_deleteInLeaf hl hw hleaf (hledger.perm hblocks) fun b hb => hstorable b ?_).bind
        (fun _ _ h => by cases h.1) ?_
      · show b ∈ x.entries
        rw [hentries]
        grind
      · rintro e d ⟨hr, hshrinks⟩
        cases hr
        have hes : Way.front w ++ (front ++ back ++ Way.back w) =
            (Way.front w ++ front) ++ (back ++ Way.back w) := by simp
        rw [hes, ← Nat.zero_add w.length, hdepth] at hshrinks
        exact Program.acts_pure
          (hshrinks.removes hblocks hentries (Nat.le_refl _) (fun _ => hless) hhit)
    | @branch depth' f w y z a right hx hw hy hyfull hright hless hbefore hhit hstate hbranch hpath
        hblock hindex =>
      obtain ⟨pos, left, fright⟩ := f
      dsimp only at hright hblock hindex
      subst hright
      have hentries : x.entries = (Way.front (⟨pos, left, (a, z) :: right⟩ :: w) ++ y.entries) ++
          a :: (z.entries ++ Way.back (⟨pos, left, right⟩ :: w)) := by
        simp [← hx, Fork.back]
      have hdepth : depth' + (w.length + 1) = depth := hw.depth_eq hy hyfull hx honBoard
      have hblocks : (Plan.blocks ⟨depth + 1, some x, free, slots⟩).Perm
          (Way.blocks (⟨pos, left, (a, z) :: right⟩ :: w) ++ y.blocks) := hx ▸ Way.blocks_regrow _ y
      rw [if_neg (by simp [hstate]), if_pos hbranch, hpath, hblock, hindex]
      refine (acts_deleteSeparator hl hw hy hyfull (hdepth ▸ hbound) (hledger.perm hblocks)
        fun b hb => hstorable b ?_).bind (fun _ _ h => by cases h.1) ?_
      · show b ∈ x.entries
        rw [← hx, Way.entries_regrow]
        exact hb
      · rintro e d ⟨hr, hshrinks⟩
        cases hr
        rw [← List.append_assoc,
          show depth' + w.length + 2 = depth + 1 from congrArg (· + 1) hdepth] at hshrinks
        refine Program.acts_pure
          (hshrinks.removes hblocks hentries (Nat.le_refl _) (fun hstrict b hb => ?_) hhit)
        exact (List.mem_append.mp hb).elim (hless b) (hbefore hstrict b)
    | @missing w pos front back hx hw hleaf hleaffull hless hgreater hstate hpath hplace hblock hkey =>
      have hentries : x.entries = (Way.front w ++ front) ++ (back ++ Way.back w) := by
        simp [← hx, Subtree.leaf]
      rw [if_pos hstate]
      refine Program.acts_done (.inl ⟨rfl, hholds, fun a ha hhit => ?_⟩)
      have ha : a ∈ x.entries := ha
      rw [hentries] at ha
      rcases List.mem_append.mp ha with ha | ha
      · rw [hless a ha] at hhit
        cases hhit
      · rw [hgreater a ha] at hhit
        cases hhit

end Tree

end PagedIndex
