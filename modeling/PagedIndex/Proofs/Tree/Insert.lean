import PagedIndex.Proofs.Tree.Growth
import PagedIndex.Proofs.Tree.Locate
import PagedIndex.Tree.Insert

/-!
# Insertion makes room

## Main definitions

* `Tree.Grows` — the tree has grown, or the file cannot.
* `Tree.Answers`, `Tree.Inserts` — what an insertion answers, and makes of a plan.

## Main statements

* `Tree.acts_promote` — a separator that goes up leaves a tree.
* `Tree.acts_insertInLeaf` — an entry goes into the leaf at the end of a way.
* `Tree.acts_insert` — an insertion makes room for an entry that is not there.
-/

namespace PagedIndex

namespace Tree

/-- The tree of `levels` levels got the entries `es`, or the file reached its largest size. `Q`
tells of the blocks that were split, the blocks that were taken and the tree. -/
def Grows (l : Layout) (c : Board) (free : List BlockPos) (slots : List (BlockPos × List Nat))
    (es : List Entry) (levels needed : Nat) (Q : List BlockPos → List BlockPos → Subtree → Prop)
    (r : Except Error Unit) (d : Board) : Prop :=
  (r = .ok () ∧ ∃ (n : Nat) (x : Subtree) (splits taken free' : List BlockPos),
    Plan.Holds l d ⟨n, some x, free', slots⟩ ∧ x.entries = es ∧ Q splits taken x ∧
    Draws l free c.pointers.highWater taken free' d.pointers.highWater ∧
    n + splits.length = levels + taken.length) ∨
  (r = .error (.internal .sizeLimit) ∧ c.spare l free < needed)

variable {t : Tree} {c d : Board} {depth : Nat} {x y : Subtree} {e : Entry} {w : Way}
  {used free : List BlockPos} {slots : List (BlockPos × List Nat)}

theorem Grows.imp {l : Layout} {es : List Entry} {levels needed : Nat}
    {Q Q' : List BlockPos → List BlockPos → Subtree → Prop} {r : Except Error Unit}
    (h : Grows l c free slots es levels needed Q r d)
    (himp : ∀ splits taken x, Q splits taken x → Q' splits taken x) :
    Grows l c free slots es levels needed Q' r d := by
  obtain ⟨hr, n, x, splits, taken, free', hp, hes, hQ, hrest⟩ | herror := h
  · exact .inl ⟨hr, n, x, splits, taken, free', hp, hes, himp _ _ _ hQ, hrest⟩
  · exact .inr herror

/-- One more block is split, and one more was taken for it before. -/
theorem Grows.split {l : Layout} {c d d' : Board} {free free' : List BlockPos} {pos right : BlockPos}
    {es : List Entry} {levels needed : Nat} {Q Q' : List BlockPos → List BlockPos → Subtree → Prop}
    {r : Except Error Unit} (h : Grows l d free' slots es levels needed Q r d')
    (hdraws : ∀ taken free'' mark, Draws l free' d.pointers.highWater taken free'' mark →
      Draws l free c.pointers.highWater (right :: taken) free'' mark)
    (hspare : d.spare l free' + 1 = c.spare l free)
    (himp : ∀ splits taken x, Q splits taken x → Q' (pos :: splits) (right :: taken) x) :
    Grows l c free slots es levels (needed + 1) Q' r d' := by
  rcases h with ⟨hr, n, x, splits, taken, free'', hp, hes, hQ, hdrawn, hlevels⟩ | ⟨hr, hlt⟩
  · refine .inl ⟨hr, n, x, _, _, free'', hp, hes, himp _ _ _ hQ, hdraws _ _ _ hdrawn, ?_⟩
    simp only [List.length_cons]
    omega
  · exact .inr ⟨hr, by omega⟩

/-- Two trees of equal depth go below a new root. -/
theorem acts_growRoot (hl : t.layout.Workable) (hx : x.OnBoard t.layout c.cells depth)
    (hxf : x.Full) (hy : y.OnBoard t.layout c.cells depth) (hyf : y.Full)
    (hledger : Ledger t.layout c (x.blocks ++ y.blocks) free slots)
    (hstorable : ∀ a ∈ x.entries ++ e :: y.entries, a.Storable t.layout) :
    Program.Acts t.layout (t.growRoot x.pos e y.pos) c
      (Grows t.layout c free slots (x.entries ++ e :: y.entries) (depth + 1) 1
        (Way.Climbs t.layout [] x e y)) := by
  unfold growRoot
  refine hledger.acts_allocate hl nofun (fun h => .inr ⟨rfl, by omega⟩) ?_
  intro root free' d ht
  have hnew := (List.nodup_cons.mp ht.ledger.nodup_used).1
  rw [List.mem_append, not_or] at hnew
  have honBoard : (Subtree.branch root x [(e, y)]).OnBoard t.layout
      (d.put root (.node (Subtree.branch root x [(e, y)]).node)).cells (depth + 1) := by
    refine Subtree.onBoard_put_branch (Branch.fits_of_le_three hl.roomy (by simp)) ?_ ?_
    · simp only [List.map_cons, List.map_nil, List.forall_mem_cons, List.not_mem_nil,
        false_implies, implies_true, and_true]
      exact ⟨⟨ht.onBoard hx hnew.1, hxf⟩, ht.onBoard hy hnew.2, hyf⟩
    · simpa using hnew
  have hperm : (root :: (x.blocks ++ y.blocks)).Perm (Subtree.branch root x [(e, y)]).blocks := by
    simp [Subtree.branch]
  have hentries : (Subtree.branch root x [(e, y)]).entries = x.entries ++ e :: y.entries := by
    simp [Subtree.branch]
  have hstorable' : ∀ a ∈ (Subtree.branch root x [(e, y)]).entries, a.Storable t.layout := by
    rw [hentries]
    exact hstorable
  have hledger' := ht.ledger.perm hperm
  have hstore := hledger'.acts_storeSubtree hl Role.parent_ne honBoard
    (fun _ hp => hp) hstorable'
  refine (hstore.bind_ok ((Program.acts_modifyPointers _ (Nat.le_refl _)).mono ?_)).holding
  rintro r d' ⟨hr, rfl⟩
  have hput := hledger'.put honBoard.pos_mem (.node (Subtree.branch root x [(e, y)]).node)
  refine .inl ⟨hr, depth + 2, Subtree.branch root x [(e, y)], [], [root], free',
    ⟨⟨depth + 1, rfl, honBoard, Subtree.full_branch.mpr (List.cons_ne_nil _ _), rfl⟩, hput.setRoot root,
      hstorable'⟩, hentries, .root, ht.draws .done, rfl⟩

/-- A branch that overflows has separators enough for two branches and one between them. -/
theorem exists_last_two {l : Layout} {f : Fork} (hl : l.Roomy)
    (h : ¬(f.branch x.pos).fits l) : ∃ first front m y e z, front ≠ [] ∧
      f.fill x = Subtree.branch f.pos first (front ++ [(m, y), (e, z)]) ∧
      ∀ u, u ∈ first :: (front ++ [(m, y), (e, z)]).map Prod.snd ↔ u = x ∨ u ∈ f.subtrees := by
  have hlen : 3 < (line f.left x f.right).2.length := by
    have hnode : (f.fill x).node = .branch (f.branch x.pos) := Fork.node_fill
    simp only [Fork.fill, Subtree.branch, Node.branch.injEq] at hnode
    rw [← hnode] at h
    refine Nat.lt_of_not_le fun hle => h (Branch.fits_of_le_three hl ?_)
    simpa using hle
  have hchildren := Fork.children_fill (f := f) (x := x)
  unfold Fork.fill
  generalize line f.left x f.right = s at hlen hchildren ⊢
  obtain ⟨first, rest⟩ := s
  obtain ⟨back, rfl⟩ : ∃ back, rest = List.reverse back := ⟨rest.reverse, by simp⟩
  cases back with
  | nil => simp at hlen
  | cons last back =>
    cases back with
    | nil => simp at hlen
    | cons middle front =>
      have hback : (last :: middle :: front).reverse =
          front.reverse ++ [(middle.1, middle.2), (last.1, last.2)] := by
        simp
      rw [hback] at hchildren ⊢
      refine ⟨first, front.reverse, _, _, _, _, ?_, rfl, fun u => ?_⟩
      · rintro hnil
        simp [List.reverse_eq_nil_iff.mp hnil] at hlen
      · rw [← Fork.mem_children_fill, ← hchildren]

/-- The last two children of a branch go into a new one. -/
theorem acts_divide {β : Type} {f : BlockPos → Program β} {R : Except Error β → Board → Prop}
    {pos : BlockPos} {first z : Subtree} {front : List (Entry × Subtree)} {m : Entry}
    (hl : t.layout.Workable)
    (hfits : (Subtree.branch pos first front).node.fits t.layout)
    (hchildren : ∀ u ∈ first :: (front ++ [(m, y), (e, z)]).map Prod.snd,
      u.OnBoard t.layout c.cells depth ∧ u.Full)
    (hw : Way.Leads t.layout c (depth + 1) w pos)
    (hledger : Ledger t.layout c
      (Way.blocks w ++ (Subtree.branch pos first (front ++ [(m, y), (e, z)])).blocks) free slots)
    (hstorable : ∀ a ∈ (Subtree.branch pos first (front ++ [(m, y), (e, z)])).entries,
      a.Storable t.layout)
    (hfull : ∀ d, c.spare t.layout free = 0 → R (.error (.internal .sizeLimit)) d)
    (hf : ∀ right free' d, Way.Leads t.layout d (depth + 1) w pos →
      (Subtree.branch pos first front).OnBoard t.layout d.cells (depth + 1) →
      (Subtree.branch right y [(e, z)]).OnBoard t.layout d.cells (depth + 1) →
      Ledger t.layout d (Way.blocks w ++ ((Subtree.branch pos first front).blocks ++
        (Subtree.branch right y [(e, z)]).blocks)) free' slots →
      d.spare t.layout free' + 1 = c.spare t.layout free →
      (∀ taken free'' mark, Draws t.layout free' d.pointers.highWater taken free'' mark →
        Draws t.layout free c.pointers.highWater (right :: taken) free'' mark) →
      Program.Acts t.layout (f right) d R) :
    Program.Acts t.layout (do
      t.putBranch .parent pos ⟨first.pos, front.map fun s => (s.1, s.2.pos)⟩
      let right ← Program.allocate t.layout .sibling
      t.putBranch .sibling right ⟨y.pos, [(e, z.pos)]⟩
      f right) c R := by
  have hperm : (Way.blocks w ++ (Subtree.branch pos first (front ++ [(m, y), (e, z)])).blocks).Perm
      (Way.blocks w ++ (Subtree.branch pos first front).blocks ++ (y.blocks ++ z.blocks)) := by
    simp [Subtree.branch]
  have hledger := hledger.perm hperm
  have hnot : pos ∉ Way.blocks w ++ (first :: front.map Prod.snd).flatMap Subtree.blocks ++
      (y.blocks ++ z.blocks) := by
    refine (List.nodup_cons.mp (hledger.nodup_used.perm ?_)).1
    refine List.perm_iff_count.mpr fun p => ?_
    simp [Subtree.branch, List.count_cons]
    omega
  simp only [List.mem_append, not_or] at hnot
  obtain ⟨⟨hposw, hposfront⟩, hposy, hposz⟩ := hnot
  have hy := hchildren y (by simp)
  have hz := hchildren z (by simp)
  have hleft := Subtree.onBoard_put_branch hfits (fun u hu => hchildren u (by grind)) hposfront
  have hentries : (Subtree.branch pos first (front ++ [(m, y), (e, z)])).entries =
      (Subtree.branch pos first front).entries ++ m :: (Subtree.branch pos y [(e, z)]).entries := by
    simp [Subtree.branch]
  rw [hentries] at hstorable
  have hstore := Ledger.acts_storeSubtree (x := Subtree.branch pos first front) hledger hl
    Role.parent_ne
    hleft (fun p hp => List.mem_append_left _ (List.mem_append_right _ hp))
    fun a ha => hstorable a (List.mem_append_left _ ha)
  refine hstore.bind_ok ?_
  have hledger := hledger.put (List.mem_append_left _ (List.mem_append_right _ hleft.pos_mem))
    (.node (Subtree.branch pos first front).node)
  refine hledger.acts_allocate hl Role.sibling_ne (hfull _) fun right free' d ht => ?_
  have hnew := (List.nodup_cons.mp ht.ledger.nodup_used).1
  simp only [List.mem_append, not_or] at hnew
  obtain ⟨⟨hneww, hnewleft⟩, hnewy, hnewz⟩ := hnew
  have hright : (Subtree.branch right y [(e, z)]).OnBoard t.layout
      (d.put right (.node (Subtree.branch right y [(e, z)]).node)).cells (depth + 1) := by
    refine Subtree.onBoard_put_branch (Branch.fits_of_le_three hl.roomy (by simp)) ?_ (by simp [*])
    simp only [List.map_cons, List.map_nil, List.forall_mem_cons, List.not_mem_nil,
      false_implies, implies_true, and_true]
    exact ⟨⟨ht.onBoard (hy.1.put hposy) hnewy, hy.2⟩, ht.onBoard (hz.1.put hposz) hnewz, hz.2⟩
  have hperm' : (right :: (Way.blocks w ++ (Subtree.branch pos first front).blocks ++
      (y.blocks ++ z.blocks))).Perm (Way.blocks w ++ ((Subtree.branch pos first front).blocks ++
        (Subtree.branch right y [(e, z)]).blocks)) := by
    refine List.perm_iff_count.mpr fun p => ?_
    simp [Subtree.branch, List.count_cons]
    omega
  have hledger' := ht.ledger.perm hperm'
  have hstore' := Ledger.acts_storeSubtree (x := Subtree.branch right y [(e, z)]) hledger' hl
    Role.sibling_ne hright (fun p hp => List.mem_append_right _ (List.mem_append_right _ hp))
    fun a ha => hstorable a (List.mem_append_right _ (List.mem_cons_of_mem _ ha))
  refine (hstore'.bind_ok ?_).holding
  refine hf right free' _ ?_ ?_ hright (hledger'.put ?_ _) ht.spare fun _ _ _ h => ht.draws h
  · exact (ht.leads (hw.put hposw) hneww).put hneww
  · exact (ht.onBoard hleft hnewleft).put hnewleft
  · exact List.mem_append_right _ (List.mem_append_right _ hright.pos_mem)

/-- A separator that goes up, with the child `y` on its right, leaves a tree. -/
theorem acts_promote (hl : t.layout.Workable) (hw : Way.Leads t.layout c depth w x.pos)
    (hx : x.OnBoard t.layout c.cells depth) (hxf : x.Full) (hy : y.OnBoard t.layout c.cells depth)
    (hyf : y.Full) (hledger : Ledger t.layout c (Way.blocks w ++ (x.blocks ++ y.blocks)) free slots)
    (hstorable : ∀ a ∈ Way.front w ++ (x.entries ++ e :: y.entries ++ Way.back w),
      a.Storable t.layout) :
    Program.Acts t.layout (t.promote (Way.steps w) x.pos e y.pos) c
      (Grows t.layout c free slots (Way.front w ++ (x.entries ++ e :: y.entries ++ Way.back w))
        (depth + w.length + 1) (w.length + 1) (Way.Climbs t.layout w x e y)) := by
  induction w generalizing c depth x y e free with
  | nil =>
    simp only [Way.front_nil, Way.back_nil, List.nil_append, List.append_nil] at hstorable ⊢
    exact acts_growRoot hl hx hxf hy hyf hledger hstorable
  | cons f w ih =>
    obtain ⟨hf, hw⟩ := hw
    have hsubtrees : ∀ z ∈ (f.widen e y).subtrees, z.OnBoard t.layout c.cells depth ∧ z.Full := by
      intro z hz
      rcases Fork.mem_subtrees_widen.mp hz with rfl | hz
      · exact ⟨hy, hyf⟩
      · exact ⟨hf.subtrees z hz, hf.full z hz⟩
    have hledger' := hledger.perm (Way.blocks_widen f w x e y)
    rw [Way.entries_widen] at hstorable ⊢
    have hfirst : (f.branch x.pos).first = ((f.widen e y).branch x.pos).first := by
      rw [Fork.branch_widen]
    have hall : (f.branch x.pos).separators.take f.left.length ++
        (e, y.pos) :: (f.branch x.pos).separators.drop f.left.length =
        ((f.widen e y).branch x.pos).separators := by
      rw [Fork.branch_widen]
    simp only [Way.steps_cons, promote, Fork.step]
    refine (Tree.acts_branch Role.parent_ne hf.cell).bind_ok ?_
    simp only [hfirst, hall]
    split
    · next hfits =>
      refine (Way.Leads.acts_storeFork (f := f.widen e y) hw hl Role.parent_ne hsubtrees
        Fork.subtrees_widen_ne_nil hfits hx hxf hledger' hstorable).mono ?_
      rintro r d ⟨hr, rfl, hw', hx', hledger'⟩
      refine .inl ⟨hr, _, _, [], [], free, hw'.holds hx' hxf hledger' hstorable,
        Way.entries_regrow _ _, .room hfits, .done, ?_⟩
      simp only [List.length_cons, List.length_nil, Nat.add_assoc, Nat.add_comm 1]
    · next hfull =>
      obtain ⟨first, front, m, y', e', z, hfront, hfill, hchildren⟩ := exists_last_two hl.roomy hfull
      have hnode : ((f.widen e y).fill x).node = .branch ((f.widen e y).branch x.pos) := Fork.node_fill
      have hlength := Fork.length_separators_widen f e y x.pos
      have hperm := @Way.blocks_fill (f.widen e y) w x
      have hentries : Way.front (f.widen e y :: w) ++ (x.entries ++ Way.back (f.widen e y :: w)) =
          Way.front w ++ (((f.widen e y).fill x).entries ++ Way.back w) := by
        simp
      rw [hentries] at hstorable ⊢
      rw [hfill] at hnode hperm hstorable ⊢
      rw [← Node.branch.inj hnode] at hlength ⊢
      simp only [List.map_append, List.map_cons, List.map_nil, List.reverse_append,
        List.reverse_cons, List.reverse_nil, List.nil_append, List.cons_append, List.reverse_reverse]
      have hshorter : (Subtree.branch f.pos first front).node.fits t.layout := by
        refine Branch.fits_of_length_le ?_ hf.fits
        simp only [List.length_map, List.length_append, List.length_cons, List.length_nil] at hlength ⊢
        omega
      refine acts_divide hl hshorter (fun u hu => ?_) hw (hledger'.perm hperm) (fun a ha => ?_)
        (fun d h => .inr ⟨rfl, by omega⟩) fun r free' d hw hleft hright hledger hspare hdraws => ?_
      · rcases (hchildren u).mp hu with rfl | hu
        · exact ⟨hx, hxf⟩
        · exact hsubtrees u hu
      · exact hstorable a (List.mem_append_right _ (List.mem_append_left _ ha))
      · have hgo := ih (e := m) hw hleft (Subtree.full_branch.mpr hfront) hright
          (Subtree.full_branch.mpr (List.cons_ne_nil _ _)) hledger
        have hgrow : (Subtree.branch f.pos first front).entries ++
            m :: (Subtree.branch r y' [(e', z)]).entries ++ Way.back w =
            (Subtree.branch f.pos first (front ++ [(m, y'), (e', z)])).entries ++ Way.back w := by
          simp [Subtree.branch]
        have hlevels : depth + 1 + w.length + 1 = depth + (f :: w).length + 1 :=
          congrArg (· + 1) (Nat.add_right_comm depth 1 w.length)
        rw [hgrow, hlevels] at hgo
        exact (hgo hstorable).mono fun _ _ h => h.split hdraws hspare fun _ _ _ => .split hfull hfill

/-! ## Leaves -/

section Leaf

variable {pos : BlockPos} {init kept moved : List Entry} {promoted separator : Entry}

/-- What overflows is moved to the leaf on the right, or nothing is changed. -/
theorem acts_offload (hl : t.layout.Workable) (hw : Way.Leads t.layout c 0 w pos)
    (hfits : Leaf.fits t.layout kept) (hkept : kept ≠ [])
    (hledger : Ledger t.layout c (Way.blocks w ++ [pos]) free slots)
    (hstorable : ∀ a ∈ Way.front w ++ (kept ++ separator :: moved ++ Way.back w),
      a.Storable t.layout) :
    Program.Acts t.layout (t.offload (Way.steps w) pos kept separator moved) c fun r d =>
      (r = .ok false ∧ d = c ∧ ∀ x', ¬Way.Shifts t.layout pos kept separator moved w x') ∨
      (r = .ok true ∧ d.pointers.highWater = c.pointers.highWater ∧ ∃ x' : Subtree,
        Plan.Holds t.layout d ⟨w.length + 1, some x', free, slots⟩ ∧
        x'.entries = Way.front w ++ (kept ++ separator :: moved ++ Way.back w) ∧
        Way.Shifts t.layout pos kept separator moved w x') := by
  cases w with
  | nil =>
    refine Program.acts_done (.inl ⟨rfl, rfl, fun x' h => ?_⟩)
    cases h
  | cons f w =>
    obtain ⟨fpos, left, right⟩ := f
    obtain ⟨first, stem, hstem, hbranch⟩ := Fork.exists_stem left pos
    obtain ⟨hf, hw'⟩ := hw
    simp only [Way.steps_cons, offload, Fork.step]
    refine (Tree.acts_branch Role.parent_ne hf.cell).bind_ok ?_
    simp only [hbranch, ← hstem]
    cases right with
    | nil =>
      simp only [List.map_nil, List.append_nil, List.getElem?_eq_none (Nat.le_refl _)]
      refine Program.acts_done (.inl ⟨rfl, rfl, fun x' h => ?_⟩)
      cases h
    | cons s right =>
      obtain ⟨old, y⟩ := s
      have hy := hf.subtrees y (by simp [Fork.subtrees])
      cases hy with
      | @leaf right' es' hcell hfits' =>
      simp only [List.map_cons, List.getElem?_append_right (Nat.le_refl _), Nat.sub_self,
        List.getElem?_cons_zero, Subtree.pos_leaf]
      refine (Tree.acts_leaf Role.sibling_ne hcell).bind_ok ?_
      split
      · next hroom =>
        generalize hg : (⟨fpos, left, (separator, Subtree.leaf right' (moved ++ old :: es')) ::
          right⟩ : Fork) = g
        have hne : pos ≠ right' := by
          rintro rfl
          have := (List.nodup_append.mp hledger.nodup_used).2.2 pos
          simp [Fork.blocks, Fork.subtrees, Subtree.leaf] at this
        have hset : g.branch pos = ⟨first, (stem ++ (old, right') ::
            right.map fun s => (s.1, s.2.pos)).set stem.length (separator, right')⟩ := by
          rw [← hg, hbranch]
          simp
        rw [← hset]
        have hentries : Way.front (⟨fpos, left, (old, Subtree.leaf right' es') :: right⟩ :: w) ++
            (kept ++ separator :: moved ++
              Way.back (⟨fpos, left, (old, Subtree.leaf right' es') :: right⟩ :: w)) =
            Way.front (g :: w) ++ ((Subtree.leaf pos kept).entries ++ Way.back (g :: w)) := by
          simp [← hg, Fork.front, Fork.back, Subtree.leaf]
        rw [hentries] at hstorable ⊢
        have hkeptfull : (Subtree.leaf pos kept).Full := Subtree.full_leaf.mpr hkept
        have hledger' : Ledger t.layout c (Way.blocks (g :: w) ++ (Subtree.leaf pos kept).blocks) free
            slots := hledger.perm (.of_eq (by simp [← hg, Fork.blocks, Fork.subtrees, Subtree.leaf]))
        refine hw'.acts_storeBrothers (a := Subtree.leaf pos kept)
          (b := Subtree.leaf right' (moved ++ old :: es')) (k := fun _ => pure true) hl Role.current_ne
          Role.sibling_ne ?_ (.leaf ?_ hfits) (.leaf Board.cells_put_self hroom) hkeptfull ?_
          hg.symm ?_ hledger'
          hstorable ?_
        · intro z hz
          have hmem : z ∈ Fork.subtrees ⟨fpos, left, (old, Subtree.leaf right' es') :: right⟩ := by
            simp only [Fork.subtrees, List.map_cons]
            grind
          exact ⟨hf.subtrees z hmem, hf.full z hmem⟩
        · exact (Board.cells_put_ne hne).trans Board.cells_put_self
        · exact Subtree.full_leaf.mpr (by simp)
        · refine Branch.fits_of_length_le (Nat.le_of_eq ?_) hf.fits
          simp [hset, hbranch]
        · intro d hw hx hledger
          have hholds := hw.holds hx hkeptfull hledger hstorable
          rw [Nat.zero_add] at hholds
          exact Program.acts_done (.inr ⟨rfl, hledger.highWater_eq hledger' hl rfl, _, hholds,
            Way.entries_regrow _ _, hg ▸ .mk hroom⟩)
      · next hroom =>
        refine Program.acts_done (.inl ⟨rfl, rfl, fun x' h => ?_⟩)
        cases h with
        | mk h => exact hroom h

/-- A leaf that overflows gives entries to the leaf on the right, or is made two. -/
theorem acts_splitLeaf (hl : t.layout.Workable) (hw : Way.Leads t.layout c 0 w pos)
    (hinit : init ≠ []) (hfront : Leaf.fits t.layout (init ++ [promoted]))
    (hback : Leaf.fits t.layout (separator :: moved))
    (hfitting : Leaf.fittingPrefix t.layout (init ++ promoted :: separator :: moved) =
      init.length + 1)
    (hledger : Ledger t.layout c (Way.blocks w ++ [pos]) free slots)
    (hstorable : ∀ a ∈ Way.front w ++ (init ++ promoted :: separator :: moved ++ Way.back w),
      a.Storable t.layout) :
    Program.Acts t.layout
      (t.splitLeaf (Way.steps w) pos (init ++ promoted :: separator :: moved)) c
      (Grows t.layout c free slots
        (Way.front w ++ (init ++ promoted :: separator :: moved ++ Way.back w)) (w.length + 1)
        (w.length + 2) (Way.Divides t.layout w pos init promoted separator moved)) := by
  obtain ⟨last, front, hreverse⟩ :=
    List.exists_cons_of_ne_nil (List.reverse_ne_nil_iff.mpr hinit)
  have hfront' : (last :: front).reverse = init := by rw [← hreverse, List.reverse_reverse]
  have htake : ((init ++ promoted :: separator :: moved).take (init.length + 1)).reverse =
      promoted :: last :: front := by
    rw [List.take_length_add_append, List.reverse_append, hreverse]
    rfl
  have hdrop : (init ++ promoted :: separator :: moved).drop (init.length + 1) =
      separator :: moved := by
    simp [List.drop_append]
  unfold splitLeaf
  simp only [hfitting, htake, hdrop]
  rw [List.reverse_cons, hfront']
  have hstorable' : ∀ a ∈ Way.front w ++ (init ++ [promoted] ++ separator :: moved ++ Way.back w),
      a.Storable t.layout := by simpa using hstorable
  refine (acts_offload hl hw hfront (by simp) hledger hstorable').bind (fun e d h => ?_)
    fun moved' d h => ?_
  · rcases h with ⟨h, -⟩ | ⟨h, -⟩ <;> cases h
  rcases h with ⟨h, rfl, hno⟩ | ⟨h, hmark, x', hp, hes, hshifts⟩
  · cases h
    simp only [Bool.false_eq_true, if_false]
    refine hledger.acts_allocate hl Role.sibling_ne (fun h => .inr ⟨rfl, by omega⟩) ?_
    intro right free' d ht
    have hnew := (List.nodup_cons.mp ht.ledger.nodup_used).1
    rw [List.mem_append, not_or] at hnew
    have hne : pos ≠ right := fun h => hnew.2 (h ▸ List.mem_singleton_self _)
    have hperm : (right :: (Way.blocks w ++ [pos])).Perm
        (Way.blocks w ++ ((Subtree.leaf pos init).blocks ++
          (Subtree.leaf right (separator :: moved)).blocks)) := by
      refine List.perm_iff_count.mpr fun p => ?_
      simp [Subtree.leaf, List.count_cons]
      omega
    have hledger := ht.ledger.perm hperm
    have hy : (Subtree.leaf right (separator :: moved)).OnBoard t.layout
        (d.put right (.node (.leaf (separator :: moved)))).cells 0 :=
      .leaf Board.cells_put_self hback
    have hstorey := Ledger.acts_storeSubtree (x := Subtree.leaf right (separator :: moved)) hledger hl
      Role.sibling_ne hy (fun p hp => List.mem_append_right _ (List.mem_append_right _ hp))
      fun a (ha : a ∈ separator :: moved) => hstorable a (by grind)
    refine (hstorey.bind_ok ?_).holding
    have hledger := hledger.put (List.mem_append_right _ (List.mem_append_right _ hy.pos_mem))
      (.node (.leaf (separator :: moved)))
    have hinitfits : Leaf.fits t.layout init :=
      Leaf.fits_of_sublist (List.sublist_append_left _ _) (fun a ha => (hstorable a (by grind)).1)
        hfront
    have hx : (Subtree.leaf pos init).OnBoard t.layout ((d.put right
        (.node (.leaf (separator :: moved)))).put pos (.node (.leaf init))).cells 0 :=
      .leaf Board.cells_put_self hinitfits
    have hstorex := Ledger.acts_storeSubtree (x := Subtree.leaf pos init) hledger hl Role.current_ne hx
      (fun p hp => List.mem_append_right _ (List.mem_append_left _ hp))
      fun a (ha : a ∈ init) => hstorable a (by grind)
    refine hstorex.bind_ok ?_
    have hw' : Way.Leads t.layout ((d.put right (.node (.leaf (separator :: moved)))).put pos
        (.node (.leaf init))) 0 w pos := by
      refine ((ht.leads hw hnew.1).put hnew.1).put fun hp => ?_
      exact (List.nodup_append.mp ht.ledger.nodup_used.of_cons).2.2 pos hp pos
        (List.mem_singleton_self _) rfl
    have hledger := hledger.put (List.mem_append_right _ (List.mem_append_left _ hx.pos_mem))
      (.node (.leaf init))
    refine (acts_promote (e := promoted) hl hw' hx (Subtree.full_leaf.mpr hinit)
      (hy.put fun hp => hne (List.mem_singleton.mp hp)) (Subtree.full_leaf.mpr (List.cons_ne_nil _ _))
      hledger hstorable).mono fun r d' h => ?_
    rw [Nat.zero_add] at h
    exact h.split (fun _ _ _ => ht.draws) ht.spare fun _ _ _ => .split hno
  · cases h
    refine Program.acts_done (.inl ⟨rfl, _, x', [], [], free, hp, ?_, .shift hshifts, hmark ▸ .done,
      rfl⟩)
    simpa using hes

/-- An entry goes into a leaf. -/
theorem acts_insertInLeaf {front back : List Entry} (hl : t.layout.Workable)
    (hw : Way.Leads t.layout c 0 w pos)
    (hx : (Subtree.leaf pos (front ++ back)).OnBoard t.layout c.cells 0)
    (hledger : Ledger t.layout c (Way.blocks w ++ [pos]) free slots)
    (hstorable : ∀ a ∈ Way.front w ++ (front ++ e :: back ++ Way.back w), a.Storable t.layout) :
    Program.Acts t.layout
      (t.insertInLeaf (Way.steps w) pos (front ++ back) front.length e) c
      (Grows t.layout c free slots (Way.front w ++ (front ++ e :: back ++ Way.back w)) (w.length + 1)
        (w.length + 2) (Way.Places t.layout e w pos front back)) := by
  unfold insertInLeaf
  simp only [List.take_left, List.drop_left]
  split
  · next hfits =>
    refine (hw.acts_putLeaf hl Role.current_ne hfits hledger hstorable).mono ?_
    rintro r d ⟨hr, rfl, hw, hx, hledger⟩
    have hholds := hw.holds hx (Subtree.full_leaf.mpr (by simp)) hledger hstorable
    rw [Nat.zero_add] at hholds
    exact .inl ⟨hr, _, _, [], [], free, hholds, Way.entries_regrow _ _, .room hfits, .done, rfl⟩
  · next hfits =>
    have hkeys : ∀ a ∈ front ++ back, a.key.length = t.layout.keyLength :=
      fun a ha => (hstorable a (by grind)).1
    have hlt := Leaf.fittingPrefix_lt_length hl.roomy hfits
    have hthree := Leaf.three_le_fittingPrefix hl.roomy hfits
    have hprefix := Leaf.fits_take_fittingPrefix hl.roomy (front ++ e :: back)
    have hrest := Leaf.fits_drop_fittingPrefix hl.roomy hx.fits hkeys hfits
    generalize hall : front ++ e :: back = es at *
    have hlen : (es.take (Leaf.fittingPrefix t.layout es)).length =
        Leaf.fittingPrefix t.layout es := by
      rw [List.length_take]
      omega
    have hes := List.take_append_drop (Leaf.fittingPrefix t.layout es) es
    rcases List.eq_nil_or_concat (es.take (Leaf.fittingPrefix t.layout es)) with
      hnil | ⟨init, promoted, htake⟩
    · rw [hnil, List.length_nil] at hlen
      omega
    obtain ⟨separator, moved, hdrop⟩ := List.exists_cons_of_ne_nil
      (show es.drop (Leaf.fittingPrefix t.layout es) ≠ [] by simpa using hlt)
    rw [List.concat_eq_append] at htake
    rw [htake, List.length_append, List.length_singleton] at hlen
    rw [htake] at hprefix
    rw [hdrop] at hrest
    rw [htake, hdrop, List.append_assoc, List.singleton_append] at hes
    have hinit : init ≠ [] := by
      rintro rfl
      rw [List.length_nil] at hlen
      omega
    rw [← hes] at hstorable hlen ⊢
    refine (acts_splitLeaf hl hw hinit hprefix hrest hlen.symm hledger hstorable).mono ?_
    intro r d hgrows
    rw [← hall] at hfits hes
    exact hgrows.imp fun _ _ _ h => .full hfits hes.symm ((hes ▸ rfl : _ = _).trans hlen.symm) h

end Leaf

/-! ## The whole insertion -/

/-- What an insertion answers for the entries `old` of a tree, and those that it leaves. -/
def Answers (t : Tree) (e : Entry) (old : List Entry) (outcome : InsertOutcome)
    (new : List Entry) : Prop :=
  let present := ∃ a ∈ old, t.collation.compare e.key a.key = .eq ∧ e.record = a.record
  let keyPresent := ∃ a ∈ old, t.collation.compare e.key a.key = .eq
  match outcome with
  | .duplicateExact => present ∧ new = old
  | .duplicateKey => ¬present ∧ t.duplicates = false ∧ keyPresent ∧ new = old
  | .inserted => ¬present ∧ (t.duplicates = false → ¬keyPresent) ∧ t.Ascending new ∧
    ∃ front back, old = front ++ back ∧ new = front ++ e :: back

/-- What an insertion makes of a plan. The answer is right if no key repeats that may not. -/
def Inserts (t : Tree) (e : Entry) (p : Plan) (spare : Nat) (r : Except Error InsertOutcome)
    (d : Board) : Prop :=
  (∃ outcome p', r = .ok outcome ∧ p'.Holds t.layout d ∧ p'.slots = p.slots ∧
    t.loose.Ascending p'.entries ∧
    (t.Ascending p.entries → Answers t e p.entries outcome p'.entries) ∧
    (outcome ≠ .inserted → p' = p) ∧ p'.levels ≤ p.levels + 1 ∧
    (outcome = .inserted → ∃ path splits taken, p.Grown t.layout e path splits taken p')) ∨
  (r = .error (.internal .sizeLimit) ∧ spare < p.levels + 1)

/-- The first entry of all makes a leaf that is the root. -/
theorem acts_insert_first (hl : t.layout.Workable)
    (hp : Plan.Holds t.layout c ⟨0, none, free, slots⟩) (he : e.Storable t.layout) :
    Program.Acts t.layout (t.insert e) c
      (Inserts t e ⟨0, none, free, slots⟩ (c.spare t.layout free)) := by
  have hroot : c.pointers.root = .null := hp.tree.2
  have hledger := hp.ledger
  unfold insert
  refine (acts_locate_nil hroot).bind_ok ?_
  rw [if_neg (by decide), if_neg (by simp), if_pos (by decide)]
  refine hledger.acts_allocate hl Role.current_ne
    (fun h => .inr ⟨rfl, Nat.lt_succ_of_le (Nat.le_of_eq h)⟩) ?_
  intro pos free' d ht
  have hx : (Subtree.leaf pos [e]).OnBoard t.layout (d.put pos (.node (.leaf [e]))).cells 0 :=
    .leaf Board.cells_put_self (Leaf.fits_of_le_three hl.roomy (by simp))
  have hstore := Ledger.acts_storeSubtree (x := Subtree.leaf pos [e]) ht.ledger hl Role.current_ne hx
    (fun p hp => hp) (by simpa [Subtree.leaf] using he)
  refine (hstore.bind_ok ((Program.acts_modifyPointers _ (Nat.le_refl _)).bind_ok ?_)).holding
  have hledger := (ht.ledger.put List.mem_cons_self (.node (.leaf [e]))).setRoot pos
  have hnew : Plan.Holds t.layout
      { d.put pos (.node (.leaf [e])) with pointers := { d.pointers with root := pos } }
      ⟨1, some (.leaf pos [e]), free', slots⟩ :=
    ⟨⟨0, rfl, hx, Subtree.full_leaf.mpr (List.cons_ne_nil _ _), rfl⟩, hledger, by
      simpa [Plan.entries, Subtree.leaf] using he⟩
  have hdrawn := ht.draws .done
  rw [hp.highWater_eq hl, show d.pointers.highWater = _ from hnew.highWater_eq hl] at hdrawn
  refine Program.acts_done (.inl ⟨.inserted, ⟨1, some (.leaf pos [e]), free', slots⟩, rfl, hnew, rfl,
    List.pairwise_singleton _ _, fun _ => ?_, (fun h => absurd rfl h), Nat.le_refl _,
    fun _ => ⟨[], [], [pos], ⟨_, rfl, .first rfl⟩, rfl, hdrawn, rfl⟩⟩)
  · simp only [Answers, Plan.entries, Subtree.leaf, Ascending, Option.elim]
    refine ⟨?_, fun _ => ?_, List.pairwise_singleton _ _, [], [], rfl, rfl⟩
    · rintro ⟨a, ha, -⟩
      cases ha
    · rintro ⟨a, ha, -⟩
      cases ha

section Place

variable {front back : List Entry}

/-- An entry is not there if those in front of its place are less and those behind it are
greater. -/
theorem absent_of_place (hless : ∀ a ∈ front, Entry.compare t.collation true e a = .gt)
    (hgreater : ∀ a ∈ back, Entry.compare t.collation true e a = .lt) :
    ¬∃ a ∈ front ++ back, t.collation.compare e.key a.key = .eq ∧ e.record = a.record := by
  rintro ⟨a, ha, hsame⟩
  rw [← Entry.compare_exact_eq_iff] at hsame
  rcases List.mem_append.mp ha with ha | ha
  · rw [hless a ha] at hsame
    cases hsame
  · rw [hgreater a ha] at hsame
    cases hsame

/-- A tree that has grown by an entry in its place is what the insertion makes of a plan. -/
theorem Grows.inserts {pos : BlockPos} {leaf leaf' : List Entry} {r : Except Error Unit}
    (h : Grows t.layout c free slots (Way.front w ++ (leaf ++ e :: leaf' ++ Way.back w))
      (w.length + 1) (w.length + 2) (Way.Places t.layout e w pos leaf leaf') r d)
    (hl : t.layout.Workable) (hp : Plan.Holds t.layout c ⟨w.length + 1, some x, free, slots⟩)
    (hx : Way.regrow w (.leaf pos (leaf ++ leaf')) = x) (hasc : t.loose.Ascending x.entries)
    (hentries : x.entries = (Way.front w ++ leaf) ++ (leaf' ++ Way.back w))
    (hless : ∀ a ∈ Way.front w ++ leaf, Entry.compare t.collation true e a = .gt)
    (hgreater : ∀ a ∈ leaf' ++ Way.back w, Entry.compare t.collation true e a = .lt)
    (hunique : t.Ascending x.entries → t.duplicates = false →
      ¬∃ a ∈ x.entries, t.collation.compare e.key a.key = .eq) :
    Inserts t e ⟨w.length + 1, some x, free, slots⟩ (c.spare t.layout free)
      (r.map fun _ => .inserted) d := by
  rcases h with ⟨rfl, n, x', splits, taken, free', hp', hes, hplaces, hdrawn, hlevels⟩ | ⟨rfl, hlt⟩
  · have hnew : Plan.entries ⟨n, some x', free', slots⟩ =
        (Way.front w ++ leaf) ++ e :: (leaf' ++ Way.back w) := by
      rw [show Plan.entries _ = x'.entries from rfl, hes]
      simp
    rw [hp.highWater_eq hl, hp'.highWater_eq hl] at hdrawn
    have hgrown : Plan.Grown t.layout e ⟨w.length + 1, some x, free, slots⟩ (pos :: w.path) splits
        taken ⟨n, some x', free', slots⟩ :=
      ⟨⟨x', rfl, .into (congrArg some hx.symm) hplaces⟩, by simp [Way.path], hdrawn, hlevels⟩
    refine .inl ⟨.inserted, _, rfl, hp', rfl, ?_, fun hstrict => ⟨?_, hunique hstrict, ?_,
      Way.front w ++ leaf, leaf' ++ Way.back w, hentries, hnew⟩, (fun h => absurd rfl h), ?_,
      fun _ => ⟨_, _, _, hgrown⟩⟩
    · rw [hnew]
      exact Ascending.insert (t := t.loose) (hentries ▸ hasc) hless hgreater fun h => by cases h
    · rw [show Plan.entries _ = x.entries from rfl, hentries]
      exact absent_of_place hless hgreater
    · rw [hnew]
      exact Ascending.insert (hentries ▸ hstrict) hless hgreater fun hd a ha h =>
        hunique hstrict hd ⟨a, hentries ▸ ha, h⟩
    · rw [hgrown.levels_eq]
      split <;> omega
  · exact .inr ⟨rfl, hlt⟩

end Place

/-- An entry that is not there comes to its place, if there are blocks enough. -/
theorem acts_insert {p : Plan} (hl : t.layout.Workable) (hp : p.Holds t.layout c)
    (hasc : t.loose.Ascending p.entries) (hlevels : p.levels ≤ maxLevels + 1)
    (he : e.Storable t.layout) :
    Program.Acts t.layout (t.insert e) c (Inserts t e p (c.spare t.layout p.free)) := by
  obtain ⟨levels, tree, free, slots⟩ := p
  cases tree with
  | none =>
    obtain ⟨rfl, -⟩ := hp.tree
    exact acts_insert_first hl hp he
  | some x =>
    have hholds := hp
    obtain ⟨⟨depth, rfl, honBoard, hfull, hroot⟩, hledger, hstorable⟩ := hp
    have hpos : x.pos ≠ .null := hledger.ne_null (List.mem_append_left _ honBoard.pos_mem)
    unfold insert
    refine (acts_locate hroot honBoard hfull hasc (Nat.le_of_succ_le_succ hlevels) hpos).bind ?_ ?_
    · rintro e d ⟨-, place, hr, -⟩
      cases hr
    rintro place d ⟨rfl, place', hr, hsearchEnds⟩
    cases hr
    have hpresent : ∀ a ∈ x.entries, Entry.compare t.collation true e a = .eq →
        Inserts t e ⟨depth + 1, some x, free, slots⟩ (d.spare t.layout free)
          (.ok .duplicateExact) d := by
      intro a ha hcmp
      exact .inl ⟨.duplicateExact, _, rfl, hholds, rfl, hasc,
        fun _ => ⟨⟨a, ha, Entry.compare_exact_eq_iff.mp hcmp⟩, rfl⟩, fun _ => rfl, Nat.le_succ _,
        fun h => by cases h⟩
    cases hsearchEnds with
    | @leaf w pos front back a hx hw hleaf hless hhit hstate hbranch hpath hblock hindex =>
      rw [if_pos hstate]
      exact Program.acts_done (hpresent a (by simp [← hx, Subtree.leaf]) hhit)
    | branch hx hw honBoard hfull hright hless hbefore hhit hstate hbranch hpath hblock hindex =>
      rw [if_pos hstate]
      refine Program.acts_done (hpresent _ ?_ hhit)
      simp [← hx, Way.regrow, Fork.back, hright]
    | @missing w pos front back hx hw hleaf hleaffull hless hgreater hstate hpath hplace hblock hkey =>
      rw [if_neg hstate]
      have hentries : x.entries = (Way.front w ++ front) ++ (back ++ Way.back w) := by
        simp [← hx, Subtree.leaf]
      have habsent : ¬∃ a ∈ x.entries,
          t.collation.compare e.key a.key = .eq ∧ e.record = a.record := by
        rw [hentries]
        exact absent_of_place hless hgreater
      split
      · next hrepeat =>
        rw [Bool.and_eq_true, Bool.not_eq_true'] at hrepeat
        exact Program.acts_done (.inl ⟨.duplicateKey, _, rfl, hholds, rfl, hasc,
          fun hstrict => ⟨habsent, hrepeat.2, (hkey rfl hrepeat.2 hstrict).mp hrepeat.1, rfl⟩,
          fun _ => rfl, Nat.le_succ _, fun h => by cases h⟩)
      · next hrepeat =>
        have hunique : t.Ascending x.entries → t.duplicates = false →
            ¬∃ a ∈ x.entries, t.collation.compare e.key a.key = .eq := by
          intro hstrict hd hex
          exact hrepeat (by simp [hd, (hkey rfl hd hstrict).mpr hex])
        obtain rfl : w.length = depth := by
          rw [← Nat.zero_add w.length]
          exact hw.depth_eq hleaf hleaffull hx honBoard
        have hblocks : x.blocks.Perm (Way.blocks w ++ [pos]) := hx ▸ Way.blocks_regrow w _
        have hledger' := hledger.perm (show (Plan.blocks ⟨_, some x, free, slots⟩).Perm _ from hblocks)
        have hnull : place.block ≠ .null :=
          hledger.ne_null ((hledger.cells _).mp hblock)
        have hstorable' : ∀ a ∈ Way.front w ++ (front ++ e :: back ++ Way.back w),
            a.Storable t.layout := by
          intro a ha
          have hmem : a = e ∨ a ∈ x.entries := by
            rw [hentries]
            grind
          rcases hmem with rfl | ha
          · exact he
          · exact hstorable a ha
        have hdone : ∀ r d', Grows t.layout d free slots _ _ _ _ r d' →
            Inserts t e ⟨w.length + 1, some x, free, slots⟩ (d.spare t.layout free)
              (r.map fun _ => .inserted) d' :=
          fun r d' h => h.inserts hl hholds hx hasc hentries hless hgreater hunique
        have hgo : Program.Acts t.layout (do
            t.insertInLeaf (Way.steps w) pos (front ++ back) front.length e
            return InsertOutcome.inserted) d
            (Inserts t e ⟨w.length + 1, some x, free, slots⟩ (d.spare t.layout free)) :=
          (acts_insertInLeaf hl hw hleaf hledger' hstorable').bind (fun _ _ h => hdone _ _ h)
            fun _ _ h => Program.acts_pure (hdone _ _ h)
        have hcell : d.cells pos = some (.node (.leaf (front ++ back))) := hleaf.cell
        rw [BlockPos.isNull_eq_false hnull, if_neg Bool.false_ne_true, hpath]
        rcases hplace with ⟨hend, rfl⟩ | ⟨hend, honbranch, rfl, hindex⟩
        · rw [hend]
          refine (Tree.acts_leaf Role.current_ne hcell).bind_ok ?_
          rw [List.append_nil] at hgo ⊢
          exact hgo
        · rw [hend, honbranch, hindex]
          exact (Tree.acts_leaf Role.current_ne hcell).bind_ok hgo

end Tree

end PagedIndex
