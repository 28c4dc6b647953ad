import PagedIndex.Proofs.Tree.Capacity
import PagedIndex.Proofs.Tree.Deep

/-!
# How full blocks are

Entries leave a leaf and come to another one, and leaves and branches are merged and split, but no
block is ever asked to hold more than it has room for, and no block of a tree is left without
entries.

## Main definitions

* `Mount.Occupied` — a block that holds a node with entries.

## Main statements

* `Tree.insert_has_room` — a leaf that overflows can be made two, and an insertion never lacks room.
* `Tree.Filed.occupied` — all blocks of a tree have entries.
* `Tree.delete_has_room` — a deletion never lacks room, and it leaves no block of a tree empty.
-/

namespace PagedIndex

/-- A block that holds a node with entries, which fits there. -/
def Mount.Occupied (m : Mount) (l : Layout) (s : Buffered) (pos : BlockPos) : Prop :=
  ∃ x n, m.content s pos = some x ∧ Node.decode l pos x = .ok n ∧ n.Seated l ∧ n.isEmpty = false

/-- Every block of a subtree holds a node with entries, if the first one does. -/
theorem Subtree.OnBoard.exists_node {l : Layout} {cells : BlockPos → Option Cell} {depth : Nat}
    {x : Subtree}
    (h : x.OnBoard l cells depth) (hfull : x.Full) :
    ∀ q ∈ x.blocks, ∃ n, cells q = some (.node n) ∧ n.isEmpty = false := by
  induction h with
  | leaf hcell _ =>
    intro q hq
    obtain rfl := List.mem_singleton.mp hq
    exact ⟨_, hcell, hfull⟩
  | branch hcell _ _ hchildren ih =>
    intro q hq
    rcases List.mem_cons.mp hq with rfl | hq
    · exact ⟨_, hcell, hfull⟩
    · obtain ⟨y, hy, hq⟩ := List.mem_flatMap.mp hq
      exact ih y hy (hchildren y hy) q hq

namespace Tree

variable {t : Tree} {m : Mount} {p : Plan} {s : Buffered}

/-- No block of a tree is without entries. -/
theorem Filed.occupied (h : t.Filed m p s) : ∀ q ∈ p.blocks, m.Occupied t.layout s q := by
  intro q hq
  obtain ⟨v, c, hrests, hshown, hholds⟩ := h.held
  have htree := hholds.tree
  unfold Plan.blocks at hq
  cases hx : p.tree with
  | none => simp [hx] at hq
  | some x =>
    simp only [hx, Option.elim] at hq htree
    obtain ⟨depth, -, honBoard, hfull, -⟩ := htree
    obtain ⟨n, hcell, hsome⟩ := honBoard.exists_node hfull q hq
    obtain ⟨image, himage, -, hdecode⟩ := hshown.held q _ hcell
    have hseated := Node.seated_decode h.workable.blockSize_pos hdecode
    exact ⟨image, n, (hrests.blocks q image himage).2.2, hdecode, hseated, hsome⟩

/-- A leaf that one more entry makes overflow can be made two, wherever the entry goes. No insertion
fails for lack of room, whatever the blocks hold and whatever is refused. -/
theorem insert_has_room (t : Tree) (hl : t.layout.Roomy) (e : Entry)
    (he : e.key.length = t.layout.keyLength) :
    (∀ front back : List Entry, (∀ x ∈ front ++ back, x.key.length = t.layout.keyLength) →
      Leaf.fits t.layout (front ++ back) → ¬Leaf.fits t.layout (front ++ e :: back) →
        Leaf.Splits t.layout (front ++ e :: back)) ∧
    ∀ m : Mount, m.blockSize = t.layout.blockSize →
      Confined (Session.Fit m) (fun _ => True) (Session.perform (t.insert e)) := by
  refine ⟨fun front back hkeys hold hnew => Leaf.splits hl ?_ hold hnew, fun m hsize => ?_⟩
  · grind
  · apply Session.perform_confined (C := False)
    rw [hsize]
    exact ample_insert hl he

/-- A session that has just begun with a small file. -/
theorem fit_small : Session.Fit (Session.memoryMount 64)
    ({ file := 1, layout := small.layout, locked := false }, Session.smallBuffered 64) := by
  obtain ⟨v, c, hrests, -⟩ := filed_small.held
  refine Session.fit_new rfl (by decide) ⟨hrests.intact.sound, hrests.intact.store, ?_, ?_⟩
  · intro i b hb hown
    exact (hrests.intact.whole i b hb hown).2
  · intro r hr
    rw [hrests.pending r hr]
    nofun

/-- An entry goes between the eight entries of a full leaf, and into a file that has just been
made. -/
theorem insert_has_room_small :
    ∃ front back : List Entry, Leaf.Splits small.layout (front ++ ⟨[0x4A], 7⟩ :: back) ∧
    Ends (Session.perform (small.insert ⟨[0x4A], 7⟩))
      ({ file := 1, layout := small.layout, locked := false }, Session.smallBuffered 64)
      fun r _ => Contained r := by
  obtain ⟨hsplits, hroom⟩ := insert_has_room small (by decide) ⟨[0x4A], 7⟩ rfl
  refine ⟨[⟨[0x41], 1⟩, ⟨[0x42], 2⟩, ⟨[0x43], 3⟩], [⟨[0x51], 4⟩, ⟨[0x52], 5⟩, ⟨[0x53], 6⟩,
    ⟨[0x54], 7⟩, ⟨[0x55], 8⟩], hsplits _ _ (by decide) (by decide) (by decide), ?_⟩
  exact (hroom (Session.memoryMount 64) rfl _ fit_small).mono fun _ _ h => h.1

/-- The blocks that leave a tree by a deletion are free after it, and the others have entries. -/
theorem Filed.delete_leaves_occupied (h : t.Filed m p s) (target : Entry) (exact locked : Bool)
    (mode : EndMode) :
    Ends (Session.transact m.file t.layout locked mode (t.delete target exact)) s fun _ s' =>
      ∃ p' gone, t.Filed m p' s' ∧ p'.free = gone ++ p.free ∧ p.blocks.Perm (gone ++ p'.blocks) ∧
        ∀ q ∈ p'.blocks, m.Occupied t.layout s' q := by
  refine (h.transact_ends locked mode
    (revises_delete_any h.workable h.ascending target exact)).mono ?_
  rintro r s' (⟨_, p', -, hfiled, -, gone, hfree, hblocks⟩ | ⟨_, -, hfiled, -⟩)
  · exact ⟨p', gone, hfiled, hfree, hblocks, hfiled.occupied⟩
  · exact ⟨p, [], hfiled, rfl, .refl _, hfiled.occupied⟩

/-- Entries take no more room when some of them are left out. So no deletion fails for lack of room,
whatever the blocks hold and whatever is refused; brothers that do not fit in one block both have
entries in the end; and of the blocks of a tree those that have none are free when the call ends. -/
theorem delete_has_room (t : Tree) (target : Entry) (exact : Bool) :
    (∀ es fs : List Entry, es.Sublist fs → (∀ e ∈ fs, e.key.length = t.layout.keyLength) →
      Leaf.encodedSize t.layout es ≤ Leaf.encodedSize t.layout fs ∧
      ∀ c, Leaf.encodeEntries t.layout none fs = .ok c →
        ∃ b, Leaf.encodeEntries t.layout none es = .ok b ∧ b.length ≤ c.length) ∧
    (t.layout.minBlockSize ≤ t.layout.blockSize →
      (∀ m : Mount, m.blockSize = t.layout.blockSize →
        Confined (Session.Fit m) (fun _ => True) (Session.perform (t.delete target exact))) ∧
      ∀ (left right n : Node) (e : Entry), left.Seated t.layout → right.Seated t.layout →
        e.key.length = t.layout.keyLength → Node.merge left e right = .ok n → ¬n.fits t.layout →
          Node.Evens t.layout left e right) ∧
    ∀ (m : Mount) (p : Plan) (s : Buffered), t.Filed m p s → ∀ (locked : Bool) (mode : EndMode),
      Ends (Session.transact m.file t.layout locked mode (t.delete target exact)) s fun _ s' =>
        ∃ p' gone, t.Filed m p' s' ∧ p'.free = gone ++ p.free ∧ p.blocks.Perm (gone ++ p'.blocks) ∧
          ∀ q ∈ p'.blocks, m.Occupied t.layout s' q := by
  refine ⟨fun es fs hsub hkeys => ?_, fun hl => ⟨fun m hsize => ?_, ?_⟩, ?_⟩
  · exact ⟨Leaf.encodedSize_le_of_sublist hsub hkeys,
      fun c hc => Leaf.encodeEntries_of_sublist hsub hkeys hc⟩
  · apply Session.perform_confined (C := True)
    rw [hsize]
    exact ample_delete hl
  · intro left right n e hleft hright he hmerge hlong
    exact Node.evens hl hleft hright he hmerge hlong
  · intro m p s hfiled locked mode
    exact hfiled.delete_leaves_occupied target exact locked mode

/-- An entry is taken from a file without entries and from one of two levels, and a leaf without
entries gets one from a full brother. -/
theorem delete_has_room_small :
    Leaf.encodedSize small.layout [⟨[0x42], 2⟩] ≤
      Leaf.encodedSize small.layout [⟨[0x41], 1⟩, ⟨[0x42], 2⟩] ∧
    Ends (Session.perform (small.delete ⟨[0x41], 0⟩ false))
      ({ file := 1, layout := small.layout, locked := false }, Session.smallBuffered 64)
      (fun r _ => Contained r) ∧
    (∃ right, Node.Evens small.layout (.leaf []) ⟨[0x40], 0⟩ right) ∧
    ∃ s, sample.Filed (Session.memoryMount 512) samplePlan s ∧
      Ends (Session.transact 1 sample.layout false .keep (sample.delete ⟨[0x43], 0⟩ false)) s
        fun _ s' => ∃ p' gone, sample.Filed (Session.memoryMount 512) p' s' ∧
          p'.free = gone ++ samplePlan.free ∧ samplePlan.blocks.Perm (gone ++ p'.blocks) ∧
          ∀ q ∈ p'.blocks, (Session.memoryMount 512).Occupied sample.layout s' q := by
  obtain ⟨hsub, hroom, -⟩ := delete_has_room small ⟨[0x41], 0⟩ false
  obtain ⟨hconfined, hevens⟩ := hroom (by decide)
  refine ⟨(hsub _ _ (by simp) (by decide)).1, ?_, ?_, ?_⟩
  · exact (hconfined (Session.memoryMount 64) rfl _ fit_small).mono fun _ _ h => h.1
  · have hright : (Node.leaf [⟨[0x41], 1⟩, ⟨[0x42], 2⟩, ⟨[0x43], 3⟩, ⟨[0x44], 4⟩, ⟨[0x45], 5⟩,
        ⟨[0x46], 6⟩, ⟨[0x47], 7⟩, ⟨[0x48], 8⟩]).Seated small.layout := ⟨by decide, by decide⟩
    exact ⟨_, hevens (.leaf []) _ _ ⟨[0x40], 0⟩ ⟨by decide, nofun⟩ hright rfl rfl (by decide)⟩
  · obtain ⟨-, -, hstocked⟩ := delete_has_room sample ⟨[0x43], 0⟩ false
    obtain ⟨s, hfiled⟩ : ∃ s, sample.Filed (Session.memoryMount 512) samplePlan s := ⟨_, filed_sample⟩
    exact ⟨s, hfiled, hstocked (Session.memoryMount 512) samplePlan s hfiled false .keep⟩

end Tree

end PagedIndex
