import PagedIndex.Proofs.Session.TidyFiles
import PagedIndex.Proofs.Tree.Ledger
import PagedIndex.Proofs.Tree.Walks
import PagedIndex.Tree.Delete
import PagedIndex.Tree.Insert

/-!
# The programs of all calls keep files tidy

Blocks are read, taken, written and given back only at places where blocks may start, and every link
that is written leads to such a place, whatever the blocks hold that are read on the way. Nothing is
asked of the tree: it may be in no order, uneven, or no tree at all.

## Main statements

* `Program.Walks.keepsTidy` — a walk keeps files tidy.
* `Program.keepsTidy_allocate`, `Program.keepsTidy_free` — blocks are taken and given back.
* `Program.keepsTidy_popSlot`, `Program.keepsTidy_pushSlot` — so are record positions.
* `Tree.keepsTidy_insert`, `Tree.keepsTidy_delete` — entries come and go.
-/

namespace PagedIndex

theorem Layout.sites_start (l : Layout) : l.Sites l.Start := ⟨l.start_null, fun _ h => h.aligned⟩

/-- A walk along links that lead to where blocks may start keeps files tidy. -/
theorem Program.Walks.keepsTidy {α : Type} {l : Layout} {mark : BlockPos} {Q : α → Prop}
    {program : Program α} (h : program.Walks l l.Start Q) : program.KeepsTidy l mark Q := by
  induction h with
  | done ha => exact .done ha
  | fail => exact .fail
  | read hrole hpos hnull _ ih => exact .load hrole hpos hnull (.view hrole fun x _ hx => ih x hx)
  | pointers _ ih =>
    refine .pointers fun p hlead _ => ?_
    obtain ⟨hfree, hslots, hroot, hwater⟩ := Pointers.lead_iff.mp hlead
    exact ih p hroot hfree hslots fun q _ hq hle => ⟨hq, Nat.le_trans hle hwater.le⟩

namespace Program

variable {α β : Type} {l : Layout} {mark pos : BlockPos} {role : Role} {n : Node} {R : β → Prop}

/-! ## Single blocks -/

/-- An image that takes the place of another one. -/
theorem tidy_replace {image : Nat → Except Error Bytes}
    (h : ∀ x, image l.blockSize = .ok x → x.length = l.blockSize ∧ l.Tidy x) (old : Bytes)
    (hlen : old.length = l.blockSize) (hold : l.Tidy old) :
    (Edit.replace image old).1.length = l.blockSize ∧ l.Tidy (Edit.replace image old).1 := by
  unfold Edit.replace
  rw [hlen]
  cases hx : image l.blockSize with
  | ok x => exact h x hx
  | error e => exact ⟨hlen, hold⟩

theorem tidy_clear (hl : l.Workable) (old : Bytes) (hlen : old.length = l.blockSize)
    (_ : l.Tidy old) : (Edit.clear old).1.length = l.blockSize ∧ l.Tidy (Edit.clear old).1 := by
  unfold Edit.clear
  rw [hlen]
  exact ⟨List.length_replicate, Layout.tidy_filled hl.blockSize_pos⟩

/-- A node is stored whose links lead to where blocks may start. -/
theorem keepsTidy_storeNode (hl : l.Workable) (hrole : role ≠ .header) (hpos : l.Start pos)
    (hnull : pos ≠ .null) (hlinks : ∀ q ∈ n.links, l.Start q) :
    (storeNode l role pos n).KeepsTidy l mark fun _ => True :=
  .load hrole hpos hnull <| .edit hrole (tidy_replace fun _ hx =>
    ⟨(Node.front_of_encode hx).2, Layout.tidy_encode_node hl.roomy.1 hx hlinks⟩) (.done trivial)

theorem keepsTidy_getPointers_bind {f : Pointers → Program β}
    (hf : ∀ p : Pointers, p.Lead l → mark.offset ≤ p.highWater.offset → (f p).KeepsTidy l mark R) :
    (getPointers >>= f).KeepsTidy l mark R :=
  .pointers hf

theorem keepsTidy_modifyPointers {f : Pointers → Pointers} (hlead : ∀ p : Pointers, p.Lead l →
    (f p).Lead l)
    (hmark : ∀ p : Pointers, (f p).highWater = p.highWater) :
    (modifyPointers f).KeepsTidy l mark fun _ => True :=
  .pointers fun p hp hle => .setPointers (hlead p hp) (by rw [hmark]; exact hle) (.done trivial)

/-! ## Free space -/

section Workable

variable (hl : l.Workable)
include hl

/-- A deleted block is taken, or a new one. -/
theorem keepsTidy_allocate (hrole : role ≠ .header) :
    (allocate l role).KeepsTidy l mark fun pos => l.Start pos ∧ pos ≠ .null := by
  unfold allocate
  refine keepsTidy_getPointers_bind fun p hlead hmark => ?_
  obtain ⟨hfree, hslots, hroot, hwater⟩ := Pointers.lead_iff.mp hlead
  split
  · dsimp only
    split
    · exact .fail
    · next hle =>
      have hpos : l.Start (p.highWater.following l.blockSize) :=
        ⟨Nat.dvd_add hwater.aligned (Nat.dvd_refl _), Nat.not_lt.mp hle⟩
      have hbehind : mark.offset < (p.highWater.following l.blockSize).offset :=
        Nat.lt_of_le_of_lt hmark (Nat.lt_add_of_pos_right hl.blockSize_pos)
      have hnull : p.highWater.following l.blockSize ≠ .null := by
        intro h
        rw [h] at hbehind
        exact Nat.not_lt_zero _ hbehind
      exact .fresh hrole hpos hbehind (tidy_clear hl)
        (.setPointers (Pointers.lead_iff.mpr ⟨hfree, hslots, hroot, hpos⟩) (Nat.le_of_lt hbehind)
          (.done ⟨hpos, hnull⟩))
  · next hnull =>
    have hnull : p.freeHead ≠ .null := fun h => hnull (BlockPos.isNull_iff.mpr h)
    refine .load hrole hfree hnull (.view hrole fun x _ hx => ?_)
    refine (KeepsTidy.ofExcept (P := l.Start) fun next hnext => hx.deleted _ next hnext).bind
      fun next hnext => ?_
    exact .edit hrole (tidy_clear hl) (.setPointers
      (Pointers.lead_iff.mpr ⟨hnext, hslots, hroot, hwater⟩) hmark (.done ⟨hfree, hnull⟩))

omit hl in
/-- A block is given back. -/
theorem keepsTidy_free (hrole : role ≠ .header) (hpos : l.Start pos) :
    (free l role pos).KeepsTidy l mark fun _ => True := by
  unfold free
  split
  · exact .fail
  · next hnull =>
    have hnull : pos ≠ .null := fun h => hnull (BlockPos.isNull_iff.mpr h)
    refine keepsTidy_getPointers_bind fun p hlead hmark => ?_
    obtain ⟨hfree, hslots, hroot, hwater⟩ := Pointers.lead_iff.mp hlead
    refine .load hrole hpos hnull (.edit hrole (fun old hlen hold => ⟨?_, ?_⟩) (.setPointers
      (Pointers.lead_iff.mpr ⟨hpos, hslots, hroot, hwater⟩) hmark (.done trivial)))
    · rw [Deleted.length_stamp, hlen]
    · exact Layout.tidy_stamp hfree hold

omit hl in
/-- The current block becomes a slot block. -/
theorem keepsTidy_storeSlots {s : Slots} (hnext : l.Start s.next) :
    (storeSlots l s).KeepsTidy l mark fun _ => True :=
  .edit Role.current_ne (tidy_replace fun _ hx =>
    ⟨(Slots.front_of_encode hx).2, Layout.tidy_encode_slots hx hnext⟩) (.done trivial)

omit hl in
/-- The oldest record position that is listed is taken. -/
theorem keepsTidy_popSlot : (popSlot l).KeepsTidy l mark fun _ => True := by
  unfold popSlot
  refine keepsTidy_getPointers_bind fun p hlead hmark => ?_
  obtain ⟨hfree, hslots, hroot, hwater⟩ := Pointers.lead_iff.mp hlead
  dsimp only
  split
  · exact .done trivial
  · next hnull =>
    have hnull : p.slotHead ≠ .null := fun h => hnull (BlockPos.isNull_iff.mpr h)
    refine (Walks.loadSlots hslots hnull).keepsTidy.bind fun s hs => ?_
    split
    · exact .fail
    · exact .setPointers (Pointers.lead_iff.mpr ⟨hfree, hs, hroot, hwater⟩) hmark
        ((keepsTidy_free Role.current_ne hslots).bind fun _ _ => .done trivial)
    · next record rest _ _ =>
      exact (keepsTidy_storeSlots (s := { s with records := rest }) hs).bind fun _ _ => .done trivial

/-- A record position is listed in a new block. -/
theorem keepsTidy_pushNewSlot {next : BlockPos} {record : Nat} (hnext : l.Start next) :
    (pushNewSlot l next record).KeepsTidy l mark fun _ => True := by
  refine (keepsTidy_allocate hl Role.current_ne).bind fun pos hpos => ?_
  refine (keepsTidy_storeSlots hnext).bind fun _ _ =>
    keepsTidy_modifyPointers (fun p hlead => ?_) fun _ => rfl
  obtain ⟨hfree, -, hroot, hwater⟩ := Pointers.lead_iff.mp hlead
  exact Pointers.lead_iff.mpr ⟨hfree, hpos.1, hroot, hwater⟩

/-- A record position is listed. -/
theorem keepsTidy_pushSlot (record : Nat) : (pushSlot l record).KeepsTidy l mark fun _ => True := by
  unfold pushSlot
  refine keepsTidy_getPointers_bind fun p hlead _ => ?_
  have hslots := (Pointers.lead_iff.mp hlead).2.1
  dsimp only
  split
  · exact keepsTidy_pushNewSlot hl hslots
  · next hnull =>
    refine (Walks.loadSlots hslots fun h => hnull (BlockPos.isNull_iff.mpr h)).keepsTidy.bind
      fun s hs => ?_
    split
    · exact keepsTidy_storeSlots (s := { s with records := s.records ++ [record] }) hs
    · exact keepsTidy_pushNewSlot hl hslots

end Workable

end Program

namespace Tree

open Program

variable {t : Tree} {mark pos left right child : BlockPos} {path : List Step} {step : Step}
  {e separator : Entry} {es kept moved : List Entry} {n : Node} {b : Branch} {index levels : Nat}
  {target : Entry} {exact : Bool}

/-- The links of a branch. -/
theorem links_branch {P : BlockPos → Prop} {first : BlockPos} {ss : List (Entry × BlockPos)} :
    (∀ q ∈ (Node.branch ⟨first, ss⟩).links, P q) ↔ P first ∧ ∀ s ∈ ss, P s.2 := by
  simp only [Node.links, Branch.children, List.forall_mem_cons, List.forall_mem_map]

theorem keepsTidy_setRoot (hpos : t.layout.Start pos) :
    (setRoot pos).KeepsTidy t.layout mark fun _ => True := by
  refine keepsTidy_modifyPointers (fun p hlead => ?_) fun _ => rfl
  obtain ⟨hfree, hslots, -, hwater⟩ := Pointers.lead_iff.mp hlead
  exact Pointers.lead_iff.mpr ⟨hfree, hslots, hpos, hwater⟩

/-! ## Insertion -/

section Workable

variable (hl : t.layout.Workable)
include hl

theorem keepsTidy_putLeaf {role : Role} (hrole : role ≠ .header) (hpos : t.layout.Start pos)
    (hnull : pos ≠ .null) : (t.putLeaf role pos es).KeepsTidy t.layout mark fun _ => True :=
  keepsTidy_storeNode hl hrole hpos hnull nofun

theorem keepsTidy_putBranch {role : Role} {first : BlockPos} {ss : List (Entry × BlockPos)}
    (hrole : role ≠ .header) (hpos : t.layout.Start pos) (hnull : pos ≠ .null)
    (hfirst : t.layout.Start first) (hss : ∀ s ∈ ss, t.layout.Start s.2) :
    (t.putBranch role pos ⟨first, ss⟩).KeepsTidy t.layout mark fun _ => True :=
  keepsTidy_storeNode hl hrole hpos hnull (links_branch.mpr ⟨hfirst, hss⟩)

theorem keepsTidy_growRoot (hleft : t.layout.Start left) (hright : t.layout.Start right) :
    (t.growRoot left separator right).KeepsTidy t.layout mark fun _ => True := by
  refine (keepsTidy_allocate hl Role.parent_ne).bind fun root hroot => ?_
  refine (keepsTidy_putBranch hl Role.parent_ne hroot.1 hroot.2 hleft fun s hs => ?_).bind
    fun _ _ => keepsTidy_setRoot hroot.1
  rwa [List.mem_singleton.mp hs]

/-- A separator goes up. -/
theorem keepsTidy_promote (hpath : ∀ s ∈ path, t.layout.Start s.block) (hleft : t.layout.Start left)
    (hchild : t.layout.Start child) :
    (t.promote path left separator child).KeepsTidy t.layout mark fun _ => True := by
  induction path generalizing left separator child with
  | nil => exact keepsTidy_growRoot hl hleft hchild
  | cons step outer ih =>
    have hstep := hpath step List.mem_cons_self
    refine (Walks.loadBranch Role.parent_ne hstep).keepsTidy.bind fun b hb => ?_
    obtain ⟨hnull, hlinks⟩ := hb
    obtain ⟨hfirst, hseparators⟩ := links_branch.mp hlinks
    have hall : ∀ s ∈ b.separators.take step.index ++
        (separator, child) :: b.separators.drop step.index, t.layout.Start s.2 := by
      intro s hs
      rcases List.mem_append.mp hs with hs | hs
      · exact hseparators s (List.mem_of_mem_take hs)
      · rcases List.mem_cons.mp hs with rfl | hs
        · exact hchild
        · exact hseparators s (List.mem_of_mem_drop hs)
    dsimp only
    split
    · exact keepsTidy_putBranch hl Role.parent_ne hstep hnull hfirst hall
    · split
      · next last middle middleChild front hrev =>
        have hmem : ∀ s ∈ last :: (middle, middleChild) :: front, t.layout.Start s.2 := by
          intro s hs
          rw [← hrev] at hs
          exact hall s (List.mem_reverse.mp hs)
        obtain ⟨hlast, hmiddle, hfront⟩ := by
          simpa only [List.forall_mem_cons] using hmem
        refine (keepsTidy_putBranch hl Role.parent_ne hstep hnull hfirst fun s hs =>
          hfront s (List.mem_reverse.mp hs)).bind fun _ _ => ?_
        refine (keepsTidy_allocate hl Role.sibling_ne).bind fun right hright => ?_
        refine (keepsTidy_putBranch hl Role.sibling_ne hright.1 hright.2 hmiddle fun s hs => ?_).bind
          fun _ _ => ih (fun s hs => hpath s (List.mem_cons_of_mem _ hs)) hstep hright.1
        rwa [List.mem_singleton.mp hs]
      · exact .fail

/-- Entries go to the brother, if there is room. -/
theorem keepsTidy_offload (hpath : ∀ s ∈ path, t.layout.Start s.block) (hpos : t.layout.Start pos)
    (hnull : pos ≠ .null) :
    (t.offload path pos kept separator moved).KeepsTidy t.layout mark fun _ => True := by
  unfold offload
  split
  · exact .done trivial
  · next step outer =>
    have hstep := hpath step List.mem_cons_self
    refine (Walks.loadBranch Role.parent_ne hstep).keepsTidy.bind fun b hb => ?_
    obtain ⟨hthere, hlinks⟩ := hb
    obtain ⟨hfirst, hseparators⟩ := links_branch.mp hlinks
    split
    · exact .done trivial
    · next old right hold =>
      have hright : t.layout.Start right := hseparators _ (List.mem_of_getElem? hold)
      refine (Walks.loadLeaf Role.sibling_ne hright).keepsTidy.bind fun es hthere' => ?_
      dsimp only
      split
      · refine (keepsTidy_putLeaf hl Role.current_ne hpos hnull).bind fun _ _ => ?_
        refine (keepsTidy_putLeaf hl Role.sibling_ne hright hthere').bind fun _ _ => ?_
        refine (keepsTidy_putBranch hl Role.parent_ne hstep hthere hfirst fun s hs => ?_).bind
          fun _ _ => .done trivial
        rcases List.mem_or_eq_of_mem_set hs with hmem | rfl
        · exact hseparators s hmem
        · exact hright
      · exact .done trivial

/-- A leaf that overflows becomes two, or gives entries to its brother. -/
theorem keepsTidy_splitLeaf (hpath : ∀ s ∈ path, t.layout.Start s.block) (hpos : t.layout.Start pos)
    (hnull : pos ≠ .null) : (t.splitLeaf path pos es).KeepsTidy t.layout mark fun _ => True := by
  unfold splitLeaf
  dsimp only
  split
  · refine (keepsTidy_offload hl hpath hpos hnull).bind fun offloaded _ => ?_
    split
    · exact .done trivial
    · refine (keepsTidy_allocate hl Role.sibling_ne).bind fun right hright => ?_
      refine (keepsTidy_putLeaf hl Role.sibling_ne hright.1 hright.2).bind fun _ _ => ?_
      exact (keepsTidy_putLeaf hl Role.current_ne hpos hnull).bind
        fun _ _ => keepsTidy_promote hl hpath hpos hright.1
  · exact .fail

theorem keepsTidy_insertInLeaf (hpath : ∀ s ∈ path, t.layout.Start s.block)
    (hpos : t.layout.Start pos) (hnull : pos ≠ .null) :
    (t.insertInLeaf path pos es index e).KeepsTidy t.layout mark fun _ => True := by
  unfold insertInLeaf
  dsimp only
  split
  · exact keepsTidy_putLeaf hl Role.current_ne hpos hnull
  · exact keepsTidy_splitLeaf hl hpath hpos hnull

/-- An entry comes into a file. -/
theorem keepsTidy_insert : (t.insert e).KeepsTidy t.layout mark fun _ => True := by
  refine (walks_locate t.layout.sites_start.null).keepsTidy.bind fun d hd => ?_
  obtain ⟨hblock, hpath, hend⟩ := hd
  have hput : ∀ pos (index : List Entry → Nat), t.layout.Start pos →
      KeepsTidy t.layout mark (fun _ => True) (do
        let entries ← t.leaf .current pos
        t.insertInLeaf d.path pos entries (index entries) e
        return InsertOutcome.inserted) := by
    intro pos index hpos
    refine (Walks.loadLeaf Role.current_ne hpos).keepsTidy.bind fun es hnull => ?_
    exact (keepsTidy_insertInLeaf hl hpath hpos hnull).bind fun _ _ => .done trivial
  split
  · exact .done trivial
  · split
    · exact .done trivial
    · split
      · refine (keepsTidy_allocate hl Role.current_ne).bind fun pos hpos => ?_
        refine (keepsTidy_putLeaf hl Role.current_ne hpos.1 hpos.2).bind fun _ _ => ?_
        exact (keepsTidy_setRoot hpos.1).bind fun _ _ => .done trivial
      · split
        · next pos hpos => exact hput pos List.length (hend pos hpos)
        · split
          · exact .fail
          · exact hput d.block (fun _ => d.index) hblock

end Workable

/-! ## Deletion -/

/-- What two brothers are merged to leads where they lead. -/
theorem links_of_merge {a c merged : Node} (h : Node.merge a e c = .ok merged) :
    ∀ q ∈ merged.links, q ∈ a.links ∨ q ∈ c.links := by
  unfold Node.merge at h
  split at h
  · cases h
    exact nofun
  · next b b' =>
    cases h
    intro q hq
    simp only [Node.links, Branch.children, List.map_append, List.map_cons, List.mem_cons,
      List.mem_append] at hq ⊢
    rcases hq with hq | hq | hq | hq
    · exact .inl (.inl hq)
    · exact .inl (.inr hq)
    · exact .inr (.inl hq)
    · exact .inr (.inr hq)
  · cases h

/-- So do brothers one of which gives an entry to the other. -/
theorem links_of_rotate {a c a' c' : Node} {e' : Entry}
    (h : Node.rotate a e c = some (a', e', c')) :
    ∀ q, q ∈ a'.links ∨ q ∈ c'.links → q ∈ a.links ∨ q ∈ c.links := by
  unfold Node.rotate at h
  split at h
  · cases h
    exact fun q hq => hq
  · obtain ⟨last, -, heq⟩ := Option.map_eq_some_iff.mp h
    cases heq
    exact fun q hq => hq
  · next first middle a child rest =>
    cases h
    intro q hq
    simp only [Node.links, Branch.children, List.map_cons, List.map_nil, List.mem_cons,
      List.not_mem_nil, or_false] at hq ⊢
    rcases hq with (hq | hq) | hq | hq
    · exact .inl hq
    · exact .inr (.inl hq)
    · exact .inr (.inr (.inl hq))
    · exact .inr (.inr (.inr hq))
  · next first s ss middle =>
    obtain ⟨last, hlast, heq⟩ := Option.map_eq_some_iff.mp h
    cases heq
    intro q hq
    simp only [Node.links, Branch.children, List.map_cons, List.map_nil, List.mem_cons,
      List.not_mem_nil, or_false] at hq ⊢
    have hkept : ∀ x ∈ (s :: ss).dropLast.map Prod.snd, x = s.2 ∨ x ∈ ss.map Prod.snd := by
      intro x hx
      obtain ⟨r, hr, rfl⟩ := List.mem_map.mp hx
      exact List.mem_cons.mp (List.mem_map_of_mem (List.dropLast_subset _ hr))
    rcases hq with (hq | hq) | hq | hq
    · exact .inl (.inl hq)
    · exact .inl (.inr (hkept q hq))
    · refine .inl (.inr ?_)
      rw [hq]
      exact List.mem_cons.mp (List.mem_map_of_mem (List.mem_of_getLast? hlast))
    · exact .inr hq
  · cases h

/-- A tree block where one may start, and whose links lead to such places. -/
structure Sited (l : Layout) (pos : BlockPos) (n : Node) : Prop where
  start : l.Start pos
  ne_null : pos ≠ .null
  links : ∀ q ∈ n.links, l.Start q

/-- A node and its brother. -/
theorem keepsTidy_brothers (hb : ∀ q ∈ b.children, t.layout.Start q) (hn : Sited t.layout pos n) :
    (t.brothers step b pos n).KeepsTidy t.layout mark fun pair =>
      Sited t.layout pair.leftPos pair.left ∧ Sited t.layout pair.rightPos pair.right := by
  have hload : ∀ brother ∈ b.children, (t.node .sibling brother).KeepsTidy t.layout mark
      (Sited t.layout brother) := fun brother hbrother =>
    ((Walks.loadNode Role.sibling_ne (hb brother hbrother)).mono
      fun n hn => ⟨hb brother hbrother, hn.1, hn.2⟩).keepsTidy
  unfold brothers
  split
  · next old right hold =>
    refine (hload right (List.mem_cons_of_mem _ ?_)).bind fun m hm => .done ⟨hn, hm⟩
    exact List.mem_map_of_mem (List.mem_of_getElem? hold)
  · split
    · exact .fail
    · split
      · exact .fail
      · next left hleft =>
        exact (hload left (b.mem_children_of_child? hleft)).bind fun m hm => .done ⟨hm, hn⟩

/-- The way down to a first leaf. -/
theorem walks_firstLeaf {P : BlockPos → Prop} (hpath : ∀ s ∈ path, P s.block) (hpos : P pos) :
    (t.firstLeaf levels path pos).Walks t.layout P fun r =>
      (∀ s ∈ r.1, P s.block) ∧ P r.2.1 ∧ r.2.1 ≠ .null := by
  induction levels generalizing path pos with
  | zero =>
    unfold firstLeaf
    refine (Walks.loadNode Role.current_ne hpos).bind fun n hn => ?_
    cases n with
    | leaf es => exact .done ⟨hpath, hpos, hn.1⟩
    | branch b => exact .fail
  | succ levels ih =>
    unfold firstLeaf
    refine (Walks.loadNode Role.current_ne hpos).bind fun n hn => ?_
    cases n with
    | leaf es => exact .done ⟨hpath, hpos, hn.1⟩
    | branch b =>
      refine ih (fun s hs => ?_) (hn.2 _ b.first_mem_children)
      rcases List.mem_cons.mp hs with rfl | hs
      · exact hpos
      · exact hpath s hs

theorem keepsTidy_shrinkRoot (hn : Sited t.layout pos n) :
    (t.shrinkRoot pos n).KeepsTidy t.layout mark fun _ => True := by
  unfold shrinkRoot
  split
  · exact (keepsTidy_free Role.parent_ne hn.start).bind
      fun _ _ => keepsTidy_setRoot (hn.links _ List.mem_cons_self)
  · exact .done trivial

section Workable

variable (hl : t.layout.Workable)
include hl

/-- Blocks are merged all the way up. -/
theorem keepsTidy_collapse (hpath : ∀ s ∈ path, t.layout.Start s.block) (hn : Sited t.layout pos n) :
    (t.collapse path pos n).KeepsTidy t.layout mark fun _ => True := by
  induction path generalizing pos n with
  | nil => exact keepsTidy_shrinkRoot hn
  | cons step outer ih =>
    have hstep := hpath step List.mem_cons_self
    refine (Walks.loadBranch Role.parent_ne hstep).keepsTidy.bind fun b hb => ?_
    obtain ⟨hthere, hlinks⟩ := hb
    obtain ⟨hfirst, hseparators⟩ := links_branch.mp hlinks
    refine (keepsTidy_brothers hlinks hn).bind fun pair hpair => ?_
    obtain ⟨hleft, hright⟩ := hpair
    split
    · exact .fail
    · next separator child hsep =>
      have hchild : t.layout.Start child := hseparators _ (List.mem_of_getElem? hsep)
      refine (KeepsTidy.ofExcept (P := fun merged => ∀ q ∈ merged.links, t.layout.Start q)
        fun merged hmerged q hq => ?_).bind fun merged hmerged => ?_
      · exact (links_of_merge hmerged q hq).elim (hleft.links q) (hright.links q)
      split
      · have hkept : ∀ s ∈ b.separators.eraseIdx pair.index, t.layout.Start s.2 :=
          fun s hs => hseparators s (List.mem_of_mem_eraseIdx hs)
        refine (keepsTidy_storeNode hl Role.current_ne hleft.start hleft.ne_null hmerged).bind
          fun _ _ => ?_
        refine (keepsTidy_free Role.sibling_ne hright.start).bind fun _ _ => ?_
        refine (keepsTidy_putBranch hl Role.parent_ne hstep hthere hfirst hkept).bind fun _ _ => ?_
        exact ih (fun s hs => hpath s (List.mem_cons_of_mem _ hs))
          ⟨hstep, hthere, links_branch.mpr ⟨hfirst, hkept⟩⟩
      · split
        · exact .done trivial
        · next left' separator' right' hrotate =>
          have hmoved : ∀ q, q ∈ left'.links ∨ q ∈ right'.links → t.layout.Start q := fun q hq =>
            (links_of_rotate hrotate q hq).elim (hleft.links q) (hright.links q)
          refine (keepsTidy_storeNode hl Role.current_ne hleft.start hleft.ne_null
            fun q hq => hmoved q (.inl hq)).bind fun _ _ => ?_
          refine (keepsTidy_storeNode hl Role.sibling_ne hright.start hright.ne_null
            fun q hq => hmoved q (.inr hq)).bind fun _ _ => ?_
          refine keepsTidy_putBranch hl Role.parent_ne hstep hthere hfirst fun s hs => ?_
          rcases List.mem_or_eq_of_mem_set hs with hmem | rfl
          · exact hseparators s hmem
          · exact hchild

/-- An entry goes from a leaf, and what is left is merged upwards. -/
theorem keepsTidy_shorten (hpath : ∀ s ∈ path, t.layout.Start s.block) (hpos : t.layout.Start pos)
    (hnull : pos ≠ .null) (removed : Entry) : KeepsTidy t.layout mark (fun _ => True) (do
      t.putLeaf .current pos es
      t.collapse path pos (.leaf es)
      return removed) := by
  refine (keepsTidy_putLeaf hl Role.current_ne hpos hnull).bind fun _ _ => ?_
  exact (keepsTidy_collapse hl hpath ⟨hpos, hnull, fun _ hq => absurd hq List.not_mem_nil⟩).bind
    fun _ _ => .done trivial

theorem keepsTidy_deleteSeparator (hpath : ∀ s ∈ path, t.layout.Start s.block)
    (hpos : t.layout.Start pos) :
    (t.deleteSeparator path pos index).KeepsTidy t.layout mark fun _ => True := by
  unfold deleteSeparator
  split
  · exact .fail
  · next step outer =>
    refine (Walks.loadBranch Role.parent_ne hpos).keepsTidy.bind fun b hb => ?_
    obtain ⟨hthere, hlinks⟩ := hb
    obtain ⟨hfirst, hseparators⟩ := links_branch.mp hlinks
    split
    · exact .fail
    · next removed right hsep =>
      have hright : t.layout.Start right := hseparators _ (List.mem_of_getElem? hsep)
      have hdown : ∀ s ∈ ({ step with index := step.index + 1 } : Step) :: outer,
          t.layout.Start s.block := by
        simp only [List.forall_mem_cons] at hpath ⊢
        exact hpath
      refine (walks_firstLeaf hdown hright).keepsTidy.bind ?_
      rintro ⟨path', leafPos, entries⟩ ⟨hpath', hleafPos, hnull⟩
      dsimp only
      split
      · exact .fail
      · refine (keepsTidy_putBranch hl Role.parent_ne hpos hthere hfirst fun s hs => ?_).bind
          fun _ _ => keepsTidy_shorten hl hpath' hleafPos hnull removed
        rcases List.mem_or_eq_of_mem_set hs with hmem | rfl
        · exact hseparators s hmem
        · exact hright

theorem keepsTidy_deleteInLeaf (hpath : ∀ s ∈ path, t.layout.Start s.block)
    (hpos : t.layout.Start pos) :
    (t.deleteInLeaf path pos index).KeepsTidy t.layout mark fun _ => True := by
  refine (Walks.loadLeaf Role.current_ne hpos).keepsTidy.bind fun es hnull => ?_
  split
  · refine (keepsTidy_setRoot t.layout.start_null).bind fun _ _ => ?_
    exact (keepsTidy_free Role.current_ne hpos).bind fun _ _ => .done trivial
  · split
    · exact .fail
    · exact keepsTidy_shorten hl hpath hpos hnull _

/-- An entry goes from a file. -/
theorem keepsTidy_delete : (t.delete target exact).KeepsTidy t.layout mark fun _ => True := by
  refine (walks_locate t.layout.sites_start.null).keepsTidy.bind fun d hd => ?_
  obtain ⟨hblock, hpath, -⟩ := hd
  split
  · exact .done trivial
  · split
    · exact (keepsTidy_deleteSeparator hl hpath hblock).bind fun _ _ => .done trivial
    · exact (keepsTidy_deleteInLeaf hl hpath hblock).bind fun _ _ => .done trivial

end Workable

end Tree

end PagedIndex
