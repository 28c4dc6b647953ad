import PagedIndex.Proofs.Tree.WellFormed
import PagedIndex.Tree.Delete
import PagedIndex.Tree.Insert

/-!
# Insertions and deletions keep files well-formed

Entries come and go, blocks are split and merged, and every link of the file still leads to one of
its blocks. Nothing is asked of the order of the entries: it is the same whether the tree was made
under the collation that it is now searched by or not.

## Main statements

* `Tree.keeps_insert`, `Tree.keeps_delete` — a well-formed board stays well-formed, unless the
  program fails.
* `Tree.keeps_promote`, `Tree.keeps_collapse` — so it does all the way up.
-/

namespace PagedIndex

namespace Branch

variable {l : Layout} {c : Board} {b : Branch} {s : Entry × BlockPos} {i : Nat}

/-- A branch of which one separator goes. -/
theorem wellFormed_eraseIdx (h : (Node.branch b).WellFormed l c) (i : Nat) :
    (Node.branch { b with separators := b.separators.eraseIdx i }).WellFormed l c :=
  .branch h.first fun s hs => h.separators s (List.mem_of_mem_eraseIdx hs)

/-- A branch of which one separator is another. -/
theorem wellFormed_set (h : (Node.branch b).WellFormed l c) (i : Nat)
    (hs : s.1.Storable l ∧ c.Has s.2) :
    (Node.branch { b with separators := b.separators.set i s }).WellFormed l c := by
  refine .branch h.first fun s' hs' => ?_
  rcases List.mem_or_eq_of_mem_set hs' with hmem | rfl
  · exact h.separators s' hmem
  · exact hs

theorem wellFormed_of_getElem? (h : (Node.branch b).WellFormed l c) (hs : b.separators[i]? = some s) :
    s.1.Storable l ∧ c.Has s.2 :=
  h.separators s (List.mem_of_getElem? hs)

end Branch

namespace Node

variable {l : Layout} {c : Board} {left right n left' right' : Node} {e e' : Entry}

/-- Brothers that are merged are well-formed if they were. -/
theorem wellFormed_of_merge (h : merge left e right = .ok n) (hleft : left.WellFormed l c)
    (he : e.Storable l)
    (hright : right.WellFormed l c) : n.WellFormed l c := by
  unfold merge at h
  split at h
  · next es fs =>
    cases h
    refine .leaf fun a ha => ?_
    rcases List.mem_append.mp ha with ha | ha
    · exact hleft.1 a ha
    · rcases List.mem_cons.mp ha with rfl | ha
      · exact he
      · exact hright.1 a ha
  · next b b' =>
    cases h
    refine .branch hleft.first fun s hs => ?_
    rcases List.mem_append.mp hs with hs | hs
    · exact hleft.separators s hs
    · rcases List.mem_cons.mp hs with rfl | hs
      · exact ⟨he, hright.first⟩
      · exact hright.separators s hs
  · cases h

/-- So are brothers one of which gives an entry to the other. -/
theorem wellFormed_of_rotate (h : rotate left e right = some (left', e', right'))
    (hleft : left.WellFormed l c)
    (he : e.Storable l) (hright : right.WellFormed l c) :
    left'.WellFormed l c ∧ e'.Storable l ∧ right'.WellFormed l c := by
  unfold rotate at h
  split at h
  · next first es =>
    cases h
    refine ⟨.leaf fun a ha => ?_, hright.1 _ List.mem_cons_self,
      .leaf fun a ha => hright.1 a (List.mem_cons_of_mem _ ha)⟩
    rwa [List.mem_singleton.mp ha]
  · next first es =>
    obtain ⟨last, hlast, heq⟩ := Option.map_eq_some_iff.mp h
    cases heq
    refine ⟨.leaf fun a ha => hleft.1 a (List.dropLast_subset _ ha),
      hleft.1 _ (List.mem_of_getLast? hlast), .leaf fun a ha => ?_⟩
    rwa [List.mem_singleton.mp ha]
  · next first middle a child rest =>
    cases h
    obtain ⟨ha, hchild⟩ := hright.separators _ List.mem_cons_self
    refine ⟨.branch hleft.first fun s hs => ?_, ha,
      .branch hchild fun s hs => hright.separators s (List.mem_cons_of_mem _ hs)⟩
    rw [List.mem_singleton.mp hs]
    exact ⟨he, hright.first⟩
  · next first s ss middle =>
    obtain ⟨last, hlast, heq⟩ := Option.map_eq_some_iff.mp h
    cases heq
    obtain ⟨ha, hchild⟩ := hleft.separators _ (List.mem_of_getLast? hlast)
    refine ⟨.branch hleft.first fun s hs => hleft.separators s (List.dropLast_subset _ hs), ha,
      .branch hchild fun s hs => ?_⟩
    rw [List.mem_singleton.mp hs]
    exact ⟨he, hright.first⟩
  · cases h

end Node

namespace Tree

open Program

variable {t : Tree} {c : Board} {pos left child right : BlockPos} {e target : Entry} {role : Role}
  {path : List Step} {es kept moved : List Entry} {n : Node} {b : Branch} {step : Step}
  {exact : Bool} {levels index : Nat}

/-- What loading a node tells of a well-formed board. -/
theorem wellFormed_node (hc : c.WellFormed t.layout) (hn : c.cells pos = some (.node n)) :
    (c.cells pos).isSome ∧ n.WellFormed t.layout c :=
  ⟨by rw [hn]; rfl, hc.cells pos _ hn⟩

theorem has_of_mem {d : Board} (hpath : ∀ s ∈ path, c.Has s.block) (h : c.Grows d) :
    ∀ s ∈ path, d.Has s.block := fun s hs => (hpath s hs).grows h

theorem keeps_setRoot (hc : c.WellFormed t.layout) (hpos : c.Has pos) :
    Keeps t.layout (setRoot pos) c fun _ _ => True := by
  refine keeps_modifyPointers _ hc ?_ rfl
  have hold := hc.pointers
  simp only [Pointers.fields, List.forall_mem_cons] at hold ⊢
  exact ⟨hold.1, hold.2.1, hpos, hold.2.2.2⟩

/-! ## Insertion -/

section Insertion

variable (hl : t.layout.Workable)
include hl

theorem keeps_growRoot (hc : c.WellFormed t.layout) (hleft : c.Has left) (he : e.Storable t.layout)
    (hright : c.Has right) : Keeps t.layout (t.growRoot left e right) c fun _ _ => True := by
  have hnode : (Node.branch ⟨left, [(e, right)]⟩).WellFormed t.layout c := by
    refine .branch hleft fun s hs => ?_
    rw [List.mem_singleton.mp hs]
    exact ⟨he, hright⟩
  exact keeps_allocate_node hl Role.parent_ne hc hnode fun root d hd _ hroot =>
    keeps_setRoot hd (.inr hroot)

/-- A separator goes up. -/
theorem keeps_promote (hc : c.WellFormed t.layout) (hpath : ∀ s ∈ path, c.Has s.block)
    (hleft : c.Has left) (he : e.Storable t.layout) (hchild : c.Has child) :
    Keeps t.layout (t.promote path left e child) c fun _ _ => True := by
  induction path generalizing c left e child with
  | nil => exact keeps_growRoot hl hc hleft he hchild
  | cons step outer ih =>
    have hstep := hpath step List.mem_cons_self
    refine (looks_loadBranch hc.closed Role.parent_ne hstep).bind_keeps fun b hb => ?_
    obtain ⟨hthere, hnode⟩ := wellFormed_node hc hb
    have hall : ∀ s ∈ b.separators.take step.index ++ (e, child) :: b.separators.drop step.index,
        s.1.Storable t.layout ∧ c.Has s.2 := by
      intro s hs
      rcases List.mem_append.mp hs with hs | hs
      · exact hnode.separators s (List.mem_of_mem_take hs)
      · rcases List.mem_cons.mp hs with rfl | hs
        · exact ⟨he, hchild⟩
        · exact hnode.separators s (List.mem_of_mem_drop hs)
    dsimp only
    split
    · exact keeps_storeNode hl Role.parent_ne (hc.awaits hthere) (.branch hnode.first hall)
    · split
      · next last middle middleChild front hrev =>
        have hmem : ∀ s ∈ last :: (middle, middleChild) :: front,
            s.1.Storable t.layout ∧ c.Has s.2 := by
          intro s hs
          rw [← hrev] at hs
          exact hall s (List.mem_reverse.mp hs)
        obtain ⟨hlast, hmiddle, hfront⟩ := by
          simpa only [List.forall_mem_cons] using hmem
        have hkept : (Node.branch ⟨b.first, front.reverse⟩).WellFormed t.layout c :=
          .branch hnode.first fun s hs => hfront s (List.mem_reverse.mp hs)
        have hnew : (Node.branch ⟨middleChild, [last]⟩).WellFormed t.layout c := by
          refine .branch hmiddle.2 fun s hs => ?_
          rwa [List.mem_singleton.mp hs]
        refine (keeps_storeNode hl Role.parent_ne (hc.awaits hthere) hkept).bind
          fun _ d hd hgrows _ => ?_
        refine keeps_allocate_node hl Role.sibling_ne hd (hnew.grows hgrows)
          fun right d' hd' hgrows' hright => ?_
        have hup := has_of_mem (fun s hs => hpath s (List.mem_cons_of_mem _ hs))
          (hgrows.trans hgrows')
        exact ih hd' hup (hstep.grows (hgrows.trans hgrows')) hmiddle.1 (.inr hright)
      · exact keeps_fail

/-- Entries go to the brother, if there is room. -/
theorem keeps_offload (hc : c.WellFormed t.layout) (hpath : ∀ s ∈ path, c.Has s.block)
    (hpos : (c.cells pos).isSome) (hkept : ∀ a ∈ kept, a.Storable t.layout)
    (he : e.Storable t.layout) (hmoved : ∀ a ∈ moved, a.Storable t.layout) :
    Keeps t.layout (t.offload path pos kept e moved) c fun _ _ => True := by
  unfold offload
  split
  · exact keeps_pure hc trivial
  · next step outer =>
    have hstep := hpath step List.mem_cons_self
    refine (looks_loadBranch hc.closed Role.parent_ne hstep).bind_keeps fun b hb => ?_
    obtain ⟨hthere, hnode⟩ := wellFormed_node hc hb
    split
    · exact keeps_pure hc trivial
    · next old right hold =>
      obtain ⟨hsep, hright⟩ : old.Storable t.layout ∧ c.Has right :=
        Branch.wellFormed_of_getElem? hnode hold
      refine (looks_loadLeaf hc.closed Role.sibling_ne hright).bind_keeps fun es hes => ?_
      obtain ⟨hthere', hleaf⟩ := wellFormed_node hc hes
      have hentries : ∀ a ∈ moved ++ old :: es, a.Storable t.layout := by
        intro a ha
        rcases List.mem_append.mp ha with ha | ha
        · exact hmoved a ha
        · rcases List.mem_cons.mp ha with rfl | ha
          · exact hsep
          · exact hleaf.1 a ha
      dsimp only
      split
      · refine (keeps_storeNode hl Role.current_ne (hc.awaits hpos) (.leaf hkept)).bind
          fun _ d hd hgrows _ => ?_
        refine (keeps_storeNode hl Role.sibling_ne (hd.awaits (hgrows _ hthere'))
          (.leaf hentries)).bind fun _ d' hd' hgrows' _ => ?_
        have hboth := hgrows.trans hgrows'
        refine (keeps_storeNode hl Role.parent_ne (hd'.awaits (hboth _ hthere))
          (Branch.wellFormed_set (hnode.grows hboth) step.index ⟨he, hright.grows hboth⟩)).bind
          fun _ d'' hd'' _ _ => ?_
        exact keeps_pure hd'' trivial
      · exact keeps_pure hc trivial

/-- A leaf that overflows becomes two, or gives entries to its brother. -/
theorem keeps_splitLeaf (hc : c.WellFormed t.layout) (hpath : ∀ s ∈ path, c.Has s.block)
    (hpos : (c.cells pos).isSome) (hes : ∀ a ∈ es, a.Storable t.layout) :
    Keeps t.layout (t.splitLeaf path pos es) c fun _ _ => True := by
  unfold splitLeaf
  dsimp only
  split
  · next promoted second front separator moved hrev hdrop =>
    have hfront : ∀ a ∈ promoted :: second :: front, a.Storable t.layout := by
      intro a ha
      rw [← hrev] at ha
      exact hes a (List.mem_of_mem_take (List.mem_reverse.mp ha))
    have hback : ∀ a ∈ separator :: moved, a.Storable t.layout := by
      intro a ha
      rw [← hdrop] at ha
      exact hes a (List.mem_of_mem_drop ha)
    refine (keeps_offload hl hc hpath hpos (fun a ha => hfront a (List.mem_reverse.mp ha))
      (hback _ List.mem_cons_self) fun a ha => hback a (List.mem_cons_of_mem _ ha)).bind
      fun offloaded d hd hgrows _ => ?_
    split
    · exact keeps_pure hd trivial
    · refine keeps_allocate_node hl Role.sibling_ne hd (.leaf hback)
        fun right d' hd' hgrows' hright => ?_
      have hboth := hgrows.trans hgrows'
      refine (keeps_storeNode hl Role.current_ne (hd'.awaits (hboth _ hpos)) (.leaf fun a ha =>
        hfront a (List.mem_cons_of_mem _ (List.mem_reverse.mp ha)))).bind
        fun _ d'' hd'' hgrows'' _ => ?_
      have hall := hboth.trans hgrows''
      exact keeps_promote hl hd'' (has_of_mem hpath hall) (.inr (hall _ hpos))
        (hfront _ List.mem_cons_self) (.inr (hgrows'' _ hright))
  · exact keeps_fail

theorem keeps_insertInLeaf (hc : c.WellFormed t.layout) (hpath : ∀ s ∈ path, c.Has s.block)
    (hpos : (c.cells pos).isSome) (hes : ∀ a ∈ es, a.Storable t.layout)
    (he : e.Storable t.layout) :
    Keeps t.layout (t.insertInLeaf path pos es index e) c fun _ _ => True := by
  have hall : ∀ a ∈ es.take index ++ e :: es.drop index, a.Storable t.layout := by
    intro a ha
    rcases List.mem_append.mp ha with ha | ha
    · exact hes a (List.mem_of_mem_take ha)
    · rcases List.mem_cons.mp ha with rfl | ha
      · exact he
      · exact hes a (List.mem_of_mem_drop ha)
  unfold insertInLeaf
  dsimp only
  split
  · exact keeps_storeNode hl Role.current_ne (hc.awaits hpos) (.leaf hall)
  · exact keeps_splitLeaf hl hc hpath hpos hall

/-- An entry comes into a well-formed board. -/
theorem keeps_insert (hc : c.WellFormed t.layout) (he : e.Storable t.layout) :
    Keeps t.layout (t.insert e) c fun _ _ => True := by
  refine (looks_locate hc.closed).bind_keeps fun d hd => ?_
  obtain ⟨hblock, hpath, hend⟩ := hd
  have hput : ∀ pos (index : List Entry → Nat), c.Has pos → Keeps t.layout (do
      let entries ← t.leaf .current pos
      t.insertInLeaf d.path pos entries (index entries) e
      return InsertOutcome.inserted) c fun _ _ => True := by
    intro pos index hpos
    refine (looks_loadLeaf hc.closed Role.current_ne hpos).bind_keeps fun es hes => ?_
    obtain ⟨hthere, hleaf⟩ := wellFormed_node hc hes
    refine (keeps_insertInLeaf hl hc hpath hthere hleaf.1 he).bind fun _ d' hd' _ _ => ?_
    exact keeps_pure hd' trivial
  split
  · exact keeps_pure hc trivial
  · split
    · exact keeps_pure hc trivial
    · split
      · refine keeps_allocate_node hl Role.current_ne hc (.leaf fun a ha => ?_)
          fun pos d' hd' _ hpos => ?_
        · rwa [List.mem_singleton.mp ha]
        · refine (keeps_setRoot hd' (.inr hpos)).bind fun _ d'' hd'' _ _ => ?_
          exact keeps_pure hd'' trivial
      · split
        · next pos hpos => exact hput pos List.length (hend pos hpos)
        · split
          · exact keeps_fail
          · exact hput d.block (fun _ => d.index) hblock

end Insertion

/-! ## Deletion -/

section Deletion

variable (hl : t.layout.Workable)

/-- A node and its brother are blocks of the board. -/
theorem looks_brothers (hc : c.WellFormed t.layout) (hb : (Node.branch b).WellFormed t.layout c)
    (hpos : (c.cells pos).isSome) (hn : n.WellFormed t.layout c) :
    Looks t.layout (t.brothers step b pos n) c fun pair =>
      ((c.cells pair.leftPos).isSome ∧ pair.left.WellFormed t.layout c) ∧
        (c.cells pair.rightPos).isSome ∧ pair.right.WellFormed t.layout c := by
  unfold brothers
  split
  · next old right hold =>
    obtain ⟨-, hright⟩ := Branch.wellFormed_of_getElem? hb hold
    refine (looks_loadNode hc.closed Role.sibling_ne hright).bind fun m hm => ?_
    exact looks_pure ⟨⟨hpos, hn⟩, wellFormed_node hc hm⟩
  · split
    · exact looks_fail
    · split
      · exact looks_fail
      · next left hleft =>
        have hhas := hb.2 left (b.mem_children_of_child? hleft)
        refine (looks_loadNode hc.closed Role.sibling_ne hhas).bind fun m hm => ?_
        exact looks_pure ⟨wellFormed_node hc hm, hpos, hn⟩

theorem looks_firstLeaf (hc : c.WellFormed t.layout) (hpath : ∀ s ∈ path, c.Has s.block)
    (hpos : c.Has pos) : Looks t.layout (t.firstLeaf levels path pos) c fun r =>
      (∀ s ∈ r.1, c.Has s.block) ∧ c.cells r.2.1 = some (.node (.leaf r.2.2)) := by
  induction levels generalizing path pos with
  | zero =>
    unfold firstLeaf
    refine (looks_loadNode hc.closed Role.current_ne hpos).bind fun n hn => ?_
    cases n with
    | leaf es => exact looks_pure ⟨hpath, hn⟩
    | branch b => exact looks_fail
  | succ levels ih =>
    unfold firstLeaf
    refine (looks_loadNode hc.closed Role.current_ne hpos).bind fun n hn => ?_
    cases n with
    | leaf es => exact looks_pure ⟨hpath, hn⟩
    | branch b =>
      obtain ⟨-, hnode⟩ := wellFormed_node hc hn
      refine ih (fun s hs => ?_) hnode.first
      rcases List.mem_cons.mp hs with rfl | hs
      · exact hpos
      · exact hpath s hs

include hl

theorem keeps_shrinkRoot (hc : c.WellFormed t.layout) (hpos : (c.cells pos).isSome)
    (hn : n.WellFormed t.layout c) : Keeps t.layout (t.shrinkRoot pos n) c fun _ _ => True := by
  unfold shrinkRoot
  split
  · refine (keeps_free hl Role.parent_ne hc hpos).bind fun _ d hd hgrows _ => ?_
    exact keeps_setRoot hd (hn.first.grows hgrows)
  · exact keeps_pure hc trivial

/-- Blocks are merged all the way up. -/
theorem keeps_collapse (hc : c.WellFormed t.layout) (hpath : ∀ s ∈ path, c.Has s.block)
    (hpos : (c.cells pos).isSome) (hn : n.WellFormed t.layout c) :
    Keeps t.layout (t.collapse path pos n) c fun _ _ => True := by
  induction path generalizing c pos n with
  | nil => exact keeps_shrinkRoot hl hc hpos hn
  | cons step outer ih =>
    have hstep := hpath step List.mem_cons_self
    refine (looks_loadBranch hc.closed Role.parent_ne hstep).bind_keeps fun b hb => ?_
    obtain ⟨hthere, hnode⟩ := wellFormed_node hc hb
    refine (looks_brothers hc hnode hpos hn).bind_keeps fun pair hpair => ?_
    obtain ⟨⟨hleftPos, hleft⟩, hrightPos, hright⟩ := hpair
    split
    · exact keeps_fail
    · next separator child hsep =>
      obtain ⟨he, hchild⟩ := Branch.wellFormed_of_getElem? hnode hsep
      refine Keeps.bind (keeps_ofExcept (Q := fun merged d => d = c ∧ merged.WellFormed t.layout c) hc
        fun merged hmerged => ⟨rfl, Node.wellFormed_of_merge hmerged hleft he hright⟩) ?_
      rintro merged d - - ⟨rfl, hmerged⟩
      split
      · refine (keeps_storeNode hl Role.current_ne (hc.awaits hleftPos) hmerged).bind
          fun _ d₁ hd₁ hgrows₁ _ => ?_
        refine (keeps_free hl Role.sibling_ne hd₁ (hgrows₁ _ hrightPos)).bind
          fun _ d₂ hd₂ hgrows₂ _ => ?_
        have hboth := hgrows₁.trans hgrows₂
        have hbranch := Branch.wellFormed_eraseIdx (hnode.grows hboth) pair.index
        refine (keeps_storeNode hl Role.parent_ne (hd₂.awaits (hboth _ hthere)) hbranch).bind
          fun _ d₃ hd₃ hgrows₃ _ => ?_
        have hall := hboth.trans hgrows₃
        exact ih hd₃ (has_of_mem (fun s hs => hpath s (List.mem_cons_of_mem _ hs)) hall)
          (hall _ hthere) (hbranch.grows hgrows₃)
      · split
        · exact keeps_pure hc trivial
        · next left' separator' right' hrotate =>
          obtain ⟨hleft', he', hright'⟩ := Node.wellFormed_of_rotate hrotate hleft he hright
          refine (keeps_storeNode hl Role.current_ne (hc.awaits hleftPos) hleft').bind
            fun _ d₁ hd₁ hgrows₁ _ => ?_
          refine (keeps_storeNode hl Role.sibling_ne (hd₁.awaits (hgrows₁ _ hrightPos))
            (hright'.grows hgrows₁)).bind fun _ d₂ hd₂ hgrows₂ _ => ?_
          have hboth := hgrows₁.trans hgrows₂
          exact keeps_storeNode hl Role.parent_ne (hd₂.awaits (hboth _ hthere))
            (Branch.wellFormed_set (hnode.grows hboth) pair.index ⟨he', hchild.grows hboth⟩)

/-- An entry goes from a leaf, and what is left is merged upwards. -/
theorem keeps_shorten (hc : c.WellFormed t.layout) (hpath : ∀ s ∈ path, c.Has s.block)
    (hpos : (c.cells pos).isSome) (hes : ∀ a ∈ es, a.Storable t.layout) (removed : Entry) :
    Keeps t.layout (do
      t.putLeaf .current pos es
      t.collapse path pos (.leaf es)
      return removed) c fun _ _ => True := by
  refine (keeps_storeNode hl Role.current_ne (hc.awaits hpos) (.leaf hes)).bind
    fun _ d hd hgrows _ => ?_
  refine (keeps_collapse hl hd (has_of_mem hpath hgrows) (hgrows _ hpos) (.leaf hes)).bind
    fun _ d' hd' _ _ => ?_
  exact keeps_pure hd' trivial

theorem keeps_deleteSeparator (hc : c.WellFormed t.layout) (hpath : ∀ s ∈ path, c.Has s.block)
    (hpos : c.Has pos) :
    Keeps t.layout (t.deleteSeparator path pos index) c fun _ _ => True := by
  unfold deleteSeparator
  split
  · exact keeps_fail
  · next step outer =>
    refine (looks_loadBranch hc.closed Role.parent_ne hpos).bind_keeps fun b hb => ?_
    obtain ⟨hthere, hnode⟩ := wellFormed_node hc hb
    split
    · exact keeps_fail
    · next removed right hsep =>
      obtain ⟨-, hright⟩ : removed.Storable t.layout ∧ c.Has right :=
        Branch.wellFormed_of_getElem? hnode hsep
      have hdown : ∀ s ∈ ({ step with index := step.index + 1 } : Step) :: outer, c.Has s.block := by
        simp only [List.forall_mem_cons] at hpath ⊢
        exact hpath
      refine (looks_firstLeaf hc hdown hright).bind_keeps ?_
      rintro ⟨path', leafPos, entries⟩ ⟨hpath', hleaf⟩
      obtain ⟨hleafPos, hentries⟩ := wellFormed_node hc hleaf
      dsimp only
      split
      · exact keeps_fail
      · next first rest =>
        have hfirst := hentries.1 first List.mem_cons_self
        refine (keeps_storeNode hl Role.parent_ne (hc.awaits hthere)
          (Branch.wellFormed_set hnode index ⟨hfirst, hright⟩)).bind fun _ d hd hgrows _ => ?_
        exact keeps_shorten hl hd (has_of_mem hpath' hgrows) (hgrows _ hleafPos)
          (fun a ha => hentries.1 a (List.mem_cons_of_mem _ ha)) removed

theorem keeps_deleteInLeaf (hc : c.WellFormed t.layout) (hpath : ∀ s ∈ path, c.Has s.block)
    (hpos : c.Has pos) : Keeps t.layout (t.deleteInLeaf path pos index) c fun _ _ => True := by
  refine (looks_loadLeaf hc.closed Role.current_ne hpos).bind_keeps fun es hes => ?_
  obtain ⟨hthere, hleaf⟩ := wellFormed_node hc hes
  split
  · refine (keeps_setRoot hc Board.has_null).bind fun _ d hd hgrows _ => ?_
    refine (keeps_free hl Role.current_ne hd (hgrows _ hthere)).bind fun _ d' hd' _ _ => ?_
    exact keeps_pure hd' trivial
  · split
    · exact keeps_fail
    · exact keeps_shorten hl hc hpath hthere
        (fun a ha => hleaf.1 a (List.mem_of_mem_eraseIdx ha)) _

/-- An entry goes from a well-formed board. -/
theorem keeps_delete (hc : c.WellFormed t.layout) :
    Keeps t.layout (t.delete target exact) c fun _ _ => True := by
  refine (looks_locate hc.closed).bind_keeps fun d hd => ?_
  obtain ⟨hblock, hpath, -⟩ := hd
  split
  · exact keeps_pure hc trivial
  · split
    · exact (keeps_deleteSeparator hl hc hpath hblock).bind fun _ d hd _ _ => keeps_pure hd trivial
    · exact (keeps_deleteInLeaf hl hc hpath hblock).bind fun _ d hd _ _ => keeps_pure hd trivial

end Deletion

end Tree

end PagedIndex
