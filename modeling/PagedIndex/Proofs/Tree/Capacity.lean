import PagedIndex.Proofs.Session.Fit
import PagedIndex.Tree.Delete
import PagedIndex.Tree.Insert

/-!
# Insertions and deletions never lack room

Whatever the blocks hold, what is read of a node fits in its block, and what insertions and
deletions make of such nodes fits again. All that is asked of a block is that it has room for three
separators.

## Main statements

* `Program.ample_loadNode`, `Program.ample_storeNode` — tree blocks are read and written.
* `Program.ample_allocate`, `Program.ample_free` — blocks are taken and given back.
* `Tree.ample_locate` — searches.
* `Tree.ample_insert`, `Tree.ample_delete` — insertions and deletions.
-/

namespace PagedIndex

namespace Program

variable {α β : Type} {C : Prop} {l : Layout} {role : Role} {pos : BlockPos} {n : Node}
  {R : β → Prop}

theorem ample_getPointers_bind {f : Pointers → Program β}
    (hf : ∀ p, (f p).Ample C l.blockSize R) : (getPointers >>= f).Ample C l.blockSize R :=
  .pointers hf

theorem ample_modifyPointers {f : Pointers → Pointers} :
    (modifyPointers f).Ample C l.blockSize fun _ => True :=
  .pointers fun _ => .setPointers (.done trivial)

/-- A block is loaded and looked at. -/
theorem ample_read_bind {f : Bytes → Program β}
    (hf : ∀ x : Bytes, x.length = l.blockSize → (f x).Ample C l.blockSize R) :
    (do loadBlock role pos; f (← image role)).Ample C l.blockSize R :=
  .load (.view hf)

theorem ample_clear {next : Program α} {Q : α → Prop} (hnext : next.Ample C l.blockSize Q) :
    (edit role Edit.clear next).Ample C l.blockSize Q := by
  refine Ample.edit (fun x hx => ⟨?_, .ok, nofun⟩) hnext
  simp [Edit.clear, hx]

/-- A node that fits is written. -/
theorem ample_storeNode (hn : n.Seated l) :
    (storeNode l role pos n).Ample C l.blockSize fun _ => True := by
  refine .load (Ample.edit (fun x hx => ⟨?_, ?_, fun hr => ?_⟩) (.done trivial))
  · rw [Edit.length_replace fun new hnew => (Node.front_of_encode hnew).2, hx]
  · apply Edit.contained_replace
    rw [hx]
    exact Node.contained_encode hn
  · exact absurd hr (Edit.inRange_replace (Node.inRange_encode _ hn.keyed))

section Room

variable (hl : l.minBlockSize ≤ l.blockSize)
include hl

/-- What is read of a node fits in its block. -/
theorem ample_loadNode : (loadNode l role pos).Ample C l.blockSize (Node.Seated l) := by
  have hsize : 0 < l.blockSize := by
    have hroom := Layout.room_of_minBlockSize_le hl
    omega
  unfold loadNode
  split
  · exact .fail ⟨nofun, nofun⟩
  · apply ample_read_bind
    intro x _
    exact Ample.ofExcept Node.contained_decode Node.inRange_decode fun n hn =>
      Node.seated_decode hsize hn

theorem ample_loadLeaf :
    (loadLeaf l role pos).Ample C l.blockSize fun es => (Node.leaf es).Seated l := by
  apply (ample_loadNode hl).bind
  intro n hn
  cases n with
  | leaf es => exact .pure hn
  | branch b => exact .fail ⟨nofun, nofun⟩

theorem ample_loadBranch :
    (loadBranch l role pos).Ample C l.blockSize fun b => (Node.branch b).Seated l := by
  apply (ample_loadNode hl).bind
  intro n hn
  cases n with
  | leaf es => exact .fail ⟨nofun, nofun⟩
  | branch b => exact .pure hn

/-- A block is taken. -/
theorem ample_allocate : (allocate l role).Ample C l.blockSize fun _ => True := by
  have hroom := Layout.room_of_minBlockSize_le hl
  apply ample_getPointers_bind
  intro p
  split
  · dsimp only
    split
    · exact .fail ⟨nofun, nofun⟩
    · exact .load (ample_clear (.setPointers (.done trivial)))
  · apply ample_read_bind
    intro x hx
    have hdecode : InRange (Deleted.decode l p.freeHead x) := Deleted.inRange_decode (by omega)
    apply (Ample.ofExcept Deleted.contained_decode hdecode fun _ _ => trivial).bind
    intro next _
    exact ample_clear (.setPointers (.done trivial))

/-- A block is given back. -/
theorem ample_free : (free l role pos).Ample C l.blockSize fun _ => True := by
  have hroom := Layout.room_of_minBlockSize_le hl
  unfold free
  split
  · exact .fail ⟨nofun, nofun⟩
  · apply ample_getPointers_bind
    intro p
    refine .load (Ample.edit (fun x hx => ⟨?_, Deleted.contained_stamp _, fun hr => ?_⟩)
      (.setPointers (.done trivial)))
    · rw [Deleted.length_stamp, hx]
    · exact absurd hr (Deleted.inRange_stamp (by omega) _)

end Room

end Program

namespace Tree

open Program

variable {C : Prop} {t : Tree} {pos left right child : BlockPos} {path : List Step} {step : Step}
  {e separator target : Entry} {es kept moved : List Entry} {n : Node} {b : Branch}
  {index levels : Nat} {exact : Bool} {d : Descent} {trail : Trail} {role : Role}

theorem ample_putLeaf (hes : (Node.leaf es).Seated t.layout) :
    (t.putLeaf role pos es).Ample C t.layout.blockSize fun _ => True := ample_storeNode hes

theorem ample_putBranch (hb : (Node.branch b).Seated t.layout) :
    (t.putBranch role pos b).Ample C t.layout.blockSize fun _ => True := ample_storeNode hb

section Room

variable (hl : t.layout.minBlockSize ≤ t.layout.blockSize)
include hl

/-! ## Searches -/

theorem ample_leftmostLeaf :
    (t.leftmostLeaf levels pos).Ample C t.layout.blockSize fun _ => True := by
  induction levels generalizing pos with
  | zero => exact .fail ⟨nofun, nofun⟩
  | succ levels ih =>
    apply (ample_loadNode hl).bind
    intro n _
    match n with
    | .branch b => exact ih
    | .leaf [] => exact .fail ⟨nofun, nofun⟩
    | .leaf (_ :: _) => exact .pure trivial

theorem ample_nextSeparator :
    (t.nextSeparator d path).Ample C t.layout.blockSize fun _ => True := by
  induction path with
  | nil => exact .pure trivial
  | cons step outer ih =>
    apply (ample_loadBranch hl).bind
    intro b _
    split
    · exact .pure trivial
    · exact ih

theorem ample_successor : (t.successor d).Ample C t.layout.blockSize fun _ => True := by
  unfold successor
  split
  · apply (ample_loadBranch hl).bind
    intro b _
    split
    · exact .fail ⟨nofun, nofun⟩
    · exact (ample_leftmostLeaf hl).bind fun _ _ => .pure trivial
  · apply (ample_loadLeaf hl).bind
    intro es _
    split
    · exact .pure trivial
    · exact ample_nextSeparator hl

theorem ample_endInLeaf {s : Scan} {size : Nat} :
    (t.endInLeaf trail pos s size).Ample C t.layout.blockSize fun _ => True := by
  unfold endInLeaf
  dsimp only
  split
  · exact .pure trivial
  · split
    · exact .pure trivial
    · exact .pure trivial
    · split
      · exact .pure trivial
      · exact .pure trivial
    · split
      · exact .pure trivial
      · exact (ample_successor hl).bind fun _ _ => .pure trivial

theorem ample_descend :
    (t.descend target exact levels trail pos).Ample C t.layout.blockSize fun _ => True := by
  induction levels generalizing trail pos with
  | zero =>
    unfold descend
    apply (ample_loadNode hl).bind
    intro n _
    cases n with
    | leaf es => exact ample_endInLeaf hl
    | branch b => exact .fail ⟨nofun, nofun⟩
  | succ levels ih =>
    unfold descend
    apply (ample_loadNode hl).bind
    intro n _
    cases n with
    | leaf es => exact ample_endInLeaf hl
    | branch b =>
      dsimp only
      split
      · exact .pure trivial
      · split
        · exact ih
        · exact .fail ⟨nofun, nofun⟩

theorem ample_locate : (t.locate target exact).Ample C t.layout.blockSize fun _ => True := by
  apply ample_getPointers_bind
  intro p
  show Program.Ample C _ _ (if p.root.isNull then _ else _)
  split
  · exact .pure trivial
  · exact ample_descend hl

end Room

/-! ## Insertion -/

section Roomy

variable (hl : t.layout.Roomy)
include hl

theorem ample_growRoot (hkey : separator.key.length = t.layout.keyLength) :
    (t.growRoot left separator right).Ample C t.layout.blockSize fun _ => True := by
  have hroot : (Node.branch ⟨left, [(separator, right)]⟩).Seated t.layout :=
    ⟨Node.fits_of_short hl.2 (by simp [Node.entries, Branch.entries]),
      by simpa [Node.entries, Branch.entries] using hkey⟩
  apply (ample_allocate hl.2).bind
  intro root _
  exact (ample_putBranch hroot).bind fun _ _ => ample_modifyPointers

/-- A branch that one more separator makes overflow has more than three of them, so that two can
go. -/
theorem ample_promote (hkey : separator.key.length = t.layout.keyLength) :
    (t.promote path pos separator child).Ample C t.layout.blockSize fun _ => True := by
  induction path generalizing pos separator child with
  | nil => exact ample_growRoot hl hkey
  | cons step outer ih =>
    apply (ample_loadBranch hl.2).bind
    intro b hb
    dsimp only
    generalize hall : b.separators.take step.index ++ (separator, child) ::
      b.separators.drop step.index = all
    have hlength : all.length = b.separators.length + 1 := by
      rw [← hall, List.length_append, List.length_cons, ← Nat.add_assoc, ← List.length_append,
        List.take_append_drop]
    have hkeys : ∀ s ∈ all, s.1.key.length = t.layout.keyLength := by
      have hold : ∀ s ∈ b.separators, s.1.key.length = t.layout.keyLength :=
        List.forall_mem_map.mp hb.keyed
      intro s hs
      rw [← hall] at hs
      grind [List.mem_of_mem_take, List.mem_of_mem_drop]
    have hseated : ∀ first ss, Branch.fits t.layout ⟨first, ss⟩ = true → (∀ s ∈ ss, s ∈ all) →
        (Node.branch ⟨first, ss⟩).Seated t.layout := fun first ss hfits hsub =>
      ⟨hfits, List.forall_mem_map.mpr fun s hs => hkeys s (hsub s hs)⟩
    split
    · next hfits => exact ample_putBranch (hseated _ _ hfits fun _ hs => hs)
    · next hfits =>
      have hmany : 3 < all.length :=
        Nat.lt_of_not_le fun hshort => hfits (Branch.fits_of_short hl.2 hshort)
      split
      · next last middle middleChild front hsplit =>
        have hrest : all = front.reverse ++ [(middle, middleChild), last] := by
          simpa using congrArg List.reverse hsplit
        have hfront : Branch.fits t.layout ⟨b.first, front.reverse⟩ := by
          refine Branch.fits_of_length_le ?_ hb.fits
          simp only [hrest, List.length_append, List.length_cons, List.length_nil] at hlength
          simp only
          omega
        have hlast : Branch.fits t.layout ⟨middleChild, [last]⟩ := Branch.fits_of_short hl.2 (by simp)
        apply (ample_putBranch (hseated _ _ hfront (by grind))).bind
        intro _ _
        apply (ample_allocate hl.2).bind
        intro right _
        apply (ample_putBranch (hseated _ _ hlast (by grind))).bind
        intro _ _
        exact ih (hkeys (middle, middleChild) (by simp [hrest]))
      · next hnone =>
        have hshort : all.reverse.length ≤ 1 := by
          match h : all.reverse with
          | [] => simp
          | [_] => simp
          | last :: (middle, middleChild) :: front =>
            exact absurd h (hnone last middle middleChild front)
        simp at hshort
        omega

/-- What goes to the brother on the right is written only if it fits there. -/
theorem ample_offload (hkept : (Node.leaf kept).Seated t.layout)
    (hkey : separator.key.length = t.layout.keyLength)
    (hmoved : ∀ e ∈ moved, e.key.length = t.layout.keyLength) :
    (t.offload path pos kept separator moved).Ample C t.layout.blockSize fun _ => True := by
  unfold offload
  split
  · exact .pure trivial
  · next step _ =>
    apply (ample_loadBranch hl.2).bind
    intro b hb
    split
    · exact .pure trivial
    · next old right hget =>
      have hold : old.key.length = t.layout.keyLength :=
        hb.keyed old (List.mem_map_of_mem (List.mem_of_getElem? hget))
      apply (ample_loadLeaf hl.2).bind
      intro es hes
      dsimp only
      split
      · next hfits =>
        have hright : (Node.leaf (moved ++ old :: es)).Seated t.layout :=
          ⟨hfits, List.forall_mem_append.mpr
            ⟨hmoved, List.forall_mem_cons.mpr ⟨hold, hes.keyed⟩⟩⟩
        have hparent : (Node.branch { b with
            separators := b.separators.set step.index (separator, right) }).Seated t.layout :=
          hb.set hkey
        apply (ample_putLeaf hkept).bind
        intro _ _
        apply (ample_putLeaf hright).bind
        intro _ _
        exact (ample_putBranch hparent).bind fun _ _ => .pure trivial
      · exact .pure trivial

/-- A leaf that overflows is made two. -/
theorem ample_splitLeaf (hes : ∀ x ∈ es, x.key.length = t.layout.keyLength)
    (hsplits : Leaf.Splits t.layout es) :
    (t.splitLeaf path pos es).Ample C t.layout.blockSize fun _ => True := by
  obtain ⟨hthree, hlt, htake, -, hdrop⟩ := hsplits
  unfold splitLeaf
  dsimp only
  generalize Leaf.fittingPrefix t.layout es = fitting at *
  split
  · next promoted first rest separator moved hfront hover =>
    have hkept : es.take fitting = (promoted :: first :: rest).reverse := by
      simpa using congrArg List.reverse hfront
    have hall : (Node.leaf (promoted :: first :: rest).reverse).Seated t.layout :=
      ⟨hkept ▸ htake, fun x hx => hes x (List.mem_of_mem_take (hkept ▸ hx))⟩
    have hright : (Node.leaf (separator :: moved)).Seated t.layout :=
      ⟨hover ▸ hdrop, fun x hx => hes x (List.mem_of_mem_drop (hover ▸ hx))⟩
    have hleft : (Node.leaf (first :: rest).reverse).Seated t.layout :=
      hall.of_sublist rfl (by simp [Node.entries])
    obtain ⟨hseparator, hmoved⟩ := List.forall_mem_cons.mp hright.keyed
    apply (ample_offload hl hall hseparator hmoved).bind
    intro done _
    cases done with
    | true => exact .pure trivial
    | false =>
      apply (ample_allocate hl.2).bind
      intro right _
      apply (ample_putLeaf hright).bind
      intro _ _
      apply (ample_putLeaf hleft).bind
      intro _ _
      exact ample_promote hl (hall.keyed promoted (by simp [Node.entries]))
  · next hnone =>
    -- Three entries at least fit, and one at least does not.
    have hfront : 2 ≤ (es.take fitting).reverse.length := by
      rw [List.length_reverse, List.length_take]
      omega
    have hover : 0 < (es.drop fitting).length := by
      rw [List.length_drop]
      omega
    cases hkept : (es.take fitting).reverse with
    | nil => simp [hkept] at hfront
    | cons promoted front =>
      cases front with
      | nil => simp [hkept] at hfront
      | cons first rest =>
        cases hrest : es.drop fitting with
        | nil => simp [hrest] at hover
        | cons separator moved => exact absurd hrest (hnone promoted first rest separator moved hkept)

theorem ample_insertInLeaf (hes : (Node.leaf es).Seated t.layout)
    (hkey : e.key.length = t.layout.keyLength) :
    (t.insertInLeaf path pos es index e).Ample C t.layout.blockSize fun _ => True := by
  have hkeyed : ∀ x ∈ es, x.key.length = t.layout.keyLength := hes.keyed
  have hkeys : ∀ x ∈ es.take index ++ e :: es.drop index, x.key.length = t.layout.keyLength := by
    grind [List.mem_of_mem_take, List.mem_of_mem_drop]
  unfold insertInLeaf
  dsimp only
  split
  · next hfits => exact ample_putLeaf ⟨hfits, hkeys⟩
  · next hlong =>
    have hold : Leaf.fits t.layout (es.take index ++ es.drop index) := by
      rw [List.take_append_drop]
      exact hes.fits
    exact ample_splitLeaf hl hkeys (Leaf.splits hl hkeys hold hlong)

/-- An insertion of a key of key length. -/
theorem ample_insert (hkey : e.key.length = t.layout.keyLength) :
    (t.insert e).Ample C t.layout.blockSize fun _ => True := by
  apply (ample_locate hl.2).bind
  intro d _
  split
  · exact .pure trivial
  · split
    · exact .pure trivial
    · split
      · have hfirst : (Node.leaf [e]).Seated t.layout :=
          ⟨Node.fits_of_short hl.2 (by simp [Node.entries]), by simpa [Node.entries] using hkey⟩
        apply (ample_allocate hl.2).bind
        intro pos _
        apply (ample_putLeaf hfirst).bind
        intro _ _
        exact ample_modifyPointers.bind fun _ _ => .pure trivial
      · split
        · apply (ample_loadLeaf hl.2).bind
          intro es hes
          exact (ample_insertInLeaf hl hes hkey).bind fun _ _ => .pure trivial
        · split
          · exact .fail ⟨by rintro ⟨⟩, by simp⟩
          · apply (ample_loadLeaf hl.2).bind
            intro es hes
            exact (ample_insertInLeaf hl hes hkey).bind fun _ _ => .pure trivial

end Roomy

/-! ## Deletion -/

section Room

variable (hl : t.layout.minBlockSize ≤ t.layout.blockSize)
include hl

/-- Of two brothers one was read, and the other one was there. -/
theorem ample_brothers (hn : n.Seated t.layout) :
    (t.brothers step b pos n).Ample C t.layout.blockSize fun pair =>
      pair.left.Seated t.layout ∧ pair.right.Seated t.layout := by
  unfold brothers
  split
  · apply (ample_loadNode hl).bind
    intro right hright
    exact .pure ⟨hn, hright⟩
  · split
    · exact .fail ⟨nofun, nofun⟩
    · split
      · exact .fail ⟨nofun, nofun⟩
      · apply (ample_loadNode hl).bind
        intro left hleft
        exact .pure ⟨hleft, hn⟩

/-- Brothers are merged only if they fit in one block, a separator that changes takes no more room,
and the one that goes leaves room. -/
theorem ample_collapse (hn : n.Seated t.layout) :
    (t.collapse path pos n).Ample True t.layout.blockSize fun _ => True := by
  induction path generalizing pos n with
  | nil =>
    unfold collapse shrinkRoot
    split
    · exact (ample_free hl).bind fun _ _ => ample_modifyPointers
    · exact .pure trivial
  | cons step outer ih =>
    apply (ample_loadBranch hl).bind
    intro b hb
    apply (ample_brothers hl hn).bind
    rintro pair ⟨hleft, hright⟩
    split
    · exact .fail ⟨nofun, fun _ => trivial⟩
    · next separator child hget =>
      have hseparator : separator.key.length = t.layout.keyLength :=
        hb.keyed separator (List.mem_map_of_mem (List.mem_of_getElem? hget))
      have hcontained := Node.contained_merge pair.left separator pair.right
      cases hmerge : Node.merge pair.left separator pair.right with
      | error err =>
        rw [hmerge] at hcontained
        exact .fail ⟨Contained.error_iff.mp hcontained, fun _ => trivial⟩
      | ok merged =>
        show Program.Ample True _ _ (if merged.fits t.layout then _ else _)
        split
        · next hfits =>
          have hmerged : merged.Seated t.layout := by
            refine ⟨hfits, ?_⟩
            rw [(Node.entries_of_merge hmerge).2]
            exact List.forall_mem_append.mpr
              ⟨hleft.keyed, List.forall_mem_cons.mpr ⟨hseparator, hright.keyed⟩⟩
          have hparent : (Node.branch { b with
              separators := b.separators.eraseIdx pair.index }).Seated t.layout :=
            hb.of_sublist rfl ((List.eraseIdx_sublist _ _).map _)
          apply (ample_storeNode hmerged).bind
          intro _ _
          apply (ample_free hl).bind
          intro _ _
          apply (ample_putBranch hparent).bind
          intro _ _
          exact ih hparent
        · split
          · exact .pure trivial
          · next left' separator' right' hrotate =>
            obtain ⟨hleft', hkey', hright'⟩ :=
              Node.seated_of_rotate hl hleft hright hseparator hrotate
            have hparent : (Node.branch { b with
                separators := b.separators.set pair.index (separator', child) }).Seated t.layout :=
              hb.set hkey'
            apply (ample_storeNode hleft').bind
            intro _ _
            apply (ample_storeNode hright').bind
            intro _ _
            exact ample_putBranch hparent

theorem ample_firstLeaf :
    (t.firstLeaf levels path pos).Ample C t.layout.blockSize
      fun r => (Node.leaf r.2.2).Seated t.layout := by
  induction levels generalizing path pos with
  | zero =>
    unfold firstLeaf
    apply (ample_loadNode hl).bind
    intro n hn
    cases n with
    | leaf es => exact .pure hn
    | branch b => exact .fail ⟨nofun, nofun⟩
  | succ levels ih =>
    unfold firstLeaf
    apply (ample_loadNode hl).bind
    intro n hn
    cases n with
    | leaf es => exact .pure hn
    | branch b => exact ih

/-- The entry that takes the place of a separator leaves its leaf. -/
theorem ample_deleteSeparator :
    (t.deleteSeparator path pos index).Ample True t.layout.blockSize fun _ => True := by
  unfold deleteSeparator
  split
  · exact .fail ⟨nofun, nofun⟩
  · apply (ample_loadBranch hl).bind
    intro b hb
    split
    · exact .fail ⟨nofun, nofun⟩
    · next removed right _ =>
      apply (ample_firstLeaf hl).bind
      rintro ⟨way, leafPos, entries⟩ hentries
      dsimp only at hentries ⊢
      split
      · exact .fail ⟨nofun, nofun⟩
      · next e rest =>
        have hrest : (Node.leaf rest).Seated t.layout :=
          hentries.of_sublist rfl (List.sublist_cons_self _ _)
        have hparent : (Node.branch { b with
            separators := b.separators.set index (e, right) }).Seated t.layout :=
          hb.set (hentries.keyed e List.mem_cons_self)
        apply (ample_putBranch hparent).bind
        intro _ _
        apply (ample_putLeaf hrest).bind
        intro _ _
        exact (ample_collapse hl hrest).bind fun _ _ => .pure trivial

theorem ample_deleteInLeaf :
    (t.deleteInLeaf path pos index).Ample True t.layout.blockSize fun _ => True := by
  apply (ample_loadLeaf hl).bind
  intro es hes
  split
  · apply ample_modifyPointers.bind
    intro _ _
    exact (ample_free hl).bind fun _ _ => .pure trivial
  · split
    · exact .fail ⟨nofun, fun _ => trivial⟩
    · have hrest : (Node.leaf (es.eraseIdx index)).Seated t.layout :=
        hes.of_sublist rfl (List.eraseIdx_sublist _ _)
      apply (ample_putLeaf hrest).bind
      intro _ _
      exact (ample_collapse hl hrest).bind fun _ _ => .pure trivial

/-- A deletion may be abandoned on the way up, but it never lacks room. -/
theorem ample_delete : (t.delete target exact).Ample True t.layout.blockSize fun _ => True := by
  apply (ample_locate hl).bind
  intro d _
  split
  · exact .pure trivial
  · split
    · exact (ample_deleteSeparator hl).bind fun _ _ => .pure trivial
    · exact (ample_deleteInLeaf hl).bind fun _ _ => .pure trivial

end Room

end Tree

end PagedIndex
