import PagedIndex.Proofs.Index.Ending

/-!
# Files that could not be removed

A handle that is to remove its file gives it up first, and with it the changes that are only in the
cache. If the store then refuses to remove the file, what can be read of it is what is in the
volume.

## Main definitions

* `Index.Saved` — a file whose changes are in its volume.
* `Index.Outlasts` — what is left of a file that could not be removed.

## Main statements

* `Index.SoleOnTidy.saved_iff` — then every block is in the volume as the handle reads it.
* `Index.outlasts_of_error` — what a removal that fails leaves.
-/

namespace PagedIndex

/-- A file that could not be taken away is as it was. -/
theorem Store.remove_refused (store : Store) (d : Disk) : Ends store.remove d fun r d' =>
    ∀ e, r = .error e → ∀ id, d'.contents id = d.contents id := by
  unfold remove
  refine Ends.bind (store.ask_ends d .remove 0 0) (fun _ _ h _ _ => h.2.1) ?_
  rintro ⟨⟩ d' ⟨-, hcontents, -⟩
  split
  · exact nofun
  · exact fun _ _ => hcontents
  · refine Ends.get_bind ?_
    split
    · exact fun _ _ => hcontents
    · exact fun _ _ => hcontents
    · exact fun _ _ => hcontents
    · exact nofun

namespace Index

variable {ix : Index} {w : Workspace}

/-- The volume of a file has all changes that are in the cache. -/
def Saved (ix : Index) (w : Workspace) : Prop :=
  ∀ i b, (w.cache ix.cache).buffer? i = some b → b.file = ix.file → b.dirty = true →
    ix.mount.stored w.disk b.pos = some b.image

/-- A file is saved if and only if every block is in its volume as the handle reads it. -/
theorem SoleOnTidy.saved_iff (h : ix.SoleOnTidy w) : ix.Saved w ↔ ∀ p, ix.mount.Aligned p →
    ix.mount.stored w.disk p = ix.mount.content (w.below ix.cache) p := by
  have hintact := h.tidyAtRest.intact
  constructor
  · intro hsaved p hp
    rcases Mount.held_or_absent (w.below ix.cache) ix.mount p with ⟨i, b, hb, hfile, rfl⟩ | habsent
    · rw [Mount.content_of_buffer hintact.sound hb hfile]
      cases hdirty : b.dirty with
      | true => exact hsaved i b hb hfile hdirty
      | false => exact hintact.clean i b hb hfile hdirty nofun
    · exact (Mount.content_of_absent hintact.sound habsent).symm
  · intro hread i b hb hfile hdirty
    rw [hread b.pos (hintact.whole i b hb hfile).1,
      Mount.content_of_buffer (s := w.below ix.cache) hintact.sound hb hfile]

/-- What is left of a file that could not be removed: what was in its volume. A handle that opens it
afresh reads what the handle before had read if and only if all changes were in the volume too. -/
structure Outlasts (ix : Index) (w : Workspace) (σ : Index × Workspace) : Prop where
  handle : σ.1 = ix
  contents : σ.2.disk.contents ix.store.volume = w.disk.contents ix.store.volume
  idle : (σ.2.below ix.cache).Idle ix.file
  reopened : ∀ (store : Store) (options : OpenOptions) (cell : Nat) (u : Workspace),
    u.Admits store (options.cache.getD Workspace.commonCache) cell →
    u.disk.contents store.volume = σ.2.disk.contents ix.store.volume →
    options.mode ≠ .create → options.admits ix.header = .ok () →
    Ends (openStore store options cell) u fun r u' =>
      (store.Reliable u.disk → ∃ fresh, r = .ok fresh) ∧ ∀ fresh, r = .ok fresh →
        ((∀ p, ix.mount.Aligned p → fresh.mount.content (u'.below fresh.cache) p =
          ix.mount.content (w.below ix.cache) p) ↔ ix.Saved w) ∧
        (ix.Saved w → ix.Resumes w fresh u')

theorem SoleOnTidy.outlasts (h : ix.SoleOnTidy w) {s : Buffered}
    (hcontents : s.disk.contents ix.store.volume = w.disk.contents ix.store.volume)
    (hidle : s.Idle ix.file) : ix.Outlasts w (ix, w.withBelow ix.cache s) := by
  have hbelow := Workspace.below_withBelow (s := s) h.cache
  refine ⟨rfl, hcontents, ?_, fun store options cell u hu hsame hmode hadmits => ?_⟩
  · show ((w.withBelow ix.cache s).below ix.cache).Idle ix.file
    rwa [hbelow]
  refine Ends.mono (@SoleOnTidy.reopened store options cell w ix h w.disk h.tidyAtRest.tidy.contents
    u hu
    (hsame.trans hcontents) hmode hadmits) fun r u' hr => ⟨hr.1, fun fresh hfresh => ?_⟩
  have hrereads := hr.2 fresh hfresh
  refine ⟨?_, fun hsaved => hrereads.resumes fun p x hp hx => ?_⟩
  · rw [h.saved_iff]
    exact forall₂_congr fun p _ => by rw [hrereads.reads]
  · rw [h.saved_iff.mp hsaved p hp, hx]

section Removing

variable {store : Store} {options : OpenOptions} {cell : Nat} {w₀ w₁ : Workspace} {ix₁ : Index}

/-- A removal that fails leaves what was in the volume. The changes that are only in the cache are
lost. -/
theorem outlasts_of_error (hw : w₀.Admits store (options.cache.getD Workspace.commonCache) cell)
    (hsole : ∀ id, (w₀.cache id).Untaken store.volume)
    (hopen : openStore store options cell w₀ = .ok ix₁ w₁)
    (htidy : (w₁.disk.contents store.volume).Tidy ix₁.header)
    (hrun : Relation.ReflTransGen Meanwhile (ix₁, w₁) (ix, w))
    (hwritable : ix.mode.writable = true) :
    Ends kill (ix, w) fun r σ => ∀ e, r = .error e → ix.Outlasts w σ := by
  have h := soleOnTidy_of_open hw hsole hopen htidy hrun
  unfold kill
  refine self_bind_ends ?_
  rw [if_pos hwritable]
  refine Ends.bind unregister_ends (fun e σ hσ => nomatch hσ.1) ?_
  rintro ⟨⟩ _ ⟨-, t, rfl, hdisk, hidle⟩
  refine onWorkspace_ends (Workspace.onDisk_ends ?_)
  refine (Store.remove_refused ix.store t.disk).mono fun r d hd e he => ?_
  have hout := h.outlasts (s := ⟨t.cache, d⟩) ((hd e he ix.store.volume).trans (by rw [hdisk])) hidle
  exact hout

end Removing

/-- The new file with an entry that is not written back. Its removal will be refused. -/
def unremovable (σ : Index × Workspace) : Index × Workspace :=
  let inserted := (ending (Visit.call ⟨(), none, .insert [0x41]⟩).run σ).2
  (inserted.1, answering
    (fun access _ => if access = .remove then some Volume.fullCause else none) inserted.2)

theorem unremovable_eq (σ : Index × Workspace) : ∃ ix w, unremovable σ = (ix, w) ∧
    Relation.ReflTransGen Meanwhile σ (ix, w) :=
  ⟨_, _, rfl, .head (.visited σ.1 σ.2 _) (.single (.answering _ _ _))⟩

/-- The entry is lost when the removal of the new file fails. -/
theorem outlasts_of_error_new : ∃ ix w, ix.mode.writable = true ∧ ¬ix.Saved w ∧
    Ends kill (ix, w) fun r σ => (∃ e, r = .error e) ∧ ix.Outlasts w σ := by
  have hmade : opens newOptions newWorkspace (fun ix w' =>
      let σ := unremovable (ix, w')
      (w'.disk.contents 0).size == ix.header.blockSize && σ.1.mode.writable &&
      ((σ.2.cache σ.1.cache).buffer? 1).any (fun b => b.file == σ.1.file && b.dirty &&
        (σ.1.mount.stored σ.2.disk b.pos != some b.image)) &&
      !(ending kill σ).1.isOk) = true := by decide +kernel
  have hadmits := admits_new
  have huntaken := untaken_new
  have hempty : ∀ i, (newWorkspace.disk.contents 0).byte i = 0 := Contents.byte_empty
  generalize newWorkspace = w at *
  obtain ⟨ix, w', hopen, hmade⟩ := exists_of_opens hmade
  obtain ⟨ix', w'', hunremovable, hrun⟩ := unremovable_eq (ix, w')
  simp only [hunremovable, Bool.and_eq_true, beq_iff_eq, Bool.not_eq_true'] at hmade
  obtain ⟨⟨⟨hsize, hwritable⟩, hbuffer⟩, hfails⟩ := hmade
  have hkill := outlasts_of_error hadmits huntaken hopen (tidy_new hadmits hempty hopen hsize) hrun
    hwritable
  refine ⟨ix', w'', hwritable, fun hsaved => ?_, ?_⟩
  · obtain ⟨b, hb⟩ := Option.isSome_iff_exists.mp (Option.isSome_of_any hbuffer)
    simp only [hb, Option.any_some, Bool.and_eq_true, beq_iff_eq, bne_iff_ne] at hbuffer
    exact hbuffer.2 (hsaved 1 b hb hbuffer.1.1 hbuffer.1.2)
  · refine (hkill.and ends_ending).mono ?_
    rintro r σ ⟨houtlasts, hend, -⟩
    cases hr : r with
    | error e => exact ⟨⟨e, rfl⟩, houtlasts e hr⟩
    | ok a =>
      rw [← hend, hr] at hfails
      cases hfails

end Index

end PagedIndex
