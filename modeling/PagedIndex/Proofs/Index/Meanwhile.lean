import PagedIndex.Proofs.Index.TidyFiles

/-!
# While a file is open

Much can happen while a handle has its file open: calls of the handle, also such that fail, calls on
other files in its cache and in others, which recycle its buffers, the release of all that is not in
use, other files that are opened and given up, and accesses that come to be refused or cease to be.
None of it opens the volume of the handle a second time, or changes its bytes behind its back.

## Main definitions

* `Index.Meanwhile` — one thing that happens while a handle has its file open.

## Main statements

* `Index.Meanwhile.soleOnTidy` — what one such thing leaves.
* `Index.SoleOnTidy.history` — what any number of them leaves.
-/

namespace PagedIndex

/-- What taking a file away leaves of the other volumes. -/
theorem Store.remove_ends (store : Store) (d : Disk) : Ends store.remove d fun _ d' =>
    d'.volumes.size = d.volumes.size ∧ ∀ id, id ≠ store.volume → d'.contents id = d.contents id := by
  unfold remove
  refine Ends.bind (store.ask_ends d .remove 0 0)
    (fun e d' h => ⟨h.1.size, fun id _ => h.2.1 id⟩) ?_
  rintro ⟨⟩ d' ⟨hfollows, hcontents, -⟩
  have hsame : d'.volumes.size = d.volumes.size ∧
      ∀ id, id ≠ store.volume → d'.contents id = d.contents id :=
    ⟨hfollows.size, fun id _ => hcontents id⟩
  split
  · refine ⟨(Array.size_modify ..).trans hsame.1, fun id hid => ?_⟩
    show (Disk.volume (d'.modifyVolume store.volume _) id).contents = _
    rw [Disk.volume_modifyVolume, if_neg fun h => hid h.1]
    exact hcontents id
  · exact hsame
  · refine Ends.get_bind ?_
    split <;> exact hsame

namespace Index

/-- One thing that happens while a handle has its file open. -/
inductive Meanwhile : Index × Workspace → Index × Workspace → Prop
  /-- A call of the handle, or a flush. -/
  | visited (ix : Index) (w : Workspace) (visit : Visit Unit) :
    Meanwhile (ix, w) (ending visit.run (ix, w)).2
  /-- All that is not in use is released, in any of the caches. -/
  | purged (ix : Index) (w : Workspace) (id : Nat) :
    Meanwhile (ix, w) (ix, (ending (Workspace.onCache id Cache.purge) w).2)
  /-- Another file is opened. -/
  | opened (ix : Index) (w : Workspace) (store : Store) (options : OpenOptions) (cell : Nat)
    (hvolume : store.volume ≠ ix.store.volume) :
    Meanwhile (ix, w) (ix, (ending (openStore store options cell) w).2)
  /-- A call on another file, or a flush. -/
  | called (ix : Index) (w : Workspace) (other : Index) (visit : Visit Unit)
    (hother : other.Registered w) (hvolume : other.store.volume ≠ ix.store.volume) :
    Meanwhile (ix, w) (ix, (ending visit.run (other, w)).2.2)
  /-- Another file is given up. -/
  | ended (ix : Index) (w : Workspace) (other : Index) (way : IndexM Unit)
    (hway : way ∈ [close, drop, kill])
    (hother : other.Registered w) (hvolume : other.store.volume ≠ ix.store.volume) :
    Meanwhile (ix, w) (ix, (ending way (other, w)).2.2)
  /-- The rest of the disk changes: other files come and go, and accesses are refused or no longer
  so. -/
  | passed (ix : Index) (w : Workspace) (d : Disk) (hsize : w.disk.volumes.size ≤ d.volumes.size)
    (hcontents : d.contents ix.store.volume = w.disk.contents ix.store.volume) :
    Meanwhile (ix, w) (ix, { w with disk := d })
  /-- A record position is put into a cell. -/
  | noted (ix : Index) (w : Workspace) (cell record : Nat) :
    Meanwhile (ix, w) (ix, w.setCell cell record)
  /-- There is one more cache. -/
  | cached (ix : Index) (w : Workspace) (buffers : Nat) : Meanwhile (ix, w) (ix, (w.addCache buffers).2)
  /-- There is one more record cell. -/
  | celled (ix : Index) (w : Workspace) : Meanwhile (ix, w) (ix, w.addCell.2)

variable {ix other : Index} {w : Workspace} {s : Buffered} {id : Nat}

/-! ## The rest of the workspace -/

/-- The rest of the disk has no part in it. -/
theorem SoleOnTidy.disk (h : ix.SoleOnTidy w) {d : Disk} (hsize : w.disk.volumes.size ≤ d.volumes.size)
    (hcontents : d.contents ix.store.volume = w.disk.contents ix.store.volume) :
    ix.SoleOnTidy { w with disk := d } :=
  ⟨h.cache, h.cell, h.layout, h.cursor, (h.tidyAtRest.of_disk hsize hcontents).1, h.alone⟩

/-- Nor has what is done beside the file in any of the caches. -/
theorem SoleOnTidy.beside (h : ix.SoleOnTidy w) (hs : (w.below id).Aside ix.store.volume s) :
    ix.SoleOnTidy (w.withBelow id s) := by
  by_cases hid : id = ix.cache
  · subst hid
    exact h.after h.cursor (hs.tidyAtRest rfl h.tidyAtRest)
  · obtain ⟨huntaken, hcontents⟩ := hs.untaken (h.alone id hid)
    have hcaches : ∀ id', (w.withBelow id s).cache id' = w.cache id' ∨
        id' = id ∧ (w.withBelow id s).cache id' = s.cache := by
      intro id'
      by_cases heq : id' = id
      · subst heq
        by_cases hlt : id' < w.caches.size
        · exact .inr ⟨rfl, congrArg Buffered.cache (Workspace.below_withBelow hlt)⟩
        · refine .inl ?_
          simp [Workspace.cache, Workspace.withBelow, Nat.le_of_not_lt hlt]
      · exact .inl (congrArg Buffered.cache (Workspace.below_withBelow_ne heq))
    have hown : (w.withBelow id s).cache ix.cache = w.cache ix.cache :=
      (hcaches ix.cache).resolve_right fun heq => hid heq.1.symm
    have hdisk := h.disk (d := s.disk) hs.size hcontents
    refine ⟨?_, h.cell, h.layout, h.cursor, ?_, fun id' hid' => ?_⟩
    · simpa [Workspace.withBelow] using h.cache
    · show ix.mount.TidyAtRest ix.header ⟨(w.withBelow id s).cache ix.cache, s.disk⟩
      rw [hown]
      exact hdisk.tidyAtRest
    · rcases hcaches id' with heq | ⟨-, heq⟩ <;> rw [heq]
      · exact h.alone id' hid'
      · exact huntaken

/-- A new cache has no files. -/
theorem SoleOnTidy.addCache (h : ix.SoleOnTidy w) (buffers : Nat) :
    ix.SoleOnTidy (w.addCache buffers).2 := by
  have hold : ∀ {id}, id ≠ w.caches.size → (w.addCache buffers).2.cache id = w.cache id := by
    intro id hid
    simp only [Workspace.cache, Workspace.addCache, Array.getD_eq_getD_getElem?, Array.getElem?_push,
      if_neg hid]
  have hown := hold (Nat.ne_of_lt h.cache)
  refine ⟨?_, h.cell, h.layout, h.cursor, ?_, fun id hid => ?_⟩
  · exact Nat.lt_of_lt_of_le h.cache (by simp [Workspace.addCache])
  · show ix.mount.TidyAtRest ix.header ⟨(w.addCache buffers).2.cache ix.cache, w.disk⟩
    rw [hown]
    exact h.tidyAtRest
  · by_cases hnew : id = w.caches.size
    · subst hnew
      intro f store hf
      simp [Workspace.cache, Workspace.addCache, Cache.new, Cache.store?, Cache.registration?] at hf
    · rw [hold hnew]
      exact h.alone id hid

/-! ## Other files -/

/-- Another file is opened. -/
theorem SoleOnTidy.openStore (h : ix.SoleOnTidy w) {store : Store} (options : OpenOptions) (cell : Nat)
    (hvolume : store.volume ≠ ix.store.volume) :
    Ends (Index.openStore store options cell) w fun _ w' => ix.SoleOnTidy w' := by
  have hread : ∀ {w : Workspace}, ix.SoleOnTidy w →
      Ends (Workspace.onDisk (readHeader store options)) w fun _ w' => ix.SoleOnTidy w' := by
    intro w h
    refine Workspace.onDisk_ends ?_
    unfold readHeader
    have hgot : ∀ {r : Except Error Bytes} {d : Disk},
        store.Got 0 maxBlockSize w.disk r d → ix.SoleOnTidy { w with disk := d } := fun hgot =>
      h.disk (Nat.le_of_eq hgot.follows.size.symm) (hgot.contents _)
    exact Ends.bind (store.read_ends w.disk 0 maxBlockSize) (fun _ _ hd => hgot hd)
      fun _ _ hd => ends_settle (hgot hd)
  have hcreate : Ends (if options.mode = .create then Workspace.onDisk (createOn store options)
      else pure ()) w fun _ w' => ix.SoleOnTidy w' := by
    split
    · refine Workspace.onDisk_ends ?_
      unfold createOn
      refine Ends.bind (P := fun _ d => d = w.disk) (ends_settle rfl) ?_ fun image d hd => ?_
      · rintro _ _ rfl
        exact h
      · subst hd
        exact (store.write_ends w.disk 0 image).mono fun r d hwrote =>
          h.disk (Nat.le_of_eq hwrote.follows.size.symm) (hwrote.apart _ hvolume.symm)
    · exact h
  unfold Index.openStore
  refine Ends.ite_bind (Ends.bind hcreate (fun _ _ h => h) fun _ w' h => ?_)
  refine Ends.bind (hread h) (fun _ _ h => h) fun header w'' h => ?_
  refine Ends.bind (Workspace.onCache_ends (Q := fun _ w' => ix.SoleOnTidy w')
    (h.beside (Buffered.aside_register hvolume))) (fun _ _ h => h) fun _ _ h => h

/-- A call on another file, as far as its session goes. -/
theorem SoleOnTidy.transact_ne {α : Type} (h : ix.SoleOnTidy w) (hother : other.Registered w)
    (hvolume : other.store.volume ≠ ix.store.volume) (mode : EndMode) (program : Program α) :
    Ends (Session.transact other.file other.tree.layout other.mode.locked mode program)
      (w.below other.cache) fun _ s => ix.SoleOnTidy (w.withBelow other.cache s) ∧
        other.Registered (w.withBelow other.cache s) := by
  have haside := Session.transact_aside (m := other.mount) other.mode.locked mode program rfl
    hother.sound hother.store hvolume
  refine (haside.and (hother.transact mode program)).mono fun o s ⟨hs, htransacted⟩ =>
    ⟨h.beside hs, ?_⟩
  exact (hother.leaves (d := s.disk) htransacted.steps .refl).registered hother

/-- A call on another file, or a flush. -/
theorem SoleOnTidy.visit_ne {ι : Type} (h : ix.SoleOnTidy w) (hother : other.Registered w)
    (hvolume : other.store.volume ≠ ix.store.volume) (visit : Visit ι) :
    Ends visit.run (other, w) fun _ σ => ix.SoleOnTidy σ.2 := by
  cases visit with
  | call turn =>
    refine Ends.bind (P := fun _ σ => ix.SoleOnTidy σ.2) (Call.run_ends ?_) (fun _ _ h => h)
      fun _ _ h => Ends.pure h
    cases turn.call.course other (w.cell other.cell) with
    | decided r => exact h
    | asks q =>
      dsimp only [Course.Meets]
      exact Ends.mono (h.transact_ne hother hvolume other.mode.endMode q.program)
        fun o s hs => hs.1.setCell _ _
  | flush i =>
    simp only [Visit.run, Index.flush, bind_assoc]
    refine Ends.bind (call_ends (Q := fun _ σ => σ.1 = other ∧ ix.SoleOnTidy σ.2)
      ((h.transact_ne hother hvolume .flush (.done ())).mono fun o s hs => ⟨rfl, hs.1⟩))
      (fun _ _ h => h.2) ?_
    rintro ⟨⟨⟩, ended⟩ ⟨ix', w'⟩ ⟨rfl, h⟩
    refine Ends.bind (P := fun _ σ => σ = (ix', w')) (ends_settle rfl)
      (fun _ _ heq => heq ▸ h) ?_
    rintro ⟨⟩ _ rfl
    refine self_bind_ends (Ends.bind (P := fun _ σ => ix.SoleOnTidy σ.2)
      (onWorkspace_ends (Workspace.onDisk_ends ?_)) (fun _ _ h => h) fun _ _ h => Ends.pure h)
    exact (ix'.store.ask_ends w'.disk .sync 0 0).mono fun _ d hd =>
      h.disk (Nat.le_of_eq hd.1.size.symm) (hd.2.1 _)

/-- Another file is taken out of its cache. -/
theorem SoleOnTidy.unregister_ne (h : ix.SoleOnTidy w) (hother : other.Registered w)
    (hvolume : other.store.volume ≠ ix.store.volume) :
    Ends unregister (other, w) fun _ σ => σ.1 = other ∧ ix.SoleOnTidy σ.2 :=
  self_bind_ends (onWorkspace_ends (Workspace.onCache_ends
    ((Cache.unregister_aside hother.sound hother.store hvolume).mono fun _ _ hs =>
      ⟨rfl, h.beside hs⟩)))

theorem SoleOnTidy.close_ne (h : ix.SoleOnTidy w) (hother : other.Registered w)
    (hvolume : other.store.volume ≠ ix.store.volume) :
    Ends close (other, w) fun _ σ => σ.1 = other ∧ ix.SoleOnTidy σ.2 := by
  unfold close
  refine Ends.attempt_bind (call_ends (Q := fun _ σ => σ.1 = other ∧ ix.SoleOnTidy σ.2 ∧
    other.Registered σ.2)
    ((h.transact_ne hother hvolume .flush (.done ())).mono fun o s hs => ⟨rfl, hs⟩)) ?_
  rintro flushed ⟨_, w'⟩ ⟨rfl, h, hother⟩
  refine Ends.bind (h.unregister_ne hother hvolume) (fun _ _ h => h) fun _ σ hσ => ?_
  cases flushed with
  | error e => exact hσ
  | ok value => exact ends_settle hσ

/-- Another file is given up, in whatever way. -/
theorem SoleOnTidy.ended_ne (h : ix.SoleOnTidy w) (hother : other.Registered w)
    (hvolume : other.store.volume ≠ ix.store.volume) {way : IndexM Unit}
    (hway : way ∈ [close, drop, kill]) : Ends way (other, w) fun _ σ => ix.SoleOnTidy σ.2 := by
  have hclose := h.close_ne hother hvolume
  have hdrop : Ends drop (other, w) fun _ σ => ix.SoleOnTidy σ.2 := by
    unfold drop
    exact Ends.attempt_bind hclose fun _ _ hσ => hσ.2
  have hkill : Ends kill (other, w) fun _ σ => ix.SoleOnTidy σ.2 := by
    unfold kill
    refine self_bind_ends ?_
    split
    · refine Ends.bind (h.unregister_ne hother hvolume) (fun _ _ h => h.2) ?_
      rintro _ ⟨ix', w'⟩ ⟨rfl, h⟩
      refine onWorkspace_ends (Workspace.onDisk_ends ?_)
      exact (ix'.store.remove_ends w'.disk).mono fun _ d ⟨hsize, hcontents⟩ =>
        h.disk (Nat.le_of_eq hsize.symm) (hcontents _ hvolume.symm)
    · exact Ends.bind hdrop (fun _ _ h => h) fun _ _ h => h
  simp only [List.mem_cons, List.not_mem_nil, or_false] at hway
  rcases hway with rfl | rfl | rfl
  · exact hclose.mono fun _ _ hσ => hσ.2
  · exact hdrop
  · exact hkill

/-! ## Histories -/

/-- What happens meanwhile leaves the file tidy, and the handle as it is but for the cursor. -/
theorem Meanwhile.soleOnTidy {σ τ : Index × Workspace} (hstep : Meanwhile σ τ)
    (h : σ.1.SoleOnTidy σ.2) :
    τ.1 = { σ.1 with cursor := τ.1.cursor } ∧ τ.1.SoleOnTidy τ.2 := by
  cases hstep with
  | visited ix w visit => exact (h.visit visit).ending
  | purged ix w id =>
    refine ⟨rfl, Ends.ending (Q := fun _ w' => ix.SoleOnTidy w') (Workspace.onCache_ends ?_)⟩
    exact Cache.purge_aside.mono fun _ _ hs => h.beside hs
  | opened ix w store options cell hvolume => exact ⟨rfl, (h.openStore options cell hvolume).ending⟩
  | called ix w other visit hother hvolume => exact ⟨rfl, (h.visit_ne hother hvolume visit).ending⟩
  | ended ix w other way hway hother hvolume => exact ⟨rfl, (h.ended_ne hother hvolume hway).ending⟩
  | passed ix w d hsize hcontents => exact ⟨rfl, h.disk hsize hcontents⟩
  | noted ix w cell record => exact ⟨rfl, h.setCell cell record⟩
  | cached ix w buffers => exact ⟨rfl, h.addCache buffers⟩
  | celled ix w =>
    have hcell : ix.cell < w.addCell.2.cells.size :=
      Nat.lt_of_lt_of_le h.cell (by simp [Workspace.addCell])
    exact ⟨rfl, h.cache, hcell, h.layout, h.cursor, h.tidyAtRest, h.alone⟩

/-- So does all that happens. -/
theorem SoleOnTidy.history {σ τ : Index × Workspace} (h : σ.1.SoleOnTidy σ.2)
    (hrun : Relation.ReflTransGen Meanwhile σ τ) :
    τ.1 = { σ.1 with cursor := τ.1.cursor } ∧ τ.1.SoleOnTidy τ.2 := by
  induction hrun with
  | refl => exact ⟨rfl, h⟩
  | tail _ hstep ih =>
    obtain ⟨hsame, hsoleOnTidy⟩ := ih
    obtain ⟨hsame', hsoleOnTidy'⟩ := hstep.soleOnTidy hsoleOnTidy
    exact ⟨by rw [hsame', hsame], hsoleOnTidy'⟩

end Index

end PagedIndex
