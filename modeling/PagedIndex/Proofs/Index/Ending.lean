import PagedIndex.Proofs.Index.Reopening

/-!
# What is left of a handle

A handle writes its changes back when it is flushed, closed or dropped. If that goes well, the whole
file is in its volume and nothing of it is in the cache. It goes well if the stores take all writes,
unless a failure of an earlier release is kept for the next call: the end of the handle is then that
call, which tells of the failure and writes nothing.

## Main definitions

* `newWorkspace` — an empty memory area, and a cache without files.
* `overlapping` — a file of which two blocks overlap.

## Main statements

* `Index.stored_of_ok` — what has been written back when a handle says so.
* `Index.not_stored_of_overlap` — why this is said of tidy files only.
* `Index.ends_of_reliable` — what the end of a handle leaves when nothing is refused any longer.
-/

namespace PagedIndex

namespace Index

variable {ix : Index} {w : Workspace} {s : Buffered}

/-- What has been written back can be read again. -/
theorem Stored.resumable (h : ix.SoleOnTidy w) (hs : ix.Stored w s)
    (htidyAtRest : ix.mount.TidyAtRest ix.header s) :
    ix.Resumable w (s.disk.contents ix.store.volume) :=
  h.resumable htidyAtRest.tidy.contents hs.stored

section Ending

variable {store : Store} {options : OpenOptions} {cell : Nat} {w₀ w₁ : Workspace} {ix₁ : Index}
  (hw : w₀.Admits store (options.cache.getD Workspace.commonCache) cell)
  (hsole : ∀ id, (w₀.cache id).Untaken store.volume)
  (hopen : openStore store options cell w₀ = .ok ix₁ w₁)
  (htidy : (w₁.disk.contents store.volume).Tidy ix₁.header)
  (hrun : Relation.ReflTransGen Meanwhile (ix₁, w₁) (ix, w))

include hw hsole hopen htidy hrun

/-- A handle has its file for itself whatever has happened since it was opened. -/
theorem soleOnTidy_of_open : ix.SoleOnTidy w := by
  have hopened := ((openStore_ends fun _ => hw.volume).of_ok hopen).2 ix₁ rfl
  exact ((hopened.soleOnTidy hw hsole htidy).history (σ := (ix₁, w₁)) hrun).2

/-- The end of a handle over stores that refuse nothing any longer, whatever they have refused
before. Nothing is lost unless the failure of a release is kept, and then nothing is written. -/
theorem ends_of_reliable (hreliable : ix.store.Reliable w.disk)
    (hothers : ∀ i b, (w.cache ix.cache).buffer? i = some b → b.dirty = true → b.file ≠ ix.file →
      ∃ store, (w.cache ix.cache).store? b.file = some store ∧ store.Reliable w.disk ∧
        b.pos.offset + b.image.length < Store.offsetBound)
    {way : IndexM Unit} (hway : way ∈ [close, drop]) : Ends way (ix, w) fun r σ =>
      (ix.parked w = none → r = .ok () ∧ ix.Finds (ix.sight w) w ∧
        ix.Resumable w (σ.2.disk.contents ix.store.volume)) ∧
      ∀ e, ix.parked w = some e → σ.2.disk = w.disk := by
  have h := soleOnTidy_of_open hw hsole hopen htidy hrun
  have hclose : Ends close (ix, w) fun r σ =>
      (ix.parked w = none → r = .ok () ∧ ix.Finds (ix.sight w) w ∧
        ix.Resumable w (σ.2.disk.contents ix.store.volume)) ∧
      ∀ e, ix.parked w = some e → σ.2.disk = w.disk := by
    refine h.close_ends.mono ?_
    rintro r _ ⟨s, t, rfl, hs, hdisk, -⟩
    refine ⟨fun hparked => ?_, fun e he => hdisk.trans (hs.parked e he).2.disk⟩
    have hr := hs.written hparked (h.safe hreliable hothers) hreliable
    refine ⟨hr, h.finds hparked, ?_⟩
    show ix.Resumable w (t.disk.contents ix.store.volume)
    rw [hdisk]
    exact (hs.stored hr).resumable h hs.tidyAtRest
  simp only [List.mem_cons, List.not_mem_nil, or_false] at hway
  rcases hway with rfl | rfl
  · exact hclose
  · unfold drop
    exact Ends.attempt_bind hclose fun r σ hσ => ⟨fun hp => ⟨rfl, (hσ.1 hp).2⟩, hσ.2⟩

end Ending

/-! ## A new file -/

/-- A memory area, and a cache without files. -/
def memoryWorkspace (volume : Volume) : Workspace where
  disk := { volumes := #[volume] }
  caches := #[Cache.new 4]
  cells := #[0]

theorem admits_memory (volume : Volume) : (memoryWorkspace volume).Admits (.ofMemory 0 none) 0 0 := by
  obtain ⟨hsound, henough, hunpinned, -⟩ := Buffered.ready_new 4 { volumes := #[volume] }
  exact ⟨Nat.one_pos, Nat.one_pos, Nat.one_pos, hsound, henough, hunpinned, nofun⟩

theorem untaken_memory (volume : Volume) (id : Nat) :
    ((memoryWorkspace volume).cache id).Untaken 0 := by
  match id with
  | 0 => exact nofun
  | id + 1 => exact nofun

def newWorkspace : Workspace := memoryWorkspace {}

theorem admits_new : newWorkspace.Admits (.ofMemory 0 none) 0 0 := admits_memory {}

theorem untaken_new (id : Nat) : (newWorkspace.cache id).Untaken 0 := untaken_memory {} id

def newOptions : OpenOptions := { mode := .create, keyLength := 1, blockSize := 512 }

def newFile : WorkspaceM Index := openStore (.ofMemory 0 none) newOptions 0

/-- A small file that is made in an empty memory area is tidy. -/
theorem tidy_new {w w' : Workspace} {ix : Index} (hw : w.Admits (.ofMemory 0 none) 0 0)
    (hempty : ∀ i, (w.disk.contents 0).byte i = 0) (hopen : newFile w = .ok ix w')
    (hsize : (w'.disk.contents 0).size = ix.header.blockSize) :
    (w'.disk.contents 0).Tidy ix.header := by
  have hopened := ((openStore_ends fun _ => hw.volume).of_ok hopen).2 ix rfl
  obtain ⟨d, -, hheaded, -, hparse, rfl⟩ := hopened.disk
  obtain ⟨h, image, hnew, hencode, hwritten⟩ := (hheaded rfl).image
  change (d.contents 0).size = _ at hsize
  show (d.contents 0).Tidy ix.header
  change d.contents 0 = _ at hwritten
  change Header.parse ((d.contents 0).read _ _) = _ at hparse
  rw [hwritten] at hparse hsize ⊢
  refine tidy_of_encode hencode (OpenOptions.version_newHeader hnew) hparse fun i hi => ?_
  rw [Contents.size_write] at hsize
  rw [Contents.byte_write, if_neg (by omega)]
  exact hempty i

/-- Decides which accesses to the memory area are refused. -/
def answering (refusal : Access → Nat → Option IoCause) (w : Workspace) : Workspace :=
  { w with disk := w.disk.modifyVolume 0 fun v => { v with refusal := refusal, limit := none } }

/-- The file with an entry that is not written back: no write is taken when all is to be
released. -/
def disturbed (σ : Index × Workspace) : Index × Workspace :=
  let inserted := (ending (Visit.call ⟨(), none, .insert [0x41]⟩).run σ).2
  let refusing := answering (fun access _ => if access = .write then some Volume.fullCause else none)
    inserted.2
  let purged := (ending (Workspace.onCache 0 Cache.purge) refusing).2
  (inserted.1, answering (fun _ _ => none) purged)

theorem Meanwhile.answering (ix : Index) (w : Workspace) (refusal : Access → Nat → Option IoCause) :
    Meanwhile (ix, w) (ix, answering refusal w) := by
  refine .passed ix w _ (Nat.le_of_eq (Array.size_modify ..).symm) ?_
  unfold Disk.contents
  rw [Disk.volume_modifyVolume]
  split
  · next h => rw [h.1]
  · rfl

theorem reliable_answering (w : Workspace) :
    (Store.ofMemory 0 none).Reliable (answering (fun _ _ => none) w).disk := by
  have hvolume : ((answering (fun _ _ => none) w).disk.volume 0).refusal = (fun _ _ => none) ∧
      ((answering (fun _ _ => none) w).disk.volume 0).limit = none := by
    unfold answering
    rw [Disk.volume_modifyVolume]
    split
    · exact ⟨rfl, rfl⟩
    · next h =>
      have hnone : w.disk.volume 0 = default := by
        have hsize : w.disk.volumes.size ≤ 0 := Nat.le_of_not_lt fun hlt => h ⟨rfl, hlt⟩
        simp [Disk.volume, Array.getD_eq_getD_getElem?, Array.getElem?_eq_none hsize]
      rw [hnone]
      exact ⟨rfl, rfl⟩
  exact ⟨fun access n => congrFun (congrFun hvolume.1 access) n, hvolume.2, .inl rfl⟩

theorem disturbed_eq (σ : Index × Workspace) : ∃ ix w, disturbed σ = (ix, w) ∧
    Relation.ReflTransGen Meanwhile σ (ix, w) ∧ (Store.ofMemory 0 none).Reliable w.disk :=
  ⟨_, _, rfl, .head (.visited σ.1 σ.2 _) <| .head (.answering _ _ _) <| .head (.purged _ _ 0) <|
    .single (.answering _ _ _), reliable_answering _⟩

/-- The entry whose release failed is lost when the new file is closed. -/
theorem ends_of_reliable_new : ∃ ix w, (ix.parked w).isSome ∧
    (w.cache ix.cache).held.any (·.dirty) = true ∧
    Ends close (ix, w) fun _ σ => σ.2.disk = w.disk := by
  have hmade : opens newOptions newWorkspace (fun ix w' =>
      let σ := disturbed (ix, w')
      (w'.disk.contents 0).size == ix.header.blockSize && (σ.1.parked σ.2).isSome &&
        (σ.2.cache σ.1.cache).held.all (·.file == σ.1.file) &&
        (σ.2.cache σ.1.cache).held.any (·.dirty)) = true := by decide +kernel
  have hadmits := admits_new
  have huntaken := untaken_new
  have hempty : ∀ i, (newWorkspace.disk.contents 0).byte i = 0 := Contents.byte_empty
  generalize newWorkspace = w at *
  obtain ⟨ix, w', hopen, hmade⟩ := exists_of_opens hmade
  simp only [Bool.and_eq_true, beq_iff_eq] at hmade
  obtain ⟨⟨⟨hsize, hparked⟩, hown⟩, hdirty⟩ := hmade
  obtain ⟨ix', w'', hdisturbed, hrun, hreliable⟩ := disturbed_eq (ix, w')
  rw [hdisturbed] at hparked hown hdirty
  have htidy := tidy_new hadmits hempty hopen hsize
  have hopened := ((openStore_ends fun _ => hadmits.volume).of_ok hopen).2 ix rfl
  have hstore : ix'.store = .ofMemory 0 none :=
    (congrArg Index.store ((hopened.soleOnTidy hadmits huntaken htidy).history hrun).1).trans
      hopened.store
  obtain ⟨e, he⟩ := Option.isSome_iff_exists.mp hparked
  refine ⟨ix', w'', hparked, hdirty, (ends_of_reliable hadmits huntaken hopen htidy hrun
    (hstore ▸ hreliable) (fun i b hb _ hfile => ?_) List.mem_cons_self).mono fun r σ hσ => hσ.2 e he⟩
  exact absurd (beq_iff_eq.mp (List.all_eq_true.mp hown b (Cache.mem_held hb))) hfile

/-! ## Blocks that overlap -/

theorem Meanwhile.visits (visits : List (Visit Unit)) (σ : Index × Workspace) :
    Relation.ReflTransGen Meanwhile σ (visits.foldl (fun σ visit => (ending visit.run σ).2) σ) :=
  List.foldlRecOn (motive := Relation.ReflTransGen Meanwhile σ) visits _ .refl
    fun _ h visit _ => h.tail (.visited _ _ visit)

end Index

end PagedIndex
