import PagedIndex.Proofs.Disk.Failures
import PagedIndex.Proofs.Index.Creating

/-!
# Files that are abandoned

Opening a file of the file tree ends with the open file or with an error, with one exception: a file
that is to be made anew, with blocks too short for the fields of its header or larger than any there
can be, abandons the call. It does so on any disk on which the file can be made, whatever the stores
refuse, and nothing else does.

## Main definitions

* `OpenOptions.Abandons` — what abandons the opening of a file.

## Main statements

* `Index.openFile_abandoned` — which files are abandoned when they are opened.
-/

namespace PagedIndex

/-- What abandons the opening of a file of the file tree: it can be made, but its header not
written. -/
structure OpenOptions.Abandons (options : OpenOptions) (name : String) (d : Disk) : Prop where
  create : options.mode = .create
  made : ∃ store d', Store.createFile name d = .ok store d'
  blockSize : options.BlockSizeUnfit (some name)

namespace Store

/-- A file that is made is known by the name it was made by. -/
theorem name_of_createFile {name : String} {d d' : Disk} {store : Store}
    (h : createFile name d = .ok store d') : store.name = some name := by
  have hends : Ends (createFile name) d fun r _ => ∀ store, r = .ok store → store.name = some name := by
    apply Ends.get_bind
    split
    · exact nofun
    · exact nofun
    · rintro store ⟨⟩
      rfl
    · rintro store ⟨⟩
      rfl
  exact hends.of_ok h store rfl

end Store

theorem Error.OfDisk.ne_outOfRange {e : Error} (h : e.OfDisk) : e ≠ .outOfRange := by
  cases h <;> nofun

namespace OpenOptions

/-- The header of a new file is given up for the sake of the block size only. -/
theorem encode_newHeader_abandoned (options : OpenOptions) (name : Option String) :
    (options.newHeader name >>= Header.encode) = .error .outOfRange ↔ options.BlockSizeUnfit name := by
  rw [newHeader_eq_bind, blockSizeUnfit_iff]
  rcases (options.asked name).encode_cases with
    ⟨hnot, e, hencode, he⟩ | ⟨hwritable, hunfit, hencode⟩ | ⟨-, hfits, image, hencode, -⟩
  · refine iff_of_false (fun h => he ?_) fun h => hnot h.1
    rw [hencode] at h
    exact Except.error.inj h
  · refine iff_of_true ?_ ⟨hwritable, hunfit⟩
    rw [hencode]
    rfl
  · refine iff_of_false ?_ fun h => h.2 hfits
    rw [hencode]
    show ¬((Header.parse image >>= fun _ => pure (options.asked name)) >>= Header.encode) = _
    rcases Header.judges_parse image with ⟨h', hparse⟩ | ⟨d, hparse⟩
    · rw [hparse]
      show ¬(options.asked name).encode = _
      rw [hencode]
      nofun
    · rw [hparse]
      nofun

theorem admits_ne_outOfRange (options : OpenOptions) (header : Header) :
    options.admits header ≠ .error .outOfRange := by
  have hlast : (if header.duplicates && options.duplicates == .forbid then
      throw .duplicatesForbidden else .ok () : Except Error Unit) ≠ .error .outOfRange := by
    split <;> nofun
  unfold admits
  dsimp only
  split
  · nofun
  · split
    · exact hlast
    · split
      · nofun
      · exact hlast

end OpenOptions

theorem Fails.onDisk {α : Type} {F : Error → Prop} {x : DiskM α} (h : Fails F x) :
    Fails F (Workspace.onDisk x) :=
  .of_ends fun w => Workspace.onDisk_ends (h.ends w.disk)

namespace Index

variable {store : Store} {options : OpenOptions} {w : Workspace} {cell : Nat} {name : String}

/-- Whatever is read, no header is read or checked beyond its end. -/
theorem readHeader_fails (store : Store) (options : OpenOptions) :
    Fails (· ≠ .outOfRange) (readHeader store options) := by
  refine ((store.read_fails 0 maxBlockSize).mono fun e he => he.ne_outOfRange).bind fun front _ =>
    .settle ?_ fun _ _ => trivial
  rintro e he rfl
  rcases Header.judges_parse front with ⟨header, hparse⟩ | ⟨d, hparse⟩
  · rw [hparse] at he
    change (options.admits header >>= fun _ => pure header) = _ at he
    cases hadmits : options.admits header with
    | ok _ => rw [hadmits] at he; cases he
    | error e =>
      rw [hadmits] at he
      cases he
      exact options.admits_ne_outOfRange header hadmits
  · rw [hparse] at he
    cases he

theorem createOn_abandoned (store : Store) (options : OpenOptions) (d : Disk) :
    Ends (createOn store options) d fun r _ =>
      r = .error .outOfRange ↔ options.BlockSizeUnfit store.name := by
  have himage := options.encode_newHeader_abandoned store.name
  have hwrite : ∀ image, Fails (· ≠ .outOfRange) (store.write 0 image) := fun image =>
    (store.write_fails 0 image).mono fun _ he => he.ne_outOfRange
  unfold createOn
  refine Ends.bind (P := fun r _ => r = .error .outOfRange ↔ options.BlockSizeUnfit store.name)
    (ends_settle himage) (fun e _ h => ?_) fun image d' h => ?_
  · rw [← h, Except.error.injEq, Except.error.injEq]
  · refine ((hwrite image).ends d').mono fun r _ hr => iff_of_false ?_ fun hunfit =>
      nomatch h.mpr hunfit
    exact fun he => hr _ he rfl

theorem openStore_abandoned (store : Store) (options : OpenOptions) (cell : Nat) (w : Workspace) :
    Ends (openStore store options cell) w fun r _ =>
      r = .error .outOfRange ↔ options.mode = .create ∧ options.BlockSizeUnfit store.name := by
  have hmade : Ends (if options.mode = .create then Workspace.onDisk (createOn store options)
      else pure ()) w fun r _ =>
        r = .error .outOfRange ↔ options.mode = .create ∧ options.BlockSizeUnfit store.name := by
    split
    · next hcreate =>
      refine Workspace.onDisk_ends ((createOn_abandoned store options w.disk).mono fun r _ h => ?_)
      rw [h, and_iff_right hcreate]
    · next hcreate => exact iff_of_false nofun fun h => hcreate h.1
  unfold openStore
  refine Ends.ite_bind (Ends.bind hmade (fun e _ h => ?_) fun _ w' h => ?_)
  · rw [← h, Except.error.injEq, Except.error.injEq]
  · -- from here on nothing abandons the call
    have hnot : ¬(options.mode = .create ∧ options.BlockSizeUnfit store.name) := fun hboth =>
      nomatch h.mpr hboth
    refine Ends.bind ((readHeader_fails store options).onDisk.ends w') (fun e _ he => ?_) fun header
      w'' _ => ?_
    · exact iff_of_false (fun heq => he e rfl (Except.error.inj heq)) hnot
    · exact iff_of_false nofun hnot

/-- A file is abandoned when it is opened if and only if it is to be made anew, can be made, and is
to have blocks too short for its header or larger than any there can be. -/
theorem openFile_abandoned (name : String) (options : OpenOptions) (cell : Nat) (w : Workspace) :
    Ends (openFile name options cell) w fun r _ =>
      r = .error .outOfRange ↔ options.Abandons (fileName name) w.disk := by
  unfold openFile
  by_cases hcreate : options.mode = .create
  · simp only [if_pos hcreate]
    cases hmade : Store.createFile (fileName name) w.disk with
    | ok store d =>
      have hstore : Workspace.onDisk (Store.createFile (fileName name)) w =
          .ok store { w with disk := d } := by
        unfold Workspace.onDisk
        simp only [hmade]
      refine Ends.ok_bind hstore ((openStore_abandoned store options cell _).mono fun r _ h => ?_)
      rw [h, Store.name_of_createFile hmade]
      exact ⟨fun hboth => ⟨hcreate, ⟨store, d, hmade⟩, hboth.2⟩, fun h => ⟨hcreate, h.blockSize⟩⟩
    | error e d =>
      have hstore : Workspace.onDisk (Store.createFile (fileName name)) w =
          .error e { w with disk := d } := by
        unfold Workspace.onDisk
        simp only [hmade]
      have he : e.OfDisk := ((Store.createFile_fails (fileName name)).ends w.disk).of_error hmade e rfl
      refine Ends.error_bind hstore (iff_of_false ?_ ?_)
      · rintro ⟨⟩
        exact he.ne_outOfRange rfl
      · rintro ⟨-, ⟨store, d', hok⟩, -⟩
        exact nomatch hmade.symm.trans hok
  · simp only [if_neg hcreate]
    have hnot : ¬options.Abandons (fileName name) w.disk := fun h => hcreate h.create
    refine Ends.bind ((Store.openFile_fails (fileName name) options.mode.writable).onDisk.ends w)
      (fun e _ he => iff_of_false ?_ hnot) fun store w' _ => ?_
    · rintro ⟨⟩
      exact (he _ rfl).ne_outOfRange rfl
    · refine (openStore_abandoned store options cell w').mono fun r _ h => h.trans ?_
      exact iff_of_false (fun hboth => hcreate hboth.1) hnot

end Index

end PagedIndex
