import PagedIndex.CommandLine
import PagedIndex.Proofs.Index.Abandoned
import PagedIndex.Table

/-!
# Files that are not made

What was in a store is still there when a file is refused that was to be made in it, with one
exception: a record length with too many digits is only found when the header is read back, and the
header has been written by then. A file of the file tree is emptied before anything is looked at
that is asked for, so nothing is left of it, neither by a handle nor through a table or on the
command line.

## Main definitions

* `OpenOptions.Leaves` — what is left of the contents of a store.
* `CommandLine.createOptions` — what is asked for on the command line.

## Main statements

* `Index.openStore_refused` — a file that is not made in a store.
* `Index.openFile_refused` — a file of the file tree that is not made anew.
* `Index.left_of_refused` — what is left in either case, and by the other ways to a file.
-/

namespace PagedIndex

/-- What is left of contents `c` when a file is not made with the options. -/
structure OpenOptions.Leaves (options : OpenOptions) (store : Store) (e : Error) (c c' : Contents) :
    Prop where
  kept : ¬options.Formable store → c' = c
  /-- All but the record length is made into a first block, which is written over what was there. -/
  spoilt : options.Formable store → ∃ n image, options.fixedRecordLength = some n ∧ 10 ^ 5 ≤ n ∧
    e = .badRecordLength (n % 10 ^ 5) n ∧ options.firstBlock store = .ok image ∧ c' = c.write 0 image

/-! ## Files that are emptied -/

namespace Disk

/-- A disk of which one volume has been emptied. -/
def emptied (d : Disk) (id : Nat) : Disk := d.modifyVolume id fun v => { v with contents := {} }

def fileAt? (d : Disk) (name : String) : Option Nat :=
  match Store.findTarget d.tree name with
  | .ok (.file _ volume) => some volume
  | _ => none

/-- A file of the file tree, as a store that refuses nothing. -/
structure Offers (d : Disk) (name : String) (store : Store) : Prop where
  found : d.fileAt? name = some store.volume
  store_eq : store = ⟨store.volume, .file true, some name⟩
  volume : store.volume < d.volumes.size
  reliable : store.Reliable d

variable {d : Disk} {id id' : Nat}

theorem follows_emptied (d : Disk) (id : Nat) : d.Follows (d.emptied id) :=
  follows_modifyVolume _ _ (fun _ => rfl) fun _ => rfl

theorem contents_emptied (hid : id < d.volumes.size) : (d.emptied id).contents id = {} := by
  unfold contents emptied
  rw [volume_modifyVolume, if_pos ⟨rfl, hid⟩]

theorem contents_emptied_ne (hid : id' ≠ id) : (d.emptied id).contents id' = d.contents id' := by
  unfold contents emptied
  rw [volume_modifyVolume, if_neg fun h => hid h.1]

end Disk

namespace Index

variable {store : Store} {options : OpenOptions} {w : Workspace} {cell : Nat} {name : String}

/-- A file that is not made in a store. -/
theorem openStore_refused (hcreate : options.mode = .create)
    (hvolume : store.volume < w.disk.volumes.size) (hreliable : store.Reliable w.disk)
    (hrefused : ¬options.Acceptable store) :
    Ends (openStore store options cell) w fun r w' => ∃ e, r = .error e ∧
      (∀ id, id ≠ store.volume → w'.disk.contents id = w.disk.contents id) ∧
      options.Leaves store e (w.disk.contents store.volume) (w'.disk.contents store.volume) := by
  refine (openStore_created hcreate hvolume hreliable).mono ?_
  rintro r w' ⟨hothers, hcase⟩
  cases hfirst : options.firstBlock store with
  | error e =>
    rw [hfirst] at hcase
    refine ⟨e, hcase.1, hothers, fun _ => hcase.2, fun hformable => ?_⟩
    obtain ⟨image, himage⟩ := hformable.exists_firstBlock
    exact nomatch hfirst.symm.trans himage
  | ok image =>
    rw [hfirst] at hcase
    obtain ⟨hformable, -⟩ := OpenOptions.of_firstBlock_eq_ok hfirst
    obtain ⟨hwritten, hr⟩ := hcase
    rcases options.admits_reread_cases store.name with ⟨hsmall, -⟩ | ⟨n, hn, hlarge, hadmits⟩
    · exact absurd ⟨hformable, hsmall⟩ hrefused
    · rw [hadmits] at hr
      cases r with
      | ok made => cases hr
      | error e =>
        exact ⟨e, rfl, hothers, fun h => absurd hformable h, fun _ =>
          ⟨n, image, hn, hlarge, Except.error.inj hr, hfirst, hwritten⟩⟩

/-- A file of the file tree that is to be made anew is emptied. -/
theorem createFile_ends {d : Disk} {volume : Nat} (hfound : d.fileAt? name = some volume) :
    Ends (Store.createFile name) d fun r d' =>
      r = .ok ⟨volume, .file true, some name⟩ ∧ d' = d.emptied volume := by
  unfold Disk.fileAt? at hfound
  split at hfound
  · next place volume' hfind =>
    cases hfound
    unfold Store.createFile
    refine Ends.get_bind ?_
    rw [hfind]
    exact Ends.modify_bind ⟨rfl, rfl⟩
  · cases hfound

/-- A file of the file tree that is not made anew. -/
theorem openFile_refused (hcreate : options.mode = .create)
    (hoffers : w.disk.Offers (fileName name) store) (hrefused : ¬options.Acceptable store) :
    Ends (openFile name options cell) w fun r w' => ∃ e, r = .error e ∧
      (∀ id, id ≠ store.volume → w'.disk.contents id = w.disk.contents id) ∧
      options.Leaves store e {} (w'.disk.contents store.volume) := by
  obtain ⟨hfound, hkind, hvolume, hreliable⟩ := hoffers
  have hmade : Ends (Workspace.onDisk (if options.mode = .create then Store.createFile (fileName name)
      else Store.openFile (fileName name) options.mode.writable)) w
      fun r w' => r = .ok store ∧ w' = { w with disk := w.disk.emptied store.volume } := by
    -- the options are not looked at yet
    rw [if_pos hcreate]
    refine Workspace.onDisk_ends ((createFile_ends hfound).mono ?_)
    rintro r d ⟨rfl, rfl⟩
    exact ⟨congrArg Except.ok hkind.symm, rfl⟩
  have hfollows := w.disk.follows_emptied store.volume
  unfold openFile
  refine Ends.bind hmade (fun _ _ h => nomatch h.1) ?_
  rintro _ _ ⟨⟨⟩, rfl⟩
  refine (openStore_refused (w := { w with disk := w.disk.emptied store.volume }) hcreate
    (hfollows.size ▸ hvolume) (hreliable.follows hfollows) hrefused).mono ?_
  rintro r w' ⟨e, hr, hothers, hleaves⟩
  refine ⟨e, hr, fun id hid => (hothers id hid).trans (Disk.contents_emptied_ne hid), ?_⟩
  rwa [Disk.contents_emptied hvolume] at hleaves

end Index

/-! ## On the command line -/

namespace CommandLine

/-- What is asked for on the command line, by the arguments behind the key length. -/
def createOptions (keyLength : Nat) (rest : List String) : OpenOptions where
  mode := .create
  keyLength := keyLength
  duplicates := if rest[0]? = some "dups" then .allow else .fromFile

def start (d : Disk) : Workspace := ({ disk := d } : Workspace).addCell.2

/-- The blocks that are asked for on the command line have room for a header. -/
theorem not_abandons_createOptions (n : Nat) (rest : List String) (name : String) (d : Disk) :
    ¬(createOptions n rest).Abandons name d := by
  rintro ⟨-, -, -, -, hlarge | hsmall⟩
  · exact absurd (show Bytes.maxLength < 1024 from hlarge) (by decide)
  · exact absurd (show 1024 < Header.nameStart + 1 from hsmall) (by decide)

/-- A file that is not made ends the run. -/
theorem run_create_of_error {limit n : Nat} {checked : Bool} {name length : String}
    {rest : List String} {d : Disk}
    {e : Error} {w' : Workspace} (hn : number? length = some n)
    (hopen : Index.openFile name (createOptions n rest) cell (start d) = .error e w') :
    run limit (name :: "create" :: length :: rest) d checked =
      (⟨1, "", (Complaint.failed e.message).text⟩, w'.disk) := by
  have hnumber : number length "key length" = pure n := by
    unfold number
    rw [hn]
  have hmade : onWorkspace "" (Index.openFile name (createOptions n rest) cell)
      { workspace := start d } = .error (.failed e.message) { workspace := w' } := by
    have hends := Index.openFile_abandoned name (createOptions n rest) cell (start d)
    have he : e ≠ .outOfRange := fun he =>
      not_abandons_createOptions n rest _ _ ((hends.of_error hopen).mp (congrArg _ he))
    unfold onWorkspace
    simp [hopen, he, Complaint.ofError]
  have hcreate : create name (length :: rest) { workspace := start d } =
      .error (.failed e.message) { workspace := w' } := by
    unfold create
    show ((number length "key length" >>= fun length =>
      onWorkspace "" (Index.openFile name (createOptions length rest) cell) >>= _) : CommandM Unit)
        _ = _
    rw [hnumber]
    show EStateM.bind (onWorkspace "" (Index.openFile name (createOptions n rest) cell)) _ _ = _
    unfold EStateM.bind
    rw [hmade]
  have hdispatch : dispatch checked limit (name :: "create" :: length :: rest)
      { workspace := (({ disk := d } : Workspace).addCell).2 } =
      .error (.failed e.message) { workspace := w' } := hcreate
  unfold run
  dsimp only
  rw [hdispatch]
  rfl

end CommandLine

namespace Index

variable {store : Store} {options : OpenOptions} {w : Workspace} {cell : Nat} {name : String}

/-- What is left of a file that is not made, for options that are not acceptable and stores that
refuse nothing. What was in a store is kept, unless it is overwritten for the sake of a record
length; of a file of the file tree nothing is kept, whether a handle of its own is asked for, one of
a table, or the command line is used. -/
theorem left_of_refused (hcreate : options.mode = .create) (hrefused : ¬options.Acceptable store) :
    (store.volume < w.disk.volumes.size → store.Reliable w.disk →
      Ends (openStore store options cell) w fun r w' => ∃ e, r = .error e ∧
        (∀ id, id ≠ store.volume → w'.disk.contents id = w.disk.contents id) ∧
        options.Leaves store e (w.disk.contents store.volume) (w'.disk.contents store.volume)) ∧
    (w.disk.Offers (fileName name) store → ∃ e w',
      openFile name options cell w = .error e w' ∧
      (∀ t, Table.openFile name options cell (t, w) = (e.code, t, w')) ∧
      (∀ limit checked length rest n, CommandLine.number? length = some n →
        options = CommandLine.createOptions n rest → w = CommandLine.start w.disk →
        cell = CommandLine.cell →
        CommandLine.run limit (name :: "create" :: length :: rest) w.disk checked =
          (⟨1, "", (Complaint.failed e.message).text⟩, w'.disk)) ∧
      (∀ id, id ≠ store.volume → w'.disk.contents id = w.disk.contents id) ∧
      options.Leaves store e {} (w'.disk.contents store.volume)) := by
  refine ⟨fun hvolume hreliable => openStore_refused hcreate hvolume hreliable hrefused,
    fun hoffers => ?_⟩
  have hends : Ends (openFile name options cell) w _ := openFile_refused hcreate hoffers hrefused
  unfold Ends at hends
  cases hopen : openFile name options cell w with
  | ok ix w' =>
    rw [hopen] at hends
    obtain ⟨e, he, -⟩ := hends
    cases he
  | error e w' =>
    rw [hopen] at hends
    obtain ⟨e, ⟨⟩, hothers, hleaves⟩ := hends
    refine ⟨e, w', rfl, fun t => ?_, fun limit checked length rest n hn hoptions hw hcell => ?_,
      hothers,
      hleaves⟩
    · unfold Table.openFile
      simp only [hopen]
    · subst hoptions hcell
      rw [hw] at hopen
      exact CommandLine.run_create_of_error hn hopen

/-- A file of two bytes. -/
def smallDisk : Disk where
  volumes := #[{ contents := Contents.ofBytes [0x41, 0x42] }]
  tree := ({} : FileTree).insert ⟨.start, "a.isi"⟩ 0

/-- The two bytes are kept in a store when there is no key length, but not with a record length that
is too large, and not when the file is asked for by its name. -/
theorem left_of_refused_small :
    let w := CommandLine.start smallDisk
    let keyless : OpenOptions := { mode := .create }
    let large : OpenOptions := { mode := .create, keyLength := 4, fixedRecordLength := some 100000 }
    (w.disk.contents 0).toBytes = [0x41, 0x42] ∧
    Ends (openStore (.ofMemory 0 none) keyless 0) w (fun r w' => (∃ e, r = .error e) ∧
      w'.disk.contents 0 = w.disk.contents 0) ∧
    Ends (openStore (.ofMemory 0 none) large 0) w (fun r w' => r = .error (.badRecordLength 0 100000) ∧
      100 < (w'.disk.contents 0).size) ∧
    ∃ (e : Error) (d : Disk), CommandLine.run 0 ["a", "create", "0"] smallDisk =
      (⟨1, "", (Complaint.failed e.message).text⟩, d) ∧ (d.contents 0).toBytes = [] := by
  intro w keyless large
  have hvolume : (Store.ofMemory 0 none).volume < w.disk.volumes.size := Nat.one_pos
  have hreliable : (Store.ofMemory 0 none).Reliable w.disk := ⟨fun _ _ => rfl, rfl, .inl rfl⟩
  have hkeyless : ∀ store, ¬keyless.Formable store := fun store h =>
    absurd h.keyLength.1 (by decide)
  refine ⟨by decide +kernel, ?_, ?_, ?_⟩
  · have hends := (@left_of_refused (.ofMemory 0 none) keyless w 0 "a" rfl
      fun h => hkeyless _ h.formable).1 hvolume hreliable
    refine hends.mono ?_
    rintro r w' ⟨e, hr, -, hleaves⟩
    exact ⟨⟨e, hr⟩, hleaves.kept (hkeyless _)⟩
  · have hcreate : large.mode = .create := rfl
    have hlarge : large.fixedRecordLength = some 100000 := rfl
    have hformable : large.Formable (.ofMemory 0 none) :=
      ⟨by decide, by decide, by decide +kernel, by decide⟩
    -- this is all that is needed of the options and the workspace: the header is not computed
    clear_value large w
    have hends := (@left_of_refused (.ofMemory 0 none) large w 0 "a" hcreate
      fun h => absurd (h.recordLength 100000 hlarge) (by decide)).1 hvolume hreliable
    refine hends.mono ?_
    rintro r w' ⟨e, hr, -, hleaves⟩
    obtain ⟨n, image, hn, -, he, hfirst, hwritten⟩ := hleaves.spoilt hformable
    cases hlarge.symm.trans hn
    obtain ⟨-, hencode, -⟩ := OpenOptions.of_firstBlock_eq_ok hfirst
    have hlong := (Header.fronts_of_encode hencode).2.1
    have hnone : 100000 % 10 ^ 5 = 0 := by decide
    refine ⟨by rw [hr, he, hnone], ?_⟩
    show 100 < (w'.disk.contents (Store.ofMemory 0 none).volume).size
    rw [hwritten, Contents.size_write]
    unfold Header.nameStart at hlong
    omega
  · have hoffers : w.disk.Offers (fileName "a") ⟨0, .file true, some (fileName "a")⟩ :=
      ⟨by decide +kernel, rfl, Nat.one_pos, ⟨fun _ _ => rfl, rfl, .inr rfl⟩⟩
    obtain ⟨e, w', -, -, hrun, -, hleaves⟩ := (@left_of_refused _ keyless w 0 "a" rfl
      fun h => hkeyless _ h.formable).2 hoffers
    refine ⟨e, w'.disk, hrun 0 false "0" [] 0 (by decide +kernel) rfl rfl rfl, ?_⟩
    show (w'.disk.contents 0).toBytes = []
    rw [show w'.disk.contents 0 = {} from hleaves.kept (hkeyless _)]
    rfl

end Index

end PagedIndex
