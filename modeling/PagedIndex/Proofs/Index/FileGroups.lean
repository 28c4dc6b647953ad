import Mathlib.Logic.Function.Basic
import PagedIndex.Proofs.Index.FileTasks

/-!
# Files of one cache

Several files share the common cache, each with a store of its own. Tasks on them come in any order,
and between two of them all blocks that are not in use may be released. What is told of the tasks on
one of the files is told by these tasks alone: it depends neither on the other files, nor on what
was released, nor on the number of buffers.

## Main definitions

* `FileGroup`, `Event` — files of one cache, and what is done with them.
* `FileTask.Tells` — what is told of a list of tasks on one file.
* `FileGroup.Valid` — what holds of files between two events.

## Main statements

* `FileGroup.Valid.event`, `FileGroup.Valid.events` — what one event, and any number of them, come
  to.
* `FileGroup.runs_agree` — two runs with the same tasks on a file tell the same of it.
-/

namespace PagedIndex

/-- Files of one cache. For each of them that is open there is a handle. -/
structure FileGroup (ι : Type) where
  handles : ι → Option Index
  workspace : Workspace

/-- What is done with files of one cache. -/
inductive Event (ι : Type) where
  | task (file : ι) (e : FileTask)
  /-- All blocks that are not in use are released. -/
  | purge

namespace Event

variable {ι : Type} [DecidableEq ι]

def on (i : ι) : Event ι → Option FileTask
  | task j e => if j = i then some e else none
  | purge => none

def run (sites : ι → Site) : Event ι → FileGroup ι → Option (ι × Told) × FileGroup ι
  | task i e, σ =>
    let (told, handle, w) := e.run (sites i) (σ.handles i) σ.workspace
    (some (i, told), ⟨Function.update σ.handles i handle, w⟩)
  | purge, σ =>
    (none, ⟨σ.handles, (ending (Workspace.onCache Workspace.commonCache Cache.purge) σ.workspace).2⟩)

def runs (sites : ι → Site) : List (Event ι) → FileGroup ι → List (ι × Told) × FileGroup ι
  | [], σ => ([], σ)
  | event :: rest, σ =>
    let (told, σ') := event.run sites σ
    let (tolds, τ) := runs sites rest σ'
    (told.toList ++ tolds, τ)

def toldOf (i : ι) (tolds : List (ι × Told)) : List Told :=
  tolds.filterMap fun (j, told) => if j = i then some told else none

theorem filterMap_on_self (i : ι) (e : FileTask) (rest : List (Event ι)) :
    (task i e :: rest).filterMap (on i) = e :: rest.filterMap (on i) :=
  List.filterMap_cons_some (if_pos rfl)

theorem filterMap_on_of_ne {i j : ι} (h : j ≠ i) (e : FileTask) (rest : List (Event ι)) :
    (task j e :: rest).filterMap (on i) = rest.filterMap (on i) :=
  List.filterMap_cons_none (if_neg h)

theorem toldOf_self (i : ι) (told : Told) (tolds : List (ι × Told)) :
    toldOf i ((i, told) :: tolds) = told :: toldOf i tolds :=
  List.filterMap_cons_some (if_pos rfl)

theorem toldOf_of_ne {i j : ι} (h : j ≠ i) (told : Told) (tolds : List (ι × Told)) :
    toldOf i ((j, told) :: tolds) = toldOf i tolds :=
  List.filterMap_cons_none (if_neg h)

end Event

/-- What is told of tasks on a file, and what is known of it then. -/
inductive FileTask.Tells (face : Store) :
    List FileTask → FileState → Nat → List Told → FileState → Prop
  | nil {st : FileState} {record : Nat} (hwellFormed : st.WellFormed) :
    Tells face [] st record [] st
  | cons {e : FileTask} {rest : List FileTask} {st st' st'' : FileState} {record record' : Nat}
      {told : Told} {tolds : List Told} (halters : e.Alters st record told st')
      (hcomes : e.Comes face st record told st' record')
      (hwellFormed : st'.WellFormed) (hrest : Tells face rest st' record' tolds st'') :
      Tells face (e :: rest) st record (told :: tolds) st''

theorem FileTask.exists_tells {st : FileState} (hst : st.WellFormed) (face : Store)
    (tasks : List FileTask)
    (record : Nat) : ∃ tolds st', FileTask.Tells face tasks st record tolds st' := by
  induction tasks generalizing st record with
  | nil => exact ⟨[], st, .nil hst⟩
  | cons e rest ih =>
    obtain ⟨told, st', record', hst', halters, hcomes⟩ := e.comes hst face record
    obtain ⟨tolds, st'', hrest⟩ := ih hst' record'
    exact ⟨told :: tolds, st'', .cons halters hcomes hst' hrest⟩

/-- Sites that have nothing in common. -/
structure Site.Apart {ι : Type} (sites : ι → Site) : Prop where
  volume : ∀ i j, (sites i).store.volume = (sites j).store.volume → i = j
  cell : ∀ i j, (sites i).cell = (sites j).cell → i = j

/-- What is known of files of one cache is true of them, and tasks can be run on all of them. -/
structure FileGroup.Valid {ι : Type} (sites : ι → Site) (sts : ι → FileState) (σ : FileGroup ι) :
    Prop where
  hosts : ∀ i, σ.workspace.Hosts (sites i)
  wellFormed : ∀ i, (sts i).WellFormed
  shown : ∀ i, (sts i).Shown (sites i) (σ.workspace.below Workspace.commonCache) (σ.handles i)
  owned : ∀ i f store, (σ.workspace.below Workspace.commonCache).cache.store? f = some store →
    store.volume = (sites i).store.volume → ∃ ix, σ.handles i = some ix ∧ ix.file = f

/-! ## Other files -/

section Spared

variable {own : Nat → Prop} {site : Site} {s t : Buffered} {st : FileState} {handle : Option Index}
  {w : Workspace}

/-- What is known of a file stays true as long as the file is spared. -/
theorem FileState.Shown.spares (h : st.Shown site s handle) (hspares : s.Spares own t)
    (hown : ¬own site.store.volume) (ht : t.Ready)
    (huntaken : handle = none → s.cache.Untaken site.store.volume) : st.Shown site t handle := by
  cases handle with
  | none =>
    have hin : st.In (t.disk.contents site.store.volume) := by
      rw [(hspares.volumes _ hown (huntaken rfl)).2]
      cases st <;> exact h
    cases st <;> exact hin
  | some ix' =>
    cases st with
    | void | closed => exact h.elim
    | opened ix f =>
      obtain ⟨file, rfl, hblocksAs⟩ := h
      exact ⟨file, rfl, hblocksAs.spares hspares hown ht⟩

/-- Work on the common cache leaves a workspace in which tasks can be run. -/
theorem Workspace.Hosts.withBelow (h : w.Hosts site) (ht : t.Ready)
    (hfollows : w.disk.Follows t.disk) (cell record : Nat) :
    ((w.withBelow Workspace.commonCache t).setCell cell record).Hosts site := by
  refine ⟨?_, ?_, ?_, h.reliable.follows hfollows, hfollows.size ▸ h.volume⟩
  · simpa [Workspace.withBelow, Workspace.setCell] using h.cache
  · simpa [Workspace.withBelow, Workspace.setCell] using h.cell
  · exact (Workspace.below_withBelow (w := w) (s := t) h.cache).symm ▸ ht

end Spared

/-! ## One event -/

namespace FileGroup.Valid

variable {ι : Type} {sites : ι → Site} {sts : ι → FileState} {σ : FileGroup ι} {i : ι} {e : FileTask}
  {face : Store} {told : Told} {st' : FileState} {record' : Nat}

theorem untaken (h : σ.Valid sites sts) (hi : σ.handles i = none) :
    (σ.workspace.below Workspace.commonCache).cache.Untaken (sites i).store.volume := by
  intro f store hf hvolume
  obtain ⟨ix, hix, -⟩ := h.owned i f store hf hvolume
  exact nomatch hi.symm.trans hix

variable [DecidableEq ι]

/-- A task on one of the files. -/
theorem task (h : σ.Valid sites sts) (hapart : Site.Apart sites)
    (halike : (sites i).store.Alike face)
    (hcomes : e.Comes face (sts i) (σ.workspace.cell (sites i).cell) told st' record')
    (hwellFormed : st'.WellFormed) :
    ((Event.task i e).run sites σ).1 = some (i, told) ∧
      ((Event.task i e).run sites σ).2.Valid sites (Function.update sts i st') ∧
      (∀ j, ((Event.task i e).run sites σ).2.workspace.cell (sites j).cell =
        if j = i then record' else σ.workspace.cell (sites j).cell) := by
  obtain ⟨handle', s, hrun, htaskLeaves⟩ := hcomes halike (h.hosts i) (h.shown i) h.untaken rfl
  have hbelow : ((σ.workspace.withBelow Workspace.commonCache s).setCell (sites i).cell
      record').below Workspace.commonCache = s :=
    Workspace.below_withBelow (h.hosts i).cache
  have hevent : (Event.task i e).run sites σ = (some (i, told),
      ⟨Function.update σ.handles i handle', (σ.workspace.withBelow Workspace.commonCache s).setCell
        (sites i).cell record'⟩) := by
    simp only [Event.run, hrun]
  rw [hevent]
  refine ⟨rfl, ⟨fun j => ?_, fun j => ?_, fun j => ?_, fun j f store hf hvolume => ?_⟩, fun j => ?_⟩
  · exact (h.hosts j).withBelow htaskLeaves.ready htaskLeaves.spares.follows _ _
  · by_cases hj : j = i
    · subst hj
      rwa [Function.update_self]
    · rw [Function.update_of_ne hj]
      exact h.wellFormed j
  · by_cases hj : j = i
    · subst hj
      simpa only [hbelow, Function.update_self] using htaskLeaves.shown
    · simpa only [hbelow, Function.update_of_ne hj] using (h.shown j).spares htaskLeaves.spares
        (fun hv => hj (hapart.volume j i hv)) htaskLeaves.ready h.untaken
  · rw [hbelow] at hf
    by_cases hj : j = i
    · subst hj
      simp only [Function.update_self]
      rcases htaskLeaves.taken f store hf with ⟨ix, hix, hfile, -⟩ | ⟨hold, hnot⟩
      · exact ⟨ix, hix, hfile⟩
      · obtain ⟨ix, hix, hfile⟩ := h.owned j f store hold hvolume
        exact absurd hfile (hnot ix hix)
    · simp only [Function.update_of_ne hj]
      rcases htaskLeaves.taken f store hf with ⟨ix, -, -, rfl⟩ | ⟨hold, -⟩
      · exact absurd (hapart.volume i j hvolume).symm hj
      · exact h.owned j f store hold hvolume
  · by_cases hj : j = i
    · subst hj
      rw [if_pos rfl]
      exact Workspace.cell_setCell (h.hosts j).cell
    · rw [if_neg hj]
      exact Workspace.cell_setCell_ne fun hcell => hj (hapart.cell j i hcell)

/-- All blocks that are not in use are released. -/
theorem purge (h : σ.Valid sites sts) (i : ι) :
    (Event.purge.run sites σ).2.Valid sites sts ∧
      ∀ cell, (Event.purge.run sites σ).2.workspace.cell cell = σ.workspace.cell cell := by
  have hready := (h.hosts i).ready
  have hends : Ends (Workspace.onCache Workspace.commonCache Cache.purge) σ.workspace fun _ w =>
      ∃ s, w = σ.workspace.withBelow Workspace.commonCache s ∧
        Cache.Purged (σ.workspace.below Workspace.commonCache) s :=
    Workspace.onCache_ends ((Cache.purge_ends hready.sound hready.safe).mono
      fun _ s hs => ⟨s, rfl, hs.2⟩)
  obtain ⟨s, hw, hpurged⟩ := hends.ending
  have hbelow : (σ.workspace.withBelow Workspace.commonCache s).below Workspace.commonCache = s :=
    Workspace.below_withBelow (h.hosts i).cache
  have hspares := Buffered.spares_purged hpurged
  have hs := hready.purged hpurged
  simp only [Event.run, hw]
  refine ⟨⟨fun j => ?_, h.wellFormed, fun j => ?_, fun j f store hf => ?_⟩, fun cell => rfl⟩
  · have hhosts := (h.hosts j).withBelow hs hspares.follows (sites j).cell
      ((σ.workspace.withBelow Workspace.commonCache s).cell (sites j).cell)
    rwa [Workspace.setCell_cell] at hhosts
  · rw [hbelow]
    exact (h.shown j).spares hspares id hs h.untaken
  · rw [hbelow] at hf
    exact h.owned j f store ((hpurged.follows.stores f).symm.trans hf)

/-! ## Any number of events -/

/-- What is told of a file is told by the tasks on it. -/
theorem events (h : σ.Valid sites sts) (hapart : Site.Apart sites)
    (halike : (sites i).store.Alike face) {events : List (Event ι)} {tolds : List Told}
    (htells : FileTask.Tells face (events.filterMap (Event.on i)) (sts i)
      (σ.workspace.cell (sites i).cell) tolds st') :
    Event.toldOf i (Event.runs sites events σ).1 = tolds ∧
      ∃ sts', sts' i = st' ∧ (Event.runs sites events σ).2.Valid sites sts' := by
  induction events generalizing σ sts tolds with
  | nil =>
    cases htells with
    | nil => exact ⟨rfl, sts, rfl, h⟩
  | cons event rest ih =>
    cases event with
    | purge =>
      obtain ⟨hvalid, hcells⟩ := h.purge i
      rw [← hcells] at htells
      exact ih hvalid htells
    | task j e =>
      have hruns : ∀ {told σ'}, (Event.task j e).run sites σ = (some (j, told), σ') →
          Event.runs sites (.task j e :: rest) σ =
            ((j, told) :: (Event.runs sites rest σ').1, (Event.runs sites rest σ').2) := by
        intro told σ' hrun
        simp only [Event.runs, hrun]
        rfl
      by_cases hj : j = i
      · subst hj
        rw [Event.filterMap_on_self] at htells
        cases htells with
        | @cons _ _ _ st₁ _ _ _ _ _ _ hcomes hwellFormed hrest =>
          obtain ⟨htold, hvalid, hcells⟩ := h.task hapart halike hcomes hwellFormed
          rw [← Function.update_self j st₁ sts, ← (hcells j).trans (if_pos rfl)] at hrest
          obtain ⟨rfl, hsts⟩ := ih hvalid hrest
          rw [hruns (Prod.ext htold rfl)]
          exact ⟨Event.toldOf_self j _ _, hsts⟩
      · rw [Event.filterMap_on_of_ne hj] at htells
        -- whatever comes of a task on another file
        obtain ⟨told, st₁, record₁, hwellFormed, -, hcomes⟩ := e.comes (h.wellFormed j) (sites j).store
          (σ.workspace.cell (sites j).cell)
        obtain ⟨htold, hvalid, hcells⟩ := h.task hapart ⟨rfl, rfl⟩ hcomes hwellFormed
        rw [← Function.update_of_ne (Ne.symm hj) st₁ sts,
          ← (hcells i).trans (if_neg (Ne.symm hj))] at htells
        obtain ⟨rfl, hsts⟩ := ih hvalid htells
        rw [hruns (Prod.ext htold rfl)]
        exact ⟨Event.toldOf_of_ne hj _ _, hsts⟩

end FileGroup.Valid

/-! ## Files that are not open -/

/-- A volume that no header can be read from, or that a well-formed file lies in. -/
def Contents.Proper (c : Contents) : Prop := ∃ st : FileState, st.WellFormed ∧ st.In c

/-- What is known of a volume is known of one with the same bytes. -/
theorem FileState.In.congr {st : FileState} {c c' : Contents} (h : st.In c)
    (hbytes : c.toBytes = c'.toBytes) : st.In c' := by
  cases st with
  | void bytes => exact hbytes.symm.trans h
  | closed f => exact Contents.Holds.congr h hbytes
  | opened ix f => exact h.elim

/-- The bytes of a file that is not open are known. -/
theorem FileState.In.fileBytes_eq {st : FileState} {c c' : Contents} (h : st.In c) (h' : st.In c')
    (hst : st.WellFormed) : c.fileBytes = c'.fileBytes := by
  cases st with
  | void bytes =>
    have hvoid : ∀ {c : Contents}, (FileState.void bytes).In c → c.fileBytes = bytes := by
      intro c hc
      unfold Contents.fileBytes
      cases hparse : Header.parse (c.read 0 maxBlockSize) with
      | ok header =>
        rw [Contents.read_eq_take_drop, show c.toBytes = bytes from hc, List.drop_zero] at hparse
        exact absurd hparse (hst header)
      | error e => exact hc
    exact (hvoid h).trans (hvoid h').symm
  | closed f => exact Contents.Holds.fileBytes_eq h h' hst
  | opened ix f => exact h.elim

/-- A handle is on a file that is known to be open. -/
theorem FileState.Shown.closed {st : FileState} {site : Site} {s : Buffered} {handle : Option Index}
    (h : st.Shown site s handle) :
    (handle = none ↔ ∀ ix f, st ≠ .opened ix f) ∧
      (handle = none → st.In (s.disk.contents site.store.volume)) := by
  cases handle with
  | none => cases st <;> simp_all [FileState.Shown, FileState.In]
  | some ix => cases st <;> simp_all [FileState.Shown]

namespace FileGroup

variable {ι κ : Type}

/-- No file is open, and the common cache is a new one. -/
def new (buffers : Nat) (d : Disk) (cells : Array Nat) : FileGroup ι :=
  ⟨fun _ => none, { disk := d, caches := #[Cache.new buffers], cells := cells }⟩

/-- A disk on which files can be made and opened, each on a store of its own that refuses
nothing. -/
structure Laid (sites : ι → Site) (d : Disk) (cells : Array Nat) : Prop where
  apart : Site.Apart sites
  cell : ∀ i, (sites i).cell < cells.size
  volume : ∀ i, (sites i).store.volume < d.volumes.size
  reliable : ∀ i, (sites i).store.Reliable d
  proper : ∀ i, (d.contents (sites i).store.volume).Proper

/-- The files stand as the volumes tell, and what is known of one of them may be chosen. -/
theorem Laid.valid [DecidableEq ι] {sites : ι → Site} {d : Disk} {cells : Array Nat}
    (h : Laid sites d cells) (buffers : Nat) {i : ι} {st : FileState} (hwellFormed : st.WellFormed)
    (hin : st.In (d.contents (sites i).store.volume)) :
    ∃ sts, sts i = st ∧ (new buffers d cells).Valid sites sts := by
  obtain ⟨sts, hsts⟩ := Classical.axiomOfChoice h.proper
  have hall : ∀ j, (Function.update sts i st j).WellFormed ∧
      (Function.update sts i st j).In (d.contents (sites j).store.volume) := by
    intro j
    by_cases hj : j = i
    · subst hj
      rw [Function.update_self]
      exact ⟨hwellFormed, hin⟩
    · rw [Function.update_of_ne hj]
      exact hsts j
  refine ⟨_, Function.update_self i st sts, fun j => ?_, fun j => (hall j).1, fun j => ?_,
    fun j f store => nofun⟩
  · exact ⟨Nat.one_pos, h.cell j, Buffered.ready_new buffers d, h.reliable j, h.volume j⟩
  · have hshown := (hall j).2
    cases hst : Function.update sts i st j <;> exact hst ▸ hshown

/-- Two runs that agree in the tasks on a file tell the same of each of them, and leave the same
bytes of it when it is not open. In each run there may be tasks on other files, blocks may be
released, and there may be any number of buffers. -/
theorem runs_agree [DecidableEq ι] [DecidableEq κ] {sites : ι → Site} {sites' : κ → Site}
    {d d' : Disk} {cells cells' : Array Nat} {i : ι} {k : κ} {events : List (Event ι)}
    {events' : List (Event κ)} (buffers buffers' : Nat) (hlaid : Laid sites d cells)
    (hlaid' : Laid sites' d' cells') (halike : (sites i).store.Alike (sites' k).store)
    (hbytes : (d.contents (sites i).store.volume).toBytes =
      (d'.contents (sites' k).store.volume).toBytes)
    (hcell : cells.getD (sites i).cell 0 = cells'.getD (sites' k).cell 0)
    (hevents : events.filterMap (Event.on i) = events'.filterMap (Event.on k)) :
    let σ := Event.runs sites events (new buffers d cells)
    let τ := Event.runs sites' events' (new buffers' d' cells')
    Event.toldOf i σ.1 = Event.toldOf k τ.1 ∧ (σ.2.handles i = none ↔ τ.2.handles k = none) ∧
      (σ.2.handles i = none →
        (σ.2.workspace.disk.contents (sites i).store.volume).fileBytes =
          (τ.2.workspace.disk.contents (sites' k).store.volume).fileBytes) := by
  obtain ⟨st, hwellFormed, hin⟩ := hlaid.proper i
  obtain ⟨sts, rfl, hvalid⟩ := hlaid.valid buffers hwellFormed hin
  obtain ⟨sts', hsts', hvalid'⟩ := hlaid'.valid buffers' hwellFormed (hin.congr hbytes)
  -- what is told is told by the tasks on the file
  obtain ⟨tolds, st', htells⟩ := FileTask.exists_tells hwellFormed (sites' k).store
    (events.filterMap (Event.on i)) (cells.getD (sites i).cell 0)
  obtain ⟨htold, sts₁, hst₁, hend⟩ := hvalid.events hlaid.apart halike htells
  rw [hevents, hcell, ← hsts'] at htells
  obtain ⟨htold', sts₂, hst₂, hend'⟩ := hvalid'.events hlaid'.apart ⟨rfl, rfl⟩ htells
  obtain ⟨hclosed, hin₁⟩ := (hend.shown i).closed
  obtain ⟨hclosed', hin₂⟩ := (hend'.shown k).closed
  rw [hst₁] at hclosed hin₁
  rw [hst₂] at hclosed' hin₂
  have hboth := hclosed.trans hclosed'.symm
  exact ⟨htold.trans htold'.symm, hboth, fun hnone =>
    (hin₁ hnone).fileBytes_eq (hin₂ (hboth.mp hnone)) (hst₁ ▸ hend.wellFormed i)⟩

/-- Files can be made in empty memory areas. -/
theorem laid_memory (n : Nat) : Laid (fun i : Fin n => ⟨.ofMemory i none, i⟩)
    { volumes := Array.replicate n {} } (Array.replicate n 0) := by
  have hvolume : ∀ i : Fin n, Disk.volume { volumes := Array.replicate n {} } i = {} := by
    intro i
    simp [Disk.volume]
  refine ⟨⟨fun i j => Fin.ext, fun i j => Fin.ext⟩, fun i => ?_, fun i => ?_, fun i =>
    ⟨?_, ?_, .inl rfl⟩,
    fun i => ⟨.void [], fun _ h => ?_, ?_⟩⟩
  · simp
  · simp [Store.ofMemory]
  · intro access k
    exact congrArg (fun v : Volume => v.refusal access k) (hvolume i)
  · exact congrArg Volume.limit (hvolume i)
  · cases h
  · exact congrArg (fun v : Volume => v.contents.toBytes) (hvolume i)

/-- A file with four buffers, and one with nine beside another one that is made in between. -/
theorem runs_agree_two :
    let made := FileTask.opening { mode := .create, keyLength := 1, blockSize := 512 }
    let inserted := FileTask.call (some 5) (.insert [0x41])
    let σ := Event.runs (fun i : Fin 1 => ⟨.ofMemory i none, i⟩)
      [.task 0 made, .task 0 inserted, .task 0 .close]
      (new 4 { volumes := Array.replicate 1 {} } (Array.replicate 1 0))
    let τ := Event.runs (fun i : Fin 2 => ⟨.ofMemory i none, i⟩)
      [.task 0 made, .task 1 made, .purge, .task 0 inserted, .task 1 inserted, .purge,
        .task 0 .close]
      (new 9 { volumes := Array.replicate 2 {} } (Array.replicate 2 0))
    Event.toldOf 0 σ.1 = Event.toldOf 0 τ.1 ∧ (σ.2.handles 0 = none ↔ τ.2.handles 0 = none) ∧
      (σ.2.handles 0 = none → (σ.2.workspace.disk.contents 0).fileBytes =
        (τ.2.workspace.disk.contents 0).fileBytes) :=
  runs_agree (i := (0 : Fin 1)) (k := (0 : Fin 2)) 4 9 (laid_memory 1) (laid_memory 2) ⟨rfl, rfl⟩ rfl
    rfl rfl

end FileGroup

end PagedIndex
