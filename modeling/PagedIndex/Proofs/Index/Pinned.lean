import PagedIndex.Proofs.Index.Locking
import PagedIndex.Proofs.Tree.UsesHeld

/-!
# Pinned buffers of a workspace

Files are made, opened, worked on, closed and removed in any order, through any handles and caches.
The disk is any disk in front of each event, so any access may be refused. Between two events no
buffer is pinned. While a handle carries out a program the pinned buffers of its cache are those
that the roles hold, so the cache always has a buffer for the next block.

## Main definitions

* `WorkspaceEvent`, `Workspace.does` — what is done to a workspace.
* `Workspace.AtRest` — a workspace between two events.
* `Index.Carries` — the programs that a handle carries out.

## Main statements

* `Call.selfReliant_course` — what calls ask for relies on itself.
* `WorkspaceEvent.run_atRest` — an event leaves a workspace at rest, and tells of no buffer.
* `Workspace.pinned_does` — the pinned buffers after any events, and during the next one.
-/

namespace PagedIndex

/-! ## What calls ask for -/

theorem Index.unpooled_keyOf (ix : Index) (raw : Bytes) (pad : UInt8) :
    Unpooled (ix.keyOf raw pad) := by
  unfold keyOf Key.normalize
  split
  · exact .error nofun
  · exact .ok

theorem Index.unpooled_entryOf (ix : Index) (raw : Bytes) (record : Nat) :
    Unpooled (ix.entryOf raw record) := by
  refine (ix.unpooled_keyOf raw blank).bind fun key => ?_
  dsimp only
  split
  · exact .error nofun
  · split
    · exact .error nofun
    · exact .ok

/-- What a call asks for relies on itself, and no check in front of it tells of a buffer. -/
theorem Call.selfReliant_course (call : Call) (ix : Index) (record : Nat) :
    (call.course ix record).Meets Unpooled fun q => q.program.SelfReliant := by
  have hkey : ∀ {raw : Bytes} {pad : UInt8} {f : Bytes → Course},
      (∀ key, (f key).Meets Unpooled fun q => q.program.SelfReliant) →
        (Course.check (ix.keyOf raw pad) f).Meets Unpooled fun q => q.program.SelfReliant :=
    fun hf => Course.meets_check (fun e he => .cast (he ▸ ix.unpooled_keyOf _ _)) fun key _ => hf key
  have hwriting : ∀ {c : Course}, (c.Meets Unpooled fun q => q.program.SelfReliant) →
      (c.writing ix).Meets Unpooled fun q => q.program.SelfReliant :=
    fun hc => Course.meets_writing (fun _ => .error nofun) fun _ => hc
  cases call with
  | find key =>
    simp only [course]
    split
    · exact .ok
    · exact hkey fun key => Tree.selfReliant_find key
  | findLast start => exact hkey fun padded => Tree.selfReliant_findLast padded _
  | next => exact Tree.selfReliant_next
  | previous => exact Tree.selfReliant_previous
  | insert key =>
    exact hwriting (Course.meets_check (fun e he => .cast (he ▸ ix.unpooled_entryOf _ _))
      fun e _ => Tree.selfReliant_insert)
  | delete key byPosition =>
    refine hwriting ?_
    split
    · split
      · exact Tree.selfReliant_delete
      · exact .ok
    · exact hkey fun key => Tree.selfReliant_delete
  | reserve =>
    refine hwriting ?_
    split
    · exact .ok
    · exact Program.selfReliant_popSlot
  | release =>
    refine hwriting ?_
    split
    · exact .ok
    · exact Program.selfReliant_pushSlot
  | stats | verify => exact Tree.selfReliant_survey
  | outline => exact Tree.selfReliant_outline

/-- The session that a handle begins for a program. -/
def Index.session (ix : Index) : Session :=
  { file := ix.file, layout := ix.tree.layout, locked := ix.mode.locked }

/-- A program that a handle carries out: that of a call, or the empty one of a flush. -/
inductive Index.Carries (ix : Index) (record : Nat) : {α : Type} → Program α → Prop
  | asked {call : Call} {q : Request} (hcourse : call.course ix record = .asks q) :
    Carries ix record q.program
  | nothing : Carries ix record (Pure.pure () : Program Unit)

theorem Index.Carries.selfReliant {ix : Index} {record : Nat} {α : Type} {program : Program α}
    (h : ix.Carries record program) : program.SelfReliant := by
  cases h with
  | @asked call q hcourse =>
    have hmeets := call.selfReliant_course ix record
    rw [hcourse] at hmeets
    exact hmeets
  | nothing => exact .pure

/-! ## Work on the disk -/

namespace Store

theorem remove_plain (s : Store) : Plain s.remove := by
  refine (s.ask_plain 0 .remove 0).bind fun _ _ => ?_
  split
  · exact .pure trivial
  · exact fault_plain _
  · refine .get_bind fun d _ => ?_
    split
    · exact .throw nofun
    · exact fault_plain _
    · exact fault_plain _
    · exact Fails.modify

end Store

namespace Index

theorem createOn_plain (store : Store) (options : OpenOptions) : Plain (createOn store options) := by
  have himage : Unpooled (options.newHeader store.name >>= Header.encode) := by
    refine Unpooled.bind ?_ fun h => h.unpooled_encode
    exact (Header.unpooled_encode _).bind fun image =>
      (Unpooled.of_judges (Header.judges_parse image)).bind fun _ => .ok
  exact Guarantee.Meets.bind (P := fun _ => True) (.settle himage fun _ _ => trivial)
    fun image _ => store.write_plain 0 image

theorem unpooled_admits (options : OpenOptions) (header : Header) :
    Unpooled (options.admits header) := by
  have hlast : Unpooled (if header.duplicates && options.duplicates == .forbid then
      throw .duplicatesForbidden else .ok () : Except Error Unit) := by
    split
    · exact .error nofun
    · exact .ok
  unfold OpenOptions.admits
  dsimp only
  split
  · exact .error nofun
  · split
    · exact hlast
    · split
      · exact .error nofun
      · exact hlast

theorem readHeader_plain (store : Store) (options : OpenOptions) : Plain (readHeader store options) :=
  (store.read_plain 0 maxBlockSize).bind fun front _ =>
    .settle ((Unpooled.of_judges (Header.judges_parse front)).bind fun header =>
      (unpooled_admits options header).bind fun _ => .ok) fun _ _ => trivial

end Index

/-! ## Workspaces -/

/-- A cache of no buffers that knows no file. -/
theorem Cache.atRest_default : (default : Cache).AtRest 0 := by
  have hbuffer : ∀ i, (default : Cache).buffer? i = none := fun i => rfl
  have hrow : ∀ k, (default : Cache).chains.Row ((default : Cache).chains.head k) [] := fun k =>
    Vector.getElem_replicate k.isLt
  have hchain : ∀ k, (default : Cache).chain k = [] := fun k => (hrow k).chain List.nodup_nil
  refine ⟨⟨List.nodup_nil, fun i => ?_, nofun, rfl, fun k => ?_, fun k => ?_, fun k i => ?_, rfl,
    fun i => ?_, fun i j b b' hb => ?_, fun i b hb => ?_⟩, fun f r e hr => ?_, fun i b hb => ?_, rfl,
    fun f hf => ?_⟩
  · exact iff_of_false List.not_mem_nil fun h => Nat.not_lt_zero i h.1
  · rw [hchain]
    exact hrow k
  · rw [hchain]
    exact List.nodup_nil
  · rw [hchain, hbuffer]
    simp
  · exact iff_of_false List.not_mem_nil (by simp [hbuffer])
  · cases hb
  · cases hb
  · cases hr
  · cases hb
  · cases hf

theorem Cache.atRest_new (buffers : Nat) : (Cache.new buffers).AtRest (Cache.new buffers).capacity := by
  refine ⟨sound_new buffers, fun f r e hr => ?_, fun i b hb => ?_, rfl,
    fun _ _ => minBuffers_le_capacity_new buffers⟩
  · cases hr
  · rw [buffer?_new] at hb
    cases hb

/-- A file is taken up. -/
theorem Cache.AtRest.register {c : Cache} {size : Nat} (h : c.AtRest size) (hsize : minBuffers ≤ size)
    (store : Store) : (c.register store).2.AtRest size := by
  refine ⟨h.sound.register store, fun f r e hr hpending => ?_, h.unpinned, h.capacity, fun _ _ => hsize⟩
  simp only [registration?, Cache.register, List.lookup_cons] at hr
  split at hr
  · cases hr
    cases hpending
  · exact h.quiet f r e hr hpending

namespace Workspace

/-- A workspace between two events. -/
structure AtRest (w : Workspace) : Prop where
  caches : ∀ id, (w.cache id).AtRest (w.cache id).capacity
  enough : ∀ id < w.caches.size, minBuffers ≤ (w.cache id).capacity

variable {w : Workspace} {s : Buffered} {id : Nat} {α : Type}

theorem cache_withBelow (w : Workspace) (id : Nat) (s : Buffered) (id' : Nat) :
    (w.withBelow id s).cache id' = if id' = id ∧ id < w.caches.size then s.cache else w.cache id' := by
  simp only [withBelow, cache, Array.getD_eq_getD_getElem?, Array.getElem?_setIfInBounds]
  grind

/-- Work on one of the caches. Where there is no cache of the number all is lost. -/
theorem AtRest.withBelow (h : w.AtRest)
    (hs : id < w.caches.size → s.cache.AtRest (w.cache id).capacity) : (w.withBelow id s).AtRest := by
  have hsize : (w.withBelow id s).caches.size = w.caches.size := Array.size_setIfInBounds
  refine ⟨fun id' => ?_, fun id' hid' => ?_⟩
  · rw [cache_withBelow]
    split
    · next hid => exact (hs hid.2).capacity ▸ hs hid.2
    · exact h.caches id'
  · rw [cache_withBelow]
    rw [hsize] at hid'
    split
    · next hid => exact (hs hid.2).capacity ▸ h.enough id hid.2
    · exact h.enough id' hid'

theorem AtRest.onDisk (h : w.AtRest) {x : DiskM α} (hx : Plain x) :
    Ends (Workspace.onDisk x) w fun r w' => w'.AtRest ∧ Unpooled r :=
  onDisk_ends ((hx.ends w.disk).mono fun _ _ hr => ⟨⟨h.caches, h.enough⟩, hr⟩)

theorem AtRest.onCache (h : w.AtRest) {x : CacheM α}
    (hx : Ends x (w.below id) fun r t =>
      (id < w.caches.size → t.cache.AtRest (w.cache id).capacity) ∧ Unpooled r) :
    Ends (Workspace.onCache id x) w fun r w' => w'.AtRest ∧ Unpooled r :=
  onCache_ends (hx.mono fun _ _ hr => ⟨h.withBelow hr.1, hr.2⟩)

/-- A cache is added, of as many buffers as there are roles at least. -/
theorem AtRest.addCache (h : w.AtRest) (buffers : Nat) : (w.addCache buffers).2.AtRest := by
  have hcache : ∀ id, (w.addCache buffers).2.cache id =
      if id = w.caches.size then Cache.new buffers else w.cache id := by
    intro id
    simp only [Workspace.addCache, cache, Array.getD_eq_getD_getElem?, Array.getElem?_push]
    grind
  refine ⟨fun id => ?_, fun id hid => ?_⟩
  · rw [hcache]
    split
    · exact Cache.atRest_new buffers
    · exact h.caches id
  · rw [hcache]
    split
    · exact Cache.minBuffers_le_capacity_new buffers
    · next hne =>
      have : (w.addCache buffers).2.caches.size = w.caches.size + 1 := Array.size_push _
      exact h.enough id (by omega)

end Workspace

namespace Index

variable {α β : Type} {ix : Index} {w : Workspace}

/-- Computations on a handle that leave a workspace at rest, and do not fail for the sake of a
buffer. -/
def KeepsAtRest (x : IndexM α) : Prop :=
  ∀ ix w, w.AtRest → Ends x (ix, w) fun r σ => σ.2.AtRest ∧ Unpooled r

theorem KeepsAtRest.bind {x : IndexM α} {f : α → IndexM β} (hx : KeepsAtRest x)
    (hf : ∀ a, KeepsAtRest (f a)) :
    KeepsAtRest (x >>= f) := fun ix w hw =>
  Ends.bind (hx ix w hw) (fun _ _ hσ => ⟨hσ.1, hσ.2.cast⟩) fun a σ hσ => hf a σ.1 σ.2 hσ.1

theorem keepsAtRest_settle {x : Except Error α} (hx : Unpooled x) : KeepsAtRest (settle x) :=
  fun _ _ hw => ends_settle ⟨hw, hx⟩

theorem keepsAtRest_onWorkspace {x : WorkspaceM α}
    (hx : ∀ w : Workspace, w.AtRest → Ends x w fun r w' => w'.AtRest ∧ Unpooled r) :
    KeepsAtRest (onWorkspace x) := fun _ w hw => onWorkspace_ends (hx w hw)

theorem keepsAtRest_self_bind {f : Index → IndexM α} (hf : ∀ ix, KeepsAtRest (f ix)) :
    KeepsAtRest (self >>= f) :=
  fun ix w hw => hf ix ix w hw

/-- A program is carried out for a handle. -/
theorem call_atRest {program : Program α} (hprogram : program.SelfReliant) (mode : EndMode)
    (hw : w.AtRest) : Ends (call mode program) (ix, w) fun r σ => σ.2.AtRest ∧ Unpooled r ∧
      ∀ a ended, r = .ok (a, ended) → Unpooled ended :=
  call_ends ((Session.transact_atRest hprogram ix.file ix.tree.layout ix.mode.locked mode
    (hw.caches ix.cache)).mono fun _ _ ht => ⟨hw.withBelow fun _ => ht.1, ht.2⟩)

theorem keepsAtRest_call {call : Call} : KeepsAtRest call.run := by
  intro ix w hw
  refine Call.run_ends ?_
  have hmeets := call.selfReliant_course ix (w.cell ix.cell)
  revert hmeets
  cases call.course ix (w.cell ix.cell) with
  | decided r => exact fun hr => ⟨hw, hr⟩
  | asks q =>
    intro hq
    dsimp only [Course.Meets] at hq ⊢
    refine (Session.transact_atRest hq ix.file ix.tree.layout ix.mode.locked ix.mode.endMode
      (hw.caches ix.cache)).mono ?_
    rintro o s ⟨hs, ho, hended⟩
    refine ⟨?_, ?_⟩
    · have hafter : (w.withBelow ix.cache s).AtRest := hw.withBelow fun _ => hs
      exact ⟨hafter.caches, hafter.enough⟩
    · cases o with
      | error e => exact ho.cast
      | ok pair =>
        obtain ⟨a, ended⟩ := pair
        cases ended with
        | ok _ => exact .ok
        | error e => exact (hended a _ rfl).cast

theorem keepsAtRest_flush : KeepsAtRest flush := by
  intro ix w hw
  refine Ends.bind (call_atRest (.pure (a := ())) .flush hw) (fun _ _ hσ => ⟨hσ.1, hσ.2.1.cast⟩) ?_
  rintro ⟨⟨⟩, ended⟩ ⟨ix', w'⟩ ⟨hw', -, hended⟩
  refine (keepsAtRest_settle (hended _ _ rfl)).bind (fun _ => keepsAtRest_self_bind fun ix =>
    keepsAtRest_onWorkspace fun _ hw => hw.onDisk (ix.store.ask_plain 0 .sync 0)) ix' w' hw'

theorem keepsAtRest_unregister : KeepsAtRest unregister :=
  keepsAtRest_self_bind fun ix => keepsAtRest_onWorkspace fun _ hw =>
    hw.onCache ((Cache.unregister_serves (hw.caches ix.cache).sound ix.file).mono fun _ _ ht =>
      ⟨fun _ => ht.1.atRest (hw.caches ix.cache), ht.2 ▸ .ok⟩)

theorem keepsAtRest_close : KeepsAtRest close := by
  intro ix w hw
  refine Ends.attempt_bind (call_atRest (.pure (a := ())) .flush hw) ?_
  rintro flushed ⟨ix', w'⟩ ⟨hw', hflushed, hended⟩
  refine keepsAtRest_unregister.bind (fun _ => ?_) ix' w' hw'
  cases flushed with
  | error e => exact fun _ _ hw => Ends.throw ⟨hw, hflushed.cast⟩
  | ok pair => exact keepsAtRest_settle (hended _ _ rfl)

theorem keepsAtRest_drop : KeepsAtRest drop := fun ix w hw =>
  Ends.attempt_bind (keepsAtRest_close ix w hw) fun _ _ hσ => ⟨hσ.1, .ok⟩

theorem keepsAtRest_kill : KeepsAtRest kill := by
  refine keepsAtRest_self_bind fun ix => ?_
  split
  · exact keepsAtRest_unregister.bind fun _ => keepsAtRest_onWorkspace fun _ hw =>
      hw.onDisk ix.store.remove_plain
  · exact keepsAtRest_drop.bind fun _ _ _ hw => Ends.throw ⟨hw, .error nofun⟩

theorem keepsAtRest_service (service : Service) : KeepsAtRest service.run := by
  cases service with
  | call c => exact keepsAtRest_call.bind fun _ _ _ hw => ⟨hw, .ok⟩
  | flush => exact keepsAtRest_flush
  | close => exact keepsAtRest_close
  | drop => exact keepsAtRest_drop

/-- A file is opened, through a cache that is there or one that is not. -/
theorem openStore_atRest (store : Store) (options : OpenOptions) (cell : Nat) (hw : w.AtRest) :
    Ends (openStore store options cell) w fun r w' => w'.AtRest ∧ Unpooled r := by
  unfold openStore
  refine Ends.ite_bind (Ends.bind (P := fun r w' => w'.AtRest ∧ Unpooled r) ?_
    (fun _ _ ht => ⟨ht.1, ht.2.cast⟩) fun _ w' hw' => ?_)
  · split
    · exact hw.onDisk (createOn_plain store options)
    · exact ⟨hw, .ok⟩
  · refine Ends.bind (hw'.1.onDisk (readHeader_plain store options)) (fun _ _ ht =>
      ⟨ht.1, ht.2.cast⟩) ?_
    rintro header w'' ⟨hw'', -⟩
    refine Ends.bind (hw''.onCache ?_) (fun _ _ ht => ⟨ht.1, ht.2.cast⟩) fun file _ ht => ⟨ht.1, .ok⟩
    exact ⟨fun hid => (hw''.caches _).register (hw''.enough _ hid) store, .ok⟩

theorem openFile_atRest (name : String) (options : OpenOptions) (cell : Nat) (hw : w.AtRest) :
    Ends (openFile name options cell) w fun r w' => w'.AtRest ∧ Unpooled r := by
  have hstore : Plain (if options.mode = .create then Store.createFile (fileName name)
      else Store.openFile (fileName name) options.mode.writable) := by
    split
    · exact .of_fails (Store.createFile_fails _)
    · exact .of_fails (Store.openFile_fails _ _)
  exact Ends.bind (hw.onDisk hstore) (fun _ _ ht => ⟨ht.1, ht.2.cast⟩)
    fun store _ ht => openStore_atRest store options cell ht.1

end Index

/-! ## Events -/

inductive WorkspaceEvent where
  | addCache (buffers : Nat)
  | addCell
  | setCell (cell record : Nat)
  | openStore (store : Store) (options : OpenOptions) (cell : Nat)
  | openFile (name : String) (options : OpenOptions) (cell : Nat)
  /-- Something is asked of a handle, whatever the handle. -/
  | serve (ix : Index) (service : Service)
  | kill (ix : Index)
  | purge (cache : Nat)

namespace WorkspaceEvent

def asking (ix : Index) (x : IndexM Unit) : WorkspaceM Unit := fun w =>
  match x (ix, w) with
  | .ok a (_, w) => .ok a w
  | .error e (_, w) => .error e w

def run : WorkspaceEvent → WorkspaceM Unit
  | addCache buffers => modify fun w => (w.addCache buffers).2
  | addCell => modify fun w => w.addCell.2
  | setCell cell record => modify (·.setCell cell record)
  | openStore store options cell => do let _ ← Index.openStore store options cell
  | openFile name options cell => do let _ ← Index.openFile name options cell
  | serve ix service => asking ix service.run
  | kill ix => asking ix Index.kill
  | purge cache => do let _ ← Workspace.onCache cache Cache.purge

theorem asking_atRest {ix : Index} {x : IndexM Unit} (hx : Index.KeepsAtRest x) {w : Workspace}
    (hw : w.AtRest) : Ends (asking ix x) w fun r w' => w'.AtRest ∧ Unpooled r := by
  have hends := hx ix w hw
  unfold Ends at *
  unfold asking
  cases hrun : x (ix, w) <;> simp only [hrun] at hends ⊢ <;> exact hends

/-- An event leaves a workspace at rest, and tells of no buffer. -/
theorem run_atRest (event : WorkspaceEvent) {w : Workspace} (hw : w.AtRest) :
    Ends event.run w fun r w' => w'.AtRest ∧ Unpooled r := by
  cases event with
  | addCache buffers => exact ⟨hw.addCache buffers, .ok⟩
  | addCell => exact ⟨⟨hw.caches, hw.enough⟩, .ok⟩
  | setCell cell record => exact ⟨⟨hw.caches, hw.enough⟩, .ok⟩
  | openStore store options cell =>
    exact Ends.bind (Index.openStore_atRest store options cell hw) (fun _ _ ht => ⟨ht.1, ht.2.cast⟩)
      fun _ _ ht => ⟨ht.1, .ok⟩
  | openFile name options cell =>
    exact Ends.bind (Index.openFile_atRest name options cell hw) (fun _ _ ht => ⟨ht.1, ht.2.cast⟩)
      fun _ _ ht => ⟨ht.1, .ok⟩
  | serve ix service => exact asking_atRest (Index.keepsAtRest_service service) hw
  | kill ix => exact asking_atRest Index.keepsAtRest_kill hw
  | purge cache =>
    refine Ends.bind (hw.onCache ((Cache.purge_serves (hw.caches cache).sound).mono ?_))
      (fun _ _ ht => ⟨ht.1, ht.2.cast⟩) fun _ _ ht => ⟨ht.1, .ok⟩
    exact fun _ _ ht => ⟨fun _ => ht.1.atRest (hw.caches cache), ht.2⟩

end WorkspaceEvent

namespace Workspace

/-- A workspace with a common cache and nothing else. -/
def bare (buffers : Nat) : Workspace := { caches := #[Cache.new buffers] }

def does (w : Workspace) (events : List (Disk × WorkspaceEvent)) : Workspace :=
  events.foldl (fun w (d, event) => (ending event.run { w with disk := d }).2) w

theorem atRest_bare (buffers : Nat) : (bare buffers).AtRest := by
  have hcache : ∀ id, (bare buffers).cache id = if id = 0 then Cache.new buffers else default := by
    intro id
    cases id <;> simp [bare, cache]
  refine ⟨fun id => ?_, fun id hid => ?_⟩
  · rw [hcache]
    split
    · exact Cache.atRest_new buffers
    · exact Cache.atRest_default
  · obtain rfl : id = 0 := by simpa [bare] using hid
    exact Cache.minBuffers_le_capacity_new buffers

theorem AtRest.does {w : Workspace} (h : w.AtRest) (events : List (Disk × WorkspaceEvent)) :
    (w.does events).AtRest := by
  induction events generalizing w with
  | nil => exact h
  | cons first rest ih =>
    obtain ⟨d, event⟩ := first
    have hw : ({ w with disk := d } : Workspace).AtRest := ⟨h.caches, h.enough⟩
    exact ih (event.run_atRest hw).ending.1

/-- Whatever was done to a workspace, and whatever was refused: no buffer is pinned between two
events, and no event fails for the sake of a buffer. Wherever a handle has come to in a program, the
pinned buffers of its cache are those that the roles hold, and a role that moves on leaves the
others what they hold. -/
theorem pinned_does (buffers : Nat) (events : List (Disk × WorkspaceEvent)) :
    (∀ id i, ¬(((bare buffers).does events).cache id).Pinned i) ∧
    (∀ (d : Disk) (event : WorkspaceEvent),
      Unpooled (ending event.run { (bare buffers).does events with disk := d }).1) ∧
    ∀ (d : Disk) (ix : Index) {α : Type} (program : Program α),
      ix.Carries (((bare buffers).does events).cell ix.cell) program →
      ∀ store s, Session.enter ix.file ix.mode.locked
        (Workspace.below { (bare buffers).does events with disk := d } ix.cache) = .ok store s →
      ∀ (n : Nat),
      let σ := (ending (do Session.start; Session.perform (program.upTo n)) (ix.session, s)).2
      (∀ i, σ.2.cache.Pinned i ↔ ∃ role, σ.1.held.get role = some i) ∧
      ∀ role pos read, Session.MovesOnly role σ (ending (Session.load role pos read) σ).2 := by
  have hrest := (atRest_bare buffers).does events
  generalize (bare buffers).does events = w at hrest ⊢
  refine ⟨fun id i => ?_, fun d event => ?_, fun d ix α program hcarries store s henter n => ?_⟩
  · rintro ⟨b, hb, hpinned⟩
    rw [(hrest.caches id).unpinned i b hb] at hpinned
    cases hpinned
  · have hw : ({ w with disk := d } : Workspace).AtRest := ⟨hrest.caches, hrest.enough⟩
    exact (event.run_atRest hw).ending.2
  · obtain ⟨hs, -, henough⟩ := (Session.enter_atRest ix.file ix.mode.locked
      (s := Workspace.below { w with disk := d } ix.cache) (hrest.caches ix.cache)).of_ok henter
    have hheld : ix.session.held = {} := rfl
    have hpinsHeld := (Session.upTo_pinsHeld hcarries.selfReliant hs (henough ⟨store, rfl⟩) hheld
      n).ending
    exact ⟨hpinsHeld.pinned_iff, fun role pos read =>
      ((Session.load_pinsHeld hpinsHeld role pos read).ending).2.1⟩

def sampleDisk : Disk := { volumes := #[{ contents := Tree.sampleContents }] }

/-- A cell is added, and a file of two levels is opened. -/
def sampleEvents : List (Disk × WorkspaceEvent) :=
  [(sampleDisk, .addCell), (sampleDisk, .openStore (.ofMemory 0 none) { mode := .exclusive } 0)]

/-- An insertion that is on its way down has pinned the buffers of its roles, and there are some. -/
theorem pinned_does_inserting :
    (sampleIndex .exclusive).Carries (((bare 4).does sampleEvents).cell 0)
      (Tree.sample.insert ⟨[0x42], 0⟩) ∧
    ∃ store s, Session.enter 1 false
        (Workspace.below { (bare 4).does sampleEvents with disk := sampleDisk } 0) = .ok store s ∧
      let σ := (ending (do Session.start; Session.perform ((Tree.sample.insert ⟨[0x42], 0⟩).upTo 4))
        ((sampleIndex .exclusive).session, s)).2
      (∃ i, σ.1.held.get .current = some i) ∧
        ∀ i, σ.2.cache.Pinned i ↔ ∃ role, σ.1.held.get role = some i := by
  have hcell : ((bare 4).does sampleEvents).cell 0 = 0 := by decide +kernel
  have hcourse : (Call.insert [0x42]).course (sampleIndex .exclusive) 0 =
      .asks (.insert Tree.sample ⟨[0x42], 0⟩) := rfl
  have hentered : (match Session.enter 1 false
      (Workspace.below { (bare 4).does sampleEvents with disk := sampleDisk } 0) with
    | .ok _ s => ((ending (do Session.start; Session.perform ((Tree.sample.insert ⟨[0x42], 0⟩).upTo 4))
        ((sampleIndex .exclusive).session, s)).2.1.held.get .current).isSome
    | .error _ _ => false) = true := by decide +kernel
  have hpinsHeld := (pinned_does 4 sampleEvents).2.2
  generalize (bare 4).does sampleEvents = w at *
  have hcarries : (sampleIndex .exclusive).Carries (w.cell 0) (Tree.sample.insert ⟨[0x42], 0⟩) := by
    rw [hcell]
    exact .asked hcourse
  cases henter : Session.enter 1 false (Workspace.below { w with disk := sampleDisk } 0) with
  | ok store s =>
    rw [henter] at hentered
    exact ⟨hcarries, store, s, rfl, Option.isSome_iff_exists.mp hentered,
      (hpinsHeld sampleDisk (sampleIndex .exclusive) _ hcarries store s henter 4).1⟩
  | error e s =>
    rw [henter] at hentered
    cases hentered

end Workspace

end PagedIndex
