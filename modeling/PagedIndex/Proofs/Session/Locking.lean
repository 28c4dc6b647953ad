import PagedIndex.Proofs.Session.Shown

/-!
# Calls under the lock

A call that takes the lock of its store asks for it before it reads or writes a block, and asks for
it to be given back after it has read and written its last one. This is so whatever is refused,
whatever the blocks hold, and however the call ends.

## Main definitions

* `Disk.Transfers` — blocks are read and written, and nothing else is asked for.
* `UnderLock` — the accesses of a call, in their order.

## Main statements

* `Session.work_transfers`, `Session.rollBack_transfers` — the work of a session transfers blocks.
* `Session.transact_underLock` — the accesses of a call.
-/

namespace PagedIndex

/-- An access to a block. -/
def AccessNote.OfBlock (n : AccessNote) : Prop := n.access = .read ∨ n.access = .write

/-- Between two moments blocks are read and written, and nothing else is asked of any volume. -/
structure Disk.Transfers (d d' : Disk) : Prop where
  size : d'.volumes.size = d.volumes.size
  log : ∀ id, ∃ notes, (d'.volume id).log = notes ++ (d.volume id).log ∧ ∀ n ∈ notes, n.OfBlock

/-- Between two moments a volume notes some accesses, here in their order. -/
structure Disk.Notes (d d' : Disk) (id : Nat) (calls : List AccessNote) : Prop where
  size : d'.volumes.size = d.volumes.size
  log : (d'.volume id).log = calls.reverse ++ (d.volume id).log

/-- A lock that is granted, accesses to blocks, and one unlock, granted or not. -/
inductive Held : List AccessNote → Prop
  | mk {n n' : AccessNote} {blocks : List AccessNote} (hlock : n.access = .lock)
      (hgranted : n.refused = false) (hblocks : ∀ b ∈ blocks, b.OfBlock)
      (hunlock : n'.access = .unlock) : Held (n :: (blocks ++ [n']))

/-- The accesses that a call makes to its store: none, or a lock that is refused, or all under the
lock. A call that flushes may ask for a sync after it. -/
inductive UnderLock (flushes : Prop) : List AccessNote → Prop
  | none : UnderLock flushes []
  | refused {n : AccessNote} (hlock : n.access = .lock) (hrefused : n.refused = true) :
      UnderLock flushes [n]
  | held {calls : List AccessNote} (h : Held calls) : UnderLock flushes calls
  | synced {calls : List AccessNote} {n : AccessNote} (hflushes : flushes) (h : Held calls)
      (hsync : n.access = .sync) : UnderLock flushes (calls ++ [n])

/-! ## Accesses to a store -/

namespace Disk

variable {d d' d'' : Disk}

theorem Transfers.refl (d : Disk) : d.Transfers d := ⟨rfl, fun _ => ⟨[], rfl, nofun⟩⟩

theorem Transfers.trans (h : d.Transfers d') (h' : d'.Transfers d'') : d.Transfers d'' := by
  refine ⟨h'.size.trans h.size, fun id => ?_⟩
  obtain ⟨notes, hlog, hnotes⟩ := h.log id
  obtain ⟨notes', hlog', hnotes'⟩ := h'.log id
  refine ⟨notes' ++ notes, by rw [hlog', hlog, List.append_assoc], fun n hn => ?_⟩
  exact (List.mem_append.mp hn).elim (hnotes' n) (hnotes n)

/-- Blocks are transferred, and nothing else is asked for. -/
def transferring : Guarantee Error Disk where
  Holds _ := True
  Leads := Transfers
  Fails _ := True
  refl _ := .refl _
  trans := .trans
  keeps _ _ := trivial

theorem Transfers.notes (h : d.Transfers d') (id : Nat) :
    ∃ blocks, d.Notes d' id blocks ∧ ∀ n ∈ blocks, n.OfBlock := by
  obtain ⟨notes, hlog, hnotes⟩ := h.log id
  refine ⟨notes.reverse, ⟨h.size, by rw [List.reverse_reverse, hlog]⟩, fun n hn => ?_⟩
  exact hnotes n (List.mem_reverse.mp hn)

theorem Notes.refl (d : Disk) (id : Nat) : d.Notes d id [] := ⟨rfl, rfl⟩

theorem Notes.trans {id : Nat} {calls calls' : List AccessNote} (h : d.Notes d' id calls)
    (h' : d'.Notes d'' id calls') : d.Notes d'' id (calls ++ calls') := by
  refine ⟨h'.size.trans h.size, ?_⟩
  rw [h'.log, h.log, List.reverse_append, List.append_assoc]

theorem transfers_modifyVolume (d : Disk) (id : Nat) {f : Volume → Volume}
    (hf : ∀ v, ∃ notes, (f v).log = notes ++ v.log ∧ ∀ n ∈ notes, n.OfBlock) :
    d.Transfers (d.modifyVolume id f) := by
  refine ⟨by simp [modifyVolume], fun id' => ?_⟩
  rw [volume_modifyVolume]
  split
  · next h =>
    rw [h.1]
    exact hf _
  · exact ⟨[], rfl, by simp⟩

end Disk

namespace Store

open Disk (transferring)

/-- Asking for an access notes it. -/
theorem ask_notes (s : Store) {d : Disk} (hvolume : s.volume < d.volumes.size) (access : Access)
    (offset length : Nat) : Ends (s.ask access offset length) d fun r d' =>
      ∃ n : AccessNote, n.access = access ∧ d.Notes d' s.volume [n] ∧
        ((∃ e, r = .error e) ↔ n.refused = true) := by
  unfold ask
  refine Ends.get_bind (Ends.modify_bind ?_)
  have hsize : (d.modifyVolume s.volume fun v => (v.ask access offset length).1).volumes.size =
      d.volumes.size := by
    simp [Disk.modifyVolume]
  have hlog : ((d.modifyVolume s.volume fun v => (v.ask access offset length).1).volume
      s.volume).log = ⟨access, offset, length, ((d.volume s.volume).ask access offset length).2.isSome⟩
        :: (d.volume s.volume).log := by
    rw [Disk.volume_modifyVolume, if_pos ⟨rfl, hvolume⟩]
    rfl
  cases hrefused : ((d.volume s.volume).ask access offset length).2 with
  | none => exact ⟨_, rfl, ⟨hsize, hlog⟩, by simp [hrefused]⟩
  | some cause => exact ⟨_, rfl, ⟨hsize, hlog⟩, by simp [hrefused]⟩

theorem ask_transfers (s : Store) {access : Access} (hblock : access = .read ∨ access = .write)
    (offset length : Nat) : transferring.Covers (s.ask access offset length) := by
  unfold ask
  refine .get_bind fun d _ => (Guarantee.Meets.modify fun d _ => ?_).bind fun _ _ => ?_
  · refine d.transfers_modifyVolume _ fun v => ⟨[_], rfl, fun n hn => ?_⟩
    rw [List.mem_singleton.mp hn]
    exact hblock
  · split
    · exact .pure trivial
    · exact .throw trivial

theorem put_transfers (s : Store) (offset : Nat) (data : Bytes) :
    transferring.Covers (s.put offset data) :=
  .modify fun d _ => d.transfers_modifyVolume _ fun _ => ⟨[], rfl, nofun⟩

theorem write_transfers (s : Store) (offset : Nat) (data : Bytes) :
    transferring.Covers (s.write offset data) := by
  unfold write
  refine (s.ask_transfers (.inr rfl) offset data.length).bind fun _ _ => .get_bind fun d _ =>
    Guarantee.Meets.ite_bind (.throw trivial) ?_
  split
  · exact s.put_transfers offset data
  · split
    · exact .throw trivial
    · split
      · exact .pure trivial
      · split
        · exact s.put_transfers offset data
        · exact .throw trivial
  · exact .throw trivial

end Store

/-! ## The work of a session -/

namespace Cache

theorem readImage_transfers (store : Store) (pos : BlockPos) (blockSize : Nat) :
    Disk.transferring.Covers (readImage store pos blockSize) := by
  intro d _
  refine (readImage_asks store pos blockSize d).mono ?_
  rintro r d' rfl
  exact ⟨fun _ _ => trivial, ((store.ask_transfers (.inl rfl) pos.offset blockSize).leads
    trivial).ending,
    fun _ _ => trivial⟩

theorem parts_transferring : LoadParts (Disk.transferring.comap Buffered.disk) :=
  .ofDisk trivial (fun _ => trivial) Store.write_transfers readImage_transfers

end Cache

namespace Session

variable {α : Type}

/-- Blocks are transferred, and the lock is held as before. -/
def transferring : Guarantee Error (Session × Buffered) where
  Holds _ := True
  Leads σ τ := σ.2.disk.Transfers τ.2.disk ∧ τ.1.locked = σ.1.locked
  Fails _ := True
  refl _ := ⟨.refl _, rfl⟩
  trans h h' := ⟨h.1.trans h'.1, h'.2.trans h.2⟩
  keeps _ _ := trivial

theorem onCache_transfers {x : CacheM α} (h : (Disk.transferring.comap Buffered.disk).Covers x) :
    transferring.Covers (onCache x) := fun σ _ =>
  (onCache_ends (h σ.2 trivial)).mono fun _ _ ⟨hsame, hx⟩ =>
    ⟨hx.1, ⟨hx.2.1, congrArg Session.locked hsame⟩, hx.2.2⟩

theorem updateCache_transfers (f : Cache → Cache) : transferring.Covers (updateCache f) :=
  onCache_transfers (Cache.update_covers fun _ _ => .refl _)

theorem update_transfers {f : Session → Session} (hf : ∀ s, (f s).locked = s.locked) :
    transferring.Covers (update f) := .modify fun σ _ => ⟨.refl _, hf σ.1⟩

theorem parts_transferring : Parts transferring where
  fault _ := trivial
  note hf := update_transfers hf.locked
  setImage _ _ := updateCache_transfers _
  letGoAll := covers_letGoAll (fun _ => update_transfers fun _ => rfl) fun _ => updateCache_transfers _
  release _ := onCache_transfers (Cache.parts_transferring.release _ _)

theorem load_transfers (role : Role) (pos : BlockPos) (read : Bool) :
    transferring.Covers (load role pos read) :=
  covers_load
    (covers_letGo (fun _ => update_transfers fun _ => rfl) fun _ => updateCache_transfers _)
    (fun _ _ _ _ => onCache_transfers
      (Cache.parts_transferring.fetch (fun _ => Cache.update_covers fun _ _ => .refl _) _ _ _ _))
    (fun _ => updateCache_transfers _) (fun _ _ => update_transfers fun _ => rfl) role pos read

theorem work_transfers (program : Program α) : transferring.Covers (do start; perform program) :=
  (parts_transferring.start load_transfers).bind fun _ _ =>
    parts_transferring.perform load_transfers (fun _ => trivial) program

theorem complete_transfers (mode : EndMode) : transferring.Covers (complete mode) :=
  parts_transferring.complete (fun _ _ _ _ _ => trivial) mode

theorem rollBack_transfers : transferring.Covers rollBack :=
  parts_transferring.rollBack <| covers_undoOne (fun _ _ => updateCache_transfers _)
    (fun _ _ _ => onCache_transfers (Cache.parts_transferring.restore
      (fun _ => Cache.update_covers fun _ _ => .refl _)
      (fun _ _ => Cache.update_covers fun _ _ => .refl _)
      (fun _ _ _ => Cache.onDisk_meets (Store.write_transfers _ _ _)) _ _ _))
    fun _ _ _ => updateCache_transfers _

/-! ## Calls -/

/-- Between two moments blocks are read and written, and the lock is given back in the end. -/
def Released (store : Store) (d d' : Disk) : Prop :=
  ∃ blocks n, d.Notes d' store.volume (blocks ++ [n]) ∧ (∀ b ∈ blocks, b.OfBlock) ∧
    n.access = .unlock

variable {store : Store} {σ : Session × Buffered} {d d' d'' : Disk}

theorem Released.front (h : d.Transfers d') (h' : Released store d' d'') : Released store d d'' := by
  obtain ⟨front, hfront, hblocks⟩ := h.notes store.volume
  obtain ⟨blocks, n, hnotes, hblocks', hn⟩ := h'
  refine ⟨front ++ blocks, n, List.append_assoc .. ▸ hfront.trans hnotes, fun b hb => ?_, hn⟩
  exact (List.mem_append.mp hb).elim (hblocks b) (hblocks' b)

/-- A session that holds the lock gives it back. -/
theorem unlock_released (hlocked : σ.1.locked = true)
    (hvolume : store.volume < σ.2.disk.volumes.size) :
    Ends (unlock store) σ fun _ τ => Released store σ.2.disk τ.2.disk := by
  obtain ⟨session, s⟩ := σ
  unfold unlock
  refine Ends.get_bind (Ends.modify_bind ?_)
  simp only [show session.locked = true from hlocked, if_true]
  have hask := onCache_ends (σ := ({ session with locked := false }, s))
    (Cache.onDisk_ends (store.ask_notes hvolume .unlock 0 0))
  refine Ends.mono hask ?_
  rintro r τ ⟨-, -, n, hn, hnotes, -⟩
  exact ⟨[], n, hnotes, nofun, hn⟩

/-- As long as a session holds the lock it transfers blocks. -/
theorem locked_ends {x : SessionM α} (hx : transferring.Covers x) (hlocked : σ.1.locked = true)
    (hvolume : store.volume < σ.2.disk.volumes.size) :
    Ends x σ fun _ τ => σ.2.disk.Transfers τ.2.disk ∧ τ.1.locked = true ∧
      store.volume < τ.2.disk.volumes.size := by
  refine (hx.leads trivial).mono ?_
  rintro r τ ⟨htransfers, hsame⟩
  exact ⟨htransfers, hsame.trans hlocked, htransfers.size ▸ hvolume⟩

/-- Changes are taken back before the lock is given back. -/
theorem rollBack_released (hlocked : σ.1.locked = true)
    (hvolume : store.volume < σ.2.disk.volumes.size) :
    Ends rollBack σ fun _ τ =>
      Ends (unlock store) τ fun _ υ => Released store σ.2.disk υ.2.disk := by
  refine (locked_ends rollBack_transfers hlocked hvolume).mono ?_
  rintro r τ ⟨htransfers, hlocked, hvolume⟩
  exact (unlock_released hlocked hvolume).mono fun _ _ hυ => hυ.front htransfers

/-- A call that fails gives the lock back after its last access to a block. -/
theorem body_released (program : Program α) (hlocked : σ.1.locked = true)
    (hvolume : store.volume < σ.2.disk.volumes.size) :
    Ends (body store program) σ fun r τ =>
      (∀ a, r = .ok a → σ.2.disk.Transfers τ.2.disk ∧ τ.1.locked = true ∧
        store.volume < τ.2.disk.volumes.size) ∧
      ∀ e, r = .error e → Released store σ.2.disk τ.2.disk := by
  refine ends_body (locked_ends (work_transfers program) hlocked hvolume) ?_ ?_
  · exact fun _ _ hτ => ⟨fun _ _ => hτ, nofun⟩
  · rintro e τ ⟨htransfers, hlocked, hvolume⟩
    exact (rollBack_released hlocked hvolume).mono fun _ _ hυ => hυ.mono fun _ _ hφ =>
      ⟨nofun, fun _ _ => hφ.front htransfers⟩

/-- A call that ends gives the lock back after its last access to a block. -/
theorem finish_released (mode : EndMode) (hlocked : σ.1.locked = true)
    (hvolume : store.volume < σ.2.disk.volumes.size) :
    Ends (finish store mode) σ fun r τ => ∃ ended, r = .ok ended ∧
      Released store σ.2.disk τ.2.disk := by
  refine ends_finish (locked_ends (complete_transfers mode) hlocked hvolume) ?_ ?_
  · rintro τ ⟨htransfers, hlocked, hvolume⟩
    exact (unlock_released hlocked hvolume).mono fun _ _ hυ => hυ.front htransfers
  · rintro e τ ⟨htransfers, hlocked, hvolume⟩
    exact (rollBack_released hlocked hvolume).mono fun _ _ hυ => hυ.mono fun _ _ hφ =>
      hφ.front htransfers

/-- A call that takes the lock accesses nothing before it. -/
theorem enter_locks {file : FileId} {s : Buffered} (hvolume : store.volume < s.disk.volumes.size)
    (hstore : s.cache.store? file = some store) :
    Ends (enter file true) s fun r t =>
      (∀ e, r = .error e → ∃ calls, s.disk.Notes t.disk store.volume calls ∧ UnderLock False calls) ∧
        ∀ store', r = .ok store' → store' = store ∧ ∃ n, n.access = .lock ∧ n.refused = false ∧
          s.disk.Notes t.disk store.volume [n] := by
  refine ends_enter
    (P := fun t => t.disk = s.disk ∧ ∀ f, t.cache.store? f = s.cache.store? f) ?_
    (fun t ht => (ht.2 file).trans hstore) (fun _ t ht => ?_) nofun
  · refine (Cache.takePending_ends file).mono ?_
    rintro _ t ⟨rfl, rfl⟩
    exact ⟨_, rfl, fun e _ => ⟨fun _ _ => ⟨[], .refl _ _, .none⟩, nofun⟩,
      fun _ => ⟨rfl, (Buffered.Beside.modifyFile (D := fun _ => False)
        (f := fun r => { r with pending := none }) fun _ => rfl).store⟩⟩
  · rw [← ht.1] at hvolume ⊢
    refine (Cache.onDisk_ends (store.ask_notes hvolume .lock 0 0)).mono ?_
    rintro r u ⟨-, n, hn, hnotes, hrefused⟩
    refine ⟨fun e he => ⟨fun _ _ => ⟨[n], hnotes, .refused hn (hrefused.mp ⟨e, he⟩)⟩, nofun⟩, ?_⟩
    rintro rfl
    refine ⟨nofun, fun _ hs => ⟨(Except.ok.inj hs).symm, n, hn, ?_, hnotes⟩⟩
    exact Bool.eq_false_iff.mpr fun h => nomatch hrefused.mpr h

/-- The accesses of a call that takes the lock. -/
theorem transact_underLock {file : FileId} {s : Buffered} (l : Layout) (mode : EndMode)
    (program : Program α) (hvolume : store.volume < s.disk.volumes.size)
    (hstore : s.cache.store? file = some store) :
    Ends (transact file l true mode program) s fun o t => ∃ calls,
      s.disk.Notes t.disk store.volume calls ∧ UnderLock False calls ∧
        ((∃ a, o = .ok a) → Held calls) := by
  refine ends_transact (enter_locks hvolume hstore) ?_ ?_
  · rintro e t ⟨herror, -⟩
    obtain ⟨calls, hnotes, hcalls⟩ := herror e rfl
    exact ⟨calls, hnotes, hcalls, nofun⟩
  · rintro store' t ⟨-, hok⟩
    obtain ⟨hstore', n, hn, hgranted, hnotes⟩ := hok store' rfl
    obtain rfl := hstore'.symm
    have hvolume : store.volume < t.disk.volumes.size := hnotes.size ▸ hvolume
    -- once the lock is granted, all that follows comes before the unlock
    have hheld : ∀ {d : Disk}, Released store t.disk d → ∃ calls,
        s.disk.Notes d store.volume calls ∧ Held calls := by
      rintro d ⟨blocks, n', hnotes', hblocks, hn'⟩
      exact ⟨_, hnotes.trans hnotes', .mk hn hgranted hblocks hn'⟩
    refine ends_carry (body_released program rfl hvolume) ?_ ?_
    · rintro e τ ⟨-, herror⟩
      obtain ⟨calls, hnotes, hheld⟩ := hheld (herror e rfl)
      exact ⟨calls, hnotes, .held hheld, nofun⟩
    · rintro a τ ⟨hok, -⟩
      obtain ⟨htransfers, hlocked, hvolume⟩ := hok a rfl
      refine (finish_released mode hlocked hvolume).mono ?_
      rintro _ υ ⟨ended, rfl, hreleased⟩
      obtain ⟨calls, hnotes, hheld⟩ := hheld (hreleased.front htransfers)
      exact ⟨ended, rfl, calls, hnotes, .held hheld, fun _ => hheld⟩

end Session

end PagedIndex
