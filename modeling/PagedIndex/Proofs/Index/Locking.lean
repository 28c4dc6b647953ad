import PagedIndex.Proofs.Index.FileTasks
import PagedIndex.Proofs.Session.Locking

/-!
# Handles that take the lock

Whatever is asked of a handle in shared mode, it makes no access to its store outside the lock, and
it asks for the lock to be given back whenever it has been granted.

## Main definitions

* `Service` — what is asked of a handle.

## Main statements

* `Index.serves_underLock` — the accesses that a handle makes to its store.
-/

namespace PagedIndex

inductive Service where
  | call (c : Call)
  | flush
  | close
  | drop
  deriving DecidableEq

def Service.run : Service → IndexM Unit
  | call c => do
    let _ ← c.run
  | flush => Index.flush
  | close => Index.close
  | drop => Index.drop

namespace Index

variable {ix : Index} {w : Workspace} {α : Type} {flushes : Prop}

/-- Between two moments a handle makes accesses to its store under the lock. -/
def Serves (ix : Index) (flushes : Prop) (d d' : Disk) : Prop :=
  ∃ calls, d.Notes d' ix.store.volume calls ∧ UnderLock flushes calls

theorem serves_refl (d : Disk) : ix.Serves flushes d d := ⟨[], .refl d _, .none⟩

/-- A call on the file. -/
theorem call_underLock (hmode : ix.mode = .shared)
    (hstore : (w.below ix.cache).cache.store? ix.file = some ix.store)
    (hvolume : ix.store.volume < w.disk.volumes.size) (mode : EndMode) (program : Program α) :
    Ends (call mode program) (ix, w) fun o σ => σ.1 = ix ∧ ∃ calls,
      w.disk.Notes σ.2.disk ix.store.volume calls ∧ UnderLock False calls ∧
        ((∃ a, o = .ok a) → Held calls) := by
  refine call_ends ?_
  rw [hmode]
  exact (Session.transact_underLock ix.tree.layout mode program hvolume hstore).mono
    fun o s h => ⟨rfl, h⟩

end Index

theorem UnderLock.mono {flushes flushes' : Prop} (h : flushes → flushes') {calls : List AccessNote}
    (hcalls : UnderLock flushes calls) : UnderLock flushes' calls := by
  cases hcalls with
  | none => exact .none
  | refused hlock hrefused => exact .refused hlock hrefused
  | held hheld => exact .held hheld
  | synced hflushes hheld hsync => exact .synced (h hflushes) hheld hsync

namespace Index

variable {ix : Index} {w : Workspace}

theorem flush_underLock (hmode : ix.mode = .shared)
    (hstore : (w.below ix.cache).cache.store? ix.file = some ix.store)
    (hvolume : ix.store.volume < w.disk.volumes.size) :
    Ends flush (ix, w) fun _ σ => ix.Serves True w.disk σ.2.disk := by
  unfold flush
  refine Ends.bind (call_underLock hmode hstore hvolume .flush (pure ())) ?_ ?_
  · rintro e σ ⟨-, calls, hnotes, hlock, -⟩
    exact ⟨calls, hnotes, hlock.mono False.elim⟩
  · rintro ⟨⟨⟩, ended⟩ ⟨ix', w'⟩ ⟨rfl, calls, hnotes, -, h⟩
    have hheld : Held calls := h ⟨_, rfl⟩
    refine Ends.bind (ends_settle (Q := fun _ σ => σ = (ix', w')) rfl) ?_ ?_
    · rintro e _ rfl
      exact ⟨calls, hnotes, .held hheld⟩
    · rintro ⟨⟩ _ rfl
      have hvolume : ix'.store.volume < w'.disk.volumes.size := hnotes.size ▸ hvolume
      refine self_bind_ends (onWorkspace_ends (Workspace.onDisk_ends ?_))
      refine Ends.mono (ix'.store.ask_notes hvolume .sync 0 0) ?_
      rintro r d ⟨n, hn, hsync, -⟩
      exact ⟨calls ++ [n], hnotes.trans hsync, .synced trivial hheld hn⟩

theorem close_underLock (hmode : ix.mode = .shared)
    (hstore : (w.below ix.cache).cache.store? ix.file = some ix.store)
    (hvolume : ix.store.volume < w.disk.volumes.size) :
    Ends close (ix, w) fun _ σ => ix.Serves False w.disk σ.2.disk := by
  unfold close
  refine Ends.attempt_bind (call_underLock hmode hstore hvolume .flush (pure ())) ?_
  rintro flushed ⟨ix', w'⟩ ⟨rfl, calls, hnotes, hlock, -⟩
  have hserves : ix'.Serves False w.disk w'.disk := ⟨calls, hnotes, hlock⟩
  have hunregister : Ends unregister (ix', w') fun _ σ => σ.2.disk = w'.disk := by
    refine self_bind_ends (onWorkspace_ends (Workspace.onCache_ends ?_))
    exact (Cache.unregister_told _ ix'.file).mono fun _ _ h => h.2.1
  refine Ends.bind hunregister (fun e σ h => h ▸ hserves) fun _ σ h => ?_
  have hserves : ix'.Serves False w.disk σ.2.disk := h ▸ hserves
  cases flushed with
  | error e => exact Ends.throw hserves
  | ok a => exact ends_settle hserves

/-- Whatever is asked of a handle that takes the lock, the accesses it makes to its store are none,
or one lock that is refused, or a lock that is granted, accesses to blocks, and one unlock; a flush
may ask for a sync in the end. This is so whatever is refused and whatever the file holds. -/
theorem serves_underLock (hmode : ix.mode = .shared)
    (hstore : (w.below ix.cache).cache.store? ix.file = some ix.store)
    (hvolume : ix.store.volume < w.disk.volumes.size) (service : Service) :
    Ends service.run (ix, w) fun _ σ => ∃ calls,
      w.disk.Notes σ.2.disk ix.store.volume calls ∧ UnderLock (service = .flush) calls := by
  cases service with
  | call c =>
    have hcall : Ends c.run (ix, w) fun _ σ => ix.Serves False w.disk σ.2.disk := by
      refine Call.run_ends ?_
      cases c.course ix (w.cell ix.cell) with
      | decided r => exact serves_refl _
      | asks q =>
        rw [hmode]
        have htransact := Session.transact_underLock ix.tree.layout OpenMode.shared.endMode q.program
          hvolume hstore
        dsimp only [Course.Meets]
        refine Ends.mono htransact ?_
        rintro o s ⟨calls, hnotes, hlock, -⟩
        exact ⟨calls, hnotes, hlock⟩
    refine Ends.bind hcall ?_ ?_
    · rintro e σ ⟨calls, hnotes, hlock⟩
      exact ⟨calls, hnotes, hlock.mono False.elim⟩
    · rintro a σ ⟨calls, hnotes, hlock⟩
      exact ⟨calls, hnotes, hlock.mono False.elim⟩
  | flush =>
    refine (flush_underLock hmode hstore hvolume).mono ?_
    rintro r σ ⟨calls, hnotes, hlock⟩
    exact ⟨calls, hnotes, hlock.mono fun _ => rfl⟩
  | close =>
    refine (close_underLock hmode hstore hvolume).mono ?_
    rintro r σ ⟨calls, hnotes, hlock⟩
    exact ⟨calls, hnotes, hlock.mono False.elim⟩
  | drop =>
    refine Ends.attempt_bind (close_underLock hmode hstore hvolume) ?_
    rintro r σ ⟨calls, hnotes, hlock⟩
    exact ⟨calls, hnotes, hlock.mono False.elim⟩

/-- An entry is inserted in vain, as no write is taken. -/
theorem serves_underLock_small : Ends (Service.call (.insert [0x41])).run
    (smallIndex 0 .shared, smallWorkspace (refusing .write)) fun _ σ => ∃ calls,
      (smallWorkspace (refusing .write)).disk.Notes σ.2.disk 0 calls ∧
        UnderLock (Service.call (.insert [0x41]) = .flush) calls := by
  have hfinds := @finds_small 0 (refusing .write) .shared Nat.two_pos
  have hvolume : (smallIndex 0 .shared).store.volume <
      (smallWorkspace (refusing .write)).disk.volumes.size := Nat.one_pos
  generalize smallWorkspace (refusing .write) = w at *
  exact serves_underLock rfl hfinds.blocksAs.intact.store hvolume (.call (.insert [0x41]))

end Index

end PagedIndex
