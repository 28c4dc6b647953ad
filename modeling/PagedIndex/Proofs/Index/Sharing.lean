import PagedIndex.Proofs.Index.Handles

/-!
# Handles that share a file

A cache that holds nothing of a file reads every block of it from the store. So if no handle has
blocks of its own between two calls, all of them find what the last call has left in the store, each
through its own cache or part of a cache.

## Main definitions

* `Session.Vacant` — a cache that holds nothing of a file.
* `Sharing` — handles on one store between two calls.

## Main statements

* `Session.Vacant.blocksAs` — what lies in the store lies there for all caches.
* `Sharing.after` — after work for one handle all handles find what it has left.
-/

namespace PagedIndex

namespace Session

/-- A cache that has taken up a file and holds nothing of it. It has no changes for the volume of
the file. -/
structure Vacant (m : Mount) (c : Cache) : Prop where
  sound : c.Sound none
  enough : minBuffers ≤ c.capacity
  store : c.store? m.file = some m.store
  pending : ∀ r, c.registration? m.file = some r → r.pending = none
  unpinned : ∀ i b, c.buffer? i = some b → b.pinned = false
  idle : ∀ i b, c.buffer? i = some b → b.file ≠ m.file
  apart : ∀ i b store, c.buffer? i = some b → b.dirty = true → c.store? b.file = some store →
    store.volume ≠ m.store.volume

variable {m m' : Mount} {format : Format} {v : View} {s t : Buffered} {c : Cache}

theorem BlocksAs.vacant (h : BlocksAs m format v s) (hidle : s.Idle m.file) : Vacant m s.cache :=
  ⟨h.intact.sound, h.intact.enough, h.intact.store, h.pending, h.unpinned, hidle,
    fun i b store hb hd => h.intact.apart i b store hb hd (hidle i b hb)⟩

/-- What lies in the store lies there for all caches that hold nothing of the file. -/
theorem Vacant.blocksAs (h : Vacant m' c) (hblocksAs : BlocksAs m format v s) (hidle : s.Idle m.file)
    (hvolume : m'.store.volume = m.store.volume) (hsize : m'.blockSize = m.blockSize) :
    BlocksAs m' format v ⟨c, s.disk⟩ := by
  have hcontent : ∀ p, m'.content ⟨c, s.disk⟩ p = m.content s p := by
    intro p
    rw [Mount.content_of_absent h.sound fun i b hb hfile => absurd hfile (h.idle i b hb),
      Mount.content_of_absent hblocksAs.intact.sound fun i b hb hfile => absurd hfile (hidle i b hb)]
    unfold Mount.stored
    rw [hvolume, hsize]
  have hintact : m'.Intact none none ⟨c, s.disk⟩ := by
    refine ⟨h.sound, h.enough, hsize ▸ hblocksAs.intact.size_pos, hvolume ▸ hblocksAs.intact.volume_lt,
      ?_, h.store, fun i b hb hfile => absurd hfile (h.idle i b hb),
      fun i b store hb hd _ => h.apart i b store hb hd,
      fun i b hb hfile => absurd hfile (h.idle i b hb)⟩
    rw [hvolume, hsize]
    exact hblocksAs.intact.header
  obtain ⟨x, hx, hread⟩ := hblocksAs.saved
  refine ⟨hsize ▸ hblocksAs.settled, hintact, h.unpinned, h.pending, ⟨x, (hcontent _).trans hx, hread⟩,
    fun p y hy => ?_⟩
  obtain ⟨hnull, ha, hcontent'⟩ := hblocksAs.blocks p y hy
  refine ⟨hnull, ?_, (hcontent p).trans hcontent'⟩
  unfold Mount.Aligned
  rw [hsize]
  exact ha

/-- Work for one file that leaves nothing of it in the cache brings nothing of another one. -/
theorem Vacant.works (h : Vacant m' s.cache) (hworks : Works m s t) (hblocksAs : BlocksAs m format v t)
    (hidle : t.Idle m.file) (hvolume : m'.store.volume = m.store.volume)
    (hfile : m'.file ≠ m.file) : Vacant m' t.cache := by
  refine ⟨hblocksAs.intact.sound, hblocksAs.intact.enough, (hworks.store _).trans h.store,
    fun r hr => ?_,
    hblocksAs.unpinned, hworks.idle h.idle hfile, fun i b store hb hd hstore => ?_⟩
  · rw [hworks.registration _ hfile] at hr
    exact h.pending r hr
  · rw [hvolume]
    exact hblocksAs.intact.apart i b store hb hd (hidle i b hb) hstore

end Session

/-- Handles that share a file, between two calls: none has blocks of its own, and all find the
blocks of a view in the store. -/
structure Sharing {ι : Type} (handles : ι → Index) (v : View) (w : Workspace) : Prop where
  shared : ∀ i, (handles i).mode = .shared
  tree : ∀ i j, (handles i).tree = (handles j).tree
  volume : ∀ i j, (handles i).store.volume = (handles j).store.volume
  files : ∀ i j, i ≠ j → (handles i).cache = (handles j).cache → (handles i).file ≠ (handles j).file
  cells : ∀ i j, i ≠ j → (handles i).cell ≠ (handles j).cell
  finds : ∀ i, (handles i).Finds v w
  idle : ∀ i, (w.below (handles i).cache).Idle (handles i).file

namespace Sharing

variable {ι : Type} {handles handles' : ι → Index} {v v' : View} {w : Workspace} {i : ι}
  {s : Buffered}

/-- Handles that move their cursors share the file as before. -/
theorem congr (h : Sharing handles v w)
    (hsame : ∀ j, handles' j = { handles j with cursor := (handles' j).cursor }) :
    Sharing handles' v w := by
  have hhandles : handles' = fun j => { handles j with cursor := (handles' j).cursor } :=
    funext hsame
  rw [hhandles]
  exact ⟨h.shared, h.tree, h.volume, h.files, h.cells, fun j => (h.finds j).withCursor _, h.idle⟩

theorem setCell (h : Sharing handles v w) (cell record : Nat) :
    Sharing handles v (w.setCell cell record) := by
  exact ⟨h.shared, h.tree, h.volume, h.files, h.cells, fun j => (h.finds j).setCell _ _, h.idle⟩

/-- After work for one handle that leaves no blocks in its cache, all handles find what it has left
in the store. -/
theorem after (h : Sharing handles v w)
    (hworks : Session.Works (handles i).mount (w.below (handles i).cache) s)
    (hblocksAs : Session.BlocksAs (handles i).mount (handles i).tree.layout.format v' s)
    (hidle : s.Idle (handles i).file) :
    Sharing handles v' (w.withBelow (handles i).cache s) := by
  have hsize : (w.withBelow (handles i).cache s).caches.size = w.caches.size := by
    simp [Workspace.withBelow]
  have hother : ∀ j, j ≠ i →
      Session.Vacant (handles j).mount ((w.withBelow (handles i).cache s).cache (handles j).cache) := by
    intro j hj
    have hvacant := (h.finds j).blocksAs.vacant (h.idle j)
    by_cases hcache : (handles j).cache = (handles i).cache
    · have hbelow := Workspace.below_withBelow (s := s) (h.finds i).cache
      rw [hcache]
      rw [show (w.withBelow (handles i).cache s).cache (handles i).cache = s.cache from
        congrArg Buffered.cache hbelow]
      rw [hcache] at hvacant
      exact hvacant.works hworks hblocksAs hidle (h.volume j i) (h.files j i hj hcache)
    · have hbelow := Workspace.below_withBelow_ne (w := w) (s := s) hcache
      rw [show (w.withBelow (handles i).cache s).cache (handles j).cache = w.cache (handles j).cache
        from congrArg Buffered.cache hbelow]
      exact hvacant
  refine ⟨h.shared, h.tree, h.volume, h.files, h.cells, fun j => ⟨hsize ▸ (h.finds j).cache,
    (h.finds j).cell, ?_⟩, fun j => ?_⟩
  · by_cases hj : j = i
    · subst hj
      rw [Workspace.below_withBelow (h.finds j).cache]
      exact hblocksAs
    · have hmount : (handles j).mount.blockSize = (handles i).mount.blockSize := by
        show (handles j).tree.layout.blockSize = (handles i).tree.layout.blockSize
        rw [h.tree j i]
      rw [h.tree j i]
      exact (hother j hj).blocksAs hblocksAs hidle (h.volume j i) hmount
  · by_cases hj : j = i
    · subst hj
      rw [Workspace.below_withBelow (h.finds j).cache]
      exact hidle
    · exact (hother j hj).idle

end Sharing

/-- Two handles on a memory area of one block. -/
theorem sharing_small (refusal : Access → Nat → Option IoCause) :
    Sharing (fun i : Fin 2 => smallIndex i .shared) ⟨fun _ => none, fun _ => none, {}⟩
      (smallWorkspace refusal) :=
  ⟨fun _ => rfl, fun _ _ => rfl, fun _ _ => rfl, fun _ _ hne heq => absurd (Fin.ext heq) hne,
    fun _ _ hne heq => absurd (Fin.ext heq) hne, fun i => finds_small i.isLt,
    fun i => idle_loaded i.isLt _⟩

end PagedIndex
