import Mathlib.Data.List.Nodup
import PagedIndex.Proofs.Cache.Served

/-!
# Runs of a cache

A cache is asked for one thing after the other, in any order and of any files, known or not; buffers
are pinned and given other images at will. In front of each operation the disk may be any disk, so
that any access may be refused. The three structures in which buffers are listed stay in agreement
with what the buffers hold.

## Main definitions

* `Cache.Operation`, `Cache.serves` — what a cache is asked for, and the cache after any of it.
* `Cache.Linked` — each buffer is listed where it belongs, once, and nowhere else.

## Main statements

* `Cache.Operation.run_sound` — the parts of a cache agree after an operation if they did before.
* `Cache.linked_serves` — the buffers of a cache are listed where they belong after any operations.
-/

namespace PagedIndex

namespace Cache

/-- What a cache is asked for. -/
inductive Operation where
  | register (store : Store)
  | unregister (file : FileId)
  | fetch (file : FileId) (pos : BlockPos) (blockSize : Nat) (read : Bool)
  | pin (i : Nat)
  | unpin (i : Nat)
  /-- The image of a block is changed through the buffer that holds it. -/
  | alter (i : Nat) (image : Bytes)
  | release (file : FileId) (mode : Release)
  | purge
  | restore (file : FileId) (pos : BlockPos) (image : Bytes)
  | forget (file : FileId) (pos : BlockPos)
  | park (file : FileId) (e : Error)
  | takePending (file : FileId)

def Operation.run : Operation → CacheM Unit
  | register store => update fun c => (c.register store).2
  | unregister file => Cache.unregister file
  | fetch file pos blockSize read => do let _ ← Cache.fetch file pos blockSize read
  | pin i => update (·.setPinned i true)
  | unpin i => update (·.setPinned i false)
  | alter i image => do
    match (← get).cache.buffer? i with
    | none => throw (.internal .emptyBuffer)
    | some _ => update (·.setImage i image)
  | release file mode => Cache.release file mode
  | purge => do let _ ← Cache.purge
  | restore file pos image => Cache.restore file pos image
  | forget file pos => update (·.forget file pos)
  | park file e => update (·.park file e)
  | takePending file => do let _ ← Cache.takePending file

/-- The cache after operations, with the disk that each of them finds. -/
def serves (c : Cache) (operations : List (Disk × Operation)) : Cache :=
  operations.foldl (fun c (d, op) => (ending op.run ⟨c, d⟩).2.cache) c

/-- A buffer that holds nothing is on the stack of free buffers, once; one that holds a block is in
the chain of the hash value of its block and in the recency list, once in each. None is listed
anywhere else. -/
structure Linked (c : Cache) : Prop where
  vacant : ∀ i < c.capacity, c.buffer? i = none → c.free.count i = 1 ∧
    (∀ k, (c.chain k).count i = 0) ∧ c.recency.order.count i = 0
  taken : ∀ i < c.capacity, ∀ b, c.buffer? i = some b → c.free.count i = 0 ∧
    (∀ k, (c.chain k).count i = if k = hash b.file b.pos then 1 else 0) ∧
    c.recency.order.count i = 1
  beyond : ∀ i, c.capacity ≤ i → c.buffer? i = none ∧ i ∉ c.free ∧ (∀ k, i ∉ c.chain k) ∧
    i ∉ c.recency.order
  /-- No two buffers hold the same block. -/
  unique : ∀ i j b b', c.buffer? i = some b → c.buffer? j = some b' → b.file = b'.file →
    b.pos = b'.pos → i = j
  /-- The links lead through each chain and end behind it. -/
  row : ∀ k, c.chains.Row (c.chains.head k) (c.chain k)
  lookup : ∀ file pos i, c.lookup file pos = some i ↔
    ∃ b, c.buffer? i = some b ∧ b.file = file ∧ b.pos = pos
  /-- A block is held of files that are known only. -/
  registered : ∀ i b, c.buffer? i = some b → (c.registration? b.file).isSome
  /-- The next file has a number of its own, within 32 bits while there are fewer files than
  numbers. -/
  fresh : c.freshFile ≠ 0 ∧ c.registration? c.freshFile = none ∧
    (c.files.length + 2 ≤ UInt32.size → c.freshFile < UInt32.size)

variable {c : Cache} {s : Buffered}

/-- Of as many numbers as there are files and two more, one is neither zero nor in use. -/
theorem exists_unused (hroom : c.files.length + 2 ≤ UInt32.size) (file : UInt32) :
    ∃ k < c.files.length + 2, file + .ofNat k ≠ 0 ∧ c.registration? (file + .ofNat k).toNat = none := by
  by_contra hnone
  -- otherwise there are more numbers in use than there are files
  have hused : ∀ k < c.files.length + 2, (file + .ofNat k).toNat ∈ 0 :: c.files.map Prod.fst := by
    intro k hk
    by_contra hmem
    obtain ⟨hzero, hfile⟩ : (file + .ofNat k).toNat ≠ 0 ∧
      (file + .ofNat k).toNat ∉ c.files.map Prod.fst := by
      simpa using hmem
    refine hnone ⟨k, hk, fun h => hzero (by rw [h]; rfl), ?_⟩
    refine List.lookup_eq_none_iff.mpr fun f hf => ?_
    simpa using fun heq => hfile (List.mem_map.mpr ⟨f, hf, Eq.symm heq⟩)
  have hnodup : ((List.range (c.files.length + 2)).map fun k => (file + .ofNat k).toNat).Nodup := by
    refine List.Nodup.map_on (fun j hj k hk heq => ?_) List.nodup_range
    rw [List.mem_range] at hj hk
    have hsame : UInt32.ofNat j = .ofNat k := by simpa using UInt32.toNat_inj.mp heq
    have := congrArg UInt32.toNat hsame
    rwa [UInt32.toNat_ofNat_of_lt' (by omega), UInt32.toNat_ofNat_of_lt' (by omega)] at this
  have hlength := hnodup.length_le_of_subset fun n hn => by
    obtain ⟨k, hk, rfl⟩ := List.mem_map.mp hn
    exact hused k (List.mem_range.mp hk)
  simp at hlength

/-- While there are fewer files than numbers, a new one gets one of these. -/
theorem freshFile_lt (hroom : c.files.length + 2 ≤ UInt32.size) : c.freshFile < UInt32.size := by
  obtain ⟨k, hk, hzero, hfree⟩ := exists_unused hroom c.nextFile
  exact unusedFrom_lt hk hzero hfree

/-- A sound cache lists its buffers where they belong. -/
theorem Sound.linked (h : c.Sound none) : c.Linked := by
  have hvacant : ∀ i, c.buffer? i = none → (∀ k, i ∉ c.chain k) ∧ i ∉ c.recency.order := by
    intro i hi
    refine ⟨fun k hk => ?_, fun hr => ?_⟩
    · obtain ⟨b, hb, -⟩ := (h.mem_chain k i).mp hk
      rw [hi] at hb
      cases hb
    · rw [h.mem_recency, hi] at hr
      cases hr
  refine ⟨fun i hi hb => ?_, fun i hi b hb => ?_, fun i hi => ?_, h.unique,
    h.row, fun _ _ _ => h.lookup_eq_some_iff, h.registered, (c.unusedFrom_fresh _ _).1,
    registration?_freshFile, freshFile_lt⟩
  · have hfree : i ∈ c.free := (h.mem_free i).mpr ⟨hi, hb, nofun⟩
    exact ⟨List.count_eq_one_of_mem h.free_nodup hfree,
      fun k => List.count_eq_zero.mpr ((hvacant i hb).1 k), List.count_eq_zero.mpr (hvacant i hb).2⟩
  · have hfree : i ∉ c.free := fun hmem => by
      have := ((h.mem_free i).mp hmem).2.1
      rw [hb] at this
      cases this
    have hrecency : i ∈ c.recency.order := (h.mem_recency i).mpr (by rw [hb]; rfl)
    refine ⟨List.count_eq_zero.mpr hfree, fun k => ?_,
      List.count_eq_one_of_mem c.recency.nodup_order hrecency⟩
    split
    · next hk =>
      exact List.count_eq_one_of_mem (h.chain_nodup k) ((h.mem_chain k i).mpr ⟨b, hb, hk.symm⟩)
    · next hk =>
      refine List.count_eq_zero.mpr fun hmem => hk ?_
      obtain ⟨b', hb', rfl⟩ := (h.mem_chain k i).mp hmem
      rw [hb] at hb'
      cases hb'
      rfl
  · have hb := buffer?_eq_none_of_le hi
    exact ⟨hb, fun hmem => absurd ((h.mem_free i).mp hmem).1 (Nat.not_lt.mpr hi), hvacant i hb⟩

/-- Whatever is asked for, the parts of the cache agree after it. -/
theorem Operation.run_sound (op : Operation) (h : s.cache.Sound none) :
    Ends op.run s fun _ t => t.cache.Sound none := by
  cases op with
  | register store => exact h.register store
  | unregister file => exact (unregister_serves h file).mono fun _ _ ht => ht.1.sound
  | fetch file pos blockSize read =>
    exact Ends.bind (fetch_serves h file pos blockSize read) (fun _ _ ht => ht.1.proceeds.sound)
      fun _ _ ht => ht.1.proceeds.sound
  | pin i => exact h.setPinned (i := i) true
  | unpin i => exact h.setPinned (i := i) false
  | alter i image =>
    refine Ends.get_bind ?_
    split
    · exact h
    · exact update_ends (h.setImage image)
  | release file mode => exact (release_serves h file mode).mono fun _ _ ht => ht.1.sound
  | purge =>
    exact Ends.bind (purge_serves h) (fun _ _ ht => ht.1.sound) fun _ _ ht => ht.1.sound
  | restore file pos image => exact (restore_serves h file pos image).mono fun _ _ ht => ht.1.sound
  | forget file pos =>
    have hforgotten : (s.cache.forget file pos).Sound none := h.forget
    exact hforgotten
  | park file e => exact h.park file e
  | takePending file =>
    exact Ends.bind (takePending_serves h file) (fun _ _ ht => ht.1.sound) fun _ _ ht => ht.1.sound

theorem Sound.serves (h : c.Sound none) (operations : List (Disk × Operation)) :
    (c.serves operations).Sound none := by
  induction operations generalizing c with
  | nil => exact h
  | cons first rest ih =>
    obtain ⟨d, op⟩ := first
    exact ih (op.run_sound (s := ⟨c, d⟩) h).ending

/-- Whatever a cache was asked for since it was made, and whatever the stores refused: each buffer
is listed where it belongs, once, and a lookup finds the blocks that are held. -/
theorem linked_serves (buffers : Nat) (operations : List (Disk × Operation)) :
    ((new buffers).serves operations).Linked :=
  ((sound_new buffers).serves operations).linked

end Cache

end PagedIndex
