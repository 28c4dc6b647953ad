import PagedIndex.Cache.Transfer
import PagedIndex.Proofs.Disk.Failures

/-!
# The parts of the work of a cache

All that a cache does is put together from a few changes to its data and a few accesses to stores. A
guarantee that these parts meet is met by the whole.

## Main definitions

* `Cache.Change` — the changes that blocks are given up by.
* `Cache.Parts` — a guarantee that is met where blocks are given up.
* `Cache.LoadParts` — one that is met where they are taken up, too.

## Main statements

* `Cache.Parts.vacate`, `Cache.Parts.release`, `Cache.LoadParts.fetch`, `Cache.LoadParts.restore` —
  the work of a cache.
-/

namespace PagedIndex

namespace Cache

variable {G : Guarantee Error Buffered} {s : Buffered} {file : FileId} {mode : Release} {i : Nat}

/-- The cache with the changes of a buffer in the store. -/
def clean (c : Cache) (i : Nat) : Cache :=
  { c.modifyBuffer i (fun b => { b with dirty := false }) with writes := c.writes + 1 }

/-- The changes to a cache that give blocks up. -/
inductive Change : (Cache → Cache) → Prop
  | takeFree (rest : List Nat) : Change fun c => { c with free := rest }
  | evict (i : Nat) : Change fun c => { c.unhook i with evictions := c.evictions + 1 }
  | discard (i : Nat) : Change (·.discard i)

/-- The changes that are made where blocks are looked up. -/
inductive Lookup : (Cache → Cache) → Prop
  | hit (i : Nat) : Lookup fun c => { c.touch i with hits := c.hits + 1 }
  | miss : Lookup fun c => { c with misses := c.misses + 1 }

/-- The guarantee is met by what blocks are given up by. -/
structure Parts (G : Guarantee Error Buffered) : Prop where
  unknown : G.Fails .invalidHandle
  fault {e : Error} (he : e.OfPool) : G.Fails e
  writeBack (i : Nat) : G.Covers (writeBack i)
  change {f : Cache → Cache} (hf : Change f) : G.Covers (update f)

/-- The guarantee is met by what blocks are taken up by. -/
structure LoadParts (G : Guarantee Error Buffered) : Prop extends Parts G where
  readImage (store : Store) (pos : BlockPos) (blockSize : Nat) :
    G.Covers (onDisk (readImage store pos blockSize))
  giveBack (i : Nat) : G.Covers (update (·.giveBack i))
  hook (i : Nat) {b : Buffer} (hb : b.pinned = false) : G.Covers (update (·.hook i b))

theorem onDisk_meets {α : Type} {H : Guarantee Error Disk} {P : α → Prop} {x : DiskM α}
    (h : H.Meets P x) : (H.comap Buffered.disk).Meets P (onDisk x) := by
  rintro ⟨c, d⟩ hd
  have hx := h d hd
  unfold Ends onDisk at *
  cases hxd : x d <;> simp only [hxd] at hx ⊢ <;> exact hx

theorem update_covers {f : Cache → Cache} (hf : ∀ s, G.Holds s → G.Leads s ⟨f s.cache, s.disk⟩) :
    G.Covers (update f) := .modify hf

theorem covers_writeBack (hfault : ∀ {e}, Error.OfPool e → G.Fails e)
    (hwrite : ∀ (store : Store) offset data, G.Covers (onDisk (store.write offset data)))
    (hclean : ∀ i, G.Covers (update (·.clean i))) (i : Nat) : G.Covers (writeBack i) := by
  unfold writeBack
  refine .get_bind fun s _ => ?_
  split
  · exact .pure trivial
  · split
    · refine .get_bind fun s _ => ?_
      split
      · exact .throw (hfault .unregisteredBuffer)
      · exact (hwrite _ _ _).bind fun _ _ => hclean i
    · exact .pure trivial

theorem covers_storeOf (hunknown : G.Fails .invalidHandle) (file : FileId) :
    G.Covers (storeOf file) := by
  unfold storeOf
  refine .get_bind fun s _ => ?_
  split
  · exact .pure trivial
  · exact .throw hunknown

theorem covers_takePending
    (hforget : G.Covers (update (·.modifyFile file fun r => { r with pending := none }))) :
    G.Covers (takePending file) := by
  unfold takePending
  refine .get_bind fun s _ => ?_
  split
  · exact .pure trivial
  · exact hforget.bind fun _ _ => .pure trivial

/-- What is told of a buffer that is released is an error that is let pass. -/
theorem releaseBuffer_meets (hwrite : mode = .flush → G.Covers (writeBack i))
    (hdiscard : G.Covers (update (·.discard i))) :
    G.Meets (fun r => ∀ e, r = .error e → G.Fails e) (releaseBuffer mode i) := by
  unfold releaseBuffer
  refine (Guarantee.Meets.attempt (P := fun _ => True) ?_).bind fun r hr => ?_
  · cases mode with
    | flush => exact hwrite rfl
    | discard => exact .pure trivial
  · split
    · exact hdiscard.bind fun _ _ => .pure hr
    · exact .pure hr

/-- All blocks of a file are released if each buffer that holds one can be. -/
theorem release_covers (hone : ∀ s i b, G.Holds s → s.cache.buffer? i = some b → b.file = file →
      Ends (releaseBuffer mode i) s (G.Post (fun r => ∀ e, r = .error e → G.Fails e) s)) :
    G.Covers (release file mode) := by
  have hall : ∀ buffers, G.Meets (fun r => ∀ e, r = .error e → G.Fails e)
      (releaseAmong file mode buffers) := by
    intro buffers
    induction buffers with
    | nil => exact .pure nofun
    | cons i rest ih =>
      intro s hs
      unfold releaseAmong
      refine Ends.get_bind ?_
      dsimp only
      split
      · next hany =>
        obtain ⟨b, hb, hown⟩ := (Option.any_eq_true _ _).mp hany
        refine Guarantee.Post.bind hs (hone s i b hs hb (beq_iff_eq.mp hown)) fun first hfirst =>
          ih.bind fun others hothers => .pure ?_
        cases first with
        | ok _ => exact hothers
        | error e => exact hfirst
      · exact ih s hs
  unfold release
  exact .get_bind fun s _ => (hall _).bind fun r hr => .settle hr fun _ _ => trivial

/-- All that is not in use is released if each buffer that holds a block can be. -/
theorem purge_covers (hone : ∀ s i b, G.Holds s → s.cache.buffer? i = some b →
      Ends (releaseBuffer .flush i) s (G.Post (fun r => ∀ e, r = .error e → G.Fails e) s))
    (hpark : ∀ file e, G.Fails e → G.Covers (update (·.park file e))) : G.Covers purge := by
  have hall : ∀ buffers, G.Covers (purgeAmong buffers) := by
    intro buffers
    induction buffers with
    | nil => exact .pure trivial
    | cons i rest ih =>
      intro s hs
      unfold purgeAmong
      refine Ends.get_bind ?_
      split
      · exact ih s hs
      · next b hb =>
        split
        · exact ih s hs
        · refine Guarantee.Post.bind hs (hone s i b hs hb) fun r hr => ?_
          split
          · exact ih.bind fun _ _ => .pure trivial
          · next e => exact (hpark _ _ (hr e rfl)).bind fun _ _ => ih
  unfold purge
  exact .get_bind fun s _ => hall _

namespace Parts

theorem releaseBuffer (h : Parts G) (mode : Release) (i : Nat) :
    G.Meets (fun r => ∀ e, r = .error e → G.Fails e) (Cache.releaseBuffer mode i) :=
  releaseBuffer_meets (fun _ => h.writeBack i) (h.change (.discard i))

theorem release (h : Parts G) (file : FileId) (mode : Release) : G.Covers (Cache.release file mode) :=
  release_covers fun s i _ hs _ _ => h.releaseBuffer mode i s hs

theorem vacate (h : Parts G) : G.Covers vacate := by
  unfold Cache.vacate
  refine .get_bind fun s _ => ?_
  split
  · exact (h.change (.takeFree _)).bind fun _ _ => .pure trivial
  · unfold evict
    refine .get_bind fun s _ => ?_
    split
    · exact .throw (h.fault .noEvictableBuffer)
    · exact (h.writeBack _).bind fun _ _ => (h.change (.evict _)).bind fun _ _ => .pure trivial

end Parts

namespace LoadParts

/-- A block is taken up that no buffer holds. -/
theorem load (h : LoadParts G) (file : FileId) (pos : BlockPos) (blockSize : Nat) (read : Bool) :
    G.Covers (do
      let store ← storeOf file
      let i ← Cache.vacate
      let loaded ← attempt <|
        if read then onDisk (Cache.readImage store pos blockSize)
        else pure (List.replicate blockSize filler)
      match loaded with
      | .error e =>
        update (·.giveBack i)
        throw e
      | .ok image =>
        update (·.hook i ⟨file, pos, image, false, false⟩)
        return i) := by
  have himage : ∀ store, G.Covers (if read then onDisk (Cache.readImage store pos blockSize)
      else pure (List.replicate blockSize filler)) := by
    intro store
    split
    · exact h.readImage store pos blockSize
    · exact .pure trivial
  refine (covers_storeOf h.unknown file).bind fun store _ => h.vacate.bind fun i _ =>
    (himage store).attempt.bind fun loaded hloaded => ?_
  split
  · next e => exact (h.giveBack i).bind fun _ _ => .throw (hloaded e rfl)
  · exact (h.hook i rfl).bind fun _ _ => .pure trivial

theorem fetch (h : LoadParts G) (hlookup : ∀ {f}, Lookup f → G.Covers (update f)) (file : FileId)
    (pos : BlockPos) (blockSize : Nat) (read : Bool) : G.Covers (fetch file pos blockSize read) := by
  unfold Cache.fetch
  refine .get_bind fun s _ => ?_
  split
  · exact (hlookup (.hit _)).bind fun _ _ => .pure trivial
  · exact (hlookup .miss).bind fun _ _ => h.load file pos blockSize read

theorem restore (h : LoadParts G) (hlookup : ∀ {f}, Lookup f → G.Covers (update f))
    (hset : ∀ i image, G.Covers (update (·.setImage i image)))
    (hwrite : ∀ (store : Store) offset data, G.Covers (onDisk (store.write offset data)))
    (file : FileId) (pos : BlockPos) (image : Bytes) : G.Covers (restore file pos image) := by
  unfold Cache.restore
  refine .get_bind fun s _ => ?_
  split
  · exact hset _ _
  · refine (h.fetch hlookup file pos _ false).attempt.bind fun r _ => ?_
    split
    · exact hset _ _
    · exact (covers_storeOf h.unknown file).bind fun store _ => hwrite store _ _

/-- Where nothing is asked of the cache, it is the accesses to stores that count. -/
theorem ofDisk {H : Guarantee Error Disk} (hunknown : H.Fails .invalidHandle)
    (hfault : ∀ {e}, Error.OfPool e → H.Fails e)
    (hwrite : ∀ (store : Store) offset data, H.Covers (store.write offset data))
    (hread : ∀ store pos blockSize, H.Covers (Cache.readImage store pos blockSize)) :
    LoadParts (H.comap Buffered.disk) :=
  have hupdate : ∀ f, (H.comap Buffered.disk).Covers (update f) := fun _ =>
    update_covers fun _ hs => H.refl hs
  { unknown := hunknown
    fault := hfault
    writeBack := covers_writeBack hfault (fun _ _ _ => onDisk_meets (hwrite _ _ _)) fun _ => hupdate _
    change := fun _ => hupdate _
    readImage := fun _ _ _ => onDisk_meets (hread _ _ _)
    giveBack := fun _ => hupdate _
    hook := fun _ _ _ => hupdate _ }

end LoadParts

end Cache

end PagedIndex
