import PagedIndex.Proofs.Codec.Bounds
import PagedIndex.Proofs.Disk.Failures
import PagedIndex.Proofs.Session.Shown

/-!
# How a session fails around its program

The disk, the cache and the session have failures of their own, and none of them is an abandonment:
of all that a call does only its program can be abandoned at an index or a bound outside its data.
No such failure is kept for a later call either, whatever is refused.

## Main definitions

* `Buffered.Clear` — no abandonment is kept for the next call on a file.
* `Cache.keepsClear` — it stays so, and the failures are certain ones.

## Main statements

* `Cache.parts_keepsClear`, `Session.parts_keepsClear` — the work of a cache and of a session.
-/

namespace PagedIndex

/-- None of the failures of a cache is an abandonment. -/
theorem Error.OfCache.ne_outOfRange {e : Error} (h : e.OfCache) : e ≠ .outOfRange := by
  cases h with
  | disk h => cases h <;> simp
  | unknown => simp
  | pool h => cases h <;> simp

/-- No abandonment is kept for the next call on a file. -/
def Buffered.Clear (f : FileId) (s : Buffered) : Prop :=
  ∀ r, s.cache.registration? f = some r → r.pending ≠ some .outOfRange

/-! ## The work of a cache -/

namespace Cache

variable {F : Error → Prop} {f : FileId} {α : Type}

/-- No abandonment is kept that was not kept before, and the failures are certain ones. -/
def keepsClear (F : Error → Prop) (f : FileId) : Guarantee Error Buffered :=
  .ofInvariant (Buffered.Clear f) F

theorem onDisk_keepsClear {x : DiskM α} (h : Fails F x) : (keepsClear F f).Covers (onDisk x) :=
  fun s hs => (onDisk_ends (h.ends s.disk)).mono fun _ _ ⟨hcache, hr⟩ =>
    ⟨hr, fun r hreg => hs r (hcache ▸ hreg), fun _ _ => trivial⟩

theorem update_keepsClear {g : Cache → Cache} (hg : ∀ c, (g c).registration? f = c.registration? f) :
    (keepsClear F f).Covers (update g) :=
  update_covers fun s hs r hr => hs r ((hg s.cache).symm.trans hr)

theorem park_keepsClear (file : FileId) {e : Error} (he : e ≠ .outOfRange) :
    (keepsClear F f).Covers (update (·.park file e)) := by
  refine update_covers fun s hs r hr => ?_
  have hr : (s.cache.modifyFile file _).registration? f = some r := hr
  rw [registration?_modifyFile] at hr
  split at hr
  · obtain ⟨r', hr', rfl⟩ := Option.map_eq_some_iff.mp hr
    have hpending := hs r' hr'
    cases hkept : r'.pending with
    | none => simpa [hkept] using he
    | some e' => simpa [hkept] using hpending
  · exact hs r hr

/-- What is kept for the next call is told once. -/
theorem takePending_keepsClear :
    (keepsClear F f).Meets (fun kept => kept ≠ some .outOfRange) (takePending f) := by
  intro s hs
  refine (takePending_ends f).mono ?_
  rintro _ t ⟨rfl, rfl⟩
  refine .ok (fun r hr => ?_) fun h => ?_
  · rw [registration?_modifyFile, if_pos rfl] at hr
    obtain ⟨r', -, rfl⟩ := Option.map_eq_some_iff.mp hr
    simp
  · obtain ⟨reg, hreg, he⟩ := Option.bind_eq_some_iff.mp h
    exact hs reg hreg he

section

variable (hF : ∀ e, e.OfCache → F e)
include hF

theorem write_keepsClear (store : Store) (offset : Nat) (data : Bytes) :
    (keepsClear F f).Covers (onDisk (store.write offset data)) :=
  onDisk_keepsClear ((store.write_fails offset data).mono fun _ he => hF _ (.disk he))

theorem parts_keepsClear : LoadParts (keepsClear F f) where
  unknown := hF _ .unknown
  fault he := hF _ (.pool he)
  writeBack := covers_writeBack (fun he => hF _ (.pool he)) (write_keepsClear hF)
    fun _ => update_keepsClear fun _ => rfl
  change hf := by
    cases hf with
    | takeFree rest => exact update_keepsClear fun _ => rfl
    | evict i => exact update_keepsClear fun _ => registration?_unhook
    | discard i => exact update_keepsClear fun _ => registration?_discard
  readImage _ _ _ := onDisk_keepsClear ((readImage_fails _ _ _).mono fun _ he => hF _ (.disk he))
  giveBack _ := update_keepsClear fun _ => rfl
  hook _ _ _ := update_keepsClear fun _ => registration?_hook

theorem fetch_keepsClear (file : FileId) (pos : BlockPos) (blockSize : Nat) (read : Bool) :
    (keepsClear F f).Covers (fetch file pos blockSize read) :=
  (parts_keepsClear hF).fetch
    (fun hg => by cases hg <;> exact update_keepsClear fun _ => rfl) file pos blockSize read

theorem restore_keepsClear (file : FileId) (pos : BlockPos) (image : Bytes) :
    (keepsClear F f).Covers (restore file pos image) :=
  (parts_keepsClear hF).restore (fun hg => by cases hg <;> exact update_keepsClear fun _ => rfl)
    (fun _ _ => update_keepsClear fun _ => rfl) (write_keepsClear hF) file pos image

end

end Cache

/-! ## The work of a session -/

namespace Session

open Cache (keepsClear)

variable {F : Error → Prop} {f : FileId}

/-- What is kept for the next call is the failure of a restoration. -/
theorem undoOne_keepsClear (file : FileId) (u : Undo) :
    ((keepsClear Error.OfCache f).comap Prod.snd).Covers (undoOne file u) := by
  refine covers_undoOne (fun file pos => onCache_meets (Cache.update_keepsClear fun c => ?_))
    (fun _ _ _ => onCache_meets (Cache.restore_keepsClear (fun _ => id) _ _ _))
    (fun file e he => onCache_meets (Cache.park_keepsClear file he.ne_outOfRange)) file u
  unfold Cache.forget
  split
  · exact Cache.registration?_discard
  · rfl

section

variable (hF : ∀ e, e.OfCache → F e)
include hF

theorem parts_keepsClear : Parts ((keepsClear F f).comap Prod.snd) :=
  .ofCache (fun he => hF _ (.pool he)) (fun _ => Cache.update_keepsClear fun _ => rfl)
    (fun _ _ => Cache.update_keepsClear fun _ => rfl) fun _ => (Cache.parts_keepsClear hF).release _ _

theorem load_keepsClear (role : Role) (pos : BlockPos) (read : Bool) :
    ((keepsClear F f).comap Prod.snd).Covers (load role pos read) :=
  covers_load (covers_letGo (fun _ => update_covers _)
      fun _ => onCache_meets (Cache.update_keepsClear fun _ => rfl))
    (fun _ _ _ _ => onCache_meets (Cache.fetch_keepsClear hF _ _ _ _))
    (fun _ => onCache_meets (Cache.update_keepsClear fun _ => rfl)) (fun _ _ => update_covers _)
    role pos read

theorem unlock_keepsClear (store : Store) :
    ((keepsClear F f).comap Prod.snd).Covers (unlock store) :=
  covers_unlock (update_covers _) <| onCache_meets <| Cache.onDisk_keepsClear <|
    (store.ask_fails _ _ _).mono fun _ he => hF _ (.disk he)

end

theorem rollBack_keepsClear : ((keepsClear Error.OfCache f).comap Prod.snd).Covers rollBack :=
  (parts_keepsClear fun _ => id).rollBack undoOne_keepsClear

end Session

end PagedIndex
