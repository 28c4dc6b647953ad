import PagedIndex.Proofs.Cache.Spared
import PagedIndex.Proofs.Codec.Unpooled
import PagedIndex.Proofs.Disk.Failures
import PagedIndex.Proofs.Session.Pins

/-!
# What any work on a cache leaves

Whatever a cache is asked for, of whatever file, and whatever the stores refuse: its parts agree
before and after, it has as many buffers, and nothing is pinned that was not. It never tells of a
buffer that should hold a block and holds none, nor of changes of a file that is not known; and it
tells that no buffer can be recycled only if all are pinned.

## Main definitions

* `Cache.AllPinned` — all buffers are pinned.
* `Buffered.Proceeds` — what work on a cache leaves.
* `Cache.Serves` — such work, and what it may fail with.

## Main statements

* `Cache.fetch_serves`, `Cache.release_serves`, `Cache.purge_serves`, `Cache.restore_serves`,
  `Cache.unregister_serves` — the work of a cache.
-/

namespace PagedIndex

/-! ## Accesses to a store -/

/-- A computation that does not fail for the sake of a buffer. -/
abbrev Plain {σ α : Type} (x : EStateM Error σ α) : Prop := Fails (fun e => ¬e.OfPool) x

theorem Plain.of_fails {σ α : Type} {x : EStateM Error σ α} (h : Fails Error.OfDisk x) : Plain x :=
  h.mono fun _ he => by cases he <;> nofun

namespace Store

variable (s : Store) (offset : Nat)

theorem ask_plain (access : Access) (length : Nat) : Plain (s.ask access offset length) :=
  .of_fails (s.ask_fails offset access length)

theorem fault_plain {α : Type} (f : SystemFault) :
    Plain (fault f : DiskM α) := .of_fails (fault_fails f)

theorem read_plain (length : Nat) :
    Plain (s.read offset length) := .of_fails (s.read_fails offset length)

theorem write_plain (data : Bytes) :
    Plain (s.write offset data) := .of_fails (s.write_fails offset data)

end Store

/-! ## What work leaves -/

theorem Cache.isSome_registration?_modifyFile {c : Cache} {file f : FileId}
    {g : Registration → Registration} :
    ((c.modifyFile file g).registration? f).isSome ↔ (c.registration? f).isSome := by
  rw [registration?_modifyFile]
  split
  · rw [Option.isSome_map]
  · rfl

theorem Cache.Sound.park {c : Cache} {out : Option Nat} (h : c.Sound out) (file : FileId) (e : Error) :
    (c.park file e).Sound out :=
  h.modifyFile _

/-- No failure is kept for a later call that tells of a buffer. -/
def Cache.Quiet (c : Cache) : Prop :=
  ∀ f r e, c.registration? f = some r → r.pending = some e → ¬e.OfPool

def Cache.AllPinned (c : Cache) : Prop :=
  ∀ i < c.capacity, ∃ b, c.buffer? i = some b ∧ b.pinned = true

namespace Buffered

/-- What work on a cache leaves, whatever it was asked for. -/
structure Proceeds (s t : Buffered) : Prop where
  sound : t.cache.Sound none
  capacity : t.cache.capacity = s.cache.capacity
  pinsNothing : s.PinsNothing t
  quiet : s.cache.Quiet → t.cache.Quiet
  /-- No file is taken up. -/
  known : ∀ f, (t.cache.registration? f).isSome → (s.cache.registration? f).isSome

/-- What is pinned stays where it is. -/
def KeepsPinned (s t : Buffered) : Prop :=
  ∀ i b, s.cache.buffer? i = some b → b.pinned = true → t.cache.buffer? i = some b

variable {s t u : Buffered}

theorem Proceeds.refl (h : s.cache.Sound none) : s.Proceeds s := ⟨h, rfl, .refl s, id, fun _ => id⟩

theorem Proceeds.trans (h : s.Proceeds t) (h' : t.Proceeds u) : s.Proceeds u :=
  ⟨h'.sound, h'.capacity.trans h.capacity, h.pinsNothing.trans h'.pinsNothing,
    h'.quiet ∘ h.quiet, fun f hf => h.known f (h'.known f hf)⟩

/-- A cache all buffers of which are pinned had them pinned before. -/
theorem Proceeds.allPinned (h : s.Proceeds t) (ht : t.cache.AllPinned) : s.cache.AllPinned := by
  intro i hi
  obtain ⟨b, hb, hp⟩ := ht i (h.capacity ▸ hi)
  exact h.pinsNothing i b hb hp

/-- What is cached has changed and what is known of the files has not. -/
theorem Proceeds.of_cache {c : Cache} {d : Disk} (hsound : c.Sound none)
    (hcapacity : c.capacity = s.cache.capacity) (hpins : s.PinsNothing ⟨c, d⟩)
    (hregistration : ∀ f, c.registration? f = s.cache.registration? f) : s.Proceeds ⟨c, d⟩ :=
  ⟨hsound, hcapacity, hpins, fun hs f r e hr => hs f r e ((hregistration f).symm.trans hr),
    fun f hf => hregistration f ▸ hf⟩

theorem Proceeds.of_disk (h : s.cache.Sound none) (d : Disk) : s.Proceeds ⟨s.cache, d⟩ :=
  of_cache h rfl (fun _ b hb hp => ⟨b, hb, hp⟩) fun _ => rfl

theorem Proceeds.setImage (h : s.cache.Sound none) (i : Nat) (image : Bytes) :
    s.Proceeds ⟨s.cache.setImage i image, s.disk⟩ :=
  of_cache (h.setImage image) (Cache.capacity_modifyBuffer _)
    (fun _ _ => Cache.pinned_of_modifyBuffer fun _ => rfl) fun _ => rfl

theorem Proceeds.discard {i : Nat} (h : s.cache.Sound none) (hi : (s.cache.buffer? i).isSome) :
    s.Proceeds ⟨s.cache.discard i, s.disk⟩ :=
  of_cache (h.discard hi) Cache.capacity_discard (fun _ _ => Cache.pinned_of_unhook)
    fun _ => Cache.registration?_discard

theorem Proceeds.forget (h : s.cache.Sound none) (file : FileId) (pos : BlockPos) :
    s.Proceeds ⟨s.cache.forget file pos, s.disk⟩ := by
  unfold Cache.forget
  split
  · next i hi =>
    obtain ⟨b, hb, -⟩ := h.lookup_eq_some_iff.mp hi
    exact .discard h (by rw [hb]; rfl)
  · exact .refl h

/-- A failure is kept for the next call on a file. -/
theorem Proceeds.park {e : Error} (h : s.cache.Sound none) (file : FileId) (he : ¬e.OfPool) :
    s.Proceeds ⟨s.cache.park file e, s.disk⟩ := by
  refine ⟨h.park file e, rfl, fun _ b hb hp => ⟨b, hb, hp⟩, fun hs f r e' hr hpending => ?_,
    fun f hf => Cache.isSome_registration?_modifyFile.mp hf⟩
  have hr : (s.cache.modifyFile file _).registration? f = some r := hr
  rw [Cache.registration?_modifyFile] at hr
  split at hr
  · obtain ⟨r', hr', rfl⟩ := Option.map_eq_some_iff.mp hr
    cases hkept : r'.pending with
    | none =>
      simp only [hkept] at hpending
      cases hpending
      exact he
    | some e'' =>
      simp only [hkept] at hpending
      cases hpending
      exact hs f r' e' hr' hkept
  · exact hs f r e' hr hpending

end Buffered

/-! ## The work of a cache -/

namespace Cache

variable {α β : Type} {s t : Buffered} {i : Nat} {r : Except Error α}

/-- Work on a cache that has all its parts in agreement. If it fails for the sake of a buffer, then
all buffers are pinned. -/
structure Serves (s : Buffered) (r : Except Error α) (t : Buffered) : Prop where
  proceeds : s.Proceeds t
  error : ∀ e, r = .error e → e.OfPool → s.cache.AllPinned

theorem Serves.of_ok {a : α} (h : s.Proceeds t) : Serves s (.ok a) t := ⟨h, nofun⟩

theorem Serves.of_error {e : Error} (h : s.Proceeds t) (he : ¬e.OfPool) :
    Serves (α := α) s (.error e) t :=
  ⟨h, fun e' he' hpool => by cases he'; exact absurd hpool he⟩

/-- What serves after work that ended with a value. -/
theorem Serves.after {u : Buffered} (h : s.Proceeds t) (h' : Serves t r u) : Serves s r u :=
  ⟨h.trans h'.proceeds, fun e he hpool => h.allPinned (h'.error e he hpool)⟩

theorem storeOf_told (file : FileId) :
    Ends (storeOf file) s fun r t => t = s ∧ Unpooled r ∧
      ∀ store, r = .ok store → (s.cache.registration? file).isSome := by
  unfold storeOf
  refine Ends.get_bind ?_
  split
  · next reg hreg => exact ⟨rfl, nofun, fun _ _ => by rw [hreg]; rfl⟩
  · exact ⟨rfl, fun e he => by cases he; exact nofun, nofun⟩

/-- What is kept for the next call is told once. -/
theorem takePending_serves (h : s.cache.Sound none) (file : FileId) :
    Ends (takePending file) s fun r t => s.Proceeds t ∧
      ∃ kept, r = .ok kept ∧ (s.cache.Quiet → ∀ e, kept = some e → ¬e.OfPool) := by
  unfold takePending
  refine Ends.get_bind ?_
  split
  · exact ⟨.refl h, none, rfl, nofun⟩
  · next reg hreg =>
    have htaken : (s.cache.modifyFile file fun r => { r with pending := none }).Sound none :=
      h.modifyFile _
    refine update_bind_ends (Ends.pure ⟨⟨htaken, rfl, fun _ b hb hp => ⟨b, hb, hp⟩,
      fun hs f r e hr hpending => ?_, fun f hf => isSome_registration?_modifyFile.mp hf⟩, _, rfl,
      fun hs e he => hs file reg e hreg he⟩)
    have hr : (s.cache.modifyFile file _).registration? f = some r := hr
    rw [registration?_modifyFile] at hr
    split at hr
    · obtain ⟨r', -, rfl⟩ := Option.map_eq_some_iff.mp hr
      cases hpending
    · exact hs f r e hr hpending

/-- Changes are written back or are refused; the buffers keep their blocks. -/
theorem writeBack_serves {out : Option Nat} (h : s.cache.Sound out) (i : Nat) :
    Ends (writeBack i) s fun r t => t.cache.Sound out ∧ t.cache.capacity = s.cache.capacity ∧
      t.cache.free = s.cache.free ∧ s.PinsNothing t ∧
      (∀ f, t.cache.registration? f = s.cache.registration? f) ∧
      (∀ j, (t.cache.buffer? j).isSome = (s.cache.buffer? j).isSome) ∧
      (∀ j, j ≠ i → t.cache.buffer? j = s.cache.buffer? j) ∧
      Unpooled r := by
  have hsame : ∀ d, s.PinsNothing ⟨s.cache, d⟩ := fun d j b hb hp => ⟨b, hb, hp⟩
  refine ((writeBack_cases h i).and ((parts_pinsNothing.writeBack i).leads trivial)).mono ?_
  rintro r ⟨c, d⟩ ⟨⟨rfl, rfl, -⟩ | ⟨b, store, hb, -, -, ⟨rfl, hc, -⟩ | ⟨e, rfl, hc, hwrite⟩⟩, hpins⟩
  · exact ⟨h, rfl, rfl, hsame _, fun _ => rfl, fun _ => rfl, fun _ _ => rfl, nofun⟩
  · obtain rfl : c = s.cache.clean i := hc
    refine ⟨h.clean i, capacity_modifyBuffer _, rfl, hpins, fun _ => rfl, fun j => ?_, fun j hj => ?_,
      nofun⟩
    · rw [buffer?_clean]
      split
      · next hj => rw [Option.isSome_map, hj]
      · rfl
    · exact buffer?_clean.trans (if_neg hj)
  · cases hc
    refine ⟨h, rfl, rfl, hsame _, fun _ => rfl, fun _ => rfl, fun _ _ => rfl, fun e' he => ?_⟩
    cases he
    exact ((store.write_plain _ _).ends s.disk).of_error hwrite e rfl

/-- A buffer that was taken has given its block up. What is pinned stays where it is. -/
theorem vacate_serves (h : s.cache.Sound none) : Ends vacate s fun r t =>
    t.cache.capacity = s.cache.capacity ∧ s.PinsNothing t ∧ s.KeepsPinned t ∧
      (∀ f, t.cache.registration? f = s.cache.registration? f) ∧
      (∀ i, r = .ok i → t.cache.Sound (some i) ∧
        ∀ j b, t.cache.buffer? j = some b → s.cache.buffer? j = some b) ∧
      ∀ e, r = .error e → t.cache.Sound none ∧ (e.OfPool → s.cache.AllPinned) := by
  unfold vacate
  refine Ends.get_bind ?_
  split
  · next i rest hfree =>
    refine update_bind_ends (Ends.pure ⟨rfl, fun _ b hb hp => ⟨b, hb, hp⟩, fun _ _ hb _ => hb,
      fun _ => rfl, fun j hj => ?_, nofun⟩)
    cases hj
    exact ⟨h.takeFree hfree, fun _ _ hb => hb⟩
  · next hfree =>
    unfold evict
    refine Ends.get_bind ?_
    split
    · next hnone =>
      refine Ends.throw ⟨rfl, .refl s, fun _ _ hb _ => hb, fun _ => rfl, nofun,
        fun e _ => ⟨h, fun _ i hi => ?_⟩⟩
      by_contra hunpinned
      obtain ⟨v, b, hv, -⟩ := h.exists_victim hfree hi fun b hb =>
        Bool.eq_false_iff.mpr fun hp => hunpinned ⟨b, hb, hp⟩
      rw [hnone] at hv
      cases hv
    · next v hv =>
      obtain ⟨b, hb, hp⟩ := victim?_eq_some hv
      refine Ends.bind (writeBack_serves h v) ?_ ?_
      · rintro e t ⟨hsound, hcapacity, -, hpins, hregistration, -, hothers, he⟩
        refine ⟨hcapacity, hpins, fun j b' hb' hp' => ?_, hregistration, nofun, fun e' he' => ?_⟩
        · rw [hothers j, hb']
          rintro rfl
          rw [hb] at hb'
          cases hb'
          rw [hp] at hp'
          cases hp'
        · cases he'
          exact ⟨hsound, fun hpool => absurd hpool (he e rfl)⟩
      · rintro ⟨⟩ t ⟨hsound, hcapacity, -, hpins, hregistration, hsome, hothers, -⟩
        have hback : ∀ j b', (t.cache.unhook v).buffer? j = some b' →
            j ≠ v ∧ s.cache.buffer? j = some b' := by
          intro j b' hb'
          rw [buffer?_unhook] at hb'
          split at hb'
          · cases hb'
          · next hj => exact ⟨hj, (hothers j hj).symm.trans hb'⟩
        have hout : (t.cache.unhook v).Sound (some v) := hsound.unhook (by rw [hsome, hb]; rfl)
        refine update_bind_ends (Ends.pure ⟨capacity_unhook.trans hcapacity,
          fun j b' hb' hp' => ⟨b', (hback j b' hb').2, hp'⟩, fun j b' hb' hp' => ?_,
          fun f => registration?_unhook.trans (hregistration f), fun j hj => ?_, nofun⟩)
        · show (t.cache.unhook v).buffer? j = some b'
          rw [buffer?_unhook]
          split
          · next hj =>
            rw [hj, hb] at hb'
            cases hb'
            rw [hp] at hp'
            cases hp'
          · next hj => exact (hothers j hj).trans hb'
        · cases hj
          exact ⟨hout.count _ _ _ _, fun j b' hb' => (hback j b' hb').2⟩

/-- A buffer is given a block that no buffer holds. -/
theorem load_serves {file : FileId} {pos : BlockPos} {x : CacheM Bytes} (h : s.cache.Sound none)
    (habsent : ∀ i b, s.cache.buffer? i = some b → b.file = file → b.pos ≠ pos)
    (hreg : (s.cache.registration? file).isSome)
    (hx : ∀ t, Ends x t fun r u => u.cache = t.cache ∧ Unpooled r) :
    Ends (do
      let i ← vacate
      match ← attempt x with
      | .error e =>
        update (·.giveBack i)
        throw e
      | .ok image =>
        update (·.hook i ⟨file, pos, image, false, false⟩)
        return i) s fun r t => Serves s r t ∧ s.KeepsPinned t ∧
      ∀ i, r = .ok i → ∃ b, t.cache.buffer? i = some b ∧ b.file = file ∧ b.pos = pos := by
  refine Ends.bind (vacate_serves h) ?_ ?_
  · rintro e ⟨c, d⟩ ⟨hcapacity, hpins, hkeepsPinned, hregistration, -, he⟩
    refine ⟨⟨.of_cache (he e rfl).1 hcapacity hpins hregistration, fun e' he' => ?_⟩, hkeepsPinned,
      nofun⟩
    cases he'
    exact (he e rfl).2
  · rintro i t ⟨hcapacity, hpins, hkeepsPinned, hregistration, hok, -⟩
    obtain ⟨hout, hback⟩ := hok i rfl
    obtain ⟨hlt, hvacant⟩ := hout.out_vacant i rfl
    refine Ends.attempt_bind (hx t) ?_
    rintro loaded ⟨c, d⟩ ⟨hc, he⟩
    obtain rfl : c = t.cache := hc
    cases loaded with
    | error e =>
      refine update_bind_ends (Ends.throw ⟨.of_error (.of_cache hout.giveBack hcapacity hpins
        hregistration) (he e rfl), hkeepsPinned, nofun⟩)
    | ok image =>
      have hhooked : (t.cache.hook i ⟨file, pos, image, false, false⟩).Sound none :=
        hout.hook (fun j b hb => habsent j b (hback j b hb)) (by rw [hregistration]; exact hreg)
      refine update_bind_ends (Ends.pure ⟨.of_ok (.of_cache hhooked (capacity_hook.trans hcapacity)
        (fun j b hb hp => ?_) fun f => registration?_hook.trans (hregistration f)),
        fun j b hb hp => ?_, fun j hj => ?_⟩)
      · rcases buffer?_hook_cases hb with ⟨-, rfl⟩ | ⟨-, hold⟩
        · cases hp
        · exact hpins j b hold hp
      · have hheld := hkeepsPinned j b hb hp
        refine (buffer?_hook hlt).trans ((if_neg ?_).trans hheld)
        rintro rfl
        rw [hvacant] at hheld
        cases hheld
      · cases hj
        exact ⟨_, (buffer?_hook hlt).trans (if_pos rfl), rfl, rfl⟩

/-- A block is found in a buffer, or a buffer is given it. What is pinned stays where it is. -/
theorem fetch_serves (h : s.cache.Sound none) (file : FileId) (pos : BlockPos) (blockSize : Nat)
    (read : Bool) : Ends (fetch file pos blockSize read) s fun r t => Serves s r t ∧ s.KeepsPinned t ∧
      ∀ i, r = .ok i → ∃ b, t.cache.buffer? i = some b ∧ b.file = file ∧ b.pos = pos := by
  unfold fetch
  refine Ends.get_bind ?_
  split
  · next i hi =>
    obtain ⟨b, hb, hfile, hpos⟩ := h.lookup_eq_some_iff.mp hi
    have htouched : (s.cache.touch i).Sound none := h.touch (by rw [hb]; rfl)
    refine update_bind_ends (Ends.pure ⟨.of_ok (.of_cache (htouched.count _ _ _ _) rfl
      (fun _ b hb hp => ⟨b, hb, hp⟩) fun _ => rfl), fun _ _ hb _ => hb, fun j hj => ?_⟩)
    cases hj
    exact ⟨b, hb, hfile, hpos⟩
  · next hnone =>
    have habsent := h.lookup_eq_none_iff.mp hnone
    have hcounted : Buffered.Proceeds s
        ⟨{ s.cache with misses := s.cache.misses + 1 }, s.disk⟩ :=
      .of_cache (h.count s.cache.hits _ s.cache.evictions s.cache.writes) rfl
        (fun _ b hb hp => ⟨b, hb, hp⟩) fun _ => rfl
    refine update_bind_ends (Ends.bind (storeOf_told file) ?_ ?_)
    · rintro e t ⟨rfl, he, -⟩
      exact ⟨.of_error hcounted (he e rfl), fun _ _ hb _ => hb, nofun⟩
    · rintro store t ⟨rfl, -, hreg⟩
      refine (load_serves hcounted.sound habsent (hreg store rfl) fun t => ?_).mono
        fun r u ⟨hu, hkeepsPinned, hok⟩ => ⟨.after hcounted hu, hkeepsPinned, hok⟩
      split
      · exact onDisk_ends ((Plain.of_fails (readImage_fails store pos blockSize)).ends t.disk)
      · exact ⟨rfl, nofun⟩

/-- What work on a cache leaves, if it does not fail for the sake of a buffer. -/
def proceeding : Guarantee Error Buffered where
  Holds s := s.cache.Sound none
  Leads := Buffered.Proceeds
  Fails e := ¬e.OfPool
  refl := .refl
  trans := .trans
  keeps _ h := h.sound

/-- A buffer is released, or its changes are refused. -/
theorem releaseBuffer_serves {b : Buffer} (h : s.cache.Sound none) (hb : s.cache.buffer? i = some b)
    (mode : Release) : Ends (releaseBuffer mode i) s (proceeding.Post Unpooled s) := by
  unfold releaseBuffer
  refine Ends.attempt_bind (P := fun r t => s.Proceeds t ∧ (t.cache.buffer? i).isSome ∧
    Unpooled r) ?_ ?_
  · cases mode with
    | flush =>
      refine (writeBack_serves h i).mono ?_
      rintro r ⟨c, d⟩ ⟨hsound, hcapacity, -, hpins, hregistration, hsome, -, he⟩
      exact ⟨.of_cache hsound hcapacity hpins hregistration, (hsome i).trans (by rw [hb]; rfl), he⟩
    | discard => exact ⟨.refl h, by rw [hb]; rfl, nofun⟩
  · rintro o t ⟨ht, hi, he⟩
    cases o with
    | ok _ => exact update_bind_ends (Ends.pure (.ok (ht.trans (.discard ht.sound hi)) he))
    | error e => exact Ends.pure (.ok ht he)

theorem release_serves (h : s.cache.Sound none) (file : FileId) (mode : Release) :
    Ends (release file mode) s fun r t => s.Proceeds t ∧ Unpooled r :=
  (release_covers (fun _ _ _ hs hb _ => releaseBuffer_serves hs hb mode) s h).mono
    fun _ _ h => ⟨h.2.1, h.1⟩

/-- All that is not in use is released, of whatever files. -/
theorem purge_serves (h : s.cache.Sound none) : Ends purge s fun r t => s.Proceeds t ∧ Unpooled r :=
  (purge_covers (fun _ _ _ hs hb => releaseBuffer_serves hs hb .flush)
    (fun file _ he => update_covers fun _ hs => .park hs file he) s h).mono
      fun _ _ h => ⟨h.2.1, h.1⟩

/-- An image is put back, into a buffer or into the store. -/
theorem restore_serves (h : s.cache.Sound none) (file : FileId) (pos : BlockPos) (image : Bytes) :
    Ends (restore file pos image) s fun r t => s.Proceeds t ∧ Unpooled r := by
  unfold restore
  refine Ends.get_bind ?_
  split
  · next i hi => exact update_ends ⟨.setImage h i image, nofun⟩
  · refine Ends.attempt_bind (fetch_serves h file pos _ false) ?_
    rintro r t ⟨ht, -⟩
    cases r with
    | ok i => exact update_ends ⟨ht.proceeds.trans (.setImage ht.proceeds.sound i image), nofun⟩
    | error e =>
      refine Ends.bind (storeOf_told file) ?_ ?_
      · rintro e' u ⟨rfl, he, -⟩
        exact ⟨ht.proceeds, fun e'' he' => by cases he'; exact he e' rfl⟩
      · rintro store u ⟨rfl, -⟩
        refine (onDisk_ends ((store.write_plain pos.offset image).ends u.disk)).mono ?_
        rintro r ⟨c, d⟩ ⟨rfl, he⟩
        exact ⟨ht.proceeds.trans (.of_disk ht.proceeds.sound d), he⟩

/-- A file is given up with all that is cached of it. -/
theorem unregister_serves (h : s.cache.Sound none) (file : FileId) :
    Ends (unregister file) s fun r t => s.Proceeds t ∧ r = .ok () := by
  unfold unregister
  refine Ends.attempt_bind ((release_serves h file .discard).and (release_discard_ends s file)) ?_
  rintro o t ⟨⟨ht, -⟩, -, -, hidle, -⟩
  have hdropped : (t.cache.dropFile file).Sound none := ht.sound.dropFile hidle
  have hstays : ∀ f r, (t.cache.dropFile file).registration? f = some r →
      t.cache.registration? f = some r := by
    intro f r hr
    rw [registration?_dropFile] at hr
    split at hr
    · cases hr
    · exact hr
  refine update_ends ⟨⟨hdropped, ht.capacity, ht.pinsNothing,
    fun hs f r e hr => ht.quiet hs f r e (hstays f r hr), fun f hf => ?_⟩, rfl⟩
  obtain ⟨r, hr⟩ := Option.isSome_iff_exists.mp hf
  exact ht.known f (by rw [hstays f r hr]; rfl)

end Cache

end PagedIndex
