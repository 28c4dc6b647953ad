import PagedIndex.Proofs.Cache.Steps
import PagedIndex.Proofs.Session.Guard

/-!
# Files beside the one that is worked on

The work of a cache for one file takes buffers from the blocks of other files, and writes their
changes to their stores. All of these blocks read as before, whatever is refused and whatever is
done to the file.

## Main definitions

* `Mount.Apart` — two files with volumes of their own.
* `Mount.Spared` — the blocks of a file read as before.
* `Buffered.Ready` — a cache of any number of files, between two calls.
* `Buffered.Spares` — what becomes of all volumes but some.

## Main statements

* `Cache.Steps.spared` — work for one file spares the others.
* `Cache.Steps.contents` — it leaves the volumes alone that no open file has.
* `Cache.purge_ends` — so does releasing all blocks that are not in use.
* `Buffered.spares_steps`, `Buffered.spares_disk`, `Buffered.Ready.spares_register`,
  `Buffered.spares_dropFile`, `Buffered.spares_purged` — what spares the others.
-/

namespace PagedIndex

/-- A file that has nothing in common with another one: neither the number in the cache nor the
volume. -/
structure Mount.Apart (m other : Mount) : Prop where
  file : m.file ≠ other.file
  volume : m.store.volume ≠ other.store.volume

/-- The blocks of a file read as before. -/
structure Mount.Spared (m : Mount) (out : Option Nat) (s t : Buffered) : Prop where
  intact : m.Intact none out t
  keeps : m.KeepsBut none s t

namespace Mount

variable {m other : Mount} {s t u : Buffered} {out out' : Option Nat}

theorem Moves.spared (h : m.Moves out s t) : m.Spared out s t := ⟨h.intact, h.keeps⟩

theorem Spared.refl (h : m.Intact none out s) : m.Spared out s s := ⟨h, .refl s⟩

theorem Spared.trans (h : m.Spared out s t) (h' : m.Spared out' t u) : m.Spared out' s u :=
  ⟨h'.intact, h.keeps.trans h'.keeps⟩

end Mount

namespace Cache

variable {m other : Mount} {V : BlockPos → Prop} {W : BlockPos → Bytes → Prop}
  {σ τ : Option Nat × Buffered} {s t : Buffered}

/-- What a step leaves that takes no block away from the file `m`. -/
theorem Step.spared_of_held (h : Step other V W σ τ) (hapart : m.Apart other)
    (hintact : m.Intact none σ.1 σ.2) (hstore : σ.2.cache.store? other.file = some other.store)
    (hdisk : τ.2.disk.contents m.store.volume = σ.2.disk.contents m.store.volume)
    (hheld : ∀ j b, σ.2.cache.buffer? j = some b → b.file = m.file →
      τ.2.cache.buffer? j = some b) : m.Spared τ.1 σ.2 τ.2 := by
  obtain ⟨hcapacity, hstores, -⟩ := h.registered
  have hsound := h.sound hintact.sound hstore
  have hback : ∀ j b, τ.2.cache.buffer? j = some b → b.file ≠ other.file →
      σ.2.cache.buffer? j = some b := fun j b hb hne =>
    (h.buffers hb).resolve_right fun hown => hne hown.1
  have hown : ∀ j b, τ.2.cache.buffer? j = some b → b.file = m.file →
      σ.2.cache.buffer? j = some b := fun j b hb hfile =>
    hback j b hb (hfile ▸ hapart.file)
  refine ⟨⟨hsound, hcapacity ▸ hintact.enough, hintact.size_pos, ?_, hdisk ▸ hintact.header,
    (hstores _).trans hintact.store, fun j b hb hfile => hintact.whole j b (hown j b hb hfile) hfile,
    fun j b store hb hd hfile hs => ?_, fun j b hb hfile hd hne => ?_⟩, fun p x _ _ hx => ?_⟩
  · exact h.reaches.follows.size ▸ hintact.volume_lt
  · rw [hstores] at hs
    by_cases hother : b.file = other.file
    · rw [hother, hstore] at hs
      cases hs
      exact hapart.volume.symm
    · exact hintact.apart j b store (hback j b hb hother) hd hfile hs
  · rw [Mount.stored_congr hdisk]
    exact hintact.clean j b (hown j b hb hfile) hfile hd hne
  · rw [← hx]
    exact Mount.content_congr hintact.sound hsound hdisk
      (fun j b hb hfile => ⟨b, hheld j b hb hfile, rfl, rfl, rfl⟩)
      (fun j b hb hfile => ⟨b, hown j b hb hfile, rfl, rfl⟩) p

/-- A step of the work for one file spares the others. -/
theorem Step.spared (h : Step other V W σ τ) (hapart : m.Apart other)
    (hintact : m.Intact none σ.1 σ.2)
    (hstore : σ.2.cache.store? other.file = some other.store) : m.Spared τ.1 σ.2 τ.2 := by
  have hheld := h.spared_of_held hapart hintact hstore
  -- a change of a buffer of the other file is none of a buffer of this one
  have hmodify : ∀ {i : Nat} {c : Cache} {f : Buffer → Buffer},
      (∀ b, c.buffer? i = some b → b.file = other.file) → ∀ j b, c.buffer? j = some b →
        b.file = m.file → (c.modifyBuffer i f).buffer? j = some b := by
    intro i c f hi j b hb hfile
    rw [buffer?_modifyBuffer, if_neg]
    · exact hb
    · rintro rfl
      exact hapart.file (hfile.symm.trans (hi b hb))
  have hhook : ∀ {s : Buffered} {i : Nat} {b' : Buffer}, s.cache.Sound (some i) →
      ∀ j b, s.cache.buffer? j = some b → (s.cache.hook i b').buffer? j = some b := by
    intro s i b' hsound j b hb
    obtain ⟨hlt, hvacant⟩ := hsound.out_vacant i rfl
    rw [buffer?_hook hlt, if_neg]
    · exact hb
    · rintro rfl
      rw [hvacant] at hb
      cases hb
  cases h with
  | count | touch | note | takeFree | giveBack => exact hheld rfl fun _ _ hb _ => hb
  | pin hb => exact hheld rfl (hmodify hb)
  | edit hb => exact hheld rfl (hmodify fun b h => (hb b h).1)
  | ask access offset length =>
    exact hheld ((Store.ask_ends _ _ _ _ _).ending.2.1 _) fun _ _ hb _ => hb
  | through =>
    exact hheld ((Store.write_ends _ _ _ _).ending.apart _ hapart.volume) fun _ _ hb _ => hb
  | @refused out s i b store e d hb hs hwrite =>
    have hw := (Store.write_ends _ _ _ _).of_error hwrite
    refine hheld ?_ fun _ _ hb _ => hb
    by_cases hv : m.store.volume = store.volume
    · rw [hv]
      exact hw.error e rfl
    · exact hw.apart _ hv
  | @unhook s i b hb hown =>
    exact (Mount.Moves.unhook hintact hb
      (fun hfile => Bool.eq_false_iff.mpr fun hd => hapart.file (hfile.symm.trans (hown hd))) _).spared
  | @writeOut s i b store d hb hdirty hs hwrite =>
    have hw := (Store.write_ends _ _ _ _).of_ok hwrite
    have hclean : (s.cache.clean i).buffer? i = some { b with dirty := false } := by
      rw [buffer?_clean, if_pos rfl, hb]
      rfl
    have hmoves := Mount.Moves.of_written hintact hb hw.follows (fun hfile => ?_)
      (fun hfile => hw.apart _ (hintact.apart i b store hb hdirty hfile hs).symm)
      (s.cache.writes + 1)
    · exact (hmoves.trans (.unhook hmoves.intact hclean (fun _ => rfl) _)).spared
    · have hstore' : store = m.store := by
        have := hintact.store
        rw [← hfile, hs] at this
        exact Option.some.inj this
      subst hstore'
      refine hw.ok rfl hintact.volume_lt fun hnil => ?_
      have hlen := (hintact.whole i b hb hfile).2
      rw [hnil] at hlen
      exact absurd hintact.size_pos (by rw [← hlen]; exact Nat.lt_irrefl 0)
  | @load s i pos image d habsent _ hread =>
    refine hheld ?_ fun j b hb _ => hhook hintact.sound j b hb
    rw [(readImage_asks _ _ _ _).of_ok hread]
    exact (Store.ask_ends _ _ _ _ _).ending.2.1 _
  | fill => exact hheld rfl fun j b hb _ => hhook hintact.sound j b hb

/-- Work for one file spares the others. -/
theorem Through.spared (h : Through other V W σ τ) (hapart : m.Apart other)
    (hintact : m.Intact none σ.1 σ.2)
    (hstore : σ.2.cache.store? other.file = some other.store) :
    m.Spared τ.1 σ.2 τ.2 ∧ τ.2.cache.store? other.file = some other.store := by
  induction h with
  | refl => exact ⟨.refl hintact, hstore⟩
  | tail _ hstep ih =>
    obtain ⟨hspared, hstore⟩ := ih
    exact ⟨hspared.trans (hstep.spared hapart hspared.intact hstore),
      (hstep.registered.2.1 _).trans hstore⟩

theorem Steps.spared (h : Steps other V W s t) (hapart : m.Apart other) (hintact : m.Intact none none s)
    (hstore : s.cache.store? other.file = some other.store) : m.Spared none s t :=
  (Through.spared h hapart hintact hstore).1

/-! ## Volumes without an open file -/

/-- A volume that no open file has. -/
def Untaken (c : Cache) (id : Nat) : Prop := ∀ f store, c.store? f = some store → store.volume ≠ id

/-- A step writes only to volumes of open files. -/
theorem Step.contents (h : Step m V W σ τ) (hstore : σ.2.cache.store? m.file = some m.store)
    {id : Nat} (hid : σ.2.cache.Untaken id) : τ.2.disk.contents id = σ.2.disk.contents id := by
  cases h with
  | ask access offset length => exact (Store.ask_ends _ _ _ _ _).ending.2.1 _
  | through =>
    exact (Store.write_ends _ _ _ _).ending.apart _ (hid _ _ hstore).symm
  | refused hb hs hwrite =>
    exact ((Store.write_ends _ _ _ _).of_error hwrite).apart _ (hid _ _ hs).symm
  | writeOut hb hdirty hs hwrite =>
    exact ((Store.write_ends _ _ _ _).of_ok hwrite).apart _ (hid _ _ hs).symm
  | load habsent _ hread =>
    rw [(readImage_asks _ _ _ _).of_ok hread]
    exact (Store.ask_ends _ _ _ _ _).ending.2.1 _
  | _ => rfl

/-- So does all work for a file. -/
theorem Steps.contents (h : Steps m V W s t) (hstore : s.cache.store? m.file = some m.store)
    {id : Nat} (hid : s.cache.Untaken id) : t.disk.contents id = s.disk.contents id := by
  have hall : ∀ τ, Through m V W (none, s) τ → τ.2.disk.contents id = s.disk.contents id ∧
      ∀ f, τ.2.cache.store? f = s.cache.store? f := by
    intro τ hτ
    induction hτ with
    | refl => exact ⟨rfl, fun _ => rfl⟩
    | tail _ hstep ih =>
      obtain ⟨hdisk, hstores⟩ := ih
      refine ⟨(hstep.contents ((hstores _).trans hstore) fun f store hs => ?_).trans hdisk,
        fun f => (hstep.registered.2.1 f).trans (hstores f)⟩
      exact hid f store ((hstores f).symm.trans hs)
  exact (hall _ h).1

/-! ## Releasing what is not in use -/

structure Purged (s t : Buffered) : Prop where
  follows : s.Follows t
  sound : t.cache.Sound none
  safe : t.Safe
  buffers : ∀ j b, t.cache.buffer? j = some b → s.cache.buffer? j = some b
  contents : ∀ id, s.cache.Untaken id → t.disk.contents id = s.disk.contents id
  spared : ∀ m : Mount, m.Intact none none s → m.Spared none s t

theorem Purged.refl (hsound : s.cache.Sound none) (hsafe : s.Safe) : Purged s s :=
  ⟨.refl s, hsound, hsafe, fun _ _ => id, fun _ _ => rfl, fun _ h => .refl h⟩

theorem Purged.trans {u : Buffered} (h : Purged s t) (h' : Purged t u) : Purged s u :=
  ⟨h.follows.trans h'.follows, h'.sound, h'.safe,
    fun j b hb => h.buffers j b (h'.buffers j b hb),
    fun id hid => (h'.contents id fun f store hs =>
      hid f store ((h.follows.stores f).symm.trans hs)).trans (h.contents id hid),
    fun m hm => (h.spared m hm).trans (h'.spared m (h.spared m hm).intact)⟩

theorem releaseBuffer_purged (hsound : s.cache.Sound none) (hsafe : s.Safe) {i : Nat} {b : Buffer}
    (hb : s.cache.buffer? i = some b) :
    Ends (releaseBuffer .flush i) s fun r t => r = .ok (.ok ()) ∧ Purged s t := by
  obtain ⟨reg, hreg⟩ := Option.isSome_iff_exists.mp (hsound.registered i b hb)
  have hstore : s.cache.store? b.file = some reg.store := by
    unfold store?
    rw [hreg]
    rfl
  -- whatever file the work is said to be for, it leaves the registrations of all others alone
  have hbeside : Ends (releaseBuffer .flush i) s fun _ t =>
      ∀ f, Buffered.Beside f (fun _ => False) s t :=
    Ends.all fun _ => releaseBuffer_beside .flush i
  have hflush : ∀ {p : Prop}, Release.flush = .discard → p := nofun
  have hspared : Ends (releaseBuffer .flush i) s fun _ t =>
      ∀ m : Mount, m.Intact none none s → m.Spared none s t := by
    refine Ends.all fun m => ?_
    by_cases hm : m.Intact none none s
    · refine (Mount.releaseBuffer_ends hm hb hflush).mono fun r t h _ => ?_
      exact h.choose_spec.2.moves.spared
    · exact (releaseBuffer_flushable hsafe.flushable .flush i).mono fun r t _ h => absurd h hm
  have hsteps := releaseBuffer_steps (m := ⟨b.file, reg.store, 0⟩) (V := fun _ => False)
    (W := fun _ _ => False)
    hsound hb
    hflush
  refine ((releaseBuffer_flushable hsafe.flushable .flush i).and
    (hbeside.and (hspared.and hsteps))).mono ?_
  rintro r t ⟨hr, hbeside, hspared, hsteps, hbuffers, -⟩
  have hfollows : s.Follows t := ⟨hsteps.reaches.follows, hsteps.registered.1,
    fun f => (hbeside (f + 1)).registration f (Nat.ne_of_lt (Nat.lt_succ_self f))⟩
  exact ⟨hr, hfollows, hsteps.sound hsound hstore,
    hsafe.follows hfollows fun j b hb hd => ⟨b, hbuffers j b hb, hd, rfl, rfl, rfl⟩, hbuffers,
    fun id hid => hsteps.contents hstore hid, hspared⟩

theorem purgeAmong_purged (hsound : s.cache.Sound none) (hsafe : s.Safe) (buffers : List Nat) :
    Ends (purgeAmong buffers) s fun r t => (∃ n, r = .ok n) ∧ Purged s t := by
  induction buffers generalizing s with
  | nil => exact ⟨⟨0, rfl⟩, .refl hsound hsafe⟩
  | cons i rest ih =>
    unfold purgeAmong
    refine Ends.get_bind ?_
    split
    · exact ih hsound hsafe
    · next b hb =>
      split
      · exact ih hsound hsafe
      · refine Ends.bind (releaseBuffer_purged hsound hsafe hb) (fun e t h => nomatch h.1) ?_
        rintro o t ⟨ho, hpurged⟩
        cases ho
        refine Ends.bind (ih hpurged.sound hpurged.safe) ?_ ?_
        · rintro e u ⟨⟨n, hn⟩, -⟩
          cases hn
        · rintro n u ⟨-, hrest⟩
          exact ⟨⟨n + 1, rfl⟩, hpurged.trans hrest⟩

/-- Releasing all blocks that are not in use writes their changes back. -/
theorem purge_ends (hsound : s.cache.Sound none) (hsafe : s.Safe) :
    Ends purge s fun r t => (∃ n, r = .ok n) ∧ Purged s t := by
  unfold purge
  exact Ends.get_bind (purgeAmong_purged hsound hsafe _)

/-! ## Files come and go -/

theorem releaseAmong_of_idle {file : FileId} (h : s.Idle file) (mode : Release)
    (buffers : List Nat) : releaseAmong file mode buffers s = .ok (.ok ()) s := by
  induction buffers with
  | nil => rfl
  | cons i rest ih =>
    have hnot : ¬((s.cache.buffer? i).any fun b => b.file == file) = true := by
      rw [Option.any_eq_true]
      rintro ⟨b, hb, hfile⟩
      exact h i b hb (beq_iff_eq.mp hfile)
    unfold releaseAmong
    show (if _ then _ else _ : CacheM _) s = _
    rw [if_neg hnot]
    exact ih

def dropFile (c : Cache) (file : FileId) : Cache :=
  { c with files := c.files.filter (·.1 != file) }

/-- A file of which nothing is cached is given up. -/
theorem unregister_ends {file : FileId} (h : s.Idle file) :
    Ends (unregister file) s fun r t => r = .ok () ∧ t = ⟨s.cache.dropFile file, s.disk⟩ := by
  have hrelease : Ends (release file .discard) s fun _ t => t = s := by
    unfold release
    refine Ends.get_bind (Ends.bind (ends_of_eq_ok (releaseAmong_of_idle h _ _)
      (Q := fun r t => r = .ok (.ok ()) ∧ t = s) ⟨rfl, rfl⟩) (fun e t h => nomatch h.1) ?_)
    rintro o t ⟨ho, rfl⟩
    exact ends_settle rfl
  unfold unregister
  refine Ends.attempt_bind hrelease ?_
  rintro r t rfl
  exact update_ends ⟨rfl, rfl⟩

/-- Blocks are dropped without an access to a store. -/
theorem release_discard_ends (s : Buffered) (file : FileId) :
    Ends (release file .discard) s fun r t => r = .ok () ∧ t.disk = s.disk ∧ t.Idle file ∧
      ∀ f, t.cache.store? f = s.cache.store? f := by
  have hall : ∀ (buffers : List Nat) (s : Buffered), Ends (releaseAmong file .discard buffers) s
      fun r t => r = .ok (.ok ()) ∧ t.disk = s.disk := by
    intro buffers
    induction buffers with
    | nil => exact fun s => ⟨rfl, rfl⟩
    | cons i rest ih =>
      intro s
      unfold releaseAmong
      refine Ends.get_bind ?_
      dsimp only
      split
      · have hone : Ends (releaseBuffer .discard i) s fun r t => r = .ok (.ok ()) ∧ t.disk = s.disk :=
          ⟨rfl, rfl⟩
        refine Ends.bind hone (fun e t h => by cases h.1) ?_
        rintro first t ⟨hfirst, hdisk⟩
        cases hfirst
        refine Ends.bind (ih t) (fun e u h => by cases h.1) ?_
        rintro others u ⟨hothers, hdisk'⟩
        cases hothers
        exact ⟨rfl, hdisk'.trans hdisk⟩
      · exact ih s
  have hrelease : Ends (release file .discard) s fun r t => r = .ok () ∧ t.disk = s.disk := by
    unfold release
    refine Ends.get_bind (Ends.bind (hall _ s) (fun e t h => by cases h.1) ?_)
    rintro o t ⟨ho, hdisk⟩
    cases ho
    exact ends_settle ⟨rfl, hdisk⟩
  refine (hrelease.and ((release_idle file .discard).and
    (@release_beside file (fun _ => False) s file .discard))).mono ?_
  rintro r t ⟨⟨hr, hdisk⟩, hidle, hbeside⟩
  exact ⟨hr, hdisk, hidle hr, hbeside.store⟩

theorem registration?_dropFile {c : Cache} {file f : FileId} :
    (c.dropFile file).registration? f = if f = file then none else c.registration? f :=
  lookup_filter_ne c.files file f

theorem store?_dropFile {c : Cache} {file f : FileId} (h : f ≠ file) :
    (c.dropFile file).store? f = c.store? f := by
  unfold store?
  rw [registration?_dropFile, if_neg h]

/-- A file is given up, and the changes with it that are only in the cache. -/
theorem unregister_told (s : Buffered) (file : FileId) : Ends (unregister file) s fun r t =>
    r = .ok () ∧ t.disk = s.disk ∧ t.Idle file ∧ ∀ f, f ≠ file →
      t.cache.store? f = s.cache.store? f := by
  unfold unregister
  refine Ends.attempt_bind (release_discard_ends s file) ?_
  rintro o t ⟨-, hdisk, hidle, hstores⟩
  exact update_ends (f := fun c => c.dropFile file) ⟨rfl, hdisk, hidle,
    fun f hf => (store?_dropFile hf).trans (hstores f)⟩

theorem Sound.dropFile {file : FileId} (h : s.cache.Sound none) (hidle : s.Idle file) :
    (s.cache.dropFile file).Sound none := by
  refine h.congr rfl rfl rfl rfl fun i b hb => ?_
  rw [registration?_dropFile, if_neg (hidle i b hb)]
  exact h.registered i b hb

/-- The files that stay are those they were. -/
theorem spared_dropFile {file : FileId} (hidle : s.Idle file) (hfile : m.file ≠ file)
    (h : m.Intact none none s) : m.Spared none s ⟨s.cache.dropFile file, s.disk⟩ := by
  refine ⟨⟨h.sound.dropFile hidle, h.enough, h.size_pos, h.volume_lt, h.header,
    (store?_dropFile hfile).trans h.store, h.whole, fun i b store hb hd hne hstore => ?_, h.clean⟩,
    fun p x _ _ hx => hx⟩
  rw [store?_dropFile (hidle i b hb)] at hstore
  exact h.apart i b store hb hd hne hstore

/-- So they are when another one is taken up. -/
theorem spared_register {store : Store} (hnew : s.Idle s.cache.freshFile)
    (hfile : m.file ≠ s.cache.freshFile) (h : m.Intact none none s) :
    m.Spared none s ⟨(s.cache.register store).2, s.disk⟩ := by
  refine ⟨⟨h.sound.register store, h.enough, h.size_pos, h.volume_lt, h.header,
    (store?_register hfile).trans h.store, h.whole, fun i b other hb hd hne hother => ?_, h.clean⟩,
    fun p x _ _ hx => hx⟩
  rw [store?_register (hnew i b hb)] at hother
  exact h.apart i b other hb hd hne hother

theorem registration?_register {c : Cache} {store : Store} {f : FileId} (h : f ≠ c.freshFile) :
    (c.register store).2.registration? f = c.registration? f := by
  simp only [registration?, register, List.lookup_cons, beq_eq_false_iff_ne.mpr h]

theorem ne_freshFile {c : Cache} {store : Store} {f : FileId} (h : c.store? f = some store) :
    f ≠ c.freshFile := by
  rintro rfl
  simp [store?, registration?_freshFile] at h

theorem store?_register_self {c : Cache} {store : Store} :
    (c.register store).2.store? c.freshFile = some store := by
  simp [store?, registration?, register]

end Cache

/-! ## Caches of several files -/

namespace Buffered

variable {own own' : Nat → Prop} {s t u : Buffered} {m : Mount} {V : BlockPos → Prop}
  {W : BlockPos → Bytes → Prop} {d : Disk} {store : Store} {file : FileId}

/-- A cache over a disk between two calls. All changes can be written. -/
structure Ready (s : Buffered) : Prop where
  sound : s.cache.Sound none
  enough : minBuffers ≤ s.cache.capacity
  unpinned : Session.Unpinned s
  safe : s.Safe

/-- What becomes of the volumes that are not among those in `own`: the blocks of open files read as
before, and the volumes that no open file has are as they were. -/
structure Spares (own : Nat → Prop) (s t : Buffered) : Prop where
  follows : s.disk.Follows t.disk
  files : ∀ m : Mount, ¬own m.store.volume → m.Intact none none s →
    m.Spared none s t ∧ t.cache.registration? m.file = s.cache.registration? m.file
  volumes : ∀ id, ¬own id → s.cache.Untaken id →
    t.cache.Untaken id ∧ t.disk.contents id = s.disk.contents id

theorem Spares.trans (h : s.Spares own t) (h' : t.Spares own u) : s.Spares own u := by
  refine ⟨h.follows.trans h'.follows, fun m hm hintact => ?_, fun id hid hs => ?_⟩
  · obtain ⟨hspared, hreg⟩ := h.files m hm hintact
    obtain ⟨hspared', hreg'⟩ := h'.files m hm hspared.intact
    exact ⟨hspared.trans hspared', hreg'.trans hreg⟩
  · obtain ⟨ht, hsame⟩ := h.volumes id hid hs
    obtain ⟨hu, hsame'⟩ := h'.volumes id hid ht
    exact ⟨hu, hsame'.trans hsame⟩

/-! ### Work for one file -/

theorem spares_steps (h : Cache.Steps m V W s t) (hstore : s.cache.store? m.file = some m.store) :
    s.Spares (· = m.store.volume) t := by
  obtain ⟨-, hstores, hothers⟩ := h.registered
  refine ⟨(Cache.Through.reaches h).follows, fun m' hm hintact => ?_, fun id hid hs => ?_⟩
  · have hfile : m'.file ≠ m.file := by
      intro heq
      have hown := hintact.store
      rw [heq, hstore] at hown
      exact hm (congrArg Store.volume (Option.some.inj hown).symm)
    exact ⟨h.spared ⟨hfile, hm⟩ hintact hstore, hothers _ hfile⟩
  · exact ⟨fun f store hf => hs f store ((hstores f).symm.trans hf), h.contents hstore hs⟩

theorem Ready.steps (hs : s.Ready) (h : Cache.Steps m V W s t)
    (hstore : s.cache.store? m.file = some m.store) (hsafe : t.Safe)
    (hunpinned : Session.Unpinned t) : t.Ready := by
  exact ⟨h.sound hs.sound hstore, h.registered.1 ▸ hs.enough, hunpinned, hsafe⟩

/-! ### Accesses to the disk -/

theorem spares_disk (hfollows : s.disk.Follows d)
    (hcontents : ∀ id, ¬own id → d.contents id = s.disk.contents id) :
    s.Spares own ⟨s.cache, d⟩ :=
  ⟨hfollows, fun _ hm hintact => ⟨(Mount.Moves.of_disk hintact hfollows (hcontents _ hm)).spared, rfl⟩,
    fun id hid hs => ⟨hs, hcontents id hid⟩⟩

theorem Ready.disk (hs : s.Ready) (hfollows : s.disk.Follows d) : Ready ⟨s.cache, d⟩ :=
  ⟨hs.sound, hs.enough, hs.unpinned,
    hs.safe.follows ⟨hfollows, rfl, fun _ => rfl⟩ fun _ b hb hd => ⟨b, hb, hd, rfl, rfl, rfl⟩⟩

/-! ### Files come and go -/

theorem Ready.spares_register (hs : s.Ready) (store : Store) :
    s.Spares (· = store.volume) ⟨(s.cache.register store).2, s.disk⟩ := by
  refine ⟨.refl _, fun m hm hintact => ?_, fun id hid hu => ⟨fun f other hf => ?_, rfl⟩⟩
  · have hfile : m.file ≠ s.cache.freshFile := Cache.ne_freshFile hintact.store
    exact ⟨Cache.spared_register (idle_freshFile hs.sound) hfile hintact,
      Cache.registration?_register hfile⟩
  · by_cases hfile : f = s.cache.freshFile
    · rw [hfile, Cache.store?_register_self] at hf
      cases hf
      exact fun h => hid h.symm
    · rw [Cache.store?_register hfile] at hf
      exact hu f other hf

theorem Ready.register (hs : s.Ready) (store : Store) :
    Ready ⟨(s.cache.register store).2, s.disk⟩ := by
  refine ⟨hs.sound.register store, hs.enough, hs.unpinned, fun i b hb hd => ?_⟩
  obtain ⟨other, hother, hwritten⟩ := hs.safe i b hb hd
  exact ⟨other, (Cache.store?_register (idle_freshFile hs.sound i b hb)).trans hother, hwritten⟩

theorem spares_dropFile (hidle : s.Idle file) (hstore : s.cache.store? file = some store) :
    s.Spares (· = store.volume) ⟨s.cache.dropFile file, s.disk⟩ := by
  refine ⟨.refl _, fun m hm hintact => ?_, fun id hid hu => ⟨fun f other hf => ?_, rfl⟩⟩
  · have hfile : m.file ≠ file := by
      intro heq
      have hown := hintact.store
      rw [heq, hstore] at hown
      cases hown
      exact hm rfl
    exact ⟨Cache.spared_dropFile hidle hfile hintact,
      Cache.registration?_dropFile.trans (if_neg hfile)⟩
  · by_cases hfile : f = file
    · simp [Cache.store?, Cache.registration?_dropFile, hfile] at hf
    · rw [Cache.store?_dropFile hfile] at hf
      exact hu f other hf

theorem Ready.dropFile (hs : s.Ready) (hidle : s.Idle file) :
    Ready ⟨s.cache.dropFile file, s.disk⟩ := by
  refine ⟨hs.sound.dropFile hidle, hs.enough, hs.unpinned, fun i b hb hd => ?_⟩
  obtain ⟨other, hother, hwritten⟩ := hs.safe i b hb hd
  exact ⟨other, (Cache.store?_dropFile (hidle i b hb)).trans hother, hwritten⟩

/-! ### Releasing what is not in use -/

theorem spares_purged (h : Cache.Purged s t) : s.Spares (fun _ => False) t :=
  ⟨h.follows.disk, fun m _ hintact => ⟨h.spared m hintact, h.follows.registration _⟩,
    fun id _ hs => ⟨fun f store hf => hs f store ((h.follows.stores f).symm.trans hf),
      h.contents id hs⟩⟩

theorem Ready.purged (hs : s.Ready) (h : Cache.Purged s t) : t.Ready := by
  exact ⟨h.sound, h.follows.capacity ▸ hs.enough, fun i b hb => hs.unpinned i b (h.buffers i b hb),
    h.safe⟩

/-- A new cache is ready. -/
theorem ready_new (buffers : Nat) (d : Disk) : Ready ⟨Cache.new buffers, d⟩ := by
  have hvacant : ∀ i b, (Cache.new buffers).buffer? i ≠ some b := by
    intro i b hb
    rw [Cache.buffer?_new] at hb
    cases hb
  exact ⟨Cache.sound_new buffers, Cache.minBuffers_le_capacity_new buffers,
    fun i b hb => absurd hb (hvacant i b), fun i b hb => absurd hb (hvacant i b)⟩

end Buffered

end PagedIndex
