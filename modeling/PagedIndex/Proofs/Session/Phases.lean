import PagedIndex.Proofs.Codec.Blocks
import PagedIndex.Proofs.Session.Runs

/-!
# The phases of a call

A call begins on blocks that lie in the cache and the store, and it sees them as they lie. When its
program has ended the chain pointers go into the header block, and the blocks of the file stay
cached or are written back. If anything fails on the way the call is taken back.

## Main definitions

* `Session.BlocksAs` — the blocks of a file between two calls; `Session.ReliableBlocksAs` if no
  access is refused.
* `Session.Backed` — a call whose changes can all be written.

## Main statements

* `Session.start_ends`, `Session.BlocksAs.sees` — a call begins with the blocks as they lie.
* `Session.Sees.complete` — a call is completed.
* `Session.BlocksAs.rollBack` — a call is taken back.
-/

namespace PagedIndex

namespace Session

variable {m : Mount} {σ τ : Session × Buffered} {s t : Buffered} {α : Type} {hw : BlockPos}
  {before : BlockPos → Option Bytes} {v w : View} {format : Format} {l : Layout}

/-! ## The beginning -/

structure Begun (m : Mount) (new : Session) (s : Buffered) (r : Except Error Unit)
    (τ : Session × Buffered) : Prop where
  session : ∃ held pointers highWater, τ.1 =
    { new with held := held, pointers := pointers, highWater := highWater }
  intact : m.Intact none none τ.2
  pins : Pins m τ
  follows : s.Follows τ.2
  beside : Buffered.Beside m.file (fun _ => False) s τ.2
  keeps : m.KeepsBut none s τ.2
  safe : s.Safe → τ.2.Safe
  error : ∀ e, r = .error e → τ.1.highWater = new.highWater
  ok : r = .ok () → τ.1.highWater = τ.1.pointers.highWater ∧
    ∃ i b, τ.1.held.get .header = some i ∧ τ.2.cache.buffer? i = some b ∧ b.pos = .null ∧
      Pointers.read new.layout.format b.image = τ.1.pointers
  reliable : s.Safe → m.store.Reliable s.disk → m.blockSize < Store.offsetBound →
    (m.content s .null).isSome → r = .ok ()

theorem unpinned_of_released {r : Except Error Unit} (h : Unpinned s) (hr : m.Released s r t) :
    Unpinned t := by
  intro i b hb
  cases hp : b.pinned with
  | false => rfl
  | true =>
    obtain ⟨b', hb', hp'⟩ := hr.pinned_back i b hb hp
    rw [h i b' hb'] at hp'
    cases hp'

theorem loadHeader_ends {new : Session} (hfile : new.file = m.file)
    (hsize : new.layout.blockSize = m.blockSize) (hheld : new.held = {})
    (hintact : m.Intact none none s) (hunpinned : Unpinned s) :
    Ends (do
      load .header .null true
      let (_, header) ← holding .header
      let p := Pointers.read new.layout.format header.image
      update fun s => { s with pointers := p, highWater := p.highWater }) (new, s)
      (Begun m new s) := by
  have hpins : Pins m (new, s) := by
    refine ⟨fun i hi => ?_, fun i b hb hp => ?_⟩
    · rw [hheld] at hi
      cases hi
    · rw [hunpinned i b hb] at hp
      cases hp
  refine Ends.bind ((load_ends (σ := (new, s)) hfile hsize hintact hpins (Nat.dvd_zero _) .header
    true).and (load_beside (D := fun _ => False) hfile hpins hintact.sound .header .null true)) ?_ ?_
  · rintro e τ ⟨hl, hbeside⟩
    obtain ⟨held, hsession⟩ := hl.session
    exact ⟨⟨held, new.pointers, new.highWater, hsession⟩, hl.error e rfl, hl.pins,
      hl.follows, hbeside, hl.keeps, hl.safe, fun _ _ => by rw [hsession], fun h => (nomatch h),
      fun hs hrel hb hsome =>
        hl.reliable hs fun _ => ⟨hrel, by simpa [BlockPos.null] using hb, hsome⟩⟩
  · rintro ⟨⟩ τ ⟨hl, hbeside⟩
    obtain ⟨held, hsession⟩ := hl.session
    obtain ⟨hτ, i, b, hi, hb, hnull, -⟩ := hl.ok rfl
    refine Ends.bind (holding_ends hi hb) (fun e τ h => nomatch h.1) ?_
    rintro ib υ ⟨hib, rfl⟩
    cases hib
    obtain ⟨session, t⟩ := υ
    obtain rfl : session = _ := hsession
    refine ⟨⟨held, _, _, rfl⟩, hτ, ⟨hl.pins.held, hl.pins.pinned⟩, hl.follows, hbeside,
      hl.keeps, hl.safe, nofun, fun _ => ⟨rfl, i, b, hi, hb, hnull, rfl⟩, fun _ _ _ _ => rfl⟩

/-- A call begins with the blocks as they are. -/
theorem start_ends {new : Session} (hfile : new.file = m.file)
    (hsize : new.layout.blockSize = m.blockSize) (hheld : new.held = {})
    (hintact : m.Intact none none s) (hunpinned : Unpinned s) :
    Ends start (new, s) (Begun m new s) := by
  unfold start
  refine Ends.get_bind ?_
  cases hlocked : new.locked with
  | false =>
    simp only [hlocked, Bool.false_eq_true, if_false]
    exact loadHeader_ends hfile hsize hheld hintact hunpinned
  | true =>
    simp only [hlocked, if_true]
    refine Ends.bind (onCache_ends ((Mount.release_ends hintact new.file .flush nofun).and
      (@Cache.release_beside m.file (fun _ => False) s new.file .flush))) ?_ ?_
    · rintro e ⟨new, t⟩ ⟨rfl, hr, hbeside⟩
      refine ⟨⟨new.held, new.pointers, new.highWater, rfl⟩, hr.moves.intact,
        ⟨fun i hi => ?_, fun i b hb hp => ?_⟩, hr.moves.follows, hbeside, hr.moves.keeps,
        hr.moves.safe, fun _ _ => rfl, fun h => (nomatch h), fun hs _ _ _ => hr.reliable hs⟩
      · rw [show new.held = {} from hheld] at hi
        cases hi
      · rw [unpinned_of_released hunpinned hr i b hb] at hp
        cases hp
    · rintro ⟨⟩ ⟨new, t⟩ ⟨rfl, hr, hbeside⟩
      refine (loadHeader_ends hfile hsize hheld hr.moves.intact
        (unpinned_of_released hunpinned hr)).mono ?_
      rintro r τ hb
      refine ⟨hb.session, hb.intact, hb.pins, hr.moves.follows.trans hb.follows,
        hbeside.trans hb.beside, hr.moves.keeps.trans hb.keeps,
        fun hs => hb.safe (hr.moves.safe hs), hb.error, hb.ok, fun hs hrel hlt hsome => ?_⟩
      obtain ⟨x, hx⟩ := Option.isSome_iff_exists.mp hsome
      exact hb.reliable (hr.moves.safe hs) (hrel.follows hr.moves.follows.disk) hlt
        (by rw [hr.moves.keeps .null x (Nat.dvd_zero _) nofun hx]; rfl)

/-- The undo list of a call that has begun covers its changes, of which there are none. -/
theorem Begun.guard {new : Session} {r : Except Error Unit} (h : Begun m new s r τ)
    (hundo : new.undo = []) : Guard m (m.content s) τ.1.highWater τ := by
  obtain ⟨held, pointers, highWater, hsession⟩ := h.session
  have hnil : τ.1.undo = [] := by rw [hsession]; exact hundo
  have hnone : ∀ u ∈ τ.1.undo, False := by
    intro u hu
    rw [hnil] at hu
    cases hu
  refine ⟨rfl, by rw [hnil]; exact List.nodup_nil, fun u hu => (hnone u hu).elim,
    fun u hu => (hnone u hu).elim, fun u hu => (hnone u hu).elim,
    fun p x ha _ _ hx => h.keeps p x ha nofun hx, fun p ha _ hx => ?_⟩
  obtain ⟨x, hx⟩ := Option.isSome_iff_exists.mp hx
  rw [h.keeps p x ha nofun hx]
  rfl

/-! ## The end -/

structure WrappedUp (m : Mount) (mode : EndMode) (σ : Session × Buffered) (r : Except Error Unit)
    (τ : Session × Buffered) : Prop where
  session : τ.1 = { σ.1 with held := {}, undo := if r matches .ok () then [] else σ.1.undo }
  intact : m.Intact none none τ.2
  unpinned : Unpinned τ.2
  follows : σ.2.Follows τ.2
  beside : Buffered.Beside m.file (fun _ => False) σ.2 τ.2
  keeps : m.KeepsBut none σ.2 τ.2
  safe : σ.2.Safe → τ.2.Safe
  idle : mode = .flush → r = .ok () → τ.2.Idle m.file
  flushable : σ.2.Flushable → r = .ok ()

theorem wrapUp_ends (mode : EndMode) (hfile : σ.1.file = m.file)
    (hintact : m.Intact none none σ.2) (hpins : Pins m σ) : Ends (do
      letGoAll
      if mode = .flush then onCache (Cache.release σ.1.file .flush)
      update fun s => { s with undo := [] }) σ (WrappedUp m mode σ) := by
  rw [hfile]
  refine Ends.bind ((letGoAll_ends hintact hpins).and (letGoAll_beside (m := m) (D := fun _ => False)))
    (fun e τ h => nomatch h.1.1) ?_
  rintro ⟨⟩ ⟨session, t⟩ ⟨⟨-, rfl, halike, ht, hunpinned⟩, hbeside⟩
  have hkeeps : m.KeepsBut none σ.2 t := fun p x _ _ hx => (halike.content p).trans hx
  cases mode with
  | keep => exact ⟨rfl, ht, hunpinned, halike.follows, hbeside, hkeeps, halike.safe, nofun, fun _ =>
    rfl⟩
  | flush =>
    have hrelease := (Mount.release_ends ht m.file .flush nofun).and
      (Cache.release_clears m.file .flush)
    refine Ends.bind (onCache_ends hrelease) ?_ ?_
    · rintro e ⟨session, u⟩ ⟨rfl, hr, hbeside', -, hflushable⟩
      exact ⟨rfl, hr.moves.intact, unpinned_of_released hunpinned hr,
        halike.follows.trans hr.moves.follows, hbeside.trans hbeside',
        hkeeps.trans hr.moves.keeps, fun hs => hr.moves.safe (halike.safe hs), nofun,
        fun hs => hflushable (hbeside.flushable_of_unchanged hs)⟩
    · rintro ⟨⟩ ⟨session, u⟩ ⟨rfl, hr, hbeside', hidle, -⟩
      exact ⟨rfl, hr.moves.intact, unpinned_of_released hunpinned hr,
        halike.follows.trans hr.moves.follows, hbeside.trans hbeside',
        hkeeps.trans hr.moves.keeps, fun hs => hr.moves.safe (halike.safe hs),
        fun _ _ => hidle rfl, fun _ => rfl⟩

/-- The undo list still covers all changes if the blocks could not be written back. -/
theorem Guard.wrapUp {mode : EndMode} {e : Error} (h : Guard m before hw σ)
    (hw' : WrappedUp m mode σ (.error e) τ) :
    Guard m before hw τ := by
  have hsession := hw'.session
  simp only [Bool.false_eq_true, if_false] at hsession
  refine ⟨by rw [hsession]; exact h.mark, by rw [hsession]; exact h.nodup,
    by rw [hsession]; exact h.aligned, by rw [hsession]; exact h.kept,
    by rw [hsession]; exact h.added, fun p x ha hp hnot hx => ?_, fun p ha hp hx => ?_⟩
  · rw [hsession] at hnot
    exact hw'.keeps p x ha nofun (h.unchanged p x ha hp hnot hx)
  · obtain ⟨x, hx⟩ := Option.isSome_iff_exists.mp (h.present p ha hp hx)
    rw [hw'.keeps p x ha nofun hx]
    rfl

/-- What completing a call comes to if it fails: it can still be rolled back. -/
structure Uncompleted (m : Mount) (before : BlockPos → Option Bytes) (hw : BlockPos)
    (τ : Session × Buffered) : Prop where
  intact : m.Intact none none τ.2
  pins : Pins m τ
  guard : Guard m before hw τ

theorem wrapUp_guard (mode : EndMode) (hfile : σ.1.file = m.file)
    (hintact : m.Intact none none σ.2) (hpins : Pins m σ) (hguard : Guard m before hw σ) : Ends (do
      letGoAll
      if mode = .flush then onCache (Cache.release σ.1.file .flush)
      update fun s => { s with undo := [] }) σ fun r τ => τ.1.file = σ.1.file ∧
        τ.1.locked = σ.1.locked ∧ τ.1.layout = σ.1.layout ∧
          ∀ e, r = .error e → Uncompleted m before hw τ := by
  refine (wrapUp_ends mode hfile hintact hpins).mono fun r τ hτ => ?_
  refine ⟨by rw [hτ.session], by rw [hτ.session], by rw [hτ.session], ?_⟩
  rintro e rfl
  refine ⟨hτ.intact, ⟨fun i hi => ?_, fun i b hb hp => ?_⟩, hguard.wrapUp hτ⟩
  · rw [hτ.session] at hi
    cases hi
  · rw [hτ.unpinned i b hb] at hp
    cases hp

/-- A call that cannot be completed can be rolled back. -/
theorem complete_guard (mode : EndMode) (hfile : σ.1.file = m.file)
    (hintact : m.Intact none none σ.2) (hpins : Pins m σ) (hguard : Guard m before hw σ)
    (hwidth : 1 + 4 * σ.1.layout.format.positionWidth ≤ m.blockSize) :
    Ends (complete mode) σ fun r τ => τ.1.file = σ.1.file ∧ τ.1.locked = σ.1.locked ∧
      τ.1.layout = σ.1.layout ∧ ∀ e, r = .error e → Uncompleted m before hw τ := by
  unfold complete
  refine Ends.get_bind ?_
  cases hchanged : σ.1.pointersChanged with
  | false =>
    simp only [hchanged, Bool.false_eq_true, if_false]
    exact wrapUp_guard mode hfile hintact hpins hguard
  | true =>
    simp only [hchanged, if_true]
    cases hheld : σ.1.held.get .header with
    | none =>
      refine Ends.bind (P := fun r τ => (∃ e, r = .error e) ∧ τ = σ) ?_ ?_ ?_
      · unfold edit holding
        refine Ends.bind (P := fun r τ => (∃ e, r = .error e) ∧ τ = σ) (Ends.get_bind ?_)
          (fun e τ h => ⟨⟨e, rfl⟩, h.2⟩) (fun a τ h => nomatch h.1)
        simp only [hheld]
        exact Ends.throw ⟨⟨_, rfl⟩, rfl⟩
      · rintro e τ ⟨-, rfl⟩
        exact ⟨rfl, rfl, rfl, fun _ _ => ⟨hintact, hpins, hguard⟩⟩
      · rintro a τ ⟨⟨e, h⟩, -⟩
        cases h
    | some i =>
      obtain ⟨b, hb, hbfile, -⟩ := hpins.held i (Holdings.mem_toList.mpr ⟨.header, hheld⟩)
      obtain ⟨ha, hlen⟩ := hintact.whole i b hb hbfile
      have hlen' : (σ.1.pointers.write σ.1.layout.format b.image).1.length = b.image.length :=
        Pointers.length_write _ _ (by rw [hlen]; exact hwidth)
      have hspec := edit_ends hintact hpins hheld hb
        (show ∀ q, none = some q → q = b.pos from nofun) (hlen'.trans hlen)
      refine Ends.bind hspec ?_ ?_
      · rintro e τ ⟨-, he⟩
        obtain ⟨hf, hl, hlayout, -⟩ := he.same
        exact ⟨hf, hl, hlayout, fun _ _ =>
          ⟨he.intact, he.pins, hguard.edit hintact.sound he hb hbfile ha hlen⟩⟩
      · rintro ⟨⟩ ⟨session, t⟩ ⟨-, he⟩
        obtain ⟨hf, hl, hlayout, -⟩ := he.same
        have hg := hguard.edit hintact.sound he hb hbfile ha hlen
        have hwrap := wrapUp_guard (σ := ({ session with pointersChanged := false }, t)) mode
          (hf.trans hfile) he.intact (he.pins.session rfl) (hg.session rfl rfl)
        rw [show σ.1.file = session.file from hf.symm]
        refine Ends.modify_bind (hwrap.mono ?_)
        rintro r υ ⟨hf', hl', hlayout', hr⟩
        exact ⟨hf', hl'.trans hl, hlayout'.trans hlayout, fun e he' =>
          ⟨(hr e he').intact, (hr e he').pins, (hr e he').guard⟩⟩

/-! ## Between two calls -/

/-- The blocks of a file as in a view, over a cache and a store without failures. -/
structure ReliableBlocks (m : Mount) (format : Format) (v : View) (s : Buffered) : Prop where
  settled : v.Settled format m.blockSize
  intact : m.Intact none none s
  safe : s.Safe
  reliable : m.store.Reliable s.disk
  pending : ∀ r, s.cache.registration? m.file = some r → r.pending = none
  saved : ∃ x, m.content s .null = some x ∧ Pointers.read format x = v.pointers
  blocks : ∀ p x, v.blocks p = some x → p ≠ .null ∧ m.Aligned p ∧ m.content s p = some x

/-- The blocks of a file between two calls. -/
structure ReliableBlocksAs (m : Mount) (format : Format) (v : View) (s : Buffered) : Prop extends
    ReliableBlocks m format v s where
  unpinned : Unpinned s

/-- The blocks of a file between two calls, whatever the store may refuse. -/
structure BlocksAs (m : Mount) (format : Format) (v : View) (s : Buffered) : Prop where
  settled : v.Settled format m.blockSize
  intact : m.Intact none none s
  unpinned : Unpinned s
  pending : ∀ r, s.cache.registration? m.file = some r → r.pending = none
  saved : ∃ x, m.content s .null = some x ∧ Pointers.read format x = v.pointers
  blocks : ∀ p x, v.blocks p = some x → p ≠ .null ∧ m.Aligned p ∧ m.content s p = some x

theorem ReliableBlocksAs.blocksAs (h : ReliableBlocksAs m format v s) : BlocksAs m format v s :=
  ⟨h.settled, h.intact, h.unpinned, h.pending, h.saved, h.blocks⟩

theorem BlocksAs.reliableBlocksAs (h : BlocksAs m format v s) (hs : s.Safe)
    (hr : m.store.Reliable s.disk) :
    ReliableBlocksAs m format v s :=
  ⟨⟨h.settled, h.intact, hs, hr, h.pending, h.saved, h.blocks⟩, h.unpinned⟩

/-- The blocks of a memory area that a cache has just taken up. -/
theorem blocksAs_loaded {size : Nat} {c : Contents} {refusal : Access → Nat → Option IoCause}
    (hpos : 0 < size)
    (hsize : size ≤ c.size) (hv : v.Settled format size)
    (hsaved : Pointers.read format (c.read 0 size) = v.pointers)
    (hblocks : ∀ p x, v.blocks p = some x → p ≠ .null ∧ size ∣ p.offset ∧ p.offset + size ≤ c.size ∧
      c.read p.offset size = x) : BlocksAs (memoryMount size) format v (loaded c refusal) := by
  have hstored : ∀ p : BlockPos, p.offset + size ≤ c.size →
      (memoryMount size).content (loaded c refusal) p = some (c.read p.offset size) := fun p hp =>
    (content_loaded hpos hsize p).trans ((Mount.stored_eq_some_iff hpos).mpr ⟨hp, rfl⟩)
  refine ⟨hv, intact_loaded hpos hsize, unpinned_loaded, ?_, ⟨_, hstored .null ?_, hsaved⟩, ?_⟩
  · rintro r ⟨⟩
    rfl
  · rwa [show BlockPos.null.offset = 0 from rfl, Nat.zero_add]
  · intro p x hp
    obtain ⟨hnull, hdvd, hin, rfl⟩ := hblocks p x hp
    exact ⟨hnull, hdvd, hstored p hin⟩

theorem BlocksAs.bound (h : BlocksAs m format v s) : m.blockSize < Store.offsetBound := by
  have := h.settled.bound
  omega

/-- Blocks have moved, and nothing is changed. -/
structure Quiet (m : Mount) (s t : Buffered) : Prop extends m.Moves none s t where
  beside : Buffered.Beside m.file (fun _ => False) s t
  unpinned : Unpinned s → Unpinned t
  idle : s.Idle m.file → t.Idle m.file

theorem Quiet.refl (h : m.Intact none none s) : Quiet m s s := ⟨.refl h, .refl _, id, id⟩

theorem Quiet.trans {u : Buffered} (h : Quiet m s t) (h' : Quiet m t u) : Quiet m s u :=
  ⟨h.toMoves.trans h'.toMoves, h.beside.trans h'.beside, fun hs => h'.unpinned (h.unpinned hs),
    fun hs => h'.idle (h.idle hs)⟩

/-- Blocks lie as they do wherever they move. -/
theorem BlocksAs.quiet (h : BlocksAs m format v s) (hq : Quiet m s t) : BlocksAs m format v t := by
  obtain ⟨x, hx, hread⟩ := h.saved
  refine ⟨h.settled, hq.intact, hq.unpinned h.unpinned, fun r hr => ?_,
    ⟨x, hq.keeps _ x (Nat.dvd_zero _) nofun hx, hread⟩, fun p y hy => ?_⟩
  · rw [hq.follows.registration] at hr
    exact h.pending r hr
  · obtain ⟨hnull, ha, hcontent⟩ := h.blocks p y hy
    exact ⟨hnull, ha, hq.keeps p y ha nofun hcontent⟩

/-- No failure is kept for a call on blocks that lie between two calls. -/
theorem BlocksAs.takePending (h : BlocksAs m format v s) :
    Ends (Cache.takePending m.file) s fun r t => r = .ok none ∧ Quiet m s t := by
  refine (Cache.takePending_ends _).mono ?_
  rintro _ t ⟨rfl, rfl⟩
  have hnone : ∀ r, s.cache.registration? m.file = some r → { r with pending := none } = r :=
    fun r hr => by rw [← h.pending r hr]
  have hfollows : s.Follows ⟨s.cache.modifyFile m.file fun r => { r with pending := none },
    s.disk⟩ := by
    refine ⟨.refl _, rfl, fun file => ?_⟩
    rw [Cache.registration?_modifyFile]
    split
    · next heq =>
      subst heq
      exact (Option.map_congr hnone).trans Option.map_id'
    · rfl
  obtain ⟨hintact, hcontent⟩ := intact_modifyFile h.intact m.file
    (f := fun r => { r with pending := none }) fun _ => rfl
  have hmoves : m.Moves none s ⟨s.cache.modifyFile m.file fun r => { r with pending := none },
    s.disk⟩ :=
    ⟨hintact, fun p x _ _ hx => (hcontent p).trans hx, hfollows, fun hs =>
      hs.follows hfollows fun i b hb hd => ⟨b, hb, hd, rfl, rfl, rfl⟩⟩
  refine ⟨congrArg Except.ok ?_, hmoves, .modifyFile fun _ => rfl, id, id⟩
  exact Option.bind_eq_none_iff.mpr h.pending

/-- A store that is asked for its lock may refuse; nothing is changed either way. -/
theorem ask_quiet (h : m.Intact none none s) (access : Access) :
    Ends (Cache.onDisk (m.store.ask access 0 0)) s fun r t => Quiet m s t ∧
      ∀ e, r = .error e → m.store.Refuses s.disk access e := by
  refine (Cache.onDisk_ends ((Store.ask_ends m.store s.disk access 0 0).and
    (Store.ask_refused m.store s.disk access 0 0))).mono ?_
  rintro r ⟨c, d⟩ ⟨rfl, ⟨hf, hd, -⟩, hrefused⟩
  exact ⟨⟨.of_disk h hf (hd _), .of_disk hf, id, id⟩, hrefused⟩

/-- So may one that is to take it back. -/
theorem unlock_ends (h : m.Intact none none σ.2) :
    Ends (unlock m.store) σ fun r τ => Quiet m σ.2 τ.2 ∧
      ∀ e, r = .error e → σ.1.locked = true ∧ m.store.Refuses σ.2.disk .unlock e := by
  unfold unlock
  refine Ends.get_bind (Ends.modify_bind ?_)
  obtain ⟨session, t⟩ := σ
  cases hlocked : session.locked with
  | false =>
    simp only [Bool.false_eq_true, if_false]
    exact ⟨.refl h, nofun⟩
  | true =>
    simp only [if_true]
    refine (onCache_ends (σ := ({ session with locked := false }, t)) (ask_quiet h .unlock)).mono ?_
    rintro r ⟨session', u⟩ ⟨rfl, hq, hrefused⟩
    exact ⟨hq, fun e he => ⟨trivial, hrefused e he⟩⟩

/-! ## Beginning and completing -/

/-- All changes of a call can be written, and so can those that are made before it. -/
structure Backed (m : Mount) (σ : Session × Buffered) : Prop where
  flushable : σ.2.Flushable
  takes : σ.1.undo ≠ [] ∨ σ.1.pointersChanged = true → m.store.Takes σ.2.disk

/-- The changes that work for a file makes can be written if its store takes them. -/
theorem flushable_of_takes {s t : Buffered} (hs : s.Flushable) (hintact : m.Intact none none t)
    (hstore : s.cache.store? m.file = some m.store) (htakes : m.store.Takes s.disk)
    (h : Buffered.Beside m.file (fun p => p.offset + m.blockSize < Store.offsetBound) s t) :
    t.Flushable := by
  refine h.flushable hs fun i b hb hfile hbound => ⟨m.store, hstore, htakes, ?_⟩
  rw [(hintact.whole i b hb hfile).2]
  exact hbound

/-- A program whose changes the store takes, or that makes none, leaves no others. -/
theorem Sees.perform_backed {program : Program α} {r : Except Error α}
    (h : Sees m l before hw none v σ) (hruns : program.Runs m.blockSize v r w) :
    Ends (Session.perform program) σ fun o τ => Performed m l before hw none r w σ o τ ∧
      (Backed m σ → m.store.Takes σ.2.disk ∨ program.Views v r w → Backed m τ) := by
  have hperform := h.perform hruns
  have hintact : ∀ {o τ}, Performed m l before hw none r w σ o τ → m.Intact none none τ.2 := by
    intro o τ hτ
    rcases hτ.outcome with ⟨-, hsees⟩ | ⟨-, hcovered⟩
    · exact hsees.intact
    · exact hcovered.intact
  by_cases hviews : program.Views v r w
  · refine (hperform.and (h.perform_views hviews)).mono ?_
    rintro o τ ⟨hτ, hbeside, hundo, hchanged⟩
    refine ⟨hτ, fun hb _ => ⟨hbeside.flushable_of_unchanged hb.flushable, fun hne => ?_⟩⟩
    rw [hundo, hchanged] at hne
    exact (hb.takes hne).follows hτ.follows.disk
  · refine hperform.mono fun o τ hτ => ⟨hτ, fun hb htakes => ?_⟩
    have htakes := htakes.resolve_right hviews
    exact ⟨flushable_of_takes hb.flushable (hintact hτ) h.intact.store htakes hτ.beside,
      fun _ => htakes.follows hτ.follows.disk⟩

/-- A call that has begun sees the blocks as they lie. -/
theorem BlocksAs.sees {new : Session} (h : BlocksAs m l.format v s) (hfile : new.file = m.file)
    (hlayout : new.layout = l) (hsize : l.blockSize = m.blockSize) (hundo : new.undo = [])
    (hb : Begun m new s (.ok ()) τ) :
    Sees m l (m.content s) v.pointers.highWater none { v with held := fun _ => none } τ := by
  obtain ⟨held, pointers, highWater, hsession⟩ := hb.session
  obtain ⟨hmark, i, b, hi, hbuf, hnull, hread⟩ := hb.ok rfl
  obtain ⟨x, hx, hsaved⟩ := h.saved
  have hfile' : τ.1.file = m.file := by rw [hsession]; exact hfile
  have hx' := hb.keeps .null x (Nat.dvd_zero _) nofun hx
  obtain ⟨b', hb', hbf, -⟩ := hb.pins.held i (Holdings.mem_toList.mpr ⟨.header, hi⟩)
  rw [hbuf] at hb'
  cases hb'
  have himage : b.image = x := by
    have := Mount.content_of_buffer hb.intact.sound hbuf hbf
    rw [hnull, hx'] at this
    exact (Option.some.inj this).symm
  have hpointers : τ.1.pointers = v.pointers := by
    rw [← hread, himage, hlayout, hsaved]
  have hwater : τ.1.highWater = v.pointers.highWater := hmark.trans (congrArg _ hpointers)
  have hcovered : Covered m (m.content s) v.pointers.highWater l none τ :=
    ⟨hfile', by rw [hsession]; exact hlayout, hsize, hb.intact, hb.pins, hwater ▸ hb.guard hundo⟩
  refine ⟨hcovered, Nat.le_refl _, hpointers, ⟨i, b, hi, hbuf, hnull⟩, ⟨x, hx', fun _ => hsaved⟩,
    fun p y hy => ?_, fun role p _ hp => nomatch hp⟩
  obtain ⟨hne, ha, hcontent⟩ := h.blocks p y hy
  have hle := h.settled.mark p y hy
  have hbound := h.settled.bound
  exact ⟨hne, ha, by omega, fun _ => hb.keeps p y ha nofun hcontent⟩

/-- What completing a call whose blocks read as in a view comes to. -/
structure Completed (m : Mount) (format : Format) (mode : EndMode) (v : View)
    (σ : Session × Buffered) (r : Except Error Unit) (τ : Session × Buffered) : Prop where
  locked : τ.1.locked = σ.1.locked
  follows : σ.2.Follows τ.2
  beside : Buffered.Beside m.file (fun p => p.offset + m.blockSize < Store.offsetBound) σ.2 τ.2
  blocksAs : r = .ok () → BlocksAs m format v τ.2
  idle : mode = .flush → r = .ok () → τ.2.Idle m.file
  backed : Backed m σ → r = .ok () ∧ τ.2.Flushable
  safe : σ.2.Safe → m.store.Reliable σ.2.disk → τ.2.Safe

/-- Letting go of blocks whose pointers are saved. -/
theorem Sees.wrapUp (mode : EndMode) (h : Sees m l before hw none v σ)
    (hsaved : σ.1.pointersChanged = false) (hv : v.Settled l.format m.blockSize)
    (hpending : ∀ r, σ.2.cache.registration? m.file = some r → r.pending = none) : Ends (do
      letGoAll
      if mode = .flush then onCache (Cache.release σ.1.file .flush)
      update fun s => { s with undo := [] }) σ (Completed m l.format mode v σ) := by
  refine (wrapUp_ends mode h.file h.intact h.pins).mono fun r τ hτ => ?_
  refine ⟨by rw [hτ.session], hτ.follows, hτ.beside.mono fun _ hp => hp.elim, fun hr => ?_, hτ.idle,
    fun hb => ⟨hτ.flushable hb.flushable, hτ.beside.flushable_of_unchanged hb.flushable⟩,
    fun hs _ => hτ.safe hs⟩
  obtain ⟨x, hx, hread⟩ := h.saved
  refine ⟨hv, hτ.intact, hτ.unpinned, fun r hr => ?_,
    ⟨x, hτ.keeps _ x (Nat.dvd_zero _) nofun hx, hread hsaved⟩, fun p y hy => ?_⟩
  · rw [hτ.follows.registration] at hr
    exact hpending r hr
  · obtain ⟨hnull, ha, -, hcontent⟩ := h.blocks p y hy
    exact ⟨hnull, ha, hτ.keeps p y ha nofun (hcontent nofun)⟩

/-- The chain pointers are in the header block once this is written. -/
theorem Sees.saveHeader {i : Nat} {b : Buffer} {image : Bytes} (h : Sees m l before hw none v σ)
    (hheld : σ.1.held.get .header = some i) (hb : σ.2.cache.buffer? i = some b)
    (hnull : b.pos = .null) (he : Edited m i b image σ τ)
    (hread : Pointers.read l.format image = v.pointers) :
    Sees m l before hw none v ({ τ.1 with pointersChanged := false }, τ.2) := by
  have hfile := h.file_of_held hheld hb
  obtain ⟨ha, hlen⟩ := h.intact.whole i b hb hfile
  obtain ⟨hfile', -, hlayout, hpointers, -, hholdings, -⟩ := he.same
  have hguard := h.guard.edit h.intact.sound he hb hfile ha hlen
  have hcovered : Covered m before hw l none ({ τ.1 with pointersChanged := false }, τ.2) :=
    ⟨hfile'.trans h.file, hlayout.trans h.layout, h.size, he.intact, he.pins.session rfl,
      hguard.session rfl rfl⟩
  refine ⟨hcovered, h.mark, hpointers.trans h.pointers,
    ⟨i, _, by rw [← hheld, ← hholdings], he.self, hnull⟩, ⟨image, ?_, fun _ => hread⟩,
    fun p y hy => ?_, fun role p hrole hp => ?_⟩
  · show m.content τ.2 .null = some image
    rw [he.content, if_pos hnull.symm]
  · obtain ⟨hne, hp, hbound, hcontent⟩ := h.blocks p y hy
    refine ⟨hne, hp, hbound, fun _ => ?_⟩
    show m.content τ.2 p = some y
    rw [he.content, if_neg fun heq => hne (heq.trans hnull)]
    exact hcontent nofun
  · obtain ⟨j, b', hj, hb', hpos⟩ := h.held role p hrole hp
    by_cases hji : j = i
    · subst hji
      rw [hb] at hb'
      cases hb'
      exact ⟨j, _, by rw [← hj, ← hholdings], he.self, hpos⟩
    · exact ⟨j, b', by rw [← hj, ← hholdings], he.others j b' hji hb', hpos⟩

/-- What a completed call leaves behind. -/
theorem Sees.complete (mode : EndMode) (h : Sees m l before hw none v σ)
    (hv : v.Settled l.format m.blockSize)
    (hpending : ∀ r, σ.2.cache.registration? m.file = some r → r.pending = none)
    (hwidth : 1 + 4 * l.format.positionWidth ≤ m.blockSize) :
    Ends (Session.complete mode) σ (Completed m l.format mode v σ) := by
  unfold Session.complete
  refine Ends.get_bind ?_
  cases hchanged : σ.1.pointersChanged with
  | false =>
    simp only [hchanged, Bool.false_eq_true, if_false]
    exact h.wrapUp mode hchanged hv hpending
  | true =>
    simp only [hchanged, if_true]
    obtain ⟨i, b, hi, hb, hnull⟩ := h.header
    have hfile := h.file_of_held hi hb
    obtain ⟨ha, hlen⟩ := h.intact.whole i b hb hfile
    obtain ⟨image, hwrite, hread, -, -, hlen'⟩ :=
      @Pointers.write_eq_ok l.format v.pointers b.image hv.pointers (by rw [hlen]; exact hwidth)
    rw [← h.layout, ← h.pointers] at hwrite
    have hbound : b.pos.offset + m.blockSize < Store.offsetBound := by
      have := hv.bound
      rw [hnull, show BlockPos.null.offset = 0 from rfl]
      omega
    have hspec := edit_ends h.intact h.pins hi hb
      (show ∀ q, none = some q → q = b.pos from nofun)
      (show (σ.1.pointers.write σ.1.layout.format b.image).1.length = m.blockSize by
        rw [hwrite]
        exact hlen'.trans hlen)
    rw [hwrite] at hspec
    refine Ends.bind (hspec.and (edit_beside h.pins hi hb
      (D := fun p => p.offset + m.blockSize < Store.offsetBound) hbound _))
      (fun e τ h => nomatch h.1.1) ?_
    rintro ⟨⟩ ⟨session, t⟩ ⟨⟨-, he⟩, hbeside⟩
    obtain ⟨hf, hl, -⟩ := he.same
    have hsees := h.saveHeader hi hb hnull he hread
    have hpending' : ∀ r, t.cache.registration? m.file = some r → r.pending = none := by
      intro r hr
      rw [he.follows.registration] at hr
      exact hpending r hr
    have hwrap := hsees.wrapUp mode rfl hv hpending'
    rw [show σ.1.file = session.file from hf.symm]
    refine Ends.modify_bind (hwrap.mono fun r υ hυ => ?_)
    refine ⟨hυ.locked.trans hl, he.follows.trans hυ.follows, hbeside.trans hυ.beside, hυ.blocksAs,
      hυ.idle, fun hb => ?_, fun hs hrel => ?_⟩
    · have htakes := hb.takes (.inr hchanged)
      exact hυ.backed ⟨flushable_of_takes hb.flushable he.intact h.intact.store htakes hbeside,
        fun _ => htakes.follows he.follows.disk⟩
    · exact hυ.safe (he.safe hs hrel hbound) (hrel.follows he.follows.disk)

/-! ## Taking back -/

/-- What taking back a call that was begun on blocks as in the view `v` comes to. -/
structure Withdrawn (m : Mount) (format : Format) (v : View) (s : Buffered)
    (σ τ : Session × Buffered) : Prop where
  locked : τ.1.locked = σ.1.locked
  intact : m.Intact none none τ.2
  beside : Buffered.Beside m.file (fun p => p.offset + m.blockSize < Store.offsetBound) σ.2 τ.2
  blocksAs : BlocksAs m format v τ.2 ∨ Parked m.file τ.2
  backed : Backed m σ → BlocksAs m format v τ.2 ∧ τ.2.Flushable ∧
    (σ.1.locked = true → τ.2.Idle m.file)
  keeps : Backed m σ → m.KeepsUpTo v.pointers.highWater s τ.2
  safe : σ.2.Safe → m.store.Reliable σ.2.disk → τ.2.Safe

/-- A call that can be rolled back is. A block behind the mark `mark` is one that the call has not
changed. -/
theorem BlocksAs.rollBack {mark : BlockPos} (h : BlocksAs m l.format v s) (hfollows : s.Follows σ.2)
    (hσ : Covered m (m.content s) mark l none σ)
    (hmark : mark.offset ≤ v.pointers.highWater.offset)
    (hreach : ∀ p x, m.Aligned p → mark.offset < p.offset →
      p.offset ≤ v.pointers.highWater.offset → m.content s p = some x →
        p ∉ σ.1.undo.map Undo.pos ∧ m.content σ.2 p = some x) :
    Ends Session.rollBack σ fun r τ => r = .ok () ∧ Withdrawn m l.format v s σ τ := by
  refine (rollBack_ends hσ.file hσ.intact hσ.pins hσ.guard).mono ?_
  rintro r τ ⟨hr, hback⟩
  have hbound := h.settled.bound
  have hrestored : leftBehind σ = [] → ∀ p x, m.Aligned p →
      p.offset ≤ v.pointers.highWater.offset → m.content s p = some x →
        m.content τ.2 p = some x := by
    intro hnil p x ha hp hx
    by_cases hle : p.offset ≤ mark.offset
    · refine hback.restored p x ha hle (fun u hu => ?_) hx
      rw [hnil] at hu
      cases hu
    · obtain ⟨hnot, hx'⟩ := hreach p x ha (Nat.lt_of_not_le hle) hp hx
      exact hback.others p x ha hnot hx'
  have hblocksAs : leftBehind σ = [] → ¬Parked m.file τ.2 → BlocksAs m l.format v τ.2 := by
    intro hnil hnot
    obtain ⟨x, hx, hread⟩ := h.saved
    refine ⟨h.settled, hback.intact, hback.unpinned, fun r hr => ?_,
      ⟨x, hrestored hnil _ x (Nat.dvd_zero _) (Nat.zero_le _) hx, hread⟩, fun p y hy => ?_⟩
    · exact Classical.byContradiction fun hne => hnot ⟨r, hr, hne⟩
    · obtain ⟨hne, ha, hcontent⟩ := h.blocks p y hy
      exact ⟨hne, ha, hrestored hnil p y ha (h.settled.mark p y hy) hcontent⟩
  have hput : Backed m σ → leftBehind σ = [] ∧ τ.2.Flushable ∧
      (σ.1.locked = true → τ.2.Idle m.file) := fun hb =>
    hback.flushable hb.flushable fun hne => ⟨hb.takes (.inl hne), by omega⟩
  refine ⟨hr, by rw [hback.session], hback.intact, hback.beside.mono fun p hp => ?_, ?_,
    fun hb => ?_, fun hb => hrestored (hput hb).1, fun hs hrel => ?_⟩
  · omega
  · by_cases hparked : Parked m.file τ.2
    · exact .inr hparked
    · by_cases hnil : leftBehind σ = []
      · exact .inl (hblocksAs hnil hparked)
      · exact absurd (hback.parked hnil) hparked
  · obtain ⟨hnil, hflushable, hidle⟩ := hput hb
    refine ⟨hblocksAs hnil ?_, hflushable, hidle⟩
    rintro ⟨r, hreg, hne⟩
    rw [(hback.follows hnil).registration, hfollows.registration] at hreg
    exact hne (h.pending r hreg)
  · exact (hback.reliable hs hrel (by omega)).2

end Session

end PagedIndex
