import PagedIndex.Proofs.Session.Phases

/-!
# Whole calls

A call on blocks that lie between two calls is carried out, or it fails and the blocks lie as
before, but for images that could not be put back, of which a failure is kept. If no write is
refused, there are no such images. If nothing at all is refused, the call is carried out unless its
program fails.

## Main definitions

* `Session.Kept` — what a call that was carried out leaves.
* `Session.CallOutcome` — what becomes of the blocks of a file by a call.

## Main statements

* `Session.transact_outcome` — a whole call over any store.
* `Session.transact_ends` — a whole call over a store that refuses nothing.
-/

namespace PagedIndex

namespace Session

variable {m : Mount} {σ τ : Session × Buffered} {s t : Buffered} {α : Type} {v w : View}
  {format : Format} {l : Layout} {mode : EndMode} {locked : Bool} {program : Program α}
  {r : Except Error α}

/-- Work for a file that changes its blocks only where they can be written. -/
abbrev Works (m : Mount) (s t : Buffered) : Prop :=
  Buffered.Beside m.file (fun p => p.offset + m.blockSize < Store.offsetBound) s t

theorem Quiet.works (h : Quiet m s t) : Works m s t := h.beside.mono fun _ hp => hp.elim

/-- Whether all that a program changes can be written: it changes nothing, or its store takes what
is written. -/
def Secured (m : Mount) (v : View) (program : Program α) (r : Except Error α) (w : View)
    (s : Buffered) : Prop :=
  s.Flushable ∧ (m.store.Takes s.disk ∨ program.Views { v with held := fun _ => none } r w)

theorem Secured.quiet (h : Secured m v program r w s) (hq : Quiet m s t) :
    Secured m v program r w t :=
  ⟨hq.beside.flushable_of_unchanged h.1, h.2.imp_left fun htakes => htakes.follows hq.beside.disk⟩

/-- What a call that was carried out leaves. -/
structure Kept (m : Mount) (format : Format) (mode : EndMode) (locked : Bool) (w : View)
    (d : Disk) (ended : Except Error Unit) (t : Buffered) : Prop where
  blocksAs : BlocksAs m format w t
  idle : mode = .flush → t.Idle m.file
  unlocked : ∀ e, ended = .error e → locked = true ∧ m.store.Refuses d .unlock e

/-- What a call that was taken back leaves. -/
structure Left (m : Mount) (format : Format) (v : View) (locked sure : Prop) (s t : Buffered) :
    Prop where
  blocksAs : BlocksAs m format v t ∨ Parked m.file t
  undone : sure → BlocksAs m format v t ∧ t.Flushable ∧ (locked → s.Idle m.file → t.Idle m.file)
  keeps : sure → m.KeepsUpTo v.pointers.highWater s t

/-! ## The body of a call -/

/-- A session as a call begins it. -/
structure New (m : Mount) (l : Layout) (new : Session) : Prop where
  file : new.file = m.file
  layout : new.layout = l
  size : l.blockSize = m.blockSize
  held : new.held = {}
  undo : new.undo = []
  pointersChanged : new.pointersChanged = false
  highWater : new.highWater = .null

/-- What a call has come to by the end of its program, which ends with `r` and the view `w`. If it
has failed, the undo list covers what was done to blocks up to a mark, and nothing was done to
others. -/
structure Worked (m : Mount) (l : Layout) (v : View) (program : Program α) (r : Except Error α)
    (w : View) (new : Session) (s : Buffered) (o : Except Error α) (τ : Session × Buffered) :
    Prop where
  locked : τ.1.locked = new.locked
  follows : s.Follows τ.2
  works : Works m s τ.2
  ok : ∀ a, o = .ok a → r = .ok a ∧ Sees m l (m.content s) v.pointers.highWater none w τ
  error : ∀ e, o = .error e → ∃ mark : BlockPos, Covered m (m.content s) mark l none τ ∧
    mark.offset ≤ v.pointers.highWater.offset ∧ ∀ p x, m.Aligned p → mark.offset < p.offset →
      p.offset ≤ v.pointers.highWater.offset → m.content s p = some x →
        p ∉ τ.1.undo.map Undo.pos ∧ m.content τ.2 p = some x
  backed : Secured m v program r w s → Backed m τ
  reliable : s.Safe → m.store.Reliable s.disk → o = r ∧ τ.2.Safe

theorem BlocksAs.work {new : Session} (h : BlocksAs m l.format v s) (hnew : New m l new)
    (hruns : program.Runs m.blockSize { v with held := fun _ => none } r w) :
    Ends (do start; perform program) (new, s) (Worked m l v program r w new s) := by
  have hlayout := hnew.layout
  have hstart := start_ends hnew.file (hlayout ▸ hnew.size) hnew.held h.intact h.unpinned
  have hbacked : ∀ {o τ}, Begun m new s o τ → s.Flushable → Backed m τ := by
    intro o τ hb hs
    obtain ⟨held, pointers, highWater, hsession⟩ := hb.session
    refine ⟨hb.beside.flushable_of_unchanged hs, fun hne => ?_⟩
    rw [hsession, hnew.undo, hnew.pointersChanged] at hne
    exact absurd hne (by simp)
  have hworks : ∀ {o τ}, Begun m new s o τ → Works m s τ.2 := fun hb =>
    hb.beside.mono fun _ hp => hp.elim
  refine Ends.bind hstart (fun e τ hb => ?_) ?_
  · obtain ⟨held, pointers, highWater, hsession⟩ := hb.session
    have hundo : τ.1.undo = [] := by rw [hsession]; exact hnew.undo
    have hmark : τ.1.highWater = .null := (hb.error e rfl).trans hnew.highWater
    have hcovered : Covered m (m.content s) .null l none τ :=
      ⟨by rw [hsession]; exact hnew.file, by rw [hsession]; exact hlayout, hnew.size, hb.intact,
        hb.pins, hmark ▸ hb.guard hnew.undo⟩
    refine ⟨by rw [hsession], hb.follows, hworks hb, nofun,
      fun _ _ => ⟨.null, hcovered, Nat.zero_le _, fun p x ha _ _ hx => ?_⟩,
      fun hs => hbacked hb hs.1, fun hs hrel => ?_⟩
    · rw [hundo]
      exact ⟨List.not_mem_nil, hb.keeps p x ha nofun hx⟩
    · obtain ⟨x, hx, -⟩ := h.saved
      cases hb.reliable hs hrel h.bound (by rw [hx]; rfl)
  · rintro ⟨⟩ τ hb
    obtain ⟨held, pointers, highWater, hsession⟩ := hb.session
    have hsees := h.sees hnew.file hlayout hnew.size hnew.undo hb
    refine (hsees.perform_backed hruns).mono ?_
    rintro o υ ⟨hυ, hprovided⟩
    refine ⟨hυ.locked.trans (by rw [hsession]), hb.follows.trans hυ.follows,
      (hworks hb).trans hυ.beside, fun a ha => ?_, fun e he => ?_, fun hs => ?_, fun hs hrel => ?_⟩
    · rcases hυ.outcome with ⟨ho, hw⟩ | ⟨⟨e, he⟩, -⟩
      · exact ⟨ho.symm.trans ha, hw⟩
      · rw [ha] at he
        cases he
    · refine ⟨v.pointers.highWater, ?_, Nat.le_refl _, fun p x _ hlt hle => absurd hlt (by omega)⟩
      rcases hυ.outcome with ⟨-, hw⟩ | ⟨-, hcovered⟩
      · exact hw.toCovered
      · exact hcovered
    · exact hprovided (hbacked hb hs.1) (hs.2.imp_left fun h => h.follows hb.follows.disk)
    · obtain ⟨ho, -, hsafe⟩ := hυ.reliable (hb.safe hs) (hrel.follows hb.follows.disk)
      exact ⟨ho, hsafe⟩

/-- What is left of a session that was taken back and gave its lock back. -/
theorem Withdrawn.left {sure : Prop} {u : Buffered} (h : Withdrawn m format v s σ τ)
    (hq : Quiet m τ.2 u) (hsure : sure → Backed m σ) (hlocked : σ.1.locked = locked) :
    Left m format v (locked = true) sure s u := by
  refine ⟨?_, fun hs => ?_, fun hs => (h.keeps (hsure hs)).trans (hq.keeps.upTo _)⟩
  · rcases h.blocksAs with hblocksAs | hparked
    · exact .inl (hblocksAs.quiet hq)
    · exact .inr (hparked.follows hq.follows)
  · obtain ⟨hblocksAs, hflushable, hidle⟩ := h.backed (hsure hs)
    exact ⟨hblocksAs.quiet hq, hq.beside.flushable_of_unchanged hflushable,
      fun hl _ => hq.idle (hidle (hlocked.trans hl))⟩

structure BodyOutcome (m : Mount) (l : Layout) (v : View) (program : Program α) (r : Except Error α)
    (w : View) (new : Session) (s : Buffered) (o : Except Error α) (τ : Session × Buffered) :
    Prop where
  works : Works m s τ.2
  ok : ∀ a, o = .ok a → Worked m l v program r w new s (.ok a) τ
  error : ∀ e, o = .error e →
    Left m l.format v (new.locked = true) (Secured m v program r w s) s τ.2
  reliable : s.Safe → m.store.Reliable s.disk → o = r ∧ τ.2.Safe

/-- What work did can be taken back, and then the lock can be given back. -/
theorem BlocksAs.takeBack {sure : Prop} (h : BlocksAs m l.format v s) (hfollows : s.Follows τ.2)
    (hcovered : Covered m (m.content s) pos l none τ)
    (hmark : pos.offset ≤ v.pointers.highWater.offset)
    (hreach : ∀ p x, m.Aligned p → pos.offset < p.offset →
      p.offset ≤ v.pointers.highWater.offset → m.content s p = some x →
        p ∉ τ.1.undo.map Undo.pos ∧ m.content τ.2 p = some x)
    (hsure : sure → Backed m τ) (hlocked : τ.1.locked = locked) :
    Ends Session.rollBack τ fun _ υ => Ends (unlock m.store) υ fun _ φ => Works m τ.2 φ.2 ∧
      Left m l.format v (locked = true) sure s φ.2 ∧
        (τ.2.Safe → m.store.Reliable τ.2.disk → φ.2.Safe) := by
  refine (h.rollBack hfollows hcovered hmark hreach).mono ?_
  rintro _ υ ⟨-, hback⟩
  refine (unlock_ends hback.intact).mono ?_
  rintro _ φ ⟨hq, -⟩
  exact ⟨hback.beside.trans hq.works, hback.left hq hsure hlocked,
    fun hs hrel => hq.safe (hback.safe hs hrel)⟩

theorem BlocksAs.body {new : Session} (h : BlocksAs m l.format v s) (hnew : New m l new)
    (hruns : program.Runs m.blockSize { v with held := fun _ => none } r w) :
    Ends (body m.store program) (new, s) (BodyOutcome m l v program r w new s) := by
  refine ends_body (h.work hnew hruns) ?_ ?_
  · exact fun a τ hτ => ⟨hτ.works, fun b hb => by cases hb; exact hτ, nofun, hτ.reliable⟩
  · intro e τ hτ
    obtain ⟨mark, hcovered, hmark, hreach⟩ := hτ.error e rfl
    refine (h.takeBack hτ.follows hcovered hmark hreach hτ.backed hτ.locked).mono fun _ υ hυ =>
      hυ.mono ?_
    rintro _ φ ⟨hworks, hleft, hsafe⟩
    refine ⟨hτ.works.trans hworks, nofun, fun _ _ => hleft, fun hs hrel => ?_⟩
    obtain ⟨ho, hs'⟩ := hτ.reliable hs hrel
    exact ⟨ho, hsafe hs' (hrel.follows hτ.follows.disk)⟩

/-! ## The end of a call -/

/-- What the end of a call comes to that saw the view `v` when it began, and sees `w`. -/
structure Finished (m : Mount) (format : Format) (mode : EndMode) (locked : Bool) (v w : View)
    (σ : Session × Buffered) (s : Buffered) (ended : Except Error Unit) (t : Buffered) : Prop where
  works : Works m σ.2 t
  outcome : Kept m format mode locked w s.disk ended t ∨ (∃ e, ended = .error e) ∧
    Left m format v (locked = true) (Backed m σ) s t
  backed : Backed m σ → t.Flushable ∧ Kept m format mode locked w s.disk ended t
  reliable : σ.2.Safe → m.store.Reliable σ.2.disk → ended = .ok () ∧ t.Safe

theorem BlocksAs.finish (mode : EndMode) (h : BlocksAs m l.format v s) (hfollows : s.Follows σ.2)
    (hσ : Sees m l (m.content s) v.pointers.highWater none w σ)
    (hw : w.Settled l.format m.blockSize) (hlocked : σ.1.locked = locked)
    (hwidth : 1 + 4 * l.format.positionWidth ≤ m.blockSize) :
    Ends (Session.finish m.store mode) σ fun o τ =>
      ∃ ended, o = .ok ended ∧ Finished m l.format mode locked v w σ s ended τ.2 := by
  have hpending : ∀ reg, σ.2.cache.registration? m.file = some reg → reg.pending = none := by
    intro reg hreg
    rw [hfollows.registration] at hreg
    exact h.pending reg hreg
  have hguard := complete_guard mode hσ.file hσ.intact hσ.pins hσ.guard (hσ.layout ▸ hwidth)
  refine ends_finish ((hσ.complete mode hw hpending hwidth).and hguard) ?_ ?_
  · rintro τ ⟨hτ, -⟩
    have hblocksAs := hτ.blocksAs rfl
    refine (unlock_ends hblocksAs.intact).mono ?_
    rintro unlocked υ ⟨hq, hrefused⟩
    have hkept : Kept m l.format mode locked w s.disk unlocked υ.2 := by
      refine ⟨hblocksAs.quiet hq, fun hmode => hq.idle (hτ.idle hmode rfl), fun e he => ?_⟩
      obtain ⟨hl, href⟩ := hrefused e he
      rw [hτ.locked, hlocked] at hl
      exact ⟨hl, href.of_follows (hfollows.trans hτ.follows).disk⟩
    refine ⟨hτ.beside.trans hq.works, .inl hkept, fun hb => ?_, fun hs hrel => ?_⟩
    · exact ⟨hq.beside.flushable_of_unchanged (hτ.backed hb).2, hkept⟩
    · refine ⟨?_, hq.safe (hτ.safe hs hrel)⟩
      cases unlocked with
      | ok _ => rfl
      | error e =>
        have hrel' := hrel.follows hτ.follows.disk
        exact absurd (hrefused e rfl).2 (hrel'.not_refuses _ _)
  · rintro e τ ⟨hτ, hfile, -, hlayout, huncompleted⟩
    obtain ⟨hintact, hpins, hguarded⟩ := huncompleted e rfl
    have hcovered : Covered m (m.content s) v.pointers.highWater l none τ :=
      ⟨hfile.trans hσ.file, hlayout.trans hσ.layout, hσ.size, hintact, hpins, hguarded⟩
    have hnot : ¬Backed m σ := fun hb => nomatch (hτ.backed hb).1
    refine (h.takeBack (hfollows.trans hτ.follows) hcovered (Nat.le_refl _)
      (fun p x _ hlt hle => absurd hlt (by omega)) (fun hb => absurd hb hnot)
      (hτ.locked.trans hlocked)).mono fun _ υ hυ => hυ.mono ?_
    rintro _ φ ⟨hworks, hleft, -⟩
    refine ⟨hτ.beside.trans hworks, .inr ⟨⟨e, rfl⟩, hleft⟩, fun hb => absurd hb hnot,
      fun hs hrel => ?_⟩
    exact absurd ⟨hs.flushable, fun _ => hrel.takes⟩ hnot

/-! ## The whole call -/

/-- What becomes of the blocks of a file by a call whose program ends with `r` and the view `w`. It
is carried out, and then only giving the lock back may still fail; or it does not end well, and the
blocks lie as before if all that it changed can be written. -/
structure CallOutcome (m : Mount) (format : Format) (mode : EndMode) (locked : Bool) (v : View)
    (program : Program α) (r : Except Error α) (w : View) (s : Buffered)
    (o : Except Error (α × Except Error Unit)) (t : Buffered) : Prop where
  works : Works m s t
  outcome : (∃ a ended, r = .ok a ∧ o = .ok (a, ended) ∧
      Kept m format mode locked w s.disk ended t) ∨
    (∀ a ended, o = .ok (a, ended) → r = .ok a ∧ ended ≠ .ok ()) ∧
      Left m format v (locked = true) (Secured m v program r w s) s t
  secured : Secured m v program r w s → t.Flushable ∧
    ((∃ a ended, r = .ok a ∧ o = .ok (a, ended) ∧ Kept m format mode locked w s.disk ended t) ∨
      (∃ e, o = .error e) ∧ Left m format v (locked = true) True s t)
  reliable : s.Safe → m.store.Reliable s.disk →
    t.Safe ∧ (∀ a, r = .ok a → o = .ok (a, .ok ())) ∧ ∀ e, r = .error e → o = .error e

/-- A call that fails before or by its program. -/
theorem CallOutcome.of_error {e : Error} (hworks : Works m s t)
    (hleft : Left m format v (locked = true) (Secured m v program r w s) s t)
    (hreliable : s.Safe → m.store.Reliable s.disk → t.Safe ∧ r = .error e) :
    CallOutcome m format mode locked v program r w s (.error e) t := by
  refine ⟨hworks, .inr ⟨nofun, hleft⟩, fun hs => ?_, fun hs hrel => ?_⟩
  · obtain ⟨hblocksAs, hflushable, hidle⟩ := hleft.undone hs
    exact ⟨hflushable, .inr ⟨⟨e, rfl⟩, .inl hblocksAs, fun _ => ⟨hblocksAs, hflushable, hidle⟩,
      fun _ => hleft.keeps hs⟩⟩
  · obtain ⟨hsafe, rfl⟩ := hreliable hs hrel
    exact ⟨hsafe, nofun, fun _ he => by cases he; rfl⟩

/-- What a call comes to does not hang on moves of blocks before it. -/
theorem CallOutcome.quiet {u : Buffered} {o : Except Error (α × Except Error Unit)} (hq : Quiet m s t)
    (h : CallOutcome m format mode locked v program r w t o u) :
    CallOutcome m format mode locked v program r w s o u := by
  have hkept : ∀ {ended}, Kept m format mode locked w t.disk ended u →
      Kept m format mode locked w s.disk ended u := by
    intro ended hk
    refine ⟨hk.blocksAs, hk.idle, fun e he => ?_⟩
    obtain ⟨hl, href⟩ := hk.unlocked e he
    exact ⟨hl, href.of_follows hq.follows.disk⟩
  have hleft : ∀ {sure sure' : Prop}, (sure' → sure) → Left m format v (locked = true) sure t u →
      Left m format v (locked = true) sure' s u := by
    intro sure sure' himp hl
    refine ⟨hl.blocksAs, fun hs => ?_, fun hs => (hq.keeps.upTo _).trans (hl.keeps (himp hs))⟩
    obtain ⟨hblocksAs, hflushable, hidle⟩ := hl.undone (himp hs)
    exact ⟨hblocksAs, hflushable, fun hlocked hs => hidle hlocked (hq.idle hs)⟩
  refine ⟨hq.works.trans h.works, ?_, fun hs => ?_, fun hs hrel => ?_⟩
  · rcases h.outcome with ⟨a, ended, hr, ho, hk⟩ | ⟨ho, hl⟩
    · exact .inl ⟨a, ended, hr, ho, hkept hk⟩
    · exact .inr ⟨ho, hleft (fun hs => hs.quiet hq) hl⟩
  · obtain ⟨hflushable, ⟨a, ended, hr, ho, hk⟩ | ⟨ho, hl⟩⟩ := h.secured (hs.quiet hq)
    · exact ⟨hflushable, .inl ⟨a, ended, hr, ho, hkept hk⟩⟩
    · exact ⟨hflushable, .inr ⟨ho, hleft id hl⟩⟩
  · exact h.reliable (hq.safe hs) (hrel.follows hq.follows.disk)

/-- A call under its lock, if it is to have one. -/
theorem BlocksAs.carry {new : Session} (mode : EndMode) (h : BlocksAs m l.format v s)
    (hnew : New m l new)
    (hlocked : new.locked = locked) (hwidth : 1 + 4 * l.format.positionWidth ≤ m.blockSize)
    (hruns : program.Runs m.blockSize { v with held := fun _ => none } r w)
    (hw : ∀ a, r = .ok a → w.Settled l.format m.blockSize) :
    Ends (do
      let a ← Session.body m.store program
      let ended ← Session.finish m.store mode
      return (a, ended)) (new, s)
      fun o τ => CallOutcome m l.format mode locked v program r w s o τ.2 := by
  refine ends_carry (h.body hnew hruns) (fun e τ hτ => ?_) fun a τ hτ => ?_
  · refine .of_error hτ.works (hlocked ▸ hτ.error e rfl) fun hs hrel => ?_
    obtain ⟨ho, hsafe⟩ := hτ.reliable hs hrel
    exact ⟨hsafe, ho.symm⟩
  · have hworked := hτ.ok a rfl
    obtain ⟨rfl, hsees⟩ := hworked.ok a rfl
    refine (h.finish mode hworked.follows hsees (hw a rfl) (hworked.locked.trans hlocked)
      hwidth).mono ?_
    rintro _ υ ⟨ended, rfl, hυ⟩
    refine ⟨ended, rfl, hτ.works.trans hυ.works, ?_, fun hs => ?_, fun hs hrel => ?_⟩
    · rcases hυ.outcome with hkept | ⟨⟨e, rfl⟩, hleft⟩
      · exact .inl ⟨a, ended, rfl, rfl, hkept⟩
      · refine .inr ⟨fun b ended hb => ?_, hleft.blocksAs, fun hs => hleft.undone (hworked.backed hs),
          fun hs => hleft.keeps (hworked.backed hs)⟩
        cases hb
        exact ⟨rfl, nofun⟩
    · obtain ⟨hflushable, hkept⟩ := hυ.backed (hworked.backed hs)
      exact ⟨hflushable, .inl ⟨a, ended, rfl, rfl, hkept⟩⟩
    · obtain ⟨rfl, hsafe⟩ := hυ.reliable (hτ.reliable hs hrel).2
        (hrel.follows hworked.follows.disk)
      exact ⟨hsafe, fun b hb => by cases hb; rfl, nofun⟩

/-- A call that is let in finds the blocks as they lay. It is let in unless its lock is refused. -/
theorem BlocksAs.enter (locked : Bool) (h : BlocksAs m format v s) :
    Ends (enter m.file locked) s fun o t => Quiet m s t ∧ (∀ store, o = .ok store → store = m.store) ∧
      ∀ e, o = .error e → m.store.Refuses s.disk .lock e := by
  refine ends_enter (P := fun t => Quiet m s t) ?_
    (fun t ht => (h.quiet ht).intact.store) (fun _ t ht => ?_) fun _ t ht => ?_
  · exact h.takePending.mono fun _ t ⟨hr, ht⟩ => ⟨none, hr, nofun, fun _ => ht⟩
  · refine (ask_quiet (h.quiet ht).intact .lock).mono ?_
    rintro r u ⟨hlock, hrefused⟩
    refine ⟨fun e he => ⟨ht.trans hlock, nofun, fun e' he' => ?_⟩,
      fun _ => ⟨ht.trans hlock, fun _ hs => (Except.ok.inj hs).symm, nofun⟩⟩
    cases he'
    exact (hrefused e he).of_follows ht.follows.disk
  · exact ⟨ht, fun _ hs => (Except.ok.inj hs).symm, nofun⟩

/-- A call on blocks that lie between two calls. -/
theorem transact_outcome (locked : Bool) (mode : EndMode) (h : BlocksAs m l.format v s)
    (hsize : l.blockSize = m.blockSize) (hwidth : 1 + 4 * l.format.positionWidth ≤ m.blockSize)
    (hruns : program.Runs m.blockSize { v with held := fun _ => none } r w)
    (hw : ∀ a, r = .ok a → w.Settled l.format m.blockSize) :
    Ends (transact m.file l locked mode program) s
      (CallOutcome m l.format mode locked v program r w s) := by
  refine ends_transact (h.enter locked) ?_ ?_
  · rintro e t ⟨hq, -, hrefused⟩
    have hblocksAs := h.quiet hq
    refine .of_error hq.works ⟨.inl hblocksAs, fun hs => ⟨hblocksAs, (hs.quiet hq).1, fun _ => hq.idle⟩,
      fun _ => hq.keeps.upTo _⟩ fun _ hrel => ?_
    exact absurd (hrefused e rfl) (hrel.not_refuses _ _)
  · rintro store t ⟨hq, hstore, -⟩
    obtain rfl := hstore store rfl
    exact ((h.quiet hq).carry mode ⟨rfl, rfl, hsize, rfl, rfl, rfl, rfl⟩ rfl hwidth hruns hw).mono
      fun o τ hτ => hτ.quiet hq

/-- What a call on blocks at rest comes to, whose program ends with `r` and the view `w`. -/
structure Called (m : Mount) (format : Format) (v : View) (r : Except Error α) (w : View)
    (s : Buffered) (o : Except Error (α × Except Error Unit)) (t : Buffered) : Prop where
  follows : s.Follows t
  ok : ∀ a, r = .ok a → o = .ok (a, .ok ()) ∧ ReliableBlocksAs m format w t
  error : ∀ e, r = .error e → o = .error e ∧ ReliableBlocksAs m format v t

/-- Work that leaves no failure for the next call leaves the same files open. -/
theorem BlocksAs.follows (h : BlocksAs m format v s) (ht : BlocksAs m format w t)
    (hworks : Works m s t) :
    s.Follows t := by
  refine ⟨hworks.disk, hworks.capacity, fun file => ?_⟩
  by_cases hfile : file = m.file
  · subst hfile
    obtain ⟨r, hr, hstore⟩ := Option.map_eq_some_iff.mp h.intact.store
    obtain ⟨r', hr', hstore'⟩ := Option.map_eq_some_iff.mp ht.intact.store
    have hpending := h.pending r hr
    have hpending' := ht.pending r' hr'
    obtain ⟨store, pending⟩ := r
    obtain ⟨store', pending'⟩ := r'
    simp only at hstore hstore' hpending hpending'
    rw [hr, hr', hstore, hstore', hpending, hpending']
  · exact hworks.registration file hfile

/-- A call on blocks at rest carries out its program, or leaves the blocks as they were. -/
theorem transact_ends (locked : Bool) (mode : EndMode) (hrest : ReliableBlocksAs m l.format v s)
    (hsize : l.blockSize = m.blockSize) (hwidth : 1 + 4 * l.format.positionWidth ≤ m.blockSize)
    (hruns : program.Runs m.blockSize { v with held := fun _ => none } r w)
    (hw : ∀ a, r = .ok a → w.Settled l.format m.blockSize) :
    Ends (transact m.file l locked mode program) s (Called m l.format v r w s) := by
  refine (transact_outcome locked mode hrest.blocksAs hsize hwidth hruns hw).mono fun o t h => ?_
  obtain ⟨hsafe, hok, herror⟩ := h.reliable hrest.safe hrest.reliable
  have hrel := hrest.reliable.follows h.works.disk
  obtain ⟨-, hcase⟩ := h.secured ⟨hrest.safe.flushable, .inl hrest.reliable.takes⟩
  rcases hcase with ⟨a, ended, rfl, ho, hkept⟩ | ⟨⟨e, rfl⟩, hleft⟩
  · refine ⟨hrest.blocksAs.follows hkept.blocksAs h.works, fun b hb => ?_, nofun⟩
    cases hb
    exact ⟨hok a rfl, hkept.blocksAs.reliableBlocksAs hsafe hrel⟩
  · obtain ⟨hblocksAs, -⟩ := hleft.undone trivial
    refine ⟨hrest.blocksAs.follows hblocksAs h.works, fun a ha => ?_, fun e' he => ?_⟩
    · cases hok a ha
    · exact ⟨herror e' he, hblocksAs.reliableBlocksAs hsafe hrel⟩

end Session

end PagedIndex
