import PagedIndex.Proofs.Cache.Parts
import PagedIndex.Proofs.Cache.Recycle
import PagedIndex.Session.Basic

/-!
# The parts of a session

A session is put together from the work of its cache and from changes to what it notes of itself. A
guarantee that these parts meet is met by the whole session. What stands between them is told once:
what was changed is taken back if the work fails or cannot be completed, and the lock is given back
either way.

## Main definitions

* `Session.Parts` — a guarantee that is met by the parts of a session.
* `Session.takeHeader` — the header block is brought in, and the pointers are taken from it.
* `Session.enter` — what a call does before its session.

## Main statements

* `Session.Parts.perform`, `Session.Parts.complete`, `Session.Parts.rollBack` — what a session does.
* `Session.ends_body`, `Session.ends_finish`, `Session.ends_transact` — how a call ends.
-/

namespace PagedIndex

namespace Session

variable {α : Type} {G : Guarantee Error (Session × Buffered)} {σ : Session × Buffered}
  {P : α → Prop} {role : Role} {s : Buffered}

theorem onCache_ends {x : CacheM α} {P : Except Error α → Buffered → Prop} (h : Ends x σ.2 P) :
    Ends (onCache x) σ fun r τ => τ.1 = σ.1 ∧ P r τ.2 := by
  obtain ⟨session, below⟩ := σ
  unfold Ends onCache at *
  cases hx : x below <;> simp only [hx] at h ⊢ <;> exact ⟨trivial, h⟩

theorem alone_ends {session : Session} {x : SessionM α} {Q : Except Error α → Buffered → Prop}
    (h : Ends x (session, s) fun r τ => Q r τ.2) : Ends (alone session x) s Q := by
  unfold Ends alone at *
  cases hx : x (session, s) <;> simp only [hx] at h ⊢ <;> exact h

theorem onCache_meets {H : Guarantee Error Buffered} {x : CacheM α} (h : H.Meets P x) :
    (H.comap Prod.snd).Meets P (onCache x) := fun σ hσ =>
      (onCache_ends (h σ.2 hσ)).mono fun _ _ h => h.2

theorem update_covers {H : Guarantee Error Buffered} (f : Session → Session) :
    (H.comap Prod.snd).Covers (update f) := .modify fun _ hσ => H.refl hσ

/-- The header block is brought in, and the pointers are taken from it. -/
def takeHeader (l : Layout) : SessionM Unit := do
  load .header .null true
  let (_, header) ← holding .header
  let p := Pointers.read l.format header.image
  update fun s => { s with pointers := p, highWater := p.highWater }

/-! ## What a guarantee needs -/

/-- A change to what a session notes of itself leaves its file and its roles as they are. -/
structure Notes (f : Session → Session) : Prop where
  file (s : Session) : (f s).file = s.file := by intro s; rfl
  layout (s : Session) : (f s).layout = s.layout := by intro s; rfl
  locked (s : Session) : (f s).locked = s.locked := by intro s; rfl
  held (s : Session) : (f s).held = s.held := by intro s; rfl

/-- The guarantee is met by what a session changes blocks by, and by what it ends with. -/
structure Parts (G : Guarantee Error (Session × Buffered)) : Prop where
  fault {e : Error} (he : e.OfPool) : G.Fails e
  note {f : Session → Session} (hf : Notes f) : G.Covers (update f)
  setImage (i : Nat) (image : Bytes) : G.Covers (updateCache (·.setImage i image))
  letGoAll : G.Covers letGoAll
  release (file : FileId) : G.Covers (onCache (Cache.release file .flush))

theorem covers_letGo (hheld : ∀ held, G.Covers (update fun s => { s with held := held }))
    (hunpin : ∀ i, G.Covers (updateCache (·.setPinned i false))) (role : Role) :
    G.Covers (letGo role) := by
  unfold letGo
  refine .get_bind fun σ _ => ?_
  dsimp only
  split
  · exact .pure trivial
  · refine (hheld _).bind fun _ _ => ?_
    split
    · exact hunpin _
    · exact .pure trivial

theorem covers_letGoAll (hheld : ∀ held, G.Covers (update fun s => { s with held := held }))
    (hunpin : ∀ i, G.Covers (updateCache (·.setPinned i false))) : G.Covers letGoAll := by
  unfold letGoAll
  exact .get_bind fun σ _ => (Guarantee.Meets.forM hunpin _).bind fun _ _ => hheld _

theorem covers_load (hletGo : ∀ role, G.Covers (letGo role))
    (hfetch : ∀ file pos size read, G.Covers (onCache (Cache.fetch file pos size read)))
    (hpin : ∀ i, G.Covers (updateCache (·.setPinned i true)))
    (hset : ∀ role i, G.Covers (update fun s => { s with held := s.held.set role (some i) }))
    (role : Role) (pos : BlockPos) (read : Bool) : G.Covers (load role pos read) := by
  unfold load
  exact (hletGo role).bind fun _ _ => .get_bind fun σ _ => (hfetch _ _ _ _).bind fun i _ =>
    (hpin i).bind fun _ _ => hset role i

theorem covers_unlock {store : Store}
    (hlocked : G.Covers (update fun s => { s with locked := false }))
    (hask : G.Covers (onCache (Cache.onDisk store.unlock))) : G.Covers (unlock store) := by
  unfold unlock
  refine .get_bind fun σ _ => hlocked.bind fun _ _ => ?_
  split
  · exact hask
  · exact .pure trivial

theorem covers_holding (hfault : ∀ {e}, Error.OfPool e → G.Fails e) (role : Role) :
    G.Covers (holding role) := by
  unfold holding
  refine .get_bind fun σ _ => ?_
  dsimp only
  split
  · exact .throw (hfault (.noHeldBlock role))
  · split
    · exact .throw (hfault .emptyBuffer)
    · exact .pure trivial

theorem covers_undoOne (hforget : ∀ file pos, G.Covers (updateCache (·.forget file pos)))
    (hrestore : ∀ file pos image, G.Covers (onCache (Cache.restore file pos image)))
    (hpark : ∀ file e, G.Fails e → G.Covers (updateCache (·.park file e))) (file : FileId) (u : Undo) :
    G.Covers (undoOne file u) := by
  unfold undoOne
  split
  · exact hforget _ _
  · refine (hrestore _ _ _).attempt.bind fun r hr => ?_
    split
    · exact .pure trivial
    · next e => exact hpark file e (hr e rfl)

namespace Parts

/-- What is guaranteed of the cache of a session. -/
theorem ofCache {H : Guarantee Error Buffered} (hfault : ∀ {e}, Error.OfPool e → H.Fails e)
    (hunpin : ∀ i, H.Covers (Cache.update (·.setPinned i false)))
    (hset : ∀ i image, H.Covers (Cache.update (·.setImage i image)))
    (hrelease : ∀ file, H.Covers (Cache.release file .flush)) : Parts (H.comap Prod.snd) where
  fault := hfault
  note _ := update_covers _
  setImage _ _ := onCache_meets (hset _ _)
  letGoAll := covers_letGoAll (fun _ => update_covers _) fun i => onCache_meets (hunpin i)
  release _ := onCache_meets (hrelease _)

/-- A block is changed, if what the change fails with is let pass. -/
theorem edit (h : Parts G) (role : Role) (change : Edit)
    (hchange : ∀ x e, (change x).2 = .error e → G.Fails e) : G.Covers (edit role change) := by
  unfold Session.edit remember
  refine (covers_holding h.fault role).bind fun (i, b) _ => (h.note ?_).bind fun _ _ =>
    (h.setImage i _).bind fun _ _ => .settle (hchange b.image) fun _ _ => trivial
  exact ⟨fun s => by split <;> rfl, fun s => by split <;> rfl, fun s => by split <;> rfl,
    fun s => by split <;> rfl⟩

theorem perform (h : Parts G) (hload : ∀ role pos read, G.Covers (load role pos read))
    (hfails : ∀ e, G.Fails e) (program : Program α) : G.Covers (perform program) := by
  induction program with
  | done a => exact .pure trivial
  | fail e => exact .throw (hfails e)
  | load role pos read next ih => exact (hload role pos read).bind fun _ _ => ih
  | view role next ih => exact (covers_holding h.fault role).bind fun (i, b) _ => ih b.image
  | edit role change next ih => exact (h.edit role change fun _ _ _ => hfails _).bind fun _ _ => ih
  | pointers next ih => exact .get_bind fun (s, _) _ => ih s.pointers
  | setPointers p next ih =>
    refine (h.note ?_).bind fun _ _ => ih
    exact ⟨fun s => by split <;> rfl, fun s => by split <;> rfl, fun s => by split <;> rfl,
      fun s => by split <;> rfl⟩

theorem takeHeader (h : Parts G) (hload : ∀ role pos read, G.Covers (load role pos read))
    (l : Layout) : G.Covers (takeHeader l) :=
  (hload _ _ _).bind fun _ _ => (covers_holding h.fault _).bind fun _ _ => h.note {}

theorem start (h : Parts G) (hload : ∀ role pos read, G.Covers (load role pos read)) :
    G.Covers start := by
  unfold Session.start
  exact .get_bind fun σ _ => Guarantee.Meets.ite_bind (h.release _) (h.takeHeader hload _)

theorem complete (h : Parts G)
    (hwrite : ∀ (l : Format) (p : Pointers) x e, (p.write l x).2 = .error e → G.Fails e)
    (mode : EndMode) : G.Covers (complete mode) := by
  unfold Session.complete
  refine .get_bind fun σ _ => ?_
  have hend : G.Covers (do
      Session.letGoAll
      if mode = .flush then onCache (Cache.release σ.1.file .flush)
      update fun s => { s with undo := [] }) :=
    h.letGoAll.bind fun _ _ => Guarantee.Meets.ite_bind (h.release _) (h.note {})
  dsimp only
  split
  · exact (h.edit _ _ fun x e he => hwrite _ _ x e he).bind fun _ _ => (h.note {}).bind fun _ _ => hend
  · exact hend

/-- What is done of a roll back once all roles have let go. -/
theorem putBack (hnote : ∀ {f}, Notes f → G.Covers (update f))
    (hrelease : ∀ file, G.Covers (onCache (Cache.release file .flush)))
    (hundo : ∀ file u, G.Covers (undoOne file u)) (session : Session) : G.Covers (do
      update fun s => { s with undo := [] }
      session.undo.forM (undoOne session.file)
      if session.locked then
        let _ ← attempt (onCache (Cache.release session.file .flush))) := by
  refine (hnote {}).bind fun _ _ => (Guarantee.Meets.forM (hundo _) _).bind fun _ _ => ?_
  split
  · exact (hrelease _).attempt.bind fun _ _ => .pure trivial
  · exact .pure trivial

theorem rollBack (h : Parts G) (hundo : ∀ file u, G.Covers (undoOne file u)) : G.Covers rollBack := by
  unfold Session.rollBack
  exact h.letGoAll.bind fun _ _ => .get_bind fun σ _ => putBack h.note h.release hundo σ.1

end Parts

/-! ## How a call ends -/

/-- Changes can always be taken back, or what stands in the way of it is kept. -/
theorem rollBack_succeeds : Ends rollBack σ fun r _ => r = .ok () := by
  have hundo : ∀ file u, Fails (fun _ => False) (undoOne file u) := by
    intro file u
    unfold undoOne
    split
    · exact Fails.modify
    · refine Fails.attempt.bind fun r _ => ?_
      split
      · exact .pure trivial
      · exact Fails.modify
  have hroll : Fails (fun _ => False) rollBack := by
    unfold rollBack
    refine (covers_letGoAll (fun _ => Fails.modify) fun _ => Fails.modify).bind fun _ _ =>
      .get_bind fun τ _ => Fails.modify.bind fun _ _ =>
        (Guarantee.Meets.forM (hundo _) _).bind fun _ _ => ?_
    split
    · exact Fails.attempt.bind fun _ _ => .pure trivial
    · exact .pure trivial
  refine (hroll.ends σ).mono fun r _ h => ?_
  cases r with
  | ok _ => rfl
  | error e => exact (h e rfl).elim

variable {store : Store} {program : Program α}

/-- If the work fails it is taken back, and then the lock is given back. -/
theorem ends_body {P Q : Except Error α → Session × Buffered → Prop}
    (hwork : Ends (do start; perform program) σ P) (hok : ∀ a τ, P (.ok a) τ → Q (.ok a) τ)
    (herror : ∀ e τ, P (.error e) τ →
      Ends rollBack τ fun _ υ => Ends (unlock store) υ fun _ φ => Q (.error e) φ) :
    Ends (body store program) σ Q := by
  unfold body
  refine Ends.attempt_bind hwork fun r τ h => ?_
  cases r with
  | ok a => exact Ends.pure (hok a τ h)
  | error e =>
    refine Ends.bind ((herror e τ h).and rollBack_succeeds) (fun e' υ hυ => nomatch hυ.2) fun _ υ
      hυ => ?_
    exact Ends.attempt_bind hυ.1 fun _ φ hφ => Ends.throw hφ

/-- If the work cannot be completed it is taken back. The lock is given back either way, and the
first failure is told. -/
theorem ends_finish {mode : EndMode} {P Q : Except Error Unit → Session × Buffered → Prop}
    (hcomplete : Ends (complete mode) σ P)
    (hok : ∀ τ, P (.ok ()) τ → Ends (unlock store) τ fun unlocked υ => Q unlocked υ)
    (herror : ∀ e τ, P (.error e) τ →
      Ends rollBack τ fun _ υ => Ends (unlock store) υ fun _ φ => Q (.error e) φ) :
    Ends (finish store mode) σ fun r τ => ∃ ended, r = .ok ended ∧ Q ended τ := by
  unfold finish
  refine Ends.attempt_bind hcomplete fun completed τ h => ?_
  cases completed with
  | ok _ => exact Ends.attempt_bind (hok τ h) fun unlocked υ hυ => ⟨unlocked, rfl, hυ⟩
  | error e =>
    refine Ends.bind ((herror e τ h).and rollBack_succeeds) (fun e' υ hυ => nomatch hυ.2) fun _ υ
      hυ => ?_
    exact Ends.attempt_bind hυ.1 fun _ φ hφ => ⟨.error e, rfl, hφ⟩

/-- A call once its session begins. -/
theorem ends_carry {mode : EndMode} {P : Except Error α → Session × Buffered → Prop}
    {Q : Except Error (α × Except Error Unit) → Session × Buffered → Prop}
    (hbody : Ends (body store program) σ P) (herror : ∀ e τ, P (.error e) τ → Q (.error e) τ)
    (hfinish : ∀ a τ, P (.ok a) τ → Ends (finish store mode) τ fun r υ =>
      ∃ ended, r = .ok ended ∧ Q (.ok (a, ended)) υ) :
    Ends (do
      let a ← body store program
      let ended ← finish store mode
      return (a, ended)) σ Q := by
  refine Ends.bind hbody herror fun a τ h => Ends.bind (hfinish a τ h) ?_ ?_
  · rintro e υ ⟨_, he, -⟩
    cases he
  · rintro _ υ ⟨ended, hended, hυ⟩
    cases hended
    exact hυ

/-- What a call does before its session: it tells a failure that was kept for it, finds the store,
and takes the lock. -/
def enter (file : FileId) (locked : Bool) : CacheM Store := do
  match ← Cache.takePending file with
  | some e => throw e
  | none =>
    let store ← Cache.storeOf file
    if locked then Cache.onDisk store.lock
    return store

variable {file : FileId} {locked : Bool} {mode : EndMode}

theorem transact_eq (layout : Layout) : transact file layout locked mode program = (do
    let store ← enter file locked
    alone { file := file, layout := layout, locked := locked } do
      let a ← body store program
      let ended ← finish store mode
      return (a, ended)) := by
  unfold transact enter
  rw [bind_assoc]
  refine congrArg _ (funext fun kept => ?_)
  cases kept with
  | some e => rfl
  | none =>
    dsimp only
    rw [bind_assoc]
    refine congrArg _ (funext fun store => ?_)
    cases locked <;> simp only [Bool.false_eq_true, if_true, if_false, bind_assoc, pure_bind]

/-- A call on a file with a known store is told of a failure that was kept for it, or it asks for
the lock if it is to. -/
theorem ends_enter {P : Buffered → Prop} {Q : Except Error Store → Buffered → Prop}
    (hpending : Ends (Cache.takePending file) s fun r t =>
      ∃ kept, r = .ok kept ∧ (∀ e, kept = some e → Q (.error e) t) ∧ (kept = none → P t))
    (hstore : ∀ t, P t → t.cache.store? file = some store)
    (hlock : locked = true → ∀ t, P t → Ends (Cache.onDisk store.lock) t fun r u =>
      (∀ e, r = .error e → Q (.error e) u) ∧ (r = .ok () → Q (.ok store) u))
    (hok : locked = false → ∀ t, P t → Q (.ok store) t) : Ends (enter file locked) s Q := by
  unfold enter
  refine Ends.bind hpending ?_ ?_
  · rintro e t ⟨_, he, -⟩
    cases he
  · rintro kept t ⟨_, hkept, htold, hnone⟩
    cases hkept
    cases kept with
    | some e => exact Ends.throw (htold e rfl)
    | none =>
      have ht := hnone rfl
      refine Mount.storeOf_bind_ends (hstore t ht) ?_
      cases locked with
      | false => exact Ends.pure (hok rfl t ht)
      | true => exact Ends.bind (hlock rfl t ht) (fun e u hu => hu.1 e rfl) fun _ u hu => hu.2 rfl

/-- The guarantee is met by what a call does before its session. -/
theorem covers_enter {H : Guarantee Error Buffered} (hunknown : H.Fails .invalidHandle)
    (htake : H.Meets (fun kept => ∀ e, kept = some e → H.Fails e) (Cache.takePending file))
    (hlock : ∀ store : Store, H.Covers (Cache.onDisk store.lock)) : H.Covers (enter file locked) := by
  unfold enter
  refine htake.bind fun kept hkept => ?_
  split
  · next e => exact .throw (hkept e rfl)
  · refine (Cache.covers_storeOf hunknown file).bind fun store _ => ?_
    exact Guarantee.Meets.ite_bind (hlock store) (.pure trivial)

/-- A call that is let in ends as its session does. -/
theorem ends_transact {l : Layout} {P : Except Error Store → Buffered → Prop}
    {Q : Except Error (α × Except Error Unit) → Buffered → Prop}
    (henter : Ends (enter file locked) s P) (herror : ∀ e t, P (.error e) t → Q (.error e) t)
    (hcarry : ∀ store t, P (.ok store) t → Ends (do
      let a ← body store program
      let ended ← finish store mode
      return (a, ended)) ({ file := file, layout := l, locked := locked }, t) fun o τ => Q o τ.2) :
    Ends (transact file l locked mode program) s Q := by
  rw [transact_eq]
  exact Ends.bind henter herror fun store t ht => alone_ends (hcarry store t ht)

end Session

end PagedIndex
