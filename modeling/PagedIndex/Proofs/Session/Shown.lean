import PagedIndex.Proofs.Cache.Steps
import PagedIndex.Proofs.Session.Transact

/-!
# What a call gets to see

A session works on its file by steps of its cache, whatever is refused and whatever the blocks of
the file hold. Where nothing of the file is cached when it begins, its program is shown only images
that were read from the store in the meantime or that it has made itself.

## Main definitions

* `Program.Shown` — a program is shown images, and comes to an end.
* `Session.Ran` — what part of a session comes to.

## Main statements

* `Session.perform_shown` — a session shows to its program what is read in the meantime.
* `Session.transact_steps` — a whole call.
-/

namespace PagedIndex

/-- A program that was shown images among those in `R`, to which each change of a block and each new
block of it adds one. It starts with pointers and ends in a result. A load may end in an error of
which `F` is true. -/
inductive Program.Shown {α : Type} (size : Nat) (F : BlockPos → Bool → Error → Prop) :
    (BlockPos → Bytes → Prop) → Pointers → Program α → Except Error α → Prop
  | done {R : BlockPos → Bytes → Prop} {p : Pointers} {a : α} : Shown size F R p (.done a) (.ok a)
  | fail {R : BlockPos → Bytes → Prop} {p : Pointers} {e : Error} :
      Shown size F R p (.fail e) (.error e)
  | load {R : BlockPos → Bytes → Prop} {p : Pointers} {role : Role} {pos : BlockPos} {read : Bool}
      {next : Program α} {r : Except Error α}
      (h : Shown size F (fun q y => R q y ∨ read = false ∧ q = pos ∧ y = List.replicate size filler)
        p next r) : Shown size F R p (.load role pos read next) r
  | unloaded {R : BlockPos → Bytes → Prop} {p : Pointers} {role : Role} {pos : BlockPos}
      {read : Bool} {next : Program α} {e : Error} (he : F pos read e) :
      Shown size F R p (.load role pos read next) (.error e)
  | view {R : BlockPos → Bytes → Prop} {p : Pointers} {role : Role} {next : Bytes → Program α}
      {r : Except Error α} {pos : BlockPos} {x : Bytes} (hx : R pos x)
      (h : Shown size F R p (next x) r) : Shown size F R p (.view role next) r
  | unviewed {R : BlockPos → Bytes → Prop} {p : Pointers} {role : Role} {next : Bytes → Program α}
      {e : InternalFault} : Shown size F R p (.view role next) (.error (.internal e))
  | edit {R : BlockPos → Bytes → Prop} {p : Pointers} {role : Role} {change : Edit}
      {next : Program α} {r : Except Error α} {pos : BlockPos} {x : Bytes} (hx : R pos x)
      (hok : (change x).2 = .ok ())
      (h : Shown size F (fun q y => R q y ∨ q = pos ∧ y = (change x).1) p next r) :
      Shown size F R p (.edit role change next) r
  | refused {R : BlockPos → Bytes → Prop} {p : Pointers} {role : Role} {change : Edit}
      {next : Program α} {pos : BlockPos} {x : Bytes} {e : Error} (hx : R pos x)
      (he : (change x).2 = .error e) : Shown size F R p (.edit role change next) (.error e)
  | unedited {R : BlockPos → Bytes → Prop} {p : Pointers} {role : Role} {change : Edit}
      {next : Program α} {e : InternalFault} :
      Shown size F R p (.edit role change next) (.error (.internal e))
  | pointers {R : BlockPos → Bytes → Prop} {p : Pointers} {next : Pointers → Program α}
      {r : Except Error α} (h : Shown size F R p (next p) r) : Shown size F R p (.pointers next) r
  | setPointers {R : BlockPos → Bytes → Prop} {p p' : Pointers} {next : Program α}
      {r : Except Error α} (h : Shown size F R p' next r) :
      Shown size F R p (.setPointers p' next) r

section Shown

variable {α : Type} {size : Nat} {F F' : BlockPos → Bool → Error → Prop}
  {R R' : BlockPos → Bytes → Prop} {p : Pointers} {program : Program α} {r : Except Error α}

theorem Program.Shown.mono (h : Shown size F R p program r) (hF : ∀ q b e, F q b e → F' q b e)
    (hR : ∀ q y, R q y → R' q y) : Shown size F' R' p program r := by
  induction h generalizing R' with
  | done => exact .done
  | fail => exact .fail
  | load _ ih => exact .load (ih fun q y h => h.imp_left (hR q y))
  | unloaded he => exact .unloaded (hF _ _ _ he)
  | view hx _ ih => exact .view (hR _ _ hx) (ih hR)
  | unviewed => exact .unviewed
  | edit hx hok _ ih => exact .edit (hR _ _ hx) hok (ih fun q y h => h.imp_left (hR q y))
  | refused hx he => exact .refused (hR _ _ hx) he
  | unedited => exact .unedited
  | pointers _ ih => exact .pointers (ih hR)
  | setPointers _ ih => exact .setPointers (ih hR)

end Shown

namespace Session

variable {m : Mount} {V V' : BlockPos → Prop} {W W' : BlockPos → Bytes → Prop}
  {σ τ υ : Session × Buffered} {α : Type} {role : Role} {pos : BlockPos} {i : Nat} {b : Buffer}

/-! ## Steps of a session -/

/-- A session that works on a file in a sound cache. The buffers of its roles hold no blocks of
another file. -/
structure At (m : Mount) (σ : Session × Buffered) : Prop where
  file : σ.1.file = m.file
  size : σ.1.layout.blockSize = m.blockSize
  sound : σ.2.cache.Sound none
  store : σ.2.cache.store? m.file = some m.store
  owns : ∀ role i, σ.1.held.get role = some i → ∀ b, σ.2.cache.buffer? i = some b → b.file = m.file

/-- What part of a session comes to: steps of the cache, and a session that works on as before. -/
structure Ran (m : Mount) (V : BlockPos → Prop) (W : BlockPos → Bytes → Prop)
    (σ τ : Session × Buffered) : Prop where
  steps : Cache.Steps m V W σ.2 τ.2
  at' : At m τ
  locked : τ.1.locked = σ.1.locked
  layout : τ.1.layout = σ.1.layout

theorem Ran.refl (h : At m σ) : Ran m V W σ σ := ⟨.refl, h, rfl, rfl⟩

theorem Ran.trans (h : Ran m V W σ τ) (h' : Ran m V W τ υ) : Ran m V W σ υ :=
  ⟨h.steps.trans h'.steps, h'.at', h'.locked.trans h.locked, h'.layout.trans h.layout⟩

theorem Ran.mono (hV : ∀ p, V p → V' p) (hW : ∀ p x, W p x → W' p x) (h : Ran m V W σ τ) :
    Ran m V' W' σ τ :=
  ⟨h.steps.mono hV hW, h.at', h.locked, h.layout⟩

/-- Steps of the cache leave no block of another file in the buffers of the roles. -/
theorem At.ran {t : Buffered} {new : Session} (h : At m σ) (hsteps : Cache.Steps m V W σ.2 t)
    (hfile : new.file = σ.1.file) (hlayout : new.layout = σ.1.layout)
    (hlocked : new.locked = σ.1.locked)
    (hheld : ∀ role i, new.held.get role = some i → σ.1.held.get role = some i ∨
      ∀ b, t.cache.buffer? i = some b → b.file = m.file) : Ran m V W σ (new, t) := by
  refine ⟨hsteps, ⟨hfile.trans h.file, hlayout ▸ h.size, hsteps.sound h.sound h.store,
    (hsteps.store _).trans h.store, fun role i hi b hb => ?_⟩, hlocked, hlayout⟩
  rcases hheld role i hi with hi | hown
  · rcases hsteps.buffers hb with hb | ⟨hown, -⟩
    · exact h.owns role i hi b hb
    · exact hown
  · exact hown b hb

/-- A computation on the cache is part of a session. -/
theorem At.onCache {x : CacheM α} {P : Except Error α → Buffered → Prop} (h : At m σ)
    (hx : Ends x σ.2 fun r t => Cache.Steps m V W σ.2 t ∧ P r t) :
    Ends (Session.onCache x) σ fun r τ => Ran m V W σ τ ∧ τ.1 = σ.1 ∧ P r τ.2 := by
  refine (onCache_ends hx).mono ?_
  rintro r ⟨new, t⟩ ⟨hnew, hsteps, hP⟩
  cases hnew
  exact ⟨h.ran hsteps rfl rfl rfl fun _ _ hi => .inl hi, rfl, hP⟩

/-- A session that changes none but its own parts. -/
theorem At.session {new : Session} (h : At m σ) (hfile : new.file = σ.1.file)
    (hlayout : new.layout = σ.1.layout) (hlocked : new.locked = σ.1.locked)
    (hheld : ∀ role i, new.held.get role = some i → σ.1.held.get role = some i) :
    Ran m V W σ (new, σ.2) :=
  h.ran .refl hfile hlayout hlocked fun role i hi => .inl (hheld role i hi)

theorem letGo_ran (h : At m σ) (role : Role) : Ends (letGo role) σ fun _ τ => Ran m V W σ τ := by
  unfold letGo
  refine Ends.get_bind ?_
  dsimp only
  split
  · exact .refl h
  · next i hi =>
    have hset : Ran m V W σ ({ σ.1 with held := σ.1.held.set role none }, σ.2) := by
      refine h.session rfl rfl rfl fun role' j hj => ?_
      rw [Holdings.get_set] at hj
      split at hj
      · cases hj
      · exact hj
    refine Ends.modify_bind ?_
    split
    · exact hset.trans (hset.at'.ran (.single (.pin (h.owns role i hi) false)) rfl rfl rfl
        fun _ _ hi => .inl hi)
    · exact hset

/-- Of the session itself only what the role holds is changed. -/
theorem letGo_held (role : Role) : Ends (letGo role) σ fun r τ => r = .ok () ∧
    τ.1 = { σ.1 with held := σ.1.held.set role none } := by
  unfold letGo
  refine Ends.get_bind ?_
  dsimp only
  split
  · next hnone =>
    refine ⟨rfl, ?_⟩
    rw [Holdings.set_none_of_get_eq_none hnone]
  · refine Ends.modify_bind ?_
    split <;> exact ⟨rfl, rfl⟩

/-- A load that fails does so between two moments. -/
def Unloaded (m : Mount) (d d' : Disk) (pos : BlockPos) (read : Bool) (e : Error) : Prop :=
  ∃ s t, Cache.fetch m.file pos m.blockSize read s = .error e t ∧ d.Reaches s.disk ∧
    t.disk.Reaches d'

/-- A load brings an image that is read, or a filled one. -/
theorem load_ran (h : At m σ) (role : Role) (pos : BlockPos) (read : Bool)
    (hplace : read = true → V pos)
    (hfill : read = false → W pos (List.replicate m.blockSize filler)) :
    Ends (load role pos read) σ fun r τ => Ran m V W σ τ ∧ τ.1.pointers = σ.1.pointers ∧
      ∀ e, r = .error e → Unloaded m σ.2.disk τ.2.disk pos read e := by
  unfold load
  refine Ends.bind ((letGo_ran (V := V) (W := W) h role).and (letGo_held role))
    (fun e τ h => absurd h.2.1 nofun) ?_
  rintro ⟨⟩ τ ⟨hgone, -, hsession⟩
  have hpointers : τ.1.pointers = σ.1.pointers := by rw [hsession]
  have hτ := hgone.at'
  refine Ends.get_bind ?_
  simp only [hτ.file, hτ.size]
  have hfetch : Ends (Cache.fetch m.file pos m.blockSize read) τ.2 fun r t =>
      Cache.Steps m V W τ.2 t ∧ (∀ e, r = .error e →
        Cache.fetch m.file pos m.blockSize read τ.2 = .error e t) ∧
        ∀ i, r = .ok i → ∀ b, t.cache.buffer? i = some b → b.file = m.file := by
    refine ((Cache.fetch_steps hτ.sound hτ.store (fun _ => rfl) hplace hfill).and (ends_ending.and
      (Cache.fetch_beside (D := fun _ => True) m.blockSize read))).mono ?_
    rintro r t ⟨hsteps, ⟨hr, ht⟩, -, hown⟩
    refine ⟨hsteps, fun e he => eq_error_of_ending ?_, fun i hi b hb => (hown i hi b hb).1⟩
    rw [← he, hr, ht]
  refine Ends.bind (hτ.onCache hfetch) ?_ ?_
  · rintro e υ ⟨hran, hsame, hfailed, -⟩
    refine ⟨hgone.trans hran, by rw [hsame]; exact hpointers, fun e' he => ?_⟩
    cases he
    exact ⟨τ.2, υ.2, hfailed e rfl, Cache.Through.reaches hgone.steps, .refl⟩
  · rintro i υ ⟨hran, hsame, -, hown⟩
    have hpinned := hran.at'.ran (V := V) (W := W) (.single (.pin (hown i rfl) true)) rfl rfl rfl
      fun _ _ hi => .inl hi
    have hheld : Ran m V W υ ({ υ.1 with held := υ.1.held.set role (some i) },
        ⟨υ.2.cache.setPinned i true, υ.2.disk⟩) := by
      refine hpinned.trans (hpinned.at'.ran .refl rfl rfl rfl fun role' j hj => ?_)
      rw [Holdings.get_set] at hj
      split at hj
      · cases hj
        refine .inr fun b hb => ?_
        obtain ⟨b', hb', rfl⟩ := setPinned_eq_some hb
        rw [if_pos rfl]
        exact hown i rfl b' hb'
      · exact .inl hj
    exact ⟨(hgone.trans hran).trans hheld, by rw [hsame]; exact hpointers, nofun⟩

/-- The buffer of a role holds a block of the file. -/
theorem At.holding (h : At m σ) (role : Role) :
    Ends (holding role) σ fun r τ => τ = σ ∧
      (∀ i b, r = .ok (i, b) →
        σ.1.held.get role = some i ∧ σ.2.cache.buffer? i = some b ∧ b.file = m.file) ∧
      ∀ e, r = .error e → e.OfPool := by
  unfold Session.holding
  refine Ends.get_bind ?_
  dsimp only
  split
  · refine Ends.throw ⟨rfl, nofun, fun e he => ?_⟩
    cases he
    exact .noHeldBlock role
  · next i hi =>
    split
    · refine Ends.throw ⟨rfl, nofun, fun e he => ?_⟩
      cases he
      exact .emptyBuffer
    · next b hb =>
      refine Ends.pure ⟨rfl, fun j b' hj => ?_, nofun⟩
      cases hj
      exact ⟨hi, hb, h.owns role i hi b hb⟩

/-- A change adds one image to those of the file. -/
theorem edit_ran (h : At m σ) (role : Role) (change : Edit) :
    Ends (edit role change) σ fun r τ => τ.1.pointers = σ.1.pointers ∧
      ((∃ i b, σ.1.held.get role = some i ∧ σ.2.cache.buffer? i = some b ∧ b.file = m.file ∧
        r = (change b.image).2 ∧
          Ran m V (fun q y => q = b.pos ∧ y = (change b.image).1) σ τ) ∨
      (∃ e, e.OfPool ∧ r = .error e) ∧ τ = σ) := by
  unfold edit
  refine Ends.bind (h.holding role) ?_ ?_
  · rintro e τ ⟨rfl, -, he⟩
    exact ⟨rfl, .inr ⟨⟨e, he e rfl, rfl⟩, rfl⟩⟩
  · rintro ⟨i, b⟩ τ ⟨rfl, hok, -⟩
    obtain ⟨hheld, hb, hown⟩ := hok i b rfl
    have hkept : Ran m V (fun q y => q = b.pos ∧ y = (change b.image).1) τ (remembering τ.1 b,
      τ.2) := by
      obtain ⟨hfile, hlocked, hlayout, -, -, hheld, -⟩ := remembering_same τ.1 b
      exact h.session hfile hlayout hlocked fun role j hj => hheld ▸ hj
    have hset : Ran m V (fun q y => q = b.pos ∧ y = (change b.image).1) τ
        (remembering τ.1 b, ⟨τ.2.cache.setImage i (change b.image).1, τ.2.disk⟩) := by
      refine hkept.trans (hkept.at'.ran (.single (.edit fun b' hb' => ?_)) rfl rfl rfl
        fun _ _ hi => .inl hi)
      have hb' : τ.2.cache.buffer? i = some b' := hb'
      rw [hb] at hb'
      cases hb'
      exact ⟨hown, rfl, rfl⟩
    refine Ends.modify_bind (Ends.modify_bind
      (ends_settle ⟨?_, .inl ⟨i, b, hheld, hb, hown, rfl, hset⟩⟩))
    exact (remembering_same τ.1 b).2.2.2.1

/-! ## Programs -/

/-- The images of a file that a session may show: those in `R`, and those read since `d`. -/
def Fresh (m : Mount) (R : BlockPos → Bytes → Prop) (d d' : Disk) (pos : BlockPos) (x : Bytes) :
    Prop := R pos x ∨ m.Gave d d' pos x

/-- The cache holds of the file only images that a session may show. -/
def Holds (m : Mount) (P : BlockPos → Bytes → Prop) (s : Buffered) : Prop :=
  ∀ i b, s.cache.buffer? i = some b → b.file = m.file → P b.pos b.image

variable {R : BlockPos → Bytes → Prop} {d d' : Disk}

/-- Steps bring in no other images than those read, and those that are put in. -/
theorem Holds.steps {s t : Buffered} (h : Holds m (Fresh m R d s.disk) s) (hd : d.Reaches s.disk)
    (hsteps : Cache.Steps m V W s t) :
    Holds m (Fresh m (fun q y => R q y ∨ W q y) d t.disk) t := by
  intro i b hb hown
  have hreach : s.disk.Reaches t.disk := Cache.Through.reaches hsteps
  have hold : ∀ {j b'}, s.cache.buffer? j = some b' → b'.file = m.file →
      Fresh m (fun q y => R q y ∨ W q y) d t.disk b'.pos b'.image := fun hb' hown' =>
    (h _ _ hb' hown').imp .inl fun hgave => hgave.mono .refl hreach
  rcases hsteps.buffers hb with hb | ⟨-, ⟨j, b', hb', hown', hpos, himage⟩ | hW | hgave⟩
  · exact hold hb hown
  · rw [← hpos, ← himage]
    exact hold hb' hown'
  · exact .inl (.inr hW)
  · exact .inr (hgave.mono hd .refl)

/-- What a step adds to the images is shown to the rest of the program. -/
theorem shown_rest {program : Program α} {F : BlockPos → Bool → Error → Prop} {size : Nat}
    {p : Pointers} {r : Except Error α}
    (h : program.Shown size F (Fresh m (fun q y => R q y ∨ W q y) d d') p r) :
    program.Shown size F (fun q y => Fresh m R d d' q y ∨ W q y) p r := by
  refine h.mono (fun _ _ _ h => h) fun q y hqy => ?_
  rcases hqy with (hR | hW) | hgave
  · exact .inl (.inl hR)
  · exact .inr hW
  · exact .inl (.inr hgave)

/-- A session shows to its program images that are read in the meantime or made by the program. -/
theorem perform_shown (program : Program α) (h : At m σ) (hd : d.Reaches σ.2.disk)
    (hholds : Holds m (Fresh m R d σ.2.disk) σ.2) :
    Ends (perform program) σ fun r τ => Ran m (fun _ => True) (fun _ _ => True) σ τ ∧
      program.Shown m.blockSize (Unloaded m d τ.2.disk) (Fresh m R d τ.2.disk) σ.1.pointers r := by
  induction program generalizing σ R with
  | done a => exact Ends.pure ⟨.refl h, .done⟩
  | fail e => exact Ends.throw ⟨.refl h, .fail⟩
  | load role pos read next ih =>
    unfold perform
    refine Ends.bind (load_ran (V := fun _ => True) (W := fun q y => read = false ∧ q = pos ∧
      y = List.replicate m.blockSize filler) h role pos read (fun _ => trivial) fun hr =>
      ⟨hr, rfl, rfl⟩) ?_ ?_
    · rintro e τ ⟨hran, -, herror⟩
      obtain ⟨s, t, hfetch, hfront, hback⟩ := herror e rfl
      exact ⟨hran.mono (fun _ _ => trivial) fun _ _ _ => trivial,
        .unloaded ⟨s, t, hfetch, hd.trans hfront, hback⟩⟩
    · rintro ⟨⟩ τ ⟨hran, hpointers, -⟩
      refine (ih hran.at' (hd.trans (Cache.Through.reaches hran.steps))
        (hholds.steps hd hran.steps)).mono ?_
      rintro r υ ⟨hran', hshown⟩
      rw [hpointers] at hshown
      exact ⟨(hran.mono (fun _ _ => trivial) fun _ _ _ => trivial).trans hran',
        .load (shown_rest hshown)⟩
  | view role next ih =>
    unfold perform
    refine Ends.bind (h.holding role) ?_ ?_
    · rintro e τ ⟨rfl, -, he⟩
      obtain ⟨f, rfl⟩ := (he e rfl).exists_fault
      exact ⟨.refl h, .unviewed⟩
    · rintro ⟨i, b⟩ τ ⟨rfl, hok, -⟩
      obtain ⟨-, hb, hown⟩ := hok i b rfl
      refine (ih b.image h hd hholds).mono ?_
      rintro r υ ⟨hran, hshown⟩
      have hread := (hholds i b hb hown).imp_right fun hgave =>
        hgave.mono .refl (Cache.Through.reaches hran.steps)
      exact ⟨hran, .view hread hshown⟩
  | edit role change next ih =>
    unfold perform
    refine Ends.bind (edit_ran (V := fun _ => True) h role change) ?_ ?_
    · rintro e τ ⟨-, ⟨i, b, -, hb, hown, he, hran⟩ | ⟨⟨_, hpool, he⟩, rfl⟩⟩
      · have hread := (hholds i b hb hown).imp_right fun hgave =>
          hgave.mono .refl (Cache.Through.reaches hran.steps)
        exact ⟨hran.mono (fun _ _ => trivial) fun _ _ _ => trivial, .refused hread he.symm⟩
      · cases he
        obtain ⟨f, rfl⟩ := hpool.exists_fault
        exact ⟨.refl h, .unedited⟩
    · rintro ⟨⟩ τ ⟨hpointers, ⟨i, b, -, hb, hown, hok, hran⟩ | ⟨⟨_, -, he⟩, -⟩⟩
      · refine (ih hran.at' (hd.trans (Cache.Through.reaches hran.steps))
          (hholds.steps hd hran.steps)).mono ?_
        rintro r υ ⟨hran', hshown⟩
        rw [hpointers] at hshown
        have hread := (hholds i b hb hown).imp_right fun hgave => hgave.mono .refl
          ((Cache.Through.reaches hran.steps).trans (Cache.Through.reaches hran'.steps))
        exact ⟨(hran.mono (fun _ _ => trivial) fun _ _ _ => trivial).trans hran',
          .edit hread hok.symm (shown_rest hshown)⟩
      · cases he
  | pointers next ih =>
    unfold perform
    refine Ends.get_bind ((ih σ.1.pointers h hd hholds).mono ?_)
    rintro r υ ⟨hran, hshown⟩
    exact ⟨hran, .pointers hshown⟩
  | setPointers p next ih =>
    unfold perform
    have hset : ∃ new : Session, setPointers p σ = .ok () (new, σ.2) ∧ new.pointers = p ∧
        Ran m (fun _ => True) (fun _ _ => True) σ (new, σ.2) := by
      refine ⟨_, rfl, ?_, ?_⟩ <;> dsimp only
      · split
        · assumption
        · rfl
      · split
        · exact .refl h
        · exact h.session rfl rfl rfl fun _ _ hi => hi
    obtain ⟨new, hnew, hp, hran⟩ := hset
    refine Ends.bind (ends_of_eq_ok (Q := fun r τ => r = .ok () ∧ τ = (new, σ.2)) hnew ⟨rfl, rfl⟩)
      (fun e τ h => nomatch h.1) ?_
    rintro ⟨⟩ τ ⟨-, rfl⟩
    refine (ih hran.at' hd hholds).mono ?_
    rintro r υ ⟨hran', hshown⟩
    exact ⟨hran.trans hran', .setPointers (hp ▸ hshown)⟩

/-! ## The beginning and the end -/

/-- What part of a session comes to, whatever it puts into blocks. -/
abbrev Went (m : Mount) (σ τ : Session × Buffered) : Prop := Ran m (fun _ => True) (fun _ _ => True) σ τ

theorem letGoAll_ran (h : At m σ) : Ends letGoAll σ fun r τ => r = .ok () ∧ Ran m V W σ τ ∧
    τ.1.undo = σ.1.undo := by
  have hunpin : ∀ (l : List Nat) (σ : Session × Buffered), At m σ →
      (∀ i ∈ l, ∃ role, σ.1.held.get role = some i) →
      Ends (l.forM fun i => updateCache (·.setPinned i false)) σ fun r τ =>
        r = .ok () ∧ Ran m V W σ τ ∧ τ.1 = σ.1 := by
    intro l
    induction l with
    | nil => exact fun σ h _ => ⟨rfl, .refl h, rfl⟩
    | cons i rest ih =>
      intro σ h hmem
      show Ends (updateCache (·.setPinned i false) >>= fun _ => rest.forM _) σ _
      obtain ⟨role, hi⟩ := hmem i List.mem_cons_self
      have hran : Ran m V W σ (σ.1, ⟨σ.2.cache.setPinned i false, σ.2.disk⟩) :=
        h.ran (.single (.pin (h.owns role i hi) false)) rfl rfl rfl fun _ _ hi => .inl hi
      refine Ends.modify_bind ((ih _ hran.at' fun j hj => hmem j (List.mem_cons_of_mem i hj)).mono ?_)
      rintro r τ ⟨hr, hτ, hsame⟩
      exact ⟨hr, hran.trans hτ, hsame⟩
  unfold letGoAll
  refine Ends.get_bind (Ends.bind (hunpin _ σ h fun i hi => Holdings.mem_toList.mp hi)
    (fun e τ h => nomatch h.1) ?_)
  rintro ⟨⟩ τ ⟨-, hran, hsame⟩
  refine ⟨rfl, hran.trans (hran.at'.session rfl rfl rfl fun role i hi => ?_),
    show τ.1.undo = _ by rw [hsame]⟩
  cases role <;> cases hi

/-- What is cached of the file are changes that were not taken between two moments. -/
def Rejected (m : Mount) (d : Disk) (s : Buffered) : Prop :=
  ∀ i b, s.cache.buffer? i = some b → b.file = m.file → b.Unwritten m.store d s.disk

theorem release_ran (h : At m σ) (mode : Release) :
    Ends (onCache (Cache.release m.file mode)) σ fun r τ => Ran m V W σ τ ∧ τ.1 = σ.1 ∧
      Rejected m σ.2.disk τ.2 ∧ (r = .ok () → τ.2.Idle m.file) ∧
      ∀ e, r = .error e → Cache.release m.file mode σ.2 = .error e τ.2 := by
  refine h.onCache (P := fun r t => Rejected m σ.2.disk t ∧ (r = .ok () → t.Idle m.file) ∧
    ∀ e, r = .error e → Cache.release m.file mode σ.2 = .error e t)
    (((Cache.release_steps (V := V) (W := W) h.sound h.store mode).and
      ((Cache.release_idle m.file mode).and ends_ending)).mono ?_)
  rintro r t ⟨⟨hsteps, -, hleft⟩, hidle, hr, ht⟩
  refine ⟨hsteps, hleft, hidle, fun e he => eq_error_of_ending ?_⟩
  rw [← he, hr, ht]

/-- The program with the header block read in front. -/
def headed (format : Format) (program : Program α) : Program α :=
  .load .header .null true <| .view .header fun x => .setPointers (Pointers.read format x) program

/-- A call that ends before it looks at a block: a failure was kept for it, or the lock is not
given, or changes from before cannot be written back. -/
inductive Unbegun (m : Mount) (s : Buffered) (d : Disk) : Error → Prop
  | parked {r : Registration} {e : Error} (hr : s.cache.registration? m.file = some r)
      (he : r.pending = some e) : Unbegun m s d e
  | unlocked {d₀ d₁ : Disk} {e : Error} (hfront : s.disk.Reaches d₀)
      (hlock : m.store.lock d₀ = .error e d₁) (hback : d₁.Reaches d) : Unbegun m s d e
  | unflushed {u u' : Buffered} {e : Error} (hfront : s.disk.Reaches u.disk)
      (hrelease : Cache.release m.file .flush u = .error e u') (hback : u'.disk.Reaches d) :
      Unbegun m s d e

/-- A call that was shown only images read in the meantime, or none. -/
def Afresh (m : Mount) (format : Format) (s : Buffered) (program : Program α) (r : Except Error α)
    (t : Buffered) : Prop :=
  (∃ e, r = .error e ∧ Unbegun m s t.disk e) ∨
    (headed format program).Shown m.blockSize (Unloaded m s.disk t.disk) (m.Gave s.disk t.disk) {} r

theorem Afresh.mono {format : Format} {s t u : Buffered} {program : Program α} {r : Except Error α}
    (h : Afresh m format s program r t) (hback : t.disk.Reaches u.disk) :
    Afresh m format s program r u := by
  rcases h with ⟨e, he, hunbegun⟩ | hshown
  · refine .inl ⟨e, he, ?_⟩
    cases hunbegun with
    | parked hr he => exact .parked hr he
    | unlocked hfront hlock hafter => exact .unlocked hfront hlock (hafter.trans hback)
    | unflushed hfront hrelease hafter => exact .unflushed hfront hrelease (hafter.trans hback)
  · refine .inr (hshown.mono ?_ fun q y hgave => hgave.mono .refl hback)
    rintro q read e ⟨u, u', hfetch, hfront, hafter⟩
    exact ⟨u, u', hfetch, hfront, hafter.trans hback⟩

/-- What is cached when a session has begun was read in the meantime. -/
theorem start_shown (h : At m σ) :
    Ends start σ fun r τ => Went m σ τ ∧ (σ.1.locked = true ∨ σ.2.Idle m.file →
      (∀ e, r = .error e → ∀ program : Program α,
        Afresh m σ.1.layout.format σ.2 program (.error e) τ.2) ∧
      (r = .ok () → Holds m (m.Gave σ.2.disk τ.2.disk) τ.2 ∧ ∃ pos x,
        m.Gave σ.2.disk τ.2.disk pos x ∧ τ.1.pointers = Pointers.read σ.1.layout.format x)) := by
  -- the header is read when nothing of the file is cached any more
  have hheader : ∀ {υ : Session × Buffered}, Went m σ υ → Ends (takeHeader σ.1.layout) υ fun r τ =>
        Went m σ τ ∧ (υ.2.Idle m.file → (∀ e, r = .error e → ∀ program : Program α,
            Afresh m σ.1.layout.format σ.2 program (.error e) τ.2) ∧
          (r = .ok () → Holds m (m.Gave σ.2.disk τ.2.disk) τ.2 ∧ ∃ pos x,
            m.Gave σ.2.disk τ.2.disk pos x ∧
              τ.1.pointers = Pointers.read σ.1.layout.format x)) := by
    intro υ hυ
    unfold takeHeader
    have hreach : σ.2.disk.Reaches υ.2.disk := Cache.Through.reaches hυ.steps
    refine Ends.bind (load_ran (V := fun _ => True) (W := fun _ _ => False) hυ.at' .header
      .null true (fun _ => trivial) fun hr => by cases hr) ?_ ?_
    · rintro e τ ⟨hran, -, herror⟩
      refine ⟨hυ.trans (hran.mono (fun _ _ => trivial) fun _ _ _ => trivial),
        fun _ => ⟨fun e' he program => ?_, fun hr => by cases hr⟩⟩
      cases he
      obtain ⟨s, t, hfetch, hfront, hback⟩ := herror e rfl
      exact .inr (.unloaded ⟨s, t, hfetch, hreach.trans hfront, hback⟩)
    · rintro ⟨⟩ τ ⟨hran, -, -⟩
      have hτ : Went m σ τ := hυ.trans (hran.mono (fun _ _ => trivial) fun _ _ _ => trivial)
      have hholds : υ.2.Idle m.file → Holds m (m.Gave σ.2.disk τ.2.disk) τ.2 := by
        intro hidle i b hb hown
        rcases hran.steps.buffers hb with hb | ⟨-, ⟨j, b', hb', hown', -⟩ | hW | hgave⟩
        · exact absurd hown (hidle i b hb)
        · exact absurd hown' (hidle j b' hb')
        · exact hW.elim
        · exact hgave.mono hreach .refl
      refine Ends.bind (hran.at'.holding .header) ?_ ?_
      · rintro e φ ⟨rfl, -, he⟩
        obtain ⟨f, rfl⟩ := (he e rfl).exists_fault
        refine ⟨hτ, fun _ => ⟨fun e' he program => ?_, fun hr => by cases hr⟩⟩
        cases he
        exact .inr (.load .unviewed)
      · rintro ⟨i, b⟩ φ ⟨rfl, hok, -⟩
        obtain ⟨-, hb, hown⟩ := hok i b rfl
        exact Ends.modify_bind (Ends.pure ⟨hτ.trans (hτ.at'.session rfl rfl rfl fun _ _ hi => hi),
          fun hidle => ⟨(fun _ hr => by cases hr), fun _ =>
          ⟨hholds hidle, b.pos, b.image, hholds hidle i b hb hown, rfl⟩⟩⟩)
  unfold start
  refine Ends.get_bind ?_
  dsimp only
  cases hlocked : σ.1.locked with
  | false =>
    simp only [Bool.false_eq_true, if_false, false_or]
    exact (hheader (.refl h)).mono fun r τ h => h
  | true =>
    simp only [if_true, h.file]
    refine Ends.bind (release_ran (V := fun _ => True) (W := fun _ _ => True) h .flush) ?_ ?_
    · rintro e τ ⟨hran, -, -, -, he⟩
      refine ⟨hran, fun _ => ⟨fun e' he' program => ?_, fun hr => by cases hr⟩⟩
      cases he'
      exact .inl ⟨e, rfl, .unflushed .refl (he e rfl) .refl⟩
    · rintro ⟨⟩ τ ⟨hran, -, -, hidle, -⟩
      exact (hheader hran).mono fun r φ hφ => ⟨hφ.1, fun _ => hφ.2 (hidle rfl)⟩

/-- The program of a call, from the beginning of its session. -/
theorem work_shown (program : Program α) (h : At m σ) :
    Ends (do start; perform program) σ fun r τ => Went m σ τ ∧
      (σ.1.locked = true ∨ σ.2.Idle m.file →
        Afresh m σ.1.layout.format σ.2 program r τ.2) := by
  refine Ends.bind (start_shown (α := α) h) (fun e τ hτ => ⟨hτ.1, fun hcached =>
    (hτ.2 hcached).1 e rfl program⟩) ?_
  rintro ⟨⟩ τ ⟨hτ, hbegun⟩
  have hreach : σ.2.disk.Reaches τ.2.disk := Cache.Through.reaches hτ.steps
  by_cases hcached : σ.1.locked = true ∨ σ.2.Idle m.file
  · obtain ⟨hholds, pos, x, hgave, hpointers⟩ := (hbegun hcached).2 rfl
    refine (perform_shown (R := fun _ _ => False) program hτ.at' hreach
      fun i b hb hown => .inr (hholds i b hb hown)).mono ?_
    rintro r υ ⟨hυ, hshown⟩
    have hread := hgave.mono .refl (Cache.Through.reaches hυ.steps)
    refine ⟨hτ.trans hυ, fun _ => .inr (.load (.view (.inl hread) (.setPointers ?_)))⟩
    rw [← hpointers]
    exact hshown.mono (fun _ _ _ h => h) fun q y h => .inl (h.resolve_left id)
  · refine (perform_shown (d := τ.2.disk) (R := fun _ _ => True) program hτ.at' .refl
      fun i b hb hown => .inl trivial).mono ?_
    rintro r υ ⟨hυ, -⟩
    exact ⟨hτ.trans hυ, fun h => absurd h hcached⟩

/-- Blocks are let go of, and written back and given up if the call is to flush. -/
theorem wrapUp_ran (mode : EndMode) (h : At m σ) : Ends (do
      letGoAll
      if mode = .flush then onCache (Cache.release σ.1.file .flush)
      update fun s => { s with undo := [] }) σ fun r τ => Ran m V W σ τ ∧
        (r = .ok () → mode = .flush → τ.2.Idle m.file) := by
  refine Ends.bind (letGoAll_ran (V := V) (W := W) h) (fun e τ h => nomatch h.1) ?_
  rintro ⟨⟩ τ ⟨-, hτ, -⟩
  rw [h.file]
  split
  · refine Ends.bind (release_ran (V := V) (W := W) hτ.at' .flush)
      (fun e φ hφ => ⟨hτ.trans hφ.1, nofun⟩) ?_
    rintro ⟨⟩ φ ⟨hφ, -, -, hidle, -⟩
    have hφ := hτ.trans hφ
    exact Ends.modify_bind (Ends.pure ⟨hφ.trans (hφ.at'.session rfl rfl rfl fun _ _ hi => hi),
      fun _ _ => hidle rfl⟩)
  · next hmode =>
    exact ⟨hτ.trans (hτ.at'.session rfl rfl rfl fun _ _ hi => hi), fun _ hm => absurd hm hmode⟩

/-- A call that is completed leaves nothing cached of the file, if it is to be flushed. -/
theorem complete_went (mode : EndMode) (h : At m σ) :
    Ends (complete mode) σ fun r τ => Went m σ τ ∧
      (r = .ok () → mode = .flush → τ.2.Idle m.file) := by
  have hend : ∀ {υ : Session × Buffered}, υ.1.file = σ.1.file → Went m σ υ → Ends (do
      letGoAll
      if mode = .flush then onCache (Cache.release σ.1.file .flush)
      update fun s => { s with undo := [] }) υ fun r τ => Went m σ τ ∧
        (r = .ok () → mode = .flush → τ.2.Idle m.file) := by
    intro υ hfile hυ
    rw [← hfile]
    exact (wrapUp_ran mode hυ.at').mono fun r τ hτ => ⟨hυ.trans hτ.1, hτ.2⟩
  unfold complete
  refine Ends.get_bind ?_
  dsimp only
  split
  · refine Ends.bind (edit_ran (V := fun _ => True) h .header _) ?_ ?_
    · rintro e τ ⟨-, ⟨i, b, -, -, -, -, hran⟩ | ⟨-, rfl⟩⟩
      · exact ⟨hran.mono (fun _ _ => trivial) fun _ _ _ => trivial, nofun⟩
      · exact ⟨.refl h, nofun⟩
    · rintro ⟨⟩ τ ⟨-, ⟨i, b, -, -, -, -, hran⟩ | ⟨⟨_, -, he⟩, -⟩⟩
      · have hτ : Went m σ τ := hran.mono (fun _ _ => trivial) fun _ _ _ => trivial
        exact Ends.modify_bind (hend (hτ.at'.file.trans h.file.symm)
          (hτ.trans (hτ.at'.session rfl rfl rfl fun _ _ hi => hi)))
      · cases he
  · exact hend rfl (.refl h)

/-- What was kept is put back, if it can be. -/
theorem undo_ran (l : List Undo) (h : At m σ) (hkept : ∀ u ∈ l, ∀ x, u.image = some x → W u.pos x) :
    Ends (l.forM (undoOne m.file)) σ fun r τ => r = .ok () ∧ Ran m V W σ τ := by
  induction l generalizing σ with
  | nil => exact ⟨rfl, .refl h⟩
  | cons u rest ih =>
    show Ends (undoOne m.file u >>= fun _ => rest.forM (undoOne m.file)) σ _
    refine Ends.bind (P := fun r τ => r = .ok () ∧ Ran m V W σ τ) ?_ (fun e τ h => nomatch h.1)
      fun _ τ hτ => (ih hτ.2.at' fun u' hu' => hkept u' (List.mem_cons_of_mem _ hu')).mono
        fun _ _ hυ => ⟨hυ.1, hτ.2.trans hυ.2⟩
    unfold undoOne
    split
    · exact ⟨rfl, h.ran (Cache.steps_forget h.sound) rfl rfl rfl fun _ _ hi => .inl hi⟩
    · next x hx =>
      refine Ends.attempt_bind (h.onCache (V := V) (W := W) (P := fun _ _ => True)
        ((Cache.restore_steps h.sound h.store (hkept u List.mem_cons_self x hx)).mono
          fun _ _ hs => ⟨hs, trivial⟩)) ?_
      rintro r τ ⟨hτ, -⟩
      cases r with
      | ok _ => exact Ends.pure ⟨rfl, hτ⟩
      | error e =>
        exact ⟨rfl, hτ.trans (hτ.at'.ran (.single (.note fun _ => rfl)) rfl rfl rfl
          fun _ _ hi => .inl hi)⟩

/-- A locked session that is taken back leaves nothing cached of the file but what was not taken. -/
theorem rollBack_ran (h : At m σ)
    (hkept : ∀ u ∈ σ.1.undo, ∀ x, u.image = some x → W u.pos x) :
    Ends rollBack σ fun r τ => r = .ok () ∧ Ran m V W σ τ ∧
      (σ.1.locked = true → Rejected m σ.2.disk τ.2) := by
  unfold rollBack
  refine Ends.bind (letGoAll_ran (V := V) (W := W) h) (fun e τ h => nomatch h.1) ?_
  rintro ⟨⟩ τ ⟨-, hτ, hundo⟩
  refine Ends.get_bind (Ends.modify_bind ?_)
  have hυ : Ran m V W σ ({ τ.1 with undo := [] }, τ.2) :=
    hτ.trans (hτ.at'.session rfl rfl rfl fun _ _ hi => hi)
  rw [hτ.at'.file, hτ.locked]
  refine Ends.bind (undo_ran (V := V) (W := W) τ.1.undo hυ.at' (hundo ▸ hkept))
    (fun e φ h => nomatch h.1) ?_
  rintro ⟨⟩ φ ⟨-, hφ⟩
  have hφ := hυ.trans hφ
  split
  · refine Ends.attempt_bind (release_ran (V := V) (W := W) hφ.at' .flush) ?_
    rintro r ψ ⟨hψ, -, hleft, -⟩
    exact Ends.pure ⟨rfl, hφ.trans hψ, fun _ i b hb hown =>
      (hleft i b hb hown).mono (Cache.Through.reaches hφ.steps) .refl⟩
  · next hlocked => exact Ends.pure ⟨rfl, hφ, fun h => absurd h hlocked⟩

theorem rollBack_went (h : At m σ) :
    Ends rollBack σ fun r τ => r = .ok () ∧ Went m σ τ ∧
      (σ.1.locked = true → Rejected m σ.2.disk τ.2) :=
  rollBack_ran h fun _ _ _ _ => trivial

theorem unlock_steps : Ends (unlock m.store) σ fun _ τ =>
    Cache.Steps m V W σ.2 τ.2 ∧ τ.2.cache = σ.2.cache := by
  unfold unlock
  refine Ends.get_bind (Ends.modify_bind ?_)
  have hask : Ends (Cache.onDisk (m.store.ask .unlock 0 0)) σ.2 fun _ t =>
      Cache.Through m V W (none, σ.2) (none, t) := Cache.through_ask .unlock 0 0
  dsimp only
  split
  · refine (onCache_ends (σ := ({ σ.1 with locked := false }, σ.2)) (hask.and (Cache.onDisk_ends
        (P := fun _ _ => True) (m.store.ask_ends _ .unlock 0 0 |>.mono fun _ _ _ => trivial)))).mono ?_
    rintro r τ ⟨-, hsteps, hcache, -⟩
    exact ⟨hsteps, hcache⟩
  · exact ⟨.refl, rfl⟩

/-- What is left in the cache when changes were not taken is left there by an access to the disk. -/
theorem Rejected.unlock {s t : Buffered} (h : Rejected m d s) (hcache : t.cache = s.cache)
    (hreach : s.disk.Reaches t.disk) : Rejected m d t := by
  intro i b hb hown
  rw [hcache] at hb
  exact (h i b hb hown).mono .refl hreach

/-- A session that is taken back, and then gives its lock back. -/
theorem rollBack_unlocked (h : At m σ) : Ends rollBack σ fun _ τ =>
    Ends (unlock m.store) τ fun _ υ => Cache.Steps m (fun _ => True) (fun _ _ => True) σ.2 υ.2 ∧
      (σ.1.locked = true → Rejected m σ.2.disk υ.2) := by
  refine (rollBack_went h).mono ?_
  rintro r τ ⟨-, hτ, hleft⟩
  refine (unlock_steps (V := fun _ => True) (W := fun _ _ => True)).mono ?_
  rintro o υ ⟨hυ, hcache⟩
  exact ⟨hτ.steps.trans hυ, fun hlocked => (hleft hlocked).unlock hcache (Cache.Through.reaches hυ)⟩

/-- The first part of a call. If it fails under the lock, nothing is left cached of the file but
what was not taken. -/
theorem body_shown (program : Program α) (h : At m σ) :
    Ends (body m.store program) σ fun r τ => Cache.Steps m (fun _ => True) (fun _ _ => True) σ.2 τ.2 ∧
      (σ.1.locked = true ∨ σ.2.Idle m.file → Afresh m σ.1.layout.format σ.2 program r τ.2) ∧
      (∀ a, r = .ok a → Went m σ τ) ∧
      ∀ e, r = .error e → σ.1.locked = true → Rejected m σ.2.disk τ.2 := by
  refine ends_body (work_shown program h) ?_ ?_
  · rintro a τ ⟨hτ, hshown⟩
    exact ⟨hτ.steps, hshown, fun _ _ => hτ, nofun⟩
  · rintro e τ ⟨hτ, hshown⟩
    refine (rollBack_unlocked hτ.at').mono fun _ υ hυ => hυ.mono ?_
    rintro _ φ ⟨hsteps, hleft⟩
    exact ⟨hτ.steps.trans hsteps, fun hcached => (hshown hcached).mono (Cache.Through.reaches hsteps),
      nofun, fun e' he hlocked i b hb hown => (hleft (hτ.locked.trans hlocked) i b hb hown).mono
        (Cache.Through.reaches hτ.steps) .refl⟩

/-- The last part of a call. If it is to flush, nothing is left cached of the file, or under the
lock what was not taken. -/
theorem finish_went (mode : EndMode) (h : At m σ) :
    Ends (finish m.store mode) σ fun r τ => ∃ ended, r = .ok ended ∧
      Cache.Steps m (fun _ => True) (fun _ _ => True) σ.2 τ.2 ∧
        (mode = .flush → ended = .ok () → τ.2.Idle m.file) ∧
        (mode = .flush → σ.1.locked = true → Rejected m σ.2.disk τ.2) := by
  refine ends_finish (complete_went mode h) ?_ ?_
  · rintro τ ⟨hτ, hidle⟩
    refine (unlock_steps (V := fun _ => True) (W := fun _ _ => True)).mono ?_
    rintro unlocked υ ⟨hυ, hcache⟩
    have hidle : mode = .flush → υ.2.Idle m.file := fun hmode i b hb =>
      hidle rfl hmode i b (hcache ▸ hb)
    exact ⟨hτ.steps.trans hυ, fun hmode _ => hidle hmode,
      fun hmode _ i b hb hown => absurd hown (hidle hmode i b hb)⟩
  · rintro e τ ⟨hτ, -⟩
    refine (rollBack_unlocked hτ.at').mono fun _ υ hυ => hυ.mono ?_
    rintro _ φ ⟨hsteps, hleft⟩
    exact ⟨hτ.steps.trans hsteps, nofun, fun _ hlocked i b hb hown =>
      (hleft (hτ.locked.trans hlocked) i b hb hown).mono (Cache.Through.reaches hτ.steps) .refl⟩

/-! ## Calls -/

/-- What a call comes to, whatever is refused and whatever the blocks of the file hold. -/
structure Transacted (m : Mount) (format : Format) (mode : EndMode) (locked : Bool)
    (program : Program α) (s : Buffered) (o : Except Error (α × Except Error Unit)) (t : Buffered) :
    Prop where
  steps : Cache.Steps m (fun _ => True) (fun _ _ => True) s t
  /-- A call that goes well leaves nothing cached of the file, if it is to flush. -/
  idle : mode = .flush → ∀ a, o = .ok (a, .ok ()) → t.Idle m.file
  /-- One under the lock leaves nothing but changes that were not taken. -/
  left : mode = .flush → locked = true → ∀ i b, t.cache.buffer? i = some b → b.file = m.file →
    s.cache.buffer? i = some b ∨ b.Unwritten m.store s.disk t.disk
  /-- It looks only at images that are read in the meantime. -/
  shown : locked = true ∨ s.Idle m.file →
    Afresh m format s program (o.map Prod.fst) t

/-- A call that begins later, when no failure is kept for it. -/
theorem Afresh.front {s u t : Buffered} {format : Format} {program : Program α} {r : Except Error α}
    (hfront : s.disk.Reaches u.disk)
    (hpending : ∀ reg, u.cache.registration? m.file = some reg → reg.pending = none)
    (h : Afresh m format u program r t) : Afresh m format s program r t := by
  rcases h with ⟨e, he, hunbegun⟩ | hshown
  · refine .inl ⟨e, he, ?_⟩
    cases hunbegun with
    | parked hr he =>
      rw [hpending _ hr] at he
      cases he
    | unlocked hbefore hlock hback => exact .unlocked (hfront.trans hbefore) hlock hback
    | unflushed hbefore hrelease hback => exact .unflushed (hfront.trans hbefore) hrelease hback
  · refine .inr (hshown.mono ?_ fun q y hgave => hgave.mono hfront .refl)
    rintro q read e ⟨v, v', hfetch, hbefore, hafter⟩
    exact ⟨v, v', hfetch, hfront.trans hbefore, hafter⟩

/-- The kept failure of an earlier call is told, or there is none. -/
theorem takePending_told (m : Mount) (s : Buffered) :
    Ends (Cache.takePending m.file) s fun r t => Cache.Steps m (fun _ => True) (fun _ _ => True) s t ∧
      t.cache.buffer? = s.cache.buffer? ∧
      ((∃ e reg, r = .ok (some e) ∧ s.cache.registration? m.file = some reg ∧
          reg.pending = some e) ∨
        r = .ok none ∧ ∀ reg, t.cache.registration? m.file = some reg → reg.pending = none) := by
  refine Cache.takePending_steps.and ((Cache.takePending_ends _).mono ?_)
  rintro _ _ ⟨rfl, rfl⟩
  refine ⟨rfl, ?_⟩
  cases hkept : (s.cache.registration? m.file).bind Registration.pending with
  | some e =>
    obtain ⟨reg, hreg, he⟩ := Option.bind_eq_some_iff.mp hkept
    exact .inl ⟨e, reg, rfl, hreg, he⟩
  | none =>
    refine .inr ⟨rfl, fun reg hreg => ?_⟩
    rw [Cache.registration?_modifyFile, if_pos rfl] at hreg
    obtain ⟨_, -, rfl⟩ := Option.map_eq_some_iff.mp hreg
    rfl

/-- A call once its session begins. -/
theorem carry_steps (mode : EndMode) (program : Program α) (h : At m σ) :
    Ends (do
      let a ← body m.store program
      let ended ← finish m.store mode
      return (a, ended)) σ fun o τ =>
        Transacted m σ.1.layout.format mode σ.1.locked program σ.2 o τ.2 := by
  refine ends_carry (body_shown program h) ?_ ?_
  · rintro e τ ⟨hsteps, hshown, -, hleft⟩
    exact ⟨hsteps, fun _ => nofun, fun _ hlocked i b hb hown => .inr (hleft e rfl hlocked i b hb hown),
      hshown⟩
  · rintro a τ ⟨hsteps, hshown, hwent, -⟩
    have hτ := hwent a rfl
    refine (finish_went mode hτ.at').mono ?_
    rintro _ υ ⟨ended, rfl, hsteps', hidle, hleft⟩
    refine ⟨ended, rfl, hsteps.trans hsteps', fun hmode b hb => ?_, fun hmode hlocked i b hb hown =>
      .inr ?_,
      fun hcached => (hshown hcached).mono (Cache.Through.reaches hsteps')⟩
    · cases hb
      exact hidle hmode rfl
    · exact (hleft hmode (hτ.locked.trans hlocked) i b hb hown).mono
        (Cache.Through.reaches hsteps) .refl

/-- What comes before a session: the blocks stay as they are. A failure that was kept is told, or
the lock is not given, or no failure is kept any more. -/
structure Entered (m : Mount) (V : BlockPos → Prop) (W : BlockPos → Bytes → Prop) (s : Buffered)
    (r : Except Error Store) (t : Buffered) : Prop where
  steps : Cache.Steps m V W s t
  buffers : t.cache.buffer? = s.cache.buffer?
  error : ∀ e, r = .error e →
    (∃ reg, s.cache.registration? m.file = some reg ∧ reg.pending = some e) ∨
      ∃ d, s.disk.Reaches d ∧ m.store.lock d = .error e t.disk
  ok : ∀ store, r = .ok store → store = m.store ∧
    ∀ reg, t.cache.registration? m.file = some reg → reg.pending = none

theorem enter_ends {s : Buffered} (locked : Bool) (hstore : s.cache.store? m.file = some m.store) :
    Ends (enter m.file locked) s (Entered m V W s) := by
  refine ends_enter (P := fun t => Cache.Steps m V W s t ∧
    t.cache.buffer? = s.cache.buffer? ∧
      ∀ reg, t.cache.registration? m.file = some reg → reg.pending = none) ?_
    (fun t ht => (ht.1.store _).trans hstore) ?_ ?_
  · refine ((takePending_told m s).and (Cache.takePending_steps (V := V) (W := W))).mono ?_
    rintro _ t ⟨⟨-, hbuffers, ⟨e, reg, rfl, hreg, he⟩ | ⟨rfl, hpending⟩⟩, hsteps⟩
    · refine ⟨_, rfl, fun e' he' => ⟨hsteps, hbuffers, fun e'' he'' => .inl ⟨reg, hreg, ?_⟩, nofun⟩,
        nofun⟩
      cases he'
      cases he''
      exact he
    · exact ⟨_, rfl, nofun, fun _ => ⟨hsteps, hbuffers, hpending⟩⟩
  · rintro - t ⟨hsteps, hbuffers, hpending⟩
    have hlock : Ends (Cache.onDisk m.store.lock) t fun r u => Cache.Steps m V W t u ∧
        u.cache = t.cache ∧ ∀ e, r = .error e → m.store.lock t.disk = .error e u.disk := by
      refine Ends.and (Cache.through_ask .lock 0 0) ((Cache.onDisk_ends ends_ending).mono ?_)
      rintro r u ⟨hcache, hr, hd⟩
      refine ⟨hcache, fun e he => eq_error_of_ending ?_⟩
      rw [← he, hr, hd]
    refine hlock.mono ?_
    rintro r u ⟨hsteps', hcache, hrefused⟩
    have hbuffers : u.cache.buffer? = s.cache.buffer? := by rw [hcache, hbuffers]
    refine ⟨fun e he => ⟨hsteps.trans hsteps', hbuffers, fun e' he' => .inr ?_, nofun⟩,
      fun _ => ⟨hsteps.trans hsteps', hbuffers, nofun, ?_⟩⟩
    · cases he'
      exact ⟨_, Cache.Through.reaches hsteps, hrefused e he⟩
    · rintro _ ⟨⟩
      exact ⟨rfl, hcache ▸ hpending⟩
  · rintro - t ⟨hsteps, hbuffers, hpending⟩
    refine ⟨hsteps, hbuffers, nofun, ?_⟩
    rintro _ ⟨⟩
    exact ⟨rfl, hpending⟩

/-- A session that begins over a sound cache. -/
theorem At.begin {l : Layout} {s : Buffered} (locked : Bool) (hsize : l.blockSize = m.blockSize)
    (hsound : s.cache.Sound none) (hstore : s.cache.store? m.file = some m.store) :
    At m ({ file := m.file, layout := l, locked := locked }, s) := by
  refine ⟨rfl, hsize, hsound, hstore, ?_⟩
  intro role i hi
  cases role <;> cases hi

/-- The session of a call that is let in. -/
theorem Transacted.entered {s u t : Buffered} {format : Format} {mode : EndMode} {locked : Bool}
    {program : Program α} {o : Except Error (α × Except Error Unit)} {store : Store}
    (henter : Entered m (fun _ => True) (fun _ _ => True) s (.ok store) u)
    (h : Transacted m format mode locked program u o t) :
    Transacted m format mode locked program s o t := by
  have hreach : s.disk.Reaches u.disk := Cache.Through.reaches henter.steps
  refine ⟨henter.steps.trans h.steps, h.idle, fun hmode hlocked i b hb hown => ?_, fun hcached => ?_⟩
  · rw [← henter.buffers]
    exact (h.left hmode hlocked i b hb hown).imp_right fun hleft => hleft.mono hreach .refl
  · refine (h.shown (hcached.imp_right fun hidle i b hb => ?_)).front hreach (henter.ok store rfl).2
    exact hidle i b (henter.buffers ▸ hb)

/-- A call that ends before its session begins. -/
theorem Transacted.of_unbegun {s t : Buffered} {format : Format} {mode : EndMode} {locked : Bool}
    {program : Program α} {e : Error} (hsteps : Cache.Steps m (fun _ => True) (fun _ _ => True) s t)
    (hbuffers : t.cache.buffer? = s.cache.buffer?) (h : Unbegun m s t.disk e) :
    Transacted m format mode locked program s (.error e) t :=
  ⟨hsteps, fun _ => nofun, fun _ _ _ _ hb _ => .inl (hbuffers ▸ hb), fun _ => .inl ⟨e, rfl, h⟩⟩

/-- A call, whatever is refused and whatever the blocks of the file hold. -/
theorem transact_steps (locked : Bool) (mode : EndMode) {l : Layout} (program : Program α)
    {s : Buffered}
    (hsize : l.blockSize = m.blockSize) (hsound : s.cache.Sound none)
    (hstore : s.cache.store? m.file = some m.store) :
    Ends (transact m.file l locked mode program) s (Transacted m l.format mode locked program s) := by
  refine ends_transact (enter_ends (V := fun _ => True) (W := fun _ _ => True) locked hstore) ?_ ?_
  · intro e t ht
    refine .of_unbegun ht.steps ht.buffers ?_
    rcases ht.error e rfl with ⟨reg, hreg, he⟩ | ⟨d, hreach, hlock⟩
    · exact .parked hreg he
    · exact .unlocked hreach hlock .refl
  · intro store t ht
    obtain ⟨rfl, -⟩ := ht.ok store rfl
    have hat := At.begin locked hsize (ht.steps.sound hsound hstore)
      ((ht.steps.store _).trans hstore)
    exact (carry_steps mode program hat).mono fun o τ h => h.entered ht

end Session

end PagedIndex
