import PagedIndex.Proofs.Cache.Mirror
import PagedIndex.Proofs.Codec.Capacity
import PagedIndex.Proofs.Session.Failures
import PagedIndex.Proofs.Session.TidyFiles

/-!
# Programs that keep the length of blocks

Shown blocks as long as blocks are, a program leaves them so, and fails only with certain errors: it
is abandoned at most under a condition, or it never lacks room in a block. It is then carried out so
over any file, whatever this holds, whatever is cached of it, and whatever is refused.

## Main definitions

* `Program.Sized` — a program that keeps the length of blocks and fails with certain errors only.
* `Program.KeepsLength`, `Program.Ample` — a program that is abandoned at most under a condition,
  and one that never lacks room either.
* `Mount.Fit`, `Session.Fit` — a file whose cached blocks are as long as blocks are.
* `Confined` — a computation that does not fail for lack of room.

## Main statements

* `Session.perform_fit` — such a program is carried out.
* `Session.transact_keepsLength` — a whole call.
* `Cache.purge_fit` — the release of all that is not in use.
-/

namespace PagedIndex

/-- A program that fails with errors of `F` only, as long as it is shown images of `size` bytes, and
that leaves images of that size. Of the value that it ends with `Q` is true. -/
inductive Program.Sized {α : Type} (F : Error → Prop) (size : Nat) (Q : α → Prop) : Program α → Prop
  | done {a : α} (ha : Q a) : Sized F size Q (.done a)
  | fail {e : Error} (he : F e) : Sized F size Q (.fail e)
  | load {role : Role} {pos : BlockPos} {read : Bool} {next : Program α}
      (hnext : Sized F size Q next) : Sized F size Q (.load role pos read next)
  | view {role : Role} {next : Bytes → Program α}
      (hnext : ∀ x : Bytes, x.length = size → Sized F size Q (next x)) :
      Sized F size Q (.view role next)
  | edit {role : Role} {change : Edit} {next : Program α}
      (hchange : ∀ x : Bytes, x.length = size → (change x).1.length = size ∧
        ∀ e, (change x).2 = .error e → F e)
      (hnext : Sized F size Q next) : Sized F size Q (.edit role change next)
  | pointers {next : Pointers → Program α} (hnext : ∀ p, Sized F size Q (next p)) :
      Sized F size Q (.pointers next)
  | setPointers {p : Pointers} {next : Program α} (hnext : Sized F size Q next) :
      Sized F size Q (.setPointers p next)

namespace Program.Sized

variable {α β : Type} {F F' : Error → Prop} {size : Nat} {P : α → Prop} {Q : β → Prop}
  {program : Program α} {f : α → Program β}

theorem mono (h : program.Sized F size P) (hF : ∀ e, F e → F' e) : program.Sized F' size P := by
  induction h with
  | done ha => exact .done ha
  | fail he => exact .fail (hF _ he)
  | load _ ih => exact .load ih
  | view _ ih => exact .view ih
  | edit hchange _ ih =>
    exact .edit (fun x hx => ⟨(hchange x hx).1, fun e he => hF e ((hchange x hx).2 e he)⟩) ih
  | pointers _ ih => exact .pointers ih
  | setPointers _ ih => exact .setPointers ih

theorem bind (h : program.Sized F size P) (hf : ∀ a, P a → (f a).Sized F size Q) :
    (program >>= f).Sized F size Q := by
  show (program.bind f).Sized F size Q
  induction h with
  | done ha => exact hf _ ha
  | fail he => exact .fail he
  | load _ ih => exact .load ih
  | view _ ih => exact .view ih
  | edit hchange _ ih => exact .edit hchange ih
  | pointers _ ih => exact .pointers ih
  | setPointers _ ih => exact .setPointers ih

theorem pure {a : α} (ha : P a) : (Pure.pure a : Program α).Sized F size P := .done ha

theorem ofExcept {x : Except Error α} (hx : ∀ e, x = .error e → F e) (h : ∀ a, x = .ok a → P a) :
    (Program.ofExcept x).Sized F size P := by
  cases x with
  | ok a => exact .done (h a rfl)
  | error e => exact .fail (hx e rfl)

end Program.Sized

/-- A program that keeps the length of blocks and is abandoned only if `C`. -/
abbrev Program.KeepsLength {α : Type} (C : Prop) (size : Nat) (Q : α → Prop) (program : Program α) :
    Prop :=
  program.Sized (fun e => e = .outOfRange → C) size Q

/-- One that never fails for lack of room either. -/
abbrev Program.Ample {α : Type} (C : Prop) (size : Nat) (Q : α → Prop) (program : Program α) : Prop :=
  program.Sized (fun e => ¬e.Overfull ∧ (e = .outOfRange → C)) size Q

/-- A computation that keeps `I`, that is abandoned only if `C`, and whose value is one of `P`. -/
abbrev KeepsLength {σ α : Type} (C : Prop) (I : σ → Prop) (P : α → Prop) (x : EStateM Error σ α) :
    Prop :=
  (Guarantee.ofInvariant I fun e => e = .outOfRange → C).Meets P x

/-- `x` keeps `I`, does not fail for lack of room, and its value is one of `P`. -/
abbrev Confined {σ α : Type} (I : σ → Prop) (P : α → Prop) (x : EStateM Error σ α) : Prop :=
  (Guarantee.ofInvariant I fun e => ¬e.Overfull).Meets P x

/-- A cache has no failures for lack of room. -/
theorem Error.OfCache.not_overfull {e : Error} (h : e.OfCache) : ¬e.Overfull := by
  cases h with
  | disk h => cases h <;> nofun
  | unknown => nofun
  | pool h => cases h <;> nofun

namespace Program

variable {α : Type} {C C' : Prop} {size : Nat} {P : α → Prop} {program : Program α}

theorem KeepsLength.weaken (h : program.KeepsLength C size P) (hC : C → C') :
    program.KeepsLength C' size P :=
  h.mono fun _ he hr => hC (he hr)

/-- A program that never lacks room is abandoned only where it says so. -/
theorem Ample.keepsLength (h : program.Ample C size P) :
    program.KeepsLength C size P := h.mono fun _ he => he.2

theorem KeepsLength.ofExcept {x : Except Error α} (hx : InRange x) (h : ∀ a, x = .ok a → P a) :
    (Program.ofExcept x).KeepsLength C size P :=
  Sized.ofExcept (fun _ he hr => absurd (he.trans (congrArg _ hr)) hx) h

theorem Ample.edit {role : Role} {change : Edit} {next : Program α}
    (hchange : ∀ x : Bytes, x.length = size → (change x).1.length = size ∧
      Contained (change x).2 ∧ ((change x).2 = .error .outOfRange → C))
    (hnext : next.Ample C size P) : (Program.edit role change next).Ample C size P :=
  Sized.edit (fun x hx => ⟨(hchange x hx).1, fun e he =>
    ⟨(hchange x hx).2.1 e he, fun hr => (hchange x hx).2.2 (hr ▸ he)⟩⟩) hnext

theorem Ample.ofExcept {x : Except Error α} (hx : Contained x) (hr : InRange x)
    (h : ∀ a, x = .ok a → P a) : (Program.ofExcept x).Ample C size P :=
  Sized.ofExcept (fun e he => ⟨hx e he, fun h => absurd (he.trans (congrArg _ h)) hr⟩) h

end Program

/-! ## Files with blocks of full length -/

/-- A file whose cached blocks are as long as blocks are, between two calls. No abandonment is kept
for the next one. -/
structure Mount.Fit (m : Mount) (s : Buffered) : Prop where
  sound : s.cache.Sound none
  store : s.cache.store? m.file = some m.store
  length : ∀ i b, s.cache.buffer? i = some b → b.file = m.file → b.image.length = m.blockSize
  clear : s.Clear m.file

namespace Session

/-- A session that works on such a file. What it has kept of blocks is as long, and there is room
for the chain pointers in a block. -/
structure Fit (m : Mount) (σ : Session × Buffered) : Prop where
  at' : At m σ
  room : 1 + 4 * σ.1.layout.format.positionWidth ≤ m.blockSize
  length : ∀ i b, σ.2.cache.buffer? i = some b → b.file = m.file → b.image.length = m.blockSize
  undo : ∀ u ∈ σ.1.undo, ∀ x, u.image = some x → x.length = m.blockSize
  clear : σ.2.Clear m.file

/-- The blocks keep their length, and the failures are certain ones. -/
def fitting (m : Mount) (F : Error → Prop) : Guarantee Error (Session × Buffered) :=
  .ofInvariant (Fit m) F

variable {m : Mount} {C : Prop} {F : Error → Prop} {α : Type} {Q : α → Prop} {V : BlockPos → Prop}
  {W : BlockPos → Bytes → Prop} {σ τ : Session × Buffered} {s t : Buffered} {l : Layout}
  {program : Program α}

/-- A block is read in full. -/
theorem length_of_gave {d d' : Disk} {pos : BlockPos} {x : Bytes} (h : m.Gave d d' pos x) :
    x.length = m.blockSize := by
  obtain ⟨e, e', -, hread, -⟩ := h
  exact Mount.length_read? (((Cache.readImage_told m pos e).of_ok hread).2.2.1 x rfl)

/-- Steps that put in images of full length leave the cached blocks as long as they are. -/
theorem length_of_steps (h : Cache.Steps m V W s t) (hW : ∀ p x, W p x → x.length = m.blockSize)
    (hs : ∀ i b, s.cache.buffer? i = some b → b.file = m.file → b.image.length = m.blockSize) :
    ∀ i b, t.cache.buffer? i = some b → b.file = m.file → b.image.length = m.blockSize := by
  intro i b hb hown
  rcases h.buffers hb with hb | ⟨-, ⟨j, b', hb', hown', -, himage⟩ | hnew | hgave⟩
  · exact hs i b hb hown
  · exact himage ▸ hs j b' hb' hown'
  · exact hW _ _ hnew
  · exact length_of_gave hgave

theorem Fit.ran (h : Fit m σ) (hran : Ran m V W σ τ) (hW : ∀ p x, W p x → x.length = m.blockSize)
    (hundo : ∀ u ∈ τ.1.undo, ∀ x, u.image = some x → x.length = m.blockSize)
    (hclear : τ.2.Clear m.file) : Fit m τ :=
  ⟨hran.at', by rw [hran.layout]; exact h.room, length_of_steps hran.steps hW h.length, hundo, hclear⟩

/-- A session that changes only parts of its own. -/
theorem Fit.session {new : Session} (h : Fit m σ) (hfile : new.file = σ.1.file)
    (hlayout : new.layout = σ.1.layout)
    (hheld : ∀ role i, new.held.get role = some i → σ.1.held.get role = some i)
    (hundo : ∀ u ∈ new.undo, ∀ x, u.image = some x → x.length = m.blockSize) : Fit m (new, σ.2) :=
  ⟨⟨hfile.trans h.at'.file, by rw [hlayout]; exact h.at'.size, h.at'.sound, h.at'.store,
    fun role i hi => h.at'.owns role i (hheld role i hi)⟩, by rw [hlayout]; exact h.room, h.length,
    hundo, h.clear⟩

theorem update_fit {f : Session → Session}
    (hf : ∀ σ : Session × Buffered, Fit m σ → Fit m (f σ.1, σ.2)) :
    (fitting m F).Covers (update f) := .modify hf

/-! ## Carrying out a program -/

theorem load_undo (role : Role) (pos : BlockPos) (read : Bool) :
    Ends (load role pos read) σ fun _ τ => τ.1.undo = σ.1.undo := by
  unfold load
  refine Ends.bind (letGo_held role) (fun e τ h => by cases h.1) ?_
  rintro ⟨⟩ τ ⟨-, hτ⟩
  have hundo : τ.1.undo = σ.1.undo := by rw [hτ]
  refine Ends.get_bind (Ends.bind (onCache_ends (P := fun _ _ => True)
    (ends_ending.mono fun _ _ _ => trivial)) ?_ ?_)
  · rintro e υ ⟨hυ, -⟩
    rw [hυ]
    exact hundo
  · rintro i υ ⟨hυ, -⟩
    show υ.1.undo = _
    rw [hυ]
    exact hundo

theorem edit_undo (h : Fit m σ) (role : Role) (change : Edit) : Ends (edit role change) σ fun _ τ =>
    ∀ u ∈ τ.1.undo, ∀ x, u.image = some x → x.length = m.blockSize := by
  unfold edit
  refine Ends.bind (h.at'.holding role) ?_ ?_
  · rintro e τ ⟨rfl, -⟩
    exact h.undo
  · rintro ⟨i, b⟩ τ ⟨rfl, hok, -⟩
    obtain ⟨-, hb, hown⟩ := hok i b rfl
    exact Ends.modify_bind (Ends.modify_bind (ends_settle (remembering_kept
      (P := fun _ x => x.length = m.blockSize) h.undo (h.length i b hb hown))))

section

variable (hF : ∀ e, e.OfCache → F e)
include hF

theorem load_fit (role : Role) (pos : BlockPos) (read : Bool) :
    (fitting m F).Covers (load role pos read) := by
  intro σ h
  refine ((load_ran (V := fun _ => True) (W := fun _ y => y = List.replicate m.blockSize filler) h.at'
    role pos read (fun _ => trivial) fun _ => rfl).and ((load_keepsClear hF role pos read σ
      h.clear).and (load_undo role pos read))).mono ?_
  rintro r τ ⟨⟨hran, -⟩, ⟨hr, hclear, -⟩, hundo⟩
  refine ⟨hr, h.ran hran (fun _ _ hy => ?_) (hundo ▸ h.undo) hclear, fun _ _ => trivial⟩
  rw [hy, List.length_replicate]

/-- The block of a role is as long as blocks are. -/
theorem holding_fit (role : Role) :
    (fitting m F).Meets (fun ib => ib.2.image.length = m.blockSize) (holding role) := by
  intro σ h
  refine (h.at'.holding role).mono ?_
  rintro r τ ⟨rfl, hok, herror⟩
  refine ⟨fun e hr => ?_, h, fun ib hib => ?_⟩
  · exact hF _ (.pool (herror e hr))
  · obtain ⟨-, hb, hown⟩ := hok ib.1 ib.2 hib
    exact h.length _ _ hb hown

theorem edit_fit (role : Role) {change : Edit} (hchange : ∀ x : Bytes, x.length = m.blockSize →
    (change x).1.length = m.blockSize ∧ ∀ e, (change x).2 = .error e → F e) :
    (fitting m F).Covers (edit role change) := by
  intro σ h
  have hclear := ((parts_keepsClear (f := m.file) (F := fun _ => True) fun _ _ => trivial).edit role
    change
    fun _ _ _ => trivial) σ h.clear
  refine ((edit_ran (V := fun _ => True) h.at' role change).and (hclear.and
    (edit_undo h role change))).mono ?_
  rintro r τ ⟨⟨-, ⟨i, b, -, hb, hown, rfl, hran⟩ | ⟨⟨e, he, rfl⟩, rfl⟩⟩, ⟨-, hclear, -⟩, hundo⟩
  · obtain ⟨hlength, hr⟩ := hchange b.image (h.length i b hb hown)
    refine ⟨hr, h.ran hran ?_ hundo hclear, fun _ _ => trivial⟩
    rintro q y ⟨-, rfl⟩
    exact hlength
  · exact .error h (hF _ (.pool he))

/-- A program that keeps the length of blocks is carried out. -/
theorem perform_fit (hprogram : program.Sized F m.blockSize Q) :
    (fitting m F).Meets Q (perform program) := by
  induction hprogram with
  | done ha => exact .pure ha
  | fail he => exact .throw he
  | load _ ih => exact (load_fit hF _ _ _).bind fun _ _ => ih
  | view _ ih => exact (holding_fit hF _).bind fun ib hlength => ih _ hlength
  | edit hchange _ ih => exact (edit_fit hF _ hchange).bind fun _ _ => ih
  | pointers _ ih => exact .get_bind fun σ _ => ih _
  | setPointers _ ih =>
    refine (update_fit fun σ h => ?_).bind fun _ _ => ih
    split
    · exact h
    · exact h.session rfl rfl (fun _ _ hi => hi) h.undo

/-! ## The beginning and the end -/

theorem release_fit (mode : Release) :
    (fitting m F).Covers (onCache (Cache.release m.file mode)) := by
  intro σ h
  refine ((release_ran (V := fun _ => True) (W := fun _ _ => False) h.at' mode).and
    (onCache_meets ((Cache.parts_keepsClear (f := m.file) hF).release m.file mode) σ h.clear)).mono ?_
  rintro r τ ⟨⟨hran, hsession, -⟩, hr, hclear, -⟩
  exact ⟨hr, h.ran hran (fun _ _ hW => hW.elim) (hsession ▸ h.undo) hclear, fun _ _ => trivial⟩

theorem start_fit : (fitting m F).Covers start := by
  intro σ h
  have hheader : (fitting m F).Covers (takeHeader σ.1.layout) :=
    (load_fit hF _ _ _).bind fun _ _ => (holding_fit hF _).bind fun ib _ =>
      update_fit fun τ hτ => hτ.session rfl rfl (fun _ _ hi => hi) hτ.undo
  unfold start
  refine Ends.get_bind ?_
  dsimp only
  rw [h.at'.file]
  exact Guarantee.Meets.ite_bind (release_fit hF .flush) hheader σ h

theorem letGoAll_fit : (fitting m F).Covers letGoAll := by
  intro σ h
  refine ((letGoAll_ran (V := fun _ => True) (W := fun _ _ => False) h.at').and
    ((parts_keepsClear hF).letGoAll σ h.clear)).mono ?_
  rintro r τ ⟨⟨-, hran, hundo⟩, hr, hclear, -⟩
  exact ⟨hr, h.ran hran (fun _ _ hW => hW.elim) (hundo ▸ h.undo) hclear, fun _ _ => trivial⟩

theorem unlock_fit : (Guarantee.ofInvariant (fun σ : Session × Buffered => m.Fit σ.2) F).Covers
    (unlock m.store) := by
  intro σ h
  refine ((unlock_steps (V := fun _ => True) (W := fun _ _ => False)).and
    (unlock_keepsClear hF m.store σ h.clear)).mono ?_
  rintro r τ ⟨⟨-, hcache⟩, hr, hclear, -⟩
  exact ⟨hr, ⟨by rw [hcache]; exact h.sound, by rw [hcache]; exact h.store,
    by rw [hcache]; exact h.length, hclear⟩, fun _ _ => trivial⟩

/-- The work of a call, from the beginning of its session. -/
theorem work_fit (hprogram : program.Sized F m.blockSize Q) :
    (fitting m F).Meets Q (do start; perform program) :=
  (start_fit hF).bind fun _ _ => perform_fit hF hprogram

end

/-- A program that never lacks room is carried out. -/
theorem perform_confined (hprogram : program.Ample C m.blockSize Q) :
    Confined (Fit m) Q (perform program) :=
  perform_fit (fun _ he => he.not_overfull) (hprogram.mono fun _ he => he.1)

/-! ## Calls that are abandoned -/

theorem complete_fit (mode : EndMode) : KeepsLength C (Fit m) (fun _ => True) (complete mode) := by
  have hF : ∀ e : Error, e.OfCache → e = .outOfRange → C := fun e he hr => absurd hr he.ne_outOfRange
  rintro ⟨session, below⟩ h
  have hrest : KeepsLength C (Fit m) (fun _ => True) (do
      letGoAll
      if mode = .flush then onCache (Cache.release m.file .flush)
      update fun s => { s with undo := [] }) :=
    (letGoAll_fit hF).bind fun _ _ => Guarantee.Meets.ite_bind (release_fit hF .flush)
      (update_fit fun τ hτ => hτ.session rfl rfl (fun _ _ hi => hi) (by simp))
  unfold complete
  refine Ends.get_bind ?_
  have hfile : session.file = m.file := h.at'.file
  dsimp only
  rw [hfile]
  split
  · refine ((edit_fit hF .header fun x hx => ⟨?_, fun e he hr => ?_⟩).bind
      fun _ _ => (update_fit fun τ hτ => ?_).bind fun _ _ => hrest) _ h
    · rw [Pointers.length_write _ _ (by rw [hx]; exact h.room), hx]
    · exact absurd (he.trans (congrArg _ hr)) (Pointers.inRange_write _ _)
    · exact hτ.session rfl rfl (fun _ _ hi => hi) hτ.undo
  · exact hrest _ h

/-- What a session leaves when it ends. -/
theorem Fit.mount (h : Fit m σ) : m.Fit σ.2 := ⟨h.at'.sound, h.at'.store, h.length, h.clear⟩

/-- Changes are taken back, and then the lock is given back. -/
theorem rollBack_fit (h : Fit m σ) : Ends rollBack σ fun _ τ =>
    Ends (unlock m.store) τ fun _ υ => m.Fit υ.2 := by
  refine ((rollBack_ran (V := fun _ => True) (W := fun _ x => x.length = m.blockSize) h.at'
    h.undo).and (rollBack_keepsClear σ h.clear)).mono ?_
  rintro r τ ⟨⟨-, hran, -⟩, -, hclear, -⟩
  exact (unlock_fit (F := Error.OfCache) fun _ => id).leads ⟨hran.at'.sound, hran.at'.store,
    length_of_steps hran.steps (fun _ _ hx => hx) h.length, hclear⟩

/-- The first part of a call. -/
theorem body_fit (hwork : Ends (do start; perform program) σ fun r τ =>
      (∀ e, r = .error e → e = .outOfRange → C) ∧ Fit m τ ∧ ∀ a, r = .ok a → Q a) :
    Ends (body m.store program) σ fun r τ => (∀ e, r = .error e → e = .outOfRange → C) ∧ m.Fit τ.2 ∧
      ∀ a, r = .ok a → Fit m τ ∧ Q a := by
  refine ends_body hwork ?_ ?_
  · rintro a τ ⟨-, hτ, ha⟩
    exact ⟨nofun, hτ.mount, fun b hb => ⟨hτ, ha b hb⟩⟩
  · rintro e τ ⟨hr, hτ, -⟩
    exact (rollBack_fit hτ).mono fun _ _ hυ => hυ.mono fun _ _ hφ => ⟨by simpa using hr, hφ, nofun⟩

/-- The last part of a call. -/
theorem finish_fit (mode : EndMode) (h : Fit m σ) : Ends (finish m.store mode) σ fun r τ =>
    ∃ ended, r = .ok ended ∧ m.Fit τ.2 ∧ (ended = .error .outOfRange → C) := by
  refine ends_finish (complete_fit (C := C) mode σ h) ?_ ?_
  · rintro τ ⟨-, hτ, -⟩
    refine (unlock_fit (F := Error.OfCache) (fun _ => id) τ hτ.mount).mono ?_
    rintro unlocked υ ⟨hr, hυ, -⟩
    exact ⟨hυ, fun he => absurd rfl (hr _ he).ne_outOfRange⟩
  · rintro e τ ⟨hr, hτ, -⟩
    exact (rollBack_fit hτ).mono fun _ _ hυ => hυ.mono fun _ _ hφ => ⟨hφ, fun he => hr _ he rfl⟩

/-- A session that holds nothing yet. -/
theorem fit_new {locked : Bool} (hsize : l.blockSize = m.blockSize)
    (hroom : 1 + 4 * l.format.positionWidth ≤ m.blockSize) (h : m.Fit s) :
    Fit m ({ file := m.file, layout := l, locked := locked }, s) := by
  have hnone : ∀ role i, ¬ (({} : Holdings).get role = some i) := by
    intro role i hi
    cases role <;> cases hi
  exact ⟨⟨rfl, hsize, h.sound, h.store, fun role i hi => absurd hi (hnone role i)⟩, hroom, h.length,
    by simp, h.clear⟩

/-- A call whose work is abandoned only if `C`, from all states of which `I` is true. The end of the
call is abandoned only so, too, and it leaves the file as it should be. -/
theorem transact_fit {I : Buffered → Prop} (locked : Bool) (mode : EndMode)
    (hpending : ∀ s, I s → Ends (Cache.takePending m.file) s fun _ t => I t)
    (hlock : ∀ s, I s → Ends (Cache.onDisk m.store.lock) s fun _ t => I t)
    (hwork : ∀ s, I s → Fit m ({ file := m.file, layout := l, locked := locked }, s) →
      Ends (do start; perform program) ({ file := m.file, layout := l, locked := locked }, s)
        fun r τ => (∀ e, r = .error e → e = .outOfRange → C) ∧ Fit m τ ∧ ∀ a, r = .ok a → Q a)
    (hsize : l.blockSize = m.blockSize) (hroom : 1 + 4 * l.format.positionWidth ≤ m.blockSize)
    (h : m.Fit s) (hs : I s) : Ends (transact m.file l locked mode program) s fun r t =>
      (∀ e, r = .error e → e = .outOfRange → C) ∧ m.Fit t ∧
        ∀ o, r = .ok o → Q o.1 ∧ (o.2 = .error .outOfRange → C) := by
  have henter : Ends (enter m.file locked) s fun r t =>
      (∀ e, r = .error e → e ≠ .outOfRange) ∧ m.Fit t ∧ I t ∧ ∀ store, r = .ok store →
        store = m.store := by
    refine ends_enter (P := fun t => m.Fit t ∧ I t) ?_ (fun t ht => ht.1.store) ?_ ?_
    · refine ((Cache.takePending_keepsClear (F := fun _ => True) s h.clear).and
        ((takePending_told m s).and (hpending s hs))).mono ?_
      rintro _ t ⟨⟨-, hclear, hkept⟩, ⟨hsteps, hbuffers, htold⟩, hI⟩
      have ht : m.Fit t := ⟨hsteps.sound h.sound h.store, (hsteps.store _).trans h.store,
        by rw [hbuffers]; exact h.length, hclear⟩
      rcases htold with ⟨e, _, rfl, -⟩ | ⟨rfl, -⟩
      · refine ⟨_, rfl, fun e' he' => ⟨fun e'' he'' => ?_, ht, hI, nofun⟩, nofun⟩
        cases he'
        cases he''
        exact fun hr => hkept _ rfl (congrArg some hr)
      · exact ⟨_, rfl, nofun, fun _ => ⟨ht, hI⟩⟩
    · rintro - t ⟨ht, hI⟩
      refine ((Cache.onDisk_keepsClear (f := m.file) (m.store.ask_fails 0 .lock 0) t ht.clear).and
        ((Cache.onDisk_ends ends_ending).and (hlock t hI))).mono ?_
      rintro r u ⟨⟨hr, hclear, -⟩, ⟨hcache, -⟩, hu⟩
      have hfit : m.Fit u := ⟨by rw [hcache]; exact ht.sound, by rw [hcache]; exact ht.store,
        by rw [hcache]; exact ht.length, hclear⟩
      refine ⟨fun e he => ⟨fun e' he' => ?_, hfit, hu, nofun⟩, fun _ => ⟨nofun, hfit, hu, ?_⟩⟩
      · cases he'
        exact (Error.OfCache.disk (hr _ he)).ne_outOfRange
      · rintro _ ⟨⟩
        rfl
    · rintro - t ⟨ht, hI⟩
      exact ⟨nofun, ht, hI, fun _ hstore => (Except.ok.inj hstore).symm⟩
  refine ends_transact henter ?_ ?_
  · rintro e t ⟨hr, ht, -⟩
    exact ⟨fun e' he' hrange => absurd hrange (hr e' (by cases he'; rfl)), ht, nofun⟩
  · rintro store t ⟨-, ht, hI, hstore⟩
    obtain rfl := hstore store rfl
    refine ends_carry (body_fit (hwork t hI (fit_new hsize hroom ht))) ?_ ?_
    · rintro e τ ⟨hr, hτ, -⟩
      exact ⟨by simpa using hr, hτ, nofun⟩
    · rintro a τ ⟨-, -, hok⟩
      obtain ⟨hτ, ha⟩ := hok a rfl
      refine (finish_fit (C := C) mode hτ).mono ?_
      rintro r υ ⟨ended, hended, hυ, hrange⟩
      refine ⟨ended, hended, nofun, hυ, ?_⟩
      rintro _ ⟨⟩
      exact ⟨ha, hrange⟩

/-- A call is abandoned only where its program may be, and so is its end. It leaves the file as it
should be. -/
theorem transact_keepsLength (hprogram : program.KeepsLength C m.blockSize Q)
    (hsize : l.blockSize = m.blockSize)
    (hroom : 1 + 4 * l.format.positionWidth ≤ m.blockSize) (locked : Bool) (mode : EndMode) :
    KeepsLength C m.Fit (fun o => Q o.1 ∧ (o.2 = .error .outOfRange → C))
      (transact m.file l locked mode program) :=
  fun _ h => transact_fit (I := fun _ => True) locked mode
    (fun _ _ => ends_ending.mono fun _ _ _ => trivial)
    (fun _ _ => ends_ending.mono fun _ _ _ => trivial)
    (fun _ _ hfit => work_fit (fun _ he hr => absurd hr he.ne_outOfRange) hprogram _ hfit)
    hsize hroom h trivial

end Session

/-! ## Releasing what is not in use -/

namespace Cache

/-- All that is not in use is released, in whatever files. -/
theorem purge_fit {m : Mount} {s : Buffered} (h : m.Fit s) : Ends purge s fun _ t => m.Fit t := by
  have hone : ∀ (s : Buffered) i b, m.Fit s → s.cache.buffer? i = some b →
      Ends (releaseBuffer .flush i) s ((Guarantee.ofInvariant m.Fit Error.OfCache).Post
        (fun r => ∀ e, r = .error e → e.OfCache) s) := by
    intro s i b h hb
    have hsteps := releaseBuffer_steps (m := m) (V := fun _ => True) (W := fun _ _ => False) h.sound hb
      (nofun : Release.flush = .discard → b.file = m.file)
    refine (hsteps.and ((parts_keepsClear (f := m.file) fun _ => id).releaseBuffer .flush i s
      h.clear)).mono ?_
    rintro r t ⟨⟨hsteps, -⟩, hr, hclear, htold⟩
    exact ⟨hr, ⟨hsteps.sound h.sound h.store, (hsteps.store _).trans h.store,
      Session.length_of_steps hsteps (fun _ _ hW => hW.elim) h.length, hclear⟩, htold⟩
  refine Guarantee.Meets.leads (G := .ofInvariant m.Fit Error.OfCache)
    (purge_covers hone fun file e he => update_covers fun t ht => ?_) h
  have hstores := (@Buffered.Beside.modifyFile file (fun _ => False) t
    (fun r => { r with pending := r.pending <|> some e }) fun _ => rfl).store
  have hclear := (park_keepsClear (F := fun _ => True) (f := m.file) file he.ne_outOfRange).leads
    ht.clear
  have hsound : (t.cache.park file e).Sound none := ht.sound.modifyFile _
  exact ⟨hsound, (hstores _).trans ht.store, ht.length, hclear⟩

end Cache

end PagedIndex
