import PagedIndex.Proofs.Cache.Tidy
import PagedIndex.Proofs.Session.Shown

/-!
# Programs on tidy files

A program keeps files tidy if it loads only blocks that may be there, and puts only tidy images into
them, as long as it is shown tidy blocks. Such a program leaves a tidy file tidy, wherever it fails,
and so does all that a session does about it: what it takes back was tidy, and so is what it could
not take back.

## Main definitions

* `Program.KeepsTidy` — a program that keeps files tidy, and what its value is like.
* `Session.TidySession` — a session that works on a tidy file.
* `Mount.TidyAtRest` — a tidy file between two calls.

## Main statements

* `Session.TidySession.perform` — a session carries out such a program on a tidy file.
* `Session.transact_tidy` — a whole call.
-/

namespace PagedIndex

/-- A program that loads blocks at places where blocks may start, and leaves tidy images there, if
it is shown tidy ones. A block that is not read is behind `mark` and is changed before all else, and
the chain pointers do not go back behind `mark`. Of the value that the program ends with `Q` is
true. -/
inductive Program.KeepsTidy {α : Type} (l : Layout) (mark : BlockPos) (Q : α → Prop) : Program α → Prop
  | done {a : α} (ha : Q a) : KeepsTidy l mark Q (.done a)
  | fail {e : Error} : KeepsTidy l mark Q (.fail e)
  | load {role : Role} {pos : BlockPos} {next : Program α} (hrole : role ≠ .header)
      (hstart : l.Start pos) (hnull : pos ≠ .null) (hnext : KeepsTidy l mark Q next) :
      KeepsTidy l mark Q (.load role pos true next)
  | fresh {role : Role} {pos : BlockPos} {change : Edit} {next : Program α} (hrole : role ≠ .header)
      (hstart : l.Start pos) (hbehind : mark.offset < pos.offset)
      (hchange : ∀ old : Bytes, old.length = l.blockSize → l.Tidy old →
        (change old).1.length = l.blockSize ∧ l.Tidy (change old).1)
      (hnext : KeepsTidy l mark Q next) :
        KeepsTidy l mark Q (.load role pos false (.edit role change next))
  | view {role : Role} {next : Bytes → Program α} (hrole : role ≠ .header)
      (hnext : ∀ x : Bytes, x.length = l.blockSize → l.Tidy x → KeepsTidy l mark Q (next x)) :
      KeepsTidy l mark Q (.view role next)
  | edit {role : Role} {change : Edit} {next : Program α} (hrole : role ≠ .header)
      (hchange : ∀ old : Bytes, old.length = l.blockSize → l.Tidy old →
        (change old).1.length = l.blockSize ∧ l.Tidy (change old).1)
      (hnext : KeepsTidy l mark Q next) : KeepsTidy l mark Q (.edit role change next)
  | pointers {next : Pointers → Program α}
      (hnext : ∀ p : Pointers, p.Lead l → mark.offset ≤ p.highWater.offset →
        KeepsTidy l mark Q (next p)) : KeepsTidy l mark Q (.pointers next)
  | setPointers {p : Pointers} {next : Program α} (hlead : p.Lead l)
      (hmark : mark.offset ≤ p.highWater.offset) (hnext : KeepsTidy l mark Q next) :
      KeepsTidy l mark Q (.setPointers p next)

namespace Program.KeepsTidy

variable {α β : Type} {l : Layout} {mark : BlockPos} {P : α → Prop} {Q : β → Prop} {R : α → Prop}
  {program : Program α} {f : α → Program β}

theorem mono (h : program.KeepsTidy l mark P) (hPR : ∀ a, P a → R a) : program.KeepsTidy l mark R := by
  induction h with
  | done ha => exact .done (hPR _ ha)
  | fail => exact .fail
  | load hrole hstart hnull _ ih => exact .load hrole hstart hnull ih
  | fresh hrole hstart hbehind hchange _ ih => exact .fresh hrole hstart hbehind hchange ih
  | view hrole _ ih => exact .view hrole ih
  | edit hrole hchange _ ih => exact .edit hrole hchange ih
  | pointers _ ih => exact .pointers ih
  | setPointers hlead hmark _ ih => exact .setPointers hlead hmark ih

/-- A program that keeps files tidy goes on with another one. -/
theorem bind (h : program.KeepsTidy l mark P) (hf : ∀ a, P a → (f a).KeepsTidy l mark Q) :
    (program >>= f).KeepsTidy l mark Q := by
  show (program.bind f).KeepsTidy l mark Q
  induction h with
  | done ha => exact hf _ ha
  | fail => exact .fail
  | load hrole hstart hnull _ ih => exact .load hrole hstart hnull ih
  | fresh hrole hstart hbehind hchange _ ih => exact .fresh hrole hstart hbehind hchange ih
  | view hrole _ ih => exact .view hrole ih
  | edit hrole hchange _ ih => exact .edit hrole hchange ih
  | pointers _ ih => exact .pointers ih
  | setPointers hlead hmark _ ih => exact .setPointers hlead hmark ih

theorem ofExcept {x : Except Error α} (h : ∀ a, x = .ok a → P a) :
    (Program.ofExcept x).KeepsTidy l mark P := by
  cases x with
  | ok a => exact .done (h a rfl)
  | error e => exact .fail

end Program.KeepsTidy

/-- A tidy file between two calls. -/
structure Mount.TidyAtRest (m : Mount) (hd : Header) (s : Buffered) : Prop where
  tidy : m.Tidy hd s
  intact : m.Intact none none s
  unpinned : Session.Unpinned s

/-- It is one over every disk with the same bytes in its volume, and reads alike there. -/
theorem Mount.TidyAtRest.of_disk {m : Mount} {hd : Header} {s : Buffered} {d : Disk}
    (h : m.TidyAtRest hd s) (hsize : s.disk.volumes.size ≤ d.volumes.size)
    (hcontents : d.contents m.store.volume = s.disk.contents m.store.volume) :
    m.TidyAtRest hd ⟨s.cache, d⟩ ∧ m.KeepsBut none s ⟨s.cache, d⟩ := by
  have hvolume := Nat.lt_of_lt_of_le h.tidy.volume_lt hsize
  have hstored : ∀ p, m.stored d p = m.stored s.disk p := fun _ => stored_congr hcontents
  refine ⟨⟨⟨h.tidy.size, h.tidy.store, hvolume, h.tidy.contents.congr hcontents, h.tidy.buffers,
    h.tidy.sole⟩, ⟨h.intact.sound, h.intact.enough, h.intact.size_pos, hvolume,
    hcontents ▸ h.intact.header, h.intact.store, h.intact.whole, h.intact.apart,
    fun i b hb hfile hclean hfresh => (hstored _).trans (h.intact.clean i b hb hfile hclean hfresh)⟩,
    h.unpinned⟩, fun p x _ _ hx => ?_⟩
  unfold content at hx ⊢
  rw [hstored]
  exact hx

namespace Session

variable {m : Mount} {hd : Header} {before : BlockPos → Option Bytes} {hw : BlockPos}
  {fresh : Option BlockPos} {σ τ : Session × Buffered} {s t : Buffered} {α : Type} {role : Role}
  {pos : BlockPos} {V : BlockPos → Prop} {W : BlockPos → Bytes → Prop}

/-! ## Sessions on tidy files -/

/-- A session on a tidy file that can be taken back. What it has kept is tidy. -/
structure TidyUndoable (m : Mount) (hd : Header) (before : BlockPos → Option Bytes) (hw : BlockPos)
    (fresh : Option BlockPos) (σ : Session × Buffered) : Prop where
  at' : At m σ
  covered : Covered m before hw hd.layout fresh σ
  tidy : m.Tidy hd σ.2
  undo : ∀ u ∈ σ.1.undo, ∀ x, u.image = some x → hd.layout.Start u.pos ∧ hd.Tidy u.pos x

/-- One that works on: its chain pointers lead to where blocks may start, and it has the header
block for its own role and for no other. -/
structure TidySession (m : Mount) (hd : Header) (before : BlockPos → Option Bytes) (hw : BlockPos)
    (fresh : Option BlockPos) (σ : Session × Buffered) : Prop extends
    TidyUndoable m hd before hw fresh σ where
  lead : σ.1.pointers.Lead hd.layout
  mark : hw.offset ≤ σ.1.pointers.highWater.offset
  roles : ∀ role i b, σ.1.held.get role = some i → σ.2.cache.buffer? i = some b →
    (b.pos = .null ↔ role = .header)

theorem TidyUndoable.size (h : TidyUndoable m hd before hw fresh σ) :
    m.blockSize = hd.blockSize := h.tidy.size

/-- It asks nothing of the session but what it holds and has kept. -/
theorem TidyUndoable.session {new : Session} (h : TidyUndoable m hd before hw fresh σ)
    (hfile : new.file = σ.1.file) (hlayout : new.layout = σ.1.layout)
    (hheld : new.held = σ.1.held) (hundo : new.undo = σ.1.undo)
    (hmark : new.highWater = σ.1.highWater) : TidyUndoable m hd before hw fresh (new, σ.2) :=
  ⟨⟨hfile.trans h.at'.file, by rw [hlayout]; exact h.at'.size, h.at'.sound, h.at'.store,
      fun role i hi => h.at'.owns role i (hheld ▸ hi)⟩,
    ⟨hfile.trans h.covered.file, hlayout.trans h.covered.layout, h.covered.size, h.covered.intact,
      h.covered.pins.session hheld, h.covered.guard.session hundo hmark⟩, h.tidy,
    by rw [hundo]; exact h.undo⟩

/-- What is kept of a block is what it was. -/
theorem remembering_kept {session : Session} {b : Buffer} {P : BlockPos → Bytes → Prop}
    (h : ∀ u ∈ session.undo, ∀ x, u.image = some x → P u.pos x) (hb : P b.pos b.image) :
    ∀ u ∈ (remembering session b).undo, ∀ x, u.image = some x → P u.pos x := by
  unfold remembering
  split
  · exact h
  · intro u hu x hx
    rcases List.mem_append.mp hu with hu | hu
    · exact h u hu x hx
    · obtain rfl := List.mem_singleton.mp hu
      dsimp only at hx ⊢
      split at hx
      · cases hx
      · cases hx
        exact hb

/-- A load is one for its role alone. -/
theorem load_held (role : Role) (pos : BlockPos) (read : Bool) :
    Ends (load role pos read) σ fun r τ =>
      (∀ role', role' ≠ role → τ.1.held.get role' = σ.1.held.get role') ∧
        ∀ e, r = .error e → τ.1.held.get role = none := by
  unfold load
  refine Ends.bind (letGo_held role) (fun e τ h => nomatch h.1) ?_
  rintro ⟨⟩ τ ⟨-, hl⟩
  have hgone : ∀ role', τ.1.held.get role' = if role' = role then none else σ.1.held.get role' := by
    intro role'
    rw [hl, Holdings.get_set]
  refine Ends.get_bind (Ends.bind (onCache_ends (P := fun _ _ => True)
    (Ends.mono ends_ending fun _ _ _ => trivial)) ?_ ?_)
  · rintro e υ ⟨hsame, -⟩
    rw [hsame]
    exact ⟨fun role' hne => by rw [hgone, if_neg hne], fun _ _ => by rw [hgone, if_pos rfl]⟩
  · rintro i υ ⟨hsame, -⟩
    refine ⟨fun role' hne => ?_, nofun⟩
    show (υ.1.held.set role (some i)).get role' = _
    rw [Holdings.get_set, if_neg hne, hsame, hgone, if_neg hne]

/-- A block is loaded that may be there. -/
theorem TidySession.load (h : TidySession m hd before hw none σ) (read : Bool) (hrole : role ≠ .header)
    (hstart : hd.layout.Start pos) (hnull : pos ≠ .null)
    (hnew : read = false → hw.offset < pos.offset) :
    Ends (Session.load role pos read) σ fun r τ =>
      (r = .ok () → TidySession m hd before hw (Mount.unread read pos) τ ∧
        ∃ i b, τ.1.held.get role = some i ∧ τ.2.cache.buffer? i = some b ∧ b.pos = pos) ∧
      ∀ e, r = .error e → TidySession m hd before hw none τ := by
  have hsize := h.size
  have ha := h.tidy.aligned hstart
  have hsizeL : σ.1.layout.blockSize = m.blockSize := h.at'.size
  have hran := load_ran (V := hd.layout.Start) (W := fun p x => hd.layout.Start p ∧ hd.Tidy p x)
    h.at' role pos read (fun _ => hstart) fun _ => ⟨hstart, by rw [hsize]; exact List.length_replicate,
      fun hn => absurd hn hnull, fun _ => Layout.tidy_filled (hsize ▸ h.tidy.contents.size_pos)⟩
  have hends := load_ends h.covered.file hsizeL h.covered.intact h.covered.pins ha role read
  refine (hran.and (hends.and (load_held role pos read))).mono ?_
  rintro r τ ⟨⟨hran, hpointers, -⟩, hl, hsame, hnone⟩
  obtain ⟨held, hsession⟩ := hl.session
  have hτ : ∀ {fresh : Option BlockPos}, m.Intact fresh none τ.2 →
      TidyUndoable m hd before hw fresh τ := fun hi =>
    ⟨hran.at', ⟨hran.at'.file, by rw [hsession]; exact h.covered.layout, h.covered.size, hi, hl.pins,
      h.covered.guard.load hl hnew⟩, Cache.Steps.tidy hran.steps h.tidy,
      by rw [hsession]; exact h.undo⟩
  have hothers : ∀ role', role' ≠ role → ∀ i b, τ.1.held.get role' = some i →
      τ.2.cache.buffer? i = some b → (b.pos = .null ↔ role' = .header) := by
    intro role' hne i b hi hb
    rw [hsame role' hne] at hi
    obtain ⟨b', hb', -⟩ := h.covered.pins.held i (Holdings.mem_toList.mpr ⟨role', hi⟩)
    have hkept := (hl.others role' i b' hne hi hb').2
    rw [hb] at hkept
    cases hkept
    exact h.roles role' i b hi hb'
  refine ⟨?_, ?_⟩
  · rintro rfl
    obtain ⟨hi, i, b, hheld, hb, hpos, -⟩ := hl.ok rfl
    refine ⟨⟨hτ hi, hpointers ▸ h.lead, hpointers ▸ h.mark, fun role' j b' hj hb' => ?_⟩,
      i, b, hheld, hb, hpos⟩
    by_cases hrole' : role' = role
    · subst hrole'
      rw [hheld] at hj
      cases hj
      rw [hb] at hb'
      cases hb'
      rw [hpos]
      exact ⟨fun hn => absurd hn hnull, fun hr => absurd hr hrole⟩
    · exact hothers role' hrole' j b' hj hb'
  · rintro e rfl
    refine ⟨hτ (hl.error e rfl), hpointers ▸ h.lead, hpointers ▸ h.mark, fun role' j b' hj hb' => ?_⟩
    by_cases hrole' : role' = role
    · rw [hrole', hnone e rfl] at hj
      cases hj
    · exact hothers role' hrole' j b' hj hb'

/-- The block of a role gets a tidy image. -/
theorem TidySession.put {change : Edit} {i : Nat} {b : Buffer} (h : TidySession m hd before hw fresh σ)
    (hheld : σ.1.held.get role = some i) (hb : σ.2.cache.buffer? i = some b)
    (hfresh : ∀ q, fresh = some q → q = b.pos) (himage : hd.Tidy b.pos (change b.image).1) :
    Ends (Session.edit role change) σ fun r τ => r = (change b.image).2 ∧
      TidySession m hd before hw none τ ∧ τ.1.pointers = σ.1.pointers ∧
      τ.1.pointersChanged = σ.1.pointersChanged := by
  obtain ⟨b', hb', hfile, -⟩ := h.covered.pins.held i (Holdings.mem_toList.mpr ⟨role, hheld⟩)
  rw [hb] at hb'
  cases hb'
  obtain ⟨hstart, htidy⟩ := h.tidy.buffers i b hb hfile
  have ha := h.tidy.aligned hstart
  have hlen : (change b.image).1.length = m.blockSize := himage.length.trans h.size.symm
  have hold : b.image.length = m.blockSize := htidy.length.trans h.size.symm
  refine ((edit_ends h.covered.intact h.covered.pins hheld hb hfresh hlen).and
    (edit_ran (V := hd.layout.Start) h.at' role change)).mono ?_
  rintro r τ ⟨⟨hr, he⟩, hpointers, hran⟩
  obtain ⟨hτfile, -, hlayout, -, hchanged, hheld', -⟩ := he.same
  have hsteps : Ran m hd.layout.Start (fun p x => hd.layout.Start p ∧ hd.Tidy p x) σ τ := by
    obtain ⟨j, b', hj, hb', -, -, hran⟩ | ⟨-, rfl⟩ := hran
    · rw [hheld] at hj
      cases hj
      rw [hb] at hb'
      cases hb'
      refine hran.mono (fun _ hp => hp) ?_
      rintro p x ⟨rfl, rfl⟩
      exact ⟨hstart, himage⟩
    · exact .refl h.at'
  have hkept : ∀ u ∈ τ.1.undo, ∀ x, u.image = some x → hd.layout.Start u.pos ∧ hd.Tidy u.pos x := by
    rw [he.session]
    exact remembering_kept (P := fun p x => hd.layout.Start p ∧ hd.Tidy p x) h.undo ⟨hstart, htidy⟩
  refine ⟨hr, ⟨⟨hsteps.at', ⟨hsteps.at'.file, hlayout.trans h.covered.layout, h.covered.size,
    he.intact, he.pins, h.covered.guard.edit h.covered.intact.sound he hb hfile ha hold⟩,
    Cache.Steps.tidy hsteps.steps h.tidy,
    hkept⟩, hpointers ▸ h.lead, hpointers ▸ h.mark,
    fun role' j b' hj hb' => ?_⟩, hpointers, hchanged⟩
  rw [hheld'] at hj
  obtain ⟨c, hc, -⟩ := h.covered.pins.held j (Holdings.mem_toList.mpr ⟨role', hj⟩)
  rw [← h.roles role' j c hj hc]
  by_cases hji : j = i
  · subst hji
    rw [he.self] at hb'
    cases hb'
    rw [hb] at hc
    cases hc
    exact Iff.rfl
  · rw [he.others j c hji hc] at hb'
    cases hb'
    exact Iff.rfl

/-- The block of a role other than the header is changed, if it has one. -/
theorem TidySession.edit {change : Edit} (h : TidySession m hd before hw none σ)
    (hrole : role ≠ .header)
    (hchange : ∀ old : Bytes, old.length = hd.layout.blockSize → hd.layout.Tidy old →
      (change old).1.length = hd.layout.blockSize ∧ hd.layout.Tidy (change old).1) :
    Ends (Session.edit role change) σ fun _ τ => TidySession m hd before hw none τ := by
  cases hheld : σ.1.held.get role with
  | none =>
    refine (edit_ran (V := hd.layout.Start) h.at' role change).mono ?_
    rintro r τ ⟨-, ⟨i, b, hi, -⟩ | ⟨-, rfl⟩⟩
    · rw [hheld] at hi
      cases hi
    · exact h
  | some i =>
    obtain ⟨b, hb, hfile, -⟩ := h.covered.pins.held i (Holdings.mem_toList.mpr ⟨role, hheld⟩)
    have hnull : b.pos ≠ .null := fun hn => hrole ((h.roles role i b hheld hb).mp hn)
    have htidy := (h.tidy.buffers i b hb hfile).2
    obtain ⟨hlen, hnew⟩ := hchange b.image htidy.length (htidy.block hnull)
    exact (h.put hheld hb nofun ⟨hlen, fun hn => absurd hn hnull, fun _ => hnew⟩).mono
      fun _ _ hτ => hτ.2.1

/-- A program that keeps files tidy is carried out on a tidy file. -/
theorem TidySession.perform {program : Program α} {Q : α → Prop} (h : TidySession m hd before hw none σ)
    (hprogram : program.KeepsTidy hd.layout hw Q) : Ends (Session.perform program) σ fun r τ =>
      TidySession m hd before hw none τ ∧ ∀ a, r = .ok a → Q a := by
  induction hprogram generalizing σ with
  | done ha =>
    refine ⟨h, fun a hr => ?_⟩
    cases hr
    exact ha
  | fail => exact ⟨h, fun _ hr => by cases hr⟩
  | load hrole hstart hnull _ ih =>
    unfold Session.perform
    exact Ends.bind (h.load true hrole hstart hnull fun hr => by cases hr)
      (fun e τ hτ => ⟨hτ.2 e rfl, fun _ hr => by cases hr⟩)
      fun _ τ hτ => ih (hτ.1 rfl).1
  | @fresh role pos change next hrole hstart hbehind hchange _ ih =>
    have hnull : pos ≠ .null := by
      rintro rfl
      exact absurd hbehind (Nat.not_lt_zero _)
    unfold Session.perform
    refine Ends.bind (h.load false hrole hstart hnull fun _ => hbehind)
      (fun e τ hτ => ⟨hτ.2 e rfl, fun _ hr => by cases hr⟩) ?_
    rintro ⟨⟩ τ ⟨hok, -⟩
    obtain ⟨hτ, i, b, hheld, hb, rfl⟩ := hok rfl
    obtain ⟨b', hb', hfile, -⟩ := hτ.covered.pins.held i (Holdings.mem_toList.mpr ⟨role, hheld⟩)
    rw [hb] at hb'
    cases hb'
    have htidy := (hτ.tidy.buffers i b hb hfile).2
    obtain ⟨hlen, hnew⟩ := hchange b.image htidy.length (htidy.block hnull)
    unfold Session.perform
    exact Ends.bind (hτ.put hheld hb (fun q hq => (Option.some.inj hq).symm)
      ⟨hlen, fun hn => absurd hn hnull, fun _ => hnew⟩) (fun e υ hυ =>
        ⟨hυ.2.1, fun _ hr => by cases hr⟩)
      fun _ υ hυ => ih hυ.2.1
  | @view role next hrole _ ih =>
    unfold Session.perform
    refine Ends.bind (h.at'.holding role) ?_ ?_
    · rintro e τ ⟨rfl, -⟩
      exact ⟨h, fun _ hr => by cases hr⟩
    · rintro ⟨i, b⟩ τ ⟨rfl, hok, -⟩
      obtain ⟨hheld, hb, hfile⟩ := hok i b rfl
      have htidy := (h.tidy.buffers i b hb hfile).2
      exact ih b.image htidy.length
        (htidy.block fun hn => hrole ((h.roles role i b hheld hb).mp hn)) h
  | edit hrole hchange _ ih =>
    unfold Session.perform
    exact Ends.bind (h.edit hrole hchange) (fun e τ hτ => ⟨hτ, fun _ hr => by cases hr⟩)
      fun _ τ hτ => ih hτ
  | pointers _ ih =>
    unfold Session.perform
    exact Ends.get_bind (ih σ.1.pointers h.lead h.mark h)
  | @setPointers p next hlead hmark _ ih =>
    unfold Session.perform
    obtain ⟨session, below⟩ := σ
    refine Ends.modify_bind (ih ?_)
    by_cases hsame : session.pointers = p
    · simpa only [hsame, if_pos] using h
    · simp only [hsame, if_false]
      exact ⟨h.toTidyUndoable.session rfl rfl rfl rfl rfl, hlead, hmark, h.roles⟩

/-! ## The phases of a call -/

/-- The beginning of a session brings in the header block for its own role, and no other block. -/
theorem start_ran (h : At m σ) (hnull : V .null) : Ends start σ fun _ τ => Ran m V W σ τ ∧
    ∀ role, role ≠ .header → τ.1.held.get role = σ.1.held.get role := by
  have hheader : ∀ {υ : Session × Buffered}, Ran m V W σ υ → υ.1 = σ.1 →
      Ends (takeHeader σ.1.layout) υ fun r τ =>
        Ran m V W σ τ ∧ ∀ role, role ≠ .header → τ.1.held.get role = σ.1.held.get role := by
    intro υ hυ hsame
    unfold takeHeader
    refine Ends.bind ((load_ran (V := V) (W := W) hυ.at' .header .null true (fun _ => hnull)
      fun h => by cases h).and (load_held .header .null true)) ?_ ?_
    · rintro e τ ⟨⟨hran, -⟩, hheld, -⟩
      exact ⟨hυ.trans hran, hsame ▸ hheld⟩
    · rintro ⟨⟩ τ ⟨⟨hran, -⟩, hheld, -⟩
      have hτ := hυ.trans hran
      refine Ends.bind (hran.at'.holding .header) ?_ ?_
      · rintro e φ ⟨rfl, -⟩
        exact ⟨hτ, hsame ▸ hheld⟩
      · rintro ib φ ⟨rfl, -⟩
        exact Ends.modify_bind (Ends.pure
          ⟨hτ.trans (hτ.at'.session rfl rfl rfl fun _ _ hi => hi), hsame ▸ hheld⟩)
  unfold start
  refine Ends.get_bind ?_
  dsimp only
  split
  · rw [h.file]
    refine Ends.bind (release_ran (V := V) (W := W) h .flush) ?_ ?_
    · rintro e τ ⟨hran, hsame, -⟩
      exact ⟨hran, fun _ _ => by rw [hsame]⟩
    · rintro ⟨⟩ τ ⟨hran, hsame, -⟩
      exact (hheader hran hsame).mono fun _ _ hφ => hφ
  · exact (hheader (.refl h) rfl).mono fun _ _ hτ => hτ

/-- A session can begin on a tidy file. -/
theorem New.at' {new : Session} (hnew : New m hd.layout new) (h : m.TidyAtRest hd s) :
    At m (new, s) := by
  refine ⟨hnew.file, by rw [hnew.layout]; exact hnew.size, h.intact.sound, h.intact.store,
    fun role i hi => ?_⟩
  rw [hnew.held] at hi
  cases role <;> cases hi

/-- A call begins on a tidy file. -/
theorem start_tidy {new : Session} (h : m.TidyAtRest hd s) (hnew : New m hd.layout new) :
    Ends start (new, s) fun r τ =>
      TidyUndoable m hd (m.content s) τ.1.highWater none τ ∧ m.KeepsBut none s τ.2 ∧
      (r = .ok () → TidySession m hd (m.content s) τ.1.highWater none τ ∧
        τ.1.pointersChanged = false) := by
  have hat := hnew.at' h
  refine ((start_ends hnew.file (by rw [hnew.layout]; exact hnew.size) hnew.held h.intact
    h.unpinned).and (start_ran (V := hd.layout.Start)
      (W := fun p x => hd.layout.Start p ∧ hd.Tidy p x) hat hd.layout.start_null)).mono ?_
  rintro r τ ⟨hbegun, hran, hheld⟩
  obtain ⟨held, pointers, highWater, hsession⟩ := hbegun.session
  have hlayout : τ.1.layout = hd.layout := hran.layout.trans hnew.layout
  have hundo : τ.1.undo = [] := by rw [hsession]; exact hnew.undo
  have htidy := Cache.Steps.tidy hran.steps h.tidy
  have hτ : TidyUndoable m hd (m.content s) τ.1.highWater none τ :=
    ⟨hran.at', ⟨hran.at'.file, hlayout, hnew.size, hbegun.intact, hbegun.pins,
      hbegun.guard hnew.undo⟩, htidy, fun u hu => by rw [hundo] at hu; cases hu⟩
  refine ⟨hτ, hbegun.keeps, ?_⟩
  rintro rfl
  obtain ⟨hmark, i, b, hi, hb, hnull, hread⟩ := hbegun.ok rfl
  obtain ⟨b', hb', hfile, -⟩ := hbegun.pins.held i (Holdings.mem_toList.mpr ⟨.header, hi⟩)
  rw [hb] at hb'
  cases hb'
  have hleads := (htidy.buffers i b hb hfile).2.header hnull
  refine ⟨⟨hτ, ?_, Nat.le_of_eq (congrArg BlockPos.offset hmark), fun role j b' hj hb' => ?_⟩, ?_⟩
  · rw [← hread, hnew.layout]
    exact hleads.pointers
  · by_cases hrole : role = .header
    · subst hrole
      rw [hi] at hj
      cases hj
      rw [hb] at hb'
      cases hb'
      exact ⟨fun _ => rfl, fun _ => hnull⟩
    · rw [hheld role hrole, hnew.held] at hj
      cases role <;> cases hj
  · rw [hsession]
    exact hnew.pointersChanged

/-- The program of a call, from the beginning of its session. -/
theorem work_tidy {program : Program α} {Q : α → Prop} {new : Session} (h : m.TidyAtRest hd s)
    (hnew : New m hd.layout new) (hprogram : ∀ mark, program.KeepsTidy hd.layout mark Q) :
    Ends (do start; perform program) (new, s) fun r τ => ∃ hw,
      TidyUndoable m hd (m.content s) hw none τ ∧
      ∀ a, r = .ok a → Q a ∧ TidySession m hd (m.content s) hw none τ ∧
        (program = .done a → m.KeepsBut none s τ.2 ∧ τ.1.pointersChanged = false) := by
  refine Ends.bind (start_tidy h hnew) (fun e τ hτ => ⟨_, hτ.1, nofun⟩) ?_
  rintro ⟨⟩ τ ⟨-, hkeeps, hτ⟩
  obtain ⟨htidySession, hsame⟩ := hτ rfl
  refine ((htidySession.perform (hprogram _)).and ends_ending).mono ?_
  rintro r υ ⟨⟨hυ, hQ⟩, -, hending⟩
  refine ⟨_, hυ.toTidyUndoable, fun a ha => ⟨hQ a ha, hυ, ?_⟩⟩
  rintro rfl
  obtain rfl : υ = τ := hending
  exact ⟨hkeeps, hsame⟩

/-- A call is taken back. -/
theorem TidyUndoable.rollBack (h : TidyUndoable m hd before hw none σ) :
    Ends Session.rollBack σ fun r τ => r = .ok () ∧ m.TidyAtRest hd τ.2 := by
  refine ((rollBack_ends h.covered.file h.covered.intact h.covered.pins h.covered.guard).and
    (rollBack_ran (V := hd.layout.Start) (W := fun p x => hd.layout.Start p ∧ hd.Tidy p x)
      h.at' h.undo)).mono ?_
  rintro r τ ⟨⟨hr, hback⟩, -, hran, -⟩
  exact ⟨hr, Cache.Steps.tidy hran.steps h.tidy, hback.intact, hback.unpinned⟩

/-- Giving the lock back leaves the file as it is. -/
theorem unlock_tidy (h : m.TidyAtRest hd σ.2) : Ends (unlock m.store) σ fun _ τ =>
    m.TidyAtRest hd τ.2 ∧ (σ.2.Idle m.file → τ.2.Idle m.file) ∧ m.KeepsBut none σ.2 τ.2 := by
  refine ((unlock_ends h.intact).and (unlock_steps (V := hd.layout.Start)
    (W := fun p x => hd.layout.Start p ∧ hd.Tidy p x))).mono ?_
  rintro r τ ⟨⟨hquiet, -⟩, hsteps, -⟩
  exact ⟨⟨Cache.Steps.tidy hsteps h.tidy, hquiet.intact, hquiet.unpinned h.unpinned⟩, hquiet.idle,
    hquiet.keeps⟩

theorem TidyUndoable.takenBack (h : TidyUndoable m hd before hw none σ) :
    Ends Session.rollBack σ fun _ τ =>
    Ends (unlock m.store) τ fun _ υ => m.TidyAtRest hd υ.2 :=
  h.rollBack.mono fun _ _ hτ => (unlock_tidy hτ.2).mono fun _ _ hυ => hυ.1

/-- A call lets go of its blocks, and writes them back if it is to flush. -/
theorem TidyUndoable.wrapUp (mode : EndMode) (h : TidyUndoable m hd before hw none σ) : Ends (do
      letGoAll
      if mode = .flush then onCache (Cache.release σ.1.file .flush)
      update fun s => { s with undo := [] }) σ fun r τ =>
        (r = .ok () → m.TidyAtRest hd τ.2 ∧ (mode = .flush → τ.2.Idle m.file)) ∧
        m.KeepsBut none σ.2 τ.2 ∧ ∀ e, r = .error e → TidyUndoable m hd before hw none τ := by
  refine ((wrapUp_ends mode h.covered.file h.covered.intact h.covered.pins).and
    ((wrapUp_guard mode h.covered.file h.covered.intact h.covered.pins h.covered.guard).and
      (wrapUp_ran (V := hd.layout.Start) (W := fun p x => hd.layout.Start p ∧ hd.Tidy p x) mode
        h.at'))).mono ?_
  rintro r τ ⟨hwrapped, ⟨-, -, -, hguard⟩, hran, -⟩
  have htidy := Cache.Steps.tidy hran.steps h.tidy
  refine ⟨fun hr => ⟨⟨htidy, hwrapped.intact, hwrapped.unpinned⟩,
    fun hmode => hwrapped.idle hmode hr⟩, hwrapped.keeps, ?_⟩
  rintro e rfl
  have hcompleted := hguard e rfl
  refine ⟨hran.at', ⟨hran.at'.file, hran.layout.trans h.covered.layout, h.covered.size,
    hcompleted.intact, hcompleted.pins, hcompleted.guard⟩, htidy, ?_⟩
  rw [hwrapped.session]
  exact h.undo

/-- A call is completed, or it can be taken back. -/
theorem TidySession.complete (mode : EndMode) (h : TidySession m hd before hw none σ) :
    Ends (Session.complete mode) σ fun r τ =>
      (r = .ok () → m.TidyAtRest hd τ.2 ∧ (mode = .flush → τ.2.Idle m.file)) ∧
      (σ.1.pointersChanged = false → m.KeepsBut none σ.2 τ.2) ∧
      ∀ e, r = .error e → TidyUndoable m hd before hw none τ := by
  unfold Session.complete
  refine Ends.get_bind ?_
  dsimp only
  cases hchanged : σ.1.pointersChanged with
  | false =>
    simp only [Bool.false_eq_true, if_false]
    exact (h.toTidyUndoable.wrapUp mode).mono fun r τ hτ => ⟨hτ.1, fun _ => hτ.2.1, hτ.2.2⟩
  | true =>
    simp only [if_true]
    cases hheld : σ.1.held.get .header with
    | none =>
      refine Ends.bind (edit_ran (V := hd.layout.Start) h.at' .header _) ?_ ?_
      · rintro e τ ⟨-, ⟨i, b, hi, -⟩ | ⟨-, rfl⟩⟩
        · rw [hheld] at hi
          cases hi
        · exact ⟨nofun, nofun, fun _ _ => h.toTidyUndoable⟩
      · rintro ⟨⟩ τ ⟨-, ⟨i, b, hi, -⟩ | ⟨⟨_, -, he⟩, -⟩⟩
        · rw [hheld] at hi
          cases hi
        · cases he
    | some i =>
      obtain ⟨b, hb, hfile, -⟩ := h.covered.pins.held i (Holdings.mem_toList.mpr ⟨.header, hheld⟩)
      have hnull : b.pos = .null := (h.roles .header i b hheld hb).mpr rfl
      have htidy := (h.tidy.buffers i b hb hfile).2
      have hwidth : 1 + 4 * hd.format.positionWidth ≤ b.image.length :=
        htidy.length.symm ▸ h.tidy.contents.pointers_le
      have hformat : σ.1.layout.format = hd.format := congrArg Layout.format h.covered.layout
      obtain ⟨hleads, -, hlength⟩ := (htidy.header hnull).write h.lead hwidth
      rw [hformat]
      refine Ends.bind (h.put hheld hb nofun ⟨hlength.trans htidy.length, fun _ => hleads,
        fun hn => absurd hnull hn⟩) (fun e τ hτ => ⟨nofun, nofun, fun _ _ => hτ.2.1.toTidyUndoable⟩) ?_
      rintro ⟨⟩ τ ⟨-, hτ, -⟩
      have hsaved : TidyUndoable m hd before hw none ({ τ.1 with pointersChanged := false }, τ.2) :=
        hτ.toTidyUndoable.session rfl rfl rfl rfl rfl
      rw [h.covered.file.trans hτ.covered.file.symm]
      exact Ends.modify_bind ((hsaved.wrapUp mode).mono fun r υ hυ => ⟨hυ.1, nofun, hυ.2.2⟩)

/-- The first part of a call. If it fails it is taken back. -/
theorem body_tidy {program : Program α} {Q : α → Prop} {new : Session} (h : m.TidyAtRest hd s)
    (hnew : New m hd.layout new) (hprogram : ∀ mark, program.KeepsTidy hd.layout mark Q) :
    Ends (body m.store program) (new, s) fun r τ =>
      (∀ a, r = .ok a → Q a ∧ (∃ hw, TidySession m hd (m.content s) hw none τ) ∧
        (program = .done a → m.KeepsBut none s τ.2 ∧ τ.1.pointersChanged = false)) ∧
      ∀ e, r = .error e → m.TidyAtRest hd τ.2 := by
  refine ends_body (work_tidy h hnew hprogram) ?_ ?_
  · rintro a τ ⟨hw, -, hτ⟩
    refine ⟨fun a' ha => ?_, nofun⟩
    cases ha
    obtain ⟨hQ, htidySession, hdone⟩ := hτ a rfl
    exact ⟨hQ, ⟨hw, htidySession⟩, hdone⟩
  · rintro e τ ⟨hw, htidyUndoable, -⟩
    exact htidyUndoable.takenBack.mono fun _ υ hυ => hυ.mono fun _ φ hφ => ⟨nofun, fun _ _ => hφ⟩

/-- The last part of a call. If it is to flush and ends well, nothing is cached of the file. -/
theorem TidySession.finish (mode : EndMode) (h : TidySession m hd before hw none σ) :
    Ends (Session.finish m.store mode) σ fun r τ => ∃ ended, r = .ok ended ∧ m.TidyAtRest hd τ.2 ∧
      (ended = .ok () → (mode = .flush → τ.2.Idle m.file) ∧
        (σ.1.pointersChanged = false → m.KeepsBut none σ.2 τ.2)) := by
  refine ends_finish (h.complete mode) ?_ ?_
  · rintro τ ⟨hok, hkeeps, -⟩
    obtain ⟨hτ, hflushed⟩ := hok rfl
    refine (unlock_tidy hτ).mono ?_
    rintro _ υ ⟨hυ, hidle, hquiet⟩
    exact ⟨hυ, fun _ => ⟨fun hmode => hidle (hflushed hmode),
      fun hsame => (hkeeps hsame).trans hquiet⟩⟩
  · rintro e τ ⟨-, -, herror⟩
    exact (herror e rfl).takenBack.mono fun _ _ hυ => hυ.mono fun _ _ hφ => ⟨hφ, nofun⟩

/-! ## Whole calls -/

/-- What the cache knows of files beside their stores has no part in a tidy file. -/
theorem tidyAtRest_modifyFile (h : m.TidyAtRest hd s) (file : FileId) {f : Registration → Registration}
    (hf : ∀ r, (f r).store = r.store) :
    m.TidyAtRest hd ⟨s.cache.modifyFile file f, s.disk⟩ ∧
      m.KeepsBut none s ⟨s.cache.modifyFile file f, s.disk⟩ := by
  obtain ⟨hintact, hcontent⟩ := intact_modifyFile h.intact file hf
  have hstores := (@Buffered.Beside.modifyFile file (fun _ => False) s _ hf).store
  exact ⟨⟨h.tidy.of_same hstores (.refl _) rfl fun i b hb hfile => ⟨i, b, hb, hfile, rfl, rfl⟩,
    hintact, h.unpinned⟩, fun p x _ _ hx => (hcontent p).trans hx⟩

/-- The failure that is kept of a file has been taken, and nothing else has happened. -/
structure FailureTaken (m : Mount) (s t : Buffered) : Prop where
  taken : (t.cache.registration? m.file).bind Registration.pending = none
  keeps : m.KeepsBut none s t
  disk : t.disk = s.disk

/-- A failure that is kept is told to the call. -/
theorem takePending_tidy (h : m.TidyAtRest hd s) :
    Ends (Cache.takePending m.file) s fun r t => m.TidyAtRest hd t ∧ FailureTaken m s t ∧
      r = .ok ((s.cache.registration? m.file).bind Registration.pending) := by
  refine (Cache.takePending_ends _).mono ?_
  rintro _ t ⟨rfl, rfl⟩
  obtain ⟨htidyAtRest, hkeeps⟩ := tidyAtRest_modifyFile h m.file
    (f := fun r => { r with pending := none }) fun _ => rfl
  refine ⟨htidyAtRest, ⟨?_, hkeeps, rfl⟩, rfl⟩
  rw [Cache.registration?_modifyFile, if_pos rfl, Option.bind_eq_none_iff]
  intro r hr
  obtain ⟨_, -, rfl⟩ := Option.map_eq_some_iff.mp hr
  rfl

/-- So does a lock that is asked for. -/
theorem lock_tidy (h : m.TidyAtRest hd s) :
    Ends (Cache.onDisk m.store.lock) s fun _ t => m.TidyAtRest hd t ∧ m.KeepsBut none s t := by
  refine (Cache.onDisk_ends (m.store.ask_ends s.disk .lock 0 0)).mono ?_
  rintro r ⟨c, d⟩ ⟨rfl, hfollows, hcontents, -⟩
  exact h.of_disk (Nat.le_of_eq hfollows.size.symm) (hcontents _)

/-- What comes before the session of a call on a tidy file. -/
structure Admitted (m : Mount) (hd : Header) (s : Buffered) (r : Except Error Store) (t : Buffered) :
    Prop where
  tidyAtRest : m.TidyAtRest hd t
  keeps : m.KeepsBut none s t
  store : ∀ store, r = .ok store → store = m.store
  told : ∀ reg e, s.cache.registration? m.file = some reg → reg.pending = some e →
    r = .error e ∧ FailureTaken m s t

theorem enter_tidy (locked : Bool) (h : m.TidyAtRest hd s) :
    Ends (enter m.file locked) s (Admitted m hd s) := by
  refine ends_enter (P := fun t => m.TidyAtRest hd t ∧ FailureTaken m s t ∧
    (s.cache.registration? m.file).bind Registration.pending = none) ?_
    (fun t ht => ht.1.intact.store) ?_ ?_
  · refine (takePending_tidy h).mono ?_
    rintro _ t ⟨ht, hfailureTaken, rfl⟩
    refine ⟨_, rfl, fun e hkept => ⟨ht, hfailureTaken.keeps, nofun, fun reg e' hreg he' => ?_⟩,
      fun hkept => ⟨ht, hfailureTaken, hkept⟩⟩
    rw [hreg, Option.bind_some, he'] at hkept
    exact ⟨congrArg Except.error (Option.some.inj hkept).symm, hfailureTaken⟩
  · rintro - t ⟨ht, hfailureTaken, hnone⟩
    have htold : ∀ {r : Except Error Store} {u : Buffered} reg e,
        s.cache.registration? m.file = some reg → reg.pending = some e → r = .error e ∧
          FailureTaken m s u :=
      fun reg e hreg he => by simp [hreg, he] at hnone
    exact (lock_tidy ht).mono fun r u ⟨hu, hkeeps⟩ =>
      ⟨fun _ _ => ⟨hu, hfailureTaken.keeps.trans hkeeps, nofun, htold⟩,
        fun _ => ⟨hu, hfailureTaken.keeps.trans hkeeps, fun _ hs => (Except.ok.inj hs).symm, htold⟩⟩
  · rintro - t ⟨ht, hfailureTaken, hnone⟩
    exact ⟨ht, hfailureTaken.keeps, fun _ hs => (Except.ok.inj hs).symm,
      fun reg e hreg he => by simp [hreg, he] at hnone⟩

/-- A call once its session begins. -/
theorem carry_tidy (mode : EndMode) {program : Program α} {Q : α → Prop} {new : Session}
    (h : m.TidyAtRest hd s) (hnew : New m hd.layout new)
    (hprogram : ∀ mark, program.KeepsTidy hd.layout mark Q) : Ends (do
      let a ← body m.store program
      let ended ← finish m.store mode
      return (a, ended)) (new, s) fun o τ => m.TidyAtRest hd τ.2 ∧
        ∀ a ended, o = .ok (a, ended) → Q a ∧ (ended = .ok () →
          (mode = .flush → τ.2.Idle m.file) ∧ (program = .done a → m.KeepsBut none s τ.2)) := by
  refine ends_carry (body_tidy h hnew hprogram) (fun e τ hτ => ⟨hτ.2 e rfl, nofun⟩) ?_
  rintro a τ ⟨hτ, -⟩
  obtain ⟨hQ, ⟨hw, htidySession⟩, hdone⟩ := hτ a rfl
  refine (htidySession.finish mode).mono ?_
  rintro _ υ ⟨ended, rfl, hυ, hok⟩
  refine ⟨ended, rfl, hυ, fun a' ended' ho => ?_⟩
  cases ho
  refine ⟨hQ, fun he => ⟨(hok he).1, fun hprogram => ?_⟩⟩
  obtain ⟨hkeeps, hsame⟩ := hdone hprogram
  exact hkeeps.trans ((hok he).2 hsame)

/-- A call whose program keeps files tidy leaves a tidy file tidy, wherever it fails. If it is to
flush and ends well, nothing is cached of the file, and if there is nothing to it but its end, every
block reads as before. -/
theorem transact_tidy (locked : Bool) (mode : EndMode) {program : Program α} {Q : α → Prop}
    (h : m.TidyAtRest hd s) (hprogram : ∀ mark, program.KeepsTidy hd.layout mark Q) :
    Ends (transact m.file hd.layout locked mode program) s fun o t => m.TidyAtRest hd t ∧
      (∀ a ended, o = .ok (a, ended) → Q a ∧ (ended = .ok () →
        (mode = .flush → t.Idle m.file) ∧ (program = .done a → m.KeepsBut none s t))) ∧
      ∀ reg e, s.cache.registration? m.file = some reg → reg.pending = some e →
        o = .error e ∧ FailureTaken m s t := by
  refine ends_transact (enter_tidy locked h) ?_ ?_
  · rintro e t ⟨ht, -, -, htold⟩
    refine ⟨ht, nofun, fun reg e' hreg he' => ?_⟩
    obtain ⟨ho, hfailureTaken⟩ := htold reg e' hreg he'
    cases ho
    exact ⟨rfl, hfailureTaken⟩
  · rintro store t ⟨ht, hkeeps, hstore, htold⟩
    obtain rfl := hstore store rfl
    refine (carry_tidy mode ht ⟨rfl, rfl, ht.tidy.size.symm, rfl, rfl, rfl, rfl⟩ hprogram).mono ?_
    rintro o τ ⟨hτ, hok⟩
    refine ⟨hτ, fun a ended ho => ?_, fun reg e hreg he => nomatch (htold reg e hreg he).1⟩
    obtain ⟨hQ, hended⟩ := hok a ended ho
    exact ⟨hQ, fun he => ⟨(hended he).1, fun hdone => hkeeps.trans ((hended he).2 hdone)⟩⟩

end Session

end PagedIndex
