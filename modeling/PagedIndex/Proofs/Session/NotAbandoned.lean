import PagedIndex.Proofs.Cache.Seen
import PagedIndex.Proofs.Session.Fit
import PagedIndex.Proofs.Session.Reading

/-!
# Programs on files as they are seen

Whether a program is abandoned may depend on what the blocks hold, and on what it has put into them
before. A program is said not to be abandoned on a view if it is not when it finds the blocks as
they are in the view, wherever a block may be refused. On a tidy file that nobody else writes to,
blocks are found as they were seen when the call began, but for those that the program has changed.

## Main definitions

* `Program.NotAbandoned` — a program that is not abandoned on a view.
* `Mount.view` — all blocks of a file as they are seen.
* `Session.SeesView` — a session in which blocks are seen as in a view.

## Main statements

* `Program.notAbandoned_of_reader` — a program that only looks, and keeps the length of blocks.
* `Session.TidySession.perform_notAbandoned` — a program that is not abandoned is carried out.
* `Session.transact_notAbandoned` — a whole call.
-/

namespace PagedIndex

/-- A program that is not abandoned when it finds blocks of `size` bytes as they are in a view. Of
the value and the view that it ends with `Q` is true. -/
def Program.NotAbandoned {α : Type} (size : Nat) (Q : α → View → Prop) : Program α → View → Prop
  | .done a, v => Q a v
  | .fail e, _ => e ≠ .outOfRange
  | .load role pos read next, v => read = true ∧ next.NotAbandoned size Q (v.hold role pos)
  | .view role next, v => ∀ pos x, v.held role = some pos → v.blocks pos = some x →
      x.length = size → (next x).NotAbandoned size Q v
  | .edit role change next, v => ∀ pos x, v.held role = some pos → v.blocks pos = some x →
      x.length = size → (change x).2 ≠ .error .outOfRange ∧
        ((change x).2 = .ok () → next.NotAbandoned size Q (v.put pos (change x).1))
  | .pointers next, v => (next v.pointers).NotAbandoned size Q v
  | .setPointers p next, v => next.NotAbandoned size Q { v with pointers := p }

namespace Program

variable {α β : Type} {size : Nat} {P Q : α → View → Prop} {R : β → View → Prop}
  {program : Program α} {f : α → Program β} {v : View}

theorem NotAbandoned.mono (h : program.NotAbandoned size P v) (hPQ : ∀ a w, P a w → Q a w) :
    program.NotAbandoned size Q v := by
  induction program generalizing v with
  | done a => exact hPQ a v h
  | fail => exact h
  | load role pos read next ih => exact ⟨h.1, ih h.2⟩
  | view role next ih => exact fun pos x hheld hx hlength => ih x (h pos x hheld hx hlength)
  | edit role change next ih =>
    intro pos x hheld hx hlength
    obtain ⟨hrange, hnext⟩ := h pos x hheld hx hlength
    exact ⟨hrange, fun hok => ih (hnext hok)⟩
  | pointers next ih => exact ih _ h
  | setPointers p next ih => exact ih h

/-- A program goes on with another one. -/
theorem NotAbandoned.bind (h : program.NotAbandoned size P v)
    (hf : ∀ a w, P a w → (f a).NotAbandoned size R w) : (program >>= f).NotAbandoned size R v := by
  show (program.bind f).NotAbandoned size R v
  induction program generalizing v with
  | done a => exact hf a v h
  | fail => exact h
  | load role pos read next ih => exact ⟨h.1, ih h.2⟩
  | view role next ih => exact fun pos x hheld hx hlength => ih x (h pos x hheld hx hlength)
  | edit role change next ih =>
    intro pos x hheld hx hlength
    obtain ⟨hrange, hnext⟩ := h pos x hheld hx hlength
    exact ⟨hrange, fun hok => ih (hnext hok)⟩
  | pointers next ih => exact ih _ h
  | setPointers p next ih => exact ih h

/-- A program that only looks at blocks leaves them as they are. -/
theorem notAbandoned_of_reader {Q : α → Prop} (hreader : program.Reader)
    (h : program.KeepsLength False size Q) :
    program.NotAbandoned size (fun a w => Q a ∧ w.blocks = v.blocks ∧ w.pointers = v.pointers) v := by
  have hall : ∀ w, w.blocks = v.blocks ∧ w.pointers = v.pointers → program.NotAbandoned size
      (fun a w => Q a ∧ w.blocks = v.blocks ∧ w.pointers = v.pointers) w := by
    induction hreader with
    | done =>
      cases h with
      | done ha => exact fun w hw => ⟨ha, hw⟩
    | fail =>
      cases h with
      | fail he => exact fun _ _ => he
    | read _ ih =>
      cases h with
      | load h =>
        cases h with
        | view h => exact fun w hw => ⟨rfl, fun pos x _ _ hlength => ih x (h x hlength) _ hw⟩
    | pointers _ ih =>
      cases h with
      | pointers h => exact fun w hw => ih _ (h _) w hw
  exact hall v ⟨rfl, rfl⟩

end Program

/-- All blocks of a file as they are seen, with the chain pointers of its header. No role holds
one. -/
def Mount.view (m : Mount) (l : Layout) (s : Buffered) : View where
  blocks p := some (m.seen s p)
  held _ := none
  pointers := .read l.format (m.seen s .null)

namespace Session

variable {m : Mount} {hd : Header} {before : BlockPos → Option Bytes} {hw : BlockPos}
  {fresh : Option BlockPos} {σ τ : Session × Buffered} {s t : Buffered} {α : Type} {v : View}
  {V : BlockPos → Prop} {program : Program α} {Q : α → View → Prop} {P : α → Prop}

/-! ## Sessions and views -/

/-- A session in which blocks are seen as in a view. No abandonment is kept for the next call. -/
structure SeesView (m : Mount) (l : Layout) (v : View) (σ : Session × Buffered) : Prop where
  blocks : ∀ p, l.Start p → v.blocks p = some (m.seen σ.2 p)
  held : ∀ role i b, role ≠ .header → σ.1.held.get role = some i → σ.2.cache.buffer? i = some b →
    v.held role = some b.pos
  pointers : v.pointers = σ.1.pointers
  clear : σ.2.Clear m.file

/-- A block is loaded for a role. -/
theorem SeesView.load {role : Role} {pos : BlockPos} (hv : SeesView m hd.layout v σ)
    (h : TidySession m hd before hw none σ) (hrole : role ≠ .header) (hstart : hd.layout.Start pos)
    (hnull : pos ≠ .null) : Ends (Session.load role pos true) σ fun r τ => r ≠ .error .outOfRange ∧
      (r = .ok () → TidySession m hd before hw none τ ∧ SeesView m hd.layout (v.hold role pos) τ) := by
  have hran := load_ran (V := hd.layout.Start) (W := fun _ _ => False) h.at' role pos true
    (fun _ => hstart) (by simp)
  have hends := load_ends h.covered.file h.at'.size h.covered.intact h.covered.pins
    (h.tidy.aligned hstart) role true
  refine ((h.load true hrole hstart hnull (by simp)).and (hran.and (hends.and
    ((load_held role pos true).and (load_keepsClear (fun _ => id) role pos true σ hv.clear))))).mono ?_
  rintro r τ ⟨⟨hok, -⟩, ⟨hran, hpointers, -⟩, hloaded, ⟨hsame, -⟩, hr, hclear, -⟩
  refine ⟨fun he => (hr _ he).ne_outOfRange rfl, fun hr => ?_⟩
  obtain ⟨hτ, i, b, hi, hb, hpos⟩ := hok hr
  refine ⟨hτ, fun p hp => ?_, fun role' j b' hrole' hj hb' => ?_, hv.pointers.trans hpointers.symm,
    hclear⟩
  · have hseen := hran.steps.seen h.tidy (fun _ => id) h.covered.intact.sound hloaded.keeps
      (h.tidy.aligned hp)
    exact (hv.blocks p hp).trans (congrArg some hseen.symm)
  · by_cases heq : role' = role
    · subst heq
      simp_all [View.hold]
    · rw [hsame role' heq] at hj
      obtain ⟨b'', hb'', -⟩ := h.covered.pins.held j (Holdings.mem_toList.mpr ⟨role', hj⟩)
      have hkept := (hloaded.others role' j b'' heq hj hb'').2
      obtain rfl := Option.some.inj (hb'.symm.trans hkept)
      simpa [View.hold, heq] using hv.held role' j b' hrole' hj hb''

/-- The block that a role holds is found as it is in the view. -/
theorem SeesView.found {role : Role} {i : Nat} {b : Buffer} (hv : SeesView m hd.layout v σ)
    (h : TidySession m hd before hw none σ) (hrole : role ≠ .header)
      (hheld : σ.1.held.get role = some i)
    (hb : σ.2.cache.buffer? i = some b) :
    v.held role = some b.pos ∧ v.blocks b.pos = some b.image ∧ b.pos ≠ .null ∧
      hd.Tidy b.pos b.image := by
  have hfile := h.covered.file_of_held hheld hb
  obtain ⟨hstart, htidy⟩ := h.tidy.buffers i b hb hfile
  have hblock := hv.blocks b.pos hstart
  rw [Mount.seen_of_buffer h.covered.intact.sound hb hfile] at hblock
  exact ⟨hv.held role i b hrole hheld hb, hblock,
    fun hn => hrole ((h.roles role i b hheld hb).mp hn), htidy⟩

/-- A change touches the cache only. -/
theorem edit_disk (h : At m σ) (role : Role) (change : Edit) :
    Ends (Session.edit role change) σ fun _ τ => τ.2.disk = σ.2.disk := by
  unfold Session.edit
  refine Ends.bind (h.holding role) (fun e τ hτ => by rw [hτ.1]) ?_
  rintro ⟨i, b⟩ τ ⟨rfl, -⟩
  exact Ends.modify_bind (Ends.modify_bind (ends_settle rfl))

/-- The block of a role is changed. -/
theorem SeesView.put {role : Role} {change : Edit} {i : Nat} {b : Buffer}
    (hv : SeesView m hd.layout v σ)
    (h : TidySession m hd before hw none σ) (hheld : σ.1.held.get role = some i)
    (hb : σ.2.cache.buffer? i = some b) (himage : hd.Tidy b.pos (change b.image).1) :
    Ends (Session.edit role change) σ fun r τ => r = (change b.image).2 ∧
      TidySession m hd before hw none τ ∧ SeesView m hd.layout (v.put b.pos (change b.image).1) τ := by
  have hfile := h.covered.file_of_held hheld hb
  have hlength : (change b.image).1.length = m.blockSize := himage.length.trans h.size.symm
  refine ((h.put hheld hb (by simp) himage).and ((edit_ends h.covered.intact h.covered.pins hheld hb
    (by simp) hlength).and ((edit_disk h.at' role change).and ((parts_keepsClear (F := fun _ => True)
      fun _ _ => trivial).edit role _ (fun _ _ _ => trivial) σ hv.clear)))).mono ?_
  rintro r τ ⟨⟨hr, hτ, hpointers, -⟩, ⟨-, hedited⟩, hdisk, -, hclear, -⟩
  refine ⟨hr, hτ, fun p hp => ?_, fun role' j b' hrole' hj hb' => ?_,
    hv.pointers.trans hpointers.symm, hclear⟩
  · by_cases heq : p = b.pos
    · subst heq
      simp [View.put, Mount.seen, hedited.content]
    · have hseen : m.seen τ.2 p = m.seen σ.2 p :=
        Mount.seen_congr (by simp [hedited.content, heq]) (by rw [hdisk])
      simpa [View.put, heq, hseen] using hv.blocks p hp
  · rw [hedited.same.2.2.2.2.2.1] at hj
    obtain ⟨c, hc, -⟩ := h.covered.pins.held j (Holdings.mem_toList.mpr ⟨role', hj⟩)
    have hpos : b'.pos = c.pos := by
      by_cases hji : j = i
      · subst hji
        rw [hedited.self] at hb'
        rw [hb] at hc
        cases hb'
        cases hc
        rfl
      · rw [hedited.others j c hji hc] at hb'
        cases hb'
        rfl
    rw [hpos]
    exact hv.held role' j c hrole' hj hc

/-- A program that is not abandoned is carried out on a tidy file. -/
theorem TidySession.perform_notAbandoned (h : TidySession m hd before hw none σ)
    (hv : SeesView m hd.layout v σ)
    (hkeepsTidy : program.KeepsTidy hd.layout hw P) (hprogram : program.NotAbandoned m.blockSize Q v) :
    Ends (Session.perform program) σ fun r _ => r ≠ .error .outOfRange := by
  induction hkeepsTidy generalizing σ v with
  | done => exact Ends.pure (by simp)
  | fail => exact Ends.throw fun he => hprogram (Except.error.inj he)
  | load hrole hstart hnull _ ih =>
    refine Ends.bind (hv.load h hrole hstart hnull) (fun e τ hτ => by simpa using hτ.1) ?_
    rintro ⟨⟩ τ ⟨-, hok⟩
    exact ih (hok rfl).1 (hok rfl).2 hprogram.2
  | fresh => exact absurd hprogram.1 (by simp)
  | @view role next hrole _ ih =>
    refine Ends.bind (h.at'.holding role) ?_ ?_
    · rintro e τ ⟨-, -, herror⟩
      obtain ⟨f, rfl⟩ := (herror e rfl).exists_fault
      simp
    · rintro ⟨i, b⟩ τ ⟨rfl, hok, -⟩
      obtain ⟨hheld, hb, -⟩ := hok i b rfl
      obtain ⟨hpos, hblock, hnull, htidy⟩ := hv.found h hrole hheld hb
      exact ih b.image htidy.length (htidy.block hnull) h hv
        (hprogram b.pos b.image hpos hblock (htidy.length.trans h.size.symm))
  | @edit role change next hrole hchange _ ih =>
    cases hheld : σ.1.held.get role with
    | none =>
      refine Ends.bind (edit_ran (V := hd.layout.Start) h.at' role change) ?_ ?_
      · rintro e τ ⟨-, ⟨i, b, hi, -⟩ | ⟨⟨_, hpool, he⟩, -⟩⟩
        · simp [hheld] at hi
        · cases he
          obtain ⟨f, rfl⟩ := hpool.exists_fault
          simp
      · rintro ⟨⟩ τ ⟨-, ⟨i, b, hi, -⟩ | ⟨⟨_, -, he⟩, -⟩⟩
        · simp [hheld] at hi
        · cases he
    | some i =>
      obtain ⟨b, hb, -⟩ := h.covered.pins.held i (Holdings.mem_toList.mpr ⟨role, hheld⟩)
      obtain ⟨hpos, hblock, hnull, htidy⟩ := hv.found h hrole hheld hb
      obtain ⟨hlength, hnew⟩ := hchange b.image htidy.length (htidy.block hnull)
      obtain ⟨hrange, hnext⟩ := hprogram b.pos b.image hpos hblock (htidy.length.trans h.size.symm)
      refine Ends.bind (hv.put h hheld hb ⟨hlength, fun hn => absurd hn hnull, fun _ => hnew⟩) ?_ ?_
      · rintro e τ ⟨hr, -⟩ he
        cases he
        exact hrange hr.symm
      · rintro ⟨⟩ τ ⟨hr, hτ, hvτ⟩
        exact ih hτ hvτ (hnext hr.symm)
  | pointers hnext ih =>
    refine Ends.get_bind (ih σ.1.pointers h.lead h.mark h hv ?_)
    rw [← hv.pointers]
    exact hprogram
  | @setPointers p next hlead hmark _ ih =>
    obtain ⟨session, below⟩ := σ
    refine Ends.modify_bind (ih (v := { v with pointers := p }) ?_ ?_ hprogram)
    · by_cases hsame : session.pointers = p
      · simpa only [hsame, if_pos] using h
      · simp only [hsame, if_false]
        exact ⟨h.toTidyUndoable.session rfl rfl rfl rfl rfl, hlead, hmark, h.roles⟩
    · by_cases hsame : session.pointers = p
      · simp only [hsame, if_pos]
        exact ⟨hv.blocks, hv.held, hsame.symm, hv.clear⟩
      · simp only [hsame, if_false]
        exact ⟨hv.blocks, hv.held, rfl, hv.clear⟩

/-! ## Calls -/

/-- A call begins on a file whose blocks are found as they were seen. -/
theorem start_seesView {new : Session} (h : m.TidyAtRest hd t) (hnew : New m hd.layout new)
    (hclear : t.Clear m.file) (hsame : ∀ p, hd.layout.Start p → m.seen t p = m.seen s p) :
    Ends start (new, t) fun r τ => r ≠ .error .outOfRange ∧
      (r = .ok () → (∃ hw, TidySession m hd (m.content t) hw none τ) ∧
        SeesView m hd.layout (m.view hd.layout s) τ) := by
  have hran := start_ran (V := hd.layout.Start) (W := fun _ _ => False) (hnew.at' h)
    hd.layout.start_null
  have hends := start_ends hnew.file (by rw [hnew.layout]; exact hnew.size) hnew.held h.intact
    h.unpinned
  have hstart := (parts_keepsClear (f := m.file) fun _ => id).start (load_keepsClear fun _ => id)
  refine ((start_tidy h hnew).and (hran.and (hends.and (hstart (new, t) hclear)))).mono ?_
  rintro r τ ⟨⟨-, hkeeps, hok⟩, ⟨hran, hheld⟩, hbegun, hr, hclear', -⟩
  refine ⟨fun he => (hr _ he).ne_outOfRange rfl, fun hr => ⟨⟨_, (hok hr).1⟩, ?_⟩⟩
  have hseen : ∀ p, hd.layout.Start p → m.seen τ.2 p = m.seen s p := fun p hp =>
    (hran.steps.seen h.tidy (fun _ => id) h.intact.sound hkeeps (h.tidy.aligned hp)).trans (hsame p hp)
  obtain ⟨-, i, b, hi, hb, hnull, hread⟩ := hbegun.ok hr
  obtain ⟨b', hb', hfile, -⟩ := hbegun.pins.held i (Holdings.mem_toList.mpr ⟨.header, hi⟩)
  cases hb.symm.trans hb'
  refine ⟨fun p hp => congrArg some (hseen p hp).symm, fun role j b' hrole hj _ => ?_, ?_, hclear'⟩
  · rw [hheld role hrole, hnew.held] at hj
    cases role <;> cases hj
  · rw [← hread, hnew.layout]
    show Pointers.read _ _ = _
    rw [← hseen .null hd.layout.start_null, ← hnull, Mount.seen_of_buffer hbegun.intact.sound hb hfile]

/-- If the program of a call is not abandoned, neither is the call, nor its end. -/
theorem transact_notAbandoned (locked : Bool) (mode : EndMode) (h : m.TidyAtRest hd s) (hfit : m.Fit s)
    (hkeepsTidy : ∀ mark, program.KeepsTidy hd.layout mark P)
      (hkeepsLength : program.KeepsLength True m.blockSize P)
    (hprogram : program.NotAbandoned m.blockSize Q (m.view hd.layout s)) :
    Ends (transact m.file hd.layout locked mode program) s fun r _ => r ≠ .error .outOfRange ∧
      ∀ o, r = .ok o → o.2 ≠ .error .outOfRange := by
  have hroom : 1 + 4 * hd.layout.format.positionWidth ≤ m.blockSize :=
    h.tidy.size ▸ h.tidy.contents.pointers_le
  refine (transact_fit (C := False) (Q := fun _ => True) (I := fun u => m.TidyAtRest hd u ∧
    ∀ p, hd.layout.Start p → m.seen u p = m.seen s p) locked mode ?_ ?_ ?_ h.tidy.size.symm hroom hfit
    ⟨h, fun _ _ => rfl⟩).mono fun r t hr => ⟨fun he => hr.1 _ he rfl, fun o ho => (hr.2.2 o ho).2⟩
  · rintro t ⟨ht, hseen⟩
    refine ((takePending_tidy ht).and (Cache.takePending_steps (V := hd.layout.Start)
      (W := fun _ _ => False))).mono ?_
    rintro r u ⟨⟨hu, hfailureTaken, -⟩, hsteps⟩
    exact ⟨hu, fun p hp => (hsteps.seen ht.tidy (fun _ => id) ht.intact.sound hfailureTaken.keeps
      (ht.tidy.aligned hp)).trans (hseen p hp)⟩
  · rintro t ⟨ht, hseen⟩
    refine ((lock_tidy ht).and (Cache.onDisk_ends (m.store.ask_ends t.disk .lock 0 0))).mono ?_
    rintro r ⟨c, d⟩ ⟨⟨hu, -⟩, rfl, -, hcontents, -⟩
    exact ⟨hu, fun p hp => (Mount.seen_of_disk (hcontents _)).trans (hseen p hp)⟩
  · rintro t ⟨ht, hseen⟩ hfit'
    have hnew : New m hd.layout { file := m.file, layout := hd.layout, locked := locked } :=
      ⟨rfl, rfl, h.tidy.size.symm, rfl, rfl, rfl, rfl⟩
    have hwork : Ends (do start; perform program) ({ file := m.file, layout := hd.layout, locked }, t)
        fun r _ => r ≠ .error .outOfRange := by
      refine Ends.bind (start_seesView ht hnew hfit'.clear hseen) (fun e τ hτ => by simpa using hτ.1) ?_
      rintro ⟨⟩ τ ⟨-, hτ⟩
      obtain ⟨⟨hw, htidySession⟩, hseesView⟩ := hτ rfl
      exact htidySession.perform_notAbandoned hseesView (hkeepsTidy hw) hprogram
    refine ((work_fit (F := fun e => e = .outOfRange → True) (fun _ _ _ => trivial) hkeepsLength _
      hfit').and hwork).mono ?_
    rintro r τ ⟨⟨-, hτ, -⟩, hrange⟩
    exact ⟨fun _ he hr => hrange (hr ▸ he), hτ, fun _ _ => trivial⟩

end Session

end PagedIndex
