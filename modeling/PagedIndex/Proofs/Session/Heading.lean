import PagedIndex.Proofs.Session.Shown

/-!
# What a call leaves in the header block

Only the end of a call changes the header block, and only if the program has set the chain pointers
to others than it found. So how the header block reads after a call is known from how it read
before, and from how the program runs.

## Main definitions

* `Session.Heads` — how the header block reads in a session.
* `Session.Answered` — what a call comes to over a store that refuses nothing.

## Main statements

* `Session.perform_heads` — a program leaves the header block alone.
* `Session.transact_heads` — what a whole call makes of it.
* `Session.transact_answers` — what a whole call leaves of all blocks of the file.
-/

namespace PagedIndex

/-- A header block once pointers are saved there, if they are others than before. -/
def Pointers.saved (p : Pointers) (format : Format) (changed : Bool) (x : Bytes) : Bytes :=
  if changed then (p.write format x).1 else x

namespace Session

variable {m : Mount} {l : Layout} {σ τ : Session × Buffered} {s t : Buffered} {α : Type}
  {role : Role} {pos hw : BlockPos} {before : BlockPos → Option Bytes} {v w : View} {x : Bytes}
  {changed : Bool} {program : Program α} {r : Except Error α} {fresh : Option BlockPos}

/-- How the header block reads in a session, and whether other pointers are to go there. -/
structure Heads (m : Mount) (x : Bytes) (changed : Bool) (σ : Session × Buffered) : Prop where
  content : m.content σ.2 .null = some x
  changed : σ.1.pointersChanged = changed

/-! ## Programs -/

theorem Shows.load_heads (h : Shows m l before hw none v σ) (hx : Heads m x changed σ) (read : Bool)
    (hrole : role ≠ .header) (ha : m.Aligned pos) (hread : read = true → (v.blocks pos).isSome)
    (hnew : read = false → hw.offset < pos.offset) :
    Ends (Session.load role pos read) σ fun r τ => r = .ok () ∧
      Shows m l before hw (Mount.unread read pos) (v.hold role pos) τ ∧ Heads m x changed τ := by
  refine ((h.toSees.load read hrole ha hread hnew).and
    (load_ends h.file (h.layout ▸ h.size) h.intact h.pins ha role read)).mono ?_
  rintro r τ ⟨hτ, hl⟩
  obtain ⟨hr, hsees, hsafe⟩ := hτ.reliable h.safe h.reliable
  obtain ⟨held, hsession⟩ := hl.session
  have hnull : Mount.unread read pos ≠ some .null := by
    cases read with
    | true => exact nofun
    | false =>
      intro heq
      have := hnew rfl
      rw [Option.some.inj heq] at this
      exact absurd this (Nat.not_lt_zero _)
  exact ⟨hr, ⟨hsees, hsafe, h.reliable.follows hτ.follows.disk⟩,
    hl.keeps _ x (Nat.dvd_zero _) hnull hx.content, by rw [hsession]; exact hx.changed⟩

theorem Shows.edit_heads {i : Nat} {b : Buffer} {change : Edit} {image : Bytes}
    {o : Except Error Unit} (h : Shows m l before hw fresh v σ) (hx : Heads m x changed σ)
    (hheld : σ.1.held.get role = some i) (hb : σ.2.cache.buffer? i = some b) (hpos : b.pos = pos)
    (hnull : pos ≠ .null) (hbound : pos.offset + m.blockSize < Store.offsetBound)
    (hfresh : ∀ q, fresh = some q → q = pos) (hchange : change b.image = (image, o))
    (hlength : image.length = m.blockSize) :
    Ends (Session.edit role change) σ fun r τ => r = o ∧
      Shows m l before hw none (v.put pos image) τ ∧ Heads m x changed τ := by
  subst hpos
  have hlen : (change b.image).1.length = m.blockSize := by
    rw [hchange]
    exact hlength
  refine ((h.toSees.edit hheld hb rfl hnull hbound hfresh hchange hlength).and
    (edit_ends h.intact h.pins hheld hb hfresh hlen)).mono ?_
  rintro r τ ⟨hτ, -, he⟩
  obtain ⟨hr, hsees, hsafe⟩ := hτ.reliable h.safe h.reliable
  refine ⟨hr, ⟨hsees, hsafe, h.reliable.follows hτ.follows.disk⟩, ?_, ?_⟩
  · rw [he.content, if_neg hnull.symm]
    exact hx.content
  · exact he.same.2.2.2.2.1.trans hx.changed

/-- A program leaves the header block alone. Whether it sets the pointers to others is known from
how it runs; otherwise they are as before. -/
theorem perform_heads {size : Nat} (hruns : program.Runs size v r w) :
    ∃ c : Bool, (c = false → w.pointers = v.pointers) ∧ ∀ {m : Mount} {l : Layout}
      {before : BlockPos → Option Bytes} {hw : BlockPos} {x : Bytes} {changed : Bool}
      {σ : Session × Buffered}, m.blockSize = size →
      Shows m l before hw none v σ → Heads m x changed σ →
      Ends (Session.perform program) σ fun _ τ => Heads m x (changed || c) τ := by
  induction hruns with
  | done a v =>
    refine ⟨false, fun _ => rfl, fun _ _ hx => ?_⟩
    rw [Bool.or_false]
    exact hx
  | fail e v =>
    refine ⟨false, fun _ => rfl, fun _ _ hx => ?_⟩
    rw [Bool.or_false]
    exact hx
  | load hrole hblock _ ih =>
    obtain ⟨c, hsame, ih⟩ := ih
    refine ⟨c, hsame, fun hsize h hx => ?_⟩
    refine Ends.bind (h.load_heads hx true hrole (h.blocks _ _ hblock).2.1
      (fun _ => by rw [hblock]; rfl) fun hr => by cases hr) (fun e τ hτ => by cases hτ.1) ?_
    rintro ⟨⟩ τ ⟨-, hshows, hheads⟩
    exact ih hsize hshows hheads
  | @fresh role pos image change _ v _ _ hrole ha hbound hbehind hchange hlength _ ih =>
    obtain ⟨c, hsame, ih⟩ := ih
    refine ⟨c, hsame, fun hsize h hx => ?_⟩
    subst hsize
    refine Ends.bind (h.load_heads hx false hrole ha (fun hr => by cases hr)
      fun _ => Nat.lt_of_le_of_lt h.mark hbehind) (fun e τ hτ => by cases hτ.1) ?_
    rintro ⟨⟩ τ ⟨-, hshows, hheads⟩
    obtain ⟨i, b, hi, hb, hpos⟩ := hshows.held role pos hrole (by simp [View.hold])
    have hlen := (hshows.intact.whole i b hb (hshows.toCovered.file_of_held hi hb)).2
    have hnull : pos ≠ .null := by
      rintro rfl
      exact absurd hbehind (Nat.not_lt_zero _)
    refine Ends.bind (hshows.edit_heads hheads hi hb hpos hnull hbound
      (fun q hq => (Option.some.inj hq).symm) (hchange _ hlen) hlength) (fun e τ hτ => by cases hτ.1) ?_
    rintro ⟨⟩ υ ⟨-, hshows, hheads⟩
    exact ih rfl hshows hheads
  | @view role pos image _ v _ _ hrole hheld hblock _ ih =>
    obtain ⟨c, hsame, ih⟩ := ih
    refine ⟨c, hsame, fun hsize h hx => ?_⟩
    obtain ⟨i, b, hi, hb, hpos⟩ := h.held role pos hrole hheld
    refine Ends.bind (holding_ends hi hb) (fun e τ h => by cases h.1) ?_
    rintro ib τ ⟨hib, rfl⟩
    cases hib
    have himage : b.image = image := h.image hi hb (by rw [hpos]; exact hblock)
    simp only [himage]
    exact ih hsize h hx
  | @edit role pos old image change _ v _ _ hrole hheld hblock hchange hlength _ ih =>
    obtain ⟨c, hsame, ih⟩ := ih
    refine ⟨c, hsame, fun hsize h hx => ?_⟩
    obtain ⟨i, b, hi, hb, hpos⟩ := h.held role pos hrole hheld
    have himage : b.image = old := h.image hi hb (by rw [hpos]; exact hblock)
    obtain ⟨hnull, -, hbound, -⟩ := h.blocks pos old hblock
    refine Ends.bind (h.edit_heads (o := .ok ()) hx hi hb hpos hnull hbound
      (fun q hq => by cases hq) (himage.symm ▸ hchange) (hlength.trans hsize.symm))
      (fun e τ hτ => by cases hτ.1) ?_
    rintro ⟨⟩ τ ⟨-, hshows, hheads⟩
    exact ih hsize hshows hheads
  | @refused role pos old image change _ v e hrole hheld hblock hchange hlength =>
    refine ⟨false, fun _ => rfl, fun hsize h hx => ?_⟩
    obtain ⟨i, b, hi, hb, hpos⟩ := h.held role pos hrole hheld
    have himage : b.image = old := h.image hi hb (by rw [hpos]; exact hblock)
    obtain ⟨hnull, -, hbound, -⟩ := h.blocks pos old hblock
    rw [Bool.or_false]
    refine Ends.bind (h.edit_heads hx hi hb hpos hnull hbound (fun q hq => by cases hq)
      (himage.symm ▸ hchange) (hlength.trans hsize.symm)) (fun e τ hτ => hτ.2.2) ?_
    rintro a τ ⟨hτ, -⟩
    cases hτ
  | @pointers next v _ _ _ ih =>
    obtain ⟨c, hsame, ih⟩ := ih
    refine ⟨c, hsame, fun hsize h hx => ?_⟩
    refine Ends.get_bind ?_
    simp only [h.pointers]
    exact ih hsize h hx
  | @setPointers p _ v _ _ hmark _ ih =>
    obtain ⟨c, hsame, ih⟩ := ih
    refine ⟨decide (v.pointers ≠ p) || c, fun hfalse => ?_,
      fun {m l before hw x changed σ} hsize h hx => ?_⟩
    · obtain ⟨hp, hc⟩ := Bool.or_eq_false_iff.mp hfalse
      exact (hsame hc).trans (Decidable.not_not.mp (of_decide_eq_false hp)).symm
    refine Ends.modify_bind ?_
    by_cases hp : v.pointers = p
    · have hv : { v with pointers := p } = v := by rw [← hp]
      simp only [h.pointers, hp, ne_eq, not_true_eq_false, decide_false, Bool.false_or]
      exact ih hsize (hv ▸ h) hx
    · obtain ⟨y, hy, -⟩ := h.saved
      have hcovered : Covered m before hw l none
          ({ σ.1 with pointers := p, pointersChanged := true }, σ.2) :=
        ⟨h.file, h.layout, h.size, h.intact, h.pins.session rfl, h.guard.session rfl rfl⟩
      have hsees : Sees m l before hw none { v with pointers := p }
          ({ σ.1 with pointers := p, pointersChanged := true }, σ.2) :=
        ⟨hcovered, Nat.le_trans h.mark hmark, rfl, h.header, ⟨y, hy, fun h => by cases h⟩,
        h.blocks, h.held⟩
      simp only [h.pointers, ne_eq, hp, not_false_eq_true, decide_true, Bool.true_or, Bool.or_true]
      exact ih hsize ⟨hsees, h.safe, h.reliable⟩ ⟨hx.content, rfl⟩

/-! ## The beginning and the end -/

/-- The program of a call, from the beginning of its session. -/
theorem work_heads {size : Nat}
    (hruns : program.Runs size { v with held := fun _ => none } r w) :
    ∃ c : Bool, (c = false → w.pointers = v.pointers) ∧
      ∀ {m : Mount} {l : Layout} {x : Bytes} {s : Buffered} {new : Session}, m.blockSize = size →
      BlocksAs m l.format v s → New m l new → s.Safe → m.store.Reliable s.disk →
      m.content s .null = some x →
      Ends (do start; perform program) (new, s) fun _ τ => Heads m x c τ := by
  obtain ⟨c, hsame, hc⟩ := perform_heads hruns
  refine ⟨c, hsame, fun {m l x s new} hsize h hnew hsafe hrel hx => ?_⟩
  have hstart := start_ends hnew.file (hnew.layout ▸ hnew.size) hnew.held h.intact h.unpinned
  refine Ends.bind hstart (fun e τ hb => ?_) ?_
  · have := hb.reliable hsafe hrel h.bound (by rw [hx]; rfl)
    cases this
  · rintro ⟨⟩ τ hb
    obtain ⟨held, pointers, highWater, hsession⟩ := hb.session
    rw [← Bool.false_or c]
    exact hc hsize
      ⟨h.sees hnew.file hnew.layout hnew.size hnew.undo hb, hb.safe hsafe,
        hrel.follows hb.follows.disk⟩
      ⟨hb.keeps _ x (Nat.dvd_zero _) nofun hx, by rw [hsession]; exact hnew.pointersChanged⟩

theorem wrapUp_content {mode : EndMode} (hfile : σ.1.file = m.file)
    (hintact : m.Intact none none σ.2) (hpins : Pins m σ) (hx : m.content σ.2 .null = some x) : Ends (do
      letGoAll
      if mode = .flush then onCache (Cache.release σ.1.file .flush)
      update fun s => { s with undo := [] }) σ fun _ τ => m.content τ.2 .null = some x :=
  (wrapUp_ends mode hfile hintact hpins).mono fun _ _ h => h.keeps _ x (Nat.dvd_zero _) nofun hx

/-- The end of a call saves the pointers if they are others. -/
theorem Sees.complete_content (mode : EndMode) (h : Sees m l before hw none v σ)
    (hv : v.Settled l.format m.blockSize)
    (hwidth : 1 + 4 * l.format.positionWidth ≤ m.blockSize) (hx : Heads m x changed σ) :
    Ends (Session.complete mode) σ fun _ τ =>
      m.content τ.2 .null = some (v.pointers.saved l.format changed x) := by
  unfold Session.complete
  refine Ends.get_bind ?_
  cases hchanged : σ.1.pointersChanged with
  | false =>
    obtain rfl := hx.changed.symm.trans hchanged
    simp only [hchanged, Bool.false_eq_true, if_false]
    exact wrapUp_content h.file h.intact h.pins hx.content
  | true =>
    obtain rfl := hx.changed.symm.trans hchanged
    simp only [hchanged, if_true]
    obtain ⟨i, b, hi, hb, hnull⟩ := h.header
    have hfile := h.file_of_held hi hb
    have hlen := (h.intact.whole i b hb hfile).2
    have himage : b.image = x := by
      have := Mount.content_of_buffer h.intact.sound hb hfile
      rw [hnull, hx.content] at this
      exact (Option.some.inj this).symm
    obtain ⟨image, hwrite, -, -, -, hlen'⟩ :=
      @Pointers.write_eq_ok l.format v.pointers b.image hv.pointers (by rw [hlen]; exact hwidth)
    have hsaved : v.pointers.saved l.format true x = image := by
      rw [Pointers.saved, if_pos rfl, ← himage, hwrite]
    rw [← h.layout, ← h.pointers] at hwrite
    have hspec := edit_ends h.intact h.pins hi hb
      (show ∀ q, none = some q → q = b.pos from nofun)
      (show (σ.1.pointers.write σ.1.layout.format b.image).1.length = m.blockSize by
        rw [hwrite]
        exact hlen'.trans hlen)
    rw [hwrite] at hspec
    refine Ends.bind hspec (fun e τ h => nomatch h.1) ?_
    rintro ⟨⟩ ⟨session, t⟩ ⟨-, he⟩
    rw [show σ.1.file = session.file from he.same.1.symm]
    refine Ends.modify_bind (wrapUp_content (he.same.1.trans h.file) he.intact
      (he.pins.session rfl) ?_)
    show m.content t .null = _
    rw [he.content, if_pos hnull.symm, hsaved]

/-! ## Whole calls -/

/-- The end of a call that ends well. -/
theorem Sees.finish_content (mode : EndMode) (h : Sees m l before hw none v σ)
    (hv : v.Settled l.format m.blockSize)
    (hpending : ∀ r, σ.2.cache.registration? m.file = some r → r.pending = none)
    (hwidth : 1 + 4 * l.format.positionWidth ≤ m.blockSize) (hx : Heads m x changed σ) :
    Ends (finish m.store mode) σ fun o τ => ∃ ended, o = .ok ended ∧ (ended = .ok () →
      m.content τ.2 .null = some (v.pointers.saved l.format changed x)) := by
  refine ends_finish ((h.complete mode hv hpending hwidth).and
    (h.complete_content mode hv hwidth hx)) ?_ ?_
  · rintro τ ⟨hτ, hcontent⟩
    exact (unlock_ends (hτ.blocksAs rfl).intact).mono fun _ υ ⟨hq, _⟩ _ =>
      hq.keeps _ _ (Nat.dvd_zero _) nofun hcontent
  · exact fun _ _ _ => ends_ending.mono fun _ _ _ => ends_ending.mono fun _ _ _ => nofun

/-- What a call leaves in the header block, if it ends well. -/
theorem transact_heads {size : Nat}
    (hruns : program.Runs size { v with held := fun _ => none } r w) :
    ∃ c : Bool, (c = false → w.pointers = v.pointers) ∧
      ∀ {m : Mount} {l : Layout} {x : Bytes} {s : Buffered} (locked : Bool) (mode : EndMode),
      m.blockSize = size → l.blockSize = m.blockSize → BlocksAs m l.format v s → s.Safe →
      m.store.Reliable s.disk → 1 + 4 * l.format.positionWidth ≤ m.blockSize →
      (∀ a, r = .ok a → w.Settled l.format m.blockSize) → m.content s .null = some x →
      Ends (transact m.file l locked mode program) s fun o t => ∀ a, o = .ok (a, .ok ()) →
        m.content t .null = some (w.pointers.saved l.format c x) := by
  obtain ⟨c, hsame, hc⟩ := work_heads hruns
  refine ⟨c, hsame, fun {m l x s} locked mode hsize hl h hsafe hrel hwidth hw hx => ?_⟩
  refine ends_transact (h.enter locked) (fun _ _ _ => nofun) ?_
  rintro store u ⟨hu, hstore, -⟩
  obtain rfl := hstore store rfl
  have hblocksAs := h.quiet hu
  have hnew : New m l { file := m.file, layout := l, locked := locked } :=
    ⟨rfl, rfl, hl, rfl, rfl, rfl, rfl⟩
  have hheads := hc hsize hblocksAs hnew (hu.safe hsafe) (hrel.follows hu.follows.disk)
    (hu.keeps _ x (Nat.dvd_zero _) nofun hx)
  have hbody : Ends (Session.body m.store program)
    ({ file := m.file, layout := l, locked := locked }, u)
      fun o τ => ∀ a, o = .ok a → Heads m x c τ :=
    ends_body hheads (fun _ _ hτ _ _ => hτ) fun _ _ _ =>
      ends_ending.mono fun _ _ _ => ends_ending.mono fun _ _ _ => nofun
  refine ends_carry ((hblocksAs.body hnew (hsize ▸ hruns)).and hbody) (fun _ _ _ => nofun) ?_
  rintro a τ ⟨hτ, hheads⟩
  have hworked := hτ.ok a rfl
  obtain ⟨rfl, hsees⟩ := hworked.ok a rfl
  have hpending : ∀ reg, τ.2.cache.registration? m.file = some reg → reg.pending = none :=
    fun reg hreg => hblocksAs.pending reg (hworked.follows.registration _ ▸ hreg)
  refine (hsees.finish_content mode (hw a rfl) hpending hwidth (hheads a rfl)).mono ?_
  rintro _ υ ⟨ended, rfl, hυ⟩
  exact ⟨ended, rfl, fun b hb => by cases hb; exact hυ rfl⟩

/-- What a call comes to over a store that refuses nothing. Its program ends with `r` and the view
`w`, and leaves `y` in the header block if it does not fail. -/
structure Answered (m : Mount) (format : Format) (mode : EndMode) (v : View) (x : Bytes)
    (r : Except Error α) (w : View) (y : Bytes) (s : Buffered)
    (o : Except Error (α × Except Error Unit)) (t : Buffered) : Prop where
  steps : Cache.Steps m (fun _ => True) (fun _ _ => True) s t
  safe : t.Safe
  ok : ∀ a, r = .ok a → o = .ok (a, .ok ()) ∧ BlocksAs m format w t ∧ m.content t .null = some y ∧
    (mode = .flush → t.Idle m.file)
  error : ∀ e, r = .error e → o = .error e ∧ BlocksAs m format v t ∧ m.content t .null = some x

/-- What a call comes to is known from the blocks of the file and from how its program runs on them,
whatever of them is cached. -/
theorem transact_answers {size : Nat}
    (hruns : program.Runs size { v with held := fun _ => none } r w) :
    ∃ c : Bool, (c = false → w.pointers = v.pointers) ∧
      ∀ {m : Mount} {l : Layout} {x : Bytes} {s : Buffered} (locked : Bool) (mode : EndMode),
      m.blockSize = size → l.blockSize = m.blockSize → BlocksAs m l.format v s → s.Safe →
      m.store.Reliable s.disk → 1 + 4 * l.format.positionWidth ≤ m.blockSize →
      (∀ a, r = .ok a → w.Settled l.format m.blockSize) → m.content s .null = some x →
      Ends (transact m.file l locked mode program) s
        (Answered m l.format mode v x r w (w.pointers.saved l.format c x) s) := by
  obtain ⟨c, hsame, hc⟩ := transact_heads hruns
  refine ⟨c, hsame, fun {m l x s} locked mode hsize hl h hsafe hrel hwidth hw hx => ?_⟩
  refine ((transact_steps locked mode program hl h.intact.sound h.intact.store).and
    ((transact_outcome locked mode h hl hwidth (hsize ▸ hruns) hw).and
      (hc locked mode hsize hl h hsafe hrel hwidth hw hx))).mono ?_
  rintro o t ⟨hsteps, hcallOutcome, hheader⟩
  obtain ⟨hsafe', hok, herror⟩ := hcallOutcome.reliable hsafe hrel
  obtain ⟨-, hcase⟩ := hcallOutcome.secured ⟨hsafe.flushable, .inl hrel.takes⟩
  refine ⟨hsteps.steps, hsafe', fun a ha => ?_, fun e he => ?_⟩
  · have ho := hok a ha
    rcases hcase with ⟨b, ended, -, -, hkept⟩ | ⟨⟨e, he⟩, -⟩
    · exact ⟨ho, hkept.blocksAs, hheader a ho, hkept.idle⟩
    · rw [ho] at he
      cases he
  · have ho := herror e he
    rcases hcase with ⟨b, ended, -, hb, -⟩ | ⟨-, hleft⟩
    · rw [ho] at hb
      cases hb
    · obtain ⟨hblocksAs, -⟩ := hleft.undone trivial
      exact ⟨ho, hblocksAs, hleft.keeps trivial _ x (Nat.dvd_zero _) (Nat.zero_le _) hx⟩

end Session

end PagedIndex
