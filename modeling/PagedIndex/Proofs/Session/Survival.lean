import PagedIndex.Proofs.Session.Phases

/-!
# What survives of half a call

A session that ends without success is rolled back. Whatever it did to the blocks of its file, and
whichever reads and writes failed on the way, every block that it found in the file reads afterwards
as it did before, but for those whose kept image the roll back could put neither into a buffer nor
into the store.

## Main definitions

* `Session.Move`, `Session.Moved` — what a call does with blocks.
* `Session.GivenUp` — the end of a session without success.

## Main statements

* `Session.Covered.move` — every move can be taken back.
* `Session.readsAsBefore_iff` — when nothing survives of a session given up.
-/

namespace PagedIndex

namespace Session

variable {m : Mount} {σ τ υ : Session × Buffered} {s t : Buffered} {role : Role}
  {pos hw : BlockPos} {before : BlockPos → Option Bytes} {fresh : Option BlockPos} {l : Layout}

/-- What a call may do with the blocks of its file. -/
inductive Move where
  /-- Loads a block. -/
  | get (role : Role) (pos : BlockPos)
  /-- Changes the block of a role. -/
  | change (role : Role) (change : Edit)
  /-- Takes a new block. -/
  | allocate (role : Role)
  /-- Puts a block on the chain of deleted blocks. -/
  | free (role : Role) (pos : BlockPos)
  | setPointers (p : Pointers)

namespace Move

def run (l : Layout) : Move → SessionM Unit
  | get role pos => load role pos true
  | change role f => edit role f
  | allocate role => do let _ ← perform (Program.allocate l role)
  | free role pos => perform (Program.free l role pos)
  | setPointers p => Session.setPointers p

/-- Whether a move is about whole blocks. A new block comes from the chain of deleted blocks, or it
is behind the last block that the session found. -/
def Proper (m : Mount) (session : Session) : Move → Prop
  | get _ pos | free _ pos => m.Aligned pos
  | change _ f => ∀ image, (f image).1.length = image.length
  | allocate _ => m.Aligned session.pointers.freeHead ∧ m.Aligned session.pointers.highWater ∧
      session.highWater.offset ≤ session.pointers.highWater.offset
  | setPointers _ => True

end Move

/-- A session goes from `σ` to `τ` by moves, each of which may have failed. -/
inductive Moved (m : Mount) (σ : Session × Buffered) : Session × Buffered → Prop
  | none : Moved m σ σ
  | move {τ υ : Session × Buffered} {move : Move} {r : Except Error Unit} (h : Moved m σ τ)
      (hproper : move.Proper m τ.1) (hrun : attempt (move.run τ.1.layout) τ = .ok r υ) :
      Moved m σ υ

/-! ## Every move can be taken back -/

theorem Covered.load (h : Covered m before hw l none σ) (ha : m.Aligned pos) (role : Role)
    (read : Bool) (hnew : read = false → hw.offset < pos.offset) :
    Ends (Session.load role pos read) σ fun r τ =>
      (∀ e, r = .error e → Covered m before hw l none τ) ∧
      (r = .ok () → Covered m before hw l (Mount.unread read pos) τ ∧
        ∃ i b, τ.1.held.get role = some i ∧ τ.2.cache.buffer? i = some b ∧ b.pos = pos) := by
  refine (load_ends h.file (h.layout ▸ h.size) h.intact h.pins ha role read).mono ?_
  intro r τ hl
  obtain ⟨held, hsession⟩ := hl.session
  have hfile : τ.1.file = m.file := by rw [hsession]; exact h.file
  have hlayout : τ.1.layout = l := by rw [hsession]; exact h.layout
  refine ⟨fun e he => ⟨hfile, hlayout, h.size, hl.error e he, hl.pins, h.guard.load hl hnew⟩,
    fun hr => ?_⟩
  obtain ⟨hintact, i, b, hi, hb, hpos, -⟩ := hl.ok hr
  exact ⟨⟨hfile, hlayout, h.size, hintact, hl.pins, h.guard.load hl hnew⟩, i, b, hi, hb, hpos⟩

/-- A change of a block that a role holds; if one came unread it is this one. -/
theorem Covered.edit_held {i : Nat} {b : Buffer} (h : Covered m before hw l fresh σ)
    (hheld : σ.1.held.get role = some i) (hb : σ.2.cache.buffer? i = some b)
    (hfresh : ∀ q, fresh = some q → q = b.pos) {change : Edit}
    (hlen : ∀ image, (change image).1.length = image.length) :
    Ends (Session.edit role change) σ fun r τ =>
      r = (change b.image).2 ∧ Covered m before hw l none τ := by
  obtain ⟨b', hb', hfile, -⟩ := h.pins.held i (Holdings.mem_toList.mpr ⟨role, hheld⟩)
  rw [hb] at hb'
  cases hb'
  obtain ⟨ha, hsize⟩ := h.intact.whole i b hb hfile
  refine (edit_ends h.intact h.pins hheld hb hfresh ((hlen _).trans hsize)).mono ?_
  rintro r τ ⟨hr, he⟩
  obtain ⟨hf, -, hl, -⟩ := he.same
  exact ⟨hr, hf.trans h.file, hl.trans h.layout, h.size, he.intact, he.pins,
    h.guard.edit h.intact.sound he hb hfile ha hsize⟩

theorem Covered.edit (h : Covered m before hw l none σ) (role : Role) {change : Edit}
    (hlen : ∀ image, (change image).1.length = image.length) :
    Ends (Session.edit role change) σ fun _ τ => Covered m before hw l none τ := by
  cases hheld : σ.1.held.get role with
  | none =>
    unfold Session.edit holding
    refine Ends.bind (P := fun r τ => (∃ e, r = .error e) ∧ τ = σ) (Ends.get_bind ?_) ?_ ?_
    · simp only [hheld]
      exact Ends.throw ⟨⟨_, rfl⟩, rfl⟩
    · rintro e τ ⟨-, rfl⟩
      exact h
    · rintro a τ ⟨⟨e, he⟩, -⟩
      cases he
  | some i =>
    obtain ⟨b, hb, -⟩ := h.pins.held i (Holdings.mem_toList.mpr ⟨role, hheld⟩)
    exact (h.edit_held hheld hb nofun hlen).mono fun r τ h => h.2

theorem Covered.setPointers (h : Covered m before hw l none σ) (p : Pointers) :
    Ends (Session.setPointers p) σ fun _ τ => Covered m before hw l none τ := by
  obtain ⟨session, t⟩ := σ
  show Covered m before hw l none (if session.pointers = p then session else _, t)
  split
  · exact h
  · exact ⟨h.file, h.layout, h.size, h.intact, h.pins.session rfl, h.guard.session rfl rfl⟩

/-- A block taken for a role comes changed, so that it is covered too. -/
theorem Covered.allocate (h : Covered m before hw l none σ) (role : Role)
    (hproper : (Move.allocate role).Proper m σ.1) :
    Ends (perform (Program.allocate l role)) σ fun _ τ => Covered m before hw l none τ := by
  obtain ⟨hfree, hhigh, hmark⟩ := hproper
  rw [h.guard.mark] at hmark
  have hclear : ∀ image : Bytes, (Edit.clear image).1.length = image.length := by
    intro image
    simp [Edit.clear]
  rw [Program.allocate_eq]
  refine Ends.get_bind ?_
  dsimp only
  split
  · split
    · exact Ends.throw h
    · have ha : m.Aligned (σ.1.pointers.highWater.following l.blockSize) := by
        unfold Mount.Aligned BlockPos.following
        rw [h.size]
        exact Nat.dvd_add hhigh (Nat.dvd_refl _)
      have hpos : 0 < l.blockSize := h.size ▸ h.intact.size_pos
      refine Ends.bind (h.load ha role false fun _ => ?_) (fun e τ hτ => hτ.1 e rfl) ?_
      · exact Nat.lt_of_le_of_lt hmark (Nat.lt_add_of_pos_right hpos)
      rintro ⟨⟩ τ ⟨-, hτ⟩
      obtain ⟨hτ, i, b, hi, hb, hbp⟩ := hτ rfl
      refine Ends.bind (hτ.edit_held hi hb (fun q hq => ?_) hclear) (fun e υ hυ => hυ.2) ?_
      · rw [hbp]
        exact (Option.some.inj hq).symm
      rintro ⟨⟩ υ ⟨-, hυ⟩
      exact Ends.bind (hυ.setPointers _) (fun e φ hφ => hφ) fun _ φ hφ => hφ
  · refine Ends.bind (h.load hfree role true nofun) (fun e τ hτ => hτ.1 e rfl) ?_
    rintro ⟨⟩ τ ⟨-, hτ⟩
    obtain ⟨hτ, i, b, hi, hb, -⟩ := hτ rfl
    refine Ends.bind (holding_ends hi hb) (fun e υ hυ => nomatch hυ.1) ?_
    rintro ib υ ⟨hib, rfl⟩
    cases hib
    dsimp only
    split
    · exact Ends.throw hτ
    · refine Ends.bind (hτ.edit role hclear) (fun e φ hφ => hφ) fun _ φ hφ => ?_
      exact Ends.bind (hφ.setPointers _) (fun e ψ hψ => hψ) fun _ ψ hψ => hψ

theorem Covered.free (h : Covered m before hw l none σ) (ha : m.Aligned pos) (role : Role) :
    Ends (perform (Program.free l role pos)) σ fun _ τ => Covered m before hw l none τ := by
  rw [Program.free_eq]
  split
  · exact Ends.throw h
  · refine Ends.get_bind ?_
    refine Ends.bind (h.load ha role true nofun) (fun e τ hτ => hτ.1 e rfl) ?_
    rintro ⟨⟩ τ ⟨-, hτ⟩
    obtain ⟨hτ, -⟩ := hτ rfl
    refine Ends.bind (hτ.edit role fun image => ?_) (fun e φ hφ => hφ) fun _ φ hφ => ?_
    · exact Deleted.length_stamp _ _ _
    · exact Ends.bind (hφ.setPointers _) (fun e ψ hψ => hψ) fun _ ψ hψ => hψ

/-- Every move can be taken back. -/
theorem Covered.move (h : Covered m before hw l none σ) {move : Move}
    (hproper : move.Proper m σ.1) :
    Ends (move.run l) σ fun _ τ => Covered m before hw l none τ := by
  cases move with
  | get role pos =>
    refine (h.load hproper role true nofun).mono fun r τ hτ => ?_
    cases r with
    | ok _ => exact (hτ.2 rfl).1
    | error e => exact hτ.1 e rfl
  | change role f => exact h.edit role hproper
  | allocate role => exact Ends.bind (h.allocate role hproper) (fun _ _ hτ => hτ) fun _ _ hτ => hτ
  | free role pos => exact h.free hproper role
  | setPointers p => exact h.setPointers p

/-- So can any number of them. -/
theorem Covered.moved (h : Covered m before hw l none σ) (hmoved : Moved m σ τ) :
    Covered m before hw l none τ := by
  induction hmoved with
  | none => exact h
  | @move τ υ move r _ hproper hrun ih =>
    have hattempt : Ends (attempt (move.run τ.1.layout)) τ fun _ υ =>
        Covered m before hw l none υ := by
      rw [ih.layout]
      have := ih.move hproper
      unfold Ends attempt at *
      split at this <;> simp_all
    exact hattempt.of_ok hrun

/-! ## The end without success -/

/-- Takes back the changes of a session that is not finished, and gives the lock back. -/
def abandon (store : Store) : SessionM Unit := do
  rollBack
  let _ ← attempt (unlock store)

/-- A session given up at `σ`, its roll back begun at `τ` and ended, the lock given back, at `υ`. -/
inductive GivenUp (store : Store) : Session × Buffered → Session × Buffered → Session × Buffered →
    Prop
  /-- It is dropped. -/
  | dropped {σ υ : Session × Buffered} (h : abandon store σ = .ok () υ) : GivenUp store σ σ υ
  /-- Its end fails. -/
  | unfinished {σ τ υ : Session × Buffered} {mode : EndMode} {e : Error} {r : Except Error Unit}
      (hcomplete : complete mode σ = .error e τ) (h : finish store mode σ = .ok r υ) :
      GivenUp store σ τ υ

/-- The blocks read under the lock as they do without it. -/
theorem unlock_content (hsound : σ.2.cache.Sound none) (store : Store) :
    Ends (unlock store) σ fun _ τ => ∀ p, m.content τ.2 p = m.content σ.2 p := by
  unfold unlock
  refine Ends.get_bind (Ends.modify_bind ?_)
  obtain ⟨session, t⟩ := σ
  split
  · refine (onCache_ends (Cache.onDisk_ends (Store.ask_ends store t.disk .unlock 0 0))).mono ?_
    rintro r ⟨session', ⟨c, d⟩⟩ ⟨rfl, rfl, -, hd, -⟩
    exact Mount.content_congr (t := ⟨t.cache, d⟩) hsound hsound (hd _)
      (fun j b hb _ => ⟨b, hb, rfl, rfl, rfl⟩) fun j b hb _ => ⟨b, hb, rfl, rfl⟩
  · exact fun p => rfl

theorem Covered.rollBack (h : Covered m before hw l none σ) :
    Ends Session.rollBack σ fun r τ => r = .ok () ∧ RolledBack m before hw σ τ :=
  rollBack_ends h.file h.intact h.pins h.guard

/-- What a session given up comes to: a roll back from where it begins. -/
theorem Covered.givenUp (h : Covered m before hw l none σ)
    (hwidth : 1 + 4 * l.format.positionWidth ≤ m.blockSize) (hend : GivenUp m.store σ τ υ) :
    Covered m before hw l none τ ∧
      ∃ φ, RolledBack m before hw τ φ ∧ ∀ p, m.content υ.2 p = m.content φ.2 p := by
  cases hend with
  | dropped hrun =>
    refine ⟨h, ?_⟩
    refine Ends.of_ok (Q := fun _ υ => ∃ φ, RolledBack m before hw σ φ ∧
      ∀ p, m.content υ.2 p = m.content φ.2 p) (Ends.bind h.rollBack (fun e φ hφ => nomatch hφ.1) ?_)
      hrun
    rintro ⟨⟩ φ ⟨-, hφ⟩
    exact Ends.attempt_bind (unlock_content hφ.intact.sound m.store) fun _ υ hυ => ⟨φ, hφ, hυ⟩
  | @unfinished _ _ mode e r hcomplete hrun =>
    have hc := (complete_guard mode h.file h.intact h.pins h.guard (h.layout ▸ hwidth)).of_error
      hcomplete
    obtain ⟨hfile, hlocked, hlayout, hu⟩ := hc
    obtain ⟨hintact, hpins, hguard⟩ := hu e rfl
    have hτ : Covered m before hw l none τ :=
      ⟨hfile.trans h.file, hlayout.trans h.layout, h.size, hintact, hpins, hguard⟩
    refine ⟨hτ, ?_⟩
    refine Ends.of_ok (Q := fun _ υ => ∃ φ, RolledBack m before hw τ φ ∧
      ∀ p, m.content υ.2 p = m.content φ.2 p) ?_ hrun
    refine Ends.attempt_bind (P := fun r υ => r = .error e ∧ υ = τ)
      (ends_of_eq_error hcomplete ⟨rfl, rfl⟩) ?_
    rintro _ _ ⟨rfl, rfl⟩
    refine Ends.bind hτ.rollBack (fun e φ hφ => nomatch hφ.1) ?_
    rintro ⟨⟩ φ ⟨-, hφ⟩
    exact Ends.attempt_bind (unlock_content hφ.intact.sound m.store) fun _ υ hυ => ⟨φ, hφ, hυ⟩

/-- Nothing survives of a session given up if and only if the blocks whose kept images the roll
back could put back nowhere read as these images all the same. -/
theorem readsAsBefore_iff {locked : Bool} {φ : Session × Buffered}
    (hintact : m.Intact none none s) (hunpinned : Unpinned s) (hsize : l.blockSize = m.blockSize)
    (hwidth : 1 + 4 * l.format.positionWidth ≤ m.blockSize)
    (hstart : start ({ file := m.file, layout := l, locked := locked }, s) = .ok () σ)
    (hstored : ∀ p, m.Aligned p → p.offset ≤ σ.1.highWater.offset →
      (m.stored s.disk p).isSome)
    (hmoved : Moved m σ τ) (hend : GivenUp m.store τ υ φ) :
    (∀ p, m.Aligned p → p.offset ≤ σ.1.highWater.offset →
        m.content φ.2 p = m.content s p) ↔
      ∀ u ∈ leftBehind υ, m.content υ.2 u.pos = u.image := by
  have hstarts : Ends start (({ file := m.file, layout := l, locked := locked } : Session), s)
      (Begun m _ s) := start_ends rfl hsize rfl hintact hunpinned
  have hb := hstarts.of_ok hstart
  obtain ⟨held, pointers, highWater, hsession⟩ := hb.session
  have hσ : Covered m (m.content s) σ.1.highWater l none σ :=
    ⟨by rw [hsession], by rw [hsession], hsize, hb.intact, hb.pins, hb.guard rfl⟩
  obtain ⟨hυ, ρ, hback, hcontent⟩ := (hσ.moved hmoved).givenUp hwidth hend
  have hsome : ∀ p, m.Aligned p → p.offset ≤ σ.1.highWater.offset → (m.content s p).isSome :=
    fun p ha hp => Mount.isSome_content (hstored p ha hp)
  constructor
  · intro hall u hu
    obtain ⟨hmem, x, himage⟩ := mem_leftBehind hυ.intact hυ.pins hu
    obtain ⟨hle, -, hkept⟩ := hυ.guard.kept u hmem x himage
    have ha := hυ.guard.aligned u hmem
    obtain ⟨y, hy⟩ := Option.isSome_iff_exists.mp (hsome u.pos ha hle)
    obtain ⟨z, hz⟩ := Option.isSome_iff_exists.mp
      (hυ.guard.present u.pos ha hle (by rw [hy]; rfl))
    -- what it reads as now is what the roll back found there
    have hafter := hall u.pos ha hle
    rw [hcontent, hback.lost u hu z hz, hy] at hafter
    rw [hz, hafter, hkept y hy, himage]
  · intro hall p ha hp
    obtain ⟨x, hx⟩ := Option.isSome_iff_exists.mp (hsome p ha hp)
    rw [hcontent, hx]
    by_cases hbehind : ∃ u ∈ leftBehind υ, u.pos = p
    · obtain ⟨u, hu, rfl⟩ := hbehind
      obtain ⟨hmem, y, himage⟩ := mem_leftBehind hυ.intact hυ.pins hu
      obtain ⟨-, -, hkept⟩ := hυ.guard.kept u hmem y himage
      rw [hback.lost u hu y ((hall u hu).trans himage), hkept x hx]
    · exact hback.restored p x ha hp (fun u hu hpos => hbehind ⟨u, hu, hpos⟩) hx

/-- A session that turns the header block around and is dropped. -/
theorem readsAsBefore_small : ∃ σ τ φ,
    start ({ file := 1, layout := ⟨1, 32, .modern⟩, locked := false }, smallBuffered 32) = .ok () σ ∧
      Moved (memoryMount 32) σ τ ∧ GivenUp (memoryMount 32).store τ τ φ ∧ τ.1.undo.length = 1 ∧
      ((∀ p, (memoryMount 32).Aligned p → p.offset ≤ σ.1.highWater.offset →
          (memoryMount 32).content φ.2 p = (memoryMount 32).content (smallBuffered 32) p) ↔
        ∀ u ∈ leftBehind τ, (memoryMount 32).content τ.2 u.pos = u.image) := by
  let turn : Move := .change .header fun image => (image.reverse, .ok ())
  obtain ⟨σ, τ, φ, hstart, hmark, hrun, hundo, hdrop⟩ : ∃ σ τ φ,
      start ({ file := (memoryMount 32).file, layout := ⟨1, 32, .modern⟩, locked := false },
        smallBuffered 32) = .ok () σ ∧ σ.1.highWater.offset = 0 ∧
      attempt (turn.run σ.1.layout) σ = .ok (.ok ()) τ ∧ τ.1.undo.length = 1 ∧
      abandon (memoryMount 32).store τ = .ok () φ := ⟨_, _, _, rfl, rfl, rfl, rfl, rfl⟩
  have hmoved : Moved (memoryMount 32) σ τ := by
    refine .move .none ?_ hrun
    exact fun _ => List.length_reverse
  refine ⟨σ, τ, φ, hstart, hmoved, .dropped hdrop, hundo, ?_⟩
  refine readsAsBefore_iff (intact_loaded (by decide) (by decide)) unpinned_loaded rfl (by decide)
    hstart
    (fun p _ hp => ?_) hmoved (.dropped hdrop)
  have hp : p = .null := by
    rw [hmark] at hp
    obtain ⟨offset⟩ := p
    exact congrArg BlockPos.mk (Nat.le_zero.mp hp)
  rw [hp]
  decide

end Session

end PagedIndex
