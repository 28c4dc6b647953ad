import PagedIndex.Proofs.Cache.Served

/-!
# Buffers and roles

While a call runs the pinned buffers are those that its roles hold, no more and no fewer. A role
that moves on lets go of its own buffer only. There are more buffers than roles, so one can be
recycled for every block that a role asks for.

## Main definitions

* `Program.UsesHeld` — a program that works on blocks of such roles only as hold one.
* `Program.upTo` — the instructions of a program up to some number.
* `Session.PinsHeld` — the pinned buffers are those that the roles hold.
* `Cache.AtRest` — a cache between two calls.

## Main statements

* `Session.load_pinsHeld` — a role moves on, and the others keep their blocks.
* `Session.perform_pinsHeld` — a program that uses only roles with a block is carried out.
* `Session.transact_atRest` — a whole call.
-/

namespace PagedIndex

/-! ## Programs -/

namespace Program

variable {α β : Type}

/-- A program that looks at and changes the blocks of such roles only as hold one: those in `S` from
the beginning, and others after a block was loaded for them. In the end those in `T` hold one. It
does not fail for the sake of a buffer. -/
inductive UsesHeld {α : Type} : (S T : Role → Prop) → Program α → Prop
  | done {S T : Role → Prop} {a : α} (hheld : ∀ role, T role → S role) : UsesHeld S T (.done a)
  | fail {S T : Role → Prop} {e : Error} (he : ¬e.OfPool) : UsesHeld S T (.fail e)
  | load {S T : Role → Prop} {role : Role} {pos : BlockPos} {read : Bool} {next : Program α}
      (hnext : UsesHeld (fun r => r = role ∨ S r) T next) : UsesHeld S T (.load role pos read next)
  | view {S T : Role → Prop} {role : Role} {next : Bytes → Program α} (hrole : S role)
      (hnext : ∀ x, UsesHeld S T (next x)) : UsesHeld S T (.view role next)
  | edit {S T : Role → Prop} {role : Role} {change : Edit} {next : Program α} (hrole : S role)
      (hchange : ∀ x, Unpooled (change x).2) (hnext : UsesHeld S T next) :
      UsesHeld S T (.edit role change next)
  | pointers {S T : Role → Prop} {next : Pointers → Program α} (hnext : ∀ p, UsesHeld S T (next p)) :
      UsesHeld S T (.pointers next)
  | setPointers {S T : Role → Prop} {p : Pointers} {next : Program α} (hnext : UsesHeld S T next) :
      UsesHeld S T (.setPointers p next)

/-- A program that needs no role to hold a block when it begins. -/
abbrev SelfReliant (program : Program α) : Prop :=
  program.UsesHeld (fun _ => False) fun _ => False

namespace UsesHeld

variable {S S' T T' U : Role → Prop} {program : Program α} {f : α → Program β}

theorem weaken (h : program.UsesHeld S T) (hS : ∀ r, S r → S' r) (hT : ∀ r, T' r → T r) :
    program.UsesHeld S' T' := by
  induction h generalizing S' with
  | done hheld => exact .done fun r hr => hS r (hheld r (hT r hr))
  | fail he => exact .fail he
  | load _ ih => exact .load (ih (fun r hr => hr.imp_right (hS r)) hT)
  | view hrole _ ih => exact .view (hS _ hrole) fun x => ih x hS hT
  | edit hrole hchange _ ih => exact .edit (hS _ hrole) hchange (ih hS hT)
  | pointers _ ih => exact .pointers fun p => ih p hS hT
  | setPointers _ ih => exact .setPointers (ih hS hT)

theorem bind (h : program.UsesHeld S T) (hf : ∀ a, (f a).UsesHeld T U) :
    (program >>= f).UsesHeld S U := by
  show (program.bind f).UsesHeld S U
  induction h with
  | done hheld => exact (hf _).weaken hheld fun _ => id
  | fail he => exact .fail he
  | load _ ih => exact .load (ih hf)
  | view hrole _ ih => exact .view hrole fun x => ih x hf
  | edit hrole hchange _ ih => exact .edit hrole hchange (ih hf)
  | pointers _ ih => exact .pointers fun p => ih p hf
  | setPointers _ ih => exact .setPointers (ih hf)

theorem pure {a : α} : SelfReliant (Pure.pure a) := .done fun _ => id

theorem ofExcept {x : Except Error α} (hx : Unpooled x) :
    SelfReliant (Program.ofExcept x) := by
  cases x with
  | ok a => exact .done fun _ => id
  | error e => exact .fail (Unpooled.error_iff.mp hx)

end UsesHeld

/-- The first instructions of a program, at most `n`, and what is left of it then. -/
def upTo : Nat → Program α → Program (Program α)
  | 0, program => done program
  | _ + 1, done a => done (done a)
  | _ + 1, fail e => fail e
  | n + 1, load role pos read next => load role pos read (upTo n next)
  | n + 1, view role next => view role fun image => upTo n (next image)
  | n + 1, edit role change next => edit role change (upTo n next)
  | n + 1, pointers next => pointers fun p => upTo n (next p)
  | n + 1, setPointers p next => setPointers p (upTo n next)

theorem UsesHeld.upTo {S T : Role → Prop} {program : Program α} (h : program.UsesHeld S T) (n : Nat) :
    (program.upTo n).UsesHeld S fun _ => False := by
  induction n generalizing S program with
  | zero => exact .done fun _ => False.elim
  | succ n ih =>
    cases h with
    | done => exact .done fun _ => False.elim
    | fail he => exact .fail he
    | load hnext => exact .load (ih hnext)
    | view hrole hnext => exact .view hrole fun x => ih (hnext x)
    | edit hrole hchange hnext => exact .edit hrole hchange (ih hnext)
    | pointers hnext => exact .pointers fun p => ih (hnext p)
    | setPointers hnext => exact .setPointers (ih hnext)

end Program

/-! ## Sessions -/

/-- A buffer that holds a block and is pinned. -/
def Cache.Pinned (c : Cache) (i : Nat) : Prop := ∃ b, c.buffer? i = some b ∧ b.pinned = true

theorem Cache.pinned_setImage {c : Cache} {i j : Nat} {image : Bytes} :
    (c.setImage i image).Pinned j ↔ c.Pinned j := by
  unfold Pinned setImage
  rw [buffer?_modifyBuffer]
  split
  · next hj =>
    subst hj
    constructor
    · rintro ⟨b, hb, hp⟩
      obtain ⟨b', hb', rfl⟩ := Option.map_eq_some_iff.mp hb
      exact ⟨b', hb', hp⟩
    · exact fun ⟨b, hb, hp⟩ => ⟨_, Option.map_eq_some_iff.mpr ⟨b, hb, rfl⟩, hp⟩
  · rfl

/-- A cache of `size` buffers between two calls. -/
structure Cache.AtRest (c : Cache) (size : Nat) : Prop where
  sound : c.Sound none
  quiet : c.Quiet
  unpinned : ∀ i b, c.buffer? i = some b → b.pinned = false
  capacity : c.capacity = size
  /-- A cache that knows a file has as many buffers as there are roles. -/
  enough : ∀ f, (c.registration? f).isSome → minBuffers ≤ size

/-- Work pins nothing and takes up no files. -/
theorem Buffered.Proceeds.atRest {s t : Buffered} {size : Nat} (h : s.Proceeds t)
    (hs : s.cache.AtRest size) :
    t.cache.AtRest size :=
  ⟨h.sound, h.quiet hs.quiet, Session.Unpinned.pinsNothing hs.unpinned h.pinsNothing,
    h.capacity.trans hs.capacity, fun f hf => hs.enough f (h.known f hf)⟩

namespace Session

/-- The pinned buffers are those that the roles hold. -/
structure PinsHeld (size : Nat) (σ : Session × Buffered) : Prop where
  sound : σ.2.cache.Sound none
  quiet : σ.2.cache.Quiet
  capacity : σ.2.cache.capacity = size
  enough : minBuffers ≤ size
  pinned_iff : ∀ i, σ.2.cache.Pinned i ↔ ∃ role, σ.1.held.get role = some i

variable {α : Type} {σ τ : Session × Buffered} {role : Role} {s : Buffered} {size : Nat}

theorem PinsHeld.session {new : Session} (h : PinsHeld size σ) (hheld : new.held = σ.1.held) :
    PinsHeld size (new, σ.2) :=
  ⟨h.sound, h.quiet, h.capacity, h.enough, hheld ▸ h.pinned_iff⟩

theorem PinsHeld.holdsPinned (h : PinsHeld size σ) : HoldsPinned σ := fun i b hb hp =>
  Holdings.mem_toList.mpr ((h.pinned_iff i).mp ⟨b, hb, hp⟩)

/-- A role has a buffer for its next block if it has let go of the last one. -/
theorem PinsHeld.not_allPinned (h : PinsHeld size σ) (hrole : σ.1.held.get role = none) :
    ¬σ.2.cache.AllPinned := by
  intro hallPinned
  obtain ⟨i, hi, hspare⟩ := spare_of_pinned h.holdsPinned hrole (h.capacity ▸ h.enough)
  obtain ⟨b, hb, hp⟩ := hallPinned i hi
  rw [hspare b hb] at hp
  cases hp

/-- The other roles hold what they held, and their buffers are what they were. -/
def MovesOnly (role : Role) (σ τ : Session × Buffered) : Prop :=
  ∀ other, other ≠ role → τ.1.held.get other = σ.1.held.get other ∧
    ∀ i, σ.1.held.get other = some i → τ.2.cache.buffer? i = σ.2.cache.buffer? i

theorem MovesOnly.trans {υ : Session × Buffered} (h : MovesOnly role σ τ) (h' : MovesOnly role τ υ) :
    MovesOnly role σ υ := fun other hne =>
  ⟨(h' other hne).1.trans (h other hne).1, fun i hi =>
    ((h' other hne).2 i ((h other hne).1.trans hi)).trans ((h other hne).2 i hi)⟩

/-- What is pinned stays where it is when a block is fetched. -/
theorem MovesOnly.fetched (h : MovesOnly role σ τ) (hτ : PinsHeld size τ)
    (hkeepsPinned : τ.2.KeepsPinned s) :
    MovesOnly role σ (τ.1, s) := fun other hne =>
  ⟨(h other hne).1, fun i hi => by
    obtain ⟨b, hb, hp⟩ := (hτ.pinned_iff i).mpr ⟨other, (h other hne).1.trans hi⟩
    rw [← (h other hne).2 i hi, hb]
    exact hkeepsPinned i b hb hp⟩

/-- A role lets go of its buffer, which is unpinned if no other role holds it. -/
theorem letGo_pinsHeld (h : PinsHeld size σ) (role : Role) : Ends (letGo role) σ fun r τ => r = .ok () ∧
    PinsHeld size τ ∧ τ.1.held.get role = none ∧ MovesOnly role σ τ := by
  have hset : ∀ other, other ≠ role → (σ.1.held.set role none).get other = σ.1.held.get other :=
    fun other hne => (Holdings.get_set none).trans (if_neg hne)
  have hself : (σ.1.held.set role none).get role = none := (Holdings.get_set none).trans (if_pos rfl)
  unfold letGo
  refine Ends.get_bind ?_
  dsimp only
  split
  · next hnone => exact ⟨rfl, h, hnone, fun _ _ => ⟨rfl, fun _ _ => rfl⟩⟩
  · next i hi =>
    refine Ends.modify_bind ?_
    split
    · next hfree =>
      -- no role holds the buffer any more
      have hother : ∀ other, (σ.1.held.set role none).get other ≠ some i := by
        intro other hother
        have hmem : i ∈ (σ.1.held.set role none).toList := Holdings.mem_toList.mpr ⟨other, hother⟩
        simp [hmem] at hfree
      have hunpinned : ∀ j, j ≠ i →
          (σ.2.cache.setPinned i false).buffer? j = σ.2.cache.buffer? j := by
        intro j hj
        rw [Cache.setPinned, Cache.buffer?_modifyBuffer, if_neg hj]
      refine ⟨rfl, ⟨h.sound.setPinned false, h.quiet,
        (Cache.capacity_modifyBuffer _).trans h.capacity, h.enough, fun j => ?_⟩, hself,
        fun other hne => ⟨hset other hne, fun j hj => hunpinned j ?_⟩⟩
      · show (σ.2.cache.setPinned i false).Pinned j ↔ ∃ r, (σ.1.held.set role none).get r = some j
        by_cases hj : j = i
        · subst hj
          refine iff_of_false ?_ (not_exists.mpr hother)
          rintro ⟨b, hb, hp⟩
          obtain ⟨b', -, rfl⟩ := setPinned_eq_some hb
          rw [if_pos rfl] at hp
          cases hp
        · rw [Cache.Pinned, hunpinned j hj]
          refine (h.pinned_iff j).trans (exists_congr fun r => ?_)
          by_cases hr : r = role
          · subst hr
            rw [hself, hi]
            exact iff_of_false (fun he => hj (Option.some.inj he).symm) (Option.some_ne_none j).symm
          · rw [hset r hr]
      · rintro rfl
        exact hother other ((hset other hne).trans hj)
    · next hheld =>
      have hmem : i ∈ (σ.1.held.set role none).toList := by simpa using hheld
      obtain ⟨keeper, hkeeper⟩ := Holdings.mem_toList.mp hmem
      refine ⟨rfl, ⟨h.sound, h.quiet, h.capacity, h.enough, fun j => ?_⟩, hself,
        fun other hne => ⟨hset other hne, fun _ _ => rfl⟩⟩
      show _ ↔ ∃ r, (σ.1.held.set role none).get r = some j
      rw [h.pinned_iff j]
      constructor
      · rintro ⟨r, hr⟩
        by_cases hrole : r = role
        · -- the other role still holds it
          subst hrole
          rw [hi] at hr
          cases hr
          exact ⟨keeper, hkeeper⟩
        · exact ⟨r, (hset r hrole).trans hr⟩
      · rintro ⟨r, hr⟩
        by_cases hrole : r = role
        · rw [hrole, hself] at hr
          cases hr
        · exact ⟨r, (hset r hrole).symm.trans hr⟩

/-- Work on the cache that leaves the pinned buffers as they are. -/
theorem PinsHeld.proceeds (h : PinsHeld size σ) (hproceeds : σ.2.Proceeds s)
    (hkeepsPinned : σ.2.KeepsPinned s) :
    PinsHeld size (σ.1, s) := by
  refine ⟨hproceeds.sound, hproceeds.quiet h.quiet,
    hproceeds.capacity.trans h.capacity, h.enough, fun i => ?_⟩
  refine Iff.trans ⟨?_, ?_⟩ (h.pinned_iff i)
  · exact fun ⟨b, hb, hp⟩ => hproceeds.pinsNothing i b hb hp
  · exact fun ⟨b, hb, hp⟩ => ⟨b, hkeepsPinned i b hb hp, hp⟩

/-- A role without a buffer takes hold of one. -/
theorem PinsHeld.take {i : Nat} {b : Buffer} (h : PinsHeld size σ) (hrole : σ.1.held.get role = none)
    (hb : σ.2.cache.buffer? i = some b) :
    PinsHeld size ({ σ.1 with held := σ.1.held.set role (some i) },
        ⟨σ.2.cache.setPinned i true, σ.2.disk⟩) ∧
      MovesOnly role σ ({ σ.1 with held := σ.1.held.set role (some i) },
        ⟨σ.2.cache.setPinned i true, σ.2.disk⟩) := by
  have hset : ∀ other, other ≠ role →
      (σ.1.held.set role (some i)).get other = σ.1.held.get other :=
    fun other hne => (Holdings.get_set _).trans (if_neg hne)
  have hself : (σ.1.held.set role (some i)).get role = some i := (Holdings.get_set _).trans (if_pos rfl)
  have hbuffer : ∀ j, j ≠ i → (σ.2.cache.setPinned i true).buffer? j = σ.2.cache.buffer? j := by
    intro j hj
    rw [Cache.setPinned, Cache.buffer?_modifyBuffer, if_neg hj]
  refine ⟨⟨h.sound.setPinned true, h.quiet,
    (Cache.capacity_modifyBuffer _).trans h.capacity, h.enough, fun j => ?_⟩,
    fun other hne => ⟨hset other hne, fun j hj => ?_⟩⟩
  · show (σ.2.cache.setPinned i true).Pinned j ↔ ∃ r, (σ.1.held.set role (some i)).get r = some j
    by_cases hj : j = i
    · subst hj
      exact iff_of_true ⟨_, buffer?_setPinned hb, by rw [if_pos rfl]⟩ ⟨role, hself⟩
    · rw [Cache.Pinned, hbuffer j hj]
      refine (h.pinned_iff j).trans (exists_congr fun r => ?_)
      by_cases hr : r = role
      · subst hr
        rw [hself, hrole]
        exact iff_of_false (Option.some_ne_none j).symm fun he => hj (Option.some.inj he).symm
      · rw [hset r hr]
  · show (σ.2.cache.setPinned i true).buffer? j = σ.2.cache.buffer? j
    by_cases hji : j = i
    · -- the other role holds the same buffer, which is pinned already
      subst hji
      obtain ⟨b', hb', hp⟩ := (h.pinned_iff j).mpr ⟨other, hj⟩
      rw [buffer?_setPinned hb', hb', if_pos rfl, ← hp]
    · exact hbuffer j hji

/-- A role moves on to another block. -/
theorem load_pinsHeld (h : PinsHeld size σ) (role : Role) (pos : BlockPos) (read : Bool) :
    Ends (load role pos read) σ fun r τ => PinsHeld size τ ∧ MovesOnly role σ τ ∧
      Unpooled r ∧ (r = .ok () → (τ.1.held.get role).isSome) := by
  unfold load
  refine Ends.bind (letGo_pinsHeld h role) (fun e τ hτ => nomatch hτ.1) ?_
  rintro ⟨⟩ τ ⟨-, hτ, hrole, hmoves⟩
  refine Ends.get_bind (Ends.bind (onCache_ends (Cache.fetch_serves hτ.sound _ pos _ read)) ?_ ?_)
  · rintro e ⟨new, t⟩ ⟨hsame, hserves, hkeepsPinned, -⟩
    obtain rfl : new = τ.1 := hsame
    refine ⟨hτ.proceeds hserves.proceeds hkeepsPinned, hmoves.fetched hτ hkeepsPinned,
      fun e' he hpool => ?_,
      nofun⟩
    cases he
    exact hτ.not_allPinned hrole (hserves.error e rfl hpool)
  · rintro i ⟨new, t⟩ ⟨hsame, hserves, hkeepsPinned, hok⟩
    obtain rfl : new = τ.1 := hsame
    obtain ⟨b, hb, -⟩ := hok i rfl
    obtain ⟨hpinsHeld, htaken⟩ := (hτ.proceeds hserves.proceeds hkeepsPinned).take hrole hb
    refine ⟨hpinsHeld, (hmoves.fetched hτ hkeepsPinned).trans htaken, nofun, fun _ => ?_⟩
    show ((τ.1.held.set role (some i)).get role).isSome
    rw [Holdings.get_set, if_pos rfl]
    rfl

theorem holding_pinsHeld (h : PinsHeld size σ) (hrole : (σ.1.held.get role).isSome) :
    Ends (holding role) σ fun r τ => τ = σ ∧ ∃ ib, r = .ok ib := by
  obtain ⟨i, hi⟩ := Option.isSome_iff_exists.mp hrole
  obtain ⟨b, hb, -⟩ := (h.pinned_iff i).mpr ⟨role, hi⟩
  unfold holding
  refine Ends.get_bind ?_
  simp only [hi, hb]
  exact ⟨rfl, _, rfl⟩

/-- A block is changed; no role moves. -/
theorem edit_pinsHeld (h : PinsHeld size σ) (hrole : (σ.1.held.get role).isSome) {change : Edit}
    (hchange : ∀ x, Unpooled (change x).2) : Ends (edit role change) σ fun r τ =>
      PinsHeld size τ ∧ τ.1.held = σ.1.held ∧ Unpooled r := by
  unfold edit
  refine Ends.bind (holding_pinsHeld h hrole) (fun e τ hτ => nomatch hτ.2) ?_
  rintro ⟨i, b⟩ τ ⟨rfl, -⟩
  unfold remember
  refine Ends.modify_bind (Ends.modify_bind (ends_settle ?_))
  have himage : Buffered.Proceeds τ.2 ⟨τ.2.cache.setImage i (change b.image).1, τ.2.disk⟩ :=
    .setImage h.sound i _
  have hheld := held_remembering τ.1 b
  refine ⟨⟨himage.sound, himage.quiet h.quiet,
    himage.capacity.trans h.capacity, h.enough, fun j => ?_⟩, hheld, hchange _⟩
  refine Cache.pinned_setImage.trans ((h.pinned_iff j).trans ?_)
  show _ ↔ ∃ r, (remembering τ.1 b).held.get r = some j
  rw [hheld]

/-- A program that uses only roles with a block is carried out. The roles that hold a block hold one
in the end. -/
theorem perform_pinsHeld {S T : Role → Prop} {program : Program α} (hprogram : program.UsesHeld S T)
    (h : PinsHeld size σ) (hS : ∀ r, S r → (σ.1.held.get r).isSome) :
    Ends (perform program) σ fun r τ => PinsHeld size τ ∧ Unpooled r ∧
      ((∃ a, r = .ok a) → ∀ role, (σ.1.held.get role).isSome → (τ.1.held.get role).isSome) := by
  induction hprogram generalizing σ with
  | done => exact ⟨h, .ok, fun _ _ => id⟩
  | fail he => exact ⟨h, .error he, fun ⟨_, ha⟩ => nomatch ha⟩
  | @load S T role pos read next hnext ih =>
    refine Ends.bind (load_pinsHeld h role pos read)
      (fun e τ hτ => ⟨hτ.1, hτ.2.2.1.cast, fun ⟨_, ha⟩ => nomatch ha⟩) ?_
    rintro ⟨⟩ τ ⟨hτ, hmoves, -, hrole⟩
    have hstays : ∀ r, (σ.1.held.get r).isSome → (τ.1.held.get r).isSome := by
      intro r hr
      by_cases hne : r = role
      · exact hne ▸ hrole rfl
      · rw [(hmoves r hne).1]
        exact hr
    refine (ih hτ fun r hr => ?_).mono fun r υ hυ =>
      ⟨hυ.1, hυ.2.1, fun ha other hother => hυ.2.2 ha other (hstays other hother)⟩
    rcases hr with rfl | hr
    · exact hrole rfl
    · exact hstays r (hS r hr)
  | view hrole _ ih =>
    refine Ends.bind (holding_pinsHeld h (hS _ hrole)) (fun e τ hτ => nomatch hτ.2) ?_
    rintro ⟨i, b⟩ τ ⟨rfl, -⟩
    exact ih b.image h hS
  | edit hrole hchange _ ih =>
    refine Ends.bind (edit_pinsHeld h (hS _ hrole) hchange)
      (fun e τ hτ => ⟨hτ.1, hτ.2.2.cast, fun ⟨_, ha⟩ => nomatch ha⟩) ?_
    rintro ⟨⟩ τ ⟨hτ, hheld, -⟩
    rw [← hheld] at hS ⊢
    exact ih hτ hS
  | pointers _ ih => exact Ends.get_bind (ih σ.1.pointers h hS)
  | setPointers _ ih =>
    refine Ends.modify_bind ?_
    dsimp only
    split
    · exact ih h hS
    · exact ih (h.session rfl) hS

/-! ### Its phases -/

/-- A session that holds nothing, over a cache at rest. -/
theorem PinsHeld.of_atRest (h : σ.2.cache.AtRest size) (henough : minBuffers ≤ size)
    (hheld : σ.1.held = {}) : PinsHeld size σ := by
  refine ⟨h.sound, h.quiet, h.capacity, henough, fun i => iff_of_false ?_ ?_⟩
  · rintro ⟨b, hb, hp⟩
    rw [h.unpinned i b hb] at hp
    cases hp
  · rintro ⟨role, hrole⟩
    rw [hheld] at hrole
    cases role <;> cases hrole

/-- The role of the header takes hold of the header block, and the pointers are taken from it. -/
theorem heading_pinsHeld (h : PinsHeld size σ) (format : Format) :
    Ends (do
      load .header .null true
      let (_, header) ← holding .header
      let p := Pointers.read format header.image
      update fun s => { s with pointers := p, highWater := p.highWater }) σ fun r τ =>
        PinsHeld size τ ∧ Unpooled r ∧ (r = .ok () → (τ.1.held.get .header).isSome) := by
  refine Ends.bind (load_pinsHeld h .header .null true) (fun e τ hτ => ⟨hτ.1, hτ.2.2.1, nofun⟩) ?_
  rintro ⟨⟩ τ ⟨hτ, -, -, hrole⟩
  refine Ends.bind (holding_pinsHeld hτ (hrole rfl)) (fun e υ hυ => nomatch hυ.2) ?_
  rintro ⟨i, b⟩ υ ⟨rfl, -⟩
  exact ⟨hτ.session rfl, .ok, fun _ => hrole rfl⟩

/-- A session begins: the role of the header holds the header block. -/
theorem start_pinsHeld (h : s.cache.AtRest size) (henough : minBuffers ≤ size) {new : Session}
    (hheld : new.held = {}) : Ends start (new, s) fun r τ => PinsHeld size τ ∧ Unpooled r ∧
      (r = .ok () → (τ.1.held.get .header).isSome) := by
  unfold start
  refine Ends.get_bind ?_
  dsimp only
  split
  · refine Ends.bind (onCache_ends (Cache.release_serves h.sound new.file .flush)) ?_ ?_
    · rintro e ⟨_, t⟩ ⟨rfl, ht, he⟩
      exact ⟨.of_atRest (ht.atRest h) henough hheld, he, nofun⟩
    · rintro ⟨⟩ ⟨_, t⟩ ⟨rfl, ht, -⟩
      exact heading_pinsHeld (.of_atRest (ht.atRest h) henough hheld) _
  · exact heading_pinsHeld (.of_atRest h henough hheld) _

/-- All roles let go of their buffers. -/
theorem letGoAll_atRest (h : PinsHeld size σ) : Ends letGoAll σ fun r τ => r = .ok () ∧
    τ.1 = { σ.1 with held := {} } ∧ τ.2.cache.AtRest size ∧ minBuffers ≤ size := by
  have hkept : ∀ (l : List Nat) {σ : Session × Buffered}, σ.2.cache.Sound none →
      Ends (l.forM fun i => updateCache (·.setPinned i false)) σ fun _ τ =>
        τ.2.cache.Sound none ∧ τ.2.cache.capacity = σ.2.cache.capacity ∧
          ∀ f, τ.2.cache.registration? f = σ.2.cache.registration? f := by
    intro l
    induction l with
    | nil => exact fun h => ⟨h, rfl, fun _ => rfl⟩
    | cons i rest ih =>
      intro σ h
      show Ends (updateCache (·.setPinned i false) >>= fun _ => rest.forM _) σ _
      have hunpinned : (σ.2.cache.setPinned i false).Sound none := h.setPinned false
      refine Ends.modify_bind ((ih hunpinned).mono ?_)
      exact fun r τ ⟨hsound, hcapacity, hregistration⟩ =>
        ⟨hsound, hcapacity.trans (Cache.capacity_modifyBuffer _), hregistration⟩
  have hall : Ends letGoAll σ fun _ τ => τ.2.cache.Sound none ∧
      τ.2.cache.capacity = σ.2.cache.capacity ∧
        ∀ f, τ.2.cache.registration? f = σ.2.cache.registration? f := by
    unfold letGoAll
    exact Ends.get_bind (Ends.bind (hkept _ h.sound) (fun _ _ hτ => hτ) fun _ _ hτ => hτ)
  refine (letGoAll_unpinned.and hall).mono ?_
  rintro r τ ⟨⟨hr, hsame, hunpinned⟩, hsound, hcapacity, hregistration⟩
  exact ⟨hr, hsame, ⟨hsound, fun f r e hf => h.quiet f r e (hregistration f ▸ hf),
    hunpinned h.holdsPinned, hcapacity.trans h.capacity, fun _ _ => h.enough⟩, h.enough⟩

/-- A call is completed, and its roles let go of all buffers. -/
theorem complete_atRest (h : PinsHeld size σ) (hheader : (σ.1.held.get .header).isSome)
    (mode : EndMode) :
    Ends (complete mode) σ fun r τ => PinsHeld size τ ∧ Unpooled r ∧
      (r = .ok () → τ.2.cache.AtRest size) := by
  have hend : ∀ {υ : Session × Buffered}, PinsHeld size υ → Ends (do
      letGoAll
      if mode = .flush then onCache (Cache.release σ.1.file .flush)
      update fun s => { s with undo := [] }) υ fun r τ =>
        PinsHeld size τ ∧ Unpooled r ∧ (r = .ok () → τ.2.cache.AtRest size) := by
    intro υ hυ
    refine Ends.bind (letGoAll_atRest hυ) (fun e τ hτ => nomatch hτ.1) ?_
    rintro ⟨⟩ ⟨new, t⟩ ⟨-, rfl, hrest, henough⟩
    dsimp only
    split
    · refine Ends.bind (onCache_ends (Cache.release_serves hrest.sound σ.1.file .flush)) ?_ ?_
      · rintro e ⟨_, u⟩ ⟨rfl, hu, he⟩
        exact ⟨.of_atRest (hu.atRest hrest) henough rfl, he, nofun⟩
      · rintro ⟨⟩ ⟨_, u⟩ ⟨rfl, hu, -⟩
        exact ⟨.of_atRest (hu.atRest hrest) henough rfl, .ok, fun _ => hu.atRest hrest⟩
    · exact ⟨.of_atRest hrest henough rfl, .ok, fun _ => hrest⟩
  unfold complete
  refine Ends.get_bind ?_
  dsimp only
  split
  · refine Ends.bind (edit_pinsHeld h hheader fun _ => Pointers.unpooled_write _ _)
      (fun e τ hτ => ⟨hτ.1, hτ.2.2, nofun⟩) fun _ τ hτ => ?_
    exact Ends.modify_bind (hend (hτ.1.session rfl))
  · exact hend h

/-- Work between two sessions, which tells of no buffer. -/
def resting (size : Nat) : Guarantee Error Buffered :=
  .ofInvariant (·.cache.AtRest size) fun e => ¬e.OfPool

theorem resting_of_proceeds {x : CacheM α}
    (hx : ∀ s : Buffered, s.cache.Sound none → Ends x s fun r t => s.Proceeds t ∧ Unpooled r) :
    (resting size).Covers x := fun s hs =>
  (hx s hs.sound).mono fun _ _ h => ⟨h.2, h.1.atRest hs, fun _ _ => trivial⟩

theorem undoOne_atRest (file : FileId) (u : Undo) :
    ((resting size).comap Prod.snd).Covers (undoOne file u) :=
  covers_undoOne (fun file pos => onCache_meets (resting_of_proceeds fun _ hs =>
      Cache.update_ends ⟨.forget hs file pos, .ok⟩))
    (fun file pos image => onCache_meets (resting_of_proceeds fun _ hs =>
      Cache.restore_serves hs file pos image))
    (fun file _ he => onCache_meets (resting_of_proceeds fun _ hs =>
      Cache.update_ends ⟨.park hs file he, .ok⟩)) file u

theorem unlock_atRest (store : Store) : ((resting size).comap Prod.snd).Covers (unlock store) :=
  covers_unlock (update_covers _) <| onCache_meets <| resting_of_proceeds fun s hs =>
    (Cache.onDisk_ends ((store.ask_plain 0 .unlock 0).ends s.disk)).mono fun _ ⟨_, d⟩ h => by
      obtain ⟨rfl, hr⟩ := h
      exact ⟨.of_disk hs d, hr⟩

/-- A call is taken back, and its roles let go of all buffers. Then the lock is given back. -/
theorem rollBack_atRest (store : Store) (h : PinsHeld size σ) : Ends rollBack σ fun _ τ =>
    Ends (unlock store) τ fun _ υ => υ.2.cache.AtRest size := by
  unfold rollBack
  refine Ends.bind (letGoAll_atRest h) (fun e τ hτ => nomatch hτ.1) ?_
  rintro ⟨⟩ τ ⟨-, -, hrest, -⟩
  have hback := Parts.putBack (G := (resting size).comap Prod.snd) (fun _ => update_covers _)
    (fun file => onCache_meets (resting_of_proceeds fun _ hs => Cache.release_serves hs file .flush))
    undoOne_atRest τ.1
  exact Ends.get_bind ((hback.leads hrest).mono fun _ υ hυ => (unlock_atRest store).leads hυ)

/-- A program is carried out in a session that begins, or all is taken back. -/
theorem body_atRest {program : Program α} (hprogram : program.SelfReliant) (store : Store)
    (h : s.cache.AtRest size) (henough : minBuffers ≤ size) {new : Session}
    (hheld : new.held = {}) : Ends (body store program) (new, s) fun r τ => Unpooled r ∧
      ((∃ a, r = .ok a) → PinsHeld size τ ∧ (τ.1.held.get .header).isSome) ∧
      ((∃ e, r = .error e) → τ.2.cache.AtRest size) := by
  have hwork : Ends (do start; perform program) (new, s) fun r τ => PinsHeld size τ ∧ Unpooled r ∧
      ((∃ a, r = .ok a) → (τ.1.held.get .header).isSome) := by
    refine Ends.bind (start_pinsHeld h henough hheld)
      (fun e τ hτ => ⟨hτ.1, hτ.2.1.cast, fun ⟨_, ha⟩ => nomatch ha⟩) ?_
    rintro ⟨⟩ τ ⟨hτ, -, hheader⟩
    exact (perform_pinsHeld hprogram hτ fun _ => False.elim).mono fun r υ hυ =>
      ⟨hυ.1, hυ.2.1, fun ha => hυ.2.2 ha .header (hheader rfl)⟩
  refine ends_body hwork ?_ ?_
  · rintro a τ ⟨hτ, -, hheader⟩
    exact ⟨.ok, fun _ => ⟨hτ, hheader ⟨a, rfl⟩⟩, fun ⟨_, he⟩ => nomatch he⟩
  · rintro e τ ⟨hτ, hr, -⟩
    exact (rollBack_atRest store hτ).mono fun _ _ hυ => hυ.mono fun _ _ hφ =>
      ⟨hr, fun ⟨_, ha⟩ => (nomatch ha), fun _ => hφ⟩

theorem finish_atRest (store : Store) (mode : EndMode) (h : PinsHeld size σ)
    (hheader : (σ.1.held.get .header).isSome) : Ends (finish store mode) σ fun r τ =>
      ∃ ended, r = .ok ended ∧ τ.2.cache.AtRest size ∧ Unpooled ended := by
  refine ends_finish (complete_atRest h hheader mode) ?_ ?_
  · rintro τ ⟨-, -, hrest⟩
    exact (unlock_atRest store τ (hrest rfl)).mono fun _ _ hυ => ⟨hυ.2.1, hυ.1⟩
  · rintro e τ ⟨hτ, hr, -⟩
    exact (rollBack_atRest store hτ).mono fun _ _ hυ => hυ.mono fun _ _ hφ => ⟨hφ, hr⟩

/-- A session that is admitted has a buffer for each role. -/
theorem enter_atRest (file : FileId) (locked : Bool) (h : s.cache.AtRest size) :
    Ends (enter file locked) s fun r t => t.cache.AtRest size ∧ Unpooled r ∧
      ((∃ store, r = .ok store) → minBuffers ≤ size) := by
  unfold enter
  refine Ends.bind (Cache.takePending_serves h.sound file) (fun e t ht => ?_) ?_
  · obtain ⟨kept, hkept, -⟩ := ht.2
    cases hkept
  rintro _ t ⟨ht, kept, hr, hkept⟩
  cases hr
  have hrest := ht.atRest h
  split
  · next e => exact Ends.throw ⟨hrest, .error (hkept h.quiet e rfl), fun ⟨_, hr⟩ => nomatch hr⟩
  · refine Ends.bind (Cache.storeOf_told file) ?_ ?_
    · rintro e u ⟨rfl, he, -⟩
      exact ⟨hrest, he.cast, fun ⟨_, hr⟩ => nomatch hr⟩
    · rintro store u ⟨rfl, -, hknown⟩
      have henough := hrest.enough file (hknown store rfl)
      dsimp only
      split
      · refine Ends.bind (Cache.onDisk_ends ((store.ask_plain 0 .lock 0).ends u.disk)) ?_ ?_
        · rintro e ⟨c, d⟩ ⟨rfl, he⟩
          exact ⟨hrest, .error (he e rfl), fun ⟨_, hr⟩ => nomatch hr⟩
        · rintro ⟨⟩ ⟨c, d⟩ ⟨rfl, -⟩
          exact ⟨hrest, .ok, fun _ => henough⟩
      · exact ⟨hrest, .ok, fun _ => henough⟩

/-- A call leaves a cache at rest, and tells of no buffer. -/
theorem transact_atRest {program : Program α} (hprogram : program.SelfReliant) (file : FileId)
    (layout : Layout) (locked : Bool) (mode : EndMode) (h : s.cache.AtRest size) :
    Ends (transact file layout locked mode program) s fun r t => t.cache.AtRest size ∧ Unpooled r ∧
      ∀ a ended, r = .ok (a, ended) → Unpooled ended := by
  refine ends_transact (enter_atRest file locked h) (fun e t ht => ⟨ht.1, ht.2.1.cast, nofun⟩) ?_
  rintro store t ⟨ht, -, henough⟩
  refine ends_carry (body_atRest hprogram store ht (henough ⟨store, rfl⟩) rfl)
    (fun e τ hτ => ⟨hτ.2.2 ⟨e, rfl⟩, hτ.1.cast, nofun⟩) fun a τ hτ => ?_
  obtain ⟨hpinsHeld, hheader⟩ := hτ.2.1 ⟨a, rfl⟩
  refine (finish_atRest store mode hpinsHeld hheader).mono ?_
  rintro _ υ ⟨ended, rfl, hυ, hplain⟩
  refine ⟨ended, rfl, hυ, .ok, fun a' ended' ho => ?_⟩
  cases ho
  exact hplain

/-- A session that has come to some instruction of its program: the pinned buffers are those that
its roles hold. -/
theorem upTo_pinsHeld {program : Program α} (hprogram : program.SelfReliant) (h : s.cache.AtRest size)
    (henough : minBuffers ≤ size) {new : Session} (hheld : new.held = {}) (n : Nat) :
    Ends (do start; perform (program.upTo n)) (new, s) fun _ τ => PinsHeld size τ :=
  Ends.bind (start_pinsHeld h henough hheld) (fun _ _ hτ => hτ.1) fun _ _ hτ =>
    (perform_pinsHeld (hprogram.upTo n) hτ.1 fun _ => False.elim).mono fun _ _ hυ => hυ.1

end Session

end PagedIndex
