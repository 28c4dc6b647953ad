import PagedIndex.Proofs.Session.Guard
import PagedIndex.Session.Space

/-!
# Programs on blocks alone

A program sees blocks, the roles they are held for, and the chain pointers. How it runs on these
alone is told here, without caches and stores. A session carries it out in the same way, unless an
access to the store fails; then all that was done can be taken back.

## Main definitions

* `View` — what a program sees.
* `Program.Runs` — how a program runs on a view.
* `Program.Views` — how a program that only looks runs on a view.
* `Session.Sees` — a session in which the blocks read as in a view.
* `Session.Performed` — what work of a session comes to, whether accesses fail or not.

## Main statements

* `Session.Sees.perform` — a session carries out a program as it runs on a view, or fails.
-/

namespace PagedIndex

/-- What a program sees: the images of blocks, the blocks of the roles, the chain pointers. -/
structure View where
  blocks : BlockPos → Option Bytes
  held : Role → Option BlockPos
  pointers : Pointers

namespace View

def hold (v : View) (role : Role) (pos : BlockPos) : View :=
  { v with held := fun r => if r = role then some pos else v.held r }

def put (v : View) (pos : BlockPos) (image : Bytes) : View :=
  { v with blocks := fun p => if p = pos then some image else v.blocks p }

/-- A view that can be saved: the chain pointers can be written, and no block is behind the last
one of the file. -/
structure Settled (format : Format) (size : Nat) (v : View) : Prop where
  pointers : ∀ p ∈ v.pointers.fields, p.offset ≤ format.maxPosition
  mark : ∀ p x, v.blocks p = some x → p.offset ≤ v.pointers.highWater.offset
  bound : v.pointers.highWater.offset + size < Store.offsetBound

end View

namespace Program

variable {α β : Type} {v w : View} {size : Nat}

/-- How a program runs on the blocks of a file, of `size` bytes each. A block that comes unread is
behind all others and is changed before all else; the mark of the last block does not go back. -/
inductive Runs (size : Nat) : {α : Type} → Program α → View → Except Error α → View → Prop
  | done {α : Type} (a : α) (v : View) : Runs size (.done a) v (.ok a) v
  | fail {α : Type} (e : Error) (v : View) : Runs size (.fail e : Program α) v (.error e) v
  | load {α : Type} {role : Role} {pos : BlockPos} {image : Bytes} {next : Program α}
      {v w : View} {r : Except Error α} (hrole : role ≠ .header)
      (hblock : v.blocks pos = some image) (hnext : Runs size next (v.hold role pos) r w) :
      Runs size (.load role pos true next) v r w
  | fresh {α : Type} {role : Role} {pos : BlockPos} {image : Bytes} {change : Edit}
      {next : Program α} {v w : View} {r : Except Error α} (hrole : role ≠ .header)
      (haligned : size ∣ pos.offset) (hbound : pos.offset + size < Store.offsetBound)
      (hbehind : v.pointers.highWater.offset < pos.offset)
      (hchange : ∀ old : Bytes, old.length = size → change old = (image, .ok ()))
      (hlength : image.length = size)
      (hnext : Runs size next ((v.hold role pos).put pos image) r w) :
      Runs size (.load role pos false (.edit role change next)) v r w
  | view {α : Type} {role : Role} {pos : BlockPos} {image : Bytes} {next : Bytes → Program α}
      {v w : View} {r : Except Error α} (hrole : role ≠ .header) (hheld : v.held role = some pos)
      (hblock : v.blocks pos = some image) (hnext : Runs size (next image) v r w) :
      Runs size (.view role next) v r w
  | edit {α : Type} {role : Role} {pos : BlockPos} {old image : Bytes} {change : Edit}
      {next : Program α} {v w : View} {r : Except Error α} (hrole : role ≠ .header)
      (hheld : v.held role = some pos) (hblock : v.blocks pos = some old)
      (hchange : change old = (image, .ok ())) (hlength : image.length = size)
      (hnext : Runs size next (v.put pos image) r w) : Runs size (.edit role change next) v r w
  | refused {α : Type} {role : Role} {pos : BlockPos} {old image : Bytes} {change : Edit}
      {next : Program α} {v : View} {e : Error} (hrole : role ≠ .header)
      (hheld : v.held role = some pos) (hblock : v.blocks pos = some old)
      (hchange : change old = (image, .error e)) (hlength : image.length = size) :
      Runs size (.edit role change next) v (.error e) (v.put pos image)
  | pointers {α : Type} {next : Pointers → Program α} {v w : View} {r : Except Error α}
      (hnext : Runs size (next v.pointers) v r w) : Runs size (.pointers next) v r w
  | setPointers {α : Type} {p : Pointers} {next : Program α} {v w : View} {r : Except Error α}
      (hmark : v.pointers.highWater.offset ≤ p.highWater.offset)
      (hnext : Runs size next { v with pointers := p } r w) : Runs size (.setPointers p next) v r w

/-- A program that goes on from the value of another one. -/
theorem Runs.bind {p : Program α} {f : α → Program β} {u v w : View} {a : α}
    {r : Except Error β} (hp : Runs size p u (.ok a) v) (hf : Runs size (f a) v r w) :
    Runs size (p.bind f) u r w := by
  generalize hr : (Except.ok a : Except Error α) = s at hp
  induction hp with
  | done a v => cases hr; exact hf
  | fail e v => cases hr
  | load hrole hblock _ ih => exact .load hrole hblock (ih hf hr)
  | fresh hrole ha hb hbehind hchange hlength _ ih =>
    exact .fresh hrole ha hb hbehind hchange hlength (ih hf hr)
  | view hrole hheld hblock _ ih => exact .view hrole hheld hblock (ih hf hr)
  | edit hrole hheld hblock hchange hlength _ ih =>
    exact .edit hrole hheld hblock hchange hlength (ih hf hr)
  | refused => cases hr
  | pointers _ ih => exact .pointers (ih hf hr)
  | setPointers hmark _ ih => exact .setPointers hmark (ih hf hr)

/-- A program that would go on from the value of one that fails. -/
theorem Runs.bind_error {p : Program α} {f : α → Program β} {v w : View} {e : Error}
    (hp : Runs size p v (.error e) w) : Runs size (p.bind f) v (.error e) w := by
  generalize hr : (Except.error e : Except Error α) = s at hp
  induction hp with
  | done a v => cases hr
  | fail e' v => cases hr; exact .fail e v
  | load hrole hblock _ ih => exact .load hrole hblock (ih hr)
  | fresh hrole ha hb hbehind hchange hlength _ ih =>
    exact .fresh hrole ha hb hbehind hchange hlength (ih hr)
  | view hrole hheld hblock _ ih => exact .view hrole hheld hblock (ih hr)
  | edit hrole hheld hblock hchange hlength _ ih =>
    exact .edit hrole hheld hblock hchange hlength (ih hr)
  | refused hrole hheld hblock hchange hlength =>
    cases hr
    exact .refused hrole hheld hblock hchange hlength
  | pointers _ ih => exact .pointers (ih hr)
  | setPointers hmark _ ih => exact .setPointers hmark (ih hr)

/-- A program runs in one way only. -/
theorem Runs.unique {program : Program α} {w' : View} {r r' : Except Error α}
    (h : Runs size program v r w) (h' : Runs size program v r' w') : r = r' ∧ w = w' := by
  induction h with
  | done a v | fail e v =>
    cases h'
    exact ⟨rfl, rfl⟩
  | load _ _ _ ih =>
    cases h' with
    | load _ _ hnext => exact ih hnext
  | fresh _ _ _ _ hchange _ _ ih =>
    cases h' with
    | fresh _ _ _ _ hchange' _ hnext =>
      have hblank := List.length_replicate (n := size) (a := (0 : UInt8))
      cases (hchange _ hblank).symm.trans (hchange' _ hblank)
      exact ih hnext
  | view _ hheld hblock _ ih =>
    cases h' with
    | view _ hheld' hblock' hnext =>
      cases hheld.symm.trans hheld'
      cases hblock.symm.trans hblock'
      exact ih hnext
  | edit _ hheld hblock hchange _ _ ih =>
    cases h' with
    | edit _ hheld' hblock' hchange' _ hnext =>
      cases hheld.symm.trans hheld'
      cases hblock.symm.trans hblock'
      cases hchange.symm.trans hchange'
      exact ih hnext
    | refused _ hheld' hblock' hchange' _ =>
      cases hheld.symm.trans hheld'
      cases hblock.symm.trans hblock'
      cases hchange.symm.trans hchange'
  | refused _ hheld hblock hchange _ =>
    cases h' with
    | edit _ hheld' hblock' hchange' _ hnext =>
      cases hheld.symm.trans hheld'
      cases hblock.symm.trans hblock'
      cases hchange.symm.trans hchange'
    | refused _ hheld' hblock' hchange' _ =>
      cases hheld.symm.trans hheld'
      cases hblock.symm.trans hblock'
      cases hchange.symm.trans hchange'
      exact ⟨rfl, rfl⟩
  | pointers _ ih =>
    cases h' with
    | pointers hnext => exact ih hnext
  | setPointers _ _ ih =>
    cases h' with
    | setPointers _ hnext => exact ih hnext

/-- How a program that only looks runs on the blocks of a file. -/
inductive Views : {α : Type} → Program α → View → Except Error α → View → Prop
  | done {α : Type} (a : α) (v : View) : Views (.done a) v (.ok a) v
  | fail {α : Type} (e : Error) (v : View) : Views (.fail e : Program α) v (.error e) v
  | load {α : Type} {role : Role} {pos : BlockPos} {image : Bytes} {next : Program α}
      {v w : View} {r : Except Error α} (hrole : role ≠ .header)
      (hblock : v.blocks pos = some image) (hnext : Views next (v.hold role pos) r w) :
      Views (.load role pos true next) v r w
  | view {α : Type} {role : Role} {pos : BlockPos} {image : Bytes} {next : Bytes → Program α}
      {v w : View} {r : Except Error α} (hrole : role ≠ .header) (hheld : v.held role = some pos)
      (hblock : v.blocks pos = some image) (hnext : Views (next image) v r w) :
      Views (.view role next) v r w
  | pointers {α : Type} {next : Pointers → Program α} {v w : View} {r : Except Error α}
      (hnext : Views (next v.pointers) v r w) : Views (.pointers next) v r w

theorem Views.runs {program : Program α} {r : Except Error α} (h : program.Views v r w)
    (size : Nat) : program.Runs size v r w := by
  induction h with
  | done a v => exact .done a v
  | fail e v => exact .fail e v
  | load hrole hblock _ ih => exact .load hrole hblock ih
  | view hrole hheld hblock _ ih => exact .view hrole hheld hblock ih
  | pointers _ ih => exact .pointers ih

/-- Looking changes neither blocks nor pointers. -/
theorem Views.same {program : Program α} {r : Except Error α} (h : program.Views v r w) :
    w.blocks = v.blocks ∧ w.pointers = v.pointers := by
  induction h with
  | done | fail => exact ⟨rfl, rfl⟩
  | load _ _ _ ih | view _ _ _ _ ih | pointers _ ih => exact ih

theorem Views.bind {p : Program α} {f : α → Program β} {u v w : View} {a : α}
    {r : Except Error β} (hp : Views p u (.ok a) v) (hf : Views (f a) v r w) :
    Views (p.bind f) u r w := by
  generalize hr : Except.ok a = o at hp
  induction hp with
  | done b v =>
    cases hr
    exact hf
  | fail => cases hr
  | load hrole hblock _ ih => exact .load hrole hblock (ih hf hr)
  | view hrole hheld hblock _ ih => exact .view hrole hheld hblock (ih hf hr)
  | pointers _ ih => exact .pointers (ih hf hr)

theorem Views.bind_error {p : Program α} {f : α → Program β} {v w : View} {e : Error}
    (hp : Views p v (.error e) w) : Views (p.bind f) v (.error e) w := by
  generalize hr : Except.error e = o at hp
  induction hp with
  | done => cases hr
  | fail =>
    cases hr
    exact .fail _ _
  | load hrole hblock _ ih => exact .load hrole hblock (ih hr)
  | view hrole hheld hblock _ ih => exact .view hrole hheld hblock (ih hr)
  | pointers _ ih => exact .pointers (ih hr)

/-- Nothing is to be done behind the end of a program. -/
theorem bind_pure (program : Program α) : program >>= pure = program := by
  show program.bind done = program
  induction program with
  | done | fail => rfl
  | load role pos read next ih => exact congrArg (load role pos read) ih
  | view role next ih => exact congrArg (view role) (funext ih)
  | edit role change next ih => exact congrArg (edit role change) ih
  | pointers next ih => exact congrArg pointers (funext ih)
  | setPointers p next ih => exact congrArg (setPointers p) ih

/-- Taking a block, spelled out. -/
theorem allocate_eq (l : Layout) (role : Role) :
    allocate l role = pointers fun p =>
      if p.freeHead.isNull then
        if (p.highWater.following l.blockSize).offset > l.maxRecord then fail (.internal .sizeLimit)
        else load role (p.highWater.following l.blockSize) false <| edit role Edit.clear <|
          setPointers { p with highWater := p.highWater.following l.blockSize } <|
            done (p.highWater.following l.blockSize)
      else load role p.freeHead true <| view role fun image =>
        match Deleted.decode l p.freeHead image with
        | .error e => fail e
        | .ok next => edit role Edit.clear <| setPointers { p with freeHead := next } <|
            done p.freeHead := by
  show pointers _ = pointers _
  congr 1
  funext p
  show (if _ then _ else _ : Program BlockPos) = _
  split
  · split <;> rfl
  · show load _ _ _ _ = load _ _ _ _
    congr 1
    show view _ _ = view _ _
    congr 1
    funext image
    show bind (ofExcept (Deleted.decode l p.freeHead image)) _ = _
    cases Deleted.decode l p.freeHead image <;> rfl

/-- Giving a block back, spelled out. -/
theorem free_eq (l : Layout) (role : Role) (pos : BlockPos) :
    free l role pos = if pos.isNull then fail (.internal .freeingHeader)
      else pointers fun p => load role pos true <| edit role (Deleted.stamp l p.freeHead) <|
        setPointers { p with freeHead := pos } <| done () := by
  show (if _ then _ else _ : Program Unit) = _
  split <;> rfl

end Program

namespace Session

variable {m : Mount} {l : Layout} {σ τ : Session × Buffered} {α : Type} {role : Role}
  {pos hw : BlockPos} {before : BlockPos → Option Bytes} {v w : View}

/-- A session in which the blocks read as in a view, but for one that is about to be filled. -/
structure Sees (m : Mount) (l : Layout) (before : BlockPos → Option Bytes) (hw : BlockPos)
    (fresh : Option BlockPos) (v : View) (σ : Session × Buffered) : Prop extends
    Covered m before hw l fresh σ where
  mark : hw.offset ≤ v.pointers.highWater.offset
  pointers : σ.1.pointers = v.pointers
  header : ∃ i b, σ.1.held.get .header = some i ∧ σ.2.cache.buffer? i = some b ∧ b.pos = .null
  saved : ∃ x, m.content σ.2 .null = some x ∧
    (σ.1.pointersChanged = false → Pointers.read l.format x = v.pointers)
  blocks : ∀ p x, v.blocks p = some x → p ≠ .null ∧ m.Aligned p ∧
    p.offset + m.blockSize < Store.offsetBound ∧ (fresh ≠ some p → m.content σ.2 p = some x)
  held : ∀ role p, role ≠ .header → v.held role = some p →
    ∃ i b, σ.1.held.get role = some i ∧ σ.2.cache.buffer? i = some b ∧ b.pos = p

/-- The same over a cache and a store without failures. -/
structure Shows (m : Mount) (l : Layout) (before : BlockPos → Option Bytes) (hw : BlockPos)
    (fresh : Option BlockPos) (v : View) (σ : Session × Buffered) : Prop extends
    Sees m l before hw fresh v σ where
  safe : σ.2.Safe
  reliable : m.store.Reliable σ.2.disk

/-- What work that is to end with `r` and the view `w` comes to, from `σ` with result `o` to `τ`: it
ends so, or it fails and can be taken back. The blocks of other files stay as they are. -/
structure Performed {α : Type} (m : Mount) (l : Layout) (before : BlockPos → Option Bytes)
    (hw : BlockPos) (fresh : Option BlockPos) (r : Except Error α) (w : View)
    (σ : Session × Buffered) (o : Except Error α) (τ : Session × Buffered) : Prop where
  locked : τ.1.locked = σ.1.locked
  follows : σ.2.Follows τ.2
  beside : Buffered.Beside m.file (fun p => p.offset + m.blockSize < Store.offsetBound) σ.2 τ.2
  outcome : (o = r ∧ Sees m l before hw fresh w τ) ∨
    ((∃ e, o = .error e) ∧ Covered m before hw l none τ)
  reliable : σ.2.Safe → m.store.Reliable σ.2.disk →
    o = r ∧ Sees m l before hw fresh w τ ∧ τ.2.Safe

section Performed

variable {β : Type} {x : SessionM α} {f : α → SessionM β} {fresh fresh' : Option BlockPos}
  {r : Except Error β} {u : View}

/-- Nothing is done. -/
theorem Sees.performed {a : Except Error α} (h : Sees m l before hw fresh v σ) :
    Performed m l before hw fresh a v σ a σ :=
  ⟨rfl, .refl _, .refl _, .inl ⟨rfl, h⟩, fun hs _ => ⟨rfl, h, hs⟩⟩

/-- Work goes on from a view. -/
theorem Performed.bind {a : α} (hx : Ends x σ (Performed m l before hw fresh (.ok a) u σ))
    (hf : ∀ υ, Sees m l before hw fresh u υ →
      Ends (f a) υ (Performed m l before hw fresh' r w υ)) :
    Ends (x >>= f) σ (Performed m l before hw fresh' r w σ) := by
  refine Ends.bind hx (fun e υ h => ?_) fun b υ h => ?_
  · refine ⟨h.locked, h.follows, h.beside, .inr ⟨⟨e, rfl⟩, ?_⟩, fun hs hr =>
      nomatch (h.reliable hs hr).1⟩
    rcases h.outcome with ⟨he, -⟩ | ⟨-, hcovered⟩
    · cases he
    · exact hcovered
  · have hsees : b = a ∧ Sees m l before hw fresh u υ := by
      rcases h.outcome with ⟨hb, hsees⟩ | ⟨⟨e, he⟩, -⟩
      · exact ⟨Except.ok.inj hb, hsees⟩
      · cases he
    obtain ⟨rfl, hsees⟩ := hsees
    refine (hf υ hsees).mono fun o τ h' => ?_
    refine ⟨h'.locked.trans h.locked, h.follows.trans h'.follows, h.beside.trans h'.beside,
      h'.outcome, fun hs hr => ?_⟩
    exact h'.reliable (h.reliable hs hr).2.2 (hr.follows h.follows.disk)

/-- Work that is to fail does not go on. -/
theorem Performed.bind_error {e : Error}
    (hx : Ends x σ (Performed m l before hw fresh (.error e) w σ)) :
    Ends (x >>= f) σ (Performed m l before hw fresh (.error e) w σ) := by
  refine Ends.bind hx (fun e' υ h => ?_) fun b υ h => ?_
  · refine ⟨h.locked, h.follows, h.beside, ?_, fun hs hr => ?_⟩
    · rcases h.outcome with ⟨he, hsees⟩ | ⟨-, hcovered⟩
      · cases he
        exact .inl ⟨rfl, hsees⟩
      · exact .inr ⟨⟨e', rfl⟩, hcovered⟩
    · obtain ⟨he, hsees⟩ := h.reliable hs hr
      cases he
      exact ⟨rfl, hsees⟩
  · rcases h.outcome with ⟨hb, -⟩ | ⟨⟨_, hb⟩, -⟩ <;> cases hb

end Performed

/-- The buffer of a role holds the block of the role. -/
theorem holding_ends {i : Nat} {b : Buffer} (hrole : σ.1.held.get role = some i)
    (hb : σ.2.cache.buffer? i = some b) :
    Ends (holding role) σ fun r τ => r = .ok (i, b) ∧ τ = σ := by
  unfold holding
  refine Ends.get_bind ?_
  simp only [hrole, hb]
  exact Ends.pure ⟨rfl, rfl⟩

theorem Covered.file_of_held {fresh : Option BlockPos} {i : Nat} {b : Buffer}
    (h : Covered m before hw l fresh σ) (hrole : σ.1.held.get role = some i)
    (hb : σ.2.cache.buffer? i = some b) : b.file = m.file := by
  obtain ⟨b', hb', hfile, -⟩ := h.pins.held i (Holdings.mem_toList.mpr ⟨role, hrole⟩)
  rw [hb] at hb'
  cases hb'
  exact hfile

/-- The image of a block that a role holds. -/
theorem Sees.image {i : Nat} {b : Buffer} {x : Bytes} (h : Sees m l before hw none v σ)
    (hrole : σ.1.held.get role = some i) (hb : σ.2.cache.buffer? i = some b)
    (hx : v.blocks b.pos = some x) : b.image = x := by
  have := (h.blocks _ _ hx).2.2.2 nofun
  rw [Mount.content_of_buffer h.intact.sound hb (h.file_of_held hrole hb)] at this
  exact Option.some.inj this

theorem Sees.loaded {read : Bool} (h : Sees m l before hw none v σ)
    (hl : Loaded m role pos read σ (.ok ()) τ) (hrole : role ≠ .header)
    (hnew : read = false → hw.offset < pos.offset) :
    Sees m l before hw (Mount.unread read pos) (v.hold role pos) τ := by
  obtain ⟨held, hsession⟩ := hl.session
  obtain ⟨hintact, i, b, hi, hb, hbp, -⟩ := hl.ok rfl
  have hnull : Mount.unread read pos ≠ some .null := by
    cases read with
    | true => exact nofun
    | false =>
      intro heq
      have := hnew rfl
      rw [Option.some.inj heq] at this
      exact absurd this (Nat.not_lt_zero _)
  have hcovered : Covered m before hw l (Mount.unread read pos) τ :=
    ⟨by rw [hsession]; exact h.file, by rw [hsession]; exact h.layout, h.size, hintact, hl.pins,
      h.guard.load hl hnew⟩
  refine ⟨hcovered, h.mark, by rw [hsession]; exact h.pointers, ?_, ?_, fun p y hp => ?_,
    fun role' p hrole' hp => ?_⟩
  · obtain ⟨j, b', hj, hb', hnull'⟩ := h.header
    obtain ⟨hj', hb''⟩ := hl.others .header j b' hrole.symm hj hb'
    exact ⟨j, b', hj', hb'', hnull'⟩
  · obtain ⟨y, hy, hsaved⟩ := h.saved
    exact ⟨y, hl.keeps _ y (Nat.dvd_zero _) hnull hy, by rw [hsession]; exact hsaved⟩
  · obtain ⟨h₁, h₂, h₃, h₄⟩ := h.blocks p y hp
    exact ⟨h₁, h₂, h₃, fun hne => hl.keeps p y h₂ hne (h₄ nofun)⟩
  · unfold View.hold at hp
    simp only at hp
    split at hp
    · next heq =>
      rw [heq]
      exact ⟨i, b, hi, hb, hbp.trans (Option.some.inj hp)⟩
    · next hne =>
      obtain ⟨j, b', hj, hb', hpos⟩ := h.held role' p hrole' hp
      obtain ⟨hj', hb''⟩ := hl.others role' j b' hne hj hb'
      exact ⟨j, b', hj', hb'', hpos⟩

/-- A load of a block of the view, or of one behind all others. -/
theorem Sees.load (h : Sees m l before hw none v σ) (read : Bool) (hrole : role ≠ .header)
    (ha : m.Aligned pos) (hread : read = true → (v.blocks pos).isSome)
    (hnew : read = false → hw.offset < pos.offset) :
    Ends (Session.load role pos read) σ
      (Performed m l before hw (Mount.unread read pos) (.ok ()) (v.hold role pos) σ) := by
  refine ((load_ends h.file (h.layout ▸ h.size) h.intact h.pins ha role read).and
    (load_beside (D := fun p => p.offset + m.blockSize < Store.offsetBound) h.file h.pins
      h.intact.sound role pos read)).mono ?_
  rintro r τ ⟨hl, hbeside⟩
  obtain ⟨held, hsession⟩ := hl.session
  have hreliable : σ.2.Safe → m.store.Reliable σ.2.disk → r = .ok () := fun hs hr =>
    hl.reliable hs fun hread' => by
      obtain ⟨x, hx⟩ := Option.isSome_iff_exists.mp (hread hread')
      obtain ⟨-, -, hbound, hcontent⟩ := h.blocks pos x hx
      exact ⟨hr, hbound, by rw [hcontent nofun]; rfl⟩
  refine ⟨by rw [hsession], hl.follows, hbeside, ?_, fun hs hr => ?_⟩
  · cases r with
    | ok _ => exact .inl ⟨rfl, h.loaded hl hrole hnew⟩
    | error e =>
      exact .inr ⟨⟨e, rfl⟩, by rw [hsession]; exact h.file, by rw [hsession]; exact h.layout,
        h.size, hl.error e rfl, hl.pins, h.guard.load hl hnew⟩
  · have hr := hreliable hs hr
    subst hr
    exact ⟨rfl, h.loaded hl hrole hnew, hl.safe hs⟩

theorem Sees.edited {fresh : Option BlockPos} {i : Nat} {b : Buffer} {image : Bytes}
    (h : Sees m l before hw fresh v σ) (he : Edited m i b image σ τ)
    (hheld : σ.1.held.get role = some i) (hb : σ.2.cache.buffer? i = some b) (hnull : b.pos ≠ .null)
    (hbound : b.pos.offset + m.blockSize < Store.offsetBound)
    (hfresh : ∀ q, fresh = some q → q = b.pos) :
    Sees m l before hw none (v.put b.pos image) τ := by
  have hfile := h.file_of_held hheld hb
  obtain ⟨ha, hlen⟩ := h.intact.whole i b hb hfile
  obtain ⟨hfile', -, hlayout, hpointers, hchanged, hholdings, -⟩ := he.same
  have hbuffers : ∀ j b', σ.2.cache.buffer? j = some b' →
      ∃ b'', τ.2.cache.buffer? j = some b'' ∧ b''.pos = b'.pos := by
    intro j b' hb'
    by_cases hj : j = i
    · subst hj
      rw [hb] at hb'
      cases hb'
      exact ⟨_, he.self, rfl⟩
    · exact ⟨b', he.others j b' hj hb', rfl⟩
  have hcovered : Covered m before hw l none τ :=
    ⟨hfile'.trans h.file, hlayout.trans h.layout, h.size, he.intact, he.pins,
      h.guard.edit h.intact.sound he hb hfile ha hlen⟩
  refine ⟨hcovered, h.mark, hpointers.trans h.pointers, ?_, ?_, fun p y hp => ?_,
    fun role' p hrole' hp => ?_⟩
  · obtain ⟨j, b', hj, hb', hnull'⟩ := h.header
    obtain ⟨b'', hb'', hp⟩ := hbuffers j b' hb'
    exact ⟨j, b'', by rw [hholdings]; exact hj, hb'', hp.trans hnull'⟩
  · obtain ⟨y, hy, hsaved⟩ := h.saved
    refine ⟨y, by rw [he.content, if_neg hnull.symm]; exact hy, ?_⟩
    rw [hchanged]
    exact hsaved
  · unfold View.put at hp
    simp only at hp
    rw [he.content]
    split at hp
    · next heq =>
      subst heq
      exact ⟨hnull, ha, hbound, fun _ => by rw [if_pos rfl]; exact hp⟩
    · next hne =>
      obtain ⟨h₁, h₂, h₃, h₄⟩ := h.blocks p y hp
      exact ⟨h₁, h₂, h₃, fun _ => by
        rw [if_neg hne]
        exact h₄ fun heq => hne (hfresh p heq)⟩
  · obtain ⟨j, b', hj, hb', hp'⟩ := h.held role' p hrole' hp
    obtain ⟨b'', hb'', hp''⟩ := hbuffers j b' hb'
    exact ⟨j, b'', by rw [hholdings]; exact hj, hb'', hp''.trans hp'⟩

/-- A change of the block that a role holds. -/
theorem Sees.edit {fresh : Option BlockPos} {i : Nat} {b : Buffer} {change : Edit} {image : Bytes}
    {o : Except Error Unit} (h : Sees m l before hw fresh v σ)
    (hheld : σ.1.held.get role = some i) (hb : σ.2.cache.buffer? i = some b) (hpos : b.pos = pos)
    (hnull : pos ≠ .null) (hbound : pos.offset + m.blockSize < Store.offsetBound)
    (hfresh : ∀ q, fresh = some q → q = pos) (hchange : change b.image = (image, o))
    (hlength : image.length = m.blockSize) :
    Ends (Session.edit role change) σ
      (Performed m l before hw none o (v.put pos image) σ) := by
  subst hpos
  have hlen : (change b.image).1.length = m.blockSize := by
    rw [hchange]
    exact hlength
  refine ((edit_ends h.intact h.pins hheld hb hfresh hlen).and
    (edit_beside (D := fun p => p.offset + m.blockSize < Store.offsetBound) h.pins hheld hb hbound
      change)).mono ?_
  rintro r τ ⟨⟨hr, he⟩, hbeside⟩
  rw [hchange] at hr he
  have hsees := h.edited he hheld hb hnull hbound hfresh
  exact ⟨he.same.2.1, he.follows, hbeside, .inl ⟨hr, hsees⟩,
    fun hs hrel => ⟨hr, hsees, he.safe hs hrel hbound⟩⟩

/-- A session carries out a program as it runs on the blocks alone, or it fails and can be taken
back. -/
theorem Sees.perform {program : Program α} {r : Except Error α} {w : View}
    (h : Sees m l before hw none v σ) (hruns : program.Runs m.blockSize v r w) :
    Ends (Session.perform program) σ (Performed m l before hw none r w σ) := by
  induction hruns generalizing σ with
  | done a v => exact h.performed
  | fail e v => exact h.performed
  | load hrole hblock _ ih =>
    have ha := (h.blocks _ _ hblock).2.1
    exact Performed.bind (h.load true hrole ha (fun _ => by rw [hblock]; rfl) nofun)
      fun υ hυ => ih hυ
  | @fresh role pos image change _ v _ _ hrole ha hbound hbehind hchange hlength _ ih =>
    have hload := h.load false hrole ha nofun fun _ => Nat.lt_of_le_of_lt h.mark hbehind
    refine Performed.bind hload fun υ hυ => ?_
    obtain ⟨i, b, hi, hb, hpos⟩ := hυ.held role pos hrole (by simp [View.hold])
    have hlen := (hυ.intact.whole i b hb (hυ.file_of_held hi hb)).2
    have hnull : pos ≠ .null := by
      rintro rfl
      exact absurd hbehind (Nat.not_lt_zero _)
    have hedit := hυ.edit hi hb hpos hnull hbound (fun q hq => (Option.some.inj hq).symm)
      (hchange _ hlen) hlength
    exact Performed.bind hedit fun φ hφ => ih hφ
  | @view role pos image _ v _ _ hrole hheld hblock _ ih =>
    obtain ⟨i, b, hi, hb, hpos⟩ := h.held role pos hrole hheld
    refine Ends.bind (holding_ends hi hb) (fun e τ h => nomatch h.1) ?_
    rintro ib τ ⟨hib, rfl⟩
    cases hib
    have himage : b.image = image := h.image hi hb (by rw [hpos]; exact hblock)
    simp only [himage]
    exact ih h
  | @edit role pos old image change _ v _ _ hrole hheld hblock hchange hlength _ ih =>
    obtain ⟨i, b, hi, hb, hpos⟩ := h.held role pos hrole hheld
    have himage : b.image = old := h.image hi hb (by rw [hpos]; exact hblock)
    obtain ⟨hnull, -, hbound, -⟩ := h.blocks pos old hblock
    have hedit := h.edit hi hb hpos hnull hbound nofun (himage.symm ▸ hchange) hlength
    exact Performed.bind hedit fun υ hυ => ih hυ
  | @refused role pos old image change _ v e hrole hheld hblock hchange hlength =>
    obtain ⟨i, b, hi, hb, hpos⟩ := h.held role pos hrole hheld
    have himage : b.image = old := h.image hi hb (by rw [hpos]; exact hblock)
    obtain ⟨hnull, -, hbound, -⟩ := h.blocks pos old hblock
    exact Performed.bind_error
      (h.edit hi hb hpos hnull hbound nofun (himage.symm ▸ hchange) hlength)
  | @pointers next v _ _ _ ih =>
    refine Ends.get_bind ?_
    simp only [h.pointers]
    exact ih h
  | @setPointers p _ v _ _ hmark _ ih =>
    have hmark' := Nat.le_trans h.mark hmark
    by_cases hp : σ.1.pointers = p
    · have hv : { v with pointers := p } = v := by rw [← hp, h.pointers]
      refine Ends.modify_bind ?_
      simp only [if_pos hp]
      exact ih (hv ▸ h)
    · obtain ⟨x, hx, -⟩ := h.saved
      have hcovered : Covered m before hw l none
          ({ σ.1 with pointers := p, pointersChanged := true }, σ.2) :=
        ⟨h.file, h.layout, h.size, h.intact, h.pins.session rfl, h.guard.session rfl rfl⟩
      have hsees : Sees m l before hw none { v with pointers := p }
          ({ σ.1 with pointers := p, pointersChanged := true }, σ.2) :=
        ⟨hcovered, hmark', rfl, h.header, ⟨x, hx, nofun⟩, h.blocks, h.held⟩
      refine Ends.modify_bind ?_
      simp only [if_neg hp]
      exact (ih hsees).mono fun o τ hτ => ⟨hτ.locked, hτ.follows, hτ.beside, hτ.outcome, hτ.reliable⟩

/-- A program that only looks changes no block. -/
theorem Sees.perform_views {program : Program α} {r : Except Error α} {w : View}
    (h : Sees m l before hw none v σ) (hviews : program.Views v r w) :
    Ends (Session.perform program) σ fun _ τ =>
      Buffered.Beside m.file (fun _ => False) σ.2 τ.2 ∧ τ.1.undo = σ.1.undo ∧
        τ.1.pointersChanged = σ.1.pointersChanged := by
  induction hviews generalizing σ with
  | done a v => exact ⟨.refl _, rfl, rfl⟩
  | fail e v => exact ⟨.refl _, rfl, rfl⟩
  | @load role pos image next v w r hrole hblock _ ih =>
    have ha := (h.blocks _ _ hblock).2.1
    refine Ends.bind ((load_ends h.file (h.layout ▸ h.size) h.intact h.pins ha role true).and
      (load_beside (D := fun _ => False) h.file h.pins h.intact.sound role pos true)) ?_ ?_
    · rintro e τ ⟨hl, hbeside⟩
      obtain ⟨held, hsession⟩ := hl.session
      exact ⟨hbeside, by rw [hsession], by rw [hsession]⟩
    · rintro ⟨⟩ τ ⟨hl, hbeside⟩
      obtain ⟨held, hsession⟩ := hl.session
      refine (ih (h.loaded hl hrole nofun)).mono ?_
      rintro o υ ⟨hbeside', hundo, hchanged⟩
      exact ⟨hbeside.trans hbeside', by rw [hundo, hsession], by rw [hchanged, hsession]⟩
  | @view role pos image next v w r hrole hheld hblock _ ih =>
    obtain ⟨i, b, hi, hb, hpos⟩ := h.held role pos hrole hheld
    refine Ends.bind (holding_ends hi hb) (fun e τ h => nomatch h.1) ?_
    rintro ib τ ⟨hib, rfl⟩
    cases hib
    have himage : b.image = image := h.image hi hb (by rw [hpos]; exact hblock)
    simp only [himage]
    exact ih h
  | @pointers next v w r _ ih =>
    refine Ends.get_bind ?_
    simp only [h.pointers]
    exact ih h

end Session

end PagedIndex
