import PagedIndex.Proofs.Cache.Mirror
import PagedIndex.Proofs.Session.Pins

/-!
# Calls that only read

A program that only reads is told by the images of the blocks and by the chain pointers. Over a
cache that holds of the file what its volume holds, a call shows to such a program what the blocks
of the volume read as, wherever the links lead and whatever is refused, and it changes none of that.

## Main definitions

* `Program.Reader` — a program that only reads.
* `Program.Reads` — what it ends with.
* `Session.Sights` — a cache that holds of a file what its volume holds, between two calls.

## Main statements

* `Session.transact_reads` — a call ends as its program reads the blocks of the volume.
-/

namespace PagedIndex

/-! ## Programs -/

namespace Program

variable {α β : Type} {blocks blocks' : BlockPos → Option Bytes} {p : Pointers} {program : Program α}
  {f : α → Program β} {r r' : Except Error α} {o : Except Error β} {a : α} {b : β} {e : Error}

/-- A program that reads blocks, looks at each of them as soon as it has it, and changes nothing. -/
inductive Reader {α : Type} : Program α → Prop
  | done {a : α} : Reader (.done a)
  | fail {e : Error} : Reader (.fail e)
  | read {role : Role} {pos : BlockPos} {next : Bytes → Program α} (hnext : ∀ x, Reader (next x)) :
      Reader (.load role pos true (.view role next))
  | pointers {next : Pointers → Program α} (hnext : ∀ p, Reader (next p)) : Reader (.pointers next)

/-- What a program ends with that reads blocks with given images. -/
inductive Reads {α : Type} (blocks : BlockPos → Option Bytes) (p : Pointers) :
    Program α → Except Error α → Prop
  | done {a : α} : Reads blocks p (.done a) (.ok a)
  | fail {e : Error} : Reads blocks p (.fail e) (.error e)
  | read {role : Role} {pos : BlockPos} {x : Bytes} {next : Bytes → Program α} {r : Except Error α}
      (hx : blocks pos = some x) (hnext : Reads blocks p (next x) r) :
      Reads blocks p (.load role pos true (.view role next)) r
  | pointers {next : Pointers → Program α} {r : Except Error α} (hnext : Reads blocks p (next p) r) :
      Reads blocks p (.pointers next) r

theorem Reads.mono (h : program.Reads blocks p r)
    (hblocks : ∀ pos x, blocks pos = some x → blocks' pos = some x) : program.Reads blocks' p r := by
  induction h with
  | done => exact .done
  | fail => exact .fail
  | read hx _ ih => exact .read (hblocks _ _ hx) ih
  | pointers _ ih => exact .pointers ih

theorem Reads.bind (h : program.Reads blocks p (.ok a)) (hf : (f a).Reads blocks p o) :
    (program >>= f).Reads blocks p o := by
  show (program.bind f).Reads blocks p o
  generalize hr : Except.ok a = r at h
  induction h with
  | done =>
    cases hr
    exact hf
  | fail => cases hr
  | read hx _ ih => exact .read hx (ih hr)
  | pointers _ ih => exact .pointers (ih hr)

/-- What a program that ends well has come by. -/
theorem Reader.of_bind (hprogram : program.Reader)
    (h : (program >>= f).Reads blocks p (.ok b)) :
    ∃ a, program.Reads blocks p (.ok a) ∧ (f a).Reads blocks p (.ok b) := by
  replace h : (program.bind f).Reads blocks p (.ok b) := h
  induction hprogram with
  | done => exact ⟨_, .done, h⟩
  | fail => cases h
  | read hnext ih =>
    cases h with
    | read hx hrest =>
      obtain ⟨a, ha, hb⟩ := ih _ hrest
      exact ⟨a, .read hx ha, hb⟩
  | pointers hnext ih =>
    cases h with
    | pointers hrest =>
      obtain ⟨a, ha, hb⟩ := ih _ hrest
      exact ⟨a, .pointers ha, hb⟩

/-- How a program runs on a view is how it reads the blocks of the view. -/
theorem Reader.reads {size : Nat} {v w : View} (hprogram : program.Reader)
    (h : program.Runs size v r w) : program.Reads v.blocks v.pointers r := by
  induction hprogram generalizing v with
  | done =>
    cases h
    exact .done
  | fail =>
    cases h
    exact .fail
  | @read role pos next hnext ih =>
    cases h with
    | load hrole hblock hrest =>
      cases hrest with
      | view _ hheld hblock' hrest =>
        obtain rfl : pos = _ := by simpa [View.hold] using hheld
        have hreads := ih _ hrest
        exact .read hblock' hreads
  | pointers hnext ih =>
    cases h with
    | pointers hrest => exact .pointers (ih _ hrest)

end Program

/-! ## What a cache knows of files -/

namespace Cache

variable {α : Type}

/-- What is known of the open files beside their blocks stays. -/
def keepsFiles : Guarantee Error Buffered where
  Holds _ := True
  Leads s t := ∀ f, t.cache.registration? f = s.cache.registration? f
  Fails _ := True
  refl _ _ := rfl
  trans h h' f := (h' f).trans (h f)
  keeps _ _ := trivial

theorem update_keepsFiles {f : Cache → Cache}
    (hf : ∀ c g, (f c).registration? g = c.registration? g) : keepsFiles.Covers (update f) :=
  update_covers fun s _ => hf s.cache

theorem onDisk_keepsFiles (x : DiskM α) : keepsFiles.Covers (onDisk x) := fun _ _ =>
  (onDisk_ends ends_ending).mono fun _ _ ⟨hcache, _⟩ =>
    ⟨fun _ _ => trivial, fun f => congrArg (·.registration? f) hcache, fun _ _ => trivial⟩

theorem parts_keepsFiles : LoadParts keepsFiles where
  unknown := trivial
  fault _ := trivial
  writeBack := covers_writeBack (fun _ => trivial) (fun _ _ _ => onDisk_keepsFiles _)
    fun _ => update_keepsFiles fun _ _ => rfl
  change hf := by
    cases hf with
    | takeFree rest => exact update_keepsFiles fun _ _ => rfl
    | evict i => exact update_keepsFiles fun _ _ => registration?_unhook
    | discard i => exact update_keepsFiles fun _ _ => registration?_discard
  readImage _ _ _ := onDisk_keepsFiles _
  giveBack _ := update_keepsFiles fun _ _ => rfl
  hook _ _ _ := update_keepsFiles fun _ _ => registration?_hook

theorem fetch_keepsFiles (file : FileId) (pos : BlockPos) (blockSize : Nat) (read : Bool) :
    keepsFiles.Covers (fetch file pos blockSize read) :=
  parts_keepsFiles.fetch (fun hf => by cases hf <;> exact update_keepsFiles fun _ _ => rfl)
    file pos blockSize read

end Cache

namespace Session

variable {m : Mount} {σ τ υ : Session × Buffered} {s t : Buffered} {α : Type} {role : Role}
  {pos : BlockPos} {x : Bytes} {l : Layout}

/-! ## Steps of a call that only reads -/

/-- What part of a call that only reads comes to. -/
structure OnlyReads (m : Mount) (σ τ : Session × Buffered) : Prop where
  ran : Ran m (fun _ => True) (fun _ _ => False) σ τ
  undo : τ.1.undo = σ.1.undo
  pointersChanged : τ.1.pointersChanged = σ.1.pointersChanged
  holdsPinned : HoldsPinned σ → HoldsPinned τ
  registration : τ.2.cache.registration? m.file = σ.2.cache.registration? m.file

theorem OnlyReads.refl (h : At m σ) : OnlyReads m σ σ := ⟨.refl h, rfl, rfl, id, rfl⟩

theorem OnlyReads.trans (h : OnlyReads m σ τ) (h' : OnlyReads m τ υ) : OnlyReads m σ υ :=
  ⟨h.ran.trans h'.ran, h'.undo.trans h.undo, h'.pointersChanged.trans h.pointersChanged,
    h'.holdsPinned ∘ h.holdsPinned, h'.registration.trans h.registration⟩

/-- A call that can get at the blocks of its file: changes of other files can be written, the pinned
buffers are those of its roles, and its store refuses nothing. -/
structure HasAccess (m : Mount) (σ : Session × Buffered) : Prop where
  flushable : σ.2.Flushable
  holdsPinned : HoldsPinned σ
  enough : minBuffers ≤ σ.2.cache.capacity
  refusesNothing : m.store.RefusesNothing σ.2.disk

theorem OnlyReads.hasAccess (h : OnlyReads m σ τ) (hσ : HasAccess m σ) : HasAccess m τ :=
  ⟨h.ran.steps.flushable hσ.flushable, h.holdsPinned hσ.holdsPinned,
    h.ran.steps.registered.1 ▸ hσ.enough,
    hσ.refusesNothing.follows (Cache.Through.reaches h.ran.steps).follows⟩

theorem OnlyReads.mirrors (h : OnlyReads m σ τ) (hσ : m.Mirrors none σ.2) : m.Mirrors none τ.2 :=
  (h.ran.steps.mirrors hσ).1

theorem OnlyReads.read? (h : OnlyReads m σ τ) (hσ : m.Mirrors none σ.2) :
    m.read? τ.2.disk = m.read? σ.2.disk :=
  funext fun _ => Mount.read?_congr (h.ran.steps.mirrors hσ).2

theorem letGo_keepsFiles (role : Role) : (Cache.keepsFiles.comap Prod.snd).Covers (letGo role) :=
  covers_letGo (fun _ => update_covers _) (fun _ =>
    onCache_meets (Cache.update_keepsFiles fun _ _ => rfl))
    role

/-- Of the session itself only what the role holds is changed. -/
theorem letGo_onlyReads (h : At m σ) (role : Role) : Ends (letGo role) σ fun r τ => r = .ok () ∧
    OnlyReads m σ τ ∧ τ.1 = { σ.1 with held := σ.1.held.set role none } := by
  refine ((letGo_ran (V := fun _ => True) (W := fun _ _ => False) h role).and
    ((letGo_held role).and ((Ends.all (letGo_holdsPinned role σ)).and
      ((letGo_keepsFiles role).leads trivial)))).mono ?_
  rintro r τ ⟨hran, ⟨hr, hsession⟩, hholds, hfiles⟩
  exact ⟨hr, ⟨hran, by rw [hsession], by rw [hsession], fun h => (hholds h).2.1, hfiles _⟩, hsession⟩

/-- A buffer is spare for a role that holds none. -/
theorem HoldsPinned.spare (h : HoldsPinned σ) (role : Role) (hrole : σ.1.held.get role = none)
    (henough : minBuffers ≤ σ.2.cache.capacity) : σ.2.Spare :=
  spare_of_pinned h hrole henough

/-- A block is loaded as it reads. -/
theorem load_onlyReads (h : At m σ) (hm : m.Mirrors none σ.2) (role : Role) (pos : BlockPos) :
    Ends (load role pos true) σ fun r τ => OnlyReads m σ τ ∧ τ.1.pointers = σ.1.pointers ∧
      (r = .ok () → ∃ i b, τ.1.held.get role = some i ∧ τ.2.cache.buffer? i = some b ∧ b.pos = pos) ∧
      (HasAccess m σ → ∀ x, m.read? σ.2.disk pos = some x → r = .ok ()) := by
  have hsame : Ends (load role pos true) σ fun r τ =>
      τ.1.undo = σ.1.undo ∧ τ.1.pointersChanged = σ.1.pointersChanged ∧
      τ.2.cache.registration? m.file = σ.2.cache.registration? m.file ∧
      (r = .ok () → ∃ i b, τ.1.held.get role = some i ∧ τ.2.cache.buffer? i = some b ∧ b.pos = pos) ∧
      (HasAccess m σ → ∀ x, m.read? σ.2.disk pos = some x → r = .ok ()) := by
    unfold load
    refine Ends.bind (letGo_onlyReads h role) (fun e τ hτ => nomatch hτ.1) ?_
    rintro ⟨⟩ τ ⟨-, hτ, hsession⟩
    have hat := hτ.ran.at'
    refine Ends.get_bind ?_
    simp only [hat.file, hat.size]
    have hsure : Ends (Cache.fetch m.file pos m.blockSize true) τ.2 fun r _ =>
        HasAccess m σ → ∀ x, m.read? σ.2.disk pos = some x → ∃ i, r = .ok i := by
      by_cases hhasAccess : HasAccess m σ ∧ ∃ x, m.read? σ.2.disk pos = some x
      · obtain ⟨hhasAccess, x, hx⟩ := hhasAccess
        have hready := hτ.hasAccess hhasAccess
        have hspare := hready.holdsPinned.spare role
          (by rw [hsession, Holdings.get_set, if_pos rfl]) hready.enough
        exact (Cache.fetch_refusesNothing (hτ.mirrors hm) hready.flushable hspare hready.refusesNothing
          ((congrFun (hτ.read? hm) pos).trans hx)).mono fun _ _ hi _ _ _ => hi
      · exact ends_ending.mono fun _ _ _ he x hx => absurd ⟨he, x, hx⟩ hhasAccess
    have hpresent : Ends (Cache.fetch m.file pos m.blockSize true) τ.2 fun r t => ∀ i, r = .ok i →
        ∃ b, t.cache.buffer? i = some b ∧ b.pos = pos :=
      Cache.fetch_present hat.sound hat.store
    refine Ends.bind (onCache_ends (((Cache.fetch_keepsFiles m.file pos m.blockSize true).leads
      trivial).and (hpresent.and hsure))) ?_ ?_
    · rintro e υ ⟨hυ, hfiles, -, hsure⟩
      refine ⟨by rw [hυ, hτ.undo], by rw [hυ, hτ.pointersChanged],
        (hfiles _).trans hτ.registration, nofun, fun he x hx => ?_⟩
      obtain ⟨i, hi⟩ := hsure he x hx
      cases hi
    · rintro i υ ⟨hυ, hfiles, hpresent, -⟩
      obtain ⟨b, hb, hpos⟩ := hpresent i rfl
      refine ⟨by rw [← hτ.undo, ← hυ], by rw [← hτ.pointersChanged, ← hυ],
        (hfiles _).trans hτ.registration, fun _ => ⟨i, { b with pinned := true }, ?_, ?_, hpos⟩,
        fun _ _ _ => rfl⟩
      · show (υ.1.held.set role (some i)).get role = some i
        rw [Holdings.get_set, if_pos rfl]
      · exact (buffer?_setPinned hb).trans (by rw [if_pos rfl])
  refine ((load_ran (V := fun _ => True) (W := fun _ _ => False) h role pos true (fun _ => trivial)
    nofun).and ((Ends.all (load_holdsPinned role pos true σ)).and hsame)).mono ?_
  rintro r τ ⟨⟨hran, hpointers, -⟩, hholds, hundo, hchanged, hfile, hok, hsure⟩
  exact ⟨⟨hran, hundo, hchanged, fun h => (hholds h).2.1, hfile⟩, hpointers, hok, hsure⟩

/-- A program reads what the blocks of the volume read as. -/
theorem perform_onlyReads {program : Program α} (hprogram : program.Reader) (h : At m σ)
    (hm : m.Mirrors none σ.2) : Ends (perform program) σ fun r τ => OnlyReads m σ τ ∧
      (∀ a, r = .ok a → program.Reads (m.read? σ.2.disk) σ.1.pointers (.ok a)) ∧
      (HasAccess m σ → ∀ o, program.Reads (m.read? σ.2.disk) σ.1.pointers o → r = o) := by
  induction hprogram generalizing σ with
  | done =>
    refine Ends.pure ⟨.refl h, fun b hb => ?_, fun _ o ho => ?_⟩
    · cases hb
      exact .done
    · cases ho
      rfl
  | fail =>
    refine Ends.throw ⟨.refl h, nofun, fun _ o ho => ?_⟩
    cases ho
    rfl
  | @read role pos next hnext ih =>
    refine Ends.bind (load_onlyReads h hm role pos) ?_ ?_
    · rintro e τ ⟨hτ, -, -, hsure⟩
      refine ⟨hτ, nofun, fun he o ho => ?_⟩
      cases ho with
      | read hx _ => cases hsure he _ hx
    · rintro ⟨⟩ τ ⟨hτ, hpointers, hok, -⟩
      obtain ⟨i, b, hi, hb, hpos⟩ := hok rfl
      have hat := hτ.ran.at'
      have himage : m.read? σ.2.disk pos = some b.image := by
        rw [← hτ.read? hm, ← hpos]
        exact (hτ.mirrors hm).same i b hb (hat.owns role i hi b hb)
      refine Ends.bind (holding_ends hi hb) (fun e υ h => nomatch h.1) ?_
      rintro ib υ ⟨hib, rfl⟩
      cases hib
      refine (ih b.image hat (hτ.mirrors hm)).mono ?_
      rintro r φ ⟨hφ, hok, hsure⟩
      rw [hτ.read? hm, hpointers] at hok hsure
      refine ⟨hτ.trans hφ, fun a ha => .read himage (hok a ha), fun he o ho => ?_⟩
      cases ho with
      | read hx hrest =>
        rw [himage] at hx
        cases hx
        exact hsure (hτ.hasAccess he) o hrest
  | pointers hnext ih =>
    refine Ends.get_bind ((ih σ.1.pointers h hm).mono ?_)
    rintro r τ ⟨hτ, hok, hsure⟩
    refine ⟨hτ, fun a ha => .pointers (hok a ha), fun he o ho => ?_⟩
    cases ho with
    | pointers hrest => exact hsure he o hrest

/-! ## The phases of a call -/

/-- What is cached of the file is given up. -/
theorem release_onlyReads (h : At m σ) (mode : Release) :
    Ends (onCache (Cache.release m.file mode)) σ fun r τ => OnlyReads m σ τ ∧ τ.1 = σ.1 ∧
      (σ.2.Flushable → r = .ok ()) := by
  refine ((release_ran (V := fun _ => True) (W := fun _ _ => False) h mode).and
    ((Ends.all (onCache_holdsPinned (Cache.parts_pinsNothing.release m.file mode) σ)).and
      (onCache_ends (((Cache.parts_keepsFiles.release m.file mode).leads trivial).and
        (Cache.release_clears m.file mode))))).mono ?_
  rintro r τ ⟨⟨hran, hsession, -⟩, hholds, -, hfiles, -, -, hsure⟩
  exact ⟨⟨hran, by rw [hsession], by rw [hsession], fun h => (hholds h).2.1, hfiles _⟩, hsession, hsure⟩

/-- The header block is read. -/
theorem start_onlyReads (h : At m σ) (hm : m.Mirrors none σ.2) :
    Ends start σ fun r τ => OnlyReads m σ τ ∧
    (r = .ok () → ∃ x, m.read? σ.2.disk .null = some x ∧
      τ.1.pointers = Pointers.read σ.1.layout.format x) ∧
    (HasAccess m σ → ∀ x, m.read? σ.2.disk .null = some x → r = .ok ()) := by
  have hheader : ∀ {υ : Session × Buffered}, OnlyReads m σ υ →
      Ends (takeHeader σ.1.layout) υ fun r τ => OnlyReads m σ τ ∧
        (r = .ok () → ∃ x, m.read? σ.2.disk .null = some x ∧
          τ.1.pointers = Pointers.read σ.1.layout.format x) ∧
        (HasAccess m σ → ∀ x, m.read? σ.2.disk .null = some x → r = .ok ()) := by
    intro υ hυ
    unfold takeHeader
    have hmυ := hυ.mirrors hm
    refine Ends.bind (load_onlyReads hυ.ran.at' hmυ .header .null) ?_ ?_
    · rintro e τ ⟨hτ, -, -, hsure⟩
      refine ⟨hυ.trans hτ, (fun hr => by cases hr), fun he x hx => ?_⟩
      cases hsure (hυ.hasAccess he) x ((congrFun (hυ.read? hm) _).trans hx)
    · rintro ⟨⟩ τ ⟨hτ, -, hok, -⟩
      obtain ⟨i, b, hi, hb, hpos⟩ := hok rfl
      have hτ' := hυ.trans hτ
      refine Ends.bind (holding_ends hi hb) (fun e φ h => by cases h.1) ?_
      rintro ib φ ⟨hib, rfl⟩
      cases hib
      have hsame := (hτ'.mirrors hm).same i b hb (hτ.ran.at'.owns .header i hi b hb)
      rw [hτ'.read? hm, hpos] at hsame
      refine Ends.modify_bind (Ends.pure ⟨hτ'.trans ?_, fun _ => ⟨b.image, hsame, rfl⟩, fun _ _ _ =>
        rfl⟩)
      exact ⟨hτ.ran.at'.session rfl rfl rfl fun _ _ hi => hi, rfl, rfl, id, rfl⟩
  unfold start
  refine Ends.get_bind ?_
  dsimp only
  split
  · rw [h.file]
    refine Ends.bind (release_onlyReads h .flush) ?_ ?_
    · rintro e τ ⟨hτ, -, hsure⟩
      exact ⟨hτ, (fun hr => by cases hr), fun he _ _ => by cases hsure he.flushable⟩
    · rintro ⟨⟩ τ ⟨hτ, -⟩
      exact (hheader hτ).mono fun _ _ hφ => hφ
  · exact (hheader (.refl h)).mono fun _ _ hτ => hτ

theorem letGoAll_onlyReads (h : At m σ) : Ends letGoAll σ fun r τ => r = .ok () ∧ OnlyReads m σ τ ∧
    τ.1 = { σ.1 with held := {} } := by
  have hfiles : (Cache.keepsFiles.comap Prod.snd).Covers letGoAll :=
    covers_letGoAll (fun _ => update_covers _) fun _ =>
      onCache_meets (Cache.update_keepsFiles fun _ _ => rfl)
  refine ((letGoAll_ran (V := fun _ => True) (W := fun _ _ => False) h).and
    (letGoAll_unpinned.and (hfiles.leads trivial))).mono ?_
  rintro r τ ⟨⟨hr, hran, hundo⟩, ⟨-, hsession, hunpinned⟩, hfiles⟩
  exact ⟨hr, ⟨hran, hundo, by rw [hsession], fun hσ => (hunpinned hσ).holdsPinned τ.1, hfiles _⟩,
    hsession⟩

/-- A call without changes is completed. -/
theorem complete_onlyReads (mode : EndMode) (h : At m σ) (hchanged : σ.1.pointersChanged = false)
    (hundo : σ.1.undo = []) : Ends (complete mode) σ fun r τ => OnlyReads m σ τ ∧
      (σ.2.Flushable → r = .ok ()) := by
  unfold complete
  refine Ends.get_bind ?_
  simp only [hchanged, Bool.false_eq_true, if_false]
  refine Ends.bind (letGoAll_onlyReads h) (fun e τ hτ => nomatch hτ.1) ?_
  rintro ⟨⟩ τ ⟨-, hτ, -⟩
  have hend : ∀ {υ : Session × Buffered}, OnlyReads m σ υ →
      Ends (update fun s => { s with undo := [] }) υ fun r φ => OnlyReads m σ φ ∧
        (σ.2.Flushable → r = .ok ()) := fun {υ} hυ =>
    ⟨hυ.trans ⟨hυ.ran.at'.session rfl rfl rfl fun _ _ hi => hi,
      ((hυ.undo.trans hundo).symm : [] = υ.1.undo), rfl, id, rfl⟩, fun _ => rfl⟩
  rw [h.file]
  split
  · refine Ends.bind (release_onlyReads hτ.ran.at' .flush) ?_ ?_
    · rintro e υ ⟨hυ, -, hsure⟩
      exact ⟨hτ.trans hυ, fun hf => nomatch hsure (hτ.ran.steps.flushable hf)⟩
    · rintro ⟨⟩ υ ⟨hυ, -⟩
      exact hend (hτ.trans hυ)
  · exact hend hτ

/-- The lock is given back. -/
theorem unlock_onlyReads : Ends (unlock m.store) σ fun r τ =>
    Cache.Steps m (fun _ => True) (fun _ _ => False) σ.2 τ.2 ∧ τ.2.cache = σ.2.cache ∧
      (m.store.RefusesNothing σ.2.disk → r = .ok ()) := by
  have hsure : Ends (unlock m.store) σ fun r _ => m.store.RefusesNothing σ.2.disk → r = .ok () := by
    by_cases h : m.store.RefusesNothing σ.2.disk
    · unfold unlock
      refine Ends.get_bind (Ends.modify_bind ?_)
      dsimp only
      split
      · have hask := Store.ask_refusesNothing h .unlock 0 0
        exact (onCache_ends (σ := ({ σ.1 with locked := false }, σ.2))
          (Cache.onDisk_ends hask)).mono fun _ _ hr _ => hr.2.2
      · exact fun _ => rfl
    · exact ends_ending.mono fun _ _ _ h' => absurd h' h
  exact (unlock_steps.and hsure).mono fun _ _ h => ⟨h.1.1, h.1.2, h.2⟩

/-- Where nothing was changed nothing is put back, and the lock is given back. -/
theorem rollBack_steps (h : At m σ) (hundo : σ.1.undo = []) : Ends rollBack σ fun _ τ =>
    Ends (unlock m.store) τ fun _ υ =>
      Cache.Steps m (fun _ => True) (fun _ _ => False) σ.2 υ.2 := by
  have hnone : ∀ u ∈ σ.1.undo, ∀ x, u.image = some x → False := by
    rw [hundo]
    exact nofun
  refine (rollBack_ran (V := fun _ => True) (W := fun _ _ => False) h hnone).mono ?_
  rintro r τ ⟨-, hτ, -⟩
  exact unlock_onlyReads.mono fun _ _ hυ => hτ.steps.trans hυ.1

/-- The first part of a call. -/
theorem body_onlyReads {program : Program α} (hprogram : program.Reader) (h : At m σ)
    (hm : m.Mirrors none σ.2) (hundo : σ.1.undo = []) :
    Ends (body m.store program) σ fun r τ =>
      Cache.Steps m (fun _ => True) (fun _ _ => False) σ.2 τ.2 ∧
      (∀ a, r = .ok a → OnlyReads m σ τ ∧ ∃ x, m.read? σ.2.disk .null = some x ∧
        program.Reads (m.read? σ.2.disk) (Pointers.read σ.1.layout.format x) (.ok a)) ∧
      (HasAccess m σ → ∀ x a, m.read? σ.2.disk .null = some x →
        program.Reads (m.read? σ.2.disk) (Pointers.read σ.1.layout.format x) (.ok a) →
          r = .ok a) := by
  have hwork : Ends (do start; perform program) σ fun r τ => OnlyReads m σ τ ∧
      (∀ a, r = .ok a → ∃ x, m.read? σ.2.disk .null = some x ∧
        program.Reads (m.read? σ.2.disk) (Pointers.read σ.1.layout.format x) (.ok a)) ∧
      (HasAccess m σ → ∀ x a, m.read? σ.2.disk .null = some x →
        program.Reads (m.read? σ.2.disk) (Pointers.read σ.1.layout.format x) (.ok a) →
          r = .ok a) := by
    refine Ends.bind (start_onlyReads h hm) ?_ ?_
    · rintro e τ ⟨hτ, -, hsure⟩
      exact ⟨hτ, nofun, fun he x _ hx _ => nomatch hsure he x hx⟩
    · rintro ⟨⟩ τ ⟨hτ, hok, -⟩
      obtain ⟨x, hx, hpointers⟩ := hok rfl
      refine (perform_onlyReads hprogram hτ.ran.at' (hτ.mirrors hm)).mono ?_
      rintro r υ ⟨hυ, hok, hsure⟩
      rw [hτ.read? hm, hpointers] at hok hsure
      refine ⟨hτ.trans hυ, fun a ha => ⟨x, hx, hok a ha⟩, fun he y a hy ha => ?_⟩
      rw [hx] at hy
      cases hy
      exact hsure (hτ.hasAccess he) _ ha
  refine ends_body hwork ?_ ?_
  · rintro a τ ⟨hτ, hok, hsure⟩
    exact ⟨hτ.ran.steps, fun b hb => ⟨hτ, hok b hb⟩, hsure⟩
  · rintro e τ ⟨hτ, -, hsure⟩
    exact (rollBack_steps hτ.ran.at' (hτ.undo.trans hundo)).mono fun _ _ hυ => hυ.mono fun _ _ hφ =>
      ⟨hτ.ran.steps.trans hφ, nofun, fun he x a hx ha => nomatch hsure he x a hx ha⟩

/-- The last part of a call. -/
theorem finish_onlyReads (mode : EndMode) (h : At m σ) (hchanged : σ.1.pointersChanged = false)
    (hundo : σ.1.undo = []) : Ends (finish m.store mode) σ fun r τ => ∃ ended, r = .ok ended ∧
      Cache.Steps m (fun _ => True) (fun _ _ => False) σ.2 τ.2 ∧
        (ended = .ok () → τ.2.cache.registration? m.file = σ.2.cache.registration? m.file) ∧
        (HasAccess m σ → ended = .ok ()) := by
  refine ends_finish (complete_onlyReads mode h hchanged hundo) ?_ ?_
  · rintro τ ⟨hτ, -⟩
    refine unlock_onlyReads.mono ?_
    rintro unlocked υ ⟨hυ, hcache, hrefusesNothing⟩
    refine ⟨hτ.ran.steps.trans hυ, fun _ => ?_, fun he =>
      hrefusesNothing (hτ.hasAccess he).refusesNothing⟩
    rw [hcache]
    exact hτ.registration
  · rintro e τ ⟨hτ, hsure⟩
    exact (rollBack_steps hτ.ran.at' (hτ.undo.trans hundo)).mono fun _ _ hυ => hυ.mono fun _ _ hφ =>
      ⟨hτ.ran.steps.trans hφ, nofun, fun he => nomatch hsure he.flushable⟩

/-! ## Calls -/

/-- No failure is kept for the next call on a file. -/
def Unparked (m : Mount) (s : Buffered) : Prop :=
  ∀ reg, s.cache.registration? m.file = some reg → reg.pending = none

/-- A cache that can serve a call on a file over a store that refuses nothing. -/
structure Serves (m : Mount) (s : Buffered) : Prop where
  flushable : s.Flushable
  unpinned : Unpinned s
  enough : minBuffers ≤ s.cache.capacity
  refusesNothing : m.store.RefusesNothing s.disk
  unparked : Unparked m s

structure ReadOutcome (m : Mount) (format : Format) (program : Program α) (s : Buffered)
    (o : Except Error (α × Except Error Unit)) (t : Buffered) : Prop where
  steps : Cache.Steps m (fun _ => True) (fun _ _ => False) s t
  ok : ∀ a ended, o = .ok (a, ended) → ∃ x, m.read? s.disk .null = some x ∧
    program.Reads (m.read? s.disk) (Pointers.read format x) (.ok a)
  unparked : ∀ a, o = .ok (a, .ok ()) → Unparked m t
  sure : Serves m s → ∀ x a, m.read? s.disk .null = some x →
    program.Reads (m.read? s.disk) (Pointers.read format x) (.ok a) → o = .ok (a, .ok ())

/-- A call once its session begins. -/
theorem carry_onlyReads (mode : EndMode) {program : Program α} (hprogram : program.Reader) (h : At m σ)
    (hm : m.Mirrors none σ.2) (hundo : σ.1.undo = []) (hchanged : σ.1.pointersChanged = false)
    (hunparked : Unparked m σ.2) : Ends (do
      let a ← body m.store program
      let ended ← finish m.store mode
      return (a, ended)) σ fun o τ =>
        Cache.Steps m (fun _ => True) (fun _ _ => False) σ.2 τ.2 ∧
        (∀ a ended, o = .ok (a, ended) → ∃ x, m.read? σ.2.disk .null = some x ∧
          program.Reads (m.read? σ.2.disk) (Pointers.read σ.1.layout.format x) (.ok a)) ∧
        (∀ a, o = .ok (a, .ok ()) → Unparked m τ.2) ∧
        (HasAccess m σ → ∀ x a, m.read? σ.2.disk .null = some x →
          program.Reads (m.read? σ.2.disk) (Pointers.read σ.1.layout.format x) (.ok a) →
            o = .ok (a, .ok ())) := by
  refine ends_carry (body_onlyReads hprogram h hm hundo) ?_ ?_
  · rintro e τ ⟨hsteps, -, hsure⟩
    exact ⟨hsteps, fun _ _ => nofun, fun _ => nofun, fun he x a hx ha => nomatch hsure he x a hx ha⟩
  · rintro a τ ⟨-, hok, hsure⟩
    obtain ⟨hτ, hreads⟩ := hok a rfl
    refine (finish_onlyReads mode hτ.ran.at' (hτ.pointersChanged.trans hchanged)
      (hτ.undo.trans hundo)).mono ?_
    rintro _ υ ⟨ended, rfl, hυ, hfile, hfinished⟩
    refine ⟨ended, rfl, hτ.ran.steps.trans hυ, fun b _ hb => ?_, fun b hb reg hreg => ?_,
      fun he x b hx hb => ?_⟩
    · cases hb
      exact hreads
    · cases hb
      rw [hfile rfl, hτ.registration] at hreg
      exact hunparked reg hreg
    · cases hsure he x b hx hb
      rw [hfinished (hτ.hasAccess he)]

/-- A call ends as its program reads the blocks of the volume, and all that keeps it from that is a
refusal, or a failure that was kept for it. -/
theorem transact_reads (locked : Bool) (mode : EndMode) {program : Program α}
    (hprogram : program.Reader) (hsize : l.blockSize = m.blockSize) (hm : m.Mirrors none s) :
    Ends (transact m.file l locked mode program) s (ReadOutcome m l.format program s) := by
  refine ends_transact (enter_ends (V := fun _ => True) (W := fun _ _ => False) locked hm.store) ?_ ?_
  · intro e t ht
    refine ⟨ht.steps, fun _ _ => nofun, fun _ => nofun, fun hs => ?_⟩
    rcases ht.error e rfl with ⟨reg, hreg, he⟩ | ⟨d, hreach, hlock⟩
    · rw [hs.unparked reg hreg] at he
      cases he
    · cases (Store.ask_refusesNothing (hs.refusesNothing.follows hreach.follows) .lock 0 0).of_error
        hlock
  · intro store t ht
    obtain ⟨rfl, hunparked⟩ := ht.ok store rfl
    have hsteps := ht.steps
    obtain ⟨hmt, hcontents⟩ := hsteps.mirrors hm
    have hread : m.read? t.disk = m.read? s.disk := funext fun _ => Mount.read?_congr hcontents
    have hat := At.begin locked hsize hmt.sound hmt.store
    refine (carry_onlyReads mode hprogram hat hmt rfl rfl hunparked).mono ?_
    rintro o τ ⟨hτ, hok, hunparked', hsure⟩
    simp only [hread] at hok hsure
    refine ⟨hsteps.trans hτ, hok, hunparked', fun hs => hsure ⟨hsteps.flushable hs.flushable, ?_,
      hsteps.registered.1 ▸ hs.enough,
      hs.refusesNothing.follows (Cache.Through.reaches hsteps).follows⟩⟩
    exact Unpinned.holdsPinned (fun i b hb => hs.unpinned i b (ht.buffers ▸ hb)) _

end Session

end PagedIndex
