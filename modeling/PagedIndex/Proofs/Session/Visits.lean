import PagedIndex.Proofs.Session.Reading

/-!
# Blocks that a call looks up

A program that only reads visits blocks one after the other, until it ends or is stopped. A call
looks up the header in its cache and then the blocks that its program visits, and no others.

## Main definitions

* `Program.Visits` — a program has visited blocks.
* `Cache.lookups` — how many blocks were looked up in a cache.

## Main statements

* `Program.Reader.visits_bind` — the visits of a program are those of its parts.
* `Session.transact_visits` — a call looks up the header and what its program visits.
-/

namespace PagedIndex

/-! ## Programs -/

namespace Program

variable {α β : Type} {blocks : BlockPos → Option Bytes} {p : Pointers} {program : Program α}
  {f : α → Program β} {ps : List BlockPos} {o : Option α} {v : Option β} {a : α}

/-- A program that reads blocks with given images has visited those at `ps`, one after the other. It
has come to its value, or it has failed or was stopped, and then the last block may not have been
had. -/
inductive Visits {α : Type} (blocks : BlockPos → Option Bytes) (p : Pointers) :
    Program α → List BlockPos → Option α → Prop
  | done {a : α} : Visits blocks p (.done a) [] (some a)
  | stopped {program : Program α} : Visits blocks p program [] none
  | refused {role : Role} {pos : BlockPos} {read : Bool} {next : Program α} :
      Visits blocks p (.load role pos read next) [pos] none
  | read {role : Role} {pos : BlockPos} {x : Bytes} {next : Bytes → Program α} {ps : List BlockPos}
      {o : Option α} (hx : blocks pos = some x) (hnext : Visits blocks p (next x) ps o) :
      Visits blocks p (.load role pos true (.view role next)) (pos :: ps) o
  | pointers {next : Pointers → Program α} {ps : List BlockPos} {o : Option α}
      (hnext : Visits blocks p (next p) ps o) : Visits blocks p (.pointers next) ps o

/-- A program that goes on visits first the blocks of its first part, and if this has come to its
value, then those of the rest. -/
theorem Reader.visits_bind (hprogram : program.Reader) (h : (program >>= f).Visits blocks p ps v) :
    (v = none ∧ program.Visits blocks p ps none) ∨ ∃ a front back, ps = front ++ back ∧
      program.Visits blocks p front (some a) ∧ (f a).Visits blocks p back v := by
  replace h : (program.bind f).Visits blocks p ps v := h
  induction hprogram generalizing ps with
  | done => exact .inr ⟨_, [], ps, rfl, .done, h⟩
  | fail =>
    cases h
    exact .inl ⟨rfl, .stopped⟩
  | read hnext ih =>
    cases h with
    | stopped => exact .inl ⟨rfl, .stopped⟩
    | refused => exact .inl ⟨rfl, .refused⟩
    | read hx hrest =>
      rcases ih _ hrest with ⟨hv, hstopped⟩ | ⟨a, front, back, rfl, hfront, hback⟩
      · exact .inl ⟨hv, .read hx hstopped⟩
      · exact .inr ⟨a, _ :: front, back, rfl, .read hx hfront, hback⟩
  | pointers hnext ih =>
    cases h with
    | stopped => exact .inl ⟨rfl, .stopped⟩
    | pointers hrest =>
      rcases ih _ hrest with ⟨hv, hstopped⟩ | ⟨a, front, back, rfl, hfront, hback⟩
      · exact .inl ⟨hv, .pointers hstopped⟩
      · exact .inr ⟨a, front, back, rfl, .pointers hfront, hback⟩

end Program

/-! ## The work of a cache -/

def Cache.lookups (c : Cache) : Nat := c.hits + c.misses

namespace Cache

variable {α : Type}

/-- As many blocks have been looked up as before. -/
def looksUpNothing : Guarantee Error Buffered where
  Holds _ := True
  Leads s t := t.cache.lookups = s.cache.lookups
  Fails _ := True
  refl _ := rfl
  trans h h' := h'.trans h
  keeps _ _ := trivial

theorem onDisk_looksUpNothing (x : DiskM α) : looksUpNothing.Covers (onDisk x) := fun _ _ =>
  (onDisk_ends ends_ending).mono fun _ _ h =>
    ⟨fun _ _ => trivial, congrArg lookups h.1, fun _ _ => trivial⟩

theorem update_looksUpNothing {f : Cache → Cache} (hf : ∀ c, (f c).lookups = c.lookups) :
    looksUpNothing.Covers (update f) := update_covers fun s _ => hf s.cache

theorem lookups_unhook (c : Cache) (i : Nat) : (c.unhook i).lookups = c.lookups := by
  unfold unhook
  split <;> rfl

theorem parts_looksUpNothing : LoadParts looksUpNothing where
  unknown := trivial
  fault _ := trivial
  writeBack := covers_writeBack (fun _ => trivial) (fun _ _ _ => onDisk_looksUpNothing _)
    fun _ => update_looksUpNothing fun _ => rfl
  change hf := by
    cases hf with
    | takeFree rest => exact update_looksUpNothing fun _ => rfl
    | evict i => exact update_looksUpNothing fun c => lookups_unhook c i
    | discard i => exact update_looksUpNothing fun c => lookups_unhook c i
  readImage _ _ _ := onDisk_looksUpNothing _
  giveBack _ := update_looksUpNothing fun _ => rfl
  hook _ _ _ := update_looksUpNothing fun _ => rfl

theorem enter_looksUpNothing (file : FileId) (locked : Bool) :
    looksUpNothing.Covers (Session.enter file locked) :=
  Session.covers_enter trivial
    ((covers_takePending (update_looksUpNothing fun _ => rfl)).mono fun _ _ _ _ => trivial)
    fun _ => onDisk_looksUpNothing _

/-- A block that is loaded was looked up, whether it is had or not. -/
theorem fetch_lookups (file : FileId) (pos : BlockPos) (blockSize : Nat) (read : Bool) (s : Buffered) :
    Ends (fetch file pos blockSize read) s fun _ t =>
      t.cache.lookups = s.cache.lookups + 1 := by
  unfold fetch
  refine Ends.get_bind ?_
  split
  · refine update_bind_ends (Ends.pure ?_)
    show s.cache.hits + 1 + s.cache.misses = s.cache.hits + s.cache.misses + 1
    omega
  · exact update_bind_ends ((parts_looksUpNothing.load file pos blockSize read).leads trivial)

end Cache

/-! ## The work of a session -/

namespace Session

open Cache (looksUpNothing)

variable {m : Mount} {σ τ : Session × Buffered} {s t : Buffered} {α : Type} {l : Layout}
  {program : Program α}

theorem parts_looksUpNothing : Parts (looksUpNothing.comap Prod.snd) :=
  .ofCache (fun _ => trivial) (fun _ => Cache.update_looksUpNothing fun _ => rfl)
    (fun _ _ => Cache.update_looksUpNothing fun _ => rfl)
    fun _ => Cache.parts_looksUpNothing.release _ _

theorem letGo_looksUpNothing (role : Role) : (looksUpNothing.comap Prod.snd).Covers (letGo role) :=
  covers_letGo (fun _ => update_covers _)
    (fun _ => onCache_meets (Cache.update_looksUpNothing fun _ => rfl)) role

theorem unlock_looksUpNothing (store : Store) :
    (looksUpNothing.comap Prod.snd).Covers (unlock store) :=
  covers_unlock (update_covers _) (onCache_meets (Cache.onDisk_looksUpNothing _))

theorem load_lookups (role : Role) (pos : BlockPos) (read : Bool) :
    Ends (load role pos read) σ fun _ τ => τ.2.cache.lookups = σ.2.cache.lookups + 1 := by
  unfold load
  refine Ends.bind (((letGo_looksUpNothing role).leads trivial).and (letGo_held role))
    (fun e τ h => by cases h.2.1) ?_
  rintro ⟨⟩ τ ⟨hτ, -⟩
  refine Ends.get_bind (Ends.bind (onCache_ends (Cache.fetch_lookups _ _ _ _ τ.2)) ?_ ?_)
  · rintro e υ ⟨-, hυ⟩
    rw [hυ, hτ]
  · rintro i υ ⟨-, hυ⟩
    show υ.2.cache.lookups = _
    rw [hυ, hτ]

/-- A session looks up what its program visits. -/
theorem perform_visits (hprogram : program.Reader) (h : At m σ) (hm : m.Mirrors none σ.2) :
    Ends (perform program) σ fun r τ => ∃ ps o,
      program.Visits (m.read? σ.2.disk) σ.1.pointers ps o ∧ (∀ a, r = .ok a → o = some a) ∧
      τ.2.cache.lookups = σ.2.cache.lookups + ps.length := by
  induction hprogram generalizing σ with
  | done =>
    refine Ends.pure ⟨[], _, .done, fun a ha => ?_, rfl⟩
    cases ha
    rfl
  | fail => exact Ends.throw ⟨[], none, .stopped, nofun, rfl⟩
  | @read role pos next hnext ih =>
    refine Ends.bind ((load_onlyReads h hm role pos).and (load_lookups role pos true)) ?_ ?_
    · rintro e τ ⟨-, hlookups⟩
      exact ⟨[pos], none, .refused, nofun, hlookups⟩
    · rintro ⟨⟩ τ ⟨⟨hτ, hpointers, hok, -⟩, hlookups⟩
      obtain ⟨i, b, hi, hb, hpos⟩ := hok rfl
      have hat := hτ.ran.at'
      have himage : m.read? σ.2.disk pos = some b.image := by
        rw [← hτ.read? hm, ← hpos]
        exact (hτ.mirrors hm).same i b hb (hat.owns role i hi b hb)
      refine Ends.bind (holding_ends hi hb) (fun e υ h => by cases h.1) ?_
      rintro ib υ ⟨hib, rfl⟩
      cases hib
      refine (ih b.image hat (hτ.mirrors hm)).mono ?_
      rintro r φ ⟨ps, o, hvisits, hvalue, hcount⟩
      rw [hτ.read? hm, hpointers] at hvisits
      refine ⟨pos :: ps, o, .read himage hvisits, hvalue, ?_⟩
      rw [hcount, hlookups, List.length_cons]
      omega
  | pointers hnext ih =>
    refine Ends.get_bind ((ih σ.1.pointers h hm).mono ?_)
    rintro r τ ⟨ps, o, hvisits, hvalue, hcount⟩
    exact ⟨ps, o, .pointers hvisits, hvalue, hcount⟩

/-! ## The phases of a call -/

/-- The header is looked up first. -/
theorem start_lookups : Ends start σ fun _ τ => τ.2.cache.lookups ≤ σ.2.cache.lookups + 1 := by
  have hheader : ∀ {υ : Session × Buffered}, υ.2.cache.lookups = σ.2.cache.lookups →
      Ends (takeHeader σ.1.layout) υ fun _ τ => τ.2.cache.lookups ≤ σ.2.cache.lookups + 1 := by
    intro υ hυ
    unfold takeHeader
    have hle : ∀ {τ : Session × Buffered}, τ.2.cache.lookups = υ.2.cache.lookups + 1 →
        τ.2.cache.lookups ≤ σ.2.cache.lookups + 1 := by
      intro τ hτ
      exact Nat.le_of_eq (hτ.trans (congrArg (· + 1) hυ))
    refine Ends.bind (load_lookups .header .null true) (fun e τ hτ => hle hτ) fun _ τ hτ => ?_
    · have hrest : (looksUpNothing.comap Prod.snd).Covers (holding .header >>= fun found =>
          update fun s => { s with
            pointers := Pointers.read σ.1.layout.format found.2.image
            highWater := (Pointers.read σ.1.layout.format found.2.image).highWater }) :=
        (covers_holding (fun _ => trivial) _).bind fun _ _ => update_covers _
      exact (hrest.leads trivial).mono fun _ φ hφ => hle (hφ.trans hτ)
  unfold start
  refine Ends.get_bind ?_
  dsimp only
  split
  · refine Ends.bind ((parts_looksUpNothing.release _).leads trivial) (fun e τ hτ => ?_) fun _ τ hτ =>
      hheader hτ
    rw [hτ]
    omega
  · exact hheader rfl

/-- Where nothing was changed nothing is put back, and the lock is given back. -/
theorem rollBack_looksUpNothing (store : Store) (hundo : σ.1.undo = []) : Ends rollBack σ fun _ τ =>
    Ends (unlock store) τ fun _ υ => υ.2.cache.lookups = σ.2.cache.lookups := by
  unfold rollBack
  refine Ends.bind ((parts_looksUpNothing.letGoAll.leads trivial).and letGoAll_unpinned)
    (fun e τ hτ => nomatch hτ.2.1) ?_
  rintro ⟨⟩ τ ⟨hτ, -, hsession, -⟩
  have hnone : τ.1.undo = [] := by rw [hsession, hundo]
  refine Ends.get_bind (Ends.modify_bind ?_)
  rw [hnone]
  have hrest : (looksUpNothing.comap Prod.snd).Covers (do
      ([] : List Undo).forM (undoOne τ.1.file)
      if τ.1.locked then
        let _ ← attempt (onCache (Cache.release τ.1.file .flush))) := by
    refine Guarantee.Meets.bind (P := fun _ => True) (.pure trivial) fun _ _ => ?_
    split
    · exact (parts_looksUpNothing.release _).attempt.bind fun _ _ => .pure trivial
    · exact .pure trivial
  refine (hrest.leads trivial).mono fun _ υ hυ => ?_
  exact ((unlock_looksUpNothing store).leads trivial).mono fun _ φ hφ => hφ.trans (hυ.trans hτ)

/-! ## Calls -/

/-- The header and then the blocks that a program visits are all that was looked up in between. -/
def Looked (m : Mount) (format : Format) (program : Program α) (s : Buffered) (r : Except Error α)
    (t : Buffered) : Prop :=
  ∃ ps o, t.cache.lookups ≤ s.cache.lookups + 1 + ps.length ∧ (∀ a, r = .ok a → o = some a) ∧
    (ps = [] ∧ o = none ∨ ∃ x, m.read? s.disk .null = some x ∧
      program.Visits (m.read? s.disk) (Pointers.read format x) ps o)

theorem Looked.congr {format : Format} {r r' : Except Error α} {u : Buffered}
    (h : Looked m format program s r t) (ht : u.cache.lookups = t.cache.lookups)
    (hr : ∀ a, r' = .ok a → r = .ok a) :
    Looked m format program s r' u := by
  obtain ⟨ps, o, hcount, hvalue, hvisits⟩ := h
  exact ⟨ps, o, by rw [ht]; exact hcount, fun a ha => hvalue a (hr a ha), hvisits⟩

/-- A call that does not come to look at a block. -/
theorem Looked.of_error {format : Format} {e : Error} (h : t.cache.lookups = s.cache.lookups) :
    Looked m format program s (.error e) t :=
  ⟨[], none, by rw [h]; exact Nat.le_add_right _ _, nofun, .inl ⟨rfl, rfl⟩⟩

/-- The first part of a call. -/
theorem body_visits (hprogram : program.Reader) (h : At m σ) (hm : m.Mirrors none σ.2)
    (hundo : σ.1.undo = []) : Ends (body m.store program) σ fun r τ =>
      Looked m σ.1.layout.format program σ.2 r τ.2 ∧ ∀ a, r = .ok a → OnlyReads m σ τ := by
  have hwork : Ends (do start; perform program) σ fun r τ => OnlyReads m σ τ ∧
      Looked m σ.1.layout.format program σ.2 r τ.2 := by
    refine Ends.bind ((start_onlyReads h hm).and start_lookups) ?_ ?_
    · rintro e τ ⟨⟨hτ, -⟩, hcount⟩
      exact ⟨hτ, [], none, hcount, nofun, .inl ⟨rfl, rfl⟩⟩
    · rintro ⟨⟩ τ ⟨⟨hτ, hok, -⟩, hcount⟩
      obtain ⟨x, hx, hpointers⟩ := hok rfl
      refine ((perform_onlyReads hprogram hτ.ran.at' (hτ.mirrors hm)).and
        (perform_visits hprogram hτ.ran.at' (hτ.mirrors hm))).mono ?_
      rintro r υ ⟨⟨hυ, -⟩, ps, o, hvisits, hvalue, hcount'⟩
      rw [hτ.read? hm, hpointers] at hvisits
      refine ⟨hτ.trans hυ, ps, o, ?_, hvalue, .inr ⟨x, hx, hvisits⟩⟩
      rw [hcount']
      omega
  refine ends_body hwork ?_ ?_
  · rintro a τ ⟨hτ, hlooked⟩
    exact ⟨hlooked, fun _ _ => hτ⟩
  · rintro e τ ⟨hτ, hlooked⟩
    exact (rollBack_looksUpNothing m.store (hτ.undo.trans hundo)).mono fun _ _ hυ => hυ.mono
      fun _ _ hφ => ⟨hlooked.congr hφ nofun, nofun⟩

/-- The last part of a call without changes. -/
theorem finish_looksUpNothing (mode : EndMode) (h : At m σ) (hchanged : σ.1.pointersChanged = false)
    (hundo : σ.1.undo = []) : Ends (finish m.store mode) σ fun r τ =>
      ∃ ended, r = .ok ended ∧ τ.2.cache.lookups = σ.2.cache.lookups := by
  have hcomplete := (parts_looksUpNothing.complete (fun _ _ _ _ _ => trivial) mode).leads
    (s := σ) trivial
  refine ends_finish ((complete_onlyReads mode h hchanged hundo).and hcomplete) ?_ ?_
  · rintro τ ⟨-, hsame⟩
    exact ((unlock_looksUpNothing m.store).leads trivial).mono fun _ _ hυ => hυ.trans hsame
  · rintro e τ ⟨⟨hτ, -⟩, hsame⟩
    exact (rollBack_looksUpNothing m.store (hτ.undo.trans hundo)).mono fun _ _ hυ => hυ.mono
      fun _ _ hφ => hφ.trans hsame

/-- A call that only reads looks up the header and what its program visits, and no other blocks. -/
theorem transact_visits (locked : Bool) (mode : EndMode) (hprogram : program.Reader)
    (hsize : l.blockSize = m.blockSize) (hm : m.Mirrors none s) :
    Ends (transact m.file l locked mode program) s fun o t =>
      Looked m l.format program s (o.map Prod.fst) t := by
  refine ends_transact (((Cache.enter_looksUpNothing m.file locked).leads trivial).and
    (enter_ends (V := fun _ => True) (W := fun _ _ => False) locked hm.store))
    (fun e t ht => .of_error ht.1) ?_
  rintro store t ⟨hcount, hentered⟩
  obtain ⟨rfl, -⟩ := hentered.ok store rfl
  obtain ⟨hmt, hcontents⟩ := hentered.steps.mirrors hm
  have hread : m.read? t.disk = m.read? s.disk := funext fun _ => Mount.read?_congr hcontents
  have hat := At.begin locked hsize hmt.sound hmt.store
  have hfront : ∀ {r : Except Error α} {u : Buffered}, Looked m l.format program t r u →
      Looked m l.format program s r u := by
    rintro r u ⟨ps, o, hle, hvalue, hvisits⟩
    rw [hread] at hvisits
    exact ⟨ps, o, by rw [← hcount]; exact hle, hvalue, hvisits⟩
  refine ends_carry (body_visits hprogram hat hmt rfl) (fun e τ hτ => hfront hτ.1) ?_
  rintro a τ ⟨hlooked, honlyReads⟩
  have hτ := honlyReads a rfl
  refine (finish_looksUpNothing mode hτ.ran.at' hτ.pointersChanged hτ.undo).mono ?_
  rintro _ υ ⟨ended, rfl, hυ⟩
  exact ⟨ended, rfl, hfront (hlooked.congr hυ fun _ ha => ha)⟩

end Session

end PagedIndex
