import Mathlib.Data.Multiset.AddSub
import PagedIndex.Proofs.Index.Catalog
import PagedIndex.Proofs.Index.Opening
import PagedIndex.Proofs.Tree.Survey

/-!
# Free record positions

A file for records of a fixed length lists the positions that are free. They lie in a stack of
blocks, and each block is a queue: a release adds to the block in front, or puts a new one in front
of it, and a reservation takes the oldest position of the block in front. No other call touches
them, whatever blocks the tree takes from the chain of free ones and gives back to it.

## Main definitions

* `Plan.Stocked` — what a call answers, and makes of the free record positions.
* `vacant` — the record positions that were released and not reserved since.
* `Turn.Serves` — what a call comes to in terms of these.

## Main statements

* `Index.AsPlanned.stocked_ends` — what one call comes to.
* `Index.AsPlanned.plays_vacant` — after any calls the free positions are those that should be.
* `Index.AsPlanned.serves_vacant` — so every call serves them.
-/

namespace PagedIndex

/-! ## One call -/

/-- What a call on a file as planned answers, with `record` in the cell, and what it makes of the
plan and its free record positions. -/
inductive Plan.Stocked (l : Layout) (p : Plan) (record : Nat) :
    Call → Except Error Answer → Plan → Prop
  | bare (hnone : p.freeLists = []) : Stocked l p record .reserve (.ok (.reserved .noFreeSlot)) p
  /-- The oldest position of the block in front. -/
  | taken {found : Nat} {others : List Nat} {rest : FreeLists} {p' : Plan}
      (hfound : p.freeLists = (found :: others) :: rest)
      (hleft : p'.freeLists = FreeLists.left others rest) (hentries : p'.entries = p.entries) :
      Stocked l p record .reserve (.ok (.reserved (.reserved found))) p'
  | listed {p' : Plan} (hrecord : record ≤ l.maxRecord) (hput : p'.freeLists = p.freeLists.put l record)
      (hentries : p'.entries = p.entries) : Stocked l p record .release (.ok (.released .released)) p'
  | tooLarge (hrecord : l.maxRecord < record) :
      Stocked l p record .release (.error (.invalidKey (.positionTooLarge record l.format))) p
  /-- The file cannot grow. -/
  | full (hspare : p.spare l = 0) :
      Stocked l p record .release (.error (.internal .sizeLimit)) p
  | counted {stats : IndexStats} (hsize : stats.freeSlots = p.records.length) :
      Stocked l p record .stats (.ok (.counted stats)) p
  /-- A tree that is too deep is not counted. -/
  | deep {e : Error} (hlevels : maxLevels + 1 < p.levels) : Stocked l p record .stats (.error e) p
  | other {call : Call} {answer : Answer} {p' : Plan} (hreserve : call ≠ .reserve)
      (hrelease : call ≠ .release) (hstats : call ≠ .stats) (hslots : p'.slots = p.slots) :
      Stocked l p record call (.ok answer) p'
  | failed {call : Call} {e : Error} (hreserve : call ≠ .reserve) (hrelease : call ≠ .release)
      (hstats : call ≠ .stats) : Stocked l p record call (.error e) p

namespace Plan.Stocked

variable {l : Layout} {p p' : Plan} {record : Nat} {call : Call} {r : Except Error Answer}

/-- A call that fails leaves all as it was. -/
theorem eq_of_error {e : Error} (h : p.Stocked l record call (.error e) p') : p' = p := by
  cases h <;> rfl

/-- Calls but reservations and releases leave the free record positions. -/
theorem slots_eq (h : p.Stocked l record call r p') (hreserve : call ≠ .reserve)
    (hrelease : call ≠ .release) : p'.slots = p.slots := by
  cases h with
  | bare | taken => exact absurd rfl hreserve
  | listed | tooLarge | full => exact absurd rfl hrelease
  | counted | deep | failed => rfl
  | other _ _ _ hslots => exact hslots

/-- A reservation is told that no position is free only if none is. -/
theorem noFreeSlot_iff (h : p.Stocked l record .reserve r p') :
    r = .ok (.reserved .noFreeSlot) ↔ p.records = [] := by
  rw [← p.flatten_freeLists]
  cases h with
  | bare hnone =>
    rw [hnone]
    exact iff_of_true rfl rfl
  | taken hfound =>
    rw [hfound]
    exact iff_of_false (fun h => by cases h) (fun h => by cases h)
  | other hreserve => exact absurd rfl hreserve
  | failed hreserve => exact absurd rfl hreserve

/-- Otherwise it takes the oldest position of the block in front. -/
theorem exists_taken (h : p.Stocked l record .reserve r p') (hsome : p.records ≠ []) :
    ∃ found others rest, r = .ok (.reserved (.reserved found)) ∧
      p.freeLists = (found :: others) :: rest ∧ p'.freeLists = FreeLists.left others rest := by
  cases h with
  | bare hnone =>
    refine absurd ?_ hsome
    rw [← p.flatten_freeLists, hnone]
    rfl
  | taken hfound hleft => exact ⟨_, _, _, rfl, hfound, hleft⟩
  | other hreserve => exact absurd rfl hreserve
  | failed hreserve => exact absurd rfl hreserve

/-- A release lists a position that is not too large, unless the file cannot grow. -/
theorem release_eq (h : p.Stocked l record .release r p') (hspare : p.spare l ≠ 0) :
    r = if record ≤ l.maxRecord then .ok (.released .released)
      else .error (.invalidKey (.positionTooLarge record l.format)) := by
  cases h with
  | listed hrecord => rw [if_pos hrecord]
  | tooLarge hrecord => rw [if_neg (Nat.not_le.mpr hrecord)]
  | full hfull => exact absurd hfull hspare
  | other _ hrelease => exact absurd rfl hrelease
  | failed _ hrelease => exact absurd rfl hrelease

/-- What is counted are the free record positions, and a tree that is not too deep is counted. -/
theorem stats_eq (h : p.Stocked l record .stats r p') :
    (∃ stats : IndexStats, r = .ok (.counted stats) ∧ stats.freeSlots = p.records.length) ∨
      (∃ e, r = .error e) ∧ maxLevels + 1 < p.levels := by
  cases h with
  | counted hsize => exact .inl ⟨_, rfl, hsize⟩
  | deep hlevels => exact .inr ⟨⟨_, rfl⟩, hlevels⟩
  | other _ _ hstats => exact absurd rfl hstats
  | failed _ _ hstats => exact absurd rfl hstats

end Plan.Stocked

section Requests

variable {ix : Index} {p p' : Plan} {w : Workspace} {call : Call}

/-- A call that neither takes a record position nor gives one back has no effect on them. -/
theorem Call.slots_eq_of_effect (ix : Index) (record : Nat) (hreserve : call ≠ .reserve)
    (hrelease : call ≠ .release) : (call.course ix record).Meets (fun _ => True) fun q =>
      ∀ p a p', q.effect p a p' → p'.slots = p.slots := by
  cases call with
  | find key =>
    simp only [course]
    split
    · trivial
    · exact Course.meets_check (fun _ _ => trivial) fun _ _ _ _ _ h => congrArg Plan.slots h
  | findLast start =>
    exact Course.meets_check (fun _ _ => trivial) fun _ _ _ _ _ h => congrArg Plan.slots h
  | next | previous | stats | verify | outline => exact fun _ _ _ h => congrArg Plan.slots h
  | insert key =>
    exact Course.meets_writing (fun _ => trivial) fun _ =>
      Course.meets_check (fun _ _ => trivial) fun _ _ _ _ _ h => Tree.Inserted.slots h
  | delete key byPosition =>
    refine Course.meets_writing (fun _ => trivial) fun _ => ?_
    split
    · split
      · exact fun _ _ _ h => Tree.Deleted.slots_eq h
      · trivial
    · exact Course.meets_check (fun _ _ => trivial) fun _ _ _ _ _ h => Tree.Deleted.slots_eq h
  | reserve => exact absurd rfl hreserve
  | release => exact absurd rfl hrelease

/-- The program of a call makes of a plan what the call has as its effect. -/
theorem Call.revises (hl : ix.tree.layout.Workable) (hasc : ix.tree.Ascending p.entries)
    (hcursor : ix.cursor.Aligned ix.tree.layout) (call : Call) (record : Nat) :
    (call.course ix record).Meets (fun _ => True) fun q => ix.tree.Revises p q.program
      (fun a p' => q.effect p a p' ∧ ∀ c, q.cursor a = some c → c.Aligned ix.tree.layout)
      fun _ => True := by
  refine Call.meets_request hcursor (fun program hwalks => ?_) (fun program answer hwalks => ?_)
    (fun e he => ?_) (fun target exact => ?_) ?_ (fun record => ?_) call record
  · refine (Tree.revises_of_looks (fun c hp => (hwalks _ hp.closed.sites).looks hp.closed) hasc).mono
      ?_ fun _ h => h
    rintro a p' ⟨heq, ha⟩
    exact ⟨heq, fun c hc => Option.some.inj hc ▸ ha⟩
  · exact (Tree.revises_of_looks (fun c hp => (hwalks _ hp.closed.sites).looks hp.closed) hasc).mono
      (fun a p' h => ⟨h.1, fun c hc => by cases hc⟩) fun _ h => h
  · exact (Tree.revises_insert_any hl hasc he).mono
      (fun a p' h => ⟨h.1, fun c hc => Request.aligned_of_insert hc⟩) fun _ _ => trivial
  · refine (Tree.revises_delete_any hl hasc target exact).mono
      (fun a p' h => ⟨h.1, fun c hc => ?_⟩) fun _ _ => trivial
    cases hc
    exact Cursor.aligned_park _ _
  · exact (Tree.revises_popSlot hl hasc).mono (fun a p' h => ⟨h.1, fun c hc => by cases hc⟩)
      fun _ _ => trivial
  · exact (Tree.revises_pushSlot hl hasc).mono (fun a p' h => ⟨h.1, fun c hc => by cases hc⟩)
      fun _ _ => trivial

/-- Counting makes nothing of a plan, and fails only if the tree is too deep. -/
theorem Tree.revises_survey {t : Tree} (hl : t.layout.Workable) (hasc : t.Ascending p.entries) :
    t.Revises p (t.survey false) (fun stats p' => p' = p ∧ stats.freeSlots = p.records.length)
      fun _ => maxLevels + 1 < p.levels := by
  by_cases hlevels : p.levels ≤ maxLevels + 1
  · intro c hp
    refine (Tree.acts_survey hl hp hasc hlevels).mono ?_
    rintro r d ⟨rfl, stats, rfl, -, -, -, -, -, hslots, -⟩
    exact .inl ⟨stats, p, rfl, hp, hasc, rfl, hslots⟩
  · exact (Tree.revises_of_looks (Tree.looks_survey_of_deep hlevels) hasc).mono
      (fun _ _ h => h.2.elim) fun _ _ => Nat.lt_of_not_le hlevels

end Requests

namespace Index

/-- A handle that may change a file for records of a fixed length. -/
structure Stocks (ix : Index) : Prop where
  writable : ix.mode.writable = true
  fixed : ix.header.fixedRecordLength.isNone = false

/-- A call on a handle has served the free record positions of a file as planned. -/
def Stocked (ix : Index) (p : Plan) (w : Workspace) (call : Call) (r : Except Error Answer)
    (σ : Index × Workspace) : Prop :=
  σ.1 = { ix with cursor := σ.1.cursor } ∧ ∃ p', σ.1.AsPlanned p' σ.2 ∧
    p.Stocked ix.tree.layout (w.cell ix.cell) call r p'

section Calls

variable {ix : Index} {p : Plan} {w : Workspace}

theorem AsPlanned.reserve_ends (h : ix.AsPlanned p w) (hix : ix.Stocks) :
    Ends Call.reserve.run (ix, w) (ix.Stocked p w .reserve) := by
  obtain ⟨v, -, hp⟩ := h.keeps.finds
  have hcourse : Call.reserve.course ix (w.cell ix.cell) = .asks (.reserve ix.tree.layout) := by
    simp only [Call.course, Course.writing, hix.writable, if_true, hix.fixed]
    rfl
  refine (h.revising_ends hcourse (Tree.revises_popSlot hp.workable hp.ascending)
    fun a p' _ c hc => by cases hc).mono ?_
  rintro _ _ (⟨⟨hpopped, hgives⟩, -, hplanned⟩ | ⟨⟨⟩, -, -⟩)
  rename_i found p' w'
  refine ⟨rfl, p', hplanned, ?_⟩
  cases found with
  | none =>
    obtain ⟨rfl, -⟩ := hpopped
    exact .bare hgives.1
  | some found =>
    obtain ⟨others, rest, hfound, hleft⟩ := hgives
    exact .taken hfound hleft hpopped.2.1

theorem AsPlanned.release_ends (h : ix.AsPlanned p w) (hix : ix.Stocks) :
    Ends Call.release.run (ix, w) (ix.Stocked p w .release) := by
  obtain ⟨v, -, hp⟩ := h.keeps.finds
  have hcourse : Call.release.course ix (w.cell ix.cell) =
      .asks (.release ix.tree.layout (w.cell ix.cell)) := by
    simp only [Call.course, Course.writing, hix.writable, if_true, hix.fixed]
    rfl
  refine (h.revising_ends hcourse (Tree.revises_pushSlot hp.workable hp.ascending)
    fun a p' _ c hc => by cases hc).mono ?_
  rintro _ _ (⟨⟨hpushed, hrecord, hput⟩, -, hplanned⟩ | ⟨⟨rfl, hlarge⟩ | ⟨rfl, hspare⟩, -, hplanned⟩)
  · exact ⟨rfl, _, hplanned, .listed hrecord hput hpushed.2.1⟩
  · exact ⟨rfl, p, hplanned, .tooLarge hlarge⟩
  · exact ⟨rfl, p, hplanned, .full hspare⟩

theorem AsPlanned.stats_ends (h : ix.AsPlanned p w) :
    Ends Call.stats.run (ix, w) (ix.Stocked p w .stats) := by
  obtain ⟨v, -, hp⟩ := h.keeps.finds
  refine (@AsPlanned.revising_ends _ _ _ h .stats (.inspect (ix.tree.survey false) .counted) _ _ rfl
    (Tree.revises_survey hp.workable hp.ascending) fun a p' _ c hc => by cases hc).mono ?_
  rintro _ _ (⟨⟨rfl, hsize⟩, -, hplanned⟩ | ⟨hlevels, -, hplanned⟩)
  · exact ⟨rfl, _, hplanned, .counted hsize⟩
  · exact ⟨rfl, p, hplanned, .deep hlevels⟩

/-- Every call serves the free record positions. -/
theorem AsPlanned.stocked_ends (h : ix.AsPlanned p w) (hix : ix.Stocks) (call : Call) :
    Ends call.run (ix, w) (ix.Stocked p w call) := by
  by_cases hreserve : call = .reserve
  · exact hreserve ▸ h.reserve_ends hix
  by_cases hrelease : call = .release
  · exact hrelease ▸ h.release_ends hix
  by_cases hstats : call = .stats
  · exact hstats ▸ h.stats_ends
  obtain ⟨v, -, hp⟩ := h.keeps.finds
  have hslots := Call.slots_eq_of_effect ix (w.cell ix.cell) hreserve hrelease
  have hrevises := call.revises hp.workable hp.ascending h.keeps.cursor (w.cell ix.cell)
  cases hcourse : call.course ix (w.cell ix.cell) with
  | decided r =>
    refine Call.run_ends ?_
    simp only [hcourse, Course.Meets]
    refine ⟨rfl, p, h, ?_⟩
    cases r with
    | ok answer => exact .other hreserve hrelease hstats rfl
    | error e => exact .failed hreserve hrelease hstats
  | asks q =>
    rw [hcourse] at hslots hrevises
    refine (h.revising_ends hcourse hrevises fun a p' h => h.2).mono ?_
    rintro _ _ (⟨⟨heffect, -⟩, -, hplanned⟩ | ⟨-, -, hplanned⟩)
    · exact ⟨rfl, _, hplanned, .other hreserve hrelease hstats (hslots p _ _ heffect)⟩
    · exact ⟨rfl, p, hplanned, .failed hreserve hrelease hstats⟩

end Calls

end Index

/-! ## Any calls -/

/-- The record positions that should be free after a call that is answered so, with `record` in the
cell, if those of `free` should have been before. -/
def Call.frees (call : Call) (record : Nat) (r : Except Error Answer) (free : Multiset Nat) :
    Multiset Nat :=
  match call, r with
  | .release, .ok (.released .released) => record ::ₘ free
  | .reserve, .ok (.reserved (.reserved found)) => free.erase found
  | _, _ => free

/-- The record positions that were released and not reserved since, by calls that were answered so,
with `cell` in the cell before. Those of `free` were free then. -/
def vacant : List (Turn Unit) → List Reply → Nat → Multiset Nat → Multiset Nat
  | turn :: turns, reply :: replies, cell, free =>
    vacant turns replies reply.record
      (turn.call.frees (turn.record.getD cell) reply.result free)
  | _, _, _, free => free

/-- A call frees and takes the record positions that it says. -/
theorem Plan.Stocked.coe_records {l : Layout} {p p' : Plan} {record : Nat} {call : Call}
    {r : Except Error Answer} (h : p.Stocked l record call r p') :
    (p'.records : Multiset Nat) = call.frees record r p.records := by
  have hnone : ∀ r, call ≠ .reserve → call ≠ .release →
      call.frees record r p.records = p.records := by
    intro r hreserve hrelease
    cases call with
    | reserve => exact absurd rfl hreserve
    | release => exact absurd rfl hrelease
    | _ => rfl
  cases h with
  | bare | tooLarge | full | counted | deep => rfl
  | @taken found others rest p' hfound hleft =>
    rw [← p.flatten_freeLists, ← p'.flatten_freeLists, hfound, hleft, FreeLists.flatten_left]
    show _ = ((found :: (others ++ rest.flatten) : List Nat) : Multiset Nat).erase found
    rw [← Multiset.cons_coe, Multiset.erase_cons_head]
  | @listed p' hrecord hput =>
    rw [← p.flatten_freeLists, ← p'.flatten_freeLists, hput]
    show _ = record ::ₘ (p.freeLists.flatten : Multiset Nat)
    rw [Multiset.cons_coe]
    exact Multiset.coe_eq_coe.mpr (FreeLists.flatten_put l record p.freeLists)
  | other hreserve hrelease _ hslots =>
    rw [hnone _ hreserve hrelease]
    unfold Plan.records
    rw [hslots]
  | failed hreserve hrelease => rw [hnone _ hreserve hrelease]

/-- What a call by a handle on a file as planned comes to, in which the record positions of `free`
are free. The file is as in the plan `p'` afterwards. -/
structure Turn.Serves (turn : Turn Unit) (handles : Unit → Index) (w : Workspace) (p : Plan)
    (free : Multiset Nat) (p' : Plan) : Prop where
  asPlanned : ((turn.play handles w).2.1 ()).AsPlanned p' (turn.play handles w).2.2
  /-- A call that fails leaves the tree, the free record positions and the chain of free blocks. -/
  failed : ∀ e, (turn.play handles w).1.result = .error e → p' = p
  others : turn.call ≠ .reserve → turn.call ≠ .release → p'.slots = p.slots
  bare : turn.call = .reserve →
    ((turn.play handles w).1.result = .ok (.reserved .noFreeSlot) ↔ free = 0)
  /-- The oldest position of the block in front is taken. -/
  taken : turn.call = .reserve → free ≠ 0 → ∃ found others rest,
    (turn.play handles w).1.result = .ok (.reserved (.reserved found)) ∧
      p.freeLists = (found :: others) :: rest ∧ p'.freeLists = FreeLists.left others rest ∧
      found ∈ free ∧ (p'.records : Multiset Nat) = free.erase found
  /-- A position that is too large is refused. -/
  released : turn.call = .release → p.spare (handles ()).tree.layout ≠ 0 →
    (turn.play handles w).1.result =
      if turn.record.getD (w.cell (handles ()).cell) ≤ (handles ()).tree.layout.maxRecord then
        .ok (.released .released)
      else .error (.invalidKey (.positionTooLarge (turn.record.getD (w.cell (handles ()).cell))
        (handles ()).tree.layout.format))
  /-- A position that is listed goes behind those of the block in front, or into a new one. -/
  listed : turn.call = .release → (turn.play handles w).1.result = .ok (.released .released) →
    p'.freeLists = p.freeLists.put (handles ()).tree.layout
      (turn.record.getD (w.cell (handles ()).cell)) ∧
      (p'.records : Multiset Nat) = turn.record.getD (w.cell (handles ()).cell) ::ₘ free
  counted : turn.call = .stats → p.levels ≤ maxLevels + 1 →
    ∃ stats, (turn.play handles w).1.result = .ok (.counted stats)
  size : turn.call = .stats → ∀ stats : IndexStats,
    (turn.play handles w).1.result = .ok (.counted stats) → stats.freeSlots = free.card

namespace Index

section Turns

variable {handles : Unit → Index} {p p' : Plan} {w : Workspace}

theorem Stocks.withCursor {ix : Index} (h : ix.Stocks) (c : Cursor) :
    ({ ix with cursor := c } : Index).Stocks := ⟨h.writable, h.fixed⟩

/-- What one call comes to. -/
theorem AsPlanned.turn_stocked (h : (handles ()).AsPlanned p w) (hix : (handles ()).Stocks)
    (turn : Turn Unit) : ∃ c p', (turn.play handles w).2.1 () = { handles () with cursor := c } ∧
      (turn.play handles w).1.record = (turn.play handles w).2.2.cell (handles ()).cell ∧
      ((turn.play handles w).2.1 ()).AsPlanned p' (turn.play handles w).2.2 ∧
      p.Stocked (handles ()).tree.layout (turn.record.getD (w.cell (handles ()).cell)) turn.call
        (turn.play handles w).1.result p' := by
  have h₁ := h.setCell (handles ()).cell (turn.record.getD (w.cell (handles ()).cell))
  obtain ⟨v, hfinds, -⟩ := h.keeps.finds
  have hcell : (w.setCell (handles ()).cell (turn.record.getD (w.cell (handles ()).cell))).cell
      (handles ()).cell = turn.record.getD (w.cell (handles ()).cell) :=
    Workspace.cell_setCell hfinds.cell
  have hends := h₁.stocked_ends hix turn.call
  unfold Index.Stocked at hends
  rw [hcell] at hends
  obtain ⟨r, c, w', ⟨p', hplanned, hstocked⟩, hplay⟩ := turn.play_ends handles w
    (P := fun r c w' => ∃ p', ({ handles () with cursor := c } : Index).AsPlanned p' w' ∧
      p.Stocked (handles ()).tree.layout (turn.record.getD (w.cell (handles ()).cell)) turn.call r p')
    (hends.mono fun r σ h => ⟨h.1, by rw [← h.1]; exact h.2⟩)
  rw [hplay]
  exact ⟨c, p', rfl, rfl, hplanned, hstocked⟩

/-- After any calls the free record positions are those that were released and not reserved
since. -/
theorem AsPlanned.plays_vacant (h : (handles ()).AsPlanned p w) (hix : (handles ()).Stocks)
    (turns : List (Turn Unit)) :
    ∃ c p', (PagedIndex.plays turns handles w).2.1 () = { handles () with cursor := c } ∧
      ((PagedIndex.plays turns handles w).2.1 ()).AsPlanned p' (PagedIndex.plays turns handles w).2.2 ∧
      (p'.records : Multiset Nat) =
        vacant turns (PagedIndex.plays turns handles w).1 (w.cell (handles ()).cell) p.records := by
  induction turns generalizing handles p w with
  | nil => exact ⟨(handles ()).cursor, p, rfl, h, rfl⟩
  | cons turn rest ih =>
    obtain ⟨c, p₁, hhandle, hrecord, h₁, hstocked⟩ := h.turn_stocked hix turn
    obtain ⟨c', p', hhandle', h', hrecords⟩ := ih h₁ (by rw [hhandle]; exact hix.withCursor c)
    refine ⟨c', p', ?_, h', ?_⟩
    · show (PagedIndex.plays rest (turn.play handles w).2.1 (turn.play handles w).2.2).2.1 () = _
      rw [hhandle', hhandle]
    · rw [hrecords, hstocked.coe_records, hhandle]
      show vacant rest _ _ _ = vacant rest _ (turn.play handles w).1.record _
      rw [hrecord]
      rfl

/-- What one call comes to in terms of the positions that are free. -/
theorem AsPlanned.serves (h : (handles ()).AsPlanned p w) (hix : (handles ()).Stocks)
    (turn : Turn Unit) :
    ∃ p', turn.Serves handles w p p.records p' := by
  obtain ⟨c, p', -, -, hplanned, hstocked⟩ := h.turn_stocked hix turn
  have hrecords := hstocked.coe_records
  refine ⟨p', hplanned, fun e he => ?_, hstocked.slots_eq, fun hcall => ?_, fun hcall hfree => ?_,
    fun hcall hspare => ?_, fun hcall hresult => ?_, fun hcall hlevels => ?_,
    fun hcall stats hresult => ?_⟩
  · rw [he] at hstocked
    exact hstocked.eq_of_error
  · rw [hcall] at hstocked
    rw [hstocked.noFreeSlot_iff, Multiset.coe_eq_zero]
  · rw [hcall] at hstocked hrecords
    obtain ⟨found, others, rest, hr, hfound, hleft⟩ := hstocked.exists_taken
      (fun hnil => hfree (Multiset.coe_eq_zero _ |>.mpr hnil))
    rw [hr] at hrecords
    refine ⟨found, others, rest, hr, hfound, hleft, ?_, hrecords⟩
    rw [← p.flatten_freeLists, hfound]
    exact Multiset.mem_coe.mpr List.mem_cons_self
  · rw [hcall] at hstocked
    exact hstocked.release_eq hspare
  · rw [hcall, hresult] at hstocked hrecords
    refine ⟨?_, hrecords⟩
    cases hstocked with
    | listed _ hput => exact hput
    | other _ hrelease => exact absurd rfl hrelease
  · rw [hcall] at hstocked
    obtain ⟨stats, hr, -⟩ | ⟨-, hdeep⟩ := hstocked.stats_eq
    · exact ⟨stats, hr⟩
    · omega
  · rw [hcall, hresult] at hstocked
    obtain ⟨stats', hr, hsize⟩ | ⟨⟨e, he⟩, -⟩ := hstocked.stats_eq
    · cases hr
      rw [hsize, Multiset.coe_card]
    · cases he

/-- After any calls the free record positions are exactly those that were released and not reserved
since, and any further call serves them. -/
theorem AsPlanned.serves_vacant (h : (handles ()).AsPlanned p w) (hix : (handles ()).Stocks)
    (turns : List (Turn Unit)) (turn : Turn Unit) : ∃ p₁ p₂,
      (p₁.records : Multiset Nat) =
        vacant turns (PagedIndex.plays turns handles w).1 (w.cell (handles ()).cell) p.records ∧
      ((PagedIndex.plays turns handles w).2.1 ()).AsPlanned p₁ (PagedIndex.plays turns handles w).2.2 ∧
      turn.Serves (PagedIndex.plays turns handles w).2.1 (PagedIndex.plays turns handles w).2.2 p₁
        (vacant turns (PagedIndex.plays turns handles w).1 (w.cell (handles ()).cell) p.records)
          p₂ := by
  obtain ⟨c, p₁, hhandle, h₁, hrecords⟩ := h.plays_vacant hix turns
  obtain ⟨p₂, h₂⟩ := h₁.serves (by rw [hhandle]; exact hix.withCursor c) turn
  exact ⟨p₁, p₂, hrecords, h₁, hrecords ▸ h₂⟩

/-- A small file for records of a fixed length. -/
def stockedOptions : OpenOptions where
  mode := .create
  keyLength := 1
  fixedRecordLength := some 8
  blockSize := 512

/-- Two positions are released, and one is reserved after an insertion. -/
def stockedTurns : List (Turn Unit) :=
  [⟨(), some 5, .release⟩, ⟨(), some 9, .release⟩, ⟨(), none, .insert [0x41]⟩, ⟨(), none, .reserve⟩]

/-- In a new file another reservation is then served. -/
theorem serves_vacant_small : ∃ ix w, openStore (.ofMemory 0 none) stockedOptions 0
      (smallWorkspace fun _ _ => none) = .ok ix w ∧ ∃ p₁ p₂,
    (p₁.records : Multiset Nat) =
      vacant stockedTurns (PagedIndex.plays stockedTurns (fun _ => ix) w).1 (w.cell ix.cell) 0 ∧
    Turn.Serves ⟨(), none, .reserve⟩ (PagedIndex.plays stockedTurns (fun _ => ix) w).2.1
      (PagedIndex.plays stockedTurns (fun _ => ix) w).2.2 p₁
      (vacant stockedTurns (PagedIndex.plays stockedTurns (fun _ => ix) w).1 (w.cell ix.cell) 0)
      p₂ := by
  have hchecked : opens stockedOptions (smallWorkspace fun _ _ => none)
      (fun ix _ => ix.mode.writable && !ix.header.fixedRecordLength.isNone) = true := by
    decide +kernel
  have haccepts := accepts_small
  generalize smallWorkspace (fun _ _ => none) = w at *
  obtain ⟨ix, w', hopen, hstocks⟩ := exists_of_opens hchecked
  rw [Bool.and_eq_true, Bool.not_eq_true'] at hstocks
  have hplanned := (asPlanned_of_create rfl haccepts).of_ok hopen ix rfl
  obtain ⟨p₁, p₂, hrecords, -, hserves⟩ := @AsPlanned.serves_vacant (fun _ => ix) _ _ hplanned
    ⟨hstocks.1, hstocks.2⟩ stockedTurns ⟨(), none, .reserve⟩
  exact ⟨ix, w', hopen, p₁, p₂, hrecords, hserves⟩

end Turns

end Index

end PagedIndex
