import Mathlib.Data.List.Forall2
import PagedIndex.Proofs.Index.Orderly
import PagedIndex.Proofs.Tree.Moves

/-!
# Calls that move the cursor

A move on a file as planned, over a store that refuses nothing, cannot fail. It goes by what the
cursor stands on or next to, not by where that was, so it does not matter what has become of the
file since the cursor came there.

## Main definitions

* `Index.Went`, `Index.Stepped` — a call that has moved the cursor to an entry or off all entries.
* `Index.Recites` — a walk through entries and back.
* `Index.Navigates` — what moves by one entry come to, from any cursor.
* `Index.Finding` — what a move to a key comes to.

## Main statements

* `Index.recites` — a walk is told by what one move preserves.
* `Index.AsPlanned.navigates` — moves by one entry.
* `Index.AsPlanned.next_concurs` — a hint does not change where a move leads.
* `Index.AsPlanned.finding` — moves to a key.
-/

namespace PagedIndex

namespace Cursor

variable {l : Layout} {c c' : Cursor} {found : Option Entry} {off : KeyState}

/-- The record position that goes into the cell is that of the entry on which the cursor landed. -/
theorem Moved.record?_eq (h : Moved l c c' found off) (hoff : off ≠ .onKey) :
    c'.record? = found.map Entry.record := by
  unfold record?
  rw [h.state, h.current]
  cases found <;> simp [hoff]

end Cursor

namespace Index

/-- A call that has moved the cursor to an entry, or off all entries, and has changed nothing else
but the record cell. -/
structure Stepped (ix : Index) (p : Plan) (w : Workspace) (found : Option Entry) (off : KeyState)
    (r : Except Error Answer) (σ : Index × Workspace) : Prop where
  handle : σ.1 = { ix with cursor := σ.1.cursor }
  moved : ix.cursor.Moved ix.tree.layout σ.1.cursor found off
  result : r = .ok (.state σ.1.cursor.state)
  record : σ.2.cell ix.cell = (found.map Entry.record).getD (w.cell ix.cell)
  asPlanned : σ.1.AsPlanned p σ.2

/-- A call that has moved the cursor to an entry, or off all entries. -/
structure Went (ix : Index) (w : Workspace) (found : Option Entry) (off : KeyState)
    (r : Except Error Answer) (σ : Index × Workspace) : Prop where
  handle : σ.1 = { ix with cursor := σ.1.cursor }
  state : σ.1.cursor.state = if found.isSome then .onKey else off
  current : σ.1.cursor.current = found.or ix.cursor.current
  result : r = .ok (.state σ.1.cursor.state)
  record : σ.2.cell ix.cell = (found.map Entry.record).getD (w.cell ix.cell)

variable {ix : Index} {p : Plan} {w : Workspace}

theorem Stepped.went {found : Option Entry} {off : KeyState} {r : Except Error Answer}
    {σ : Index × Workspace} (h : ix.Stepped p w found off r σ) : ix.Went w found off r σ :=
  ⟨h.handle, h.moved.state, h.moved.current, h.result, h.record⟩

/-- A move that cannot fail on blocks as planned does not fail. -/
theorem AsPlanned.move_ends (h : ix.AsPlanned p w) (call : Call) {program : Program Cursor}
    {P : Cursor → Prop} (hcourse : call.course ix (w.cell ix.cell) = .asks (.move program))
    (hgives : ∀ c : Board, p.Holds ix.tree.layout c → Program.Gives ix.tree.layout program c P)
    (haligned : ∀ c', P c' → c'.Aligned ix.tree.layout) :
    Ends call.run (ix, w) fun r σ => σ.1 = { ix with cursor := σ.1.cursor } ∧ P σ.1.cursor ∧
      r = .ok (.state σ.1.cursor.state) ∧
      σ.2.cell ix.cell = σ.1.cursor.record?.getD (w.cell ix.cell) ∧ σ.1.AsPlanned p σ.2 := by
  obtain ⟨v, hfinds, hp⟩ := h.keeps.finds
  obtain ⟨c, hc, hholds⟩ := hp.board
  obtain ⟨r, v', d, hruns, hshown, rfl, a, rfl, ha⟩ := hgives c hholds
    { v with held := fun _ => none } ⟨hc.pointers, hc.header, hc.held, hc.vacant⟩
  have hp' : p.Drawn ix.tree v' := ⟨hp.workable, ⟨d, hshown, hholds⟩, hp.ascending⟩
  have hcallOutcome := @Session.transact_outcome ix.mount _ _ _ _ _ _ _ ix.mode.locked ix.mode.endMode
    hfinds.blocksAs rfl hp.width hruns fun _ _ => hp'.settled
  refine Call.run_ends ?_
  simp only [hcourse, Course.Meets]
  refine Ends.mono hcallOutcome fun o s hcallOutcome => ?_
  obtain ⟨hsafe, hok, -⟩ := hcallOutcome.reliable h.safe h.reliable
  obtain rfl := hok a rfl
  obtain ⟨-, ⟨_, _, -, -, hkept⟩ | ⟨⟨e, he⟩, -⟩⟩ :=
    hcallOutcome.secured ⟨h.safe.flushable, .inl h.reliable.takes⟩
  · have hkeeps := hfinds.keeps_after (q := .move program) (o := .ok (a, .ok ())) hkept.blocksAs hp'
      (haligned a ha)
    refine ⟨rfl, ha, rfl, Request.cell_after hfinds.cell, hkeeps, ?_,
      h.reliable.follows hcallOutcome.works.disk⟩
    exact (congrArg Buffered.Safe (Request.below_after hfinds.cache)).mpr hsafe
  · cases he

/-- The cursor of a handle may be put anywhere. -/
theorem AsPlanned.withCursor (h : ix.AsPlanned p w) {c : Cursor} (hc : c.Aligned ix.tree.layout) :
    ({ ix with cursor := c } : Index).AsPlanned p w := by
  obtain ⟨v, hfinds, hp⟩ := h.keeps.finds
  exact ⟨⟨⟨v, hfinds.withCursor c, hp⟩, hc⟩, h.safe, h.reliable⟩

theorem AsPlanned.ascending (h : ix.AsPlanned p w) : ix.tree.Ascending p.entries := by
  obtain ⟨v, -, hp⟩ := h.keeps.finds
  exact hp.ascending

/-! ## Moves by one entry -/

/-- The next entry is the first one ahead. -/
theorem AsPlanned.next_ends (h : ix.AsPlanned p w) (hlevels : p.levels ≤ maxLevels + 1) :
    Ends Call.next.run (ix, w)
      (ix.Stepped p w (ix.cursor.ahead ix.tree p.entries).head? .afterLast) := by
  refine (h.move_ends .next rfl (fun c hc =>
    Tree.gives_next hc hlevels h.ascending h.keeps.cursor) fun c' hc' => hc'.aligned).mono ?_
  rintro r σ ⟨hhandle, hmoved, hr, hrecord, hplanned⟩
  rw [hmoved.record?_eq nofun] at hrecord
  exact ⟨hhandle, hmoved, hr, hrecord, hplanned⟩

/-- The entry in front is the last one behind. -/
theorem AsPlanned.previous_ends (h : ix.AsPlanned p w) (hlevels : p.levels ≤ maxLevels + 1) :
    Ends Call.previous.run (ix, w)
      (ix.Stepped p w (ix.cursor.behind ix.tree p.entries).getLast? .beforeFirst) := by
  refine (h.move_ends .previous rfl (fun c hc =>
    Tree.gives_previous hc hlevels h.ascending h.keeps.cursor) fun c' hc' => hc'.aligned).mono ?_
  rintro r σ ⟨hhandle, hmoved, hr, hrecord, hplanned⟩
  rw [hmoved.record?_eq nofun] at hrecord
  exact ⟨hhandle, hmoved, hr, hrecord, hplanned⟩

end Index

/-! ## Walks -/

/-- A reply that tells of a cursor on an entry. -/
structure Reply.OnEntry (reply : Reply) (e : Entry) : Prop where
  result : reply.result = .ok (.state .onKey)
  state : reply.cursor.state = .onKey
  current : reply.cursor.current = some e
  record : reply.record = e.record

theorem plays_append {ι : Type} [DecidableEq ι] (front back : List (Turn ι)) (handles : ι → Index)
    (w : Workspace) : plays (front ++ back) handles w =
      let (replies, handles, w) := plays front handles w
      let (replies', final) := plays back handles w
      (replies ++ replies', final) := by
  induction front generalizing handles w with
  | nil => rfl
  | cons turn front ih => simp only [List.cons_append, plays, ih]

section Walk

variable {I : Index → Workspace → Prop} {w : Workspace} {call : Call} {off : KeyState}
  {found : Option Entry} {es : List Entry}

/-- A turn that only moves the cursor. -/
theorem Turn.play_went {ι : Type} [DecidableEq ι] {handles : ι → Index} {i : ι}
    (h : Ends call.run (handles i, w) fun r σ => (handles i).Went w found off r σ ∧ I σ.1 σ.2) :
    ∃ reply handles' w', Turn.play ⟨i, none, call⟩ handles w = (reply, handles', w') ∧
      reply.record = w'.cell (handles i).cell ∧ (handles' i).cursor = reply.cursor ∧
      (handles i).Went w found off reply.result (handles' i, w') ∧ I (handles' i) w' := by
  have hw := Workspace.setCell_cell w (handles i).cell
  obtain ⟨r, c, w', ⟨hwent, hI⟩, hplay⟩ := Turn.play_ends ⟨i, none, call⟩ handles w
    (P := fun r c w' => (handles i).Went w found off r ({ handles i with cursor := c }, w') ∧
      I { handles i with cursor := c } w') <| by
      simp only [Option.getD_none, hw]
      refine h.mono ?_
      rintro r ⟨ix', w'⟩ ⟨hwent, hI⟩
      have hhandle : ix' = { handles i with cursor := ix'.cursor } := hwent.handle
      exact ⟨hhandle, hhandle ▸ hwent, hhandle ▸ hI⟩
  refine ⟨_, _, w', hplay, rfl, ?_, ?_, ?_⟩
  · simp
  · simpa using hwent
  · simpa using hI

/-- Moves in one direction tell of all that is on that side of the cursor, one after the other, and
then run off. What is invariant is what makes one move land. -/
theorem Index.walk (call : Call) (side : Cursor → List Entry) (handles : Unit → Index)
    (hstep : ∀ ix w, I ix w → Ends call.run (ix, w) fun r σ =>
      ix.Went w (side ix.cursor).head? off r σ ∧ I σ.1 σ.2)
    (hside : ∀ c c' e rest, side c = e :: rest → c'.state = .onKey → c'.current = some e →
      side c' = rest) (h : I (handles ()) w) :
    ∃ told last handles' w', PagedIndex.plays
        (List.replicate ((side (handles ()).cursor).length + 1) ⟨(), none, call⟩) handles w =
          (told ++ [last], handles', w') ∧
      List.Forall₂ Reply.OnEntry told (side (handles ()).cursor) ∧
      last.result = .ok (.state off) ∧ (handles' ()).cursor.state = off ∧ I (handles' ()) w' := by
  generalize hes : side (handles ()).cursor = es
  induction es generalizing handles w with
  | nil =>
    obtain ⟨reply, handles', w', hplay, -, -, hwent, hI⟩ := Turn.play_went (hstep _ w h)
    rw [hes] at hwent
    have hstate : (handles' ()).cursor.state = off := hwent.state
    refine ⟨[], reply, handles', w', ?_, .nil, ?_, hstate, hI⟩
    · simp only [List.length_nil, List.replicate, PagedIndex.plays, hplay, List.nil_append]
    · rw [hwent.result, hstate]
  | cons e rest ih =>
    obtain ⟨reply, handles', w', hplay, hrecord, hcursor, hwent, hI⟩ :=
      Turn.play_went (hstep _ w h)
    rw [hes] at hwent
    have hstate : (handles' ()).cursor.state = .onKey := hwent.state
    have hcurrent : (handles' ()).cursor.current = some e := hwent.current
    obtain ⟨told, last, handles'', w'', hplays, htold, hlast⟩ :=
      ih handles' hI (hside _ _ e rest hes hstate hcurrent)
    refine ⟨reply :: told, last, handles'', w'', ?_, .cons ?_ htold, hlast⟩
    · rw [List.length_cons, List.replicate_succ, PagedIndex.plays, hplay]
      simp only [hplays, List.cons_append]
    · refine ⟨?_, hcursor ▸ hstate, hcursor ▸ hcurrent, hrecord.trans hwent.record⟩
      rw [hwent.result, hstate]

/-- A new handle that moves from entry to entry until it runs off, and then back, is told entries in
this order and then in the opposite order. -/
def Index.Recites (ix : Index) (es : List Entry) (w : Workspace) : Prop :=
  let forward : Turn Unit := ⟨(), none, .next⟩
  let backward : Turn Unit := ⟨(), none, .previous⟩
  let told := (plays (List.replicate (es.length + 1) forward ++
    List.replicate (es.length + 1) backward) (fun _ => { ix with cursor := {} }) w).1
  ∃ forth last back first, told = forth ++ [last] ++ (back ++ [first]) ∧
    List.Forall₂ Reply.OnEntry forth es ∧ last.result = .ok (.state .afterLast) ∧
    List.Forall₂ Reply.OnEntry back es.reverse ∧ first.result = .ok (.state .beforeFirst)

/-- A walk is told by what one move preserves. -/
theorem Index.recites {ix : Index} {t : Tree} (hasc : t.Ascending es)
    (hnext : ∀ ix w, I ix w → Ends Call.next.run (ix, w) fun r σ =>
      ix.Went w (ix.cursor.ahead t es).head? .afterLast r σ ∧ I σ.1 σ.2)
    (hprevious : ∀ ix w, I ix w → Ends Call.previous.run (ix, w) fun r σ =>
      ix.Went w (ix.cursor.behind t es).getLast? .beforeFirst r σ ∧ I σ.1 σ.2)
    (h : I { ix with cursor := {} } w) : ix.Recites es w := by
  have hback : ∀ c : Cursor, c.state = .afterLast → (c.behind t es).reverse = es.reverse := by
    intro c hc
    unfold Cursor.behind
    rw [hc]
  obtain ⟨forth, last, handles, w', hforth, htold, hlast, hstate, hI⟩ :=
    Index.walk .next (fun c => c.ahead t es) (fun _ => { ix with cursor := {} }) hnext
      (fun c c' e rest => Cursor.ahead_of_head hasc) h
  obtain ⟨back, first, handles', w'', hbackward, htold', hfirst, -⟩ :=
    Index.walk .previous (fun c => (c.behind t es).reverse) handles
      (fun ix' w hI => by
        rw [List.head?_reverse]
        exact hprevious ix' w hI)
      (fun c c' e rest hside hstate hcurrent => by
        rw [List.reverse_eq_cons_iff] at hside
        rw [Cursor.behind_of_last hasc hside hstate hcurrent, List.reverse_reverse])
      hI
  rw [hback _ hstate, List.length_reverse] at hbackward
  rw [hback _ hstate] at htold'
  refine ⟨forth, last, back, first, ?_, htold, hlast, htold', hfirst⟩
  rw [plays_append]
  have hahead : Cursor.ahead t {} es = es := rfl
  rw [hahead] at hforth
  simp only [hforth, hbackward]

end Walk

/-! ## From any cursor -/

namespace Index

variable {ix : Index} {p : Plan} {w : Workspace}

/-- A new handle that moves from entry to entry until it runs off, and then back, is told all
entries in ascending order and then in descending order. -/
def Walks (ix : Index) (p : Plan) (w : Workspace) : Prop :=
  let forward : Turn Unit := ⟨(), none, .next⟩
  let backward : Turn Unit := ⟨(), none, .previous⟩
  let told := (plays (List.replicate (p.entries.length + 1) forward ++
    List.replicate (p.entries.length + 1) backward) (fun _ => { ix with cursor := {} }) w).1
  ix.tree.Ascending p.entries ∧ ∃ forth last back first,
    told = forth ++ [last] ++ (back ++ [first]) ∧
    List.Forall₂ Reply.OnEntry forth p.entries ∧ last.result = .ok (.state .afterLast) ∧
    List.Forall₂ Reply.OnEntry back p.entries.reverse ∧ first.result = .ok (.state .beforeFirst)

/-- What moves by one entry come to on a file as planned, whatever has become of the file since the
cursor came to where it is. -/
structure Navigates (ix : Index) (p : Plan) (w : Workspace) : Prop where
  /-- On or next to `e`, whether it is in the file or not, the least greater entry is next. -/
  next_beside : ∀ e, ix.cursor.state = .onKey ∨ ix.cursor.state = .between →
    ix.cursor.current = some e → Ends Call.next.run (ix, w) fun r σ => ∃ found,
      ix.Stepped p w found .afterLast r σ ∧
      (∀ a, found = some a ↔ ix.tree.NextAbove p.entries e a) ∧
      (found = none ↔ ∀ a ∈ p.entries, Entry.compare ix.tree.collation true e a ≠ .lt)
  /-- The greatest entry that is less is in front. -/
  previous_beside : ∀ e, ix.cursor.state = .onKey ∨ ix.cursor.state = .between →
    ix.cursor.current = some e → Ends Call.previous.run (ix, w) fun r σ => ∃ found,
      ix.Stepped p w found .beforeFirst r σ ∧
      (∀ a, found = some a ↔ ix.tree.NextBelow p.entries e a) ∧
      (found = none ↔ ∀ a ∈ p.entries, Entry.compare ix.tree.collation true e a ≠ .gt)
  next_front : ix.cursor.state = .beforeFirst →
    Ends Call.next.run (ix, w) (ix.Stepped p w p.entries.head? .afterLast)
  previous_front : ix.cursor.state = .beforeFirst →
    Ends Call.previous.run (ix, w) (ix.Stepped p w none .beforeFirst)
  previous_back : ix.cursor.state = .afterLast →
    Ends Call.previous.run (ix, w) (ix.Stepped p w p.entries.getLast? .beforeFirst)
  next_back : ix.cursor.state = .afterLast →
    Ends Call.next.run (ix, w) (ix.Stepped p w none .afterLast)
  walk : ix.Walks p w

/-- A new handle walks through all entries in order, and back. -/
theorem AsPlanned.walks (h : ix.AsPlanned p w) (hlevels : p.levels ≤ maxLevels + 1) : ix.Walks p w := by
  have hfresh : ({ ix with cursor := {} } : Index).AsPlanned p w := h.withCursor nofun
  refine ⟨h.ascending, recites (I := fun ix' w => ix'.tree = ix.tree ∧ ix'.AsPlanned p w) h.ascending
    ?_ ?_ ⟨rfl, hfresh⟩⟩
  · rintro ix' w ⟨htree, h⟩
    exact (h.next_ends hlevels).mono fun r σ hs =>
      ⟨htree ▸ hs.went, (congrArg Index.tree hs.handle).trans htree, hs.asPlanned⟩
  · rintro ix' w ⟨htree, h⟩
    exact (h.previous_ends hlevels).mono fun r σ hs =>
      ⟨htree ▸ hs.went, (congrArg Index.tree hs.handle).trans htree, hs.asPlanned⟩

/-- Moves by one entry go by the order of the entries. -/
theorem AsPlanned.navigates (h : ix.AsPlanned p w) (hlevels : p.levels ≤ maxLevels + 1) :
    ix.Navigates p w := by
  have hnext := h.next_ends hlevels
  have hprevious := h.previous_ends hlevels
  have hasc := h.ascending
  refine ⟨fun e hstate hcurrent => ?_, fun e hstate hcurrent => ?_, fun hstate => ?_, fun hstate => ?_,
    fun hstate => ?_, fun hstate => ?_, h.walks hlevels⟩
  · have hahead : ix.cursor.ahead ix.tree p.entries = ix.tree.above e p.entries := by
      unfold Cursor.ahead
      rcases hstate with hstate | hstate <;> rw [hstate, hcurrent]
    rw [hahead] at hnext
    refine hnext.mono fun r σ hs => ⟨_, hs, fun a => Tree.head?_above hasc, ?_⟩
    simp [Tree.above]
  · have hbehind : ix.cursor.behind ix.tree p.entries = ix.tree.below e p.entries := by
      unfold Cursor.behind
      rcases hstate with hstate | hstate <;> rw [hstate, hcurrent]
    rw [hbehind] at hprevious
    refine hprevious.mono fun r σ hs => ⟨_, hs, fun a => Tree.getLast?_below hasc, ?_⟩
    simp [Tree.below]
  · unfold Cursor.ahead at hnext
    rw [hstate] at hnext
    exact hnext
  · unfold Cursor.behind at hprevious
    rw [hstate] at hprevious
    exact hprevious
  · unfold Cursor.behind at hprevious
    rw [hstate] at hprevious
    exact hprevious
  · unfold Cursor.ahead at hnext
    rw [hstate] at hnext
    exact hnext

/-- A file as planned that a session rests on is one that a handle rests on. -/
theorem asPlanned_of_filed (h : ix.tree.Filed ix.mount p (w.below ix.cache))
    (hcache : ix.cache < w.caches.size) (hcell : ix.cell < w.cells.size)
    (hcursor : ix.cursor.Aligned ix.tree.layout) : ix.AsPlanned p w := by
  obtain ⟨v, c, hplanned, hshown, hholds⟩ := h.held
  exact ⟨⟨⟨v, ⟨hcache, hcell, hplanned.blocksAs⟩, h.workable, ⟨c, hshown, hholds⟩, h.ascending⟩,
    hcursor⟩,
    hplanned.safe, hplanned.reliable⟩

theorem asPlanned_sample : (sampleIndex .exclusive).AsPlanned Tree.samplePlan
    (loadedWorkspace Tree.sampleContents fun _ _ => none) :=
  ⟨keeps_sample, safe_loaded (by decide), ⟨fun _ _ => rfl, rfl, .inl rfl⟩⟩

/-- A walk through a file of two levels, and back. -/
theorem navigates_sample : ∃ w, (sampleIndex .exclusive).AsPlanned Tree.samplePlan w ∧
    (sampleIndex .exclusive).Navigates Tree.samplePlan w := by
  obtain ⟨w, hplanned⟩ : ∃ w, (sampleIndex .exclusive).AsPlanned Tree.samplePlan w :=
    ⟨_, asPlanned_sample⟩
  exact ⟨w, hplanned, hplanned.navigates (by decide)⟩

/-- Two calls have told their callers the same, and have led to the same place. -/
structure Concurs (cell : Nat) (r : Except Error Answer) (σ : Index × Workspace)
    (r' : Except Error Answer) (σ' : Index × Workspace) : Prop where
  result : r = r'
  state : σ.1.cursor.state = σ'.1.cursor.state
  current : σ.1.cursor.current = σ'.1.cursor.current
  record : σ.2.cell cell = σ'.2.cell cell

/-- A move to the next entry goes by the entry on which the cursor stands. It does not matter what
has become of the block that a hint leads to, as long as a block may start there: the move comes to
what it comes to without the hint. -/
theorem AsPlanned.next_concurs (h : ix.AsPlanned p w) (hlevels : p.levels ≤ maxLevels + 1) {c : Cursor}
    (hc : c.Aligned ix.tree.layout) {e : Entry} (hstate : c.state = .onKey)
    (hcurrent : c.current = some e) :
    Ends Call.next.run ({ ix with cursor := c }, w) fun r σ =>
      Ends Call.next.run ({ ix with cursor := { c with hint := none } }, w) fun r' σ' =>
        Concurs ix.cell r σ r' σ' ∧
        (∀ a, σ.1.cursor.state = .onKey ∧ σ.1.cursor.current = some a ↔
          ix.tree.NextAbove p.entries e a) ∧
        (σ.1.cursor.state ≠ .onKey → σ.1.cursor.state = .afterLast) := by
  have hasc := h.ascending
  have hahead : ∀ hint, ({ c with hint := hint } : Cursor).ahead ix.tree p.entries =
      ix.tree.above e p.entries := fun hint => by
    simp only [Cursor.ahead, hstate, hcurrent]
  have hled := (h.withCursor hc).next_ends hlevels
  have hcleared := (h.withCursor (c := { c with hint := none }) nofun).next_ends hlevels
  dsimp only at hled hcleared
  rw [hahead c.hint] at hled
  rw [hahead none] at hcleared
  generalize hfound : (ix.tree.above e p.entries).head? = found at hled hcleared
  refine hled.mono fun r σ hs => hcleared.mono fun r' σ' hs' => ?_
  have hnext : ∀ a, found = some a ↔ ix.tree.NextAbove p.entries e a := fun a =>
    hfound ▸ Tree.head?_above hasc
  have hstate' := hs.moved.state
  have hcurrent' := hs.moved.current
  have hsame : σ.1.cursor.state = σ'.1.cursor.state := hstate'.trans hs'.moved.state.symm
  refine ⟨⟨?_, hsame, hcurrent'.trans hs'.moved.current.symm, hs.record.trans hs'.record.symm⟩,
    fun a => ?_, fun hoff => ?_⟩
  · rw [hs.result, hs'.result, hsame]
  · rw [← hnext, hstate', hcurrent']
    cases found <;> simp
  · cases found with
    | none => exact hstate'
    | some a => exact absurd hstate' hoff

/-- A hint that leads to a block that has been deleted is of no account. From the last entry of a
leaf the move goes to the separator behind it. -/
theorem next_concurs_sample : ∃ w, (sampleIndex .exclusive).AsPlanned Tree.samplePlan w ∧
    Ends Call.next.run
      ({ sampleIndex .exclusive with cursor := ⟨.onKey, some ⟨[0x41], 2⟩, some ⟨2048⟩⟩ }, w)
      fun r σ => Ends Call.next.run
        ({ sampleIndex .exclusive with cursor := ⟨.onKey, some ⟨[0x41], 2⟩, none⟩ }, w)
        fun r' σ' => Concurs 0 r σ r' σ' ∧ σ.1.cursor.current = some ⟨[0x42], 3⟩ := by
  obtain ⟨w, hplanned⟩ : ∃ w, (sampleIndex .exclusive).AsPlanned Tree.samplePlan w :=
    ⟨_, asPlanned_sample⟩
  have haligned : (⟨.onKey, some ⟨[0x41], 2⟩, some ⟨2048⟩⟩ : Cursor).Aligned Tree.sample.layout := by
    rintro pos ⟨⟩
    decide
  refine ⟨w, hplanned, (hplanned.next_concurs (by decide) haligned rfl rfl).mono fun r σ h =>
    h.mono fun r' σ' h' => ⟨h'.1, ((h'.2.1 ⟨[0x42], 3⟩).mpr ⟨?_, ?_, ?_⟩).2⟩⟩
  all_goals decide

/-! ## To a key -/

/-- What a move to a key comes to on a file as planned. -/
structure Finding (ix : Index) (p : Plan) (w : Workspace) (key : Bytes) (r : Except Error Answer)
    (σ : Index × Workspace) : Prop where
  handle : σ.1 = { ix with cursor := σ.1.cursor }
  asPlanned : σ.1.AsPlanned p σ.2
  result : r = .ok (.state σ.1.cursor.state)
  sought : ix.cursor.Sought ix.tree key p.entries σ.1.cursor
  record_found : σ.1.cursor.state = .onKey →
    ∃ e, σ.1.cursor.current = some e ∧ σ.2.cell ix.cell = e.record
  record_missed : σ.1.cursor.state ≠ .onKey → σ.2.cell ix.cell = w.cell ix.cell
  /-- Next to the key, the first entry above it is next. -/
  next_missed : σ.1.cursor.state ≠ .onKey → Ends Call.next.run σ
    (σ.1.Stepped p σ.2 (p.entries.find? fun a => ix.tree.collation.compare key a.key == .lt) .afterLast)
  /-- The last entry below it is in front. -/
  previous_missed : σ.1.cursor.state ≠ .onKey → Ends Call.previous.run σ
    (σ.1.Stepped p σ.2
      (p.entries.filter fun a => ix.tree.collation.compare key a.key == .gt).getLast? .beforeFirst)

/-- A move to a key stands on the first entry that has it, or where the key would be. -/
theorem AsPlanned.finding (h : ix.AsPlanned p w) (hlevels : p.levels ≤ maxLevels + 1) {raw key : Bytes}
    (hraw : raw ≠ []) (hkey : ix.keyOf raw blank = .ok key) :
    Ends (Call.find raw).run (ix, w) (ix.Finding p w key) := by
  have hcourse : (Call.find raw).course ix (w.cell ix.cell) =
      .asks (.move (ix.tree.find ix.cursor key)) := by
    simp [Call.course, hraw, hkey, Course.check]
  refine (h.move_ends _ hcourse (fun c hc => Tree.gives_find hc hlevels h.ascending key)
    fun c' hc' => hc'.aligned).mono ?_
  rintro r σ ⟨hhandle, hsought, hr, hrecord, hplanned⟩
  have htree : σ.1.tree = ix.tree := (congrArg Index.tree hhandle).trans rfl
  refine ⟨hhandle, hplanned, hr, hsought, fun hstate => ?_, fun hstate => ?_, fun hstate => ?_,
    fun hstate => ?_⟩
  · obtain ⟨e, -, hcurrent, -⟩ := hsought.found hstate
    refine ⟨e, hcurrent, hrecord.trans ?_⟩
    simp [Cursor.record?, hstate, hcurrent]
  · refine hrecord.trans ?_
    simp [Cursor.record?, hstate]
  · have hnext := hplanned.next_ends hlevels
    rwa [htree, (hsought.sides hstate).1, List.head?_filter] at hnext
  · have hprevious := hplanned.previous_ends hlevels
    rwa [htree, (hsought.sides hstate).2] at hprevious

/-- Of a key that a separator and a leaf have the separator is found. -/
theorem finding_sample : ∃ w, (sampleIndex .exclusive).AsPlanned Tree.samplePlan w ∧
    Ends (Call.find [0x42]).run (sampleIndex .exclusive, w) fun r σ =>
      (sampleIndex .exclusive).Finding Tree.samplePlan w [0x42] r σ ∧ r = .ok (.state .onKey) ∧
        σ.1.cursor.current = some ⟨[0x42], 3⟩ := by
  obtain ⟨w, hplanned⟩ : ∃ w, (sampleIndex .exclusive).AsPlanned Tree.samplePlan w :=
    ⟨_, asPlanned_sample⟩
  refine ⟨w, hplanned, (hplanned.finding (by decide) (List.cons_ne_nil _ _) rfl).mono fun r σ h => ?_⟩
  have hstate := h.sought.onKey.mpr ⟨⟨[0x42], 3⟩, by decide, by decide⟩
  obtain ⟨e, he, hcurrent, hkey, hleast⟩ := h.sought.found hstate
  have hfirst : ∀ e ∈ Tree.samplePlan.entries, Tree.sample.collation.compare [0x42] e.key = .eq →
      e.record ≤ 3 → e = ⟨[0x42], 3⟩ := by decide
  refine ⟨h, hstate ▸ h.result, hcurrent.trans (congrArg some (hfirst e he hkey ?_))⟩
  exact hleast ⟨[0x42], 3⟩ (by decide) (by decide)

end Index

end PagedIndex
