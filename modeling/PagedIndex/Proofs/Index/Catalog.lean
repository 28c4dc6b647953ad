import PagedIndex.Proofs.Index.Moving
import PagedIndex.Proofs.Tree.FindLast

/-!
# Catalogs

A catalog is what callers know of a file: its entries in order, and a place among them. What the
calls on keys do to a catalog tells nothing of blocks, nor of the format in which they are written.

## Main definitions

* `Rules` — how a file treats keys.
* `Catalog`, `Catalog.step` — entries with a place among them, and what calls on keys do to them.
* `Cursor.catalog` — the catalog of a file and a cursor.

## Main statements

* `Index.AsPlanned.step` — a call on a file as planned does what it does to the catalog.
-/

namespace PagedIndex

/-- How a file treats keys. -/
structure Rules where
  keyLength : Nat
  /-- Whether long keys are cut instead of rejected. -/
  truncate : Bool
  collation : Collation
  /-- Whether one key may stand for several record positions. -/
  duplicates : Bool

def Index.rules (ix : Index) : Rules :=
  ⟨ix.tree.layout.keyLength, ix.truncate, ix.tree.collation, ix.tree.duplicates⟩

@[simp]
theorem Index.collation_rules (ix : Index) : ix.rules.collation = ix.tree.collation := rfl

inductive KeyCall where
  | find (key : Bytes)
  | findLast (start : Bytes)
  | next
  | previous
  | insert (key : Bytes)
  | delete (key : Bytes) (byPosition : Bool)

def KeyCall.call : KeyCall → Call
  | find key => .find key
  | findLast start => .findLast start
  | next => .next
  | previous => .previous
  | insert key => .insert key
  | delete key byPosition => .delete key byPosition

/-- Entries in order, and a place among them. -/
structure Catalog where
  entries : List Entry
  /-- The entries in front of the place. -/
  behind : List Entry
  /-- Those that follow it. -/
  ahead : List Entry
  state : KeyState
  /-- The entry at the place, if it is at one. -/
  on : Option Entry
  /-- The key that was last landed on or looked for. -/
  key : Option Bytes

namespace Rules

variable (r : Rules)

def less (exact : Bool) (target : Entry) (es : List Entry) : List Entry :=
  es.filter fun a => Entry.compare r.collation exact target a == .gt

def more (exact : Bool) (target : Entry) (es : List Entry) : List Entry :=
  es.filter fun a => Entry.compare r.collation exact target a == .lt

def hit (exact : Bool) (target : Entry) (es : List Entry) : Option Entry :=
  es.find? fun a => Entry.compare r.collation exact target a == .eq

def keyOf (raw : Bytes) (pad : UInt8) : Except Error Bytes :=
  Key.normalize raw r.keyLength pad r.truncate

end Rules

namespace Catalog

variable (r : Rules)

def empty : Catalog := ⟨[], [], [], .beforeFirst, none, none⟩

def land (e : Entry) (es : List Entry) : Catalog :=
  ⟨es, r.less true e es, r.more true e es, .onKey, some e, some e.key⟩

/-- Where a target would be. -/
def gap (exact : Bool) (target : Entry) (state : KeyState) (es : List Entry) : Catalog :=
  ⟨es, r.less exact target es, r.more exact target es, state, none, some target.key⟩

/-- A move has led here. The record position goes into the cell. -/
def moved (record : Nat) (c : Catalog) : Except Error Answer × Catalog × Nat :=
  (.ok (.state c.state), c, (c.on.map Entry.record).getD record)

variable (c : Catalog) (record : Nat)

def next : Catalog :=
  match c.ahead.head? with
  | some e => land r e c.entries
  | none => ⟨c.entries, c.entries, [], .afterLast, none, c.key⟩

def previous : Catalog :=
  match c.behind.getLast? with
  | some e => land r e c.entries
  | none => ⟨c.entries, [], c.entries, .beforeFirst, none, c.key⟩

/-- At the first entry of a key, or where the key would be. -/
def find (key : Bytes) : Catalog :=
  match r.hit false ⟨key, 0⟩ c.entries with
  | some e => land r e c.entries
  | none =>
    gap r false ⟨key, 0⟩
      (if r.less false ⟨key, 0⟩ c.entries = [] then .beforeFirst
        else if r.more false ⟨key, 0⟩ c.entries = [] then .afterLast
        else .between)
      c.entries

/-- At the last entry with a start, or next to the highest key that has it. -/
def findLast (padded : Bytes) (length : Nat) : Catalog :=
  match r.collation.lastOf padded length c.entries with
  | some e => land r e c.entries
  | none => gap r false ⟨padded, 0⟩ .between c.entries

theorem findLast_eq_land {padded : Bytes} {length : Nat} {e : Entry}
    (h : r.collation.lastOf padded length c.entries = some e) :
    c.findLast r padded length = land r e c.entries := by
  unfold findLast
  rw [h]

theorem findLast_eq_gap {padded : Bytes} {length : Nat}
    (h : r.collation.lastOf padded length c.entries = none) :
    c.findLast r padded length = gap r false ⟨padded, 0⟩ .between c.entries := by
  unfold findLast
  rw [h]

def insert (e : Entry) : InsertOutcome × Catalog :=
  if (r.hit true e c.entries).isSome then (.duplicateExact, c)
  else if !r.duplicates && (r.hit false e c.entries).isSome then (.duplicateKey, c)
  else (.inserted, land r e (r.less true e c.entries ++ e :: r.more true e c.entries))

/-- The first entry that is hit goes, and its record position into the cell. -/
def delete (target : Entry) (exact : Bool) : DeleteOutcome × Catalog × Nat :=
  match r.hit exact target c.entries with
  | some e =>
    (.deleted, gap r true e .between (r.less true e c.entries ++ r.more true e c.entries), e.record)
  | none => (.notFound, gap r exact target .between c.entries, record)

/-- What a call on keys answers, and makes of a catalog and of the record position in the cell. -/
def step : KeyCall → Except Error Answer × Catalog × Nat
  | .find key =>
    if key.isEmpty then (.ok (.state c.state), c, record)
    else
      match r.keyOf key blank with
      | .error e => (.error e, c, record)
      | .ok key => moved record (c.find r key)
  | .findLast start =>
    match r.keyOf start r.collation.highest with
    | .error e => (.error e, c, record)
    | .ok padded => moved record (c.findLast r padded (min start.length r.keyLength))
  | .next => moved record (c.next r)
  | .previous => moved record (c.previous r)
  | .insert key =>
    match r.keyOf key blank with
    | .error e => (.error e, c, record)
    | .ok key =>
      let (outcome, c) := c.insert r ⟨key, record⟩
      (.ok (.inserted outcome), c, record)
  | .delete key byPosition =>
    if key.isEmpty then
      match c.on with
      | some e =>
        let (outcome, c, record) := c.delete r record e true
        (.ok (.deleted outcome), c, record)
      | none => (.ok (.deleted .notFound), c, record)
    else
      match r.keyOf key blank with
      | .error e => (.error e, c, record)
      | .ok key =>
        let (outcome, c, record) :=
          c.delete r record ⟨key, if byPosition then record else 0⟩ byPosition
        (.ok (.deleted outcome), c, record)

end Catalog

def Cursor.catalog (t : Tree) (c : Cursor) (es : List Entry) : Catalog :=
  ⟨es, c.behind t es, c.ahead t es, c.state, if c.state = .onKey then c.current else none,
    c.current.map Entry.key⟩

/-! ## Moves -/

section Moves

variable {ix : Index} {p : Plan} {c c' : Cursor} {e : Entry} {es : List Entry} {record : Nat}

theorem Catalog.moved_catalog (t : Tree) (c : Cursor) (es : List Entry) (record : Nat) :
    Catalog.moved record (c.catalog t es) =
      (.ok (.state c.state), c.catalog t es, c.record?.getD record) := by
  unfold moved Cursor.catalog Cursor.record?
  split <;> rfl

/-- On an entry a cursor has the lesser ones behind it and the greater ones ahead. -/
theorem Cursor.catalog_land (hstate : c'.state = .onKey) (hcurrent : c'.current = some e) :
    c'.catalog ix.tree es = Catalog.land ix.rules e es := by
  simp only [catalog, behind, ahead, hstate, hcurrent, if_true]
  rfl

theorem Cursor.Moved.catalog_next
    (h : c.Moved ix.tree.layout c' (c.ahead ix.tree es).head? .afterLast) :
    c'.catalog ix.tree es = (c.catalog ix.tree es).next ix.rules := by
  unfold Catalog.next
  show _ = match (c.ahead ix.tree es).head? with
    | some e => _
    | none => _
  obtain ⟨hstate, hcurrent, -⟩ := h
  cases hhead : (c.ahead ix.tree es).head? with
  | some e =>
    rw [hhead] at hstate hcurrent
    exact catalog_land hstate hcurrent
  | none =>
    simp only [hhead, Option.isSome_none, Bool.false_eq_true, if_false,
      Option.none_or] at hstate hcurrent
    simp [catalog, behind, ahead, hstate, hcurrent]

theorem Cursor.Moved.catalog_previous
    (h : c.Moved ix.tree.layout c' (c.behind ix.tree es).getLast? .beforeFirst) :
    c'.catalog ix.tree es = (c.catalog ix.tree es).previous ix.rules := by
  unfold Catalog.previous
  show _ = match (c.behind ix.tree es).getLast? with
    | some e => _
    | none => _
  obtain ⟨hstate, hcurrent, -⟩ := h
  cases hlast : (c.behind ix.tree es).getLast? with
  | some e =>
    rw [hlast] at hstate hcurrent
    exact catalog_land hstate hcurrent
  | none =>
    simp only [hlast, Option.isSome_none, Bool.false_eq_true, if_false,
      Option.none_or] at hstate hcurrent
    simp [catalog, behind, ahead, hstate, hcurrent]

/-- Next to a target that is not hit, the record position that the cursor has kept is of no
account. -/
theorem compare_parked {t : Tree} {exact : Bool} {target a : Entry}
    (hmiss : Entry.compare t.collation exact target a ≠ .eq)
    (hrecord : exact = true → target.record = record) :
    Entry.compare t.collation true ⟨target.key, record⟩ a =
      Entry.compare t.collation exact target a := by
  cases exact with
  | true => rw [← hrecord rfl]
  | false =>
    rw [Entry.compare_loose] at hmiss ⊢
    rw [Entry.compare_eq_then]
    cases h : t.collation.compare target.key a.key with
    | eq => exact absurd h hmiss
    | lt | gt => rfl

theorem Cursor.catalog_gap {exact : Bool} {target : Entry}
    (hmiss : ∀ a ∈ es, Entry.compare ix.tree.collation exact target a ≠ .eq)
    (hrecord : exact = true → target.record = record) :
    (Cursor.park .between ⟨target.key, record⟩).catalog ix.tree es =
      Catalog.gap ix.rules exact target .between es := by
  have hbelow : ix.tree.below ⟨target.key, record⟩ es = ix.rules.less exact target es :=
    List.filter_congr fun a ha => by rw [compare_parked (hmiss a ha) hrecord]; rfl
  have habove : ix.tree.above ⟨target.key, record⟩ es = ix.rules.more exact target es :=
    List.filter_congr fun a ha => by rw [compare_parked (hmiss a ha) hrecord]; rfl
  simp [catalog, behind, ahead, park, Catalog.gap, hbelow, habove]

theorem Cursor.Sought.catalog {key : Bytes} (hasc : ix.tree.Ascending es)
    (h : c.Sought ix.tree key es c') :
    c'.catalog ix.tree es = (c.catalog ix.tree es).find ix.rules key := by
  unfold Catalog.find
  show _ = match ix.rules.hit false ⟨key, 0⟩ es with
    | some e => Catalog.land ix.rules e es
    | none => Catalog.gap ix.rules false ⟨key, 0⟩ _ es
  cases hhit : ix.rules.hit false ⟨key, 0⟩ es with
  | some e =>
    obtain ⟨heq, front, back, rfl, hfront⟩ := List.find?_eq_some_iff_append.mp hhit
    rw [beq_iff_eq, Entry.compare_loose] at heq
    have hstate := h.onKey.mpr ⟨e, by simp, heq⟩
    obtain ⟨e', he', hcurrent, heq', hleast⟩ := h.found hstate
    suffices e' = e from catalog_land hstate (this ▸ hcurrent)
    -- no other entry of the key is as early as the first one
    rcases List.mem_append.mp he' with hmem | hmem
    · have hno := hfront e' hmem
      rw [Entry.compare_loose] at hno
      exact absurd heq' (by simpa using hno)
    · rcases List.mem_cons.mp hmem with rfl | hmem
      · rfl
      · have hprecedes := List.rel_of_pairwise_cons (List.pairwise_append.mp hasc).2.1 hmem
        have hlt := (Tree.precedes_iff.mp hprecedes).1
        have hkeys : ix.tree.collation.compare e.key e'.key = .eq :=
          Std.TransCmp.eq_trans (Std.OrientedCmp.eq_symm heq) heq'
        rw [Entry.compare_eq_then, hkeys, if_pos rfl, Ordering.eq_then, Nat.compare_eq_lt] at hlt
        have hle := hleast e (by simp) heq
        omega
  | none =>
    have hmiss : ∀ a ∈ es, ix.tree.collation.compare key a.key ≠ .eq := by
      intro a ha heq
      have hno := List.find?_eq_none.mp hhit a ha
      rw [Entry.compare_loose] at hno
      exact hno (beq_iff_eq.mpr heq)
    have hstate : c'.state ≠ .onKey := fun hstate => by
      obtain ⟨a, ha, heq⟩ := h.onKey.mp hstate
      exact hmiss a ha heq
    obtain ⟨hahead, hbehind⟩ := h.sides hstate
    have hless : ix.rules.less false ⟨key, 0⟩ es = c'.behind ix.tree es := by
      rw [hbehind]
      exact List.filter_congr fun a _ => by rw [Entry.compare_loose]; rfl
    have hmore : ix.rules.more false ⟨key, 0⟩ es = c'.ahead ix.tree es := by
      rw [hahead]
      exact List.filter_congr fun a _ => by rw [Entry.compare_loose]; rfl
    have hcurrent := congrArg Cursor.current (h.missed hstate)
    have hplace : c'.state = if c'.behind ix.tree es = [] then .beforeFirst
        else if c'.ahead ix.tree es = [] then .afterLast else .between := by
      cases hplace : c'.state with
      | onKey => exact absurd hplace hstate
      | beforeFirst => simp [Cursor.behind, hplace]
      | afterLast => simp [Cursor.behind, Cursor.ahead, hplace, (h.afterLast.mp hplace).1]
      | between =>
        obtain ⟨-, ⟨a, ha, hgt⟩, b, hb, hlt⟩ := h.between.mp hplace
        rw [if_neg, if_neg]
        · rw [hahead]
          exact List.ne_nil_of_mem (List.mem_filter.mpr ⟨hb, by simp [hlt]⟩)
        · rw [hbehind]
          exact List.ne_nil_of_mem (List.mem_filter.mpr ⟨ha, by simp [hgt]⟩)
    simp only [Cursor.catalog, Catalog.gap, hless, hmore, ← hplace, hstate, if_false]
    rw [hcurrent]
    rfl

end Moves

/-! ## Changes -/

section Changes

variable {ix : Index} {p p' : Plan} {c : Cursor} {e target : Entry} {es : List Entry} {exact : Bool}

theorem Rules.isSome_hit : (ix.rules.hit exact target es).isSome = true ↔
    ∃ a ∈ es, ix.tree.Matches exact target a := by
  unfold hit
  rw [List.find?_isSome]
  simp only [beq_iff_eq, Tree.matches_iff]
  rfl

theorem Tree.Inserted.catalog {outcome : InsertOutcome} (h : ix.tree.Inserted e p outcome p') :
    (c.catalog ix.tree p.entries).insert ix.rules e = (outcome,
      (((Request.insert ix.tree e).cursor outcome).getD c).catalog ix.tree p'.entries) := by
  unfold Catalog.insert
  show (if (ix.rules.hit true e p.entries).isSome then _
    else if !ix.tree.duplicates && (ix.rules.hit false e p.entries).isSome then _
    else (InsertOutcome.inserted, Catalog.land ix.rules e
      (ix.tree.below e p.entries ++ e :: ix.tree.above e p.entries))) = _
  by_cases hexact : (ix.rules.hit true e p.entries).isSome
  · obtain rfl := h.duplicateExact.mpr (Rules.isSome_hit.mp hexact)
    rw [if_pos hexact, h.unchanged nofun]
    rfl
  · have hnone : ¬∃ a ∈ p.entries, ix.tree.Matches true e a := fun hex =>
      hexact (Rules.isSome_hit.mpr hex)
    rw [if_neg hexact]
    by_cases hkey : !ix.tree.duplicates && (ix.rules.hit false e p.entries).isSome
    · rw [if_pos hkey]
      rw [Bool.and_eq_true, Bool.not_eq_true'] at hkey
      obtain rfl := h.duplicateKey.mpr ⟨hnone, hkey.1, Rules.isSome_hit.mp hkey.2⟩
      rw [h.unchanged nofun]
      rfl
    · rw [if_neg hkey]
      have houtcome : outcome = .inserted := by
        cases outcome with
        | inserted => rfl
        | duplicateExact => exact absurd (h.duplicateExact.mp rfl) hnone
        | duplicateKey =>
          obtain ⟨-, hd, hex⟩ := h.duplicateKey.mp rfl
          exact absurd (by simp [hd, Rules.isSome_hit.mpr hex]) hkey
      subst houtcome
      obtain ⟨front, back, hentries, hentries', hless, hgreater⟩ := h.inserted rfl
      obtain ⟨hbelow, habove⟩ := Tree.sides_of_missed
        (fun a ha => Std.OrientedCmp.gt_of_lt (hless a ha)) hgreater
      rw [hentries, hbelow, habove, ← hentries']
      exact congrArg _ (Cursor.catalog_land rfl rfl).symm

theorem Tree.Deleted.catalog {found : Option Entry} {record : Nat}
    (hasc : ix.tree.Ascending p.entries) (h : ix.tree.Deleted target exact p found p') :
    (c.catalog ix.tree p.entries).delete ix.rules record target exact =
      (if found.isSome then .deleted else .notFound,
        (((Request.delete ix.tree target exact).cursor found).getD c).catalog ix.tree p'.entries,
        (found.map Entry.record).getD record) := by
  unfold Catalog.delete
  show (match ix.rules.hit exact target p.entries with
    | some e => (DeleteOutcome.deleted, Catalog.gap ix.rules true e .between
        (ix.tree.below e p.entries ++ ix.tree.above e p.entries), e.record)
    | none => (.notFound, Catalog.gap ix.rules exact target .between p.entries, record)) = _
  cases found with
  | none =>
    obtain ⟨rfl, hno⟩ := h
    have hnone : ix.rules.hit exact target p'.entries = none := by
      refine Option.not_isSome_iff_eq_none.mp fun hsome => ?_
      obtain ⟨a, ha, hmatches⟩ := Rules.isSome_hit.mp hsome
      exact hno a ha hmatches
    simp only [hnone]
    refine congrArg (fun x => (DeleteOutcome.notFound, x, record)) ?_
    refine (Cursor.catalog_gap (fun a ha heq => hno a ha (Tree.matches_iff.mpr heq)) ?_).symm
    rintro rfl
    rfl
  | some e =>
    obtain ⟨hmatches, -, -, front, back, hentries, hentries', hfront⟩ := h
    have hhit : ix.rules.hit exact target p.entries = some e := by
      refine List.find?_eq_some_iff_append.mpr ⟨?_, front, back, hentries, fun a ha => ?_⟩
      · exact beq_iff_eq.mpr (Tree.matches_iff.mp hmatches)
      · have hno := mt Tree.matches_iff.mpr (hfront a ha)
        simpa using hno
    rw [hentries] at hasc
    obtain ⟨hbelow, habove⟩ := Tree.sides_of_hit hasc Std.ReflCmp.compare_self
    simp only [hhit]
    rw [hentries, hbelow, habove, hentries']
    refine congrArg (fun x => (DeleteOutcome.deleted, x, e.record)) ?_
    refine (Cursor.catalog_gap (fun a ha heq => ?_) fun _ => rfl).symm
    -- the entry that went is less than those behind it, and greater than those in front
    obtain ⟨-, hback, hacross⟩ := List.pairwise_append.mp hasc
    rcases List.mem_append.mp ha with ha | ha
    · have hlt := (Tree.precedes_iff.mp (hacross a ha e List.mem_cons_self)).1
      cases heq.symm.trans (Std.OrientedCmp.gt_of_lt hlt)
    · cases heq.symm.trans (Tree.precedes_iff.mp (List.rel_of_pairwise_cons hback ha)).1

end Changes

/-! ## Calls -/

/-- A call has done to a file and its cursor what it does to their catalog. -/
structure Index.Mirrored (ix : Index) (p : Plan) (w : Workspace) (call : KeyCall)
    (r : Except Error Answer) (σ : Index × Workspace) : Prop where
  handle : σ.1 = { ix with cursor := σ.1.cursor }
  catalog : ∃ p', σ.1.AsPlanned p' σ.2 ∧
    (r, σ.1.cursor.catalog ix.tree p'.entries, σ.2.cell ix.cell) =
      (ix.cursor.catalog ix.tree p.entries).step ix.rules (w.cell ix.cell) call

namespace Index

section Calls

variable {ix : Index} {p : Plan} {w : Workspace} {call : KeyCall}

/-- A call that is decided without blocks. -/
theorem AsPlanned.decided_ends (h : ix.AsPlanned p w) {r : Except Error Answer}
    (hcourse : call.call.course ix (w.cell ix.cell) = .decided r)
    (hstep : (ix.cursor.catalog ix.tree p.entries).step ix.rules (w.cell ix.cell) call =
      (r, ix.cursor.catalog ix.tree p.entries, w.cell ix.cell)) :
    Ends call.call.run (ix, w) (ix.Mirrored p w call) := by
  refine Call.run_ends ?_
  simp only [hcourse, Course.Meets]
  exact ⟨rfl, p, h, hstep.symm⟩

/-- A move. -/
theorem AsPlanned.moving_ends (h : ix.AsPlanned p w) {program : Program Cursor} {P : Cursor → Prop}
    {place : Catalog} (hcourse : call.call.course ix (w.cell ix.cell) = .asks (.move program))
    (hgives : ∀ c : Board, p.Holds ix.tree.layout c → Program.Gives ix.tree.layout program c P)
    (haligned : ∀ c', P c' → c'.Aligned ix.tree.layout)
    (hplace : ∀ c', P c' → c'.catalog ix.tree p.entries = place)
    (hstep : (ix.cursor.catalog ix.tree p.entries).step ix.rules (w.cell ix.cell) call =
      Catalog.moved (w.cell ix.cell) place) :
    Ends call.call.run (ix, w) (ix.Mirrored p w call) := by
  refine (h.move_ends _ hcourse hgives haligned).mono ?_
  rintro r σ ⟨hhandle, hP, rfl, hrecord, hplanned⟩
  refine ⟨hhandle, p, hplanned, ?_⟩
  rw [hstep, ← hplace _ hP, Catalog.moved_catalog, hrecord]

/-- A call on a file as planned has made another plan of it, or it has failed and changed
nothing. -/
inductive Revised (ix : Index) (p : Plan) (w : Workspace) (q : Request) (P : q.α → Plan → Prop)
    (E : Error → Prop) : Except Error Answer → Index × Workspace → Prop
  | done {a : q.α} {p' : Plan} {w' : Workspace} (hmakes : P a p')
      (hcell : w'.cell ix.cell = (q.record a).getD (w.cell ix.cell))
      (hplanned : AsPlanned { ix with cursor := (q.cursor a).getD ix.cursor } p' w') :
      Revised ix p w q P E (.ok (q.answer a)) ({ ix with cursor := (q.cursor a).getD ix.cursor }, w')
  | failed {e : Error} {w' : Workspace} (herror : E e) (hcell : w'.cell ix.cell = w.cell ix.cell)
      (hplanned : ix.AsPlanned p w') : Revised ix p w q P E (.error e) (ix, w')

/-- A call makes of a file what its program makes of the plan. -/
theorem AsPlanned.revising_ends (h : ix.AsPlanned p w) {call : Call} {q : Request}
    {P : q.α → Plan → Prop}
    {E : Error → Prop} (hcourse : call.course ix (w.cell ix.cell) = .asks q)
    (hrevises : ix.tree.Revises p q.program P E)
    (haligned : ∀ a p', P a p' → ∀ c, q.cursor a = some c → c.Aligned ix.tree.layout) :
    Ends call.run (ix, w) (ix.Revised p w q P E) := by
  obtain ⟨v, hfinds, hp⟩ := h.keeps.finds
  obtain ⟨c, hc, hholds⟩ := hp.board
  have hfiled : ix.tree.Filed ix.mount p (w.below ix.cache) :=
    ⟨hp.workable, rfl, ⟨v, c, hfinds.blocksAs.reliableBlocksAs h.safe h.reliable, hc, hholds⟩,
      hp.ascending⟩
  refine Call.run_ends ?_
  simp only [hcourse, Course.Meets]
  refine Ends.mono (hfiled.transact_ends ix.mode.locked ix.mode.endMode hrevises) ?_
  rintro o s (⟨a, p', rfl, hfiled', hP⟩ | ⟨e, rfl, hfiled', hE⟩)
  · refine .done hP (Request.cell_after (o := .ok (a, .ok ())) hfinds.cell)
      (asPlanned_of_filed ?_ ?_ ?_ ?_)
    · exact (congrArg (ix.tree.Filed ix.mount p')
        (Request.below_after (o := .ok (a, .ok ())) hfinds.cache)).mpr hfiled'
    · simpa [Request.told, Workspace.withBelow, Workspace.setCell] using hfinds.cache
    · simpa [Request.told, Workspace.withBelow, Workspace.setCell] using hfinds.cell
    · show ((q.cursor a).getD ix.cursor).Aligned ix.tree.layout
      cases hcursor : q.cursor a with
      | none => exact h.keeps.cursor
      | some c' => exact haligned a p' hP c' hcursor
  · rw [Request.after_error]
    refine .failed hE rfl (asPlanned_of_filed ?_ ?_ hfinds.cell h.keeps.cursor)
    · rwa [Workspace.below_withBelow hfinds.cache]
    · simpa [Workspace.withBelow] using hfinds.cache

/-- A change. -/
theorem AsPlanned.update_ends (h : ix.AsPlanned p w) {q : Request} {P : q.α → Plan → Prop}
    {E : Error → Prop}
    (hcourse : call.call.course ix (w.cell ix.cell) = .asks q)
    (hrevises : ix.tree.Revises p q.program P E)
    (haligned : ∀ a c, q.cursor a = some c → c.Aligned ix.tree.layout)
    (hstep : ∀ a p', P a p' →
      (ix.cursor.catalog ix.tree p.entries).step ix.rules (w.cell ix.cell) call =
        (.ok (q.answer a), ((q.cursor a).getD ix.cursor).catalog ix.tree p'.entries,
          (q.record a).getD (w.cell ix.cell))) :
    Ends call.call.run (ix, w) fun r σ =>
      (∃ e, r = .error e ∧ E e ∧ σ.1 = ix) ∨ ix.Mirrored p w call r σ := by
  refine (h.revising_ends hcourse hrevises fun a _ _ => haligned a).mono ?_
  rintro r σ (⟨hP, hcell, hplanned⟩ | ⟨hE, -, -⟩)
  · refine .inr ⟨rfl, _, hplanned, ?_⟩
    rw [hstep _ _ hP, hcell]
  · exact .inl ⟨_, rfl, hE, rfl⟩

/-- A deletion. -/
theorem AsPlanned.deleting_ends (h : ix.AsPlanned p w) (hlevels : p.levels ≤ maxLevels + 1)
    {target : Entry}
    {exact : Bool}
    (hcourse : call.call.course ix (w.cell ix.cell) = .asks (.delete ix.tree target exact))
    (hstep : ∀ outcome place record,
      (ix.cursor.catalog ix.tree p.entries).delete ix.rules (w.cell ix.cell) target exact =
        (outcome, place, record) →
      (ix.cursor.catalog ix.tree p.entries).step ix.rules (w.cell ix.cell) call =
        (.ok (.deleted outcome), place, record)) :
    Ends call.call.run (ix, w) (ix.Mirrored p w call) := by
  obtain ⟨v, -, hp⟩ := h.keeps.finds
  refine (h.update_ends hcourse
    (Tree.revises_delete hp.workable hp.ascending hlevels target exact) ?_ ?_).mono ?_
  · intro a c hc
    cases hc
    exact Cursor.aligned_park _ _
  · intro a p' hdeleted
    exact hstep _ _ _ (hdeleted.catalog hp.ascending)
  · rintro r σ (⟨e, -, hE, -⟩ | h)
    · exact absurd hE id
    · exact h

theorem keyOf_eq_ok {raw key : Bytes} {pad : UInt8} (h : ix.keyOf raw pad = .ok key) :
    key = Bytes.resize raw ix.tree.layout.keyLength pad := by
  unfold keyOf Key.normalize at h
  split at h
  · cases h
  · exact (Except.ok.inj h).symm

/-- A move to a key. -/
theorem AsPlanned.find_ends (h : ix.AsPlanned p w) (hlevels : p.levels ≤ maxLevels + 1) (raw : Bytes) :
    Ends (KeyCall.find raw).call.run (ix, w) (ix.Mirrored p w (.find raw)) := by
  by_cases hempty : raw.isEmpty
  · refine h.decided_ends (r := .ok (.state ix.cursor.state)) ?_ ?_
    · simp only [KeyCall.call, Call.course, hempty, if_true]
    · simp only [Catalog.step, hempty, if_true]
      rfl
  · cases hkey : ix.keyOf raw blank with
    | error e =>
      have hkey' : ix.rules.keyOf raw blank = .error e := hkey
      refine h.decided_ends (r := .error e) ?_ ?_
      · simp only [KeyCall.call, Call.course, hempty, hkey]
        rfl
      · simp only [Catalog.step, hempty, hkey']
        rfl
    | ok key =>
      have hkey' : ix.rules.keyOf raw blank = .ok key := hkey
      refine @AsPlanned.moving_ends _ _ _ _ h (ix.tree.find ix.cursor key) _ _ ?_
        (fun c hc => Tree.gives_find hc hlevels h.ascending key) (fun c' hc' => hc'.aligned)
        (fun c' hc' => hc'.catalog h.ascending) ?_
      · simp only [KeyCall.call, Call.course, hempty, hkey]
        rfl
      · simp only [Catalog.step, hempty, hkey']
        rfl

/-- A move to the last entry with a start. -/
theorem AsPlanned.findLast_ends (h : ix.AsPlanned p w) (hlevels : p.levels ≤ maxLevels + 1)
    (start : Bytes) :
    Ends (KeyCall.findLast start).call.run (ix, w) (ix.Mirrored p w (.findLast start)) := by
  cases hkey : ix.keyOf start ix.tree.collation.highest with
  | error e =>
    have hkey' : ix.rules.keyOf start ix.rules.collation.highest = .error e := hkey
    refine h.decided_ends (r := .error e) ?_ ?_
    · simp only [KeyCall.call, Call.course, hkey]
      rfl
    · simp only [Catalog.step, hkey']
  | ok padded =>
    have hkey' : ix.rules.keyOf start ix.rules.collation.highest = .ok padded := hkey
    have hpadded := keyOf_eq_ok hkey
    have hlength : padded.length = ix.tree.layout.keyLength := hpadded ▸ Bytes.length_resize _ _ _
    have hpad : ∀ x ∈ padded.drop (min start.length ix.tree.layout.keyLength),
        ix.tree.collation.weight x = ix.tree.collation.weight ix.tree.collation.highest := by
      intro x hx
      rw [hpadded, Bytes.resize, Nat.min_comm, ← List.length_take, List.drop_left] at hx
      rw [List.eq_of_mem_replicate hx]
    have hkeys : ∀ a ∈ p.entries, a.key.length = padded.length := by
      obtain ⟨v, -, hp⟩ := h.keeps.finds
      obtain ⟨c, -, hholds⟩ := hp.board
      exact fun a ha => (hholds.storable a ha).1.trans hlength.symm
    refine @AsPlanned.moving_ends _ _ _ _ h
      (ix.tree.findLast padded (min start.length ix.tree.layout.keyLength)) _
      ((ix.cursor.catalog ix.tree p.entries).findLast ix.rules padded
        (min start.length ix.tree.layout.keyLength)) ?_
      (fun c hc => Tree.gives_findLast hc hlevels h.ascending hkeys (by omega) hpad) ?_ ?_ ?_
    · simp only [KeyCall.call, Call.course, hkey]
      rfl
    · intro c' hc'
      split at hc'
      · exact hc'.2.2
      · exact hc' ▸ Cursor.aligned_park _ _
    · intro c' hc'
      cases hlast : ix.tree.collation.lastOf padded (min start.length ix.tree.layout.keyLength)
        p.entries with
      | some e =>
        rw [hlast] at hc'
        exact (Cursor.catalog_land hc'.1 hc'.2.1).trans (Catalog.findLast_eq_land ix.rules
          (ix.cursor.catalog ix.tree p.entries) hlast).symm
      | none =>
        rw [hlast] at hc'
        rw [hc']
        refine Eq.trans ?_ (Catalog.findLast_eq_gap ix.rules
          (ix.cursor.catalog ix.tree p.entries) hlast).symm
        -- an entry of that key would have the start
        refine @Cursor.catalog_gap ix _ _ false ⟨padded, 0⟩ (fun a ha heq => ?_) (fun h => by cases h)
        rw [Entry.compare_loose] at heq
        have hstart := @Collation.starts_of_eq _ _ _ (min start.length ix.tree.layout.keyLength)
          (hkeys a ha) (Std.OrientedCmp.eq_symm heq)
        rw [Collation.lastOf_eq_none hlast ha] at hstart
        cases hstart
    · simp only [Catalog.step, hkey']
      rfl

/-- An insertion. -/
theorem AsPlanned.inserting_ends (h : ix.AsPlanned p w) (hlevels : p.levels ≤ maxLevels + 1)
    (hwritable : ix.mode.writable = true) {raw : Bytes}
    (hkeys : ∀ key, ix.keyOf raw blank = .ok key →
      key.head? ≠ some ix.tree.layout.endMark ∧ w.cell ix.cell ≤ ix.tree.layout.maxRecord) :
    Ends (KeyCall.insert raw).call.run (ix, w) fun r σ =>
      r = .error (.internal .sizeLimit) ∧ σ.1 = ix ∨ ix.Mirrored p w (.insert raw) r σ := by
  cases hkey : ix.keyOf raw blank with
  | error e =>
    have hkey' : ix.rules.keyOf raw blank = .error e := hkey
    refine (@AsPlanned.decided_ends _ _ _ (.insert raw) h (.error e) ?_ ?_).mono fun r σ => .inr
    · simp only [KeyCall.call, Call.course, Index.entryOf, hkey]
      simp only [Course.writing, hwritable, if_true]
      rfl
    · simp only [Catalog.step, hkey']
  | ok key =>
    have hkey' : ix.rules.keyOf raw blank = .ok key := hkey
    obtain ⟨hmark, hrecord⟩ := hkeys key hkey
    have hentry : ix.entryOf raw (w.cell ix.cell) = .ok ⟨key, w.cell ix.cell⟩ := by
      simp [Index.entryOf, hkey, hmark, Nat.not_lt.mpr hrecord, bind, Except.bind, pure, Except.pure]
    obtain ⟨v, -, hp⟩ := h.keeps.finds
    refine (@AsPlanned.update_ends _ _ _ (.insert raw) h (.insert ix.tree ⟨key, w.cell ix.cell⟩) _ _ ?_
      (Tree.revises_insert hp.workable hp.ascending hlevels (Index.storable_of_entryOf hentry))
      (fun a c => Request.aligned_of_insert) ?_).mono ?_
    · simp only [KeyCall.call, Call.course, hentry]
      simp only [Course.writing, hwritable, if_true]
      rfl
    · intro outcome p' hinserted
      have hcatalog := hinserted.catalog (c := ix.cursor)
      simp only [Catalog.step, hkey', hcatalog]
      rfl
    · rintro r σ (⟨e, rfl, ⟨rfl, -⟩, hsame⟩ | h)
      · exact .inl ⟨rfl, hsame⟩
      · exact .inr h

/-- A deletion of a key, or of the entry that the cursor is on. -/
theorem AsPlanned.removing_ends (h : ix.AsPlanned p w) (hlevels : p.levels ≤ maxLevels + 1)
    (hwritable : ix.mode.writable = true) (raw : Bytes) (byPosition : Bool) :
    Ends (KeyCall.delete raw byPosition).call.run (ix, w)
      (ix.Mirrored p w (.delete raw byPosition)) := by
  by_cases hempty : raw.isEmpty
  · cases hon : (ix.cursor.catalog ix.tree p.entries).on with
    | none =>
      refine h.decided_ends (r := .ok (.deleted .notFound)) ?_ ?_
      · simp only [KeyCall.call, Call.course, Course.writing, hwritable, hempty, if_true]
        split
        · next hstate hcurrent => simp [Cursor.catalog, hstate, hcurrent] at hon
        · rfl
      · simp only [Catalog.step, hempty, if_true, hon]
    | some e =>
      have hcursor : ix.cursor.state = .onKey ∧ ix.cursor.current = some e := by
        simpa [Cursor.catalog] using hon
      refine @AsPlanned.deleting_ends _ _ _ _ h hlevels e true ?_ fun outcome place record hdelete => ?_
      · simp only [KeyCall.call, Call.course, Course.writing, hwritable, hempty, if_true, hcursor]
      · simp only [Catalog.step, hempty, if_true, hon, hdelete]
  · cases hkey : ix.keyOf raw blank with
    | error e =>
      have hkey' : ix.rules.keyOf raw blank = .error e := hkey
      refine h.decided_ends (r := .error e) ?_ ?_
      · simp only [KeyCall.call, Call.course, Course.writing, hwritable, hempty, hkey]
        rfl
      · simp only [Catalog.step, hempty, hkey']
        rfl
    | ok key =>
      have hkey' : ix.rules.keyOf raw blank = .ok key := hkey
      refine @AsPlanned.deleting_ends _ _ _ _ h hlevels
        ⟨key, if byPosition then w.cell ix.cell else 0⟩ byPosition ?_
        fun outcome place record hdelete => ?_
      · simp only [KeyCall.call, Call.course, Course.writing, hwritable, hempty, hkey]
        rfl
      · simp only [Catalog.step, hempty, hkey', hdelete]
        rfl

/-- A call on a file as planned does what it does to the catalog, unless the file cannot grow. -/
theorem AsPlanned.step (h : ix.AsPlanned p w) (hlevels : p.levels ≤ maxLevels + 1)
    (hwritable : ix.mode.writable = true) (call : KeyCall)
    (hinsert : ∀ raw key, call = .insert raw → ix.keyOf raw blank = .ok key →
      key.head? ≠ some ix.tree.layout.endMark ∧ w.cell ix.cell ≤ ix.tree.layout.maxRecord) :
    Ends call.call.run (ix, w) fun r σ =>
      r = .error (.internal .sizeLimit) ∧ σ.1 = ix ∨ ix.Mirrored p w call r σ := by
  have hasc := h.ascending
  cases call with
  | next =>
    exact (h.moving_ends rfl (fun c hc => Tree.gives_next hc hlevels hasc h.keeps.cursor)
      (fun c' hc' => hc'.aligned) (fun c' hc' => hc'.catalog_next) rfl).mono fun r σ => .inr
  | previous =>
    exact (h.moving_ends rfl (fun c hc => Tree.gives_previous hc hlevels hasc h.keeps.cursor)
      (fun c' hc' => hc'.aligned) (fun c' hc' => hc'.catalog_previous) rfl).mono fun r σ => .inr
  | find raw => exact (h.find_ends hlevels raw).mono fun r σ => .inr
  | findLast start => exact (h.findLast_ends hlevels start).mono fun r σ => .inr
  | insert raw => exact h.inserting_ends hlevels hwritable fun key => hinsert raw key rfl
  | delete raw byPosition =>
    exact (h.removing_ends hlevels hwritable raw byPosition).mono fun r σ => .inr

end Calls

end Index

end PagedIndex
