import PagedIndex.Proofs.Index.Catalog
import PagedIndex.Proofs.Index.Opening

/-!
# Files of any format

What is told of calls on keys does not depend on the format of a file, nor on its block size: it is
what their catalog tells, as long as the file can grow and its tree can be searched, and what is
inserted can be written in both formats.

## Main definitions

* `KeyTurn`, `Glance` — a call on keys, and what a caller sees of it.
* `Catalog.run` — what is told of calls on a catalog.
* `Index.shallow`, `within` — files that stay below their limits.

## Main statements

* `Index.AsPlanned.glances_eq_run` — calls on a file as planned tell what its catalog tells.
* `Index.formats_agree` — two new files of any formats and block sizes tell the same.
-/

namespace PagedIndex

/-! ## Levels -/

namespace Index

/-- Whether the way down the first children from a block comes to a leaf after so many branches. -/
def reachesLeaf (ix : Index) (s : Buffered) : Nat → BlockPos → Bool
  | levels, pos =>
    match (ix.mount.content s pos).map (Node.decode ix.tree.layout pos) with
    | some (.ok (.leaf _)) => true
    | some (.ok (.branch b)) =>
      match levels with
      | 0 => false
      | levels + 1 => reachesLeaf ix s levels b.first
    | _ => false

/-- Whether a tree has no more levels than a search goes through. -/
def shallow (ix : Index) (w : Workspace) : Bool :=
  let root := (ix.mount.pointers ix.tree.layout.format (w.below ix.cache)).root
  root.isNull || ix.reachesLeaf (w.below ix.cache) maxLevels root

variable {ix : Index} {p : Plan} {w : Workspace} {v : View} {c : Board}

/-- All leaves of a subtree are as deep as the first one. -/
theorem depth_le_of_reachesLeaf {s : Buffered} (hc : c.Shown ix.tree.layout v)
    (hblocks : ∀ pos x, v.blocks pos = some x → ix.mount.content s pos = some x) {depth : Nat}
      {x : Subtree}
    (hx : x.OnBoard ix.tree.layout c.cells depth) {levels : Nat}
    (h : ix.reachesLeaf s levels x.pos = true) : depth ≤ levels := by
  have hnode : ∀ {y : Subtree} {d}, y.OnBoard ix.tree.layout c.cells d →
      (ix.mount.content s y.pos).map (Node.decode ix.tree.layout y.pos) = some (.ok y.node) := by
    intro y d hy
    obtain ⟨image, himage, -, hshown⟩ := hc.held _ _ hy.cell
    rw [hblocks _ _ himage]
    exact congrArg some hshown
  induction levels generalizing depth x with
  | zero =>
    cases hx with
    | leaf => exact Nat.le_refl 0
    | branch hcell hfits hchildren hfull =>
      have hx := Subtree.OnBoard.branch hcell hfits hchildren hfull
      unfold reachesLeaf at h
      rw [hnode hx] at h
      cases h
  | succ levels ih =>
    cases hx with
    | leaf => exact Nat.zero_le _
    | branch hcell hfits hchildren hfull =>
      have hx := Subtree.OnBoard.branch hcell hfits hchildren hfull
      unfold reachesLeaf at h
      rw [hnode hx] at h
      exact Nat.succ_le_succ (ih (hchildren _ List.mem_cons_self) h)

theorem AsPlanned.levels_le (h : ix.AsPlanned p w) (hshallow : ix.shallow w = true) :
    p.levels ≤ maxLevels + 1 := by
  obtain ⟨v, hfinds, hp⟩ := h.keeps.finds
  obtain ⟨c, hc, hholds⟩ := hp.board
  have hroot : (ix.mount.pointers ix.tree.layout.format (w.below ix.cache)).root = c.pointers.root := by
    rw [hfinds.blocksAs.pointers_eq, hc.pointers]
  unfold shallow at hshallow
  rw [hroot] at hshallow
  have htree := hholds.tree
  split at htree
  · omega
  · next x _ =>
    obtain ⟨depth, hlevels, hx, -, hpos⟩ := htree
    have hnull := BlockPos.isNull_eq_false (hc.ne_null hx.cell)
    rw [hpos] at hshallow
    dsimp only at hshallow
    rw [hnull, Bool.false_or] at hshallow
    have hdepth := depth_le_of_reachesLeaf hc
      (fun pos x hx => (hfinds.blocksAs.blocks pos x hx).2.2) hx hshallow
    omega

end Index

/-! ## What both formats can write -/

/-- The largest record position that both formats can write. -/
def maxPortable : Nat := 999999999

theorem maxPortable_le (f : Format) : maxPortable ≤ f.maxPosition := by cases f <;> decide

/-- Whether a call inserts no key that begins like the end of a block. -/
def KeyCall.portable : KeyCall → Bool
  | insert key => key.head? != some endOfRecord && key.head? != some filler
  | _ => true

/-- A call on keys. A record position may be put into its cell first. -/
structure KeyTurn where
  record : Option Nat
  call : KeyCall

/-- What a caller sees of a call. -/
structure Glance where
  result : Except Error Answer
  state : KeyState
  key : Option Bytes
  record : Nat

def Reply.glance (reply : Reply) : Glance :=
  ⟨reply.result, reply.cursor.state, reply.cursor.current.map Entry.key, reply.record⟩

namespace KeyTurn

def turn (t : KeyTurn) : Turn Unit := ⟨(), t.record, t.call.call⟩

/-- Whether both formats can write what is inserted. -/
def portable (t : KeyTurn) : Bool := t.call.portable && t.record.all (decide <| · ≤ maxPortable)

end KeyTurn

/-- A key that does not begin like the end of a block does not when it has been padded. -/
theorem Index.head?_keyOf {ix : Index} {raw key : Bytes} (hlength : 1 ≤ ix.tree.layout.keyLength)
    (hraw : (KeyCall.insert raw).portable = true) (h : ix.keyOf raw blank = .ok key) :
    key.head? ≠ some ix.tree.layout.endMark := by
  simp only [KeyCall.portable, Bool.and_eq_true, bne_iff_ne] at hraw
  have hhead : key.head? = some (raw.head?.getD blank) := by
    obtain ⟨n, hn⟩ := Nat.exists_eq_add_of_le' hlength
    rw [keyOf_eq_ok h, hn, Bytes.resize]
    cases raw <;> simp [List.replicate_succ]
  rw [hhead]
  unfold Layout.endMark Format.endMark
  cases raw with
  | nil => split <;> decide
  | cons b raw =>
    split
    · exact hraw.2
    · exact hraw.1

namespace Catalog

variable {r : Rules} {c : Catalog} {record : Nat} {e target : Entry} {es : List Entry} {exact : Bool}

/-- A catalog of record positions that both formats can write. -/
structure Bounded (c : Catalog) : Prop where
  entries : ∀ e ∈ c.entries, e.record ≤ maxPortable
  behind : ∀ e ∈ c.behind, e ∈ c.entries
  ahead : ∀ e ∈ c.ahead, e ∈ c.entries
  on : ∀ e, c.on = some e → e ∈ c.entries

theorem bounded_land (h : ∀ e ∈ es, e.record ≤ maxPortable) (he : e ∈ es) : (land r e es).Bounded :=
  ⟨h, fun _ => List.mem_of_mem_filter, fun _ => List.mem_of_mem_filter,
    fun _ hon => Option.some.inj hon ▸ he⟩

theorem bounded_gap {state : KeyState} (h : ∀ e ∈ es, e.record ≤ maxPortable) :
    (gap r exact target state es).Bounded :=
  ⟨h, fun _ => List.mem_of_mem_filter, fun _ => List.mem_of_mem_filter, nofun⟩

theorem Bounded.moved (h : c.Bounded) (hrecord : record ≤ maxPortable) :
    (moved record c).2.1.Bounded ∧ (moved record c).2.2 ≤ maxPortable := by
  refine ⟨h, ?_⟩
  show (c.on.map Entry.record).getD record ≤ maxPortable
  cases hon : c.on with
  | none => exact hrecord
  | some e => exact h.entries e (h.on e hon)

theorem Bounded.next (h : c.Bounded) : (c.next r).Bounded := by
  unfold Catalog.next
  split
  · next e he => exact bounded_land h.entries (h.ahead e (List.mem_of_mem_head? he))
  · exact ⟨h.entries, fun _ => id, nofun, nofun⟩

theorem Bounded.previous (h : c.Bounded) : (c.previous r).Bounded := by
  unfold Catalog.previous
  split
  · next e he => exact bounded_land h.entries (h.behind e (List.mem_of_getLast? he))
  · exact ⟨h.entries, nofun, fun _ => id, nofun⟩

theorem Bounded.find (h : c.Bounded) (key : Bytes) : (c.find r key).Bounded := by
  unfold Catalog.find
  split
  · next e he => exact bounded_land h.entries (List.mem_of_find?_eq_some he)
  · exact bounded_gap h.entries

theorem mem_of_lastOf {padded : Bytes} {length : Nat} {coll : Collation}
    (h : coll.lastOf padded length es = some e) : e ∈ es := by
  unfold Collation.lastOf at h
  have hlast : ∀ p : Entry → Bool, (es.filter p).getLast? = some e → e ∈ es := fun p he =>
    List.mem_of_mem_filter (List.mem_of_getLast? he)
  split at h
  · exact hlast _ h
  · rcases Option.or_eq_some_iff.mp h with h | ⟨-, h⟩
    · exact List.mem_of_find?_eq_some h
    · exact hlast _ h

theorem Bounded.findLast (h : c.Bounded) (padded : Bytes) (length : Nat) :
    (c.findLast r padded length).Bounded := by
  unfold Catalog.findLast
  split
  · next e he => exact bounded_land h.entries (mem_of_lastOf he)
  · exact bounded_gap h.entries

theorem Bounded.insert (h : c.Bounded) (he : e.record ≤ maxPortable) : (c.insert r e).2.Bounded := by
  unfold Catalog.insert
  split
  · exact h
  · split
    · exact h
    · refine bounded_land (fun a ha => ?_) (by simp)
      rcases List.mem_append.mp ha with ha | ha
      · exact h.entries a (List.mem_of_mem_filter ha)
      · rcases List.mem_cons.mp ha with rfl | ha
        · exact he
        · exact h.entries a (List.mem_of_mem_filter ha)

theorem Bounded.delete (h : c.Bounded) (hrecord : record ≤ maxPortable) :
    (c.delete r record target exact).2.1.Bounded ∧
      (c.delete r record target exact).2.2 ≤ maxPortable := by
  unfold Catalog.delete
  split
  · next e he =>
    refine ⟨bounded_gap fun a ha => h.entries a ?_, h.entries e (List.mem_of_find?_eq_some he)⟩
    rcases List.mem_append.mp ha with ha | ha <;> exact List.mem_of_mem_filter ha
  · exact ⟨bounded_gap h.entries, hrecord⟩

/-- Calls bring nothing into a catalog but the record position in the cell. -/
theorem Bounded.step (h : c.Bounded) (hrecord : record ≤ maxPortable) (call : KeyCall) :
    (c.step r record call).2.1.Bounded ∧ (c.step r record call).2.2 ≤ maxPortable := by
  unfold Catalog.step
  cases call with
  | next => exact h.next.moved hrecord
  | previous => exact h.previous.moved hrecord
  | find raw =>
    dsimp only
    split
    · exact ⟨h, hrecord⟩
    · split
      · exact ⟨h, hrecord⟩
      · exact (h.find _).moved hrecord
  | findLast start =>
    dsimp only
    split
    · exact ⟨h, hrecord⟩
    · exact (h.findLast _ _).moved hrecord
  | insert raw =>
    dsimp only
    split
    · exact ⟨h, hrecord⟩
    · exact ⟨h.insert hrecord, hrecord⟩
  | delete raw byPosition =>
    dsimp only
    split
    · split
      · exact h.delete hrecord
      · exact ⟨h, hrecord⟩
    · split
      · exact ⟨h, hrecord⟩
      · exact h.delete hrecord

def run (r : Rules) : List KeyTurn → Catalog → Nat → List Glance
  | [], _, _ => []
  | turn :: rest, c, record =>
    let (result, c, record) := c.step r (turn.record.getD record) turn.call
    ⟨result, c.state, c.key, record⟩ :: run r rest c record

end Catalog

/-! ## Calls on files -/

/-- Whether a call failed because the file cannot grow. -/
def Reply.full (reply : Reply) : Bool := reply.result matches .error (.internal .sizeLimit)

section Within

variable {ι : Type} [DecidableEq ι]

/-- Whether calls find their file below its limits: the tree can be searched, and the file can
grow. -/
def within : List (Turn ι) → (ι → Index) → Workspace → Bool
  | [], _, _ => true
  | turn :: rest, handles, w =>
    (handles turn.handle).shallow w && !(turn.play handles w).1.full &&
      within rest (turn.play handles w).2.1 (turn.play handles w).2.2

end Within

namespace Index

variable {ix : Index} {p : Plan} {w w' : Workspace}

/-- A handle on a file as planned all of whose record positions both formats can write. -/
structure Portable (ix : Index) (p : Plan) (w : Workspace) : Prop where
  asPlanned : ix.AsPlanned p w
  writable : ix.mode.writable = true
  bounded : (ix.cursor.catalog ix.tree p.entries).Bounded
  record : w.cell ix.cell ≤ maxPortable

/-- In one turn that is told which the catalog tells. -/
theorem Portable.turn (h : ix.Portable p w) {turn : KeyTurn} (hturn : turn.portable = true)
    (hshallow : ix.shallow w = true)
    (hfull : (turn.turn.play (fun _ => ix) w).1.full = false) :
    ∃ reply c w' p', turn.turn.play (fun _ => ix) w = (reply, fun _ => { ix with cursor := c }, w') ∧
      ({ ix with cursor := c } : Index).Portable p' w' ∧ reply.cursor = c ∧
      reply.record = w'.cell ix.cell ∧
      (reply.result, c.catalog ix.tree p'.entries, w'.cell ix.cell) =
        (ix.cursor.catalog ix.tree p.entries).step ix.rules
          (turn.record.getD (w.cell ix.cell)) turn.call := by
  obtain ⟨v, hfinds, hp⟩ := h.asPlanned.keeps.finds
  obtain ⟨hcall, hput⟩ := Bool.and_eq_true_iff.mp hturn
  have hrecord : turn.record.getD (w.cell ix.cell) ≤ maxPortable := by
    cases hput' : turn.record with
    | none => exact h.record
    | some record =>
      rw [hput'] at hput
      exact of_decide_eq_true hput
  have hcell : (w.setCell ix.cell (turn.record.getD (w.cell ix.cell))).cell ix.cell =
      turn.record.getD (w.cell ix.cell) := Workspace.cell_setCell hfinds.cell
  have hplanned := h.asPlanned.setCell ix.cell (turn.record.getD (w.cell ix.cell))
  have hends := hplanned.step (hplanned.levels_le hshallow) h.writable turn.call fun raw key hinsert
    hkey =>
    ⟨head?_keyOf hp.workable.roomy.1 (hinsert ▸ hcall) hkey, by
      rw [hcell]
      exact Nat.le_trans hrecord (maxPortable_le _)⟩
  obtain ⟨r, c, w', hP, hplay⟩ := Turn.play_ends turn.turn (fun _ => ix) w
    (P := fun r c w' => r = .error (.internal .sizeLimit) ∨
      ∃ p', ({ ix with cursor := c } : Index).AsPlanned p' w' ∧
        (r, c.catalog ix.tree p'.entries, w'.cell ix.cell) =
          (ix.cursor.catalog ix.tree p.entries).step ix.rules
            (turn.record.getD (w.cell ix.cell)) turn.call) (by
    refine hends.mono fun r σ hσ => ?_
    rcases hσ with ⟨rfl, hsame⟩ | ⟨hhandle, p', hplanned', hstep⟩
    · exact ⟨hsame ▸ rfl, .inl rfl⟩
    · refine ⟨hhandle, .inr ⟨p', hhandle ▸ hplanned', ?_⟩⟩
      rw [hcell] at hstep
      exact hstep)
  have hhandles : (fun j => { (fun _ : Unit => ix) j with
      cursor := if j = turn.turn.handle then c else ((fun _ : Unit => ix) j).cursor }) =
      fun _ => { ix with cursor := c } := funext fun j => by simp
  rw [hhandles] at hplay
  rcases hP with rfl | ⟨p', hplanned', hstep⟩
  · rw [hplay] at hfull
    cases hfull
  · have hbounded := h.bounded.step hrecord turn.call (r := ix.rules)
    rw [← hstep] at hbounded
    exact ⟨_, c, w', p', hplay, ⟨hplanned', h.writable, hbounded.1, hbounded.2⟩, rfl, rfl, hstep⟩

/-- Calls on a file as planned tell what its catalog tells. -/
theorem Portable.glances_eq_run (h : ix.Portable p w) {turns : List KeyTurn}
    (hturns : turns.all KeyTurn.portable = true)
    (hwithin : within (turns.map KeyTurn.turn) (fun _ => ix) w = true) :
    (plays (turns.map KeyTurn.turn) (fun _ => ix) w).1.map Reply.glance =
      Catalog.run ix.rules turns (ix.cursor.catalog ix.tree p.entries) (w.cell ix.cell) := by
  induction turns generalizing ix p w with
  | nil => rfl
  | cons turn rest ih =>
    simp only [List.all_cons, Bool.and_eq_true, List.map_cons, within,
      Bool.not_eq_true'] at hturns hwithin
    obtain ⟨reply, c, w', p', hplay, h', hcursor, hrecord, hstep⟩ :=
      h.turn hturns.1 hwithin.1.1 hwithin.1.2
    rw [hplay] at hwithin
    simp only [List.map_cons, plays, hplay, Catalog.run, ← hstep]
    refine congrArg₂ List.cons ?_ (ih h' hturns.2 hwithin.2)
    unfold Reply.glance
    rw [hcursor, hrecord]
    rfl

end Index

/-! ## New files -/

/-- How a new file treats keys. -/
def OpenOptions.rules (options : OpenOptions) : Rules :=
  ⟨options.keyLength, options.truncate, options.collation, options.duplicates == .allow⟩

theorem OpenOptions.keyLength_eq_of_admits {options : OpenOptions} {h : Header}
    (hadmits : options.admits h = .ok ()) (hne : options.keyLength ≠ 0) :
    h.keyLength = options.keyLength := by
  unfold admits at hadmits
  obtain ⟨hkeyLength, -⟩ := Header.of_check_eq_ok hadmits
  simp only [Bool.and_eq_true, decide_eq_true_eq, not_and, ne_eq, not_not] at hkeyLength
  exact (hkeyLength hne).symm

theorem Header.keyLength_ne_zero {h : Header} {image : Bytes} (hencode : h.encode = .ok image) :
    h.keyLength ≠ 0 := by
  unfold encode at hencode
  obtain ⟨hkeyLength, -⟩ := of_check_eq_ok hencode
  simp only [Bool.or_eq_true, decide_eq_true_eq, not_or] at hkeyLength
  exact hkeyLength.1

section New

variable {store : Store} {options : OpenOptions} {cell : Nat} {w w' : Workspace} {ix : Index}

/-- A new file treats keys as asked for. -/
theorem Index.Opened.rules_eq (h : Opened store options cell w ix w')
    (hcreate : options.mode = .create) : ix.rules = options.rules := by
  obtain ⟨d, -, hheaded, -, hparse, -⟩ := h.disk
  obtain ⟨header, image, hnew, hencode, hwritten⟩ := (hheaded hcreate).image
  obtain ⟨hkeyLength, hduplicates⟩ := OpenOptions.newHeader_eq hnew
  have hne : options.keyLength ≠ 0 := hkeyLength ▸ Header.keyLength_ne_zero hencode
  rw [hwritten] at hparse
  have hread := (fronts_of_write hencode).duplicates_eq hparse
  unfold rules OpenOptions.rules
  rw [h.tree, h.truncate]
  simp only [Header.layout, OpenOptions.keyLength_eq_of_admits h.admits hne, hread, hduplicates,
    Bool.or_self]

/-- A new file has an empty catalog. -/
theorem Index.Opened.portable (h : Opened store options cell w ix w')
    (hcreate : options.mode = .create) (hplanned : ix.AsPlanned ⟨0, none, [], []⟩ w')
    (hrecord : w.cell cell ≤ maxPortable) :
    ix.Portable ⟨0, none, [], []⟩ w' ∧ w'.cell ix.cell = w.cell cell := by
  have hcell : w'.cell ix.cell = w.cell cell := by
    obtain ⟨d, -, -, -, -, rfl⟩ := h.disk
    rw [h.cell]
    rfl
  refine ⟨⟨hplanned, by rw [h.mode, hcreate]; rfl, ?_, hcell ▸ hrecord⟩, hcell⟩
  rw [h.cursor]
  exact ⟨nofun, nofun, nofun, nofun⟩

/-- What is told of calls on a new file is what its rules tell. -/
theorem Index.glances_of_create (hcreate : options.mode = .create)
    (hw : w.Accepts store (options.cache.getD Workspace.commonCache) cell)
    (hopen : openStore store options cell w = .ok ix w') (hrecord : w.cell cell ≤ maxPortable)
    {turns : List KeyTurn} (hturns : turns.all KeyTurn.portable = true)
    (hwithin : within (turns.map KeyTurn.turn) (fun _ => ix) w' = true) :
    (plays (turns.map KeyTurn.turn) (fun _ => ix) w').1.map Reply.glance =
      Catalog.run options.rules turns .empty (w.cell cell) := by
  have hopened := ((openStore_ends fun _ => hw.volume).of_ok hopen).2 ix rfl
  have hplanned := (asPlanned_of_create hcreate hw).of_ok hopen ix rfl
  obtain ⟨hportable, hcell⟩ := hopened.portable hcreate hplanned hrecord
  rw [hportable.glances_eq_run hturns hwithin, hopened.rules_eq hcreate, hcell, hopened.cursor]
  rfl

/-- Two new files that treat keys alike tell the same of the same calls, whatever their formats and
their block sizes are, and whatever stores and caches they are kept in. -/
theorem Index.formats_agree {store' : Store} {options' : OpenOptions} {cell' : Nat}
    {v v' : Workspace} {other : Index} (hcreate : options.mode = .create)
    (hcreate' : options'.mode = .create) (hrules : options.rules = options'.rules)
    (hw : w.Accepts store (options.cache.getD Workspace.commonCache) cell)
    (hv : v.Accepts store' (options'.cache.getD Workspace.commonCache) cell')
    (hopen : openStore store options cell w = .ok ix w')
    (hopen' : openStore store' options' cell' v = .ok other v')
    (hcells : w.cell cell = v.cell cell') (hrecord : w.cell cell ≤ 999999999)
    {turns : List KeyTurn} (hturns : turns.all KeyTurn.portable = true)
    (hwithin : within (turns.map KeyTurn.turn) (fun _ => ix) w' = true)
    (hwithin' : within (turns.map KeyTurn.turn) (fun _ => other) v' = true) :
    (plays (turns.map KeyTurn.turn) (fun _ => ix) w').1.map Reply.glance =
      (plays (turns.map KeyTurn.turn) (fun _ => other) v').1.map Reply.glance := by
  rw [glances_of_create hcreate hw hopen hrecord hturns hwithin,
    glances_of_create hcreate' hv hopen' (hcells ▸ hrecord) hturns hwithin', hrules, hcells]

def smallOptions (format : Format) (blockSize : Nat) : OpenOptions :=
  { mode := .create, keyLength := 1, duplicates := .allow, format := format, blockSize := blockSize }

/-- Two entries of one key, a key that is not there, and the way back. -/
def smallTurns : List KeyTurn :=
  [⟨none, .insert [0x41]⟩, ⟨some 3, .insert [0x41]⟩, ⟨none, .find [0x42]⟩, ⟨none, .previous⟩,
    ⟨none, .delete [] false⟩, ⟨none, .next⟩, ⟨none, .findLast [0x41]⟩]

/-- A legacy and a modern file of different block sizes. -/
theorem Index.formats_agree_small : ∃ ix w' other v',
    openStore (.ofMemory 0 none) (smallOptions .legacy 512) 0 (smallWorkspace fun _ _ => none) =
      .ok ix w' ∧
    openStore (.ofMemory 0 none) (smallOptions .modern 1024) 0 (smallWorkspace fun _ _ => none) =
      .ok other v' ∧
    (plays (smallTurns.map KeyTurn.turn) (fun _ => ix) w').1.map Reply.glance =
      (plays (smallTurns.map KeyTurn.turn) (fun _ => other) v').1.map Reply.glance := by
  have hlegacy : opens (smallOptions .legacy 512) (smallWorkspace fun _ _ => none)
      (fun ix w => within (smallTurns.map KeyTurn.turn) (fun _ => ix) w) = true := by decide +kernel
  have hmodern : opens (smallOptions .modern 1024) (smallWorkspace fun _ _ => none)
      (fun ix w => within (smallTurns.map KeyTurn.turn) (fun _ => ix) w) = true := by decide +kernel
  have haccepts := accepts_small
  have hrecord : (smallWorkspace fun _ _ => none).cell 0 ≤ 999999999 := by decide
  generalize smallWorkspace (fun _ _ => none) = w at *
  obtain ⟨ix, w', hopen, hwithin⟩ := exists_of_opens hlegacy
  obtain ⟨other, v', hopen', hwithin'⟩ := exists_of_opens hmodern
  have hportable : smallTurns.all KeyTurn.portable = true := by decide +kernel
  exact ⟨ix, w', other, v', hopen, hopen', @formats_agree _ (smallOptions .legacy 512) _ _ _ _ _
    (smallOptions .modern 1024) _ _ _ _ rfl rfl rfl haccepts haccepts hopen hopen'
    (Eq.refl (w.cell 0)) hrecord _ hportable hwithin hwithin'⟩

end New

end PagedIndex
