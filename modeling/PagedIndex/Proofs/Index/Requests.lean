import PagedIndex.Index.Reading
import PagedIndex.Index.Updates
import PagedIndex.Proofs.Tree.Calls

/-!
# What calls ask for

A call on an open file is decided by checks that touch no block, or it asks for one program on the
blocks. What the program ends with goes into the cursor and the record cell. So all that calls do to
files is told for requests, whatever the call.

## Main definitions

* `Call`, `Answer`, `Call.run` — the calls on an open file.
* `Request`, `Call.course` — what a call asks for.
* `Plan.Popped`, `Plan.Pushed` — what becomes of the record positions of a plan.

## Main statements

* `Call.run_ends` — a call does what its request says.
-/

namespace PagedIndex

inductive Call where
  | find (key : Bytes)
  | findLast (start : Bytes)
  | next
  | previous
  | insert (key : Bytes)
  | delete (key : Bytes) (byPosition : Bool)
  | reserve
  | release
  | stats
  | verify
  | outline
  deriving DecidableEq

inductive Answer where
  | state (s : KeyState)
  | inserted (o : InsertOutcome)
  | deleted (o : DeleteOutcome)
  | reserved (o : ReserveOutcome)
  | released (o : ReleaseOutcome)
  | counted (s : IndexStats)
  | shaped (o : Option Outline)

namespace Call

def run : Call → IndexM Answer
  | find key => return .state (← Index.find key)
  | findLast start => return .state (← Index.findLast start)
  | next => return .state (← Index.next)
  | previous => return .state (← Index.previous)
  | insert key => return .inserted (← Index.insert key)
  | delete key byPosition => return .deleted (← Index.delete key byPosition)
  | reserve => return .reserved (← Index.reserve)
  | release => return .released (← Index.release)
  | stats => return .counted (← Index.stats)
  | verify => return .counted (← Index.verify)
  | outline => return .shaped (← Index.outline)

end Call

/-! ## Effects on record positions -/

namespace Plan

/-- The oldest record position is taken, if there is one. -/
def Popped (p : Plan) (found : Option Nat) (p' : Plan) : Prop :=
  match found with
  | none => p' = p ∧ p.records = []
  | some record => p.records = record :: p'.records ∧ p'.entries = p.entries ∧ p'.levels = p.levels

def Pushed (record : Nat) (p p' : Plan) : Prop :=
  p'.records.Perm (record :: p.records) ∧ p'.entries = p.entries ∧ p'.levels = p.levels

end Plan

/-! ## Requests -/

/-- What a call asks for: a program, and what becomes of the cursor and the record cell by the value
that it ends with. -/
structure Request where
  {α : Type}
  program : Program α
  /-- Whether the program changes no block. -/
  looks : Bool
  /-- Whether the cursor moves as soon as the program has ended, even if the call then does not end
  well. -/
  hasAccess : Bool
  cursor : α → Option Cursor
  record : α → Option Nat
  answer : α → Answer
  /-- What the program makes of a plan. -/
  effect : Plan → α → Plan → Prop

namespace Request

def move (program : Program Cursor) : Request where
  program := program
  looks := true
  hasAccess := true
  cursor := some
  record := Cursor.record?
  answer c := .state c.state
  effect p _ p' := p' = p

def inspect {α : Type} (program : Program α) (answer : α → Answer) : Request where
  program := program
  looks := true
  hasAccess := false
  cursor _ := none
  record _ := none
  answer := answer
  effect p _ p' := p' = p

def insert (t : Tree) (e : Entry) : Request where
  program := t.insert e
  looks := false
  hasAccess := false
  cursor outcome := if outcome = .inserted then some (Cursor.land e .null) else none
  record _ := none
  answer := .inserted
  effect p := t.Inserted e p

def delete (t : Tree) (target : Entry) (exact : Bool) : Request where
  program := t.delete target exact
  looks := false
  hasAccess := false
  cursor found := some <| Cursor.park .between <|
    found.getD ⟨target.key, if exact then target.record else t.layout.maxRecord⟩
  record found := found.map Entry.record
  answer found := .deleted (if found.isSome then .deleted else .notFound)
  effect p := t.Deleted target exact p

def reserve (l : Layout) : Request where
  program := Program.popSlot l
  looks := false
  hasAccess := false
  cursor _ := none
  record := id
  answer found := .reserved (found.elim .noFreeSlot .reserved)
  effect := Plan.Popped

def release (l : Layout) (record : Nat) : Request where
  program := Program.pushSlot l record
  looks := false
  hasAccess := false
  cursor _ := none
  record _ := none
  answer _ := .released .released
  effect p _ := p.Pushed record

end Request

/-- What comes of a call before it touches a block. -/
inductive Course where
  /-- No block is needed to answer the call. -/
  | decided (r : Except Error Answer)
  | asks (q : Request)

namespace Course

/-- The call goes on if a check is passed. -/
def check {β : Type} (x : Except Error β) (f : β → Course) : Course :=
  match x with
  | .ok b => f b
  | .error e => decided (.error e)

/-- The call goes on if the handle may change the file. -/
def writing (ix : Index) (c : Course) : Course :=
  if ix.mode.writable then c else decided (.error .readOnly)

/-- What is true of the end of a call that is decided, or else of its request. -/
def Meets (P : Except Error Answer → Prop) (Q : Request → Prop) : Course → Prop
  | decided r => P r
  | asks q => Q q

variable {P : Except Error Answer → Prop} {Q : Request → Prop}

theorem meets_check {β : Type} {x : Except Error β} {f : β → Course}
    (herror : ∀ e, x = .error e → P (.error e)) (hok : ∀ b, x = .ok b → (f b).Meets P Q) :
    (check x f).Meets P Q := by
  cases x with
  | ok b => exact hok b rfl
  | error e => exact herror e rfl

theorem meets_writing {ix : Index} {c : Course}
    (hrefused : ix.mode.writable = false → P (.error .readOnly))
    (hok : ix.mode.writable = true → c.Meets P Q) : (c.writing ix).Meets P Q := by
  unfold writing
  split
  · next h => exact hok h
  · next h => exact hrefused (Bool.eq_false_iff.mpr h)

end Course

namespace Index

/-- A caller's key, brought to the key length of the file. -/
def keyOf (ix : Index) (raw : Bytes) (pad : UInt8) : Except Error Bytes :=
  Key.normalize raw ix.tree.layout.keyLength pad ix.truncate

/-- The entry of a key and a record position, if the file can hold it. -/
def entryOf (ix : Index) (raw : Bytes) (record : Nat) : Except Error Entry := do
  let key ← ix.keyOf raw blank
  if key.head? = some ix.tree.layout.endMark then
    throw (.invalidKey (.startsWithEndMark ix.tree.layout.endMark))
  if record > ix.tree.layout.maxRecord then throw (.invalidKey (.recordOutOfRange record))
  return ⟨key, record⟩

end Index

/-- What comes of a call on a handle, with a record position in the cell, before it touches a
block. -/
def Call.course (ix : Index) (record : Nat) : Call → Course
  | find key =>
    if key.isEmpty then .decided (.ok (.state ix.cursor.state))
    else .check (ix.keyOf key blank) fun key => .asks (.move (ix.tree.find ix.cursor key))
  | findLast start =>
    .check (ix.keyOf start ix.tree.collation.highest) fun padded =>
      .asks (.move (ix.tree.findLast padded (min start.length ix.tree.layout.keyLength)))
  | next => .asks (.move (ix.tree.next ix.cursor))
  | previous => .asks (.move (ix.tree.previous ix.cursor))
  | insert key => .writing ix (.check (ix.entryOf key record) fun e => .asks (.insert ix.tree e))
  | delete key byPosition =>
    .writing ix <|
      if key.isEmpty then
        match ix.cursor.state, ix.cursor.current with
        | .onKey, some current => .asks (.delete ix.tree current true)
        | _, _ => .decided (.ok (.deleted .notFound))
      else .check (ix.keyOf key blank) fun key =>
        .asks (.delete ix.tree ⟨key, if byPosition then record else 0⟩ byPosition)
  | reserve =>
    .writing ix <|
      if ix.header.fixedRecordLength.isNone then .decided (.ok (.reserved .noFreeSlot))
      else .asks (.reserve ix.tree.layout)
  | release =>
    .writing ix <|
      if ix.header.fixedRecordLength.isNone then .decided (.ok (.released .notFixed))
      else .asks (.release ix.tree.layout record)
  | stats => .asks (.inspect (ix.tree.survey false) .counted)
  | verify => .asks (.inspect (ix.tree.survey true) .counted)
  | outline => .asks (.inspect ix.tree.outline .shaped)

/-! ## Making a call -/

namespace Workspace

/-- One of the caches over the disk. -/
def below (w : Workspace) (id : Nat) : Buffered := ⟨w.cache id, w.disk⟩

/-- The workspace after work on one of its caches. -/
def withBelow (w : Workspace) (id : Nat) (s : Buffered) : Workspace :=
  ⟨s.disk, w.caches.setIfInBounds id s.cache, w.cells⟩

end Workspace

namespace Request

variable (q : Request)

/-- What a call answers whose session ended as told. -/
def outcome : Except Error (q.α × Except Error Unit) → Except Error Answer
  | .ok (a, .ok ()) => .ok (q.answer a)
  | .ok (_, .error e) => .error e
  | .error e => .error e

def moved (c : Cursor) : Except Error (q.α × Except Error Unit) → Cursor
  | .ok (a, .ok ()) => (q.cursor a).getD c
  | .ok (a, .error _) => if q.hasAccess then (q.cursor a).getD c else c
  | .error _ => c

def told (record : Nat) : Except Error (q.α × Except Error Unit) → Nat
  | .ok (a, .ok ()) => (q.record a).getD record
  | _ => record

/-- The handle and the workspace after a call whose session ended as told. -/
def after (ix : Index) (w : Workspace) (o : Except Error (q.α × Except Error Unit)) (s : Buffered) :
    Index × Workspace :=
  ({ ix with cursor := q.moved ix.cursor o },
    (w.withBelow ix.cache s).setCell ix.cell (q.told (w.cell ix.cell) o))

end Request

namespace Workspace

theorem setCell_cell (w : Workspace) (id : Nat) : w.setCell id (w.cell id) = w := by
  unfold setCell cell
  congr 1
  refine Array.ext_getElem? fun i => ?_
  rw [Array.getElem?_setIfInBounds]
  split
  · next h =>
    subst h
    split
    · next h => simp [h]
    · next h => simp [h]
  · rfl

theorem withBelow_below (w : Workspace) (id : Nat) : w.withBelow id (w.below id) = w := by
  unfold withBelow below cache
  congr 1
  refine Array.ext_getElem? fun i => ?_
  rw [Array.getElem?_setIfInBounds]
  split
  · next h =>
    subst h
    split
    · next h => simp [h]
    · next h => simp [h]
  · rfl

end Workspace

section Run

variable {ix : Index} {w : Workspace} {α β : Type} {σ : Index × Workspace}

theorem Request.after_error {q : Request} {e : Error} {s : Buffered} :
    q.after ix w (.error e) s = (ix, w.withBelow ix.cache s) := by
  unfold after moved told
  rw [show w.cell ix.cell = (w.withBelow ix.cache s).cell ix.cell from rfl, Workspace.setCell_cell]

/-- One call on the file is a transaction on its cache. -/
theorem Index.call_ends {mode : EndMode} {program : Program α}
    {Q : Except Error (α × Except Error Unit) → Index × Workspace → Prop}
    (h : Ends (Session.transact ix.file ix.tree.layout ix.mode.locked mode program)
      (w.below ix.cache) fun o s => Q o (ix, w.withBelow ix.cache s)) :
    Ends (Index.call mode program) (ix, w) Q := by
  have hcall : Index.call mode program (ix, w) = Index.onWorkspace (Workspace.onCache ix.cache <|
      Session.transact ix.file ix.tree.layout ix.mode.locked mode program) (ix, w) := rfl
  unfold Ends at *
  rw [hcall]
  unfold Index.onWorkspace Workspace.onCache
  simp only [Workspace.below, Workspace.cache] at h
  cases hx : Session.transact ix.file ix.tree.layout ix.mode.locked mode program
      ⟨w.caches.getD ix.cache default, w.disk⟩ <;> simp only [hx] at h ⊢ <;> exact h

/-- A check before the blocks are touched. -/
theorem Course.settle_bind_ends {x : Except Error β} {f : β → Course} {g : β → IndexM α}
    {P : Except Error Answer → Prop} {Q : Request → Prop}
    {R : Except Error α → Index × Workspace → Prop} (h : (check x f).Meets P Q)
    (herror : ∀ e, P (.error e) → R (.error e) σ)
    (hok : ∀ b, (f b).Meets P Q → Ends (g b) σ R) : Ends (settle x >>= g) σ R := by
  cases x with
  | ok b => exact hok b h
  | error e => exact herror e h

theorem Index.self_bind_ends {f : Index → IndexM α} {R : Except Error α → Index × Workspace → Prop}
    (h : Ends (f ix) (ix, w) R) : Ends (Index.self >>= f) (ix, w) R := h

theorem Course.requireWritable_bind_ends {c : Course} {g : Unit → IndexM α}
    {P : Except Error Answer → Prop} {Q : Request → Prop}
    {R : Except Error α → Index × Workspace → Prop} (h : (c.writing ix).Meets P Q)
    (herror : ∀ e, P (.error e) → R (.error e) (ix, w))
    (hok : c.Meets P Q → Ends (g ()) (ix, w) R) :
    Ends (Index.requireWritable >>= g) (ix, w) R := by
  unfold writing at h
  unfold Index.requireWritable
  rw [bind_assoc]
  refine Index.self_bind_ends ?_
  cases hmode : ix.mode.writable with
  | true =>
    simp only [hmode, if_true] at h
    exact hok h
  | false =>
    simp only [hmode, Bool.false_eq_true, if_false] at h
    exact herror _ h

/-- The checks of a new entry touch no block. -/
theorem Index.newEntry_eq (raw : Bytes) :
    Index.newEntry raw (ix, w) = settle (ix.entryOf raw (w.cell ix.cell)) (ix, w) := by
  have hget : (EStateM.get : IndexM (Index × Workspace)) = fun σ => .ok σ σ := rfl
  simp only [newEntry, normalize, entryOf, keyOf, self, record, bind, EStateM.bind, get, getThe,
    MonadStateOf.get, hget, pure, EStateM.pure]
  cases Key.normalize raw ix.tree.layout.keyLength blank ix.truncate with
  | error e => rfl
  | ok key =>
    simp only [settle, Except.bind]
    by_cases hmark : key.head? = some ix.tree.layout.endMark
    · simp only [hmark, if_true]
      rfl
    · simp only [hmark, if_false, EStateM.bind, EStateM.pure]
      by_cases hlarge : w.cell ix.cell > ix.tree.layout.maxRecord
      · simp only [hlarge, if_true]
        rfl
      · simp only [hlarge, if_false]
        rfl

/-- A move is carried out. -/
theorem Index.move_ends {program : Tree → Cursor → Program Cursor}
    {Q : Except Error Answer → Index × Workspace → Prop}
    (h : Ends (Session.transact ix.file ix.tree.layout ix.mode.locked ix.mode.endMode
      (program ix.tree ix.cursor)) (w.below ix.cache) fun o s =>
        Q ((Request.move (program ix.tree ix.cursor)).outcome o)
          ((Request.move (program ix.tree ix.cursor)).after ix w o s)) :
    Ends (do return Answer.state (← Index.move program)) (ix, w) Q := by
  refine Ends.bind (P := fun r σ => match r with
      | .ok state => Q (.ok (.state state)) σ
      | .error e => Q (.error e) σ) ?_ (fun _ _ he => he) fun _ _ ha => ha
  refine Index.self_bind_ends (Ends.bind (P := fun o σ => ∃ s, σ = (ix, w.withBelow ix.cache s) ∧
    Q ((Request.move (program ix.tree ix.cursor)).outcome o)
      ((Request.move (program ix.tree ix.cursor)).after ix w o s))
    (Index.call_ends (h.mono fun o s hs => ⟨s, rfl, hs⟩)) ?_ ?_)
  · rintro e _ ⟨s, rfl, hs⟩
    rw [Request.after_error] at hs
    exact hs
  · rintro ⟨c, ended⟩ _ ⟨s, rfl, hs⟩
    have hkept := Workspace.setCell_cell (w.withBelow ix.cache s) ix.cell
    cases ended with
    | error e =>
      show Q (.error e) ({ ix with cursor := c }, w.withBelow ix.cache s)
      rw [← hkept]
      exact hs
    | ok _ =>
      cases hr : c.record? with
      | none =>
        have hmoved : Q (.ok (.state c.state)) ({ ix with cursor := c }, w.withBelow ix.cache s) := by
          rw [← hkept]
          have : (Request.move (program ix.tree ix.cursor)).record c = none := hr
          simp only [Request.after, Request.told, this] at hs
          exact hs
        simp only [hr]
        exact hmoved
      | some record =>
        have : (Request.move (program ix.tree ix.cursor)).record c = some record := hr
        simp only [Request.after, Request.told, this] at hs
        simp only [hr]
        exact hs

/-- A call that is nothing unless it also ends well is carried out, with what comes after. -/
theorem Request.complete_ends (q : Request) (hhasAccess : q.hasAccess = false) {f : q.α → IndexM Answer}
    (hf : ∀ a w, f a (ix, w) = .ok (q.answer a) ({ ix with cursor := (q.cursor a).getD ix.cursor },
      w.setCell ix.cell ((q.record a).getD (w.cell ix.cell))))
    {Q : Except Error Answer → Index × Workspace → Prop}
    (h : Ends (Session.transact ix.file ix.tree.layout ix.mode.locked ix.mode.endMode q.program)
      (w.below ix.cache) fun o s => Q (q.outcome o) (q.after ix w o s)) :
    Ends (Index.complete q.program >>= f) (ix, w) Q := by
  have hcall : Ends (Index.call ix.mode.endMode q.program) (ix, w) fun o σ =>
      ∃ s, σ = (ix, w.withBelow ix.cache s) ∧ Q (q.outcome o) (q.after ix w o s) :=
    Index.call_ends (h.mono fun o s hs => ⟨s, rfl, hs⟩)
  unfold Index.complete
  rw [bind_assoc]
  refine Index.self_bind_ends ?_
  rw [bind_assoc]
  refine Ends.bind hcall ?_ ?_
  · rintro e _ ⟨s, rfl, hs⟩
    rw [Request.after_error] at hs
    exact hs
  · rintro ⟨a, ended⟩ _ ⟨s, rfl, hs⟩
    cases ended with
    | error e =>
      have hkept := Workspace.setCell_cell (w.withBelow ix.cache s) ix.cell
      simp only [after, moved, hhasAccess] at hs
      show Q (.error e) (ix, w.withBelow ix.cache s)
      rw [← hkept]
      exact hs
    | ok _ => exact ends_of_eq_ok (hf a _) hs

/-- A deletion is carried out. -/
theorem Index.deleteEntry_ends {target : Entry} {exact : Bool}
    {Q : Except Error Answer → Index × Workspace → Prop}
    (h : Ends (Session.transact ix.file ix.tree.layout ix.mode.locked ix.mode.endMode
      (ix.tree.delete target exact)) (w.below ix.cache) fun o s =>
        Q ((Request.delete ix.tree target exact).outcome o)
          ((Request.delete ix.tree target exact).after ix w o s)) :
    Ends (Index.deleteEntry target exact >>= fun o => pure (.deleted o)) (ix, w) Q := by
  unfold Index.deleteEntry
  simp only [bind_assoc]
  refine Index.self_bind_ends ?_
  refine Request.complete_ends (.delete ix.tree target exact) rfl (fun found w => ?_) h
  cases found with
  | none =>
    simp only [Request.delete, Option.getD_none, Option.getD_some, Option.map_none,
      Workspace.setCell_cell]
    rfl
  | some e => rfl

/-- A call does what its request says. -/
theorem Call.run_ends {call : Call} {Q : Except Error Answer → Index × Workspace → Prop}
    (h : (call.course ix (w.cell ix.cell)).Meets (fun r => Q r (ix, w)) fun q =>
      Ends (Session.transact ix.file ix.tree.layout ix.mode.locked ix.mode.endMode q.program)
        (w.below ix.cache) fun o s => Q (q.outcome o) (q.after ix w o s)) :
    Ends call.run (ix, w) Q := by
  cases call with
  | find key =>
    simp only [course] at h
    simp only [run, Index.find]
    split at h
    · next hempty =>
      simp only [hempty, if_true]
      exact h
    · next hempty =>
      simp only [hempty, Bool.false_eq_true, if_false, bind_assoc]
      exact Course.settle_bind_ends h (fun _ he => he) fun key h => Index.move_ends h
  | findLast start =>
    simp only [run, Index.findLast, bind_assoc]
    refine Index.self_bind_ends (Course.settle_bind_ends h (fun _ he => he) fun padded h => ?_)
    exact @Index.move_ends _ _ (fun t _ => t.findLast padded (min start.length t.layout.keyLength)) _ h
  | next => exact @Index.move_ends _ _ Tree.next _ h
  | previous => exact @Index.move_ends _ _ Tree.previous _ h
  | insert key =>
    simp only [run, Index.insert, bind_assoc]
    refine Course.requireWritable_bind_ends h (fun _ he => he) fun h => ?_
    refine Ends.congr_bind (Index.newEntry_eq key) ?_
    refine Course.settle_bind_ends h (fun _ he => he) fun e h => ?_
    refine Index.self_bind_ends ?_
    refine Request.complete_ends (.insert ix.tree e) rfl (fun outcome w => ?_) h
    simp only [Request.insert, Option.getD_none, Workspace.setCell_cell]
    cases outcome <;> rfl
  | delete key byPosition =>
    simp only [run, Index.delete, bind_assoc]
    refine Course.requireWritable_bind_ends h (fun _ he => he) fun h => ?_
    split at h
    · next hempty =>
      simp only [hempty, if_true, bind_assoc]
      refine Index.self_bind_ends ?_
      generalize ix.cursor.state = state at h ⊢
      generalize ix.cursor.current = current at h ⊢
      cases state with
      | onKey =>
        cases current with
        | some current => exact Index.deleteEntry_ends h
        | none => exact h
      | beforeFirst | between | afterLast => exact h
    · next hne =>
      simp only [hne, Bool.false_eq_true, if_false, bind_assoc]
      refine Course.settle_bind_ends h (fun _ he => he) fun key h => ?_
      cases byPosition with
      | true =>
        simp only [if_true, bind_assoc] at h ⊢
        exact Ends.congr_bind (y := pure (w.cell ix.cell)) rfl (Index.deleteEntry_ends h)
      | false =>
        simp only [Bool.false_eq_true, if_false] at h ⊢
        exact Index.deleteEntry_ends h
  | reserve =>
    simp only [run, Index.reserve, bind_assoc]
    refine Course.requireWritable_bind_ends h (fun _ he => he) fun h => ?_
    refine Index.self_bind_ends ?_
    split at h
    · next hnone =>
      simp only [hnone, if_true]
      exact h
    · next hsome =>
      simp only [hsome, Bool.false_eq_true, if_false, bind_assoc]
      refine Request.complete_ends (.reserve ix.tree.layout) rfl (fun found w => ?_) h
      simp only [Request.reserve, Option.getD_none]
      cases found with
      | none =>
        simp only [id_eq, Option.getD_none, Workspace.setCell_cell]
        rfl
      | some record => rfl
  | release =>
    simp only [run, Index.release, bind_assoc]
    refine Course.requireWritable_bind_ends h (fun _ he => he) fun h => ?_
    refine Index.self_bind_ends ?_
    split at h
    · next hnone =>
      simp only [hnone, if_true]
      exact h
    · next hsome =>
      simp only [hsome, Bool.false_eq_true, if_false, bind_assoc]
      refine Ends.congr_bind (y := pure (w.cell ix.cell)) rfl ?_
      refine Request.complete_ends (.release ix.tree.layout (w.cell ix.cell)) rfl (fun a w => ?_) h
      simp only [Request.release, Option.getD_none, Workspace.setCell_cell]
      rfl
  | stats =>
    simp only [run, Index.stats, bind_assoc]
    refine Index.self_bind_ends ?_
    refine Request.complete_ends (.inspect (ix.tree.survey false) .counted) rfl (fun a w => ?_) h
    simp only [Request.inspect, Option.getD_none, Workspace.setCell_cell]
    rfl
  | verify =>
    simp only [run, Index.verify, bind_assoc]
    refine Index.self_bind_ends ?_
    refine Request.complete_ends (.inspect (ix.tree.survey true) .counted) rfl (fun a w => ?_) h
    simp only [Request.inspect, Option.getD_none, Workspace.setCell_cell]
    rfl
  | outline =>
    simp only [run, Index.outline, bind_assoc]
    refine Index.self_bind_ends ?_
    refine Request.complete_ends (.inspect ix.tree.outline .shaped) rfl (fun a w => ?_) h
    simp only [Request.inspect, Option.getD_none, Workspace.setCell_cell]
    rfl

end Run

end PagedIndex
