import PagedIndex.Proofs.Index.Sharing

/-!
# Calls of several handles

Handles that share a file make their calls in turn. A call that fails may leave blocks in its cache
that could not be put back, and these would be written by a later call of the same handle. If no
call leaves anything of that kind, no entry is lost.

## Main definitions

* `Turn`, `plays` — the calls of several handles, in the order in which they are made.
* `Caller`, `playsAlone` — the same calls on one handle.
* `Index.clean`, `cleans` — nothing is left behind.
* `Shares` — handles that share a file whose blocks are as planned.

## Main statements

* `Shares.turn`, `Shares.plays` — what one call, and any number of calls, make of the plan.
* `Shares.inserted_stays` — an entry that was inserted stays until it is deleted.
-/

namespace PagedIndex

/-- A call by one of several handles. A record position may be put into its cell first. -/
structure Turn (ι : Type) where
  handle : ι
  record : Option Nat
  call : Call

/-- What a caller is told: the result, the cursor, and what is in the record cell. -/
structure Reply where
  result : Except Error Answer
  cursor : Cursor
  record : Nat

def Reply.inserts (reply : Reply) : Bool := reply.result matches .ok (.inserted .inserted)

theorem Reply.result_eq_of_inserts {reply : Reply} (h : reply.inserts = true) :
    reply.result = .ok (.inserted .inserted) := by
  unfold inserts at h
  split at h
  · assumption
  · cases h

section Play

variable {ι : Type} [DecidableEq ι]

/-- A call by one of several handles that share a workspace. -/
def Turn.play (turn : Turn ι) (handles : ι → Index) (w : Workspace) :
    Reply × (ι → Index) × Workspace :=
  let ix := handles turn.handle
  let (result, ix, w) := ending turn.call.run
    (ix, w.setCell ix.cell (turn.record.getD (w.cell ix.cell)))
  (⟨result, ix.cursor, w.cell ix.cell⟩, fun j => if j = turn.handle then ix else handles j, w)

def plays : List (Turn ι) → (ι → Index) → Workspace → List Reply × (ι → Index) × Workspace
  | [], handles, w => ([], handles, w)
  | turn :: rest, handles, w =>
    let (reply, handles, w) := turn.play handles w
    let (replies, final) := plays rest handles w
    (reply :: replies, final)

/-- What one handle keeps for each of several callers. -/
structure Caller where
  cursor : Cursor
  record : Nat

/-- A call by one handle, with the cursor and the record position of the caller. -/
def Turn.playAlone (turn : Turn ι) (callers : ι → Caller) (ix : Index) (w : Workspace) :
    Reply × (ι → Caller) × Index × Workspace :=
  let caller := callers turn.handle
  let (result, ix, w) := ending turn.call.run
    ({ ix with cursor := caller.cursor }, w.setCell ix.cell (turn.record.getD caller.record))
  (⟨result, ix.cursor, w.cell ix.cell⟩,
    fun j => if j = turn.handle then ⟨ix.cursor, w.cell ix.cell⟩ else callers j, ix, w)

def playsAlone : List (Turn ι) → (ι → Caller) → Index → Workspace →
    List Reply × (ι → Caller) × Index × Workspace
  | [], callers, ix, w => ([], callers, ix, w)
  | turn :: rest, callers, ix, w =>
    let (reply, callers, ix, w) := turn.playAlone callers ix w
    let (replies, final) := playsAlone rest callers ix w
    (reply :: replies, final)

variable (turn : Turn ι) (handles : ι → Index) (callers : ι → Caller) (ix : Index) (w : Workspace)
  {P : Except Error Answer → Cursor → Workspace → Prop}

/-- A turn moves the cursor of its handle, and changes the workspace. -/
theorem Turn.play_ends (h : Ends turn.call.run (handles turn.handle,
    w.setCell (handles turn.handle).cell (turn.record.getD (w.cell (handles turn.handle).cell)))
    fun r σ => σ.1 = { handles turn.handle with cursor := σ.1.cursor } ∧ P r σ.1.cursor σ.2) :
    ∃ r c w', P r c w' ∧ turn.play handles w = (⟨r, c, w'.cell (handles turn.handle).cell⟩,
      (fun j => { handles j with cursor := if j = turn.handle then c else (handles j).cursor }),
      w') := by
  have hend := h.ending
  rcases hx : ending turn.call.run (handles turn.handle, w.setCell (handles turn.handle).cell
    (turn.record.getD (w.cell (handles turn.handle).cell))) with ⟨r, ix, w'⟩
  rw [hx] at hend
  obtain ⟨hsame, hP⟩ := hend
  have hplay : turn.play handles w = (⟨r, ix.cursor, w'.cell ix.cell⟩,
      (fun j => if j = turn.handle then ix else handles j), w') := by
    unfold play
    simp only [hx]
  have hcell := congrArg Index.cell hsame
  change ix.cell = (handles turn.handle).cell at hcell
  refine ⟨r, ix.cursor, w', hP, ?_⟩
  rw [hplay, hcell]
  refine congrArg (fun f => (_, f, w')) (funext fun j => ?_)
  split
  · next hj => rw [hj]; exact hsame
  · rfl

/-- So does a turn on one handle, which keeps the cursor and the record position of the caller. -/
theorem Turn.playAlone_ends (h : Ends turn.call.run ({ ix with cursor := (callers turn.handle).cursor },
    w.setCell ix.cell (turn.record.getD (callers turn.handle).record))
    fun r σ => σ.1 = { ix with cursor := σ.1.cursor } ∧ P r σ.1.cursor σ.2) :
    ∃ r c w', P r c w' ∧ turn.playAlone callers ix w = (⟨r, c, w'.cell ix.cell⟩,
      (fun j => if j = turn.handle then ⟨c, w'.cell ix.cell⟩ else callers j),
      { ix with cursor := c }, w') := by
  have hend := h.ending
  rcases hx : ending turn.call.run ({ ix with cursor := (callers turn.handle).cursor },
    w.setCell ix.cell (turn.record.getD (callers turn.handle).record)) with ⟨r, ix', w'⟩
  rw [hx] at hend
  obtain ⟨hsame, hP⟩ := hend
  have hplayAlone : turn.playAlone callers ix w = (⟨r, ix'.cursor, w'.cell ix'.cell⟩,
      (fun j => if j = turn.handle then ⟨ix'.cursor, w'.cell ix'.cell⟩ else callers j), ix', w') := by
    unfold playAlone
    simp only [hx]
  have hcell := congrArg Index.cell hsame
  change ix'.cell = ix.cell at hcell
  refine ⟨r, ix'.cursor, w', hP, ?_⟩
  rw [hplayAlone, hcell]
  exact congrArg (fun i => (_, _, i, w')) hsame

end Play

/-! ## Calls that fail -/

namespace Index

/-- Whether a handle has nothing in its cache, and no failure to be told. -/
def clean (ix : Index) (w : Workspace) : Bool :=
  (w.cache ix.cache).held.all (fun b => b.file != ix.file) &&
    (((w.cache ix.cache).registration? ix.file).bind Registration.pending).isNone

variable {ix : Index} {w : Workspace}

theorem idle_of_clean (h : ix.clean w = true) : (w.below ix.cache).Idle ix.file := by
  intro i b hb
  have hbuffer : (w.cache ix.cache).buffers[i]? = some (some b) := by
    change (w.cache ix.cache).buffers.getD i none = some b at hb
    rw [Array.getD_eq_getD_getElem?] at hb
    cases hx : (w.cache ix.cache).buffers[i]? <;> simp_all
  have hheld : b ∈ (w.cache ix.cache).held :=
    List.mem_filterMap.mpr ⟨some b, Array.mem_toList_iff.mpr (Array.mem_of_getElem? hbuffer), rfl⟩
  have hall := (Bool.and_eq_true_iff.mp h).1
  simpa using List.all_eq_true.mp hall b hheld

theorem not_parked_of_clean (h : ix.clean w = true) :
    ¬Session.Parked ix.file (w.below ix.cache) := by
  rintro ⟨r, hr, hpending⟩
  have hnone := (Bool.and_eq_true_iff.mp h).2
  rw [show (w.cache ix.cache).registration? ix.file = some r from hr] at hnone
  exact hpending (Option.isNone_iff_eq_none.mp hnone)

end Index

/-- Whether each of several calls that fails leaves its handle with nothing in its cache. -/
def cleans {ι : Type} [DecidableEq ι] : List (Turn ι) → (ι → Index) → Workspace → Bool
  | [], _, _ => true
  | turn :: rest, handles, w =>
    ((turn.play handles w).1.result.toBool ||
        ((turn.play handles w).2.1 turn.handle).clean (turn.play handles w).2.2) &&
      cleans rest (turn.play handles w).2.1 (turn.play handles w).2.2

/-- What a call on a shared file comes to, whatever is refused but to give the lock back. -/
inductive Call.SharedOutcome (call : Call) (ix : Index) (p : Plan) (v : View) (w : Workspace) :
    Except Error Answer → Cursor → Workspace → Prop
  | done {answer : Answer} {c : Cursor} {record : Nat} {p' : Plan} {v' : View} {s : Buffered}
      (hdoes : call.Does ix (w.cell ix.cell) p answer c record p') (hdrawn : p'.Drawn ix.tree v')
      (haligned : c.Aligned ix.tree.layout) (hworks : Session.Works ix.mount (w.below ix.cache) s)
      (hblocksAs : Session.BlocksAs ix.mount ix.tree.layout.format v' s) (hidle : s.Idle ix.file) :
      SharedOutcome call ix p v w (.ok answer) c ((w.withBelow ix.cache s).setCell ix.cell record)
  | failed {e : Error} {c : Cursor} {s : Buffered} (haligned : c.Aligned ix.tree.layout)
      (hworks : Session.Works ix.mount (w.below ix.cache) s)
      (hblocksAs : Session.BlocksAs ix.mount ix.tree.layout.format v s ∨ Session.Parked ix.file s) :
      SharedOutcome call ix p v w (.error e) c
        ((w.withBelow ix.cache s).setCell ix.cell (w.cell ix.cell))

section SharedOutcome

variable {ix : Index} {p : Plan} {v : View} {w : Workspace}

/-- A call on a shared file is carried out, or changes nothing, or leaves a failure to be told. -/
theorem Call.ventures (call : Call) (h : ix.Finds v w) (hp : p.Drawn ix.tree v)
    (hcursor : ix.cursor.Aligned ix.tree.layout) (hmode : ix.mode = .shared)
    (hidle : (w.below ix.cache).Idle ix.file)
    (hunlock : ∀ e, ¬ix.store.Refuses w.disk .unlock e) :
    Ends call.run (ix, w) fun r σ => σ.1 = { ix with cursor := σ.1.cursor } ∧
      call.SharedOutcome ix p v w r σ.1.cursor σ.2 := by
  refine (call.serves h hp hcursor).mono ?_
  intro r σ hserved
  cases hserved with
  | decided hcourse =>
    refine ⟨rfl, ?_⟩
    have hsame : (w.withBelow ix.cache (w.below ix.cache)).setCell ix.cell (w.cell ix.cell) = w := by
      rw [Workspace.withBelow_below, Workspace.setCell_cell]
    cases r with
    | ok answer =>
      have hdone := @SharedOutcome.done call ix p v w _ _ _ _ _ _ (.decided hcourse) hp hcursor
        (.refl _) h.blocksAs hidle
      rwa [hsame] at hdone
    | error e =>
      have hfailed := @SharedOutcome.failed call ix p v w e _ _ hcursor (.refl _) (.inl h.blocksAs)
      rwa [hsame] at hfailed
  | @asked q r v' s o hcourse hcarried hcallOutcome =>
    have hmoved : ∀ a, r = .ok a → ((q.cursor a).getD ix.cursor).Aligned ix.tree.layout := by
      intro a ha
      obtain ⟨-, -, -, haligned⟩ := hcarried.drawn a ha
      cases hc : q.cursor a with
      | none => exact hcursor
      | some c => exact haligned c hc
    refine ⟨rfl, ?_⟩
    rcases hcallOutcome.outcome with ⟨a, ended, ha, rfl, hkept⟩ | ⟨hnot, hleft⟩
    · cases ended with
      | error e => exact absurd (hkept.unlocked e rfl).2 (hunlock e)
      | ok _ =>
        obtain ⟨p', hp', heffect, -⟩ := hcarried.drawn a ha
        exact .done (.asks hcourse heffect) hp' (hmoved a ha) hcallOutcome.works hkept.blocksAs
          (hkept.idle (by rw [hmode]; rfl))
    · cases o with
      | error e => exact .failed hcursor hcallOutcome.works hleft.blocksAs
      | ok o =>
        obtain ⟨a, ended⟩ := o
        obtain ⟨ha, hended⟩ := hnot a ended rfl
        cases ended with
        | ok _ => exact absurd rfl hended
        | error e =>
          refine .failed ?_ hcallOutcome.works hleft.blocksAs
          show Cursor.Aligned _ (if q.hasAccess then (q.cursor a).getD ix.cursor else ix.cursor)
          split
          · exact hmoved a ha
          · exact hcursor

end SharedOutcome

/-! ## Shared files as planned -/

section Shares

variable {ι : Type} {handles : ι → Index} {p p' : Plan} {w : Workspace}

/-- Handles that share a file whose blocks are as planned, and that can give their locks back. -/
structure Shares (handles : ι → Index) (p : Plan) (w : Workspace) : Prop where
  sharing : ∃ v, Sharing handles v w ∧ ∀ i, p.Drawn (handles i).tree v
  aligned : ∀ i, (handles i).cursor.Aligned (handles i).tree.layout
  unlocks : ∀ i e, ¬(handles i).store.Refuses w.disk .unlock e

theorem Shares.setCell (h : Shares handles p w) (cell record : Nat) :
    Shares handles p (w.setCell cell record) := by
  obtain ⟨v, hsharing, hdrawn⟩ := h.sharing
  exact ⟨⟨v, hsharing.setCell cell record, hdrawn⟩, h.aligned, h.unlocks⟩

variable [DecidableEq ι] {i : ι} {c : Cursor} {v : View} {s : Buffered}

/-- After work for one handle that leaves no blocks in its cache, all share what it has left. -/
theorem Shares.after (h : Shares handles p w) (hdrawn : p'.Drawn (handles i).tree v)
    (haligned : c.Aligned (handles i).tree.layout)
    (hworks : Session.Works (handles i).mount (w.below (handles i).cache) s)
    (hblocksAs : Session.BlocksAs (handles i).mount (handles i).tree.layout.format v s)
    (hidle : s.Idle (handles i).file) :
    Shares (fun j => { handles j with cursor := if j = i then c else (handles j).cursor }) p'
      (w.withBelow (handles i).cache s) := by
  obtain ⟨_, hsharing, -⟩ := h.sharing
  refine ⟨⟨v, (hsharing.after hworks hblocksAs hidle).congr fun _ => rfl, fun j => ?_⟩, fun j => ?_,
    fun j e hrefused => h.unlocks j e (hrefused.of_follows hworks.disk)⟩
  · exact hsharing.tree i j ▸ hdrawn
  · show Cursor.Aligned (handles j).tree.layout (if j = i then c else (handles j).cursor)
    split
    · exact hsharing.tree i j ▸ haligned
    · exact h.aligned j

/-- A call does what it answers, or nothing if it fails and leaves nothing behind. -/
theorem Shares.turn (h : Shares handles p w) (turn : Turn ι)
    (hclean : ((turn.play handles w).1.result.toBool ||
      ((turn.play handles w).2.1 turn.handle).clean (turn.play handles w).2.2) = true) :
    ∃ p', Shares (turn.play handles w).2.1 p' (turn.play handles w).2.2 ∧
      (∀ answer, (turn.play handles w).1.result = .ok answer → ∃ record,
        turn.call.Does (handles turn.handle) record p answer (turn.play handles w).1.cursor
          (turn.play handles w).1.record p') ∧
      ∀ e, (turn.play handles w).1.result = .error e → p' = p := by
  have h' := h.setCell (handles turn.handle).cell
    (turn.record.getD (w.cell (handles turn.handle).cell))
  obtain ⟨v, hsharing, hdrawn⟩ := h'.sharing
  have hcell := (hsharing.finds turn.handle).cell
  obtain ⟨r, c, w', hsharedOutcome, hplay⟩ := turn.play_ends handles w
    (turn.call.ventures (hsharing.finds _) (hdrawn _) (h'.aligned _) (hsharing.shared _)
      (hsharing.idle _) (h'.unlocks _))
  rw [hplay] at hclean ⊢
  generalize w.setCell (handles turn.handle).cell _ = w₁ at *
  have hbelow := fun s => Workspace.below_withBelow (s := s) (hsharing.finds turn.handle).cache
  cases hsharedOutcome with
  | @done answer _ record p' v' s hdoes hdrawn' haligned hworks hblocksAs hidle =>
    refine ⟨p', (h'.after hdrawn' haligned hworks hblocksAs hidle).setCell _ _, fun answer ha => ?_,
      nofun⟩
    cases ha
    have hrecord : ((w₁.withBelow (handles turn.handle).cache s).setCell (handles turn.handle).cell
        record).cell (handles turn.handle).cell = record := Workspace.cell_setCell hcell
    exact ⟨_, hrecord.symm ▸ hdoes⟩
  | @failed e _ s haligned hworks hblocksAs =>
    have hidle : s.Idle (handles turn.handle).file := by
      rw [← hbelow s]
      exact Index.idle_of_clean hclean
    have hparked : ¬Session.Parked (handles turn.handle).file s := by
      rw [← hbelow s]
      exact Index.not_parked_of_clean hclean
    exact ⟨p, (h'.after (hdrawn _) haligned hworks (hblocksAs.resolve_right hparked) hidle).setCell _ _,
      nofun, fun _ _ => rfl⟩

/-- If calls that fail leave nothing behind, no entry is deleted but the ones that are answered. -/
theorem Shares.plays (h : Shares handles p w) {turns : List (Turn ι)}
    (hclean : cleans turns handles w = true) :
    ∃ p', Shares (plays turns handles w).2.1 p' (plays turns handles w).2.2 ∧
      ∀ e ∈ p.entries, e ∈ p'.entries ∨ ∃ reply ∈ (plays turns handles w).1,
        reply.result = .ok (.deleted .deleted) ∧ reply.cursor.current = some e := by
  induction turns generalizing handles w p with
  | nil => exact ⟨p, h, fun e he => .inl he⟩
  | cons turn rest ih =>
    obtain ⟨hclean, hrest⟩ := Bool.and_eq_true_iff.mp hclean
    obtain ⟨p₁, h₁, hdone, hfailed⟩ := h.turn turn hclean
    obtain ⟨p', h', hstays⟩ := ih h₁ hrest
    refine ⟨p', h', fun e he => ?_⟩
    have hturn : e ∈ p₁.entries ∨ (turn.play handles w).1.result = .ok (.deleted .deleted) ∧
        (turn.play handles w).1.cursor.current = some e := by
      cases hresult : (turn.play handles w).1.result with
      | error e' => exact .inl (hfailed e' hresult ▸ he)
      | ok answer =>
        obtain ⟨record, hdoes⟩ := hdone answer hresult
        exact (hdoes.stays he).imp_right fun ⟨hanswer, hcurrent⟩ => ⟨hanswer ▸ rfl, hcurrent⟩
    rcases hturn with he₁ | hdeleted
    · exact (hstays e he₁).imp_right fun ⟨reply, hreply, hdeleted⟩ =>
        ⟨reply, List.mem_cons_of_mem _ hreply, hdeleted⟩
    · exact .inr ⟨_, List.mem_cons_self, hdeleted⟩

/-- If calls that fail leave nothing behind, an entry that was inserted stays until it is
deleted. -/
theorem Shares.inserted_stays (h : Shares handles p w) {turns : List (Turn ι)}
    (hclean : cleans turns handles w = true) {k : Nat} {reply : Reply}
    (hreply : (PagedIndex.plays turns handles w).1[k]? = some reply)
    (hinserted : reply.result = .ok (.inserted .inserted)) :
    ∃ e, reply.cursor.current = some e ∧
      ((∃ p', Shares (PagedIndex.plays turns handles w).2.1 p' (PagedIndex.plays turns handles w).2.2 ∧
        e ∈ p'.entries) ∨
      ∃ later ∈ (PagedIndex.plays turns handles w).1.drop (k + 1),
        later.result = .ok (.deleted .deleted) ∧ later.cursor.current = some e) := by
  induction turns generalizing handles w p k with
  | nil => cases hreply
  | cons turn rest ih =>
    obtain ⟨hclean, hrest⟩ := Bool.and_eq_true_iff.mp hclean
    obtain ⟨p₁, h₁, hdone, -⟩ := h.turn turn hclean
    cases k with
    | succ k => exact ih h₁ hrest hreply
    | zero =>
      cases hreply
      obtain ⟨record, hdoes⟩ := hdone _ hinserted
      obtain ⟨e, hcurrent, he⟩ := hdoes.inserted
      obtain ⟨p', h', hstays⟩ := h₁.plays hrest
      exact ⟨e, hcurrent, (hstays e he).imp_left fun he => ⟨p', h', he⟩⟩

/-- Handles that share a memory area of one block. -/
theorem shares_small {refusal : Access → Nat → Option IoCause}
    (h : ∀ n, refusal .unlock n = none) :
    Shares (fun i : Fin 2 => smallIndex i .shared) ⟨0, none, [], []⟩ (smallWorkspace refusal) :=
  ⟨⟨_, sharing_small refusal, fun _ => Plan.drawn_empty workable_small⟩, fun _ => nofun,
    fun _ _ => not_refuses_loaded h⟩

/-- A memory area that refuses the first write. -/
def refusingOnce (access : Access) (n : Nat) : Option IoCause :=
  if access = .write ∧ n = 0 then some (.described .other "refused") else none

/-- The first insertion fails in its first write and is taken back. The entry that the second handle
then inserts is still there when the first one has inserted another. -/
theorem inserted_stays_small :
    let turns : List (Turn (Fin 2)) :=
      [⟨0, none, .insert [0x41]⟩, ⟨1, none, .insert [0x42]⟩, ⟨0, none, .insert [0x43]⟩]
    let played := PagedIndex.plays turns (fun i => smallIndex i .shared) (smallWorkspace refusingOnce)
    played.1.map Reply.inserts = [false, true, true] ∧
      ∃ p', Shares played.2.1 p' played.2.2 ∧ ⟨[0x42], 9⟩ ∈ p'.entries := by
  intro turns played
  -- the calls are evaluated: what is told, and that nothing is left behind
  have hclean : cleans turns (fun i => smallIndex i .shared) (smallWorkspace refusingOnce) = true := by
    decide +kernel
  have htold : played.1.map Reply.inserts = [false, true, true] ∧
      played.1[1]?.bind (·.cursor.current) = some ⟨[0x42], 9⟩ := by decide +kernel
  have hshares : Shares _ _ (smallWorkspace refusingOnce) := shares_small fun _ => rfl
  unfold played at *
  clear played
  generalize smallWorkspace refusingOnce = w at *
  obtain ⟨htold, hcurrent⟩ := htold
  obtain ⟨reply, hreply, hinserts⟩ := Option.map_eq_some_iff.mp
    ((List.getElem?_map ..).symm.trans (congrArg (·[1]?) htold))
  refine ⟨htold, ?_⟩
  obtain ⟨e, he, hkept | ⟨later, hlater, hdeleted, -⟩⟩ :=
    hshares.inserted_stays hclean hreply (Reply.result_eq_of_inserts hinserts)
  · rw [hreply] at hcurrent
    obtain rfl := Option.some.inj (he.symm.trans hcurrent)
    exact hkept
  · have hmem := List.mem_map_of_mem (f := Reply.inserts) hlater
    rw [List.map_drop, htold] at hmem
    have hresult := Reply.result_eq_of_inserts (List.mem_singleton.mp hmem)
    rw [hresult] at hdeleted
    cases hdeleted

end Shares

end PagedIndex
