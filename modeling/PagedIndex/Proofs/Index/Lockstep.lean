import PagedIndex.Proofs.Index.Turns

/-!
# Several handles and one

Over a store that refuses nothing, handles that share a file are told what one handle on the file
would be told that makes all the calls, with the cursor and the record position of the caller.

## Main definitions

* `Index.Alike` — handles that treat keys and records alike.
* `Call.Tells` — what a call comes to over a store that refuses nothing.
* `Lockstep` — handles that share a file, and one handle on a file with the same blocks.

## Main statements

* `Lockstep.plays_eq_playsAlone` — several handles are told what one handle would be told.
-/

namespace PagedIndex

/-- Two handles that treat keys and records alike. -/
structure Index.Alike (a b : Index) : Prop where
  tree : a.tree = b.tree
  truncate : a.truncate = b.truncate
  fixed : a.header.fixedRecordLength.isNone = b.header.fixedRecordLength.isNone
  writable : a.mode.writable = b.mode.writable

/-- The same is asked for on handles that are alike and have the same cursor. -/
theorem Call.course_alike {a b : Index} (h : a.Alike b) (hcursor : a.cursor = b.cursor)
    (call : Call) (record : Nat) : call.course a record = call.course b record := by
  have hkey : a.keyOf = b.keyOf := by
    unfold Index.keyOf
    rw [h.tree, h.truncate]
  have hentry : a.entryOf = b.entryOf := by
    unfold Index.entryOf
    rw [hkey, h.tree]
  have hwriting : Course.writing a = Course.writing b := by
    unfold Course.writing
    rw [h.writable]
  cases call <;> simp only [course, h.tree, h.fixed, hcursor, hkey, hentry, hwriting]

/-! ## Calls over a store that refuses nothing -/

/-- What a call comes to over a store that refuses nothing: what is told, the plan, and the view. -/
inductive Call.Tells (call : Call) (ix : Index) (p : Plan) (v : View) (record : Nat) :
    Reply → Plan → View → Prop
  | decided {r : Except Error Answer} (hcourse : call.course ix record = .decided r) :
      Tells call ix p v record ⟨r, ix.cursor, record⟩ p v
  | done {q : Request} {a : q.α} {p' : Plan} {v' : View} (hcourse : call.course ix record = .asks q)
      (hcarried : q.Carried ix.tree p v (.ok a) v') (hdrawn : p'.Drawn ix.tree v')
      (haligned : ∀ c, q.cursor a = some c → c.Aligned ix.tree.layout) :
      Tells call ix p v record
        ⟨.ok (q.answer a), (q.cursor a).getD ix.cursor, (q.record a).getD record⟩ p' v'
  | failed {q : Request} {e : Error} {v' : View} (hcourse : call.course ix record = .asks q)
      (hcarried : q.Carried ix.tree p v (.error e) v') :
      Tells call ix p v record ⟨.error e, ix.cursor, record⟩ p v

section Tells

variable {call : Call} {a b ix : Index} {p p' : Plan} {v v' : View} {record : Nat} {reply : Reply}
  {w : Workspace}

theorem Call.exists_tells (hp : p.Drawn ix.tree v) (hcursor : ix.cursor.Aligned ix.tree.layout)
    (call : Call) (record : Nat) : ∃ reply p' v', call.Tells ix p v record reply p' v' := by
  have hcarried := call.carried hp hcursor record
  cases hcourse : call.course ix record with
  | decided r => exact ⟨_, _, _, .decided hcourse⟩
  | asks q =>
    rw [hcourse] at hcarried
    obtain ⟨r, v', hq⟩ := hcarried
    cases r with
    | error e => exact ⟨_, _, _, .failed hcourse hq⟩
    | ok a =>
      obtain ⟨p', hp', -, haligned⟩ := hq.drawn a rfl
      exact ⟨_, p', v', .done hcourse hq hp' haligned⟩

/-- The same is told on handles that are alike and have the same cursor. -/
theorem Call.Tells.alike (h : call.Tells a p v record reply p' v') (hab : a.Alike b)
    (hcursor : a.cursor = b.cursor) : call.Tells b p v record reply p' v' := by
  have hcourse := Call.course_alike hab hcursor call record
  cases h with
  | decided h =>
    rw [hcursor]
    exact .decided (hcourse ▸ h)
  | done h hcarried hdrawn haligned =>
    rw [hcursor]
    rw [hab.tree] at hcarried hdrawn haligned
    exact .done (hcourse ▸ h) hcarried hdrawn haligned
  | failed h hcarried =>
    rw [hcursor]
    rw [hab.tree] at hcarried
    exact .failed (hcourse ▸ h) hcarried

theorem Call.Tells.drawn (h : call.Tells ix p v record reply p' v') (hp : p.Drawn ix.tree v) :
    p'.Drawn ix.tree v' := by
  cases h with
  | decided | failed => exact hp
  | done _ _ hdrawn => exact hdrawn

theorem Call.Tells.aligned (h : call.Tells ix p v record reply p' v')
    (hcursor : ix.cursor.Aligned ix.tree.layout) : reply.cursor.Aligned ix.tree.layout := by
  cases h with
  | decided | failed => exact hcursor
  | @done q a _ _ _ _ _ haligned =>
    show ((q.cursor a).getD ix.cursor).Aligned ix.tree.layout
    cases hc : q.cursor a with
    | none => exact hcursor
    | some c => exact haligned c hc

/-- What is left of a call over a store that refuses nothing. -/
structure Index.Settled (ix : Index) (v : View) (s t : Buffered) : Prop where
  blocksAs : Session.BlocksAs ix.mount ix.tree.layout.format v t
  works : Session.Works ix.mount s t
  safe : t.Safe
  idle : ix.mode = .shared → s.Idle ix.file → t.Idle ix.file

/-- The end of a call on a handle as told. -/
structure Index.Told (ix : Index) (reply : Reply) (v : View) (w : Workspace)
    (r : Except Error Answer) (c : Cursor) (w' : Workspace) : Prop where
  result : r = reply.result
  cursor : c = reply.cursor
  workspace : ∃ s, w' = (w.withBelow ix.cache s).setCell ix.cell reply.record ∧
    ix.Settled v (w.below ix.cache) s

theorem Index.Told.reply_eq {r : Except Error Answer} {c : Cursor} {w' : Workspace}
    (h : ix.Told reply v w r c w') (hcell : ix.cell < w.cells.size) :
    ⟨r, c, w'.cell ix.cell⟩ = reply := by
  obtain ⟨rfl, rfl, s, rfl, -⟩ := h
  rw [Workspace.cell_setCell (show ix.cell < (w.withBelow ix.cache s).cells.size from hcell)]

/-- A call over a store that refuses nothing. -/
theorem Call.Tells.run_ends (h : call.Tells ix p v (w.cell ix.cell) reply p' v')
    (hfinds : ix.Finds v w) (hp : p.Drawn ix.tree v) (hsafe : (w.below ix.cache).Safe)
    (hreliable : ix.store.Reliable w.disk) :
    Ends call.run (ix, w) fun r σ => σ.1 = { ix with cursor := σ.1.cursor } ∧
      ix.Told reply v' w r σ.1.cursor σ.2 := by
  refine Call.run_ends ?_
  cases h with
  | decided hcourse =>
    rw [hcourse]
    refine ⟨rfl, rfl, rfl, w.below ix.cache, ?_, hfinds.blocksAs, .refl _, hsafe, fun _ h => h⟩
    rw [Workspace.withBelow_below, Workspace.setCell_cell]
  | @done q a _ _ hcourse hcarried hdrawn _ =>
    simp only [hcourse, Course.Meets]
    refine Ends.mono (hfinds.transact hp hcarried) fun o s hcallOutcome => ?_
    obtain ⟨hsafe', hok, -⟩ := hcallOutcome.reliable hsafe hreliable
    obtain rfl := hok a rfl
    refine ⟨rfl, rfl, rfl, s, rfl, ?_⟩
    obtain ⟨-, ⟨_, _, -, -, hkept⟩ | ⟨⟨e, he⟩, -⟩⟩ :=
      hcallOutcome.secured ⟨hsafe.flushable, .inl hreliable.takes⟩
    · refine ⟨hkept.blocksAs, hcallOutcome.works, hsafe', fun hmode _ => hkept.idle ?_⟩
      rw [hmode]
      rfl
    · cases he
  | @failed q e _ hcourse hcarried =>
    simp only [hcourse, Course.Meets]
    refine Ends.mono (hfinds.transact hp hcarried) fun o s hcallOutcome => ?_
    obtain ⟨hsafe', -, herror⟩ := hcallOutcome.reliable hsafe hreliable
    obtain rfl := herror e rfl
    refine ⟨rfl, rfl, rfl, s, rfl, ?_⟩
    obtain ⟨-, ⟨_, _, -, ho, -⟩ | ⟨-, hleft⟩⟩ :=
      hcallOutcome.secured ⟨hsafe.flushable, .inl hreliable.takes⟩
    · cases ho
    · obtain ⟨hblocksAs, -, hidle⟩ := hleft.undone trivial
      refine ⟨hblocksAs, hcallOutcome.works, hsafe', fun hmode => hidle ?_⟩
      rw [hmode]
      rfl

end Tells

/-! ## Several handles and one -/

section Lockstep

variable {ι : Type}

/-- Handles that share a file, and one handle on a file with the same blocks that keeps the cursors
and the record positions of their callers. No store refuses anything. -/
structure Lockstep (handles : ι → Index) (w : Workspace) (callers : ι → Caller) (ix : Index)
    (w₀ : Workspace) (p : Plan) (v : View) : Prop where
  sharing : Sharing handles v w
  alike : ∀ i, (handles i).Alike ix
  callers : ∀ i, callers i = ⟨(handles i).cursor, w.cell (handles i).cell⟩
  reliable : ∀ i, (handles i).store.Reliable w.disk
  safe : ∀ i, (w.below (handles i).cache).Safe
  finds : ix.Finds v w₀
  reliable_one : ix.store.Reliable w₀.disk
  safe_one : (w₀.below ix.cache).Safe
  drawn : p.Drawn ix.tree v
  aligned : ∀ i, (handles i).cursor.Aligned ix.tree.layout

variable [DecidableEq ι] {handles : ι → Index} {w w₀ : Workspace} {callers : ι → Caller} {ix : Index}
  {p : Plan} {v : View}

/-- In each turn the same is told, and handles and handle stay in step. -/
theorem Lockstep.turn (h : Lockstep handles w callers ix w₀ p v) (turn : Turn ι) :
    (turn.play handles w).1 = (turn.playAlone callers ix w₀).1 ∧
      ∃ p' v', Lockstep (turn.play handles w).2.1 (turn.play handles w).2.2
        (turn.playAlone callers ix w₀).2.1 (turn.playAlone callers ix w₀).2.2.1
          (turn.playAlone callers ix w₀).2.2.2
        p' v' := by
  have hfinds := h.sharing.finds turn.handle
  have halike := h.alike turn.handle
  have hcaller := h.callers turn.handle
  -- the same is told on both sides
  have hdrawn : p.Drawn (handles turn.handle).tree v := halike.tree ▸ h.drawn
  have haligned : (handles turn.handle).cursor.Aligned (handles turn.handle).tree.layout :=
    halike.tree ▸ h.aligned turn.handle
  obtain ⟨reply, p', v', htells⟩ := turn.call.exists_tells hdrawn haligned
    (turn.record.getD (w.cell (handles turn.handle).cell))
  have hn := @Workspace.cell_setCell w (handles turn.handle).cell
    (turn.record.getD (w.cell (handles turn.handle).cell)) hfinds.cell
  have hn_one := @Workspace.cell_setCell w₀ ix.cell
    (turn.record.getD (callers turn.handle).record) h.finds.cell
  have htells_one : turn.call.Tells { ix with cursor := (callers turn.handle).cursor } p v
      ((w₀.setCell ix.cell (turn.record.getD (callers turn.handle).record)).cell ix.cell)
      reply p' v' := by
    rw [hn_one, hcaller]
    exact htells.alike ⟨halike.tree, halike.truncate, halike.fixed, halike.writable⟩ rfl
  rw [← hn] at htells
  obtain ⟨r, c, w', htold, hplay⟩ := turn.play_ends handles w
    (htells.run_ends (hfinds.setCell _ _) hdrawn (h.safe _) (h.reliable _))
  obtain ⟨r₀, c₀, w₀', htold_one, hplayAlone⟩ := turn.playAlone_ends callers ix w₀
    (htells_one.run_ends ((h.finds.setCell _ _).withCursor _) h.drawn h.safe_one h.reliable_one)
  rw [hplay, hplayAlone]
  have hreply := htold.reply_eq (hfinds.setCell _ _).cell
  have hreply_one := htold_one.reply_eq (h.finds.setCell _ _).cell
  refine ⟨hreply.trans hreply_one.symm, p', v', ?_⟩
  obtain ⟨rfl, rfl, s, rfl, hs⟩ := htold
  obtain ⟨rfl, rfl, s₀, rfl, hs₀⟩ := htold_one
  have hsharing := ((h.sharing.setCell _ _).after hs.works hs.blocksAs
    (hs.idle (h.sharing.shared _) (h.sharing.idle _))).setCell (handles turn.handle).cell reply.record
  have hdisk := hs.works.disk
  refine ⟨hsharing.congr fun j => rfl, fun j => ?_, fun j => ?_, fun j => (h.reliable j).follows hdisk,
    fun j => ?_, (((h.finds.setCell _ _).withBelow hs₀.blocksAs).setCell _ _).withCursor _,
    h.reliable_one.follows hs₀.works.disk, ?_, htells_one.drawn h.drawn, fun j => ?_⟩
  · obtain ⟨htree, htruncate, hfixed, hwritable⟩ := h.alike j
    exact ⟨htree, htruncate, hfixed, hwritable⟩
  · by_cases hj : j = turn.handle
    · have hcell := congrArg Reply.record hreply
      have hcell_one := congrArg Reply.record hreply_one
      simp only [hj, if_true]
      exact congrArg (Caller.mk _) (hcell_one.trans hcell.symm)
    · simp only [hj, if_false, h.callers j]
      refine congrArg (Caller.mk _) ?_
      rw [Workspace.cell_setCell_ne (h.sharing.cells _ _ hj)]
      exact (Workspace.cell_setCell_ne (h.sharing.cells _ _ hj)).symm
  · exact Workspace.safe_withBelow (hfinds.setCell _ _).cache (h.safe j) hs.safe hdisk
  · exact Workspace.safe_withBelow (h.finds.setCell _ _).cache h.safe_one hs₀.safe hs₀.works.disk
  · show Cursor.Aligned _ (if j = turn.handle then reply.cursor else (handles j).cursor)
    split
    · exact htells_one.aligned (hcaller ▸ h.aligned _)
    · exact h.aligned j

/-- Several handles are told what one handle would be told that makes all the calls. -/
theorem Lockstep.plays_eq_playsAlone (h : Lockstep handles w callers ix w₀ p v)
    (turns : List (Turn ι)) :
    (plays turns handles w).1 = (playsAlone turns callers ix w₀).1 ∧
      ∃ p' v', Lockstep (plays turns handles w).2.1 (plays turns handles w).2.2
        (playsAlone turns callers ix w₀).2.1 (playsAlone turns callers ix w₀).2.2.1
          (playsAlone turns callers ix w₀).2.2.2
        p' v' := by
  induction turns generalizing handles w callers ix w₀ p v with
  | nil => exact ⟨rfl, p, v, h⟩
  | cons turn rest ih =>
    obtain ⟨htold, p', v', h'⟩ := h.turn turn
    obtain ⟨hrest, hend⟩ := ih h'
    exact ⟨by simp only [plays, playsAlone, htold, hrest], hend⟩

/-- Two handles on a memory area of one block, and one handle on another. -/
theorem lockstep_small : Lockstep (fun i : Fin 2 => smallIndex i .shared)
    (smallWorkspace fun _ _ => none) (fun i => ⟨{}, (smallWorkspace fun _ _ => none).cell i⟩)
    (smallIndex 0 .exclusive) (smallWorkspace fun _ _ => none) ⟨0, none, [], []⟩
    ⟨fun _ => none, fun _ => none, {}⟩ := by
  have hreliable : (Store.ofMemory 0 none).Reliable (smallWorkspace fun _ _ => none).disk :=
    ⟨fun _ _ => rfl, rfl, .inl rfl⟩
  exact ⟨sharing_small _, fun _ => ⟨rfl, rfl, rfl, rfl⟩, fun _ => rfl, fun _ => hreliable,
    fun i => safe_loaded i.isLt, finds_small (by decide), hreliable, safe_loaded (by decide),
    Plan.drawn_empty workable_small, fun _ => nofun⟩

/-- The second handle finds and deletes what the first one has inserted, as the one handle does. -/
theorem plays_eq_playsAlone_small :
    (plays [⟨0, none, .insert [0x41]⟩, ⟨1, none, .find [0x41]⟩, ⟨1, none, .delete [0x41] true⟩]
      (fun i : Fin 2 => smallIndex i .shared) (smallWorkspace fun _ _ => none)).1 =
    (playsAlone [⟨0, none, .insert [0x41]⟩, ⟨1, none, .find [0x41]⟩, ⟨1, none, .delete [0x41] true⟩]
      (fun i : Fin 2 => ⟨{}, (smallWorkspace fun _ _ => none).cell i⟩) (smallIndex 0 .exclusive)
      (smallWorkspace fun _ _ => none)).1 :=
  (lockstep_small.plays_eq_playsAlone _).1

end Lockstep

end PagedIndex
