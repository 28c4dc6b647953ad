import PagedIndex.Proofs.Index.Requests
import PagedIndex.Proofs.Tree.Deep

/-!
# What calls make of plans

The program of every call runs on all blocks that are as planned, also on a tree of any height and
from any cursor, and leaves them as planned.

## Main definitions

* `Plan.Drawn` — a view of blocks that are as planned.
* `Request.Carried` — what becomes of a plan by the program of a request.
* `Call.Does` — what a call does that is carried out.

## Main statements

* `Call.carried` — the program of a call runs on all blocks that are as planned.
* `Call.keeps_drawn` — it keeps the order that entries have when keys may repeat.
-/

namespace PagedIndex

/-- The blocks of a view are as planned. -/
structure Plan.Drawn (p : Plan) (t : Tree) (v : View) : Prop where
  workable : t.layout.Workable
  board : ∃ c : Board, c.Shown t.layout v ∧ p.Holds t.layout c
  ascending : t.Ascending p.entries

/-- What the program of a request comes to on blocks as planned: it ends with `r` and the view `w`,
which is as in another plan if there is no error. -/
structure Request.Carried (q : Request) (t : Tree) (p : Plan) (v : View) (r : Except Error q.α)
    (w : View) : Prop where
  runs : q.program.Runs t.layout.blockSize { v with held := fun _ => none } r w
  views : q.looks = true → q.program.Views { v with held := fun _ => none } r w
  drawn : ∀ a, r = .ok a → ∃ p' : Plan, p'.Drawn t w ∧ q.effect p a p' ∧
    ∀ c, q.cursor a = some c → c.Aligned t.layout

section Carried

variable {t : Tree} {p : Plan} {v : View} {q : Request} {ix : Index} {e : Entry} {record : Nat}

theorem Plan.Drawn.settled (h : p.Drawn t v) : v.Settled t.layout.format t.layout.blockSize := by
  obtain ⟨c, hc, hp⟩ := h.board
  exact hp.settled h.workable hc

/-- A program that only looks leaves all as planned. -/
theorem Plan.Drawn.carried_of_looks (h : p.Drawn t v) (heffect : ∀ a, q.effect p a p)
    (hlooks : ∀ c : Board, c.Closed t.layout → Program.Looks t.layout q.program c fun a =>
      ∀ c, q.cursor a = some c → c.Aligned t.layout) : ∃ r w, q.Carried t p v r w := by
  obtain ⟨c, hc, hp⟩ := h.board
  obtain ⟨r, w, hviews, haligned⟩ := hlooks c hp.closed { v with held := fun _ => none }
    (hc.congr rfl rfl)
  obtain ⟨hblocks, hpointers⟩ := hviews.same
  have hw : c.Shown t.layout w := hc.congr hblocks hpointers
  exact ⟨r, w, hviews.runs _, fun _ => hviews, fun a ha =>
    ⟨p, ⟨h.workable, ⟨c, hw, hp⟩, h.ascending⟩, heffect a, haligned a ha⟩⟩

/-- How a program that revises a plan runs. -/
theorem Plan.Drawn.exists_runs {α : Type} {program : Program α} {P : α → Plan → Prop}
    {E : Error → Prop} (h : p.Drawn t v) (hrevises : t.Revises p program P E) :
    ∃ r w, program.Runs t.layout.blockSize { v with held := fun _ => none } r w ∧
      ∀ a, r = .ok a → ∃ p' : Plan, p'.Drawn t w ∧ P a p' := by
  obtain ⟨c, hc, hp⟩ := h.board
  obtain ⟨r, w, d, hruns, hd, hend⟩ := hrevises c hp { v with held := fun _ => none }
    ⟨hc.pointers, hc.header, hc.held, hc.vacant⟩
  refine ⟨r, w, hruns, fun a ha => ?_⟩
  obtain ⟨b, p', hb, hp', hasc, hP⟩ | ⟨e, he, -⟩ := hend
  · cases ha.symm.trans hb
    exact ⟨p', ⟨h.workable, ⟨d, hd, hp'⟩, hasc⟩, hP⟩
  · cases ha.symm.trans he

/-- A program that revises a plan. -/
theorem Plan.Drawn.carried_of_revises (h : p.Drawn t v) (hchanges : q.looks = false)
    (hrevises : t.Revises p q.program (q.effect p) fun _ => True)
    (haligned : ∀ a c, q.cursor a = some c → c.Aligned t.layout) :
    ∃ r w, q.Carried t p v r w := by
  obtain ⟨r, w, hruns, hdrawn⟩ := h.exists_runs hrevises
  refine ⟨r, w, hruns, fun hlooks => ?_, fun a ha => ?_⟩
  · rw [hchanges] at hlooks
    cases hlooks
  · obtain ⟨p', hp', heffect⟩ := hdrawn a ha
    exact ⟨p', hp', heffect, haligned a⟩

/-! ## Record positions -/

/-- The tree of a plan stands on every board that keeps its blocks. -/
theorem Plan.Holds.reslot {l : Layout} {c d : Board} {free : List BlockPos}
    {slots : List (BlockPos × List Nat)} (h : p.Holds l c) (hledger : Ledger l d p.blocks free slots)
    (hcells : ∀ pos ∈ p.blocks, d.cells pos = c.cells pos)
    (hroot : d.pointers.root = c.pointers.root) :
    Plan.Holds l d { p with free := free, slots := slots } := by
  refine ⟨?_, hledger, h.storable⟩
  obtain ⟨levels, tree, free', slots'⟩ := p
  have htree := h.tree
  cases tree with
  | none => exact ⟨htree.1, hroot.trans htree.2⟩
  | some x =>
    obtain ⟨depth, hlevels, honBoard, hfull, hpos⟩ := htree
    exact ⟨depth, hlevels, honBoard.congr hcells, hfull, hroot.trans hpos⟩

/-- What a reservation makes of a plan. -/
theorem Tree.revises_popSlot (hl : t.layout.Workable) (hasc : t.Ascending p.entries) :
    t.Revises p (Program.popSlot t.layout)
      (fun found p' => p.Popped found p' ∧ p.freeLists.Gives found p'.freeLists) fun _ => False := by
  intro c hp
  refine (hp.ledger.acts_popSlot hl).mono ?_
  rintro r d (⟨hnil, rfl, rfl⟩ | ⟨record, free, slots, rfl, hgives, hledger, hcells, hroot⟩)
  · have hfreeLists : p.freeLists = [] := by rw [Plan.freeLists, hnil, List.map_nil]
    refine .inl ⟨none, p, rfl, hp, hasc, ⟨rfl, ?_⟩, hfreeLists, hfreeLists⟩
    rw [← p.flatten_freeLists, hfreeLists, List.flatten_nil]
  · exact .inl ⟨some record, { p with free := free, slots := slots }, rfl,
      hp.reslot hledger hcells hroot, hasc, ⟨hgives.flatten, rfl, rfl⟩, hgives⟩

/-- What a release makes of a plan. -/
theorem Tree.revises_pushSlot (hl : t.layout.Workable) (hasc : t.Ascending p.entries) :
    t.Revises p (Program.pushSlot t.layout record)
      (fun _ p' => p.Pushed record p' ∧ record ≤ t.layout.maxRecord ∧
        p'.freeLists = p.freeLists.put t.layout record)
      fun e => (e = .invalidKey (.positionTooLarge record t.layout.format) ∧
        t.layout.maxRecord < record) ∨ (e = .internal .sizeLimit ∧ p.spare t.layout = 0) := by
  intro c hp
  refine (hp.ledger.acts_pushSlot hl).mono ?_
  rintro r d (⟨rfl, hrecord, free, slots, hledger, hput, hcells, hroot⟩ | ⟨rfl, hlarge⟩ | ⟨rfl, hfull⟩)
  · refine .inl ⟨(), { p with free := free, slots := slots }, rfl, hp.reslot hledger hcells hroot,
      hasc, ⟨?_, rfl, rfl⟩, hrecord, hput⟩
    rw [← Plan.flatten_freeLists, ← Plan.flatten_freeLists,
      show Plan.freeLists ⟨_, _, _, _⟩ = _ from hput]
    exact FreeLists.flatten_put _ _ _
  · exact .inr ⟨_, rfl, .inl ⟨rfl, hlarge⟩⟩
  · exact .inr ⟨_, rfl, .inr ⟨rfl, hp.spare_eq hl ▸ hfull⟩⟩

/-! ## All calls -/

theorem Index.storable_of_entryOf {raw : Bytes} (h : ix.entryOf raw record = .ok e) :
    e.Storable ix.tree.layout := by
  unfold entryOf keyOf Key.normalize at h
  split at h
  · cases h
  · simp only [bind, Except.bind, pure, Except.pure] at h
    split at h
    · cases h
    · next hmark =>
      split at h
      · cases h
      · next hrecord =>
        cases h
        exact ⟨Bytes.length_resize _ _ _, hmark, Nat.le_of_not_gt hrecord⟩

theorem Cursor.aligned_park {l : Layout} (state : KeyState) (e : Entry) :
    (Cursor.park state e).Aligned l := nofun

theorem Cursor.aligned_land_null {l : Layout} (e : Entry) : (Cursor.land e .null).Aligned l := by
  intro pos hpos
  cases hpos
  exact Nat.dvd_zero _

/-- What a call asks for: a move or an inspection that walks along the links of the file, or one of
the changes of a file. -/
theorem Call.meets_request {P : Request → Prop} (hcursor : ix.cursor.Aligned ix.tree.layout)
    (hmove : ∀ program : Program Cursor, (∀ sites, ix.tree.layout.Sites sites →
      program.Walks ix.tree.layout sites (Cursor.Aligned ix.tree.layout)) → P (.move program))
    (hinspect : ∀ {α : Type} (program : Program α) (answer : α → Answer),
      (∀ sites, ix.tree.layout.Sites sites →
        program.Walks ix.tree.layout sites fun _ => True) → P (.inspect program answer))
    (hinsert : ∀ e : Entry, e.Storable ix.tree.layout → P (.insert ix.tree e))
    (hdelete : ∀ target exact, P (.delete ix.tree target exact))
    (hreserve : P (.reserve ix.tree.layout)) (hrelease : ∀ record, P (.release ix.tree.layout record))
    (call : Call) (record : Nat) : (call.course ix record).Meets (fun _ => True) P := by
  have hstep : ∀ {sites}, ix.tree.layout.Sites sites → ∀ c : Cursor,
      c = ix.cursor ∨ c.Points sites → c.Aligned ix.tree.layout := by
    rintro sites hsites c (rfl | h)
    · exact hcursor
    · exact h.aligned hsites
  cases call with
  | find key =>
    simp only [course]
    split
    · trivial
    · exact Course.meets_check (fun _ _ => trivial) fun key _ =>
        hmove _ fun _ hsites => (Tree.walks_find hsites.null key).mono fun _ h => h.aligned hsites
  | findLast start =>
    exact Course.meets_check (fun _ _ => trivial) fun padded _ =>
      hmove _ fun _ hsites =>
        (Tree.walks_findLast hsites.null padded _).mono fun _ h => h.aligned hsites
  | next =>
    exact hmove _ fun _ hsites => (Tree.walks_next hsites.null fun hint h => .inl (hcursor hint h)).mono
      (hstep hsites)
  | previous =>
    exact hmove _ fun _ hsites => (Tree.walks_previous hsites.null).mono (hstep hsites)
  | insert key =>
    exact Course.meets_writing (fun _ => trivial) fun _ =>
      Course.meets_check (fun _ _ => trivial) fun e he => hinsert e (Index.storable_of_entryOf he)
  | delete key byPosition =>
    refine Course.meets_writing (fun _ => trivial) fun _ => ?_
    split
    · split
      · exact hdelete _ _
      · trivial
    · exact Course.meets_check (fun _ _ => trivial) fun key _ => hdelete _ _
  | reserve =>
    refine Course.meets_writing (fun _ => trivial) fun _ => ?_
    split
    · trivial
    · exact hreserve
  | release =>
    refine Course.meets_writing (fun _ => trivial) fun _ => ?_
    split
    · trivial
    · exact hrelease record
  | stats => exact hinspect _ _ fun _ _ => Tree.walks_survey
  | verify => exact hinspect _ _ fun _ _ => Tree.walks_survey
  | outline => exact hinspect _ _ fun _ _ => Tree.walks_outline

theorem Request.aligned_of_insert {outcome : InsertOutcome} {c : Cursor}
    (h : (Request.insert t e).cursor outcome = some c) : c.Aligned t.layout := by
  simp only [Request.insert] at h
  split at h
  · cases h
    exact Cursor.aligned_land_null e
  · cases h

/-- The program of a call runs on all blocks that are as planned. -/
theorem Call.carried (h : p.Drawn ix.tree v) (hcursor : ix.cursor.Aligned ix.tree.layout)
    (call : Call) (record : Nat) :
    (call.course ix record).Meets (fun _ => True) fun q => ∃ r w, q.Carried ix.tree p v r w := by
  refine Call.meets_request hcursor (fun program hwalks => ?_) (fun program answer hwalks => ?_)
    (fun e he => ?_) (fun target exact => ?_) ?_ (fun record => ?_) call record
  · refine h.carried_of_looks (fun _ => rfl) fun c hc =>
      ((hwalks _ hc.sites).looks hc).mono fun a ha b hb => ?_
    cases hb
    exact ha
  · exact h.carried_of_looks (fun _ => rfl) fun c hc =>
      ((hwalks _ hc.sites).looks hc).mono fun _ _ => nofun
  · exact h.carried_of_revises rfl ((Tree.revises_insert_any h.workable h.ascending he).mono
      (fun _ _ h => h.1) fun _ _ => trivial) fun _ _ hc => Request.aligned_of_insert hc
  · refine h.carried_of_revises rfl ((Tree.revises_delete_any h.workable h.ascending target exact).mono
      (fun _ _ h => h.1) fun _ _ => trivial) ?_
    rintro a c hc
    cases hc
    exact Cursor.aligned_park _ _
  · exact h.carried_of_revises rfl ((Tree.revises_popSlot h.workable h.ascending).mono
      (fun _ _ h => h.1) fun _ _ => trivial) nofun
  · exact h.carried_of_revises rfl ((Tree.revises_pushSlot h.workable h.ascending).mono
      (fun _ _ h => h.1) fun _ _ => trivial) nofun

/-- The program of a call keeps the order that entries have when keys may repeat, whether they may
for the handle or not. -/
theorem Call.keeps_drawn (h : p.Drawn ix.tree.loose v) (hcursor : ix.cursor.Aligned ix.tree.layout)
    (call : Call) (record : Nat) : (call.course ix record).Meets (fun _ => True) fun q =>
      ∃ r w, q.program.Runs ix.tree.layout.blockSize { v with held := fun _ => none } r w ∧
        ∀ a, r = .ok a → ∃ p' : Plan, p'.Drawn ix.tree.loose w := by
  have hrevised : ∀ {α : Type} {program : Program α} {P : α → Plan → Prop} {E : Error → Prop},
      ix.tree.loose.Revises p program P E → ∃ r w,
        program.Runs ix.tree.layout.blockSize { v with held := fun _ => none } r w ∧
          ∀ a, r = .ok a → ∃ p' : Plan, p'.Drawn ix.tree.loose w := by
    intro α program P E hrevises
    obtain ⟨r, w, hruns, hdrawn⟩ := h.exists_runs hrevises
    exact ⟨r, w, hruns, fun a ha => (hdrawn a ha).imp fun _ hp' => hp'.1⟩
  refine Call.meets_request hcursor (fun program hwalks => ?_) (fun program answer hwalks => ?_)
    (fun e he => ?_) (fun target exact => ?_) ?_ (fun record => ?_) call record
  · exact hrevised (Tree.revises_of_looks (fun c hp => (hwalks _ hp.closed.sites).looks hp.closed)
      h.ascending)
  · exact hrevised (Tree.revises_of_looks (fun c hp => (hwalks _ hp.closed.sites).looks hp.closed)
      h.ascending)
  · exact hrevised (Tree.revises_insert_loose (t := ix.tree) h.workable h.ascending he)
  · exact hrevised (Tree.revises_delete_loose (t := ix.tree) h.workable h.ascending target exact)
  · exact hrevised (Tree.revises_popSlot h.workable h.ascending)
  · exact hrevised (Tree.revises_pushSlot (t := ix.tree.loose) h.workable h.ascending)

/-- A handle that may not change the file only looks at it. -/
theorem Call.looks_of_not_writable (h : ix.mode.writable = false) (call : Call) (record : Nat) :
    (call.course ix record).Meets (fun _ => True) fun q => q.looks = true := by
  have hrefused : ∀ c : Course, (c.writing ix).Meets (fun _ => True) fun q => q.looks = true := by
    intro c
    refine Course.meets_writing (fun _ => trivial) fun hw => ?_
    rw [h] at hw
    cases hw
  cases call with
  | find key =>
    simp only [course]
    split
    · trivial
    · exact Course.meets_check (fun _ _ => trivial) fun _ _ => rfl
  | findLast start => exact Course.meets_check (fun _ _ => trivial) fun _ _ => rfl
  | insert _ | delete _ _ | reserve | release => exact hrefused _
  | next | previous | stats | verify | outline => rfl

end Carried

/-! ## What calls do -/

/-- What a call does to a plan that is carried out: what it answers, where the cursor is then, and
which record position is in the cell. -/
inductive Call.Does (call : Call) (ix : Index) (record : Nat) (p : Plan) :
    Answer → Cursor → Nat → Plan → Prop
  | decided {answer : Answer} (hcourse : call.course ix record = .decided (.ok answer)) :
      Does call ix record p answer ix.cursor record p
  | asks {q : Request} {a : q.α} {p' : Plan} (hcourse : call.course ix record = .asks q)
      (heffect : q.effect p a p') :
      Does call ix record p (q.answer a) ((q.cursor a).getD ix.cursor) ((q.record a).getD record) p'

/-- The requests that calls on a tree come to. -/
inductive Request.Known (t : Tree) : Request → Prop
  | move (program : Program Cursor) : Known t (.move program)
  | survey (check : Bool) : Known t (.inspect (t.survey check) .counted)
  | outline : Known t (.inspect t.outline .shaped)
  | insert (e : Entry) : Known t (.insert t e)
  | delete (target : Entry) (exact : Bool) : Known t (.delete t target exact)
  | reserve : Known t (.reserve t.layout)
  | release (record : Nat) : Known t (.release t.layout record)

section Does

variable {call : Call} {ix : Index} {p p' : Plan} {answer : Answer} {c : Cursor}
  {record record' : Nat} {e : Entry}

/-- A call comes to one of these, or is decided without blocks and has inserted nothing. -/
theorem Call.course_known (call : Call) (ix : Index) (record : Nat) :
    (call.course ix record).Meets (fun r => r ≠ .ok (.inserted .inserted))
      (Request.Known ix.tree) := by
  cases call with
  | find key =>
    simp only [course]
    split
    · exact fun h => by cases h
    · exact Course.meets_check (fun _ _ h => by cases h) fun _ _ => .move _
  | findLast start => exact Course.meets_check (fun _ _ h => by cases h) fun _ _ => .move _
  | next | previous => exact .move _
  | insert key =>
    exact Course.meets_writing (fun _ h => by cases h) fun _ =>
      Course.meets_check (fun _ _ h => by cases h) fun e _ => .insert e
  | delete key byPosition =>
    refine Course.meets_writing (fun _ h => by cases h) fun _ => ?_
    split
    · split
      · exact .delete _ _
      · exact fun h => by cases h
    · exact Course.meets_check (fun _ _ h => by cases h) fun _ _ => .delete _ _
  | reserve =>
    refine Course.meets_writing (fun _ h => by cases h) fun _ => ?_
    split
    · exact fun h => by cases h
    · exact .reserve
  | release =>
    refine Course.meets_writing (fun _ h => by cases h) fun _ => ?_
    split
    · exact fun h => by cases h
    · exact .release record
  | stats => exact .survey false
  | verify => exact .survey true
  | outline => exact .outline

/-- No entry goes but the one that a deletion answers and parks at. -/
theorem Call.Does.stays (h : call.Does ix record p answer c record' p') (he : e ∈ p.entries) :
    e ∈ p'.entries ∨ answer = .deleted .deleted ∧ c.current = some e := by
  cases h with
  | decided => exact .inl he
  | @asks q a _ hcourse heffect =>
    have hknown := call.course_known ix record
    rw [hcourse] at hknown
    cases (hknown : q.Known ix.tree) with
    | move | survey | outline => exact .inl ((heffect : p' = p) ▸ he)
    | insert e' =>
      have hinserted : ix.tree.Inserted e' p a p' := heffect
      by_cases ha : a = .inserted
      · obtain ⟨front, back, hold, hnew, -⟩ := hinserted.inserted ha
        rw [hold] at he
        rw [hnew]
        refine .inl (List.mem_append.mpr ((List.mem_append.mp he).imp_right ?_))
        exact List.mem_cons_of_mem e'
      · exact .inl (hinserted.unchanged ha ▸ he)
    | delete target exact =>
      have hdeleted : ix.tree.Deleted target exact p a p' := heffect
      cases a with
      | none => exact .inl (hdeleted.1 ▸ he)
      | some e' =>
        obtain ⟨-, -, -, front, back, hold, hnew, -⟩ := hdeleted
        rw [hold] at he
        rw [hnew]
        rcases List.mem_append.mp he with hfront | hback
        · exact .inl (List.mem_append_left _ hfront)
        · rcases List.mem_cons.mp hback with rfl | hback
          · exact .inr ⟨rfl, rfl⟩
          · exact .inl (List.mem_append_right _ hback)
    | reserve =>
      have hpopped : p.Popped a p' := heffect
      cases a with
      | none => exact .inl (hpopped.1 ▸ he)
      | some found => exact .inl (hpopped.2.1 ▸ he)
    | release record' =>
      have hpushed : p.Pushed record' p' := heffect
      exact .inl (hpushed.2.1 ▸ he)

/-- What was inserted is there, and the cursor is on it. -/
theorem Call.Does.inserted (h : call.Does ix record p (.inserted .inserted) c record' p') :
    ∃ e, c.current = some e ∧ e ∈ p'.entries := by
  generalize hanswer : Answer.inserted .inserted = answer at h
  have hknown := call.course_known ix record
  cases h with
  | decided hcourse =>
    rw [hcourse, ← hanswer] at hknown
    exact absurd rfl hknown
  | @asks q a _ hcourse heffect =>
    rw [hcourse] at hknown
    cases (hknown : q.Known ix.tree) with
    | move | survey | outline | delete | reserve | release => cases hanswer
    | insert e =>
      cases hanswer
      obtain ⟨front, back, -, hnew, -⟩ := Tree.Inserted.inserted heffect rfl
      refine ⟨e, rfl, ?_⟩
      rw [hnew]
      exact List.mem_append_right _ List.mem_cons_self

end Does

end PagedIndex
