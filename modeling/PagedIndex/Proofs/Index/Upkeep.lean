import PagedIndex.Proofs.Index.Effects
import PagedIndex.Proofs.Tree.Upkeep

/-!
# What calls make of well-formed files

The program of every call runs on all blocks that make up a well-formed file, whatever tree they
hold and wherever the cursor is, and leaves a well-formed file. Nothing is asked of the order of the
entries, so this is true of any collation that a file is opened with.

## Main definitions

* `View.WellFormed` — a view of the blocks of a well-formed file.
* `Request.Upheld` — what becomes of a well-formed file by the program of a request.

## Main statements

* `Call.upheld` — the program of a call runs on all blocks of a well-formed file.
-/

namespace PagedIndex

/-- The blocks of a view make up a well-formed file. -/
structure View.WellFormed (l : Layout) (v : View) : Prop where
  workable : l.Workable
  board : ∃ c : Board, c.Shown l v ∧ c.WellFormed l

/-- What the program of a request comes to on the blocks of a well-formed file: it ends with `r` and
the view `w`, which is that of a well-formed file if there is no error. -/
structure Request.Upheld (q : Request) (l : Layout) (v : View) (r : Except Error q.α) (w : View) :
    Prop where
  runs : q.program.Runs l.blockSize { v with held := fun _ => none } r w
  wellFormed : ∀ a, r = .ok a → w.WellFormed l ∧ ∀ c, q.cursor a = some c → c.Aligned l

section Upheld

variable {l : Layout} {v w : View} {q : Request} {ix : Index}

theorem View.WellFormed.settled (h : v.WellFormed l) : v.Settled l.format l.blockSize := by
  obtain ⟨c, hc, hwellFormed⟩ := h.board
  exact hwellFormed.settled h.workable hc

/-- The view of a file without blocks. -/
theorem View.wellFormed_empty (hl : l.Workable) :
    View.WellFormed l ⟨fun _ => none, fun _ => none, {}⟩ := by
  have hhas : ∀ p ∈ ({} : Pointers).fields, Board.Has ⟨fun _ => none, {}⟩ p := by
    intro p hp
    simp only [Pointers.fields, List.mem_cons, List.not_mem_nil, or_false, or_self] at hp
    exact .inl hp
  refine ⟨hl, ⟨fun _ => none, {}⟩, ⟨rfl, rfl, (fun p _ h => by cases h), fun _ _ => rfl⟩,
    fun p => ?_, (fun p _ h => by cases h), hhas, Nat.zero_le _⟩
  refine ⟨(fun h => by cases h), fun h => absurd ?_ h.1⟩
  exact congrArg BlockPos.mk (Nat.le_zero.mp h.2.2)

/-- A program that only looks leaves the file as it is. -/
theorem View.WellFormed.upheld_of_looks (h : v.WellFormed l)
    (hlooks : ∀ c : Board, c.Closed l → Program.Looks l q.program c fun a =>
      ∀ c, q.cursor a = some c → c.Aligned l) : ∃ r w, q.Upheld l v r w := by
  obtain ⟨c, hc, hwellFormed⟩ := h.board
  obtain ⟨r, w, hviews, haligned⟩ := hlooks c hwellFormed.closed { v with held := fun _ => none }
    (hc.congr rfl rfl)
  obtain ⟨hblocks, hpointers⟩ := hviews.same
  exact ⟨r, w, hviews.runs _, fun a ha =>
    ⟨⟨h.workable, c, hc.congr hblocks hpointers, hwellFormed⟩, haligned a ha⟩⟩

/-- A program that changes the file. -/
theorem View.WellFormed.upheld_of_keeps (h : v.WellFormed l)
    (hkeeps : ∀ c : Board, c.WellFormed l → Program.Keeps l q.program c fun _ _ => True)
    (haligned : ∀ a c, q.cursor a = some c → c.Aligned l) : ∃ r w, q.Upheld l v r w := by
  obtain ⟨c, hc, hwellFormed⟩ := h.board
  obtain ⟨r, w, d, hruns, hd, hend⟩ := hkeeps c hwellFormed { v with held := fun _ => none }
    (hc.congr rfl rfl)
  refine ⟨r, w, hruns, fun a ha => ⟨⟨h.workable, d, hd, ?_⟩, haligned a⟩⟩
  exact (hend a ha).1

/-- The program of a call runs on all blocks of a well-formed file. -/
theorem Call.upheld (h : v.WellFormed ix.tree.layout) (hcursor : ix.cursor.Aligned ix.tree.layout)
    (call : Call) (record : Nat) : (call.course ix record).Meets (fun _ => True) fun q =>
      ∃ r w, q.Upheld ix.tree.layout v r w := by
  refine Call.meets_request hcursor (fun program hwalks => ?_) (fun program answer hwalks => ?_)
    (fun e he => ?_) (fun target exact => ?_) ?_ (fun record => ?_) call record
  · refine h.upheld_of_looks fun c hc =>
      ((hwalks _ hc.sites).looks hc).mono fun a ha b hb => ?_
    cases hb
    exact ha
  · exact h.upheld_of_looks fun c hc => ((hwalks _ hc.sites).looks hc).mono fun _ _ => nofun
  · exact h.upheld_of_keeps (fun c hc => Tree.keeps_insert h.workable hc he)
      fun _ _ hc => Request.aligned_of_insert hc
  · refine h.upheld_of_keeps (fun c hc => Tree.keeps_delete h.workable hc) ?_
    rintro a c hc
    cases hc
    exact Cursor.aligned_park _ _
  · exact h.upheld_of_keeps (fun c hc => Program.keeps_popSlot h.workable hc) nofun
  · exact h.upheld_of_keeps (fun c hc => Program.keeps_pushSlot h.workable hc record) nofun

end Upheld

end PagedIndex
