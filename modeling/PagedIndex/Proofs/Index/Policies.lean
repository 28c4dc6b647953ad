import PagedIndex.Proofs.Index.FileGroups
import PagedIndex.Proofs.Tree.Parted

/-!
# Duplicate policies

A file that was made without duplicates is opened again and again, each time with some duplicate
policy. What the header says of duplicates is never changed. So a file in which keys repeat, because
a handle on it allowed them to, is opened as if none did, with any policy. Its entries are always in
the order that they have when keys may repeat, and a check of the file is passed if and only if no
key repeats or the handle that asks for it allows duplicates.

## Main definitions

* `FileTask.Obeys` — tasks that do not make a file anew, with one collation.
* `FileState.Planned` — a file without duplicates by its header, in the order of its entries.

## Main statements

* `Plan.Drawn.ok_survey_iff` — when a check is passed.
* `FileTask.Alters.planned`, `FileTask.Tells.planned` — what one task, and any number of them,
  leave.
* `FileGroup.verify_of_reopen` — what a check of a file says that is opened again.
-/

namespace PagedIndex

/-! ## Checks of blocks that are as planned -/

section Survey

variable {l : Layout} {t : Tree} {c : Board} {v w : View} {p : Plan} {pos : BlockPos} {n : Node}
  {r : Except Error IndexStats}

/-- A tree block that is shown is read. -/
theorem Board.Shown.cells_read (h : c.Shown l v) (hcell : c.cells pos = some (.node n)) :
    (Board.read l v.blocks v.pointers).cells pos = some (.node n) := by
  obtain ⟨image, hblock, -, hshown⟩ := h.held pos _ hcell
  exact Board.cells_read_eq_some_iff.mpr
    ⟨h.ne_null hcell, image, hblock, Cell.read?_eq_node_iff.mpr hshown⟩

/-- A check that is passed has seen the tree of the plan. -/
theorem Plan.Drawn.of_surveyed {stats : IndexStats} {tree : Option Outline} {free : List BlockPos}
    {slots : List (BlockPos × List Nat)} (h : p.Drawn t.loose v)
    (hs : t.Surveyed (Board.read t.layout v.blocks v.pointers) stats tree free slots) :
    p.levels ≤ maxLevels + 1 ∧ t.Ascending p.entries := by
  obtain ⟨c, hc, hp⟩ := h.board
  obtain ⟨levels, planned, _, _⟩ := p
  have htree := hp.tree
  cases planned with
  | none =>
    obtain ⟨rfl, -⟩ := htree
    exact ⟨Nat.zero_le _, List.Pairwise.nil⟩
  | some x =>
    obtain ⟨depth, rfl, honBoard, -, hroot⟩ := htree
    have hsurveyed := hs.onBoard
    have hasc := hs.ascending
    have hpointers : v.pointers.root = x.pos := hc.pointers ▸ hroot
    cases tree with
    | none =>
      refine absurd (hpointers.symm.trans hsurveyed.1) (hp.ledger.ne_null ?_)
      exact List.mem_append_left _ honBoard.pos_mem
    | some o =>
      obtain ⟨depth', ho, hdepth', hpos, -⟩ := hsurveyed
      obtain ⟨hopos, -, hsubtree, hentries, -⟩ := ho.subtree (l := t.layout) fun pos n =>
        Board.fits_of_cells_read h.workable.blockSize_pos
      -- both trees stand below the root of the blocks that are read
      have hread : x.OnBoard t.layout (Board.read t.layout v.blocks v.pointers).cells depth :=
        honBoard.congr fun q hq => by
          obtain ⟨n, hn, -⟩ := honBoard.closed q hq
          exact (hc.cells_read hn).trans hn.symm
      have hsame : x.pos = o.subtree.pos := hpointers.symm.trans (hpos.trans hopos.symm)
      obtain rfl := hread.depth_eq hsubtree hsame
      obtain rfl := hread.eq_of_pos hsubtree hsame
      refine ⟨Nat.succ_le_succ hdepth', ?_⟩
      show t.Ascending o.subtree.entries
      rw [hentries]
      exact hasc

/-- A check of blocks in the order that they have when keys may repeat is passed if the tree is not
too deep and they are in the order of the tree. -/
theorem Plan.Drawn.ok_survey_iff (h : p.Drawn t.loose v)
    (hruns : (t.survey true).Runs t.layout.blockSize { v with held := fun _ => none } r w) :
    (∃ stats, r = .ok stats) ↔ p.levels ≤ maxLevels + 1 ∧ t.Ascending p.entries := by
  constructor
  · rintro ⟨stats, rfl⟩
    obtain ⟨tree, free, slots, hs⟩ := Tree.surveyed_of_reads (Tree.walks_survey.reader.reads hruns)
    exact h.of_surveyed hs
  · rintro ⟨hlevels, hasc⟩
    obtain ⟨c, hc, hp⟩ := h.board
    have hacts : Program.Acts t.layout (t.survey true) c _ :=
      Tree.acts_survey h.workable hp hasc hlevels
    obtain ⟨r', w', d, hruns', -, -, stats, hr, -⟩ :=
      hacts { v with held := fun _ => none } (hc.congr rfl rfl)
    exact ⟨stats, (hruns.unique hruns').1.trans hr⟩

end Survey

/-! ## One task -/

/-- A task that does not make a file anew, under one collation, and allows duplicates only if
`loose` is set. -/
def FileTask.Obeys (col : Collation) (loose : Bool) : FileTask → Prop
  | opening options => options.mode ≠ .create ∧ options.collation = col ∧
      (options.duplicates = .allow → loose = true)
  | _ => True

/-- A file with a header. Its entries are in order, with keys that repeat only if `loose` is set. -/
def FileDescription.Planned (h : Header) (col : Collation) (loose : Bool) (f : FileDescription) :
    Prop :=
  f.header = h ∧ ∃ p : Plan, p.Drawn ⟨h.layout, col, loose⟩ f.view

/-- The same of what is known of a file, the handle on it being under the collation. -/
def FileState.Planned (h : Header) (col : Collation) (loose : Bool) : FileState → Prop
  | void _ => False
  | closed f => f.Planned h col loose
  | opened ix f => f.Planned h col loose ∧ ix.tree.collation = col ∧
      (ix.tree.duplicates = true → loose = true)

section Planned

variable {h : Header} {col : Collation} {loose : Bool} {f f' : FileDescription} {st st' : FileState}
  {e : FileTask} {record : Nat} {told : Told} {ix : Index}

theorem Plan.Drawn.congr {p : Plan} {t : Tree} {v w : View} (h : p.Drawn t v)
    (hblocks : w.blocks = v.blocks) (hpointers : w.pointers = v.pointers) : p.Drawn t w := by
  obtain ⟨c, hc, hp⟩ := h.board
  exact ⟨h.workable, ⟨c, hc.congr hblocks hpointers, hp⟩, h.ascending⟩

/-- What is written back stays as it was. -/
theorem FileDescription.Planned.flush (hf : f.Planned h col loose)
    (hbecomes : f.Becomes (.ok ()) { f.view with held := fun _ => none } f') :
    f'.Planned h col loose := by
  obtain ⟨hheader, p, hp⟩ := hf
  have hview := hbecomes.view () rfl
  exact ⟨hbecomes.header.trans hheader, p, hp.congr (by rw [hview]) (by rw [hview])⟩

/-- A call keeps entries in order, and keys that do not repeat unless the handle or another one
before allowed it. -/
theorem FileDescription.Planned.call {q : Request} {r : Except Error q.α} {v : View} {c : Call}
    (hst : (FileState.opened ix f).WellFormed) (hplanned : (FileState.opened ix f).Planned h col loose)
    (hcourse : c.course ix record = .asks q)
    (hruns : q.program.Runs f.header.blockSize { f.view with held := fun _ => none } r v)
    (hbecomes : f.Becomes r v f') : f'.Planned h col loose := by
  obtain ⟨-, hlayout, hcursor⟩ := hst
  obtain ⟨⟨hheader, p, hp⟩, hcollation, hduplicates⟩ := hplanned
  have hsize : f.header.blockSize = ix.tree.layout.blockSize := congrArg Layout.blockSize hlayout.symm
  rw [hsize] at hruns
  cases r with
  | error e =>
    rw [hbecomes.same e rfl]
    exact ⟨hheader, p, hp⟩
  | ok a =>
    refine ⟨hbecomes.header.trans hheader, ?_⟩
    rw [hbecomes.view a rfl]
    have htree : ∀ {b}, ix.tree.duplicates = b → ix.tree = ⟨h.layout, col, b⟩ := by
      rintro b rfl
      rw [← hcollation, ← hheader, ← hlayout]
    cases loose with
    | true =>
      have hloose : ix.tree.loose = ⟨h.layout, col, true⟩ := congrArg Tree.loose (htree rfl)
      have hkeeps := Call.keeps_drawn (hloose ▸ hp) hcursor c record
      rw [hcourse, hloose] at hkeeps
      obtain ⟨r', w, hruns', hdrawn⟩ := hkeeps
      obtain ⟨rfl, rfl⟩ := hruns.unique hruns'
      exact hdrawn a rfl
    | false =>
      have hstrict : ix.tree = ⟨h.layout, col, false⟩ :=
        htree (Bool.eq_false_iff.mpr fun htrue => Bool.false_ne_true (hduplicates htrue))
      have hcarried := Call.carried (hstrict ▸ hp) hcursor c record
      rw [hcourse] at hcarried
      obtain ⟨r', w, hq⟩ := hcarried
      obtain ⟨rfl, rfl⟩ := hruns.unique hq.runs
      obtain ⟨p', hp', -⟩ := hq.drawn a rfl
      exact ⟨p', hstrict ▸ hp'⟩

/-- A file that was made without duplicates stays in order. -/
theorem FileTask.Alters.planned (halters : e.Alters st record told st')
    (hh : h.duplicates = false) (hobeys : e.Obeys col loose) (hst : st.WellFormed)
    (hplanned : st.Planned h col loose) : st'.Planned h col loose := by
  cases halters with
  | idle | decided => exact hplanned
  | refused hmakes =>
    cases hmakes with
    | found => exact hplanned
    | failed hmode | made hmode => exact absurd hmode hobeys.1
  | @opened options _ f _ hmakes hadmits =>
    obtain ⟨hmode, hcollation, hallow⟩ := hobeys
    cases hmakes with
    | made hcreate => exact absurd hcreate hmode
    | found =>
      obtain ⟨hheader, hp⟩ := hplanned
      refine ⟨⟨hheader, hp⟩, hcollation, fun hduplicates => hallow ?_⟩
      simpa [OpenOptions.opens, hheader, hh] using hduplicates
  | called hcourse hruns hbecomes =>
    exact ⟨FileDescription.Planned.call hst hplanned hcourse hruns hbecomes, hplanned.2⟩
  | flushed hbecomes => exact ⟨hplanned.1.flush hbecomes, hplanned.2⟩
  | closed hbecomes => exact hplanned.1.flush hbecomes

/-- So it does in any number of tasks. -/
theorem FileTask.Tells.planned {face : Store} {tasks : List FileTask} {tolds : List Told}
    (htells : FileTask.Tells face tasks st record tolds st') (hh : h.duplicates = false)
    (hobeys : ∀ e ∈ tasks, e.Obeys col loose) (hst : st.WellFormed)
    (hplanned : st.Planned h col loose) : st'.Planned h col loose := by
  induction htells with
  | nil => exact hplanned
  | cons halters _ hwellFormed _ ih =>
    obtain ⟨hfirst, hrest⟩ := List.forall_mem_cons.mp hobeys
    exact ih hrest hwellFormed (halters.planned hh hfirst hst hplanned)

/-- A file that has been made without duplicates has no entries. -/
theorem FileTask.Alters.planned_made {options : OpenOptions}
    (halters : (FileTask.opening options).Alters st record (.opened (.ok h)) st')
    (hmode : options.mode = .create) (hduplicates : options.duplicates ≠ .allow)
    (hwellFormed : st'.WellFormed) :
      h.duplicates = false ∧ st'.Planned h options.collation loose := by
  cases halters with
  | @opened _ _ f _ hmakes hadmits =>
    cases hmakes with
    | found hother => exact absurd hmode hother
    | made _ hmade =>
      have hfalse : f.header.duplicates = false := by
        rw [hmade.duplicates]
        simpa using hduplicates
      refine ⟨hfalse, ⟨rfl, ⟨0, none, [], []⟩, ?_⟩, rfl, fun htrue => ?_⟩
      · rw [hmade.view]
        exact Plan.drawn_empty hwellFormed.1.wellFormed.workable
      · simp [OpenOptions.opens, hfalse, hduplicates] at htrue

end Planned

/-! ## Opening a file again -/

section Reopening

variable {f : FileDescription} {st' : FileState} {options : OpenOptions} {record : Nat} {told : Told}

/-- A file without duplicates is opened with any policy. -/
theorem OpenOptions.admits_iff {header : Header} (hduplicates : header.duplicates = false) :
    options.admits header = .ok () ↔
      (options.keyLength = 0 ∨ options.keyLength = header.keyLength) ∧
      ∀ length, header.fixedRecordLength = some length →
        options.fixedRecordLength = some length := by
  unfold OpenOptions.admits
  rw [hduplicates]
  by_cases hlength : options.keyLength = 0 ∨ options.keyLength = header.keyLength
  · have hno : (options.keyLength ≠ 0 && options.keyLength ≠ header.keyLength) = false := by
      simpa [or_iff_not_imp_left] using hlength
    rw [hno]
    cases header.fixedRecordLength with
    | none => exact iff_of_true rfl ⟨hlength, nofun⟩
    | some length =>
      by_cases hfixed : options.fixedRecordLength = some length
      · simp [hlength, hfixed, pure, Except.pure]
      · simp [hfixed, bind, Except.bind, throw, throwThe, MonadExceptOf.throw]
  · have hyes : (options.keyLength ≠ 0 && options.keyLength ≠ header.keyLength) = true := by
      simpa [not_or] using hlength
    rw [hyes]
    exact iff_of_false (fun h => nomatch h) fun h => hlength h.1

/-- A file that is there is opened if it may be. -/
theorem FileTask.Alters.reopened (h : (FileTask.opening options).Alters (.closed f) record told st')
    (hmode : options.mode ≠ .create) (hadmits : options.admits f.header = .ok ()) :
    told = .opened (.ok f.header) ∧ st' = .opened (options.opens f.header) f := by
  cases h with
  | idle hidle => exact hidle.elim
  | refused hmakes hrefused =>
    cases hmakes with
    | found => exact absurd hadmits (hrefused rfl f rfl)
    | failed hcreate | made hcreate => exact absurd hcreate hmode
  | opened hmakes =>
    cases hmakes with
    | found => exact ⟨rfl, rfl⟩
    | made hcreate => exact absurd hcreate hmode

/-- What is told of a check. -/
theorem FileTask.Alters.verified {ix : Index} {p : Plan}
    (h : (FileTask.call none .verify).Alters (.opened ix f) record told st')
    (hlayout : ix.tree.layout = f.header.layout) (hp : p.Drawn ix.tree.loose f.view) :
    ∃ reply, told = .replied reply ∧ ((∃ stats, reply.result = .ok (.counted stats)) ↔
      p.levels ≤ maxLevels + 1 ∧ ix.tree.Ascending p.entries) := by
  cases h with
  | idle hidle => exact hidle.elim
  | decided hcourse => exact nomatch hcourse
  | @called _ _ _ _ _ _ q r v o hcourse hruns hbecomes ho =>
    refine ⟨_, rfl, ?_⟩
    cases hcourse
    have hsize : f.header.blockSize = ix.tree.layout.blockSize := congrArg Layout.blockSize hlayout.symm
    rw [hsize] at hruns
    rw [← hp.ok_survey_iff hruns, ho]
    cases r with
    | ok stats => exact ⟨fun _ => ⟨stats, rfl⟩, fun _ => ⟨stats, rfl⟩⟩
    | error e => exact ⟨nofun, nofun⟩

end Reopening

namespace FileGroup

variable {ι : Type} [DecidableEq ι] {sites : ι → Site} {d : Disk} {cells : Array Nat} {i : ι}
  {buffers : Nat} {made : OpenOptions} {header : Header} {events : List (Event ι)}
  {tolds : List (ι × Told)} {σ : FileGroup ι}

/-- A file that is made without duplicates is known to be in order after any tasks but another
making of it. -/
theorem planned_of_made {loose : Bool} (hlaid : Laid sites d cells) (hmode : made.mode = .create)
    (hduplicates : made.duplicates ≠ .allow)
    (hobeys : ∀ e ∈ events.filterMap (Event.on i), e.Obeys made.collation loose)
    (hruns : Event.runs sites (.task i (.opening made) :: events) (new buffers d cells) = (tolds, σ))
    (hmade : (Event.toldOf i tolds).head? = some (.opened (.ok header))) :
    header.duplicates = false ∧
      ∃ sts, σ.Valid sites sts ∧ (sts i).Planned header made.collation loose := by
  obtain ⟨st, hwellFormed, hin⟩ := hlaid.proper i
  obtain ⟨sts, rfl, honBoard⟩ := hlaid.valid buffers hwellFormed hin
  obtain ⟨tolds', st', htells⟩ := FileTask.exists_tells hwellFormed (sites i).store
    (.opening made :: events.filterMap (Event.on i)) (cells.getD (sites i).cell 0)
  rw [← Event.filterMap_on_self] at htells
  obtain ⟨htold, sts', rfl, hend⟩ := honBoard.events hlaid.apart ⟨rfl, rfl⟩ htells
  rw [hruns] at htold hend
  rw [Event.filterMap_on_self] at htells
  cases htells with
  | cons halters hcomes hwellFormed' hrest =>
    rw [htold] at hmade
    obtain rfl := Option.some.inj hmade
    obtain ⟨hfalse, hplanned⟩ := halters.planned_made hmode hduplicates hwellFormed'
    exact ⟨hfalse, sts', hend, hrest.planned hfalse hobeys hwellFormed' hplanned⟩

/-- A file is made without duplicates and opened any number of times after that, with any policies.
What lies in its volume then has no duplicates by its header, so that no policy keeps it from being
opened. Its entries are in the order that they have when keys may repeat. No key repeats if no
handle allowed duplicates. A check that is asked for by a new handle is passed if and only if the
tree is not too deep and no key repeats or that handle allows it. -/
theorem verify_of_reopen (hlaid : Laid sites d cells) (hmode : made.mode = .create)
    (hduplicates : made.duplicates ≠ .allow)
    (hevents : ∀ options, .opening options ∈ events.filterMap (Event.on i) →
      options.mode ≠ .create ∧ options.collation = made.collation)
    (hruns : Event.runs sites (.task i (.opening made) :: events) (new buffers d cells) = (tolds, σ))
    (hmade : (Event.toldOf i tolds).head? = some (.opened (.ok header)))
    (hclosed : σ.handles i = none) :
    ∃ (f : FileDescription) (p : Plan), (σ.workspace.disk.contents (sites i).store.volume).Holds f ∧
      f.header = header ∧ header.duplicates = false ∧
      p.Drawn ⟨header.layout, made.collation, true⟩ f.view ∧
      ((∀ options, .opening options ∈ events.filterMap (Event.on i) → options.duplicates ≠ .allow) →
        p.entries.Pairwise fun a b => made.collation.compare a.key b.key ≠ .eq) ∧
      ∀ options : OpenOptions, options.mode ≠ .create → options.collation = made.collation →
        (options.keyLength = 0 ∨ options.keyLength = header.keyLength) →
        (∀ length, header.fixedRecordLength = some length →
          options.fixedRecordLength = some length) →
        ∃ reply, Event.toldOf i (Event.runs sites
            [.task i (.opening options), .task i (.call none .verify)] σ).1 =
          [.opened (.ok header), .replied reply] ∧
          ((∃ stats, reply.result = .ok (.counted stats)) ↔ p.levels ≤ maxLevels + 1 ∧
            (options.duplicates = .allow ∨
              p.entries.Pairwise fun a b => made.collation.compare a.key b.key ≠ .eq)) := by
  -- keys may repeat from the first opening on that allows them to
  obtain ⟨loose, hloose⟩ : ∃ loose, loose = true ↔ ∃ options : OpenOptions,
      .opening options ∈ events.filterMap (Event.on i) ∧ options.duplicates = .allow :=
    ⟨_, @decide_eq_true_iff _ (Classical.dec _)⟩
  have hobeys : ∀ e ∈ events.filterMap (Event.on i), e.Obeys made.collation loose := by
    rintro (options | _) he
    · obtain ⟨hother, hcollation⟩ := hevents options he
      exact ⟨hother, hcollation, fun hallow => hloose.mpr ⟨options, he, hallow⟩⟩
    all_goals exact trivial
  obtain ⟨hfalse, sts, honBoard, hplanned⟩ :=
    planned_of_made hlaid hmode hduplicates hobeys hruns hmade
  obtain ⟨hopen, hin⟩ := (honBoard.shown i).closed
  specialize hin hclosed
  cases hst : sts i with
  | void bytes => exact (hst ▸ hplanned).elim
  | opened ix f => exact absurd hst (hopen.mp hclosed ix f)
  | closed f =>
    rw [hst] at hin hplanned
    obtain ⟨rfl, p, hp⟩ := hplanned
    have hloosely : p.Drawn ⟨f.header.layout, made.collation, true⟩ f.view :=
      ⟨hp.workable, hp.board, hp.ascending.loose⟩
    refine ⟨f, p, hin, rfl, hfalse, hloosely, fun hnone => ?_,
      fun options hmode hcollation hlength hfixed => ?_⟩
    · refine (Tree.ascending_iff_loose.mp hp.ascending).2 (Bool.eq_false_iff.mpr fun htrue => ?_)
      obtain ⟨options, hoptions, hallow⟩ := hloose.mp htrue
      exact hnone options hoptions hallow
    · have hadmits := (OpenOptions.admits_iff hfalse).mpr ⟨hlength, hfixed⟩
      obtain ⟨tolds', st', htells⟩ := FileTask.exists_tells (honBoard.wellFormed i) (sites i).store
        [.opening options, .call none .verify] (σ.workspace.cell (sites i).cell)
      have hown : [FileTask.opening options, .call none .verify] =
          [Event.task i (.opening options), .task i (.call none .verify)].filterMap (Event.on i) := by
        simp [Event.on]
      obtain ⟨htold, -⟩ := honBoard.events hlaid.apart ⟨rfl, rfl⟩ (hown ▸ htells)
      rw [hst] at htells
      cases htells with
      | cons hopened _ hwellFormed hrest =>
        obtain ⟨rfl, rfl⟩ := hopened.reopened hmode hadmits
        cases hrest with
        | cons hcalled _ _ hend =>
          cases hend
          rw [← hcollation] at hloosely ⊢
          obtain ⟨reply, rfl, hreply⟩ := hcalled.verified hwellFormed.2.1 hloosely
          refine ⟨reply, htold, hreply.trans (and_congr_right fun _ => ?_)⟩
          refine Tree.ascending_iff_loose.trans ((and_iff_right hloosely.ascending).trans ?_)
          simp [OpenOptions.opens, hfalse, or_iff_not_imp_left]

/-- A file is closed after it was made, and twice the same key is put into it by a handle that
allows it. -/
def repeating : List (Event (Fin 1)) :=
  [.task 0 .close, .task 0 (.opening { mode := .exclusive, duplicates := .allow }),
    .task 0 (.call (some 1) (.insert [0x41])), .task 0 (.call (some 2) (.insert [0x41])),
    .task 0 .close]

/-- Whether the file made in a run has no fixed record length and is closed at the end, and a handle
that allows duplicates passes the check it asks for then, while another does not. -/
def repeats (sites : Fin 1 → Site) : List (Fin 1 × Told) × FileGroup (Fin 1) → Bool
  | (tolds, σ) =>
    (match (Event.toldOf 0 tolds).head? with
      | some (.opened (.ok header)) => header.fixedRecordLength.isNone
      | _ => false) && (σ.handles 0).isNone &&
    (match Event.toldOf 0 (Event.runs sites [.task 0 (.opening { duplicates := .allow }),
        .task 0 (.call none .verify)] σ).1 with
      | [_, .replied reply] => (reply.result matches .ok (.counted _))
      | _ => false) &&
    match Event.toldOf 0 (Event.runs sites [.task 0 (.opening {}), .task 0 (.call none .verify)] σ).1
      with
      | [_, .replied reply] => (reply.result matches .error _)
      | _ => false

/-- The check that the next handle that allows duplicates asks for is passed, but not the one that a
handle with the default policy asks for. -/
theorem verify_of_reopen_repeating :
    let sites := fun i : Fin 1 => (⟨.ofMemory i none, i⟩ : Site)
    let made := FileTask.opening { mode := .create, keyLength := 1, blockSize := 512 }
    let reopened := fun options => [Event.task 0 (.opening options), .task 0 (.call none .verify)]
    ∃ tolds σ header reply reply' stats f, ∃ p : Plan,
      Event.runs sites (.task 0 made :: repeating)
        (new 4 { volumes := Array.replicate 1 {} } (Array.replicate 1 0)) = (tolds, σ) ∧
      Event.toldOf 0 (Event.runs sites (reopened { duplicates := .allow }) σ).1 =
        [.opened (.ok header), .replied reply] ∧ reply.result = .ok (.counted stats) ∧
      Event.toldOf 0 (Event.runs sites (reopened {}) σ).1 =
        [.opened (.ok header), .replied reply'] ∧
      (∀ stats, reply'.result ≠ .ok (.counted stats)) ∧
      (σ.workspace.disk.contents 0).Holds f ∧ f.header = header ∧
      p.Drawn ⟨header.layout, .binary, true⟩ f.view ∧
      ¬p.entries.Pairwise fun a b => Collation.binary.compare a.key b.key ≠ .eq := by
  intro sites made reopened
  have hchecked : repeats sites (Event.runs sites (.task 0 made :: repeating)
      (new 4 { volumes := Array.replicate 1 {} } (Array.replicate 1 0))) = true := by decide +kernel
  unfold repeats at hchecked
  have hevents : ∀ options, .opening options ∈ repeating.filterMap (Event.on 0) →
      options.mode ≠ .create ∧ options.collation = .binary := by
    simp [repeating, Event.on]
  have hlaid : Laid sites { volumes := Array.replicate 1 {} } (Array.replicate 1 0) := laid_memory 1
  cases hruns : Event.runs sites (.task 0 made :: repeating)
    (new 4 { volumes := Array.replicate 1 {} } (Array.replicate 1 0)) with
  | mk tolds σ =>
    rw [hruns] at hchecked
    simp only [Bool.and_eq_true] at hchecked
    obtain ⟨⟨⟨hmade, hclosed⟩, hpassed⟩, hfailed⟩ := hchecked
    split at hmade
    · next header hhead =>
      obtain ⟨f, p, hholds, hheader, -, hp, -, hverify⟩ := verify_of_reopen hlaid rfl (by decide)
        hevents hruns hhead (Option.isNone_iff_eq_none.mp hclosed)
      have hfree : ∀ length, header.fixedRecordLength = some length → none = some length := by
        rw [Option.isNone_iff_eq_none.mp hmade]
        exact fun _ h => h
      obtain ⟨reply, htold, hreply⟩ :=
        hverify { duplicates := .allow } (by decide) rfl (.inl rfl) hfree
      obtain ⟨reply', htold', hreply'⟩ := hverify {} (by decide) rfl (.inl rfl) hfree
      simp only [htold] at hpassed
      simp only [htold'] at hfailed
      obtain ⟨stats, hstats⟩ : ∃ stats, reply.result = .ok (.counted stats) := by
        split at hpassed
        · next stats heq => exact ⟨stats, heq⟩
        · cases hpassed
      have hnone : ∀ stats, reply'.result ≠ .ok (.counted stats) := by
        intro stats hstats'
        rw [hstats'] at hfailed
        cases hfailed
      refine ⟨tolds, σ, header, reply, reply', stats, f, p, rfl, htold, hstats, htold', hnone, hholds,
        hheader, hp, fun hkeys => ?_⟩
      obtain ⟨stats', hstats'⟩ := hreply'.mpr ⟨(hreply.mp ⟨stats, hstats⟩).1, .inr hkeys⟩
      exact hnone stats' hstats'
    · cases hmade

end FileGroup

end PagedIndex
