import PagedIndex.Proofs.Tree.Delete
import PagedIndex.Proofs.Tree.Filed
import PagedIndex.Proofs.Tree.Insert

/-!
# Whole calls on a tree

Insertion and deletion as calls on a file that stays as planned over any cache and any store that
refuses nothing.

## Main definitions

* `Tree.Matches` — an entry that a target hits.
* `Tree.Inserted`, `Tree.Deleted` — what a call answers and makes of a plan.

## Main statements

* `Tree.Filed.insert_ends` — an entry comes to its place unless it, or its key, is there.
* `Tree.Filed.delete_ends` — the first entry that is hit goes, and no other.
-/

namespace PagedIndex

namespace Tree

/-- An entry of the key of a target, and with `exact` of its record position. -/
def Matches (t : Tree) (exact : Bool) (target a : Entry) : Prop :=
  t.collation.compare target.key a.key = .eq ∧ (exact = true → target.record = a.record)

instance (t : Tree) (exact : Bool) (target a : Entry) : Decidable (t.Matches exact target a) :=
  inferInstanceAs (Decidable (_ ∧ _))

/-- What an insertion answers, and makes of a plan. -/
structure Inserted (t : Tree) (e : Entry) (p : Plan) (outcome : InsertOutcome) (p' : Plan) :
    Prop where
  duplicateExact : outcome = .duplicateExact ↔ ∃ a ∈ p.entries, t.Matches true e a
  duplicateKey : outcome = .duplicateKey ↔ (¬∃ a ∈ p.entries, t.Matches true e a) ∧
    t.duplicates = false ∧ ∃ a ∈ p.entries, t.Matches false e a
  unchanged : outcome ≠ .inserted → p' = p
  inserted : outcome = .inserted → ∃ front back, p.entries = front ++ back ∧
    p'.entries = front ++ e :: back ∧ (∀ a ∈ front, Entry.compare t.collation true a e = .lt) ∧
      ∀ a ∈ back, Entry.compare t.collation true e a = .lt
  slots : p'.slots = p.slots
  levels : p'.levels ≤ p.levels + 1

/-- What a deletion answers, and makes of a plan. -/
def Deleted (t : Tree) (target : Entry) (exact : Bool) (p : Plan) (found : Option Entry)
    (p' : Plan) : Prop :=
  match found with
  | none => p' = p ∧ ∀ a ∈ p.entries, ¬t.Matches exact target a
  | some e => t.Matches exact target e ∧ p'.slots = p.slots ∧ p'.levels ≤ p.levels ∧
      ∃ front back, p.entries = front ++ e :: back ∧ p'.entries = front ++ back ∧
        ∀ a ∈ front, ¬t.Matches exact target a

variable {t : Tree} {m : Mount} {p p' : Plan} {s : Buffered} {e target a : Entry} {exact : Bool}
  {outcome : InsertOutcome}

/-- The first entry of all is not refused. -/
theorem Inserted.of_entries_eq_nil (h : t.Inserted e p outcome p') (hp : p.entries = []) :
    outcome = .inserted ∧ p'.entries = [e] := by
  have hno : ∀ {exact : Bool}, ¬∃ a ∈ p.entries, t.Matches exact e a := by
    rw [hp]
    rintro _ ⟨a, ha, -⟩
    cases ha
  cases outcome with
  | duplicateExact => exact absurd (h.duplicateExact.mp rfl) hno
  | duplicateKey => exact absurd (h.duplicateKey.mp rfl).2.2 hno
  | inserted =>
    obtain ⟨front, back, hold, hnew, -⟩ := h.inserted rfl
    obtain ⟨rfl, rfl⟩ := List.append_eq_nil_iff.mp (hold.symm.trans hp)
    exact ⟨rfl, hnew⟩

theorem Deleted.slots_eq {found : Option Entry} (h : t.Deleted target exact p found p') :
    p'.slots = p.slots := by
  cases found with
  | none => rw [h.1]
  | some => exact h.2.1

theorem Deleted.levels_le {found : Option Entry} (h : t.Deleted target exact p found p') :
    p'.levels ≤ p.levels := by
  cases found with
  | none => exact Nat.le_of_eq (congrArg Plan.levels h.1)
  | some => exact h.2.2.1

theorem matches_iff :
    t.Matches exact target a ↔ Entry.compare t.collation exact target a = .eq := by
  cases exact with
  | false => simp [Matches, Entry.compare_loose]
  | true => simp [Matches, Entry.compare_exact_eq_iff]

/-- In a file with duplicates only an entry that is there is refused. -/
theorem Inserted.outcome_eq (h : t.Inserted e p outcome p') (hduplicates : t.duplicates = true)
    (hno : ∀ a ∈ p.entries, ¬t.Matches true e a) : outcome = .inserted := by
  cases outcome with
  | inserted => rfl
  | duplicateExact =>
    obtain ⟨a, ha, hmatches⟩ := h.duplicateExact.mp rfl
    exact absurd hmatches (hno a ha)
  | duplicateKey => exact absurd (h.duplicateKey.mp rfl).2.1 (by simp [hduplicates])

/-- An entry that is not refused comes in front of those that are above it. -/
theorem Inserted.entries_eq (h : t.Inserted e p .inserted p') :
    p'.entries = p.entries.filter (Entry.compare t.collation true e · != .lt) ++
      e :: p.entries.filter (Entry.compare t.collation true e · == .lt) := by
  obtain ⟨front, back, hold, hnew, hfront, hback⟩ := h.inserted rfl
  have hbelow : ∀ a ∈ front, Entry.compare t.collation true e a ≠ .lt := by
    intro a ha
    rw [Std.OrientedCmp.gt_of_lt (hfront a ha)]
    nofun
  rw [hnew, hold, List.filter_append, List.filter_append,
    List.filter_eq_self.mpr (by simpa using hbelow),
    List.filter_eq_nil_iff.mpr (by simpa using hback),
      List.filter_eq_nil_iff.mpr (by simpa using hbelow),
    List.filter_eq_self.mpr (by simpa using hback), List.append_nil, List.nil_append]

/-- The first entry that is hit goes. -/
theorem Deleted.eq_find? {found : Option Entry} (h : t.Deleted target exact p found p') :
    found = p.entries.find? (fun a => t.Matches exact target a) ∧
      p'.entries = p.entries.eraseP fun a => t.Matches exact target a := by
  cases found with
  | none =>
    obtain ⟨rfl, hno⟩ := h
    have hmiss : ∀ a ∈ p'.entries, ¬decide (t.Matches exact target a) = true := by simpa using hno
    exact ⟨(List.find?_eq_none.mpr hmiss).symm, (List.eraseP_of_forall_not hmiss).symm⟩
  | some e =>
    obtain ⟨hhit, -, -, front, back, hold, hnew, hno⟩ := h
    have hmiss : ∀ a ∈ front, ¬decide (t.Matches exact target a) = true := by simpa using hno
    rw [hold, hnew, List.find?_append, List.find?_eq_none.mpr hmiss, List.eraseP_append_right _ hmiss]
    simp [hhit]

theorem Answers.inserted (h : Answers t e p.entries outcome p'.entries)
    (hsame : outcome ≠ .inserted → p' = p) (hslots : p'.slots = p.slots)
    (hlevels : p'.levels ≤ p.levels + 1) : t.Inserted e p outcome p' := by
  have hexact : (∃ a ∈ p.entries, t.Matches true e a) ↔
      ∃ a ∈ p.entries, t.collation.compare e.key a.key = .eq ∧ e.record = a.record := by
    simp [Matches]
  have hkey : (∃ a ∈ p.entries, t.Matches false e a) ↔
      ∃ a ∈ p.entries, t.collation.compare e.key a.key = .eq := by
    simp [Matches]
  cases outcome with
  | duplicateExact =>
    refine ⟨?_, ?_, hsame, nofun, hslots, hlevels⟩
    · exact iff_of_true rfl (hexact.mpr h.1)
    · exact iff_of_false nofun fun hno => hno.1 (hexact.mpr h.1)
  | duplicateKey =>
    obtain ⟨hno, hdup, hpresent, -⟩ := h
    refine ⟨?_, ?_, hsame, nofun, hslots, hlevels⟩
    · exact iff_of_false nofun fun hyes => hno (hexact.mp hyes)
    · exact iff_of_true rfl ⟨fun hyes => hno (hexact.mp hyes), hdup, hkey.mpr hpresent⟩
  | inserted =>
    obtain ⟨hno, hnokey, hasc, front, back, hold, hnew⟩ := h
    refine ⟨?_, ?_, hsame, fun _ => ⟨front, back, hold, hnew, ?_, ?_⟩, hslots, hlevels⟩
    · exact iff_of_false nofun fun hyes => hno (hexact.mp hyes)
    · exact iff_of_false nofun fun hyes => hnokey hyes.2.1 (hkey.mp hyes.2.2)
    · intro a ha
      rw [hnew] at hasc
      exact (precedes_iff.mp ((List.pairwise_append.mp hasc).2.2 a ha e List.mem_cons_self)).1
    · intro a ha
      rw [hnew] at hasc
      exact (precedes_iff.mp (List.rel_of_pairwise_cons (List.pairwise_append.mp hasc).2.1 ha)).1

theorem Answers.ascending {old new : List Entry} (h : Answers t e old outcome new)
    (hasc : t.Ascending old) : t.Ascending new := by
  cases outcome with
  | inserted => exact h.2.2.1
  | duplicateKey => exact h.2.2.2 ▸ hasc
  | duplicateExact => exact h.2 ▸ hasc

/-! ## Insertion -/

/-- What an insertion makes of a plan, and how its tree grows. -/
theorem revises_insert_grown (hl : t.layout.Workable) (hasc : t.Ascending p.entries)
    (hlevels : p.levels ≤ maxLevels + 1) (he : e.Storable t.layout) :
    t.Revises p (t.insert e)
      (fun outcome p' => t.Inserted e p outcome p' ∧ (outcome = .inserted →
        ∃ path splits taken, p.Grown t.layout e path splits taken p'))
      fun err => err = .internal .sizeLimit ∧ p.spare t.layout ≤ p.levels := by
  intro c hp
  refine (acts_insert hl hp hasc.loose hlevels he).mono ?_
  rintro r d (⟨outcome, p', rfl, hp', hslots, -, hans, hsame, hle, hgrown⟩ |
    ⟨rfl, hspare⟩)
  · exact .inl ⟨outcome, p', rfl, hp', (hans hasc).ascending hasc,
      (hans hasc).inserted hsame hslots hle, hgrown⟩
  · rw [hp.spare_eq hl] at hspare
    exact .inr ⟨_, rfl, rfl, Nat.le_of_lt_succ hspare⟩

/-- What an insertion makes of a plan. -/
theorem revises_insert (hl : t.layout.Workable) (hasc : t.Ascending p.entries)
    (hlevels : p.levels ≤ maxLevels + 1) (he : e.Storable t.layout) :
    t.Revises p (t.insert e) (t.Inserted e p)
      fun err => err = .internal .sizeLimit ∧ p.spare t.layout ≤ p.levels :=
  (revises_insert_grown hl hasc hlevels he).mono (fun _ _ h => h.1) fun _ h => h

/-- An entry comes to its place unless it, or its key in a file without duplicates, is there. The
call cannot fail but for want of blocks: one for each level and one for a new root. -/
theorem Filed.insert_ends (h : t.Filed m p s) (hlevels : p.levels ≤ maxLevels + 1)
    (he : e.Storable t.layout) (locked : Bool) (mode : EndMode) :
    Ends (Session.transact m.file t.layout locked mode (t.insert e)) s fun r s' =>
      (∃ outcome p', r = .ok (outcome, .ok ()) ∧ t.Filed m p' s' ∧ t.Inserted e p outcome p') ∨
        (r = .error (.internal .sizeLimit) ∧ t.Filed m p s' ∧ p.spare t.layout ≤ p.levels) := by
  have hrevises := revises_insert h.workable h.ascending hlevels he
  refine (h.transact_ends locked mode hrevises).mono ?_
  rintro r s' (hok | ⟨_, hr, hfiled, rfl, hspare⟩)
  · exact .inl hok
  · exact .inr ⟨hr, hfiled, hspare⟩

/-! ## A file without entries and one of two levels -/

def small : Tree := ⟨⟨1, 64, .modern⟩, .binary, false⟩

theorem filed_small :
    small.Filed (Session.memoryMount 64) ⟨0, none, [], []⟩ (Session.smallBuffered 64) := by
  refine filed_loaded [] ⟨by decide, by decide⟩ (by decide) nofun ?_ List.Pairwise.nil
  rw [Board.ofCells_nil]
  exact holds_empty small.layout

/-- A tree of short keys that may repeat. -/
def sample : Tree := ⟨⟨1, 512, .modern⟩, .binary, true⟩

/-- Two leaves and a separator, each key but the last one twice. -/
def sampleSubtree : Subtree :=
  .branch ⟨1536⟩ (.leaf ⟨512⟩ [⟨[0x41], 1⟩, ⟨[0x41], 2⟩])
    [(⟨[0x42], 3⟩, .leaf ⟨1024⟩ [⟨[0x42], 4⟩, ⟨[0x43], 5⟩])]

/-- The tree and a deleted block. -/
def samplePlan : Plan := ⟨2, some sampleSubtree, [⟨2048⟩], []⟩

def sampleCells : List Cell :=
  [.node (.leaf [⟨[0x41], 1⟩, ⟨[0x41], 2⟩]), .node (.leaf [⟨[0x42], 4⟩, ⟨[0x43], 5⟩]),
    .node sampleSubtree.node, .deleted .null]

def sampleHeader : Header := { Header.new 1 .modern with blockSize := 512, duplicates := true }

/-- The blocks one behind the other. -/
def sampleContents : Contents :=
  let header := (Pointers.write .modern ⟨⟨2048⟩, .null, ⟨1536⟩, ⟨2048⟩⟩
    (sampleHeader.encode.toOption.getD [])).1
  let image : Cell → Bytes
    | .node n => (n.encode sample.layout 512).toOption.getD []
    | _ => (Deleted.stamp sample.layout .null (List.replicate 512 0)).1
  .ofBytes (header ++ sampleCells.flatMap image)

theorem pointers_sample : (sampleContents.view sample.layout 4).pointers =
    ⟨⟨2048⟩, .null, ⟨1536⟩, ⟨2048⟩⟩ := by decide +kernel

theorem shown_sample : ∀ i (hi : i < sampleCells.length), sampleCells[i].Shown sample.layout
    ⟨sample.layout.blockSize * (i + 1)⟩
      (sampleContents.read (sample.layout.blockSize * (i + 1)) sample.layout.blockSize) := by
  decide +kernel

theorem workable_sample : sample.layout.Workable := ⟨by decide, by decide⟩

theorem holds_sample : samplePlan.Holds sample.layout
    (.ofCells sample.layout sampleCells
      (sampleContents.view sample.layout sampleCells.length).pointers) := by
  rw [show sampleCells.length = 4 from rfl, pointers_sample]
  refine ⟨⟨1, rfl, .branch rfl (by decide) ?_ ?_, ?_, rfl⟩,
    .ofCells (by decide) (by decide) rfl (by decide) ?_ rfl nofun, ?_⟩
  · simp only [List.map_cons, List.map_nil, List.forall_mem_cons]
    exact ⟨.leaf rfl (by decide), .leaf rfl (by decide), nofun⟩
  · simp [Subtree.full_leaf]
  · exact Subtree.full_branch.mpr (by simp)
  · exact ⟨rfl, .null, rfl, rfl⟩
  · decide

theorem ascending_sample : sample.Ascending samplePlan.entries := by
  unfold Ascending
  decide

theorem filed_sample : sample.Filed (Session.memoryMount 512) samplePlan
    (Session.loaded sampleContents fun _ _ => none) :=
  filed_loaded sampleCells workable_sample (by decide +kernel) shown_sample holds_sample
    ascending_sample

/-- A repeated key comes behind the separator that has it too. -/
theorem insert_ends_sample : ∃ s, sample.Filed (Session.memoryMount 512) samplePlan s ∧
    Ends (Session.transact 1 sample.layout false .keep (sample.insert ⟨[0x42], 9⟩)) s
      fun r s' => ∃ p', r = .ok (.inserted, .ok ()) ∧
        sample.Filed (Session.memoryMount 512) p' s' ∧ p'.entries =
          [⟨[0x41], 1⟩, ⟨[0x41], 2⟩, ⟨[0x42], 3⟩, ⟨[0x42], 4⟩, ⟨[0x42], 9⟩, ⟨[0x43], 5⟩] := by
  obtain ⟨s, hfiled⟩ : ∃ s, sample.Filed (Session.memoryMount 512) samplePlan s := ⟨_, filed_sample⟩
  refine ⟨s, hfiled, (hfiled.insert_ends (by decide) (by decide) false .keep).mono ?_⟩
  rintro r s' (⟨outcome, p', rfl, hfiled', hans⟩ | ⟨-, -, hspare⟩)
  · obtain rfl := hans.outcome_eq rfl (by decide)
    exact ⟨p', rfl, hfiled', hans.entries_eq⟩
  · exact absurd hspare (by decide)

/-! ## Deletion -/

/-- What a deletion makes of a plan, and of the blocks that leave its tree. -/
theorem revises_delete_freed (hl : t.layout.Workable) (hasc : t.Ascending p.entries)
    (hlevels : p.levels ≤ maxLevels + 1) (target : Entry) (exact : Bool) :
    t.Revises p (t.delete target exact)
      (fun found p' => t.Deleted target exact p found p' ∧
        ∃ gone, p'.free = gone ++ p.free ∧ p.blocks.Perm (gone ++ p'.blocks))
      fun _ => False := by
  intro c hp
  refine (acts_delete hl hp hasc.loose hlevels).mono ?_
  rintro r d (⟨rfl, hp', hno⟩ | ⟨e, p', front, back, rfl, hp', hold, hnew, hslots, hle, hless, hhit,
    hgone⟩)
  · exact .inl ⟨none, p, rfl, hp', hasc,
      ⟨rfl, fun a ha hmatches => hno a ha (matches_iff.mp hmatches)⟩, [], rfl, .refl _⟩
  · refine .inl ⟨some e, p', rfl, hp', ?_, ⟨matches_iff.mpr hhit, hslots, hle, front, back, hold,
      hnew, fun a ha hmatches => ?_⟩, hgone⟩
    · rw [hnew]
      exact hasc.sublist (hold ▸ (List.sublist_cons_self e back).append_left front)
    · have := matches_iff.mp hmatches
      rw [hless (.inr hasc) a ha] at this
      cases this

/-- What a deletion makes of a plan. -/
theorem revises_delete (hl : t.layout.Workable) (hasc : t.Ascending p.entries)
    (hlevels : p.levels ≤ maxLevels + 1) (target : Entry) (exact : Bool) :
    t.Revises p (t.delete target exact) (t.Deleted target exact p) fun _ => False :=
  (revises_delete_freed hl hasc hlevels target exact).mono (fun _ _ h => h.1) fun _ h => h

/-- The first entry that is hit goes, and no other. The call cannot fail. -/
theorem Filed.delete_ends (h : t.Filed m p s) (hlevels : p.levels ≤ maxLevels + 1)
    (target : Entry) (exact locked : Bool) (mode : EndMode) :
    Ends (Session.transact m.file t.layout locked mode (t.delete target exact)) s fun r s' =>
      ∃ found p', r = .ok (found, .ok ()) ∧ t.Filed m p' s' ∧ t.Deleted target exact p found p' ∧
        ((m.pointers t.layout.format s').root = .null ↔ p'.entries = []) := by
  have hrevises := revises_delete h.workable h.ascending hlevels target exact
  refine (h.transact_ends locked mode hrevises).mono ?_
  rintro r s' (⟨found, p', hr, hfiled, hdeleted⟩ | ⟨_, _, _, hfalse⟩)
  · obtain ⟨c, hp', hpointers⟩ := hfiled.exists_board
    refine ⟨found, p', hr, hfiled, hdeleted, ?_⟩
    rw [hpointers]
    exact hp'.root_eq_null_iff
  · exact hfalse.elim

/-- Of a repeated key the separator goes, which is the first entry that has it. -/
theorem delete_ends_sample : ∃ s, sample.Filed (Session.memoryMount 512) samplePlan s ∧
    Ends (Session.transact 1 sample.layout false .keep (sample.delete ⟨[0x42], 0⟩ false)) s
      fun r s' => ∃ p', r = .ok (some ⟨[0x42], 3⟩, .ok ()) ∧
        sample.Filed (Session.memoryMount 512) p' s' ∧
        p'.entries = [⟨[0x41], 1⟩, ⟨[0x41], 2⟩, ⟨[0x42], 4⟩, ⟨[0x43], 5⟩] ∧
        ((Session.memoryMount 512).pointers .modern s').root ≠ .null := by
  obtain ⟨s, hfiled⟩ : ∃ s, sample.Filed (Session.memoryMount 512) samplePlan s := ⟨_, filed_sample⟩
  refine ⟨s, hfiled, (hfiled.delete_ends (by decide) ⟨[0x42], 0⟩ false false .keep).mono ?_⟩
  rintro r s' ⟨found, p', rfl, hfiled', hdeleted, hroot⟩
  obtain ⟨rfl, hentries⟩ := hdeleted.eq_find?
  have hentries : p'.entries = [⟨[0x41], 1⟩, ⟨[0x41], 2⟩, ⟨[0x42], 4⟩, ⟨[0x43], 5⟩] := hentries
  exact ⟨p', rfl, hfiled', hentries, fun h => absurd (hroot.mp h) (by simp [hentries])⟩

end Tree

end PagedIndex
