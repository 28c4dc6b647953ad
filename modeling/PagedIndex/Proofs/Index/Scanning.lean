import Mathlib
import PagedIndex.CommandLine
import PagedIndex.Proofs.Index.OnlyReading
import PagedIndex.Proofs.Index.Refused

/-!
# Scans

A scan on the command line lists the entries from a key on. It ends at the first entry whose key is
beyond the end of the scan, as far as that end is long. Because keys that ascend do not descend
again when they are cut, no entry behind it is missed.

## Main definitions

* `Disk.Bears` — a file as planned that a name leads to.
* `CommandLine.listed` — the entries that a scan has to list.
* `CommandLine.scanned` — what it leaves to the shell.

## Main statements

* `CommandLine.listFrom_eq` — what the loop of a scan writes.
* `CommandLine.run_scan` — a whole run.
-/

namespace PagedIndex

/-! ## Keys that are cut -/

/-- What is cut from ascending keys does not descend. -/
theorem Collation.isLE_take {c : Collation} {a b : Bytes} (n : Nat) (h : (c.compare a b).isLE) :
    (c.compare (a.take n) (b.take n)).isLE := by
  induction n generalizing a b with
  | zero => rw [List.take_zero, List.take_zero]; rfl
  | succ n ih =>
    cases a with
    | nil => cases b <;> rfl
    | cons x a =>
      cases b with
      | nil => cases h
      | cons y b =>
        rw [List.take_succ_cons, List.take_succ_cons]
        unfold compare at h ⊢
        cases hxy : Ord.compare (c.weight x) (c.weight y) with
        | lt => rfl
        | eq =>
          rw [hxy] at h
          exact ih h
        | gt =>
          rw [hxy] at h
          cases h

/-- What is true of all elements in front of one of which it is true is true of the elements up to
the first of which it is not. -/
theorem takeWhile_eq_filter {α : Type} {P : α → Bool} {l : List α}
    (h : l.Pairwise fun a b => P b = true → P a = true) : l.takeWhile P = l.filter P := by
  induction h with
  | nil => rfl
  | @cons a l hfirst _ ih =>
    cases ha : P a with
    | true => rw [List.takeWhile_cons_of_pos ha, List.filter_cons_of_pos ha, ih]
    | false =>
      have hnone : l.filter P = [] := List.filter_eq_nil_iff.mpr fun b hb hPb => by
        rw [hfirst b hb hPb] at ha
        cases ha
      rw [List.takeWhile_cons_of_neg (by simp [ha]), List.filter_cons_of_neg (by simp [ha]), hnone]

namespace CommandLine

/-- A key behind one that is past the end of a scan is past it too. -/
theorem isPast_mono {a b last : Bytes} (hab : (Collation.binary.compare a b).isLE)
    (ha : isPast a last = true) : isPast b last = true := by
  unfold isPast at *
  rw [beq_iff_eq] at *
  exact Std.TransCmp.gt_of_isGE_of_gt (Std.OrientedCmp.isGE_of_isLE (Collation.isLE_take _ hab)) ha

/-! ## Lines -/

def entryLine (e : Entry) : String := Key.text e.key ++ " -> " ++ toString e.record

def withLines (output : String) (lines : List String) : String :=
  lines.foldl (fun output line => output ++ line ++ "\n") output

theorem withLines_eq (output : String) (lines : List String) :
    withLines output lines = output ++ String.join (lines.map (· ++ "\n")) := by
  induction lines generalizing output with
  | nil => simp [withLines]
  | cons line rest ih =>
    have := ih (output ++ line ++ "\n")
    unfold withLines at this ⊢
    rw [List.foldl_cons, this, List.map_cons, String.join_cons, String.append_assoc,
      String.append_assoc,
      String.append_assoc]

/-! ## Calls -/

variable {ix : Index} {w : Workspace} {p : Plan} {output : String}

/-- What is known of a call that answers with a state. -/
theorem ends_of_state {x : IndexM KeyState} {σ : Index × Workspace}
    {Q : Except Error Answer → Index × Workspace → Prop}
    (h : Ends (do return Answer.state (← x)) σ Q) : Ends x σ fun r τ => Q (r.map .state) τ := by
  have hbind : (do return Answer.state (← x) : IndexM Answer) σ = match x σ with
      | .ok s τ => .ok (.state s) τ
      | .error e τ => .error e τ := by
    show EStateM.bind x _ _ = _
    unfold EStateM.bind
    cases x σ <;> rfl
  unfold Ends at h ⊢
  rw [hbind] at h
  cases hx : x σ <;> rw [hx] at h <;> exact h

/-- A call that does not fail is made on the command line. -/
theorem on_eq_ok {α : Type} {x : IndexM α} {Q : α → Index × Workspace → Prop}
    (h : Ends x (ix, w) fun r σ => ∃ a, r = .ok a ∧ Q a σ) :
    ∃ a ix' w', on ix x ⟨w, output⟩ = .ok (a, ix') ⟨w', output⟩ ∧ Q a (ix', w') := by
  unfold Ends at h
  cases hx : x (ix, w) with
  | error e σ =>
    rw [hx] at h
    obtain ⟨a, ha, -⟩ := h
    cases ha
  | ok a σ =>
    rw [hx] at h
    obtain ⟨_, ⟨⟩, hQ⟩ := h
    obtain ⟨ix', w'⟩ := σ
    refine ⟨a, ix', w', ?_, hQ⟩
    unfold on onWorkspace
    simp only [hx]

/-- One that fails ends the run. -/
theorem on_eq_error {α : Type} {x : IndexM α} {e : Error} {σ : Index × Workspace}
    (h : x (ix, w) = .error e σ) (he : e ≠ .outOfRange) :
    on ix x ⟨w, output⟩ = .error (.failed e.message) ⟨σ.2, output⟩ := by
  unfold on onWorkspace
  simp [h, he, Complaint.ofError]

/-- Giving a file up does not fail. -/
theorem drop_ends (ix : Index) (w : Workspace) (output : String) :
    Ends (drop ix) ⟨w, output⟩ fun r c => r = .ok () ∧ c.output = output := by
  have hclose : Ends Index.close (ix, w) fun _ _ => True := by
    unfold Ends
    split <;> exact trivial
  have hdrop : Ends Index.drop (ix, w) fun r _ => ∃ u : Unit, r = .ok u ∧ True :=
    Ends.attempt_bind hclose fun _ _ _ => ⟨(), rfl, trivial⟩
  obtain ⟨⟨⟩, ix', w', hon, -⟩ := @on_eq_ok _ _ output _ _ _ hdrop
  exact Ends.ok_bind hon ⟨rfl, rfl⟩

/-- Counting goes on, but for the last number of 32 bits where sums are checked. -/
theorem countOne_eq {checked : Bool} {count : Nat} (hcount : checked = true → count < 2 ^ 31) :
    ∃ w', countOne checked ix (.ofNat count) ⟨w, output⟩ =
      if checked && count + 1 = 2 ^ 31 then .error .abandoned ⟨w', output⟩
      else .ok (.ofNat (count + 1)) ⟨w, output⟩ := by
  have hlast : checked = true → (Int32.ofNat count = Int32.maxValue ↔ count + 1 = 2 ^ 31) := by
    intro hchecked
    rw [← Int32.toInt_inj, Int32.toInt_ofNat_of_lt (hcount hchecked)]
    show (count : Int) = 2147483647 ↔ _
    omega
  cases checked with
  | false => exact ⟨w, by simp [countOne, pure, EStateM.pure, Int32.ofNat_add]⟩
  | true =>
    by_cases hend : count + 1 = 2 ^ 31
    · obtain ⟨⟨w', output'⟩, hdrop, rfl⟩ : ∃ c, drop ix ⟨w, output⟩ = .ok () c ∧ c.output = output := by
        have hends := drop_ends ix w output
        unfold Ends at hends
        cases hdrop : drop ix ⟨w, output⟩ with
        | ok u c =>
          rw [hdrop] at hends
          exact ⟨c, rfl, hends.2⟩
        | error e c =>
          rw [hdrop] at hends
          cases hends.1
      refine ⟨w', ?_⟩
      simp [countOne, (hlast rfl).mpr hend, hend, hdrop, bind, EStateM.bind, throw, throwThe,
        MonadExceptOf.throw, EStateM.throw]
    · refine ⟨w, ?_⟩
      rw [if_neg (by simpa using hend)]
      simp [countOne, (hlast rfl).not.mpr hend, pure, EStateM.pure, Int32.ofNat_add]

/-- A handle on the first of the entries that are still to be listed, or off all entries when there
are none. -/
structure Heads (p : Plan) (todo : List Entry) (state : KeyState) (ix : Index) (w : Workspace) :
    Prop where
  views : ix.Views p w
  cell : ix.cell = CommandLine.cell
  collation : ix.tree.collation = .binary
  off : todo = [] → state ≠ .onKey
  on : ∀ e rest, todo = e :: rest → state = .onKey ∧ ix.cursor.current = some e ∧
    ix.cursor.ahead ix.tree p.entries = rest ∧ w.cell CommandLine.cell = e.record

/-- A move to the next entry heads what was ahead. -/
theorem heads_next (hlevels : p.levels ≤ maxLevels + 1) (h : ix.Views p w)
    (hcell : ix.cell = CommandLine.cell) (hcollation : ix.tree.collation = .binary) :
    Ends Index.next (ix, w) fun r σ => ∃ s, r = .ok s ∧
      Heads p (ix.cursor.ahead ix.tree p.entries) s σ.1 σ.2 := by
  refine (ends_of_state (h.next_ends hlevels)).mono ?_
  rintro r ⟨ix', w'⟩ ⟨⟨hhandle, hstate, hcurrent, hr, hrecord⟩, hviews⟩
  have htree : ix'.tree = ix.tree := (congrArg Index.tree hhandle).trans rfl
  have hcell' : ix'.cell = ix.cell := (congrArg Index.cell hhandle).trans rfl
  dsimp only at hstate hcurrent hr hrecord
  cases r with
  | error e => cases hr
  | ok s =>
    obtain rfl : s = ix'.cursor.state := by simpa [Except.map] using hr
    refine ⟨_, rfl, hviews, hcell'.trans hcell, (congrArg Tree.collation htree).trans hcollation,
      fun htodo => ?_, fun e rest htodo => ?_⟩
    · rw [hstate, htodo]
      exact nofun
    · rw [htodo] at hstate hcurrent hrecord
      refine ⟨hstate, hcurrent, ?_, hcell ▸ hrecord⟩
      rw [htree]
      exact Cursor.ahead_of_head h.ascending htodo hstate hcurrent

theorem sayEntry_eq {e : Entry} (hcurrent : ix.cursor.current = some e)
    (hrecord : w.cell cell = e.record) :
    sayEntry ix ⟨w, output⟩ = .ok () ⟨w, output ++ entryLine e ++ "\n"⟩ := by
  unfold sayEntry say record entryLine
  rw [hcurrent, ← hrecord]
  rfl

/-- The loop ends off all entries, and at one that is past the end. -/
theorem listFrom_stop {checked : Bool} {last : Option Bytes} {limit : Nat} {count : Int32}
    {state : KeyState} {c : Console}
    (h : state ≠ .onKey ∨ last.any (isPast ((ix.cursor.current.map Entry.key).getD [])) = true) :
    listFrom checked last (limit + 1) count state ix c = .ok (count, ix) c := by
  unfold listFrom
  rw [if_pos (by simpa using h)]
  rfl

/-- On an entry that is not past the end the loop writes it, counts it and moves on. -/
theorem listFrom_go {checked : Bool} {last : Option Bytes} {limit : Nat} {count : Int32}
    {state : KeyState} {e : Entry} (hstate : state = .onKey) (hcurrent : ix.cursor.current = some e)
    (hrecord : w.cell cell = e.record) (hpast : last.any (isPast e.key) = false) :
    listFrom checked last (limit + 1) count state ix ⟨w, output⟩ =
      (countOne checked ix count >>= fun count => on ix Index.next >>= fun moved =>
        listFrom checked last limit count moved.1 moved.2) ⟨w, output ++ entryLine e ++ "\n"⟩ := by
  have hkey : (ix.cursor.current.map Entry.key).getD [] = e.key := by rw [hcurrent]; rfl
  conv_lhs => unfold listFrom
  dsimp only
  rw [hkey, if_neg (by simp [hstate, hpast])]
  show EStateM.bind (sayEntry ix) _ _ = _
  unfold EStateM.bind
  rw [sayEntry_eq hcurrent hrecord]

/-- The loop of a scan writes the entries up to the first one that is past the end, as long as they
can be counted. -/
theorem listFrom_eq (hlevels : p.levels ≤ maxLevels + 1) (last : Option Bytes) {checked : Bool}
    {limit count : Nat} {state : KeyState} {todo : List Entry} (h : Heads p todo state ix w)
    (hlimit : todo.length ≤ limit) (hcount : checked = true → count < 2 ^ 31) :
    let written := todo.takeWhile fun e => !last.any (isPast e.key)
    ∃ ix' w', listFrom checked last limit (.ofNat count) state ix ⟨w, output⟩ =
      if checked && 2 ^ 31 ≤ count + written.length then
        .error .abandoned ⟨w', withLines output ((written.take (2 ^ 31 - count)).map entryLine)⟩
      else .ok (.ofNat (count + written.length), ix')
        ⟨w', withLines output (written.map entryLine)⟩ := by
  -- as long as the entries can be counted the loop goes on
  have hnone : ∀ {n : Nat}, (checked = true → n < 2 ^ 31) →
    ¬(checked && decide (2 ^ 31 ≤ n)) = true := by
    intro n hn h
    obtain ⟨hchecked, hle⟩ : checked = true ∧ 2 ^ 31 ≤ n := by simpa using h
    exact absurd (hn hchecked) (Nat.not_lt.mpr hle)
  induction limit generalizing count state ix w todo output with
  | zero =>
    obtain rfl := List.length_eq_zero_iff.mp (Nat.le_zero.mp hlimit)
    exact ⟨ix, w, (if_neg (hnone hcount)).symm⟩
  | succ limit ih =>
    cases todo with
    | nil => exact ⟨ix, w, (listFrom_stop (.inl (h.off rfl))).trans (if_neg (hnone hcount)).symm⟩
    | cons e rest =>
      obtain ⟨hstate, hcurrent, hahead, hrecord⟩ := h.on e rest rfl
      cases hpast : last.any (isPast e.key) with
      | true =>
        have hstop := @listFrom_stop ix checked last limit (.ofNat count) state ⟨w, output⟩
          (.inr (by rw [hcurrent]; exact hpast))
        refine ⟨ix, w, ?_⟩
        rw [List.takeWhile_cons_of_neg (by simp [hpast])]
        exact hstop.trans (if_neg (hnone hcount)).symm
      | false =>
        obtain ⟨w₁, hcounted⟩ := @countOne_eq ix w (output ++ entryLine e ++ "\n") checked count hcount
        rw [listFrom_go hstate hcurrent hrecord hpast, List.takeWhile_cons_of_pos (by simp [hpast])]
        by_cases hend : (checked && decide (count + 1 = 2 ^ 31)) = true
        · -- the entry is written, but cannot be counted
          obtain ⟨hchecked, hlast⟩ : checked = true ∧ count + 1 = 2 ^ 31 := by simpa using hend
          refine ⟨ix, w₁, ?_⟩
          rw [if_pos (by simp [hchecked]; omega), show 2 ^ 31 - count = 1 by omega]
          rw [if_pos hend] at hcounted
          show EStateM.bind (countOne checked ix _) _ _ = _
          unfold EStateM.bind
          rw [hcounted]
          rfl
        · have hmore : checked = true → count + 1 < 2 ^ 31 := by
            intro hchecked
            have := hcount hchecked
            simp [hchecked] at hend
            omega
          obtain ⟨s, ix', w', hnext, hheads⟩ := @on_eq_ok _ _ (output ++ entryLine e ++ "\n") _ _ _
            (heads_next hlevels h.views h.cell h.collation)
          rw [hahead] at hheads
          obtain ⟨ix'', w'', hrest⟩ := @ih _ _ (output ++ entryLine e ++ "\n") (count + 1) _ _ hheads
            (Nat.le_of_succ_le_succ hlimit) hmore
          refine ⟨ix'', w'', ?_⟩
          rw [if_neg hend] at hcounted
          show EStateM.bind (countOne checked ix _) _ _ = _
          unfold EStateM.bind
          rw [hcounted]
          show EStateM.bind (on ix Index.next) _ _ = _
          unfold EStateM.bind
          rw [hnext]
          refine hrest.trans ?_
          rw [List.length_cons, Nat.add_right_comm, Nat.add_assoc count]
          split
          · next hover =>
            obtain ⟨hchecked, -⟩ : checked = true ∧ _ := by simpa using hover
            have htake : 2 ^ 31 - count = 2 ^ 31 - (count + 1) + 1 := by
              have := hmore hchecked
              omega
            rw [htake, List.take_succ_cons]
            rfl
          · rfl

/-! ## Where a scan starts -/

/-- Whether a start that is longer than a key is more than a key with blanks behind it. -/
def Overlong (keyLength : Nat) (first : Bytes) : Prop :=
  keyLength < first.length ∧ ∃ b ∈ first.drop keyLength, b ≠ blank

instance (keyLength : Nat) (first : Bytes) : Decidable (Overlong keyLength first) :=
  inferInstanceAs (Decidable (_ ∧ _))

/-- Whether a key is not in front of the start of a scan, padded with blanks. Nothing is in front of
an empty one. -/
def reaches (keyLength : Nat) (first key : Bytes) : Bool :=
  first.isEmpty || Collation.compare .binary (Bytes.resize first keyLength blank) key != .gt

theorem keyOf_of_overlong {raw : Bytes} (htruncate : ix.truncate = false)
    (h : Overlong ix.tree.layout.keyLength raw) :
    ix.keyOf raw blank = .error (.invalidKey (.tooLong raw.length ix.tree.layout.keyLength)) := by
  unfold Index.keyOf Key.normalize
  rw [if_pos (by simpa [htruncate, Overlong] using h)]

theorem keyOf_of_not_overlong {raw : Bytes} (htruncate : ix.truncate = false)
    (h : ¬Overlong ix.tree.layout.keyLength raw) :
    ix.keyOf raw blank = .ok (Bytes.resize raw ix.tree.layout.keyLength blank) := by
  unfold Index.keyOf Key.normalize
  rw [if_neg (by simpa [htruncate, Overlong] using h)]

/-- The entries from the first one of a key on are that entry and those above it. -/
theorem filter_of_first {t : Tree} {es : List Entry} {key : Bytes} {e : Entry} (hasc : t.Ascending es)
    (he : e ∈ es) (hhit : t.collation.compare key e.key = .eq)
    (hfirst : ∀ a ∈ es, t.collation.compare key a.key = .eq → e.record ≤ a.record) :
    es.filter (fun a => t.collation.compare key a.key != .gt) = e :: t.above e es := by
  obtain ⟨front, back, rfl⟩ := List.append_of_mem he
  obtain ⟨-, hback, hacross⟩ := List.pairwise_append.mp hasc
  have hless : ∀ a ∈ front, t.collation.compare key a.key = .gt := by
    intro a ha
    have hlt := (Tree.precedes_iff.mp (hacross a ha e List.mem_cons_self)).1
    rw [Entry.compare_eq_then] at hlt
    cases hkey : t.collation.compare a.key e.key with
    | lt => exact Std.TransCmp.gt_of_eq_of_gt hhit (Std.OrientedCmp.gt_of_lt hkey)
    | eq =>
      -- an entry of the same key in front would have a record position that is less
      rw [hkey, Ordering.eq_then, if_pos rfl] at hlt
      have hrecord := hfirst a (List.mem_append_left _ ha)
        (Std.TransCmp.eq_trans hhit (Std.OrientedCmp.eq_symm hkey))
      exact absurd (Nat.compare_eq_lt.mp hlt) (Nat.not_lt.mpr hrecord)
    | gt =>
      rw [hkey] at hlt
      cases hlt
  have hgreater : ∀ a ∈ back, t.collation.compare key a.key ≠ .gt := by
    intro a ha hgt
    have hlt := (Tree.precedes_iff.mp (List.rel_of_pairwise_cons hback ha)).1
    rw [Entry.compare_eq_then,
      Std.TransCmp.gt_of_eq_of_gt (Std.OrientedCmp.eq_symm hhit) hgt] at hlt
    cases hlt
  rw [(Tree.sides_of_hit hasc Std.ReflCmp.compare_self).2, List.filter_append,
    List.filter_eq_nil_iff.mpr fun a ha => by simp [hless a ha],
      List.filter_cons_of_pos (by simp [hhit]),
    List.filter_eq_self.mpr fun a ha => by simp [hgreater a ha], List.nil_append]

/-- A scan from a key starts at the first entry that is not in front of it. -/
theorem scanStart_key (hlevels : p.levels ≤ maxLevels + 1) (h : ix.Views p w) (hcell : ix.cell = cell)
    (hcollation : ix.tree.collation = .binary) {first : String} {key : Bytes}
    (hraw : Bytes.ofText first ≠ []) (hkey : ix.keyOf (Bytes.ofText first) blank = .ok key) :
    Ends (scanStart (some first)) (ix, w) fun r σ => ∃ s, r = .ok s ∧
      Heads p (p.entries.filter fun e => Collation.binary.compare key e.key != .gt) s σ.1 σ.2 := by
  refine Ends.bind (ends_of_state (h.find_ends hlevels hraw hkey)) ?_ ?_
  · rintro e σ ⟨-, -, hr, -⟩
    cases hr
  · rintro s ⟨ix', w'⟩ ⟨hhandle, hsought, hr, hrecord, hviews⟩
    obtain rfl : s = ix'.cursor.state := by simpa [Except.map] using hr
    have htree : ix'.tree = ix.tree := (congrArg Index.tree hhandle).trans rfl
    have hcell' : ix'.cell = cell := ((congrArg Index.cell hhandle).trans rfl).trans hcell
    have hcollation' : ix'.tree.collation = .binary := (congrArg Tree.collation htree).trans hcollation
    dsimp only at hsought hrecord
    rw [← hcollation]
    cases hstate : ix'.cursor.state with
    | onKey =>
      obtain ⟨e, he, hcurrent, hhit, hfirst⟩ := hsought.found hstate
      refine ⟨.onKey, rfl, hviews, hcell', hcollation', fun hnone => ?_, fun e' rest htodo => ?_⟩
      · rw [filter_of_first h.ascending he hhit hfirst] at hnone
        cases hnone
      · rw [filter_of_first h.ascending he hhit hfirst] at htodo
        obtain ⟨rfl, rfl⟩ := List.cons.inj htodo
        refine ⟨rfl, hcurrent, ?_, ?_⟩
        · unfold Cursor.ahead
          rw [hstate, hcurrent, htree]
        · rw [← hcell]
          refine hrecord.trans ?_
          unfold Cursor.record?
          rw [hstate, hcurrent]
          rfl
    | beforeFirst | between | afterLast =>
      have hmissed : ix'.cursor.state ≠ .onKey := by
        rw [hstate]
        exact nofun
      have hnone : ∀ a ∈ p.entries, ix.tree.collation.compare key a.key ≠ .eq := fun a ha heq =>
        hmissed (hsought.onKey.mpr ⟨a, ha, heq⟩)
      have hahead : ix'.cursor.ahead ix'.tree p.entries =
          p.entries.filter fun e => ix.tree.collation.compare key e.key != .gt := by
        rw [htree, (hsought.sides hmissed).1]
        refine List.filter_congr fun a ha => ?_
        have hne := hnone a ha
        revert hne
        cases ix.tree.collation.compare key a.key <;> simp
      rw [← hahead]
      exact heads_next hlevels hviews hcell' hcollation'

/-- The start that the arguments of a scan name, empty if they name none. -/
def startOf (first : Option String) : Bytes := (first.map Bytes.ofText).getD []

/-- A scan starts at the first entry that is not in front of its start. -/
theorem scanStart_ends (hlevels : p.levels ≤ maxLevels + 1) (h : ix.Views p w) (hcell : ix.cell = cell)
    (hcollation : ix.tree.collation = .binary) (hcursor : ix.cursor = {})
      (htruncate : ix.truncate = false)
    {first : Option String} (hfirst : ¬Overlong ix.tree.layout.keyLength (startOf first)) :
    Ends (scanStart first) (ix, w) fun r σ => ∃ s, r = .ok s ∧
      Heads p (p.entries.filter fun e => reaches ix.tree.layout.keyLength (startOf first) e.key) s
        σ.1 σ.2 := by
  have hnext := heads_next hlevels h hcell hcollation
  rw [show ix.cursor.ahead ix.tree p.entries = p.entries by rw [hcursor]; rfl] at hnext
  by_cases hraw : startOf first = []
  · have hall : ∀ e : Entry, reaches ix.tree.layout.keyLength (startOf first) e.key = true :=
      fun e => by
      simp [reaches, hraw]
    simp only [hall, List.filter_true]
    cases first with
    | none => exact hnext
    | some text =>
      have hfind : Index.find (Bytes.ofText text) (ix, w) = .ok .beforeFirst (ix, w) := by
        rw [show Bytes.ofText text = [] from hraw]
        exact congrArg (fun c : Cursor => EStateM.Result.ok c.state (ix, w)) hcursor
      exact Ends.ok_bind hfind hnext
  · cases first with
    | none => exact absurd rfl hraw
    | some text =>
      refine (scanStart_key hlevels h hcell hcollation hraw
        (keyOf_of_not_overlong htruncate hfirst)).mono ?_
      rintro r σ ⟨s, rfl, hheads⟩
      refine ⟨s, rfl, ?_⟩
      have hempty : (startOf (some text)).isEmpty = false := by simpa using hraw
      simp only [reaches, hempty, Bool.false_or]
      exact hheads

/-- A start that is too long is refused. -/
theorem scanStart_of_overlong (htruncate : ix.truncate = false) {first : Option String}
    (hfirst : Overlong ix.tree.layout.keyLength (startOf first)) :
    scanStart first (ix, w) = .error
      (.invalidKey (.tooLong (startOf first).length ix.tree.layout.keyLength)) (ix, w) := by
  cases first with
  | none => exact absurd hfirst.1 (Nat.not_lt_zero _)
  | some text =>
    have hkey := keyOf_of_overlong htruncate hfirst
    have hempty : (Bytes.ofText text).isEmpty = false := by
      rw [List.isEmpty_eq_false_iff]
      exact List.ne_nil_of_length_pos (Nat.lt_of_le_of_lt (Nat.zero_le _) hfirst.1)
    have hnormalize : Index.normalize (Bytes.ofText text) blank (ix, w) = .error
        (.invalidKey (.tooLong (startOf (some text)).length ix.tree.layout.keyLength)) (ix, w) := by
      show settle (ix.keyOf (Bytes.ofText text) blank) (ix, w) = _
      rw [show ix.keyOf (Bytes.ofText text) blank = _ from hkey]
      rfl
    have hfind : Index.find (Bytes.ofText text) (ix, w) = .error
        (.invalidKey (.tooLong (startOf (some text)).length ix.tree.layout.keyLength)) (ix, w) := by
      unfold Index.find
      rw [hempty]
      show EStateM.bind (Index.normalize (Bytes.ofText text) blank) _ _ = _
      unfold EStateM.bind
      rw [hnormalize]
    show EStateM.bind (Index.find (Bytes.ofText text)) _ _ = _
    unfold EStateM.bind
    rw [hfind]

end CommandLine

/-! ## Whole runs -/

/-- A disk on which a name leads to a file as planned, in binary order, that is not refused. -/
structure Disk.Bears (d : Disk) (name : String) (volume : Nat) (h : Header) (p : Plan) : Prop where
  found : ∃ place, d.tree.find name = .ok (.file place volume)
  present : volume < d.volumes.size
  refusal : ∀ access n, (d.volume volume).refusal access n = none
  files : (d.contents volume).Files h ⟨h.layout, .binary, h.duplicates⟩ p
  levels : p.levels ≤ maxLevels + 1

namespace CommandLine

variable {d : Disk} {name : String} {volume : Nat} {h : Header} {p : Plan} {checked : Bool}

/-- The file is opened for reading. -/
theorem exists_openIndex (hd : d.Bears (Index.fileName name) volume h p)
    (hvariable : h.fixedRecordLength = none) :
    ∃ (ix : Index) (w : Workspace), openIndex name .readOnly { workspace := start d } = .ok ix ⟨w, ""⟩ ∧
      ix.Views p w ∧ ix.cell = cell ∧ ix.tree = ⟨h.layout, .binary, h.duplicates⟩ ∧ ix.cursor = {} ∧
      ix.truncate = false := by
  obtain ⟨hsound, henough, hunpinned, -⟩ := Buffered.ready_new defaultBuffers d
  have hadmits : (start d).Admits ⟨volume, .file false, some (Index.fileName name)⟩
      Workspace.commonCache cell :=
    ⟨Nat.one_pos, Nat.one_pos, hd.present, hsound, henough, hunpinned, nofun⟩
  have hopened : Ends (Index.openFile name { mode := .readOnly } cell) (start d) fun r w' =>
      ∃ ix, r = .ok ix ∧ Index.Opened ⟨volume, .file false, some (Index.fileName name)⟩
        { mode := .readOnly } cell (start d) ix w' := by
    have hfound : Ends (Workspace.onDisk (Store.openFile (Index.fileName name) false)) (start d)
        fun r w' => r = .ok ⟨volume, .file false, some (Index.fileName name)⟩ ∧ w' = start d := by
      obtain ⟨place, hplace⟩ := hd.found
      refine Workspace.onDisk_ends ?_
      unfold Store.openFile
      refine Ends.get_bind ?_
      rw [show (start d).disk.tree.find (Index.fileName name) = .ok (.file place volume) from hplace]
      exact ⟨rfl, rfl⟩
    unfold Index.openFile
    refine Ends.ok_bind hfound.eq_ok ?_
    refine (Index.openStore_ends fun _ => hd.present).mono fun r w' hr => ?_
    have hpassed : OpenOptions.admits { mode := .readOnly } h = .ok () := by
      unfold OpenOptions.admits
      rw [hvariable]
      cases h.duplicates <;> rfl
    obtain ⟨ix, hix⟩ := hr.1 nofun ⟨fun n => hd.refusal .read n, nofun⟩ h hd.files.parse hpassed
    exact ⟨ix, hix, hr.2 ix hix⟩
  unfold Ends at hopened
  cases hresult : Index.openFile name { mode := .readOnly } cell (start d) with
  | error e w' =>
    rw [hresult] at hopened
    obtain ⟨ix, hix, -⟩ := hopened
    cases hix
  | ok ix w' =>
    rw [hresult] at hopened
    obtain ⟨_, ⟨⟩, hopened⟩ := hopened
    have hheader : ix.header = h := by
      obtain ⟨d', -, -, hsame, hparse, -⟩ := hopened.disk
      rw [hsame nofun] at hparse
      exact Except.ok.inj (hparse.symm.trans hd.files.parse)
    have htree : ix.tree = ⟨h.layout, .binary, h.duplicates⟩ := by
      rw [hopened.tree, hheader]
      exact congrArg (Tree.mk h.layout .binary) (Bool.or_false _)
    refine ⟨ix, w', ?_, hopened.views hadmits (fun access n => hd.refusal access n) nofun ?_ nofun ?_,
      hopened.cell, htree, hopened.cursor, hopened.truncate⟩
    · unfold openIndex onWorkspace
      simp only [hresult]
    · intro i b hb
      cases (Cache.buffer?_new defaultBuffers i).symm.trans hb
    · rw [hheader, htree]
      exact hd.files

/-- Whether a key is not behind the end of a scan, as far as that end is long. -/
def within (last key : Bytes) : Bool := Collation.compare .binary (key.take last.length) last != .gt

/-- The end that the arguments of a scan name, without the white space at its end. -/
def endOf (last : Option String) :
    Option Bytes := last.map fun text => Bytes.ofText (Space.trimEnd text)

/-- The entries that a scan with the arguments has to list. -/
def listed (keyLength : Nat) (es : List Entry) (args : List String) : List Entry :=
  es.filter fun e => reaches keyLength (startOf args[0]?) e.key && (endOf args[1]?).all (within · e.key)

/-- What a scan writes about the entries that it lists. -/
def listing (es : List Entry) : String :=
  String.join ((es.map entryLine ++ ["COUNT: " ++ toString es.length]).map (· ++ "\n"))

/-- What a scan leaves to the shell that lists the entries and counts them in 32 bits, with sums
that are checked or not. -/
def scanned (checked : Bool) (es : List Entry) : Report :=
  if checked && 2 ^ 31 ≤ es.length then ⟨101, withLines "" ((es.take (2 ^ 31)).map entryLine), ""⟩
  else ⟨0, withLines "" (es.map entryLine) ++ ("COUNT: " ++ toString (Int32.ofNat es.length)) ++
    "\n", ""⟩

/-- A count of 32 bits is told as the number that is counted as long as that is less than half of
all numbers. -/
theorem toString_ofNat_iff {n : Nat} : toString (Int32.ofNat n) = toString n ↔ n < 2 ^ 31 := by
  have hcount : toString (Int32.ofNat n) = (Int32.ofNat n).toInt.repr := rfl
  have hnumber : toString n = (n : Int).repr := rfl
  rw [hcount, hnumber, Int.repr_inj]
  constructor
  · intro h
    have hless := (Int32.ofNat n).toInt_lt
    omega
  · exact Int32.toInt_ofNat_of_lt

/-- A scan lists the entries and tells their number if and only if there are fewer than 32 bits can
count, the sign apart. -/
theorem scanned_eq_iff {checked : Bool} {es : List Entry} :
    scanned checked es = ⟨0, listing es, ""⟩ ↔ es.length < 2 ^ 31 := by
  have hlisting : listing es =
      withLines "" (es.map entryLine) ++ ("COUNT: " ++ toString es.length) ++ "\n" := by
    rw [withLines_eq, String.empty_append]
    unfold listing
    rw [List.map_append, String.join_append, String.append_assoc]
    simp
  unfold scanned
  split
  · next h =>
    have hlong : 2 ^ 31 ≤ es.length := by simp_all
    exact iff_of_false (fun heq => nomatch congrArg Report.exitCode heq) (Nat.not_lt.mpr hlong)
  · rw [Report.mk.injEq, hlisting, String.append_left_inj, String.append_right_inj,
      String.append_right_inj, toString_ofNat_iff]
    simp

/-- Of the entries that are not in front of the start, those up to the end are the ones that a scan
has to list. -/
theorem takeWhile_eq_listed {es : List Entry} {t : Tree} (hcollation : t.collation = .binary)
    (hasc : t.Ascending es) (keyLength : Nat) (args : List String) :
    (es.filter fun e => reaches keyLength (startOf args[0]?) e.key).takeWhile
        (fun e => !(endOf args[1]?).any (isPast e.key)) = listed keyLength es args := by
  have hmono : es.Pairwise fun a b => (!(endOf args[1]?).any (isPast b.key)) = true →
      (!(endOf args[1]?).any (isPast a.key)) = true := by
    refine hasc.imp fun {a b} hab hb => ?_
    have hle : (Collation.binary.compare a.key b.key).isLE := by
      have hlt := (Tree.precedes_iff.mp hab).1
      rw [Entry.compare_eq_then, hcollation] at hlt
      cases hkey : Collation.binary.compare a.key b.key <;> simp_all
    cases hlast : endOf args[1]? with
    | none => rfl
    | some last =>
      rw [hlast] at hb
      cases ha : isPast a.key last with
      | false => simp [ha]
      | true => simp [isPast_mono hle ha] at hb
  rw [takeWhile_eq_filter (hmono.sublist List.filter_sublist), List.filter_filter]
  refine List.filter_congr fun e _ => ?_
  rw [Bool.and_comm]
  cases endOf args[1]? <;> rfl

/-- A scan of a file that can be opened. -/
theorem scan_ends (hd : d.Bears (Index.fileName name) volume h p)
    (hvariable : h.fixedRecordLength = none)
    (args : List String) :
    Ends (scan checked scanLimit name args) { workspace := start d } fun r c =>
      if Overlong h.keyLength (startOf args[0]?) then
        r = .error (.failed (Error.message
          (.invalidKey (.tooLong (startOf args[0]?).length h.keyLength)))) ∧ c.output = ""
      else
        let report := scanned checked (listed h.keyLength p.entries args)
        c.output = report.output ∧ report.errors = "" ∧
          (r = .ok () ∧ report.exitCode = 0 ∨ r = .error .abandoned ∧ report.exitCode = 101) := by
  obtain ⟨ix, w, hopen, hviews, hcell, htree, hcursor, htruncate⟩ := exists_openIndex hd hvariable
  have hlength : ix.tree.layout.keyLength = h.keyLength := congrArg (·.layout.keyLength) htree
  have hcollation : ix.tree.collation = .binary := congrArg Tree.collation htree
  rw [← hlength]
  unfold scan
  refine Ends.ok_bind hopen ?_
  split
  · next hlong =>
    exact Ends.error_bind (on_eq_error (scanStart_of_overlong htruncate hlong) nofun) ⟨rfl, rfl⟩
  · next hshort =>
    obtain ⟨state, ix₁, w₁, hstart, hheads⟩ := @on_eq_ok _ _ "" _ _ _
      (scanStart_ends hd.levels hviews hcell hcollation hcursor htruncate hshort)
    have hlimit : (p.entries.filter fun e =>
        reaches ix.tree.layout.keyLength (startOf args[0]?) e.key).length ≤ scanLimit := by
      refine (List.length_filter_le ..).trans ?_
      obtain ⟨v, hp, -⟩ := hd.files.blocks
      obtain ⟨c, -, hholds⟩ := hp.board
      refine (hholds.length_entries_le hp.workable).trans ?_
      unfold Layout.maxRecord Format.maxPosition
      split <;> decide
    obtain ⟨ix₂, w₂, hlist⟩ := @listFrom_eq _ _ _ "" hd.levels (endOf args[1]?) checked _ 0 _ _
      hheads hlimit
      fun _ => Nat.two_pow_pos 31
    rw [takeWhile_eq_listed hcollation hviews.ascending, Nat.zero_add, Nat.sub_zero] at hlist
    refine Ends.ok_bind hstart ?_
    unfold scanned
    by_cases hover :
        (checked && decide (2 ^ 31 ≤ (listed ix.tree.layout.keyLength p.entries args).length)) = true
    · rw [if_pos hover] at hlist ⊢
      exact Ends.error_bind hlist ⟨rfl, rfl, .inr ⟨rfl, rfl⟩⟩
    · rw [if_neg hover] at hlist ⊢
      refine Ends.ok_bind hlist (Ends.modify_bind ((drop_ends _ _ _).mono ?_))
      rintro r c ⟨rfl, hc⟩
      exact ⟨hc, rfl, .inl ⟨rfl, rfl⟩⟩

/-- What a run of a scan leaves to the shell, for every file as planned in binary order that may be
opened without its record length, and all arguments: the listing of the entries, as long as the scan
can count them. -/
theorem run_scan (hd : d.Bears (Index.fileName name) volume h p)
    (hvariable : h.fixedRecordLength = none)
    (args : List String) :
    (listed h.keyLength p.entries args).Pairwise (fun a b => Entry.compare .binary true a b = .lt) ∧
    (run scanLimit (name :: "scan" :: args) d checked).1 =
      (if Overlong h.keyLength (startOf args[0]?) then
        ⟨1, "", (Complaint.failed (Error.message
          (.invalidKey (.tooLong (startOf args[0]?).length h.keyLength)))).text⟩
      else scanned checked (listed h.keyLength p.entries args)) ∧
    (scanned checked (listed h.keyLength p.entries args) =
      ⟨0, listing (listed h.keyLength p.entries args), ""⟩ ↔
        (listed h.keyLength p.entries args).length < 2 ^ 31) := by
  refine ⟨?_, ?_, scanned_eq_iff⟩
  · obtain ⟨v, hp, -⟩ := hd.files.blocks
    exact (hp.ascending.imp fun hab => (Tree.precedes_iff.mp hab).1).sublist List.filter_sublist
  · have hends : Ends (dispatch checked scanLimit (name :: "scan" :: args)) { workspace := start d }
      _ :=
      scan_ends hd hvariable args
    unfold run
    dsimp only
    rw [show ({ disk := d } : Workspace).addCell.2 = start d from rfl]
    by_cases hlong : Overlong h.keyLength (startOf args[0]?)
    · simp only [if_pos hlong] at hends ⊢
      cases hresult : dispatch checked scanLimit (name :: "scan" :: args) { workspace := start d } with
      | ok u c => cases (hends.of_ok hresult).1
      | error complaint c =>
        obtain ⟨hcomplaint, houtput⟩ := hends.of_error hresult
        cases Except.error.inj hcomplaint
        rw [← houtput]
        rfl
    · simp only [if_neg hlong] at hends ⊢
      cases hresult : dispatch checked scanLimit (name :: "scan" :: args) { workspace := start d } with
      | ok u c =>
        obtain ⟨houtput, herrors, ⟨-, hcode⟩ | ⟨hr, -⟩⟩ := hends.of_ok hresult
        · exact Report.ext hcode.symm houtput herrors.symm
        · cases hr
      | error complaint c =>
        obtain ⟨houtput, herrors, ⟨hr, -⟩ | ⟨hr, hcode⟩⟩ := hends.of_error hresult
        · cases hr
        · cases hr
          exact Report.ext hcode.symm houtput herrors.symm

/-! ## A file of two entries -/

/-- The disk on which a small file with two entries was made under a name and closed. -/
def lettersDisk : Disk :=
  let w := match Index.newFile Index.newWorkspace with
    | .ok ix w =>
      let first := (ending (Call.insert [0x41]).run (ix, w.setCell 0 1)).2
      let second := (ending (Call.insert [0x43]).run (first.1, first.2.setCell 0 2)).2
      (ending Index.close second).2.2
    | .error _ w => w
  { volumes := #[{ contents := w.disk.contents 0 }], tree :=
    ({} : FileTree).insert ⟨.start, "a.isi"⟩ 0 }

def letters : List Entry := [⟨[0x41], 1⟩, ⟨[0x43], 2⟩]

/-- The header of the file. -/
theorem parse_letters : ∃ h, Header.parse ((lettersDisk.contents 0).read 0 maxBlockSize) = .ok h ∧
    h.layout = ⟨1, 512, .modern⟩ ∧ h.fixedRecordLength = none ∧ h.duplicates = false := by
  have hparse : (Header.parse ((lettersDisk.contents 0).read 0 maxBlockSize)).toOption.any (fun h =>
      h.layout = ⟨1, 512, .modern⟩ && h.fixedRecordLength = none && h.duplicates = false) = true := by
    decide +kernel
  generalize Header.parse ((lettersDisk.contents 0).read 0 maxBlockSize) = r at *
  cases r with
  | error e => cases hparse
  | ok h => exact ⟨h, rfl, by simpa [Except.toOption, and_assoc] using hparse⟩

/-- The file is a single leaf. -/
theorem bears_letters : ∃ h : Header,
    lettersDisk.Bears "a.isi" 0 h ⟨1, some (.leaf ⟨512⟩ letters), [], []⟩ ∧
    h.fixedRecordLength = none ∧ h.keyLength = 1 := by
  have hsize : 512 ≤ (lettersDisk.contents 0).size := by decide +kernel
  have hpointers : Pointers.read .modern ((lettersDisk.contents 0).read 0 512) =
      ⟨.null, .null, ⟨512⟩, ⟨512⟩⟩ := by decide +kernel
  have hlength : ((lettersDisk.contents 0).read 512 512).length = 512 := by decide +kernel
  have hdecode : Node.decode ⟨1, 512, .modern⟩ ⟨512⟩ ((lettersDisk.contents 0).read 512 512) =
      .ok (.leaf letters) := by decide +kernel
  have hdrawn := @Plan.drawn_leaf ⟨⟨1, 512, .modern⟩, .binary, false⟩ letters _
    ⟨by decide, by decide⟩ (by decide +kernel) nofun (by decide) (by unfold Tree.Ascending; decide)
    (by decide) hlength hdecode
  obtain ⟨h, hparse, hlayout, hvariable, hduplicates⟩ := parse_letters
  have hblockSize : h.blockSize = 512 := congrArg Layout.blockSize hlayout
  refine ⟨h, ⟨⟨⟨.start, "a.isi"⟩, rfl⟩, Nat.one_pos, fun _ _ => rfl, ?_, by decide⟩, hvariable,
    congrArg Layout.keyLength hlayout⟩
  refine ⟨hparse, rfl, hblockSize.trans_le hsize, ?view, ?drawn, ?pointers, ?blocks⟩
  case drawn =>
    rw [hlayout, hduplicates]
    exact hdrawn
  case pointers =>
    rw [show h.format = .modern from congrArg Layout.format hlayout, hblockSize]
    exact hpointers.symm
  case blocks =>
    intro pos y hy
    dsimp only at hy
    split at hy
    · next hpos =>
      rw [hpos, hblockSize]
      exact Option.some.inj hy
    · cases hy

/-- A scan from a key that is not there lists the entry behind it; one from a key that is too long
is refused. -/
theorem run_scan_letters :
    (run scanLimit ["a", "scan", "B"] lettersDisk).1 = ⟨0, "C -> 2\nCOUNT: 1\n", ""⟩ ∧
    (run scanLimit ["a", "scan", "A ", "B "] lettersDisk).1 = ⟨0, "A -> 1\nCOUNT: 1\n", ""⟩ ∧
    (run scanLimit ["a", "scan", "AB"] lettersDisk).1.exitCode = 1 := by
  obtain ⟨h, hbears, hvariable, hlength⟩ := bears_letters
  have hname : Index.fileName "a" = "a.isi" := by decide +kernel
  have hscan := fun args => (@run_scan _ "a" _ _ _ false (hname ▸ hbears) hvariable args).2.1
  rw [hlength] at hscan
  refine ⟨(hscan ["B"]).trans ?_, (hscan ["A ", "B "]).trans ?_,
    (congrArg Report.exitCode (hscan ["AB"])).trans ?_⟩
  · decide +kernel
  · decide +kernel
  · decide +kernel

end CommandLine

end PagedIndex
