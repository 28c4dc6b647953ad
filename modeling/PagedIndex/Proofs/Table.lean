import Mathlib.Data.List.Nodup
import Mathlib.Data.List.Perm.Subperm
import Mathlib.Logic.Function.Iterate
import PagedIndex.Proofs.Index.Abandoned
import PagedIndex.Table

/-!
# Handles of a table

A table gives out the numbers from 1 to the largest handle in turn, begins again at 1 behind the
last one, and passes over the numbers that are in use. Whatever is opened, asked of files and
closed, no handle is given out while it is in use, and what is done with one handle leaves the files
of all others as they are, their cursors among them. Failures are told by negative numbers, which
are never handles.

## Main definitions

* `Table.Seeks` — the search for a number that is not in use.
* `Table.On` — what may be done with one handle.
* `Table.Reached` — the tables that calls make of a new one.
* `Table.Serves` — what comes of any call on a table.

## Main statements

* `Table.Numbered.seeks` — the search ends.
* `Table.On.step` — what a call on one handle does to the table.
* `Table.Reached.numbered` — handles are in range, and each is given out once.
* `Table.Reached.keeps_handles` — any call on a table that calls lead to.
-/

namespace PagedIndex

namespace Error

theorem code_neg (e : Error) : e.code < 0 := by
  cases e with
  | io cause =>
    simp only [code]
    split <;> decide
  | _ => simp only [code]; decide

/-- The number that stands for an abandoned call stands for no failure. -/
theorem code_eq_outOfRange_iff {e : Error} : e.code = Error.outOfRange.code ↔ e = .outOfRange := by
  cases e with
  | io cause =>
    simp only [code, reduceCtorEq, iff_false]
    split <;> decide
  | _ => simp [code]

end Error

namespace Table

variable {α : Type} {t t' : Table} {w w' : Workspace} {handle other found : Int} {ix ix' : Index}

/-! ## Numbers in turn -/

theorem one_le_successor (h : 0 ≤ handle) : 1 ≤ successor handle := by
  unfold successor
  split
  · exact Int.le_refl 1
  · exact Int.le_add_of_nonneg_left h

theorem successor_le (handle : Int) : successor handle ≤ maxHandle := by
  unfold successor
  split
  · decide
  · next hne =>
    exact Int.add_one_le_of_lt (Int.lt_of_not_ge hne)

/-- The numbers behind a handle go round. -/
theorem iterate_successor (hlow : 0 ≤ handle) (hhigh : handle ≤ maxHandle) (k : Nat) :
    successor^[k + 1] handle = (handle + k) % maxHandle + 1 := by
  induction k with
  | zero =>
    show successor handle = _
    unfold successor maxHandle at *
    split <;> omega
  | succ k ih =>
    rw [Function.iterate_succ_apply', ih]
    unfold successor maxHandle at *
    split <;> omega

/-- None of them comes again before all others have come. -/
theorem iterate_successor_inj (hlow : 0 ≤ handle) (hhigh : handle ≤ maxHandle) {j k : Nat}
    (hj : j < maxHandle) (hk : k < maxHandle)
    (h : successor^[j + 1] handle = successor^[k + 1] handle) : j = k := by
  rw [iterate_successor hlow hhigh, iterate_successor hlow hhigh] at h
  unfold maxHandle at *
  omega

/-- The search for a number that is not in use, from one number to the next. -/
inductive Seeks (t : Table) : Int → Int → Prop
  | here {handle : Int} (h : t.file? (successor handle) = none) : Seeks t handle (successor handle)
  | onward {handle found : Int} (h : t.file? (successor handle) ≠ none)
      (hrest : Seeks t (successor handle) found) : Seeks t handle found

theorem Seeks.unused (h : t.Seeks handle found) : t.file? found = none := by
  induction h with
  | here h => exact h
  | onward _ _ ih => exact ih

theorem Seeks.range (h : t.Seeks handle found) (hlow : 0 ≤ handle) :
    1 ≤ found ∧ found ≤ maxHandle := by
  induction h with
  | @here handle _ => exact ⟨one_le_successor hlow, successor_le handle⟩
  | onward _ _ ih => exact ih (Int.le_trans (by decide) (one_le_successor hlow))

/-- A search that is given enough tries finds what the search finds. -/
theorem seeks_unusedAfter {tries k : Nat} (hk : k ≤ tries)
    (h : t.file? (successor^[k + 1] handle) = none) : t.Seeks handle (t.unusedAfter tries handle) := by
  induction tries generalizing handle k with
  | zero =>
    obtain rfl : k = 0 := Nat.le_zero.mp hk
    exact .here h
  | succ tries ih =>
    unfold unusedAfter
    cases hnext : t.file? (successor handle) with
    | none =>
      simp only [hnext, Option.isNone_none, if_true]
      exact .here hnext
    | some ix =>
      simp only [hnext, Option.isNone_some, Bool.false_eq_true, if_false]
      have hne : t.file? (successor handle) ≠ none := by
        rw [hnext]
        nofun
      cases k with
      | zero => exact absurd h hne
      | succ k => exact .onward hne (ih (Nat.le_of_succ_le_succ hk) h)

/-! ## Tables in order -/

/-- Handles are numbers from 1 on, each of one file. -/
structure Numbered (t : Table) : Prop where
  nodup : (t.files.map Prod.fst).Nodup
  range : ∀ handle, t.file? handle ≠ none → 1 ≤ handle ∧ handle ≤ maxHandle
  latest : 0 ≤ t.latest ∧ t.latest ≤ maxHandle

theorem file?_ne_none_iff : t.file? handle ≠ none ↔ handle ∈ t.files.map Prod.fst := by
  unfold file?
  rw [Ne, List.lookup_eq_none_iff, List.mem_map]
  simp

/-- One of the numbers behind the one given out last is not in use, and there need to be no more of
them than there are open files, and one. -/
theorem Numbered.exists_unused (h : t.Numbered) (hroom : t.files.length < maxHandle) :
    ∃ k ≤ t.files.length, t.file? (successor^[k + 1] t.latest) = none := by
  by_contra hnone
  -- otherwise more numbers are in use than there are files
  have hused : ∀ k ≤ t.files.length, successor^[k + 1] t.latest ∈ t.files.map Prod.fst :=
    fun k hk => file?_ne_none_iff.mp fun hfree => hnone ⟨k, hk, hfree⟩
  have hnodup : ((List.range (t.files.length + 1)).map fun k => successor^[k + 1] t.latest).Nodup := by
    refine List.Nodup.map_on (fun j hj k hk => ?_) List.nodup_range
    rw [List.mem_range] at hj hk
    exact iterate_successor_inj h.latest.1 h.latest.2 (by omega) (by omega)
  have hlength := (hnodup.subperm fun n hn => by
    obtain ⟨k, hk, rfl⟩ := List.mem_map.mp hn
    exact hused k (Nat.lt_succ_iff.mp (List.mem_range.mp hk))).length_le
  simp only [List.length_map, List.length_range] at hlength
  omega

/-- The search for a number ends, and `freshHandle` is what it finds. -/
theorem Numbered.seeks (h : t.Numbered) (hroom : t.files.length < maxHandle) :
    t.Seeks t.latest t.freshHandle := by
  obtain ⟨k, hk, hfree⟩ := h.exists_unused hroom
  exact seeks_unusedAfter hk hfree

/-! ## Changes of a table -/

theorem file?_put : (t.put handle ix).file? other =
    if other = handle then (t.file? other).map fun _ => ix else t.file? other :=
  lookup_map_at t.files handle other fun _ => ix

theorem file?_erase : (t.erase handle).file? other =
    if other = handle then none else t.file? other :=
  lookup_filter_ne t.files handle other

theorem file?_put_of_open (h : t.file? handle = some ix') :
    (t.put handle ix).file? other = if other = handle then some ix else t.file? other := by
  rw [file?_put]
  split
  · next heq => rw [heq, h, Option.map_some]
  · rfl

/-- A file changes under its handle. -/
theorem handles_put (t : Table) (handle : Int) (ix : Index) :
    (t.put handle ix).files.map Prod.fst = t.files.map Prod.fst := by
  unfold put
  rw [List.map_map]
  refine List.map_congr_left fun p _ => ?_
  simp only [Function.comp_apply]
  split <;> rfl

/-- What becomes of a file is no matter once it is given up. -/
theorem erase_put : (t.put handle ix).erase handle = t.erase handle := by
  have hfiles : (t.put handle ix).files.filter (·.1 != handle) = t.files.filter (·.1 != handle) := by
    unfold put
    dsimp only
    induction t.files with
    | nil => rfl
    | cons p files ih =>
      by_cases hp : p.1 = handle <;> simp [hp, ih]
  unfold erase
  rw [hfiles]
  rfl

theorem erase_of_unknown (h : t.file? handle = none) : t.erase handle = t := by
  have hall : ∀ p ∈ t.files, p.1 != handle := fun p hp => by
    have hne := List.lookup_eq_none_iff.mp h p hp
    rwa [bne_comm]
  unfold erase
  rw [List.filter_eq_self.mpr hall]

namespace Numbered

theorem put (h : t.Numbered) : (t.put handle ix).Numbered where
  nodup := by
    rw [handles_put]
    exact h.nodup
  range other hopen := by
    rw [file?_ne_none_iff, handles_put, ← file?_ne_none_iff] at hopen
    exact h.range other hopen
  latest := h.latest

theorem erase (h : t.Numbered) : (t.erase handle).Numbered where
  nodup := (List.filter_sublist.map Prod.fst).nodup h.nodup
  range other hopen := by
    rw [file?_erase] at hopen
    split at hopen
    · exact absurd rfl hopen
    · exact h.range other hopen
  latest := h.latest

/-- A file comes in under a number that was not in use. -/
theorem cons (h : t.Numbered) (hnew : t.file? handle = none) (hlow : 1 ≤ handle)
    (hhigh : handle ≤ maxHandle) : Numbered { files := (handle, ix) :: t.files, latest := handle } where
  nodup := List.nodup_cons.mpr ⟨fun hmem => file?_ne_none_iff.mpr hmem hnew, h.nodup⟩
  range other hopen := by
    rw [file?_ne_none_iff, List.map_cons, List.mem_cons] at hopen
    rcases hopen with rfl | hmem
    · exact ⟨hlow, hhigh⟩
    · exact h.range other (file?_ne_none_iff.mpr hmem)
  latest := ⟨Int.le_trans (by decide) hlow, hhigh⟩

end Numbered

/-! ## Calls on a handle -/

def answer (code : α → Int) : Except Error α → Int
  | .ok a => code a
  | .error e => e.code

theorem run_of_unknown {x : IndexM α} (h : t.file? handle = none) :
    run handle x (t, w) = (.error .invalidHandle, t, w) := by
  unfold run
  simp only [h]

theorem run_of_open {x : IndexM α} {r : Except Error α} (h : t.file? handle = some ix)
    (hx : ending x (ix, w) = (r, ix', w')) : run handle x (t, w) = (r, t.put handle ix', w') := by
  unfold run
  unfold ending at hx
  simp only [h]
  cases hend : x (ix, w) with
  | ok a s =>
    rw [hend] at hx
    cases hx
    rfl
  | error e s =>
    rw [hend] at hx
    cases hx
    rfl

theorem status_eq {x : IndexM α} {code : α → Int} {r : Except Error α}
    (h : run handle x (t, w) = (r, t', w')) :
      status handle x code (t, w) = (answer code r, t', w') := by
  show (match run handle x (t, w) with
    | (r, s) => (match r with
      | .ok a => (pure (code a) : TableM Int)
      | .error e => pure e.code) s) = _
  rw [h]
  cases r <;> rfl

theorem finish_eq {x : IndexM Unit} {r : Except Error Unit} (h : run handle x (t, w) = (r, t', w')) :
    finish handle x (t, w) = (answer (fun _ => 0) r, t'.erase handle, w') := by
  show (match status handle x (fun _ => 0) (t, w) with
    | (a, s) => (a, (s.1.erase handle, s.2))) = _
  rw [status_eq h]

/-- Whatever comes of it, a handle that is ended with is given up, and no other one. -/
theorem finish_erases (t : Table) (handle : Int) (x : IndexM Unit) (w : Workspace) :
    ∃ a w', finish handle x (t, w) = (a, t.erase handle, w') := by
  cases h : t.file? handle with
  | none => exact ⟨_, _, by rw [finish_eq (run_of_unknown h)]⟩
  | some ix => exact ⟨_, _, by rw [finish_eq (run_of_open h rfl), erase_put]⟩

/-- What may be done with one handle: a visit of its file, as for moves, searches and updates, or an
end with it, as for closing and removing. -/
inductive On (handle : Int) : TableM Int → Prop
  | visit {α : Type} (x : IndexM α) (code : α → Int) : On handle (status handle x code)
  | finish (x : IndexM Unit) : On handle (finish handle x)

namespace On

variable {x : TableM Int}

theorem unknown (hx : On handle x) (h : t.file? handle = none) :
    x (t, w) = (Error.invalidHandle.code, t, w) := by
  cases hx with
  | visit x code => exact status_eq (run_of_unknown h)
  | finish x =>
    rw [finish_eq (run_of_unknown h), erase_of_unknown h]
    rfl

/-- What a call on one handle does to the table: the file of the handle changes, or is given up. -/
theorem step (hx : On handle x) (t : Table) (w : Workspace) :
    ∃ a w', x (t, w) = (a, t, w') ∨ (∃ ix, x (t, w) = (a, t.put handle ix, w')) ∨
      x (t, w) = (a, t.erase handle, w') := by
  cases hx with
  | visit x code =>
    cases h : t.file? handle with
    | none => exact ⟨_, _, .inl (status_eq (run_of_unknown h))⟩
    | some ix => exact ⟨_, _, .inr (.inl ⟨_, status_eq (run_of_open h rfl)⟩)⟩
  | finish x =>
    obtain ⟨a, w', h⟩ := finish_erases t handle x w
    exact ⟨a, w', .inr (.inr h)⟩

theorem numbered (hx : On handle x) (h : t.Numbered) (w : Workspace) : (x (t, w)).2.1.Numbered := by
  obtain ⟨a, w', hsame | ⟨ix, hput⟩ | herase⟩ := hx.step t w
  · rwa [hsame]
  · rw [hput]
    exact h.put
  · rw [herase]
    exact h.erase

/-- The files of other handles, with their cursors, are left alone. -/
theorem apart (hx : On handle x) (hne : other ≠ handle) (t : Table) (w : Workspace) :
    (x (t, w)).2.1.file? other = t.file? other := by
  obtain ⟨a, w', hsame | ⟨ix, hput⟩ | herase⟩ := hx.step t w
  · rw [hsame]
  · rw [hput]
    exact file?_put.trans (if_neg hne)
  · rw [herase]
    exact file?_erase.trans (if_neg hne)

end On

/-! ## Opening -/

section Opening

variable {name : String} {options : OpenOptions} {cell : Nat}

theorem openFile_of_ok (h : Index.openFile name options cell w = .ok ix w') :
    openFile name options cell (t, w) =
      (t.freshHandle, { files := (t.freshHandle, ix) :: t.files, latest := t.freshHandle }, w') := by
  unfold openFile
  simp only [h]

theorem openFile_of_error {e : Error} (h : Index.openFile name options cell w = .error e w') :
    openFile name options cell (t, w) = (e.code, t, w') := by
  unfold openFile
  simp only [h]

theorem Numbered.openFile (h : t.Numbered) (hroom : t.files.length < maxHandle) (name : String)
    (options : OpenOptions) (cell : Nat) (w : Workspace) :
    (openFile name options cell (t, w)).2.1.Numbered := by
  have hseeks := h.seeks hroom
  have hrange := hseeks.range h.latest.1
  cases hopen : Index.openFile name options cell w with
  | ok ix w' =>
    rw [openFile_of_ok hopen]
    exact h.cons hseeks.unused hrange.1 hrange.2
  | error e w' => rwa [openFile_of_error hopen]

end Opening

/-! ## Tables in use -/

/-- The tables that calls make of a new one. From one call to the next, anything may become of what
the files share. -/
inductive Reached : Table → Prop
  | new : Reached {}
  | opened {t : Table} (h : Reached t) (hroom : t.files.length < maxHandle) (name : String)
      (options : OpenOptions) (cell : Nat) (w : Workspace) :
      Reached (openFile name options cell (t, w)).2.1
  | called {t : Table} {handle : Int} {x : TableM Int} (h : Reached t) (hx : On handle x)
      (w : Workspace) : Reached (x (t, w)).2.1

theorem numbered_new : Numbered {} where
  nodup := List.nodup_nil
  range _ h := absurd rfl h
  latest := by decide

theorem Reached.numbered (h : t.Reached) : t.Numbered := by
  induction h with
  | new => exact numbered_new
  | opened _ hroom name options cell w ih => exact ih.openFile hroom name options cell w
  | called _ hx w ih => exact hx.numbered ih w

/-! ## Numbers that begin again -/

theorem exists_openFile_ok : ∃ options ix w, Index.openFile "a" options 0 {} = .ok ix w := by
  let options : OpenOptions := { mode := .create, keyLength := 4, blockSize := 512 }
  have hone : (openFile "a" options 0 ({}, {})).1 = 1 := by decide +kernel
  cases hopen : Index.openFile "a" options 0 {} with
  | ok ix w => exact ⟨options, ix, w, hopen⟩
  | error e w =>
    rw [openFile_of_error hopen] at hone
    have hneg := e.code_neg
    omega

/-- A file that is opened and closed again and again leads to any number that was given out last. -/
theorem reached_latest {n : Nat} (hn : n ≤ maxHandle) : Reached { latest := n } := by
  induction n with
  | zero => exact .new
  | succ n ih =>
    -- one more round gives out the next number, and no file is left open
    have hlow : (n : Int) < maxHandle := by omega
    have hfresh : freshHandle { latest := n } = (n + 1 : Nat) := if_neg (Int.not_le.mpr hlow)
    generalize ((n + 1 : Nat) : Int) = handle at hfresh ⊢
    obtain ⟨options, ix, w, hopen⟩ := exists_openFile_ok
    have hopened := (ih (Int.le_of_lt hlow)).opened (by show (0 : Int) < _; decide) "a" options 0 {}
    rw [openFile_of_ok hopen, hfresh] at hopened
    have hclosed := hopened.called (.finish Index.close : On handle _) w
    obtain ⟨a, w', hclose⟩ := finish_erases { files := [(handle, ix)], latest := handle } handle
      Index.close w
    rw [hclose] at hclosed
    simpa [erase] using hclosed

/-! ## What comes of a call -/

structure Serves (t : Table) (w : Workspace) : Prop where
  /-- A file comes in under the number that is found first, which is not in use. -/
  opened {name : String} {options : OpenOptions} {cell : Nat} {ix : Index} {w' : Workspace}
    (hroom : t.files.length < maxHandle) (h : Index.openFile name options cell w = .ok ix w') :
    ∃ handle t', openFile name options cell (t, w) = (handle, t', w') ∧ t.Seeks t.latest handle ∧
      1 ≤ handle ∧ handle ≤ maxHandle ∧ t.file? handle = none ∧ t'.latest = handle ∧
      ∀ other, t'.file? other = if other = handle then some ix else t.file? other
  /-- If a file cannot be opened, the table stays as it is. -/
  refused {name : String} {options : OpenOptions} {cell : Nat} {e : Error} {w' : Workspace}
    (h : Index.openFile name options cell w = .error e w') :
    openFile name options cell (t, w) = (e.code, t, w') ∧ e.code < 0
  /-- The only calls for an open file that are abandoned. -/
  abandoned (hroom : t.files.length < maxHandle) (name : String) (options : OpenOptions) (cell : Nat) :
    (openFile name options cell (t, w)).1 = Error.outOfRange.code ↔
      options.Abandons (Index.fileName name) w.disk
  unknown {handle : Int} (h : t.file? handle = none) :
    (∀ x, On handle x → x (t, w) = (-21, t, w)) ∧ t.textName handle = .error .invalidHandle
  /-- The answer is that of the file, which stays open. -/
  visited {handle : Int} {ix : Index} (h : t.file? handle = some ix) {α : Type} (x : IndexM α)
    (code : α → Int) :
    ∃ t', status handle x code (t, w) = (answer code (ending x (ix, w)).1, t', (ending x (ix, w)).2.2) ∧
      ∀ other, t'.file? other = if other = handle then some (ending x (ix, w)).2.1 else t.file? other
  /-- The handle is given up whatever is answered. -/
  ended {handle : Int} {x : TableM Int} (hx : x = close handle ∨ x = kill handle) :
    ∃ a t' w', x (t, w) = (a, t', w') ∧
      ∀ other, t'.file? other = if other = handle then none else t.file? other
  /-- Other handles stay open or not, with the cursors they have. -/
  apart {handle other : Int} {x : TableM Int} (hx : On handle x) (hne : other ≠ handle) :
    (x (t, w)).2.1.file? other = t.file? other

/-- Whatever calls have been made of a table, it gives out numbers that are not in use, answers
failures with negative numbers, knows no handles but those of open files, and keeps the files of all
handles apart. -/
theorem Reached.keeps_handles (h : t.Reached) (w : Workspace) : t.Serves w where
  opened hroom hopen := by
    have hseeks := h.numbered.seeks hroom
    have hrange := hseeks.range h.numbered.latest.1
    refine ⟨_, _, openFile_of_ok hopen, hseeks, hrange.1, hrange.2, hseeks.unused, rfl, fun other => ?_⟩
    unfold file?
    rw [List.lookup_cons]
    split
    · next heq => rw [if_pos (eq_of_beq heq)]
    · next hne => rw [if_neg (ne_of_beq_false hne)]
  refused hopen := ⟨openFile_of_error hopen, Error.code_neg _⟩
  abandoned hroom name options cell := by
    have hends := Index.openFile_abandoned name options cell w
    have hrange := (h.numbered.seeks hroom).range h.numbered.latest.1
    cases hopen : Index.openFile name options cell w with
    | ok ix w' =>
      rw [openFile_of_ok hopen, ← hends.of_ok hopen]
      refine iff_of_false (fun heq => ?_) nofun
      have hneg := heq ▸ Error.code_neg .outOfRange
      omega
    | error e w' =>
      rw [openFile_of_error hopen, ← hends.of_error hopen, Error.code_eq_outOfRange_iff,
        Except.error.injEq]
  unknown hnone := by
    refine ⟨fun x hx => hx.unknown hnone, ?_⟩
    unfold textName
    rw [hnone]
  visited hopen _ x code :=
    ⟨_, status_eq (run_of_open hopen rfl), fun _ => file?_put_of_open hopen⟩
  ended hx := by
    obtain rfl | rfl := hx
    · obtain ⟨a, w', hclose⟩ := finish_erases t _ Index.close w
      exact ⟨a, _, w', hclose, fun _ => file?_erase⟩
    · obtain ⟨a, w', hkill⟩ := finish_erases t _ Index.kill w
      exact ⟨a, _, w', hkill, fun _ => file?_erase⟩
  apart hx hne := hx.apart hne t w

/-- Behind the largest number the first one comes again, and with a short block no number comes. -/
theorem keeps_handles_wrapped :
    Reached { latest := maxHandle } ∧ Serves { latest := maxHandle } {} ∧
      (openFile "a" { mode := .create, keyLength := 4, blockSize := 512 } 0
        ({ latest := maxHandle }, {})).1 = 1 ∧
      (openFile "a" { mode := .create, format := .legacy, keyLength := 4, blockSize := 64 } 0
        ({ latest := maxHandle }, {})).1 = Error.outOfRange.code := by
  have h : Reached { latest := maxHandle } :=
    reached_latest (by decide : (2147483647 : Nat) ≤ maxHandle)
  exact ⟨h, h.keeps_handles {}, by decide +kernel, by decide +kernel⟩

end Table

end PagedIndex
