import Mathlib.Logic.Relation
import PagedIndex.Cache.Transfer
import PagedIndex.Proofs.Disk.Store

/-!
# What has become of a disk

The accesses that were made to a disk lead from what it was to what it is. What a disk refuses is
told by its accesses, so a later disk refuses what the earlier one would have come to refuse.

## Main definitions

* `Disk.Step` — an access, whatever it came to.
* `Disk.Reaches` — any number of accesses.

## Main statements

* `Disk.Reaches.follows` — a later disk refuses accesses as before.
* `Cache.readImage_reaches` — reading a block is an access.
-/

namespace PagedIndex

namespace Disk

/-- One access to a store, whatever it comes to. -/
inductive Step (d : Disk) : Disk → Prop
  | ask (s : Store) (access : Access) (offset length : Nat) :
      Step d (ending (s.ask access offset length) d).2
  | write (s : Store) (offset : Nat) (data : Bytes) : Step d (ending (s.write offset data) d).2

/-- A disk becomes a later one by accesses to it. -/
abbrev Reaches : Disk → Disk → Prop := Relation.ReflTransGen Step

end Disk

section Ending

variable {ε σ α : Type} {x : EStateM ε σ α} {s : σ} {Q : Except ε α → σ → Prop}

/-- What is true of the end of a computation is told by its rules. -/
theorem ends_ending : Ends x s fun r t => r = (ending x s).1 ∧ t = (ending x s).2 := by
  unfold Ends ending
  split <;> exact ⟨rfl, rfl⟩

theorem eq_ok_of_ending {a : α} {t : σ} (h : ending x s = (.ok a, t)) : x s = .ok a t := by
  unfold ending at h
  split at h <;> cases h
  assumption

theorem eq_error_of_ending {e : ε} {t : σ} (h : ending x s = (.error e, t)) :
    x s = .error e t := by
  unfold ending at h
  split at h <;> cases h
  assumption

end Ending

namespace Store

variable (s : Store) (d : Disk) (offset : Nat)

theorem ask_reaches (access : Access) (length : Nat) :
    Ends (s.ask access offset length) d fun _ d' => d.Reaches d' := by
  refine ends_ending.mono ?_
  rintro r d' ⟨-, rfl⟩
  exact .single (.ask s access offset length)

theorem write_reaches (data : Bytes) :
    Ends (s.write offset data) d fun _ d' => d.Reaches d' := by
  refine ends_ending.mono ?_
  rintro r d' ⟨-, rfl⟩
  exact .single (.write s offset data)

/-- A read does nothing to the disk but ask for it. -/
theorem read_asks (length : Nat) : Ends (s.read offset length) d fun _ d' =>
    d' = (ending (s.ask .read offset length) d).2 := by
  unfold read
  refine Ends.bind ends_ending (fun e d' h => h.2) ?_
  rintro u d' ⟨-, h⟩
  cases s.kind with
  | memory => exact h
  | folder => exact Ends.throw h
  | file writable =>
    dsimp only
    split
    · exact Ends.throw h
    · exact h

end Store

namespace Cache

variable (s : Store) (pos : BlockPos) (blockSize : Nat) (d : Disk)

theorem readImage_asks : Ends (readImage s pos blockSize) d fun _ d' =>
    d' = (ending (s.ask .read pos.offset blockSize) d).2 := by
  unfold readImage
  refine Ends.bind (s.read_asks d pos.offset blockSize) (fun e d' h => h) ?_
  intro got d' h
  split
  · exact Ends.pure h
  · split
    · exact Ends.pure h
    · exact Ends.throw h

theorem readImage_reaches : Ends (readImage s pos blockSize) d fun _ d' => d.Reaches d' := by
  refine (readImage_asks s pos blockSize d).mono ?_
  rintro r d' rfl
  exact .single (.ask s .read pos.offset blockSize)

end Cache

namespace Disk

variable {d d' : Disk}

theorem Step.follows (h : d.Step d') : d.Follows d' := by
  cases h with
  | ask s access offset length => exact ((s.ask_ends d access offset length).ending).1
  | write s offset data => exact ((s.write_ends d offset data).ending).follows

/-- A later disk refuses accesses as before. -/
theorem Reaches.follows (h : d.Reaches d') : d.Follows d' := by
  induction h with
  | refl => exact .refl d
  | tail _ hstep ih => exact ih.trans hstep.follows

end Disk

end PagedIndex
