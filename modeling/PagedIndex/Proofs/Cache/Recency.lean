import Mathlib.Data.List.Induction
import Mathlib.Data.List.Nodup
import PagedIndex.Cache.Recency

/-!
# Runs of a recency list

Buffers are used and given up in any order. A walk along the links of the list, from the buffer
unused for longest on, comes to an end; on the way are the buffers that are tracked then, each of
them once, in the order in which they were last used.

## Main definitions

* `Recency.Arena.Walks` — a walk along the links, as far as they go.
* `Recency.Use`, `Recency.after` — what becomes of a list.
* `Recency.Ranked` — the buffers that uses leave tracked, in the order of their last uses.

## Main statements

* `Recency.Ranked.touch`, `Recency.Ranked.remove` — one use more.
* `Recency.walk_ranked` — the list says what the uses said, and the walk along it ends.
-/

namespace PagedIndex

namespace Recency

/-! ## Walks -/

namespace Arena

/-- A walk from a buffer to those used after it, until there is none. -/
inductive Walks (a : Arena) : Option Nat → List Nat → Prop
  | nil : Walks a none []
  | cons {i : Nat} {l : List Nat} (hi : i < a.capacity) (h : Walks a (a.place i).newer l) :
    Walks a (some i) (i :: l)

variable {a : Arena} {newer older start : Option Nat} {l l' order : List Nat}

theorem Walks.unique (h : a.Walks start l) (h' : a.Walks start l') : l = l' := by
  induction h generalizing l' with
  | nil => cases h'; rfl
  | cons _ _ ih =>
    cases h' with
    | cons _ h' => rw [ih h']

/-- A walk goes through a row and on from what stands in front of it. -/
theorem Row.walks (h : a.Row newer older l) (hnext : a.Walks newer l') :
    a.Walks (l.getLast?.or newer) (l.reverse ++ l') := by
  induction l generalizing newer l' with
  | nil => exact hnext
  | cons i rest ih =>
    obtain ⟨hi, hlink, hrest⟩ := h
    have hthere : a.Walks (some i) (i :: l') := .cons hi (by rwa [hlink])
    simpa [getLast?_cons_or] using ih hrest hthere

/-- The walk from the oldest buffer on takes in the whole list, and ends. -/
theorem Lists.walks_iff (h : a.Lists order) : a.Walks a.oldest l ↔ l = a.oldestFirst := by
  have hwalks : a.Walks a.oldest a.oldestFirst := by
    rw [h.oldest, h.oldestFirst]
    simpa using h.row.walks .nil
  constructor
  · intro hl
    exact hl.unique hwalks
  · rintro rfl
    exact hwalks

end Arena

/-! ## Uses -/

/-- A buffer is used, or it is given up. -/
inductive Use where
  | touch (i : Nat)
  | remove (i : Nat)
  deriving DecidableEq

namespace Use

def buffer : Use → Nat
  | touch i => i
  | remove i => i

def run : Use → Recency → Recency
  | touch i, r => r.touch i
  | remove i, r => r.remove i

end Use

def after (r : Recency) (uses : List Use) : Recency := uses.foldl (fun r u => u.run r) r

/-- Of the uses of a buffer the last one is at `n`, and it is not that the buffer is given up. -/
def LastTouched (uses : List Use) (i n : Nat) : Prop :=
  uses[n]? = some (.touch i) ∧ ∀ m u, n < m → uses[m]? = some u → u.buffer ≠ i

/-- The buffers that are used and not given up since, in the order of their last uses. -/
structure Ranked (uses : List Use) (l : List Nat) : Prop where
  nodup : l.Nodup
  mem_iff : ∀ i, i ∈ l ↔ ∃ n, LastTouched uses i n
  ordered : l.Pairwise fun i j => ∀ n m, LastTouched uses i n → LastTouched uses j m → n < m

variable {capacity : Nat} {r : Recency} {uses : List Use} {u : Use} {i j n : Nat} {l : List Nat}

@[simp] theorem capacity_run : (u.run r).capacity = r.capacity := by
  cases u <;> simp [Use.run]

@[simp] theorem capacity_after : (r.after uses).capacity = r.capacity := by
  induction uses generalizing r with
  | nil => rfl
  | cons u uses ih => exact ih.trans capacity_run

theorem after_concat : r.after (uses ++ [u]) = u.run (r.after uses) := List.foldl_concat ..

/-! ## One use more -/

theorem nodup_oldestFirst (r : Recency) : r.oldestFirst.Nodup := by
  simpa [order] using r.nodup_order

theorem reverse_order (r : Recency) : r.order.reverse = r.oldestFirst := List.reverse_reverse _

theorem reverse_erase_order (r : Recency) (i : Nat) :
    (r.order.erase i).reverse = r.oldestFirst.erase i := by
  rw [r.nodup_order.erase_eq_filter, r.nodup_oldestFirst.erase_eq_filter, ← List.filter_reverse,
    reverse_order]

theorem oldestFirst_touch (hi : i < r.capacity) :
    (r.touch i).oldestFirst = r.oldestFirst.erase i ++ [i] := by
  rw [← reverse_order, order_touch hi, List.reverse_cons, reverse_erase_order]

theorem oldestFirst_remove : (r.remove i).oldestFirst = r.oldestFirst.erase i := by
  rw [← reverse_order, order_remove, reverse_erase_order]

theorem LastTouched.lt_length (h : LastTouched uses i n) : n < uses.length :=
  (List.getElem?_eq_some_iff.mp h.1).1

/-- When a buffer was last used changes by a use of this buffer only. -/
theorem lastTouched_concat : LastTouched (uses ++ [u]) i n ↔
    (n = uses.length ∧ u = .touch i) ∨ (u.buffer ≠ i ∧ LastTouched uses i n) := by
  have hnew : (uses ++ [u])[uses.length]? = some u := by simp
  have hend : ∀ {m v}, (uses ++ [u])[m]? = some v →
      uses[m]? = some v ∨ (m = uses.length ∧ v = u) := by
    intro m v hv
    simp only [List.getElem?_append, List.getElem?_singleton] at hv
    grind
  constructor
  · intro h
    obtain ⟨hn, hlast⟩ := id h
    rcases hend hn with hold | ⟨rfl, hu⟩
    · right
      refine ⟨hlast uses.length u (List.getElem?_eq_some_iff.mp hold).1 hnew, hold, ?_⟩
      intro m v hm hv
      apply hlast m v hm
      rwa [List.getElem?_append_left (List.getElem?_eq_some_iff.mp hv).1]
    · exact .inl ⟨rfl, hu.symm⟩
  · rintro (⟨rfl, rfl⟩ | ⟨hne, h⟩)
    · refine ⟨hnew, fun m v hm hv => ?_⟩
      have hlt := (List.getElem?_eq_some_iff.mp hv).1
      simp only [List.length_append, List.length_singleton] at hlt
      omega
    · refine ⟨(List.getElem?_append_left h.lt_length).trans h.1, fun m v hm hv => ?_⟩
      rcases hend hv with hold | ⟨-, rfl⟩
      · exact h.2 m v hm hold
      · exact hne

theorem lastTouched_touch : LastTouched (uses ++ [.touch i]) j n ↔
    if j = i then n = uses.length else LastTouched uses j n := by
  rw [lastTouched_concat]
  by_cases hj : j = i
  · simp [hj, Use.buffer]
  · simp [hj, Use.buffer, Ne.symm hj]

theorem lastTouched_remove : LastTouched (uses ++ [.remove i]) j n ↔
    j ≠ i ∧ LastTouched uses j n := by
  rw [lastTouched_concat]
  simp [Use.buffer, eq_comm]

namespace Ranked

theorem nil : Ranked [] [] where
  nodup := List.nodup_nil
  mem_iff i := by simp [LastTouched]
  ordered := .nil

/-- A buffer that is used goes behind all others. -/
theorem touch (h : Ranked uses l) (i : Nat) :
    Ranked (uses ++ [.touch i]) (l.erase i ++ [i]) := by
  have hmem : ∀ j, j ∈ l.erase i ↔ j ≠ i ∧ j ∈ l := fun j => h.nodup.mem_erase_iff
  refine ⟨?_, fun j => ?_, ?_⟩
  · rw [List.nodup_append]
    exact ⟨h.nodup.erase i, List.nodup_singleton i, by grind⟩
  · simp only [lastTouched_touch]
    by_cases hj : j = i
    · simp [hj]
    · simp [hj, hmem, h.mem_iff]
  · rw [List.pairwise_append]
    refine ⟨(h.ordered.sublist List.erase_sublist).imp_of_mem ?_, List.pairwise_singleton _ _, ?_⟩
    · intro j k hj hk hlt n m hn hm
      rw [lastTouched_touch, if_neg ((hmem _).mp ‹_›).1] at hn hm
      exact hlt n m hn hm
    · intro j hj k hk n m hn hm
      rw [lastTouched_touch, if_neg ((hmem j).mp hj).1] at hn
      rw [lastTouched_touch, if_pos (List.mem_singleton.mp hk)] at hm
      exact hm ▸ hn.lt_length

/-- A buffer that is given up is not among them any more. -/
theorem remove (h : Ranked uses l) (i : Nat) : Ranked (uses ++ [.remove i]) (l.erase i) := by
  refine ⟨h.nodup.erase i, fun j => ?_, ?_⟩
  · simp [lastTouched_remove, h.nodup.mem_erase_iff, h.mem_iff]
  · refine (h.ordered.sublist List.erase_sublist).imp ?_
    intro j k hlt n m hn hm
    exact hlt n m (lastTouched_remove.mp hn).2 (lastTouched_remove.mp hm).2

end Ranked

/-- The list says what the uses said. -/
theorem ranked_oldestFirst (h : ∀ u ∈ uses, u.buffer < capacity) :
    Ranked uses ((new capacity).after uses).oldestFirst := by
  induction uses using List.reverseRecOn with
  | nil => simpa [after, ← reverse_order] using Ranked.nil
  | append_singleton uses u ih =>
    have ih := ih fun v hv => h v (by simp [hv])
    rw [after_concat]
    cases u with
    | touch i =>
      have hi : i < capacity := h (.touch i) (by simp)
      rw [Use.run, oldestFirst_touch (by simpa using hi)]
      exact ih.touch i
    | remove i =>
      rw [Use.run, oldestFirst_remove]
      exact ih.remove i

/-- After any uses of buffers that have a place, the walk from the oldest buffer on comes to an end.
On the way are the buffers that were used and not given up since, each of them once, in the order of
their last uses, and as many as the list counts. -/
theorem walk_ranked (capacity : Nat) (uses : List Use) (h : ∀ u ∈ uses, u.buffer < capacity) :
    let r := (new capacity).after uses
    (∀ l, r.arena.Walks r.arena.oldest l ↔ l = r.oldestFirst) ∧
      Ranked uses r.oldestFirst ∧ r.size = r.oldestFirst.length := by
  intro r
  refine ⟨fun l => r.lists_order.walks_iff, ranked_oldestFirst h, ?_⟩
  rw [← reverse_order, List.length_reverse, r.size_eq]

/-- The newest buffer is used again, then the oldest one; one that is not tracked is given up, one
at the end and one between others. -/
def shuffled : List Use :=
  [.touch 2, .touch 0, .touch 3, .touch 3, .touch 2, .remove 1, .remove 0, .touch 1, .remove 2,
    .remove 3, .touch 0]

theorem walk_ranked_shuffled : (∀ u ∈ shuffled, u.buffer < 4) ∧
    ((new 4).after shuffled).oldestFirst = [1, 0] ∧ Ranked shuffled [1, 0] := by
  have hlist : ((new 4).after shuffled).oldestFirst = [1, 0] := by decide +kernel
  refine ⟨by decide, hlist, ?_⟩
  have h := (walk_ranked 4 shuffled (by decide)).2.1
  rwa [hlist] at h

end Recency

end PagedIndex
