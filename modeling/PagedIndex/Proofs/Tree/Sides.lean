import PagedIndex.Proofs.Order
import PagedIndex.Proofs.Tree.Looking

/-!
# The sides of a cursor

The entries that a cursor has ahead of it are those that are greater than the entry it stands on or
next to, whether that entry is in the file or not; the others are behind it.

## Main definitions

* `Tree.NextAbove`, `Tree.NextBelow` — the entry next to one that may be there or not.
* `Cursor.ahead`, `Cursor.behind` — the entries on either side of a cursor.
* `Cursor.Moved` — a cursor that has landed on an entry, or has run off.
* `Cursor.Sought` — a cursor that has moved to a key, or to where the key would be.

## Main statements

* `Cursor.ahead_of_head`, `Cursor.behind_of_last` — what a move by one entry leaves on its side.
* `Cursor.Sought.sides` — the sides of a cursor next to a key.
-/

namespace PagedIndex

namespace Tree

variable (t : Tree)

def above (e : Entry) (es : List Entry) : List Entry :=
  es.filter fun a => Entry.compare t.collation true e a == .lt

def below (e : Entry) (es : List Entry) : List Entry :=
  es.filter fun a => Entry.compare t.collation true e a == .gt

variable {t} {target e : Entry} {front back : List Entry}

/-- What is above and below a target that all entries are less or greater than. -/
theorem sides_of_missed (hless : ∀ a ∈ front, Entry.compare t.collation true target a = .gt)
    (hgreater : ∀ a ∈ back, Entry.compare t.collation true target a = .lt) :
    t.below target (front ++ back) = front ∧ t.above target (front ++ back) = back := by
  unfold above below
  rw [List.filter_append, List.filter_append]
  have hfront : front.filter (fun a => Entry.compare t.collation true target a == .lt) = [] :=
    List.filter_eq_nil_iff.mpr fun a ha => by simp [hless a ha]
  have hback : back.filter (fun a => Entry.compare t.collation true target a == .gt) = [] :=
    List.filter_eq_nil_iff.mpr fun a ha => by simp [hgreater a ha]
  rw [hfront, hback, List.filter_eq_self.mpr fun a ha => by simp [hless a ha],
    List.filter_eq_self.mpr fun a ha => by simp [hgreater a ha]]
  simp

/-- What is above and below a target that is an entry. -/
theorem sides_of_hit (hasc : t.Ascending (front ++ e :: back))
    (hhit : Entry.compare t.collation true target e = .eq) :
    t.below target (front ++ e :: back) = front ∧ t.above target (front ++ e :: back) = back := by
  obtain ⟨-, hback, hacross⟩ := List.pairwise_append.mp hasc
  have hless : ∀ a ∈ front, Entry.compare t.collation true target a = .gt := fun a ha =>
    Std.OrientedCmp.gt_of_lt (Std.TransCmp.lt_of_lt_of_eq
      (precedes_iff.mp (hacross a ha e List.mem_cons_self)).1 (Std.OrientedCmp.eq_symm hhit))
  have hgreater : ∀ a ∈ back, Entry.compare t.collation true target a = .lt := fun a ha =>
    Std.TransCmp.lt_of_eq_of_lt hhit (precedes_iff.mp (List.rel_of_pairwise_cons hback ha)).1
  have hsides := sides_of_missed hless hgreater
  unfold above below at *
  simpa [hhit] using hsides

variable (t) in
/-- The least of the entries that are greater than one. -/
def NextAbove (es : List Entry) (e a : Entry) : Prop :=
  a ∈ es ∧ Entry.compare t.collation true e a = .lt ∧
    ∀ b ∈ es, Entry.compare t.collation true e b = .lt →
      b = a ∨ Entry.compare t.collation true a b = .lt

variable (t) in
/-- The greatest of the entries that are less than one. -/
def NextBelow (es : List Entry) (e a : Entry) : Prop :=
  a ∈ es ∧ Entry.compare t.collation true e a = .gt ∧
    ∀ b ∈ es, Entry.compare t.collation true e b = .gt →
      b = a ∨ Entry.compare t.collation true a b = .gt

variable {es : List Entry} {a : Entry}

theorem head?_above (hasc : t.Ascending es) :
    (t.above e es).head? = some a ↔ t.NextAbove es e a := by
  have hmem : ∀ b, b ∈ t.above e es ↔ b ∈ es ∧ Entry.compare t.collation true e b = .lt := by
    simp [above]
  have hasc' : t.Ascending (t.above e es) := hasc.sublist List.filter_sublist
  simp only [NextAbove, ← and_assoc, ← hmem, ← and_imp]
  cases habove : t.above e es with
  | nil => simp
  | cons b rest =>
    rw [habove] at hasc'
    simp only [List.head?_cons, Option.some.injEq]
    constructor
    · rintro rfl
      refine ⟨List.mem_cons_self, fun c hc => (List.mem_cons.mp hc).imp_right fun hc => ?_⟩
      exact (precedes_iff.mp (List.rel_of_pairwise_cons hasc' hc)).1
    · rintro ⟨ha, hleast⟩
      rcases List.mem_cons.mp ha with rfl | ha
      · rfl
      · have hlt := (precedes_iff.mp (List.rel_of_pairwise_cons hasc' ha)).1
        refine (hleast b List.mem_cons_self).resolve_right fun hgt => ?_
        rw [Std.OrientedCmp.gt_of_lt hlt] at hgt
        cases hgt

theorem getLast?_below (hasc : t.Ascending es) :
    (t.below e es).getLast? = some a ↔ t.NextBelow es e a := by
  have hmem : ∀ b, b ∈ t.below e es ↔ b ∈ es ∧ Entry.compare t.collation true e b = .gt := by
    simp [below]
  have hasc' : t.Ascending (t.below e es) := hasc.sublist List.filter_sublist
  simp only [NextBelow, ← and_assoc, ← hmem, ← and_imp]
  obtain hbelow | ⟨rest, b, hbelow⟩ := List.eq_nil_or_concat (t.below e es)
  · simp [hbelow]
  · rw [List.concat_eq_append] at hbelow
    rw [hbelow] at hasc' ⊢
    have hlast : ∀ c ∈ rest, Entry.compare t.collation true c b = .lt := fun c hc =>
      (precedes_iff.mp ((List.pairwise_append.mp hasc').2.2 c hc b List.mem_cons_self)).1
    simp only [List.getLast?_concat, Option.some.injEq]
    constructor
    · rintro rfl
      refine ⟨by simp, fun c hc => ?_⟩
      rcases List.mem_append.mp hc with hc | hc
      · exact .inr (Std.OrientedCmp.gt_of_lt (hlast c hc))
      · exact .inl (List.mem_singleton.mp hc)
    · rintro ⟨ha, hgreatest⟩
      rcases List.mem_append.mp ha with ha | ha
      · refine (hgreatest b (by simp)).resolve_right fun hgt => ?_
        rw [hlast a ha] at hgt
        cases hgt
      · exact (List.mem_singleton.mp ha).symm

end Tree

namespace Cursor

variable (t : Tree)

def ahead (c : Cursor) (es : List Entry) : List Entry :=
  match c.state, c.current with
  | .afterLast, _ => []
  | .onKey, some e | .between, some e => t.above e es
  | _, _ => es

def behind (c : Cursor) (es : List Entry) : List Entry :=
  match c.state, c.current with
  | .beforeFirst, _ => []
  | .onKey, some e | .between, some e => t.below e es
  | _, _ => es

/-- A cursor that has moved to an entry, or off all entries with what it stood next to. -/
structure Moved (l : Layout) (c c' : Cursor) (found : Option Entry) (off : KeyState) : Prop where
  state : c'.state = if found.isSome then .onKey else off
  current : c'.current = found.or c.current
  aligned : c'.Aligned l

variable {l : Layout} {c c' : Cursor} {e : Entry} {off : KeyState}

variable {t} {es rest : List Entry}

/-- On the first entry that was ahead, the others are ahead. -/
theorem ahead_of_head (hasc : t.Ascending es) (h : c.ahead t es = e :: rest)
    (hstate : c'.state = .onKey) (hcurrent : c'.current = some e) : c'.ahead t es = rest := by
  have hself : Entry.compare t.collation true e e = .eq := Std.ReflCmp.compare_self
  have hnext : c'.ahead t es = t.above e es := by
    unfold ahead
    rw [hstate, hcurrent]
  rw [hnext]
  have habove : ∀ x, t.above x es = e :: rest → t.above e es = rest := by
    intro x hx
    have hasc' : t.Ascending (e :: rest) := hx ▸ hasc.sublist List.filter_sublist
    have he : Entry.compare t.collation true x e = .lt := by
      have hmem : e ∈ t.above x es := hx ▸ List.mem_cons_self
      simpa [Tree.above] using (List.mem_filter.mp hmem).2
    have hsame : t.above e es = t.above e (t.above x es) := by
      unfold Tree.above
      rw [List.filter_filter]
      refine List.filter_congr fun a _ => ?_
      cases ha : Entry.compare t.collation true e a with
      | lt => simp [Std.TransCmp.lt_trans he ha]
      | eq | gt => simp
    rw [hsame, hx]
    exact (@Tree.sides_of_hit t e e [] rest hasc' hself).2
  unfold ahead at h
  split at h
  · cases h
  · exact habove _ h
  · exact habove _ h
  · rw [h] at hasc ⊢
    exact (@Tree.sides_of_hit t e e [] rest hasc hself).2

/-- On the last entry that was behind, the others are behind. -/
theorem behind_of_last (hasc : t.Ascending es) (h : c.behind t es = rest ++ [e])
    (hstate : c'.state = .onKey) (hcurrent : c'.current = some e) : c'.behind t es = rest := by
  have hself : Entry.compare t.collation true e e = .eq := Std.ReflCmp.compare_self
  have hnext : c'.behind t es = t.below e es := by
    unfold behind
    rw [hstate, hcurrent]
  rw [hnext]
  have hbelow : ∀ x, t.below x es = rest ++ [e] → t.below e es = rest := by
    intro x hx
    have hasc' : t.Ascending (rest ++ [e]) := hx ▸ hasc.sublist List.filter_sublist
    have he : Entry.compare t.collation true x e = .gt := by
      have hmem : e ∈ t.below x es := hx ▸ List.mem_append_right _ List.mem_cons_self
      simpa [Tree.below] using (List.mem_filter.mp hmem).2
    have hsame : t.below e es = t.below e (t.below x es) := by
      unfold Tree.below
      rw [List.filter_filter]
      refine List.filter_congr fun a _ => ?_
      cases ha : Entry.compare t.collation true e a with
      | gt => simp [Std.TransCmp.gt_trans he ha]
      | eq | lt => simp
    rw [hsame, hx]
    exact (Tree.sides_of_hit hasc' hself).1
  unfold behind at h
  split at h
  · simp at h
  · exact hbelow _ h
  · exact hbelow _ h
  · rw [h] at hasc ⊢
    exact (Tree.sides_of_hit hasc hself).1

/-- A cursor that was moved to the first entry of a key, or to where the key would be. -/
structure Sought (t : Tree) (key : Bytes) (es : List Entry) (c c' : Cursor) : Prop where
  onKey : c'.state = .onKey ↔ ∃ a ∈ es, t.collation.compare key a.key = .eq
  beforeFirst : c'.state = .beforeFirst ↔ ∀ a ∈ es, t.collation.compare key a.key = .lt
  afterLast : c'.state = .afterLast ↔ es ≠ [] ∧ ∀ a ∈ es, t.collation.compare key a.key = .gt
  between : c'.state = .between ↔ (∀ a ∈ es, t.collation.compare key a.key ≠ .eq) ∧
    (∃ a ∈ es, t.collation.compare key a.key = .gt) ∧ ∃ a ∈ es, t.collation.compare key a.key = .lt
  /-- Of the entries that have the key, it is on the one of the least record position. -/
  found : c'.state = .onKey → ∃ e ∈ es, c'.current = some e ∧
    t.collation.compare key e.key = .eq ∧
    ∀ a ∈ es, t.collation.compare key a.key = .eq → e.record ≤ a.record
  missed : c'.state ≠ .onKey → c' = park c'.state ⟨key, t.layout.maxRecord⟩
  aligned : c'.Aligned t.layout

section Sought

variable {key : Bytes} {front back : List Entry}
  (hless : ∀ a ∈ front, t.collation.compare key a.key = .gt)
include hless

theorem Sought.of_found (hasc : t.Ascending (front ++ e :: back))
    (hhit : t.collation.compare key e.key = .eq) (h : Moved t.layout c c' (some e) off) :
    Sought t key (front ++ e :: back) c c' := by
  have hstate : c'.state = .onKey := h.state
  have hmem : e ∈ front ++ e :: back := by simp
  have hnot : ∀ {o : Ordering}, o ≠ .eq →
      ¬∀ a ∈ front ++ e :: back, t.collation.compare key a.key = o := by
    intro o ho hall
    exact ho ((hall e hmem).symm.trans hhit)
  refine ⟨by simp only [hstate, true_iff]; exact ⟨e, hmem, hhit⟩, ?_, ?_, ?_, fun _ => ?_,
    fun hne => absurd hstate hne, h.aligned⟩
  · simpa [hstate] using hnot (o := .lt) nofun
  · simp only [hstate, reduceCtorEq, false_iff]
    exact fun hall => hnot (o := .gt) nofun hall.2
  · simp only [hstate, reduceCtorEq, false_iff]
    exact fun hall => hall.1 e hmem hhit
  · refine ⟨e, hmem, h.current, hhit, fun a ha heq => ?_⟩
    rcases List.mem_append.mp ha with ha | ha
    · rw [hless a ha] at heq
      cases heq
    · rcases List.mem_cons.mp ha with rfl | ha
      · exact Nat.le_refl _
      · -- entries of one key follow each other by record position
        have hback := (List.pairwise_append.mp hasc).2.1
        have hlt := (Tree.precedes_iff.mp (List.rel_of_pairwise_cons hback ha)).1
        have hkey : t.collation.compare e.key a.key = .eq :=
          Std.TransCmp.eq_trans (Std.OrientedCmp.eq_symm hhit) heq
        rw [Entry.compare_eq_then, hkey, Ordering.eq_then, if_pos rfl] at hlt
        exact Nat.le_of_lt (Nat.compare_eq_lt.mp hlt)

theorem Sought.of_missed {state : KeyState}
    (hgreater : ∀ a ∈ back, t.collation.compare key a.key = .lt) (hstate : state ≠ .onKey)
    (hfirst : state = .beforeFirst ↔ front = [])
    (hlast : state = .afterLast ↔ front ++ back ≠ [] ∧ back = []) :
    Sought t key (front ++ back) c (park state ⟨key, t.layout.maxRecord⟩) := by
  have hne : ∀ a ∈ front ++ back, t.collation.compare key a.key ≠ .eq := by
    intro a ha
    rcases List.mem_append.mp ha with ha | ha
    · simp [hless a ha]
    · simp [hgreater a ha]
  have hfront : (∃ a ∈ front ++ back, t.collation.compare key a.key = .gt) ↔ front ≠ [] := by
    constructor
    · rintro ⟨a, ha, hgt⟩ rfl
      rw [hgreater a ha] at hgt
      cases hgt
    · intro hne
      obtain ⟨a, rest, rfl⟩ := List.exists_cons_of_ne_nil hne
      exact ⟨a, by simp, hless a List.mem_cons_self⟩
  have hback : (∃ a ∈ front ++ back, t.collation.compare key a.key = .lt) ↔ back ≠ [] := by
    constructor
    · rintro ⟨a, ha, hlt⟩ rfl
      rw [hless a (List.append_nil front ▸ ha)] at hlt
      cases hlt
    · intro hne
      obtain ⟨a, rest, rfl⟩ := List.exists_cons_of_ne_nil hne
      exact ⟨a, by simp, hgreater a List.mem_cons_self⟩
  have hcases : ∀ a ∈ front ++ back, t.collation.compare key a.key = .lt ∨
      t.collation.compare key a.key = .gt := by
    intro a ha
    have := hne a ha
    cases h : t.collation.compare key a.key <;> simp_all
  refine ⟨?_, ?_, ?_, ?_, fun h => absurd h hstate, fun _ => rfl, nofun⟩
  · exact iff_of_false hstate fun ⟨a, ha, heq⟩ => hne a ha heq
  · grind [park]
  · grind [park]
  · simp only [hfront, hback, park]
    cases state <;> grind

omit hless

/-- Next to a key that is not there, the entries above it are ahead and those below it behind. -/
theorem Sought.sides (h : Sought t key es c c') (hstate : c'.state ≠ .onKey) :
    c'.ahead t es = es.filter (fun a => t.collation.compare key a.key == .lt) ∧
      c'.behind t es = es.filter (fun a => t.collation.compare key a.key == .gt) := by
  have hne : ∀ a ∈ es, t.collation.compare key a.key ≠ .eq := fun a ha heq =>
    hstate (h.onKey.mpr ⟨a, ha, heq⟩)
  have hfirst := h.beforeFirst
  have hlast := h.afterLast
  rw [h.missed hstate] at hstate hfirst hlast ⊢
  generalize c'.state = state at *
  unfold ahead behind park at *
  cases state with
  | onKey => exact absurd rfl hstate
  | beforeFirst =>
    have hall := hfirst.mp rfl
    exact ⟨(List.filter_eq_self.mpr fun a ha => by simp [hall a ha]).symm,
      (List.filter_eq_nil_iff.mpr fun a ha => by simp [hall a ha]).symm⟩
  | afterLast =>
    have hall := (hlast.mp rfl).2
    exact ⟨(List.filter_eq_nil_iff.mpr fun a ha => by simp [hall a ha]).symm,
      (List.filter_eq_self.mpr fun a ha => by simp [hall a ha]).symm⟩
  | between =>
    have hcompare : ∀ a ∈ es, Entry.compare t.collation true ⟨key, t.layout.maxRecord⟩ a =
        t.collation.compare key a.key := by
      intro a ha
      rw [Entry.compare_eq_then]
      have := hne a ha
      cases hkey : t.collation.compare key a.key <;> simp_all
    exact ⟨List.filter_congr fun a ha => by rw [hcompare a ha],
      List.filter_congr fun a ha => by rw [hcompare a ha]⟩

end Sought

end Cursor

end PagedIndex
