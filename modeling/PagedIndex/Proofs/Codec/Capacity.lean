import PagedIndex.Proofs.Codec.Bounds
import PagedIndex.Proofs.Codec.Decoded
import PagedIndex.Tree.Delete

/-!
# Room in blocks

What is written of a node is as long as was reckoned beforehand, so that a node which fits is never
refused for lack of room, whatever else may be wrong with it. Two brothers of which one is empty and
that do not fit in one block have entries for both.

## Main definitions

* `Error.Overfull` — failures for lack of room in a block.
* `Contained` — a result that is none of them.
* `Node.Seated` — a node that fits in a block, with keys of key length.
* `Node.Evens` — brothers that do not fit in one block.

## Main statements

* `Node.contained_encode` — a node that fits is not refused for lack of room.
* `Node.entries_of_rotate` — what moves between brothers.
* `Node.evens` — brothers that do not fit in one block both have entries in the end.
-/

namespace PagedIndex

/-- Failures for lack of room: contents that are too long for their block, and a block that cannot
be made two. -/
inductive Error.Overfull : Error → Prop
  | blockTooLong (length blockSize : Nat) : Overfull (.internal (.blockTooLong length blockSize))
  | unsplittableLeaf (entries fitting : Nat) : Overfull (.internal (.unsplittableLeaf entries fitting))
  | unsplittableBranch : Overfull (.internal .unsplittableBranch)

/-- A result that is no failure for lack of room. -/
def Contained {α : Type} (r : Except Error α) : Prop := ∀ e, r = .error e → ¬e.Overfull

namespace Contained

variable {α β : Type} {x : Except Error α}

theorem ok {a : α} : Contained (.ok a) := nofun

theorem error_iff {e : Error} : Contained (.error e : Except Error α) ↔ ¬e.Overfull :=
  ⟨fun h => h e rfl, fun h e' he => by cases he; exact h⟩

theorem error {e : Error} (he : ¬e.Overfull) : Contained (.error e : Except Error α) :=
  error_iff.mpr he

/-- A failure stays what it is when the value is another one. -/
theorem cast {e : Error} (h : Contained (.error e : Except Error α)) :
    Contained (.error e : Except Error β) :=
  error (error_iff.mp h)

theorem bind {f : α → Except Error β} (hx : Contained x)
    (hf : ∀ a, x = .ok a → Contained (f a)) : Contained (x >>= f) := by
  cases x with
  | ok a => exact hf a rfl
  | error e => exact hx.cast

theorem of_judges (h : Judges x) : Contained x := by
  obtain ⟨a, rfl⟩ | ⟨d, rfl⟩ := h
  · exact ok
  · exact error nofun

end Contained

variable {l : Layout}

theorem Position.contained_encode (format : Format) (n : Nat) : Contained (encode format n) := by
  unfold encode
  split
  · exact .error nofun
  · exact .ok

/-- Contents that fit are closed. -/
theorem BlockImage.contained_close {body : Bytes} (h : l.fits body.length) :
    Contained (close l l.blockSize body) := by
  rw [(close_eq_ok h).1]
  exact .ok

/-! ## What is written of entries -/

namespace Entry

variable {previous : Option Entry} {e : Entry} {b : Bytes}

theorem contained_encode (previous : Option Entry) (e : Entry) :
    Contained (encode l previous e) :=
  (Position.contained_encode _ _).bind fun _ _ => by split <;> exact .ok

/-- An entry is written unless its record position is too large. -/
theorem encode_ok_iff : (∃ b, encode l previous e = .ok b) ↔ e.record ≤ l.maxRecord := by
  constructor
  · rintro ⟨b, hb⟩
    obtain ⟨record, hrecord, -⟩ := of_bind_eq_ok hb
    exact (Position.encode_eq_ok_iff.mp hrecord).1
  · intro hle
    have hrecord := Position.encode_eq_ok_iff.mpr ⟨hle, rfl⟩
    unfold encode
    rw [hrecord]
    dsimp only [bind, Except.bind]
    split
    · exact ⟨_, rfl⟩
    · exact ⟨_, rfl⟩

/-- An entry with a key of key length is as long as was reckoned. -/
theorem length_encode (hkey : e.key.length = l.keyLength) (h : encode l previous e = .ok b) :
    b.length = encodedSize l previous e := by
  obtain ⟨record, hrecord, h⟩ := of_bind_eq_ok h
  obtain ⟨-, rfl⟩ := Position.encode_eq_ok_iff.mp hrecord
  have hfield : (Position.field l.format e.record).length = l.positionWidth :=
    Position.length_field _ _
  unfold encodedSize
  split at h
  · next p _ =>
    cases h
    have hshared := Key.shared_le_right p.key e.key
    simp only [List.length_cons, List.length_append, List.length_drop, hfield, Layout.entrySize]
    omega
  · cases h
    simp [hfield, hkey, Layout.entrySize]

end Entry

namespace Leaf

variable {previous : Option Entry} {es fs : List Entry} {b c : Bytes}

theorem contained_encodeEntries (previous : Option Entry) (es : List Entry) :
    Contained (encodeEntries l previous es) := by
  induction es generalizing previous with
  | nil => exact .ok
  | cons e rest ih =>
    exact (Entry.contained_encode previous e).bind fun _ _ => (ih _).bind fun _ _ => .ok

theorem encodeEntries_ok_iff :
    (∃ b, encodeEntries l previous es = .ok b) ↔ ∀ e ∈ es, e.record ≤ l.maxRecord := by
  induction es generalizing previous with
  | nil => exact iff_of_true ⟨[], rfl⟩ nofun
  | cons e rest ih =>
    rw [List.forall_mem_cons, ← @Entry.encode_ok_iff l previous e, ← @ih (some e)]
    constructor
    · rintro ⟨b, hb⟩
      obtain ⟨front, hfront, hb⟩ := of_bind_eq_ok hb
      obtain ⟨back, hback, -⟩ := of_bind_eq_ok hb
      exact ⟨⟨front, hfront⟩, back, hback⟩
    · rintro ⟨⟨front, hfront⟩, back, hback⟩
      refine ⟨front ++ back, ?_⟩
      simp [encodeEntries, hfront, hback, bind, Except.bind, pure, Except.pure]

theorem length_encodeEntries (hkeys : ∀ e ∈ es, e.key.length = l.keyLength)
    (h : encodeEntries l previous es = .ok b) : b.length = entriesSize l previous es := by
  induction es generalizing previous b with
  | nil =>
    cases h
    rfl
  | cons e rest ih =>
    obtain ⟨front, hfront, h⟩ := of_bind_eq_ok h
    obtain ⟨back, hback, h⟩ := of_bind_eq_ok h
    cases h
    have hlength := Entry.length_encode (hkeys e (by simp)) hfront
    have hrest := ih (fun x hx => hkeys x (by simp [hx])) hback
    simp [entriesSize, hlength, hrest]

theorem contained_encode (hkeys : ∀ e ∈ es, e.key.length = l.keyLength) (hfits : fits l es) :
    Contained (encode l l.blockSize es) := by
  apply (contained_encodeEntries none es).bind
  intro body hbody
  apply BlockImage.contained_close
  rw [List.length_cons, length_encodeEntries hkeys hbody, Nat.add_comm]
  exact hfits

/-- A leaf takes no more room when entries are left out. -/
theorem encodedSize_le_of_sublist (h : es.Sublist fs)
    (hkeys : ∀ e ∈ fs, e.key.length = l.keyLength) : encodedSize l es ≤ encodedSize l fs :=
  Nat.add_le_add_left (entriesSize_le_of_sublist none h hkeys) 1

/-- If a leaf is written, so is one with fewer entries, and no more of it. -/
theorem encodeEntries_of_sublist (h : es.Sublist fs) (hkeys : ∀ e ∈ fs, e.key.length = l.keyLength)
    (hc : encodeEntries l none fs = .ok c) :
    ∃ b, encodeEntries l none es = .ok b ∧ b.length ≤ c.length := by
  have hrecords := encodeEntries_ok_iff.mp ⟨c, hc⟩
  obtain ⟨b, hb⟩ := encodeEntries_ok_iff.mpr fun e he => hrecords e (h.subset he)
  refine ⟨b, hb, ?_⟩
  rw [length_encodeEntries (fun e he => hkeys e (h.subset he)) hb, length_encodeEntries hkeys hc]
  exact entriesSize_le_of_sublist none h hkeys

end Leaf

namespace Branch

variable {ss : List (Entry × BlockPos)} {b : Bytes}

theorem contained_encodeSeparator (s : Entry × BlockPos) : Contained (encodeSeparator l s) := by
  unfold encodeSeparator
  split
  · exact .error nofun
  · exact (Position.contained_encode _ _).bind fun _ _ =>
      (Position.contained_encode _ _).bind fun _ _ => .ok

theorem contained_encodeSeparators (ss : List (Entry × BlockPos)) :
    Contained (encodeSeparators l ss) := by
  induction ss with
  | nil => exact .ok
  | cons s rest ih =>
    exact (contained_encodeSeparator s).bind fun _ _ => ih.bind fun _ _ => .ok

theorem length_encodeSeparators (h : encodeSeparators l ss = .ok b) :
    b.length = ss.length * l.separatorSize := by
  induction ss generalizing b with
  | nil =>
    cases h
    simp
  | cons s rest ih =>
    obtain ⟨front, hfront, h⟩ := of_bind_eq_ok h
    obtain ⟨back, hback, h⟩ := of_bind_eq_ok h
    cases h
    obtain ⟨hkey, -, rfl⟩ := of_encodeSeparator hfront
    have hfield := fun n => Position.length_field l.format n
    simp only [List.length_append, hkey, hfield, ih hback, List.length_cons, Nat.succ_mul]
    unfold Layout.separatorSize Layout.entrySize Layout.positionWidth
    omega

theorem contained_encode {b : Branch} (hfits : b.fits l) : Contained (encode l l.blockSize b) := by
  apply (Position.contained_encode _ _).bind
  intro first hfirst
  apply (contained_encodeSeparators _).bind
  intro body hbody
  apply BlockImage.contained_close
  obtain ⟨-, rfl⟩ := Position.encode_eq_ok_iff.mp hfirst
  rw [List.length_cons, List.length_append, Position.length_field, length_encodeSeparators hbody]
  have hsize : b.encodedSize l = l.format.positionWidth + b.separators.length * l.separatorSize +
    1 := by
    unfold encodedSize Layout.branchStart Layout.positionWidth
    omega
  rw [← hsize]
  exact hfits

/-- A branch with another separator in the place of one. -/
theorem keyed_set {b : Branch} {index : Nat} {e : Entry} {child : BlockPos}
    (h : ∀ a ∈ b.entries, a.key.length = l.keyLength) (he : e.key.length = l.keyLength) :
    ∀ a ∈ entries { b with separators := b.separators.set index (e, child) },
      a.key.length = l.keyLength := by
  refine List.forall_mem_map.mpr fun s hs => ?_
  rcases List.mem_or_eq_of_mem_set hs with hs | rfl
  · exact h _ (List.mem_map_of_mem hs)
  · exact he

end Branch

/-! ## Nodes -/

namespace Node

variable {left right n n' left' right' : Node} {e e' : Entry} {es : List Entry} {b : Branch}
  {pos : BlockPos} {x : Bytes}

/-- A node that a block has room for, with keys of key length. -/
structure Seated (l : Layout) (n : Node) : Prop where
  fits : n.fits l
  keyed : ∀ e ∈ n.entries, e.key.length = l.keyLength

/-- Such a node is not refused for lack of room. -/
theorem contained_encode (h : n.Seated l) : Contained (n.encode l l.blockSize) := by
  cases n with
  | leaf es => exact Leaf.contained_encode h.keyed h.fits
  | branch b => exact Branch.contained_encode h.fits

/-- What is read is such a node. -/
theorem seated_decode (hsize : 0 < l.blockSize) (h : decode l pos x = .ok n) : n.Seated l :=
  ⟨fits_of_decode hsize h, length_key_of_decode hsize h⟩

theorem contained_decode : Contained (decode l pos x) := by
  unfold decode
  split
  · exact .of_judges Leaf.judges_decode.map
  · exact .of_judges Branch.judges_decode.map
  · exact .error nofun

theorem contained_merge (left : Node) (e : Entry) (right : Node) :
    Contained (merge left e right) := by
  unfold merge
  split
  · exact .ok
  · exact .ok
  · exact .error nofun

/-- A node of the same kind with fewer entries. -/
theorem Seated.of_sublist (h : n.Seated l) (hkind : n'.kind = n.kind)
    (hsub : n'.entries.Sublist n.entries) : n'.Seated l := by
  refine ⟨?_, fun e he => h.keyed e (hsub.subset he)⟩
  cases n with
  | leaf es =>
    cases n' with
    | leaf es' => exact Leaf.fits_of_sublist hsub h.keyed h.fits
    | branch b' => cases hkind
  | branch b =>
    cases n' with
    | leaf es' => cases hkind
    | branch b' =>
      refine Branch.fits_of_length_le ?_ h.fits
      simpa [entries, Branch.entries] using hsub.length_le

/-- Such a branch has room for another separator in the place of one. -/
theorem Seated.set {index : Nat} (h : (branch b).Seated l) (he : e.key.length = l.keyLength) :
    (branch { b with separators := b.separators.set index (e, pos) }).Seated l :=
  ⟨Branch.fits_of_length_le (by simp) h.fits, Branch.keyed_set h.keyed he⟩

/-- A node with few entries. -/
theorem fits_of_short (hl : l.minBlockSize ≤ l.blockSize) (h : n.entries.length ≤ 3) :
    n.fits l := by
  cases n with
  | leaf es => exact Leaf.fits_of_short hl h
  | branch b => exact Branch.fits_of_short hl (by simpa [entries, Branch.entries] using h)

/-! ## Brothers -/

/-- Brothers are merged if they are of one kind, and nothing is lost. -/
theorem entries_of_merge (h : merge left e right = .ok n) :
    left.kind = right.kind ∧ n.entries = left.entries ++ e :: right.entries := by
  unfold merge at h
  split at h
  · cases h
    exact ⟨rfl, rfl⟩
  · cases h
    exact ⟨rfl, by simp [entries, Branch.entries]⟩
  · cases h

/-- One of two brothers is empty. It gets the separator, and the entry of the other one that was
next to it becomes the separator. -/
theorem entries_of_rotate (h : rotate left e right = some (left', e', right')) :
    left'.kind = left.kind ∧ right'.kind = right.kind ∧
      ((left.entries = [] ∧ left'.entries = [e] ∧ right.entries = e' :: right'.entries) ∨
        (left.entries = left'.entries ++ [e'] ∧ right.entries = [] ∧ right'.entries = [e])) := by
  unfold rotate at h
  split at h
  · cases h
    exact ⟨rfl, rfl, .inl ⟨rfl, rfl, rfl⟩⟩
  · next es _ =>
    obtain ⟨last, hlast, heq⟩ := Option.map_eq_some_iff.mp h
    obtain ⟨init, hinit⟩ := List.getLast?_eq_some_iff.mp hlast
    cases heq
    simp [kind, entries, hinit]
  · cases h
    exact ⟨rfl, rfl, .inl ⟨rfl, rfl, rfl⟩⟩
  · next first s ss middle =>
    obtain ⟨last, hlast, heq⟩ := Option.map_eq_some_iff.mp h
    obtain ⟨init, hinit⟩ := List.getLast?_eq_some_iff.mp hlast
    cases heq
    simp [kind, entries, Branch.entries, hinit]
  · cases h

/-- Nothing moves between brothers of one kind if and only if both are empty or neither is. -/
theorem rotate_eq_none_iff (h : left.kind = right.kind) :
    rotate left e right = none ↔ left.isEmpty = right.isEmpty := by
  cases left with
  | leaf es =>
    cases right with
    | branch b => cases h
    | leaf es' => cases es <;> cases es' <;> simp [rotate, isEmpty, entries]
  | branch b =>
    obtain ⟨first, ss⟩ := b
    cases right with
    | leaf es => cases h
    | branch b' =>
      obtain ⟨middle, ss'⟩ := b'
      cases ss <;> cases ss' <;> simp [rotate, isEmpty, entries, Branch.entries]

/-- Brothers that get or give an entry fit, and so do the keys. -/
theorem seated_of_rotate (hl : l.minBlockSize ≤ l.blockSize) (hleft : left.Seated l)
    (hright : right.Seated l) (he : e.key.length = l.keyLength)
    (h : rotate left e right = some (left', e', right')) :
    left'.Seated l ∧ e'.key.length = l.keyLength ∧ right'.Seated l := by
  have hone : ∀ {n : Node}, n.entries = [e] → n.Seated l := by
    intro n hn
    exact ⟨fits_of_short hl (by simp [hn]), by simpa [hn] using he⟩
  obtain ⟨hkindLeft, hkindRight, ⟨-, hnew, hgave⟩ | ⟨hgave, -, hnew⟩⟩ := entries_of_rotate h
  · refine ⟨hone hnew, hright.keyed e' (by simp [hgave]), hright.of_sublist hkindRight ?_⟩
    simp [hgave]
  · refine ⟨hleft.of_sublist hkindLeft ?_, hleft.keyed e' (by simp [hgave]), hone hnew⟩
    simp [hgave]

/-- What becomes of brothers that do not fit in one block. If one has no entries, something moves,
and then both have some and fit. -/
structure Evens (l : Layout) (left : Node) (e : Entry) (right : Node) : Prop where
  either : left.isEmpty = false ∨ right.isEmpty = false
  moves : (rotate left e right).isSome ↔ left.isEmpty = true ∨ right.isEmpty = true
  moved : ∀ left' e' right', rotate left e right = some (left', e', right') →
    left'.isEmpty = false ∧ right'.isEmpty = false ∧ left'.Seated l ∧ right'.Seated l ∧
      e'.key.length = l.keyLength

/-- Two nodes that do not fit in one block with the separator have three entries at least. -/
theorem three_le_of_merge (hl : l.minBlockSize ≤ l.blockSize) (hmerge : merge left e right = .ok n)
    (hlong : ¬n.fits l) : 3 ≤ left.entries.length + right.entries.length := by
  refine Nat.le_of_not_lt fun hlt => hlong (fits_of_short hl ?_)
  rw [(entries_of_merge hmerge).2, List.length_append, List.length_cons]
  omega

theorem evens (hl : l.minBlockSize ≤ l.blockSize) (hleft : left.Seated l) (hright : right.Seated l)
    (he : e.key.length = l.keyLength) (hmerge : merge left e right = .ok n) (hlong : ¬n.fits l) :
    Evens l left e right := by
  have hkind := (entries_of_merge hmerge).1
  have hmany := three_le_of_merge hl hmerge hlong
  have hsome : left.isEmpty = false ∨ right.isEmpty = false := by
    simp only [isEmpty, List.isEmpty_eq_false_iff]
    grind
  refine ⟨hsome, ?_, fun left' e' right' h => ?_⟩
  · rw [Option.isSome_iff_ne_none, ne_eq, rotate_eq_none_iff hkind]
    grind
  · obtain ⟨hleft', hkey', hright'⟩ := seated_of_rotate hl hleft hright he h
    have hboth : left'.entries ≠ [] ∧ right'.entries ≠ [] := by
      obtain ⟨-, -, ⟨hnone, hnew, hgave⟩ | ⟨hgave, hnone, hnew⟩⟩ := entries_of_rotate h
      · simp only [hnone, hgave, List.length_nil, List.length_cons] at hmany
        exact ⟨by simp [hnew], List.ne_nil_of_length_pos (by omega)⟩
      · simp only [hnone, hgave, List.length_append, List.length_cons, List.length_nil] at hmany
        exact ⟨List.ne_nil_of_length_pos (by omega), by simp [hnew]⟩
    simp only [isEmpty, List.isEmpty_eq_false_iff]
    exact ⟨hboth.1, hboth.2, hleft', hright', hkey'⟩

end Node

/-! ## Other blocks -/

namespace Deleted

variable {pos : BlockPos} {x : Bytes}

theorem contained_decode : Contained (decode l pos x) := by
  unfold decode
  split
  · exact .error nofun
  · split
    · exact .error nofun
    · exact .ok

theorem contained_stamp (next : BlockPos) : Contained (stamp l next x).2 := by
  have hencode := Position.contained_encode l.format next.offset
  unfold stamp
  dsimp only
  split
  · exact .error nofun
  · split
    · next e he => exact .cast (he ▸ hencode)
    · split
      · exact .error nofun
      · exact .ok

end Deleted

theorem Edit.contained_replace {image : Nat → Except Error Bytes} {x : Bytes}
    (h : Contained (image x.length)) : Contained (replace image x).2 := by
  unfold replace
  split
  · exact .ok
  · next e he => exact .cast (he ▸ h)

end PagedIndex
