import PagedIndex.Proofs.Codec.Decoded
import PagedIndex.Proofs.Codec.Links

/-!
# Blocks within their bounds

No block, whatever its bytes are, is read at an index or a bound outside its data, if it is as long
as blocks are. None is written so, if its keys have key length.

## Main definitions

* `InRange` — a result that is not that of a computation abandoned at an index or a bound.
* `Judges` — a value, or the judgement that data is corrupt.

## Main statements

* `Leaf.judges_decode`, `Branch.judges_decode` — any tree block is read, or found corrupt.
* `Node.inRange_decode`, `Slots.inRange_decode`, `Deleted.inRange_decode` — any block is read.
* `Node.inRange_encode`, `Slots.inRange_encode` — what has keys of key length is written.
* `Branch.decode_of_encode` — a branch that was written is read back, if no key begins with the mark
  that ends a block. No key that was read does.
-/

namespace PagedIndex

/-- A result that is not that of a computation abandoned at an index or a bound outside its data. -/
abbrev InRange {α : Type} (x : Except Error α) : Prop := x ≠ .error .outOfRange

namespace InRange

variable {α β : Type} {x : Except Error α}

theorem error_iff {e : Error} : InRange (.error e : Except Error α) ↔ e ≠ .outOfRange := by
  simp [InRange]

theorem bind {f : α → Except Error β} (hx : InRange x) (hf : ∀ a, x = .ok a → InRange (f a)) :
    InRange (x >>= f) := by
  cases x with
  | error e => exact error_iff.mpr (error_iff.mp hx)
  | ok a => exact hf a rfl

end InRange

/-- A reading that ends with a value, or finds its data corrupt. -/
def Judges {α : Type} (x : Except Error α) : Prop := (∃ a, x = .ok a) ∨ ∃ d, x = .error (.corrupt d)

namespace Judges

variable {α β : Type} {x : Except Error α}

theorem ok {a : α} : Judges (.ok a) := .inl ⟨a, rfl⟩

theorem corrupt {d : Corruption} : Judges (.error (.corrupt d) : Except Error α) := .inr ⟨d, rfl⟩

theorem inRange (h : Judges x) : InRange x := by
  obtain ⟨a, rfl⟩ | ⟨d, rfl⟩ := h <;> exact nofun

theorem bind {f : α → Except Error β} (hx : Judges x) (hf : ∀ a, x = .ok a → Judges (f a)) :
    Judges (x >>= f) := by
  obtain ⟨a, rfl⟩ | ⟨d, rfl⟩ := hx
  · exact hf a rfl
  · exact corrupt

theorem map {f : α → β} (hx : Judges x) : Judges (x.map f) := by
  obtain ⟨a, rfl⟩ | ⟨d, rfl⟩ := hx
  · exact ok
  · exact corrupt

/-- A reading that gives part of what another one gives ends like it. -/
theorem of_map {f : α → β} (hx : Judges (x.map f)) : Judges x := by
  cases x with
  | ok a => exact ok
  | error e =>
    obtain ⟨b, hb⟩ | ⟨d, hd⟩ := hx
    · cases hb
    · cases hd
      exact corrupt

end Judges

variable {l : Layout} {pos : BlockPos} {x : Bytes}

theorem Position.inRange_encode (format : Format) (n : Nat) : InRange (encode format n) := by
  unfold encode
  split <;> exact nofun

namespace BlockImage

theorem inRange_close (size : Nat) (body : Bytes) : InRange (close l size body) := by
  unfold close
  split <;> exact nofun

theorem judges_expect (kind : BlockKind) : Judges (expect kind x) := by
  unfold expect
  split
  · exact .corrupt
  · split
    · exact .ok
    · exact .corrupt

end BlockImage

/-! ## Entries -/

namespace Entry

theorem inRange_encode (previous : Option Entry) (e : Entry) : InRange (encode l previous e) :=
  (Position.inRange_encode _ _).bind fun record _ => by split <;> exact nofun

theorem judges_decodeAfter {shared : Nat} {start : Bytes} (h : shared ≤ start.length) (b : Bytes) :
    Judges (decodeAfter l shared start b) := by
  unfold decodeAfter
  dsimp only
  split
  · exact .corrupt
  · rw [if_neg (Nat.not_lt.mpr h)]
    exact .ok

/-- An entry is read behind one whose key has key length. -/
theorem judges_decode {previous : Option Entry}
    (hprevious : ∀ p, previous = some p → p.key.length = l.keyLength) (b : Bytes) :
    Judges (decode l previous b) := by
  unfold decode
  cases hbase : base? l previous with
  | none => exact judges_decodeAfter (Nat.zero_le _) b
  | some p =>
    have hp : previous = some p := by
      unfold base? at hbase
      split at hbase
      · exact hbase
      · cases hbase
    cases b with
    | nil => exact .corrupt
    | cons count body =>
      dsimp only
      split
      · exact .corrupt
      · next hshared =>
        exact (judges_decodeAfter (by rw [hprevious p hp]; omega) body).map

/-- The first entry of a block is written whole. -/
theorem key_of_decode_none {b : Bytes} {e : Entry} {used : Nat} (h : decode l none b = .ok (e, used)) :
    e.key = b.take l.keyLength := by
  have hbase : base? l none = none := by
    unfold base?
    cases l.format <;> rfl
  unfold decode at h
  rw [hbase] at h
  unfold decodeAfter at h
  dsimp only at h
  split at h
  · cases h
  · split at h
    · cases h
    · cases h
      rw [List.take_zero, List.nil_append, List.take_take, Nat.sub_zero, Nat.min_eq_left (by omega)]

end Entry

/-! ## Leaves -/

namespace Leaf

theorem inRange_encodeEntries (previous : Option Entry) (es : List Entry) :
    InRange (encodeEntries l previous es) := by
  induction es generalizing previous with
  | nil => exact nofun
  | cons e rest ih =>
    exact (Entry.inRange_encode previous e).bind fun front _ => (ih _).bind fun back _ => nofun

theorem inRange_encode (size : Nat) (es : List Entry) : InRange (encode l size es) :=
  (inRange_encodeEntries none es).bind fun _ _ => BlockImage.inRange_close _ _

theorem judges_decodeEntries_end : Judges (decodeEntries l 0 none []) := by
  unfold decodeEntries
  split
  · exact .ok
  · exact .corrupt

theorem judges_decodeEntries (fuel : Nat) {previous : Option Entry}
    (hprevious : ∀ p, previous = some p → p.key.length = l.keyLength) (b : Bytes) :
    Judges (decodeEntries l fuel previous b) := by
  induction fuel generalizing previous b with
  | zero => exact judges_decodeEntries_end
  | succ fuel ih =>
    cases b with
    | nil => exact judges_decodeEntries_end
    | cons next rest =>
      unfold decodeEntries
      split
      · exact .ok
      · next hmark =>
        refine (Entry.judges_decode hprevious _).bind ?_
        rintro ⟨e, used⟩ he
        have hkey := (Entry.of_decode he (by simpa using hmark)).2.2
        have hbehind : ∀ p, some e = some p → p.key.length = l.keyLength := by
          intro p hp
          cases hp
          exact hkey
        exact (ih hbehind _).bind fun _ _ => .ok

theorem judges_decode : Judges (decode l x) :=
  (BlockImage.judges_expect _).bind fun _ _ =>
    judges_decodeEntries _ (fun _ hp => by cases hp) _

/-- The first key of a leaf does not read as the end of a block. -/
theorem head_of_decode (hkey : 1 ≤ l.keyLength) {e : Entry} {rest : List Entry}
    (h : decode l x = .ok (e :: rest)) : e.key.head? ≠ some l.endMark := by
  obtain ⟨_, -, h⟩ := of_bind_eq_ok h
  dsimp only at h
  generalize ((BlockImage.used l x).drop 1).length = fuel at h
  cases fuel with
  | zero =>
    unfold decodeEntries at h
    split at h <;> cases h
  | succ fuel =>
    cases hb : (BlockImage.used l x).drop 1 with
    | nil =>
      rw [hb] at h
      unfold decodeEntries at h
      split at h <;> cases h
    | cons next tail =>
      rw [hb] at h
      unfold decodeEntries at h
      split at h
      · cases h
      · next hmark =>
        obtain ⟨⟨e', used⟩, hentry, h⟩ := of_bind_eq_ok h
        obtain ⟨es, -, h⟩ := of_bind_eq_ok h
        cases h
        rw [Entry.key_of_decode_none hentry, List.head?_take, if_neg (by omega)]
        simpa using hmark

end Leaf

/-! ## Branches -/

namespace Branch

variable {b : Branch} {ss : List (Entry × BlockPos)}

theorem inRange_encodeSeparator {s : Entry × BlockPos} (hs : s.1.key.length = l.keyLength) :
    InRange (encodeSeparator l s) := by
  unfold encodeSeparator
  rw [if_neg (not_not_intro hs)]
  exact (Position.inRange_encode _ _).bind fun _ _ =>
    (Position.inRange_encode _ _).bind fun _ _ => nofun

theorem inRange_encodeSeparators (hss : ∀ s ∈ ss, s.1.key.length = l.keyLength) :
    InRange (encodeSeparators l ss) := by
  induction ss with
  | nil => exact nofun
  | cons s rest ih =>
    exact (inRange_encodeSeparator (hss s List.mem_cons_self)).bind fun _ _ =>
      (ih fun s' hs' => hss s' (List.mem_cons_of_mem s hs')).bind fun _ _ => nofun

theorem inRange_encode (size : Nat) (hb : ∀ s ∈ b.separators, s.1.key.length = l.keyLength) :
    InRange (encode l size b) :=
  (Position.inRange_encode _ _).bind fun _ _ => (inRange_encodeSeparators hb).bind fun _ _ =>
    BlockImage.inRange_close _ _

theorem judges_decodeSeparators_end : Judges (decodeSeparators l 0 []) := by
  unfold decodeSeparators
  split
  · exact .ok
  · exact .corrupt

theorem judges_decodeSeparators (fuel : Nat) (b : Bytes) : Judges (decodeSeparators l fuel b) := by
  induction fuel generalizing b with
  | zero => exact judges_decodeSeparators_end
  | succ fuel ih =>
    cases b with
    | nil => exact judges_decodeSeparators_end
    | cons next rest =>
      unfold decodeSeparators
      dsimp only
      split
      · exact .ok
      · split
        · exact .corrupt
        · exact (ih _).bind fun _ _ => .ok

theorem judges_decode : Judges (decode l x) := by
  refine (BlockImage.judges_expect _).bind fun _ _ => ?_
  dsimp only
  split
  · exact .corrupt
  · exact (judges_decodeSeparators _ _).bind fun _ _ => .ok

/-- No key of a separator that was read reads as the end of a block. -/
theorem head_of_decodeSeparators (hkey : 1 ≤ l.keyLength) {fuel : Nat} {b : Bytes}
    (h : decodeSeparators l fuel b = .ok ss) : ∀ s ∈ ss, s.1.key.head? ≠ some l.endMark := by
  induction fuel generalizing b ss with
  | zero =>
    unfold decodeSeparators at h
    split at h
    · cases h
      exact nofun
    · cases h
  | succ fuel ih =>
    cases b with
    | nil =>
      unfold decodeSeparators at h
      split at h
      · cases h
        exact nofun
      · cases h
    | cons next rest =>
      unfold decodeSeparators at h
      dsimp only at h
      split at h
      · cases h
        exact nofun
      · next hmark =>
        split at h
        · cases h
        · obtain ⟨others, hothers, h⟩ := of_bind_eq_ok h
          cases h
          refine List.forall_mem_cons.mpr ⟨?_, ih hothers⟩
          have hsize : l.separatorSize ≠ 0 := by
            unfold Layout.separatorSize Layout.entrySize
            omega
          dsimp only
          rw [List.head?_take, if_neg (by omega), List.head?_take, if_neg hsize]
          simpa using hmark

theorem head_of_decode (hkey : 1 ≤ l.keyLength) (h : decode l x = .ok b) :
    ∀ s ∈ b.separators, s.1.key.head? ≠ some l.endMark := by
  obtain ⟨_, -, h⟩ := of_bind_eq_ok h
  obtain ⟨-, h⟩ := Header.of_check_eq_ok h
  obtain ⟨ss, hss, h⟩ := of_bind_eq_ok h
  cases h
  exact head_of_decodeSeparators hkey hss

/-- Separators are written only if they can be read, but for a key that reads as the end of a
block. -/
theorem storable_of_encodeSeparators (hheads : ∀ s ∈ ss, s.1.key.head? ≠ some l.endMark) {b : Bytes}
    (h : encodeSeparators l ss = .ok b) : ∀ s ∈ ss, StorableLink l s := by
  induction ss generalizing b with
  | nil => exact nofun
  | cons s rest ih =>
    obtain ⟨front, hfront, h⟩ := of_bind_eq_ok h
    obtain ⟨back, hback, -⟩ := of_bind_eq_ok h
    have hrest := ih (fun s' hs' => hheads s' (List.mem_cons_of_mem s hs')) hback
    refine List.forall_mem_cons.mpr ⟨?_, hrest⟩
    obtain ⟨hlength, hlink, -⟩ := of_encodeSeparator hfront
    unfold encodeSeparator at hfront
    rw [if_neg (not_not_intro hlength)] at hfront
    obtain ⟨record, hrecord, -⟩ := of_bind_eq_ok hfront
    exact ⟨⟨hlength, hheads s List.mem_cons_self, (Position.encode_eq_ok_iff.mp hrecord).1⟩, hlink⟩

/-- A branch that was written is read back. -/
theorem decode_of_encode (hkey : 1 ≤ l.keyLength)
    (hheads : ∀ s ∈ b.separators, s.1.key.head? ≠ some l.endMark)
    (h : encode l l.blockSize b = .ok x) : decode l x = .ok b := by
  obtain ⟨first, hfirst, h'⟩ := of_bind_eq_ok h
  obtain ⟨body, hbody, -⟩ := of_bind_eq_ok h'
  have hle := (Position.encode_eq_ok_iff.mp hfirst).1
  have hss := storable_of_encodeSeparators hheads hbody
  obtain ⟨image, himage, -, -, hread⟩ := encode_eq_ok hkey hle hss (fits_of_encode hkey hle hss h)
  rw [h] at himage
  cases himage
  exact hread

end Branch

/-! ## All blocks -/

namespace Node

theorem inRange_encode (size : Nat) {n : Node} (hn : ∀ e ∈ n.entries, e.key.length = l.keyLength) :
    InRange (n.encode l size) := by
  cases n with
  | leaf es => exact Leaf.inRange_encode size es
  | branch b => exact Branch.inRange_encode size fun s hs => hn s.1 (List.mem_map_of_mem hs)

theorem inRange_decode : InRange (decode l pos x) := by
  unfold decode
  split
  · exact Leaf.judges_decode.map.inRange
  · exact Branch.judges_decode.map.inRange
  · exact nofun

end Node

namespace Slots

theorem inRange_encodeRecords (records : List Nat) : InRange (encodeRecords l records) := by
  induction records with
  | nil => exact nofun
  | cons r rest ih => exact (Position.inRange_encode _ _).bind fun _ _ => ih.bind fun _ _ => nofun

theorem inRange_encode (size : Nat) (s : Slots) : InRange (s.encode l size) :=
  (Position.inRange_encode _ _).bind fun _ _ => (inRange_encodeRecords _).bind fun _ _ =>
    BlockImage.inRange_close _ _

theorem inRange_decodeRecords (fuel : Nat) (b : Bytes) : InRange (decodeRecords l fuel b) := by
  induction fuel generalizing b with
  | zero => simp [decodeRecords, InRange]
  | succ fuel ih =>
    cases b with
    | nil => simp [decodeRecords, InRange]
    | cons next rest =>
      unfold decodeRecords
      dsimp only
      split
      · simp [InRange]
      · split
        · simp [InRange]
        · exact (ih _).bind fun _ _ => by simp [InRange, pure, Except.pure]

theorem inRange_decode (hx : 1 + l.positionWidth ≤ x.length) : InRange (decode l x) := by
  refine (BlockImage.judges_expect _).inRange.bind fun _ _ => ?_
  dsimp only
  rw [Bytes.shorterThan_eq_decide, decide_eq_false (by omega)]
  exact (inRange_decodeRecords _ _).bind fun _ _ => nofun

end Slots

namespace Deleted

theorem inRange_decode (hx : 1 + l.positionWidth ≤ x.length) : InRange (decode l pos x) := by
  unfold decode
  split
  · exact nofun
  · rw [Bytes.shorterThan_eq_decide, decide_eq_false (by omega)]
    exact nofun

theorem inRange_stamp {old : Bytes} (hold : 2 + l.positionWidth ≤ old.length) (next : BlockPos) :
    InRange (stamp l next old).2 := by
  have hmark := Leaf.endSize_le_one (l := l)
  unfold stamp
  dsimp only
  rw [if_neg (by omega)]
  have hencode := Position.inRange_encode l.format next.offset
  cases hlink : Position.encode l.format next.offset with
  | error e =>
    rw [hlink] at hencode
    exact InRange.error_iff.mpr (InRange.error_iff.mp hencode)
  | ok link =>
    dsimp only
    rw [if_neg (by omega)]
    exact nofun

end Deleted

theorem Pointers.inRange_write (format : Format) (p : Pointers) : InRange (write format p x).2 := by
  unfold write
  generalize (offsets format).zip p.fields = fields
  induction fields generalizing x with
  | nil => exact nofun
  | cons f rest ih =>
    unfold writeFields
    have hencode := Position.inRange_encode format f.2.offset
    cases hfield : Position.encode format f.2.offset with
    | error e =>
      rw [hfield] at hencode
      exact InRange.error_iff.mpr (InRange.error_iff.mp hencode)
    | ok field => exact ih

/-! ## Changes of blocks -/

namespace Edit

variable {image : Nat → Except Error Bytes}

theorem inRange_replace (h : InRange (image x.length)) : InRange (replace image x).2 := by
  unfold replace
  cases hx : image x.length with
  | ok new => exact nofun
  | error e =>
    rw [hx] at h
    exact InRange.error_iff.mpr (InRange.error_iff.mp h)

/-- A block keeps its size. -/
theorem length_replace (h : ∀ new, image x.length = .ok new → new.length = x.length) :
    (replace image x).1.length = x.length := by
  unfold replace
  cases hx : image x.length with
  | ok new => exact h new hx
  | error e => rfl

end Edit

end PagedIndex
