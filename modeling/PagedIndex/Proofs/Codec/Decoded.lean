import PagedIndex.Proofs.Codec.Blocks
import PagedIndex.Proofs.Effect

/-!
# What is read fits

Whatever a block holds, what is read from it has keys of key length and takes no more room than the
block has. So it can be judged like what the engine writes itself.

## Main statements

* `Node.fits_of_decode` — what is read from a tree block fits in one block.
* `Node.length_key_of_decode` — its keys have key length.
-/

namespace PagedIndex

variable {l : Layout}

/-- A prefix that is taken over from a key is shared with it. -/
theorem Key.le_commonPrefix {n : Nat} {a : Bytes} (hn : n ≤ a.length) (rest : Bytes) :
    n ≤ commonPrefix a (a.take n ++ rest) := by
  induction n generalizing a with
  | zero => exact Nat.zero_le _
  | succ n ih =>
    cases a with
    | nil => exact absurd hn (Nat.not_succ_le_zero n)
    | cons x xs =>
      simp only [List.take_succ_cons, List.cons_append, commonPrefix, if_true]
      exact Nat.succ_le_succ (ih (Nat.le_of_succ_le_succ hn))

/-- A key that has key length is neither padded nor cut. -/
theorem Key.normalize_of_length {raw : Bytes} {keyLength : Nat} (h : raw.length = keyLength)
    (pad : UInt8) (truncate : Bool) : normalize raw keyLength pad truncate = .ok raw := by
  simp [normalize, Bytes.resize, h, List.take_of_length_le (Nat.le_of_eq h)]

namespace Entry

variable {previous : Option Entry} {e : Entry} {shared used : Nat} {start b : Bytes}

theorem of_decodeAfter (h : decodeAfter l shared start b = .ok (e, used)) :
    used = l.keyLength - shared + l.positionWidth ∧ used ≤ b.length ∧ shared ≤ start.length ∧
      ∃ rest, e.key = start.take shared ++ rest ∧ rest.length = l.keyLength - shared := by
  unfold decodeAfter at h
  dsimp only at h
  split at h
  · cases h
  · next hlong =>
    split at h
    · cases h
    · next hshared =>
      cases h
      rw [List.length_take] at hlong
      refine ⟨rfl, by omega, by omega, _, rfl, ?_⟩
      rw [List.length_take, List.length_take]
      omega

/-- What is read of an entry takes as much room as the entry does, or more. -/
theorem of_decode (h : decode l previous b = .ok (e, used)) (hmark : b.head? ≠ some l.endMark) :
    encodedSize l previous e ≤ used ∧ used ≤ b.length ∧ e.key.length = l.keyLength := by
  unfold decode at h
  unfold encodedSize
  cases hbase : base? l previous with
  | none =>
    rw [hbase] at h
    obtain ⟨rfl, hle, -, rest, hkey, hrest⟩ := of_decodeAfter h
    exact ⟨Nat.le_refl _, hle, by simpa [hkey] using hrest⟩
  | some p =>
    rw [hbase] at h
    cases b with
    | nil => cases h
    | cons count body =>
      dsimp only at h
      split at h
      · cases h
      · next hcount =>
        cases hdecode : decodeAfter l count.toNat p.key body with
        | error e => simp [hdecode, Except.map] at h
        | ok got =>
        obtain ⟨e', used'⟩ := got
        rw [hdecode] at h
        cases h
        obtain ⟨rfl, hle, hstart, rest, hkey, hrest⟩ := of_decodeAfter hdecode
        -- the count is no end mark, so a prefix as long is recorded
        have hmodern : l.endMark = filler := by
          unfold base? at hbase
          unfold Layout.endMark
          cases hf : l.format with
          | modern => rfl
          | legacy => simp [hf] at hbase
        have hmax : count.toNat ≤ maxShared := by
          have hne : count ≠ filler := fun h => hmark (by simp [h, hmodern])
          have hnot : count.toNat ≠ 255 := fun h => hne (UInt8.toNat_inj.mp h)
          have hlt := count.toNat_lt
          unfold maxShared
          omega
        have hshared : count.toNat ≤ Key.shared p.key e'.key := by
          refine Nat.le_min.mpr ⟨?_, hmax⟩
          rw [hkey]
          exact Key.le_commonPrefix hstart rest
        refine ⟨?_, Nat.succ_le_succ hle, ?_⟩
        · unfold Layout.entrySize
          dsimp only
          omega
        · rw [hkey, List.length_append, List.length_take, hrest]
          omega

end Entry

theorem BlockImage.length_used_le (l : Layout) (image : Bytes) :
    (used l image).length ≤ l.blockSize := by
  rw [used, Bytes.front_eq_take, List.length_take]
  exact Nat.min_le_left _ _

theorem Layout.endSize_of_modern (h : l.format = .modern) : l.endSize = 0 := by
  unfold Layout.endSize
  rw [h]

namespace Leaf

variable {previous : Option Entry} {es : List Entry} {fuel : Nat} {b image : Bytes}

/-- Only a modern leaf ends with its block. -/
theorem of_decodeEntries_end (hend : fuel = 0 ∨ b = [])
    (h : decodeEntries l fuel previous b = .ok es) :
    entriesSize l previous es + l.endSize ≤ b.length ∧ ∀ e ∈ es, e.key.length = l.keyLength := by
  have hsame : decodeEntries l fuel previous b = decodeEntries l 0 previous b := by
    rcases hend with rfl | rfl
    · rfl
    · cases fuel <;> rfl
  rw [hsame, decodeEntries] at h
  split at h
  · next hformat =>
    cases h
    simp [entriesSize, Layout.endSize_of_modern hformat]
  · cases h

theorem of_decodeEntries (h : decodeEntries l fuel previous b = .ok es) :
    entriesSize l previous es + l.endSize ≤ b.length ∧ ∀ e ∈ es, e.key.length = l.keyLength := by
  induction fuel generalizing previous b es with
  | zero => exact of_decodeEntries_end (.inl rfl) h
  | succ fuel ih =>
    cases b with
    | nil => exact of_decodeEntries_end (.inr rfl) h
    | cons next rest =>
      unfold decodeEntries at h
      split at h
      · cases h
        have := Leaf.endSize_le_one (l := l)
        refine ⟨?_, by simp⟩
        simp only [entriesSize, List.length_cons]
        omega
      · next hmark =>
        obtain ⟨⟨e, used⟩, hentry, h⟩ := of_bind_eq_ok h
        obtain ⟨es', hrest, h⟩ := of_bind_eq_ok h
        cases h
        obtain ⟨hsize, hused, hkey⟩ := Entry.of_decode hentry (by simpa using hmark)
        obtain ⟨hes, hkeys⟩ := ih hrest
        rw [List.length_drop] at hes
        exact ⟨by simp only [entriesSize]; omega, List.forall_mem_cons.mpr ⟨hkey, hkeys⟩⟩

/-- What is read from a leaf block fits in one block. -/
theorem of_decode (hsize : 0 < l.blockSize) (h : decode l image = .ok es) :
    fits l es ∧ ∀ e ∈ es, e.key.length = l.keyLength := by
  obtain ⟨⟨⟩, hexpect, h⟩ := of_bind_eq_ok h
  obtain ⟨hroom, hkeys⟩ := of_decodeEntries h
  refine ⟨fits_iff.mpr ?_, hkeys⟩
  have hused := BlockImage.length_used_le l image
  have htag : 0 < (BlockImage.used l image).length := by
    rw [BlockImage.used, Bytes.front_eq_take, List.length_take]
    refine Nat.lt_min.mpr ⟨hsize, ?_⟩
    cases image with
    | nil => cases hexpect
    | cons => exact Nat.succ_pos _
  rw [List.length_drop] at hroom
  omega

end Leaf

namespace Branch

variable {ss : List (Entry × BlockPos)} {fuel : Nat} {b : Bytes} {image : Bytes} {got : Branch}

/-- Only a modern branch ends with its block. -/
theorem of_decodeSeparators_end (hend : fuel = 0 ∨ b = []) (h : decodeSeparators l fuel b = .ok ss) :
    ss.length * l.separatorSize + l.endSize ≤ b.length ∧
      ∀ s ∈ ss, s.1.key.length = l.keyLength := by
  have hsame : decodeSeparators l fuel b = decodeSeparators l 0 b := by
    rcases hend with rfl | rfl
    · rfl
    · cases fuel <;> rfl
  rw [hsame, decodeSeparators] at h
  split at h
  · next hformat =>
    cases h
    simp [Layout.endSize_of_modern hformat]
  · cases h

theorem of_decodeSeparators (h : decodeSeparators l fuel b = .ok ss) :
    ss.length * l.separatorSize + l.endSize ≤ b.length ∧
      ∀ s ∈ ss, s.1.key.length = l.keyLength := by
  induction fuel generalizing b ss with
  | zero => exact of_decodeSeparators_end (.inl rfl) h
  | succ fuel ih =>
    cases b with
    | nil => exact of_decodeSeparators_end (.inr rfl) h
    | cons next rest =>
      unfold decodeSeparators at h
      split at h
      · cases h
        have := Leaf.endSize_le_one (l := l)
        refine ⟨?_, by simp⟩
        simp only [List.length_nil, List.length_cons]
        omega
      · dsimp only at h
        split at h
        · cases h
        · next hlong =>
          obtain ⟨others, hothers, h⟩ := of_bind_eq_ok h
          cases h
          obtain ⟨hss, hkeys⟩ := ih hothers
          rw [List.length_take] at hlong
          rw [List.length_drop] at hss
          refine ⟨?_, List.forall_mem_cons.mpr ⟨?_, hkeys⟩⟩
          · rw [List.length_cons, Nat.succ_mul]
            omega
          · have hle : l.keyLength ≤ l.separatorSize := by
              unfold Layout.separatorSize Layout.entrySize
              omega
            rw [List.length_take, List.length_take]
            omega

/-- What is read from a branch block fits in one block. -/
theorem of_decode (h : decode l image = .ok got) :
    got.fits l ∧ ∀ s ∈ got.separators, s.1.key.length = l.keyLength := by
  obtain ⟨-, -, h⟩ := of_bind_eq_ok h
  dsimp only at h
  split at h
  · cases h
  next hlong =>
  obtain ⟨ss, hss, h⟩ := of_bind_eq_ok h
  cases h
  obtain ⟨hroom, hkeys⟩ := of_decodeSeparators hss
  refine ⟨fits_iff.mpr ?_, hkeys⟩
  have hused := BlockImage.length_used_le l image
  rw [List.length_drop] at hroom
  have hlt : l.branchStart ≤ (BlockImage.used l image).length := by
    rw [Bytes.shorterThan_eq_decide] at hlong
    simpa using hlong
  show l.branchStart + ss.length * l.separatorSize + l.endSize ≤ l.blockSize
  omega

end Branch

namespace Node

variable {pos : BlockPos} {image : Bytes} {n : Node}

theorem cases_decode (h : decode l pos image = .ok n) :
    (∃ es, n = .leaf es ∧ Leaf.decode l image = .ok es) ∨
      ∃ b, n = .branch b ∧ Branch.decode l image = .ok b := by
  unfold decode at h
  split at h
  · cases hleaf : Leaf.decode l image with
    | error e => simp [hleaf, Except.map] at h
    | ok es =>
      rw [hleaf] at h
      exact .inl ⟨es, (Except.ok.inj h).symm, rfl⟩
  · cases hbranch : Branch.decode l image with
    | error e => simp [hbranch, Except.map] at h
    | ok b =>
      rw [hbranch] at h
      exact .inr ⟨b, (Except.ok.inj h).symm, rfl⟩
  · cases h

/-- What is read from a tree block fits in one block. -/
theorem fits_of_decode (hsize : 0 < l.blockSize) (h : decode l pos image = .ok n) : n.fits l := by
  obtain ⟨es, rfl, hes⟩ | ⟨b, rfl, hb⟩ := cases_decode h
  · exact (Leaf.of_decode hsize hes).1
  · exact (Branch.of_decode hb).1

/-- What is read from a tree block has keys of key length. -/
theorem length_key_of_decode (hsize : 0 < l.blockSize) (h : decode l pos image = .ok n) :
    ∀ e ∈ n.entries, e.key.length = l.keyLength := by
  obtain ⟨es, rfl, hes⟩ | ⟨b, rfl, hb⟩ := cases_decode h
  · exact (Leaf.of_decode hsize hes).2
  · rintro e he
    obtain ⟨s, hs, rfl⟩ := List.mem_map.mp he
    exact (Branch.of_decode hb).2 s hs

end Node

end PagedIndex
