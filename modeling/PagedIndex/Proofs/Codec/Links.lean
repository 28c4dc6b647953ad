import PagedIndex.Proofs.Codec.Header

/-!
# Where the links of blocks lead

A file is tidy if every link that can be read in it leads to where a block may start. Blocks are
written tidy if the links that go into them lead there, whatever the keys and the records in them
are. So a tidy file stays tidy even where its tree is in no order at all.

## Main definitions

* `Layout.Start` — where a block may start.
* `Layout.LinksIn`, `Layout.Tidy` — a block whose links lead to places of one kind, or to such
  places.
* `Header.Tidy` — a block of a file with a header, the header block or another one.

## Main statements

* `Layout.tidy_encode_node`, `Layout.tidy_encode_slots`, `Layout.tidy_stamp` — what is written is
  tidy.
* `Header.Leads.write` — so is a header block that pointers are saved in.
-/

namespace PagedIndex

variable {l : Layout}

/-- Where a block may start, and links can lead. -/
structure Layout.Start (l : Layout) (p : BlockPos) : Prop where
  aligned : l.blockSize ∣ p.offset
  le : p.offset ≤ l.maxRecord

instance (l : Layout) (p : BlockPos) : Decidable (l.Start p) :=
  decidable_of_iff (l.blockSize ∣ p.offset ∧ p.offset ≤ l.maxRecord)
    ⟨fun h => ⟨h.1, h.2⟩, fun h => ⟨h.aligned, h.le⟩⟩

theorem Layout.start_null (l : Layout) : l.Start .null := ⟨Nat.dvd_zero _, Nat.zero_le _⟩

/-- A block whose links, as far as it can be read, lead to places of one kind. -/
structure Layout.LinksIn (l : Layout) (P : BlockPos → Prop) (x : Bytes) : Prop where
  node : ∀ pos n, Node.decode l pos x = .ok n → ∀ p ∈ n.links, P p
  deleted : ∀ pos p, Deleted.decode l pos x = .ok p → P p
  slots : ∀ s, Slots.decode l x = .ok s → P s.next

/-- A block whose links lead to where blocks may start. -/
abbrev Layout.Tidy (l : Layout) (x : Bytes) : Prop := l.LinksIn l.Start x

/-! ## Tags -/

/-- The tag in front of an image that is read as a block of a kind. -/
theorem BlockImage.head?_of_expect {kind : BlockKind} {x : Bytes}
    (h : BlockImage.expect kind x = .ok ()) : x.head? = some kind.tag := by
  unfold expect at h
  split at h
  · cases h
  · next tag _ =>
    split at h
    · next htag => rw [htag]; rfl
    · cases h

theorem Slots.head?_of_decode {x : Bytes} {s : Slots} (h : decode l x = .ok s) :
    x.head? = some BlockKind.slots.tag := by
  unfold decode at h
  cases hx : BlockImage.expect .slots x with
  | error e => rw [hx] at h; cases h
  | ok _ => exact BlockImage.head?_of_expect hx

/-- A block without the tag of a kind that has links. -/
theorem Layout.tidy_of_head {x : Bytes} {b : UInt8} (hx : x.head? = some b)
    (hkind : BlockKind.ofTag? b = none) : l.Tidy x := by
  have hne : ∀ kind : BlockKind, x.head? ≠ some kind.tag := by
    intro kind hkind'
    rw [hx, Option.some.injEq] at hkind'
    rw [hkind', BlockKind.ofTag?_tag] at hkind
    cases hkind
  exact ⟨fun pos n h => absurd (Node.head?_of_decode h) (hne _),
    fun pos p h => absurd (Deleted.head?_of_decode h) (hne _),
    fun s h => absurd (Slots.head?_of_decode h) (hne _)⟩

/-- A block that holds nothing. -/
theorem Layout.tidy_replicate {n : Nat} {b : UInt8} (hn : 0 < n)
    (hkind : BlockKind.ofTag? b = none) : l.Tidy (List.replicate n b) := by
  obtain ⟨k, rfl⟩ := Nat.exists_eq_succ_of_ne_zero (Nat.pos_iff_ne_zero.mp hn)
  exact tidy_of_head rfl hkind

theorem Layout.tidy_filled {n : Nat} (hn : 0 < n) : l.Tidy (List.replicate n filler) :=
  tidy_replicate hn (by decide)

/-! ## Tree blocks -/

namespace Branch

/-- A separator is written only with a key of key length, and with positions that fit. -/
theorem of_encodeSeparator {s : Entry × BlockPos} {b : Bytes} (h : encodeSeparator l s = .ok b) :
    s.1.key.length = l.keyLength ∧ s.2.offset ≤ l.maxRecord ∧
      b = s.1.key ++ (Position.field l.format s.1.record ++ Position.field l.format s.2.offset) := by
  unfold encodeSeparator at h
  by_cases hlen : s.1.key.length = l.keyLength
  · rw [if_neg (not_not_intro hlen)] at h
    obtain ⟨record, hrecord, h⟩ := of_bind_eq_ok h
    obtain ⟨link, hlink, h⟩ := of_bind_eq_ok h
    obtain ⟨-, rfl⟩ := Position.encode_eq_ok_iff.mp hrecord
    obtain ⟨hle, rfl⟩ := Position.encode_eq_ok_iff.mp hlink
    exact ⟨hlen, hle, (Except.ok.inj h).symm⟩
  · rw [if_pos hlen] at h
    cases h

/-- What is read of written separators is some of them: the first one whose key reads as the end of
a block ends them. -/
theorem links_of_decodeSeparators (hkey : 1 ≤ l.keyLength) {room fuel : Nat} :
    ∀ {ss got : List (Entry × BlockPos)} {b : Bytes}, encodeSeparators l ss = .ok b →
      decodeSeparators l fuel (b ++ BlockImage.ending l room) = .ok got →
      ∀ p ∈ got.map Prod.snd, p ∈ ss.map Prod.snd := by
  induction fuel with
  | zero =>
    intro ss got b _ hgot
    cases hformat : l.format <;> simp [decodeSeparators, hformat] at hgot
    simp [hgot]
  | succ fuel ih =>
    intro ss got b hb hgot
    cases ss with
    | nil =>
      cases Except.ok.inj hb
      have hnone : got = [] := by
        cases room with
        | zero =>
          cases hformat : l.format <;>
            simp [BlockImage.ending, decodeSeparators, hformat] at hgot
          exact hgot
        | succ room => simpa [BlockImage.ending, decodeSeparators] using hgot.symm
      simp [hnone]
    | cons s rest =>
      obtain ⟨front, hfront, hb⟩ := of_bind_eq_ok hb
      obtain ⟨back, hback, hb⟩ := of_bind_eq_ok hb
      cases Except.ok.inj hb
      obtain ⟨hlen, hlink, hfrontEq⟩ := of_encodeSeparator hfront
      have hrec : (Position.field l.format s.1.record).length = l.positionWidth :=
        Position.length_field _ _
      have hwidth : (Position.field l.format s.2.offset).length = l.positionWidth :=
        Position.length_field _ _
      have hsize : front.length = l.separatorSize := by
        rw [hfrontEq]
        simp [hlen, hrec, hwidth, Layout.separatorSize, Layout.entrySize, Nat.add_assoc]
      have hkeys : front.drop l.keyLength = Position.field l.format s.1.record ++
          Position.field l.format s.2.offset := hfrontEq ▸ List.drop_left' hlen
      obtain ⟨next, tail, htail⟩ : ∃ next tail, front = next :: tail := by
        rw [← List.ne_nil_iff_exists_cons, ← List.length_pos_iff, hsize]
        unfold Layout.separatorSize Layout.entrySize
        omega
      by_cases hmark : next = l.endMark
      · rw [List.append_assoc, htail, List.cons_append, decodeSeparators, if_pos hmark] at hgot
        simp [← Except.ok.inj hgot]
      · have htake : (front ++ (back ++ BlockImage.ending l room)).take l.separatorSize = front :=
          List.take_left' hsize
        have hdrop : (front ++ (back ++ BlockImage.ending l room)).drop l.separatorSize =
            back ++ BlockImage.ending l room := List.drop_left' hsize
        rw [List.append_assoc, htail, List.cons_append, decodeSeparators, if_neg hmark,
          ← List.cons_append, ← htail] at hgot
        simp only [htake, hdrop] at hgot
        rw [if_neg (by omega)] at hgot
        obtain ⟨others, hothers, hgot⟩ := of_bind_eq_ok hgot
        cases Except.ok.inj hgot
        have hchild := @Position.decode_field l.format _ hlink []
        rw [List.append_nil] at hchild
        intro p hp
        rcases List.mem_cons.mp hp with rfl | hp
        · refine List.mem_cons.mpr (.inl ?_)
          rw [hkeys, List.drop_left' hrec, hchild]
        · exact List.mem_cons_of_mem _ (ih hback hothers p hp)

/-- A branch that is written is read with no other children. -/
theorem children_of_encode (hkey : 1 ≤ l.keyLength) {b got : Branch} {x : Bytes}
    (h : encode l l.blockSize b = .ok x) (hgot : decode l x = .ok got) :
    ∀ p ∈ got.children, p ∈ b.children := by
  obtain ⟨first, hfirst, h⟩ := of_bind_eq_ok h
  obtain ⟨body, hbody, h⟩ := of_bind_eq_ok h
  obtain ⟨hle, rfl⟩ := Position.encode_eq_ok_iff.mp hfirst
  have hwidth : (Position.field l.format b.first.offset).length = l.positionWidth :=
    Position.length_field _ _
  have hfits := BlockImage.fits_of_close h
  obtain ⟨hclose, hsize, -⟩ := BlockImage.close_eq_ok hfits
  rw [hclose] at h
  cases Except.ok.inj h
  generalize hroom : l.blockSize - (BlockKind.branch.tag ::
    (Position.field l.format b.first.offset ++ body)).length = room at *
  unfold decode at hgot
  obtain ⟨_, -, hgot⟩ := of_bind_eq_ok hgot
  rw [BlockImage.used_of_length hsize] at hgot
  obtain ⟨-, hgot⟩ := Header.of_check_eq_ok hgot
  obtain ⟨ss, hss, hgot⟩ := of_bind_eq_ok hgot
  cases Except.ok.inj hgot
  have hdrop : (BlockKind.branch.tag :: (Position.field l.format b.first.offset ++ body) ++
      BlockImage.ending l room).drop l.branchStart = body ++ BlockImage.ending l room := by
    rw [Layout.branchStart, Nat.add_comm, List.cons_append, List.drop_succ_cons,
      List.append_assoc, List.drop_left' hwidth]
  rw [hdrop] at hss
  have hlinks := links_of_decodeSeparators hkey hbody hss
  intro p hp
  rcases List.mem_cons.mp hp with rfl | hp
  · refine List.mem_cons.mpr (.inl ?_)
    simp [Position.decode_field hle]
  · exact List.mem_cons_of_mem _ (hlinks p hp)

end Branch

/-- What is closed is as long as asked for, and begins as its body does. -/
theorem BlockImage.front_of_close {size : Nat} {b : UInt8} {body x : Bytes}
    (h : close l size (b :: body) = .ok x) : x.head? = some b ∧ x.length = size := by
  unfold close at h
  split at h
  · cases h
  · next hfits =>
    rw [← Except.ok.inj h]
    simp only [Bool.or_eq_true, decide_eq_true_eq, not_or, Nat.not_lt] at hfits
    refine ⟨rfl, ?_⟩
    rw [List.length_append, length_ending]
    omega

/-- So is what is written of a node. -/
theorem Node.front_of_encode {size : Nat} {n : Node} {x : Bytes} (h : n.encode l size = .ok x) :
    x.head? = some n.kind.tag ∧ x.length = size := by
  cases n with
  | leaf es =>
    obtain ⟨body, -, h⟩ := of_bind_eq_ok h
    exact BlockImage.front_of_close h
  | branch b =>
    obtain ⟨first, -, h⟩ := of_bind_eq_ok h
    obtain ⟨body, -, h⟩ := of_bind_eq_ok h
    exact BlockImage.front_of_close h

theorem Slots.front_of_encode {size : Nat} {s : Slots} {x : Bytes} (h : s.encode l size = .ok x) :
    x.head? = some BlockKind.slots.tag ∧ x.length = size := by
  obtain ⟨next, -, h⟩ := of_bind_eq_ok h
  obtain ⟨body, -, h⟩ := of_bind_eq_ok h
  exact BlockImage.front_of_close h

namespace Layout

/-- A block with the tag of a kind whose links, if there are any, are told. -/
theorem tidy_of_kind {x : Bytes} {k : BlockKind} (hx : x.head? = some k.tag)
    (hnode : k = .leaf ∨ k = .branch → ∀ pos n, Node.decode l pos x = .ok n →
      ∀ p ∈ n.links, l.Start p)
    (hdeleted : k = .deleted → ∀ pos p, Deleted.decode l pos x = .ok p → l.Start p)
    (hslots : k = .slots → ∀ s, Slots.decode l x = .ok s → l.Start s.next) : l.Tidy x := by
  refine ⟨fun pos n h => hnode ?_ pos n h, fun pos p h => hdeleted ?_ pos p h,
    fun s h => hslots ?_ s h⟩
  · have hkind := BlockKind.tag_injective (Option.some.inj (hx.symm.trans (Node.head?_of_decode h)))
    cases n with
    | leaf => exact .inl hkind
    | branch => exact .inr hkind
  · exact BlockKind.tag_injective (Option.some.inj (hx.symm.trans (Deleted.head?_of_decode h)))
  · exact BlockKind.tag_injective (Option.some.inj (hx.symm.trans (Slots.head?_of_decode h)))

/-- A node is written tidy if its links lead to where blocks may start. -/
theorem tidy_encode_node (hkey : 1 ≤ l.keyLength) {n : Node} {x : Bytes}
    (h : n.encode l l.blockSize = .ok x) (hlinks : ∀ p ∈ n.links, l.Start p) : l.Tidy x := by
  have hx := (Node.front_of_encode h).1
  cases n with
  | leaf es =>
    refine tidy_of_kind (k := .leaf) hx (fun _ pos n hn => ?_) nofun nofun
    unfold Node.decode at hn
    simp only [hx, Option.bind_some, BlockKind.ofTag?_tag, Node.kind] at hn
    obtain ⟨es, -, rfl⟩ : ∃ es, Leaf.decode l x = .ok es ∧ Node.leaf es = n := by
      cases hes : Leaf.decode l x with
      | error e => simp only [hes] at hn; cases hn
      | ok es => simp only [hes] at hn; exact ⟨es, rfl, Except.ok.inj hn⟩
    exact nofun
  | branch b =>
    refine tidy_of_kind (k := .branch) hx (fun _ pos n hn => ?_) nofun nofun
    unfold Node.decode at hn
    simp only [hx, Option.bind_some, BlockKind.ofTag?_tag, Node.kind] at hn
    obtain ⟨got, hgot, rfl⟩ : ∃ got, Branch.decode l x = .ok got ∧ Node.branch got = n := by
      cases hgot : Branch.decode l x with
      | error e => simp only [hgot] at hn; cases hn
      | ok got => simp only [hgot] at hn; exact ⟨got, rfl, Except.ok.inj hn⟩
    exact fun p hp => hlinks p (Branch.children_of_encode hkey h hgot p hp)

/-- So is a slot block. -/
theorem tidy_encode_slots {s : Slots} {x : Bytes} (h : s.encode l l.blockSize = .ok x)
    (hnext : l.Start s.next) : l.Tidy x := by
  obtain ⟨next, hfield, h⟩ := of_bind_eq_ok h
  obtain ⟨body, -, h⟩ := of_bind_eq_ok h
  obtain ⟨hle, rfl⟩ := Position.encode_eq_ok_iff.mp hfield
  obtain ⟨hclose, -, -⟩ := BlockImage.close_eq_ok (BlockImage.fits_of_close h)
  rw [hclose] at h
  cases Except.ok.inj h
  refine tidy_of_kind (k := .slots) rfl (by simp) nofun fun _ got hgot => ?_
  unfold Slots.decode at hgot
  obtain ⟨_, -, hgot⟩ := of_bind_eq_ok hgot
  obtain ⟨-, hgot⟩ := Header.of_check_eq_ok hgot
  obtain ⟨records, -, hgot⟩ := of_bind_eq_ok hgot
  cases Except.ok.inj hgot
  simpa [Position.decode_field hle] using hnext

/-- So is a deleted block. -/
theorem tidy_stamp {next : BlockPos} (hnext : l.Start next) {old : Bytes} (hold : l.Tidy old) :
    l.Tidy (Deleted.stamp l next old).1 := by
  unfold Deleted.stamp
  split
  · exact hold
  · rw [Position.encode_eq_ok hnext.le]
    dsimp only
    split
    · exact hold
    · refine tidy_of_kind (k := .deleted) rfl (by simp) (fun _ pos p hp => ?_) nofun
      unfold Deleted.decode at hp
      rw [if_neg (by simp)] at hp
      split at hp
      · cases hp
      · rw [← Except.ok.inj hp]
        simpa [Position.decode_field hnext.le] using hnext

end Layout

/-! ## Header blocks -/

/-- Chain pointers that lead to where blocks may start. -/
def Pointers.Lead (l : Layout) (p : Pointers) : Prop := ∀ q ∈ p.fields, l.Start q

theorem Pointers.lead_iff {p : Pointers} : p.Lead l ↔
    l.Start p.freeHead ∧ l.Start p.slotHead ∧ l.Start p.root ∧ l.Start p.highWater := by
  simp [Lead, fields]

/-- A header block of a file: the header is read from it, and its pointers lead to where blocks may
start. -/
structure Header.Leads (h : Header) (x : Bytes) : Prop where
  parse : Header.parse x = .ok h
  pointers : (Pointers.read h.format x).Lead h.layout

/-- Pointers that lead to where blocks may start can be saved in a header block. -/
theorem Header.Leads.write {h : Header} {x : Bytes} (hx : h.Leads x) {p : Pointers}
    (hp : p.Lead h.layout) (hlen : 1 + 4 * h.format.positionWidth ≤ x.length) :
    h.Leads (p.write h.format x).1 ∧ (p.write h.format x).2 = .ok () ∧
      (p.write h.format x).1.length = x.length := by
  have hle : ∀ q ∈ p.fields, q.offset ≤ h.format.maxPosition := fun q hq => (hp q hq).le
  obtain ⟨new, hwrite, hread, -, -, hlength⟩ := Pointers.write_eq_ok hle hlen
  rw [hwrite]
  exact ⟨⟨Header.parse_write hx.parse hwrite hle, by rw [hread]; exact hp⟩, rfl, hlength⟩

/-- A block of a file with a header. -/
structure Header.Tidy (h : Header) (p : BlockPos) (x : Bytes) : Prop where
  length : x.length = h.blockSize
  header : p = .null → h.Leads x
  block : p ≠ .null → h.layout.Tidy x

end PagedIndex
