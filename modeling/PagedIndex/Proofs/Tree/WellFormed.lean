import PagedIndex.Proofs.Tree.Looking

/-!
# Files whose links lead to blocks

Programs take blocks, give them back and link them anew. As long as every link of a file leads to
one of its blocks, a program that follows links does not leave the file, whatever tree, or part of a
tree, the links make up, and in whatever order its entries are. All that changes a file keeps it so.

## Main definitions

* `Board.WellFormed` — a file whose links lead to its blocks, and whose entries can be written
  again.
* `Board.Awaits` — a file that would be so if one of its blocks were written.
* `Program.Keeps` — a program that leaves such a file, unless it fails.

## Main statements

* `Program.keeps_storeNode`, `Program.keeps_free` — tree blocks are written and given back.
* `Program.keeps_allocate_node` — a block is taken and written.
* `Program.keeps_popSlot`, `Program.keeps_pushSlot` — record positions come and go.
-/

namespace PagedIndex

/-- A node whose entries can be written and whose links lead to blocks of a board. -/
def Node.WellFormed (l : Layout) (c : Board) (n : Node) : Prop :=
  (∀ e ∈ n.entries, e.Storable l) ∧ ∀ q ∈ n.links, c.Has q

/-- A cell whose entries can be written and whose links lead to blocks of a board. -/
def Cell.WellFormed (l : Layout) (c : Board) : Cell → Prop
  | node n => n.WellFormed l c
  | deleted next => c.Has next
  | slots s => c.Has s.next
  | blank => False

namespace Board

/-- Every block of a board is one of another board too. -/
def Grows (c d : Board) : Prop := ∀ p, (c.cells p).isSome → (d.cells p).isSome

/-- A board whose blocks are those up to the mark of the last one, at positions that can be written,
and whose links lead to blocks. -/
structure WellFormed (l : Layout) (c : Board) : Prop where
  whole : ∀ p, (c.cells p).isSome ↔
    p ≠ .null ∧ l.blockSize ∣ p.offset ∧ p.offset ≤ c.pointers.highWater.offset
  cells : ∀ p cell, c.cells p = some cell → cell.WellFormed l c
  pointers : ∀ p ∈ c.pointers.fields, c.Has p
  limit : c.pointers.highWater.offset ≤ l.maxRecord

/-- A board that is well-formed as soon as the block at a position is written. -/
def Awaits (l : Layout) (c : Board) (pos : BlockPos) : Prop :=
  (c.cells pos).isSome ∧ (c.put pos (.deleted .null)).WellFormed l

variable {l : Layout} {c d e : Board} {p pos next : BlockPos} {cell : Cell} {n : Node}
  {f : Pointers} {v : View}

theorem Grows.refl (c : Board) : c.Grows c := fun _ h => h

theorem Grows.trans (h : c.Grows d) (h' : d.Grows e) : c.Grows e := fun p hp => h' p (h p hp)

theorem Has.grows (hp : c.Has p) (h : c.Grows d) : d.Has p := hp.imp_right (h p)

theorem grows_put : c.Grows (c.put pos cell) := by
  intro p hp
  by_cases heq : p = pos
  · subst heq
    rw [cells_put_self]
    rfl
  · rwa [cells_put_ne heq]

/-- Writing a block that is there adds none. -/
theorem grows_of_put (hpos : (c.cells pos).isSome) : (c.put pos cell).Grows c := by
  intro p hp
  by_cases heq : p = pos
  · exact heq ▸ hpos
  · rwa [cells_put_ne heq] at hp

end Board

namespace Node.WellFormed

variable {l : Layout} {c d : Board} {n : Node} {es : List Entry} {b : Branch}

theorem grows (h : n.WellFormed l c) (hd : c.Grows d) : n.WellFormed l d :=
  ⟨h.1, fun q hq => (h.2 q hq).grows hd⟩

theorem leaf (h : ∀ e ∈ es, e.Storable l) : (Node.leaf es).WellFormed l c := ⟨h, nofun⟩

/-- A branch, spelled out. -/
theorem branch (hfirst : c.Has b.first)
    (hrest : ∀ s ∈ b.separators, s.1.Storable l ∧ c.Has s.2) : (Node.branch b).WellFormed l c := by
  refine ⟨fun e he => ?_, fun q hq => ?_⟩
  · obtain ⟨s, hs, rfl⟩ := List.mem_map.mp he
    exact (hrest s hs).1
  · rcases List.mem_cons.mp hq with rfl | hq
    · exact hfirst
    · obtain ⟨s, hs, rfl⟩ := List.mem_map.mp hq
      exact (hrest s hs).2

theorem first (h : (Node.branch b).WellFormed l c) : c.Has b.first := h.2 _ List.mem_cons_self

theorem separators (h : (Node.branch b).WellFormed l c) :
    ∀ s ∈ b.separators, s.1.Storable l ∧ c.Has s.2 := fun _ hs =>
  ⟨h.1 _ (List.mem_map_of_mem hs), h.2 _ (List.mem_cons_of_mem _ (List.mem_map_of_mem hs))⟩

/-- A node whose links are not behind the largest position can be written. -/
theorem storable (h : n.WellFormed l c) (hle : ∀ p, c.Has p → p.offset ≤ l.maxRecord) :
    n.Storable l := by
  cases n with
  | leaf es => exact h.1
  | branch b =>
    refine ⟨hle _ h.first, fun s hs => ?_⟩
    obtain ⟨he, hhas⟩ := h.separators s hs
    exact ⟨he, hle _ hhas⟩

end Node.WellFormed

theorem Cell.WellFormed.grows {l : Layout} {c d : Board} {cell : Cell} (h : cell.WellFormed l c)
    (hd : c.Grows d) : cell.WellFormed l d := by
  cases cell with
  | node n => exact Node.WellFormed.grows h hd
  | deleted next => exact Board.Has.grows h hd
  | slots s => exact Board.Has.grows h hd
  | blank => exact h

namespace Board

variable {l : Layout} {c d e : Board} {p pos next : BlockPos} {cell : Cell} {n : Node}
  {f : Pointers} {v : View}

namespace WellFormed

theorem closed (h : c.WellFormed l) : c.Closed l where
  whole := h.whole
  solid := fun p hp => h.cells p _ hp
  children := fun p b hp => (h.cells p _ hp).2
  deleted := fun p next hp => h.cells p _ hp
  slots := fun p s hp => h.cells p _ hp
  root := h.pointers _ (by simp [Pointers.fields])
  freeHead := h.pointers _ (by simp [Pointers.fields])
  slotHead := h.pointers _ (by simp [Pointers.fields])

theorem offset_le (h : c.WellFormed l) (hp : c.Has p) : p.offset ≤ l.maxRecord := by
  rcases hp with rfl | hsome
  · exact Nat.zero_le _
  · exact Nat.le_trans ((h.whole p).mp hsome).2.2 h.limit

theorem highWater (h : c.WellFormed l) : c.Has c.pointers.highWater :=
  h.pointers _ (by simp [Pointers.fields])

/-- Pointers to blocks may be set, but for the mark of the last block. -/
theorem setPointers (h : c.WellFormed l) (hf : ∀ p ∈ f.fields, c.Has p)
    (hmark : f.highWater = c.pointers.highWater) : ({ c with pointers := f } : Board).WellFormed l :=
  ⟨fun p => by rw [hmark]; exact h.whole p, fun p cell hp => (h.cells p cell hp).grows (fun _ h => h),
    hf, by rw [hmark]; exact h.limit⟩

/-- What a well-formed board shows can be saved. -/
theorem settled (h : c.WellFormed l) (hl : l.Workable) (hv : c.Shown l v) :
    v.Settled l.format l.blockSize := by
  refine ⟨fun p hp => ?_, fun q x hq => ?_, ?_⟩
  · rw [hv.pointers] at hp
    exact h.offset_le (h.pointers p hp)
  · have hsome : (c.cells q).isSome := by
      rw [Option.isSome_iff_ne_none]
      intro hnone
      rw [hv.vacant q hnone] at hq
      cases hq
    rw [hv.pointers]
    exact ((h.whole q).mp hsome).2.2
  · have hlimit := h.limit
    have hbound := hl.bound
    rw [hv.pointers]
    omega

/-- Any block of a well-formed board may be written anew. -/
theorem awaits (h : c.WellFormed l) (hpos : (c.cells pos).isSome) : c.Awaits l pos := by
  have hback : (c.put pos (.deleted .null)).Grows c := grows_of_put hpos
  refine ⟨hpos, fun p => ?_, fun p cell hp => ?_, fun p hp => (h.pointers p hp).grows grows_put,
    h.limit⟩
  · exact (show _ ↔ (c.cells p).isSome from ⟨hback p, grows_put p⟩).trans (h.whole p)
  · by_cases heq : p = pos
    · subst heq
      rw [cells_put_self] at hp
      cases hp
      exact has_null
    · rw [cells_put_ne heq] at hp
      exact (h.cells p cell hp).grows grows_put

end WellFormed

/-- The block that is awaited is written. -/
theorem Awaits.put (h : c.Awaits l pos) (hcell : cell.WellFormed l c) :
    (c.put pos cell).WellFormed l := by
  have hsame : ∀ p, (c.put pos cell).cells p = if p = pos then some cell
      else (c.put pos (.deleted .null)).cells p := by
    intro p
    by_cases heq : p = pos
    · rw [if_pos heq, heq, cells_put_self]
    · rw [if_neg heq, cells_put_ne heq, cells_put_ne heq]
  have hthere : (c.put pos (.deleted .null)).Grows (c.put pos cell) :=
    (grows_of_put h.1).trans grows_put
  refine ⟨fun p => ?_, fun p cell' hp => ?_, fun p hp => (h.2.pointers p hp).grows hthere, h.2.limit⟩
  · refine Iff.trans ?_ (h.2.whole p)
    rw [hsame]
    split
    · next heq =>
      rw [heq, cells_put_self]
      exact Iff.rfl
    · exact Iff.rfl
  · rw [hsame] at hp
    split at hp
    · cases hp
      exact hcell.grows grows_put
    · exact (h.2.cells p cell' hp).grows hthere

/-- A board that awaits a block is as large as it will be. -/
theorem Awaits.offset_le (h : c.Awaits l pos) (hp : c.Has p) : p.offset ≤ l.maxRecord :=
  h.2.offset_le (hp.grows grows_put)

/-- The first deleted block is awaited when it was taken. -/
theorem WellFormed.awaits_reuse (h : c.WellFormed l)
    (hcell : c.cells c.pointers.freeHead = some (.deleted next)) :
    (c.reuse next).Awaits l c.pointers.freeHead := by
  have hpos : (c.cells c.pointers.freeHead).isSome := by rw [hcell]; rfl
  have hnext : c.Has next := h.cells _ _ hcell
  have hput : ((c.reuse next).put c.pointers.freeHead (.deleted .null)) =
      { c.put c.pointers.freeHead (.deleted .null) with
        pointers := { c.pointers with freeHead := next } } := by
    unfold reuse put
    congr 1
    funext p
    by_cases heq : p = c.pointers.freeHead <;> simp [heq]
  refine ⟨by simp [reuse], ?_⟩
  rw [hput]
  refine (h.awaits hpos).2.setPointers (fun p hp => ?_) rfl
  have hold := h.pointers
  simp only [Pointers.fields, List.forall_mem_cons] at hold
  simp only [Pointers.fields, List.mem_cons, List.not_mem_nil, or_false] at hp
  rcases hp with rfl | rfl | rfl | rfl
  · exact hnext.grows grows_put
  · exact hold.2.1.grows grows_put
  · exact hold.2.2.1.grows grows_put
  · exact hold.2.2.2.1.grows grows_put

/-- A new block behind the last one is awaited. -/
theorem WellFormed.awaits_extend (h : c.WellFormed l) (hl : l.Workable)
    (hroom : c.pointers.highWater.offset + l.blockSize ≤ l.maxRecord) :
    (c.extend l).Awaits l (c.pointers.highWater.following l.blockSize) := by
  have hsize := hl.blockSize_pos
  have haligned : l.blockSize ∣ c.pointers.highWater.offset := h.closed.aligned h.highWater
  generalize hpos : c.pointers.highWater.following l.blockSize = pos
  have hoffset : pos.offset = c.pointers.highWater.offset + l.blockSize := by
    rw [← hpos]
    rfl
  have hcells : ∀ p, p ≠ pos → ((c.extend l).put pos (.deleted .null)).cells p = c.cells p := by
    intro p hp
    rw [cells_put_ne hp]
    rw [← hpos] at hp
    exact cells_put_ne hp
  have hgrows : c.Grows ((c.extend l).put pos (.deleted .null)) := by
    intro p hp
    by_cases heq : p = pos
    · rw [heq, cells_put_self]
      rfl
    · rwa [hcells p heq]
  have hmark : ((c.extend l).put pos (.deleted .null)).pointers.highWater = pos := hpos
  have hold := h.pointers
  simp only [Pointers.fields, List.forall_mem_cons] at hold
  refine ⟨by simp [extend, hpos], fun p => ?_, fun p cell hp => ?_, fun p hp => ?_, ?_⟩
  · rw [hmark, hoffset]
    by_cases hp : p = pos
    · rw [hp, cells_put_self]
      refine iff_of_true rfl ⟨fun he => ?_, ?_, Nat.le_of_eq hoffset⟩
      · have : pos.offset = 0 := congrArg BlockPos.offset he
        omega
      · rw [hoffset]
        exact Nat.dvd_add haligned (Nat.dvd_refl _)
    · rw [hcells p hp, h.whole]
      refine and_congr_right fun _ => and_congr_right fun ha => ⟨fun hle => by omega, fun hle => ?_⟩
      rcases Nat.lt_or_ge c.pointers.highWater.offset p.offset with hhigh | hlow
      · have := Nat.le_of_dvd (Nat.sub_pos_of_lt hhigh) (Nat.dvd_sub ha haligned)
        exact absurd (congrArg BlockPos.mk (show p.offset = pos.offset by omega)) hp
      · exact hlow
  · by_cases heq : p = pos
    · rw [heq, cells_put_self] at hp
      cases hp
      exact has_null
    · rw [hcells p heq] at hp
      exact (h.cells p cell hp).grows hgrows
  · simp only [Pointers.fields, List.mem_cons, List.not_mem_nil, or_false] at hp
    rcases hp with rfl | rfl | rfl | rfl
    · exact hold.1.grows hgrows
    · exact hold.2.1.grows hgrows
    · exact hold.2.2.1.grows hgrows
    · rw [hmark]
      exact .inr (by rw [cells_put_self]; rfl)
  · rw [hmark, hoffset]
    exact hroom

end Board

namespace Program

variable {α β : Type} {l : Layout} {c d : Board} {role : Role} {pos : BlockPos} {n : Node}
  {program : Program α} {f : α → Program β} {P Q : α → Board → Prop} {R : β → Board → Prop}

/-- What is left of a board by a program that did not fail: a well-formed board with the blocks it
had. -/
def Stays (l : Layout) (c : Board) (Q : α → Board → Prop) (r : Except Error α) (d : Board) : Prop :=
  ∀ a, r = .ok a → d.WellFormed l ∧ c.Grows d ∧ Q a d

/-- A program that leaves a well-formed board and a value of which `Q` holds, unless it fails. -/
def Keeps (l : Layout) (program : Program α) (c : Board) (Q : α → Board → Prop) : Prop :=
  Acts l program c (Stays l c Q)

/-- The same for a program that begins with a block held for a role. -/
def KeepsHolding (l : Layout) (role : Role) (pos : BlockPos) (program : Program α) (c : Board)
    (Q : α → Board → Prop) : Prop :=
  ActsHolding l role pos program c (Stays l c Q)

theorem Stays.grows {r : Except Error α} {e : Board} (hd : c.Grows d) (h : Stays l d Q r e) :
    Stays l c Q r e := fun a ha =>
  have ⟨he, hgrows, hq⟩ := h a ha
  ⟨he, hd.trans hgrows, hq⟩

theorem stays_error {e : Error} : Stays l c Q (.error e) d := nofun

theorem keeps_pure {a : α} (hc : c.WellFormed l) (h : Q a c) : Keeps l (pure a) c Q :=
  acts_pure fun b hb => by
    cases hb
    exact ⟨hc, .refl c, h⟩

theorem keeps_fail {e : Error} : Keeps l (.fail e : Program α) c Q := acts_fail nofun

theorem keeps_ofExcept {x : Except Error α} (hc : c.WellFormed l) (h : ∀ a, x = .ok a → Q a c) :
    Keeps l (ofExcept x) c Q := by
  cases x with
  | ok a => exact keeps_pure hc (h a rfl)
  | error e => exact keeps_fail

theorem Keeps.bind (h : Keeps l program c P)
    (hf : ∀ a d, d.WellFormed l → c.Grows d → P a d → Keeps l (f a) d R) :
    Keeps l (program >>= f) c R := by
  refine Acts.bind h (fun e d _ => stays_error) fun a d ha => ?_
  obtain ⟨hd, hgrows, hp⟩ := ha a rfl
  exact Acts.mono (hf a d hd hgrows hp) fun r e hr => hr.grows hgrows

/-- A program that only looks keeps the board. -/
theorem Looks.bind_keeps {P : α → Prop} (h : Looks l program c P)
    (hf : ∀ a, P a → Keeps l (f a) c R) : Keeps l (program >>= f) c R := by
  refine Acts.bind h.acts (fun e d _ => stays_error) ?_
  rintro a d ⟨rfl, hp⟩
  exact hf a (hp a rfl)

/-! ## Chain pointers -/

theorem keeps_getPointers_bind {f : Pointers → Program β} (h : Keeps l (f c.pointers) c R) :
    Keeps l (getPointers >>= f) c R :=
  acts_getPointers.bind_ok h

theorem keeps_setPointers {p : Pointers} (hc : c.WellFormed l) (hp : ∀ q ∈ p.fields, c.Has q)
    (hmark : p.highWater = c.pointers.highWater)
    (h : ∀ d, d.WellFormed l → c.Grows d → Keeps l program d Q) :
    Keeps l (.setPointers p program) c Q :=
  acts_setPointers (Nat.le_of_eq (congrArg BlockPos.offset hmark.symm))
    (h _ (hc.setPointers hp hmark) fun _ h => h)

theorem keeps_modifyPointers (g : Pointers → Pointers) (hc : c.WellFormed l)
    (hp : ∀ q ∈ (g c.pointers).fields, c.Has q)
    (hmark : (g c.pointers).highWater = c.pointers.highWater) :
    Keeps l (modifyPointers g) c fun _ _ => True := by
  refine (acts_modifyPointers g (Nat.le_of_eq (congrArg BlockPos.offset hmark.symm))).mono ?_
  rintro r d ⟨-, rfl⟩ a -
  exact ⟨hc.setPointers hp hmark, fun _ h => h, trivial⟩

/-! ## Tree blocks -/

/-- A tree block is written, if it fits. -/
theorem keeps_storeNode (hl : l.Workable) (hrole : role ≠ .header) (h : c.Awaits l pos)
    (hn : n.WellFormed l c) : Keeps l (storeNode l role pos n) c fun _ _ => True := by
  have hkey := hl.roomy.1
  obtain ⟨cell, hcell⟩ := Option.isSome_iff_exists.mp h.1
  have hstorable := hn.storable fun p hp => h.offset_le hp
  cases hencode : n.encode l l.blockSize with
  | ok image =>
    have hfits := Node.fits_of_encode hkey hstorable hencode
    refine (acts_storeNode hrole hcell hkey hstorable hfits).mono ?_
    rintro r d ⟨-, rfl⟩ a -
    exact ⟨h.put hn, Board.grows_put, trivial⟩
  | error e =>
    intro v hv
    obtain ⟨old, hblock, hlen, -⟩ := hv.held pos _ hcell
    have hchange : Edit.replace (fun size => n.encode l size) old = (old, .error e) := by
      simp [Edit.replace, hlen, hencode]
    refine ⟨.error e, _, c, .load hrole hblock
      (.refused hrole (by simp [View.hold]) hblock hchange hlen), ?_, stays_error⟩
    rw [View.put_same (v := v.hold role pos) hblock]
    exact hv.hold role pos

/-! ## Free space -/

/-- A block that is on top of the chain of deleted blocks but is none is not taken. -/
theorem acts_allocate_wrong {f : BlockPos → Program β} {cell : Cell}
    {R : Except Error β → Board → Prop} (hrole : role ≠ .header)
    (hcell : c.cells c.pointers.freeHead = some cell) (hsolid : cell ≠ .blank)
    (hwrong : ∀ next, cell ≠ .deleted next) (hf : ∀ e, R (.error e) c) :
    Acts l (allocate l role >>= f) c R := by
  intro v hv
  obtain ⟨old, hblock, -, hshown⟩ := hv.held _ _ hcell
  have hnull := BlockPos.isNull_eq_false (hv.ne_null hcell)
  cases hdecode : Deleted.decode l c.pointers.freeHead old with
  | ok next => exact absurd (hshown.eq_deleted hsolid hdecode) (hwrong next)
  | error e =>
    refine ⟨.error e, _, c, .bind_error ?_, hv.hold role c.pointers.freeHead, hf e⟩
    rw [allocate_eq]
    refine .pointers ?_
    simp only [hv.pointers, hnull, Bool.false_eq_true, if_false]
    refine .load hrole hblock (.view hrole (by simp [View.hold]) hblock ?_)
    rw [hdecode]
    exact .fail _ _

/-- A block is taken, if there is one. It is to be written first. -/
theorem keeps_allocate {f : BlockPos → Program β} (hl : l.Workable) (hrole : role ≠ .header)
    (hc : c.WellFormed l) (hf : ∀ pos d, c.Grows d → d.Awaits l pos →
      KeepsHolding l role pos (f pos) d R) : Keeps l (allocate l role >>= f) c R := by
  have hgo : ∀ pos d, c.Grows d → d.Awaits l pos →
      ActsHolding l role pos (f pos) d (Stays l c R) := by
    intro pos d hgrows hd v hv hheld
    obtain ⟨r, w, e, hruns, hw, hr⟩ := hf pos d hgrows hd v hv hheld
    exact ⟨r, w, e, hruns, hw, hr.grows hgrows⟩
  rcases hc.closed.freeHead with hnull | hsome
  · rcases Nat.lt_or_ge l.maxRecord (c.pointers.highWater.offset + l.blockSize) with hlt | hge
    · exact acts_allocate_full hnull hlt stays_error
    · have haligned := hc.closed.aligned hc.highWater
      refine acts_allocate_extend hrole hnull hge haligned hl.blockSize_pos hl.bound ?_
      exact hgo _ _ Board.grows_put (hc.awaits_extend hl hge)
  · obtain ⟨cell, hcell⟩ := Option.isSome_iff_exists.mp hsome
    by_cases hdeleted : ∃ next, cell = .deleted next
    · obtain ⟨next, rfl⟩ := hdeleted
      exact acts_allocate_reuse hrole hcell (hgo _ _ Board.grows_put (hc.awaits_reuse hcell))
    · have hsolid : cell ≠ .blank := fun hblank => hc.closed.solid _ (hblank ▸ hcell)
      exact acts_allocate_wrong hrole hcell hsolid (fun next hd => hdeleted ⟨next, hd⟩)
        fun e => stays_error

/-- A block is taken for a node. -/
theorem keeps_allocate_node {f : BlockPos → Program β} (hl : l.Workable) (hrole : role ≠ .header)
    (hc : c.WellFormed l) (hn : n.WellFormed l c) (hf : ∀ pos d, d.WellFormed l → c.Grows d →
      (d.cells pos).isSome →
      Keeps l (f pos) d R) :
    Keeps l (allocate l role >>= fun pos => storeNode l role pos n >>= fun _ => f pos) c R := by
  refine keeps_allocate hl hrole hc fun pos d hgrows hd => ?_
  refine Acts.holding ((keeps_storeNode hl hrole hd (hn.grows hgrows)).bind fun _ e he hgrows' _ => ?_)
  refine Acts.mono (hf pos e he (hgrows.trans hgrows') (hgrows' pos hd.1)) fun r g hr => hr

/-- A block is given back. -/
theorem keeps_free (hl : l.Workable) (hrole : role ≠ .header) (hc : c.WellFormed l)
    (hpos : (c.cells pos).isSome) : Keeps l (free l role pos) c fun _ _ => True := by
  obtain ⟨cell, hcell⟩ := Option.isSome_iff_exists.mp hpos
  have hhead := hc.closed.freeHead
  have hroom := hl.room
  have hend : l.endSize ≤ 1 := Leaf.endSize_le_one
  have hwidth : 6 ≤ l.positionWidth := Layout.Workable.six_le_positionWidth
  refine (acts_free hrole hcell (hc.offset_le hhead) (by omega)).mono ?_
  rintro r d ⟨-, rfl⟩ a -
  have hput : (c.put pos (.deleted c.pointers.freeHead)).WellFormed l := (hc.awaits hpos).put
    (show Cell.WellFormed l c (.deleted c.pointers.freeHead) from hhead)
  refine ⟨hput.setPointers (fun p hp => ?_) rfl, Board.grows_put, trivial⟩
  have hold := hc.pointers
  simp only [Pointers.fields, List.forall_mem_cons] at hold
  simp only [Pointers.fields, List.mem_cons, List.not_mem_nil, or_false] at hp
  rcases hp with rfl | rfl | rfl | rfl
  · exact .inr (Board.grows_put _ hpos)
  · exact hold.2.1.grows Board.grows_put
  · exact hold.2.2.1.grows Board.grows_put
  · exact hold.2.2.2.1.grows Board.grows_put

/-! ## Record positions -/

/-- A slot block is read and stays held, or the block is none. -/
theorem keeps_loadSlots {f : Slots → Program β} (hc : c.WellFormed l) (hpos : (c.cells pos).isSome)
    (hf : ∀ s, c.cells pos = some (.slots s) → KeepsHolding l .current pos (f s) c R) :
    Keeps l (loadSlots l pos >>= f) c R := by
  obtain ⟨cell, hcell⟩ := Option.isSome_iff_exists.mp hpos
  by_cases hslots : ∃ s, cell = .slots s
  · obtain ⟨s, rfl⟩ := hslots
    exact acts_loadSlots hcell (hf s hcell)
  · refine (looks_loadSlots hc.closed hpos).bind_keeps fun s hs => absurd ⟨s, ?_⟩ hslots
    exact Option.some.inj (hcell.symm.trans hs)

/-- A slot block is written, if it can be. -/
theorem keeps_storeSlots {f : Unit → Program β} {s : Slots} (h : c.Awaits l pos)
    (hnext : c.Has s.next) (hf : ∀ d, d.WellFormed l → c.Grows d → (d.cells pos).isSome →
      Keeps l (f ()) d R) : KeepsHolding l .current pos (storeSlots l s >>= f) c R := by
  obtain ⟨cell, hcell⟩ := Option.isSome_iff_exists.mp h.1
  have hle := h.offset_le hnext
  cases hencode : s.encode l l.blockSize with
  | ok image =>
    obtain ⟨hrecords, hfits⟩ := Slots.of_encode hle hencode
    have hput : (c.put pos (.slots s)).WellFormed l :=
      h.put (show Cell.WellFormed l c (.slots s) from hnext)
    have hrest := hf _ hput Board.grows_put (Board.grows_put pos h.1)
    exact acts_storeSlots hcell hle hrecords hfits (Acts.mono hrest fun r e hr =>
      hr.grows Board.grows_put)
  | error e => exact acts_storeSlots_refused hcell hencode stays_error

/-- A free record position is taken. -/
theorem keeps_popSlot (hl : l.Workable) (hc : c.WellFormed l) :
    Keeps l (popSlot l) c fun _ _ => True := by
  refine keeps_getPointers_bind ?_
  have hhead := hc.closed.slotHead
  dsimp only
  split
  · exact keeps_pure hc trivial
  · next hnull =>
    have hpos := hhead.resolve_left fun h => hnull (BlockPos.isNull_iff.mpr h)
    refine keeps_loadSlots hc hpos fun s hs => ?_
    have hnext : c.Has s.next := hc.cells _ _ hs
    split
    · exact Acts.holding keeps_fail
    · have hfields : ∀ q ∈ ({ c.pointers with slotHead := s.next } : Pointers).fields, c.Has q := by
        have hold := hc.pointers
        simp only [Pointers.fields, List.forall_mem_cons] at hold ⊢
        exact ⟨hold.1, hnext, hold.2.2⟩
      refine Acts.holding (Keeps.bind (keeps_setPointers hc hfields rfl fun d hd hgrows =>
        keeps_free hl Role.current_ne hd (hgrows _ hpos)) fun _ d hd _ _ => ?_)
      exact keeps_pure hd trivial
    · exact keeps_storeSlots (hc.awaits hpos) hnext fun d hd _ _ => keeps_pure hd trivial

/-- A record position is listed in a new slot block. -/
theorem keeps_pushNewSlot {next : BlockPos} (hl : l.Workable) (hc : c.WellFormed l) (hnext : c.Has next)
    (record : Nat) : Keeps l (pushNewSlot l next record) c fun _ _ => True := by
  refine keeps_allocate hl Role.current_ne hc fun pos d hgrows hd => ?_
  refine keeps_storeSlots hd (hnext.grows hgrows) fun e he hgrows' hpos => ?_
  refine keeps_modifyPointers _ he ?_ rfl
  have hold := he.pointers
  simp only [Pointers.fields, List.forall_mem_cons] at hold ⊢
  exact ⟨hold.1, .inr hpos, hold.2.2⟩

/-- A record position is listed. -/
theorem keeps_pushSlot (hl : l.Workable) (hc : c.WellFormed l) (record : Nat) :
    Keeps l (pushSlot l record) c fun _ _ => True := by
  refine keeps_getPointers_bind ?_
  have hhead := hc.closed.slotHead
  dsimp only
  split
  · exact keeps_pushNewSlot hl hc hhead record
  · next hnull =>
    have hpos := hhead.resolve_left fun h => hnull (BlockPos.isNull_iff.mpr h)
    refine keeps_loadSlots hc hpos fun s hs => ?_
    split
    · rw [← bind_pure (storeSlots l _)]
      exact keeps_storeSlots (hc.awaits hpos) (hc.cells _ _ hs) fun d hd _ _ => keeps_pure hd trivial
    · exact Acts.holding (keeps_pushNewSlot hl hc hhead record)

end Program

end PagedIndex
