import PagedIndex.Proofs.Session.Working

/-!
# What a call can take back

While a call runs, its undo list and the cache together know how every block of the file read when
the call began. A roll back puts every kept image into a buffer, or else into the store at once. If
neither can be had, the block stays as the call left it.

## Main definitions

* `Session.Guard` — the undo list covers the changes of a call.
* `Session.Covered` — a call that can be rolled back.
* `Session.unrestored` — the kept images that a roll back fails to put back.

## Main statements

* `Session.Guard.load`, `Session.Guard.edit` — the steps of a call keep the guard.
* `Session.rollBack_ends` — a roll back takes back all changes but those of unrestored blocks.
-/

namespace PagedIndex

namespace Session

variable {m : Mount} {σ τ : Session × Buffered} {α β : Type} {role : Role} {pos hw : BlockPos}
  {i : Nat} {b : Buffer} {before : BlockPos → Option Bytes} {image : Bytes}

/-- The undo list covers the changes since the blocks up to `hw` read as in `before`. -/
structure Guard (m : Mount) (before : BlockPos → Option Bytes) (hw : BlockPos)
    (σ : Session × Buffered) : Prop where
  mark : σ.1.highWater = hw
  nodup : (σ.1.undo.map Undo.pos).Nodup
  aligned : ∀ u ∈ σ.1.undo, m.Aligned u.pos
  kept : ∀ u ∈ σ.1.undo, ∀ x, u.image = some x → u.pos.offset ≤ hw.offset ∧
    x.length = m.blockSize ∧ ∀ y, before u.pos = some y → y = x
  added : ∀ u ∈ σ.1.undo, u.image = none → hw.offset < u.pos.offset
  unchanged : ∀ p x, m.Aligned p → p.offset ≤ hw.offset → p ∉ σ.1.undo.map Undo.pos →
    before p = some x → m.content σ.2 p = some x
  present : ∀ p, m.Aligned p → p.offset ≤ hw.offset → (before p).isSome →
    (m.content σ.2 p).isSome

/-- The guard asks nothing of the session but its undo list. -/
theorem Guard.session {new : Session} (h : Guard m before hw σ) (hundo : new.undo = σ.1.undo)
    (hmark : new.highWater = σ.1.highWater) : Guard m before hw (new, σ.2) :=
  ⟨hmark.trans h.mark, hundo ▸ h.nodup, hundo ▸ h.aligned, hundo ▸ h.kept, hundo ▸ h.added,
    hundo ▸ h.unchanged, h.present⟩

/-- A load changes no block that the call found in the file. -/
theorem Guard.load {read : Bool} {r : Except Error Unit} (h : Guard m before hw σ)
    (hl : Loaded m role pos read σ r τ) (hnew : read = false → hw.offset < pos.offset) :
    Guard m before hw τ := by
  obtain ⟨held, hs⟩ := hl.session
  have hundo : τ.1.undo = σ.1.undo := by rw [hs]
  have hother : ∀ p : BlockPos, p.offset ≤ hw.offset → Mount.unread read pos ≠ some p := by
    intro p hp heq
    cases read with
    | true => cases heq
    | false =>
      have := hnew rfl
      rw [Option.some.inj heq] at this
      omega
  refine ⟨by rw [hs]; exact h.mark, hundo ▸ h.nodup, hundo ▸ h.aligned, hundo ▸ h.kept,
    hundo ▸ h.added, fun p x ha hp hnot hx => hl.keeps p x ha (hother p hp) ?_,
    fun p ha hp hx => ?_⟩
  · rw [hundo] at hnot
    exact h.unchanged p x ha hp hnot hx
  · obtain ⟨x, hx⟩ := Option.isSome_iff_exists.mp (h.present p ha hp hx)
    rw [hl.keeps p x ha (hother p hp) hx]
    rfl

/-- Before a block is changed for the first time its image is kept. -/
theorem Guard.edit (h : Guard m before hw σ) (hs : σ.2.cache.Sound none)
    (he : Edited m i b image σ τ) (hb : σ.2.cache.buffer? i = some b) (hfile : b.file = m.file)
    (ha : m.Aligned b.pos) (hlen : b.image.length = m.blockSize) : Guard m before hw τ := by
  have hcontent := Mount.content_of_buffer hs hb hfile
  have hpresent : ∀ p, m.Aligned p → p.offset ≤ hw.offset → (before p).isSome →
      (m.content τ.2 p).isSome := by
    intro p hp hle hx
    rw [he.content]
    split
    · rfl
    · exact h.present p hp hle hx
  have hsession := he.session
  unfold remembering at hsession
  by_cases hmem : b.pos ∈ σ.1.undo.map Undo.pos
  · have hany : σ.1.undo.any (·.pos == b.pos) = true := by
      obtain ⟨u, hu, hpos⟩ := List.mem_map.mp hmem
      exact List.any_eq_true.mpr ⟨u, hu, by simpa using hpos⟩
    rw [if_pos hany] at hsession
    refine ⟨by rw [hsession]; exact h.mark, hsession ▸ h.nodup, hsession ▸ h.aligned,
      hsession ▸ h.kept, hsession ▸ h.added, fun p x hp hle hnot hx => ?_, hpresent⟩
    rw [hsession] at hnot
    rw [he.content, if_neg fun hpp => hnot (by rw [hpp]; exact hmem)]
    exact h.unchanged p x hp hle hnot hx
  · have hany : ¬σ.1.undo.any (·.pos == b.pos) = true := by
      intro hany
      obtain ⟨u, hu, hpos⟩ := List.any_eq_true.mp hany
      exact hmem (List.mem_map.mpr ⟨u, hu, by simpa using hpos⟩)
    rw [if_neg hany, h.mark] at hsession
    have hin : ∀ u ∈ τ.1.undo, u ∈ σ.1.undo ∨ u = ⟨b.pos, if !b.pos.isNull &&
        hw.offset < b.pos.offset then none else some b.image⟩ := by
      intro u hu
      rw [hsession] at hu
      exact (List.mem_append.mp hu).imp_right List.mem_singleton.mp
    have hundo : τ.1.undo.map Undo.pos = σ.1.undo.map Undo.pos ++ [b.pos] := by
      rw [hsession]
      exact List.map_append
    have hadded : (!b.pos.isNull && decide (hw.offset < b.pos.offset)) = true ↔
        hw.offset < b.pos.offset := by
      rw [Bool.and_eq_true, decide_eq_true_eq, and_iff_right_iff_imp]
      intro hlt
      have hne : b.pos.offset ≠ 0 := by omega
      simpa [BlockPos.isNull] using hne
    refine ⟨by rw [hsession], ?_, fun u hu => ?_, fun u hu x hx => ?_,
      fun u hu hx => ?_, fun p x hp hle hnot hx => ?_, hpresent⟩
    · rw [hundo, List.nodup_append]
      refine ⟨h.nodup, List.pairwise_singleton _ _, fun p hp q hq hpq => hmem ?_⟩
      rw [List.mem_singleton] at hq
      rw [← hq, ← hpq]
      exact hp
    · rcases hin u hu with hu | rfl
      · exact h.aligned u hu
      · exact ha
    · rcases hin u hu with hu | rfl
      · exact h.kept u hu x hx
      · simp only [hadded] at hx
        split at hx
        · cases hx
        · next hnot =>
          cases hx
          have hle : b.pos.offset ≤ hw.offset := by omega
          refine ⟨hle, hlen, fun y hy => ?_⟩
          have := h.unchanged b.pos y ha hle hmem hy
          rw [hcontent] at this
          exact (Option.some.inj this).symm
    · rcases hin u hu with hu | rfl
      · exact h.added u hu hx
      · simp only [hadded] at hx
        split at hx
        · assumption
        · cases hx
    · rw [hundo, List.mem_append, not_or, List.mem_singleton] at hnot
      rw [he.content, if_neg hnot.2]
      exact h.unchanged p x hp hle hnot.1 hx

/-- A session whose changes the undo list covers. One block may have come without being read. -/
structure Covered (m : Mount) (before : BlockPos → Option Bytes) (hw : BlockPos) (l : Layout)
    (fresh : Option BlockPos) (σ : Session × Buffered) : Prop where
  file : σ.1.file = m.file
  layout : σ.1.layout = l
  size : l.blockSize = m.blockSize
  intact : m.Intact fresh none σ.2
  pins : Pins m σ
  guard : Guard m before hw σ

/-! ## Rolling back -/

/-- Those of the kept images that a roll back from a state fails to put back. -/
def unrestored (file : FileId) : List Undo → Buffered → List Undo
  | [], _ => []
  | u :: rest, s =>
    match u.image with
    | none => unrestored file rest { s with cache := s.cache.forget file u.pos }
    | some image =>
      match Cache.restore file u.pos image s with
      | .ok () t => unrestored file rest t
      | .error e t => u :: unrestored file rest { t with cache := t.cache.park file e }

theorem mem_of_mem_unrestored {file : FileId} {undo : List Undo} {s : Buffered} {u : Undo}
    (h : u ∈ unrestored file undo s) : u ∈ undo := by
  fun_induction unrestored file undo s with
  | case1 => cases h
  | case2 _ _ _ _ ih => exact List.mem_cons_of_mem _ (ih h)
  | case3 _ _ _ _ _ _ _ ih => exact List.mem_cons_of_mem _ (ih h)
  | case4 _ _ _ _ _ _ _ _ ih =>
    rcases List.mem_cons.mp h with rfl | h
    · exact List.mem_cons_self
    · exact List.mem_cons_of_mem _ (ih h)

theorem image_of_mem_unrestored {file : FileId} {undo : List Undo} {s : Buffered} {u : Undo}
    (h : u ∈ unrestored file undo s) : ∃ x, u.image = some x := by
  fun_induction unrestored file undo s with
  | case1 => cases h
  | case2 _ _ _ _ ih => exact ih h
  | case3 _ _ _ _ _ _ _ ih => exact ih h
  | case4 _ _ _ image himage _ _ _ ih =>
    rcases List.mem_cons.mp h with rfl | h
    · exact ⟨image, himage⟩
    · exact ih h

/-- What a cache knows of a file beside its store has no part in what is read. -/
theorem intact_modifyFile {out : Option Nat} {s : Buffered} (h : m.Intact none out s)
    (file : FileId) {f : Registration → Registration} (hf : ∀ r, (f r).store = r.store) :
    m.Intact none out { s with cache := s.cache.modifyFile file f } ∧
      ∀ p, m.content { s with cache := s.cache.modifyFile file f } p = m.content s p := by
  have hstores : ∀ file', (s.cache.modifyFile file f).store? file' = s.cache.store? file' := by
    intro file'
    unfold Cache.store?
    rw [Cache.registration?_modifyFile]
    split
    · rw [Option.map_map, show Registration.store ∘ f = Registration.store from funext hf]
    · rfl
  have hsound : (s.cache.modifyFile file f).Sound out := h.sound.modifyFile _
  exact ⟨⟨hsound, h.enough, h.size_pos, h.volume_lt, h.header, (hstores _).trans h.store,
      h.whole, fun i b store hb hd hfile hstore =>
        h.apart i b store hb hd hfile ((hstores _).symm.trans hstore), h.clean⟩,
    Mount.content_congr (t := { s with cache := s.cache.modifyFile file f }) h.sound hsound rfl
      (fun j b hb _ => ⟨b, hb, rfl, rfl, rfl⟩) (fun j b hb _ => ⟨b, hb, rfl, rfl⟩)⟩

/-- A failure is kept for the next call on a file. -/
def Parked (file : FileId) (s : Buffered) : Prop :=
  ∃ r, s.cache.registration? file = some r ∧ r.pending ≠ none

theorem Parked.follows {file : FileId} {s t : Buffered} (h : Parked file s) (hf : s.Follows t) :
    Parked file t := by
  obtain ⟨r, hr, hpending⟩ := h
  exact ⟨r, (hf.registration file).trans hr, hpending⟩

theorem parked_park {file : FileId} {s : Buffered} {store : Store}
    (hstore : s.cache.store? file = some store) (e : Error) :
    Parked file { s with cache := s.cache.park file e } := by
  obtain ⟨r, hr, -⟩ := Option.map_eq_some_iff.mp hstore
  refine ⟨{ r with pending := r.pending <|> some e }, ?_, ?_⟩
  · show (s.cache.modifyFile file _).registration? file = _
    rw [Cache.registration?_modifyFile, if_pos rfl, hr]
    rfl
  · cases hpending : r.pending <;> simp

/-- What taking back one change comes to; if it failed, the image could be put nowhere. -/
structure TakenBack (m : Mount) (u : Undo) (failed : Bool) (s t : Buffered) : Prop where
  intact : m.Intact none none t
  unpinned : Unpinned t
  beside : Buffered.Beside m.file (fun p => u.pos = p ∧ u.image ≠ none) s t
  keeps : m.KeepsBut (some u.pos) s t
  left : ∀ rest, unrestored m.file (u :: rest) s =
    if failed then u :: unrestored m.file rest t else unrestored m.file rest t
  put : failed = false → ∀ x, u.image = some x → m.content t u.pos = some x
  lost : failed = true → m.content t u.pos = m.content s u.pos
  parked : failed = true ∨ Parked m.file s → Parked m.file t
  follows : failed = false → s.Follows t
  flushable : s.Flushable → (u.image ≠ none → m.store.Takes s.disk ∧
    u.pos.offset + m.blockSize < Store.offsetBound) → failed = false ∧ t.Flushable
  reliable : s.Safe → m.store.Reliable s.disk →
    (u.image ≠ none → u.pos.offset + m.blockSize < Store.offsetBound) →
      failed = false ∧ t.Safe

section TakenBack

variable {s t : Buffered} {u : Undo} {image : Bytes} {e : Error}

/-- A block that the call has added is forgotten. -/
theorem takenBack_forget (hintact : m.Intact none none s) (hunpinned : Unpinned s)
    (himage : u.image = none) :
    TakenBack m u false s { s with cache := s.cache.forget m.file u.pos } := by
  obtain ⟨hi, hkeeps, hfollows, hback⟩ := Mount.forget_spec hintact u.pos
  have hbeside : ∀ D, Buffered.Beside m.file D s
      { s with cache := s.cache.forget m.file u.pos } := fun D => Cache.beside_forget
  refine ⟨hi, fun j b hb => hunpinned j b (hback j b hb), hbeside _, hkeeps, fun rest => ?_,
    fun _ x hx => ?_, nofun, fun hparked => (hparked.resolve_left nofun).follows hfollows,
    fun _ => hfollows, fun hs _ => ⟨rfl, (hbeside fun _ => False).flushable_of_unchanged hs⟩,
    fun hs _ _ => ⟨rfl, hs.follows hfollows fun j b hb hd => ⟨b, hback j b hb, hd, rfl, rfl, rfl⟩⟩⟩
  · rw [unrestored, himage]
    rfl
  · rw [himage] at hx
    cases hx

/-- Putting an image back pins nothing. -/
theorem Unpinned.restored {pos : BlockPos} {r : Except Error Unit} (h : Unpinned s)
    (hr : m.Restored pos image s r t) : Unpinned t := by
  intro j b hb
  cases hp : b.pinned with
  | false => rfl
  | true =>
    obtain ⟨b', hb', hp'⟩ := hr.pinned_back j b hb hp
    rw [h j b' hb'] at hp'
    cases hp'

/-- An image that can be put back is. -/
theorem takenBack_restore (hintact : m.Intact none none s) (hunpinned : Unpinned s)
    (ha : m.Aligned u.pos) (himage : u.image = some image) (hlen : image.length = m.blockSize)
    (hrun : Cache.restore m.file u.pos image s = .ok () t) : TakenBack m u false s t := by
  have hr := (Mount.restore_ends hintact ha hlen).of_ok hrun
  have ht := (@Cache.restore_beside m.file s u.pos image).of_ok hrun
  have hnone : u.image ≠ none := by simp [himage]
  refine ⟨hr.intact, hunpinned.restored hr, ht.mono fun p hp => ⟨hp.symm, hnone⟩, hr.keeps,
    fun rest => ?_, fun _ x hx => ?_, nofun,
    fun hparked => (hparked.resolve_left nofun).follows hr.follows, fun _ => hr.follows,
    fun hs htakes => ⟨rfl, ht.flushable hs fun j b hb hfile hpos => ?_⟩, fun hs hrel hb =>
      ⟨rfl, (hr.reliable hs hrel (hb hnone) (hunpinned.spare hintact.enough)).2⟩⟩
  · rw [unrestored, himage]
    simp only [hrun]
    rfl
  · rw [himage] at hx
    cases hx
    exact hr.ok rfl
  · obtain ⟨htakes, hbound⟩ := htakes hnone
    refine ⟨m.store, hintact.store, htakes, ?_⟩
    rw [hpos, (hr.intact.whole j b hb hfile).2]
    exact hbound

/-- For one that cannot, the failure is kept. -/
theorem takenBack_refused (hintact : m.Intact none none s) (hunpinned : Unpinned s)
    (ha : m.Aligned u.pos) (himage : u.image = some image) (hlen : image.length = m.blockSize)
    (hrun : Cache.restore m.file u.pos image s = .error e t) :
    TakenBack m u true s { t with cache := t.cache.park m.file e } := by
  have hr := (Mount.restore_ends hintact ha hlen).of_error hrun
  have ht := (@Cache.restore_beside m.file s u.pos image).of_error hrun
  have hnone : u.image ≠ none := by simp [himage]
  have hspare := hunpinned.spare hintact.enough
  obtain ⟨hparked, hcontent⟩ :
      m.Intact none none { t with cache := t.cache.park m.file e } ∧
        ∀ p, m.content { t with cache := t.cache.park m.file e } p = m.content t p :=
    intact_modifyFile hr.intact m.file fun _ => rfl
  refine ⟨hparked, fun j b hb => hunpinned.restored hr j b hb,
    (ht.mono fun p hp => ⟨hp.symm, hnone⟩).trans (.modifyFile fun _ => rfl),
    fun p x hp hne hx => (hcontent p).trans (hr.keeps p x hp hne hx), fun rest => ?_, nofun,
    fun _ => (hcontent u.pos).trans (hr.error e rfl), fun _ => parked_park hr.intact.store e, nofun,
    fun hs htakes => ?_, fun hs hrel hb => ?_⟩
  · rw [unrestored, himage]
    simp only [hrun]
    rfl
  · have hok := @Cache.restore_flushable _ u.pos image _ hs hintact.sound hspare
      (by rw [hintact.store]; rfl)
    cases hok.of_error hrun
  · cases (hr.reliable hs hrel (hb hnone) hspare).1

end TakenBack

/-- One change is taken back, or the failure is kept. -/
theorem undoOne_ends {u : Undo} (hintact : m.Intact none none σ.2) (hunpinned : Unpinned σ.2)
    (ha : m.Aligned u.pos) (hlen : ∀ x, u.image = some x → x.length = m.blockSize) :
    Ends (undoOne m.file u) σ fun r τ =>
      r = .ok () ∧ τ.1 = σ.1 ∧ ∃ failed, TakenBack m u failed σ.2 τ.2 := by
  unfold undoOne
  cases himage : u.image with
  | none => exact ⟨rfl, rfl, false, takenBack_forget hintact hunpinned himage⟩
  | some image =>
    have hlen' := hlen image himage
    simp only
    cases hrun : Cache.restore m.file u.pos image σ.2 with
    | ok _ t =>
      refine Ends.attempt_bind (P := fun r υ => r = .ok () ∧ υ = (σ.1, t)) ?_ ?_
      · refine ends_of_eq_ok (a := ⟨⟩) (t := (σ.1, t)) ?_ ⟨rfl, rfl⟩
        obtain ⟨session, below⟩ := σ
        unfold onCache
        simp only [hrun]
      rintro r υ ⟨rfl, rfl⟩
      exact ⟨rfl, rfl, false, takenBack_restore hintact hunpinned ha himage hlen' hrun⟩
    | error e t =>
      refine Ends.attempt_bind (P := fun r υ => r = .error e ∧ υ = (σ.1, t)) ?_ ?_
      · refine ends_of_eq_error (e := e) (t := (σ.1, t)) ?_ ⟨rfl, rfl⟩
        obtain ⟨session, below⟩ := σ
        unfold onCache
        simp only [hrun]
      rintro r υ ⟨rfl, rfl⟩
      exact ⟨rfl, rfl, true, takenBack_refused hintact hunpinned ha himage hlen' hrun⟩

structure Undone (m : Mount) (undo : List Undo) (s t : Buffered) : Prop where
  intact : m.Intact none none t
  unpinned : Unpinned t
  beside : Buffered.Beside m.file (fun p => ∃ u ∈ undo, u.pos = p ∧ u.image ≠ none) s t
  others : ∀ p x, m.Aligned p → p ∉ undo.map Undo.pos → m.content s p = some x →
    m.content t p = some x
  restored : ∀ u ∈ undo, u ∉ unrestored m.file undo s → ∀ x, u.image = some x →
    m.content t u.pos = some x
  lost : ∀ u ∈ unrestored m.file undo s, ∀ x, m.content s u.pos = some x →
    m.content t u.pos = some x
  parked : unrestored m.file undo s ≠ [] ∨ Parked m.file s → Parked m.file t
  follows : unrestored m.file undo s = [] → s.Follows t
  flushable : s.Flushable → (∀ u ∈ undo, u.image ≠ none → m.store.Takes s.disk ∧
    u.pos.offset + m.blockSize < Store.offsetBound) →
      unrestored m.file undo s = [] ∧ t.Flushable
  reliable : s.Safe → m.store.Reliable s.disk →
    (∀ u ∈ undo, u.image ≠ none → u.pos.offset + m.blockSize < Store.offsetBound) →
      unrestored m.file undo s = [] ∧ t.Safe

/-- One change is taken back, and then the others are. -/
theorem Undone.cons {s t v : Buffered} {u : Undo} {rest : List Undo} {failed : Bool}
    (hone : TakenBack m u failed s t) (hrest : Undone m rest t v)
    (hnodup : u.pos ∉ rest.map Undo.pos) (haligned : ∀ u' ∈ u :: rest, m.Aligned u'.pos) :
    Undone m (u :: rest) s v := by
  have ha := haligned u List.mem_cons_self
  have hlist := hone.left rest
  have hpositions : (u :: rest).map Undo.pos = u.pos :: rest.map Undo.pos := rfl
  have hrestpos : ∀ u' ∈ rest, u'.pos ≠ u.pos := fun u' hu' hpos =>
    hnodup (hpos ▸ List.mem_map_of_mem hu')
  refine ⟨hrest.intact, hrest.unpinned, ?_, fun p x hp hnot hx => ?_,
    fun u' hu' hnot x hx => ?_, fun u' hu' x hx => ?_, fun hparked => ?_, fun hnil => ?_,
    fun hs htakes => ?_, fun hs hrel hbound => ?_⟩
  · refine (hone.beside.mono fun p hp => ?_).trans (hrest.beside.mono fun p hp => ?_)
    · exact ⟨u, List.mem_cons_self, hp⟩
    · obtain ⟨u', hu', hp⟩ := hp
      exact ⟨u', List.mem_cons_of_mem _ hu', hp⟩
  · rw [hpositions, List.mem_cons, not_or] at hnot
    exact hrest.others p x hp hnot.2
      (hone.keeps p x hp (fun h => hnot.1 (Option.some.inj h).symm) hx)
  · rw [hlist] at hnot
    rcases List.mem_cons.mp hu' with rfl | hu'
    · cases failed with
      | true => exact absurd List.mem_cons_self hnot
      | false => exact hrest.others _ x ha hnodup (hone.put rfl x hx)
    · refine hrest.restored u' hu' (fun hin => hnot ?_) x hx
      cases failed with
      | true => exact List.mem_cons_of_mem _ hin
      | false => exact hin
  · have hlater : u' ∈ unrestored m.file rest t → m.content v u'.pos = some x := by
      intro hin
      have hu' := mem_of_mem_unrestored hin
      exact hrest.lost u' hin x (hone.keeps _ x (haligned u' (List.mem_cons_of_mem _ hu'))
        (fun h => hrestpos u' hu' (Option.some.inj h).symm) hx)
    rw [hlist] at hu'
    cases failed with
    | false => exact hlater hu'
    | true =>
      rcases List.mem_cons.mp hu' with rfl | hu'
      · exact hrest.others _ x ha hnodup ((hone.lost rfl).trans hx)
      · exact hlater hu'
  · rw [hlist] at hparked
    cases failed with
    | true => exact hrest.parked (.inr (hone.parked (.inl rfl)))
    | false => exact hrest.parked (hparked.imp_right fun hs => hone.parked (.inr hs))
  · rw [hlist] at hnil
    cases failed with
    | true => cases hnil
    | false => exact (hone.follows rfl).trans (hrest.follows hnil)
  · obtain ⟨rfl, ht⟩ := hone.flushable hs (htakes u List.mem_cons_self)
    obtain ⟨hnil, hv⟩ := hrest.flushable ht fun u' hu' hne =>
      (htakes u' (List.mem_cons_of_mem _ hu') hne).imp_left fun h => h.follows hone.beside.disk
    exact ⟨hlist.trans hnil, hv⟩
  · obtain ⟨rfl, ht⟩ := hone.reliable hs hrel (hbound u List.mem_cons_self)
    obtain ⟨hnil, hv⟩ := hrest.reliable ht (hrel.follows hone.beside.disk) fun u' hu' =>
      hbound u' (List.mem_cons_of_mem _ hu')
    exact ⟨hlist.trans hnil, hv⟩

/-- The kept images are put back one after the other. -/
theorem undo_ends (hintact : m.Intact none none σ.2) (hunpinned : Unpinned σ.2)
    {undo : List Undo} (hnodup : (undo.map Undo.pos).Nodup)
    (haligned : ∀ u ∈ undo, m.Aligned u.pos)
    (hlen : ∀ u ∈ undo, ∀ x, u.image = some x → x.length = m.blockSize) :
    Ends (undo.forM (undoOne m.file)) σ fun r τ =>
      r = .ok () ∧ τ.1 = σ.1 ∧ Undone m undo σ.2 τ.2 := by
  induction undo generalizing σ with
  | nil =>
    exact ⟨rfl, rfl, hintact, hunpinned, .refl _, fun _ _ _ _ hx => hx, nofun, nofun,
      fun h => h.resolve_left fun hne => hne rfl, fun _ => .refl _, fun hs _ => ⟨rfl, hs⟩,
      fun hs _ _ => ⟨rfl, hs⟩⟩
  | cons u rest ih =>
    obtain ⟨hnot, hnodup'⟩ := List.nodup_cons.mp hnodup
    have hone := undoOne_ends hintact hunpinned (haligned u List.mem_cons_self)
      (hlen u List.mem_cons_self)
    show Ends (undoOne m.file u >>= fun _ => rest.forM (undoOne m.file)) σ _
    refine Ends.bind hone (fun e τ h => nomatch h.1) ?_
    rintro ⟨⟩ τ ⟨-, hτ, failed, hback⟩
    refine (ih hback.intact hback.unpinned hnodup'
      (fun u' hu' => haligned u' (List.mem_cons_of_mem _ hu'))
      fun u' hu' => hlen u' (List.mem_cons_of_mem _ hu')).mono ?_
    rintro r υ ⟨hr, hυ, hrest⟩
    exact ⟨hr, hυ.trans hτ, .cons hback hrest hnot haligned⟩

/-- The kept images that the roll back of a call fails to put back. -/
def leftBehind (σ : Session × Buffered) : List Undo :=
  match letGoAll σ with
  | .ok _ τ => unrestored τ.1.file τ.1.undo τ.2
  | .error _ _ => []

/-- Images are left behind of those that were kept. -/
theorem mem_leftBehind (hintact : m.Intact none none σ.2) (hpins : Pins m σ) {u : Undo}
    (h : u ∈ leftBehind σ) : u ∈ σ.1.undo ∧ ∃ x, u.image = some x := by
  have hlet := letGoAll_ends hintact hpins
  unfold leftBehind at h
  cases hrun : letGoAll σ with
  | error e τ => cases (hlet.of_error hrun).1
  | ok _ τ =>
    obtain ⟨-, hτ, -⟩ := hlet.of_ok hrun
    rw [hrun] at h
    have hmem := mem_of_mem_unrestored h
    rw [hτ] at hmem
    exact ⟨hmem, image_of_mem_unrestored h⟩

structure RolledBack (m : Mount) (before : BlockPos → Option Bytes) (hw : BlockPos)
    (σ τ : Session × Buffered) : Prop where
  session : τ.1 = { σ.1 with held := {}, undo := [] }
  intact : m.Intact none none τ.2
  unpinned : Unpinned τ.2
  beside : Buffered.Beside m.file (fun p => p.offset ≤ hw.offset) σ.2 τ.2
  others : ∀ p x, m.Aligned p → p ∉ σ.1.undo.map Undo.pos → m.content σ.2 p = some x →
    m.content τ.2 p = some x
  restored : ∀ p x, m.Aligned p → p.offset ≤ hw.offset →
    (∀ u ∈ leftBehind σ, u.pos ≠ p) → before p = some x → m.content τ.2 p = some x
  lost : ∀ u ∈ leftBehind σ, ∀ x, m.content σ.2 u.pos = some x → m.content τ.2 u.pos = some x
  parked : leftBehind σ ≠ [] → Parked m.file τ.2
  follows : leftBehind σ = [] → σ.2.Follows τ.2
  flushable : σ.2.Flushable → (σ.1.undo ≠ [] → m.store.Takes σ.2.disk ∧
    hw.offset + m.blockSize < Store.offsetBound) →
      leftBehind σ = [] ∧ τ.2.Flushable ∧ (σ.1.locked = true → τ.2.Idle m.file)
  reliable : σ.2.Safe → m.store.Reliable σ.2.disk →
    hw.offset + m.blockSize < Store.offsetBound → leftBehind σ = [] ∧ τ.2.Safe

/-- A roll back by its stages: the roles let go of their blocks, the changes are taken back, and the
blocks of the file may be released. -/
theorem RolledBack.of_stages {s u t : Buffered} {r : Except Error Unit} (hguard : Guard m before hw σ)
    (hbehind : leftBehind σ = unrestored m.file σ.1.undo s) (halike : Alike m σ.2 s)
    (hunchanged : Buffered.Beside m.file (fun _ => False) σ.2 s) (hundone : Undone m σ.1.undo s u)
    (hreleased : m.Released u r t) (hlast : Buffered.Beside m.file (fun _ => False) u t)
    (hidle : u.Flushable → σ.1.locked = true → t.Idle m.file) :
    RolledBack m before hw σ ({ σ.1 with held := {}, undo := [] }, t) := by
  have hkept : ∀ u ∈ σ.1.undo, u.image ≠ none → u.pos.offset ≤ hw.offset := by
    intro u hu hne
    obtain ⟨x, hx⟩ := Option.ne_none_iff_exists'.mp hne
    exact (hguard.kept u hu x hx).1
  have hother : ∀ p x, m.Aligned p → p ∉ σ.1.undo.map Undo.pos → m.content σ.2 p = some x →
      m.content u p = some x := by
    intro p x ha hnot hx
    refine hundone.others p x ha hnot ?_
    rw [halike.content]
    exact hx
  refine ⟨rfl, hreleased.moves.intact, fun i b hb => ?_, ?_, fun p x ha hnot hx => ?_,
    fun p x ha hp hnot hx => ?_, fun u hu x hx => ?_, fun hne => ?_, fun hnil => ?_,
    fun hs htakes => ?_, fun hs hst hb => ?_⟩
  · cases hpin : b.pinned with
    | false => rfl
    | true =>
      obtain ⟨b', hb', hp'⟩ := hreleased.pinned_back i b hb hpin
      rw [hundone.unpinned i b' hb'] at hp'
      cases hp'
  · refine (hunchanged.mono fun _ h => h.elim).trans
      ((hundone.beside.mono fun p hp => ?_).trans (hlast.mono fun _ h => h.elim))
    obtain ⟨u, hu, rfl, hne⟩ := hp
    exact hkept u hu hne
  · exact hreleased.moves.keeps p x ha nofun (hother p x ha hnot hx)
  · refine hreleased.moves.keeps p x ha nofun ?_
    by_cases hmem : p ∈ σ.1.undo.map Undo.pos
    · obtain ⟨u, hu, rfl⟩ := List.mem_map.mp hmem
      cases himage : u.image with
      | none => exact absurd (hguard.added u hu himage) (by omega)
      | some y =>
        obtain ⟨-, -, heq⟩ := hguard.kept u hu y himage
        rw [heq x hx]
        exact hundone.restored u hu (fun hin => hnot u (hbehind ▸ hin) rfl) y himage
    · exact hother p x ha hmem (hguard.unchanged p x ha hp hmem hx)
  · rw [hbehind] at hu
    have ha := hguard.aligned u (mem_of_mem_unrestored hu)
    refine hreleased.moves.keeps _ x ha nofun (hundone.lost u hu x ?_)
    rw [halike.content]
    exact hx
  · exact (hundone.parked (.inl (hbehind ▸ hne))).follows hreleased.moves.follows
  · exact (halike.follows.trans (hundone.follows (hbehind ▸ hnil))).trans hreleased.moves.follows
  · obtain ⟨hnil, hflushable⟩ := hundone.flushable (hunchanged.flushable_of_unchanged hs)
      fun u hu hne => by
        obtain ⟨htakes, hb⟩ := htakes (List.ne_nil_of_mem hu)
        have := hkept u hu hne
        exact ⟨htakes.follows hunchanged.disk, by omega⟩
    exact ⟨hbehind.trans hnil, hlast.flushable_of_unchanged hflushable, hidle hflushable⟩
  · obtain ⟨hnil, hsafe⟩ := hundone.reliable (halike.safe hs)
      (hst.follows halike.follows.disk) fun u hu hne => by
        have := hkept u hu hne
        omega
    exact ⟨hbehind.trans hnil, hreleased.moves.safe hsafe⟩

/-- A roll back takes back all changes but those of blocks whose image is left behind. -/
theorem rollBack_ends (hfile : σ.1.file = m.file) (hintact : m.Intact none none σ.2)
    (hpins : Pins m σ) (hguard : Guard m before hw σ) :
    Ends rollBack σ fun r τ => r = .ok () ∧ RolledBack m before hw σ τ := by
  have hlet := (letGoAll_ends hintact hpins).and (letGoAll_beside (D := fun _ => False) (m := m))
  cases hrun : letGoAll σ with
  | error e τ => cases (hlet.of_error hrun).1.1
  | ok _ τ =>
    obtain ⟨⟨-, hτ, halike, hintact', hunpinned⟩, hunchanged⟩ := hlet.of_ok hrun
    have hundo : τ.1.undo = σ.1.undo := by rw [hτ]
    have hfile' : τ.1.file = m.file := by rw [hτ]; exact hfile
    have hbehind : leftBehind σ = unrestored m.file σ.1.undo τ.2 := by
      unfold leftBehind
      rw [hrun]
      simp only [hundo, hfile']
    unfold rollBack
    refine Ends.bind (P := fun r υ => r = .ok () ∧ υ = τ) (ends_of_eq_ok hrun ⟨rfl, rfl⟩)
      (fun e υ h => nomatch h.1) ?_
    rintro ⟨⟩ υ ⟨-, rfl⟩
    refine Ends.get_bind (Ends.modify_bind ?_)
    have hspec := undo_ends (σ := ({ υ.1 with undo := [] }, υ.2)) hintact' hunpinned
      hguard.nodup hguard.aligned fun u hu x hx => (hguard.kept u hu x hx).2.1
    rw [← hundo, ← hfile'] at hspec
    refine Ends.bind hspec (fun e υ h => nomatch h.1) ?_
    rintro ⟨⟩ ⟨session, u⟩ ⟨-, hsession, hundone⟩
    rw [hundo] at hundone
    obtain rfl : session = { σ.1 with held := {}, undo := [] } := by
      rw [show session = _ from hsession, hτ]
    have hlocked : υ.1.locked = σ.1.locked := by rw [hτ]
    rw [hlocked]
    split
    · rw [hfile']
      refine Ends.attempt_bind (onCache_ends
        ((Mount.release_ends hundone.intact m.file .flush nofun).and
          (Cache.release_clears m.file .flush))) ?_
      rintro r ⟨session, t⟩ ⟨rfl, hreleased, hlast, hidle, hok⟩
      exact ⟨rfl, .of_stages hguard hbehind halike hunchanged hundone hreleased hlast
        fun hs _ => hidle (hok hs)⟩
    · next hnot =>
      exact ⟨rfl, .of_stages (r := .ok ()) hguard hbehind halike hunchanged hundone
        ⟨.refl hundone.intact, fun j b hb hp => ⟨b, hb, hp⟩, fun _ => rfl⟩ (.refl _)
        fun _ hlocked => absurd hlocked hnot⟩

end Session

end PagedIndex
