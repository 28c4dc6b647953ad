import PagedIndex.Proofs.Cache.Shifts

/-!
# What caches do with blocks

The work of a cache that changes no block moves blocks: it makes room, reads, and writes back. Each
part of it is a number of moves, of which is known which writes were attempted.

## Main definitions

* `Buffered.Kept` — what was refused is held on.
* `Cache.Swept` — what releasing some buffers comes to.

## Main statements

* `Cache.fetch_shifts` — a block is read.
* `Cache.releaseAmong_swept`, `Cache.purgeAmong_swept` — buffers are released.
-/

namespace PagedIndex

/-- The writes that were attempted are those of changes, and what was refused is held on. -/
def Buffered.Kept (s : Buffered) (l : List Attempt) (t : Buffered) : Prop :=
  ∀ a ∈ l, ∃ i b store, s.cache.buffer? i = some b ∧ b.dirty = true ∧
    s.cache.store? b.file = some store ∧ a = b.attempt store a.taken ∧
    (a.taken = false → t.cache.buffer? i = some b)

namespace Cache

variable {g : Grid} {s t u : Buffered} {l l' : List Attempt} {i : Nat} {f : FileId} {p : BlockPos}

theorem sameFiles_unhook (c : Cache) (i : Nat) : c.SameFiles (c.unhook i) := fun _ =>
  congrArg (Option.map _) registration?_unhook

theorem sameFiles_modifyFile (c : Cache) (file : FileId) {r : Registration → Registration}
    (hr : ∀ x, (r x).store = x.store) : c.SameFiles (c.modifyFile file r) :=
  (Buffered.Beside.modifyFile (D := fun _ => False) (s := ⟨c, default⟩) hr).store

theorem sameFiles_park (c : Cache) (file : FileId) (e : Error) : c.SameFiles (c.park file e) :=
  sameFiles_modifyFile c file (r := fun x => { x with pending := x.pending <|> some e }) fun _ => rfl

theorem buffer?_unhook_clean {c : Cache} (j : Nat) :
    ((c.clean i).unhook i).buffer? j = if j = i then none else c.buffer? j := by
  rw [buffer?_unhook]
  split
  · rfl
  · next hj => rw [buffer?_clean, if_neg hj]

/-! ## Making room -/

/-- A block makes room for another one. -/
theorem evict_shifts (hsound : s.cache.Sound none) : Ends evict s fun r t =>
    ∃ l, Shifts g s l t ∧ s.Kept l t ∧ ∀ i, r = .ok i → ∀ a ∈ l, a.taken = true := by
  have hnone : Shifts g s [] s ∧ s.Kept [] s := ⟨.refl s, nofun⟩
  unfold evict
  refine Ends.get_bind ?_
  split
  · exact Ends.throw ⟨[], hnone.1, hnone.2, nofun⟩
  · next i hi =>
    obtain ⟨b, hb, -⟩ := victim?_eq_some hi
    refine Ends.bind (writeBack_cases hsound i) ?_ ?_
    · rintro e t (⟨he, -⟩ | ⟨b', store, hb', hd, hstore, ⟨he, -⟩ | ⟨e', -, hc, hwrite⟩⟩)
      · cases he
      · cases he
      · obtain ⟨c, d⟩ := t
        cases hc
        refine ⟨_, (Shift.refused hb' hd hstore hwrite).shifts, fun a ha => ?_, nofun⟩
        obtain rfl := List.mem_singleton.mp ha
        exact ⟨i, b', store, hb', hd, hstore, rfl, fun _ => hb'⟩
    · rintro ⟨⟩ t (⟨-, rfl, hclean⟩ | ⟨b', store, hb', hd, hstore, ⟨-, hc, hwrite⟩ | ⟨e', he, -⟩⟩)
      · have hfiles := sameFiles_unhook t.cache i
        exact update_bind_ends (Ends.pure ⟨[], Shift.shifts (.drop hb (hclean b hb)
          (fun j => buffer?_unhook) hfiles), nofun, fun _ _ => nofun⟩)
      · obtain ⟨c, d⟩ := t
        cases hc
        have hfiles := sameFiles_unhook (s.cache.clean i) i
        refine update_bind_ends (Ends.pure ⟨_, Shift.shifts (.writeOut hb' hd hstore hwrite
          (fun j => buffer?_unhook_clean j) hfiles), fun a ha => ?_,
          fun _ _ a ha => ?_⟩)
        · obtain rfl := List.mem_singleton.mp ha
          exact ⟨i, b', store, hb', hd, hstore, rfl, nofun⟩
        · obtain rfl := List.mem_singleton.mp ha
          rfl
      · cases he

theorem vacate_shifts (hsound : s.cache.Sound none) : Ends vacate s fun r t =>
    ∃ l, Shifts g s l t ∧ s.Kept l t ∧ ∀ i, r = .ok i → ∀ a ∈ l, a.taken = true := by
  unfold vacate
  refine Ends.get_bind ?_
  split
  · exact update_bind_ends (Ends.pure ⟨[], Shift.shifts (.still (fun _ => rfl) (fun _ => rfl)
      (.refl _)), nofun, fun _ _ => nofun⟩)
  · exact evict_shifts hsound

theorem storeOf_unknown (hstore : s.cache.store? f = none) :
    Ends (storeOf f) s fun r t => (∃ e, r = .error e) ∧ t = s := by
  unfold storeOf
  refine Ends.get_bind ?_
  rw [store?, Option.map_eq_none_iff] at hstore
  rw [hstore]
  exact Ends.throw ⟨⟨_, rfl⟩, rfl⟩

/-- A buffer is taken for a block that no buffer holds, if its file is open. -/
theorem miss_shifts {k : Store → Nat → CacheM Nat} {Q : Except Error Nat → Buffered → Prop}
    (hsound : s.cache.Sound none) (hnone : s.cache.lookup f p = none)
    (herror : ∀ e t l, t.cache.Sound none → Shifts g s l t → s.Kept l t →
      (∀ j b, t.cache.buffer? j = some b → b.file = f → b.pos ≠ p) → Q (.error e) t)
    (hok : ∀ store i t l, t.cache.store? f = some store → t.cache.Sound (some i) →
      Shifts g s l t → s.Kept l t → (∀ a ∈ l, a.taken = true) →
      (∀ j b, t.cache.buffer? j = some b → b.file = f → b.pos ≠ p) → Ends (k store i) t Q) :
    Ends (do
      update fun c => { c with misses := c.misses + 1 }
      let store ← storeOf f
      let i ← vacate
      k store i) s Q := by
  have hcounted := hsound.count s.cache.hits (s.cache.misses + 1) s.cache.evictions s.cache.writes
  have hcount : Shift g s [] ⟨{ s.cache with misses := s.cache.misses + 1 }, s.disk⟩ :=
    .still (fun _ => rfl) (fun _ => rfl) (.refl _)
  have habsent := hsound.lookup_eq_none_iff.mp hnone
  refine update_bind_ends ?_
  cases hstore : s.cache.store? f with
  | none =>
    refine Ends.bind (storeOf_unknown hstore) ?_ ?_
    · rintro e t ⟨-, rfl⟩
      exact herror e _ [] hcounted hcount.shifts (fun _ ha => absurd ha List.not_mem_nil) habsent
    · rintro a t ⟨⟨e, he⟩, -⟩
      cases he
  | some store =>
    refine Mount.storeOf_bind_ends hstore ?_
    refine Ends.bind ((vacate_shifts (g := g) hcounted).and
      (vacate_steps (m := g.mount f store) (V := g.starts f) (W := fun _ _ => False) hcounted)) ?_ ?_
    · rintro e t ⟨⟨l, hshifts, hkept, -⟩, hback, -, hsteps⟩
      exact herror e t l ((hsteps e rfl).sound hcounted hstore) (.after hcount hshifts) hkept
        fun j b hb => habsent j b (hback j b hb)
    · rintro i t ⟨⟨l, hshifts, hkept, htaken⟩, hback, hthrough, -⟩
      exact hok store i t l ((hshifts.files f).trans hstore)
        ((hthrough i rfl).sound hcounted hstore) (.after hcount hshifts) hkept (htaken i rfl)
        fun j b hb => habsent j b (hback j b hb)

/-- A block is read, unless a buffer holds it. -/
theorem fetch_shifts (hsound : s.cache.Sound none) (hp : g.starts f p) :
    Ends (fetch f p (g.size f) true) s fun _ t =>
      t.cache.Sound none ∧ ∃ l, Shifts g s l t ∧ s.Kept l t := by
  unfold fetch
  refine Ends.get_bind ?_
  split
  · next i hi =>
    obtain ⟨b, hb, -⟩ := hsound.lookup_eq_some_iff.mp hi
    exact update_bind_ends (Ends.pure ⟨(hsound.touch (by rw [hb]; rfl)).count _ _ _ _, [],
      Shift.shifts (.still (fun _ => rfl) (fun _ => rfl) (.refl _)),
      fun _ ha => absurd ha List.not_mem_nil⟩)
  · next hnone =>
    refine miss_shifts hsound hnone (fun e t l hsound' hshifts hkept _ => ⟨hsound', l, hshifts, hkept⟩)
      fun store i t l hstore hout hshifts hkept htaken habsent => ?_
    obtain ⟨hi, hvacant⟩ := hout.out_vacant i rfl
    refine Ends.attempt_bind (onDisk_ends (P := fun o d => ending (readImage store p
      (g.size f)) t.disk = (o, d)) (ends_ending.mono fun _ _ h => by rw [h.1, h.2])) ?_
    rintro r ⟨c, d⟩ ⟨hc, hread⟩
    cases hc
    cases r with
    | ok image =>
      have hload : Shift g t [] ⟨t.cache.hook i ⟨f, p, image, false, false⟩, d⟩ :=
        .load hstore hp hvacant habsent (eq_ok_of_ending hread) (fun j => buffer?_hook hi)
          (fun _ => rfl)
      refine update_bind_ends (Ends.pure ⟨hout.hook habsent (isSome_registration? hstore), l,
        hshifts.before hload, fun a ha => ?_⟩)
      obtain ⟨j, b, store', hb, hd, hst, heq, -⟩ := hkept a ha
      refine ⟨j, b, store', hb, hd, hst, heq, fun hnot => ?_⟩
      rw [htaken a ha] at hnot
      cases hnot
    | error e =>
      have hasked : Shift g t [] ⟨t.cache.giveBack i, d⟩ :=
        .still (fun _ => rfl) (fun _ => rfl)
          ((readImage_tries store p (g.size f) t.disk).of_error (eq_error_of_ending hread))
      exact update_bind_ends (Ends.throw ⟨hout.giveBack, l, hshifts.before hasked, hkept⟩)

/-! ## Writing back -/

/-- Of some buffers those with a property have given their blocks up, but for changes that their
stores did not take. -/
structure Swept (g : Grid) (P : Buffer → Prop) (buffers : List Nat) (s : Buffered)
    (l : List Attempt) (t : Buffered) : Prop where
  shifts : Shifts g s l t
  sound : t.cache.Sound none
  kept : ∀ a ∈ l, ∃ i ∈ buffers, ∃ b store, s.cache.buffer? i = some b ∧ b.dirty = true ∧
    s.cache.store? b.file = some store ∧ a = b.attempt store a.taken ∧
    (a.taken = false → t.cache.buffer? i = some b)
  beside : ∀ j, j ∉ buffers → t.cache.buffer? j = s.cache.buffer? j
  back : ∀ j b, t.cache.buffer? j = some b → s.cache.buffer? j = some b
  left : ∀ j ∈ buffers, ∀ b, t.cache.buffer? j = some b → P b →
    ∃ store, b.attempt store false ∈ l

variable {P : Buffer → Prop} {buffers rest : List Nat} {b : Buffer}

theorem Swept.nil (hsound : s.cache.Sound none) : Swept g P [] s [] s :=
  ⟨.refl s, hsound, fun _ ha => absurd ha List.not_mem_nil, fun _ _ => rfl, fun _ _ => id,
    fun _ hj => absurd hj List.not_mem_nil⟩

/-- One buffer after the other. -/
theorem Swept.cons (h : Swept g P [i] s l t) (h' : Swept g P rest t l' u) (hi : i ∉ rest) :
    Swept g P (i :: rest) s (l ++ l') u := by
  have hfiles := h.shifts.files
  refine ⟨h.shifts.trans h'.shifts, h'.sound, fun a ha => ?_, fun j hj => ?_,
    fun j b hb => h.back j b (h'.back j b hb), fun j hj b hb hP => ?_⟩
  · rcases List.mem_append.mp ha with ha | ha
    · obtain ⟨j, hj, b, store, hb, hdirty, hstore, heq, hheld⟩ := h.kept a ha
      obtain rfl := List.mem_singleton.mp hj
      exact ⟨j, List.mem_cons_self, b, store, hb, hdirty, hstore, heq,
        fun hnot => (h'.beside j hi).trans (hheld hnot)⟩
    · obtain ⟨j, hj, b, store, hb, hdirty, hstore, heq, hheld⟩ := h'.kept a ha
      exact ⟨j, List.mem_cons_of_mem _ hj, b, store, h.back j b hb, hdirty,
        (hfiles _).symm.trans hstore, heq, hheld⟩
  · rw [List.mem_cons, not_or] at hj
    exact (h'.beside j hj.2).trans (h.beside j fun hmem => hj.1 (List.mem_singleton.mp hmem))
  · rcases List.mem_cons.mp hj with rfl | hj
    · obtain ⟨store, hmem⟩ := h.left j List.mem_cons_self b (h'.back j b hb) hP
      exact ⟨store, List.mem_append.mpr (.inl hmem)⟩
    · obtain ⟨store, hmem⟩ := h'.left j hj b hb hP
      exact ⟨store, List.mem_append.mpr (.inr hmem)⟩

/-- A buffer without the property is passed over. -/
theorem Swept.skip (h : Swept g P rest s l t) (hi : ∀ b, s.cache.buffer? i = some b → ¬P b) :
    Swept g P (i :: rest) s l t := by
  refine ⟨h.shifts, h.sound, fun a ha => ?_, fun j hj => ?_, h.back, fun j hj b hb hP => ?_⟩
  · obtain ⟨j, hj, hkept⟩ := h.kept a ha
    exact ⟨j, List.mem_cons_of_mem _ hj, hkept⟩
  · exact h.beside j fun hmem => hj (List.mem_cons_of_mem _ hmem)
  · rcases List.mem_cons.mp hj with rfl | hj
    · exact absurd hP (hi b (h.back j b hb))
    · exact h.left j hj b hb hP

/-- Nothing moves afterwards. -/
theorem Swept.still (h : Swept g P buffers s l t) (hsound : u.cache.Sound none)
    (hbuffers : ∀ j, u.cache.buffer? j = t.cache.buffer? j) (hfiles : t.cache.SameFiles u.cache)
    (hdisk : t.disk.Tries [] u.disk) : Swept g P buffers s l u := by
  refine ⟨h.shifts.before (.still hbuffers hfiles hdisk), hsound, fun a ha => ?_,
    fun j hj => (hbuffers j).trans (h.beside j hj), fun j b hb => h.back j b (hbuffers j ▸ hb),
    fun j hj b hb => h.left j hj b (hbuffers j ▸ hb)⟩
  obtain ⟨j, hj, b, store, hb, hdirty, hstore, heq, hheld⟩ := h.kept a ha
  exact ⟨j, hj, b, store, hb, hdirty, hstore, heq, fun hnot => (hbuffers j).trans (hheld hnot)⟩

/-- A buffer has given its block up. -/
theorem Swept.gone (hshift : Shift g s l t) (hsound : t.cache.Sound none)
    (hbuffers : ∀ j, t.cache.buffer? j = if j = i then none else s.cache.buffer? j)
    (hl : ∀ a ∈ l, a.taken = true ∧ ∃ b store, s.cache.buffer? i = some b ∧ b.dirty = true ∧
      s.cache.store? b.file = some store ∧ a = b.attempt store a.taken) : Swept g P [i] s l t := by
  refine ⟨hshift.shifts, hsound, fun a ha => ?_, fun j hj => ?_, fun j b hb => ?_,
    fun j hj b hb => ?_⟩
  · obtain ⟨htaken, b, store, hb, hdirty, hstore, heq⟩ := hl a ha
    refine ⟨i, List.mem_singleton_self i, b, store, hb, hdirty, hstore, heq, fun hnot => ?_⟩
    rw [htaken] at hnot
    cases hnot
  · exact (hbuffers j).trans (if_neg fun h => hj (List.mem_singleton.mpr h))
  · rw [hbuffers] at hb
    split at hb
    · cases hb
    · exact hb
  · rw [hbuffers, if_pos (List.mem_singleton.mp hj)] at hb
    cases hb

/-- The changes of a buffer were not taken. -/
theorem Swept.refused {store : Store} {e : Error} {d : Disk} (hsound : s.cache.Sound none)
    (hb : s.cache.buffer? i = some b) (hdirty : b.dirty = true)
    (hstore : s.cache.store? b.file = some store)
    (hwrite : store.write b.pos.offset b.image s.disk = .error e d) :
    Swept g P [i] s [b.attempt store false] ⟨s.cache, d⟩ := by
  refine ⟨(Shift.refused hb hdirty hstore hwrite).shifts, hsound, fun a ha => ?_, fun _ _ => rfl,
    fun _ _ => id, fun j hj b' hb' _ => ?_⟩
  · obtain rfl := List.mem_singleton.mp ha
    exact ⟨i, List.mem_singleton_self i, b, store, hb, hdirty, hstore, rfl, fun _ => hb⟩
  · obtain rfl := List.mem_singleton.mp hj
    obtain rfl : b = b' := Option.some.inj (hb.symm.trans hb')
    exact ⟨store, List.mem_singleton_self _⟩

/-- One buffer is released. -/
theorem releaseBuffer_swept (hsound : s.cache.Sound none) (hb : s.cache.buffer? i = some b) :
    Ends (releaseBuffer .flush i) s fun r t => (∃ o, r = .ok o) ∧ ∃ l, Swept g P [i] s l t := by
  unfold releaseBuffer
  refine Ends.attempt_bind (writeBack_cases hsound i) ?_
  rintro r t (⟨rfl, rfl, hclean⟩ |
    ⟨b', store, hb', hd, hstore, ⟨rfl, hc, hwrite⟩ | ⟨e, rfl, hc, hwrite⟩⟩)
  · have hfiles := sameFiles_unhook t.cache i
    have hshift : Shift g t [] ⟨t.cache.discard i, t.disk⟩ :=
      .drop hb (hclean b hb) (fun _ => buffer?_discard) hfiles
    exact update_bind_ends (Ends.pure ⟨⟨_, rfl⟩, [], .gone hshift (hsound.discard (by rw [hb]; rfl))
      (fun _ => buffer?_discard) fun _ ha => absurd ha List.not_mem_nil⟩)
  · obtain ⟨c, d⟩ := t
    cases hc
    have hfiles := sameFiles_unhook (s.cache.clean i) i
    have hshift : Shift g s [b'.attempt store true] ⟨(s.cache.clean i).discard i, d⟩ :=
      .writeOut hb' hd hstore hwrite buffer?_unhook_clean hfiles
    have hsound' := (hsound.clean i).discard (i := i) (by rw [buffer?_clean, if_pos rfl, hb]; rfl)
    refine update_bind_ends (Ends.pure ⟨⟨_, rfl⟩, _, .gone hshift hsound' buffer?_unhook_clean
      fun a ha => ?_⟩)
    obtain rfl := List.mem_singleton.mp ha
    exact ⟨rfl, b', store, hb', hd, hstore, rfl⟩
  · obtain ⟨c, d⟩ := t
    cases hc
    exact Ends.pure ⟨⟨_, rfl⟩, _, .refused hsound hb' hd hstore hwrite⟩

/-- What is left of the buffers of a file is not written. -/
theorem releaseAmong_swept (hsound : s.cache.Sound none) (hnodup : buffers.Nodup) :
    Ends (releaseAmong f .flush buffers) s fun _ t =>
      ∃ l, Swept g (·.file = f) buffers s l t := by
  induction buffers generalizing s with
  | nil => exact Ends.pure ⟨[], .nil hsound⟩
  | cons i rest ih =>
    obtain ⟨hi, hrest⟩ := List.nodup_cons.mp hnodup
    unfold releaseAmong
    refine Ends.get_bind ?_
    dsimp only
    split
    · next hany =>
      obtain ⟨b, hb⟩ : ∃ b, s.cache.buffer? i = some b := by
        cases hb : s.cache.buffer? i with
        | none => rw [hb] at hany; cases hany
        | some b => exact ⟨b, rfl⟩
      refine Ends.bind (releaseBuffer_swept (g := g) (P := (·.file = f)) hsound hb) ?_ ?_
      · rintro e t ⟨⟨o, ho⟩, -⟩
        cases ho
      rintro first t ⟨-, l, hswept⟩
      refine Ends.bind (ih hswept.sound hrest) ?_ ?_
      · rintro e u ⟨l', hswept'⟩
        exact ⟨_, hswept.cons hswept' hi⟩
      · rintro others u ⟨l', hswept'⟩
        exact Ends.pure ⟨_, hswept.cons hswept' hi⟩
    · next hany =>
      refine (ih hsound hrest).mono ?_
      rintro _ t ⟨l, hswept⟩
      refine ⟨l, hswept.skip fun b hb hfile => hany ?_⟩
      rw [hb]
      simpa using hfile

/-- What is left of the buffers that are not in use is not written. -/
theorem purgeAmong_swept (hsound : s.cache.Sound none) (hnodup : buffers.Nodup) :
    Ends (purgeAmong buffers) s fun _ t => ∃ l, Swept g (·.pinned = false) buffers s l t := by
  induction buffers generalizing s with
  | nil => exact Ends.pure ⟨[], .nil hsound⟩
  | cons i rest ih =>
    obtain ⟨hi, hrest⟩ := List.nodup_cons.mp hnodup
    have hskip : (∀ b, s.cache.buffer? i = some b → b.pinned ≠ false) →
        Ends (purgeAmong rest) s fun _ t => ∃ l, Swept g (·.pinned = false) (i :: rest) s l t := by
      intro h
      refine (ih hsound hrest).mono ?_
      rintro _ t ⟨l, hswept⟩
      exact ⟨l, hswept.skip h⟩
    unfold purgeAmong
    refine Ends.get_bind ?_
    split
    · next hnone =>
      exact hskip fun b hb => by rw [hnone] at hb; cases hb
    · next b hb =>
      split
      · next hpinned =>
        refine hskip fun b' hb' hnot => ?_
        rw [hb] at hb'
        cases hb'
        rw [hpinned] at hnot
        cases hnot
      · refine Ends.bind (releaseBuffer_swept (g := g) (P := (·.pinned = false)) hsound hb) ?_ ?_
        · rintro e t ⟨⟨o, ho⟩, -⟩
          cases ho
        rintro o t ⟨-, l, hswept⟩
        cases o with
        | ok u =>
          refine Ends.bind (ih hswept.sound hrest) ?_ ?_
          · rintro e u ⟨l', hswept'⟩
            exact ⟨_, hswept.cons hswept' hi⟩
          · rintro n u ⟨l', hswept'⟩
            exact Ends.pure ⟨_, hswept.cons hswept' hi⟩
        | error e =>
          have hsound' : (t.cache.park b.file e).Sound none := hswept.sound.modifyFile _
          have hparked := hswept.still (u := ⟨t.cache.park b.file e, t.disk⟩) hsound'
            (fun _ => rfl) (sameFiles_park _ _ _) (.refl _)
          refine update_bind_ends ((ih hparked.sound hrest).mono ?_)
          rintro _ u ⟨l', hswept'⟩
          exact ⟨_, hparked.cons hswept' hi⟩

end Cache

end PagedIndex
