import PagedIndex.Proofs.Cache.Beside
import PagedIndex.Proofs.Session.Parts

/-!
# The working set of a call

The buffers that the roles of a call hold are the pinned ones. A call holds at most four of a cache
of at least four buffers, and it lets go of one before it loads another, so that a buffer can be
recycled for every load.

## Main definitions

* `Session.Pins` — the roles hold the pinned buffers, and these are of the file.

## Main statements

* `Session.load_ends`, `Session.edit_ends` — the steps of a call.
-/

namespace PagedIndex

namespace Holdings

variable {h : Holdings} {role role' : Role} {i : Nat}

theorem mem_toList : i ∈ h.toList ↔ ∃ role, h.get role = some i := by
  simp only [toList, List.mem_filterMap, List.mem_cons, List.not_mem_nil, or_false, id_eq]
  constructor
  · rintro ⟨o, rfl | rfl | rfl | rfl, ho⟩
    · exact ⟨.header, ho⟩
    · exact ⟨.current, ho⟩
    · exact ⟨.parent, ho⟩
    · exact ⟨.sibling, ho⟩
  · rintro ⟨role, hr⟩
    cases role
    · exact ⟨_, .inl rfl, hr⟩
    · exact ⟨_, .inr (.inl rfl), hr⟩
    · exact ⟨_, .inr (.inr (.inl rfl)), hr⟩
    · exact ⟨_, .inr (.inr (.inr rfl)), hr⟩

theorem get_set (o : Option Nat) :
    (h.set role o).get role' = if role' = role then o else h.get role' := by
  cases role <;> cases role' <;> rfl

theorem set_none_of_get_eq_none (hr : h.get role = none) : h.set role none = h := by
  obtain ⟨header, current, parent, sibling⟩ := h
  cases role <;> exact congrArg _ hr.symm

theorem length_toList_of_get_eq_none (hr : h.get role = none) : h.toList.length < minBuffers := by
  have hone : ∀ (o : Option Nat) (l : List (Option Nat)),
      ((o :: l).filterMap id).length ≤ (l.filterMap id).length + 1 := by
    intro o l
    cases o <;> simp
  have hnone : ∀ (o : Option Nat) (l : List (Option Nat)), o = none →
      ((o :: l).filterMap id).length = (l.filterMap id).length := by
    rintro o l rfl
    rfl
  obtain ⟨header, current, parent, sibling⟩ := h
  have h₁ := hone header [current, parent, sibling]
  have h₂ := hone current [parent, sibling]
  have h₃ := hone parent [sibling]
  have h₄ := hone sibling []
  show ([header, current, parent, sibling].filterMap id).length < 4
  cases role with
  | header => have := hnone header [current, parent, sibling] hr; simp only [List.filterMap_nil,
      List.length_nil] at *; omega
  | current => have := hnone current [parent, sibling] hr; simp only [List.filterMap_nil,
      List.length_nil] at *; omega
  | parent => have := hnone parent [sibling] hr; simp only [List.filterMap_nil,
      List.length_nil] at *; omega
  | sibling => have := hnone sibling [] hr; simp only [List.filterMap_nil,
      List.length_nil] at *; omega

end Holdings

namespace Session

variable {m : Mount} {σ τ : Session × Buffered} {α β : Type} {role role' : Role}
  {fresh : Option BlockPos} {pos : BlockPos} {i : Nat} {b : Buffer}

/-- The roles hold the pinned buffers, and these hold blocks of the file. -/
structure Pins (m : Mount) (σ : Session × Buffered) : Prop where
  held : ∀ i ∈ σ.1.held.toList, ∃ b, σ.2.cache.buffer? i = some b ∧ b.file = m.file ∧
    b.pinned = true
  pinned : ∀ i b, σ.2.cache.buffer? i = some b → b.pinned = true → i ∈ σ.1.held.toList

/-- The roles hold their buffers whatever else becomes of the session. -/
theorem Pins.session {new : Session} (h : Pins m σ) (hheld : new.held = σ.1.held) :
    Pins m (new, σ.2) :=
  ⟨fun i hi => h.held i (hheld ▸ hi), fun i b hb hp => hheld ▸ h.pinned i b hb hp⟩

/-- A role without a buffer leaves a buffer for its next block, if only the roles pin buffers. -/
theorem spare_of_pinned
    (hpinned : ∀ i b, σ.2.cache.buffer? i = some b → b.pinned = true → i ∈ σ.1.held.toList)
    (hrole : σ.1.held.get role = none) (henough : minBuffers ≤ σ.2.cache.capacity) : σ.2.Spare := by
  have hlt := Holdings.length_toList_of_get_eq_none hrole
  obtain ⟨i, hi, hnot⟩ : ∃ i ∈ List.range σ.2.cache.capacity, i ∉ σ.1.held.toList := by
    refine Classical.byContradiction fun hno => ?_
    have hsub : List.range σ.2.cache.capacity ⊆ σ.1.held.toList := fun i hi =>
      Classical.byContradiction fun hn => hno ⟨i, hi, hn⟩
    have := List.nodup_range.length_le_of_subset hsub
    rw [List.length_range] at this
    omega
  refine ⟨i, List.mem_range.mp hi, fun b hb => ?_⟩
  cases hp : b.pinned with
  | false => rfl
  | true => exact absurd (hpinned i b hb hp) hnot

theorem Pins.spare (h : Pins m σ) (role : Role) (hrole : σ.1.held.get role = none)
    (henough : minBuffers ≤ σ.2.cache.capacity) : σ.2.Spare :=
  spare_of_pinned h.pinned hrole henough

theorem setPinned_eq_some {c : Cache} {j : Nat} {pinned : Bool} {b' : Buffer}
    (h : (c.setPinned i pinned).buffer? j = some b') :
    ∃ b, c.buffer? j = some b ∧ b' = if j = i then { b with pinned := pinned } else b := by
  rw [Cache.setPinned, Cache.buffer?_modifyBuffer] at h
  split at h
  · next hj =>
    obtain ⟨b, hb, rfl⟩ := Option.map_eq_some_iff.mp h
    exact ⟨b, hj ▸ hb, by rw [if_pos hj]⟩
  · next hj => exact ⟨b', h, by rw [if_neg hj]⟩

theorem buffer?_setPinned {c : Cache} {j : Nat} {pinned : Bool} {b : Buffer}
    (h : c.buffer? j = some b) : (c.setPinned i pinned).buffer? j =
      some (if j = i then { b with pinned := pinned } else b) := by
  rw [Cache.setPinned, Cache.buffer?_modifyBuffer]
  split
  · next hj => rw [← hj, h]; rfl
  · exact h

/-- Pinning changes nothing that is read or written. -/
structure Alike (m : Mount) (s t : Buffered) : Prop where
  follows : s.Follows t
  safe : s.Safe → t.Safe
  content : ∀ p, m.content t p = m.content s p
  disk : t.disk = s.disk

theorem Alike.refl (m : Mount) (s : Buffered) : Alike m s s := ⟨.refl s, id, fun _ => rfl, rfl⟩

theorem Alike.trans {s t u : Buffered} (h : Alike m s t) (h' : Alike m t u) : Alike m s u :=
  ⟨h.follows.trans h'.follows, fun hs => h'.safe (h.safe hs),
    fun p => (h'.content p).trans (h.content p), h'.disk.trans h.disk⟩

theorem alike_setPinned {out : Option Nat} {s : Buffered} (h : s.cache.Sound out) (i : Nat)
    (pinned : Bool) : Alike m s { s with cache := s.cache.setPinned i pinned } := by
  have hfollows : s.Follows { s with cache := s.cache.setPinned i pinned } :=
    ⟨.refl _, Cache.capacity_modifyBuffer _, fun _ => rfl⟩
  refine ⟨hfollows, fun hs => hs.follows hfollows fun j b' hb' hd => ?_,
    Mount.content_setPinned h i pinned, rfl⟩
  obtain ⟨b, hb, rfl⟩ := setPinned_eq_some hb'
  refine ⟨b, hb, ?_⟩
  split at hd <;> split <;> exact ⟨hd, rfl, rfl, rfl⟩

structure LetGo (m : Mount) (role : Role) (σ τ : Session × Buffered) : Prop where
  session : τ.1 = { σ.1 with held := σ.1.held.set role none }
  alike : Alike m σ.2 τ.2
  pins : Pins m τ
  intact : ∀ fresh, m.Intact fresh none σ.2 → m.Intact fresh none τ.2
  others : ∀ role' j b, role' ≠ role → σ.1.held.get role' = some j →
    σ.2.cache.buffer? j = some b → τ.2.cache.buffer? j = some b

theorem letGo_ends (role : Role) (h : Pins m σ) (hsound : σ.2.cache.Sound none) :
    Ends (letGo role) σ fun r τ => r = .ok () ∧ LetGo m role σ τ := by
  unfold letGo
  refine Ends.get_bind ?_
  simp only
  split
  · next hnone =>
    exact ⟨rfl, by rw [Holdings.set_none_of_get_eq_none hnone], .refl m _, h, fun _ hi => hi,
      fun _ _ _ _ _ hb => hb⟩
  · next i hi =>
    have hsub : ∀ j ∈ (σ.1.held.set role none).toList, j ∈ σ.1.held.toList := by
      intro j hj
      obtain ⟨role', hr⟩ := Holdings.mem_toList.mp hj
      rw [Holdings.get_set] at hr
      split at hr
      · cases hr
      · exact Holdings.mem_toList.mpr ⟨role', hr⟩
    have hback : ∀ j ∈ σ.1.held.toList, j = i ∨ j ∈ (σ.1.held.set role none).toList := by
      intro j hj
      obtain ⟨role', hr⟩ := Holdings.mem_toList.mp hj
      by_cases hrole : role' = role
      · rw [hrole, hi] at hr
        exact .inl (Option.some.inj hr).symm
      · exact .inr (Holdings.mem_toList.mpr ⟨role', by rw [Holdings.get_set, if_neg hrole]; exact hr⟩)
    have hother : ∀ role' j, role' ≠ role → σ.1.held.get role' = some j →
        j ∈ (σ.1.held.set role none).toList := fun role' j hne hr =>
      Holdings.mem_toList.mpr ⟨role', by rw [Holdings.get_set, if_neg hne]; exact hr⟩
    refine Ends.modify_bind ?_
    split
    · next hnot =>
      have hnot : i ∉ (σ.1.held.set role none).toList := by simpa using hnot
      refine ⟨rfl, rfl, alike_setPinned hsound i false, ⟨fun j hj => ?_, fun j b hb hp => ?_⟩,
        fun _ hi => hi.setPinned i false, fun role' j b hne hr hb => ?_⟩
      · obtain ⟨b, hb, hfile, hp⟩ := h.held j (hsub j hj)
        have hne : j ≠ i := fun hji => hnot (hji ▸ hj)
        exact ⟨b, (buffer?_setPinned hb).trans (by rw [if_neg hne]), hfile, hp⟩
      · obtain ⟨b', hb', rfl⟩ := setPinned_eq_some hb
        split at hp
        · cases hp
        · next hne => exact (hback j (h.pinned j b' hb' hp)).resolve_left hne
      · have hne : j ≠ i := fun hji => hnot (hji ▸ hother role' j hne hr)
        exact (buffer?_setPinned hb).trans (by rw [if_neg hne])
    · next hin =>
      have hin : i ∈ (σ.1.held.set role none).toList := by simpa using hin
      refine ⟨rfl, rfl, .refl m _, ⟨fun j hj => h.held j (hsub j hj), fun j b hb hp => ?_⟩,
        fun _ hi => hi, fun _ _ _ _ _ hb => hb⟩
      rcases hback j (h.pinned j b hb hp) with rfl | hj
      · exact hin
      · exact hj

/-! ## Loads -/

structure Loaded (m : Mount) (role : Role) (pos : BlockPos) (read : Bool) (σ : Session × Buffered)
    (r : Except Error Unit) (τ : Session × Buffered) : Prop where
  session : ∃ held, τ.1 = { σ.1 with held := held }
  follows : σ.2.Follows τ.2
  safe : σ.2.Safe → τ.2.Safe
  keeps : m.KeepsBut (Mount.unread read pos) σ.2 τ.2
  pins : Pins m τ
  error : ∀ e, r = .error e → m.Intact none none τ.2
  ok : r = .ok () → m.Intact (Mount.unread read pos) none τ.2 ∧
    ∃ i b, τ.1.held.get role = some i ∧ τ.2.cache.buffer? i = some b ∧ b.pos = pos ∧
      (read = true → ∀ x, m.content σ.2 pos = some x → b.image = x)
  others : ∀ role' j b, role' ≠ role → σ.1.held.get role' = some j →
    σ.2.cache.buffer? j = some b → τ.1.held.get role' = some j ∧ τ.2.cache.buffer? j = some b
  reliable : σ.2.Safe → (read = true → m.store.Reliable σ.2.disk ∧
    pos.offset + m.blockSize < Store.offsetBound ∧ (m.content σ.2 pos).isSome) → r = .ok ()

theorem load_ends (hfile : σ.1.file = m.file) (hsize : σ.1.layout.blockSize = m.blockSize)
    (hintact : m.Intact none none σ.2) (hpins : Pins m σ) (hpos : m.Aligned pos) (role : Role)
    (read : Bool) : Ends (load role pos read) σ (Loaded m role pos read σ) := by
  unfold load
  refine Ends.bind (letGo_ends role hpins hintact.sound)
    (fun e τ h => nomatch h.1) ?_
  rintro ⟨⟩ τ ⟨-, hl⟩
  have hτ := hl.intact none hintact
  have hfile' : τ.1.file = m.file := by rw [hl.session]; exact hfile
  have hsize' : τ.1.layout.blockSize = m.blockSize := by rw [hl.session]; exact hsize
  have hspare : τ.2.Spare := hl.pins.spare role
    (by rw [hl.session, Holdings.get_set, if_pos rfl]) hτ.enough
  have hheld : ∀ role' j, role' ≠ role → σ.1.held.get role' = some j →
      τ.1.held.get role' = some j := fun role' j hne hr => by
    rw [hl.session, Holdings.get_set, if_neg hne]
    exact hr
  have hmem : ∀ j ∈ τ.1.held.toList, ∃ role', role' ≠ role ∧ τ.1.held.get role' = some j := by
    intro j hj
    obtain ⟨role', hr⟩ := Holdings.mem_toList.mp hj
    refine ⟨role', ?_, hr⟩
    rintro rfl
    rw [hl.session, Holdings.get_set, if_pos rfl] at hr
    cases hr
  refine Ends.get_bind ?_
  simp only [hfile', hsize']
  refine Ends.bind (onCache_ends (Mount.fetch_ends hτ hpos read)) ?_ ?_
  · rintro e ⟨session, u⟩ ⟨rfl, hf⟩
    refine ⟨⟨_, hl.session⟩, hl.alike.follows.trans hf.follows, fun hs => hf.safe (hl.alike.safe hs),
      fun p x ha hp hx => hf.keeps p x ha hp ((hl.alike.content p).trans hx),
      ⟨fun j hj => ?_, fun j b hb hp => ?_⟩, fun _ _ => (hf.error e rfl).1,
      fun hok => (nomatch hok), fun role' j b hne hr hb => ⟨hheld role' j hne hr, ?_⟩,
      fun hs hr => ?_⟩
    · obtain ⟨b, hb, hbf, hp⟩ := hl.pins.held j hj
      exact ⟨b, hf.pinned j b hb hp, hbf, hp⟩
    · exact hl.pins.pinned j b (hf.pinned_back j b hb hp) hp
    · obtain ⟨b', hb', -, hp⟩ := hpins.held j (Holdings.mem_toList.mpr ⟨role', hr⟩)
      rw [hb] at hb'
      cases hb'
      exact hf.pinned j b (hl.others role' j b hne hr hb) hp
    · obtain ⟨i, hi⟩ := hf.reliable (hl.alike.safe hs) hspare fun hread => by
        obtain ⟨h₁, h₂, h₃⟩ := hr hread
        exact ⟨h₁.follows hl.alike.follows.disk, h₂, by rw [hl.alike.content]; exact h₃⟩
      cases hi
  · rintro i ⟨session, u⟩ ⟨rfl, hf⟩
    obtain ⟨hu, b, hb, hbf, hbp, hread⟩ := hf.ok i rfl
    have halike : Alike m u { u with cache := u.cache.setPinned i true } :=
      alike_setPinned hu.sound i true
    have hset := hu.setPinned i true
    have hself : (u.cache.setPinned i true).buffer? i = some { b with pinned := true } :=
      (buffer?_setPinned hb).trans (by rw [if_pos rfl])
    -- a buffer that another role holds is pinned already
    have hsame : ∀ j b', u.cache.buffer? j = some b' → b'.pinned = true →
        (u.cache.setPinned i true).buffer? j = some b' := by
      intro j b' hb' hp
      rw [buffer?_setPinned hb']
      split
      · rw [← hp]
      · rfl
    refine ⟨⟨_, by rw [hl.session]⟩, (hl.alike.follows.trans hf.follows).trans halike.follows,
      fun hs => halike.safe (hf.safe (hl.alike.safe hs)), fun p x ha hp hx => ?_,
      ⟨fun j hj => ?_, fun j b' hb' hp => ?_⟩, fun _ he => (nomatch he), fun _ => ⟨hset, ?_⟩,
      fun role' j b' hne hr hb' => ⟨?_, ?_⟩, fun _ _ => rfl⟩
    · exact (halike.content p).trans (hf.keeps p x ha hp ((hl.alike.content p).trans hx))
    · obtain ⟨role', hr⟩ := Holdings.mem_toList.mp hj
      rw [Holdings.get_set] at hr
      split at hr
      · cases hr
        exact ⟨_, hself, hbf, rfl⟩
      · obtain ⟨b', hb', hbf', hp⟩ := hl.pins.held j (Holdings.mem_toList.mpr ⟨role', hr⟩)
        exact ⟨b', hsame j b' (hf.pinned j b' hb' hp) hp, hbf', hp⟩
    · refine Holdings.mem_toList.mpr ?_
      obtain ⟨b'', hb'', hb'eq⟩ := setPinned_eq_some hb'
      by_cases hj : j = i
      · exact ⟨role, by rw [Holdings.get_set, if_pos rfl, hj]⟩
      · rw [if_neg hj] at hb'eq
        subst hb'eq
        obtain ⟨role', hne, hr⟩ :=
          hmem j (hl.pins.pinned j b' (hf.pinned_back j b' hb'' hp) hp)
        exact ⟨role', by rw [Holdings.get_set, if_neg hne]; exact hr⟩
    · refine ⟨i, _, by rw [Holdings.get_set, if_pos rfl], hself, hbp, fun hr x hx => ?_⟩
      exact hread hr x ((hl.alike.content pos).trans hx)
    · show ((τ.1.held.set role (some i)).get role') = some j
      rw [Holdings.get_set, if_neg hne]
      exact hheld role' j hne hr
    · obtain ⟨b'', hb'', -, hp⟩ := hpins.held j (Holdings.mem_toList.mpr ⟨role', hr⟩)
      rw [hb'] at hb''
      cases hb''
      exact hsame j b' (hf.pinned j b' (hl.others role' j b' hne hr hb') hp) hp

theorem letGo_beside {file : FileId} {D : BlockPos → Prop} (role : Role) :
    Ends (letGo role) σ fun _ τ => Buffered.Beside file D σ.2 τ.2 := by
  unfold letGo
  refine Ends.get_bind ?_
  dsimp only
  split
  · exact .refl _
  · refine Ends.modify_bind ?_
    split
    · exact Cache.beside_setPinned
    · exact .refl _

/-- A load brings a block of the file, without changes. -/
theorem load_beside {D : BlockPos → Prop} (hfile : σ.1.file = m.file) (hpins : Pins m σ)
    (hsound : σ.2.cache.Sound none) (role : Role) (pos : BlockPos) (read : Bool) :
    Ends (load role pos read) σ fun _ τ => Buffered.Beside m.file D σ.2 τ.2 := by
  unfold load
  refine Ends.bind ((letGo_ends role hpins hsound).and (letGo_beside role)) (fun e τ h => h.2) ?_
  rintro ⟨⟩ τ ⟨⟨-, hl⟩, hτ⟩
  have hfile' : τ.1.file = m.file := by
    rw [hl.session]
    exact hfile
  refine Ends.get_bind ?_
  simp only [hfile']
  refine Ends.bind (onCache_ends (Cache.fetch_beside (D := D) τ.1.layout.blockSize read)) ?_ ?_
  · rintro e υ ⟨-, hυ, -⟩
    exact hτ.trans hυ
  · rintro i υ ⟨-, hυ, -⟩
    exact (hτ.trans hυ).trans Cache.beside_setPinned

/-! ## Changes -/

/-- The session in which the image of a block about to be changed is kept. -/
def remembering (session : Session) (b : Buffer) : Session :=
  if session.undo.any (·.pos == b.pos) then session
  else { session with undo := session.undo ++
    [⟨b.pos, if !b.pos.isNull && session.highWater.offset < b.pos.offset then none
      else some b.image⟩] }

structure Edited (m : Mount) (i : Nat) (b : Buffer) (image : Bytes) (σ τ : Session × Buffered) :
    Prop where
  session : τ.1 = remembering σ.1 b
  intact : m.Intact none none τ.2
  follows : σ.2.Follows τ.2
  safe : σ.2.Safe → m.store.Reliable σ.2.disk →
    b.pos.offset + m.blockSize < Store.offsetBound → τ.2.Safe
  content : ∀ p, m.content τ.2 p = if p = b.pos then some image else m.content σ.2 p
  pins : Pins m τ
  self : τ.2.cache.buffer? i = some { b with image := image, dirty := true }
  others : ∀ j b', j ≠ i → σ.2.cache.buffer? j = some b' → τ.2.cache.buffer? j = some b'

/-- Keeping an image touches the undo list only. -/
theorem remembering_same (session : Session) (b : Buffer) :
    (remembering session b).file = session.file ∧
      (remembering session b).locked = session.locked ∧
      (remembering session b).layout = session.layout ∧
      (remembering session b).pointers = session.pointers ∧
      (remembering session b).pointersChanged = session.pointersChanged ∧
      (remembering session b).held = session.held ∧
      (remembering session b).highWater = session.highWater := by
  unfold remembering
  split <;> exact ⟨rfl, rfl, rfl, rfl, rfl, rfl, rfl⟩

theorem held_remembering (session : Session) (b : Buffer) :
    (remembering session b).held = session.held := (remembering_same session b).2.2.2.2.2.1

theorem Edited.same {image : Bytes} (h : Edited m i b image σ τ) :
    τ.1.file = σ.1.file ∧ τ.1.locked = σ.1.locked ∧ τ.1.layout = σ.1.layout ∧
      τ.1.pointers = σ.1.pointers ∧
    τ.1.pointersChanged = σ.1.pointersChanged ∧ τ.1.held = σ.1.held ∧
    τ.1.highWater = σ.1.highWater := by
  rw [h.session]
  exact remembering_same σ.1 b

theorem edit_ends (hintact : m.Intact fresh none σ.2) (hpins : Pins m σ)
    (hrole : σ.1.held.get role = some i) (hb : σ.2.cache.buffer? i = some b)
    (hfresh : ∀ q, fresh = some q → q = b.pos) {change : Edit}
    (hlen : (change b.image).1.length = m.blockSize) :
    Ends (edit role change) σ fun r τ =>
      r = (change b.image).2 ∧ Edited m i b (change b.image).1 σ τ := by
  have hfile : b.file = m.file := by
    obtain ⟨b', hb', hf, -⟩ := hpins.held i (Holdings.mem_toList.mpr ⟨role, hrole⟩)
    rw [hb] at hb'
    cases hb'
    exact hf
  unfold edit
  refine Ends.bind (P := fun r τ => r = .ok (i, b) ∧ τ = σ) ?_ (fun e τ h => nomatch h.1) ?_
  · unfold holding
    refine Ends.get_bind ?_
    simp only [hrole, hb]
    exact Ends.pure ⟨rfl, rfl⟩
  · rintro ib τ ⟨hib, rfl⟩
    cases hib
    simp only
    refine Ends.bind (P := fun r υ => r = .ok () ∧ υ = (remembering τ.1 b, τ.2)) ?_
      (fun e υ h => nomatch h.1) ?_
    · exact ⟨rfl, rfl⟩
    rintro ⟨⟩ υ ⟨-, rfl⟩
    have hset := hintact.setImage hb hfile hfresh hlen
    refine Ends.bind (P := fun r υ => r = .ok () ∧ υ = (remembering τ.1 b,
      { τ.2 with cache := τ.2.cache.setImage i (change b.image).1 })) ⟨rfl, rfl⟩
      (fun e υ h => nomatch h.1) ?_
    rintro ⟨⟩ υ ⟨-, rfl⟩
    have hself : (τ.2.cache.setImage i (change b.image).1).buffer? i =
        some { b with image := (change b.image).1, dirty := true } := by
      rw [Cache.setImage, Cache.buffer?_modifyBuffer, if_pos rfl, hb]
      rfl
    have hothers : ∀ j b', j ≠ i → τ.2.cache.buffer? j = some b' →
        (τ.2.cache.setImage i (change b.image).1).buffer? j = some b' := by
      intro j b' hj hb'
      rw [Cache.setImage, Cache.buffer?_modifyBuffer, if_neg hj]
      exact hb'
    refine ends_settle ⟨rfl, rfl, hset, Mount.follows_setImage _ _ _, fun hs hrel hlt => ?_,
      Mount.content_setImage hintact.sound hb hfile, ⟨fun j hj => ?_, fun j b' hb' hp => ?_⟩,
      hself, hothers⟩
    · exact Mount.safe_setImage hs hb (hfile ▸ hintact.store) hrel (by rw [hlen]; exact hlt)
    · rw [held_remembering] at hj
      obtain ⟨b', hb', hf, hp⟩ := hpins.held j hj
      by_cases hji : j = i
      · subst hji
        rw [hb] at hb'
        cases hb'
        exact ⟨_, hself, hf, hp⟩
      · exact ⟨b', hothers j b' hji hb', hf, hp⟩
    · rw [held_remembering]
      rcases Mount.setImage_eq_some hb hb' with ⟨rfl, rfl⟩ | ⟨-, hj⟩
      · exact hpins.pinned j b hb hp
      · exact hpins.pinned j b' hj hp

/-- A change is one of the block that the role holds. -/
theorem edit_beside {D : BlockPos → Prop} (hpins : Pins m σ) (hrole : σ.1.held.get role = some i)
    (hb : σ.2.cache.buffer? i = some b) (hD : D b.pos) (change : Edit) :
    Ends (edit role change) σ fun _ τ => Buffered.Beside m.file D σ.2 τ.2 := by
  have hfile : ∀ b', σ.2.cache.buffer? i = some b' → b'.file = m.file ∧ D b'.pos := by
    intro b' hb'
    obtain ⟨b'', hb'', hf, -⟩ := hpins.held i (Holdings.mem_toList.mpr ⟨role, hrole⟩)
    rw [hb'] at hb''
    cases hb''
    rw [hb] at hb'
    cases hb'
    exact ⟨hf, hD⟩
  unfold edit
  refine Ends.bind (P := fun r τ => r = .ok (i, b) ∧ τ = σ) ?_ (fun e τ h => nomatch h.1) ?_
  · unfold holding
    refine Ends.get_bind ?_
    simp only [hrole, hb]
    exact Ends.pure ⟨rfl, rfl⟩
  · rintro ib τ ⟨hib, rfl⟩
    cases hib
    have hset : Buffered.Beside m.file D τ.2
        ⟨τ.2.cache.setImage i (change b.image).1, τ.2.disk⟩ := .setImage hfile
    exact Ends.modify_bind (Ends.modify_bind (ends_settle hset))

/-! ## The end of a call -/

theorem unpin_ends (hintact : m.Intact none none σ.2) (l : List Nat) :
    Ends (l.forM fun i => updateCache (·.setPinned i false)) σ fun r τ =>
      r = .ok () ∧ τ.1 = σ.1 ∧ Alike m σ.2 τ.2 ∧ m.Intact none none τ.2 ∧
        ∀ j b, τ.2.cache.buffer? j = some b →
          b.pinned = false ∨ j ∉ l ∧ σ.2.cache.buffer? j = some b := by
  induction l generalizing σ with
  | nil => exact ⟨rfl, rfl, .refl m _, hintact, fun _ _ hb => .inr ⟨List.not_mem_nil, hb⟩⟩
  | cons i rest ih =>
    show Ends (updateCache (·.setPinned i false) >>= fun _ => rest.forM _) σ _
    refine Ends.bind (P := fun r τ => r = .ok () ∧
      τ = (σ.1, { σ.2 with cache := σ.2.cache.setPinned i false })) ⟨rfl, rfl⟩
      (fun e τ h => nomatch h.1) ?_
    rintro ⟨⟩ τ ⟨-, rfl⟩
    refine (ih (hintact.setPinned i false)).mono ?_
    rintro r τ ⟨hr, hsession, halike, hτ, hback⟩
    refine ⟨hr, hsession, (alike_setPinned hintact.sound i false).trans halike, hτ,
      fun j b hb => ?_⟩
    rcases hback j b hb with hp | ⟨hj, hb⟩
    · exact .inl hp
    · obtain ⟨b', hb', rfl⟩ := setPinned_eq_some hb
      by_cases hji : j = i
      · exact .inl (by rw [if_pos hji])
      · rw [if_neg hji]
        exact .inr ⟨fun hmem => (List.mem_cons.mp hmem).elim hji hj, hb'⟩

/-- A cache of which no buffer is pinned. -/
def Unpinned (s : Buffered) : Prop := ∀ i b, s.cache.buffer? i = some b → b.pinned = false

theorem Unpinned.spare {s : Buffered} (h : Unpinned s) (henough : minBuffers ≤ s.cache.capacity) :
    s.Spare :=
  ⟨0, Nat.lt_of_lt_of_le (by decide) henough, fun b hb => h 0 b hb⟩

/-- All buffers of the roles are unpinned, and nothing is pinned then. -/
theorem letGoAll_ends (hintact : m.Intact none none σ.2) (hpins : Pins m σ) :
    Ends letGoAll σ fun r τ => r = .ok () ∧ τ.1 = { σ.1 with held := {} } ∧
      Alike m σ.2 τ.2 ∧ m.Intact none none τ.2 ∧ Unpinned τ.2 := by
  unfold letGoAll
  refine Ends.get_bind (Ends.bind (unpin_ends hintact σ.1.held.toList)
    (fun e τ h => nomatch h.1) ?_)
  rintro ⟨⟩ ⟨session, t⟩ ⟨-, rfl, halike, ht, hback⟩
  refine ⟨rfl, rfl, halike, ht, fun i b hb => ?_⟩
  rcases hback i b hb with hp | ⟨hi, hb⟩
  · exact hp
  · cases hp : b.pinned with
    | false => rfl
    | true => exact absurd (hpins.pinned i b hb hp) hi

theorem letGoAll_beside {D : BlockPos → Prop} :
    Ends letGoAll σ fun _ τ => Buffered.Beside m.file D σ.2 τ.2 := by
  have hunpin : ∀ (l : List Nat) (σ : Session × Buffered),
      Ends (l.forM fun i => updateCache (·.setPinned i false)) σ fun _ τ =>
        Buffered.Beside m.file D σ.2 τ.2 := by
    intro l
    induction l with
    | nil => exact fun σ => .refl _
    | cons i rest ih =>
      intro σ
      show Ends (updateCache (·.setPinned i false) >>= fun _ => rest.forM _) σ _
      exact Ends.modify_bind ((ih _).mono fun r τ h => Cache.beside_setPinned.trans h)
  unfold letGoAll
  exact Ends.get_bind (Ends.bind (hunpin _ σ) (fun e τ h => h) fun _ τ h => h)

/-! ## Memory areas -/

section Loaded

variable {size : Nat} {c : Contents} {refusal : Access → Nat → Option IoCause}

/-- A file of blocks of `size` bytes in a memory area. -/
def memoryMount (size : Nat) : Mount := ⟨1, .ofMemory 0 none, size⟩

/-- A cache that has just taken up a memory area. -/
def loaded (c : Contents) (refusal : Access → Nat → Option IoCause) : Buffered :=
  ⟨((Cache.new 4).register (.ofMemory 0 none)).2,
    { volumes := #[{ contents := c, refusal := refusal }] }⟩

theorem buffer?_loaded (i : Nat) : (loaded c refusal).cache.buffer? i = none := Cache.buffer?_new 4 i

theorem intact_loaded (hpos : 0 < size) (hsize : size ≤ c.size) :
    (memoryMount size).Intact none none (loaded c refusal) := by
  refine Mount.intact_register (s := ⟨Cache.new 4, (loaded c refusal).disk⟩) (Cache.sound_new 4)
    (Cache.minBuffers_le_capacity_new 4) ?_ hpos Nat.one_pos hsize ?_
  all_goals simp [Cache.buffer?_new]

theorem unpinned_loaded : Unpinned (loaded c refusal) := by
  intro i b hb
  rw [buffer?_loaded] at hb
  cases hb

theorem content_loaded (hpos : 0 < size) (hsize : size ≤ c.size) (pos : BlockPos) :
    (memoryMount size).content (loaded c refusal) pos =
      (memoryMount size).stored (loaded c refusal).disk pos :=
  Mount.content_of_absent (intact_loaded hpos hsize).sound fun i b hb => by
    rw [buffer?_loaded] at hb
    cases hb

end Loaded

/-- A memory area of one block of zeros. -/
def smallBuffered (size : Nat) : Buffered := loaded { size := size } fun _ _ => none

end Session

end PagedIndex
