import PagedIndex.Proofs.Session.Locking
import PagedIndex.Proofs.Session.Shown

/-!
# Pinned buffers

A session pins the buffers of its roles and no others, and takes them all away from its roles before
it ends. So a call leaves nothing pinned, whatever the blocks of its file hold and whatever is
refused.

## Main definitions

* `Buffered.PinsNothing` — nothing is pinned but what was pinned before.
* `Session.HoldsPinned` — a session whose roles hold all that is pinned.

## Main statements

* `Cache.parts_pinsNothing` — the work of a cache pins nothing.
* `Session.transact_unpinned` — a whole call.
-/

namespace PagedIndex

/-- Nothing is pinned but what was pinned before. -/
def Buffered.PinsNothing (s t : Buffered) : Prop :=
  ∀ i b, t.cache.buffer? i = some b → b.pinned = true →
    ∃ b', s.cache.buffer? i = some b' ∧ b'.pinned = true

theorem Buffered.PinsNothing.refl (s : Buffered) : s.PinsNothing s := fun _ b hb hp => ⟨b, hb, hp⟩

theorem Buffered.PinsNothing.trans {s t u : Buffered} (h : s.PinsNothing t) (h' : t.PinsNothing u) :
    s.PinsNothing u := by
  intro i b hb hp
  obtain ⟨b', hb', hp'⟩ := h' i b hb hp
  exact h i b' hb' hp'

theorem Session.Unpinned.pinsNothing {s t : Buffered} (h : Unpinned s) (ht : s.PinsNothing t) :
    Unpinned t := by
  intro i b hb
  cases hp : b.pinned with
  | false => rfl
  | true =>
    obtain ⟨b', hb', hp'⟩ := ht i b hb hp
    exact absurd hp' (by rw [h i b' hb']; decide)

/-! ## The work of a cache -/

namespace Cache

variable {α : Type}

def pinsNothing : Guarantee Error Buffered where
  Holds _ := True
  Leads := Buffered.PinsNothing
  Fails _ := True
  refl _ := .refl _
  trans := .trans
  keeps _ _ := trivial

theorem onDisk_pinsNothing (x : DiskM α) : pinsNothing.Covers (onDisk x) := fun _ _ =>
  (onDisk_ends ends_ending).mono fun _ _ ⟨hcache, _⟩ =>
    ⟨fun _ _ => trivial, fun _ b hb hp => ⟨b, hcache ▸ hb, hp⟩, fun _ _ => trivial⟩

theorem update_pinsNothing {f : Cache → Cache} (hf : ∀ c i b, (f c).buffer? i = some b →
    b.pinned = true → ∃ b', c.buffer? i = some b' ∧ b'.pinned = true) :
    pinsNothing.Covers (update f) := update_covers fun s _ => hf s.cache

/-- Changes that are none to the buffers. -/
theorem update_pinsNothing_of_eq {f : Cache → Cache} (hf : ∀ c i, (f c).buffer? i = c.buffer? i) :
    pinsNothing.Covers (update f) :=
  update_pinsNothing fun c i b hb hp => ⟨b, (hf c i).symm.trans hb, hp⟩

/-- Changes to what a buffer holds. -/
theorem pinned_of_modifyBuffer {c : Cache} {i j : Nat} {b : Buffer} {f : Buffer → Buffer}
    (hf : ∀ b, (f b).pinned = b.pinned) (hb : (c.modifyBuffer i f).buffer? j = some b)
    (hp : b.pinned = true) : ∃ b', c.buffer? j = some b' ∧ b'.pinned = true := by
  rw [buffer?_modifyBuffer] at hb
  split at hb
  · next hj =>
    obtain ⟨b', hb', rfl⟩ := Option.map_eq_some_iff.mp hb
    exact ⟨b', hj ▸ hb', (hf b').symm.trans hp⟩
  · exact ⟨b, hb, hp⟩

theorem pinned_of_unhook {c : Cache} {i j : Nat} {b : Buffer}
    (hb : (c.unhook i).buffer? j = some b) (hp : b.pinned = true) :
    ∃ b', c.buffer? j = some b' ∧ b'.pinned = true := by
  rw [buffer?_unhook] at hb
  split at hb
  · cases hb
  · exact ⟨b, hb, hp⟩

theorem setImage_pinsNothing (i : Nat) (image : Bytes) :
    pinsNothing.Covers (update (·.setImage i image)) :=
  update_pinsNothing fun _ _ _ => pinned_of_modifyBuffer fun _ => rfl

/-- A buffer may be unpinned. -/
theorem setPinned_pinsNothing (i : Nat) : pinsNothing.Covers (update (·.setPinned i false)) := by
  refine update_pinsNothing fun c j b hb hp => ?_
  rw [setPinned, buffer?_modifyBuffer] at hb
  split at hb
  · obtain ⟨b', -, rfl⟩ := Option.map_eq_some_iff.mp hb
    cases hp
  · exact ⟨b, hb, hp⟩

theorem forget_pinsNothing (file : FileId) (pos : BlockPos) :
    pinsNothing.Covers (update (·.forget file pos)) := by
  refine update_pinsNothing fun c i b hb hp => ?_
  unfold forget at hb
  split at hb
  · exact pinned_of_unhook hb hp
  · exact ⟨b, hb, hp⟩

theorem hook_pinsNothing (i : Nat) {b : Buffer} (hb : b.pinned = false) :
    pinsNothing.Covers (update (·.hook i b)) := by
  refine update_pinsNothing fun c j b' hb' hp => ?_
  rcases buffer?_hook_cases hb' with ⟨-, rfl⟩ | ⟨-, hold⟩
  · rw [hb] at hp
    cases hp
  · exact ⟨b', hold, hp⟩

theorem change_pinsNothing {f : Cache → Cache} (hf : Change f) : pinsNothing.Covers (update f) := by
  cases hf with
  | takeFree rest => exact update_pinsNothing_of_eq fun _ _ => rfl
  | evict i => exact update_pinsNothing fun _ _ _ hb => pinned_of_unhook hb
  | discard i => exact update_pinsNothing fun _ _ _ => pinned_of_unhook

theorem lookup_pinsNothing {f : Cache → Cache} (hf : Lookup f) : pinsNothing.Covers (update f) := by
  cases hf <;> exact update_pinsNothing_of_eq fun _ _ => rfl

theorem parts_pinsNothing : LoadParts pinsNothing where
  unknown := trivial
  fault _ := trivial
  writeBack := covers_writeBack (fun _ => trivial) (fun _ _ _ => onDisk_pinsNothing _) fun _ =>
    update_pinsNothing fun _ _ _ => pinned_of_modifyBuffer (f := fun b => { b with dirty := false })
      fun _ => rfl
  change := change_pinsNothing
  readImage _ _ _ := onDisk_pinsNothing _
  giveBack _ := update_pinsNothing_of_eq fun _ _ => rfl
  hook := hook_pinsNothing

theorem fetch_pinsNothing (file : FileId) (pos : BlockPos) (blockSize : Nat) (read : Bool) :
    pinsNothing.Covers (fetch file pos blockSize read) :=
  parts_pinsNothing.fetch lookup_pinsNothing file pos blockSize read

theorem restore_pinsNothing (file : FileId) (pos : BlockPos) (image : Bytes) :
    pinsNothing.Covers (restore file pos image) :=
  parts_pinsNothing.restore lookup_pinsNothing setImage_pinsNothing
    (fun _ _ _ => onDisk_pinsNothing _) file pos image

theorem takePending_pinsNothing (file : FileId) : pinsNothing.Covers (takePending file) :=
  covers_takePending (update_pinsNothing_of_eq fun _ _ => rfl)

end Cache

/-! ## The work of a session -/

namespace Session

variable {α : Type} {σ τ : Session × Buffered} {role : Role} {s : Buffered}

/-- The roles of a session hold all that is pinned. -/
def HoldsPinned (σ : Session × Buffered) : Prop :=
  ∀ i b, σ.2.cache.buffer? i = some b → b.pinned = true → i ∈ σ.1.held.toList

/-- Nothing stays pinned but what the roles hold. -/
def holdsPinned : Guarantee Error (Session × Buffered) := .ofInvariant HoldsPinned fun _ => True

theorem Unpinned.holdsPinned (h : Unpinned s) (session : Session) : HoldsPinned (session, s) := by
  intro i b hb hp
  rw [h i b hb] at hp
  cases hp

theorem HoldsPinned.pinsNothing {new : Session} (h : HoldsPinned σ) (ht : σ.2.PinsNothing s)
    (hheld : new.held = σ.1.held) : HoldsPinned (new, s) := by
  intro i b hb hp
  obtain ⟨b', hb', hp'⟩ := ht i b hb hp
  rw [hheld]
  exact h i b' hb' hp'

theorem onCache_holdsPinned {x : CacheM α} (hx : Cache.pinsNothing.Covers x) :
    holdsPinned.Covers (onCache x) := fun _ hσ =>
  (onCache_ends (hx.leads trivial)).mono fun _ _ ⟨hsame, hpins⟩ =>
    ⟨fun _ _ => trivial, hσ.pinsNothing hpins (congrArg Session.held hsame), fun _ _ => trivial⟩

theorem update_holdsPinned {f : Session → Session} (hf : ∀ s, (f s).held = s.held) :
    holdsPinned.Covers (update f) := .modify fun σ hσ => hσ.pinsNothing (.refl σ.2) (hf σ.1)

/-- A role that lets go of its buffer unpins it, unless another role holds it too. -/
theorem letGo_holdsPinned (role : Role) : holdsPinned.Covers (letGo role) := by
  intro σ h
  unfold letGo
  refine Ends.get_bind ?_
  dsimp only
  split
  · exact Ends.pure (.ok h trivial)
  · next i hi =>
    have hkept : ∀ j ∈ σ.1.held.toList, j ≠ i → j ∈ (σ.1.held.set role none).toList := by
      intro j hj hne
      obtain ⟨role', hj⟩ := Holdings.mem_toList.mp hj
      refine Holdings.mem_toList.mpr ⟨role', ?_⟩
      rw [Holdings.get_set, if_neg]
      · exact hj
      · rintro rfl
        exact hne (Option.some.inj (hj.symm.trans hi))
    refine Ends.modify_bind ?_
    split
    · refine .ok (fun j b hb hp => ?_) trivial
      obtain ⟨b', hb', rfl⟩ := setPinned_eq_some hb
      by_cases hji : j = i
      · rw [if_pos hji] at hp
        cases hp
      · rw [if_neg hji] at hp
        exact hkept j (h j b' hb' hp) hji
    · next hheld =>
      refine Ends.pure (.ok (fun j b hb hp => ?_) trivial)
      by_cases hji : j = i
      · rw [hji]
        simpa using hheld
      · exact hkept j (h j b hb hp) hji

theorem load_holdsPinned (role : Role) (pos : BlockPos) (read : Bool) :
    holdsPinned.Covers (load role pos read) := by
  intro σ h
  unfold load
  refine Ends.bind ((letGo_holdsPinned role σ h).and (letGo_held role)) (fun e τ h => nomatch h.2.1) ?_
  rintro ⟨⟩ τ ⟨⟨-, hτ, -⟩, -, hheld⟩
  refine Ends.get_bind (Ends.bind (onCache_ends ((Cache.fetch_pinsNothing _ _ _ _).leads trivial))
    ?_ ?_)
  · rintro e υ ⟨hsame, hpins⟩
    exact .error (hτ.pinsNothing hpins (congrArg Session.held hsame)) trivial
  · rintro i υ ⟨hsame, hpins⟩
    refine .ok (fun j b hb hp => ?_) trivial
    have hυ : HoldsPinned υ := hτ.pinsNothing hpins (congrArg Session.held hsame)
    show j ∈ (υ.1.held.set role (some i)).toList
    refine Holdings.mem_toList.mpr ?_
    obtain ⟨b', hb', rfl⟩ := setPinned_eq_some hb
    by_cases hji : j = i
    · exact ⟨role, by rw [Holdings.get_set, if_pos rfl, hji]⟩
    · rw [if_neg hji] at hp
      obtain ⟨role', hj⟩ := Holdings.mem_toList.mp (hυ j b' hb' hp)
      refine ⟨role', ?_⟩
      rw [Holdings.get_set, if_neg, hj]
      -- the role has no buffer after it let go of the old one
      rintro rfl
      rw [hsame, hheld, Holdings.get_set, if_pos rfl] at hj
      cases hj

/-- What all roles let go of is unpinned. -/
theorem letGoAll_unpinned : Ends letGoAll σ fun r τ => r = .ok () ∧ τ.1 = { σ.1 with held := {} } ∧
    (HoldsPinned σ → Unpinned τ.2) := by
  have hunpin : ∀ (l : List Nat) (σ : Session × Buffered),
      Ends (l.forM fun i => updateCache (·.setPinned i false)) σ fun r τ =>
        r = .ok () ∧ τ.1 = σ.1 ∧ ∀ j b, τ.2.cache.buffer? j = some b → b.pinned = true →
          j ∉ l ∧ ∃ b', σ.2.cache.buffer? j = some b' ∧ b'.pinned = true := by
    intro l
    induction l with
    | nil => exact fun σ => ⟨rfl, rfl, fun j b hb hp => ⟨List.not_mem_nil, b, hb, hp⟩⟩
    | cons i rest ih =>
      intro σ
      show Ends (updateCache (·.setPinned i false) >>= fun _ => rest.forM _) σ _
      refine Ends.modify_bind ((ih _).mono ?_)
      rintro r τ ⟨hr, hsame, hback⟩
      refine ⟨hr, hsame, fun j b hb hp => ?_⟩
      obtain ⟨hj, b', hb', hp'⟩ := hback j b hb hp
      obtain ⟨b'', hb'', rfl⟩ := setPinned_eq_some hb'
      by_cases hji : j = i
      · rw [if_pos hji] at hp'
        cases hp'
      · rw [if_neg hji] at hp'
        exact ⟨fun hmem => (List.mem_cons.mp hmem).elim hji hj, b'', hb'', hp'⟩
  unfold letGoAll
  refine Ends.get_bind (Ends.bind (hunpin _ σ) (fun e τ h => nomatch h.1) ?_)
  rintro ⟨⟩ τ ⟨-, hsame, hback⟩
  refine ⟨rfl, by rw [← hsame], fun h i b hb => ?_⟩
  cases hp : b.pinned with
  | false => rfl
  | true =>
    obtain ⟨hi, b', hb', hp'⟩ := hback i b hb hp
    exact absurd (h i b' hb' hp') hi

theorem parts_holdsPinned : Parts holdsPinned where
  fault _ := trivial
  note hf := update_holdsPinned hf.held
  setImage _ _ := onCache_holdsPinned (Cache.setImage_pinsNothing _ _)
  letGoAll _ h := letGoAll_unpinned.mono fun _ _ ⟨_, _, hτ⟩ =>
    ⟨fun _ _ => trivial, (hτ h).holdsPinned _, fun _ _ => trivial⟩
  release _ := onCache_holdsPinned (Cache.parts_pinsNothing.release _ _)

/-! ## The phases of a call -/

/-- A session that does not pin. -/
theorem parts_pinsNothing : Parts (Cache.pinsNothing.comap Prod.snd) :=
  .ofCache (fun _ => trivial) Cache.setPinned_pinsNothing Cache.setImage_pinsNothing
    fun _ => Cache.parts_pinsNothing.release _ _

theorem undoOne_pinsNothing (file : FileId) (u : Undo) :
    (Cache.pinsNothing.comap Prod.snd).Covers (undoOne file u) :=
  covers_undoOne (fun _ _ => onCache_meets (Cache.forget_pinsNothing _ _))
    (fun _ _ _ => onCache_meets (Cache.restore_pinsNothing _ _ _))
    (fun _ _ _ => onCache_meets (Cache.update_pinsNothing_of_eq fun _ _ => rfl)) file u

theorem unlock_pinsNothing (store : Store) :
    (Cache.pinsNothing.comap Prod.snd).Covers (unlock store) :=
  covers_unlock (update_covers _) (onCache_meets (Cache.onDisk_pinsNothing _))

/-- A call that is completed leaves nothing pinned. -/
theorem complete_unpinned (mode : EndMode) (h : HoldsPinned σ) : Ends (complete mode) σ fun r τ =>
    HoldsPinned τ ∧ (r = .ok () → Unpinned τ.2) := by
  have hend : ∀ {υ : Session × Buffered}, HoldsPinned υ → Ends (do
      letGoAll
      if mode = .flush then onCache (Cache.release σ.1.file .flush)
      update fun s => { s with undo := [] }) υ fun r τ =>
        HoldsPinned τ ∧ (r = .ok () → Unpinned τ.2) := by
    intro υ hυ
    refine Ends.bind letGoAll_unpinned (fun e τ h => nomatch h.1) ?_
    rintro ⟨⟩ τ ⟨-, -, hτ⟩
    refine ((Guarantee.Meets.ite_bind (parts_pinsNothing.release _)
      (parts_pinsNothing.note {})).leads trivial).mono fun _ φ hφ => ?_
    have hunpinned := (hτ hυ).pinsNothing hφ
    exact ⟨hunpinned.holdsPinned _, fun _ => hunpinned⟩
  unfold complete
  refine Ends.get_bind ?_
  dsimp only
  split
  · refine Ends.bind ((parts_holdsPinned.edit .header _ fun _ _ _ => trivial) σ h)
      (fun e τ hτ => ⟨hτ.2.1, nofun⟩) fun _ τ hτ => ?_
    exact Ends.modify_bind (hend (hτ.2.1.pinsNothing (.refl τ.2) rfl))
  · exact hend h

/-- A call that is taken back leaves nothing pinned, and its lock is given back. -/
theorem rollBack_unpinned (store : Store) (h : HoldsPinned σ) : Ends rollBack σ fun _ τ =>
    Unpinned τ.2 ∧ Ends (unlock store) τ fun _ υ => Unpinned υ.2 := by
  unfold rollBack
  refine Ends.bind letGoAll_unpinned (fun e τ h => nomatch h.1) ?_
  rintro ⟨⟩ τ ⟨-, -, hτ⟩
  refine Ends.get_bind (((Parts.putBack parts_pinsNothing.note parts_pinsNothing.release
    undoOne_pinsNothing τ.1).leads trivial).mono fun _ υ hυ => ?_)
  have hunpinned := (hτ h).pinsNothing hυ
  exact ⟨hunpinned, ((unlock_pinsNothing store).leads trivial).mono fun _ _ hφ =>
    hunpinned.pinsNothing hφ⟩

theorem body_unpinned (store : Store) (program : Program α) (h : HoldsPinned σ) :
    Ends (body store program) σ fun r τ =>
      HoldsPinned τ ∧ ∀ e, r = .error e → Unpinned τ.2 := by
  have hwork : holdsPinned.Covers (do start; perform program) :=
    (parts_holdsPinned.start load_holdsPinned).bind fun _ _ =>
      parts_holdsPinned.perform load_holdsPinned (fun _ => trivial) program
  refine ends_body (hwork.leads h) (fun _ _ hτ => ⟨hτ, nofun⟩) fun e τ hτ => ?_
  exact (rollBack_unpinned store hτ).mono fun _ _ hυ => hυ.2.mono fun _ _ hφ =>
    ⟨hφ.holdsPinned _, fun _ _ => hφ⟩

theorem finish_unpinned (store : Store) (mode : EndMode) (h : HoldsPinned σ) :
    Ends (finish store mode) σ fun r τ => ∃ ended, r = .ok ended ∧ Unpinned τ.2 := by
  refine ends_finish (complete_unpinned mode h) (fun τ hτ => ?_) fun e τ hτ => ?_
  · exact ((unlock_pinsNothing store).leads trivial).mono fun _ _ hυ => (hτ.2 rfl).pinsNothing hυ
  · exact (rollBack_unpinned store hτ.1).mono fun _ _ hυ => hυ.2

/-- A call leaves nothing pinned. -/
theorem transact_unpinned (file : FileId) (layout : Layout) (locked : Bool) (mode : EndMode)
    (program : Program α) (h : Unpinned s) :
    Ends (transact file layout locked mode program) s fun _ t => Unpinned t := by
  have hcarry : ∀ (store : Store) (session : Session) {t : Buffered}, Unpinned t → Ends (do
      let a ← body store program
      let ended ← finish store mode
      return (a, ended)) (session, t) fun _ τ => Unpinned τ.2 := fun store session t ht =>
    ends_carry (body_unpinned store program (ht.holdsPinned _)) (fun e _ hτ => hτ.2 e rfl)
      fun _ _ hτ => finish_unpinned store mode hτ.1
  have henter : Cache.pinsNothing.Covers (enter file locked) :=
    covers_enter trivial ((Cache.takePending_pinsNothing file).mono fun _ _ _ _ => trivial)
      fun _ => Cache.onDisk_pinsNothing _
  exact ends_transact (henter.leads trivial) (fun _ _ ht => h.pinsNothing ht)
    fun store _ ht => hcarry store _ (h.pinsNothing ht)

end Session

end PagedIndex
