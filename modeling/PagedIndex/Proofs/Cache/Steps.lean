import PagedIndex.Proofs.Cache.Beside
import PagedIndex.Proofs.Cache.Parts
import PagedIndex.Proofs.Disk.History

/-!
# Steps of a cache

All that a cache does for one file is made of a few kinds of steps. What each of them keeps true is
kept true by all work for the file, whatever is refused and whatever its blocks hold.

Work for a file may put images into its blocks that are not read from the store. Which ones, and
which blocks are read, are parameters of the steps.

## Main definitions

* `Cache.Step` — a step of the work for a file.
* `Cache.Steps` — any number of them, with all buffers in their places before and after.

## Main statements

* `Cache.fetch_steps`, `Cache.release_steps`, `Cache.restore_steps` — the work of a cache.
* `Cache.Steps.sound` — a sound cache stays sound.
* `Cache.Steps.buffers` — the blocks of other files stay as they are or are given up, and where the
  images come from that are cached of the file.
-/

namespace PagedIndex

/-- Whether an image was read as a block of a file between two moments. -/
def Mount.Gave (m : Mount) (d d' : Disk) (pos : BlockPos) (image : Bytes) : Prop :=
  ∃ e e', d.Reaches e ∧ Cache.readImage m.store pos m.blockSize e = .ok image e' ∧ e'.Reaches d'

theorem Mount.Gave.mono {m : Mount} {d₀ d d' d₁ : Disk} {pos : BlockPos} {image : Bytes}
    (h : m.Gave d d' pos image) (hfront : d₀.Reaches d) (hback : d'.Reaches d₁) :
    m.Gave d₀ d₁ pos image := by
  obtain ⟨e, e', hbefore, hread, hafter⟩ := h
  exact ⟨e, e', hfront.trans hbefore, hread, hafter.trans hback⟩

/-- Whether a buffer has changes that the store of its file did not take between two moments. -/
def Buffer.Unwritten (b : Buffer) (store : Store) (d d' : Disk) : Prop :=
  b.dirty = true ∧ ∃ e d₀ d₁, d.Reaches d₀ ∧
    store.write b.pos.offset b.image d₀ = .error e d₁ ∧ d₁.Reaches d'

theorem Buffer.Unwritten.mono {b : Buffer} {store : Store} {d₀ d d' d₁ : Disk}
    (h : b.Unwritten store d d') (hfront : d₀.Reaches d) (hback : d'.Reaches d₁) :
    b.Unwritten store d₀ d₁ := by
  obtain ⟨hdirty, e, c, c', hbefore, hwrite, hafter⟩ := h
  exact ⟨hdirty, e, c, c', hfront.trans hbefore, hwrite, hafter.trans hback⟩

namespace Cache

/-- A step of the work for a file. The number is that of a buffer on its way from one block to
another. The blocks that are read are among those in `V`, and the images that are not read among
those in `W`. -/
inductive Step (m : Mount) (V : BlockPos → Prop) (W : BlockPos → Bytes → Prop) :
    Option Nat × Buffered → Option Nat × Buffered → Prop
  | count {out : Option Nat} {s : Buffered} (hits misses evictions writes : Nat) :
      Step m V W (out, s) (out, ⟨{ s.cache with
        hits := hits, misses := misses, evictions := evictions, writes := writes }, s.disk⟩)
  | touch {out : Option Nat} {s : Buffered} {i : Nat} (hi : (s.cache.buffer? i).isSome) :
      Step m V W (out, s) (out, ⟨s.cache.touch i, s.disk⟩)
  /-- What is known of the file beside its store changes. -/
  | note {out : Option Nat} {s : Buffered} {f : Registration → Registration}
      (hf : ∀ r, (f r).store = r.store) :
      Step m V W (out, s) (out, ⟨s.cache.modifyFile m.file f, s.disk⟩)
  | pin {out : Option Nat} {s : Buffered} {i : Nat}
      (hb : ∀ b, s.cache.buffer? i = some b → b.file = m.file) (pinned : Bool) :
      Step m V W (out, s) (out, ⟨s.cache.setPinned i pinned, s.disk⟩)
  /-- A block of the file gets another image. -/
  | edit {out : Option Nat} {s : Buffered} {i : Nat} {image : Bytes}
      (hb : ∀ b, s.cache.buffer? i = some b → b.file = m.file ∧ W b.pos image) :
      Step m V W (out, s) (out, ⟨s.cache.setImage i image, s.disk⟩)
  /-- The store of the file is asked for something. -/
  | ask {out : Option Nat} {s : Buffered} (access : Access) (offset length : Nat) :
      Step m V W (out, s) (out, ⟨s.cache, (ending (m.store.ask access offset length) s.disk).2⟩)
  /-- A block without a buffer is written. -/
  | through {out : Option Nat} {s : Buffered} {offset : Nat} {data : Bytes}
      (himage : W ⟨offset⟩ data) :
      Step m V W (out, s) (out, ⟨s.cache, (ending (m.store.write offset data) s.disk).2⟩)
  /-- The changes of a buffer of any file are not taken. -/
  | refused {out : Option Nat} {s : Buffered} {i : Nat} {b : Buffer} {store : Store} {e : Error}
      {d : Disk} (hb : s.cache.buffer? i = some b) (hstore : s.cache.store? b.file = some store)
      (hwrite : store.write b.pos.offset b.image s.disk = .error e d) :
      Step m V W (out, s) (out, ⟨s.cache, d⟩)
  | takeFree {s : Buffered} {i : Nat} {rest : List Nat} (hfree : s.cache.free = i :: rest) :
      Step m V W (none, s) (some i, ⟨{ s.cache with free := rest }, s.disk⟩)
  /-- A block is given up: one of the file, or one without changes. -/
  | unhook {s : Buffered} {i : Nat} {b : Buffer} (hb : s.cache.buffer? i = some b)
      (hown : b.dirty = true → b.file = m.file) :
      Step m V W (none, s) (some i, ⟨s.cache.unhook i, s.disk⟩)
  /-- A block of any file is given up with its changes written back. -/
  | writeOut {s : Buffered} {i : Nat} {b : Buffer} {store : Store} {d : Disk}
      (hb : s.cache.buffer? i = some b) (hdirty : b.dirty = true)
      (hstore : s.cache.store? b.file = some store)
      (hwrite : store.write b.pos.offset b.image s.disk = .ok () d) :
      Step m V W (none, s) (some i, ⟨(s.cache.clean i).unhook i, d⟩)
  | giveBack {s : Buffered} {i : Nat} : Step m V W (some i, s) (none, ⟨s.cache.giveBack i, s.disk⟩)
  /-- A block is read. -/
  | load {s : Buffered} {i : Nat} {pos : BlockPos} {image : Bytes} {d : Disk}
      (habsent : ∀ j b, s.cache.buffer? j = some b → b.file = m.file → b.pos ≠ pos)
      (hplace : V pos) (hread : readImage m.store pos m.blockSize s.disk = .ok image d) :
      Step m V W (some i, s) (none, ⟨s.cache.hook i ⟨m.file, pos, image, false, false⟩, d⟩)
  /-- A block is taken up that is not read. -/
  | fill {s : Buffered} {i : Nat} {pos : BlockPos} {image : Bytes} {dirty : Bool}
      (habsent : ∀ j b, s.cache.buffer? j = some b → b.file = m.file → b.pos ≠ pos)
      (himage : W pos image) :
      Step m V W (some i, s) (none, ⟨s.cache.hook i ⟨m.file, pos, image, dirty, false⟩, s.disk⟩)

/-- Any number of steps, with a buffer on its way before and after. -/
abbrev Through (m : Mount) (V : BlockPos → Prop) (W : BlockPos → Bytes → Prop) :
    Option Nat × Buffered → Option Nat × Buffered → Prop := Relation.ReflTransGen (Step m V W)

/-- Any number of steps, with all buffers in their places before and after. -/
abbrev Steps (m : Mount) (V : BlockPos → Prop) (W : BlockPos → Bytes → Prop) (s t : Buffered) :
    Prop :=
  Through m V W (none, s) (none, t)

variable {m : Mount} {V V' : BlockPos → Prop} {W W' : BlockPos → Bytes → Prop}
  {out out' : Option Nat} {s t u : Buffered}
  {i : Nat} {pos : BlockPos} {image : Bytes}

theorem buffer?_clean {c : Cache} {j : Nat} : (c.clean i).buffer? j =
    if j = i then (c.buffer? i).map fun b => { b with dirty := false } else c.buffer? j :=
  buffer?_modifyBuffer _

theorem Sound.clean {c : Cache} (h : c.Sound out) (i : Nat) : (c.clean i).Sound out :=
  (h.modifyBuffer (f := fun b => { b with dirty := false }) (fun _ => rfl) fun _ => rfl).count _ _ _ _

/-! ## What steps keep true -/

theorem Step.mono (hV : ∀ p, V p → V' p) (hW : ∀ p x, W p x → W' p x) {σ τ : Option Nat × Buffered}
    (h : Step m V W σ τ) : Step m V' W' σ τ := by
  cases h with
  | count => exact .count _ _ _ _
  | touch hi => exact .touch hi
  | note hf => exact .note hf
  | pin hb pinned => exact .pin hb pinned
  | edit hb => exact .edit fun b h => ⟨(hb b h).1, hW _ _ (hb b h).2⟩
  | ask => exact .ask _ _ _
  | through himage => exact .through (hW _ _ himage)
  | refused hb hstore hwrite => exact .refused hb hstore hwrite
  | takeFree hfree => exact .takeFree hfree
  | unhook hb hown => exact .unhook hb hown
  | writeOut hb hdirty hstore hwrite => exact .writeOut hb hdirty hstore hwrite
  | giveBack => exact .giveBack
  | load habsent hplace hread => exact .load habsent (hV _ hplace) hread
  | fill habsent himage => exact .fill habsent (hW _ _ himage)

theorem Steps.mono (hV : ∀ p, V p → V' p) (hW : ∀ p x, W p x → W' p x) (h : Steps m V W s t) :
    Steps m V' W' s t :=
  Relation.ReflTransGen.mono (fun _ _ => Step.mono hV hW) _ _ h

theorem Step.reaches {σ τ : Option Nat × Buffered} (h : Step m V W σ τ) :
    σ.2.disk.Reaches τ.2.disk := by
  cases h with
  | ask access offset length => exact .single (.ask m.store access offset length)
  | @through _ _ offset data => exact .single (.write m.store offset data)
  | refused hb hstore hwrite => exact (Store.write_reaches _ _ _ _).of_error hwrite
  | writeOut hb hdirty hstore hwrite => exact (Store.write_reaches _ _ _ _).of_ok hwrite
  | load habsent _ hread => exact (readImage_reaches _ _ _ _).of_ok hread
  | _ => exact .refl

theorem Through.reaches {σ τ : Option Nat × Buffered} (h : Through m V W σ τ) :
    σ.2.disk.Reaches τ.2.disk := by
  induction h with
  | refl => exact .refl
  | tail _ hstep ih => exact ih.trans hstep.reaches

/-- The files of a cache are taken up and given up between calls only. -/
theorem Step.registered {σ τ : Option Nat × Buffered} (h : Step m V W σ τ) :
    τ.2.cache.capacity = σ.2.cache.capacity ∧
      (∀ f, τ.2.cache.store? f = σ.2.cache.store? f) ∧
      ∀ f, f ≠ m.file → τ.2.cache.registration? f = σ.2.cache.registration? f := by
  have hunhook : ∀ (c : Cache) (i : Nat), (c.unhook i).capacity = c.capacity ∧
      (∀ f, (c.unhook i).store? f = c.store? f) ∧
      ∀ f, f ≠ m.file → (c.unhook i).registration? f = c.registration? f := fun c i =>
    ⟨capacity_unhook, fun _ => congrArg (Option.map _) registration?_unhook,
      fun _ _ => registration?_unhook⟩
  cases h with
  | @note out s f hf =>
    refine ⟨rfl, fun g => ?_, fun g hg => ?_⟩
    · exact (Buffered.Beside.modifyFile (D := fun _ => False) hf).store g
    · exact (registration?_modifyFile f).trans (if_neg hg)
  | pin | edit => exact ⟨capacity_modifyBuffer _, fun _ => rfl, fun _ _ => rfl⟩
  | unhook => exact hunhook _ _
  | @writeOut s i =>
    obtain ⟨hcapacity, hstore, hregistration⟩ := hunhook (s.cache.clean i) i
    exact ⟨hcapacity.trans (capacity_modifyBuffer _), hstore, hregistration⟩
  | load | fill => exact ⟨capacity_hook, fun _ => rfl, fun _ _ => rfl⟩
  | _ => exact ⟨rfl, fun _ => rfl, fun _ _ => rfl⟩

theorem Steps.registered (h : Steps m V W s t) :
    t.cache.capacity = s.cache.capacity ∧
      (∀ f, t.cache.store? f = s.cache.store? f) ∧
      ∀ f, f ≠ m.file → t.cache.registration? f = s.cache.registration? f := by
  have hall : ∀ τ, Through m V W (none, s) τ → τ.2.cache.capacity = s.cache.capacity ∧
      (∀ f, τ.2.cache.store? f = s.cache.store? f) ∧
      ∀ f, f ≠ m.file → τ.2.cache.registration? f = s.cache.registration? f := by
    intro τ hτ
    induction hτ with
    | refl => exact ⟨rfl, fun _ => rfl, fun _ _ => rfl⟩
    | tail _ hstep ih =>
      obtain ⟨hcapacity, hstore, hregistration⟩ := ih
      obtain ⟨hcapacity', hstore', hregistration'⟩ := hstep.registered
      exact ⟨hcapacity'.trans hcapacity,
        fun f => (hstore' f).trans (hstore f),
        fun f hf => (hregistration' f hf).trans (hregistration f hf)⟩
  exact hall _ h

theorem Steps.store (h : Steps m V W s t) (f : FileId) : t.cache.store? f = s.cache.store? f :=
  h.registered.2.1 f

theorem isSome_registration? {c : Cache} {f : FileId} {store : Store} (h : c.store? f = some store) :
    (c.registration? f).isSome := by
  unfold store? at h
  cases hr : c.registration? f with
  | none => simp [hr] at h
  | some r => rfl

/-- A sound cache stays sound. -/
theorem Step.sound {σ τ : Option Nat × Buffered} (h : Step m V W σ τ)
    (hsound : σ.2.cache.Sound σ.1) (hstore : σ.2.cache.store? m.file = some m.store) :
    τ.2.cache.Sound τ.1 := by
  cases h with
  | count => exact hsound.count _ _ _ _
  | touch hi => exact hsound.touch hi
  | note hf => exact hsound.modifyFile _
  | pin hb pinned => exact hsound.setPinned pinned
  | edit hb => exact hsound.setImage _
  | ask | through | refused => exact hsound
  | takeFree hfree => exact hsound.takeFree hfree
  | unhook hb => exact hsound.unhook (by rw [hb]; rfl)
  | @writeOut s i b store d hb =>
    refine (hsound.clean i).unhook ?_
    rw [buffer?_clean, if_pos rfl, hb]
    rfl
  | giveBack => exact hsound.giveBack
  | load habsent | fill habsent => exact hsound.hook habsent (isSome_registration? hstore)

theorem Through.sound {σ τ : Option Nat × Buffered} (h : Through m V W σ τ)
    (hsound : σ.2.cache.Sound σ.1) (hstore : σ.2.cache.store? m.file = some m.store) :
    τ.2.cache.Sound τ.1 := by
  have hboth : τ.2.cache.Sound τ.1 ∧ τ.2.cache.store? m.file = some m.store := by
    induction h with
    | refl => exact ⟨hsound, hstore⟩
    | tail _ hstep ih =>
      exact ⟨hstep.sound ih.1 ih.2, (hstep.registered.2.1 _).trans ih.2⟩
  exact hboth.1

theorem Steps.sound (h : Steps m V W s t) (hsound : s.cache.Sound none)
    (hstore : s.cache.store? m.file = some m.store) : t.cache.Sound none :=
  Through.sound h hsound hstore

/-- What a buffer holds after a step it held before, but for a block of the file that has come in or
has changed. -/
theorem Step.buffers {σ τ : Option Nat × Buffered} (h : Step m V W σ τ) {j : Nat} {b : Buffer}
    (hb : τ.2.cache.buffer? j = some b) :
    σ.2.cache.buffer? j = some b ∨
      b.file = m.file ∧ ((∃ b', σ.2.cache.buffer? j = some b' ∧ b'.file = m.file ∧
        b'.pos = b.pos ∧ b'.image = b.image) ∨
        W b.pos b.image ∨ m.Gave σ.2.disk τ.2.disk b.pos b.image) := by
  cases h with
  | count | touch | note | ask | through | refused | takeFree | giveBack => exact .inl hb
  | pin hown pinned =>
    have hb := (buffer?_modifyBuffer _).symm.trans hb
    split at hb
    · next hj =>
      obtain ⟨b', hb', rfl⟩ := Option.map_eq_some_iff.mp hb
      exact .inr ⟨hown b' hb', .inl ⟨b', hj ▸ hb', hown b' hb', rfl, rfl⟩⟩
    · exact .inl hb
  | edit hown =>
    have hb := (buffer?_modifyBuffer _).symm.trans hb
    split at hb
    · obtain ⟨b', hb', rfl⟩ := Option.map_eq_some_iff.mp hb
      exact .inr ⟨(hown b' hb').1, .inr (.inl (hown b' hb').2)⟩
    · exact .inl hb
  | @unhook s i => exact .inl (Mount.buffer?_unhook_eq_some (s := s) hb).2
  | @writeOut s i b₀ store d =>
    obtain ⟨hj, hb⟩ := Mount.buffer?_unhook_eq_some (s := ⟨s.cache.clean i, d⟩) hb
    rw [buffer?_clean, if_neg hj] at hb
    exact .inl hb
  | @load s i pos image d habsent _ hread =>
    rcases buffer?_hook_cases hb with ⟨-, rfl⟩ | ⟨-, hb⟩
    · exact .inr ⟨rfl, .inr (.inr ⟨s.disk, d, .refl, hread, .refl⟩)⟩
    · exact .inl hb
  | fill habsent himage =>
    rcases buffer?_hook_cases hb with ⟨-, rfl⟩ | ⟨-, hb⟩
    · exact .inr ⟨rfl, .inr (.inl himage)⟩
    · exact .inl hb

/-- The blocks of other files stay as they are or are given up, and what is cached of the file was
cached before, or was read in between, or is none of these and is among the images in `W`. -/
theorem Steps.buffers (h : Steps m V W s t) {j : Nat} {b : Buffer} (hb : t.cache.buffer? j = some b) :
    s.cache.buffer? j = some b ∨
      b.file = m.file ∧ ((∃ i b', s.cache.buffer? i = some b' ∧ b'.file = m.file ∧
        b'.pos = b.pos ∧ b'.image = b.image) ∨
        W b.pos b.image ∨ m.Gave s.disk t.disk b.pos b.image) := by
  have hall : ∀ τ, Through m V W (none, s) τ → ∀ j b, τ.2.cache.buffer? j = some b →
      s.cache.buffer? j = some b ∨
        b.file = m.file ∧ ((∃ i b', s.cache.buffer? i = some b' ∧ b'.file = m.file ∧
          b'.pos = b.pos ∧ b'.image = b.image) ∨
          W b.pos b.image ∨ m.Gave s.disk τ.2.disk b.pos b.image) := by
    intro τ hτ
    induction hτ with
    | refl => exact fun j b hb => .inl hb
    | @tail σ τ hσ hstep ih =>
      intro j b hb
      have hσ : s.disk.Reaches σ.2.disk := Through.reaches hσ
      rcases hstep.buffers hb with hb | ⟨hown, ⟨b', hb', hown', hpos, himage⟩ | hW | hgave⟩
      · rcases ih j b hb with hb | ⟨hown, hcached | hW | hgave⟩
        · exact .inl hb
        · exact .inr ⟨hown, .inl hcached⟩
        · exact .inr ⟨hown, .inr (.inl hW)⟩
        · exact .inr ⟨hown, .inr (.inr (hgave.mono .refl hstep.reaches))⟩
      · refine .inr ⟨hown, ?_⟩
        rcases ih j b' hb' with hb' | ⟨-, ⟨i, b'', hb'', hown'', hpos', himage'⟩ | hW | hgave⟩
        · exact .inl ⟨j, b', hb', hown', hpos, himage⟩
        · exact .inl ⟨i, b'', hb'', hown'', hpos'.trans hpos, himage'.trans himage⟩
        · exact .inr (.inl (by rwa [← hpos, ← himage]))
        · exact .inr (.inr (by rw [← hpos, ← himage]; exact hgave.mono .refl hstep.reaches))
      · exact .inr ⟨hown, .inr (.inl hW)⟩
      · exact .inr ⟨hown, .inr (.inr (hgave.mono hσ .refl))⟩
  exact hall _ h j b hb

/-! ## The work of a cache -/

theorem through_ask (access : Access) (offset length : Nat) :
    Ends (onDisk (m.store.ask access offset length)) s fun _ t =>
      Through m V W (out, s) (out, t) := by
  refine (onDisk_ends ends_ending).mono ?_
  rintro r ⟨c, d⟩ ⟨hc, -, hd⟩
  cases hc
  cases hd
  exact .single (.ask access offset length)

theorem takePending_steps : Ends (takePending m.file) s fun _ t => Steps m V W s t :=
  (takePending_ends _).mono fun _ _ ⟨_, ht⟩ => ht ▸ .single (.note fun _ => rfl)

/-- Changes are written back if there are any, or are refused. -/
theorem writeBack_cases (hsound : s.cache.Sound out) (i : Nat) :
    Ends (writeBack i) s fun r t =>
      (r = .ok () ∧ t = s ∧ ∀ b, s.cache.buffer? i = some b → b.dirty = false) ∨
      ∃ b store, s.cache.buffer? i = some b ∧ b.dirty = true ∧
        s.cache.store? b.file = some store ∧
        ((r = .ok () ∧ t.cache = s.cache.clean i ∧
          store.write b.pos.offset b.image s.disk = .ok () t.disk) ∨
        ∃ e, r = .error e ∧ t.cache = s.cache ∧
          store.write b.pos.offset b.image s.disk = .error e t.disk) := by
  unfold writeBack
  refine Ends.get_bind ?_
  split
  · next hnone => exact Ends.pure (.inl ⟨rfl, rfl, fun b hb => by rw [hnone] at hb; cases hb⟩)
  · next b hb =>
    split
    · next hd =>
      refine Ends.get_bind ?_
      obtain ⟨r, hr⟩ := Option.isSome_iff_exists.mp (hsound.registered i b hb)
      have hstore : s.cache.store? b.file = some r.store := by
        unfold store?
        rw [hr]
        rfl
      simp only [hr]
      refine Ends.bind (onDisk_ends (P := fun o d => ending (r.store.write b.pos.offset b.image)
        s.disk = (o, d)) (ends_ending.mono fun _ _ h => by rw [h.1, h.2])) ?_ ?_
      · rintro e ⟨c, d⟩ ⟨hc, hwrite⟩
        refine .inr ⟨b, r.store, hb, hd, hstore, .inr ⟨e, rfl, hc, ?_⟩⟩
        exact eq_error_of_ending hwrite
      · rintro ⟨⟩ ⟨c, d⟩ ⟨hc, hwrite⟩
        cases hc
        exact update_ends (.inr ⟨b, r.store, hb, hd, hstore,
          .inl ⟨rfl, rfl, eq_ok_of_ending hwrite⟩⟩)
    · next hd =>
      refine Ends.pure (.inl ⟨rfl, rfl, fun b' hb' => ?_⟩)
      rw [hb] at hb'
      cases hb'
      exact Bool.not_eq_true _ ▸ hd

/-- A buffer that was taken has given its block up, with the changes written back. -/
theorem evict_steps (hsound : s.cache.Sound none) :
    Ends evict s fun r t =>
      (∀ j b, t.cache.buffer? j = some b → s.cache.buffer? j = some b) ∧
      (∀ i, r = .ok i → Through m V W (none, s) (some i, t)) ∧
      ∀ e, r = .error e → Steps m V W s t := by
  have hcount : ∀ {u : Buffered} {i : Nat},
    Through m V W (none, s) (some i, ⟨u.cache.unhook i, u.disk⟩) →
      Through m V W (none, s) (some i, ⟨{ u.cache.unhook i with
        evictions := u.cache.evictions + 1 }, u.disk⟩) := fun h => h.tail (.count _ _ _ _)
  unfold evict
  refine Ends.get_bind ?_
  split
  · exact Ends.throw ⟨fun _ _ hb => hb, nofun, fun _ _ => .refl⟩
  · next i hi =>
    obtain ⟨b, hb, -⟩ := victim?_eq_some hi
    refine Ends.bind (writeBack_cases hsound i) ?_ ?_
    · rintro e t (⟨he, -⟩ | ⟨b', store, hb', hd, hstore, ⟨he, -⟩ | ⟨e', -, hc, hwrite⟩⟩)
      · cases he
      · cases he
      · refine ⟨fun j b hb => hc ▸ hb, nofun, fun _ _ => .single ?_⟩
        obtain ⟨c, d⟩ := t
        cases hc
        exact .refused hb' hstore hwrite
    · rintro ⟨⟩ t (⟨-, rfl, hclean⟩ | ⟨b', store, hb', hd, hstore, ⟨-, hc, hwrite⟩ | ⟨e', he, -⟩⟩)
      · refine update_bind_ends (Ends.pure ⟨fun j b hb => (Mount.buffer?_unhook_eq_some (s := t) hb).2,
          fun j hj => ?_, nofun⟩)
        cases hj
        exact hcount (.single (.unhook hb fun hd => by rw [hclean b hb] at hd; cases hd))
      · obtain ⟨c, d⟩ := t
        cases hc
        refine update_bind_ends (Ends.pure ⟨fun j b hb => ?_, fun j hj => ?_, nofun⟩)
        · obtain ⟨hj, hb⟩ := Mount.buffer?_unhook_eq_some (s := ⟨s.cache.clean i, d⟩) hb
          rw [buffer?_clean, if_neg hj] at hb
          exact hb
        · cases hj
          exact hcount (.single (.writeOut hb' hd hstore hwrite))
      · cases he

theorem vacate_steps (hsound : s.cache.Sound none) :
    Ends vacate s fun r t =>
      (∀ j b, t.cache.buffer? j = some b → s.cache.buffer? j = some b) ∧
      (∀ i, r = .ok i → Through m V W (none, s) (some i, t)) ∧
      ∀ e, r = .error e → Steps m V W s t := by
  unfold vacate
  refine Ends.get_bind ?_
  split
  · next i rest hfree =>
    refine update_bind_ends (Ends.pure ⟨fun _ _ hb => hb, fun j hj => ?_, nofun⟩)
    cases hj
    exact .single (.takeFree hfree)
  · exact evict_steps hsound

/-- A buffer is taken for a block that no buffer holds. -/
theorem miss_ends {f : Store → Nat → CacheM Nat} {Q : Except Error Nat → Buffered → Prop}
    (hsound : s.cache.Sound none) (hstore : s.cache.store? m.file = some m.store)
    (hnone : s.cache.lookup m.file pos = none)
    (herror : ∀ e t, Steps m V W s t → Q (.error e) t)
    (hok : ∀ i t, Through m V W (none, s) (some i, t) →
      (∀ j b, t.cache.buffer? j = some b → b.file = m.file → b.pos ≠ pos) →
      Ends (f m.store i) t Q) : Ends (do
        update fun c => { c with misses := c.misses + 1 }
        let store ← storeOf m.file
        let i ← vacate
        f store i) s Q := by
  have habsent := hsound.lookup_eq_none_iff.mp hnone
  have hcount : Steps m V W s ⟨{ s.cache with misses := s.cache.misses + 1 }, s.disk⟩ :=
    .single (.count _ _ _ _)
  refine update_bind_ends (Mount.storeOf_bind_ends hstore ?_)
  refine Ends.bind (vacate_steps (hsound.count _ _ _ _))
    (fun e t h => herror e t (hcount.trans (h.2.2 e rfl))) ?_
  rintro i t ⟨hbuffers, htaken, -⟩
  exact hok i t (hcount.trans (htaken i rfl)) fun j b hb => habsent j b (hbuffers j b hb)

/-- A block is loaded. -/
theorem fetch_steps (hsound : s.cache.Sound none) (hstore : s.cache.store? m.file = some m.store)
    {size : Nat} {read : Bool} (hsize : read = true → size = m.blockSize)
    (hplace : read = true → V pos) (hfill : read = false → W pos (List.replicate size filler)) :
    Ends (fetch m.file pos size read) s fun _ t => Steps m V W s t := by
  unfold fetch
  refine Ends.get_bind ?_
  split
  · next i hi =>
    obtain ⟨b, hb, -⟩ := hsound.lookup_eq_some_iff.mp hi
    exact update_bind_ends (Ends.pure
      ((Relation.ReflTransGen.single (.touch (by rw [hb]; rfl))).tail (.count _ _ _ _)))
  · next hnone =>
    refine miss_ends hsound hstore hnone (fun _ _ h => h) fun i t htaken habsent => ?_
    cases read with
    | false =>
      refine Ends.attempt_bind (P := fun r u => r = .ok (List.replicate size filler) ∧ u = t)
        (Ends.pure ⟨rfl, rfl⟩) ?_
      rintro r u ⟨rfl, rfl⟩
      exact update_bind_ends (Ends.pure (htaken.tail (.fill habsent (hfill rfl))))
    | true =>
      rw [hsize rfl]
      refine Ends.attempt_bind (onDisk_ends (P := fun o d => ending (readImage m.store pos
        m.blockSize) t.disk = (o, d)) (ends_ending.mono fun _ _ h => by rw [h.1, h.2])) ?_
      rintro r ⟨c, d⟩ ⟨hc, hread⟩
      cases hc
      cases r with
      | ok image =>
        exact update_bind_ends (Ends.pure
          (htaken.tail (.load habsent (hplace rfl) (eq_ok_of_ending hread))))
      | error e =>
        have hasked : Through m V W (some i, t) (some i, ⟨t.cache, d⟩) := by
          have hd : d = _ := (readImage_asks m.store pos m.blockSize t.disk).of_error
            (eq_error_of_ending hread)
          rw [hd]
          exact .single (.ask .read pos.offset m.blockSize)
        exact update_bind_ends (Ends.throw ((htaken.trans hasked).tail .giveBack))

/-- A block that was taken up without being read, and then got an image, was taken up with it. -/
theorem setImage_hook {c : Cache} {i : Nat} {b : Buffer} {image : Bytes} :
    (c.hook i b).setImage i image = c.hook i { b with image := image, dirty := true } := by
  unfold setImage modifyBuffer hook touch
  dsimp only
  congr 1
  refine Array.ext_getElem? fun j => ?_
  rw [Array.getElem?_modify, Array.getElem?_setIfInBounds, Array.getElem?_setIfInBounds]
  by_cases hj : i = j
  · simp only [hj, if_true]
    split <;> rfl
  · simp only [hj, if_false]

/-- A buffer that is released has given its block up, or its changes were not taken. -/
theorem releaseBuffer_steps (hsound : s.cache.Sound none) {mode : Release} {b : Buffer}
    (hb : s.cache.buffer? i = some b) (hmode : mode = .discard → b.file = m.file) :
    Ends (releaseBuffer mode i) s fun r t => Steps m V W s t ∧
      (∀ j b, t.cache.buffer? j = some b → s.cache.buffer? j = some b) ∧
      ((r = .ok (.ok ()) ∧ t.cache.buffer? i = none) ∨ ∃ e store, r = .ok (.error e) ∧
        b.dirty = true ∧ s.cache.store? b.file = some store ∧
        store.write b.pos.offset b.image s.disk = .error e t.disk) := by
  have hdiscard : ∀ {c : Cache} {d : Disk}, Through m V W (none, s) (some i, ⟨c.unhook i, d⟩) →
      (∀ j b, j ≠ i → c.buffer? j = some b → s.cache.buffer? j = some b) →
      Steps m V W s ⟨c.discard i, d⟩ ∧
        (∀ j b, (c.discard i).buffer? j = some b → s.cache.buffer? j = some b) ∧
        (c.discard i).buffer? i = none := by
    intro c d h hback
    refine ⟨h.tail .giveBack, fun j b hb => ?_, buffer?_discard.trans (if_pos rfl)⟩
    obtain ⟨hj, hb⟩ := Mount.buffer?_unhook_eq_some (s := ⟨c, d⟩) hb
    exact hback j b hj hb
  unfold releaseBuffer
  cases mode with
  | discard =>
    refine Ends.attempt_bind (P := fun r t => r = .ok () ∧ t = s) (Ends.pure ⟨rfl, rfl⟩) ?_
    rintro r t ⟨rfl, rfl⟩
    obtain ⟨hsteps, hback, hnone⟩ := hdiscard (.single (.unhook hb fun _ => hmode rfl))
      fun j b _ hb => hb
    exact update_bind_ends (Ends.pure ⟨hsteps, hback, .inl ⟨rfl, hnone⟩⟩)
  | flush =>
    refine Ends.attempt_bind (writeBack_cases hsound i) ?_
    rintro r t (⟨rfl, rfl, hclean⟩ | ⟨b', store, hb', hd, hstore,
      ⟨rfl, hc, hwrite⟩ | ⟨e, rfl, hc, hwrite⟩⟩)
    · obtain ⟨hsteps, hback, hnone⟩ := hdiscard
        (.single (.unhook hb fun hd => by rw [hclean b hb] at hd; cases hd)) fun j b _ hb => hb
      exact update_bind_ends (Ends.pure ⟨hsteps, hback, .inl ⟨rfl, hnone⟩⟩)
    · obtain ⟨c, d⟩ := t
      cases hc
      obtain ⟨hsteps, hback, hnone⟩ := hdiscard (.single (.writeOut hb' hd hstore hwrite))
        fun j b hj hb => by rwa [buffer?_clean, if_neg hj] at hb
      exact update_bind_ends (Ends.pure ⟨hsteps, hback, .inl ⟨rfl, hnone⟩⟩)
    · obtain ⟨c, d⟩ := t
      cases hc
      rw [hb] at hb'
      cases hb'
      exact Ends.pure ⟨.single (.refused hb hstore hwrite), fun _ _ hb => hb,
        .inr ⟨e, store, rfl, hd, hstore, hwrite⟩⟩

/-- Of the buffers that are released, those that still hold blocks of the file have changes that
were not taken. -/
theorem releaseAmong_steps (hsound : s.cache.Sound none)
    (hstore : s.cache.store? m.file = some m.store) (mode : Release) (buffers : List Nat) :
    Ends (releaseAmong m.file mode buffers) s fun _ t => Steps m V W s t ∧
      (∀ j b, t.cache.buffer? j = some b → s.cache.buffer? j = some b) ∧
      ∀ j ∈ buffers, ∀ b, t.cache.buffer? j = some b → b.file = m.file →
        b.Unwritten m.store s.disk t.disk := by
  induction buffers generalizing s with
  | nil => exact Ends.pure ⟨.refl, fun _ _ hb => hb, nofun⟩
  | cons i rest ih =>
    unfold releaseAmong
    refine Ends.get_bind ?_
    dsimp only
    split
    · next hany =>
      obtain ⟨b, hb, hown⟩ : ∃ b, s.cache.buffer? i = some b ∧ b.file = m.file := by
        cases hb : s.cache.buffer? i with
        | none => rw [hb] at hany; cases hany
        | some b => exact ⟨b, rfl, by rw [hb] at hany; simpa using hany⟩
      refine Ends.bind (releaseBuffer_steps (V := V) (W := W) hsound hb fun _ => hown) ?_ ?_
      · rintro e t ⟨-, -, ⟨he, -⟩ | ⟨_, _, he, -⟩⟩ <;> cases he
      · rintro first t ⟨hsteps, hback, hfirst⟩
        have hstore' := (hsteps.store _).trans hstore
        refine Ends.bind (ih (hsteps.sound hsound hstore) hstore') ?_ ?_
        all_goals
          rintro _ u ⟨hsteps', hback', hrest⟩
          refine ⟨hsteps.trans hsteps', fun j b hb => hback j b (hback' j b hb),
            fun j hj b' hb' hown' => ?_⟩
          rcases List.mem_cons.mp hj with rfl | hj
          · rcases hfirst with ⟨-, hnone⟩ | ⟨e, store, -, hdirty, hst, hwrite⟩
            · rw [hback' _ _ hb'] at hnone
              cases hnone
            · have hb'' := hback _ _ (hback' _ _ hb')
              rw [hb] at hb''
              cases hb''
              rw [hown, hstore] at hst
              cases hst
              exact ⟨hdirty, e, s.disk, t.disk, .refl, hwrite, Through.reaches hsteps'⟩
          · exact (hrest j hj b' hb' hown').mono (Through.reaches hsteps) .refl
    · next hany =>
      refine (ih hsound hstore).mono ?_
      rintro _ t ⟨hsteps, hback, hrest⟩
      refine ⟨hsteps, hback, fun j hj b hb hown => ?_⟩
      rcases List.mem_cons.mp hj with rfl | hj
      · refine absurd ?_ hany
        rw [hback _ _ hb]
        simpa using hown
      · exact hrest j hj b hb hown

/-- After a release the cache holds of the file only changes that were not taken. -/
theorem release_steps (hsound : s.cache.Sound none)
    (hstore : s.cache.store? m.file = some m.store) (mode : Release) :
    Ends (release m.file mode) s fun _ t => Steps m V W s t ∧
      (∀ j b, t.cache.buffer? j = some b → s.cache.buffer? j = some b) ∧
      ∀ j b, t.cache.buffer? j = some b → b.file = m.file →
        b.Unwritten m.store s.disk t.disk := by
  have hall : ∀ {t : Buffered}, (∀ j ∈ List.range s.cache.capacity, ∀ b,
      t.cache.buffer? j = some b → b.file = m.file → b.Unwritten m.store s.disk t.disk) →
      (∀ j b, t.cache.buffer? j = some b → s.cache.buffer? j = some b) →
      ∀ j b, t.cache.buffer? j = some b → b.file = m.file → b.Unwritten m.store s.disk t.disk :=
    fun h hback j b hb => h j (List.mem_range.mpr (lt_capacity_of_buffer? (hback j b hb))) b hb
  unfold release
  refine Ends.get_bind (Ends.bind (releaseAmong_steps hsound hstore mode _)
    (fun e t h => ⟨h.1, h.2.1, hall h.2.2 h.2.1⟩) fun o t h => ?_)
  exact ends_settle ⟨h.1, h.2.1, hall h.2.2 h.2.1⟩

theorem steps_forget (hsound : s.cache.Sound none) :
    Steps m V W s ⟨s.cache.forget m.file pos, s.disk⟩ := by
  unfold forget
  split
  · next i hi =>
    obtain ⟨b, hb, hown, -⟩ := hsound.lookup_eq_some_iff.mp hi
    exact (Relation.ReflTransGen.single (.unhook hb fun _ => hown)).tail .giveBack
  · exact .refl

/-- An image is put back. -/
theorem restore_steps (hsound : s.cache.Sound none)
    (hstore : s.cache.store? m.file = some m.store) (himage : W pos image) :
    Ends (restore m.file pos image) s fun _ t => Steps m V W s t := by
  unfold restore
  refine Ends.get_bind ?_
  split
  · next i hi =>
    refine update_ends (.single (.edit fun b hb => ?_))
    obtain ⟨hfile, hpos⟩ := eq_of_lookup hi b hb
    exact ⟨hfile, hpos ▸ himage⟩
  · next hnone =>
    have hfetch : Ends (fetch m.file pos image.length false) s fun r t =>
        (∀ e, r = .error e → Steps m V W s t) ∧
          ∀ i, r = .ok i → Steps m V W s ⟨t.cache.setImage i image, t.disk⟩ := by
      unfold fetch
      refine Ends.get_bind ?_
      rw [hnone]
      refine miss_ends hsound hstore hnone (fun e t h => ⟨fun _ _ => h, nofun⟩)
        fun i t htaken habsent => ?_
      refine Ends.attempt_bind (P := fun r u => r = .ok (List.replicate image.length filler) ∧ u = t)
        (Ends.pure ⟨rfl, rfl⟩) ?_
      rintro r u ⟨rfl, rfl⟩
      refine update_bind_ends (Ends.pure ⟨nofun, fun j hj => ?_⟩)
      cases hj
      rw [setImage_hook]
      exact htaken.tail (.fill habsent himage)
    refine Ends.attempt_bind hfetch ?_
    rintro r t ⟨herror, hok⟩
    cases r with
    | ok i => exact update_ends (hok i rfl)
    | error e =>
      have hsteps := herror e rfl
      refine Mount.storeOf_bind_ends ((hsteps.store _).trans hstore) ?_
      refine (onDisk_ends ends_ending).mono ?_
      rintro r ⟨c, d⟩ ⟨hc, -, hd⟩
      cases hc
      cases hd
      exact hsteps.tail (.through himage)

end Cache

end PagedIndex
