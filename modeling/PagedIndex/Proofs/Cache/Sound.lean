import PagedIndex.Cache.Basic

/-!
# Sound caches

The buffers, the chains, the recency list and the stack of free buffers of a cache tell the same
story: a buffer is free or holds a block, a held block is in the chain of its hash value and in the
recency list, and no block is held twice.

## Main definitions

* `Cache.Sound` — a cache of which this is true, but for one buffer that is on its way from one
  block to another.

## Main statements

* `Cache.Sound.lookup_eq_some_iff` — a lookup finds a block if a buffer holds it.
* `Cache.Sound.hook`, `Cache.Sound.unhook`, `Cache.Sound.giveBack` — the steps of a buffer.
* `Cache.Sound.exists_victim` — a buffer can be recycled unless all are pinned or free.
-/

namespace PagedIndex

/-! ## Lists of pairs -/

section Pairs

variable {α β : Type} [BEq α] [LawfulBEq α] [DecidableEq α] (pairs : List (α × β)) (a b : α)

/-- The values of one key are changed. -/
theorem lookup_map_at (f : β → β) :
    (pairs.map fun (key, v) => if key = a then (key, f v) else (key, v)).lookup b =
      if b = a then (pairs.lookup b).map f else pairs.lookup b := by
  induction pairs with
  | nil => simp
  | cons pair rest ih =>
    obtain ⟨key, v⟩ := pair
    by_cases hkey : b = key
    · subst hkey
      by_cases ha : b = a <;> simp [ha]
    · have hbeq : (b == key) = false := beq_false_of_ne hkey
      have hcons : ((key, v) :: rest).lookup b = rest.lookup b := by
        rw [List.lookup_cons, hbeq]
      rw [hcons, ← ih, List.map_cons]
      by_cases ha : key = a
      · simp only [if_pos ha, List.lookup_cons, hbeq]
      · simp only [if_neg ha, List.lookup_cons, hbeq]

/-- The values of one key are left out. -/
theorem lookup_filter_ne :
    (pairs.filter (·.1 != a)).lookup b = if b = a then none else pairs.lookup b := by
  induction pairs with
  | nil => simp
  | cons pair rest ih =>
    obtain ⟨key, v⟩ := pair
    rw [List.lookup_cons]
    by_cases hkey : key = a
    · subst hkey
      rw [List.filter_cons_of_neg (by simp), ih]
      by_cases hb : b = key
      · simp [hb]
      · simp [hb, beq_false_of_ne hb]
    · rw [List.filter_cons_of_pos (by simpa using hkey), List.lookup_cons, ih]
      by_cases hb : b = key
      · subst hb
        simp [hkey]
      · simp [beq_false_of_ne hb]

end Pairs

namespace Cache

variable {c : Cache} {i j : Nat} {b : Buffer} {file : FileId} {pos : BlockPos}

/-! ## What the operations change -/

theorem buffer?_eq_none_of_le (h : c.capacity ≤ i) : c.buffer? i = none := by
  simp only [buffer?, Array.getD_eq_getD_getElem?]
  rw [Array.getElem?_eq_none h]
  rfl

theorem lt_capacity_of_buffer? (h : c.buffer? i = some b) : i < c.capacity := by
  rcases Nat.lt_or_ge i c.capacity with hlt | hge
  · exact hlt
  · rw [buffer?_eq_none_of_le hge] at h
    cases h

theorem mem_held (h : c.buffer? i = some b) : b ∈ c.held := by
  have hget : c.buffers[i]? = some (some b) := by
    rw [buffer?, Array.getD_eq_getD_getElem?] at h
    cases hi : c.buffers[i]? <;> simp_all
  exact List.mem_filterMap.mpr ⟨some b, Array.mem_toList_iff.mpr (Array.mem_of_getElem? hget), rfl⟩

@[simp]
theorem buffer?_modifyBuffer (f : Buffer → Buffer) :
    (c.modifyBuffer i f).buffer? j = if j = i then (c.buffer? i).map f else c.buffer? j := by
  simp only [modifyBuffer, buffer?, Array.getD_eq_getD_getElem?, Array.getElem?_modify]
  by_cases h : j = i
  · subst h
    cases hj : c.buffers[j]? with
    | none => simp
    | some o => cases o <;> simp
  · simp [h, Ne.symm h]

theorem buffer?_setIfInBounds {o : Option Buffer} (hi : i < c.capacity) :
    (c.buffers.setIfInBounds i o).getD j none = if j = i then o else c.buffer? j := by
  simp only [buffer?, Array.getD_eq_getD_getElem?, Array.getElem?_setIfInBounds]
  by_cases h : j = i
  · subst h
    have hsize : j < c.buffers.size := hi
    simp [hsize]
  · simp [h, Ne.symm h]

theorem buffer?_hook (hi : i < c.capacity) :
    (c.hook i b).buffer? j = if j = i then some b else c.buffer? j :=
  buffer?_setIfInBounds hi

theorem buffer?_unhook : (c.unhook i).buffer? j = if j = i then none else c.buffer? j := by
  unfold unhook
  split
  · next h =>
    split
    · next hj => rw [hj, h]
    · rfl
  · next b h => exact buffer?_setIfInBounds (lt_capacity_of_buffer? h)

@[simp]
theorem buffer?_giveBack : (c.giveBack i).buffer? j = c.buffer? j := rfl

@[simp]
theorem buffer?_touch : (c.touch i).buffer? j = c.buffer? j := rfl

@[simp]
theorem buffer?_discard : (c.discard i).buffer? j = if j = i then none else c.buffer? j := by
  rw [discard, buffer?_giveBack, buffer?_unhook]

theorem registration?_unhook : (c.unhook i).registration? file = c.registration? file := by
  unfold unhook
  split <;> rfl

theorem registration?_hook : (c.hook i b).registration? file = c.registration? file := rfl

theorem registration?_discard : (c.discard i).registration? file = c.registration? file :=
  registration?_unhook

theorem capacity_unhook : (c.unhook i).capacity = c.capacity := by
  unfold unhook
  split
  · rfl
  · simp [capacity]

theorem capacity_hook : (c.hook i b).capacity = c.capacity := by simp [capacity, hook]

theorem capacity_modifyBuffer (f : Buffer → Buffer) :
    (c.modifyBuffer i f).capacity = c.capacity := by
  simp [capacity, modifyBuffer]

theorem capacity_discard : (c.discard i).capacity = c.capacity := capacity_unhook

theorem registration?_modifyFile {file' : FileId} (f : Registration → Registration) :
    (c.modifyFile file f).registration? file' =
      if file' = file then (c.registration? file').map f else c.registration? file' :=
  lookup_map_at c.files file file' f

/-- The buffer to recycle next holds a block and is not pinned. -/
theorem victim?_eq_some (h : c.victim? = some i) : ∃ b, c.buffer? i = some b ∧ b.pinned = false := by
  have hany := List.find?_some h
  cases hb : c.buffer? i with
  | none => rw [hb] at hany; cases hany
  | some b => exact ⟨b, rfl, by rw [hb] at hany; simpa using hany⟩

/-! ## Numbers of files -/

theorem lt_of_lookup {files : List (FileId × Registration)} {r : Registration} (n : Nat)
    (h : files.lookup file = some r) : file < files.foldr (fun f n => max (f.1 + 1) n) n := by
  induction files with
  | nil => cases h
  | cons f rest ih =>
    obtain ⟨id, r'⟩ := f
    rw [List.foldr_cons]
    by_cases hid : file = id
    · exact hid ▸ Nat.lt_of_lt_of_le (Nat.lt_succ_self _) (Nat.le_max_left _ _)
    · rw [List.lookup_cons, beq_false_of_ne hid] at h
      exact Nat.lt_of_lt_of_le (ih h) (Nat.le_max_right _ _)

/-- A file gets a number that is not in use, and never zero. -/
theorem unusedFrom_fresh (tries : Nat) (file : UInt32) :
    c.unusedFrom tries file ≠ 0 ∧ c.registration? (c.unusedFrom tries file) = none := by
  fun_induction unusedFrom c tries file with
  | case1 file =>
    refine ⟨fun hzero => ?_, ?_⟩
    · have hle : UInt32.size ≤ c.files.foldr (fun f n => max (f.1 + 1) n) UInt32.size := by
        induction c.files with
        | nil => exact Nat.le_refl _
        | cons f rest ih => exact Nat.le_trans ih (Nat.le_max_right _ _)
      rw [hzero] at hle
      exact absurd hle (by decide)
    · cases hr : c.registration? _ with
      | none => rfl
      | some r => exact absurd (lt_of_lookup UInt32.size hr) (Nat.lt_irrefl _)
  | case2 tries file h =>
    refine ⟨fun hzero => h.1 ?_, by simpa using h.2⟩
    exact UInt32.toNat_inj.mp hzero
  | case3 tries file h ih => exact ih

theorem registration?_freshFile : c.registration? c.freshFile = none := (c.unusedFrom_fresh _ _).2

/-- The search ends at a number if it is given tries enough to come to one. -/
theorem unusedFrom_lt {tries k : Nat} {file : UInt32} (hk : k < tries) (hzero : file + .ofNat k ≠ 0)
    (hfree : c.registration? (file + .ofNat k).toNat = none) :
      c.unusedFrom tries file < UInt32.size := by
  induction tries generalizing file k with
  | zero => cases hk
  | succ tries ih =>
    unfold unusedFrom
    split
    · exact file.toNat_lt
    · next hused =>
      cases k with
      | zero =>
        refine absurd ⟨?_, ?_⟩ hused
        · simpa using hzero
        · simpa using hfree
      | succ k =>
        have hnext : file + .ofNat (k + 1) = file + 1 + .ofNat k := by
          rw [Nat.add_comm, UInt32.ofNat_add, UInt32.add_assoc]
          rfl
        exact ih (Nat.lt_of_succ_lt_succ hk) (hnext ▸ hzero) (hnext ▸ hfree)

/-! ## Soundness -/

/-- The parts of a cache agree. The buffer `out` is in none of them: it has been taken from the
free buffers, or a block away from it, and it is to be given a block. -/
structure Sound (out : Option Nat) (c : Cache) : Prop where
  free_nodup : c.free.Nodup
  mem_free : ∀ i, i ∈ c.free ↔ i < c.capacity ∧ c.buffer? i = none ∧ out ≠ some i
  out_vacant : ∀ i, out = some i → i < c.capacity ∧ c.buffer? i = none
  chain_capacity : c.chains.capacity = c.capacity
  row : ∀ k, c.chains.Row (c.chains.head k) (c.chain k)
  chain_nodup : ∀ k, (c.chain k).Nodup
  mem_chain : ∀ k i, i ∈ c.chain k ↔ ∃ b, c.buffer? i = some b ∧ hash b.file b.pos = k
  recency_capacity : c.recency.capacity = c.capacity
  mem_recency : ∀ i, i ∈ c.recency.order ↔ (c.buffer? i).isSome
  unique : ∀ i j b b', c.buffer? i = some b → c.buffer? j = some b' → b.file = b'.file →
    b.pos = b'.pos → i = j
  registered : ∀ i b, c.buffer? i = some b → (c.registration? b.file).isSome

namespace Sound

variable {out : Option Nat}

/-- Files, numbers and counters have no part in it, as long as all files of which blocks are held
are known. -/
theorem congr (h : c.Sound out) {c' : Cache} (hfree : c'.free = c.free) (hchains : c'.chains = c.chains)
    (hrecency : c'.recency = c.recency) (hbuffers : c'.buffers = c.buffers)
    (hregistered : ∀ i b, c'.buffer? i = some b → (c'.registration? b.file).isSome) :
    c'.Sound out := by
  cases c
  cases c'
  cases hfree
  cases hchains
  cases hrecency
  cases hbuffers
  exact ⟨h.free_nodup, h.mem_free, h.out_vacant, h.chain_capacity, h.row, h.chain_nodup, h.mem_chain,
    h.recency_capacity, h.mem_recency, h.unique, hregistered⟩

/-- Counting has no effect on what a cache holds. -/
theorem count (h : c.Sound out) (hits misses evictions writes : Nat) :
    Sound out { c with hits := hits, misses := misses, evictions := evictions, writes := writes } :=
  h.congr rfl rfl rfl rfl h.registered

theorem lookup_eq_some_iff (h : c.Sound out) :
    c.lookup file pos = some i ↔ ∃ b, c.buffer? i = some b ∧ b.file = file ∧ b.pos = pos := by
  have hholds : ∀ i, c.holds file pos i = true ↔
      ∃ b, c.buffer? i = some b ∧ b.file = file ∧ b.pos = pos := by
    intro i
    unfold holds
    cases c.buffer? i <;> simp
  unfold lookup
  constructor
  · intro hfind
    exact (hholds i).mp (List.find?_some hfind)
  · rintro ⟨b, hb, rfl, rfl⟩
    have hmem : i ∈ c.chain (hash b.file b.pos) := (h.mem_chain _ _).mpr ⟨b, hb, rfl⟩
    have hsome : ((c.chain (hash b.file b.pos)).find? (c.holds b.file b.pos)).isSome :=
      List.find?_isSome.mpr ⟨i, hmem, (hholds i).mpr ⟨b, hb, rfl, rfl⟩⟩
    obtain ⟨j, hj⟩ := Option.isSome_iff_exists.mp hsome
    obtain ⟨b', hb', hfile, hpos⟩ := (hholds j).mp (List.find?_some hj)
    rw [hj, h.unique j i b' b hb' hb hfile hpos]

theorem lookup_eq_none_iff (h : c.Sound out) :
    c.lookup file pos = none ↔
      ∀ i b, c.buffer? i = some b → b.file = file → b.pos ≠ pos := by
  constructor
  · intro hnone i b hb hfile hpos
    rw [(h.lookup_eq_some_iff (i := i)).mpr ⟨b, hb, hfile, hpos⟩] at hnone
    cases hnone
  · intro hall
    cases hl : c.lookup file pos with
    | none => rfl
    | some i =>
      obtain ⟨b, hb, hfile, hpos⟩ := h.lookup_eq_some_iff.mp hl
      exact absurd hpos (hall i b hb hfile)

theorem touch (h : c.Sound out) (hi : (c.buffer? i).isSome) : (c.touch i).Sound out := by
  have hlt : i < c.recency.capacity := Recency.lt_capacity ((h.mem_recency i).mpr hi)
  refine ⟨h.free_nodup, h.mem_free, h.out_vacant, h.chain_capacity, h.row, h.chain_nodup, h.mem_chain,
    Recency.capacity_touch.trans h.recency_capacity, fun j => ?_, h.unique, h.registered⟩
  show j ∈ (c.recency.touch i).order ↔ (c.buffer? j).isSome
  rw [Recency.order_touch hlt, List.mem_cons, List.Nodup.mem_erase_iff c.recency.nodup_order,
    h.mem_recency]
  by_cases hj : j = i
  · simp [hj, hi]
  · simp [hj]

/-- A change of a buffer that keeps its block. -/
theorem modifyBuffer (h : c.Sound out) {f : Buffer → Buffer} (hfile : ∀ b, (f b).file = b.file)
    (hpos : ∀ b, (f b).pos = b.pos) : (c.modifyBuffer i f).Sound out := by
  have hnone : ∀ j, (c.modifyBuffer i f).buffer? j = none ↔ c.buffer? j = none := by
    intro j
    rw [buffer?_modifyBuffer]
    split
    · next hj => rw [hj]; exact Option.map_eq_none_iff
    · rfl
  have hsome : ∀ j b, (c.modifyBuffer i f).buffer? j = some b →
      ∃ b', c.buffer? j = some b' ∧ b'.file = b.file ∧ b'.pos = b.pos := by
    intro j b hb
    rw [buffer?_modifyBuffer] at hb
    split at hb
    · next hj =>
      obtain ⟨b', hb', rfl⟩ := Option.map_eq_some_iff.mp hb
      exact ⟨b', by rw [hj]; exact hb', (hfile b').symm, (hpos b').symm⟩
    · exact ⟨b, hb, rfl, rfl⟩
  refine ⟨h.free_nodup, fun j => ?_, fun j hj => ?_,
    h.chain_capacity.trans (capacity_modifyBuffer f).symm,
    h.row, h.chain_nodup, fun k j => ?_, h.recency_capacity.trans (capacity_modifyBuffer f).symm,
      fun j => ?_,
    fun j k b b' hb hb' hf hp => ?_, fun j b hb => ?_⟩
  · rw [capacity_modifyBuffer, hnone]
    exact h.mem_free j
  · rw [capacity_modifyBuffer, hnone]
    exact h.out_vacant j hj
  · refine (h.mem_chain k j).trans ?_
    constructor
    · rintro ⟨b, hb, hk⟩
      by_cases hj : j = i
      · refine ⟨f b, ?_, by rw [hfile, hpos]; exact hk⟩
        rw [buffer?_modifyBuffer, if_pos hj, ← hj, hb]
        rfl
      · exact ⟨b, by rw [buffer?_modifyBuffer, if_neg hj]; exact hb, hk⟩
    · rintro ⟨b, hb, hk⟩
      obtain ⟨b', hb', hf, hp⟩ := hsome j b hb
      exact ⟨b', hb', by rw [hf, hp]; exact hk⟩
  · refine (h.mem_recency j).trans ?_
    rw [Option.isSome_iff_ne_none, Option.isSome_iff_ne_none, ne_eq, ne_eq, hnone]
  · obtain ⟨b₁, hb₁, hf₁, hp₁⟩ := hsome j b hb
    obtain ⟨b₂, hb₂, hf₂, hp₂⟩ := hsome k b' hb'
    exact h.unique j k b₁ b₂ hb₁ hb₂ (by rw [hf₁, hf₂, hf]) (by rw [hp₁, hp₂, hp])
  · obtain ⟨b', hb', hf, -⟩ := hsome j b hb
    rw [← hf]
    exact h.registered j b' hb'

theorem setPinned (h : c.Sound out) (pinned : Bool) : (c.setPinned i pinned).Sound out :=
  h.modifyBuffer (fun _ => rfl) fun _ => rfl

theorem setImage (h : c.Sound out) (image : Bytes) : (c.setImage i image).Sound out :=
  h.modifyBuffer (fun _ => rfl) fun _ => rfl

/-- The chains with a buffer that is given a block. -/
theorem row_hook (h : c.Sound (some i)) (k : Fin chainCount) :
    let l := if k = hash b.file b.pos then i :: c.chain k else c.chain k
    (c.hook i b).chains.Row ((c.hook i b).chains.head k) l ∧ l.Nodup := by
  obtain ⟨hlt, hi⟩ := h.out_vacant i rfl
  have hnew : ∀ k, i ∉ c.chain k := by
    intro k hmem
    obtain ⟨b', hb', -⟩ := (h.mem_chain k i).mp hmem
    simp [hi] at hb'
  by_cases hk : k = hash b.file b.pos
  · simp only [if_pos hk]
    rw [hk]
    exact ⟨(h.row _).push (h.chain_capacity ▸ hlt) (hnew _),
      List.nodup_cons.mpr ⟨hnew _, h.chain_nodup _⟩⟩
  · simp only [if_neg hk]
    exact ⟨(h.row k).push_ne hk (hnew k), h.chain_nodup k⟩

theorem chain_hook (h : c.Sound (some i)) (k : Fin chainCount) :
    (c.hook i b).chain k = if k = hash b.file b.pos then i :: c.chain k else c.chain k :=
  (h.row_hook k).1.chain (h.row_hook k).2

/-- The chains without a buffer that gives its block up. -/
theorem row_unhook (h : c.Sound none) (hb : c.buffer? i = some b) (k : Fin chainCount) :
    let l := if k = hash b.file b.pos then (c.chain k).erase i else c.chain k
    (c.unhook i).chains.Row ((c.unhook i).chains.head k) l ∧ l.Nodup := by
  have hchains : (c.unhook i).chains = c.chains.unlink (hash b.file b.pos) i := by
    simp only [Cache.unhook, hb]
  have hmem : i ∈ c.chain (hash b.file b.pos) := (h.mem_chain _ _).mpr ⟨b, hb, rfl⟩
  rw [hchains]
  by_cases hk : k = hash b.file b.pos
  · simp only [if_pos hk]
    rw [hk]
    exact ⟨(h.row _).unlink (h.chain_nodup _) hmem, (h.chain_nodup _).erase i⟩
  · simp only [if_neg hk]
    refine ⟨(h.row _).unlink_ne (h.chain_nodup _) hmem (h.row k) hk fun j hj hj' => hk ?_,
      h.chain_nodup k⟩
    -- a buffer is in the chain of its own block only
    obtain ⟨b₁, hb₁, rfl⟩ := (h.mem_chain _ _).mp hj
    obtain ⟨b₂, hb₂, heq⟩ := (h.mem_chain _ _).mp hj'
    rw [hb₁] at hb₂
    cases hb₂
    exact heq

theorem chain_unhook (h : c.Sound none) (hb : c.buffer? i = some b) (k : Fin chainCount) :
    (c.unhook i).chain k = if k = hash b.file b.pos then (c.chain k).erase i else c.chain k :=
  (h.row_unhook hb k).1.chain (h.row_unhook hb k).2

/-- A buffer that was taken out is given a block which no buffer holds. -/
theorem hook (h : c.Sound (some i)) (hnew : ∀ j b', c.buffer? j = some b' → b'.file = b.file →
    b'.pos ≠ b.pos) (hreg : (c.registration? b.file).isSome) : (c.hook i b).Sound none := by
  obtain ⟨hlt, hi⟩ := h.out_vacant i rfl
  have hfree : ∀ j, j ∈ c.free ↔ j < c.capacity ∧ c.buffer? j = none ∧ j ≠ i := by
    intro j
    rw [h.mem_free j]
    simp [eq_comm]
  have hchain : ∀ k, i ∉ c.chain k := by
    intro k hmem
    obtain ⟨b', hb', -⟩ := (h.mem_chain k i).mp hmem
    rw [hi] at hb'
    cases hb'
  have hrecency : i ∉ c.recency.order := by
    rw [h.mem_recency, hi]
    simp
  refine ⟨h.free_nodup, fun j => ?_, fun j hj => (nomatch hj), ?_, fun k => ?_, fun k => ?_,
    fun k j => ?_, ?_, fun j => ?_, fun j k b₁ b₂ hb₁ hb₂ hf hp => ?_, fun j b₁ hb₁ => ?_⟩
  · rw [capacity_hook, buffer?_hook hlt]
    show j ∈ c.free ↔ _
    rw [hfree]
    by_cases hj : j = i <;> simp [hj]
  · rw [capacity_hook]
    exact Chains.capacity_push.trans h.chain_capacity
  · rw [h.chain_hook]
    exact (h.row_hook k).1
  · rw [h.chain_hook]
    exact (h.row_hook k).2
  · rw [h.chain_hook, buffer?_hook hlt]
    by_cases hj : j = i
    · subst hj
      have hnot := hchain k
      by_cases hk : k = hash b.file b.pos
      · simp [hk]
      · rw [if_neg hk]
        simp [hnot, Ne.symm hk]
    · simp only [if_neg hj]
      rw [← h.mem_chain]
      by_cases hk : k = hash b.file b.pos
      · simp [hk, hj]
      · rw [if_neg hk]
  · rw [capacity_hook]
    exact Recency.capacity_touch.trans h.recency_capacity
  · rw [buffer?_hook hlt]
    show j ∈ (c.recency.touch i).order ↔ _
    rw [Recency.order_touch (h.recency_capacity ▸ hlt), List.erase_of_not_mem hrecency,
      List.mem_cons, h.mem_recency]
    by_cases hj : j = i <;> simp [hj]
  · rw [buffer?_hook hlt] at hb₁ hb₂
    split at hb₁ <;> split at hb₂
    · next h₁ h₂ => rw [h₁, h₂]
    · cases hb₁
      exact absurd hp.symm (hnew k b₂ hb₂ hf.symm)
    · cases hb₂
      exact absurd hp (hnew j b₁ hb₁ hf)
    · exact h.unique j k b₁ b₂ hb₁ hb₂ hf hp
  · rw [registration?_hook]
    rw [buffer?_hook hlt] at hb₁
    split at hb₁
    · cases hb₁
      exact hreg
    · exact h.registered j b₁ hb₁

/-- A block is taken away from a buffer, which is out of all parts then. -/
theorem unhook (h : c.Sound none) (hi : (c.buffer? i).isSome) : (c.unhook i).Sound (some i) := by
  obtain ⟨b, hb⟩ := Option.isSome_iff_exists.mp hi
  have hlt := lt_capacity_of_buffer? hb
  have hrecency : (c.unhook i).recency = c.recency.remove i := by
    simp only [Cache.unhook, hb]
  have hfree : (c.unhook i).free = c.free := by
    simp only [Cache.unhook, hb]
  refine ⟨hfree ▸ h.free_nodup, fun j => ?_, fun j hj => ?_, ?_, fun k => ?_, fun k => ?_,
    fun k j => ?_, ?_, fun j => ?_, fun j k b₁ b₂ hb₁ hb₂ hf hp => ?_, fun j b₁ hb₁ => ?_⟩
  · rw [hfree, capacity_unhook, buffer?_unhook, h.mem_free]
    by_cases hj : j = i
    · simp [hj, hb]
    · simp [hj, Ne.symm hj]
  · rw [capacity_unhook, buffer?_unhook, ← Option.some.inj hj]
    exact ⟨hlt, if_pos rfl⟩
  · rw [capacity_unhook]
    refine Eq.trans ?_ h.chain_capacity
    simp only [Cache.unhook, hb, Chains.capacity_unlink]
  · rw [h.chain_unhook hb]
    exact (h.row_unhook hb k).1
  · rw [h.chain_unhook hb]
    exact (h.row_unhook hb k).2
  · rw [h.chain_unhook hb, buffer?_unhook]
    by_cases hj : j = i
    · subst hj
      have : ¬∃ b', c.buffer? j = some b' ∧ hash b'.file b'.pos = k ∧ k ≠ hash b.file b.pos := by
        rintro ⟨b', hb', hk, hne⟩
        rw [hb] at hb'
        cases hb'
        exact hne hk.symm
      split
      · next hk => simp [List.Nodup.mem_erase_iff (h.chain_nodup k)]
      · next hk =>
        rw [h.mem_chain]
        simp only [if_true]
        constructor
        · rintro ⟨b', hb', hk'⟩
          exact absurd ⟨b', hb', hk', hk⟩ this
        · rintro ⟨b', hb', -⟩
          cases hb'
    · simp only [if_neg hj]
      rw [← h.mem_chain]
      split
      · rw [List.Nodup.mem_erase_iff (h.chain_nodup k)]
        simp [hj]
      · rfl
  · rw [hrecency, capacity_unhook, Recency.capacity_remove, h.recency_capacity]
  · rw [hrecency, Recency.order_remove, buffer?_unhook,
      List.Nodup.mem_erase_iff c.recency.nodup_order, h.mem_recency]
    by_cases hj : j = i <;> simp [hj]
  · rw [buffer?_unhook] at hb₁ hb₂
    split at hb₁
    · cases hb₁
    · split at hb₂
      · cases hb₂
      · exact h.unique j k b₁ b₂ hb₁ hb₂ hf hp
  · rw [registration?_unhook]
    rw [buffer?_unhook] at hb₁
    split at hb₁
    · cases hb₁
    · exact h.registered j b₁ hb₁

/-- A buffer that was taken out becomes free. -/
theorem giveBack (h : c.Sound (some i)) : (c.giveBack i).Sound none := by
  obtain ⟨hlt, hi⟩ := h.out_vacant i rfl
  refine ⟨?_, fun j => ?_, fun j hj => (nomatch hj), h.chain_capacity, h.row, h.chain_nodup,
    h.mem_chain,
    h.recency_capacity, h.mem_recency, h.unique, h.registered⟩
  · refine List.nodup_cons.mpr ⟨fun hmem => ?_, h.free_nodup⟩
    exact ((h.mem_free i).mp hmem).2.2 rfl
  · show j ∈ i :: c.free ↔ j < c.capacity ∧ c.buffer? j = none ∧ _
    rw [List.mem_cons, h.mem_free]
    by_cases hj : j = i
    · subst hj
      simp [hlt, hi]
    · simp [hj, Ne.symm hj]

/-- A free buffer is taken out. -/
theorem takeFree {rest : List Nat} (h : c.Sound none) (hfree : c.free = i :: rest) :
    Sound (some i) { c with free := rest } := by
  have hnodup := h.free_nodup
  rw [hfree] at hnodup
  have hmem := fun j => h.mem_free j
  rw [hfree] at hmem
  obtain ⟨hlt, hi, -⟩ := (hmem i).mp List.mem_cons_self
  refine ⟨(List.nodup_cons.mp hnodup).2, fun j => ?_, fun j hj => ?_, h.chain_capacity, h.row,
    h.chain_nodup, h.mem_chain,
    h.recency_capacity, h.mem_recency, h.unique, h.registered⟩
  · show j ∈ rest ↔ j < c.capacity ∧ c.buffer? j = none ∧ _
    have hj := hmem j
    rw [List.mem_cons] at hj
    by_cases hji : j = i
    · subst hji
      simp [(List.nodup_cons.mp hnodup).1]
    · simp only [hji, false_or] at hj
      rw [hj]
      simp [Ne.symm hji]
  · rw [← Option.some.inj hj]
    exact ⟨hlt, hi⟩

theorem discard (h : c.Sound none) (hi : (c.buffer? i).isSome) : (c.discard i).Sound none :=
  (h.unhook hi).giveBack

theorem forget (h : c.Sound none) : (c.forget file pos).Sound none := by
  unfold Cache.forget
  split
  · next i hl =>
    obtain ⟨b, hb, -⟩ := h.lookup_eq_some_iff.mp hl
    exact h.discard (by rw [hb]; rfl)
  · exact h

theorem modifyFile (h : c.Sound out) (f : Registration → Registration) :
    (c.modifyFile file f).Sound out := by
  refine h.congr rfl rfl rfl rfl fun i b hb => ?_
  rw [registration?_modifyFile]
  have := h.registered i b hb
  split
  · simpa using this
  · exact this

/-- A file is taken up beside those that are there. -/
theorem register (h : c.Sound out) (store : Store) : (c.register store).2.Sound out := by
  refine h.congr rfl rfl rfl rfl fun i b hb => ?_
  unfold registration? Cache.register
  rw [List.lookup_cons]
  split
  · rfl
  · exact h.registered i b hb

/-- A cache that recycles no buffer has only pinned ones. -/
theorem exists_victim (h : c.Sound none) (hfree : c.free = []) (hi : i < c.capacity)
    (hpin : ∀ b, c.buffer? i = some b → b.pinned = false) :
    ∃ v b, c.victim? = some v ∧ c.buffer? v = some b ∧ b.pinned = false := by
  have hsome : (c.buffer? i).isSome := by
    rw [Option.isSome_iff_ne_none]
    intro hnone
    have := (h.mem_free i).mpr ⟨hi, hnone, nofun⟩
    rw [hfree] at this
    cases this
  obtain ⟨b, hb⟩ := Option.isSome_iff_exists.mp hsome
  have hmem : i ∈ c.recency.oldestFirst := Recency.mem_oldestFirst.mpr ((h.mem_recency i).mpr hsome)
  have hfind : (c.victim?).isSome :=
    List.find?_isSome.mpr ⟨i, hmem, by rw [hb]; simpa using hpin b hb⟩
  obtain ⟨v, hv⟩ := Option.isSome_iff_exists.mp hfind
  obtain ⟨b', hb', hp⟩ := victim?_eq_some hv
  exact ⟨v, b', hv, hb', hp⟩

end Sound

theorem buffer?_new (buffers i : Nat) : (new buffers).buffer? i = none := by
  simp only [new, buffer?, Array.getD_eq_getD_getElem?, Array.getElem?_replicate]
  split <;> rfl

/-- A new cache is sound. -/
theorem sound_new (buffers : Nat) : (new buffers).Sound none := by
  have hbuffer := buffer?_new buffers
  have hcapacity : (new buffers).capacity = max buffers minBuffers := by simp [new, capacity]
  have hrow : ∀ k, (new buffers).chains.Row ((new buffers).chains.head k) [] := fun k =>
    Chains.head_new _
  have hchain : ∀ k, (new buffers).chain k = [] := fun k => (hrow k).chain List.nodup_nil
  refine ⟨List.nodup_range, fun i => ?_, fun i hi => (nomatch hi), by simp [new, capacity], fun k => ?_,
    fun k => ?_, fun k i => ?_, by simp [new, capacity], fun i => ?_, fun i j b b' hb => ?_,
    fun i b hb => ?_⟩
  · show i ∈ List.range (max buffers minBuffers) ↔ _
    rw [List.mem_range, hbuffer, hcapacity]
    simp
  · rw [hchain]
    exact hrow k
  · rw [hchain]
    exact List.nodup_nil
  · rw [hchain, hbuffer]
    simp
  · rw [hbuffer]
    simp [new]
  · rw [hbuffer] at hb
    cases hb
  · rw [hbuffer] at hb
    cases hb

theorem minBuffers_le_capacity_new (buffers : Nat) : minBuffers ≤ (new buffers).capacity := by
  rw [capacity, new, Array.size_replicate]
  exact Nat.le_max_right buffers minBuffers

end Cache

end PagedIndex
