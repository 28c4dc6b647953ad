import PagedIndex.Proofs.Index.Verified
import PagedIndex.Proofs.Session.Fit
import PagedIndex.Proofs.Tree.KeepsLength

/-!
# Calls on files of any contents

The blocks that are cached of the file of a handle are as long as blocks are. Of what is in them
nothing is asked, nor of the volume, which may change at any time: links may lead in circles, share
blocks, or lead to blocks of the wrong kind. Nothing that a handle does can change their length, and
no call but a deletion comes to an index or a bound outside its data.

## Main definitions

* `Index.WholeBlocks` — a handle whose cached blocks are as long as blocks are.
* `Index.HandleEvent` — one thing that happens to a handle.

## Main statements

* `Call.keepsLength_course` — what a call asks for keeps the length of blocks.
* `Index.Opened.wholeBlocks`, `Index.WholeBlocks.handleEvents` — so it is from the beginning.
* `Index.WholeBlocks.call` — what becomes of a call.
-/

namespace PagedIndex

def Call.deletes : Call → Bool
  | delete _ _ => true
  | _ => false

/-! ## What calls ask for -/

namespace Index

variable {ix : Index}

theorem keyOf_ne_outOfRange {raw : Bytes} {pad : UInt8} {e : Error}
    (h : ix.keyOf raw pad = .error e) : e ≠ .outOfRange := by
  unfold keyOf Key.normalize at h
  split at h
  · cases h
    simp
  · cases h

theorem entryOf_ne_outOfRange {raw : Bytes} {record : Nat} {e : Error}
    (h : ix.entryOf raw record = .error e) : e ≠ .outOfRange := by
  unfold entryOf at h
  cases hkey : ix.keyOf raw blank with
  | error e' =>
    rw [hkey] at h
    cases h
    exact keyOf_ne_outOfRange hkey
  | ok key =>
    rw [hkey] at h
    simp only [bind, Except.bind, pure, Except.pure] at h
    split at h
    · cases h
      simp
    · split at h
      · cases h
        simp
      · cases h

end Index

/-- No call but a deletion asks for a program that may be abandoned. -/
theorem Call.keepsLength_course {ix : Index} (hl : ix.tree.layout.Workable) (call : Call)
    (record : Nat) :
    (call.course ix record).Meets (fun r => r ≠ .error .outOfRange) fun q =>
      q.program.KeepsLength (call.deletes = true) ix.tree.layout.blockSize fun _ => True := by
  have hrefused : ∀ {e : Error}, e ≠ .outOfRange →
      (.error e : Except Error Answer) ≠ .error .outOfRange := fun he h => he (Except.error.inj h)
  cases call with
  | find key =>
    simp only [course]
    split
    · exact fun h => by cases h
    · exact Course.meets_check (fun _ he => hrefused (Index.keyOf_ne_outOfRange he))
        fun key _ => Tree.keepsLength_find hl key
  | findLast start =>
    exact Course.meets_check (fun _ he => hrefused (Index.keyOf_ne_outOfRange he))
      fun padded _ => Tree.keepsLength_findLast hl padded _
  | next => exact Tree.keepsLength_next hl
  | previous => exact Tree.keepsLength_previous hl
  | insert key =>
    refine Course.meets_writing (fun _ => hrefused (by simp)) fun _ => ?_
    exact Course.meets_check (fun _ he => hrefused (Index.entryOf_ne_outOfRange he))
      fun e he => Tree.keepsLength_insert hl (Index.storable_of_entryOf he).1
  | delete key byPosition =>
    refine Course.meets_writing (fun _ => hrefused (by simp)) fun _ => ?_
    have hdelete : ∀ target exact, (ix.tree.delete target exact).KeepsLength
        ((delete key byPosition).deletes = true) ix.tree.layout.blockSize fun _ => True :=
      fun _ _ => (Tree.keepsLength_delete hl).weaken fun _ => rfl
    split
    · split
      · exact hdelete _ _
      · exact fun h => by cases h
    · exact Course.meets_check (fun _ he => hrefused (Index.keyOf_ne_outOfRange he))
        fun key _ => hdelete _ _
  | reserve =>
    refine Course.meets_writing (fun _ => hrefused (by simp)) fun _ => ?_
    split
    · exact fun h => by cases h
    · exact Program.keepsLength_popSlot hl
  | release =>
    refine Course.meets_writing (fun _ => hrefused (by simp)) fun _ => ?_
    split
    · exact fun h => by cases h
    · exact Program.keepsLength_pushSlot hl
  | stats | verify => exact Tree.keepsLength_survey hl
  | outline => exact Tree.keepsLength_outline hl

/-! ## Handles -/

/-- A handle whose cached blocks are as long as blocks are. -/
structure Index.WholeBlocks (ix : Index) (w : Workspace) : Prop where
  cache : ix.cache < w.caches.size
  workable : ix.tree.layout.Workable
  fit : ix.mount.Fit (w.below ix.cache)

namespace Index

/-- One thing that happens to a handle. -/
inductive HandleEvent : Index × Workspace → Index × Workspace → Prop
  /-- A call of the handle, or a flush. -/
  | visited (ix : Index) (w : Workspace) (visit : Visit Unit) :
    HandleEvent (ix, w) (ending visit.run (ix, w)).2
  /-- All that is not in use is released. -/
  | purged (ix : Index) (w : Workspace) :
    HandleEvent (ix, w) (ix, (ending (Workspace.onCache ix.cache Cache.purge) w).2)
  /-- The cursor stands anywhere, and the disk and the record cells hold anything. -/
  | altered (ix : Index) (w : Workspace) (c : Cursor) (d : Disk) (cells : Array Nat) :
    HandleEvent (ix, w) ({ ix with cursor := c }, { w with disk := d, cells := cells })

variable {ix : Index} {w w' : Workspace} {s : Buffered} {α : Type}

/-- So it is for a handle that has read nothing but the header. -/
theorem Opened.wholeBlocks {store : Store} {options : OpenOptions} {cell : Nat}
    (h : Opened store options cell w ix w')
    (hw : w.Admits store (options.cache.getD Workspace.commonCache) cell) : ix.WholeBlocks w' := by
  obtain ⟨hcache, -, hworkable, hmirrors, -, -⟩ := h.mirrors hw
  refine ⟨hcache, hworkable, hmirrors.sound, hmirrors.store, fun i b hb hfile => ?_, ?_⟩
  · exact Mount.length_read? (hmirrors.same i b hb hfile)
  · rw [h.below (h.cache ▸ hw.cache)]
    intro reg hreg
    change (Cache.register _ store).2.registration? ix.file = some reg at hreg
    rw [h.file] at hreg
    simp only [Cache.registration?, Cache.register, List.lookup_cons_self] at hreg
    cases hreg
    simp

/-- What is not cached has no part in it. -/
theorem WholeBlocks.altered (h : ix.WholeBlocks w) (c : Cursor) (d : Disk) (cells : Array Nat) :
    ({ ix with cursor := c } : Index).WholeBlocks { w with disk := d, cells := cells } :=
  ⟨h.cache, h.workable, h.fit.sound, h.fit.store, h.fit.length, h.fit.clear⟩

/-- After work in its cache. -/
theorem WholeBlocks.after (h : ix.WholeBlocks w) (hs : ix.mount.Fit s) (c : Cursor)
    (cells : Array Nat) :
    ({ ix with cursor := c } : Index).WholeBlocks { w.withBelow ix.cache s with cells := cells } := by
  have hbelow := Workspace.below_withBelow (s := s) h.cache
  refine ⟨?_, h.workable, ?_⟩
  · exact (Array.size_setIfInBounds ..).symm ▸ h.cache
  · show ix.mount.Fit ((w.withBelow ix.cache s).below ix.cache)
    rwa [hbelow]

/-- A session of the handle. -/
theorem WholeBlocks.transact (h : ix.WholeBlocks w) (mode : EndMode) {C : Prop} {program : Program α}
    {Q : α → Prop} (hprogram : program.KeepsLength C ix.tree.layout.blockSize Q) :
    Ends (Session.transact ix.file ix.tree.layout ix.mode.locked mode program) (w.below ix.cache)
      fun r s => (r = .error .outOfRange → C) ∧ ix.mount.Fit s ∧
        ∀ o, r = .ok o → Q o.1 ∧ (o.2 = .error .outOfRange → C) := by
  have hroom := h.workable.room
  refine (Session.transact_keepsLength (m := ix.mount) hprogram rfl
    (show 1 + 4 * ix.tree.layout.positionWidth ≤ ix.tree.layout.blockSize by omega) _ _ _ h.fit).mono ?_
  exact fun r s ⟨hr, hs, hok⟩ => ⟨fun he => hr _ he rfl, hs, hok⟩

/-- A call fails as its program or as its end. -/
theorem failed_of_outcome {q : Request} {o : Except Error (q.α × Except Error Unit)} {e : Error}
    (h : q.outcome o = .error e) : o = .error e ∨ ∃ a, o = .ok (a, .error e) := by
  cases o with
  | error e' =>
    cases h
    exact .inl rfl
  | ok a =>
    obtain ⟨a, ended⟩ := a
    cases ended with
    | ok u => cases h
    | error e' =>
      cases h
      exact .inr ⟨a, rfl⟩

/-- Only a deletion is abandoned, and the cached blocks stay whole. -/
theorem WholeBlocks.call (h : ix.WholeBlocks w) (call : Call) : Ends call.run (ix, w) fun r σ =>
    (r = .error .outOfRange → call.deletes = true) ∧ σ.1.WholeBlocks σ.2 := by
  refine Call.run_ends ?_
  have hmeets := call.keepsLength_course h.workable (w.cell ix.cell)
  cases hcourse : call.course ix (w.cell ix.cell) with
  | decided r =>
    rw [hcourse] at hmeets
    exact ⟨fun hr => absurd hr hmeets, h⟩
  | asks q =>
    rw [hcourse] at hmeets
    dsimp only [Course.Meets] at hmeets ⊢
    refine Ends.mono (h.transact ix.mode.endMode hmeets) fun o s ⟨he, hs, hok⟩ =>
      ⟨fun hr => ?_, h.after hs _ _⟩
    rcases failed_of_outcome hr with rfl | ⟨a, rfl⟩
    · exact he rfl
    · exact (hok _ rfl).2 rfl

/-- A flush of the handle. -/
theorem WholeBlocks.flush (h : ix.WholeBlocks w) : Ends Index.flush (ix, w) fun r σ =>
    r ≠ .error .outOfRange ∧ σ.1.WholeBlocks σ.2 := by
  have hdone : (pure () : Program Unit).KeepsLength False ix.tree.layout.blockSize fun _ => True :=
    .done trivial
  have hwritten : Ends (Index.call .flush (pure ())) (ix, w) fun r σ => r ≠ .error .outOfRange ∧
      (∀ o, r = .ok o → o.2 ≠ .error .outOfRange) ∧ σ.1.WholeBlocks σ.2 :=
    call_ends ((h.transact .flush hdone).mono fun r s ⟨he, hs, hok⟩ =>
      ⟨he, fun o ho => (hok o ho).2, h.after hs ix.cursor w.cells⟩)
  unfold Index.flush
  refine Ends.bind hwritten (fun e σ hσ => ⟨fun he => hσ.1 (by cases he; rfl), hσ.2.2⟩) ?_
  rintro ⟨⟨⟩, ended⟩ ⟨ix', w'⟩ ⟨-, hended, hσ⟩
  cases ended with
  | error e => exact ⟨fun he => hended _ rfl (by cases he; rfl), hσ⟩
  | ok _ =>
    show Ends (self >>= fun ix => onWorkspace (Workspace.onDisk ix.store.sync)) _ _
    refine self_bind_ends (onWorkspace_ends (Workspace.onDisk_ends ?_))
    exact ((Store.ask_fails ix'.store 0 .sync 0).ends w'.disk).mono fun r d hr =>
      ⟨fun he => (Error.OfCache.disk (hr _ he)).ne_outOfRange rfl, hσ.altered ix'.cursor d w'.cells⟩

theorem HandleEvent.wholeBlocks {σ τ : Index × Workspace} (hstep : HandleEvent σ τ)
    (h : σ.1.WholeBlocks σ.2) :
    τ.1.WholeBlocks τ.2 := by
  cases hstep with
  | visited ix w visit =>
    refine Ends.ending (Q := fun _ (τ : Index × Workspace) => τ.1.WholeBlocks τ.2) ?_
    cases visit with
    | call turn => exact Ends.bind (h.call turn.call) (fun _ _ h => h.2) fun _ _ h => h.2
    | flush i => exact Ends.bind h.flush (fun _ _ h => h.2) fun _ _ h => h.2
  | purged ix w =>
    refine Ends.ending (Q := fun _ w' => ix.WholeBlocks w') (Workspace.onCache_ends ?_)
    exact (Cache.purge_fit h.fit).mono fun _ s hs => h.after hs ix.cursor w.cells
  | altered ix w c d cells => exact h.altered c d cells

/-- Whatever happens to a handle, its cached blocks stay whole. -/
theorem WholeBlocks.handleEvents {σ τ : Index × Workspace} (h : σ.1.WholeBlocks σ.2)
    (hrun : Relation.ReflTransGen HandleEvent σ τ) : τ.1.WholeBlocks τ.2 := by
  induction hrun with
  | refl => exact h
  | tail _ hstep ih => exact hstep.wholeBlocks ih

end Index

end PagedIndex
