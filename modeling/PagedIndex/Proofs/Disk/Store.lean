import PagedIndex.Disk.Store
import PagedIndex.Proofs.Disk.Contents
import PagedIndex.Proofs.Effect

/-!
# Accesses through stores

Whatever an access comes to, it leaves the contents of all volumes alone, but for a write that goes
through: it changes a range of its own volume. How a volume refuses accesses never changes.

## Main definitions

* `Disk.Follows` — a later disk with the same volumes.
* `Store.Reliable` — a store that fails no read and no write within its bounds.
* `Store.Yields` — a store that fails no read within its bounds.
* `Store.Refuses` — an access may be refused.
* `Store.Takes` — a store that fails no write within its bounds.
-/

namespace PagedIndex

namespace Disk

def contents (d : Disk) (id : Nat) : Contents := (d.volume id).contents

theorem volume_modifyVolume (d : Disk) (id id' : Nat) (f : Volume → Volume) :
    (d.modifyVolume id f).volume id' =
      if id' = id ∧ id < d.volumes.size then f (d.volume id) else d.volume id' := by
  simp only [modifyVolume, volume, Array.getD_eq_getD_getElem?, Array.getElem?_modify]
  by_cases h : id' = id
  · subst h
    by_cases hlt : id' < d.volumes.size
    · simp [hlt]
    · simp [hlt]
  · simp [h, Ne.symm h]

/-- A later disk: the same volumes, which refuse accesses as before. -/
structure Follows (d d' : Disk) : Prop where
  size : d'.volumes.size = d.volumes.size
  refusal : ∀ id, (d'.volume id).refusal = (d.volume id).refusal
  limit : ∀ id, (d'.volume id).limit = (d.volume id).limit

theorem Follows.refl (d : Disk) : d.Follows d := ⟨rfl, fun _ => rfl, fun _ => rfl⟩

theorem Follows.trans {d₁ d₂ d₃ : Disk} (h : d₁.Follows d₂) (h' : d₂.Follows d₃) :
    d₁.Follows d₃ :=
  ⟨h'.size.trans h.size, fun id => (h'.refusal id).trans (h.refusal id),
    fun id => (h'.limit id).trans (h.limit id)⟩

theorem follows_modifyVolume (d : Disk) (id : Nat) {f : Volume → Volume}
    (hrefusal : ∀ v, (f v).refusal = v.refusal) (hlimit : ∀ v, (f v).limit = v.limit) :
    d.Follows (d.modifyVolume id f) := by
  refine ⟨by simp [modifyVolume], fun id' => ?_, fun id' => ?_⟩
  all_goals
    rw [volume_modifyVolume]
    split
    · next h => rw [h.1]; first | exact hrefusal _ | exact hlimit _
    · rfl

end Disk

namespace Store

variable {s : Store} {d : Disk} {id : Nat}

/-- A store that refuses no access and has room for all. -/
structure Reliable (s : Store) (d : Disk) : Prop where
  refusal : ∀ access n, (d.volume s.volume).refusal access n = none
  limit : (d.volume s.volume).limit = none
  kind : s.kind = .memory ∨ s.kind = .file true

theorem Reliable.follows {d' : Disk} (h : s.Reliable d) (hf : d.Follows d') : s.Reliable d' :=
  ⟨fun access n => by rw [hf.refusal]; exact h.refusal access n,
    (hf.limit _).trans h.limit, h.kind⟩

/-- A store that refuses no read. -/
structure Yields (s : Store) (d : Disk) : Prop where
  refusal : ∀ n, (d.volume s.volume).refusal .read n = none
  kind : s.kind ≠ .folder

theorem Yields.follows {d' : Disk} (h : s.Yields d) (hf : d.Follows d') : s.Yields d' :=
  ⟨fun n => by rw [hf.refusal]; exact h.refusal n, h.kind⟩

theorem Reliable.yields (h : s.Reliable d) : s.Yields d := by
  refine ⟨fun n => h.refusal .read n, fun hfolder => ?_⟩
  rcases h.kind with hkind | hkind <;> exact nomatch hfolder.symm.trans hkind

/-- Being asked leaves all contents alone. -/
theorem ask_ends (s : Store) (d : Disk) (access : Access) (offset length : Nat) :
    Ends (s.ask access offset length) d fun r d' =>
      d.Follows d' ∧ (∀ id, d'.contents id = d.contents id) ∧
        (s.Reliable d → r = .ok ()) := by
  have hf : d.Follows (d.modifyVolume s.volume fun v => (v.ask access offset length).1) :=
    Disk.follows_modifyVolume _ _ (fun _ => rfl) fun _ => rfl
  have hc : ∀ id, (d.modifyVolume s.volume fun v => (v.ask access offset length).1).contents id =
      d.contents id := by
    intro id
    unfold Disk.contents
    rw [Disk.volume_modifyVolume]
    split
    · next h => rw [h.1]; rfl
    · rfl
  unfold ask
  refine Ends.get_bind (Ends.modify_bind ?_)
  split
  · exact Ends.pure ⟨hf, hc, fun _ => rfl⟩
  · next cause hcause =>
    refine Ends.throw ⟨hf, hc, fun hs => ?_⟩
    have : (d.volume s.volume).refusal access _ = some cause := hcause
    rw [hs.refusal] at this
    cases this

/-- An access that may fail with an error. -/
def Refuses (s : Store) (d : Disk) (access : Access) (e : Error) : Prop :=
  ∃ n cause, (d.volume s.volume).refusal access n = some cause ∧ e = access.error cause

theorem Refuses.of_follows {d' : Disk} {access : Access} {e : Error}
    (h : s.Refuses d' access e) (hf : d.Follows d') : s.Refuses d access e := by
  obtain ⟨n, cause, hcause, he⟩ := h
  exact ⟨n, cause, by rw [← hf.refusal]; exact hcause, he⟩

theorem Reliable.not_refuses (h : s.Reliable d) (access : Access) (e : Error) :
    ¬s.Refuses d access e := by
  rintro ⟨n, cause, hcause, -⟩
  rw [h.refusal] at hcause
  cases hcause

/-- An access fails only if it is refused. -/
theorem ask_refused (s : Store) (d : Disk) (access : Access) (offset length : Nat) :
    Ends (s.ask access offset length) d fun r _ => ∀ e, r = .error e → s.Refuses d access e := by
  unfold ask
  refine Ends.get_bind (Ends.modify_bind ?_)
  split
  · exact Ends.pure nofun
  · next cause hcause =>
    refine Ends.throw fun e he => ?_
    cases he
    exact ⟨_, cause, hcause, rfl⟩

/-- What a read from disk `d` to disk `d'` with result `r` comes to. -/
structure Got (s : Store) (offset length : Nat) (d : Disk) (r : Except Error Bytes) (d' : Disk) :
    Prop where
  follows : d.Follows d'
  contents : ∀ id, d'.contents id = d.contents id
  ok : ∀ b, r = .ok b → b = (d.contents s.volume).read offset length
  yields : s.Yields d → offset + length < offsetBound → ∃ b, r = .ok b

/-- What is read is what the volume holds. -/
theorem read_ends (s : Store) (d : Disk) (offset length : Nat) :
    Ends (s.read offset length) d (s.Got offset length d) := by
  unfold read
  refine Ends.bind ((ask_ends s d .read offset length).and (ask_refused s d .read offset length)) ?_ ?_
  · rintro e d' ⟨⟨hf, hc, -⟩, hrefused⟩
    refine ⟨hf, hc, fun b hb => (nomatch hb), fun hs => ?_⟩
    obtain ⟨n, cause, hcause, -⟩ := hrefused e rfl
    exact nomatch (hs.refusal n).symm.trans hcause
  · rintro ⟨⟩ d' ⟨⟨hf, hc, -⟩, -⟩
    have hgot : s.Got offset length d
        (.ok ((d'.volume s.volume).contents.read offset length)) d' := by
      refine ⟨hf, hc, fun b hb => ?_, fun _ _ => ⟨_, rfl⟩⟩
      rw [← hc]
      cases hb
      rfl
    cases hkind : s.kind with
    | memory => exact hgot
    | folder =>
      exact Ends.throw ⟨hf, hc, fun b hb => (nomatch hb), fun hs => absurd hkind hs.kind⟩
    | file writable =>
      simp only
      split
      · exact Ends.throw ⟨hf, hc, fun b hb => (nomatch hb), fun _ hlt => absurd hlt (by omega)⟩
      · exact hgot

/-- What a write from disk `d` to disk `d'` with result `r` comes to. -/
structure Wrote (s : Store) (offset : Nat) (data : Bytes) (d : Disk) (r : Except Error Unit)
    (d' : Disk) : Prop where
  follows : d.Follows d'
  apart : ∀ id, id ≠ s.volume → d'.contents id = d.contents id
  error : ∀ e, r = .error e → d'.contents s.volume = d.contents s.volume
  ok : r = .ok () → s.volume < d.volumes.size → data ≠ [] →
    d'.contents s.volume = (d.contents s.volume).write offset data
  reliable : s.Reliable d → offset + data.length < offsetBound → r = .ok ()

theorem Wrote.of_error {offset : Nat} {data : Bytes} {d' : Disk} {e : Error} (hf : d.Follows d')
    (hc : ∀ id, d'.contents id = d.contents id)
    (hnot : s.Reliable d → ¬offset + data.length < offsetBound) :
    s.Wrote offset data d (.error e) d' :=
  ⟨hf, fun id _ => hc id, fun _ _ => hc _, fun h => (nomatch h),
    fun hs hlt => absurd hlt (hnot hs)⟩

theorem put_ends {offset : Nat} {data : Bytes} {d' : Disk} (hf : d.Follows d')
    (hc : ∀ id, d'.contents id = d.contents id) :
    Ends (s.put offset data) d' (s.Wrote offset data d) := by
  show s.Wrote offset data d (.ok ()) (d'.modifyVolume s.volume _)
  refine ⟨hf.trans (Disk.follows_modifyVolume _ _ (fun _ => rfl) fun _ => rfl), ?_,
    fun _ h => (nomatch h), ?_, fun _ _ => rfl⟩
  · intro id hid
    rw [← hc]
    unfold Disk.contents
    rw [Disk.volume_modifyVolume, if_neg fun h => hid h.1]
  · intro _ hlt _
    rw [← hc]
    unfold Disk.contents
    rw [Disk.volume_modifyVolume, if_pos ⟨rfl, by rw [hf.size]; exact hlt⟩]

/-- A write that goes through changes a range of its volume; any other changes nothing. -/
theorem write_ends (s : Store) (d : Disk) (offset : Nat) (data : Bytes) :
    Ends (s.write offset data) d (s.Wrote offset data d) := by
  unfold write
  refine Ends.bind (ask_ends s d .write offset data.length) ?_ ?_
  · rintro e d' ⟨hf, hc, hr⟩
    exact .of_error hf hc fun hs => nomatch hr hs
  · rintro ⟨⟩ d' ⟨hf, hc, -⟩
    refine Ends.get_bind ?_
    cases hroom : (d'.volume s.volume).hasRoom offset data.length with
    | false =>
      refine Ends.throw (.of_error hf hc fun hs => ?_)
      simp only [Volume.hasRoom, hf.limit, hs.limit] at hroom
      cases hroom
    | true =>
      simp only [Bool.not_true, Bool.false_eq_true, if_false]
      cases hkind : s.kind with
      | memory => exact put_ends hf hc
      | folder =>
        refine Ends.throw (.of_error hf hc fun hs => ?_)
        rcases hs.kind with hk | hk <;> rw [hkind] at hk <;> cases hk
      | file writable =>
        simp only
        split
        · next hge => exact Ends.throw (.of_error hf hc fun _ => by omega)
        · split
          · next hempty =>
            exact ⟨hf, fun id _ => hc id, fun _ _ => hc _,
              fun _ _ hdata => absurd (List.isEmpty_iff.mp hempty) hdata, fun _ _ => rfl⟩
          · cases writable with
            | true => exact put_ends hf hc
            | false =>
              refine Ends.throw (.of_error hf hc fun hs => ?_)
              rcases hs.kind with hk | hk <;> rw [hkind] at hk <;> cases hk

/-! ## Stores that take what is written -/

/-- A store that refuses no write and has room for all. -/
structure Takes (s : Store) (d : Disk) : Prop where
  refusal : ∀ n, (d.volume s.volume).refusal .write n = none
  limit : (d.volume s.volume).limit = none
  kind : s.kind = .memory ∨ s.kind = .file true

theorem Reliable.takes (h : s.Reliable d) : s.Takes d :=
  ⟨fun n => h.refusal .write n, h.limit, h.kind⟩

theorem Takes.follows {d' : Disk} (h : s.Takes d) (hf : d.Follows d') : s.Takes d' :=
  ⟨fun n => by rw [hf.refusal]; exact h.refusal n, by rw [hf.limit]; exact h.limit, h.kind⟩

/-- A write to such a store fails only if it ends too far behind for a file. -/
theorem write_told (h : s.Takes d) (offset : Nat) (data : Bytes) :
    Ends (s.write offset data) d fun r _ =>
      r = if s.kind = .memory ∨ offset + data.length < offsetBound then .ok ()
        else .error (.io (.system .invalidArgument)) := by
  unfold write
  refine Ends.bind ((ask_ends s d .write offset data.length).and
    (ask_refused s d .write offset data.length)) ?_ ?_
  · rintro e d' ⟨-, hrefused⟩
    obtain ⟨n, cause, hcause, -⟩ := hrefused e rfl
    rw [h.refusal] at hcause
    cases hcause
  · rintro ⟨⟩ d' ⟨⟨hf, -, -⟩, -⟩
    refine Ends.get_bind ?_
    have hroom : (d'.volume s.volume).hasRoom offset data.length = true := by
      unfold Volume.hasRoom
      rw [(h.follows hf).limit]
    simp only [hroom, Bool.not_true, Bool.false_eq_true, if_false]
    rcases h.kind with hkind | hkind
    · rw [if_pos (Or.inl hkind)]
      simp only [hkind]
      exact rfl
    · by_cases hbound : offset + data.length < offsetBound
      · rw [if_pos (Or.inr hbound)]
        simp only [hkind, if_neg (Nat.not_le_of_lt hbound)]
        split <;> exact rfl
      · have hnot : ¬(s.kind = .memory ∨ offset + data.length < offsetBound) := by
          simp [hkind, hbound]
        rw [if_neg hnot]
        simp only [hkind, if_pos (Nat.le_of_not_lt hbound)]
        exact rfl

theorem write_takes (h : s.Takes d) {offset : Nat} {data : Bytes}
    (hlt : offset + data.length < offsetBound) :
    Ends (s.write offset data) d fun r _ => r = .ok () :=
  (write_told h offset data).mono fun _ _ hr => hr.trans (if_pos (.inr hlt))

end Store

end PagedIndex
